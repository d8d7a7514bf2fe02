import KernelPack.Proofs.Lexis.Relexing

/-!
# Lexing renamed lexemes

Some identifiers of a text are **renamed**. The text and what becomes of it are then two versions of
one text, whose pieces can be read off the lexemes: an identifier with an alias is swapped, all else
is kept (`pieces`). Lexing the renamed text gives the renamed lexemes (`lex_rename`), as long as

* every renamed identifier stands apart from what could run into it (`Apart`), and
* it is clear what the renamed identifiers are: no rule of its own applies to them or to their
  aliases, and none stands right after a number (`Clear`).

The proof is by induction on the length of the text. A step takes the same pieces in both versions,
and these are the pieces of the lexemes it gives, since no piece is empty (`Apart.append_inj`).
-/

namespace KernelPack.Lexis

/-! ### Lexemes as pieces -/

section Pieces

variable (f : List Char → Option (List Char))

/-- What the lexeme is renamed to, if it is an identifier with an alias. -/
def Lexeme.alias? (l : Lexeme) : Option (List Char) :=
  if l.kind = .identifier then f l.text else none

/-- The lexeme after renaming. -/
def Lexeme.rename (l : Lexeme) : Lexeme := { l with text := (l.alias? f).getD l.text }

/-- The lexeme before and after renaming. -/
def Lexeme.pieces (l : Lexeme) : List Piece :=
  match l.alias? f with
  | some w => [.swapped l.text w]
  | none => l.text.map .kept

/-- The text of lexemes before and after renaming. -/
def pieces (ls : List Lexeme) : List Piece := ls.flatMap (Lexeme.pieces f)

/-- It is clear what the renamed identifiers are. -/
structure Clear (ls : List Lexeme) : Prop where
  /-- No other rule applies to the identifiers, nor to their aliases. -/
  plain : ∀ l ∈ ls, ∀ w, l.alias? f = some w → isPlain l.text = true ∧ isPlain w = true
  /-- No number stands right before one. -/
  numbers : ∀ before l after, ls = before ++ l :: after →
    l.text.head?.any Text.isDigit = true → StartsKept (pieces f after)

variable {f}

@[simp] theorem Lexeme.olds_pieces (l : Lexeme) : olds (l.pieces f) = l.text := by
  unfold Lexeme.pieces
  cases l.alias? f with
  | none => exact olds_map_kept l.text
  | some w => exact List.append_nil l.text

@[simp] theorem Lexeme.news_pieces (l : Lexeme) : news (l.pieces f) = (l.rename f).text := by
  unfold Lexeme.pieces Lexeme.rename
  cases l.alias? f with
  | none => exact news_map_kept l.text
  | some w => exact List.append_nil w

/-- Only identifiers are swapped. -/
theorem Lexeme.pieces_of_ne {l : Lexeme} (h : l.kind ≠ .identifier) :
    l.pieces f = l.text.map .kept := by
  rw [Lexeme.pieces, Lexeme.alias?, if_neg h]

@[simp] theorem pieces_nil : pieces f [] = [] := rfl

@[simp] theorem pieces_cons (l : Lexeme) (ls : List Lexeme) :
    pieces f (l :: ls) = l.pieces f ++ pieces f ls := rfl

@[simp] theorem pieces_append (ls ms : List Lexeme) :
    pieces f (ls ++ ms) = pieces f ls ++ pieces f ms :=
  List.flatMap_append

theorem olds_pieces (ls : List Lexeme) : olds (pieces f ls) = ls.flatMap Lexeme.text := by
  induction ls with
  | nil => rfl
  | cons l ls ih => rw [pieces_cons, olds_append, Lexeme.olds_pieces, ih, List.flatMap_cons]

theorem news_pieces (ls : List Lexeme) :
    news (pieces f ls) = (ls.map (Lexeme.rename f)).flatMap Lexeme.text := by
  induction ls with
  | nil => rfl
  | cons l ls ih =>
    rw [pieces_cons, news_append, Lexeme.news_pieces, ih, List.map_cons, List.flatMap_cons]

/-- The first version, with what is left over. -/
theorem olds_pieces_append (ls : List Lexeme) (left : List Char) :
    olds (pieces f ls ++ left.map .kept) = ls.flatMap Lexeme.text ++ left := by
  rw [olds_append, olds_pieces, olds_map_kept]

/-- The second version, with what is left over. -/
theorem news_pieces_append (ls : List Lexeme) (left : List Char) :
    news (pieces f ls ++ left.map .kept) =
      (ls.map (Lexeme.rename f)).flatMap Lexeme.text ++ left := by
  rw [news_append, news_pieces, news_map_kept]

/-- What is swapped is an identifier with an alias. -/
theorem exists_of_swapped_mem {w w' : List Char} {ls : List Lexeme}
    (h : .swapped w w' ∈ pieces f ls) : ∃ l ∈ ls, l.text = w ∧ l.alias? f = some w' := by
  obtain ⟨l, hl, hmem⟩ := List.mem_flatMap.mp h
  unfold Lexeme.pieces at hmem
  split at hmem
  · rename_i v hv
    obtain ⟨rfl, rfl⟩ : w = l.text ∧ w' = v := by simpa using hmem
    exact ⟨l, hl, rfl, hv⟩
  · simp at hmem

theorem Clear.of_infix {ls ms : List Lexeme} (h : Clear f ls) (hms : ms <:+: ls) :
    Clear f ms where
  plain l hl := h.plain l (hms.mem hl)
  numbers before l after hsplit hdigit := by
    obtain ⟨a, b, rfl⟩ := hms
    have hstart := h.numbers (a ++ before) l (after ++ b) (by simp [hsplit]) hdigit
    rw [pieces_append] at hstart
    exact hstart.of_append

/-- A swapped word at the beginning is plain. -/
theorem Clear.plainHead {ls : List Lexeme} (h : Clear f ls) (left : List Char) :
    PlainHead (pieces f ls ++ left.map .kept) := by
  generalize hps : pieces f ls ++ left.map .kept = ps
  match ps with
  | [] => trivial
  | .kept _ :: _ => trivial
  | .swapped w w' :: ps =>
    have hmem : Piece.swapped w w' ∈ pieces f ls ++ left.map .kept := by simp [hps]
    obtain hmem | hmem := List.mem_append.mp hmem
    · obtain ⟨l, hl, rfl, hw⟩ := exists_of_swapped_mem hmem
      exact h.plain l hl w' hw
    · simp at hmem

end Pieces

theorem StartsKept.append_map_kept {ps : List Piece} (h : StartsKept ps) (left : List Char) :
    StartsKept (ps ++ left.map .kept) := by
  match ps, h with
  | [], _ => cases left <;> trivial
  | .kept _ :: _, _ => trivial

/-! ### Pieces are not empty -/

theorem Apart.olds_ne_nil {p : Piece} {ps : List Piece} (h : Apart (p :: ps)) :
    olds (p :: ps) ≠ [] := by
  have hne := h.ne_nil.1
  simp [olds, hne]

/-- The pieces up to a point are determined by their first version. -/
theorem Apart.append_inj {as bs cs ds : List Piece} (h : Apart (as ++ bs))
    (heq : as ++ bs = cs ++ ds) (hold : olds as = olds cs) : as = cs ∧ bs = ds := by
  induction as generalizing cs with
  | nil =>
    cases cs with
    | nil => exact ⟨rfl, heq⟩
    | cons c cs =>
      obtain rfl : bs = c :: cs ++ ds := heq
      have hcs : Apart (c :: cs) := Apart.of_append h
      exact absurd hold.symm hcs.olds_ne_nil
  | cons a as ih =>
    cases cs with
    | nil =>
      have has : Apart (a :: as) := Apart.of_append h
      exact absurd hold has.olds_ne_nil
    | cons c cs =>
      obtain ⟨rfl, htail⟩ := List.cons.inj heq
      have hold : olds as = olds cs := List.append_cancel_left hold
      obtain ⟨rfl, hbs⟩ := ih h.tail htail hold
      exact ⟨rfl, hbs⟩

/-- So are the pieces of each of several stretches. -/
theorem Apart.forall_eq_of_flatMap_eq {α : Type} {g k : α → List Piece} {xs : List α}
    {ps : List Piece} (h : Apart (xs.flatMap g ++ ps)) (heq : xs.flatMap g = xs.flatMap k)
    (hold : ∀ x ∈ xs, olds (g x) = olds (k x)) : ∀ x ∈ xs, g x = k x := by
  induction xs with
  | nil => exact nofun
  | cons x xs ih =>
    rw [List.flatMap_cons, List.append_assoc] at h
    rw [List.flatMap_cons, List.flatMap_cons] at heq
    obtain ⟨hx, hxs⟩ := List.forall_mem_cons.mp hold
    have happ : g x ++ (xs.flatMap g ++ ps) = k x ++ (xs.flatMap k ++ ps) := by
      rw [← List.append_assoc, heq, List.append_assoc]
    obtain ⟨hhead, htail⟩ := Apart.append_inj h happ hx
    refine List.forall_mem_cons.mpr ⟨hhead, ?_⟩
    exact ih (h.of_suffix (List.suffix_append _ _)) (List.append_cancel_right htail) hxs

/-- One version is empty exactly if the other is. -/
theorem Apart.length_le_zero_iff {ps : List Piece} (h : Apart ps) :
    (olds ps).length ≤ 0 ↔ (news ps).length ≤ 0 := by
  have hlen := h.length_lt_iff List.nil_suffix
  simp only [olds_nil, news_nil, List.length_nil] at hlen
  omega

/-- One version is shorter than the whole exactly if the other is. -/
theorem Apart.length_lt_length_iff {as qs bs : List Piece} (h : Apart (as ++ qs ++ bs)) :
    (olds qs).length < (olds (as ++ qs ++ bs)).length ↔
      (news qs).length < (news (as ++ qs ++ bs)).length := by
  have has := h.of_append.of_append.length_le_zero_iff
  have hbs := (h.of_suffix (List.suffix_append _ bs)).length_le_zero_iff
  simp only [olds_append, news_append, List.length_append]
  omega

/-! ### Lexing -/

/-- The lexemes of a part make it up. -/
theorem Grammar.flatMap_partLexemes {μ : Type} [DecidableEq μ] (G : Grammar μ) (limit : Nat)
    (part : Action × List Char) :
    (G.partLexemes limit part).flatMap Lexeme.text = part.2 := by
  obtain ⟨action, text⟩ := part
  cases action with
  | token kind => simp [partLexemes]
  | nested =>
    simp only [partLexemes]
    split
    · obtain ⟨left, hleft, hzero⟩ := G.exists_flatMap_lex 0 [] ⟨none, text⟩
      obtain rfl := List.length_eq_zero_iff.mp (Nat.le_zero.mp hzero)
      simpa using hleft
    · simp

/-- No step begins in what is held in reserve. -/
theorem Grammar.lex_of_le {μ : Type} [DecidableEq μ] (G : Grammar μ) {reserve : Nat}
    (stack : List μ) {s : Place} (h : s.rest.length ≤ reserve) : G.lex reserve stack s = [] := by
  obtain ⟨prev, text⟩ := s
  cases text with
  | nil => exact G.lex_nil reserve stack prev
  | cons c rest => rw [lex_cons, if_pos h]

/-- A step and then what comes after it. -/
theorem Grammar.lex_of_lt {μ : Type} [DecidableEq μ] (G : Grammar μ) {reserve : Nat}
    (stack : List μ) (prev : Option Char) {c : Char} {rest : List Char}
    (h : ¬ (c :: rest).length ≤ reserve) :
    G.lex reserve stack ⟨prev, c :: rest⟩ =
      (G.step stack prev c rest).parts.flatMap (G.partLexemes (c :: rest).length)
        ++ G.lex reserve (G.step stack prev c rest).stack (G.step stack prev c rest).next := by
  rw [lex_cons, if_neg h]

section Renaming

variable {f : List Char → Option (List Char)}

/-- Texts shorter than `n` that are lexed on their own can be renamed first. -/
def RenamesBelow (f : List Char → Option (List Char)) (n : Nat) : Prop :=
  ∀ {text text' : List Char}, text.length < n →
    Beside (pieces f (kernelGrammar.lex 0 [] ⟨none, text⟩)) ⟨none, text⟩ ⟨none, text'⟩ →
    Clear f (kernelGrammar.lex 0 [] ⟨none, text⟩) →
    kernelGrammar.lex 0 [] ⟨none, text'⟩ =
      (kernelGrammar.lex 0 [] ⟨none, text⟩).map (Lexeme.rename f)

/-- The lexemes of a part. -/
theorem partLexemes_rename {n n' : Nat} {action : Action} {qs : List Piece}
    (ih : RenamesBelow f n)
    (hlt : (olds qs).length < n ↔ (news qs).length < n') (hapart : Apart qs)
    (hqs : qs = pieces f (kernelGrammar.partLexemes n (action, olds qs)))
    (hclear : Clear f (kernelGrammar.partLexemes n (action, olds qs))) :
    kernelGrammar.partLexemes n' (action, news qs) =
      (kernelGrammar.partLexemes n (action, olds qs)).map (Lexeme.rename f) := by
  -- a part that is one lexeme is the lexeme before and after renaming
  have hsingle : ∀ kind, qs = pieces f [⟨kind, olds qs⟩] →
      [⟨kind, news qs⟩] = [(⟨kind, olds qs⟩ : Lexeme)].map (Lexeme.rename f) := by
    intro kind h
    have hnews : news qs = ((⟨kind, olds qs⟩ : Lexeme).rename f).text := by
      conv => lhs; rw [h]
      rw [pieces_cons, pieces_nil, List.append_nil, Lexeme.news_pieces]
    rw [hnews]
    rfl
  cases action with
  | token kind => exact hsingle kind hqs
  | nested =>
    simp only [Grammar.partLexemes, ← hlt] at hqs hclear ⊢
    split
    · rename_i hshort
      rw [if_pos hshort] at hqs hclear
      refine ih hshort ?_ hclear
      rw [← hqs]
      exact ⟨rfl, rfl, Or.inl rfl, hapart, fun c hc => absurd hc (Option.not_mem_none c)⟩
    · rename_i hlong
      rw [if_neg hlong] at hqs
      exact hsingle .other hqs

/-- The pieces that a step takes are those of its lexemes. -/
theorem Apart.forall_eq_pieces {n : Nat} {cuts : List (Action × List Piece)}
    {qs rs : List Piece} (h : Apart (cuts.flatMap Prod.snd ++ qs))
    (heq : cuts.flatMap Prod.snd ++ qs = pieces f
      ((cuts.map fun cut => (cut.1, olds cut.2)).flatMap (kernelGrammar.partLexemes n)) ++ rs) :
    (∀ cut ∈ cuts, cut.2 = pieces f (kernelGrammar.partLexemes n (cut.1, olds cut.2))) ∧
      qs = rs := by
  have hpieces : pieces f
      ((cuts.map fun cut => (cut.1, olds cut.2)).flatMap (kernelGrammar.partLexemes n)) =
      cuts.flatMap fun cut => pieces f (kernelGrammar.partLexemes n (cut.1, olds cut.2)) := by
    rw [List.flatMap_map, pieces, List.flatMap_assoc]
    rfl
  have hold : ∀ cut : Action × List Piece,
      olds cut.2 = olds (pieces f (kernelGrammar.partLexemes n (cut.1, olds cut.2))) := by
    intro cut
    rw [olds_pieces, Grammar.flatMap_partLexemes]
  rw [hpieces] at heq
  obtain ⟨hcuts, hqs⟩ := h.append_inj heq (by
    rw [olds, olds, List.flatMap_assoc, List.flatMap_assoc]
    exact congrArg (cuts.flatMap ·) (funext hold))
  exact ⟨h.forall_eq_of_flatMap_eq hcuts fun cut _ => hold cut, hqs⟩

/-- The lexemes of a step. -/
theorem flatMap_partLexemes_rename {n n' : Nat} (ih : RenamesBelow f n)
    {cuts : List (Action × List Piece)} {qs : List Piece}
    (hapart : Apart (cuts.flatMap Prod.snd ++ qs))
    (hn : (olds (cuts.flatMap Prod.snd ++ qs)).length = n)
    (hn' : (news (cuts.flatMap Prod.snd ++ qs)).length = n')
    (hcuts : ∀ cut ∈ cuts, cut.2 = pieces f (kernelGrammar.partLexemes n (cut.1, olds cut.2)))
    (hclear : Clear f
      ((cuts.map fun cut => (cut.1, olds cut.2)).flatMap (kernelGrammar.partLexemes n))) :
    (cuts.map fun cut => (cut.1, news cut.2)).flatMap (kernelGrammar.partLexemes n') =
      ((cuts.map fun cut => (cut.1, olds cut.2)).flatMap (kernelGrammar.partLexemes n)).map
        (Lexeme.rename f) := by
  have hpart : ∀ cut ∈ cuts, kernelGrammar.partLexemes n' (cut.1, news cut.2) =
      (kernelGrammar.partLexemes n (cut.1, olds cut.2)).map (Lexeme.rename f) := by
    intro cut hcut
    obtain ⟨as, bs, rfl⟩ := List.append_of_mem hcut
    have hsplit : (as ++ cut :: bs).flatMap Prod.snd ++ qs =
        as.flatMap Prod.snd ++ cut.2 ++ (bs.flatMap Prod.snd ++ qs) := by
      simp
    rw [hsplit] at hapart hn hn'
    refine partLexemes_rename ih ?_ ?_ (hcuts cut hcut) (hclear.of_infix ?_)
    · rw [← hn, ← hn']
      exact hapart.length_lt_length_iff
    · exact hapart.of_append.of_suffix (List.suffix_append _ _)
    · rw [List.map_append, List.map_cons, List.flatMap_append, List.flatMap_cons,
        ← List.append_assoc]
      exact List.infix_append _ _ _
  rw [List.map_flatMap, List.flatMap_map, List.flatMap_map, List.flatMap_def, List.flatMap_def,
    List.map_congr_left hpart]

/-- The pieces fit the lexemes that a step begins with. -/
theorem Clear.keeps {n : Nat} {parts : List (Action × List Char)} {later : List Lexeme}
    (h : Clear f (parts.flatMap (kernelGrammar.partLexemes n) ++ later)) (left : List Char) :
    Keeps (pieces f (parts.flatMap (kernelGrammar.partLexemes n) ++ later) ++ left.map .kept)
      parts := by
  rintro kind v rest rfl hkind
  refine ⟨pieces f (rest.flatMap (kernelGrammar.partLexemes n) ++ later) ++ left.map .kept, ?_, ?_⟩
  · have hkept : Lexeme.pieces f ⟨kind, v⟩ = v.map .kept := Lexeme.pieces_of_ne hkind
    simp [Grammar.partLexemes, hkept]
  · rintro rfl hdigit
    exact (h.numbers [] ⟨kind, v⟩ later rfl hdigit).append_map_kept left

/-- **Lexing a renamed text gives the renamed lexemes.** What is left over, `left`, is the same in
both versions. -/
theorem lex_rename {reserve : Nat} {stack : List Mode} {s s' : Place} {left : List Char}
    (hb : Beside (pieces f (kernelGrammar.lex reserve stack s) ++ left.map .kept) s s')
    (hclear : Clear f (kernelGrammar.lex reserve stack s))
    (hreserve : ∀ qs, qs <:+ pieces f (kernelGrammar.lex reserve stack s) ++ left.map .kept →
      ((olds qs).length ≤ reserve ↔ (news qs).length ≤ reserve)) :
    kernelGrammar.lex reserve stack s' =
      (kernelGrammar.lex reserve stack s).map (Lexeme.rename f) := by
  induction hn : s.rest.length using Nat.strongRecOn generalizing reserve stack s s' left with
  | ind n ih =>
    have hsame : s.rest.length ≤ reserve ↔ s'.rest.length ≤ reserve := by
      rw [hb.rest_old, hb.rest_new]
      exact hreserve _ (List.suffix_refl _)
    by_cases hle : s.rest.length ≤ reserve
    · rw [kernelGrammar.lex_of_le stack hle, kernelGrammar.lex_of_le stack (hsame.mp hle)]
      rfl
    have hle' := mt hsame.mpr hle
    obtain ⟨prev, text⟩ := s
    obtain ⟨prev', text'⟩ := s'
    match text, text', hle, hle' with
    | [], _, hle, _ => exact absurd (Nat.zero_le _) hle
    | _ :: _, [], _, hle' => exact absurd (Nat.zero_le _) hle'
    | c :: rest, c' :: rest', hle, hle' =>
      rw [kernelGrammar.lex_of_lt stack prev hle] at hb hclear hreserve ⊢
      rw [kernelGrammar.lex_of_lt stack prev' hle']
      have hstep := step_beside hb (hclear.plainHead left) (hclear.keeps left)
      have hlater := kernelGrammar.step_lt stack prev c rest
      generalize kernelGrammar.step stack prev c rest = st at hb hclear hreserve hstep hlater ⊢
      generalize kernelGrammar.step stack prev' c' rest' = st' at hstep ⊢
      obtain ⟨parts, stack, next⟩ := st
      obtain ⟨parts', stack', next'⟩ := st'
      obtain ⟨hstack, cuts, qs, hps, hparts, hparts', hnext⟩ := hstep
      dsimp only at *
      subst hstack hparts hparts'
      -- the pieces that the step takes are those of its lexemes
      have hfit := hps
      rw [pieces_append, List.append_assoc] at hfit
      rw [hps] at hb hreserve
      obtain ⟨hcuts, rfl⟩ := hb.apart.forall_eq_pieces hfit.symm
      have hbelow : RenamesBelow f (c :: rest).length := by
        intro text text' hlt hb hclear
        have hb : Beside (pieces f (kernelGrammar.lex 0 [] ⟨none, text⟩)
            ++ ([] : List Char).map .kept) ⟨none, text⟩ ⟨none, text'⟩ := by
          rwa [List.map_nil, List.append_nil]
        exact ih text.length (hn ▸ hlt) hb hclear
          (fun qs hqs => (hb.apart.of_suffix hqs).length_le_zero_iff) rfl
      have hhere := flatMap_partLexemes_rename hbelow hb.apart
        (congrArg List.length hb.rest_old.symm) (congrArg List.length hb.rest_new.symm) hcuts
        (hclear.of_infix (List.prefix_append _ _).isInfix)
      have hrest := ih next.rest.length (hn ▸ hlater) hnext
        (hclear.of_infix (List.suffix_append _ _).isInfix)
        (fun qs hqs => hreserve qs (hqs.trans (List.suffix_append _ _))) rfl
      rw [List.map_append, hhere, hrest]

end Renaming

end KernelPack.Lexis
