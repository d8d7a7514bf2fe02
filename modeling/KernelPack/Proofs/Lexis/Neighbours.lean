import KernelPack.Proofs.Lexis.Renamed

/-!
# What stands around renamed identifiers

Whether a renamed identifier can be told from its neighbours is a matter of the text around it: the
character before it, the character after it, and whether a number comes right before it
(`StandsApart`). If every renamed identifier stands apart in this way then the pieces of the text do
(`apart_pieces`), and it is clear what the identifiers are (`clear_of_renameable`).

A character that is in no word, such as a line feed, is kept where it is; so a text ends in it
before renaming exactly if it does so afterwards (`Apart.getLast?_olds_iff`,
`Apart.getLast?_news_iff`).
-/

namespace KernelPack.Lexis

/-- **A word stands apart** between the lexemes `before` and the text `after` it: neither a word nor
a mark that could take it in stands beside it, and no number right before it. -/
structure StandsApart (before : List (List Char)) (after : List Char) : Prop where
  not_guards : ∀ c ∈ before.flatten.getLast?, guards c = false
  not_word : ∀ c ∈ after.head?, Text.isWord c = false
  not_number : ∀ v ∈ (before.filter fun v => !v.isEmpty).getLast?,
    v.head?.any Text.isDigit = false

instance (before : List (List Char)) (after : List Char) : Decidable (StandsApart before after) :=
  decidable_of_iff
    (before.flatten.getLast?.all (!guards ·) = true ∧ after.head?.all (!Text.isWord ·) = true ∧
      (before.filter fun v => !v.isEmpty).getLast?.all (fun v => !v.head?.any Text.isDigit) = true)
    (by
      simp only [Option.all_eq_true, Bool.not_eq_true']
      exact ⟨fun ⟨hguards, hword, hnumber⟩ => ⟨hguards, hword, hnumber⟩,
        fun h => ⟨h.not_guards, h.not_word, h.not_number⟩⟩)

theorem StandsApart.of_cons {v after : List Char} {before : List (List Char)}
    (h : StandsApart (v :: before) after) : StandsApart before after where
  not_guards c hc := h.not_guards c (by
    rw [List.flatten_cons, List.getLast?_append, Option.mem_def.mp hc]
    rfl)
  not_word := h.not_word
  not_number u hu := h.not_number u (by
    rw [List.filter_cons]
    split
    · rw [List.getLast?_cons, Option.mem_def.mp hu]
      rfl
    · exact hu)

/-- What stands apart still does so with line feeds at the end of the text. -/
theorem StandsApart.append_lineFeeds {before : List (List Char)} {after lfs : List Char}
    (h : StandsApart before after) (hlfs : ∀ c ∈ lfs, c = '\n') :
    StandsApart before (after ++ lfs) where
  not_guards := h.not_guards
  not_word c hc := by
    rw [Option.mem_def, List.head?_append] at hc
    obtain hc | ⟨-, hc⟩ := Option.or_eq_some_iff.mp hc
    · exact h.not_word c hc
    · obtain rfl := hlfs c (List.mem_of_head? hc)
      decide
  not_number := h.not_number

section Renameable

variable {f : List Char → Option (List Char)}

/-- Every identifier that is renamed is a plain word, becomes one, and stands apart. -/
def Renameable (f : List Char → Option (List Char)) (ls : List Lexeme) (left : List Char) : Prop :=
  ∀ before l after w, ls = before ++ l :: after → l.alias? f = some w →
    (IsName l.text ∧ isPlain l.text = true) ∧ (IsName w ∧ isPlain w = true) ∧
      StandsApart (before.map Lexeme.text) (after.flatMap Lexeme.text ++ left)

theorem Renameable.tail {l : Lexeme} {ls : List Lexeme} {left : List Char}
    (h : Renameable f (l :: ls) left) : Renameable f ls left := by
  intro before m after w hsplit hw
  obtain ⟨hold, hnew, hapart⟩ := h (l :: before) m after w (by rw [hsplit]; rfl) hw
  exact ⟨hold, hnew, hapart.of_cons⟩

/-- A swapped word that the pieces begin with is an identifier with nothing before it. -/
theorem exists_of_not_startsKept {ls : List Lexeme} (h : ¬ StartsKept (pieces f ls)) :
    ∃ before l after w, ls = before ++ l :: after ∧ (∀ m ∈ before, m.text = []) ∧
      l.alias? f = some w := by
  induction ls with
  | nil => exact absurd trivial h
  | cons l ls ih =>
    cases hw : l.alias? f with
    | some w => exact ⟨[], l, ls, w, rfl, nofun, hw⟩
    | none =>
      have hkept : l.pieces f = l.text.map .kept := by rw [Lexeme.pieces, hw]
      rw [pieces_cons, hkept] at h
      cases htext : l.text with
      | cons c t =>
        rw [htext] at h
        exact absurd trivial h
      | nil =>
        rw [htext] at h
        obtain ⟨before, m, after, w, rfl, hempty, hm⟩ := ih h
        exact ⟨l :: before, m, after, w, rfl, List.forall_mem_cons.mpr ⟨htext, hempty⟩, hm⟩

/-- Kept characters before pieces that stand apart. -/
theorem apart_map_kept_append {cs : List Char} {ps : List Piece} (hps : Apart ps)
    (hlast : ∀ c ∈ cs.getLast?, guards c = true → StartsKept ps) :
    Apart (cs.map .kept ++ ps) := by
  induction cs with
  | nil => exact hps
  | cons c cs ih =>
    cases cs with
    | nil => exact ⟨hlast c rfl, hps⟩
    | cons d cs =>
      refine ⟨fun _ => trivial, ih fun x hx => hlast x ?_⟩
      rwa [Option.mem_def, List.getLast?_cons_cons]

/-- Pieces that begin with no word character do not go on with a word. -/
theorem Apart.endsWord {ps : List Piece} (h : Apart ps)
    (hhead : ∀ c ∈ (olds ps).head?, Text.isWord c = false) : EndsWord ps := by
  match ps, h, hhead with
  | [], _, _ => trivial
  | .kept c :: ps, _, hhead => exact hhead c rfl
  | .swapped w w' :: ps, h, hhead =>
    obtain ⟨⟨⟨x, t, rfl, hx⟩, -⟩, -⟩ := h
    have hword := hhead x rfl
    rw [isWord_of_isNameStart hx] at hword
    cases hword

/-- **The pieces stand apart** if the renamed identifiers do. -/
theorem apart_pieces {ls : List Lexeme} {left : List Char} (h : Renameable f ls left) :
    Apart (pieces f ls ++ left.map .kept) := by
  induction ls with
  | nil =>
    have hkept : Apart (left.map .kept ++ []) := apart_map_kept_append trivial fun _ _ _ => trivial
    rwa [List.append_nil] at hkept
  | cons l ls ih =>
    have hrest := ih h.tail
    rw [pieces_cons, List.append_assoc, Lexeme.pieces]
    cases hw : l.alias? f with
    | some w =>
      obtain ⟨⟨hold, -⟩, ⟨hnew, -⟩, hapart⟩ := h [] l ls w rfl hw
      refine ⟨hold, hnew, hrest.endsWord ?_, hrest⟩
      rw [olds_pieces_append]
      exact hapart.not_word
    | none =>
      refine apart_map_kept_append hrest fun c hc hguard => ?_
      -- a swapped word that comes next would stand right after the guard
      refine Classical.byContradiction fun hstart => ?_
      obtain ⟨before, m, after, w, rfl, hempty, hm⟩ :=
        exists_of_not_startsKept fun hkept => hstart (hkept.append_map_kept left)
      obtain ⟨-, -, hapart⟩ := h (l :: before) m after w rfl hm
      have hflat : (before.map Lexeme.text).flatten = [] := by
        rw [← List.flatMap_def, List.flatMap_eq_nil_iff]
        exact hempty
      have hfree := hapart.not_guards c (by
        rwa [List.map_cons, List.flatten_cons, hflat, List.append_nil])
      rw [hguard] at hfree
      cases hfree

/-- **It is clear what the renamed identifiers are** if they stand apart. -/
theorem clear_of_renameable {ls : List Lexeme} {left : List Char} (h : Renameable f ls left) :
    Clear f ls where
  plain l hl w hw := by
    obtain ⟨before, after, rfl⟩ := List.append_of_mem hl
    obtain ⟨⟨-, hold⟩, ⟨-, hnew⟩, -⟩ := h before l after w rfl hw
    exact ⟨hold, hnew⟩
  numbers before l after hsplit hdigit := by
    refine Classical.byContradiction fun hstart => ?_
    obtain ⟨between, m, rest, w, rfl, hempty, hm⟩ := exists_of_not_startsKept hstart
    obtain ⟨-, -, hapart⟩ := h (before ++ l :: between) m rest w (by simp [hsplit]) hm
    have hne : l.text ≠ [] := by
      intro hnil
      rw [hnil] at hdigit
      cases hdigit
    -- the number is the last lexeme before it that is not empty
    have hlast : (((before ++ l :: between).map Lexeme.text).filter fun v => !v.isEmpty).getLast? =
        some l.text := by
      have hnone : (between.map Lexeme.text).filter (fun v => !v.isEmpty) = [] := by
        rw [List.filter_eq_nil_iff]
        intro v hv
        obtain ⟨x, hx, rfl⟩ := List.mem_map.mp hv
        simp [hempty x hx]
      rw [List.map_append, List.map_cons, List.filter_append,
        List.filter_cons_of_pos (by simp [hne]), hnone, List.getLast?_concat]
    have hfree := hapart.not_number l.text hlast
    rw [hdigit] at hfree
    cases hfree

end Renameable

/-! ### Characters that are in no word -/

/-- A version of the text ends in a character of no word exactly if the pieces end in it. -/
theorem getLast?_flatMap_iff {ps : List Piece} (h : Apart ps) {c : Char}
    (hc : isLatin c = false) {version : Piece → List Char}
    (hkept : ∀ d, version (.kept d) = [d])
    (hswapped : ∀ w w', IsName w → IsName w' → IsName (version (.swapped w w'))) :
    (ps.flatMap version).getLast? = some c ↔ ps.getLast? = some (.kept c) := by
  rcases List.eq_nil_or_concat ps with rfl | ⟨qs, p, rfl⟩
  · simp
  · rw [List.concat_eq_append] at h ⊢
    rw [List.flatMap_append, List.flatMap_singleton, List.getLast?_append, List.getLast?_concat]
    cases p with
    | kept d => simp [hkept]
    | swapped w w' =>
      obtain ⟨hw, hw', -⟩ := h.of_suffix (List.suffix_append qs _)
      obtain ⟨⟨x, t, hname, -⟩, hlatin⟩ := hswapped w w' hw hw'
      have hlast : (version (.swapped w w')).getLast? = some (t.getLastD x) := by
        rw [hname, List.getLast?_cons, List.getLastD_eq_getLast?]
      have hmem : isLatin (t.getLastD x) = true :=
        hlatin _ (hname ▸ List.getLastD_mem_cons)
      simp only [hlast, Option.some_or, Option.some.injEq, reduceCtorEq, iff_false]
      rintro rfl
      rw [hc] at hmem
      cases hmem

/-- The first version ends in a character of no word exactly if the pieces end in it. -/
theorem Apart.getLast?_olds_iff {ps : List Piece} (h : Apart ps) {c : Char}
    (hc : isLatin c = false) : (olds ps).getLast? = some c ↔ ps.getLast? = some (.kept c) :=
  getLast?_flatMap_iff h hc (fun _ => rfl) fun _ _ hw _ => hw

theorem Apart.getLast?_news_iff {ps : List Piece} (h : Apart ps) {c : Char}
    (hc : isLatin c = false) : (news ps).getLast? = some c ↔ ps.getLast? = some (.kept c) :=
  getLast?_flatMap_iff h hc (fun _ => rfl) fun _ _ _ hw' => hw'

/-- Renaming brings in no character that is in no word. -/
theorem Apart.mem_olds_of_mem_news {ps : List Piece} (h : Apart ps) {c : Char}
    (hc : isLatin c = false) (hmem : c ∈ news ps) : c ∈ olds ps := by
  induction ps with
  | nil => exact hmem
  | cons p ps ih =>
    cases p with
    | kept d =>
      obtain rfl | hmem := List.mem_cons.mp hmem
      · exact List.mem_cons_self
      · exact List.mem_cons_of_mem _ (ih h.tail hmem)
    | swapped w w' =>
      obtain hmem | hmem := List.mem_append.mp hmem
      · rw [h.2.1.isLatin_of_mem c hmem] at hc
        cases hc
      · exact List.mem_append_right _ (ih h.tail hmem)

/-- So neither are there carriage returns in a renamed text, if there were none before. -/
theorem Renameable.not_mem_rename {f : List Char → Option (List Char)} {ls : List Lexeme}
    {left : List Char} (h : Renameable f ls left) {c : Char} (hc : isLatin c = false)
    (hmem : c ∉ ls.flatMap Lexeme.text ++ left) :
    c ∉ (ls.map (Lexeme.rename f)).flatMap Lexeme.text ++ left := by
  intro hin
  rw [← news_pieces_append] at hin
  rw [← olds_pieces_append (f := f)] at hmem
  exact hmem ((apart_pieces h).mem_olds_of_mem_news hc hin)

/-! ### Lexing from the beginning -/

/-- A line feed held in reserve is all that is left in one version exactly if it is in the other. -/
theorem Apart.length_le_one_iff {ps qs : List Piece} (h : Apart ps)
    (hlast : ps.getLast? = some (.kept '\n')) (hqs : qs <:+ ps) :
    (olds qs).length ≤ 1 ↔ (news qs).length ≤ 1 := by
  obtain ⟨rs, rfl⟩ := List.getLast?_eq_some_iff.mp hlast
  obtain rfl | ⟨ts, rfl, hts⟩ := List.suffix_concat_iff.mp hqs
  · simp
  · have hlen := (h.of_append.of_suffix hts).length_le_zero_iff
    have hold : olds [.kept '\n'] = ['\n'] := rfl
    have hnew : news [.kept '\n'] = ['\n'] := rfl
    simp only [olds_append, news_append, hold, hnew, List.length_append, List.length_singleton]
    omega

/-- **Lexing a text renamed throughout gives the renamed lexemes**, if the renamed identifiers stand
apart. Only a line feed may be held in reserve. -/
theorem lex_rename_of_renameable {f : List Char → Option (List Char)} {reserve : Nat}
    {cs left : List Char}
    (hreserve : reserve = 0 ∨ reserve = 1 ∧ cs.getLast? = some '\n')
    (hleft : (kernelGrammar.lex reserve [] ⟨none, cs⟩).flatMap Lexeme.text ++ left = cs)
    (h : Renameable f (kernelGrammar.lex reserve [] ⟨none, cs⟩) left) :
    kernelGrammar.lex reserve []
        ⟨none, ((kernelGrammar.lex reserve [] ⟨none, cs⟩).map (Lexeme.rename f)).flatMap Lexeme.text
          ++ left⟩ =
      (kernelGrammar.lex reserve [] ⟨none, cs⟩).map (Lexeme.rename f) := by
  have hapart := apart_pieces h
  have hold := (olds_pieces_append (f := f) _ left).trans hleft
  have hnew := news_pieces_append (f := f) (kernelGrammar.lex reserve [] ⟨none, cs⟩) left
  refine lex_rename ⟨hold.symm, hnew.symm, Or.inl rfl, hapart, nofun⟩ (clear_of_renameable h)
    fun qs hqs => ?_
  obtain rfl | ⟨rfl, hlast⟩ := hreserve
  · exact (hapart.of_suffix hqs).length_le_zero_iff
  · exact hapart.length_le_one_iff
      ((hapart.getLast?_olds_iff (by decide)).mp (by rw [hold, hlast])) hqs

end KernelPack.Lexis
