import KernelPack.Lexis.KernelGrammar

/-!
# Lexing loses nothing

A lexer cuts its text and drops no part of it. The reason is that a pattern hands on places
*further on* only: what is left after a match is a rest of what was left before
(`Pattern.run_eq_some`). From there

* the cuts between the places of a match make up what was matched (`Match.flatten_cuts`), so
* a **step** splits the text into its parts and what is left (`Grammar.flatten_step`), so
* the **lexemes** make up the text, up to what is held in reserve (`Grammar.exists_flatMap_lex`).

Lexemes may be empty, but in the grammar of kernels no rule ends in an empty one, and so neither
does a text (`Grammar.getLast?_lex`, `kernelGrammar_endsInToken`).
-/

namespace KernelPack.Lexis

/-! ### Patterns move on -/

namespace Pattern

/-- Does every match of the pattern take something? -/
def consumes : Pattern → Bool
  | one _ => true
  | seq p q => p.consumes || q.consumes
  | alt p q => p.consumes && q.consumes
  | _ => false

/-- A longest run ends at a place further on. -/
theorem runMany_eq_some {α : Type} {p : Char → Bool} {k : Place → Option α} {prev : Option Char}
    {rest : List Char} {a : α} (h : runMany p k prev rest = some a) :
    ∃ s' : Place, s'.rest <:+ rest ∧ k s' = some a := by
  induction rest generalizing prev with
  | nil => exact ⟨⟨prev, []⟩, List.suffix_refl _, h⟩
  | cons c t ih =>
    rw [runMany] at h
    split at h
    · split at h
      · exact ⟨_, List.suffix_refl _, h⟩
      · obtain ⟨s', hs', hk⟩ := ih h
        exact ⟨s', hs'.trans (List.suffix_cons c t), hk⟩
    · exact ⟨_, List.suffix_refl _, h⟩

/-- A shortest run ends at a place further on. -/
theorem runFew_eq_some {α : Type} {p : Char → Bool} {k : Place → Option α} {prev : Option Char}
    {rest : List Char} {a : α} (h : runFew p k prev rest = some a) :
    ∃ s' : Place, s'.rest <:+ rest ∧ k s' = some a := by
  induction rest generalizing prev with
  | nil => exact ⟨⟨prev, []⟩, List.suffix_refl _, h⟩
  | cons c t ih =>
    rw [runFew] at h
    split at h
    · split at h
      · obtain ⟨s', hs', hk⟩ := ih h
        exact ⟨s', hs'.trans (List.suffix_cons c t), hk⟩
      · cases h
    · exact ⟨_, List.suffix_refl _, h⟩

/-- **A match moves on in the text**, and past at least one character if the pattern takes
something: what is handed on is a rest of the rest. -/
theorem run_eq_some {p : Pattern} {α : Type} {k : Place → Option α} {s : Place} {a : α}
    (h : p.run k s = some a) :
    ∃ s' : Place, s'.rest <:+ s.rest ∧ (p.consumes = true → s'.rest.length < s.rest.length) ∧
      k s' = some a := by
  induction p generalizing α k s with
  | empty => exact ⟨s, List.suffix_refl _, nofun, h⟩
  | one p =>
    rw [run] at h
    split at h
    · cases h
    · rename_i c t hrest
      split at h
      · refine ⟨⟨some c, t⟩, ?_, fun _ => ?_, h⟩
        · rw [hrest]
          exact List.suffix_cons c t
        · simp [hrest]
      · cases h
  | many p =>
    obtain ⟨s', hs', hk⟩ := runMany_eq_some h
    exact ⟨s', hs', nofun, hk⟩
  | few p =>
    obtain ⟨s', hs', hk⟩ := runFew_eq_some h
    exact ⟨s', hs', nofun, hk⟩
  | seq p q ihp ihq =>
    obtain ⟨s₁, hs₁, hlt₁, h₁⟩ := ihp h
    obtain ⟨s₂, hs₂, hlt₂, h₂⟩ := ihq h₁
    refine ⟨s₂, hs₂.trans hs₁, fun hc => ?_, h₂⟩
    have hle₁ := hs₁.length_le
    have hle₂ := hs₂.length_le
    rcases Bool.or_eq_true_iff.mp hc with hc | hc
    · have := hlt₁ hc
      omega
    · have := hlt₂ hc
      omega
  | alt p q ihp ihq =>
    rw [run] at h
    split at h
    · obtain ⟨s', hs', hlt, hk⟩ := ihq h
      exact ⟨s', hs', fun hc => hlt (Bool.and_eq_true_iff.mp hc).2, hk⟩
    · obtain ⟨s', hs', hlt, hk⟩ := ihp h
      exact ⟨s', hs', fun hc => hlt (Bool.and_eq_true_iff.mp hc).1, hk⟩
  | lineStart => exact ⟨s, List.suffix_refl _, nofun, (Option.ite_none_right_eq_some.mp h).2⟩
  | edge _ => exact ⟨s, List.suffix_refl _, nofun, (Option.ite_none_right_eq_some.mp h).2⟩
  | after _ => exact ⟨s, List.suffix_refl _, nofun, (Option.ite_none_right_eq_some.mp h).2⟩
  | notAfter _ => exact ⟨s, List.suffix_refl _, nofun, (Option.ite_none_left_eq_some.mp h).2⟩
  | ahead _ => exact ⟨s, List.suffix_refl _, nofun, (Option.ite_none_right_eq_some.mp h).2⟩
  | notAhead _ => exact ⟨s, List.suffix_refl _, nofun, (Option.ite_none_left_eq_some.mp h).2⟩

/-- Matching several patterns is matching the first and then the others. -/
theorem ends_cons_eq_some {p : Pattern} {ps : List Pattern} {s : Place} {es : List Place}
    (h : ends (p :: ps) s = some es) :
    ∃ s' rest, es = s' :: rest ∧ ends ps s' = some rest ∧ s'.rest <:+ s.rest ∧
      (p.consumes = true → s'.rest.length < s.rest.length) := by
  obtain ⟨s', hs', hlt, hk⟩ := run_eq_some h
  obtain ⟨rest, hrest, rfl⟩ := Option.map_eq_some_iff.mp hk
  exact ⟨s', rest, rfl, hrest, hs', hlt⟩

/-- There is one place for each pattern. -/
theorem length_ends {ps : List Pattern} {s : Place} {es : List Place} (h : ends ps s = some es) :
    es.length = ps.length := by
  induction ps generalizing s es with
  | nil =>
    obtain rfl := Option.some.inj h
    rfl
  | cons p ps ih =>
    obtain ⟨s', rest, rfl, hrest, -⟩ := ends_cons_eq_some h
    simp [ih hrest]

end Pattern

/-! ### Matches -/

namespace Match

variable {μ : Type}

/-- What lies between a place and one further on, and then the rest. -/
theorem take_append_rest {s s' : Place} (h : s'.rest <:+ s.rest) :
    s.rest.take (s.rest.length - s'.rest.length) ++ s'.rest = s.rest := by
  obtain ⟨t, ht⟩ := h
  simp [← ht]

/-- **The cuts make up what was matched.** -/
theorem flatten_cuts {ps : List Pattern} {s : Place} {es : List Place}
    (h : Pattern.ends ps s = some es) :
    (cuts s es).flatten ++ (es.getLast?.getD s).rest = s.rest := by
  induction ps generalizing s es with
  | nil =>
    obtain rfl := Option.some.inj h
    rfl
  | cons p ps ih =>
    obtain ⟨s', rest, rfl, hrest, hs', -⟩ := Pattern.ends_cons_eq_some h
    have hlast : (s' :: rest).getLast?.getD s = rest.getLast?.getD s' := by
      cases rest <;> simp [List.getLast?_cons]
    rw [cuts, List.flatten_cons, hlast, List.append_assoc, ih hrest, take_append_rest hs']

theorem length_cuts (s : Place) (es : List Place) : (cuts s es).length = es.length := by
  induction es generalizing s with
  | nil => rfl
  | cons e es ih => simp [cuts, ih]

/-- The last cut is not empty if the last pattern takes something. -/
theorem getLast?_cuts_ne_nil {ps : List Pattern} {s : Place} {es : List Place} {p : Pattern}
    (h : Pattern.ends ps s = some es) (hp : ps.getLast? = some p) (hc : p.consumes = true) :
    ∃ t, (cuts s es).getLast? = some t ∧ t ≠ [] := by
  induction ps generalizing s es with
  | nil => cases hp
  | cons q ps ih =>
    obtain ⟨s', rest, rfl, hrest, -, hlt⟩ := Pattern.ends_cons_eq_some h
    cases ps with
    | nil =>
      obtain rfl := Option.some.inj hrest
      obtain rfl := Option.some.inj hp
      have := hlt hc
      refine ⟨s.rest.take (s.rest.length - s'.rest.length), rfl, fun hnil => ?_⟩
      have hlen := congrArg List.length hnil
      rw [List.length_take, List.length_nil] at hlen
      omega
    | cons q' ps =>
      obtain ⟨t, ht, hne⟩ := ih hrest (by simpa [List.getLast?_cons_cons] using hp)
      refine ⟨t, ?_, hne⟩
      rw [cuts, List.getLast?_cons, ht]
      rfl

end Match

namespace Rule

variable {μ : Type}

/-- Is the last part of a match of the rule a lexeme, and never an empty one? -/
def endsInToken (r : Rule μ) : Bool :=
  match r.parts.getLast? with
  | some (p, .token _) => p.consumes
  | _ => false

theorem match?_eq_some {r : Rule μ} {s : Place} {m : Match μ} (h : r.match? s = some m) :
    m.rule = r ∧ Pattern.ends (r.parts.map Prod.fst) s = some m.ends := by
  unfold match? at h
  split at h
  · cases h
  · rename_i ends hends
    split at h
    · obtain rfl := Option.some.inj h
      exact ⟨rfl, hends⟩
    · cases h

end Rule

namespace Match

variable {μ : Type}

/-- The parts of a match make up what was matched. -/
theorem flatten_parts {r : Rule μ} {s : Place} {m : Match μ} (h : r.match? s = some m) :
    ((m.parts s).map Prod.snd).flatten ++ (m.last s).rest = s.rest := by
  obtain ⟨rfl, hends⟩ := Rule.match?_eq_some h
  have hlen : (cuts s m.ends).length = (m.rule.parts.map Prod.snd).length := by
    rw [length_cuts, Pattern.length_ends hends, List.length_map, List.length_map]
  rw [parts, List.map_snd_zip (Nat.le_of_eq hlen)]
  exact flatten_cuts hends

/-- The last part of a match is a lexeme that is not empty, if the rule says so. -/
theorem getLast?_parts {r : Rule μ} {s : Place} {m : Match μ} (h : r.match? s = some m)
    (hr : r.endsInToken = true) :
    ∃ kind t, (m.parts s).getLast? = some (.token kind, t) ∧ t ≠ [] := by
  obtain ⟨rfl, hends⟩ := Rule.match?_eq_some h
  unfold Rule.endsInToken at hr
  split at hr
  · rename_i p kind hlast
    obtain ⟨t, ht, hne⟩ :=
      getLast?_cuts_ne_nil hends (by rw [List.getLast?_map, hlast]; rfl) hr
    refine ⟨kind, t, ?_, hne⟩
    obtain ⟨parts, hparts⟩ := List.getLast?_eq_some_iff.mp hlast
    obtain ⟨texts, htexts⟩ := List.getLast?_eq_some_iff.mp ht
    have hlen : (parts.map Prod.snd).length = texts.length := by
      have hcuts := length_cuts s m.ends
      rw [Pattern.length_ends hends, htexts, hparts] at hcuts
      simpa using hcuts.symm
    rw [Match.parts, htexts, hparts, List.map_append, List.zip_append hlen]
    simp
  · cases hr

end Match

/-! ### Steps and runs -/

namespace Grammar

variable {μ : Type} [DecidableEq μ] (G : Grammar μ)

omit [DecidableEq μ] in
theorem firstMatch_eq_some {mode : μ} {s : Place} {m : Match μ}
    (h : G.firstMatch mode s = some m) : ∃ r ∈ G.rules mode, r.match? s = some m :=
  List.exists_of_findSome?_eq_some h

omit [DecidableEq μ] in
theorem select_eq_some (stack : List μ) {s : Place} {m : Match μ}
    (h : (G.select stack s).2 = some m) : ∃ mode, ∃ r ∈ G.rules mode, r.match? s = some m := by
  unfold select at h
  split at h
  · rename_i m' hm
    obtain rfl := Option.some.inj h
    exact ⟨_, G.firstMatch_eq_some hm⟩
  · split at h
    · cases h
    · exact ⟨_, G.firstMatch_eq_some h⟩

/-- **What a step can be**: the match of a rule, or one character by itself. -/
theorem step_cases (stack : List μ) (prev : Option Char) (c : Char) (rest : List Char) :
    (∃ stack' m mode, ∃ r ∈ G.rules mode, r.match? ⟨prev, c :: rest⟩ = some m ∧
      G.step stack prev c rest = G.apply stack' m ⟨prev, c :: rest⟩) ∨
    ∃ stack', G.step stack prev c rest = skip stack' c rest := by
  unfold step
  dsimp only
  split
  · rename_i stack' m h
    obtain ⟨mode, r, hr, hm⟩ := G.select_eq_some stack (m := m) (by rw [h])
    exact Or.inl ⟨stack', m, mode, r, hr, hm, rfl⟩
  · split
    · split
      · rename_i stack' m h
        obtain ⟨mode, r, hr, hm⟩ := G.select_eq_some [] (m := m) (by rw [h])
        exact Or.inl ⟨stack', m, mode, r, hr, hm, rfl⟩
      · exact Or.inr ⟨_, rfl⟩
    · exact Or.inr ⟨_, rfl⟩

/-- **A step loses nothing**: its parts and what is left make up the text. -/
theorem flatten_step (stack : List μ) (prev : Option Char) (c : Char) (rest : List Char) :
    ((G.step stack prev c rest).parts.map Prod.snd).flatten
      ++ (G.step stack prev c rest).next.rest = c :: rest := by
  obtain ⟨stack', m, mode, r, -, hm, hstep⟩ | ⟨stack', hstep⟩ := G.step_cases stack prev c rest
  · rw [hstep]
    exact Match.flatten_parts hm
  · rw [hstep]
    rfl

/-- A step ends in a lexeme that is not empty, if all rules do. -/
theorem getLast?_step (hG : ∀ mode, ∀ r ∈ G.rules mode, r.endsInToken = true) (stack : List μ)
    (prev : Option Char) (c : Char) (rest : List Char) :
    ∃ kind t, (G.step stack prev c rest).parts.getLast? = some (.token kind, t) ∧ t ≠ [] := by
  obtain ⟨stack', m, mode, r, hr, hm, hstep⟩ | ⟨stack', hstep⟩ := G.step_cases stack prev c rest
  · rw [hstep]
    exact Match.getLast?_parts hm (hG mode r hr)
  · rw [hstep]
    exact ⟨.other, [c], rfl, by simp⟩

/-- The lexemes of a part of a step, where `limit` is the length of the text from there on. -/
def partLexemes (limit : Nat) (part : Action × List Char) : List Lexeme :=
  match part.1 with
  | .token kind => [⟨kind, part.2⟩]
  | .nested => if part.2.length < limit then G.lex 0 [] ⟨none, part.2⟩ else [⟨.other, part.2⟩]

theorem lex_nil (reserve : Nat) (stack : List μ) (prev : Option Char) :
    G.lex reserve stack ⟨prev, []⟩ = [] := by
  rw [lex]

theorem lex_cons (reserve : Nat) (stack : List μ) (prev : Option Char) (c : Char)
    (rest : List Char) :
    G.lex reserve stack ⟨prev, c :: rest⟩ =
      if (c :: rest).length ≤ reserve then []
      else (G.step stack prev c rest).parts.flatMap (G.partLexemes (c :: rest).length)
        ++ G.lex reserve (G.step stack prev c rest).stack (G.step stack prev c rest).next := by
  rw [lex]
  rfl

/-- **Lexing loses nothing**: the lexemes make up the text, up to what is held in reserve. -/
theorem exists_flatMap_lex (reserve : Nat) (stack : List μ) (s : Place) :
    ∃ left, (G.lex reserve stack s).flatMap Lexeme.text ++ left = s.rest ∧
      left.length ≤ reserve := by
  obtain ⟨prev, text⟩ := s
  induction hn : text.length using Nat.strongRecOn generalizing reserve stack prev text with
  | ind n ih =>
    cases text with
    | nil => exact ⟨[], by rw [lex_nil]; rfl, Nat.zero_le _⟩
    | cons c rest =>
      rw [lex_cons]
      split
      · rename_i hle
        exact ⟨c :: rest, rfl, hle⟩
      · -- the parts of the step, lexed or not, and then the lexemes of what is left
        have hpart : ∀ part,
            (G.partLexemes (c :: rest).length part).flatMap Lexeme.text = part.2 := by
          rintro ⟨action, text⟩
          cases action with
          | token kind => simp [partLexemes]
          | nested =>
            simp only [partLexemes]
            split
            · rename_i hlt
              obtain ⟨left, hleft, hzero⟩ := ih text.length (by omega) 0 [] none text rfl
              obtain rfl := List.length_eq_zero_iff.mp (Nat.le_zero.mp hzero)
              simpa using hleft
            · simp
        obtain ⟨left, hleft, hle⟩ := ih (G.step stack prev c rest).next.rest.length
          (by rw [← hn]; exact G.step_lt ..) reserve (G.step stack prev c rest).stack
          (G.step stack prev c rest).next.prev _ rfl
        refine ⟨left, ?_, hle⟩
        calc ((G.step stack prev c rest).parts.flatMap (G.partLexemes (c :: rest).length)
              ++ G.lex reserve (G.step stack prev c rest).stack
                (G.step stack prev c rest).next).flatMap Lexeme.text ++ left
            = ((G.step stack prev c rest).parts.map Prod.snd).flatten
                ++ (G.step stack prev c rest).next.rest := by
              rw [List.flatMap_append, List.append_assoc, hleft, List.flatMap_assoc]
              simp only [hpart]
              rfl
          _ = c :: rest := G.flatten_step stack prev c rest

/-- The last lexeme is not empty, if all rules end in one that is not. -/
theorem getLast?_lex (hG : ∀ mode, ∀ r ∈ G.rules mode, r.endsInToken = true) (reserve : Nat)
    (stack : List μ) (s : Place) {l : Lexeme} (h : (G.lex reserve stack s).getLast? = some l) :
    l.text ≠ [] := by
  obtain ⟨prev, text⟩ := s
  induction hn : text.length using Nat.strongRecOn generalizing stack prev text with
  | ind n ih =>
    cases text with
    | nil =>
      rw [lex_nil] at h
      cases h
    | cons c rest =>
      rw [lex_cons] at h
      split at h
      · cases h
      · rw [List.getLast?_append] at h
        cases hrest : (G.lex reserve (G.step stack prev c rest).stack
            (G.step stack prev c rest).next).getLast? with
        | some l' =>
          rw [hrest] at h
          obtain rfl := Option.some.inj h
          exact ih _ (by rw [← hn]; exact G.step_lt ..) _ _ _ hrest rfl
        | none =>
          rw [hrest, Option.none_or] at h
          obtain ⟨kind, t, hlast, hne⟩ := G.getLast?_step hG stack prev c rest
          obtain ⟨parts, hparts⟩ := List.getLast?_eq_some_iff.mp hlast
          rw [hparts, List.flatMap_append] at h
          simp [partLexemes] at h
          rw [← h]
          exact hne

end Grammar

/-- Every rule of the kernel grammar ends in a lexeme that is not empty. -/
theorem kernelGrammar_endsInToken (mode : Mode) :
    ∀ r ∈ kernelGrammar.rules mode, r.endsInToken = true := by
  rw [← List.all_eq_true]
  cases mode <;> decide +kernel

end KernelPack.Lexis
