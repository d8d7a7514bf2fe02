import KernelPack.Proofs.Lexis.Stability

/-!
# Identifiers are words

Every pattern that gives an identifier takes word characters only (`TakesWords`), and at least one
of them, whether it stands by itself or in a function head or a label. So an identifier is made of
word characters wherever it is found, also in a part that is lexed on its own
(`isWord_of_identifier_mem_lex`), and it is not empty (`ne_nil_of_identifier_mem_lex`).
-/

namespace KernelPack.Lexis

open KernelGrammar

/-! ### What a pattern takes -/

/-- What the pattern takes satisfies `Q`. -/
def Takes (p : Pattern) (Q : List Char → Prop) : Prop :=
  ∀ ⦃α : Type⦄ (k : Place → Option α) (s : Place) (a : α), p.run k s = some a →
    ∃ (u : List Char) (s' : Place), u ++ s'.rest = s.rest ∧ Q u ∧ k s' = some a

theorem takes_any (p : Pattern) : Takes p fun _ => True := by
  intro α k s a h
  obtain ⟨s', ⟨u, hu⟩, -, hs'⟩ := Pattern.run_eq_some h
  exact ⟨u, s', hu, trivial, hs'⟩

theorem takes_one (c : Char → Bool) : Takes (.one c) fun u => ∃ x, u = [x] ∧ c x = true := by
  rintro α k ⟨prev, rest⟩ a h
  cases rest with
  | nil => cases h
  | cons x t =>
    obtain ⟨hx, hk⟩ := Option.ite_none_right_eq_some.mp h
    exact ⟨[x], ⟨some x, t⟩, rfl, ⟨x, rfl, hx⟩, hk⟩

theorem takes_many (c : Char → Bool) : Takes (.many c) fun u => ∀ x ∈ u, c x = true := by
  rintro α k ⟨prev, rest⟩ a h
  change Pattern.runMany c k prev rest = some a at h
  induction rest generalizing prev with
  | nil => exact ⟨[], _, rfl, List.forall_mem_nil _, h⟩
  | cons x t ih =>
    rw [Pattern.runMany_cons] at h
    split at h
    · rename_i hx
      obtain h | ⟨-, h⟩ := Option.or_eq_some_iff.mp h
      · obtain ⟨u, s', hu, hall, hk⟩ := ih _ h
        exact ⟨x :: u, s', congrArg (x :: ·) hu, List.forall_mem_cons.mpr ⟨hx, hall⟩, hk⟩
      · exact ⟨[], _, rfl, List.forall_mem_nil _, h⟩
    · exact ⟨[], _, rfl, List.forall_mem_nil _, h⟩

theorem takes_few (c : Char → Bool) : Takes (.few c) fun u => ∀ x ∈ u, c x = true := by
  rintro α k ⟨prev, rest⟩ a h
  change Pattern.runFew c k prev rest = some a at h
  induction rest generalizing prev with
  | nil => exact ⟨[], _, rfl, List.forall_mem_nil _, h⟩
  | cons x t ih =>
    rw [Pattern.runFew_cons] at h
    obtain h | ⟨-, h⟩ := Option.or_eq_some_iff.mp h
    · exact ⟨[], _, rfl, List.forall_mem_nil _, h⟩
    · obtain ⟨hx, h⟩ := Option.ite_none_right_eq_some.mp h
      obtain ⟨u, s', hu, hall, hk⟩ := ih _ h
      exact ⟨x :: u, s', congrArg (x :: ·) hu, List.forall_mem_cons.mpr ⟨hx, hall⟩, hk⟩

namespace Takes

variable {p q : Pattern} {Q Q' Q'' : List Char → Prop}

theorem seq (hp : Takes p Q) (hq : Takes q Q') (h : ∀ u v, Q u → Q' v → Q'' (u ++ v)) :
    Takes (p ++ q) Q'' := by
  intro α k s a hrun
  obtain ⟨u, s₁, hu, hQu, h₁⟩ := hp _ _ _ hrun
  obtain ⟨v, s₂, hv, hQv, h₂⟩ := hq _ _ _ h₁
  exact ⟨u ++ v, s₂, by rw [List.append_assoc, hv, hu], h u v hQu hQv, h₂⟩

theorem mono (hp : Takes p Q) (h : ∀ u, Q u → Q' u) : Takes p Q' := by
  intro α k s a hrun
  obtain ⟨u, s', hu, hQ, hk⟩ := hp k s a hrun
  exact ⟨u, s', hu, h u hQ, hk⟩

/-- The first cut of a match is what the first pattern takes. -/
theorem ends_cons {ps : List Pattern} (hp : Takes p Q) {s : Place} {es : List Place}
    (h : Pattern.ends (p :: ps) s = some es) :
    ∃ u e es', es = e :: es' ∧ Pattern.ends ps e = some es' ∧ Q u ∧ u ++ e.rest = s.rest ∧
      Match.cuts s es = u :: Match.cuts e es' := by
  obtain ⟨u, e, hu, hQ, hmap⟩ := hp _ _ _ h
  obtain ⟨es', hes', rfl⟩ := Option.map_eq_some_iff.mp hmap
  refine ⟨u, e, es', rfl, hes', hQ, hu, ?_⟩
  rw [Match.cuts, ← hu]
  simp

end Takes

/-- Whatever the pattern takes are word characters. -/
def TakesWords (p : Pattern) : Prop :=
  ∀ ⦃α : Type⦄ (k : Place → Option α) (s : Place) (a : α), p.run k s = some a →
    ∃ (u : List Char) (s' : Place), u ++ s'.rest = s.rest ∧ (∀ x ∈ u, Text.isWord x = true) ∧
      k s' = some a

namespace TakesWords

variable {p q : Pattern} {c : Char → Bool}

/-- A pattern that stays where it is. -/
theorem of_stays (h : ∀ ⦃α : Type⦄ (k : Place → Option α) s a, p.run k s = some a → k s = some a) :
    TakesWords p :=
  fun _ k s a hrun => ⟨[], s, rfl, nofun, h k s a hrun⟩

theorem one (hc : ∀ x, c x = true → Text.isWord x = true) : TakesWords (.one c) := by
  refine (takes_one c).mono ?_
  rintro _ ⟨x, rfl, hx⟩
  exact List.forall_mem_singleton.mpr (hc x hx)

theorem many (hc : ∀ x, c x = true → Text.isWord x = true) : TakesWords (.many c) :=
  (takes_many c).mono fun _ hu x hx => hc x (hu x hx)

theorem seq (hp : TakesWords p) (hq : TakesWords q) : TakesWords (p ++ q) :=
  Takes.seq hp hq fun _ _ hu hv => List.forall_mem_append.mpr ⟨hu, hv⟩

theorem alt (hp : TakesWords p) (hq : TakesWords q) : TakesWords (.alt p q) := by
  intro α k s a h
  rw [Pattern.run_alt] at h
  obtain h | ⟨-, h⟩ := Option.or_eq_some_iff.mp h
  · exact hp k s a h
  · exact hq k s a h

theorem ahead (p : Pattern) : TakesWords (.ahead p) :=
  of_stays fun _ _ _ _ h => (Option.ite_none_right_eq_some.mp h).2

end TakesWords

theorem Spelling.takesWords {p : Pattern} (h : Spelling p) : TakesWords p := by
  induction h with
  | empty => exact .of_stays fun _ _ _ _ h => h
  | one hc => exact .one hc
  | many hc => exact .many hc
  | seq _ _ ihp ihq => exact ihp.seq ihq
  | alt _ _ ihp ihq => exact ihp.alt ihq
  | wordEdge => exact .of_stays fun _ _ _ _ h => (Option.ite_none_right_eq_some.mp h).2

/-! ### The patterns of identifiers -/

/-- The patterns of the parts of a rule that become identifiers. -/
def Rule.identifierPatterns {μ : Type} (r : Rule μ) : List Pattern :=
  (r.parts.filter fun part => decide (part.2 = .token .identifier)).map Prod.fst

theorem mem_identifierPatterns {mode : Mode} {r : Rule Mode} (hr : r ∈ rules mode) {p : Pattern}
    (hp : (p, .token .identifier) ∈ r.parts) :
    p ∈ (rules mode).flatMap Rule.identifierPatterns := by
  refine List.mem_flatMap.mpr ⟨r, hr, ?_⟩
  exact List.mem_map.mpr ⟨_, List.mem_filter.mpr ⟨hp, decide_eq_true rfl⟩, rfl⟩

theorem takesWords_of_mem {mode : Mode} {r : Rule Mode} (hr : r ∈ rules mode) {p : Pattern}
    (hp : (p, .token .identifier) ∈ r.parts) : TakesWords p := by
  have hname : TakesWords name :=
    (Spelling.seq (.one fun _ => isWord_of_isNameStart) (.many fun _ h => h)).takesWords
  have hedge : TakesWords wordEdge := Spelling.wordEdge.takesWords
  have hconstant : TakesWords (Pattern.words ["true", "false", "NULL"] ++ wordEdge) :=
    (spelling_words (by decide) (by decide)).takesWords
  have hstatement : ∀ p ∈ [Pattern.words ["true", "false", "NULL"] ++ wordEdge, name,
      wordEdge ++ name ++ .ahead (blanks ++ char '('), name], TakesWords p := by
    simp only [List.forall_mem_cons]
    exact ⟨hconstant, hname, (hedge.seq hname).seq (.ahead _), hname, nofun⟩
  have hpatterns : ∀ p ∈ (rules mode).flatMap Rule.identifierPatterns, TakesWords p := by
    cases mode with
    | top => exact List.forall_mem_cons.mpr ⟨hname, List.forall_mem_cons.mpr ⟨hname, nofun⟩⟩
    | statement => exact hstatement
    | body => exact hstatement
    | string => exact nofun
    | directive => exact nofun
    | disabled => exact nofun
  exact hpatterns p (mem_identifierPatterns hr hp)

theorem consumes_of_mem {mode : Mode} {r : Rule Mode} (hr : r ∈ rules mode) {p : Pattern}
    (hp : (p, .token .identifier) ∈ r.parts) : p.consumes = true := by
  have hpatterns : ∀ p ∈ (rules mode).flatMap Rule.identifierPatterns, p.consumes = true := by
    rw [← List.all_eq_true]
    cases mode <;> decide
  exact hpatterns p (mem_identifierPatterns hr hp)

/-! ### Identifiers found -/

/-- A part of a match is what its pattern takes. -/
theorem exists_of_mem_zip_cuts {parts : List (Pattern × Action)} {s : Place} {es : List Place}
    (hends : Pattern.ends (parts.map Prod.fst) s = some es) {action : Action} {v : List Char}
    (hv : (action, v) ∈ (parts.map Prod.snd).zip (Match.cuts s es)) :
    ∃ p ps s' e es', (p, action) ∈ parts ∧ Pattern.ends (p :: ps) s' = some (e :: es') ∧
      v = s'.rest.take (s'.rest.length - e.rest.length) := by
  induction parts generalizing s es with
  | nil => cases hv
  | cons part parts ih =>
    obtain ⟨e, es', rfl, hrest, -, -⟩ := Pattern.ends_cons_eq_some hends
    obtain hv | hv := List.mem_cons.mp hv
    · obtain ⟨rfl, rfl⟩ := Prod.mk.inj hv
      exact ⟨part.1, _, s, e, es', List.mem_cons_self, hends, rfl⟩
    · obtain ⟨p, ps, s', e, es', hp, hfound⟩ := ih hrest hv
      exact ⟨p, ps, s', e, es', List.mem_cons_of_mem _ hp, hfound⟩

/-- An identifier that a step takes is what a pattern of a rule takes. -/
theorem exists_of_identifier_mem_step {stack : List Mode} {prev : Option Char} {c : Char}
    {rest v : List Char}
    (hv : (.token .identifier, v) ∈ (kernelGrammar.step stack prev c rest).parts) :
    ∃ mode, ∃ r ∈ rules mode, ∃ p ps s e es, (p, .token .identifier) ∈ r.parts ∧
      Pattern.ends (p :: ps) s = some (e :: es) ∧
      v = s.rest.take (s.rest.length - e.rest.length) := by
  obtain ⟨stack', m, mode, r, hr, hm, hstep⟩ | ⟨stack', hstep⟩ :=
    kernelGrammar.step_cases stack prev c rest
  · rw [hstep] at hv
    obtain ⟨rfl, hends⟩ := Rule.match?_eq_some hm
    exact ⟨mode, m.rule, hr, exists_of_mem_zip_cuts hends hv⟩
  · rw [hstep] at hv
    simp [Grammar.skip] at hv

/-- An identifier that a step takes is made of word characters. -/
theorem isWord_of_identifier_mem_step {stack : List Mode} {prev : Option Char} {c : Char}
    {rest v : List Char}
    (hv : (.token .identifier, v) ∈ (kernelGrammar.step stack prev c rest).parts) :
    ∀ x ∈ v, Text.isWord x = true := by
  obtain ⟨mode, r, hr, p, ps, s, e, es, hp, hends, rfl⟩ := exists_of_identifier_mem_step hv
  obtain ⟨u, e', hu, hword, he⟩ := takesWords_of_mem hr hp _ _ _ hends
  obtain ⟨-, rfl⟩ : _ ∧ e' = e := by simpa using he
  simpa [← hu] using hword

/-- And it is not empty. -/
theorem ne_nil_of_identifier_mem_step {stack : List Mode} {prev : Option Char} {c : Char}
    {rest v : List Char}
    (hv : (.token .identifier, v) ∈ (kernelGrammar.step stack prev c rest).parts) : v ≠ [] := by
  obtain ⟨mode, r, hr, p, ps, s, e, es, hp, hends, rfl⟩ := exists_of_identifier_mem_step hv
  obtain ⟨e', es', he, -, -, hlt⟩ := Pattern.ends_cons_eq_some hends
  obtain ⟨rfl, rfl⟩ := List.cons.inj he
  have hlt := hlt (consumes_of_mem hr hp)
  refine List.ne_nil_of_length_pos ?_
  rw [List.length_take]
  omega

/-- What holds of every identifier that a step takes holds of all identifiers found. -/
theorem of_identifier_mem_lex {P : List Char → Prop}
    (hP : ∀ {stack prev c rest v},
      (.token .identifier, v) ∈ (kernelGrammar.step stack prev c rest).parts → P v)
    {reserve : Nat} {stack : List Mode} {s : Place} {l : Lexeme}
    (hl : l ∈ kernelGrammar.lex reserve stack s) (hid : l.kind = .identifier) : P l.text := by
  obtain ⟨prev, text⟩ := s
  induction hn : text.length using Nat.strongRecOn generalizing reserve stack prev text with
  | ind n ih =>
    cases text with
    | nil =>
      rw [Grammar.lex_nil] at hl
      cases hl
    | cons c rest =>
      rw [Grammar.lex_cons] at hl
      split at hl
      · cases hl
      · obtain hl | hl := List.mem_append.mp hl
        · -- in a part of this step, which may have been lexed on its own
          obtain ⟨⟨action, v⟩, hpart, hl⟩ := List.mem_flatMap.mp hl
          cases action with
          | token kind =>
            obtain rfl := List.mem_singleton.mp hl
            obtain rfl : kind = .identifier := hid
            exact hP hpart
          | nested =>
            simp only [Grammar.partLexemes] at hl
            split at hl
            · rename_i hlt
              exact ih v.length (by omega) _ _ hl rfl
            · obtain rfl := List.mem_singleton.mp hl
              cases hid
        · exact ih _ (by rw [← hn]; exact Grammar.step_lt ..) _ _ hl rfl

/-- **Identifiers are words**, wherever they are found. -/
theorem isWord_of_identifier_mem_lex {reserve : Nat} {stack : List Mode} {s : Place} {l : Lexeme}
    (hl : l ∈ kernelGrammar.lex reserve stack s) (hid : l.kind = .identifier) :
    ∀ x ∈ l.text, Text.isWord x = true :=
  of_identifier_mem_lex isWord_of_identifier_mem_step hl hid

/-- And none is empty. -/
theorem ne_nil_of_identifier_mem_lex {reserve : Nat} {stack : List Mode} {s : Place} {l : Lexeme}
    (hl : l ∈ kernelGrammar.lex reserve stack s) (hid : l.kind = .identifier) : l.text ≠ [] :=
  of_identifier_mem_lex (P := (· ≠ [])) ne_nil_of_identifier_mem_step hl hid

end KernelPack.Lexis
