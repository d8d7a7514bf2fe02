import KernelPack.Proofs.Lexis.Identifiers
import KernelPack.Proofs.Lexis.Readings

/-!
# Heads of functions in both readings

The **head of a function** begins with its return type: word characters, asterisks and white space,
the last of them an asterisk or white space. A dropped space is next to an asterisk there, and if it
is the last character in the loose text then the asterisk is the last one in the tight text
(`tracks_gap`). Only an asterisk at the very beginning cannot take the place of the space behind it,
since a return type is at least two characters long (`tracks_lead`). Where a statement begins calmly
it has no such asterisk (`stable_functionHead`).

The parts of a head are lexed on their own. They hold no head themselves: the return type and what
stands before the end of a head lack the character that ends one, and the parameters begin with a
parenthesis (`nested_top`).
-/

namespace KernelPack.Lexis.Spaced

open KernelGrammar

/-! ### The return type -/

/-- What a return type consists of. -/
def isLead (c : Char) : Bool := Text.isWord c || c == '*' || Text.isBlank c

/-- What a return type ends with. -/
def isGap (c : Char) : Bool := Text.isBlank c || c == '*'

/-- The return type of a function. -/
def lead : Pattern := Pattern.few1 isLead ++ .one isGap

theorem isLead_of_isGap {x : Char} (h : isGap x = true) : isLead x = true := by
  simp only [isGap, isLead, Bool.or_eq_true] at h ⊢
  exact h.elim Or.inr fun h => Or.inl (Or.inr h)

theorem eq_star_of_isLead {x : Char} (h : isLead x = true) (hx : isPunctuation x = true) :
    x = '*' := by
  have hall : ("\x7b\x7d[](),;+-*/%=><".toList.all fun y => !isLead y || y == '*') = true := by
    decide
  simpa [h] using List.all_eq_true.mp hall x (List.contains_iff_mem.mp hx)

/-- As few characters as possible: none, or one and then as few as possible. -/
theorem run_few_eq {α : Type} (c : Char → Bool) (k : Place → Option α) (s : Place) :
    (Pattern.few c).run k s = (k s).or ((Pattern.one c ++ .few c).run k s) := by
  obtain ⟨prev, rest⟩ := s
  cases rest with
  | nil => exact Option.or_none.symm
  | cons x t => exact Pattern.runFew_cons ..

/-- Taking a last character of a class is looking back at it. -/
theorem run_few_one {b c : Char → Bool} (h : ∀ x, b x = true → c x = true) {α : Type}
    (k : Place → Option α) (s : Place) :
    (Pattern.few c ++ .one b).run k s = (Pattern.one c ++ (.few c ++ .after b)).run k s := by
  obtain ⟨prev, rest⟩ := s
  induction rest generalizing prev with
  | nil => rfl
  | cons x t ih =>
    have hback : (Pattern.few c ++ .after b).run k ⟨some x, t⟩ =
        (if b x = true then k ⟨some x, t⟩ else none).or
          ((Pattern.one c ++ (.few c ++ .after b)).run k ⟨some x, t⟩) :=
      run_few_eq c ((Pattern.after b).run k) ⟨some x, t⟩
    show Pattern.runFew c ((Pattern.one b).run k) prev (x :: t) =
      if c x = true then (Pattern.few c ++ .after b).run k ⟨some x, t⟩ else none
    rw [Pattern.runFew_cons, hback, ← ih]
    show (if b x = true then k ⟨some x, t⟩ else none).or _ = _
    cases hc : c x with
    | true => rfl
    | false =>
      have hb : b x = false := Bool.eq_false_iff.mpr fun hb => by simp [h x hb] at hc
      simp [hb]

/-- The return type has begun. -/
def Within (σ : Spot) : Prop := σ.tightBefore.any isLead = true

/-- **Where the name begins, the return type ends in both readings or in neither.** -/
theorem tracks_gap : Tracks .refuses Within (.few isLead ++ .after isGap) AtKept := by
  have hfew : Tracks .stops Within (.few isLead) fun σ => Within σ ∧ AtKept σ :=
    .few_across rfl (fun _ _ _ _ _ _ _ hx => hx) (fun _ _ _ _ _ h => h) fun _ _ h hkept =>
      ⟨h, hkept⟩
  intro α β all R k k' hk hagree
  refine hfew (fun σ hσ hgone => ?_) fun σ hσ hall ⟨hwithin, hkept⟩ => ?_
  · obtain ⟨gs, hgs⟩ := List.head?_eq_some_iff.mp hgone
    have hnone : k σ.loose = none := by
      refine hk _ fun x hx => Or.inl ?_
      rw [Spot.loose, hgs] at hx
      exact (Option.some.inj hx).symm
    simp only [Pattern.run, hnone, ite_self]
  · have hhere := hagree σ hσ hall hkept
    simp only [Pattern.run]
    obtain hsteady | ⟨hloose, -⟩ := hσ.steady_or_atSpacer hkept
    · -- before the name both texts have a gap: the dropped space here, an asterisk there
      have hgap : σ.loose.prev.any isGap = σ.tight.prev.any isGap := by
        obtain heq | ⟨hspace, hmark⟩ := hsteady.before
        · exact congrArg (Option.any isGap) heq
        · obtain ⟨x, hx, hlead⟩ := Option.any_eq_true _ _ |>.mp hwithin
          rw [hx] at hmark
          obtain rfl := eq_star_of_isLead hlead hmark
          show σ.looseBefore.any isGap = σ.tightBefore.any isGap
          rw [hspace, hx]
          decide
      rw [hgap]
      split
      · exact hhere
      · exact .none
    · -- at punctuation no name begins
      rw [hk _ hloose] at hhere ⊢
      generalize k' σ.tight = r at hhere ⊢
      cases hhere
      simp only [ite_self]
      exact .none

/-- No asterisk with a dropped space behind it follows. -/
def Unstarred (σ : Spot) : Prop := AtChar σ ∧ ∀ gs, σ.glyphs ≠ .kept '*' :: .gone :: gs

/-- A return type is two characters at least, and what ends it stands right before the name. -/
theorem run_lead {α : Type} (k : Place → Option α) (s : Place) : lead.run k s =
    (Pattern.one isLead ++ (.one isLead ++ (.few isLead ++ .after isGap))).run k s := by
  have hrest : (Pattern.few isLead ++ .one isGap).run k =
      (Pattern.one isLead ++ (.few isLead ++ .after isGap)).run k :=
    funext fun s => run_few_one (fun _ => isLead_of_isGap) k s
  show (Pattern.one isLead).run ((Pattern.few isLead ++ .one isGap).run k) s = _
  rw [hrest]
  rfl

/-- **What precedes the name is alike in both readings.** -/
theorem tracks_lead : Tracks .refuses Unstarred lead AtKept := by
  rintro α β all R k k' hk hagree ⟨a, b, g, -⟩ hσ hall ⟨⟨c, gs, rfl⟩, hstar⟩
  rw [run_lead, run_lead]
  show Option.Rel R (if isLead c = true then _ else none) (if isLead c = true then _ else none)
  split
  case isFalse => exact .none
  rename_i hc
  have hnext : Agree all Within R _ _ := tracks_gap hk hagree
  have hall' : gs <:+ all := (List.suffix_cons _ gs).trans hall
  match gs, hσ, hall', hstar with
  | [], _, _, _ => exact .none
  | .kept y :: gs, hσ, hall, _ =>
    show Option.Rel R (if isLead y = true then _ else none) (if isLead y = true then _ else none)
    split
    · rename_i hy
      exact hnext _ hσ.kept.kept ((List.suffix_cons _ gs).trans hall) hy
    · exact .none
  | .gone :: gs, hσ, hall, hstar =>
    -- punctuation follows, so no name begins right behind the space
    have hplain : isPunctuation c = false := by
      refine Bool.eq_false_iff.mpr fun hmark => ?_
      obtain rfl := eq_star_of_isLead hc hmark
      exact hstar gs rfl
    have hmark := (hσ.steady_kept hplain).ahead gs rfl
    have hnone : k ⟨some ' ', looseText gs⟩ = none := by
      refine hk _ fun x hx => ?_
      match gs, hσ.kept.snug, hmark, hx with
      | .kept y :: gs, _, hmark, hx =>
        obtain rfl : y = x := Option.some.inj hx
        exact Or.inr hmark
    show Option.Rel R ((Pattern.few isLead ++ .after isGap).run k ⟨some ' ', looseText gs⟩)
      ((Pattern.one isLead ++ (.few isLead ++ .after isGap)).run k' ⟨some c, tightText gs⟩)
    have hloose : (Pattern.few isLead ++ .after isGap).run k ⟨some ' ', looseText gs⟩ =
        (Pattern.one isLead ++ (.few isLead ++ .after isGap)).run k ⟨some ' ', looseText gs⟩ := by
      refine (run_few_eq isLead ((Pattern.after isGap).run k) _).trans ?_
      simp only [Pattern.run, hnone, ite_self, Option.none_or]
      rfl
    rw [hloose]
    obtain rfl | ⟨y, hs, rfl, -⟩ := hσ.kept.gone_cases
    · exact .none
    · show Option.Rel R (if isLead y = true then _ else none) (if isLead y = true then _ else none)
      split
      · rename_i hy
        exact hnext _ hσ.kept.gone.kept
          ((List.suffix_cons _ hs).trans ((List.suffix_cons _ _).trans hall)) hy
      · exact .none

/-! ### The head -/

/-- Without the character that ends it there is no head. -/
theorem ends_functionHead_eq_none {tail : Pattern} {x : Char} {s : Place} (hs : x ∉ s.rest) :
    Pattern.ends ((functionHead tail x).map Prod.fst) s = none := by
  cases hends : Pattern.ends ((functionHead tail x).map Prod.fst) s with
  | none => rfl
  | some es =>
    obtain ⟨s₁, _, -, hends₁, hsuffix₁, -⟩ := Pattern.ends_cons_eq_some hends
    obtain ⟨s₂, _, -, hends₂, hsuffix₂, -⟩ := Pattern.ends_cons_eq_some hends₁
    obtain ⟨s₃, _, -, hends₃, hsuffix₃, -⟩ := Pattern.ends_cons_eq_some hends₂
    obtain ⟨s₄, _, -, hends₄, hsuffix₄, -⟩ := Pattern.ends_cons_eq_some hends₃
    have hsuffix := ((hsuffix₄.trans hsuffix₃).trans hsuffix₂).trans hsuffix₁
    exact absurd (hsuffix.subset (mem_of_run_char hends₄)) hs

theorem tracksAll_functionHead {c : Char → Bool} (hc : c ' ' = true) {x : Char} (hx : x ≠ ' ')
    {Q : Spot → Prop} (hQ : Carries (· == x) AtKept Q) :
    TracksAll Unstarred ((functionHead (.many c) x).map Prod.fst) Q := by
  have hopen : Tracks .nothing AtKept (char '(') Anywhere := .one carries_anywhere halts_of_atKept
  have hclose : Tracks .nothing AtKept (char ')') Anywhere := .one carries_anywhere halts_of_atKept
  have hlist : Tracks .stops Anywhere (.few (noneOf ";")) AtKept :=
    .few_across rfl carries_anywhere (fun _ _ _ _ _ _ => trivial) fun _ _ _ h => h
  have hparameters : Tracks .nothing Steady
      (blanks ++ char '(' ++ .few (noneOf ";") ++ char ')') Anywhere := by
    simp only [Tracks.assoc]
    have hrest := hopen.seq (hlist.seq_stops hclose (stops_one (by decide)))
    exact (tracks_blanks.seq_stops hrest (stops_one (by decide)).seq).mono (fun _ _ _ => trivial)
      fun _ _ h => h
  have htail : Tracks .stops Anywhere (.many c) AtKept :=
    .many_across hc carries_anywhere (fun _ _ _ _ _ _ => trivial) fun _ _ _ h => h
  have hspace : (' ' == x) = false := beq_eq_false_iff_ne.mpr (Ne.symm hx)
  exact .cons_refuses tracks_lead (.cons tracks_name (.cons hparameters (.cons_stops htail
    (.last (Tracks.one hQ halts_of_atKept).of_nothing) (stops_one hspace))))
    (refuses_of_unspaced (by decide) (by decide))

/-- **The head of a function is found alike in both readings** at a settled spot. -/
theorem stable_functionHead {c : Char → Bool} (hc : c ' ' = true) {x : Char}
    (hx : x = ';' ∨ x = '{') {move : Move Mode} {Q : Spot → Prop}
    (hQ : Carries (· == x) AtKept Q) :
    Stable Settled ⟨functionHead (.many c) x, move⟩ Q := by
  have hspace : x ≠ ' ' := by rcases hx with rfl | rfl <;> decide
  refine stable_of_tracksAll fun σ hσ hσP => ?_
  by_cases hstar : ∃ gs, σ.glyphs = .kept '*' :: .gone :: gs
  · -- the asterisk begins no statement, so that nothing ends a head
    obtain ⟨a, b, g, gs⟩ := σ
    obtain ⟨hs, rfl⟩ := hstar
    obtain hfresh | hheadless | hink := hσP.2
    · exact absurd rfl ((calm_cons_iff.mp hσ.calm).2.1 rfl hfresh)
    · have hlast : .kept x ∉ .kept '*' :: .gone :: hs := by
        rcases hx with rfl | rfl
        · exact hheadless.1
        · exact hheadless.2
      have hloose : x ∉ looseText (.kept '*' :: .gone :: hs) :=
        mt (mem_looseText_iff hspace).mp hlast
      have htight : x ∉ tightText (.kept '*' :: .gone :: hs) := mt mem_tightText_iff.mp hlast
      rw [ends_functionHead_eq_none hloose, ends_functionHead_eq_none htight]
      exact .none
    · exact absurd hink (by simp [firstInk, show Text.isBlank '*' = false by decide])
  · exact tracksAll_functionHead hc hspace hQ σ hσ ⟨hσP.1, fun gs hgs => hstar ⟨gs, hgs⟩⟩

/-! ### The parts of a head -/

/-- A pattern leads to each place it can: where one rest of a match fails and another succeeds, they
part at some place. -/
theorem exists_of_run_eq_none {p : Pattern} {α β : Type} {k : Place → Option α}
    {k' : Place → Option β} {s : Place} {a : β} (h : p.run k s = none)
    (h' : p.run k' s = some a) : ∃ e, k e = none ∧ k' e = some a := by
  induction p generalizing α β s with
  | empty => exact ⟨s, h, h'⟩
  | one c =>
    obtain ⟨prev, rest⟩ := s
    cases rest with
    | nil => cases h'
    | cons x t =>
      obtain ⟨hx, hk'⟩ := Option.ite_none_right_eq_some.mp h'
      exact ⟨_, by simpa [Pattern.run, hx] using h, hk'⟩
  | many c =>
    obtain ⟨prev, rest⟩ := s
    simp only [Pattern.run] at h h'
    induction rest generalizing prev with
    | nil => exact ⟨_, h, h'⟩
    | cons x t ih =>
      rw [Pattern.runMany_cons] at h h'
      split at h
      · rename_i hx
        rw [if_pos hx] at h'
        obtain ⟨hmore, hhere⟩ := Option.or_eq_none_iff.mp h
        obtain h' | ⟨-, h'⟩ := Option.or_eq_some_iff.mp h'
        · exact ih _ hmore h'
        · exact ⟨_, hhere, h'⟩
      · rename_i hx
        rw [if_neg hx] at h'
        exact ⟨_, h, h'⟩
  | few c =>
    obtain ⟨prev, rest⟩ := s
    simp only [Pattern.run] at h h'
    induction rest generalizing prev with
    | nil => exact ⟨_, h, h'⟩
    | cons x t ih =>
      rw [Pattern.runFew_cons] at h h'
      obtain ⟨hhere, hmore⟩ := Option.or_eq_none_iff.mp h
      obtain h' | ⟨-, h'⟩ := Option.or_eq_some_iff.mp h'
      · exact ⟨_, hhere, h'⟩
      · obtain ⟨hx, h'⟩ := Option.ite_none_right_eq_some.mp h'
        exact ih _ (by simpa [hx] using hmore) h'
  | seq p q ihp ihq =>
    obtain ⟨e, he, he'⟩ := ihp h h'
    exact ihq he he'
  | alt p q ihp ihq =>
    rw [Pattern.run_alt] at h h'
    obtain ⟨hp, hq⟩ := Option.or_eq_none_iff.mp h
    obtain h' | ⟨-, h'⟩ := Option.or_eq_some_iff.mp h'
    · exact ihp hp h'
    · exact ihq hq h'
  | lineStart | edge c | after c | ahead p =>
    obtain ⟨hhere, hk'⟩ := Option.ite_none_right_eq_some.mp h'
    exact ⟨s, by simpa only [Pattern.run, if_pos hhere] using h, hk'⟩
  | notAfter c | notAhead p =>
    obtain ⟨hhere, hk'⟩ := Option.ite_none_left_eq_some.mp h'
    exact ⟨s, by simpa only [Pattern.run, if_neg hhere] using h, hk'⟩

theorem exists_of_ends_eq_none {p : Pattern} {ps qs : List Pattern} {s : Place} {es : List Place}
    (h : Pattern.ends (p :: ps) s = none) (h' : Pattern.ends (p :: qs) s = some es) :
    ∃ e es', es = e :: es' ∧ Pattern.ends ps e = none ∧ Pattern.ends qs e = some es' := by
  obtain ⟨e, he, he'⟩ := exists_of_run_eq_none h h'
  obtain ⟨es', hes', rfl⟩ := Option.map_eq_some_iff.mp he'
  exact ⟨e, es', rfl, Option.map_eq_none_iff.mp he, hes'⟩

/-- The text begins with a parenthesis, after white space. -/
def Opens (v : List Char) : Prop := ∃ u w, v = u ++ '(' :: w ∧ ∀ x ∈ u, Text.isBlank x = true

/-- The return type and the parameters of a head, and what stands before its end: this goes on from
a place where no other end is found if none is found from the beginning. -/
theorem cuts_functionHead {c : Char → Bool} {x : Char} {s : Place} {es : List Place}
    (h : Pattern.ends ((functionHead (.many c) x).map Prod.fst) s = some es) :
    ∃ (v₁ v₂ v₃ v₄ : List Char) (vs : List (List Char)) (e e' : Place),
      Match.cuts s es = v₁ :: v₂ :: v₃ :: v₄ :: vs ∧ (∀ y ∈ v₁, isLead y = true) ∧ Opens v₃ ∧
      (∀ y ∈ v₄, c y = true) ∧ v₄ ++ e'.rest = e.rest ∧
      ∀ tail x', Pattern.ends ((functionHead tail x').map Prod.fst) s = none →
        Pattern.ends [tail, char x'] e = none := by
  have hlead : Takes lead fun u => ∀ y ∈ u, isLead y = true := by
    have hone : ∀ {c : Char → Bool} {u : List Char}, (∀ y, c y = true → isLead y = true) →
        (∃ y, u = [y] ∧ c y = true) → ∀ y ∈ u, isLead y = true := by
      rintro c u hc ⟨y, rfl, hy⟩
      exact List.forall_mem_singleton.mpr (hc y hy)
    have hfew : Takes (Pattern.few1 isLead) fun u => ∀ y ∈ u, isLead y = true :=
      (takes_one isLead).seq (takes_few isLead) fun u v hu hv =>
        List.forall_mem_append.mpr ⟨hone (fun _ h => h) hu, hv⟩
    exact hfew.seq (takes_one isGap) fun u v hu hv =>
      List.forall_mem_append.mpr ⟨hu, hone (fun _ => isLead_of_isGap) hv⟩
  have hparameters : Takes (blanks ++ char '(' ++ .few (noneOf ";") ++ char ')') Opens := by
    have hopen : Takes (blanks ++ char '(') Opens := by
      refine (takes_many Text.isBlank).seq (takes_one (· == '(')) ?_
      rintro u - hu ⟨y, rfl, hy⟩
      exact ⟨u, [], by rw [beq_iff_eq.mp hy], hu⟩
    have hmore : ∀ (u v : List Char), Opens u → True → Opens (u ++ v) := by
      rintro - v ⟨u, w, rfl, hu⟩ -
      exact ⟨u, w ++ v, by simp, hu⟩
    exact (hopen.seq (takes_any _) hmore).seq (takes_any _) hmore
  obtain ⟨v₁, e₁, es₁, rfl, h₁, hv₁, -, hcuts₁⟩ := hlead.ends_cons h
  obtain ⟨v₂, e₂, es₂, rfl, h₂, -, -, hcuts₂⟩ := (takes_any name).ends_cons h₁
  obtain ⟨v₃, e₃, es₃, rfl, h₃, hv₃, -, hcuts₃⟩ := hparameters.ends_cons h₂
  obtain ⟨v₄, e₄, es₄, rfl, -, hv₄, hsplit, hcuts₄⟩ := (takes_many c).ends_cons h₃
  refine ⟨v₁, v₂, v₃, v₄, _, e₃, e₄, by rw [hcuts₁, hcuts₂, hcuts₃, hcuts₄], hv₁, hv₃, hv₄, hsplit,
    fun tail x' hnone => ?_⟩
  obtain ⟨_, _, heq, hnone, h₁'⟩ := exists_of_ends_eq_none hnone h
  obtain ⟨rfl, rfl⟩ := List.cons.inj heq
  obtain ⟨_, _, heq, hnone, h₂'⟩ := exists_of_ends_eq_none hnone h₁
  obtain ⟨rfl, rfl⟩ := List.cons.inj heq
  obtain ⟨_, _, heq, hnone, h₃'⟩ := exists_of_ends_eq_none hnone h₂
  obtain ⟨rfl, rfl⟩ := List.cons.inj heq
  exact hnone

/-- A run of characters comes to every place that characters of its class lead to. -/
theorem isSome_runMany_append {α : Type} {c : Char → Bool} {k : Place → Option α}
    {u t : List Char} (hu : ∀ x ∈ u, c x = true) (hk : ∀ prev, (k ⟨prev, t⟩).isSome = true)
    (prev : Option Char) : (Pattern.runMany c k prev (u ++ t)).isSome = true := by
  induction u generalizing prev with
  | nil =>
    cases t with
    | nil => exact hk prev
    | cons x t =>
      rw [List.nil_append, Pattern.runMany_cons]
      split
      · rw [Option.isSome_or, hk, Bool.or_true]
      · exact hk prev
  | cons x u ih =>
    obtain ⟨hx, hu⟩ := List.forall_mem_cons.mp hu
    rw [List.cons_append, Pattern.runMany_cons, if_pos hx, Option.isSome_or, ih hu, Bool.true_or]

/-- What stands before the semicolon of a head has no brace in it, where no head ends in one. -/
theorem brace_not_mem {e e' : Place} {v : List Char} (hv : v ++ e'.rest = e.rest)
    (hclass : ∀ y ∈ v, noneOf ";" y = true)
    (hnone : Pattern.ends [.many (noneOf ";\x7b"), char '{'] e = none) : '{' ∉ v := by
  intro hmem
  obtain ⟨u, w, rfl, hu⟩ := List.eq_append_cons_of_mem hmem
  have hbefore : ∀ y ∈ u, noneOf ";\x7b" y = true := by
    intro y hy
    have hsemicolon := hclass y (List.mem_append_left _ hy)
    have hne : y ≠ '{' := fun h => hu (h ▸ hy)
    simp_all [noneOf, oneOf]
  have hrest : e.rest = u ++ '{' :: (w ++ e'.rest) := by simp [← hv]
  have hsome : (Pattern.ends [.many (noneOf ";\x7b"), char '{'] e).isSome = true := by
    show (Pattern.runMany (noneOf ";\x7b") _ e.prev e.rest).isSome = true
    rw [hrest]
    exact isSome_runMany_append hbefore (fun _ => rfl) _
  rw [hnone] at hsome
  cases hsome

/-! ### Parts that are lexed on their own -/

/-- No part of the rule's match is lexed on its own. -/
def isFlat (r : Rule Mode) : Bool := r.parts.all fun part => decide (part.2 ≠ .nested)

theorem nested_not_mem {r : Rule Mode} (hr : isFlat r = true) {s : Place} {m : Match Mode}
    (hm : r.match? s = some m) (v : List Char) : (.nested, v) ∉ m.parts s := by
  intro hv
  obtain ⟨rfl, -⟩ := Rule.match?_eq_some hm
  obtain ⟨part, hpart, hnested⟩ := List.mem_map.mp (List.of_mem_zip hv).1
  exact absurd hnested (of_decide_eq_true (List.all_eq_true.mp hr part hpart))

theorem nested_not_mem_spacing {s : Place} (hs : '#' ∉ s.rest) {r : Rule Mode} (hr : r ∈ spacing)
    {m : Match Mode} (hm : r.match? s = some m) (v : List Char) : (.nested, v) ∉ m.parts s := by
  rw [← List.take_append_drop 4 spacing] at hr
  obtain hr | hr := List.mem_append.mp hr
  · rw [match?_directive_eq_none hs r hr] at hm
    cases hm
  · have hflat : (spacing.drop 4).all isFlat = true := by decide
    exact nested_not_mem (List.all_eq_true.mp hflat r hr) hm v

/-- A rule that ends in a lexeme takes something, so it matches where its patterns do. -/
theorem ends_eq_none_of_match? {r : Rule Mode} (hr : r.endsInToken = true) {s : Place}
    (h : r.match? s = none) : Pattern.ends (r.parts.map Prod.fst) s = none := by
  cases hends : Pattern.ends (r.parts.map Prod.fst) s with
  | none => rfl
  | some es =>
    obtain ⟨p, hlast, hconsumes⟩ : ∃ p, (r.parts.map Prod.fst).getLast? = some p ∧
        p.consumes = true := by
      unfold Rule.endsInToken at hr
      split at hr
      · rename_i p kind hparts
        exact ⟨p, by rw [List.getLast?_map, hparts]; rfl, hr⟩
      · cases hr
    obtain ⟨t, ht, hne⟩ := Match.getLast?_cuts_ne_nil hends hlast hconsumes
    have hlength := congrArg List.length (Match.flatten_cuts hends)
    have htaken := (List.sublist_flatten_of_mem (List.mem_of_getLast? ht)).length_le
    have hpos := List.length_pos_iff.mpr hne
    rw [List.length_append] at hlength
    rw [Rule.match?, hends] at h
    simp only [ite_eq_right_iff, reduceCtorEq, imp_false] at h
    omega

/-- The parts of a head that are lexed on their own. -/
theorem nested_functionHead {c : Char → Bool} {x : Char} {move : Move Mode} {s : Place}
    {m : Match Mode} (hm : (⟨functionHead (.many c) x, move⟩ : Rule Mode).match? s = some m)
    {v : List Char} (hv : (.nested, v) ∈ m.parts s) :
    (∀ y ∈ v, isLead y = true) ∨ Opens v ∨ (∀ y ∈ v, c y = true) ∧
      ∃ e e' : Place, v ++ e'.rest = e.rest ∧
        ∀ tail x', Pattern.ends ((functionHead tail x').map Prod.fst) s = none →
          Pattern.ends [tail, char x'] e = none := by
  obtain ⟨hrule, hends⟩ := Rule.match?_eq_some hm
  obtain ⟨v₁, v₂, v₃, v₄, vs, e, e', hcuts, hv₁, hv₃, hv₄, hsplit, hother⟩ :=
    cuts_functionHead hends
  rw [Match.parts, hrule, hcuts] at hv
  change _ ∈ (Action.nested, v₁) :: (Action.token .identifier, v₂) :: (Action.nested, v₃) ::
    (Action.nested, v₄) :: [Action.token .other].zip vs at hv
  simp only [List.mem_cons, Prod.mk.injEq, reduceCtorEq, false_and, true_and, false_or] at hv
  obtain rfl | rfl | rfl | hv := hv
  · exact Or.inl hv₁
  · exact Or.inr (Or.inl hv₃)
  · exact Or.inr (Or.inr ⟨hv₄, e, e', hsplit, hother⟩)
  · exact absurd (List.of_mem_zip hv).1 (by simp)

theorem nested_top {s : Place} (hs : '#' ∉ s.rest) {m : Match Mode}
    (hm : kernelGrammar.firstMatch .top s = some m) {v : List Char}
    (hv : (.nested, v) ∈ m.parts s) : (';' ∉ v ∧ '{' ∉ v) ∨ Opens v := by
  have hlack : ∀ {c : Char → Bool} {x : Char}, c x = false → (∀ y ∈ v, c y = true) → x ∉ v :=
    fun hx hall hmem => by simp [hall _ hmem] at hx
  have hlead : (∀ y ∈ v, isLead y = true) → ';' ∉ v ∧ '{' ∉ v := fun hall =>
    ⟨hlack (by decide) hall, hlack (by decide) hall⟩
  change (spacing ++ [_, _]).findSome? (Rule.match? · s) = some m at hm
  rw [List.findSome?_append, Option.or_eq_some_iff] at hm
  obtain hspacing | ⟨-, hheads⟩ := hm
  · obtain ⟨r, hr, hmatch⟩ := List.exists_of_findSome?_eq_some hspacing
    exact absurd hv (nested_not_mem_spacing hs hr hmatch v)
  · rw [List.findSome?_cons] at hheads
    split at hheads
    · rename_i m' hbrace
      obtain rfl := Option.some.inj hheads
      obtain hall | hopens | ⟨hall, -⟩ := nested_functionHead hbrace hv
      · exact Or.inl (hlead hall)
      · exact Or.inr hopens
      · exact Or.inl ⟨hlack (by decide) hall, hlack (by decide) hall⟩
    · -- no head ends in a brace
      rename_i hbrace
      obtain ⟨r, hr, hsemicolon⟩ := List.exists_of_findSome?_eq_some hheads
      obtain rfl := List.mem_singleton.mp hr
      obtain hall | hopens | ⟨hall, e, e', hsplit, hother⟩ := nested_functionHead hsemicolon hv
      · exact Or.inl (hlead hall)
      · exact Or.inr hopens
      · have hnone := hother _ _ (ends_eq_none_of_match? (by decide) hbrace)
        exact Or.inl ⟨hlack (by decide) hall, brace_not_mem hsplit hall hnone⟩

/-- **The parts of a head hold no head**: they lack the characters that end one, or begin with a
parenthesis. Other rules have no parts that are lexed on their own. -/
theorem nested_firstMatch {mode : Mode} {s : Place} (hs : '#' ∉ s.rest) {m : Match Mode}
    (hm : kernelGrammar.firstMatch mode s = some m) {v : List Char}
    (hv : (.nested, v) ∈ m.parts s) : (';' ∉ v ∧ '{' ∉ v) ∨ Opens v := by
  have hflat : ∀ {us : List (Rule Mode)}, us.all isFlat = true → ∀ r ∈ us, r.match? s ≠ some m :=
    fun hus r hr hmatch => nested_not_mem (List.all_eq_true.mp hus r hr) hmatch v hv
  have hspaced : ∀ {us : List (Rule Mode)}, us.all isFlat = true →
      ∀ r ∈ spacing ++ us, r.match? s ≠ some m := fun hus =>
    List.forall_mem_append.mpr
      ⟨fun r hr hmatch => nested_not_mem_spacing hs hr hmatch v hv, hflat hus⟩
  obtain ⟨r, hr, hmatch⟩ := kernelGrammar.firstMatch_eq_some hm
  cases mode with
  | top => exact nested_top hs hm hv
  | statement =>
    exact absurd hmatch (hspaced (by decide : (statements ++ [_, _]).all isFlat = true) r hr)
  | body =>
    exact absurd hmatch (hspaced (by decide : (statements ++ [_, _, _]).all isFlat = true) r hr)
  | string => exact absurd hmatch (hflat (by decide) r hr)
  | directive => exact absurd hmatch (hflat (by decide) r hr)
  | disabled => exact absurd hmatch (hflat (by decide) r hr)

end KernelPack.Lexis.Spaced
