import KernelPack.Proofs.Lexis.Glyphs
import KernelPack.Proofs.Lexis.Leading

/-!
# Matching in both readings at once

How a pattern fares in the two readings of a text is said by a triple: `Tracks n P p Q`. From a spot
that satisfies `P` the pattern `p` hands on spots that satisfy `Q`, best first in both readings
alike, provided that the rest of the match meets the **need** `n`. A run of characters that goes on
over dropped spaces is offered a place more in the loose text for each of them; it needs that the
rest fails there (`Need.stops`), or that the rest takes the first place it is offered
(`Need.succeeds`).

A pattern that takes **neither spaces nor punctuation** tracks by itself (`tracks_of_unspaced`): it
stops at a dropped space in the loose text, and in the tight text at the punctuation behind it.
-/

namespace KernelPack.Lexis.Spaced

open KernelGrammar

/-! ### Triples -/

/-- What follows the place, if anything, is a space or punctuation. -/
def AtSpacer (s : Place) : Prop :=
  ∀ x, s.rest.head? = some x → x = ' ' ∨ isPunctuation x = true

/-- What a pattern needs of the rest of the match. -/
inductive Need where
  | nothing
  /-- The rest fails at dropped spaces. -/
  | stops
  /-- The rest fails at all spaces, at punctuation and at the end. -/
  | refuses
  /-- The rest takes every place it is offered. -/
  | succeeds

/-- The rest of a match in the loose text meets a need. -/
def Need.Met {α : Type} (k : Place → Option α) : Need → Prop
  | nothing => True
  | stops => ∀ σ : Spot, σ.Sound → σ.glyphs.head? = some .gone → k σ.loose = none
  | refuses => ∀ s, AtSpacer s → k s = none
  | succeeds => ∀ s, (k s).isSome = true

/-- The rests of a match in both readings agree at spots, among the glyphs `all`, that satisfy
`P`. -/
def Agree {α β : Type} (all : List Glyph) (P : Spot → Prop) (R : α → β → Prop)
    (k : Place → Option α) (k' : Place → Option β) : Prop :=
  ∀ σ : Spot, σ.Sound → σ.glyphs <:+ all → P σ → Option.Rel R (k σ.loose) (k' σ.tight)

/-- **From `P` the pattern comes to `Q` in both readings alike**, if the rest meets the need. -/
def Tracks (n : Need) (P : Spot → Prop) (p : Pattern) (Q : Spot → Prop) : Prop :=
  ∀ ⦃α β : Type⦄ ⦃all : List Glyph⦄ ⦃R : α → β → Prop⦄ ⦃k : Place → Option α⦄
    ⦃k' : Place → Option β⦄, n.Met k → Agree all Q R k k' → Agree all P R (p.run k) (p.run k')

/-- The pattern fails at dropped spaces. -/
def Stops (p : Pattern) : Prop :=
  ∀ ⦃α : Type⦄ (k : Place → Option α), Need.stops.Met (p.run k)

/-- Nothing is asked of the spot. -/
def Anywhere (_ : Spot) : Prop := True

/-- The spot is not at a dropped space. -/
def AtKept (σ : Spot) : Prop := σ.glyphs.head? ≠ some .gone

theorem atKept_nil {a b : Option Char} {g : Stage} : AtKept ⟨a, b, g, []⟩ := by simp [AtKept]

theorem atKept_kept {a b : Option Char} {g : Stage} {x : Char} {gs : List Glyph} :
    AtKept ⟨a, b, g, .kept x :: gs⟩ := by simp [AtKept]

/-- From `P` a character of the class leads to `Q`. -/
def Carries (c : Char → Bool) (P Q : Spot → Prop) : Prop :=
  ∀ ⦃a b : Option Char⦄ ⦃g : Stage⦄ ⦃x : Char⦄ ⦃gs : List Glyph⦄,
    Spot.Sound ⟨a, b, g, .kept x :: gs⟩ → P ⟨a, b, g, .kept x :: gs⟩ → c x = true →
      Q ⟨some x, some x, g.next x, gs⟩

/-- Under `P` the class takes neither a dropped space nor the character behind it. -/
def Halts (c : Char → Bool) (P : Spot → Prop) : Prop :=
  ∀ ⦃a b : Option Char⦄ ⦃g : Stage⦄ ⦃gs : List Glyph⦄,
    Spot.Sound ⟨a, b, g, .gone :: gs⟩ → P ⟨a, b, g, .gone :: gs⟩ →
      c ' ' = false ∧ ∀ y, gs.head? = some (.kept y) → c y = false

/-- So it takes nothing there in either reading. -/
theorem Halts.any_head? {c : Char → Bool} {P : Spot → Prop} (h : Halts c P) {a b : Option Char}
    {g : Stage} {gs : List Glyph} (hσ : Spot.Sound ⟨a, b, g, .gone :: gs⟩)
    (hP : P ⟨a, b, g, .gone :: gs⟩) :
    (looseText (.gone :: gs)).head?.any c = false ∧
      (tightText (.gone :: gs)).head?.any c = false := by
  obtain ⟨hspace, hnext⟩ := h hσ hP
  refine ⟨hspace, ?_⟩
  obtain rfl | ⟨y, hs, rfl, -⟩ := hσ.gone_cases
  · rfl
  · exact hnext y rfl

section Head

variable {α : Type} {c : Char → Bool} (k : Place → Option α) {prev : Option Char}
  {rest : List Char} (h : rest.head?.any c = false)

include h

/-- One character cannot be taken where another class follows. -/
theorem run_one_of_head : (Pattern.one c).run k ⟨prev, rest⟩ = none := by
  cases rest with
  | nil => rfl
  | cons x t => exact if_neg (Bool.eq_false_iff.mp h)

/-- A longest run is empty where another class follows. -/
theorem runMany_of_head : Pattern.runMany c k prev rest = k ⟨prev, rest⟩ := by
  cases rest with
  | nil => rfl
  | cons x t =>
    have hx : c x = false := h
    simp [Pattern.runMany_cons, hx]

/-- So is a shortest run. -/
theorem runFew_of_head : Pattern.runFew c k prev rest = k ⟨prev, rest⟩ := by
  cases rest with
  | nil => rfl
  | cons x t =>
    have hx : c x = false := h
    simp [Pattern.runFew_cons, hx]

end Head

theorem halts_of_atKept {c : Char → Bool} : Halts c AtKept := fun _ _ _ _ _ h => absurd rfl h

theorem carries_anywhere {c : Char → Bool} {P : Spot → Prop} : Carries c P Anywhere :=
  fun _ _ _ _ _ _ _ _ => trivial

namespace Tracks

variable {n : Need} {P P' Q Q' M : Spot → Prop} {p q : Pattern} {c : Char → Bool}

theorem of_nothing (h : Tracks .nothing P p Q) : Tracks n P p Q :=
  fun _ _ _ _ _ _ _ => h trivial

theorem mono (h : Tracks n P p Q) (hP : ∀ σ, σ.Sound → P' σ → P σ)
    (hQ : ∀ σ, σ.Sound → Q σ → Q' σ) : Tracks n P' p Q' :=
  fun _ _ _ _ _ _ hk hagree σ hσ hall hp =>
    h hk (fun τ hτ hall hq => hagree τ hτ hall (hQ τ hτ hq)) σ hσ hall (hP σ hσ hp)

/-- One pattern after another, if the first needs nothing. -/
theorem seq (hp : Tracks .nothing P p M) (hq : Tracks n M q Q) : Tracks n P (p ++ q) Q :=
  fun _ _ _ _ _ _ hk hagree => hp trivial (hq hk hagree)

/-- One pattern after another that fails at dropped spaces. -/
theorem seq_stops (hp : Tracks .stops P p M) (hq : Tracks n M q Q) (hstops : Stops q) :
    Tracks n P (p ++ q) Q :=
  fun _ _ _ _ _ _ hk hagree => hp (hstops _) (hq hk hagree)

/-- How a row of patterns is bracketed makes no difference. -/
theorem assoc {r : Pattern} : Tracks n P (p ++ q ++ r) Q ↔ Tracks n P (p ++ (q ++ r)) Q := Iff.rfl

theorem alt (hp : Tracks n P p Q) (hq : Tracks n P q Q) : Tracks n P (.alt p q) Q := by
  intro α β all R k k' hk hagree σ hσ hall hP
  rw [Pattern.run_alt, Pattern.run_alt]
  exact rel_or (hp hk hagree σ hσ hall hP) (hq hk hagree σ hσ hall hP)

theorem empty (h : ∀ σ, σ.Sound → P σ → Q σ) : Tracks .nothing P .empty Q :=
  fun _ _ _ _ _ _ _ hagree σ hσ hall hP => hagree σ hσ hall (h σ hσ hP)

theorem opt (hp : Tracks .nothing P p Q) (h : ∀ σ, σ.Sound → P σ → Q σ) :
    Tracks .nothing P (Pattern.opt p) Q :=
  hp.alt (Tracks.empty h)

/-- One of several patterns. -/
theorem choice {ps : List Pattern} (h : ∀ p ∈ ps, Tracks n P p Q) :
    Tracks n P (Pattern.choice ps) Q := by
  induction ps with
  | nil => exact fun _ _ _ _ _ _ _ _ _ _ _ _ => .none
  | cons p ps ih =>
    obtain ⟨hp, hps⟩ := List.forall_mem_cons.mp h
    cases ps with
    | nil => exact hp
    | cons => exact hp.alt (ih hps)

/-- A pattern ahead is found in both readings or in neither. -/
theorem isSome_run (hp : Tracks .succeeds P p Q) {σ : Spot} (hσ : σ.Sound) (hP : P σ) :
    (p.run some σ.loose).isSome = (p.run some σ.tight).isSome := by
  have hagree : Agree σ.glyphs Q (fun _ _ => True) some some := fun _ _ _ _ => .some trivial
  have hrel := hp (fun _ => rfl) hagree σ hσ (List.suffix_refl _) hP
  generalize p.run some σ.loose = r at hrel ⊢
  generalize p.run some σ.tight = r' at hrel ⊢
  cases hrel with
  | none => rfl
  | some => rfl

theorem ahead (hp : Tracks .succeeds P p M) : Tracks .nothing P (.ahead p) P := by
  intro α β all R k k' _ hagree σ hσ hall hP
  simp only [Pattern.run, hp.isSome_run hσ hP]
  split
  · exact hagree σ hσ hall hP
  · exact .none

theorem notAhead (hp : Tracks .succeeds P p M) : Tracks .nothing P (.notAhead p) P := by
  intro α β all R k k' _ hagree σ hσ hall hP
  simp only [Pattern.run, hp.isSome_run hσ hP]
  split
  · exact .none
  · exact hagree σ hσ hall hP

/-! ### Characters -/

/-- One character of a class. -/
theorem one (hcarries : Carries c P Q) (hhalts : Halts c P) : Tracks .nothing P (.one c) Q := by
  rintro α β all R k k' - hagree ⟨a, b, g, gs⟩ hσ hall hP
  match gs, hσ, hall, hP with
  | [], _, _, _ => exact .none
  | .kept x :: gs, hσ, hall, hP =>
    show Option.Rel R (if c x = true then _ else none) (if c x = true then _ else none)
    split
    · rename_i hx
      exact hagree _ hσ.kept ((List.suffix_cons _ gs).trans hall) (hcarries hσ hP hx)
    · exact .none
  | .gone :: gs, hσ, hall, hP =>
    obtain ⟨hloose, htight⟩ := hhalts.any_head? hσ hP
    rw [Spot.loose, Spot.tight, run_one_of_head k hloose, run_one_of_head k' htight]
    exact .none

/-- As many characters of a class as possible, up to dropped spaces. -/
theorem many (hcarries : Carries c P P) (hhalts : Halts c P) : Tracks .nothing P (.many c) P := by
  rintro α β all R k k' - hagree ⟨a, b, g, gs⟩ hσ hall hP
  simp only [Pattern.run]
  induction gs generalizing a b g with
  | nil => exact hagree _ hσ hall hP
  | cons z gs ih =>
    have hhere := hagree _ hσ hall hP
    have hall' := (List.suffix_cons _ gs).trans hall
    cases z with
    | kept x =>
      simp only [Spot.loose, Spot.tight, looseText_kept, tightText_kept, Pattern.runMany_cons]
      split
      · rename_i hx
        exact rel_or (ih _ _ _ hσ.kept hall' (hcarries hσ hP hx)) hhere
      · exact hhere
    | gone =>
      obtain ⟨hloose, htight⟩ := hhalts.any_head? hσ hP
      simp only [Spot.loose, Spot.tight, runMany_of_head k hloose, runMany_of_head k' htight]
      exact hhere

/-- As few characters of a class as possible, up to dropped spaces. -/
theorem few (hcarries : Carries c P P) (hhalts : Halts c P) : Tracks .nothing P (.few c) P := by
  rintro α β all R k k' - hagree ⟨a, b, g, gs⟩ hσ hall hP
  simp only [Pattern.run]
  induction gs generalizing a b g with
  | nil => exact hagree _ hσ hall hP
  | cons z gs ih =>
    have hhere := hagree _ hσ hall hP
    have hall' := (List.suffix_cons _ gs).trans hall
    cases z with
    | kept x =>
      simp only [Spot.loose, Spot.tight, looseText_kept, tightText_kept, Pattern.runFew_cons]
      refine rel_or hhere ?_
      split
      · rename_i hx
        exact ih _ _ _ hσ.kept hall' (hcarries hσ hP hx)
      · exact .none
    | gone =>
      obtain ⟨hloose, htight⟩ := hhalts.any_head? hσ hP
      simp only [Spot.loose, Spot.tight, runFew_of_head k hloose, runFew_of_head k' htight]
      exact hhere

end Tracks

/-! ### Across dropped spaces -/

/-- `P` still holds behind a dropped space. -/
def Passes (P : Spot → Prop) : Prop :=
  ∀ ⦃a b : Option Char⦄ ⦃g : Stage⦄ ⦃gs : List Glyph⦄,
    Spot.Sound ⟨a, b, g, .gone :: gs⟩ → P ⟨a, b, g, .gone :: gs⟩ → P ⟨some ' ', b, g, gs⟩

namespace Tracks

variable {P Q : Spot → Prop} {c : Char → Bool} (hspace : c ' ' = true) (hcarries : Carries c P P)
  (hpasses : Passes P)

include hspace hcarries hpasses

/-- As many characters of a class as possible, if the rest fails at dropped spaces. -/
theorem many_across (hQ : ∀ σ, σ.Sound → P σ → AtKept σ → Q σ) :
    Tracks .stops P (.many c) Q := by
  rintro α β all R k k' hk hagree ⟨a, b, g, gs⟩ hσ hall hP
  simp only [Pattern.run]
  induction gs generalizing a b g with
  | nil => exact hagree _ hσ hall (hQ _ hσ hP atKept_nil)
  | cons z gs ih =>
    have hall' := (List.suffix_cons _ gs).trans hall
    cases z with
    | kept x =>
      have hhere := hagree _ hσ hall (hQ _ hσ hP atKept_kept)
      simp only [Spot.loose, Spot.tight, looseText_kept, tightText_kept, Pattern.runMany_cons]
      split
      · rename_i hx
        exact rel_or (ih _ _ _ hσ.kept hall' (hcarries hσ hP hx)) hhere
      · exact hhere
    | gone =>
      have hnone : k ⟨a, ' ' :: looseText gs⟩ = none := hk _ hσ rfl
      have hnext := ih _ _ _ hσ.gone hall' (hpasses hσ hP)
      simp only [Spot.loose, Spot.tight, looseText_gone, tightText_gone, Pattern.runMany_cons,
        if_pos hspace, hnone, Option.or_none]
      exact hnext

/-- As few characters of a class as possible, if the rest fails at dropped spaces. -/
theorem few_across (hQ : ∀ σ, σ.Sound → P σ → AtKept σ → Q σ) :
    Tracks .stops P (.few c) Q := by
  rintro α β all R k k' hk hagree ⟨a, b, g, gs⟩ hσ hall hP
  simp only [Pattern.run]
  induction gs generalizing a b g with
  | nil => exact hagree _ hσ hall (hQ _ hσ hP atKept_nil)
  | cons z gs ih =>
    have hall' := (List.suffix_cons _ gs).trans hall
    cases z with
    | kept x =>
      have hhere := hagree _ hσ hall (hQ _ hσ hP atKept_kept)
      simp only [Spot.loose, Spot.tight, looseText_kept, tightText_kept, Pattern.runFew_cons]
      refine rel_or hhere ?_
      split
      · rename_i hx
        exact ih _ _ _ hσ.kept hall' (hcarries hσ hP hx)
      · exact .none
    | gone =>
      have hnone : k ⟨a, ' ' :: looseText gs⟩ = none := hk _ hσ rfl
      have hnext := ih _ _ _ hσ.gone hall' (hpasses hσ hP)
      simp only [Spot.loose, Spot.tight, looseText_gone, tightText_gone, Pattern.runFew_cons,
        if_pos hspace, hnone, Option.none_or]
      exact hnext

/-- As many characters of a class as possible, if the rest takes the first place it is offered:
then the run ends where no character of the class follows. -/
theorem many_to_end (hQ : ∀ σ, σ.Sound → P σ → AtKept σ →
      (∀ x, σ.glyphs.head? = some (.kept x) → c x = false) → Q σ) :
    Tracks .succeeds P (.many c) Q := by
  rintro α β all R k k' hk hagree ⟨a, b, g, gs⟩ hσ hall hP
  simp only [Pattern.run]
  induction gs generalizing a b g with
  | nil => exact hagree _ hσ hall (hQ _ hσ hP atKept_nil (by simp))
  | cons z gs ih =>
    have hall' := (List.suffix_cons _ gs).trans hall
    have hlonger : ∀ {r r' : Option _} {r₁ : Option α} {r₁' : Option β}, r.isSome = true →
        Option.Rel R r r' → Option.Rel R (r.or r₁) (r'.or r₁') := by
      intro r r' r₁ r₁' hsome hrel
      cases hrel with
      | none => cases hsome
      | some h => exact .some h
    cases z with
    | kept x =>
      simp only [Spot.loose, Spot.tight, looseText_kept, tightText_kept, Pattern.runMany_cons]
      split
      · rename_i hx
        exact hlonger (isSome_runMany c hk _ _)
          (ih _ _ _ hσ.kept hall' (hcarries hσ hP hx))
      · rename_i hx
        refine hagree _ hσ hall (hQ _ hσ hP atKept_kept fun y hy => ?_)
        obtain rfl := Glyph.kept.inj (Option.some.inj hy)
        exact Bool.eq_false_iff.mpr hx
    | gone =>
      have hnext := ih _ _ _ hσ.gone hall' (hpasses hσ hP)
      have hsome := isSome_runMany c hk (some ' ') (looseText gs)
      simp only [Spot.loose, Spot.tight, looseText_gone, tightText_gone, Pattern.runMany_cons,
        if_pos hspace]
      obtain ⟨r, hr⟩ := Option.isSome_iff_exists.mp hsome
      rw [hr, Option.some_or, ← hr]
      exact hnext

end Tracks

/-! ### Patterns that take neither spaces nor punctuation -/

/-- The class holds neither the space nor punctuation. -/
def unspaced (c : Char → Bool) : Bool := !c ' ' && "\x7b\x7d[](),;+-*/%=><".toList.all (!c ·)

theorem unspaced_space {c : Char → Bool} (h : unspaced c = true) : c ' ' = false := by
  simp only [unspaced, Bool.and_eq_true, Bool.not_eq_eq_eq_not, Bool.not_true] at h
  exact h.1

theorem unspaced_punctuation {c : Char → Bool} (h : unspaced c = true) {x : Char}
    (hx : isPunctuation x = true) : c x = false := by
  rw [unspaced, Bool.and_eq_true, List.all_eq_true] at h
  have hmem := h.2 x (List.contains_iff_mem.mp hx)
  exact Bool.not_eq_eq_eq_not.mp hmem

/-- The pattern takes neither spaces nor punctuation, nor asks where they are. -/
def isUnspaced : Pattern → Bool
  | .empty => true
  | .one c | .many c | .few c | .edge c | .after c | .notAfter c => unspaced c
  | .seq p q | .alt p q => isUnspaced p && isUnspaced q
  | .lineStart => false
  | .ahead p | .notAhead p => isUnspaced p

/-- **The spot is steady**: behind a dropped space there is punctuation, and the characters before
the spot are the same, or a space and punctuation. -/
structure Steady (σ : Spot) : Prop where
  ahead : ∀ gs, σ.glyphs = .gone :: gs → gs.head?.all Glyph.isMark = true
  before : σ.looseBefore = σ.tightBefore ∨
    σ.looseBefore = some ' ' ∧ σ.tightBefore.all isPunctuation = true

/-- A sound spot is steady where no punctuation follows. -/
theorem Spot.Sound.steady {a b : Option Char} {g : Stage} {x : Char} {gs : List Glyph}
    (h : Spot.Sound ⟨a, b, g, .kept x :: gs⟩) (hx : isPunctuation x = false) :
    Steady ⟨a, b, g, .kept x :: gs⟩ := by
  refine ⟨nofun, h.before.imp_right fun hbefore => ⟨hbefore.1, ?_⟩⟩
  obtain hb | hmark := hbefore.2
  · exact hb
  · exact absurd hmark (by simp [Glyph.isMark, hx])

/-- After a character other than punctuation a spot is steady. -/
theorem Spot.Sound.steady_kept {a b : Option Char} {g : Stage} {x : Char} {gs : List Glyph}
    (h : Spot.Sound ⟨a, b, g, .kept x :: gs⟩) (hx : isPunctuation x = false) :
    Steady ⟨some x, some x, g.next x, gs⟩ := by
  refine ⟨?_, Or.inl rfl⟩
  rintro hs rfl
  obtain hpunctuation | hmark := h.kept.snug.1
  · exact absurd hpunctuation (by simp [hx])
  · exact hmark

section Unspaced

variable {c : Char → Bool} (hc : unspaced c = true)

include hc

theorem isPunctuation_of_unspaced {x : Char} (hx : c x = true) : isPunctuation x = false := by
  refine Bool.eq_false_iff.mpr fun h => ?_
  rw [unspaced_punctuation hc h] at hx
  cases hx

theorem carries_steady {P : Spot → Prop} : Carries c P Steady :=
  fun _ _ _ _ _ hσ _ hx => hσ.steady_kept (isPunctuation_of_unspaced hc hx)

theorem halts_steady : Halts c Steady := by
  intro a b g gs _ hP
  refine ⟨unspaced_space hc, fun y hy => unspaced_punctuation hc ?_⟩
  have hmark := hP.ahead gs rfl
  rw [hy] at hmark
  exact hmark

/-- At a steady spot a class sees the same before it in both readings. -/
theorem Steady.any_before {σ : Spot} (h : Steady σ) :
    σ.looseBefore.any c = σ.tightBefore.any c := by
  obtain heq | ⟨hspace, htight⟩ := h.before
  · rw [heq]
  · rw [hspace, Option.any_some, unspaced_space hc]
    cases hb : σ.tightBefore with
    | none => rfl
    | some x =>
      rw [hb] at htight
      exact (unspaced_punctuation hc htight).symm

/-- At a steady spot a class sees the same behind it in both readings. -/
theorem Steady.any_head? {σ : Spot} (hσ : σ.Sound) (h : Steady σ) :
    σ.loose.rest.head?.any c = σ.tight.rest.head?.any c := by
  obtain ⟨a, b, g, gs⟩ := σ
  match gs with
  | [] => rfl
  | .kept x :: gs => rfl
  | .gone :: gs =>
    obtain ⟨hloose, htight⟩ := (halts_steady hc).any_head? hσ h
    exact hloose.trans htight.symm

end Unspaced

/-- **A pattern that takes neither spaces nor punctuation tracks by itself.** -/
theorem tracks_of_unspaced {p : Pattern} (hp : isUnspaced p = true) :
    Tracks .nothing Steady p Steady := by
  induction p with
  | empty => exact .empty fun _ _ h => h
  | one c => exact .one (carries_steady hp) (halts_steady hp)
  | many c => exact .many (carries_steady hp) (halts_steady hp)
  | few c => exact .few (carries_steady hp) (halts_steady hp)
  | seq p q ihp ihq =>
    obtain ⟨hp, hq⟩ := Bool.and_eq_true_iff.mp hp
    exact (ihp hp).seq (ihq hq)
  | alt p q ihp ihq =>
    obtain ⟨hp, hq⟩ := Bool.and_eq_true_iff.mp hp
    exact (ihp hp).alt (ihq hq)
  | lineStart => cases hp
  | edge c =>
    intro α β all R k k' _ hagree σ hσ hall hP
    have hbefore : σ.loose.prev.any c = σ.tight.prev.any c := hP.any_before hp
    simp only [Pattern.run, hbefore, hP.any_head? hp hσ]
    split
    · exact hagree σ hσ hall hP
    · exact .none
  | after c =>
    intro α β all R k k' _ hagree σ hσ hall hP
    have hbefore : σ.loose.prev.any c = σ.tight.prev.any c := hP.any_before hp
    simp only [Pattern.run, hbefore]
    split
    · exact hagree σ hσ hall hP
    · exact .none
  | notAfter c =>
    intro α β all R k k' _ hagree σ hσ hall hP
    have hbefore : σ.loose.prev.any c = σ.tight.prev.any c := hP.any_before hp
    simp only [Pattern.run, hbefore]
    split
    · exact .none
    · exact hagree σ hσ hall hP
  | ahead p ih => exact (ih hp).of_nothing.ahead
  | notAhead p ih => exact (ih hp).of_nothing.notAhead

/-- The pattern may take the character if that is what follows. -/
def takesAt (x : Option Char) : Pattern → Bool
  | .one c | .many c | .few c => x.any c
  | .seq p q => takesAt x p || (!p.consumes && takesAt x q)
  | .alt p q => takesAt x p || takesAt x q
  | _ => false

/-- A pattern that does not take what follows fails or stays where it is. -/
theorem run_of_not_takesAt {p : Pattern} {α : Type} (k : Place → Option α) {s : Place}
    (h : takesAt s.rest.head? p = false) :
    p.run k s = none ∨ p.consumes = false ∧ p.run k s = k s := by
  induction p generalizing k with
  | empty => exact Or.inr ⟨rfl, rfl⟩
  | one c => exact Or.inl (run_one_of_head k h)
  | many c => exact Or.inr ⟨rfl, runMany_of_head k h⟩
  | few c => exact Or.inr ⟨rfl, runFew_of_head k h⟩
  | seq p q ihp ihq =>
    obtain ⟨hp, hq⟩ := Bool.or_eq_false_iff.mp h
    obtain hnone | ⟨hcp, hstay⟩ := ihp (q.run k) hp
    · exact Or.inl hnone
    · rw [hcp] at hq
      obtain hnone | ⟨hcq, hstay'⟩ := ihq k hq
      · exact Or.inl (hstay.trans hnone)
      · exact Or.inr ⟨by simp [Pattern.consumes, hcp, hcq], hstay.trans hstay'⟩
  | alt p q ihp ihq =>
    obtain ⟨hp, hq⟩ := Bool.or_eq_false_iff.mp h
    rw [Pattern.run_alt]
    obtain hnone | ⟨hcp, hstay⟩ := ihp k hp
    · obtain hnone' | ⟨hcq, hstay'⟩ := ihq k hq
      · exact Or.inl (by rw [hnone, hnone']; rfl)
      · exact Or.inr ⟨by simp [Pattern.consumes, hcq], by rw [hnone, hstay']; rfl⟩
    · obtain hnone' | ⟨hcq, hstay'⟩ := ihq k hq
      · exact Or.inr ⟨by simp [Pattern.consumes, hcp], by rw [hstay, hnone', Option.or_none]⟩
      · exact Or.inr ⟨by simp [Pattern.consumes, hcp], by rw [hstay, hstay', Option.or_self]⟩
  | lineStart | edge c | after c | ahead p =>
    simp only [Pattern.run]
    split
    · exact Or.inr ⟨rfl, rfl⟩
    · exact Or.inl rfl
  | notAfter c | notAhead p =>
    simp only [Pattern.run]
    split
    · exact Or.inl rfl
    · exact Or.inr ⟨rfl, rfl⟩

/-- A pattern that takes neither spaces nor punctuation takes nothing where they follow, nor at the
end. -/
theorem takesAt_of_unspaced {p : Pattern} (hp : isUnspaced p = true) {s : Place}
    (hs : AtSpacer s) : takesAt s.rest.head? p = false := by
  have hclass : ∀ {c : Char → Bool}, unspaced c = true → s.rest.head?.any c = false := by
    intro c hc
    rw [Option.any_eq_false]
    intro x hx
    obtain rfl | hx := hs x hx
    · exact unspaced_space hc
    · exact unspaced_punctuation hc hx
  induction p with
  | one c | many c | few c => exact hclass hp
  | seq p q ihp ihq =>
    obtain ⟨hp, hq⟩ := Bool.and_eq_true_iff.mp hp
    rw [takesAt, ihp hp, ihq hq, Bool.and_false, Bool.or_false]
  | alt p q ihp ihq =>
    obtain ⟨hp, hq⟩ := Bool.and_eq_true_iff.mp hp
    rw [takesAt, ihp hp, ihq hq, Bool.or_false]
  | _ => rfl

/-- The pattern fails at spaces, at punctuation and at the end. -/
def Refuses (p : Pattern) : Prop :=
  ∀ ⦃α : Type⦄ (k : Place → Option α), Need.refuses.Met (p.run k)

theorem refuses_of_unspaced {p : Pattern} (hp : isUnspaced p = true) (hc : p.consumes = true) :
    Refuses p := by
  intro α k s hs
  obtain hnone | ⟨hstays, -⟩ := run_of_not_takesAt k (takesAt_of_unspaced hp hs)
  · exact hnone
  · rw [hc] at hstays
    cases hstays

theorem Refuses.seq {p q : Pattern} (h : Refuses p) : Refuses (p ++ q) := fun _ _ => h _

/-- A spot that is not steady, and not at a dropped space, is at punctuation or at the end. -/
theorem Spot.Sound.steady_or_atSpacer {σ : Spot} (hσ : σ.Sound) (hkept : AtKept σ) :
    Steady σ ∨ AtSpacer σ.loose ∧ AtSpacer σ.tight := by
  obtain ⟨a, b, g, gs⟩ := σ
  match gs with
  | [] => exact Or.inr ⟨nofun, nofun⟩
  | .gone :: _ => exact absurd rfl hkept
  | .kept x :: gs =>
    cases hx : isPunctuation x with
    | false => exact Or.inl (hσ.steady hx)
    | true =>
      have hhead : ∀ y, some x = some y → y = ' ' ∨ isPunctuation y = true := by
        rintro y ⟨⟩
        exact Or.inr hx
      exact Or.inr ⟨hhead, hhead⟩

/-- Where a pattern fails at punctuation it is enough to look at steady spots. -/
theorem Tracks.of_steady {n : Need} {Q : Spot → Prop} {p : Pattern} (hp : Refuses p)
    (h : Tracks n Steady p Q) : Tracks n AtKept p Q := by
  intro α β all R k k' hk hagree σ hσ hall hkept
  obtain hsteady | ⟨hloose, htight⟩ := hσ.steady_or_atSpacer hkept
  · exact h hk hagree σ hσ hall hsteady
  · rw [hp k _ hloose, hp k' _ htight]
    exact .none

/-! ### The parts of a rule -/

/-- The places where the parts of a match end in both readings, from a spot on up to one that
satisfies `Q`. -/
inductive EndsNear (Q : Spot → Prop) : Spot → List Place → List Place → Prop
  | nil {σ : Spot} : Q σ → EndsNear Q σ [] []
  | cons {σ τ : Spot} {es es' : List Place} : τ.Sound → τ.glyphs <:+ σ.glyphs →
    EndsNear Q τ es es' → EndsNear Q σ (τ.loose :: es) (τ.tight :: es')

theorem EndsNear.mono {Q Q' : Spot → Prop} {σ : Spot} {es es' : List Place}
    (h : EndsNear Q σ es es') (hQ : ∀ σ, Q σ → Q' σ) : EndsNear Q' σ es es' := by
  induction h with
  | nil h => exact .nil (hQ _ h)
  | cons hτ hsuffix _ ih => exact .cons hτ hsuffix ih

/-- **The texts between the places are two readings of the same glyphs**, and each of them is sound
by itself. -/
theorem EndsNear.exists_cuts {Q : Spot → Prop} {σ : Spot} {es es' : List Place}
    (h : EndsNear Q σ es es') (hσ : σ.Sound) :
    ∃ (cuts : List (List Glyph)) (τ : Spot), σ.glyphs = cuts.flatten ++ τ.glyphs ∧
      (∀ cut ∈ cuts, ∃ g, Spot.Sound ⟨none, none, g, cut⟩) ∧
      Match.cuts σ.loose es = cuts.map looseText ∧ Match.cuts σ.tight es' = cuts.map tightText ∧
      es.getLast?.getD σ.loose = τ.loose ∧ es'.getLast?.getD σ.tight = τ.tight ∧
      τ.Sound ∧ Q τ := by
  induction h with
  | @nil σ hQ => exact ⟨[], σ, rfl, nofun, rfl, rfl, rfl, rfl, hσ, hQ⟩
  | @cons σ τ es es' hτ hsuffix _ ih =>
    obtain ⟨cut, hcut⟩ := hsuffix
    obtain ⟨cuts, υ, hglyphs, halone, hloose, htight, hlast, hlast', hυ, hQ⟩ := ih hτ
    refine ⟨cut :: cuts, υ, ?_, ?_, ?_, ?_, ?_, ?_, hυ, hQ⟩
    · rw [List.flatten_cons, List.append_assoc, ← hglyphs, hcut]
    · refine List.forall_mem_cons.mpr ⟨⟨σ.stage, ?_⟩, halone⟩
      obtain ⟨a, b, g, gs⟩ := σ
      subst hcut
      exact hσ.alone
    · rw [Match.cuts, hloose, List.map_cons]
      simp [Spot.loose, ← hcut]
    · rw [Match.cuts, htight, List.map_cons]
      simp [Spot.tight, ← hcut]
    · rw [List.getLast?_cons]
      exact hlast
    · rw [List.getLast?_cons]
      exact hlast'

/-- From `P` the patterns match one after another in both readings alike, and lead to `Q`. -/
def TracksAll (P : Spot → Prop) (patterns : List Pattern) (Q : Spot → Prop) : Prop :=
  ∀ σ : Spot, σ.Sound → P σ →
    Option.Rel (EndsNear Q σ) (Pattern.ends patterns σ.loose) (Pattern.ends patterns σ.tight)

namespace TracksAll

variable {n : Need} {P P' M Q Q' : Spot → Prop} {p : Pattern} {patterns : List Pattern}

theorem nil (h : ∀ σ, σ.Sound → P σ → Q σ) : TracksAll P [] Q :=
  fun σ hσ hP => .some (.nil (h σ hσ hP))

/-- A part and then the others. -/
theorem cons_of_met (hp : Tracks n P p M) (hrest : TracksAll M patterns Q)
    (hmet : n.Met fun s => (Pattern.ends patterns s).map (s :: ·)) :
    TracksAll P (p :: patterns) Q := by
  intro σ hσ hP
  have hagree : Agree σ.glyphs M (EndsNear Q σ) (fun e => (Pattern.ends patterns e).map (e :: ·))
      (fun e => (Pattern.ends patterns e).map (e :: ·)) := by
    intro τ hτ hsuffix hM
    have hends := hrest τ hτ hM
    simp only
    generalize Pattern.ends patterns τ.loose = r at hends ⊢
    generalize Pattern.ends patterns τ.tight = r' at hends ⊢
    cases hends with
    | none => exact .none
    | some h => exact .some (.cons hτ hsuffix h)
  exact hp hmet hagree σ hσ (List.suffix_refl _) hP

theorem cons (hp : Tracks .nothing P p M) (hrest : TracksAll M patterns Q) :
    TracksAll P (p :: patterns) Q :=
  cons_of_met hp hrest trivial

/-- A part and then others of which the first fails at dropped spaces. -/
theorem cons_stops (hp : Tracks .stops P p M) {q : Pattern} (hrest : TracksAll M (q :: patterns) Q)
    (hq : Stops q) : TracksAll P (p :: q :: patterns) Q :=
  cons_of_met hp hrest fun σ hσ hgone => by
    have hnone : Pattern.ends (q :: patterns) σ.loose = none := hq _ σ hσ hgone
    simp only [hnone, Option.map_none]

/-- A part and then others of which the first fails at spaces and at punctuation. -/
theorem cons_refuses (hp : Tracks .refuses P p M) {q : Pattern}
    (hrest : TracksAll M (q :: patterns) Q) (hq : Refuses q) : TracksAll P (p :: q :: patterns) Q :=
  cons_of_met hp hrest fun s hs => by
    have hnone : Pattern.ends (q :: patterns) s = none := hq _ s hs
    simp only [hnone, Option.map_none]

/-- The last part. -/
theorem last (hp : Tracks .succeeds P p Q) : TracksAll P [p] Q :=
  cons_of_met hp (nil fun _ _ h => h) fun _ => rfl

end TracksAll

/-! ### Rules -/

/-- A character that is kept follows. -/
def AtChar (σ : Spot) : Prop := ∃ x gs, σ.glyphs = .kept x :: gs

theorem atKept_of_atChar {σ : Spot} (h : AtChar σ) : AtKept σ := by
  obtain ⟨x, gs, hx⟩ := h
  rw [AtKept, hx]
  nofun

/-- The same rule matches in both readings, up to a spot that satisfies `Q`. -/
structure MatchNear (Q : Spot → Prop) (σ : Spot) (m m' : Match Mode) : Prop where
  rule_eq : m.rule = m'.rule
  ends_near : EndsNear Q σ m.ends m'.ends

/-- **The rule matches alike in both readings**: where a character follows at a spot that satisfies
`P`, and up to a spot that satisfies `Q`. -/
def Stable (P : Spot → Prop) (r : Rule Mode) (Q : Spot → Prop) : Prop :=
  ∀ σ : Spot, σ.Sound → AtChar σ → P σ →
    Option.Rel (MatchNear Q σ) (r.match? σ.loose) (r.match? σ.tight)

/-- Where a character follows, something is taken in the one reading exactly if something is taken
in the other. -/
theorem length_lt_iff {σ τ : Spot} (hchar : AtChar σ) {us : List Glyph}
    (h : σ.glyphs = us ++ τ.glyphs) :
    τ.loose.rest.length < σ.loose.rest.length ↔ τ.tight.rest.length < σ.tight.rest.length := by
  obtain ⟨x, gs, hx⟩ := hchar
  simp only [Spot.loose, Spot.tight, h, looseText_append, tightText_append, List.length_append]
  cases us with
  | nil => simp
  | cons u us =>
    obtain rfl : u = .kept x := by
      rw [h] at hx
      exact (List.cons.inj hx).1
    simp

theorem stable_of_tracksAll {P Q : Spot → Prop} {r : Rule Mode}
    (h : TracksAll (fun σ => AtChar σ ∧ P σ) (r.parts.map Prod.fst) Q) : Stable P r Q := by
  intro σ hσ hchar hP
  have hends := h σ hσ ⟨hchar, hP⟩
  unfold Rule.match?
  generalize Pattern.ends (r.parts.map Prod.fst) σ.loose = es at hends ⊢
  generalize Pattern.ends (r.parts.map Prod.fst) σ.tight = es' at hends ⊢
  cases hends with
  | none => exact .none
  | @some es es' h =>
    obtain ⟨cuts, τ, hglyphs, -, -, -, hlast, hlast', -⟩ := h.exists_cuts hσ
    simp only [hlast, hlast', length_lt_iff hchar hglyphs]
    split
    · exact .some ⟨rfl, h⟩
    · exact .none

/-- A rule with one part. -/
theorem stable_token {P Q : Spot → Prop} {kind : Kind} {p : Pattern} {move : Move Mode}
    (h : Tracks .succeeds (fun σ => AtChar σ ∧ P σ) p Q) : Stable P (.token kind p move) Q :=
  stable_of_tracksAll (.last h)

theorem Stable.mono {P P' Q Q' : Spot → Prop} {r : Rule Mode} (h : Stable P r Q)
    (hP : ∀ σ, P' σ → P σ) (hQ : ∀ σ, Q σ → Q' σ) : Stable P' r Q' := by
  intro σ hσ hchar hP'
  have hrel := h σ hσ hchar (hP σ hP')
  generalize r.match? σ.loose = m at hrel ⊢
  generalize r.match? σ.tight = m' at hrel ⊢
  cases hrel with
  | none => exact .none
  | some hm => exact .some ⟨hm.rule_eq, hm.ends_near.mono hQ⟩

/-- A rule that matches in neither reading. -/
theorem stable_of_none {P Q : Spot → Prop} {r : Rule Mode}
    (h : ∀ σ : Spot, σ.Sound → AtChar σ → P σ → r.match? σ.loose = none ∧ r.match? σ.tight = none) :
    Stable P r Q := by
  intro σ hσ hchar hP
  obtain ⟨hloose, htight⟩ := h σ hσ hchar hP
  rw [hloose, htight]
  exact .none

/-- Several patterns as one. -/
def row (patterns : List Pattern) : Pattern := patterns.foldr .seq .empty

/-- A row of patterns that takes something fails where it cannot take what follows. -/
theorem ends_of_not_takesAt {patterns : List Pattern} {s : Place}
    (h : takesAt s.rest.head? (row patterns) = false) (hconsumes : (row patterns).consumes = true) :
    Pattern.ends patterns s = none := by
  induction patterns with
  | nil => cases hconsumes
  | cons p ps ih =>
    obtain ⟨hp, hps⟩ := Bool.or_eq_false_iff.mp h
    obtain hnone | ⟨hc, hstay⟩ := run_of_not_takesAt (fun e => (Pattern.ends ps e).map (e :: ·)) hp
    · exact hnone
    · rw [hc] at hps
      have hconsumes := (Bool.or_eq_true_iff.mp hconsumes).resolve_left (by simp [hc])
      exact hstay.trans (by rw [ih hps hconsumes, Option.map_none])

/-- A rule fails where it cannot take what follows. -/
theorem match?_of_not_takesAt {r : Rule Mode} {s : Place}
    (h : takesAt s.rest.head? (row (r.parts.map Prod.fst)) = false)
    (hconsumes : (row (r.parts.map Prod.fst)).consumes = true) : r.match? s = none := by
  rw [Rule.match?, ends_of_not_takesAt h hconsumes]

/-- **Rules that take neither spaces nor punctuation match alike in both readings.** -/
theorem stable_of_unspaced {r : Rule Mode} (h : isUnspaced (row (r.parts.map Prod.fst)) = true)
    (hconsumes : (row (r.parts.map Prod.fst)).consumes = true) (P : Spot → Prop) :
    Stable P r Anywhere := by
  have hsteady : ∀ {ps : List Pattern}, isUnspaced (row ps) = true →
      TracksAll Steady ps Anywhere := by
    intro ps hps
    induction ps with
    | nil => exact .nil fun _ _ _ => trivial
    | cons p ps ih =>
      obtain ⟨hp, hps⟩ := Bool.and_eq_true_iff.mp hps
      exact .cons (tracks_of_unspaced hp) (ih hps)
  refine stable_of_tracksAll fun σ hσ hσP => ?_
  obtain hst | ⟨hloose, htight⟩ := hσ.steady_or_atSpacer (atKept_of_atChar hσP.1)
  · exact hsteady h σ hσ hst
  · rw [ends_of_not_takesAt (takesAt_of_unspaced h hloose) hconsumes,
      ends_of_not_takesAt (takesAt_of_unspaced h htight) hconsumes]
    exact .none

end KernelPack.Lexis.Spaced
