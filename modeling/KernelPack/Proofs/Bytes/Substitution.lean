import KernelPack.Bytes

/-!
# Substitution

What a leftmost, non-overlapping substitution leaves of a byte string. The scanner either passes a
byte or replaces a match (`scan_induction`), and each of these is a step of the result
(`substitute_cons_of_none`, `substitute_append_of_some`). So it brings in no byte but those it puts
in the place of matches (`mem_of_mem_substituteFrom`); a beginning in which nothing is found stays
as it is (`substitute_append`), and so does a whole string (`substitute_eq_self`).

For the replacement of one string by another: a text may be cut wherever no occurrence lies across
the cut (`replaceAll_append_of_not_across`), a replacement that changes nothing had nothing to
replace or puts back what was there (`replaceAll_eq_self_iff`), and replacing one byte by another is
done byte by byte (`replaceAll_singleton`).
-/

namespace KernelPack.Bytes

/-- What a substitution leaves was there before, or was put in the place of a match. -/
theorem mem_of_mem_substituteFrom {find : Bytes → Option (Nat × Bytes)} (put : UInt8 → Prop)
    (hput : ∀ s n new, find s = some (n, new) → ∀ x ∈ new, put x) {skip : Nat} {b : Bytes}
    {x : UInt8} (hx : x ∈ substituteFrom find skip b) : x ∈ b ∨ put x := by
  induction b generalizing skip with
  | nil => exact absurd hx List.not_mem_nil
  | cons y t ih =>
    have hlater : ∀ {skip}, x ∈ substituteFrom find skip t → x ∈ y :: t ∨ put x := fun h =>
      (ih h).imp_left (List.mem_cons_of_mem y)
    cases skip with
    | succ skip => exact hlater hx
    | zero =>
      rw [substituteFrom] at hx
      split at hx
      · obtain rfl | hx := List.mem_cons.mp hx
        · exact Or.inl List.mem_cons_self
        · exact hlater hx
      · rename_i n new hfind
        obtain hx | hx := List.mem_append.mp hx
        · exact Or.inr (hput _ _ _ hfind x hx)
        · exact hlater hx

/-- Replacing brings in no byte but those of the replacement. -/
theorem mem_of_mem_replaceAll {old new b : Bytes} {x : UInt8} (hx : x ∈ replaceAll old new b) :
    x ∈ b ∨ x ∈ new := by
  refine mem_of_mem_substituteFrom (· ∈ new) (fun s n new' hfind y hy => ?_) hx
  obtain ⟨-, hnew⟩ := Option.ite_none_right_eq_some.mp hfind
  rw [← (Prod.mk.inj (Option.some.inj hnew)).2] at hy
  exact hy

/-- Skipping bytes and then substituting is substituting in what is left. -/
theorem substituteFrom_eq_drop (find : Bytes → Option (Nat × Bytes)) (skip : Nat) (s : Bytes) :
    substituteFrom find skip s = substituteFrom find 0 (s.drop skip) := by
  induction s generalizing skip with
  | nil => cases skip <;> rfl
  | cons b t ih =>
    cases skip with
    | zero => rfl
    | succ skip => rw [substituteFrom, ih skip, List.drop_succ_cons]

/-! ### The steps of the scanner -/

/-- A byte at which no match begins is passed. -/
theorem substitute_cons_of_none {find : Bytes → Option (Nat × Bytes)} {b : UInt8} {t : Bytes}
    (h : find (b :: t) = none) : substitute find (b :: t) = b :: substitute find t := by
  rw [substitute, substituteFrom, h]
  rfl

/-- A match is replaced, and the scan goes on behind it. -/
theorem substitute_append_of_some {find : Bytes → Option (Nat × Bytes)} {s t new : Bytes}
    (hne : s ≠ []) (h : find (s ++ t) = some (s.length, new)) :
    substitute find (s ++ t) = new ++ substitute find t := by
  obtain ⟨b, s, rfl⟩ := List.exists_cons_of_ne_nil hne
  rw [List.cons_append] at h
  rw [substitute, List.cons_append, substituteFrom, h]
  simp only [List.length_cons, Nat.add_sub_cancel]
  rw [substituteFrom_eq_drop, List.drop_left]
  rfl

/-- What is found is not empty and is there. -/
def Advances (find : Bytes → Option (Nat × Bytes)) : Prop :=
  ∀ s n new, find s = some (n, new) → 0 < n ∧ n ≤ s.length

/-- **Induction along the scanner**, over the matches that are replaced and the bytes that stay. -/
theorem scan_induction {find : Bytes → Option (Nat × Bytes)} (h : Advances find)
    {motive : Bytes → Prop} (nil : motive [])
    (found : ∀ s t new, s ≠ [] → find (s ++ t) = some (s.length, new) → motive t →
      motive (s ++ t))
    (stays : ∀ b t, find (b :: t) = none → motive t → motive (b :: t)) (text : Bytes) :
    motive text := by
  induction hn : text.length using Nat.strongRecOn generalizing text with
  | ind n ih =>
    cases hfind : find text with
    | some m =>
      obtain ⟨k, new⟩ := m
      obtain ⟨hpos, hle⟩ := h text k new hfind
      have hlength : (text.take k).length = k := List.length_take_of_le hle
      have hne : text.take k ≠ [] := List.length_pos_iff.mp (by omega)
      have hrest := ih (text.drop k).length (by rw [List.length_drop]; omega) (text.drop k) rfl
      have hmotive := found (text.take k) (text.drop k) new hne
        (by rw [List.take_append_drop, hfind, hlength]) hrest
      rwa [List.take_append_drop] at hmotive
    | none =>
      cases text with
      | nil => exact nil
      | cons b t =>
        rw [List.length_cons] at hn
        exact stays b t hfind (ih t.length (by omega) t rfl)

/-! ### What stays -/

/-- A beginning in which no match begins is left as it is. -/
theorem substitute_append {find : Bytes → Option (Nat × Bytes)} {s t : Bytes}
    (h : ∀ u, u <:+ s → u ≠ [] → find (u ++ t) = none) :
    substitute find (s ++ t) = s ++ substitute find t := by
  induction s with
  | nil => rfl
  | cons x s ih =>
    have hrest : ∀ u, u <:+ s → u ≠ [] → find (u ++ t) = none := fun u hu =>
      h u (hu.trans (List.suffix_cons x s))
    have hnone := h _ (List.suffix_refl _) (List.cons_ne_nil x s)
    rw [List.cons_append] at hnone ⊢
    rw [substitute_cons_of_none hnone, ih hrest, List.cons_append]

/-- Where nothing is found, nothing changes. -/
theorem substitute_eq_self {find : Bytes → Option (Nat × Bytes)} {b : Bytes}
    (h : ∀ s, s <:+ b → s ≠ [] → find s = none) : substitute find b = b := by
  have hnone : ∀ u, u <:+ b → u ≠ [] → find (u ++ []) = none := by simpa using h
  simpa [substitute, substituteFrom] using substitute_append hnone

/-! ### Replacing one string by another -/

/-- A beginning in which no occurrence begins is left as it is. -/
theorem replaceAll_append {old new s t : Bytes}
    (h : ∀ u, u <:+ s → u ≠ [] → ¬ old <+: u ++ t) :
    replaceAll old new (s ++ t) = s ++ replaceAll old new t :=
  substitute_append fun u hu hne => if_neg fun hpre =>
    h u hu hne (List.isPrefixOf_iff_prefix.mp hpre)

/-- An occurrence at the beginning is replaced. -/
theorem replaceAll_old_append {old : Bytes} (hne : old ≠ []) (new t : Bytes) :
    replaceAll old new (old ++ t) = new ++ replaceAll old new t :=
  substitute_append_of_some hne
    (if_pos (List.isPrefixOf_iff_prefix.mpr (List.prefix_append old t)))

/-- A byte at which no occurrence begins is passed. -/
theorem replaceAll_cons_of_not_isPrefix {old new t : Bytes} {b : UInt8} (h : ¬ old <+: b :: t) :
    replaceAll old new (b :: t) = b :: replaceAll old new t :=
  substitute_cons_of_none (if_neg fun hpre => h (List.isPrefixOf_iff_prefix.mp hpre))

/-- **Induction over the occurrences of a string** that are replaced, and the bytes that stay. -/
theorem occurrence_induction {old : Bytes} (hne : old ≠ []) {motive : Bytes → Prop}
    (nil : motive []) (occurs : ∀ t, motive t → motive (old ++ t))
    (stays : ∀ b t, ¬ old <+: b :: t → motive t → motive (b :: t)) (text : Bytes) :
    motive text := by
  have hadvances : Advances fun s => if old.isPrefixOf s then some (old.length, []) else none := by
    intro s n new h
    obtain ⟨hpre, hlength⟩ := Option.ite_none_right_eq_some.mp h
    rw [← (Prod.mk.inj (Option.some.inj hlength)).1]
    exact ⟨List.length_pos_iff.mpr hne, (List.isPrefixOf_iff_prefix.mp hpre).length_le⟩
  induction text using scan_induction hadvances with
  | nil => exact nil
  | found s t new _ h ih =>
    obtain ⟨hpre, hlength⟩ := Option.ite_none_right_eq_some.mp h
    have hlength := (Prod.mk.inj (Option.some.inj hlength)).1
    obtain rfl : old = s := (List.prefix_of_prefix_length_le (List.isPrefixOf_iff_prefix.mp hpre)
      (List.prefix_append s t) (Nat.le_of_eq hlength)).eq_of_length hlength
    exact occurs t ih
  | stays b t h ih =>
    refine stays b t (fun hpre => ?_) ih
    rw [if_pos (List.isPrefixOf_iff_prefix.mpr hpre)] at h
    cases h

/-- **A text may be cut** where no occurrence lies across the cut. -/
theorem replaceAll_append_of_not_across {old new s t : Bytes} (hne : old ≠ [])
    (h : ∀ u, u <:+ s → u ≠ [] → old <+: u ++ t → old <+: u) :
    replaceAll old new (s ++ t) = replaceAll old new s ++ replaceAll old new t := by
  induction s using occurrence_induction hne with
  | nil => rfl
  | occurs s ih =>
    rw [List.append_assoc, replaceAll_old_append hne, replaceAll_old_append hne,
      ih fun u hu => h u (hu.trans (List.suffix_append old s)), List.append_assoc]
  | stays b s hb ih =>
    have hcut : ¬ old <+: b :: (s ++ t) := fun hpre =>
      hb (h (b :: s) (List.suffix_refl _) (List.cons_ne_nil b s) hpre)
    rw [List.cons_append, replaceAll_cons_of_not_isPrefix hcut,
      replaceAll_cons_of_not_isPrefix hb, ih fun u hu => h u (hu.trans (List.suffix_cons b s)),
      List.cons_append]

/-- Where there is no occurrence, nothing changes. -/
theorem replaceAll_of_not_isInfix {old new b : Bytes} (h : ¬ old <:+: b) :
    replaceAll old new b = b :=
  substitute_eq_self fun _ hs _ => if_neg fun hpre =>
    h ((List.isPrefixOf_iff_prefix.mp hpre).isInfix.trans hs.isInfix)

/-- A string is left alone by a replacement of something it cannot hold. -/
theorem replaceAll_eq_self {old new b : Bytes} {x : UInt8} (hx : x ∈ old) (hb : x ∉ b) :
    replaceAll old new b = b :=
  replaceAll_of_not_isInfix fun h => hb (h.subset hx)

/-- Replacements all lengthen a text, or all shorten it, or keep its length. -/
theorem length_replaceAll {old : Bytes} (hne : old ≠ []) (new b : Bytes) :
    (old.length ≤ new.length → b.length ≤ (replaceAll old new b).length) ∧
      (new.length ≤ old.length → (replaceAll old new b).length ≤ b.length) := by
  induction b using occurrence_induction hne with
  | nil => exact ⟨fun _ => Nat.zero_le _, fun _ => Nat.zero_le _⟩
  | occurs t ih =>
    rw [replaceAll_old_append hne, List.length_append, List.length_append]
    omega
  | stays x t hx ih =>
    rw [replaceAll_cons_of_not_isPrefix hx, List.length_cons, List.length_cons]
    omega

/-- **A replacement that changes nothing** had nothing to replace, or puts back what was there. -/
theorem replaceAll_eq_self_iff {old new : Bytes} (hne : old ≠ []) (b : Bytes) :
    replaceAll old new b = b ↔ old = new ∨ ¬ old <:+: b := by
  constructor
  · intro h
    by_cases hsame : old = new
    · exact Or.inl hsame
    refine Or.inr ?_
    induction b using occurrence_induction hne with
    | nil => exact fun hin => hne (List.infix_nil.mp hin)
    | occurs t ih =>
      rw [replaceAll_old_append hne] at h
      -- the first replacement already shows, since the others go the same way in length
      have hlength := congrArg List.length h
      obtain ⟨hlonger, hshorter⟩ := length_replaceAll hne new t
      simp only [List.length_append] at hlength
      exact absurd (List.append_inj h (by omega)).1.symm hsame
    | stays x t hx ih =>
      rw [replaceAll_cons_of_not_isPrefix hx] at h
      rw [List.infix_cons_iff]
      exact not_or.mpr ⟨hx, ih (List.cons.inj h).2⟩
  · rintro (rfl | hnot)
    · induction b using occurrence_induction hne with
      | nil => rfl
      | occurs t ih => rw [replaceAll_old_append hne, ih]
      | stays x t hx ih => rw [replaceAll_cons_of_not_isPrefix hx, ih]
    · exact replaceAll_of_not_isInfix hnot

/-- Replacing a byte by a byte is done byte by byte. -/
theorem replaceAll_singleton (x y : UInt8) (b : Bytes) :
    replaceAll [x] [y] b = b.map fun z => if z = x then y else z := by
  rw [replaceAll, substitute]
  induction b with
  | nil => rfl
  | cons z t ih =>
    rw [substituteFrom, List.map_cons, ← ih]
    by_cases hz : z = x
    · simp [hz]
    · simp [hz, Ne.symm hz]

end KernelPack.Bytes
