import KernelPack.Proofs.Text.Encoding

/-!
# Trimming

White space at the ends of a byte string shows without decoding the whole of it. The first rune is a
character exactly if the string **begins with the bytes of that character**
(`head?_decode_eq_scalar_iff`), and at the other end it is the same. So a string is **trimmed** when
the bytes of a white-space character stand at neither end of it (`trimmed_iff`), every string is a
trimmed one with white-space characters around it (`trim_induction`), and trimming takes off just
these (`Trimmed.trim_eq`, `trimmed_trim`).
-/

namespace KernelPack

namespace Rune

/-! ### Characters at the ends -/

/-- A sequence is complete in itself: what follows does not change it. -/
theorem sequence?_append_of_eq_some {b : UInt8} {t : Bytes} {r : Rune} {n : Nat}
    (h : sequence? b t = some (r, n)) (u : Bytes) : sequence? b (t ++ u) = some (r, n) := by
  unfold sequence? at h ⊢
  split at h
  · rename_i h128
    rw [if_pos h128, h]
  rename_i h128
  split at h
  · cases h
  rename_i h192
  rw [if_neg h128, if_neg h192]
  split at h
  · rename_i h224
    rw [if_pos h224]
    split at h
    · exact h
    · cases h
  rename_i h224
  rw [if_neg h224]
  split at h
  · rename_i h240
    rw [if_pos h240]
    split at h
    · exact h
    · cases h
  rename_i h240
  rw [if_neg h240]
  split at h
  · rename_i h248
    rw [if_pos h248]
    split at h
    · exact h
    · cases h
  · cases h

/-- The runes left over are those of the bytes left over. -/
theorem decodeFrom_eq_decode_drop (skip : Nat) (b : Bytes) :
    decodeFrom skip b = decode (b.drop skip) := by
  induction b generalizing skip with
  | nil => cases skip <;> rfl
  | cons x t ih =>
    cases skip with
    | zero => rfl
    | succ skip => rw [decodeFrom, ih, List.drop_succ_cons]

/-- **A character is read whatever follows it.** -/
theorem decode_utf8EncodeChar_append (c : Char) (t : Bytes) :
    decode (String.utf8EncodeChar c ++ t) = .scalar c :: decode t := by
  obtain ⟨b, s, hs⟩ := List.exists_cons_of_ne_nil (String.utf8EncodeChar_ne_nil (c := c))
  have hdecode := decode_utf8EncodeChar c
  rw [hs, decode, decodeFrom, List.cons_eq_cons] at hdecode
  obtain ⟨hfirst, hnil⟩ := hdecode
  have htake := encode_first b s
  rw [hfirst, encode, hs, List.cons_eq_cons] at htake
  have hlength : (first b s).2 = s.length := by
    refine Nat.le_antisymm (first_snd_le b s) ?_
    have hle := List.length_take_le (first b s).2 s
    rwa [← htake.2] at hle
  have hsequence : sequence? b s = some (.scalar c, s.length) := by
    cases h : sequence? b s with
    | none =>
      rw [first, h] at hfirst
      cases hfirst
    | some p =>
      rw [first, h] at hfirst hlength
      exact congrArg some (Prod.ext hfirst hlength)
  rw [hs, List.cons_append, decode, decodeFrom, first, sequence?_append_of_eq_some hsequence,
    Option.getD_some, decodeFrom_eq_decode_drop, List.drop_left]

theorem head?_decode_eq_scalar_iff {b : Bytes} {c : Char} :
    (decode b).head? = some (.scalar c) ↔ String.utf8EncodeChar c <+: b := by
  constructor
  · intro h
    obtain ⟨rs, hrs⟩ := List.head?_eq_some_iff.mp h
    refine ⟨rs.flatMap encode, ?_⟩
    rw [← flatMap_encode_decode b, hrs, List.flatMap_cons]
    rfl
  · rintro ⟨t, rfl⟩
    rw [decode_utf8EncodeChar_append, List.head?_cons]

theorem decode_append_utf8EncodeChar (s : Bytes) (c : Char) :
    decode (s ++ String.utf8EncodeChar c) = decode s ++ [.scalar c] := by
  rw [decode_append fun x hx => isContinuation_of_mem_head? hx, decode_utf8EncodeChar]

theorem getLast?_decode_eq_scalar_iff {b : Bytes} {c : Char} :
    (decode b).getLast? = some (.scalar c) ↔ String.utf8EncodeChar c <:+ b := by
  constructor
  · intro h
    obtain ⟨rs, hrs⟩ := List.getLast?_eq_some_iff.mp h
    refine ⟨rs.flatMap encode, ?_⟩
    rw [← flatMap_encode_decode b, hrs, List.flatMap_append, List.flatMap_singleton]
    rfl
  · rintro ⟨s, rfl⟩
    rw [decode_append_utf8EncodeChar, List.getLast?_concat]

end Rune

namespace Bytes
open Rune

/-! ### Trimmed strings -/

/-- A white-space character in front is taken off. -/
theorem trim_utf8EncodeChar_append {c : Char} (hc : Text.isBlank c = true) (t : Bytes) :
    trim (String.utf8EncodeChar c ++ t) = trim t := by
  have hblank : Rune.isBlank (.scalar c) = true := hc
  rw [trim, trim, decode_utf8EncodeChar_append, List.dropWhile_cons_of_pos hblank]

/-- A white-space character at the end is taken off. -/
theorem trim_append_utf8EncodeChar {c : Char} (hc : Text.isBlank c = true) (s : Bytes) :
    trim (s ++ String.utf8EncodeChar c) = trim s := by
  have hblank : Rune.isBlank (.scalar c) = true := hc
  rw [trim, trim, decode_append_utf8EncodeChar, List.dropWhile_append]
  split
  · rename_i hempty
    rw [List.isEmpty_iff.mp hempty, List.dropWhile_cons_of_pos hblank]
    rfl
  · simp [hblank]

/-- **No white space at either end**: neither the first nor the last rune is white space. -/
structure Trimmed (b : Bytes) : Prop where
  head : ∀ r ∈ (decode b).head?, r.isBlank = false
  last : ∀ r ∈ (decode b).getLast?, r.isBlank = false

/-- A trimmed string neither begins nor ends with the bytes of a white-space character. -/
theorem trimmed_iff {b : Bytes} : Trimmed b ↔ ∀ c, Text.isBlank c = true →
    ¬ String.utf8EncodeChar c <+: b ∧ ¬ String.utf8EncodeChar c <:+ b := by
  constructor
  · intro h c hc
    have hblank : Rune.isBlank (.scalar c) = true := hc
    refine ⟨fun hpre => ?_, fun hsuf => ?_⟩
    · rw [h.head _ (head?_decode_eq_scalar_iff.mpr hpre)] at hblank
      cases hblank
    · rw [h.last _ (getLast?_decode_eq_scalar_iff.mpr hsuf)] at hblank
      cases hblank
  · intro h
    refine ⟨fun r hr => ?_, fun r hr => ?_⟩
    · cases r with
      | stray x => rfl
      | scalar c =>
        exact Bool.eq_false_iff.mpr fun hc => (h c hc).1 (head?_decode_eq_scalar_iff.mp hr)
    · cases r with
      | stray x => rfl
      | scalar c =>
        exact Bool.eq_false_iff.mpr fun hc => (h c hc).2 (getLast?_decode_eq_scalar_iff.mp hr)

theorem dropWhile_of_head? {α : Type} {p : α → Bool} {l : List α}
    (h : ∀ x ∈ l.head?, p x = false) : l.dropWhile p = l := by
  cases l with
  | nil => rfl
  | cons x l => exact List.dropWhile_cons_of_neg (Bool.eq_false_iff.mp (h x rfl))

theorem Trimmed.trim_eq {b : Bytes} (h : Trimmed b) : trim b = b := by
  have hlast : ∀ r ∈ (decode b).reverse.head?, r.isBlank = false := by
    rw [List.head?_reverse]
    exact h.last
  rw [trim, dropWhile_of_head? h.head, dropWhile_of_head? hlast, List.reverse_reverse,
    flatMap_encode_decode]

/-- **Every string is a trimmed one with white-space characters around it.** -/
theorem trim_induction {P : Bytes → Prop} (htrimmed : ∀ b, Trimmed b → P b)
    (hfront : ∀ c t, Text.isBlank c = true → P t → P (String.utf8EncodeChar c ++ t))
    (hback : ∀ c s, Text.isBlank c = true → P s → P (s ++ String.utf8EncodeChar c))
    (b : Bytes) : P b := by
  induction hn : b.length using Nat.strongRecOn generalizing b with
  | ind n ih =>
    have hpos : ∀ c, 0 < (String.utf8EncodeChar c).length := fun c =>
      List.length_pos_iff.mpr String.utf8EncodeChar_ne_nil
    by_cases hpre : ∃ c, Text.isBlank c = true ∧ String.utf8EncodeChar c <+: b
    · obtain ⟨c, hc, t, rfl⟩ := hpre
      rw [List.length_append] at hn
      have hlt := hpos c
      exact hfront c t hc (ih t.length (by omega) t rfl)
    by_cases hsuf : ∃ c, Text.isBlank c = true ∧ String.utf8EncodeChar c <:+ b
    · obtain ⟨c, hc, s, rfl⟩ := hsuf
      rw [List.length_append] at hn
      have hlt := hpos c
      exact hback c s hc (ih s.length (by omega) s rfl)
    · exact htrimmed b (trimmed_iff.mpr fun c hc =>
        ⟨fun h => hpre ⟨c, hc, h⟩, fun h => hsuf ⟨c, hc, h⟩⟩)

theorem trimmed_trim (b : Bytes) : Trimmed (trim b) := by
  induction b using trim_induction with
  | htrimmed b hb => rwa [hb.trim_eq]
  | hfront c t hc ih => rwa [trim_utf8EncodeChar_append hc]
  | hback c s hc ih => rwa [trim_append_utf8EncodeChar hc]

end Bytes
end KernelPack
