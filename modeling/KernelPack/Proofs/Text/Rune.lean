import KernelPack.Text.Blank

/-!
# Runes of joined strings

A rune never reaches across a byte that continues no sequence. So two byte strings decode side by
side wherever the second does not begin with a continuation byte (`decode_append`), and spaces at
the ends of a string can be seen without decoding the rest: trimming takes them off
(`trim_cons_space`, `trim_append_space`).
-/

namespace KernelPack

namespace Rune

/-- A sequence takes no more bytes than there are. -/
theorem sequence?_le {b : UInt8} {t : Bytes} {r : Rune} {n : Nat}
    (h : sequence? b t = some (r, n)) : n ≤ t.length := by
  have hmap : ∀ {least v k : Nat}, (ofValue? least v).map (·, k) = some (r, n) → n = k := by
    intro least v k hk
    obtain ⟨_, -, hr⟩ := Option.map_eq_some_iff.mp hk
    exact (Prod.mk.inj hr).2.symm
  -- one case per length of sequence
  unfold sequence? at h
  split at h
  · rw [hmap h]
    exact Nat.zero_le _
  split at h
  · cases h
  split at h
  · split at h
    · split at h
      · rw [hmap h]
        simp
      · cases h
    · cases h
  split at h
  · split at h
    · split at h
      · rw [hmap h]
        simp
      · cases h
    · cases h
  split at h
  · split at h
    · split at h
      · rw [hmap h]
        simp
      · cases h
    · cases h
  · cases h

/-- The first rune takes no more bytes than there are. -/
theorem first_snd_le (b : UInt8) (t : Bytes) : (first b t).2 ≤ t.length := by
  unfold first
  cases h : sequence? b t with
  | none => exact Nat.zero_le _
  | some p => exact sequence?_le h

/-- What follows a string without continuing it adds no sequence to it. -/
theorem sequence?_append {b : UInt8} {t u : Bytes}
    (hu : ∀ x ∈ u.head?, isContinuation x = false) : sequence? b (t ++ u) = sequence? b t := by
  rcases u with _ | ⟨x, u⟩
  · rw [List.append_nil]
  have hx : isContinuation x = false := hu x rfl
  -- a sequence looks at three bytes at most, and `x` is the one it stops at
  rcases t with _ | ⟨c, _ | ⟨d, _ | ⟨e, t⟩⟩⟩
  · rcases u with _ | ⟨y, _ | ⟨z, u⟩⟩ <;> simp [sequence?, hx]
  · rcases u with _ | ⟨y, u⟩ <;> simp [sequence?, hx]
  · simp [sequence?, hx]
  · rfl

/-- Runes that a string has left over do not reach into what follows it. -/
theorem decodeFrom_append {t u : Bytes} (hu : ∀ x ∈ u.head?, isContinuation x = false)
    {skip : Nat} (hskip : skip ≤ t.length) :
    decodeFrom skip (t ++ u) = decodeFrom skip t ++ decode u := by
  induction t generalizing skip with
  | nil =>
    obtain rfl : skip = 0 := by simpa using hskip
    cases u <;> rfl
  | cons b t ih =>
    cases skip with
    | succ skip =>
      simp only [List.cons_append, decodeFrom]
      exact ih (by simpa using hskip)
    | zero =>
      have hfirst : first b (t ++ u) = first b t := by rw [first, sequence?_append hu, ← first]
      simp only [List.cons_append, decodeFrom, hfirst]
      rw [ih (first_snd_le b t)]

/-- **Strings decode side by side** where the second does not continue the first. -/
theorem decode_append {s u : Bytes} (hu : ∀ x ∈ u.head?, isContinuation x = false) :
    decode (s ++ u) = decode s ++ decode u :=
  decodeFrom_append hu (Nat.zero_le _)

end Rune

namespace Bytes

/-- Trimming takes off a space at the beginning. -/
theorem trim_cons_space (b : Bytes) : trim (Byte.space :: b) = trim b := rfl

/-- Trimming takes off a space at the end. -/
theorem trim_append_space (b : Bytes) : trim (b ++ [Byte.space]) = trim b := by
  have hdecode : Rune.decode (b ++ [Byte.space]) = Rune.decode b ++ [.scalar ' '] := by
    refine Rune.decode_append fun x hx => ?_
    obtain rfl := Option.some.inj hx
    rfl
  have hblank : Rune.isBlank (.scalar ' ') = true := rfl
  rw [trim, trim, hdecode, List.dropWhile_append]
  split
  · rename_i hempty
    rw [List.isEmpty_iff.mp hempty]
    rfl
  · simp [hblank]

end Bytes

end KernelPack
