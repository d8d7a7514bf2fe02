import KernelPack.Text.Numeral

/-!
# Numerals read back

The digits of a number are written without padding, the most significant first. Reading them by
their place values gives the number back (`value_digits`), so **different numbers have different
numerals**, with or without a sign (`digits_inj`, `hex_inj`).

All digits are word bytes, and none is an underscore. So a hexadecimal numeral may stand in an
identifier unless it has a sign (`isWord_hex_iff`), and underscores delimit it.
-/

namespace KernelPack.Numeral

/-! ### Digits -/

/-- The byte that a digit is written as. -/
def digitByte (d : Nat) : UInt8 := UInt8.ofNat d.digitChar.toNat

theorem digitValue?_digitByte {d : Nat} (h : d < 16) : digitValue? (digitByte d) = some d := by
  have hall : ∀ d < 16, digitValue? (digitByte d) = some d := by decide
  exact hall d h

theorem isWord_digitByte {d : Nat} (h : d < 16) : Byte.isWord (digitByte d) = true := by
  have hall : ∀ d < 16, Byte.isWord (digitByte d) = true := by decide
  exact hall d h

theorem digitByte_ne_underscore {d : Nat} (h : d < 16) : digitByte d ≠ Byte.underscore := by
  have hall : ∀ d < 16, digitByte d ≠ Byte.underscore := by decide
  exact hall d h

section Digits

variable {base : Nat}

theorem digits_of_lt {n : Nat} (h : n < base) : digits base n = [digitByte n] := by
  rw [digits, Nat.toDigits_of_lt_base h]
  rfl

/-- The last digit is the remainder, behind the digits of the quotient. -/
theorem digits_of_le (hbase : 1 < base) {n : Nat} (h : base ≤ n) :
    digits base n = digits base (n / base) ++ [digitByte (n % base)] := by
  rw [digits, Nat.toDigits_of_base_le hbase h, List.map_append]
  rfl

/-- A property of numerals by their last digits. -/
theorem digits_induction (hbase : 1 < base) {motive : Nat → Bytes → Prop}
    (single : ∀ d < base, motive d [digitByte d])
    (append : ∀ n d, d < base → motive n (digits base n) →
      motive (base * n + d) (digits base n ++ [digitByte d])) (n : Nat) :
    motive n (digits base n) := by
  induction n using Nat.strongRecOn with
  | ind n ih =>
    by_cases h : n < base
    · rw [digits_of_lt h]
      exact single n h
    · have hlt : n / base < n := Nat.div_lt_self (by omega) hbase
      have hstep := append (n / base) (n % base) (Nat.mod_lt n (by omega)) (ih _ hlt)
      rwa [Nat.div_add_mod, ← digits_of_le hbase (by omega)] at hstep

/-- The number that a digit string stands for. -/
def value (base : Nat) (b : Bytes) : Nat :=
  b.foldl (fun n x => base * n + (digitValue? x).getD 0) 0

/-- **Digits read back as the number they were written from.** -/
theorem value_digits (hbase : 1 < base) (hle : base ≤ 16) (n : Nat) :
    value base (digits base n) = n := by
  refine digits_induction (motive := fun n b => value base b = n) hbase (fun d hd => ?_)
    (fun n d hd ih => ?_) n
  · simp [value, digitValue?_digitByte (Nat.lt_of_lt_of_le hd hle)]
  · rw [value, List.foldl_append, ← value, ih]
    simp [digitValue?_digitByte (Nat.lt_of_lt_of_le hd hle)]

/-- **Different numbers have different digits.** -/
theorem digits_inj (hbase : 1 < base) (hle : base ≤ 16) {m n : Nat}
    (h : digits base m = digits base n) : m = n := by
  rw [← value_digits hbase hle m, h, value_digits hbase hle n]

theorem exists_of_mem_digits (hbase : 1 < base) {n : Nat} {x : UInt8}
    (h : x ∈ digits base n) : ∃ d < base, x = digitByte d := by
  revert h
  refine digits_induction (motive := fun _ b => x ∈ b → ∃ d < base, x = digitByte d) hbase
    (fun d hd h => ⟨d, hd, List.mem_singleton.mp h⟩) (fun n d hd ih h => ?_) n
  exact (List.mem_append.mp h).elim ih fun hx => ⟨d, hd, List.mem_singleton.mp hx⟩

end Digits

/-! ### Hexadecimal numerals -/

/-- The minus sign. -/
def minus : UInt8 := 45

theorem isWord_of_mem_digits {n : Nat} {x : UInt8} (h : x ∈ digits 16 n) :
    Byte.isWord x = true := by
  obtain ⟨d, hd, rfl⟩ := exists_of_mem_digits (by decide) h
  exact isWord_digitByte hd

theorem minus_not_mem_digits (n : Nat) : minus ∉ digits 16 n := fun h =>
  absurd (isWord_of_mem_digits h) (by decide)

theorem hex_of_neg {n : Int} (h : n < 0) : hex n = minus :: digits 16 n.natAbs := if_pos h

theorem hex_of_nonneg {n : Int} (h : 0 ≤ n) : hex n = digits 16 n.natAbs :=
  if_neg (Int.not_lt.mpr h)

/-- **Different numbers have different hexadecimal numerals.** -/
theorem hex_inj {m n : Int} (h : hex m = hex n) : m = n := by
  rcases Int.lt_or_le m 0 with hm | hm <;> rcases Int.lt_or_le n 0 with hn | hn
  · rw [hex_of_neg hm, hex_of_neg hn] at h
    have habs := digits_inj (by decide) (by decide) (List.cons.inj h).2
    omega
  · rw [hex_of_neg hm, hex_of_nonneg hn] at h
    exact absurd (h ▸ List.mem_cons_self) (minus_not_mem_digits _)
  · rw [hex_of_nonneg hm, hex_of_neg hn] at h
    exact absurd (h ▸ List.mem_cons_self) (minus_not_mem_digits _)
  · rw [hex_of_nonneg hm, hex_of_nonneg hn] at h
    have habs := digits_inj (by decide) (by decide) h
    omega

theorem underscore_not_mem_hex (n : Int) : Byte.underscore ∉ hex n := by
  have hdigits : ∀ m, Byte.underscore ∉ digits 16 m := fun m h => by
    obtain ⟨d, hd, hx⟩ := exists_of_mem_digits (by decide) h
    exact digitByte_ne_underscore hd hx.symm
  rcases Int.lt_or_le n 0 with hn | hn
  · rw [hex_of_neg hn]
    exact List.not_mem_cons_of_ne_of_not_mem (by decide) (hdigits _)
  · rw [hex_of_nonneg hn]
    exact hdigits _

/-- A hexadecimal numeral is made of word bytes exactly if it has no sign. -/
theorem isWord_hex_iff {n : Int} : (∀ x ∈ hex n, Byte.isWord x = true) ↔ 0 ≤ n := by
  rcases Int.lt_or_le n 0 with hn | hn
  · rw [hex_of_neg hn]
    exact iff_of_false (fun h => absurd (h minus List.mem_cons_self) (by decide))
      (Int.not_le.mpr hn)
  · rw [hex_of_nonneg hn]
    exact iff_of_true (fun _ hx => isWord_of_mem_digits hx) hn

end KernelPack.Numeral
