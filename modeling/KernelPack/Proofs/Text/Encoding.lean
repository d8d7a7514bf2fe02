import KernelPack.Proofs.Text.Rune

/-!
# Runes and their bytes

Reading a byte string as runes **loses nothing** (`flatMap_encode_decode`): every rune stands for
the bytes it was read from. Conversely the bytes of characters are read as these characters
(`chars_ofChars`), so **text in UTF-8** is what its characters are written as (`IsUtf8`). An ASCII
character is one byte, and no longer sequence holds that byte, so whether a string has the
character, and whether it ends in it, can be seen from its bytes and from its characters alike
(`mem_chars_iff`, `getLast?_of_chars`). Trimming keeps runes whole, so it brings in no byte
(`mem_of_mem_trim`), and what it leaves does not end in white space (`getLast?_trim_ne`).
-/

namespace KernelPack

namespace Rune

/-! ### Runes stand for their bytes -/

theorem isContinuation_iff {b : UInt8} :
    isContinuation b = true ↔ 128 ≤ b.toNat ∧ b.toNat ≤ 191 := by
  simp [isContinuation, UInt8.le_iff_toNat_le]

/-- A value that is read as a rune is not below the least one, and is the scalar value. -/
theorem ofValue?_eq_some {least v : Nat} {r : Rune} (h : ofValue? least v = some r) :
    least ≤ v ∧ ∃ c : Char, r = .scalar c ∧ c.toNat = v := by
  unfold ofValue? at h
  split at h
  · rename_i hv
    refine ⟨hv.1, Char.ofNat v, (Option.some.inj h).symm, ?_⟩
    rw [Char.ofNat, dif_pos hv.2]
    rfl
  · cases h

/-- A byte below 128 is a sequence by itself. -/
theorem sequence?_of_lt {b : UInt8} (hb : b.toNat < 128) (t : Bytes) :
    ∃ r, sequence? b t = some (r, 0) := by
  have hvalid : Nat.isValidChar b.toNat := Or.inl (by omega)
  refine ⟨.scalar (Char.ofNat b.toNat), ?_⟩
  unfold sequence?
  rw [if_pos (UInt8.lt_iff_toNat_lt.mpr hb), ofValue?, if_pos ⟨Nat.zero_le _, hvalid⟩]
  rfl

/-! The digits of a value to the base 64 are the payloads of the bytes it was read from, so writing
the value gives these bytes back. There is one case for each length of a sequence. -/

theorem utf8EncodeChar_one {b : UInt8} {c : Char} (hb : b.toNat < 128)
    (hc : c.val.toNat = b.toNat) : String.utf8EncodeChar c = [b] := by
  simp only [String.utf8EncodeChar, hc]
  rw [if_pos (by omega), UInt8.ofNat_toNat]

theorem utf8EncodeChar_two {b x : UInt8} {c : Char} (hb : 192 ≤ b.toNat) (hb' : b.toNat < 224)
    (hx : isContinuation x = true) (hc : c.val.toNat = b.toNat % 32 * 64 + payload x)
    (hle : 128 ≤ b.toNat % 32 * 64 + payload x) : String.utf8EncodeChar c = [b, x] := by
  rw [isContinuation_iff] at hx
  simp only [payload] at hc hle
  simp only [String.utf8EncodeChar, hc]
  rw [if_neg (by omega), if_pos (by omega)]
  simp [← UInt8.toNat_inj]
  omega

theorem utf8EncodeChar_three {b x y : UInt8} {c : Char} (hb : 224 ≤ b.toNat) (hb' : b.toNat < 240)
    (hx : isContinuation x = true) (hy : isContinuation y = true)
    (hc : c.val.toNat = b.toNat % 16 * 4096 + payload x * 64 + payload y)
    (hle : 2048 ≤ b.toNat % 16 * 4096 + payload x * 64 + payload y) :
    String.utf8EncodeChar c = [b, x, y] := by
  rw [isContinuation_iff] at hx hy
  simp only [payload] at hc hle
  simp only [String.utf8EncodeChar, hc]
  rw [if_neg (by omega), if_neg (by omega), if_pos (by omega)]
  simp [← UInt8.toNat_inj]
  omega

theorem utf8EncodeChar_four {b x y z : UInt8} {c : Char} (hb : 240 ≤ b.toNat)
    (hb' : b.toNat < 248) (hx : isContinuation x = true) (hy : isContinuation y = true)
    (hz : isContinuation z = true)
    (hc : c.val.toNat = b.toNat % 8 * 262144 + payload x * 4096 + payload y * 64 + payload z)
    (hle : 65536 ≤ b.toNat % 8 * 262144 + payload x * 4096 + payload y * 64 + payload z) :
    String.utf8EncodeChar c = [b, x, y, z] := by
  rw [isContinuation_iff] at hx hy hz
  simp only [payload] at hc hle
  simp only [String.utf8EncodeChar, hc]
  rw [if_neg (by omega), if_neg (by omega), if_neg (by omega)]
  simp [← UInt8.toNat_inj]
  omega

/-- **A sequence is a scalar that stands for the bytes it was read from.** -/
theorem sequence?_eq_some {b : UInt8} {t : Bytes} {r : Rune} {n : Nat}
    (h : sequence? b t = some (r, n)) :
    ∃ c : Char, r = .scalar c ∧ String.utf8EncodeChar c = b :: t.take n := by
  have hmap : ∀ {least v k : Nat}, (ofValue? least v).map (·, k) = some (r, n) →
      n = k ∧ least ≤ v ∧ ∃ c : Char, r = .scalar c ∧ c.val.toNat = v := by
    intro least v k hk
    obtain ⟨_, hv, hr⟩ := Option.map_eq_some_iff.mp hk
    obtain ⟨rfl, rfl⟩ := Prod.mk.inj hr
    exact ⟨rfl, ofValue?_eq_some hv⟩
  unfold sequence? at h
  split at h
  · rename_i hlt
    obtain ⟨rfl, -, c, rfl, hc⟩ := hmap h
    exact ⟨c, rfl, utf8EncodeChar_one (UInt8.lt_iff_toNat_lt.mp hlt) hc⟩
  split at h
  · cases h
  rename_i hge
  split at h
  · rename_i hlt
    have hb : 192 ≤ b.toNat := UInt8.le_iff_toNat_le.mp (UInt8.not_lt.mp hge)
    split at h
    · split at h
      · rename_i hcont
        obtain ⟨rfl, hle, c, rfl, hc⟩ := hmap h
        exact ⟨c, rfl, utf8EncodeChar_two hb (UInt8.lt_iff_toNat_lt.mp hlt) hcont hc hle⟩
      · cases h
    · cases h
  rename_i hge
  split at h
  · rename_i hlt
    have hb : 224 ≤ b.toNat := UInt8.le_iff_toNat_le.mp (UInt8.not_lt.mp hge)
    split at h
    · split at h
      · rename_i hcont
        obtain ⟨hx, hy⟩ := Bool.and_eq_true_iff.mp hcont
        obtain ⟨rfl, hle, c, rfl, hc⟩ := hmap h
        exact ⟨c, rfl, utf8EncodeChar_three hb (UInt8.lt_iff_toNat_lt.mp hlt) hx hy hc hle⟩
      · cases h
    · cases h
  rename_i hge
  split at h
  · rename_i hlt
    have hb : 240 ≤ b.toNat := UInt8.le_iff_toNat_le.mp (UInt8.not_lt.mp hge)
    split at h
    · split at h
      · rename_i hcont
        obtain ⟨hxy, hz⟩ := Bool.and_eq_true_iff.mp hcont
        obtain ⟨hx, hy⟩ := Bool.and_eq_true_iff.mp hxy
        obtain ⟨rfl, hle, c, rfl, hc⟩ := hmap h
        exact ⟨c, rfl, utf8EncodeChar_four hb (UInt8.lt_iff_toNat_lt.mp hlt) hx hy hz hc hle⟩
      · cases h
    · cases h
  · cases h

/-- **What the first rune can be**: a scalar that stands for the bytes it takes, or a stray byte,
never one below 128. -/
theorem first_cases (b : UInt8) (t : Bytes) :
    (∃ c : Char, (first b t).1 = .scalar c ∧
      String.utf8EncodeChar c = b :: t.take (first b t).2) ∨
    (128 ≤ b.toNat ∧ first b t = (.stray b, 0)) := by
  unfold first
  cases h : sequence? b t with
  | some p => exact Or.inl (sequence?_eq_some h)
  | none =>
    refine Or.inr ⟨Nat.le_of_not_lt fun hb => ?_, rfl⟩
    obtain ⟨r, hr⟩ := sequence?_of_lt hb t
    rw [hr] at h
    cases h

/-- The first rune stands for the bytes it takes. -/
theorem encode_first (b : UInt8) (t : Bytes) :
    (first b t).1.encode = b :: t.take (first b t).2 := by
  obtain ⟨c, hc, hencode⟩ | ⟨-, hstray⟩ := first_cases b t
  · rw [hc, encode, hencode]
  · rw [hstray]
    rfl

/-- The runes left over stand for the bytes left over. -/
theorem flatMap_encode_decodeFrom (skip : Nat) (b : Bytes) :
    (decodeFrom skip b).flatMap encode = b.drop skip := by
  induction b generalizing skip with
  | nil => cases skip <;> rfl
  | cons x t ih =>
    cases skip with
    | succ skip => rw [decodeFrom, ih, List.drop_succ_cons]
    | zero =>
      rw [decodeFrom, List.flatMap_cons, encode_first, ih, List.cons_append,
        List.take_append_drop, List.drop_zero]

/-- **Decoding loses nothing.** -/
theorem flatMap_encode_decode (b : Bytes) : (decode b).flatMap encode = b :=
  flatMap_encode_decodeFrom 0 b

/-- Bytes below 128 are never stray. -/
theorem le_of_stray_mem_decodeFrom {skip : Nat} {b : Bytes} {x : UInt8}
    (h : .stray x ∈ decodeFrom skip b) : 128 ≤ x.toNat := by
  induction b generalizing skip with
  | nil => cases skip <;> cases h
  | cons y t ih =>
    cases skip with
    | succ skip => exact ih h
    | zero =>
      obtain h | h := List.mem_cons.mp h
      · obtain ⟨c, hc, -⟩ | ⟨hy, hstray⟩ := first_cases y t
        · rw [hc] at h
          cases h
        · rw [hstray] at h
          obtain rfl := Rune.stray.inj h
          exact hy
      · exact ih h

/-! ### Characters are read from their bytes

The other way round there is again one case for each length of a sequence: a first byte in the
range for that length, and the right number of bytes that continue it. -/

section Sequences

variable {b x y z : UInt8} {r : Rune}

theorem decode_one (hb : b.toNat < 128) (h : ofValue? 0 b.toNat = some r) : decode [b] = [r] := by
  have hb : b < 128 := UInt8.lt_iff_toNat_lt.mpr hb
  simp [decode, decodeFrom, first, sequence?, hb, h]

theorem decode_two (hb : 192 ≤ b.toNat) (hb' : b.toNat < 224) (hx : isContinuation x = true)
    (h : ofValue? 128 (b.toNat % 32 * 64 + payload x) = some r) : decode [b, x] = [r] := by
  have h128 : ¬ b < 128 := by rw [UInt8.lt_iff_toNat_lt]; simp; omega
  have h192 : ¬ b < 192 := by rw [UInt8.lt_iff_toNat_lt]; simp; omega
  have h224 : b < 224 := UInt8.lt_iff_toNat_lt.mpr hb'
  simp [decode, decodeFrom, first, sequence?, h128, h192, h224, hx, h]

theorem decode_three (hb : 224 ≤ b.toNat) (hb' : b.toNat < 240) (hx : isContinuation x = true)
    (hy : isContinuation y = true)
    (h : ofValue? 2048 (b.toNat % 16 * 4096 + payload x * 64 + payload y) = some r) :
    decode [b, x, y] = [r] := by
  have h128 : ¬ b < 128 := by rw [UInt8.lt_iff_toNat_lt]; simp; omega
  have h192 : ¬ b < 192 := by rw [UInt8.lt_iff_toNat_lt]; simp; omega
  have h224 : ¬ b < 224 := by rw [UInt8.lt_iff_toNat_lt]; simp; omega
  have h240 : b < 240 := UInt8.lt_iff_toNat_lt.mpr hb'
  simp [decode, decodeFrom, first, sequence?, h128, h192, h224, h240, hx, hy, h]

theorem decode_four (hb : 240 ≤ b.toNat) (hb' : b.toNat < 248) (hx : isContinuation x = true)
    (hy : isContinuation y = true) (hz : isContinuation z = true)
    (h : ofValue? 65536
      (b.toNat % 8 * 262144 + payload x * 4096 + payload y * 64 + payload z) = some r) :
    decode [b, x, y, z] = [r] := by
  have h128 : ¬ b < 128 := by rw [UInt8.lt_iff_toNat_lt]; simp; omega
  have h192 : ¬ b < 192 := by rw [UInt8.lt_iff_toNat_lt]; simp; omega
  have h224 : ¬ b < 224 := by rw [UInt8.lt_iff_toNat_lt]; simp; omega
  have h240 : ¬ b < 240 := by rw [UInt8.lt_iff_toNat_lt]; simp; omega
  have h248 : b < 248 := UInt8.lt_iff_toNat_lt.mpr hb'
  simp [decode, decodeFrom, first, sequence?, h128, h192, h224, h240, h248, hx, hy, hz, h]

end Sequences

/-- The value of a character is read as that character. -/
theorem ofValue?_of_toNat {c : Char} {least v : Nat} (hv : c.val.toNat = v) (h : least ≤ v) :
    ofValue? least v = some (.scalar c) := by
  rw [ofValue?, ← hv, if_pos ⟨hv ▸ h, c.valid⟩, ← Char.toNat, Char.ofNat_toNat]

theorem toNat_ofNat_of_lt {n : Nat} (h : n < 256) : (UInt8.ofNat n).toNat = n := by
  rw [UInt8.toNat_ofNat', Nat.mod_eq_of_lt h]

/-- A byte that carries the low six bits of a number continues a sequence. -/
theorem isContinuation_ofNat (n : Nat) : isContinuation (UInt8.ofNat (n % 64 + 128)) = true := by
  rw [isContinuation_iff, toNat_ofNat_of_lt (by omega)]
  omega

theorem payload_ofNat (n : Nat) : payload (UInt8.ofNat (n % 64 + 128)) = n % 64 := by
  rw [payload, toNat_ofNat_of_lt (by omega)]
  omega

/-- **The bytes of a character are read as that character.** -/
theorem decode_utf8EncodeChar (c : Char) : decode (String.utf8EncodeChar c) = [.scalar c] := by
  have hmax : c.val.toNat < 1114112 := by
    rcases c.valid with h | h <;> omega
  simp only [String.utf8EncodeChar]
  split
  · refine decode_one ?_ ?_ <;> rw [toNat_ofNat_of_lt (by omega)]
    · omega
    · exact ofValue?_of_toNat rfl (Nat.zero_le _)
  split
  · refine decode_two ?_ ?_ (isContinuation_ofNat _) ?_ <;> rw [toNat_ofNat_of_lt (by omega)]
    · omega
    · omega
    · rw [payload_ofNat]
      exact ofValue?_of_toNat (by omega) (by omega)
  split
  · refine decode_three ?_ ?_ (isContinuation_ofNat _) (isContinuation_ofNat _) ?_ <;>
      rw [toNat_ofNat_of_lt (by omega)]
    · omega
    · omega
    · rw [payload_ofNat, payload_ofNat]
      exact ofValue?_of_toNat (by omega) (by omega)
  · refine decode_four ?_ ?_ (isContinuation_ofNat _) (isContinuation_ofNat _)
      (isContinuation_ofNat _) ?_ <;> rw [toNat_ofNat_of_lt (by omega)]
    · omega
    · omega
    · rw [payload_ofNat, payload_ofNat, payload_ofNat]
      exact ofValue?_of_toNat (by omega) (by omega)

/-- A byte that continues a sequence begins none. -/
theorem first_of_isContinuation {b : UInt8} (hb : isContinuation b = true) (t : Bytes) :
    first b t = (.stray b, 0) := by
  rw [isContinuation_iff] at hb
  have h128 : ¬ b < 128 := by rw [UInt8.lt_iff_toNat_lt]; simp; omega
  have h192 : b < 192 := by rw [UInt8.lt_iff_toNat_lt]; simp; omega
  simp [first, sequence?, h128, h192]

/-- The first byte of a character continues no sequence. -/
theorem isContinuation_of_mem_head? {c : Char} {x : UInt8}
    (h : x ∈ (String.utf8EncodeChar c).head?) : isContinuation x = false := by
  obtain ⟨t, ht⟩ := List.head?_eq_some_iff.mp h
  have hdecode := decode_utf8EncodeChar c
  rw [ht, decode, decodeFrom] at hdecode
  cases hx : isContinuation x with
  | false => rfl
  | true =>
    rw [first_of_isContinuation hx] at hdecode
    cases hdecode

/-! ### ASCII characters

A character below 128 is a byte, and no longer sequence holds that byte. -/

/-- The character and the byte are the same ASCII character. -/
structure IsAscii (c : Char) (x : UInt8) : Prop where
  lt : x.toNat < 128
  toNat_eq : c.toNat = x.toNat

/-- The bytes of an ASCII character. -/
theorem IsAscii.utf8EncodeChar_eq {a : Char} {x : UInt8} (h : IsAscii a x) :
    String.utf8EncodeChar a = [x] :=
  utf8EncodeChar_one h.lt h.toNat_eq

/-- No other character has the byte of an ASCII character. -/
theorem IsAscii.mem_utf8EncodeChar_iff {a c : Char} {x : UInt8} (h : IsAscii a x) :
    x ∈ String.utf8EncodeChar c ↔ c = a := by
  have hlt := h.lt
  constructor
  · intro hmem
    simp only [String.utf8EncodeChar] at hmem
    split at hmem
    · rename_i hle
      have hval : c.toNat = a.toNat := by
        rw [h.toNat_eq, List.mem_singleton.mp hmem, UInt8.toNat_ofNat']
        exact (Nat.mod_eq_of_lt (Nat.lt_of_le_of_lt hle (by decide))).symm
      exact Char.toNat_inj.mp hval
    · -- every byte of a longer sequence is 128 or more
      exfalso
      split at hmem
      · simp [← UInt8.toNat_inj] at hmem
        omega
      · split at hmem
        · simp [← UInt8.toNat_inj] at hmem
          omega
        · simp [← UInt8.toNat_inj] at hmem
          omega
  · rintro rfl
    rw [h.utf8EncodeChar_eq]
    exact List.mem_singleton_self x

/-- A rune that holds the byte of an ASCII character is that character. -/
theorem IsAscii.mem_encode_iff {a : Char} {x : UInt8} (h : IsAscii a x) {b : Bytes} {r : Rune}
    (hr : r ∈ decode b) : x ∈ r.encode ↔ r = .scalar a := by
  cases r with
  | scalar c => rw [encode, h.mem_utf8EncodeChar_iff, Rune.scalar.injEq]
  | stray y =>
    refine iff_of_false (fun hmem => ?_) nofun
    have hle := le_of_stray_mem_decodeFrom hr
    rw [← List.mem_singleton.mp hmem] at hle
    exact absurd h.lt (Nat.not_lt.mpr hle)

/-- A string decodes to an ASCII character somewhere exactly if it holds its byte. -/
theorem IsAscii.mem_decode_iff {a : Char} {x : UInt8} (h : IsAscii a x) {b : Bytes} :
    .scalar a ∈ decode b ↔ x ∈ b := by
  have hmem : x ∈ b ↔ ∃ r ∈ decode b, x ∈ r.encode := by
    rw [← List.mem_flatMap, flatMap_encode_decode]
  rw [hmem]
  constructor
  · intro hr
    exact ⟨_, hr, (h.mem_encode_iff hr).mpr rfl⟩
  · rintro ⟨r, hr, hx⟩
    rw [(h.mem_encode_iff hr).mp hx] at hr
    exact hr

/-- Only an ASCII character itself reads as one. -/
theorem IsAscii.char_eq_iff {a : Char} {x : UInt8} (h : IsAscii a x) {r : Rune} :
    r.char = a ↔ r = .scalar a := by
  cases r with
  | scalar c => rw [Rune.char, Rune.scalar.injEq]
  | stray y =>
    refine iff_of_false (fun he => ?_) nofun
    have hval : ('\uFFFD' : Char).toNat < 128 := by
      rw [show '\uFFFD' = a from he, h.toNat_eq]
      exact h.lt
    exact absurd hval (by decide)

end Rune

namespace Bytes

open Rune

/-! ### Texts in UTF-8 -/

theorem decode_ofChars (cs : List Char) : Rune.decode (ofChars cs) = cs.map Rune.scalar := by
  induction cs with
  | nil => rfl
  | cons c cs ih =>
    have hhead : ∀ x ∈ (ofChars cs).head?, Rune.isContinuation x = false := by
      intro x hx
      cases cs with
      | nil => cases hx
      | cons d cs =>
        refine Rune.isContinuation_of_mem_head? (c := d) ?_
        rw [ofChars, List.flatMap_cons, List.head?_append] at hx
        obtain ⟨y, t, hy⟩ := List.exists_cons_of_ne_nil (String.utf8EncodeChar_ne_nil (c := d))
        simpa [hy] using hx
    rw [ofChars, List.flatMap_cons, ← ofChars, Rune.decode_append hhead,
      Rune.decode_utf8EncodeChar, ih]
    rfl

/-- **Characters are read back from their bytes.** -/
theorem chars_ofChars (cs : List Char) : (ofChars cs).chars = cs := by
  rw [chars, decode_ofChars, List.map_map]
  exact List.map_id cs

/-- The string is **text in UTF-8**: the bytes of some characters. -/
def IsUtf8 (b : Bytes) : Prop := ∃ cs : List Char, b = ofChars cs

theorem IsUtf8.ofChars_chars {b : Bytes} (h : b.IsUtf8) : ofChars b.chars = b := by
  obtain ⟨cs, rfl⟩ := h
  rw [chars_ofChars]

/-! ### ASCII characters in texts -/

variable {a : Char} {x : UInt8}

/-- **A string has an ASCII character exactly if it has its byte.** -/
theorem mem_chars_iff (h : IsAscii a x) {b : Bytes} : a ∈ b.chars ↔ x ∈ b := by
  rw [← h.mem_decode_iff, chars, List.mem_map]
  constructor
  · rintro ⟨r, hr, hchar⟩
    rw [h.char_eq_iff.mp hchar] at hr
    exact hr
  · intro hr
    exact ⟨_, hr, rfl⟩

theorem mem_ofChars_iff (h : IsAscii a x) {cs : List Char} : x ∈ ofChars cs ↔ a ∈ cs := by
  simp only [ofChars, List.mem_flatMap, h.mem_utf8EncodeChar_iff, exists_eq_right]

/-- What ends in an element that stands for something ends in the last of that. -/
theorem getLast?_flatMap_concat {α : Type} {f : α → Bytes} (l : List α) {r : α} (hr : f r ≠ []) :
    ((l ++ [r]).flatMap f).getLast? = some ((f r).getLast hr) := by
  rw [List.flatMap_append, List.flatMap_singleton, List.getLast?_append,
    List.getLast?_eq_some_getLast hr, Option.some_or]

/-- A string whose last character is an ASCII character ends in its byte. -/
theorem getLast?_of_chars (h : IsAscii a x) {b : Bytes} (hlast : b.chars.getLast? = some a) :
    b.getLast? = some x := by
  rw [chars, List.getLast?_map, Option.map_eq_some_iff] at hlast
  obtain ⟨r, hr, hchar⟩ := hlast
  obtain rfl := h.char_eq_iff.mp hchar
  obtain ⟨rs, hrs⟩ := List.getLast?_eq_some_iff.mp hr
  have hencode : (Rune.scalar a).encode = [x] := h.utf8EncodeChar_eq
  rw [← flatMap_encode_decode b, hrs, getLast?_flatMap_concat rs (by simp [hencode])]
  simp [hencode]

/-- Characters whose bytes end in that of an ASCII character end in the character. -/
theorem getLast?_of_ofChars (h : IsAscii a x) {cs : List Char}
    (hlast : (ofChars cs).getLast? = some x) : cs.getLast? = some a := by
  rcases List.eq_nil_or_concat cs with rfl | ⟨cs, c, rfl⟩
  · cases hlast
  · rw [List.concat_eq_append] at hlast ⊢
    rw [ofChars, getLast?_flatMap_concat cs String.utf8EncodeChar_ne_nil] at hlast
    have hmem : x ∈ String.utf8EncodeChar c := by
      rw [← Option.some.inj hlast]
      exact List.getLast_mem _
    rw [h.mem_utf8EncodeChar_iff.mp hmem, List.getLast?_concat]

/-! ### Trimming -/

/-- The runes that trimming keeps. -/
theorem mem_decode_of_mem_trimmed {b : Bytes} {r : Rune}
    (hr : r ∈ ((decode b).dropWhile Rune.isBlank).reverse.dropWhile Rune.isBlank) :
    r ∈ decode b :=
  (List.dropWhile_sublist _).subset
    (List.mem_reverse.mp ((List.dropWhile_sublist _).subset hr))

/-- Trimming brings in nothing. -/
theorem mem_of_mem_trim {b : Bytes} {y : UInt8} (hy : y ∈ trim b) : y ∈ b := by
  simp only [trim, List.mem_flatMap, List.mem_reverse] at hy
  obtain ⟨r, hr, hy⟩ := hy
  rw [← flatMap_encode_decode b]
  exact List.mem_flatMap.mpr ⟨r, mem_decode_of_mem_trimmed hr, hy⟩

/-- A trimmed string does not end in a white-space ASCII character. -/
theorem getLast?_trim_ne (h : IsAscii a x) (hblank : Text.isBlank a = true) (b : Bytes) :
    (trim b).getLast? ≠ some x := by
  intro hlast
  have hhead := List.head?_dropWhile_not Rune.isBlank ((decode b).dropWhile Rune.isBlank).reverse
  rw [trim] at hlast
  cases hrs : ((decode b).dropWhile Rune.isBlank).reverse.dropWhile Rune.isBlank with
  | nil =>
    rw [hrs] at hlast
    cases hlast
  | cons r rs =>
    have hmem : r ∈ decode b := mem_decode_of_mem_trimmed (by rw [hrs]; exact List.mem_cons_self)
    have hne : r.encode ≠ [] := by
      cases r with
      | scalar c => exact String.utf8EncodeChar_ne_nil
      | stray y => exact List.cons_ne_nil y []
    rw [hrs, List.reverse_cons, getLast?_flatMap_concat _ hne] at hlast
    have hx : x ∈ r.encode := by
      rw [← Option.some.inj hlast]
      exact List.getLast_mem hne
    rw [hrs, (h.mem_encode_iff hmem).mp hx] at hhead
    simp [Rune.isBlank, hblank] at hhead

end Bytes

end KernelPack
