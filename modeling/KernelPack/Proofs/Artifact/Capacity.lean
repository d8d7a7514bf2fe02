import KernelPack.Proofs.Artifact.Chunks
import KernelPack.Settings.Starter

/-!
# Cutting in 64-bit arithmetic

A configuration may ask for chunks of any size that is not negative, up to the largest number of 64
bits. Two sums can then leave the range: the one that the room for the chunks is reckoned from, and
the index of the loop that cuts. The loop is written down here with its index in 64-bit arithmetic
(`Cuts`), so that the index **can** wrap; a piece whose end would lie before its beginning stops
it.

The main statement says for every size and every length that can be counted in 64 bits which texts
are cut. Where the length and the size come to no more than 2^63 nothing wraps. Beyond that the room
comes out negative, unless the size is so large that the quotient is rounded to zero and one piece
takes the whole text; a text of two bytes and chunks of 2^63 - 1 bytes are an example of the first.
Whenever the loop comes to its end, its pieces are the chunks of the text.
-/

namespace KernelPack.Artifact

/-! ### The loop -/

/-- The end of the piece that begins at an index. -/
def pieceEnd (text : Bytes) (size index : Int64) : Int64 :=
  if index + size ≤ Int64.ofNat text.length then index + size else Int64.ofNat text.length

/-- **The loop that cuts**, from an index on, with the pieces it gives. The index and the ends are
in 64-bit arithmetic; there is no way on from an index where the piece would end before it begins,
or begin before the text. -/
inductive Cuts (text : Bytes) (size : Int64) : Int64 → List Bytes → Prop
  | done {index : Int64} (hindex : Int64.ofNat text.length ≤ index) : Cuts text size index []
  | more {index : Int64} {pieces : List Bytes} (hindex : index < Int64.ofNat text.length)
      (hbegin : 0 ≤ index) (hend : index ≤ pieceEnd text size index)
      (hrest : Cuts text size (index + size) pieces) :
      Cuts text size index
        (text.extract index.toInt.toNat (pieceEnd text size index).toInt.toNat :: pieces)

/-- The loop gives one list of pieces at most. -/
theorem Cuts.eq {text : Bytes} {size index : Int64} {pieces pieces' : List Bytes}
    (h : Cuts text size index pieces) (h' : Cuts text size index pieces') : pieces = pieces' := by
  induction h generalizing pieces' with
  | done hindex =>
    cases h' with
    | done => rfl
    | more hindex' => exact absurd hindex' (Int64.not_lt.mpr hindex)
  | more hindex hbegin hend hrest ih =>
    cases h' with
    | done hindex' => exact absurd hindex (Int64.not_lt.mpr hindex')
    | more _ _ _ hrest' => rw [ih hrest']

/-! ### Sums of 64 bits -/

theorem bmod_eq_self {x : Int} (hmin : -2 ^ 63 ≤ x) (hmax : x < 2 ^ 63) : x.bmod (2 ^ 64) = x :=
  Int.bmod_eq_of_le (by omega) (by omega)

/-- The sum of two numbers that are not negative wraps once if it is too large. -/
theorem bmod_eq_sub {x : Int} (hmin : 2 ^ 63 ≤ x) (hmax : x < 2 ^ 64) :
    x.bmod (2 ^ 64) = x - 2 ^ 64 := by
  rw [Int.bmod_def, if_neg (by omega), Int.emod_eq_of_lt (by omega) (by omega)]
  rfl

theorem toInt_effectiveSize (size : Int64) : (effectiveSize size).toInt = chunkLength size := by
  have hpos := chunkLength_pos size
  unfold chunkLength at hpos ⊢
  omega

section Sums

variable {size : Int64} {n : Nat} (hsize : size.toInt = n)

include hsize

theorem lt_of_toInt_eq : n < 2 ^ 63 := by
  have hlt := size.toInt_lt
  omega

/-- An index and a size that stay in the range are added. -/
theorem toInt_ofNat_add {i : Nat} (hsum : i + n < 2 ^ 63) :
    (Int64.ofNat i + size).toInt = i + n := by
  rw [Int64.toInt_add, Int64.toInt_ofNat_of_lt (by omega), hsize,
    bmod_eq_self (by omega) (by omega)]

/-- An index and a size that leave the range make a negative sum. -/
theorem toInt_ofNat_add_neg {i : Nat} (hi : i < 2 ^ 63) (hsum : 2 ^ 63 ≤ i + n) :
    (Int64.ofNat i + size).toInt < 0 := by
  have hn := lt_of_toInt_eq hsize
  rw [Int64.toInt_add, Int64.toInt_ofNat_of_lt hi, hsize, bmod_eq_sub (by omega) (by omega)]
  omega

theorem ofNat_add_eq {i : Nat} (hsum : i + n < 2 ^ 63) :
    Int64.ofNat i + size = Int64.ofNat (i + n) := by
  rw [← Int64.toInt_inj, toInt_ofNat_add hsize hsum, Int64.toInt_ofNat_of_lt hsum]
  omega

/-- What the room is reckoned from, before the division. -/
theorem toInt_roomSum {length : Nat} (hlength : length < 2 ^ 63) :
    (Int64.ofNat length + size - 1).toInt = (length + n - 1 : Int).bmod (2 ^ 64) := by
  rw [Int64.toInt_sub, Int64.toInt_add, Int64.toInt_ofNat_of_lt hlength, hsize, Int.bmod_sub_bmod]
  rfl

/-- **When the room comes out negative.** The sum of length and size has to leave the range, and the
wrapped sum must not be so close to zero that the quotient is rounded to it. -/
theorem chunkCapacity_neg_iff (hpos : 0 < n) {length : Nat} (hlength : length < 2 ^ 63) :
    chunkCapacity length size < 0 ↔ 2 ^ 63 < length + n ∧ length + 2 * n ≤ 2 ^ 64 + 1 := by
  rw [chunkCapacity, Int64.lt_iff_toInt_lt, Int64.toInt_div, toInt_roomSum hsize hlength, hsize,
    Int64.toInt_zero]
  have hn := lt_of_toInt_eq hsize
  by_cases hsum : length + n ≤ 2 ^ 63
  · -- nothing wraps
    obtain ⟨m, hm⟩ : ∃ m, length + n = m + 1 := ⟨length + n - 1, by omega⟩
    have hroom : (length + n - 1 : Int).bmod (2 ^ 64) = m := by
      rw [bmod_eq_self (by omega) (by omega)]
      omega
    have hle : m / n ≤ m := Nat.div_le_self m n
    rw [hroom, ← Int.ofNat_tdiv]
    generalize m / n = quot at hle ⊢
    rw [bmod_eq_self (by omega) (by omega)]
    omega
  · -- the sum is negative, by what it lacks of 2^64
    obtain ⟨m, hm⟩ : ∃ m, length + n + m = 2 ^ 64 + 1 := ⟨2 ^ 64 + 1 - (length + n), by omega⟩
    have hroom : (length + n - 1 : Int).bmod (2 ^ 64) = -m := by
      rw [bmod_eq_sub (by omega) (by omega)]
      omega
    have hle : m / n ≤ m := Nat.div_le_self m n
    have hquot : 0 < m / n ↔ n ≤ m := Nat.div_pos_iff.trans (and_iff_right hpos)
    rw [hroom, Int.neg_tdiv, ← Int.ofNat_tdiv]
    generalize m / n = quot at hle hquot ⊢
    rw [bmod_eq_self (by omega) (by omega)]
    omega

end Sums

/-! ### What the loop comes to -/

/-- No index inside the text that the loop can come to leads out of the range. -/
def StaysInRange (n length : Nat) : Prop := ∀ i < length, n ∣ i → i + n < 2 ^ 63

section Loop

variable {text : Bytes} (hlength : text.length < 2 ^ 63)

include hlength

theorem ofNat_lt_length_iff {i : Nat} (hi : i < 2 ^ 63) :
    Int64.ofNat i < Int64.ofNat text.length ↔ i < text.length := by
  rw [Int64.lt_iff_toInt_lt, Int64.toInt_ofNat_of_lt hi, Int64.toInt_ofNat_of_lt hlength]
  omega

variable {size : Int64} {n : Nat} (hsize : size.toInt = n)

include hsize

/-- The piece at an index ends a size further on, or with the text. -/
theorem toInt_pieceEnd {i : Nat} (hsum : i + n < 2 ^ 63) :
    (pieceEnd text size (Int64.ofNat i)).toInt = min (i + n) text.length := by
  have htext := Int64.toInt_ofNat_of_lt hlength
  have hnext := Int64.toInt_ofNat_of_lt hsum
  unfold pieceEnd
  rw [ofNat_add_eq hsize hsum]
  split
  · rename_i hle
    rw [Int64.le_iff_toInt_le, htext, hnext] at hle
    omega
  · rename_i hgt
    rw [Int64.le_iff_toInt_le, htext, hnext] at hgt
    omega

/-- Beyond the range the piece would end before the text begins. -/
theorem toInt_pieceEnd_neg {i : Nat} (hi : i < 2 ^ 63) (hsum : 2 ^ 63 ≤ i + n) :
    (pieceEnd text size (Int64.ofNat i)).toInt < 0 := by
  have hneg := toInt_ofNat_add_neg hsize hi hsum
  have hle : Int64.ofNat i + size ≤ Int64.ofNat text.length := by
    rw [Int64.le_iff_toInt_le, Int64.toInt_ofNat_of_lt hlength]
    omega
  rwa [pieceEnd, if_pos hle]

/-- The bytes between an index and the end of its piece. -/
theorem extract_pieceEnd {i : Nat} (hi : i < 2 ^ 63) (hsum : i + n < 2 ^ 63) :
    text.extract (Int64.ofNat i).toInt.toNat (pieceEnd text size (Int64.ofNat i)).toInt.toNat =
      (text.drop i).take n := by
  rw [Int64.toInt_ofNat_of_lt hi, toInt_pieceEnd hlength hsize hsum, Int.toNat_natCast,
    Int.toNat_natCast, List.extract_eq_take_drop, List.take_eq_take_iff, List.length_drop]
  omega

/-- **A round of the loop.** Inside the text it goes on exactly if the index stays in the range, and
then with the bytes of one size. -/
theorem cuts_iff_of_lt {i : Nat} (hi : i < text.length) {pieces : List Bytes} :
    Cuts text size (Int64.ofNat i) pieces ↔ i + n < 2 ^ 63 ∧
      ∃ rest, Cuts text size (Int64.ofNat (i + n)) rest ∧
        pieces = (text.drop i).take n :: rest := by
  have hrange := hi.trans hlength
  have hindex := Int64.toInt_ofNat_of_lt hrange
  have hinside := (ofNat_lt_length_iff hlength hrange).mpr hi
  constructor
  · intro h
    cases h with
    | done hindex' => exact absurd hinside (Int64.not_lt.mpr hindex')
    | more _ hbegin hend hrest =>
      have hsum : i + n < 2 ^ 63 := by
        by_contra hsum
        have hneg := toInt_pieceEnd_neg hlength hsize hrange (Nat.le_of_not_lt hsum)
        rw [Int64.le_iff_toInt_le, hindex] at hend
        omega
      rw [ofNat_add_eq hsize hsum] at hrest
      exact ⟨hsum, _, hrest, by rw [extract_pieceEnd hlength hsize hrange hsum]⟩
  · rintro ⟨hsum, rest, hrest, rfl⟩
    rw [← extract_pieceEnd hlength hsize hrange hsum]
    refine .more hinside ?_ ?_ (by rwa [ofNat_add_eq hsize hsum])
    · rw [Int64.le_iff_toInt_le, hindex, Int64.toInt_zero]
      omega
    · rw [Int64.le_iff_toInt_le, hindex, toInt_pieceEnd hlength hsize hsum]
      omega

/-- **The loop in the range.** If no index leads out of the range, the loop comes to its end from
each of them, with the pieces of the text from there on. -/
theorem cuts_of_staysInRange (hpos : 0 < n) (hstays : StaysInRange n text.length) {i : Nat}
    (hdvd : n ∣ i) (hi : i < 2 ^ 63) :
    Cuts text size (Int64.ofNat i) (cutEvery n (text.drop i)) := by
  -- what is left of the text gets shorter in each round
  induction hleft : text.length - i using Nat.strong_induction_on generalizing i with
  | _ left ih =>
    by_cases hinside : i < text.length
    · have hsum := hstays i hinside hdvd
      have hrest :=
        ih (text.length - (i + n)) (by omega) (Nat.dvd_add hdvd (Nat.dvd_refl n)) hsum rfl
      have hdrop : ¬ (n = 0 ∨ text.drop i = []) := by
        rw [List.drop_eq_nil_iff]
        omega
      rw [cuts_iff_of_lt hlength hsize hinside, cutEvery, dif_neg hdrop]
      exact ⟨hsum, _, hrest, by rw [List.drop_drop]⟩
    · have hnil : text.drop i = [] := List.drop_eq_nil_iff.mpr (Nat.le_of_not_lt hinside)
      rw [hnil, cutEvery, dif_pos (Or.inr rfl)]
      exact .done (Int64.not_lt.mp (mt (ofNat_lt_length_iff hlength hi).mp hinside))

/-- From the beginning it gives the pieces of the text. -/
theorem cuts_zero_of_staysInRange (hpos : 0 < n) (hstays : StaysInRange n text.length) :
    Cuts text size 0 (cutEvery n text) :=
  cuts_of_staysInRange hlength hsize hpos hstays (Nat.dvd_zero n) (by decide : 0 < 2 ^ 63)

/-- **A loop that comes to its end has stayed in the range.** -/
theorem staysInRange_of_cuts {pieces : List Bytes} (h : Cuts text size 0 pieces) :
    StaysInRange n text.length := by
  -- the loop has come to every multiple of the size inside the text
  have hcomes : ∀ k, k * n < text.length → ∃ rest, Cuts text size (Int64.ofNat (k * n)) rest := by
    intro k
    induction k with
    | zero =>
      intro _
      rw [Nat.zero_mul]
      exact ⟨pieces, h⟩
    | succ k ih =>
      intro hk
      rw [Nat.succ_mul] at hk ⊢
      have hinside : k * n < text.length := by omega
      obtain ⟨rest, hrest⟩ := ih hinside
      obtain ⟨-, rest', hrest', -⟩ := (cuts_iff_of_lt hlength hsize hinside).mp hrest
      exact ⟨rest', hrest'⟩
  rintro _ hinside ⟨k, rfl⟩
  rw [Nat.mul_comm] at hinside ⊢
  obtain ⟨rest, hrest⟩ := hcomes k hinside
  exact ((cuts_iff_of_lt hlength hsize hinside).mp hrest).1

end Loop

/-! ### Which texts are cut -/

/-- **The cutting of a text in 64-bit arithmetic**: the room for the chunks is not negative, and the
loop comes to its end with the pieces. -/
structure CutsInto (text : Bytes) (size : Int64) (pieces : List Bytes) : Prop where
  room : 0 ≤ chunkCapacity text.length (effectiveSize size)
  loop : Cuts text (effectiveSize size) 0 pieces

theorem chunk_eq_ok_of_room {text : Bytes} {size : Int64}
    (h : 0 ≤ chunkCapacity text.length (effectiveSize size)) :
    chunk text size = .ok (cutEvery (chunkLength size) text) := by
  simp only [chunk, if_neg (Int64.not_lt.mpr h)]
  rfl

/-- **Cutting in the range of 64 bits.** For a text whose length can be counted in 64 bits and any
size, the room comes out negative exactly if the sum of both leaves the range and is not rounded to
zero. The text is cut exactly if the sum stays in the range, or else if one piece takes the whole
text and the room is rounded to zero. Then the pieces are the chunks of the text, they make up the
text, and no index that the loop comes to wraps. -/
theorem cutsInto_iff_in_range (text : Bytes) (size : Int64) (hlength : text.length < 2 ^ 63) :
    (chunk text size = .error .capacity ↔
      2 ^ 63 < text.length + chunkLength size ∧
        text.length + 2 * chunkLength size ≤ 2 ^ 64 + 1) ∧
    ((∃ pieces, CutsInto text size pieces) ↔
      text.length + chunkLength size ≤ 2 ^ 63 ∨
        text.length ≤ chunkLength size ∧ 2 ^ 64 + 1 < text.length + 2 * chunkLength size) ∧
    ∀ pieces, CutsInto text size pieces →
      chunk text size = .ok pieces ∧ pieces.flatten = text ∧
      ∀ i < text.length, chunkLength size ∣ i →
        (Int64.ofNat i + effectiveSize size).toInt = i + chunkLength size := by
  have hpos := chunkLength_pos size
  have hsize := toInt_effectiveSize size
  have hn := lt_of_toInt_eq hsize
  have hneg := chunkCapacity_neg_iff hsize hpos hlength
  have hroom : 0 ≤ chunkCapacity text.length (effectiveSize size) ↔
      ¬ (2 ^ 63 < text.length + chunkLength size ∧
        text.length + 2 * chunkLength size ≤ 2 ^ 64 + 1) := by
    rw [← hneg, Int64.not_lt]
  refine ⟨chunk_eq_error_iff.trans hneg, ⟨?_, ?_⟩, ?_⟩
  · rintro ⟨pieces, hcuts⟩
    have hstays := staysInRange_of_cuts hlength hsize hcuts.loop
    have hroom := hroom.mp hcuts.room
    -- behind a second piece the index would leave the range
    have hsecond : chunkLength size < text.length → 2 * chunkLength size < 2 ^ 63 := fun hlt => by
      have hsum := hstays (chunkLength size) hlt (Nat.dvd_refl _)
      omega
    omega
  · intro hin
    refine ⟨_, hroom.mpr (by omega),
      cuts_zero_of_staysInRange hlength hsize hpos fun i hi hdvd => ?_⟩
    obtain hsum | ⟨hone, -⟩ := hin
    · omega
    · have hzero : i = 0 := Nat.eq_zero_of_dvd_of_lt hdvd (by omega)
      omega
  · intro pieces hcuts
    have hstays := staysInRange_of_cuts hlength hsize hcuts.loop
    obtain rfl := hcuts.loop.eq (cuts_zero_of_staysInRange hlength hsize hpos hstays)
    have hchunk := chunk_eq_ok_of_room hcuts.room
    exact ⟨hchunk, flatten_of_chunk hchunk,
      fun i hi hdvd => toInt_ofNat_add hsize (hstays i hi hdvd)⟩

/-- A valid configuration may ask for the largest size: with it a text of two bytes is not cut, and
one of four bytes is one piece. -/
theorem cutsInto_iff_largest :
    { Config.starter [] with chunkSize := Int64.maxValue }.validate = .ok () ∧
    chunk (utf8 "ab") Int64.maxValue = .error .capacity ∧
    (¬ ∃ pieces, CutsInto (utf8 "ab") Int64.maxValue pieces) ∧
    ∃ pieces, CutsInto (utf8 "abcd") Int64.maxValue pieces ∧ pieces.flatten = utf8 "abcd" := by
  have hsize : chunkLength Int64.maxValue = 2 ^ 63 - 1 := by decide
  have htwo : (utf8 "ab").length = 2 := by decide
  have hfour : (utf8 "abcd").length = 4 := by decide
  obtain ⟨herror, hshort, -⟩ := cutsInto_iff_in_range (utf8 "ab") Int64.maxValue (by omega)
  obtain ⟨-, hlong, hpieces⟩ := cutsInto_iff_in_range (utf8 "abcd") Int64.maxValue (by omega)
  rw [hsize] at herror hshort hlong
  obtain ⟨pieces, hcuts⟩ := hlong.mpr (by omega)
  exact ⟨by decide +kernel, herror.mpr (by omega), mt hshort.mp (by omega), pieces, hcuts,
    (hpieces pieces hcuts).2.1⟩

end KernelPack.Artifact
