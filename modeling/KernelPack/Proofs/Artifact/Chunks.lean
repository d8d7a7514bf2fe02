import Mathlib.Algebra.Order.Floor.Div
import KernelPack.Proofs.Artifact.Literal

/-!
# The literals of a text

A text is cut after every so many bytes, so a piece can be told by its **place**: the piece with the
number `i` holds the bytes from `i` times the size on (`cutEvery_eq_map_pieceAt`). Nothing else has
to be known of the cuts. The main statement is about the release literals one by one: there are as
many as it takes, each of them is well-formed by itself and reads as the bytes at its place, and
without their quotes they make up the escaped text.
-/

namespace KernelPack.Artifact

/-! ### Sizes -/

/-- The number of bytes in a chunk that is not cut short by the end of the text. -/
def chunkLength (size : Int64) : Nat := (effectiveSize size).toInt.toNat

theorem chunkLength_pos (size : Int64) : 0 < chunkLength size := effectiveSize_pos size

/-- A positive size counts as it is, and any other stands for 76 bytes. -/
theorem chunkLength_eq (size : Int64) :
    chunkLength size = if 0 < size then size.toInt.toNat else 76 := by
  unfold chunkLength effectiveSize
  by_cases h : size ≤ 0
  · rw [if_pos h, if_neg (Int64.not_lt.mpr h)]
    rfl
  · rw [if_neg h, if_pos (Int64.not_le.mp h)]

/-! ### Pieces by their places -/

/-- The bytes of the piece with the number `i`, of `n` bytes unless the text ends before. -/
def pieceAt (n : Nat) (text : Bytes) (i : Nat) : Bytes :=
  text.extract (i * n) (min ((i + 1) * n) text.length)

theorem pieceAt_eq_take_drop (n : Nat) (text : Bytes) (i : Nat) :
    pieceAt n text i = (text.drop (i * n)).take n := by
  rw [pieceAt, List.extract_eq_take_drop, List.take_eq_take_iff, List.length_drop, Nat.succ_mul]
  omega

theorem length_pieceAt (n : Nat) (text : Bytes) (i : Nat) :
    (pieceAt n text i).length = min n (text.length - i * n) := by
  rw [pieceAt_eq_take_drop, List.length_take, List.length_drop]

theorem pieceAt_zero (n : Nat) (text : Bytes) : pieceAt n text 0 = text.take n := by
  rw [pieceAt_eq_take_drop, Nat.zero_mul, List.drop_zero]

/-- The later pieces are those of the text behind the first piece. -/
theorem pieceAt_succ (n : Nat) (text : Bytes) (i : Nat) :
    pieceAt n text (i + 1) = pieceAt n (text.drop n) i := by
  rw [pieceAt_eq_take_drop, pieceAt_eq_take_drop, List.drop_drop, Nat.succ_mul, Nat.add_comm]

/-- The pieces are counted by where they begin: inside the text. -/
theorem lt_ceilDiv_iff {n : Nat} (hn : 0 < n) {i m : Nat} : i < m ⌈/⌉ n ↔ i * n < m := by
  rw [← not_le, ceilDiv_le_iff_le_mul hn, not_le, Nat.mul_comm]

/-- There is one piece more than behind the first one. -/
theorem ceilDiv_eq_succ {n m : Nat} (hn : 0 < n) (hm : 0 < m) :
    m ⌈/⌉ n = (m - n) ⌈/⌉ n + 1 := by
  refine eq_of_forall_lt_iff fun i => ?_
  cases i with
  | zero =>
    rw [lt_ceilDiv_iff hn]
    omega
  | succ i =>
    rw [Nat.succ_lt_succ_iff, lt_ceilDiv_iff hn, lt_ceilDiv_iff hn, Nat.succ_mul]
    omega

/-- **The pieces of a text by their places.** -/
theorem cutEvery_eq_map_pieceAt {n : Nat} (hn : 0 < n) (text : Bytes) :
    cutEvery n text = (List.range (text.length ⌈/⌉ n)).map (pieceAt n text) := by
  fun_induction cutEvery n text with
  | case1 text h =>
    obtain rfl : text = [] := h.resolve_left hn.ne'
    rw [List.length_nil, zero_ceilDiv]
    rfl
  | case2 text h ih =>
    have hlength : 0 < text.length := List.length_pos_iff.mpr fun hnil => h (Or.inr hnil)
    rw [ceilDiv_eq_succ hn hlength, List.range_succ_eq_map, List.map_cons, List.map_map,
      pieceAt_zero, ih, List.length_drop]
    exact congrArg _ (List.map_congr_left fun i _ => (pieceAt_succ n text i).symm)

/-- A text that can be cut has the pieces at its places. -/
theorem chunk_eq_ok_of_ne {text : Bytes} {size : Int64} (h : chunk text size ≠ .error .capacity) :
    chunk text size = .ok
      ((List.range (text.length ⌈/⌉ chunkLength size)).map (pieceAt (chunkLength size) text)) := by
  rw [ne_eq, chunk_eq_error_iff] at h
  rw [← cutEvery_eq_map_pieceAt (chunkLength_pos size)]
  simp only [chunk, if_neg h]
  rfl

/-- There are as many chunks as it takes to hold the text. -/
theorem length_of_chunk {text : Bytes} {size : Int64} {chunks : List Bytes}
    (h : chunk text size = .ok chunks) : chunks.length = text.length ⌈/⌉ chunkLength size := by
  have hne : chunk text size ≠ .error .capacity := fun he => nomatch h.symm.trans he
  obtain rfl := Except.ok.inj (h.symm.trans (chunk_eq_ok_of_ne hne))
  rw [List.length_map, List.length_range]

/-! ### The literals -/

/-- The literals of the chunks have the escaped chunks between their quotes. -/
theorem releaseLiterals_of_chunk {text : Bytes} {size : Int64} {chunks : List Bytes}
    (h : chunk text size = .ok chunks) :
    releaseLiterals text size = .ok ((chunks.map escape).map enclose) := by
  rw [releaseLiterals, h, List.map_map]
  rfl

/-- The escaped pieces make up the escaped text. -/
theorem flatten_map_escape (chunks : List Bytes) :
    (chunks.map escape).flatten = escape chunks.flatten := by
  induction chunks with
  | nil => rfl
  | cons c cs ih => rw [List.map_cons, List.flatten_cons, List.flatten_cons, ih, escape_append]

/-- **Release literals are exact, and each stands for itself.** With `s` bytes to a chunk, a text
that can be cut has as many literals as it takes to hold it. What stands between the quotes of a
literal is well-formed without its neighbours and reads as the bytes at the place of the literal;
these are `s` bytes in front of the last literal, and at least one in the last. The bodies one after
another are the escaped text. -/
theorem releaseLiterals_exact {text : Bytes} {size : Int64}
    (hchunk : chunk text size ≠ .error .capacity) :
    ∃ (s : Nat) (bodies : List Bytes), s = (if 0 < size then size.toInt.toNat else 76) ∧
      releaseLiterals text size = .ok (bodies.map enclose) ∧
      bodies.length = text.length ⌈/⌉ s ∧
      (∀ (i : Nat) (hi : i < bodies.length), ∃ c,
        unescape? quotingEscape? bodies[i] = some c ∧
        c = text.extract (i * s) (min ((i + 1) * s) text.length) ∧
        (i + 1 < bodies.length → c.length = s) ∧ c ≠ []) ∧
      bodies.flatten = escape text := by
  have hs := chunkLength_pos size
  have hchunks := chunk_eq_ok_of_ne hchunk
  refine ⟨chunkLength size, _, chunkLength_eq size, releaseLiterals_of_chunk hchunks, ?_,
    fun i hi => ?_, ?_⟩
  · rw [List.length_map, List.length_map, List.length_range]
  · simp only [List.length_map, List.length_range] at hi ⊢
    have hlength := length_pieceAt (chunkLength size) text i
    refine ⟨pieceAt (chunkLength size) text i, ?_, rfl, fun hnext => ?_, fun hnil => ?_⟩
    · simp only [List.getElem_map, List.getElem_range]
      exact unescape?_escape quotingEscape?_quotesBack _
    · -- the next piece begins inside the text, so this one is not cut short
      rw [lt_ceilDiv_iff hs, Nat.succ_mul] at hnext
      omega
    · rw [lt_ceilDiv_iff hs] at hi
      rw [hnil, List.length_nil] at hlength
      omega
  · rw [flatten_map_escape, flatten_of_chunk hchunks]

/-- A text that is cut behind a quote and in front of a backslash. -/
theorem releaseLiterals_exact_quoted :
    chunk (utf8 "a\"\\b\"") 2 ≠ .error .capacity ∧
    ∃ bodies : List Bytes, releaseLiterals (utf8 "a\"\\b\"") 2 = .ok (bodies.map enclose) ∧
      bodies.length = 3 ∧ bodies.flatten = utf8 "a\\\"\\\\b\\\"" := by
  have hchunk : chunk (utf8 "a\"\\b\"") 2 ≠ .error .capacity := fun h =>
    absurd (chunk_eq_error_iff.mp h) (by decide)
  obtain ⟨s, bodies, rfl, hrelease, hlength, -, hflatten⟩ := releaseLiterals_exact hchunk
  exact ⟨hchunk, bodies, hrelease, by rw [hlength]; decide, by rw [hflatten]; decide⟩

end KernelPack.Artifact
