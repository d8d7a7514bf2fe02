import KernelPack.Artifact.Literal
import KernelPack.Proofs.Bytes.Cutting

/-!
# Reading literals back

The reader of string literals that goes with the writer, and what it makes of the literals the
writer produces.

* `unescape?` undoes escapes. Which escapes there are is a parameter: `quotingEscape?` knows the
  two that the writer uses for the bytes of a text, `simpleEscape?` all the one-letter escapes of
  C. The reader **refuses** a quote without a backslash, a backslash at the end and an escape it
  does not know, so a successful reading says that a literal is well-formed.
* `stringValue?` reads adjacent literals as one string, the way C does.
* The release literals of a text read as the text, wherever it is cut (`stringValue?_release`); a
  debug literal reads as its line with a space before it, padding and a line feed
  (`literalValue?_debug`).
-/

namespace KernelPack.Artifact

/-! ### The reader -/

/-- The escapes for the bytes that cannot stand in a literal by themselves. -/
def quotingEscape? (b : UInt8) : Option UInt8 :=
  if b = Byte.backslash ∨ b = Byte.quote then some b else none

/-- The one-letter escapes of C, with the bytes they stand for. -/
def simpleEscapes : List (UInt8 × UInt8) :=
  [(Byte.backslash, Byte.backslash), (Byte.quote, Byte.quote), (39, 39), (63, 63), (97, 7),
    (98, 8), (102, 12), (110, Byte.lf), (114, Byte.cr), (116, Byte.tab), (118, 11)]

/-- The byte that a backslash and `b` stand for in a C string. -/
def simpleEscape? (b : UInt8) : Option UInt8 := simpleEscapes.lookup b

/-- The text that the body of a literal stands for, if it is well-formed. -/
def unescape? (escape? : UInt8 → Option UInt8) : Bytes → Option Bytes
  | [] => some []
  | b :: t =>
    if b = Byte.backslash then
      match t with
      | [] => none
      | e :: rest => do return (← escape? e) :: (← unescape? escape? rest)
    else if b = Byte.quote then none
    else (unescape? escape? t).map (b :: ·)

/-- What stands between the outer quotes of a literal. -/
def body? : Bytes → Option Bytes
  | [] => none
  | q :: t =>
    if q = Byte.quote ∧ t.getLast? = some Byte.quote then some t.dropLast else none

/-- The text of a literal. -/
def literalValue? (escape? : UInt8 → Option UInt8) (literal : Bytes) : Option Bytes := do
  unescape? escape? (← body? literal)

/-- The text of adjacent literals. -/
def stringValue? (escape? : UInt8 → Option UInt8) : List Bytes → Option Bytes
  | [] => some []
  | l :: ls => do return (← literalValue? escape? l) ++ (← stringValue? escape? ls)

/-! ### Escaped bytes -/

/-- The bytes that take a backslash. -/
def NeedsEscape (b : UInt8) : Prop := b = Byte.backslash ∨ b = Byte.quote

instance (b : UInt8) : Decidable (NeedsEscape b) :=
  inferInstanceAs (Decidable (b = Byte.backslash ∨ b = Byte.quote))

@[simp] theorem escape_nil : escape [] = [] := rfl

theorem escape_append (s t : Bytes) : escape (s ++ t) = escape s ++ escape t :=
  List.flatMap_append

theorem escape_cons_of_needsEscape {b : UInt8} (hb : NeedsEscape b) (t : Bytes) :
    escape (b :: t) = Byte.backslash :: b :: escape t := by
  have hbyte : escapeByte b = [Byte.backslash, b] := if_pos hb
  rw [escape, List.flatMap_cons, hbyte]
  rfl

theorem escape_cons_of_not_needsEscape {b : UInt8} (hb : ¬ NeedsEscape b) (t : Bytes) :
    escape (b :: t) = b :: escape t := by
  have hbyte : escapeByte b = [b] := if_neg hb
  rw [escape, List.flatMap_cons, hbyte]
  rfl

/-- All other bytes of an escaped text are those of the text. -/
theorem mem_escape_iff {x : UInt8} (hx : ¬ NeedsEscape x) {text : Bytes} :
    x ∈ escape text ↔ x ∈ text := by
  induction text with
  | nil => exact Iff.rfl
  | cons b t ih =>
    by_cases hb : NeedsEscape b
    · have hbackslash : x ≠ Byte.backslash := fun h => hx (Or.inl h)
      rw [escape_cons_of_needsEscape hb, List.mem_cons, List.mem_cons, List.mem_cons, ih,
        or_iff_right hbackslash]
    · rw [escape_cons_of_not_needsEscape hb, List.mem_cons, List.mem_cons, ih]

/-- Texts without quotes and backslashes, which escaping leaves as they are. -/
def Plain (b : Bytes) : Prop := ∀ x ∈ b, ¬ NeedsEscape x

instance (b : Bytes) : Decidable (Plain b) :=
  List.decidableBAll _ b

theorem plain_cons_iff {b : UInt8} {t : Bytes} :
    Plain (b :: t) ↔ ¬ NeedsEscape b ∧ Plain t :=
  List.forall_mem_cons

theorem plain_nil : Plain [] := nofun

theorem Plain.escape_eq {b : Bytes} (h : Plain b) : escape b = b := by
  induction b with
  | nil => rfl
  | cons x t ih =>
    obtain ⟨hx, ht⟩ := plain_cons_iff.mp h
    rw [escape_cons_of_not_needsEscape hx, ih ht]

/-! ### Escapes are undone -/

/-- Undoing escapes gives back the two bytes that are always escaped. -/
def QuotesBack (escape? : UInt8 → Option UInt8) : Prop :=
  escape? Byte.backslash = some Byte.backslash ∧ escape? Byte.quote = some Byte.quote

theorem quotingEscape?_quotesBack : QuotesBack quotingEscape? := ⟨rfl, rfl⟩

theorem simpleEscape?_quotesBack : QuotesBack simpleEscape? := ⟨rfl, rfl⟩

section Reading

variable {escape? : UInt8 → Option UInt8}

/-- Outside escapes a byte stands for itself. -/
theorem unescape?_cons {b : UInt8} (hb : b ≠ Byte.backslash) (hq : b ≠ Byte.quote) (t : Bytes) :
    unescape? escape? (b :: t) = (unescape? escape? t).map (b :: ·) := by
  cases t <;> simp only [unescape?, if_neg hb, if_neg hq]

/-- An escaped byte reads as the byte. -/
theorem unescape?_escapeByte (h : QuotesBack escape?) (b : UInt8) (t : Bytes) :
    unescape? escape? (escapeByte b ++ t) = (unescape? escape? t).map (b :: ·) := by
  unfold escapeByte
  split
  · rename_i hb
    have he : escape? b = some b := by
      rcases hb with rfl | rfl
      · exact h.1
      · exact h.2
    rw [List.cons_append, List.singleton_append, unescape?, if_pos rfl]
    simp only [he]
    cases unescape? escape? t <;> rfl
  · rename_i hb
    exact unescape?_cons (fun he => hb (Or.inl he)) (fun he => hb (Or.inr he)) t

/-- **The escaper has an inverse.** An escaped text in front of more reads as the text in front of
what that reads as. -/
theorem unescape?_escape_append (h : QuotesBack escape?) (text t : Bytes) :
    unescape? escape? (escape text ++ t) = (unescape? escape? t).map (text ++ ·) := by
  induction text with
  | nil => simp [escape]
  | cons b text ih =>
    rw [escape, List.flatMap_cons, List.append_assoc, unescape?_escapeByte h, ← escape, ih,
      Option.map_map]
    rfl

/-- An escaped text reads as the text. -/
theorem unescape?_escape (h : QuotesBack escape?) (text : Bytes) :
    unescape? escape? (escape text) = some text := by
  simpa [unescape?] using unescape?_escape_append h text []

theorem escape_injective {s t : Bytes} (h : escape s = escape t) : s = t := by
  have hread := unescape?_escape quotingEscape?_quotesBack s
  rw [h, unescape?_escape quotingEscape?_quotesBack] at hread
  exact (Option.some.inj hread).symm

theorem escape_eq_nil_iff {s : Bytes} : escape s = [] ↔ s = [] :=
  ⟨fun h => escape_injective h, fun h => congrArg escape h⟩

/-- Spaces in front of the rest of a body read as spaces. -/
theorem unescape?_replicate_space (n : Nat) (t : Bytes) :
    unescape? escape? (List.replicate n Byte.space ++ t)
      = (unescape? escape? t).map (List.replicate n Byte.space ++ ·) := by
  induction n with
  | zero => simp
  | succ n ih =>
    rw [List.replicate_succ, List.cons_append, unescape?_cons (by decide) (by decide), ih,
      Option.map_map]
    rfl

/-! ### Literals -/

/-- The outer quotes come off. -/
theorem body?_enclose (body : Bytes) : body? (enclose body) = some body := by
  simp [body?, enclose]

theorem literalValue?_enclose (body : Bytes) :
    literalValue? escape? (enclose body) = unescape? escape? body := by
  simp [literalValue?, body?_enclose]

/-- If every literal of a list reads as the given text, the list reads as these texts one after
another. -/
theorem stringValue?_map {α : Type} {literal text : α → Bytes} {xs : List α}
    (h : ∀ x ∈ xs, literalValue? escape? (literal x) = some (text x)) :
    stringValue? escape? (xs.map literal) = some (xs.flatMap text) := by
  induction xs with
  | nil => rfl
  | cons x xs ih =>
    rw [List.map_cons, stringValue?, h x List.mem_cons_self,
      ih fun y hy => h y (List.mem_cons_of_mem _ hy)]
    rfl

end Reading

/-! ### Release literals -/

/-- The size that counts is positive. -/
theorem effectiveSize_pos (size : Int64) : 0 < (effectiveSize size).toInt.toNat := by
  unfold effectiveSize
  split
  · decide
  · rename_i h
    rw [Int64.not_le, Int64.lt_iff_toInt_lt, Int64.toInt_zero] at h
    omega

/-- A text cannot be cut exactly when the room for its chunks comes out negative. -/
theorem chunk_eq_error_iff {text : Bytes} {size : Int64} :
    chunk text size = .error .capacity ↔ chunkCapacity text.length (effectiveSize size) < 0 := by
  simp only [chunk]
  split
  · rename_i h
    exact iff_of_true rfl h
  · rename_i h
    exact iff_of_false (fun he => nomatch he) h

/-- The cuts of a text make up the text. -/
theorem flatten_cutEvery {n : Nat} (hn : 0 < n) (text : Bytes) :
    (cutEvery n text).flatten = text := by
  fun_induction cutEvery n text with
  | case1 text h =>
    rcases h with h | rfl
    · omega
    · rfl
  | case2 text h ih => rw [List.flatten_cons, ih, List.take_append_drop]

/-- The chunks of a text make up the text. -/
theorem flatten_of_chunk {text : Bytes} {size : Int64} {chunks : List Bytes}
    (h : chunk text size = .ok chunks) : chunks.flatten = text := by
  simp only [chunk] at h
  split at h
  · cases h
  · obtain rfl := Except.ok.inj h
    exact flatten_cutEvery (effectiveSize_pos size) text

/-- The release literals are the escaped chunks between quotes. -/
theorem releaseLiterals_eq_ok_iff {text : Bytes} {size : Int64} {release : List Bytes} :
    releaseLiterals text size = .ok release ↔
      ∃ chunks, chunk text size = .ok chunks ∧
        release = chunks.map fun c => enclose (escape c) := by
  rw [releaseLiterals]
  cases chunk text size with
  | error e => simp [Except.map]
  | ok chunks => simp [Except.map, eq_comm]

/-- **The release literals read as the text**, wherever the cuts fall. -/
theorem stringValue?_release {escape? : UInt8 → Option UInt8} (hq : QuotesBack escape?)
    {text : Bytes} {size : Int64} {release : List Bytes}
    (h : releaseLiterals text size = .ok release) : stringValue? escape? release = some text := by
  obtain ⟨chunks, hchunks, rfl⟩ := releaseLiterals_eq_ok_iff.mp h
  have hread : stringValue? escape? (chunks.map fun c => enclose (escape c))
      = some (chunks.flatMap id) :=
    stringValue?_map fun c _ => by rw [literalValue?_enclose, unescape?_escape hq, id]
  rw [hread, List.flatMap_id, flatten_of_chunk hchunks]

/-! ### Debug literals -/

/-- A line as a debug literal shows it: after a space, and filled up with spaces to the width of
the widest escaped line. -/
def paddedLine (width : Nat) (line : Bytes) : Bytes :=
  Byte.space :: line ++ List.replicate (width - (escape line).width) Byte.space

/-- A debug literal reads as the padded line and a line feed. -/
theorem literalValue?_debug {width : Nat} (hwidth : width ≤ paddingLimit) (line : Bytes) :
    literalValue? simpleEscape? (enclose (Byte.space :: padTo width (escape line) ++ utf8 "\\n"))
      = some (paddedLine width line ++ [Byte.lf]) := by
  have hend : unescape? simpleEscape? (utf8 "\\n") = some [Byte.lf] := rfl
  rw [literalValue?_enclose, padTo, if_neg (Nat.not_lt.mpr hwidth), List.cons_append,
    unescape?_cons (by decide) (by decide), List.append_assoc,
    unescape?_escape_append simpleEscape?_quotesBack, unescape?_replicate_space, hend]
  simp [paddedLine]

/-- **The debug literals read as the padded lines**, each with a line feed at its end. -/
theorem stringValue?_debugLiterals {lines : List Bytes}
    (hwidth : widest (lines.map escape) ≤ paddingLimit) :
    stringValue? simpleEscape? (debugLiterals lines)
      = some (Bytes.terminated Byte.lf (lines.map (paddedLine (widest (lines.map escape))))) := by
  rw [debugLiterals, List.map_map, Bytes.terminated, List.flatMap_map]
  exact stringValue?_map fun line _ => literalValue?_debug hwidth line

/-! ### Literals on one line -/

/-- The literal stands between quotes on a line of its own. -/
def OnOneLine (literal : Bytes) : Prop := ∃ body, literal = enclose body ∧ Byte.lf ∉ body

/-- Escaping brings in no line feed. -/
theorem lf_not_mem_escape {text : Bytes} (h : Byte.lf ∉ text) : Byte.lf ∉ escape text :=
  mt (mem_escape_iff (by decide)).mp h

/-- Neither does padding. -/
theorem lf_not_mem_padTo {width : Nat} {text : Bytes} (h : Byte.lf ∉ text) :
    Byte.lf ∉ padTo width text := by
  unfold padTo
  split
  · exact fun hmem => (List.mem_append.mp hmem).elim (by decide) h
  · refine fun hmem => (List.mem_append.mp hmem).elim h fun hspace => ?_
    exact absurd (List.eq_of_mem_replicate hspace) (by decide)

theorem onOneLine_of_mem_debugLiterals {lines : List Bytes} (h : ∀ l ∈ lines, Byte.lf ∉ l)
    {literal : Bytes} (hmem : literal ∈ debugLiterals lines) : OnOneLine literal := by
  simp only [debugLiterals, List.map_map, List.mem_map] at hmem
  obtain ⟨line, hline, rfl⟩ := hmem
  refine ⟨_, rfl, fun hlf => ?_⟩
  rcases List.mem_append.mp hlf with hlf | hlf
  · rcases List.mem_cons.mp hlf with hlf | hlf
    · exact absurd hlf (by decide)
    · exact lf_not_mem_padTo (lf_not_mem_escape (h line hline)) hlf
  · exact absurd hlf (by decide)

theorem onOneLine_of_mem_release {text : Bytes} {size : Int64} {release : List Bytes}
    (htext : Byte.lf ∉ text) (h : releaseLiterals text size = .ok release)
    {literal : Bytes} (hmem : literal ∈ release) : OnOneLine literal := by
  obtain ⟨chunks, hchunks, rfl⟩ := releaseLiterals_eq_ok_iff.mp h
  obtain ⟨c, hc, rfl⟩ := List.mem_map.mp hmem
  refine ⟨_, rfl, lf_not_mem_escape fun hlf => htext ?_⟩
  rw [← flatten_of_chunk hchunks]
  exact List.mem_flatten_of_mem hc hlf

end KernelPack.Artifact
