import KernelPack.Text.Rune

/-!
# String literals

A packed kernel is written as C string literals. Inside a literal the quote and the backslash
take a backslash, and every other byte stands for itself.

* The **release** form cuts the text into chunks of a fixed number of bytes and writes each chunk
  as a literal of its own; escaping chunk by chunk keeps an escape from straddling two literals.
* The **debug** form writes one literal per source line, with a space before the line, padding up
  to the widest line, and a line feed at the end, so that the literals line up.

The room for the chunks is reckoned in 64-bit arithmetic. Where that leaves the range there is no
error to return: the program **crashes**.
-/

namespace KernelPack

/-- A crash: an error that nobody returns and nothing catches. The whole program ends there and
then, and whatever would have come after is not done. -/
inductive Crash where
  /-- The room for a list comes out negative in 64-bit arithmetic. -/
  | capacity
  deriving DecidableEq, Repr

/-- The crash in words. -/
def Crash.message : Crash → Bytes
  | .capacity => utf8 "runtime error: makeslice: cap out of range"

namespace Artifact

/-! ### Escaping -/

/-- A byte inside a literal. -/
def escapeByte (b : UInt8) : Bytes :=
  if b = Byte.backslash ∨ b = Byte.quote then [Byte.backslash, b] else [b]

/-- A text inside a literal. -/
def escape (text : Bytes) : Bytes := text.flatMap escapeByte

/-- A text between quotes. -/
def enclose (body : Bytes) : Bytes := [Byte.quote] ++ body ++ [Byte.quote]

/-! ### Chunks -/

/-- The number of bytes per release literal, unless told otherwise. -/
def standardChunkSize : Int64 := 76

/-- The size that counts: the given one if it is positive, else the default. -/
def effectiveSize (size : Int64) : Int64 := if size ≤ 0 then standardChunkSize else size

/-- The room set aside for the chunks, **in 64-bit arithmetic**: the number of sizes it takes to
cover the length, where the sum may wrap. -/
def chunkCapacity (length : Nat) (size : Int64) : Int64 := (Int64.ofNat length + size - 1) / size

/-- The text cut after every `n` bytes. -/
def cutEvery (n : Nat) (text : Bytes) : List Bytes :=
  if _h : n = 0 ∨ text = [] then []
  else text.take n :: cutEvery n (text.drop n)
termination_by text.length
decreasing_by
  have : 0 < text.length := List.length_pos_iff.2 fun hnil => _h (Or.inr hnil)
  rw [List.length_drop]
  omega

/-- The chunks of a text, unless setting room aside for them crashes. -/
def chunk (text : Bytes) (size : Int64) : Except Crash (List Bytes) :=
  let size := effectiveSize size
  if chunkCapacity text.length size < 0 then .error .capacity
  else .ok (cutEvery size.toInt.toNat text)

/-- The release literals of a text. -/
def releaseLiterals (text : Bytes) (size : Int64) : Except Crash (List Bytes) :=
  (chunk text size).map (·.map fun c => enclose (escape c))

/-! ### Debug literals -/

/-- The widest padding that is carried out. -/
def paddingLimit : Nat := 1000000

/-- What stands in place of padding beyond the limit. -/
def paddingRefused : Bytes := utf8 "%!(BADWIDTH)"

/-- The text filled up with spaces on the right to a width in runes. -/
def padTo (width : Nat) (text : Bytes) : Bytes :=
  if paddingLimit < width then paddingRefused ++ text
  else text ++ List.replicate (width - text.width) Byte.space

/-- The width of the widest text. -/
def widest (texts : List Bytes) : Nat := texts.foldl (fun w t => max w t.width) 0

/-- The debug literals of source lines. -/
def debugLiterals (lines : List Bytes) : List Bytes :=
  let bodies := lines.map escape
  bodies.map fun b => enclose (Byte.space :: padTo (widest bodies) b ++ utf8 "\\n")

end Artifact

end KernelPack
