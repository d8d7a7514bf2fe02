import KernelPack.Bytes

/-!
# Source lines

A kernel source is read as lines. A line ends at a line feed or at the end of the text, a
final line feed starts no further line, and the spaces, tabs and carriage returns at the end of
a line are dropped, so it does not matter which line ending the text uses. The first lines, an
editor banner, may be skipped. A line of more than `lineLimit` bytes is refused wherever it
stands: such a file is no kernel source.
-/

namespace KernelPack.Source

/-- The most bytes a line may have before its terminator. -/
def lineLimit : Nat := 1048575

/-- Why a text cannot be read as a kernel source. -/
inductive ReadError where
  /-- Some line exceeds the limit. -/
  | lineTooLong
  deriving DecidableEq, Repr

/-- What is wrong with the text, in words. -/
def ReadError.message : ReadError → Bytes
  | .lineTooLong => utf8 "bufio.Scanner: token too long"

/-- The bytes dropped at the end of a line: space, tab and carriage return. -/
def isLineEnd (b : UInt8) : Bool := b == Byte.space || b == Byte.tab || b == Byte.cr

/-- The lines of a text as they stand, without their terminators. -/
def rawLines (text : Bytes) : List Bytes :=
  let ps := Bytes.pieces Byte.lf text
  if ps.getLast? = some [] then ps.dropLast else ps

/-- Does a line fit? -/
def fits (line : Bytes) : Bool := line.length ≤ lineLimit

/-- A line without the blanks at its end. One carriage return there is part of the terminator and
goes with it. -/
def trimLine (line : Bytes) : Bytes :=
  Bytes.dropTrailing isLineEnd (Bytes.stripEnding [Byte.cr] line)

/-- Reads on after `count` lines, of which those in `kept` were kept, the last one first. A line has
to fit also if it is skipped. -/
def readFrom (header : Int) (count : Nat) (kept : List Bytes) :
    List Bytes → Except ReadError (List Bytes)
  | [] => .ok kept.reverse
  | line :: rest =>
    if fits line then
      let count := count + 1
      if count ≤ header then readFrom header count kept rest
      else readFrom header count (trimLine line :: kept) rest
    else .error .lineTooLong

/-- The lines of a source after the first `header`, without the blanks at their ends. -/
def read (text : Bytes) (header : Int) : Except ReadError (List Bytes) :=
  readFrom header 0 [] (rawLines text)

end KernelPack.Source
