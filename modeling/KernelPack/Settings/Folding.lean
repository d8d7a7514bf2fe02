import KernelPack.Bytes

/-!
# Folded text

A scalar of a settings document may run over several lines. Its lines are then **folded**: blanks
around a line end are dropped, a single line end becomes a space, and of several the first is
dropped and the others are kept. A `Folding` is a text under construction, with the white space that
has been seen but not yet written, because what follows decides what it stands for.
-/

namespace KernelPack.Settings

/-- A text under construction. -/
structure Folding where
  /-- What is written, the last byte first. -/
  written : Bytes := []
  /-- The blanks since then, the last first, as long as no line has ended. -/
  blanks : Bytes := []
  /-- Has a line ended since then? -/
  broken : Bool := false
  /-- Is that line end written as a space? One that is escaped is not. -/
  spaced : Bool := true
  /-- The number of line ends after that one. -/
  more : Nat := 0

namespace Folding

/-- The text with its pending white space written. -/
def settle (f : Folding) : Folding :=
  if !f.broken then { written := f.blanks ++ f.written }
  else if 0 < f.more then { written := List.replicate f.more Byte.lf ++ f.written }
  else if f.spaced then { written := Byte.space :: f.written }
  else { written := f.written }

/-- Writes bytes. -/
def write (f : Folding) (b : Bytes) : Folding :=
  { written := b.reverse ++ f.settle.written }

/-- Takes in a blank. -/
def blank (f : Folding) (b : UInt8) : Folding :=
  if f.broken then f else { f with blanks := b :: f.blanks }

/-- Takes in a line end. -/
def lineEnd (f : Folding) : Folding :=
  if f.broken then { f with more := f.more + 1 } else { f with blanks := [], broken := true }

/-- Takes in a line end that joins its two lines. -/
def escapedLineEnd (f : Folding) : Folding :=
  { f.settle with broken := true, spaced := false }

/-- The text, without white space at its end. -/
def text (f : Folding) : Bytes := f.written.reverse

/-- The text, with the white space at its end. -/
def textToEnd (f : Folding) : Bytes := f.settle.written.reverse

end Folding

end KernelPack.Settings
