import KernelPack.Bytes

/-!
# Comments

A **block comment** begins with a slash and an asterisk and ends at the *next* slash, provided an
asterisk stands before it; a comment whose text holds a slash is no block comment here and
stays. A **line comment** runs from two slashes to the end of its line. Block comments go first,
from the left and without overlap, so a line comment inside a block comment goes with it, and
the line breaks inside a removed comment join the lines it touched.
-/

namespace KernelPack.Source

/-- The block comment that begins here: its length. -/
def blockComment? : Bytes → Option Nat
  | 47 :: 42 :: t =>
    let body := t.takeWhile (· != Byte.slash)
    if body.getLast? = some Byte.star ∧ t.contains Byte.slash then some (body.length + 3)
    else none
  | _ => none

/-- The line comment that begins here: its length. -/
def lineComment? : Bytes → Option Nat
  | 47 :: 47 :: t => some ((t.takeWhile (· != Byte.lf)).length + 2)
  | _ => none

/-- The text without the comments a recogniser finds. -/
def dropComments (comment? : Bytes → Option Nat) (text : Bytes) : Bytes :=
  Bytes.substitute (fun s => (comment? s).map (·, [])) text

/-- The lines without block comments and, if asked for, without line comments; the blanks left
at the ends of lines go too. -/
def withoutComments (lines : List Bytes) (lineComments : Bool) : List Bytes :=
  if lines.isEmpty then []
  else
    let text := dropComments blockComment? (Bytes.joinWith [Byte.lf] lines)
    let text := if lineComments then dropComments lineComment? text else text
    (Bytes.pieces Byte.lf text).map (Bytes.dropTrailing Byte.isBlank)

end KernelPack.Source
