/-!
# Byte strings

Kernel sources, paths, messages and generated files are **byte strings**: they need not be
valid text in any encoding, and every length is counted in bytes. This module holds the type,
the named bytes the other modules test for, and the operations on whole strings:

* cutting at a separator and joining again (`pieces`, `joinWith`);
* dropping a class of bytes at the end (`dropTrailing`);
* searching (`occursIn`);
* **leftmost, non-overlapping substitution** (`substitute`), the one scanner behind comment
  removal, blank collapsing, compaction and textual renaming.
-/

namespace KernelPack

/-- A string of bytes. -/
abbrev Bytes := List UInt8

/-- The UTF-8 encoding of a text. -/
def utf8 (s : String) : Bytes := s.toList.flatMap String.utf8EncodeChar

namespace Byte

/-- Horizontal tab. -/
def tab : UInt8 := 9
/-- Line feed, the line terminator. -/
def lf : UInt8 := 10
/-- Carriage return. -/
def cr : UInt8 := 13
/-- The space. -/
def space : UInt8 := 32
/-- The double quote. -/
def quote : UInt8 := 34
/-- The asterisk. -/
def star : UInt8 := 42
/-- The full stop. -/
def dot : UInt8 := 46
/-- The slash, also the path separator. -/
def slash : UInt8 := 47
/-- The backslash. -/
def backslash : UInt8 := 92
/-- The underscore. -/
def underscore : UInt8 := 95

/-- ASCII letters and the underscore: what may begin an identifier. -/
def isNameStart (b : UInt8) : Bool :=
  b == underscore || (97 ≤ b && b ≤ 122) || (65 ≤ b && b ≤ 90)

/-- ASCII decimal digits. -/
def isDigit (b : UInt8) : Bool := 48 ≤ b && b ≤ 57

/-- ASCII letters, digits and the underscore: the bytes of words and identifiers. -/
def isWord (b : UInt8) : Bool := isNameStart b || isDigit b

/-- Space and tab. -/
def isBlank (b : UInt8) : Bool := b == space || b == tab

end Byte

namespace Bytes

/-! ### Cutting and joining -/

/-- The parts of `b` between the bytes that separate; never empty. -/
def piecesBy (separates : UInt8 → Bool) (b : Bytes) : List Bytes :=
  let (p, ps) := b.foldr
    (fun x (p, ps) => if separates x then ([], p :: ps) else (x :: p, ps))
    (([], []) : Bytes × List Bytes)
  p :: ps

/-- The parts of `b` between the occurrences of `sep`; never empty. -/
def pieces (sep : UInt8) (b : Bytes) : List Bytes := piecesBy (· == sep) b

/-- The **words** of `b`: its maximal runs of ASCII letters, digits and underscores. -/
def words (b : Bytes) : List Bytes := (piecesBy (!Byte.isWord ·) b).filter (· ≠ [])

/-- The parts in order with `sep` between any two neighbours. -/
def joinWith (sep : Bytes) (parts : List Bytes) : Bytes := (parts.intersperse sep).flatten

/-- The string without its longest tail of bytes in the class `p`. -/
def dropTrailing (p : UInt8 → Bool) (b : Bytes) : Bytes := (b.reverse.dropWhile p).reverse

/-- The string without the given ending, or the string itself if it ends otherwise. -/
def stripEnding (ending b : Bytes) : Bytes :=
  if ending.isSuffixOf b then b.take (b.length - ending.length) else b

/-! ### Searching -/

/-- Does `needle` occur in the string as a contiguous part? -/
def occursIn (needle : Bytes) : Bytes → Bool
  | [] => needle.isEmpty
  | b :: t => needle.isPrefixOf (b :: t) || occursIn needle t

/-- The byte order of strings: the first difference decides, and a proper beginning comes
first. -/
def before : Bytes → Bytes → Bool
  | _, [] => false
  | [], _ :: _ => true
  | a :: s, b :: t => a < b || (a == b && before s t)

/-! ### Substitution -/

/-- The scanner of `substitute`: `skip` further bytes belong to the match just replaced. -/
def substituteFrom (find : Bytes → Option (Nat × Bytes)) : Nat → Bytes → Bytes
  | _, [] => []
  | skip + 1, _ :: t => substituteFrom find skip t
  | 0, b :: t =>
    match find (b :: t) with
    | none => b :: substituteFrom find 0 t
    | some (len, new) => new ++ substituteFrom find (len - 1) t

/-- Replaces the **leftmost, non-overlapping** matches. `find s` answers for a match that begins
at the head of `s`: its length, at least one, and what to put in its place. -/
def substitute (find : Bytes → Option (Nat × Bytes)) (b : Bytes) : Bytes := substituteFrom find 0 b

/-- Every leftmost, non-overlapping occurrence of the non-empty `old` becomes `new`. -/
def replaceAll (old new : Bytes) (b : Bytes) : Bytes :=
  substitute (fun s => if old.isPrefixOf s then some (old.length, new) else none) b

end Bytes

end KernelPack
