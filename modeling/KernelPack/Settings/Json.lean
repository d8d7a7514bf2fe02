import KernelPack.Settings.Value
import KernelPack.Text.Rune

/-!
# Reading JSON

A settings document in JSON. Every number is read as one of double precision, also a whole one; a
stray byte or half of a surrogate pair in a string is read as U+FFFD; of several fields with one
key the last counts. A document that is malformed, or that holds a number too large to be
represented, has no value.
-/

namespace KernelPack.Settings.Json

/-- Passes over white space. -/
def skip (b : Bytes) : Bytes := b.dropWhile fun x => [9, 10, 13, 32].contains x

/-! ### Strings -/

/-- The value of four hexadecimal digits, and the rest. -/
def unit? : Bytes → Option (Nat × Bytes)
  | a :: b :: c :: d :: t => do
    let ds ← [a, b, c, d].mapM Numeral.digitValue?
    return (ds.foldl (fun n d => n * 16 + d) 0, t)
  | _ => none

/-- The character that a letter after a backslash stands for. -/
def escape? (b : UInt8) : Option UInt8 :=
  match Char.ofNat b.toNat with
  | '"' => some 34
  | '\\' => some 92
  | '/' => some 47
  | 'b' => some 8
  | 'f' => some 12
  | 'n' => some 10
  | 'r' => some 13
  | 't' => some 9
  | _ => none

/-- Is the code unit the first half of a pair? -/
def isHigh (u : Nat) : Bool := 0xD800 ≤ u && u < 0xDC00

/-- Is the code unit the second half of a pair? -/
def isLow (u : Nat) : Bool := 0xDC00 ≤ u && u < 0xE000

/-- The character of a code, U+FFFD if there is none. -/
def ofUnit (u : Nat) : Bytes :=
  String.utf8EncodeChar (if u.isValidChar then Char.ofNat u else '\uFFFD')

/-- The text of code units: pairs are put together, and halves of pairs become U+FFFD. -/
def ofUnits : List Nat → Bytes
  | [] => []
  | [u] => ofUnit u
  | u :: v :: t =>
    if isHigh u && isLow v then
      ofUnit (0x10000 + (u - 0xD800) * 0x400 + (v - 0xDC00)) ++ ofUnits t
    else ofUnit u ++ ofUnits (v :: t)

/-- The contents of a string after its first quote, and the rest. `units` are the code units that
have just been read from escapes, the last first. -/
def stringFrom : (fuel : Nat) → (units : List Nat) → Bytes → Option (Bytes × Bytes)
  | 0, _, _ => none
  | _, _, [] => none
  | fuel + 1, units, b :: t =>
    let before := ofUnits units.reverse
    if b == Byte.quote then some (before, t)
    else if b < 32 then none
    else if b == Byte.backslash then
      match t with
      | 117 :: t => do
        let (u, t) ← unit? t
        stringFrom fuel (u :: units) t
      | e :: t => do
        let new ← escape? e
        let (s, t) ← stringFrom fuel [] t
        return (before ++ new :: s, t)
      | [] => none
    else do
      let (s, t) ← stringFrom fuel [] t
      return (before ++ b :: s, t)

/-- The bytes with every stray byte replaced by U+FFFD. -/
def repaired (b : Bytes) : Bytes := Bytes.ofChars b.chars

/-- A string after its first quote, and the rest. -/
def string? (b : Bytes) : Option (Bytes × Bytes) :=
  (stringFrom (b.length + 1) [] b).map fun (s, t) => (repaired s, t)

/-! ### Numbers -/

/-- The bytes that numbers consist of. -/
def isNumberByte (b : UInt8) : Bool := Byte.isDigit b || [43, 45, 46, 69, 101].contains b

/-- Is the numeral, its sign apart, one of the format: no needless zero in front, and digits on
both sides of a point? -/
def isNumeral (w : Bytes) : Bool :=
  let whole := w.takeWhile Byte.isDigit
  let rest := w.dropWhile Byte.isDigit
  !whole.isEmpty && (whole.head? != some 48 || whole.length == 1) && match rest with
    | 46 :: d :: _ => Byte.isDigit d
    | [46] => false
    | _ => true

/-- The number that a text begins with, and the rest. -/
def number? (b : Bytes) : Option (Value × Bytes) := do
  let w := b.takeWhile isNumberByte
  let size := if w.head? == some 45 then w.drop 1 else w
  if isNumeral size then
    return (.number (← Double.parse? w), b.dropWhile isNumberByte)
  else none

/-! ### Documents -/

/-- The fields with one more, which replaces an earlier one of its key. -/
def put (fields : List Field) (f : Field) : List Field :=
  if fields.any (·.1 == f.1) then fields.map fun g => if g.1 == f.1 then f else g
  else fields ++ [f]

mutual

/-- The value that a text begins with, and the rest. `fuel` bounds the number of nested steps. -/
def value? : (fuel : Nat) → Bytes → Option (Value × Bytes)
  | 0, _ => none
  | fuel + 1, b =>
    match skip b with
    | 34 :: t => (string? t).map fun (s, t) => (.text s, t)
    | 91 :: t =>
      if (skip t).head? == some 93 then some (.list [], (skip t).drop 1)
      else (items? fuel t).map fun (vs, t) => (.list vs, t)
    | 123 :: t =>
      if (skip t).head? == some 125 then some (.record [], (skip t).drop 1)
      else (fields? fuel [] t).map fun (fs, t) => (.record fs, t)
    | 110 :: 117 :: 108 :: 108 :: t => some (.null, t)
    | 116 :: 114 :: 117 :: 101 :: t => some (.truth true, t)
    | 102 :: 97 :: 108 :: 115 :: 101 :: t => some (.truth false, t)
    | t => number? t

/-- The items of a list, up to the bracket that ends it. -/
def items? : (fuel : Nat) → Bytes → Option (List Value × Bytes)
  | 0, _ => none
  | fuel + 1, b => do
    let (v, t) ← value? fuel b
    match skip t with
    | 44 :: t =>
      let (vs, t) ← items? fuel t
      return (v :: vs, t)
    | 93 :: t => return ([v], t)
    | _ => none

/-- The fields of a record after those read already, up to the brace that ends it. -/
def fields? : (fuel : Nat) → List Field → Bytes → Option (List Field × Bytes)
  | 0, _, _ => none
  | fuel + 1, fs, b => do
    match skip b with
    | 34 :: t =>
      let (key, t) ← string? t
      match skip t with
      | 58 :: t =>
        let (v, t) ← value? fuel t
        match skip t with
        | 44 :: t => fields? fuel (put fs (key, v)) t
        | 125 :: t => return (put fs (key, v), t)
        | _ => none
      | _ => none
    | _ => none

end

/-- The value of a document. -/
def parse? (b : Bytes) : Option Value := do
  let (v, t) ← value? (2 * b.length + 2) b
  if (skip t).isEmpty then return v else none

end KernelPack.Settings.Json
