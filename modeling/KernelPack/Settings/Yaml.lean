import KernelPack.Settings.Folding
import KernelPack.Settings.Value
import KernelPack.Text.Rune

/-!
# Reading YAML

A settings document in YAML, restricted to what settings need: records and lists in **block** form,
laid out by indentation, and in **flow** form, in brackets; scalars as plain words or in quotes;
comments; a document mark before the first document, which is the only one read. Anchors, tags,
block scalars, directives and keys that are no scalars are refused, as is a record with a key twice.

The reader walks a `Cursor` over the text. `column` is what block form is about: the entries of a
block stand at one column, and what belongs to an entry stands further to the right. A block may
begin only where nothing but indentation or list dashes precede it on its line; `fresh` tells
whether that is so. A document that cannot be read has no value, whatever is wrong with it.
-/

namespace KernelPack.Settings.Yaml

/-! ### Places in a document -/

/-- A place in a document. -/
structure Cursor where
  /-- What follows. -/
  rest : Bytes
  line : Nat
  column : Nat

/-- Is the text at the end of a word: a blank, a line end, or nothing? -/
def endsWord : Bytes → Bool
  | [] => true
  | b :: _ => Byte.isBlank b || b == Byte.lf

/-- Is a mark of three equal bytes at the head of the text? -/
def isMark (b : UInt8) (t : Bytes) : Bool := [b, b, b].isPrefixOf t && endsWord (t.drop 3)

/-- Does the text begin with a mark between documents? -/
def isDocumentMark (t : Bytes) : Bool := isMark 45 t || isMark Byte.dot t

namespace Cursor

/-- One byte on. -/
def step (c : Cursor) (b : UInt8) (t : Bytes) : Cursor :=
  if b == Byte.lf then ⟨t, c.line + 1, 0⟩ else ⟨t, c.line, c.column + 1⟩

/-- Up to the place where `rest` follows. -/
def upTo (c : Cursor) (rest : Bytes) : Cursor :=
  (c.rest.take (c.rest.length - rest.length)).foldl
    (fun c b => c.step b (c.rest.drop 1)) c

/-- Is the document at its end? -/
def atEnd (c : Cursor) : Bool := c.rest.isEmpty || (c.column == 0 && isDocumentMark c.rest)

/-- Does the byte stand here as an indicator in block form? -/
def indicates (c : Cursor) (b : UInt8) : Bool := c.rest.head? == some b && endsWord (c.rest.drop 1)

end Cursor

/-- Passes over blanks, comments and line ends, with `comment` telling whether a comment is being
passed. In block form a tab is no indentation. -/
def gapFrom (flow : Bool) (line column : Nat) (fresh comment : Bool) : Bytes → Cursor × Bool
  | [] => (⟨[], line, column⟩, fresh)
  | b :: t =>
    if b == Byte.lf then gapFrom flow (line + 1) 0 (fresh || !flow) false t
    else if comment || b == Byte.space || (b == Byte.tab && (flow || !fresh)) then
      gapFrom flow line (column + 1) fresh comment t
    else if b == 35 then gapFrom flow line (column + 1) fresh true t
    else (⟨b :: t, line, column⟩, fresh)

/-- Passes over what separates tokens; tells also whether a block may begin there. -/
def gap (flow fresh : Bool) (c : Cursor) : Cursor × Bool :=
  gapFrom flow c.line c.column fresh false c.rest

/-! ### Scalars -/

/-- The text in single quotes, after the first. A quote inside is written twice. -/
def singleFrom (f : Folding) (lineStart : Bool) : Bytes → Option (Bytes × Bytes)
  | [] => none
  | b :: t =>
    if lineStart && isDocumentMark (b :: t) then none
    else if b == Byte.lf then singleFrom f.lineEnd true t
    else if Byte.isBlank b then singleFrom (f.blank b) false t
    else if b == 39 then
      match t with
      | 39 :: r => singleFrom (f.write [39]) false r
      | _ => some (f.textToEnd, t)
    else singleFrom (f.write [b]) false t

/-- The character that a letter after a backslash stands for. -/
def escape? (b : UInt8) : Option Bytes :=
  match Char.ofNat b.toNat with
  | '0' => some [0]
  | 'a' => some [7]
  | 'b' => some [8]
  | 't' | '\t' => some [9]
  | 'n' => some [10]
  | 'v' => some [11]
  | 'f' => some [12]
  | 'r' => some [13]
  | 'e' => some [27]
  | ' ' => some [32]
  | '"' => some [34]
  | '\'' => some [39]
  | '/' => some [47]
  | '\\' => some [92]
  | 'N' => some (utf8 "\u0085")
  | '_' => some (utf8 "\u00a0")
  | 'L' => some (utf8 "\u2028")
  | 'P' => some (utf8 "\u2029")
  | _ => none

/-- The number of hexadecimal digits after a letter that announces some. -/
def codeWidth? (b : UInt8) : Option Nat :=
  if b == 120 then some 2 else if b == 117 then some 4 else if b == 85 then some 8 else none

/-- The character whose code these hexadecimal digits spell. -/
def ofCode? (digits : Bytes) : Option Bytes := do
  let ds ← digits.mapM Numeral.digitValue?
  let n := ds.foldl (fun n d => n * 16 + d) 0
  if n.isValidChar then some (String.utf8EncodeChar (Char.ofNat n)) else none

/-- What a text in double quotes is passing through. -/
inductive Passing where
  /-- Ordinary text; is it at the start of a line? -/
  | text (lineStart : Bool)
  /-- A backslash came last. -/
  | backslash
  /-- The code of a character, of which so many digits are to come. -/
  | code (digits : Bytes) (more : Nat)

/-- The text in double quotes, after the first. -/
def doubleFrom (f : Folding) : Passing → Bytes → Option (Bytes × Bytes)
  | _, [] => none
  | .backslash, b :: t =>
    if b == Byte.lf then doubleFrom f.escapedLineEnd (.text true) t
    else match codeWidth? b with
      | some n => doubleFrom f (.code [] n) t
      | none => match escape? b with
        | some new => doubleFrom (f.write new) (.text false) t
        | none => none
  | .code digits more, b :: t =>
    if more ≤ 1 then
      match ofCode? (digits ++ [b]) with
      | some new => doubleFrom (f.write new) (.text false) t
      | none => none
    else doubleFrom f (.code (digits ++ [b]) (more - 1)) t
  | .text lineStart, b :: t =>
    if lineStart && isDocumentMark (b :: t) then none
    else if b == Byte.lf then doubleFrom f.lineEnd (.text true) t
    else if Byte.isBlank b then doubleFrom (f.blank b) (.text false) t
    else if b == Byte.quote then some (f.textToEnd, t)
    else if b == Byte.backslash then doubleFrom f .backslash t
    else doubleFrom (f.write [b]) (.text false) t

/-- Does a plain scalar end before the byte `b` that `t` follows? -/
def endsPlain (flow : Bool) (b : UInt8) (t : Bytes) : Bool :=
  (b == 58 && endsWord t) || (flow && [44, 63, 91, 93, 123, 125].contains b)

/-- A plain scalar. Its further lines stand at column `indent` or to the right of it, in block form.
`tail` is what follows the text so far; `spaced` tells whether white space came last. -/
def plainFrom (flow : Bool) (indent : Nat) (f : Folding) (tail : Bytes) (column : Nat)
    (spaced : Bool) : Bytes → Option (Bytes × Bytes)
  | [] => some (f.text, tail)
  | b :: t =>
    if b == Byte.lf then plainFrom flow indent f.lineEnd tail 0 true t
    else if Byte.isBlank b then
      if f.broken && column < indent && b == Byte.tab then none
      else plainFrom flow indent (f.blank b) tail (column + 1) true t
    else if spaced && ((f.broken && !flow && column < indent) || b == 35
        || (column == 0 && isDocumentMark (b :: t))) then some (f.text, tail)
    else if endsPlain flow b t then some (f.text, tail)
    else plainFrom flow indent (f.write [b]) t (column + 1) false t

/-- Can a plain scalar begin with this byte, before `t`? -/
def beginsPlain (flow : Bool) (b : UInt8) (t : Bytes) : Bool :=
  if b == 45 then !endsWord t
  else if b == 63 || b == 58 then !flow && !endsWord t
  else !(utf8 ",[]\x7b\x7d#&*!|>'\"%@\x60\t\n ").contains b

/-- A scalar: its text, its value, and the place after it. The text is what it is as a key. -/
def scalar? (flow : Bool) (indent : Nat) (c : Cursor) : Option (Bytes × Value × Cursor) :=
  match c.rest with
  | [] => none
  | b :: t =>
    if b == 39 then
      (singleFrom {} false t).map fun (w, rest) => (w, .text w, c.upTo rest)
    else if b == Byte.quote then
      (doubleFrom {} (.text false) t).map fun (w, rest) => (w, .text w, c.upTo rest)
    else if beginsPlain flow b t then
      (plainFrom flow indent {} c.rest c.column false c.rest).map fun (w, rest) =>
        (w, .ofWord w, c.upTo rest)
    else none

/-! ### Collections -/

/-- A record, unless a key occurs twice. -/
def record? (fields : List Field) : Option Value :=
  if (fields.map Prod.fst).Nodup then some (.record fields) else none

/-- A node in flow form: its text if it is a scalar, its value, and the place after it. -/
abbrev FlowNode := Option Bytes × Value × Cursor

mutual

/-- The node in flow form at a place. `fuel` bounds the number of nested steps. -/
def flowNode? : (fuel : Nat) → Cursor → Option FlowNode
  | 0, _ => none
  | fuel + 1, c =>
    if c.atEnd then none
    else match c.rest with
      | 91 :: t => do
        let (items, c) ← flowItems? fuel (c.step 91 t)
        return (none, .list items, c)
      | 123 :: t => do
        let (fields, c) ← flowFields? fuel (c.step 123 t)
        return (none, ← record? fields, c)
      | _ => do
        let (w, v, c) ← scalar? true 0 c
        return (some w, v, c)

/-- The value after a colon in flow form, which may be left out. -/
def flowValue? : (fuel : Nat) → Cursor → Option (Value × Cursor)
  | 0, _ => none
  | fuel + 1, c => do
    let (c, _) := gap true false c
    match c.rest with
    | 44 :: _ | 93 :: _ | 125 :: _ => return (.null, c)
    | _ =>
      let (_, v, c) ← flowNode? fuel c
      return (v, c)

/-- The items of a list in flow form, up to the bracket that ends it. An item may be a record of
one field, without braces. -/
def flowItems? : (fuel : Nat) → Cursor → Option (List Value × Cursor)
  | 0, _ => none
  | fuel + 1, c => do
    let (c, _) := gap true false c
    match c.rest with
    | 93 :: t => return ([], c.step 93 t)
    | _ =>
      let (key, v, d) ← flowNode? fuel c
      let (d, _) := gap true false d
      let (v, d) ← match d.rest, key with
        | 58 :: t, some w =>
          if d.line ≠ c.line then none
          else (flowValue? fuel (d.step 58 t)).map fun (v, d) =>
            (Value.record [(w, v)], (gap true false d).1)
        | _, _ => some (v, d)
      match d.rest with
      | 44 :: t =>
        let (vs, d) ← flowItems? fuel (d.step 44 t)
        return (v :: vs, d)
      | 93 :: t => return ([v], d.step 93 t)
      | _ => none

/-- The fields of a record in flow form, up to the brace that ends it. -/
def flowFields? : (fuel : Nat) → Cursor → Option (List Field × Cursor)
  | 0, _ => none
  | fuel + 1, c => do
    let (c, _) := gap true false c
    match c.rest with
    | 125 :: t => return ([], c.step 125 t)
    | _ =>
      let (key, _, d) ← flowNode? fuel c
      let w ← key
      let (d, _) := gap true false d
      let (v, d) ← match d.rest with
        | 58 :: t =>
          if d.line ≠ c.line then none
          else (flowValue? fuel (d.step 58 t)).map fun (v, d) => (v, (gap true false d).1)
        | _ => some (Value.null, d)
      match d.rest with
      | 44 :: t =>
        let (fs, d) ← flowFields? fuel (d.step 44 t)
        return ((w, v) :: fs, d)
      | 125 :: t => return ([(w, v)], d.step 125 t)
      | _ => none

end

/-- The place after the colon that makes the scalar before `d` a key, if there is one. A key and
its colon stand on one line. -/
def afterColon? (start d : Cursor) : Option Cursor :=
  let d := d.upTo (d.rest.dropWhile Byte.isBlank)
  if d.indicates 58 && d.line == start.line then some (d.step 58 (d.rest.drop 1)) else none

mutual

/-- The node in block form at a place, where `indent` is the first column that belongs to it. -/
def blockNode? : (fuel : Nat) → (indent : Nat) → (fresh : Bool) → Cursor → Option (Value × Cursor)
  | 0, _, _, _ => none
  | fuel + 1, indent, fresh, c =>
    if c.rest.head? == some 91 || c.rest.head? == some 123 then do
      let (_, v, d) ← flowNode? fuel c
      if (afterColon? c d).isSome then none else some (v, d)
    else if c.indicates 45 then
      if fresh then do
        let (items, d) ← blockItems? fuel c.column c
        return (.list items, d)
      else none
    else do
      let (_, v, d) ← scalar? false indent c
      if (afterColon? c d).isSome then
        if fresh then
          let (fields, d) ← blockFields? fuel c.column c
          return (← record? fields, d)
        else none
      else return (v, d)

/-- The items of a list in block form, whose dashes stand at a column. -/
def blockItems? : (fuel : Nat) → (column : Nat) → Cursor → Option (List Value × Cursor)
  | 0, _, _ => none
  | fuel + 1, column, c => do
    let (d, _) := gap false true (c.step 45 (c.rest.drop 1))
    let (v, d) ← if d.atEnd || (d.line ≠ c.line && d.column ≤ column) then some (.null, d)
      else blockNode? fuel (column + 1) true d
    let (d, _) := gap false false d
    if d.atEnd || d.column < column then return ([v], d)
    else if d.column == column then
      if d.indicates 45 then
        let (vs, d) ← blockItems? fuel column d
        return (v :: vs, d)
      else return ([v], d)
    else none

/-- The value after the colon of a field in block form, whose key stands at a column. The dashes of
a list may stand at the column of the key. -/
def blockValue? : (fuel : Nat) → (column : Nat) → Cursor → Option (Value × Cursor)
  | 0, _, _ => none
  | fuel + 1, column, c => do
    let (d, fresh) := gap false false c
    if d.atEnd then return (.null, d)
    else if d.line == c.line || column < d.column then blockNode? fuel (column + 1) fresh d
    else if d.column == column && d.indicates 45 then
      let (items, d) ← blockItems? fuel column d
      return (.list items, d)
    else return (.null, d)

/-- The fields of a record in block form, whose keys stand at a column. -/
def blockFields? : (fuel : Nat) → (column : Nat) → Cursor → Option (List Field × Cursor)
  | 0, _, _ => none
  | fuel + 1, column, c => do
    let (w, _, d) ← scalar? false (column + 1) c
    let (v, d) ← blockValue? fuel column (← afterColon? c d)
    let (d, _) := gap false false d
    if d.atEnd || d.column < column then return ([(w, v)], d)
    else if d.column == column then
      let (fs, d) ← blockFields? fuel column d
      return ((w, v) :: fs, d)
    else none

end

/-! ### Documents -/

/-- May the character stand in a document? -/
def isAllowed (c : Char) : Bool :=
  c == '\t' || c == '\n' || c == '\r' || c == '\u0085' || (' ' ≤ c && c ≤ '~')
    || ('\u00a0' ≤ c && c != '\uFEFF' && c != '\uFFFE' && c != '\uFFFF')

/-- A rune of a text whose line ends are all alike. -/
def lineEnds : List Rune → Bytes
  | .scalar '\r' :: .scalar '\n' :: t => Byte.lf :: lineEnds t
  | .scalar c :: t =>
    if c == '\r' || c == '\u0085' then Byte.lf :: lineEnds t
    else String.utf8EncodeChar c ++ lineEnds t
  | .stray _ :: t => lineEnds t
  | [] => []

/-- The text of a document with all line ends alike, if it is a text that documents consist of. -/
def prepare? (b : Bytes) : Option Bytes :=
  let rs := Rune.decode b
  let rs := if rs.head? == some (.scalar '\uFEFF') then rs.drop 1 else rs
  if rs.all fun | .scalar c => isAllowed c | .stray _ => false then some (lineEnds rs) else none

/-- The value of the node at a place, which is all there is in its document. What follows a
document that is in flow form is never looked at. -/
def rootNode? (fuel : Nat) (fresh : Bool) (c : Cursor) : Option Value :=
  if c.atEnd then some .null
  else do
    let (v, d) ← blockNode? fuel 0 fresh c
    if c.rest.head? == some 123 || (gap false false d).1.atEnd then some v else none

/-- The value of the first document of a text. -/
def parse? (b : Bytes) : Option Value := do
  let text ← prepare? b
  let fuel := 4 * text.length + 8
  let (c, _) := gap false true ⟨text, 0, 0⟩
  if c.column == 0 && isMark 45 c.rest then
    let (d, fresh) := gap false false (c.upTo (c.rest.drop 3))
    rootNode? fuel fresh d
  else rootNode? fuel true c

end KernelPack.Settings.Yaml
