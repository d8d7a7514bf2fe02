import KernelPack.Path.Basic
import KernelPack.Text.Rune

/-!
# Name patterns

A name pattern is matched against one component of a path: `?` stands for any character, `[…]`
for one of a set of ranges, or with `[^…]` for one outside it, a backslash takes the meaning from
the character after it, and `*` stands for any run of bytes. None of them but a set matches a
slash.

A pattern is cut at its asterisks into **segments**. A segment is placed at the *first* position
where it matches, and the choice is not revised: a later segment only ever gains from an earlier
start. The last segment has to reach the end of the name.
-/

namespace KernelPack.Glob

/-- One element of a pattern. -/
inductive Item where
  /-- A byte that stands for itself. -/
  | byte (b : UInt8)
  /-- Any character but a slash. -/
  | any
  /-- A character in one of the ranges, or in none of them. -/
  | set (negated : Bool) (ranges : List (Nat × Nat))
  deriving DecidableEq, Repr

/-- Items in a row, which float if an asterisk stands before them. -/
structure Segment where
  floating : Bool
  items : List Item
  deriving DecidableEq, Repr

/-! ### Reading patterns -/

/-- The character at the beginning of a set's bound, and what follows it: a dash or a closing
bracket has to be escaped, and a bound is never the last thing in a pattern. -/
def bound? (p : Bytes) : Option (Nat × Bytes) :=
  let body := match p with
    | 92 :: t => some t
    | 45 :: _ => none
    | 93 :: _ => none
    | _ => some p
  match body with
  | none | some [] => none
  | some (b :: t) =>
    match Rune.first b t with
    | (.stray _, _) => none
    | (.scalar c, n) => if (t.drop n).isEmpty then none else some (c.toNat, t.drop n)

/-- The ranges of a set up to its closing bracket, and what follows that. `fuel` bounds their
number. -/
def ranges? : (fuel : Nat) → List (Nat × Nat) → Bytes → Option (List (Nat × Nat) × Bytes)
  | 0, _, _ => none
  | fuel + 1, acc, p =>
    if p.head? = some 93 ∧ acc ≠ [] then some (acc.reverse, p.tail)
    else do
      let (lo, p) ← bound? p
      if p.head? = some 45 then
        let (hi, p) ← bound? p.tail
        ranges? fuel ((lo, hi) :: acc) p
      else ranges? fuel ((lo, lo) :: acc) p

/-- A set after its opening bracket, and what follows it. -/
def set? (p : Bytes) : Option (Item × Bytes) :=
  let negated := p.head? = some 94
  let body := if negated then p.tail else p
  (ranges? (body.length + 1) [] body).map fun (rs, rest) => (.set negated rs, rest)

/-- The segments of a pattern, of which `items` and whether they float are read already. `fuel`
bounds the length of what is left. -/
def parseFrom : (fuel : Nat) → Bool → List Item → Bytes → Option (List Segment)
  | 0, _, _, _ => none
  | _ + 1, floating, items, [] => some [⟨floating, items.reverse⟩]
  | fuel + 1, floating, items, b :: t =>
    if b = Byte.star then
      if items.isEmpty then parseFrom fuel true [] t
      else (parseFrom fuel true [] t).map (⟨floating, items.reverse⟩ :: ·)
    else if b = 63 then parseFrom fuel floating (.any :: items) t
    else if b = 91 then do
      let (item, rest) ← set? t
      parseFrom fuel floating (item :: items) rest
    else if b = Byte.backslash then
      match t with
      | [] => none
      | c :: u => parseFrom fuel floating (.byte c :: items) u
    else parseFrom fuel floating (.byte b :: items) t

/-- The segments of a well-formed pattern. -/
def parse? (p : Bytes) : Option (List Segment) := parseFrom (p.length + 1) false [] p

/-! ### Matching names -/

/-- What is left of a name after items in a row. -/
def matchItems : List Item → Bytes → Option Bytes
  | [], name => some name
  | _ :: _, [] => none
  | .byte b :: items, c :: t => if b = c then matchItems items t else none
  | .any :: items, c :: t =>
    if c = Byte.slash then none else matchItems items (t.drop (Rune.first c t).2)
  | .set negated ranges :: items, c :: t =>
    let r := Rune.first c t
    let n := r.1.char.toNat
    if ranges.any (fun (lo, hi) => lo ≤ n && n ≤ hi) != negated then
      matchItems items (t.drop r.2)
    else none

/-- Places a segment: at the beginning or, if it floats, at the first later position before a
slash. The last segment has to reach the end. -/
def place (seg : Segment) (isLast : Bool) : Bytes → Option Bytes
  | [] => accept []
  | b :: t =>
    match accept (b :: t) with
    | some rest => some rest
    | none => if seg.floating && b != Byte.slash then place seg isLast t else none
where
  /-- The segment at this very place. -/
  accept (name : Bytes) : Option Bytes :=
    match matchItems seg.items name with
    | some rest => if isLast && !rest.isEmpty then none else some rest
    | none => none

/-- Do the segments cover the name? A trailing asterisk covers whatever holds no slash. -/
def covers : List Segment → Bytes → Bool
  | [], name => name.isEmpty
  | seg :: segs, name =>
    if seg.floating && seg.items.isEmpty then !name.contains Byte.slash
    else match place seg segs.isEmpty name with
      | some rest => covers segs rest
      | none => false

/-- Has the text a character with a meaning in patterns? -/
def isPattern (p : Bytes) : Bool := p.any fun b => b == Byte.star || b == 63 || b == 91

/-- Has the text a character with a meaning in patterns, or a backslash? -/
def hasMeaning (p : Bytes) : Bool := isPattern p || p.contains Byte.backslash

end KernelPack.Glob
