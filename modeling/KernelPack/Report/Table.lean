import KernelPack.Text.Rune

/-!
# Aligned tables

A table is written as text in which tabs end cells and line feeds end lines, and is laid out in
columns. The last cell of a line belongs to no column. A **column block** is a run of consecutive
lines that all have a cell in some column; within a block every cell is filled up with spaces to
the width of the widest one and a gap.

Texts in cells may hold control characters of their own: a vertical tab ends a cell too, a form
feed ends a line and the layout with it, and so does a line with a single cell. The byte `0xFF`
brackets a stretch of a cell in which no other byte has a meaning, and does not count for the
width.
-/

namespace KernelPack.Table

/-- The spaces between columns, at least. -/
def gap : Nat := 2

/-- The byte that brackets literal stretches. -/
def bracket : UInt8 := 0xFF

/-- A cell: its text and how wide it shows. -/
structure Cell where
  text : Bytes
  width : Nat
  deriving DecidableEq, Repr

/-- The cells of a line. -/
abbrev Line := List Cell

/-! ### Layout -/

/-- Has the line a cell in column `k`? -/
def hasColumn (k : Nat) (l : Line) : Bool := k + 1 < l.length

/-- The width of the widest cell of column `k`. -/
def widestIn (k : Nat) (ls : List Line) : Nat :=
  ls.foldl (fun w l => max w ((l[k]?.map Cell.width).getD 0)) 0

/-- The cells of a line from column `k` on, between the lines before it, nearest first, and the
lines after it. -/
def layCells (before after : List Line) (line : Line) : Nat → List Cell → Bytes
  | _, [] => []
  | _, [c] => c.text
  | k, c :: cs =>
    let block := before.takeWhile (hasColumn k) ++ line :: after.takeWhile (hasColumn k)
    c.text ++ List.replicate (widestIn k block + gap - c.width) Byte.space
      ++ layCells before after line (k + 1) cs

/-- The lines laid out, each as one text. -/
def layLines (before : List Line) : List Line → List Bytes
  | [] => []
  | l :: after => layCells before after l 0 l :: layLines (l :: before) after

/-! ### Cells from text -/

/-- What has been read of a table: the text laid out already, the lines of the current layout, the
cells of the current line and the text of the current cell, each last first, and whether a literal
stretch is open. -/
structure Reading where
  done : Bytes := []
  lines : List Line := []
  cells : Line := []
  text : Bytes := []
  literal : Bool := false
  brackets : Nat := 0

namespace Reading

/-- The cell read so far. -/
def cell (r : Reading) : Cell :=
  let text := r.text.reverse
  ⟨text, Bytes.width text - 2 * r.brackets⟩

/-- Ends the current cell. -/
def endCell (r : Reading) : Reading :=
  { r with cells := r.cell :: r.cells, text := [], brackets := 0 }

/-- Lays out the lines read so far. -/
def flush (r : Reading) : Reading :=
  { r with
    done := r.done ++ (layLines [] r.lines.reverse).flatMap (· ++ [Byte.lf]),
    lines := [] }

/-- Ends the current line; `final` ends the layout too, as a lone cell does. -/
def endLine (r : Reading) (final : Bool) : Reading :=
  let r := r.endCell
  let lone := r.cells.length = 1
  let r := { r with lines := r.cells.reverse :: r.lines, cells := [] }
  if final ∨ lone then r.flush else r

/-- Reads one byte. -/
def step (r : Reading) (b : UInt8) : Reading :=
  if r.literal then
    if b = bracket then
      { r with text := b :: r.text, literal := false, brackets := r.brackets + 1 }
    else { r with text := b :: r.text }
  else if b = Byte.tab ∨ b = 11 then r.endCell
  else if b = Byte.lf then r.endLine false
  else if b = 12 then r.endLine true
  else if b = bracket then { r with text := b :: r.text, literal := true }
  else { r with text := b :: r.text }

/-- The table, with what stands after the last line feed. -/
def finish (r : Reading) : Bytes :=
  let r := if r.text.isEmpty then r else r.endCell
  let laid := layLines [] (r.cells.reverse :: r.lines).reverse
  r.done ++ Bytes.joinWith [Byte.lf] laid

end Reading

/-- A table laid out in columns. -/
def layout (text : Bytes) : Bytes := (text.foldl Reading.step {}).finish

/-- A row: cells with tabs between them and a line feed at the end. -/
def row (cells : List Bytes) : Bytes := Bytes.joinWith [Byte.tab] cells ++ [Byte.lf]

end KernelPack.Table
