import KernelPack.Kernel.Pack
import KernelPack.Report.Json
import KernelPack.Report.Percent
import KernelPack.Report.Table
import KernelPack.Text.Letter

/-!
# Reports

What the program prints about the kernels it packed and the identifiers it counted, in one of
three formats: a line of text each, a JSON document, or an aligned table. Single results and
failures have no table form and are written as lines. Status words may be colored.
-/

namespace KernelPack.Report

/-- How reports are written. -/
inductive Format where
  | text
  | json
  | table
  deriving DecidableEq, Repr

namespace Format

/-- The word for a format. -/
def label : Format → Bytes
  | .text => utf8 "text"
  | .json => utf8 "json"
  | .table => utf8 "table"

/-- The format of that very word; text for any other. -/
def ofLabel (word : Bytes) : Format :=
  if word = Format.json.label then .json else if word = Format.table.label then .table else .text

/-- The format a setting names, up to case; text if it names none. -/
def parse (setting : Bytes) : Format := ofLabel setting.lower

end Format

/-! ### Status words -/

/-- The words for what became of a kernel. -/
def generated : Bytes := utf8 "generated"
/-- A kernel that was not written, on purpose. -/
def checked : Bytes := utf8 "checked"
/-- A kernel that could not be packed. -/
def failed : Bytes := utf8 "failed"

/-- The bytes that switch a terminal's color, and the ones that switch it back. -/
def colors? (status : Bytes) : Option Bytes :=
  if status = generated then some (utf8 "\x1b[32m")
  else if status = checked then some (utf8 "\x1b[33m")
  else if status = failed then some (utf8 "\x1b[1m\x1b[31m")
  else none

/-- Back to the terminal's own color. -/
def endColor : Bytes := utf8 "\x1b[0m"

/-- A status word filled up to the length of the longest, in color if asked for. -/
def status (word : Bytes) (color : Bool) : Bytes :=
  let padded := word ++ List.replicate (generated.length - word.length) Byte.space
  match colors? word with
  | some on => if color then on ++ padded ++ endColor else padded
  | none => padded

/-! ### Results -/

/-- A result as a JSON record. -/
def resultRecord (r : PackResult) : Json.Record :=
  [ ("kernel", .text r.kernel), ("symbol", .text r.symbol),
    ("source_bytes", .number r.sourceBytes), ("minified_bytes", .number r.minifiedBytes),
    ("passes", .number r.passes), ("aliases", .number r.aliases), ("chunks", .number r.chunks),
    ("debug_lines", .number r.debugLines), ("written", .flag r.written),
    ("definition", .text r.definition), ("declaration", .text r.declaration) ]

/-- The share of the source that is left, in percent. -/
def ratio (r : PackResult) : Bytes := Percent.render r.minifiedBytes r.sourceBytes ++ utf8 "%"

/-- A result as a line of text. -/
def resultLine (r : PackResult) (color : Bool) : Bytes :=
  let (word, target) := if r.written then (generated, r.definition) else (checked, r.symbol)
  status word color ++ utf8 " " ++ r.kernel ++ utf8 " -> " ++ target ++ utf8 " ("
    ++ Numeral.decimal r.sourceBytes ++ utf8 " -> " ++ Numeral.decimal r.minifiedBytes
    ++ utf8 " bytes, " ++ ratio r ++ utf8 ", " ++ Numeral.decimal r.chunks ++ utf8 " chunks, "
    ++ Numeral.decimal r.passes ++ utf8 " passes)\n"

/-- A result as a row of a table. -/
def resultRow (r : PackResult) : Bytes :=
  Table.row
    [ r.kernel, r.symbol, Numeral.decimal r.sourceBytes, Numeral.decimal r.minifiedBytes, ratio r,
      Numeral.decimal r.chunks, Numeral.decimal r.passes, Numeral.decimal r.aliases ]

/-- The heading of a table: the titles, underlined. -/
def heading (titles : List String) : Bytes :=
  Table.row (titles.map utf8)
    ++ Table.row (titles.map fun t => List.replicate (utf8 t).length 45)

/-- One result. -/
def result (format : Format) (color : Bool) (r : PackResult) : Bytes :=
  match format with
  | .json => Json.line (resultRecord r)
  | _ => resultLine r color

/-- Several results. -/
def results (format : Format) (color : Bool) (rs : List PackResult) : Bytes :=
  match format with
  | .json => Json.list (rs.map resultRecord)
  | .table =>
    Table.layout (heading
      ["KERNEL", "SYMBOL", "SOURCE", "MINIFIED", "RATIO", "CHUNKS", "PASSES", "ALIASES"]
      ++ rs.flatMap resultRow)
  | .text => rs.flatMap (resultLine · color)

/-- The failure of a kernel. -/
def failure (format : Format) (color : Bool) (kernel message : Bytes) : Bytes :=
  match format with
  | .json => Json.line [("error", .text message), ("kernel", .text kernel)]
  | _ => status failed color ++ utf8 " " ++ kernel ++ utf8 ": " ++ message ++ utf8 "\n"

/-! ### Identifiers -/

/-- The bytes that an alias of two characters would save, in 64-bit arithmetic. -/
def saving (i : IdentifierCount) : Int :=
  if i.name.length ≤ 2 then 0 else ((i.name.length - 2 : Int) * i.count).bmod Numeral.wordModulus

/-- A number filled up with spaces on the left. -/
def padLeft (width : Nat) (b : Bytes) : Bytes := List.replicate (width - b.length) Byte.space ++ b

/-- Identifier counts. -/
def identifiers (format : Format) (is : List IdentifierCount) : Bytes :=
  match format with
  | .json => Json.list (is.map fun i => [("name", .text i.name), ("count", .number i.count)])
  | .table =>
    Table.layout (heading ["IDENTIFIER", "COUNT", "SAVED"] ++ is.flatMap fun i =>
      Table.row [i.name, Numeral.decimal i.count, Numeral.decimal (saving i)])
  | .text =>
    is.flatMap fun i => padLeft 6 (Numeral.decimal i.count) ++ utf8 "  " ++ i.name ++ [Byte.lf]

end KernelPack.Report
