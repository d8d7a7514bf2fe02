import KernelPack.Config.Basic
import KernelPack.Settings.Value

/-!
# From values to a configuration

Settings are **weakly typed**: a number may be written as a text, a truth value as a number, a list
of names as one text with commas, a single kernel without a list around it. `decode` turns the
values of the settings into a `Config`, and reports *every* value that cannot be turned, each with
its place, in the order in which the configuration lists its parts.
-/

namespace KernelPack.Settings

/-! ### Faults -/

/-- What a part of the configuration has to be. -/
inductive Target where
  | text
  | integer
  | truth
  deriving DecidableEq, Repr

/-- The word for a target. -/
def Target.label : Target → Bytes
  | .text => utf8 "string"
  | .integer => utf8 "int"
  | .truth => utf8 "bool"

/-- The word for what a value is. -/
def Value.kindLabel : Value → Bytes
  | .null => utf8 "invalid"
  | .truth _ => utf8 "bool"
  | .integer n => if n < Numeral.signBound then utf8 "int" else utf8 "uint64"
  | .number _ => utf8 "float64"
  | .text _ => utf8 "string"
  | .date => utf8 "struct"
  | .list _ => utf8 "slice"
  | .record _ => utf8 "map"

/-- The full word for the type of a value. -/
def Value.typeLabel : Value → Bytes
  | .date => utf8 "time.Time"
  | .list _ => utf8 "[]interface \x7b\x7d"
  | .record _ => utf8 "map[string]interface \x7b\x7d"
  | v => v.kindLabel

/-- What is wrong with a value. -/
inductive Fault where
  /-- A text is no integer. -/
  | noInteger (cause : Numeral.Fault)
  /-- A text is no truth value. -/
  | noTruth
  /-- The value is of a kind that cannot be turned into what is needed. -/
  | wrongType (target : Target) (type : Bytes)
  /-- The value is no record where a record is needed. -/
  | noRecord (kind : Bytes)
  deriving DecidableEq, Repr

/-- What is wrong, in words. -/
def Fault.message : Fault → Bytes
  | .noInteger cause =>
    utf8 "cannot parse value as 'int': strconv.ParseInt: " ++ cause.message
  | .noTruth => utf8 "cannot parse value as 'bool': strconv.ParseBool: invalid syntax"
  | .wrongType target type =>
    utf8 "expected type '" ++ target.label ++ utf8 "', got unconvertible type '" ++ type ++ utf8 "'"
  | .noRecord kind => utf8 "expected a map or struct, got " ++ kind.quoted

/-- A value that cannot be turned, by its place. -/
structure Misfit where
  place : Bytes
  fault : Fault
  deriving DecidableEq, Repr

/-- The misfit in words. -/
def Misfit.message (m : Misfit) : Bytes :=
  utf8 "'" ++ m.place ++ utf8 "' " ++ m.fault.message

/-- All misfits in words. -/
def misfitsMessage (ms : List Misfit) : Bytes :=
  utf8 "failed to unmarshal config: decoding failed due to the following error(s):\n\n"
    ++ Bytes.joinWith [Byte.lf] (ms.map Misfit.message)

/-! ### Parts -/

/-- A computation that collects misfits. -/
abbrev Decoding := StateM (List Misfit)

/-- Reports a misfit and goes on with a value that does not matter. -/
def Decoding.misfit {α : Type} (place : Bytes) (fault : Fault) (instead : α) : Decoding α := do
  modify (· ++ [⟨place, fault⟩])
  return instead

/-- A text. Truth values count as one and zero; numbers are written out. -/
def decodeText (place : Bytes) : Value → Decoding Bytes
  | .null => return []
  | .text b => return b
  | .truth b => return if b then utf8 "1" else utf8 "0"
  | .integer n => return Numeral.decimal n
  | .number x => return x.render
  | v => .misfit place (.wrongType .text v.typeLabel) []

/-- An integer of 64 bits. The empty text counts as zero; numbers lose their fraction. -/
def decodeInteger (place : Bytes) : Value → Decoding Int
  | .null => return 0
  | .integer n => return (Int64.ofInt n).toInt
  | .number x => return x.toInt64
  | .truth b => return if b then 1 else 0
  | .text b =>
    match Numeral.integer (if b.isEmpty then utf8 "0" else b) with
    | .ok n => return n
    | .error e => .misfit place (.noInteger e) 0
  | v => .misfit place (.wrongType .integer v.typeLabel) 0

/-- A truth value. Numbers are true unless zero; the empty text is false. -/
def decodeTruth (place : Bytes) : Value → Decoding Bool
  | .null => return false
  | .truth b => return b
  | .integer n => return n != 0
  | .number x => return x.isNonzero
  | .text b =>
    if b.isEmpty then return false
    else match Numeral.truth? b with
      | some v => return v
      | none => .misfit place .noTruth false
  | v => .misfit place (.wrongType .truth v.typeLabel) false

/-- The items of a list. A text is cut at its commas; anything else that is no list is its only
item, but nothing and an empty record have none. -/
def itemsOf : Value → List Value
  | .list vs => vs
  | .null => []
  | .record [] => []
  | .text b => if b.isEmpty then [] else (Bytes.pieces 44 b).map .text
  | v => [v]

/-- The place of an item. -/
def itemPlace (place : Bytes) (i : Nat) : Bytes :=
  place ++ utf8 "[" ++ Numeral.decimal i ++ utf8 "]"

/-- The place of a field. -/
def fieldPlace (place : Bytes) (key : String) : Bytes := place ++ utf8 "." ++ utf8 key

/-- A list, item by item. -/
def decodeList {α : Type} (item : Bytes → Value → Decoding α) (place : Bytes) (v : Value) :
    Decoding (List α) :=
  (itemsOf v).mapIdx (fun i v => (i, v)) |>.mapM fun (i, v) => item (itemPlace place i) v

/-- The value of a field; one that is missing has none. -/
def valueOf (fields : List Field) (key : String) : Value := (fields.lookup (utf8 key)).getD .null

/-- The fields of a record. -/
def decodeFields (place : Bytes) : Value → Decoding (List Field)
  | .null | .date => return []
  | .record fields => return fields
  | v => .misfit place (.noRecord v.kindLabel) []

/-- A name with its alias. -/
def decodeEntry (place : Bytes) (v : Value) : Decoding Renaming.Entry := do
  let fields ← decodeFields place v
  let new ← decodeText (fieldPlace place "alias") (valueOf fields "alias")
  let name ← decodeText (fieldPlace place "name") (valueOf fields "name")
  return ⟨name, new⟩

/-- The description of a kernel. -/
def decodeKernel (place : Bytes) (v : Value) : Decoding KernelEntry := do
  let fields ← decodeFields place v
  let source ← decodeText (fieldPlace place "source") (valueOf fields "source")
  let headerLines ← match valueOf fields "header_lines" with
    | .null => pure none
    | v => some <$> decodeInteger (fieldPlace place "header_lines") v
  let family ← decodeText (fieldPlace place "namespace") (valueOf fields "namespace")
  let aliases ← decodeList decodeEntry (fieldPlace place "aliases") (valueOf fields "aliases")
  let names ← decodeList decodeText (fieldPlace place "names") (valueOf fields "names")
  return { source, headerLines, family, aliases, names }

/-! ### The whole -/

/-- The configuration that settings describe, where `setting` has the value of each. -/
def decodeConfig (setting : String → Value) : Decoding Config := do
  let part {α : Type} (decode : Bytes → Value → Decoding α) (key : String) : Decoding α :=
    decode (utf8 key) (setting key)
  let format ← part decodeText "format"
  let verbose ← part decodeTruth "verbose"
  let noColor ← part decodeTruth "no_color"
  let sourceDir ← part decodeText "source_dir"
  let outputDir ← part decodeText "output_dir"
  let symbolStart ← part decodeText "prefix"
  let debugMacro ← part decodeText "debug_macro"
  let chunkSize ← part decodeInteger "chunk_size"
  let headerLines ← part decodeInteger "header_lines"
  let strategy ← part decodeText "strategy"
  let stripLineComments ← part decodeTruth "strip_line_comments"
  let kernels ← part (decodeList decodeKernel) "kernels"
  return { format, verbose, noColor, sourceDir, outputDir, symbolStart, debugMacro,
           chunkSize := .ofInt chunkSize, headerLines, strategy, stripLineComments, kernels }

/-- The configuration that settings describe, or all that is wrong with them. -/
def decode (setting : String → Value) : Except (List Misfit) Config :=
  match (decodeConfig setting).run [] with
  | (c, []) => .ok c
  | (_, ms) => .error ms

end KernelPack.Settings
