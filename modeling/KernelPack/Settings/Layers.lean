import KernelPack.Artifact.Literal
import KernelPack.Artifact.Source
import KernelPack.Settings.Decode
import KernelPack.Text.Letter

/-!
# Layers of settings

A setting may be given in four places. The **command line** counts before the **environment**, this
before the **settings file**, and what is given nowhere has its **default**. In the file the case of
keys does not matter, and a key without a value counts as not given; nor does an environment
variable that is empty.
-/

namespace KernelPack.Settings

/-! ### Records of a file -/

mutual

/-- The value with all keys in lower case. -/
def Value.lowered : Value → Value
  | .list vs => .list (loweredItems vs)
  | .record fs => .record (loweredFields fs)
  | v => v

/-- Values with all keys in lower case. -/
def loweredItems : List Value → List Value
  | [] => []
  | v :: vs => v.lowered :: loweredItems vs

/-- Fields with all keys in lower case. -/
def loweredFields : List Field → List Field
  | [] => []
  | (k, v) :: fs => (k.lower, v.lowered) :: loweredFields fs

end

mutual

/-- The value without the fields that give none; nothing if none is left. -/
def Value.pruned : Value → Value
  | .record fs =>
    match prunedFields fs with
    | [] => .null
    | fs => .record fs
  | v => v

/-- The fields that give a value. -/
def prunedFields : List Field → List Field
  | [] => []
  | (k, v) :: fs =>
    match v.pruned with
    | .null => prunedFields fs
    | v => (k, v) :: prunedFields fs

end

/-! ### Looking up -/

/-- The value that a setting has where none is given. -/
def defaultOf (key : String) : Value :=
  match key with
  | "format" => .text (utf8 "text")
  | "verbose" => .truth false
  | "no_color" => .truth false
  | "source_dir" => .text (utf8 ".")
  | "output_dir" => .text (utf8 "..")
  | "prefix" => .text (utf8 "opencl___")
  | "debug_macro" => .text Artifact.standardDebugMacro
  | "chunk_size" => .integer Artifact.standardChunkSize.toInt
  | "header_lines" => .integer 4
  | "strategy" => .text Renaming.Strategy.token.label
  | "strip_line_comments" => .truth true
  | _ => .null

/-- The settings that there are. -/
def keys : List String :=
  ["format", "verbose", "no_color", "source_dir", "output_dir", "prefix", "debug_macro",
    "chunk_size", "header_lines", "strategy", "strip_line_comments", "kernels"]

/-- Names of environment variables with their values. -/
abbrev Environment := List (Bytes × Bytes)

/-- The environment variable of a setting. -/
def variableOf (key : String) : Bytes := utf8 "CLPACK_" ++ (utf8 key).upper

/-- The value of a setting in the environment. -/
def Environment.setting? (e : Environment) (key : String) : Option Value :=
  match e.lookup (variableOf key) with
  | some (b :: t) => some (.text (b :: t))
  | _ => none

/-- The places in which settings are given. -/
structure Layers where
  /-- What the command line gives. -/
  given : List (String × Value) := []
  environment : Environment := []
  /-- The fields of the settings file, their keys in lower case. -/
  file : List Field := []

namespace Layers

/-- The value of a setting. -/
def value (l : Layers) (key : String) : Value :=
  match l.given.lookup key, l.environment.setting? key, valueOf l.file key with
  | some v, _, _ => v
  | none, some v, _ => v
  | none, none, .null => defaultOf key
  | none, none, v => v

/-- The kernels. Only those of the file count; an environment variable can stand in the place of
their list, but not of a single kernel. -/
def kernels (l : Layers) : Value :=
  match (valueOf l.file "kernels").pruned, l.environment.setting? "kernels" with
  | .null, _ => .null
  | .record _, some _ => .null
  | _, some v => v
  | v, none => v

/-- The value of a setting, or the kernels. -/
def lookup (l : Layers) (key : String) : Value := if key = "kernels" then l.kernels else l.value key

/-- Are details to be reported? What is no truth value counts as a no. -/
def isVerbose (l : Layers) : Bool :=
  match l.value "verbose" with
  | .truth b => b
  | .integer n => n != 0
  | .number x => x.isNonzero
  | .text b => (Numeral.truth? b).getD false
  | _ => false

/-- The configuration that the layers describe. -/
def config (l : Layers) : Except (List Misfit) Config := decode l.lookup

end Layers

end KernelPack.Settings
