import KernelPack.Path.Basic
import KernelPack.Settings.Json
import KernelPack.Settings.Layers
import KernelPack.Settings.Yaml
import KernelPack.Storage.FileStore

/-!
# The settings file

The settings file is the one the command line names, or else the first file of the working
directory that has the usual name, alone or with one of the usual extensions. A file that is named
is in the format of its extension; one that is found is in YAML, whatever its extension. A file that
is missing or cannot be read as a record of settings counts as not there.
-/

namespace KernelPack.Settings

/-- The name of the settings file, apart from an extension. -/
def fileStem : Bytes := utf8 ".clpack"

/-- The name under which a new settings file is written. -/
def fileName : Bytes := fileStem ++ utf8 ".yaml"

/-- The extensions that the settings file may have, in the order in which they are tried. -/
def extensions : List String :=
  ["json", "toml", "yaml", "yml", "properties", "props", "prop", "hcl", "tfvars", "dotenv", "env",
    "ini"]

/-- The names that are looked for. -/
def candidates : List Bytes :=
  fileStem :: extensions.map fun e => fileStem ++ utf8 "." ++ utf8 e

/-- The fields of a document that is a record, with keys in lower case. A document that holds
nothing has no fields. -/
def fieldsOf? : Value → Option (List Field)
  | .null => some []
  | .record fs => some (loweredFields fs)
  | _ => none

/-- The fields of a named file's contents, by its extension. -/
def parseAs? (extension : Bytes) (contents : Bytes) : Option (List Field) :=
  if extension = utf8 ".json" then (Json.parse? contents).bind fieldsOf?
  else if extension = utf8 ".yaml" ∨ extension = utf8 ".yml" then
    (Yaml.parse? contents).bind fieldsOf?
  else none

section Files

variable {m : Type → Type} [Monad m] [FileStore m]

/-- The first of several names that leads to a file in a directory, as a path. -/
def firstFile? (dir : Bytes) : List Bytes → m (Option Bytes)
  | [] => return none
  | n :: ns => do
    match ← FileStore.inspect (Path.join [dir, n]) with
    | .ok .file => return some (Path.join [dir, n])
    | _ => firstFile? dir ns

/-- The settings file, if it is there and can be read: its path and its fields. `named` is the path
that the command line gives, empty if it gives none. -/
def loadFile (named : Bytes) : m (Option (Bytes × List Field)) := do
  if named.isEmpty then
    match ← firstFile? (← FileStore.workingDirectory) candidates with
    | none => return none
    | some path =>
      match ← FileStore.read path with
      | .error _ => return none
      | .ok contents => return ((Yaml.parse? contents).bind fieldsOf?).map (path, ·)
  else
    match ← FileStore.read named with
    | .error _ => return none
    | .ok contents => return (parseAs? (Path.extension (Path.base named)) contents).map (named, ·)

end Files

end KernelPack.Settings
