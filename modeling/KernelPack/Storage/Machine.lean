import KernelPack.Storage.FileStore

/-!
# The machine's files

The file store of the machine that the program runs on. Paths have to be valid text.
-/

namespace KernelPack.Machine

/-- Bytes as text, if they are valid text. -/
def text? (b : Bytes) : Option String := String.fromUTF8? ⟨b.toArray⟩

/-- What went wrong, as the machine reports it. -/
def causeOf : IO.Error → FileCause
  | .noFileOrDirectory .. => .notFound
  | .inappropriateType _ code _ =>
    if code.toInt32 = 21 ∨ code.toInt32 = -21 then .isDirectory else .notDirectory
  | .invalidArgument _ code _ =>
    if code.toInt32 = 36 ∨ code.toInt32 = -36 then .nameTooLong else .invalidName
  | .permissionDenied .. => .denied
  | _ => .faulty

/-- Carries out an action on the file of a path. -/
def attempt {α : Type} (action : FileAction) (path : Bytes) (act : String → IO α) :
    IO (Except FileError α) := do
  match text? path with
  | none => return .error ⟨action, path, .invalidName⟩
  | some p =>
    try return .ok (← act p)
    catch e => return .error ⟨action, path, causeOf e⟩

/-- Opens a file, then reads it; the two fail differently. -/
def readFile (path : Bytes) : IO (Except FileError Bytes) := do
  match ← attempt .opening path fun p => IO.FS.Handle.mk p .read with
  | .error e => return .error e
  | .ok h => attempt .reading path fun _ => return (← h.readBinToEnd).data.toList

/-- What a path leads to. -/
def inspectPath (path : Bytes) : IO (Except FileError FileKind) :=
  attempt .inspecting path fun p => do
    let data ← ((← IO.currentDir) / p).metadata
    return match data.type with
      | .dir => .directory
      | _ => .file

/-- The names in a directory, in byte order. -/
def namesIn (path : Bytes) : IO (List Bytes) := do
  match ← attempt .opening path fun p => do ((← IO.currentDir) / p).readDir with
  | .error _ => return []
  | .ok entries =>
    let names := entries.toList.map fun e => utf8 e.fileName
    return names.mergeSort fun a b => !Bytes.before b a

instance : FileStore IO where
  workingDirectory := return utf8 (← IO.currentDir).toString
  inspect := inspectPath
  read := readFile
  write path contents :=
    attempt .opening path fun p => IO.FS.writeBinFile p ⟨contents.toArray⟩
  names := namesIn

end KernelPack.Machine
