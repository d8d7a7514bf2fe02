import KernelPack.Bytes

/-!
# File stores

The program touches files through four operations: looking at what a path leads to, reading a
file, writing one, and listing a directory. A **file store** is a monad with these operations, so
that everything above can be run against the machine's files and reasoned about against a value
(`Tree`). A failed operation is an error value that names the operation, the path as it was given,
and the cause.
-/

namespace KernelPack

/-- The classes of failure that callers of the program tell apart. -/
inductive Category where
  /-- A renaming table has an unusable entry. -/
  | invalidAlias
  /-- A renaming table is in conflict with itself or the source. -/
  | conflict
  /-- The configuration describes no valid set of kernels. -/
  | invalidConfig
  /-- A source line exceeds the limit. -/
  | tooLong
  /-- A name pattern is malformed. -/
  | badPattern
  /-- The work was called off. -/
  | canceled
  /-- A file does not exist. -/
  | notExist
  /-- Everything else. -/
  | other
  deriving DecidableEq, Repr

/-- Why a file operation fails. -/
inductive FileCause where
  | notFound
  | notDirectory
  | isDirectory
  | nameTooLong
  | invalidName
  | denied
  | faulty
  deriving DecidableEq, Repr

/-- The cause in words. -/
def FileCause.message : FileCause → Bytes
  | .notFound => utf8 "no such file or directory"
  | .notDirectory => utf8 "not a directory"
  | .isDirectory => utf8 "is a directory"
  | .nameTooLong => utf8 "file name too long"
  | .invalidName => utf8 "invalid argument"
  | .denied => utf8 "permission denied"
  | .faulty => utf8 "input/output error"

/-- The class of a cause. -/
def FileCause.category : FileCause → Category
  | .notFound => .notExist
  | _ => .other

/-- What was tried with a file. -/
inductive FileAction where
  | opening
  | reading
  | inspecting
  deriving DecidableEq, Repr

/-- The word for an attempt. -/
def FileAction.label : FileAction → Bytes
  | .opening => utf8 "open"
  | .reading => utf8 "read"
  | .inspecting => utf8 "stat"

/-- A failed file operation. -/
structure FileError where
  action : FileAction
  path : Bytes
  cause : FileCause
  deriving DecidableEq, Repr

/-- The failure in words. -/
def FileError.message (e : FileError) : Bytes :=
  e.action.label ++ utf8 " " ++ e.path ++ utf8 ": " ++ e.cause.message

/-- The class of a failure. -/
def FileError.category (e : FileError) : Category := e.cause.category

/-- What a path leads to. -/
inductive FileKind where
  | file
  | directory
  deriving DecidableEq, Repr

/-- A monad in which files can be looked at, read, written and listed. -/
class FileStore (m : Type → Type) where
  /-- The working directory, an absolute path in normal form. -/
  workingDirectory : m Bytes
  /-- What a path leads to. -/
  inspect : Bytes → m (Except FileError FileKind)
  /-- The contents of a file. -/
  read : Bytes → m (Except FileError Bytes)
  /-- Makes a path lead to a file with these contents. -/
  write : Bytes → Bytes → m (Except FileError Unit)
  /-- The names in a directory, in byte order; none if it cannot be listed. -/
  names : Bytes → m (List Bytes)

end KernelPack
