import KernelPack.Path.Glob
import KernelPack.Storage.FileStore
import KernelPack.Text.Quoted

/-!
# Finding kernel sources

Sources are named by plain file names and by name patterns below a directory. A plain name has to
lead to a file; a pattern given explicitly has to match something, though directories among its
matches are passed over. What is found is listed once each, relative to the directory and in byte
order.
-/

namespace KernelPack

/-- Why sources cannot be listed. -/
inductive SourcesError where
  /-- A plain name leads nowhere. -/
  | missing (e : FileError)
  /-- A plain name leads to a directory. -/
  | directory (path : Bytes)
  | badPattern
  | noMatch (pattern : Bytes)
  | nothingFound (dir : Bytes)
  deriving DecidableEq, Repr

/-- The reason in words. -/
def SourcesError.message : SourcesError → Bytes
  | .missing e => e.message
  | .directory path => path ++ utf8 " is a directory"
  | .badPattern => utf8 "syntax error in pattern"
  | .noMatch pattern => utf8 "no matches for pattern " ++ pattern.quoted
  | .nothingFound dir => utf8 "no kernel sources found in " ++ dir

/-- The class of the failure. -/
def SourcesError.category : SourcesError → Category
  | .missing e => e.category
  | .badPattern => .badPattern
  | _ => .other

/-- The patterns used where none is given. -/
def defaultPatterns : List Bytes := [utf8 "*.c", utf8 "*.cl"]

section Files

variable {m : Type → Type} [Monad m] [FileStore m]

/-- The directory part of a pattern, without the slash at its end. -/
def patternDirectory (pattern : Bytes) : Bytes :=
  match (pattern.reverse.dropWhile (· != Byte.slash)).reverse with
  | [] => Path.here
  | [b] => [b]
  | d => d.dropLast

/-- The entries of a directory that a name pattern covers, as paths. -/
def matchesIn (segments : List Glob.Segment) (dir : Bytes) : m (List Bytes) := do
  match ← FileStore.inspect dir with
  | .ok .directory =>
    let names ← FileStore.names dir
    return (names.filter (Glob.covers segments)).map fun n => Path.join [dir, n]
  | _ => return []

/-- The paths that a pattern matches, component by component. `depth` bounds the number of
components; a pattern has fewer components than bytes. -/
def globFrom : (depth : Nat) → Bytes → m (Except SourcesError (List Bytes))
  | 0, _ => return .error .badPattern
  | depth + 1, pattern => do
    if (Glob.parse? pattern).isNone then return .error .badPattern
    else if !Glob.hasMeaning pattern then
      match ← FileStore.inspect pattern with
      | .ok _ => return .ok [pattern]
      | .error _ => return .ok []
    else
      let dir := patternDirectory pattern
      let file := (pattern.reverse.takeWhile (· != Byte.slash)).reverse
      match Glob.parse? file with
      | none => return .error .badPattern
      | some segments =>
        if !Glob.hasMeaning dir then return .ok (← matchesIn segments dir)
        else
          match ← globFrom depth dir with
          | .error e => return .error e
          | .ok dirs => return .ok (← dirs.mapM (matchesIn segments)).flatten

/-- The paths that a pattern matches. -/
def glob (pattern : Bytes) : m (Except SourcesError (List Bytes)) :=
  globFrom (pattern.length + 1) pattern

/-- The files that one pattern or plain name stands for, as paths. -/
def sourcesOf (dir : Bytes) (explicit : Bool) (pattern : Bytes) :
    m (Except SourcesError (List Bytes)) := do
  let path := Path.join [dir, pattern]
  if !Glob.isPattern pattern then
    match ← FileStore.inspect path with
    | .error e => return .error (.missing e)
    | .ok .directory => return .error (.directory path)
    | .ok .file => return .ok [path]
  else
    match ← glob path with
    | .error e => return .error e
    | .ok found =>
      if found.isEmpty && explicit then return .error (.noMatch pattern)
      else
        return .ok (← found.filterM fun p => do
          match ← FileStore.inspect p with
          | .ok .file => return true
          | _ => return false)

/-- The files of several patterns, up to the first that fails. -/
def sourcesOfAll (dir : Bytes) (explicit : Bool) :
    List Bytes → m (Except SourcesError (List Bytes))
  | [] => return .ok []
  | p :: ps => do
    match ← sourcesOf dir explicit p with
    | .error e => return .error e
    | .ok here =>
      match ← sourcesOfAll dir explicit ps with
      | .error e => return .error e
      | .ok rest => return .ok (here ++ rest)

/-- A path as listed: relative to the directory where that is possible. -/
def listedAs (dir path : Bytes) : Bytes := (Path.relativeTo? dir path).getD path

/-- The sources that patterns name below a directory. -/
def findSources (dir : Bytes) (patterns : List Bytes) :
    m (Except SourcesError (List Bytes)) := do
  let explicit := !patterns.isEmpty
  match ← sourcesOfAll dir explicit (if explicit then patterns else defaultPatterns) with
  | .error e => return .error e
  | .ok paths =>
    let listed := (paths.map (listedAs dir)).eraseDups
    if listed.isEmpty then return .error (.nothingFound dir)
    else return .ok (listed.mergeSort fun a b => !Bytes.before b a)

end Files

end KernelPack
