import KernelPack.Path.Basic
import KernelPack.Storage.FileStore

/-!
# Directory trees

A **tree** is a file system as a value: what each place holds, a place being the list of names
that leads to it from the root, and a working directory. Paths are followed name by name the way
a system does it: every place on the way has to be a directory, `..` leads to the parent of the
place reached, and a path that ends in a slash has to lead to a directory. `StateM Tree` is a
file store.

A tree has **no links**, neither symbolic nor hard ones: each file has one place, and each place is
reached by its own names and no others. So two paths whose absolute forms differ never lead to one
file, and what is written by the one is not read by the other. Of a directory of a system this holds
as long as there are no links on the way to its files or among them; whatever is said of several
files of a tree takes this for granted. A tree has no permissions either.
-/

namespace KernelPack

/-- The names that lead to a place from the root. -/
abbrev Location := List Bytes

/-- What a place holds. -/
inductive Node where
  | file (content : Bytes)
  | directory
  deriving DecidableEq, Repr

/-- A file system as a value. -/
structure Tree where
  /-- The places below the root that hold something. -/
  nodes : List (Location × Node)
  /-- The working directory. -/
  workingLocation : Location
  deriving Repr

namespace Tree

/-- The tree with nothing but the root directory. -/
def empty : Tree := ⟨[], []⟩

/-! ### Places -/

/-- What a place holds; the root is always a directory. -/
def node? (t : Tree) (p : Location) : Option Node :=
  if p.isEmpty then some .directory else t.nodes.lookup p

/-- The tree with a place holding `n`. -/
def put (t : Tree) (p : Location) (n : Node) : Tree :=
  { t with nodes := (p, n) :: t.nodes.filter (·.1 != p) }

/-- The tree with a place holding `n`, and directories on the way to it. -/
def plant (t : Tree) (p : Location) (n : Node) : Tree :=
  ((List.range p.length).foldl (fun t k =>
    match t.node? (p.take k) with
    | some _ => t
    | none => t.put (p.take k) .directory) t).put p n

/-- The tree with a directory at a place, unless it holds one, and directories on the way. -/
def plantDirectory (t : Tree) (p : Location) : Tree :=
  if t.node? p = some .directory then t else t.plant p .directory

/-- The tree without a place and everything below it. -/
def prune (t : Tree) (p : Location) : Tree :=
  { t with nodes := t.nodes.filter fun (q, _) => !p.isPrefixOf q }

/-- The names directly below a place, in byte order. -/
def children (t : Tree) (p : Location) : List Bytes :=
  (t.nodes.filterMap fun (q, _) =>
    if q.dropLast = p then q.getLast? else none).mergeSort fun a b => !Bytes.before b a

/-- The files of the tree with their places. -/
def files (t : Tree) : List (Location × Bytes) :=
  t.nodes.filterMap fun (p, n) =>
    match n with
    | .file content => some (p, content)
    | .directory => none

/-! ### Paths -/

/-- The longest name of a component, in bytes. -/
def nameLimit : Nat := 255

/-- The longest path, in bytes. -/
def pathLimit : Nat := 4095

/-- Follows names from a place; the last one need not lead to anything. -/
def follow (t : Tree) : Location → List Bytes → Except FileCause Location
  | p, [] => .ok p
  | p, c :: cs =>
    match t.node? p with
    | none => .error .notFound
    | some (.file _) => .error .notDirectory
    | some .directory =>
      if c = Path.here then t.follow p cs
      else if c = Path.up then t.follow p.dropLast cs
      else if nameLimit < c.length then .error .nameTooLong
      else t.follow (p ++ [c]) cs

/-- The location a path leads to, whether or not it holds anything. -/
def locate (t : Tree) (path : Bytes) : Except FileCause Location :=
  if path.contains 0 then .error .invalidName
  else if path.isEmpty then .error .notFound
  else if pathLimit < path.length then .error .nameTooLong
  else t.follow (if Path.isAbsolute path then [] else t.workingLocation) (Path.components path)

/-- Does the path end in a slash, and so ask for a directory? -/
def asksDirectory (path : Bytes) : Bool := path.getLast? == some Byte.slash

/-- What a path leads to. -/
def lookup (t : Tree) (path : Bytes) : Except FileCause Node := do
  let p ← t.locate path
  match t.node? p with
  | none => .error .notFound
  | some (.file content) =>
    if asksDirectory path then .error .notDirectory else .ok (.file content)
  | some .directory => .ok .directory

/-! ### The operations of a file store -/

/-- The kind of what a path leads to. -/
def inspect (t : Tree) (path : Bytes) : Except FileError FileKind :=
  match t.lookup path with
  | .error c => .error ⟨.inspecting, path, c⟩
  | .ok (.file _) => .ok .file
  | .ok .directory => .ok .directory

/-- The contents of the file a path leads to. -/
def read (t : Tree) (path : Bytes) : Except FileError Bytes :=
  match t.lookup path with
  | .error c => .error ⟨.opening, path, c⟩
  | .ok (.file content) => .ok content
  | .ok .directory => .error ⟨.reading, path, .isDirectory⟩

/-- The place a file may be written to by a path. -/
def target (t : Tree) (path : Bytes) : Except FileCause Location := do
  let p ← t.locate path
  match t.node? p with
  | some .directory => .error .isDirectory
  | some (.file _) => if asksDirectory path then .error .notDirectory else .ok p
  | none => if asksDirectory path then .error .isDirectory else .ok p

/-- The tree after writing a file. -/
def write (t : Tree) (path content : Bytes) : Except FileError Tree :=
  match t.target path with
  | .error c => .error ⟨.opening, path, c⟩
  | .ok p => .ok (t.put p (.file content))

/-- The names in the directory a path leads to. -/
def names (t : Tree) (path : Bytes) : List Bytes :=
  match t.locate path with
  | .error _ => []
  | .ok p => if t.node? p = some .directory then t.children p else []

end Tree

/-- A tree as the state of a computation is a file store. -/
instance : FileStore (StateM Tree) where
  workingDirectory := do return Path.ofComponents true (← get).workingLocation
  inspect path := do return (← get).inspect path
  read path := do return (← get).read path
  write path content := do
    match (← get).write path content with
    | .error e => return .error e
    | .ok t =>
      set t
      return .ok ()
  names path := do return (← get).names path

end KernelPack
