import KernelPack.Kernel.Pack

/-!
# Watching sources

A watcher packs a kernel anew whenever its source changes. It watches the *directories* of the
sources, since editors often replace a file rather than write it in place. Events mark kernels as
**pending**; when things have been quiet for a while the pending kernels are packed, in the order
of the configuration. A kernel's mark is cleared *before* it is packed, so a change during the
packing marks it again. A failed kernel is reported and the watch goes on. A crash is not reported,
and there is no watcher after it.
-/

namespace KernelPack

/-! ### Events -/

/-- What happened to a file; an event may bring several together. -/
inductive FileChange where
  | create
  | remove
  | write
  | rename
  | chmod
  deriving DecidableEq, Repr

/-- The word for a change. -/
def FileChange.label : FileChange → Bytes
  | .create => utf8 "CREATE"
  | .remove => utf8 "REMOVE"
  | .write => utf8 "WRITE"
  | .rename => utf8 "RENAME"
  | .chmod => utf8 "CHMOD"

/-- A report that something happened to a file. -/
structure FileEvent where
  path : Bytes
  changes : List FileChange
  deriving DecidableEq, Repr

namespace FileEvent

/-- Does the file have new contents? -/
def isNewContent (e : FileEvent) : Bool :=
  e.changes.contains .write || e.changes.contains .create

/-- The words for what happened, in a fixed order. -/
def label (e : FileEvent) : Bytes :=
  Bytes.joinWith (utf8 "|")
    (([.create, .remove, .write, .rename, .chmod] : List FileChange).filter
      e.changes.contains |>.map FileChange.label)

end FileEvent

/-! ### Watchers -/

/-- A set of kernels being watched. -/
structure Watcher where
  options : PackOptions
  /-- The kernels, in the order in which they are packed. -/
  kernels : List Kernel
  /-- The directory that relative paths start from. -/
  workingDirectory : Bytes
  /-- The sources' absolute paths with the indices of their kernels, the latest first. -/
  sources : List (Bytes × Nat)
  /-- The indices of the kernels to be packed anew. -/
  pending : List Nat

/-- Why a watch cannot begin. -/
structure WatchError where
  /-- The directory that cannot be watched. -/
  dir : Bytes
  cause : FileCause
  deriving DecidableEq, Repr

/-- The failure in words. -/
def WatchError.message (e : WatchError) : Bytes :=
  utf8 "failed to watch " ++ e.dir ++ utf8 ": " ++ e.cause.message

/-- The failure of a whole watch, in words. -/
def WatchError.setupMessage (e : WatchError) : Bytes :=
  utf8 "failed to setup watcher: " ++ e.message

/-- The class of the failure. -/
def WatchError.category (e : WatchError) : Category := e.cause.category

/-- One packing of a watched kernel, as it is reported. -/
structure Build where
  kernel : Bytes
  value : Except PackError PackResult

/-- What a watcher does about several kernels, up to the last of them or to a crash. -/
structure Round (α : Type) where
  /-- What it goes on with, unless there was a crash. -/
  value : Except Crash α
  /-- What was reported, in order. -/
  builds : List Build
  log : List LogRecord

namespace Round

variable {α β : Type}

/-- The round with one kernel more at its beginning. -/
def after (b : Build) (log : List LogRecord) (r : Round α) : Round α :=
  { r with builds := b :: r.builds, log := log ++ r.log }

/-- The round of a watcher that goes on with something else. -/
def map (f : α → β) (r : Round α) : Round β :=
  { r with value := r.value.map f }

end Round

namespace Watcher

/-- What the event's file is the source of. -/
def sourceIndex? (w : Watcher) (path : Bytes) : Option Nat :=
  w.sources.lookup (Path.absolute w.workingDirectory path)

/-- Marks a kernel as pending. -/
def mark (w : Watcher) (i : Nat) : Watcher :=
  if w.pending.contains i then w else { w with pending := i :: w.pending }

/-- Takes an event in: the watcher after it, and the kernel it concerned, if any. Only new contents
of a source matter. -/
def handle (w : Watcher) (e : FileEvent) : Watcher × Option Nat :=
  if e.isNewContent then
    match w.sourceIndex? e.path with
    | some i => (w.mark i, some i)
    | none => (w, none)
  else (w, none)

/-- What is logged of an event that concerned a kernel. -/
def changeLog (w : Watcher) (e : FileEvent) (i : Nat) : List LogRecord :=
  match w.kernels[i]? with
  | some k => [.changed k.name e.label]
  | none => []

section Files

variable {m : Type → Type} [Monad m] [FileStore m]

/-- Registers the kernels from index `i` on, where `dirs` are watched already. -/
def register (w : Watcher) (dirs : List Bytes) :
    Nat → List Kernel → m (Except WatchError Watcher × List LogRecord)
  | _, [] => return (.ok w, [])
  | i, k :: ks => do
    let path := Path.absolute w.workingDirectory k.source
    let dir := Path.directory path
    let w := { w with sources := (path, i) :: w.sources }
    if dirs.contains dir then register w dirs (i + 1) ks
    else
      match ← FileStore.inspect dir with
      | .error e => return (.error ⟨dir, e.cause⟩, [])
      | .ok _ =>
        let (w, log) ← register w (dir :: dirs) (i + 1) ks
        return (w, .watching dir :: log)

/-- Begins to watch kernels. -/
def start (o : PackOptions) (kernels : List Kernel) :
    m (Except WatchError Watcher × List LogRecord) := do
  let cwd ← FileStore.workingDirectory
  register ⟨o, kernels, cwd, [], []⟩ [] 0 kernels

/-- Packs a kernel and reports how it went. -/
def build (o : PackOptions) (k : Kernel) : m (Logged Crash Build) := do
  match ← pack o k with
  | ⟨.error (.crashed c), log⟩ => return ⟨.error c, log⟩
  | ⟨.error (.failed e), log⟩ =>
    return ⟨.ok ⟨k.name, .error e⟩, log ++ [.rebuildFailed k.name (e.message k.name)]⟩
  | ⟨.ok r, log⟩ => return ⟨.ok ⟨k.name, .ok r⟩, log⟩

/-- Packs every kernel of a list. -/
def buildAll (o : PackOptions) : List Kernel → m (Round Unit)
  | [] => return ⟨.ok (), [], []⟩
  | k :: ks => do
    match ← build o k with
    | ⟨.error c, log⟩ => return ⟨.error c, [], log⟩
    | ⟨.ok b, log⟩ => return (← buildAll o ks).after b log

/-- Packs the pending kernels from index `i` on, clearing each mark before its kernel is packed. -/
def packPendingFrom (w : Watcher) : Nat → List Kernel → m (Round Watcher)
  | _, [] => return ⟨.ok w, [], []⟩
  | i, k :: ks => do
    if w.pending.contains i then
      let w := { w with pending := w.pending.filter (· != i) }
      match ← build w.options k with
      | ⟨.error c, log⟩ => return ⟨.error c, [], log⟩
      | ⟨.ok b, log⟩ => return (← packPendingFrom w (i + 1) ks).after b log
    else packPendingFrom w (i + 1) ks

/-- Packs the pending kernels, in the order of the list. -/
def packPending (w : Watcher) : m (Round Watcher) := packPendingFrom w 0 w.kernels

end Files

end Watcher

end KernelPack
