import KernelPack.Artifact.Source
import KernelPack.Kernel.Basic
import KernelPack.Kernel.Log
import KernelPack.Renaming.Apply
import KernelPack.Source.Comments
import KernelPack.Source.Compaction
import KernelPack.Source.Lines
import KernelPack.Storage.FileStore

/-!
# Packing kernels

Packing a kernel takes four steps. The source is **loaded** as lines. The lines are **transformed**
into an artifact: comments go, the text is compacted, and identifiers are renamed. The artifact is
**written** as a definition and a declaration, in this order. The outcome is **reported** as a
result, with what was logged on the way.

Only loading and writing touch files; `assemble` is a function of the lines. A *run* packs kernels
one after another and stops at the first failure, or where it is called off.

There are two ways not to come to a result (`Halt`). A failure is returned: whoever had the kernel
packed is told of it, and goes on as he sees fit. A crash is not. Nothing catches it, so it ends the
run that the kernel is part of, which then returns neither results nor a failure, and with it the
whole program. Only what was written and logged before stays.
-/

namespace KernelPack

/-! ### Options -/

/-- How kernels are packed. -/
structure PackOptions where
  /-- Where the generated sources go. -/
  outputDir : Bytes := Path.up
  /-- What symbols begin with. -/
  symbolStart : Bytes := utf8 "opencl___"
  /-- The number of bytes per release literal. -/
  chunkSize : Int64 := Artifact.standardChunkSize
  /-- The macro that selects the debug literals. -/
  debugMacro : Bytes := Artifact.standardDebugMacro
  /-- How renaming tables are applied. -/
  strategy : Renaming.Strategy := .token
  /-- Are line comments removed? -/
  lineComments : Bool := true
  /-- Is everything done but writing? -/
  dryRun : Bool := false
  deriving DecidableEq

namespace PackOptions

/-- The options with a chunk size, if it is positive. -/
def chunkedBy (o : PackOptions) (size : Int64) : PackOptions :=
  if 0 < size then { o with chunkSize := size } else o

/-- The options with a debug macro, if it has a name. -/
def debuggedBy (o : PackOptions) (name : Bytes) : PackOptions :=
  if name.isEmpty then o else { o with debugMacro := name }

/-- The symbol of a kernel. -/
def symbol (o : PackOptions) (k : Kernel) : Bytes := symbolOf o.symbolStart k.name

end PackOptions

/-! ### Failures -/

/-- Why a source cannot be loaded. -/
inductive LoadError where
  /-- It cannot be opened. -/
  | unopened (e : FileError)
  /-- It cannot be read once open. -/
  | unread (e : FileError)
  /-- It is no source text. -/
  | refused (path : Bytes) (e : Source.ReadError)
  deriving DecidableEq, Repr

/-- The failure in words. -/
def LoadError.message : LoadError → Bytes
  | .unopened e => utf8 "failed to open kernel source: " ++ e.message
  | .unread e => utf8 "failed to read " ++ e.path ++ utf8 ": " ++ e.message
  | .refused path e => utf8 "failed to read " ++ path ++ utf8 ": " ++ e.message

/-- The class of the failure. -/
def LoadError.category : LoadError → Category
  | .unopened e | .unread e => e.category
  | .refused _ .lineTooLong => .tooLong

/-- Why a kernel cannot be packed. -/
inductive PackError where
  | load (e : LoadError)
  | renaming (r : Renaming.Refusal)
  /-- A generated source cannot be written. -/
  | write (e : FileError)
  deriving DecidableEq, Repr

/-- The class of a refused table. -/
def Renaming.Refusal.category (r : Renaming.Refusal) : Category :=
  match r.fault with
  | .invalid => .invalidAlias
  | .conflict => .conflict

/-- What went wrong, in words. -/
def PackError.detail : PackError → Bytes
  | .load e => e.message
  | .renaming r => utf8 "aliasing failed: " ++ r.message
  | .write e => utf8 "failed to create " ++ e.path ++ utf8 ": " ++ e.message

/-- The failure of the kernel of a name, in words. -/
def PackError.message (kernel : Bytes) (e : PackError) : Bytes :=
  utf8 "kernel " ++ kernel ++ utf8 ": " ++ e.detail

/-- The class of the failure. -/
def PackError.category : PackError → Category
  | .load e => e.category
  | .renaming r => r.category
  | .write e => e.category

/-- What there is in place of a result. -/
inductive Halt where
  /-- A failure, which is returned. -/
  | failed (e : PackError)
  /-- A crash, which ends the program. -/
  | crashed (c : Crash)
  deriving DecidableEq, Repr

/-! ### Results -/

/-- The outcome of packing one kernel. -/
structure PackResult where
  kernel : Bytes
  symbol : Bytes
  /-- The bytes of the loaded lines, their terminators included. -/
  sourceBytes : Int
  /-- The bytes of the packed text, escapes included. -/
  minifiedBytes : Int
  /-- The passes it took to compact the text. -/
  passes : Int
  /-- The entries of the renaming table. -/
  aliases : Int
  /-- The release literals. -/
  chunks : Int
  /-- The lines without comments. -/
  debugLines : Int
  /-- Were the generated sources written? -/
  written : Bool
  /-- The path of the definition. -/
  definition : Bytes
  /-- The path of the declaration. -/
  declaration : Bytes
  /-- The packed text, escaped. -/
  text : Bytes
  deriving DecidableEq, Repr

/-- A value or what there is in its place, with what was logged up to then. -/
structure Logged (ε α : Type) where
  value : Except ε α
  log : List LogRecord

/-! ### The steps -/

section Files

variable {m : Type → Type} [Monad m] [FileStore m]

/-- The lines of a source after its header. -/
def loadSource (path : Bytes) (headerLines : Int) : m (Except LoadError (List Bytes)) := do
  match ← FileStore.read path with
  | .error e => return .error (if e.action = .reading then .unread e else .unopened e)
  | .ok text => return (Source.read text headerLines).mapError (.refused path)

/-- Writes the two sources of an artifact into a directory: their paths. A file is created before
its text is put together, so a definition that crashes leaves an empty file. -/
def writeArtifact (dir : Bytes) (a : Artifact) : m (Except Halt (Bytes × Bytes)) := do
  let cPath := Path.join [dir, a.symbol ++ utf8 ".c"]
  let hPath := Path.join [dir, a.symbol ++ utf8 ".h"]
  match a.definition with
  | .error c =>
    match ← FileStore.write cPath [] with
    | .error e => return .error (.failed (.write e))
    | .ok () => return .error (.crashed c)
  | .ok definition =>
    match ← FileStore.write cPath definition with
    | .error e => return .error (.failed (.write e))
    | .ok () =>
      match ← FileStore.write hPath a.declaration with
      | .error e => return .error (.failed (.write e))
      | .ok () => return .ok (cPath, hPath)

end Files

/-- The text of source lines before renaming, the lines without comments, and the passes it took
to compact it. -/
def minify (lines : List Bytes) (lineComments : Bool) : List Bytes × Bytes × Nat :=
  let debug := Source.withoutComments lines lineComments
  let (text, passes) := Source.compact (Source.normalize debug)
  (debug, text, passes)

/-- The bytes of lines, a terminator each included. -/
def byteCount (lines : List Bytes) : Nat := lines.foldr (fun l n => l.length + 1 + n) 0

/-- The result and the artifact of a kernel with the given lines. -/
def assemble (o : PackOptions) (k : Kernel) (lines : List Bytes) :
    Logged Halt (PackResult × Artifact) :=
  let (debug, text, passes) := minify lines o.lineComments
  let log := [LogRecord.compacted k.name passes]
  match Renaming.apply o.strategy text k.table with
  | .error r => ⟨.error (.failed (.renaming r)), log⟩
  | .ok text =>
    match Artifact.chunk text o.chunkSize with
    | .error c => ⟨.error (.crashed c), log⟩
    | .ok chunks =>
      let escaped := Artifact.escape text
      let artifact : Artifact :=
        { symbol := o.symbol k, debugLines := debug, text, chunkSize := o.chunkSize,
          debugMacro := o.debugMacro }
      let result : PackResult :=
        { kernel := k.name, symbol := artifact.symbol, sourceBytes := byteCount lines,
          minifiedBytes := escaped.length, passes, aliases := k.table.size,
          chunks := chunks.length, debugLines := debug.length, written := false,
          definition := [], declaration := [], text := escaped }
      ⟨.ok (result, artifact), log⟩

section Files

variable {m : Type → Type} [Monad m] [FileStore m]

/-- Packs one kernel. -/
def pack (o : PackOptions) (k : Kernel) : m (Logged Halt PackResult) := do
  match ← loadSource k.source k.headerLines with
  | .error e => return ⟨.error (.failed (.load e)), []⟩
  | .ok lines =>
    match assemble o k lines with
    | ⟨.error h, log⟩ => return ⟨.error h, log⟩
    | ⟨.ok (result, artifact), log⟩ =>
      if o.dryRun then
        return ⟨.ok result, log ++ [.checked result.kernel result.minifiedBytes]⟩
      else
        match ← writeArtifact o.outputDir artifact with
        | .error h => return ⟨.error h, log⟩
        | .ok (definition, declaration) =>
          return ⟨.ok { result with written := true, definition, declaration },
            log ++ [.generated result.kernel result.symbol result.sourceBytes
              result.minifiedBytes result.chunks]⟩

end Files

/-! ### Runs -/

/-- Why a run stops early. -/
inductive RunError where
  /-- It was called off. -/
  | canceled
  /-- The kernel of a name failed. -/
  | kernel (name : Bytes) (e : PackError)
  deriving DecidableEq, Repr

/-- The failure in words. -/
def RunError.message : RunError → Bytes
  | .canceled => utf8 "context canceled"
  | .kernel name e => e.message name

/-- The class of the failure. -/
def RunError.category : RunError → Category
  | .canceled => .canceled
  | .kernel _ e => e.category

/-- What a run returns: the results up to the failure, if there was one. -/
structure RunReport where
  results : List PackResult
  failure : Option RunError
  deriving DecidableEq, Repr

/-- The report with the result of a kernel before the others. -/
def RunReport.after (r : PackResult) (report : RunReport) : RunReport :=
  { report with results := r :: report.results }

/-- Packs kernels in order up to the first failure. `patience` is the number of kernels that may be
begun before the run is called off, if it is. After a crash nothing is returned. -/
def runKernels {m : Type → Type} [Monad m] [FileStore m] (o : PackOptions) :
    Option Nat → List Kernel → m (Logged Crash RunReport)
  | _, [] => return ⟨.ok ⟨[], none⟩, []⟩
  | some 0, _ :: _ => return ⟨.ok ⟨[], some .canceled⟩, []⟩
  | patience, k :: ks => do
    match ← pack o k with
    | ⟨.error (.crashed c), log⟩ => return ⟨.error c, log⟩
    | ⟨.error (.failed e), log⟩ =>
      return ⟨.ok ⟨[], some (.kernel k.name e)⟩, log ++ [.failed k.name (e.message k.name)]⟩
    | ⟨.ok r, log⟩ =>
      let rest ← runKernels o (patience.map (· - 1)) ks
      return ⟨rest.value.map (·.after r), log ++ rest.log⟩

end KernelPack
