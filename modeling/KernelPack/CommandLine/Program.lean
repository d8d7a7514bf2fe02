import KernelPack.CommandLine.Command
import KernelPack.Config.Sources
import KernelPack.Kernel.Watcher
import KernelPack.Report.LogLine
import KernelPack.Report.Writer
import KernelPack.Settings.File
import KernelPack.Settings.Starter

/-!
# The program

`Program.run` is the whole program as a function of its environment and arguments, over any file
store. It finds the command, reads the flags, loads the settings and carries the command out. What
comes of it is an `Outcome`: the program has ended, with what it wrote and whether it failed; or it
has crashed, after it wrote something; or it is **watching**, and goes on as a `Session`, to be told
of changes (`Session.notice`) and of the time when they have settled (`Session.settle`).
-/

namespace KernelPack.Program

/-! ### Outcomes -/

/-- What the program has written. -/
structure Output where
  out : Bytes := []
  err : Bytes := []

/-- First one output, then the other. -/
def Output.append (a b : Output) : Output := ⟨a.out ++ b.out, a.err ++ b.err⟩

/-- Why the program fails. -/
structure Failure where
  message : Bytes
  category : Category
  deriving DecidableEq, Repr

/-- A failure without a class of its own. -/
def Failure.plain (message : Bytes) : Failure := ⟨message, .other⟩

/-- What a failing program says at its end. -/
def Failure.line (f : Failure) : Bytes := utf8 "Error: " ++ f.message ++ [Byte.lf]

/-- A watch in progress. -/
structure Session where
  watcher : Watcher
  format : Report.Format
  verbose : Bool
  /-- The quiet period before kernels are packed anew, in nanoseconds. -/
  debounce : Int

/-- What comes of running the program. -/
inductive Outcome where
  | ended (output : Output) (failure : Option Failure)
  | crashed (output : Output) (crash : Crash)
  | watching (session : Session) (output : Output)

/-- The outcome after earlier output. -/
def Outcome.after (o : Output) : Outcome → Outcome
  | .ended output failure => .ended (o.append output) failure
  | .crashed output crash => .crashed (o.append output) crash
  | .watching session output => .watching session (o.append output)

/-- The program ends well. -/
def succeed (out : Bytes) : Outcome := .ended { out } none

/-- The program fails, after it has written something. -/
def failAfter (o : Output) (f : Failure) : Outcome :=
  .ended (o.append { err := f.line }) (some f)

/-- The program fails. -/
def fail (f : Failure) : Outcome := failAfter {} f

/-! ### Settings -/

/-- The settings that flags give. -/
def givenSettings (a : Arguments) : List (String × Settings.Value) :=
  let setting (flag key : String) : List (String × Settings.Value) :=
    match a.get? flag with
    | some (.text b) => [(key, .text b)]
    | some (.truth b) => [(key, .truth b)]
    | _ => []
  setting "format" "format" ++ setting "verbose" "verbose" ++ setting "no-color" "no_color"

/-- The configuration with what the flags of the command say about packing. -/
def withPackFlags (a : Arguments) (c : Config) : Config :=
  { c with
    outputDir := (a.text? "output-dir").getD c.outputDir
    symbolStart := (a.text? "prefix").getD c.symbolStart
    strategy := (a.text? "strategy").getD c.strategy }

/-- The configuration that applies, checked. -/
def configOf (l : Settings.Layers) (a : Arguments) : Except Failure Config :=
  match l.config with
  | .error ms => .error (.plain (Settings.misfitsMessage ms))
  | .ok c =>
    let c := withPackFlags a c
    match c.validate with
    | .error e => .error ⟨e.message, .invalidConfig⟩
    | .ok () => .ok c

/-- What is said where there is nothing to pack. -/
def noKernelsMessage : Bytes :=
  utf8 "no kernels configured (run 'clpack init' to create " ++ Settings.fileName ++ utf8 ")"

/-- The kernels to be packed: those of the given names, or all. -/
def kernelsOf (c : Config) (names : List Bytes) : Except Failure (List Kernel) :=
  match c.kernelList with
  | .error e => .error ⟨e.message, .invalidConfig⟩
  | .ok [] => .error (.plain noKernelsMessage)
  | .ok (k :: ks) =>
    match selectKernels (k :: ks) names with
    | .error n => .error (.plain (unknownKernelMessage n))
    | .ok ks => .ok ks

/-- How the configuration has kernels packed. -/
def packOptions (c : Config) (dryRun : Bool) : PackOptions :=
  let o : PackOptions :=
    { outputDir := c.outputDir, symbolStart := c.symbolStart,
      strategy := (Renaming.Strategy.parse? c.strategy).getD .token,
      lineComments := c.stripLineComments, dryRun }
  (o.chunkedBy c.chunkSize).debuggedBy c.debugMacro

/-- What the commands that pack kernels start from. -/
structure Job where
  config : Config
  kernels : List Kernel
  format : Report.Format

/-- The job that settings and arguments describe. -/
def jobOf (l : Settings.Layers) (a : Arguments) : Except Failure Job := do
  let c ← configOf l a
  let ks ← kernelsOf c a.words
  return ⟨c, ks, Report.Format.parse c.format⟩

/-! ### Identifiers -/

/-- The identifiers that the list shows, after those `shown` already. One whose name is shorter than
`minLength` is passed over, and the list ends as soon as it has `top` of them, if that is
positive. -/
def showFrom (minLength top : Int) (shown : List IdentifierCount) :
    List IdentifierCount → List IdentifierCount
  | [] => shown
  | i :: rest =>
    if i.name.length < minLength then showFrom minLength top shown rest
    else
      let shown := shown ++ [i]
      if 0 < top ∧ shown.length = top then shown else showFrom minLength top shown rest

/-- The identifiers of source lines that the list shows: those of at least a length, and at most so
many of them, all if that is not positive. -/
def listedIdentifiers (lines : List Bytes) (lineComments : Bool) (minLength top : Int) :
    List IdentifierCount :=
  showFrom minLength top []
    (identifiers (Source.normalize (Source.withoutComments lines lineComments)))

section Files

variable {m : Type → Type} [Monad m] [FileStore m]

/-! ### Commands -/

/-- The end of a build whose run came to this: the results, and a line about the kernel behind them
if it failed. After a crash there is nothing to report on. -/
def reportRun (job : Job) (ran : Logged Crash RunReport) : Outcome :=
  let logged := LogRecord.lines job.config.verbose ran.log
  match ran.value with
  | .error c => .crashed { err := logged } c
  | .ok r =>
    let o : Output := { out := Report.results job.format false r.results, err := logged }
    match r.failure with
    | none => .ended o none
    | some e =>
      let failed := (job.kernels[r.results.length]?.map Kernel.name).getD []
      failAfter (o.append { out := Report.failure job.format false failed e.message })
        ⟨e.message, e.category⟩

/-- Packs the kernels and reports on them. -/
def buildKernels (l : Settings.Layers) (a : Arguments) : m Outcome := do
  match jobOf l a with
  | .error f => return fail f
  | .ok job =>
    return reportRun job
      (← runKernels (packOptions job.config (a.isOn "dry-run")) none job.kernels)

/-- The report on kernels packed by a watcher. -/
def reportBuilds (format : Report.Format) (bs : List Build) : Bytes :=
  bs.flatMap fun b =>
    match b.value with
    | .ok r => Report.result format false r
    | .error e => Report.failure format false b.kernel (e.message b.kernel)

/-- The quiet period where none is asked for, in nanoseconds. -/
def standardQuiet : Int := 200000000

/-- The quiet period that is asked for; one that is not positive counts as none. -/
def debounceOf (a : Arguments) : Int :=
  let asked := a.duration "debounce" standardQuiet
  if 0 < asked then asked else standardQuiet

/-- Begins to watch the kernels, packing them once unless that is not wanted. -/
def watchKernels (l : Settings.Layers) (a : Arguments) : m Outcome := do
  match jobOf l a with
  | .error f => return fail f
  | .ok job =>
    let options := packOptions job.config false
    match ← Watcher.start options job.kernels with
    | (.error e, _) => return fail ⟨e.setupMessage, e.category⟩
    | (.ok w, _) =>
      let session : Session :=
        { watcher := w, format := job.format, verbose := job.config.verbose,
          debounce := debounceOf a }
      if a.isOn "no-initial" then return .watching session {}
      else
        let ⟨value, builds, log⟩ ← Watcher.buildAll options job.kernels
        let o : Output :=
          ⟨reportBuilds job.format builds, LogRecord.lines job.config.verbose log⟩
        match value with
        | .error c => return .crashed o c
        | .ok () => return .watching session o

/-- Lists the identifiers of a source. -/
def listIdentifiers (l : Settings.Layers) (a : Arguments) (path : Bytes) : m Outcome := do
  match configOf l a with
  | .error f => return fail f
  | .ok c =>
    let asked := a.integer "header-lines" (-1)
    match ← loadSource path (if asked < 0 then c.headerLines else asked) with
    | .error e => return fail ⟨e.message, e.category⟩
    | .ok lines =>
      return succeed (Report.identifiers (Report.Format.parse c.format)
        (listedIdentifiers lines c.stripLineComments (a.integer "min-length" 3)
          (a.integer "top" 0)))

/-- Writes a settings file for the sources that patterns name. -/
def writeStarterFor (dir path : Bytes) (patterns : List Bytes) : m Outcome := do
  match ← findSources dir patterns with
  | .error e => return fail ⟨e.message, e.category⟩
  | .ok sources =>
    match ← FileStore.write path (Settings.starterText (Config.starter sources)) with
    | .error e => return fail ⟨utf8 "failed to write config: " ++ e.message, e.category⟩
    | .ok () =>
      return succeed (utf8 "Wrote " ++ path ++ utf8 " with "
        ++ Numeral.decimal sources.length ++ utf8 " kernel(s)\n")

/-- Writes a settings file to start from, in place of another only if that is asked for. -/
def writeStarter (a : Arguments) : m Outcome := do
  let dir := (a.text? "dir").getD Path.here
  let path := Path.join [dir, Settings.fileName]
  if a.isOn "force" then writeStarterFor dir path a.words
  else
    match ← FileStore.inspect path with
    | .ok _ =>
      return fail (.plain (path ++ utf8 " already exists (use --force to overwrite)"))
    | .error e =>
      if e.cause = .notFound then writeStarterFor dir path a.words
      else return fail ⟨e.message, e.category⟩

/-- Carries a command out. -/
def runCommand (c : Command) (l : Settings.Layers) (a : Arguments) : m Outcome :=
  match c with
  | .build => buildKernels l a
  | .watch => watchKernels l a
  | .idents =>
    match a.words with
    | [path] => listIdentifiers l a path
    | ws => return fail (.plain (utf8 "accepts 1 arg(s), received " ++ Numeral.decimal ws.length))
  | .init => writeStarter a
  | .version => return succeed (utf8 "clpack dev (commit: none, built: unknown)\n")
  | .completion | .help => return succeed []

/-! ### The whole -/

/-- Loads the settings file and goes on with a command. -/
def runWithSettings (env : Settings.Environment) (c : Command) (a : Arguments) : m Outcome := do
  let file ← Settings.loadFile ((a.text? "config").getD [])
  let layers : Settings.Layers :=
    { given := givenSettings a, environment := env, file := (file.map Prod.snd).getD [] }
  let note : Output := match file with
    | some (path, _) =>
      if layers.isVerbose then { err := utf8 "Using config file: " ++ path ++ [Byte.lf] } else {}
    | none => {}
  return (← runCommand c layers a).after note

/-- Runs the program. Where it is asked for explanations it ends without doing anything. -/
def run (env : Settings.Environment) (args : List Bytes) : m Outcome := do
  match Command.find args with
  | .error w =>
    let f := Failure.plain (Command.unknownMessage w)
    return .ended { err := f.line ++ utf8 "Run 'clpack --help' for usage.\n" } (some f)
  | .ok (c, rest) =>
    match readArguments (Command.flags c) rest with
    | .error e => return fail (.plain e.message)
    | .ok a =>
      match c with
      | none => return succeed []
      | some c => if a.isOn "help" then return succeed [] else runWithSettings env c a

/-! ### Watching -/

/-- Takes note of something that happened to a file. -/
def Session.notice (s : Session) (e : FileEvent) : Session :=
  { s with watcher := (s.watcher.handle e).1 }

/-- Packs what has changed, once things have been quiet for a while. -/
def Session.settle (s : Session) : m Outcome := do
  let ⟨value, builds, log⟩ ← s.watcher.packPending
  let o : Output := ⟨reportBuilds s.format builds, LogRecord.lines s.verbose log⟩
  match value with
  | .error c => return .crashed o c
  | .ok w => return .watching { s with watcher := w } o

end Files

end KernelPack.Program
