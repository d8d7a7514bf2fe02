import KernelPack.CommandLine.Program
import KernelPack.Storage.Machine

/-!
# The command line

Runs the program on the machine: passes on the arguments and the environment, prints what the
program writes, and, while it watches, looks at the sources again and again.
-/

namespace KernelPack

/-- Writes what the program has written. -/
def put (o : Program.Output) : IO Unit := do
  let out ← IO.getStdout
  out.write ⟨o.out.toArray⟩
  out.flush
  let err ← IO.getStderr
  err.write ⟨o.err.toArray⟩
  err.flush

/-- The variables of the environment that the program reads. -/
def environment : IO Settings.Environment :=
  Settings.keys.filterMapM fun key => do
    match Machine.text? (Settings.variableOf key) with
    | none => return none
    | some name => return (← IO.getEnv name).map fun v => (Settings.variableOf key, utf8 v)

/-- The contents of the watched sources. -/
def observe (s : Program.Session) : IO (List (Bytes × Option Bytes)) :=
  s.watcher.sources.mapM fun (path, _) => do
    match ← (FileStore.read path : IO _) with
    | .ok contents => return (path, some contents)
    | .error _ => return (path, none)

/-- Tells the session of every source whose contents are new. -/
def noticeChanges (s : Program.Session) (before now : List (Bytes × Option Bytes)) :
    Program.Session :=
  now.foldl (fun s (path, contents) =>
    if contents.isSome && before.lookup path != some contents then s.notice ⟨path, [.write]⟩
    else s) s

/-- The exit status after an outcome other than watching, whose output is printed. -/
def finish : Program.Outcome → IO UInt32
  | .ended o failure => do
    put o
    return if failure.isSome then 1 else 0
  | .crashed o crash => do
    put (o.append { err := utf8 "panic: " ++ crash.message ++ [Byte.lf] })
    return 2
  | .watching _ o => do
    put o
    return 0

/-- Watches until the program is stopped or crashes. Changes are packed when none has come for one
period. -/
partial def watchLoop (s : Program.Session) (seen : List (Bytes × Option Bytes)) : IO UInt32 := do
  IO.sleep (s.debounce / 1000000).toNat.toUInt32
  let now ← observe s
  if now == seen then
    match ← (s.settle : IO Program.Outcome) with
    | .watching s o =>
      put o
      watchLoop s now
    | outcome => finish outcome
  else watchLoop (noticeChanges s seen now) now

end KernelPack

open KernelPack in
/-- Runs the program; the result is its exit status. -/
def main (args : List String) : IO UInt32 := do
  match ← (Program.run (← environment) (args.map utf8) : IO Program.Outcome) with
  | .watching s o =>
    put o
    watchLoop s (← observe s)
  | outcome => finish outcome
