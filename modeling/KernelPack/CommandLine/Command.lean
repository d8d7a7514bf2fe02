import KernelPack.CommandLine.Flag
import KernelPack.Text.Letter

/-!
# Commands

The command is the first argument that is neither a flag nor the value of one. Which arguments are
values can only be guessed as long as the command is not known: a flag that is not one of the
program's own switches is taken to have its value in the next argument. The rest of the arguments
is then read with the flags of the command. An unknown command is answered with the commands whose
names are close to it or begin with it.
-/

namespace KernelPack

/-- What the program can be asked to do. -/
inductive Command where
  /-- Pack the kernels. -/
  | build
  /-- List the identifiers of a source. -/
  | idents
  /-- Write a settings file to start from. -/
  | init
  /-- Tell which version this is. -/
  | version
  /-- Pack the kernels, and again whenever their sources change. -/
  | watch
  /-- Write a script that completes command lines. -/
  | completion
  /-- Explain the commands. -/
  | help
  deriving DecidableEq, Repr

namespace Command

/-- The name of a command. -/
def name : Command → Bytes
  | .build => utf8 "build"
  | .idents => utf8 "idents"
  | .init => utf8 "init"
  | .version => utf8 "version"
  | .watch => utf8 "watch"
  | .completion => utf8 "completion"
  | .help => utf8 "help"

/-- The commands that can be suggested, in the order in which they are listed. -/
def suggestible : List Command := [.build, .idents, .init, .version, .watch, .completion]

/-- The command of a name. -/
def ofName? (n : Bytes) : Option Command :=
  (suggestible ++ [Command.help]).find? fun c => c.name = n

/-! ### Flags -/

/-- The flags of every command. -/
def commonFlags : List Flag :=
  [⟨"config", none, .text⟩, ⟨"format", some 'f', .text⟩, ⟨"verbose", some 'v', .switch⟩,
    ⟨"no-color", none, .switch⟩]

/-- The flags that say how kernels are packed. -/
def packFlags : List Flag :=
  [⟨"output-dir", some 'o', .text⟩, ⟨"prefix", none, .text⟩, ⟨"strategy", none, .text⟩]

/-- The flags of a command alone. -/
def ownFlags : Command → List Flag
  | .build => packFlags ++ [⟨"dry-run", none, .switch⟩]
  | .watch => packFlags ++ [⟨"debounce", none, .duration⟩, ⟨"no-initial", none, .switch⟩]
  | .idents =>
    [⟨"header-lines", none, .integer⟩, ⟨"min-length", none, .integer⟩, ⟨"top", some 'n', .integer⟩]
  | .init => [⟨"dir", none, .text⟩, ⟨"force", none, .switch⟩]
  | _ => []

/-- The flag that asks for an explanation. -/
def helpFlag : Flag := ⟨"help", some 'h', .switch⟩

/-- The flags that may be given with a command, or without one. -/
def flags (c : Option Command) : List Flag :=
  commonFlags ++ (c.map ownFlags).getD [] ++ [helpFlag]

/-! ### Finding the command -/

/-- Is the next argument taken to be the value of this one? -/
def takesNext (s : Bytes) : Bool :=
  if s.contains 61 then false
  else match s with
    | 45 :: 45 :: n => !(commonFlags.any fun f => f.kind == .switch && utf8 f.name == n)
    | [45, b] =>
      !(commonFlags.any fun f => f.kind == .switch && f.letter == some (Char.ofNat b.toNat))
    | _ => false

/-- The arguments that are neither flags nor taken to be values of flags. A flag at the end, with at
most one argument after it, hides what follows. -/
def words : List Bytes → List Bytes
  | [] => []
  | s :: rest =>
    if s = utf8 "--" then []
    else if takesNext s then
      match rest with
      | _ :: t :: ts => words (t :: ts)
      | _ => []
    else if s.isEmpty || s.head? == some 45 then words rest
    else s :: words rest

/-- The arguments without the first that is the given word. -/
def without (w : Bytes) : List Bytes → List Bytes
  | [] => []
  | s :: rest =>
    if s = utf8 "--" then s :: rest
    else if takesNext s then
      match rest with
      | v :: t => s :: v :: without w t
      | [] => [s]
    else if s = w then rest
    else s :: without w rest

/-- The command that arguments ask for and the other arguments; fails with the first word if that
is no command. -/
def find (args : List Bytes) : Except Bytes (Option Command × List Bytes) :=
  match words args with
  | [] => .ok (none, args)
  | w :: _ =>
    match ofName? w with
    | some c => .ok (some c, without w args)
    | none => .error w

/-! ### Suggestions -/

/-- The next row of the table of distances, from the one above and its first entry. -/
def nextDistances (a : UInt8) (left : Nat) : Bytes → List Nat → List Nat
  | b :: t, diagonal :: above :: row =>
    let d := if a == b then diagonal else 1 + min (min left above) diagonal
    d :: nextDistances a d t (above :: row)
  | _, _ => []

/-- The least number of bytes to be inserted, deleted or replaced to get from one text to the
other. -/
def distance (s t : Bytes) : Nat :=
  let row := s.foldl (fun row a =>
    let left := row.headD 0 + 1
    left :: nextDistances a left t row) (List.range (t.length + 1))
  row.getLastD 0

/-- The commands that may have been meant by a word. -/
def suggestions (w : Bytes) : List Command :=
  suggestible.filter fun c => distance w.lower c.name ≤ 2 || w.lower.isPrefixOf c.name

/-- What is said of a word that is no command. -/
def unknownMessage (w : Bytes) : Bytes :=
  utf8 "unknown command " ++ w.quoted ++ utf8 " for \"clpack\""
    ++ match suggestions w with
      | [] => []
      | cs => utf8 "\n\nDid you mean this?\n"
        ++ cs.flatMap fun c => utf8 "\t" ++ c.name ++ [Byte.lf]

end Command

end KernelPack
