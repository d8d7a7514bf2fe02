import KernelPack.Kernel.Pack

/-!
# Configurations

A configuration names the kernels of a project and how to pack them. `validate` finds the first
thing wrong with it; a valid one gives the list of its kernels (`kernelList`), in which every kernel
has its source below the source directory, its header count, and its table. A kernel's positional
aliases get the kernel's index as their family unless it names another, so the tables of different
kernels stay apart however few of them are built. `selectKernels` picks kernels by name, in one pass
that takes what is asked for and marks the names that it has seen.
-/

namespace KernelPack

/-- A kernel as the configuration describes it. -/
structure KernelEntry where
  /-- The source file, below the source directory. -/
  source : Bytes
  /-- The banner lines to skip, where they differ from the configuration's. -/
  headerLines : Option Int
  /-- The family of the positional aliases; empty means the default. -/
  family : Bytes
  /-- Names with their aliases. -/
  aliases : List Renaming.Entry
  /-- Names to be given positional aliases. -/
  names : List Bytes
  deriving DecidableEq, Repr

/-- What a project packs, and how. -/
structure Config where
  format : Bytes
  verbose : Bool
  noColor : Bool
  sourceDir : Bytes
  outputDir : Bytes
  symbolStart : Bytes
  debugMacro : Bytes
  chunkSize : Int64
  headerLines : Int
  strategy : Bytes
  stripLineComments : Bool
  kernels : List KernelEntry

/-! ### Validity -/

/-- Why a configuration is refused. -/
inductive ConfigError where
  | negativeChunkSize
  | negativeHeaderLines
  | unknownStrategy (setting : Bytes)
  | noSource (kernel : Nat)
  | negativeKernelHeaderLines (source : Bytes)
  /-- A kernel has both aliases and names. -/
  | twoTables (source : Bytes)
  | sameName (first second : Nat) (name : Bytes)
  deriving DecidableEq, Repr

/-- The reason in words. -/
def ConfigError.message (e : ConfigError) : Bytes :=
  utf8 "invalid configuration: " ++ match e with
    | .negativeChunkSize => utf8 "chunk_size must not be negative"
    | .negativeHeaderLines => utf8 "header_lines must not be negative"
    | .unknownStrategy s => Renaming.Strategy.unknownMessage s
    | .noSource i => utf8 "kernel " ++ Numeral.decimal i ++ utf8 " has no source"
    | .negativeKernelHeaderLines s =>
      utf8 "kernel " ++ s ++ utf8 ": header_lines must not be negative"
    | .twoTables s => utf8 "kernel " ++ s ++ utf8 " declares both aliases and names"
    | .sameName i j n =>
      utf8 "kernels " ++ Numeral.decimal i ++ utf8 " and " ++ Numeral.decimal j
        ++ utf8 " share the name " ++ n.quoted

namespace KernelEntry

/-- The table of the kernel at an index. -/
def table (k : KernelEntry) (index : Nat) : Renaming.Table :=
  if k.names.isEmpty then .ofPairs k.aliases
  else .ofNames (if k.family.isEmpty then Renaming.defaultFamily index else k.family) k.names

end KernelEntry

namespace Config

/-- Checks the kernels after those whose names are `seen`. -/
def validateKernels (seen : List Bytes) : List KernelEntry → Except ConfigError Unit
  | [] => .ok ()
  | k :: ks =>
    if k.source.isEmpty then .error (.noSource seen.length)
    else if k.headerLines.any (· < 0) then .error (.negativeKernelHeaderLines k.source)
    else if !k.aliases.isEmpty && !k.names.isEmpty then .error (.twoTables k.source)
    else match seen.findIdx? (· == Kernel.nameOf k.source) with
      | some j => .error (.sameName j seen.length (Kernel.nameOf k.source))
      | none => validateKernels (seen ++ [Kernel.nameOf k.source]) ks

/-- The first thing wrong with a configuration. -/
def validate (c : Config) : Except ConfigError Unit :=
  if c.chunkSize < 0 then .error .negativeChunkSize
  else if c.headerLines < 0 then .error .negativeHeaderLines
  else match Renaming.Strategy.parse? c.strategy with
    | none => .error (.unknownStrategy c.strategy)
    | some _ => validateKernels [] c.kernels

/-- The kernel that a description stands for at an index. -/
def kernel (c : Config) (index : Nat) (k : KernelEntry) : Kernel :=
  { source := Path.join [c.sourceDir, k.source],
    headerLines := k.headerLines.getD c.headerLines,
    table := k.table index }

/-- The kernels of a valid configuration, in order. -/
def kernelList (c : Config) : Except ConfigError (List Kernel) := do
  c.validate
  return c.kernels.mapIdx c.kernel

end Config

/-! ### Selection -/

/-- What is noted of each name: nothing, unless it is asked for; and then whether a kernel was seen
that has it. -/
abbrev Marks := Bytes → Option Bool

namespace Marks

/-- A note on one name, in place of any before. -/
def set (marks : Marks) (name : Bytes) (seen : Bool) : Marks :=
  fun n => if n = name then some seen else marks n

/-- What some names ask for, before any kernel was seen. A name may be written as a path or with an
extension. -/
def ofNames (names : List Bytes) : Marks :=
  names.foldl (fun marks n => marks.set (Kernel.nameOf n) false) fun _ => none

/-- Whether a kernel was seen for a name, however the name is written. -/
def isSeen (marks : Marks) (n : Bytes) : Bool := (marks (Kernel.nameOf n)).getD false

end Marks

/-- One kernel of the list: taken if its name is asked for, which is marked then. -/
def selectStep (s : Marks × List Kernel) (k : Kernel) : Marks × List Kernel :=
  if (s.1 k.name).isSome then (s.1.set k.name true, s.2 ++ [k]) else s

/-- The kernels with one of the given names, in their order; all of them if none is given. Fails
with the first name that no kernel has. -/
def selectKernels (kernels : List Kernel) (names : List Bytes) : Except Bytes (List Kernel) :=
  if names.isEmpty then .ok kernels
  else
    let (marks, chosen) := kernels.foldl selectStep (Marks.ofNames names, [])
    match names.find? fun n => !marks.isSeen n with
    | some n => .error n
    | none => .ok chosen

/-- What is said of a name that no kernel has. -/
def unknownKernelMessage (name : Bytes) : Bytes := utf8 "unknown kernel " ++ name.quoted

end KernelPack
