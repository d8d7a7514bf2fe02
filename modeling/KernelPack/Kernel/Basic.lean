import KernelPack.Path.Basic
import KernelPack.Renaming.Table

/-!
# Kernels

A **kernel** is a source file with the number of banner lines to skip and a renaming table. Its
name is the file name without extension, and its symbol, the name of the character array, is a
prefix and the name made into a C identifier: every byte that cannot stand in one becomes an
underscore.
-/

namespace KernelPack

/-- A kernel to be packed. -/
structure Kernel where
  /-- The path of the source. -/
  source : Bytes
  /-- The number of leading lines to skip. -/
  headerLines : Int
  /-- What to rename. -/
  table : Renaming.Table
  deriving DecidableEq, Repr

namespace Kernel

/-- The name a source gives its kernel. -/
def nameOf (source : Bytes) : Bytes := Path.stem source

/-- The name of a kernel. -/
def name (k : Kernel) : Bytes := nameOf k.source

end Kernel

/-- A byte of a symbol: kept if it can stand in an identifier, at the first place or a later
one. -/
def symbolByte (first : Bool) (b : UInt8) : UInt8 :=
  if Byte.isNameStart b || (Byte.isDigit b && !first) then b else Byte.underscore

/-- The text made into a C identifier. -/
def sanitize : Bytes → Bytes
  | [] => []
  | b :: t => symbolByte true b :: t.map (symbolByte false)

/-- The symbol of a kernel name under a prefix. -/
def symbolOf (start name : Bytes) : Bytes := sanitize (start ++ name)

end KernelPack
