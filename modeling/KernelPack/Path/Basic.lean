import KernelPack.Bytes

/-!
# Paths

A path is a byte string of components separated by slashes; one that begins with a slash is
absolute. The operations here are **lexical**: they look at the text of paths only. A path is in
normal form (`clean`) if it has no empty component, no `.` besides the path `.` itself, and `..`
only in front of a relative path.
-/

namespace KernelPack.Path

/-- Does the path begin at the root? -/
def isAbsolute (p : Bytes) : Bool := p.head? == some Byte.slash

/-- The component that stands for the directory itself. -/
def here : Bytes := [Byte.dot]

/-- The component that stands for the parent directory. -/
def up : Bytes := [Byte.dot, Byte.dot]

/-- The non-empty components. -/
def components (p : Bytes) : List Bytes := (Bytes.pieces Byte.slash p).filter (· ≠ [])

/-- Adds a component to a normal form held last component first. -/
def push (rooted : Bool) (acc : List Bytes) (c : Bytes) : List Bytes :=
  if c = here then acc
  else if c = up then
    match acc with
    | [] => if rooted then [] else [up]
    | d :: ds => if d = up then up :: acc else ds
  else c :: acc

/-- The components of the normal form. -/
def normalComponents (p : Bytes) : List Bytes :=
  ((components p).foldl (push (isAbsolute p)) []).reverse

/-- The path with the given components. -/
def ofComponents (rooted : Bool) (cs : List Bytes) : Bytes :=
  if rooted then Byte.slash :: Bytes.joinWith [Byte.slash] cs
  else if cs.isEmpty then here
  else Bytes.joinWith [Byte.slash] cs

/-- The normal form of a path. -/
def clean (p : Bytes) : Bytes := ofComponents (isAbsolute p) (normalComponents p)

/-- The parts put one below the other, in normal form; leading empty parts count for nothing. -/
def join (parts : List Bytes) : Bytes :=
  match parts.dropWhile List.isEmpty with
  | [] => []
  | ps => clean (Bytes.joinWith [Byte.slash] ps)

/-- The last component. -/
def base (p : Bytes) : Bytes :=
  if p.isEmpty then here else (components p).getLastD [Byte.slash]

/-- The part of a component from its last dot on. -/
def extension (c : Bytes) : Bytes :=
  let tail := (c.reverse.takeWhile (· != Byte.dot)).reverse
  if tail.length = c.length then [] else Byte.dot :: tail

/-- The last component without its extension. -/
def stem (p : Bytes) : Bytes :=
  let b := base p
  b.take (b.length - (extension b).length)

/-- The directory a path lies in. -/
def directory (p : Bytes) : Bytes := clean (p.reverse.dropWhile (· != Byte.slash)).reverse

/-- The normal form of a path seen from a working directory, itself absolute. -/
def absolute (cwd p : Bytes) : Bytes := if isAbsolute p then clean p else join [cwd, p]

/-- The lists without their common beginning. -/
def dropCommon : List Bytes → List Bytes → List Bytes × List Bytes
  | a :: as, b :: bs => if a = b then dropCommon as bs else (a :: as, b :: bs)
  | as, bs => (as, bs)

/-- The way from a directory to a path, both absolute or both relative: up past what they do not
share, then down. There is none out of a directory that begins with `..` where the path does
not. -/
def relativeTo? (dir p : Bytes) : Option Bytes :=
  if clean dir = clean p then some here
  else if isAbsolute dir != isAbsolute p then none
  else
    let (ups, downs) := dropCommon (normalComponents dir) (normalComponents p)
    if ups.head? = some up then none
    else some (Bytes.joinWith [Byte.slash] (ups.map (fun _ => up) ++ downs))

end KernelPack.Path
