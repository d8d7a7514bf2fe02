import KernelPack.Text.Blank
import KernelPack.Text.Letter
import KernelPack.Text.Numeral
import KernelPack.Text.Quoted

/-!
# Renaming tables

A kernel's long identifiers may be renamed to short aliases. A **table** lists what to rename, in
order. Its aliases are either given with the entries, or *positional*: made from the table's
family, which keeps the aliases of different kernels apart, and the position of the entry.
-/

namespace KernelPack.Renaming

/-- An identifier and the alias it is renamed to. -/
structure Entry where
  /-- The identifier in the source. -/
  name : Bytes
  /-- Its alias. -/
  new : Bytes
  deriving DecidableEq, Repr

/-- Where a table's aliases come from. -/
inductive Aliasing where
  /-- They are given with the entries. -/
  | explicit
  /-- They are made from the entries' positions. -/
  | positional
  /-- The table does not say; its entries are taken as they are. -/
  | unknown
  deriving DecidableEq, Repr

/-- The word for a way of aliasing. -/
def Aliasing.label : Aliasing → Bytes
  | .explicit => utf8 "explicit"
  | .positional => utf8 "positional"
  | .unknown => utf8 "unknown"

/-- What to rename in one kernel, in order. -/
structure Table where
  aliasing : Aliasing
  /-- What the positional aliases of this table have in common. -/
  family : Bytes
  entries : List Entry
  deriving DecidableEq, Repr

/-- The alias of the entry at an index of a family: an underscore, the family, an underscore and
the index in hexadecimal. -/
def numberedAlias (family : Bytes) (index : Int) : Bytes :=
  [Byte.underscore] ++ family ++ [Byte.underscore] ++ Numeral.hex index

/-- The family of the kernel at an index of the configuration, unless it names one. -/
def defaultFamily (index : Int) : Bytes := Numeral.hex index

namespace Table

/-- A table with the given aliases. -/
def ofPairs (entries : List Entry) : Table := ⟨.explicit, [], entries⟩

/-- A table that renames the given names by position. -/
def ofNames (family : Bytes) (names : List Bytes) : Table :=
  ⟨.positional, family, names.map (⟨·, []⟩)⟩

/-- The number of entries. -/
def size (t : Table) : Nat := t.entries.length

/-- The entries in order, each with its alias. -/
def resolve (t : Table) : List Entry :=
  match t.aliasing with
  | .positional => t.entries.mapIdx fun i e => { e with new := numberedAlias t.family i }
  | _ => t.entries

end Table

/-! ### Strategies -/

/-- How a table is applied to a text. -/
inductive Strategy where
  /-- Whole identifiers are renamed. -/
  | token
  /-- Every occurrence of a name is replaced, entry by entry. -/
  | text
  deriving DecidableEq, Repr

namespace Strategy

/-- The word for a strategy. -/
def label : Strategy → Bytes
  | .token => utf8 "token"
  | .text => utf8 "text"

/-- The strategy a word asks for: `text` for that very word, else `token`. -/
def ofLabel (word : Bytes) : Strategy := if word = Strategy.text.label then .text else .token

/-- The strategy a setting names, up to case and surrounding white space; no word at all means
`token`. -/
def parse? (setting : Bytes) : Option Strategy :=
  let word := setting.trim.lower
  if word = [] ∨ word = Strategy.token.label then some .token
  else if word = Strategy.text.label then some .text
  else none

/-- What is said of a setting that names no strategy. -/
def unknownMessage (setting : Bytes) : Bytes :=
  utf8 "unknown alias strategy " ++ setting.quoted ++ utf8 " (must be 'token' or 'text')"

end Strategy

end KernelPack.Renaming
