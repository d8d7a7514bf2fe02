import KernelPack.Lexis.Token
import KernelPack.Renaming.Table

/-!
# When a table is safe to apply

Before a table is applied it is checked, and the first thing wrong with it is reported. Both
strategies ask that every name and every alias be an identifier and that none be listed twice
(`checkEntries`). Beyond that

* replacing **text** entry by entry must not touch what an earlier entry put in, nor a later
  name, so no name may be part of a later name, nor a later name part of an alias (`checkText`);
* renaming **tokens** must not merge two identifiers, so no alias may be a name of the table or an
  identifier of the source, and must not leave a name behind, so no name may stand as a word
  outside identifiers and literals, in a directive for example (`checkTokens`).
-/

namespace KernelPack.Renaming

/-- An ASCII letter or underscore, followed by letters, digits and underscores. -/
def isIdentifier : Bytes → Bool
  | [] => false
  | b :: t => Byte.isNameStart b && t.all Byte.isWord

/-! ### What can be wrong -/

/-- The two families of reasons. -/
inductive Fault where
  /-- An entry is unusable by itself. -/
  | invalid
  /-- Entries disturb each other or the source. -/
  | conflict
  deriving DecidableEq, Repr

/-- Why a table is refused. Entries are referred to by their index. -/
inductive Refusal where
  | nameNotIdentifier (entry : Nat) (name : Bytes)
  | aliasNotIdentifier (entry : Nat) (new : Bytes)
  | nameRepeated (name : Bytes) (first second : Nat)
  | aliasRepeated (new : Bytes) (first second : Nat)
  | nameInLaterName (name : Bytes) (entry : Nat) (later : Bytes) (laterEntry : Nat)
  | laterNameInAlias (new : Bytes) (entry : Nat) (later : Bytes) (laterEntry : Nat)
  | aliasIsName (new : Bytes) (entry : Nat)
  | aliasInSource (new : Bytes) (entry : Nat)
  /-- A name stands as a word in a token that is not renamed. -/
  | nameStranded (name : Bytes) (entry : Nat) (token : Bytes)
  deriving DecidableEq, Repr

namespace Refusal

/-- The family of a reason. -/
def fault : Refusal → Fault
  | .nameNotIdentifier .. | .aliasNotIdentifier .. => .invalid
  | _ => .conflict

/-- The words every reason of a family begins with. -/
def heading : Fault → Bytes
  | .invalid => utf8 "alias: invalid entry"
  | .conflict => utf8 "alias: conflicting entries"

/-- The beginning of a token, as far as a message shows it. -/
def excerpt (token : Bytes) : Bytes :=
  if token.length ≤ 40 then token else token.take 40 ++ utf8 "..."

/-- A quoted name with its entry. -/
def entryOf (b : Bytes) (i : Nat) : Bytes :=
  b.quoted ++ utf8 " (entry " ++ Numeral.decimal i ++ utf8 ")"

/-- The reason after its heading. -/
def detail : Refusal → Bytes
  | .nameNotIdentifier i b =>
    utf8 "entry " ++ Numeral.decimal i ++ utf8 ": name " ++ b.quoted
      ++ utf8 " is not an identifier"
  | .aliasNotIdentifier i b =>
    utf8 "entry " ++ Numeral.decimal i ++ utf8 ": alias " ++ b.quoted
      ++ utf8 " is not an identifier"
  | .nameRepeated b i j =>
    utf8 "name " ++ b.quoted ++ utf8 " is declared by entries " ++ Numeral.decimal i
      ++ utf8 " and " ++ Numeral.decimal j
  | .aliasRepeated b i j =>
    utf8 "alias " ++ b.quoted ++ utf8 " is used by entries " ++ Numeral.decimal i
      ++ utf8 " and " ++ Numeral.decimal j
  | .nameInLaterName a i b j =>
    utf8 "name " ++ entryOf a i ++ utf8 " is part of later name " ++ entryOf b j
  | .laterNameInAlias a i b j =>
    utf8 "alias " ++ entryOf a i ++ utf8 " contains later name " ++ entryOf b j
  | .aliasIsName b i => utf8 "alias " ++ entryOf b i ++ utf8 " is also a name being renamed"
  | .aliasInSource b i =>
    utf8 "alias " ++ entryOf b i ++ utf8 " is already an identifier in the source"
  | .nameStranded b i token =>
    utf8 "name " ++ entryOf b i ++ utf8 " occurs outside an identifier in "
      ++ (excerpt token).quoted ++ utf8 " and would not be renamed"

/-- The reason in words. -/
def message (r : Refusal) : Bytes := heading r.fault ++ utf8 ": " ++ r.detail

end Refusal

/-! ### The checks -/

/-- Checks the entries after the `earlier` ones by themselves and against those. -/
def checkEntriesFrom (earlier : List Entry) : List Entry → Except Refusal Unit
  | [] => .ok ()
  | e :: later =>
    if !isIdentifier e.name then .error (.nameNotIdentifier earlier.length e.name)
    else if !isIdentifier e.new then .error (.aliasNotIdentifier earlier.length e.new)
    else match earlier.findIdx? (·.name == e.name) with
      | some j => .error (.nameRepeated e.name j earlier.length)
      | none =>
        match earlier.findIdx? (·.new == e.new) with
        | some j => .error (.aliasRepeated e.new j earlier.length)
        | none => checkEntriesFrom (earlier ++ [e]) later

/-- All names and aliases are identifiers, and none is listed twice. -/
def checkEntries (entries : List Entry) : Except Refusal Unit := checkEntriesFrom [] entries

/-- Checks the entry at index `i` against the later ones, which begin at index `j`. -/
def checkAgainstLater (i : Nat) (e : Entry) : Nat → List Entry → Except Refusal Unit
  | _, [] => .ok ()
  | j, f :: later =>
    if Bytes.occursIn e.name f.name then .error (.nameInLaterName e.name i f.name j)
    else if Bytes.occursIn f.name e.new then .error (.laterNameInAlias e.new i f.name j)
    else checkAgainstLater i e (j + 1) later

/-- Checks every entry from index `i` on against the ones after it. -/
def checkPairs : Nat → List Entry → Except Refusal Unit
  | _, [] => .ok ()
  | i, e :: later => do
    checkAgainstLater i e (i + 1) later
    checkPairs (i + 1) later

/-- May the entries be applied as text? -/
def checkText (entries : List Entry) : Except Refusal Unit := do
  checkEntries entries
  checkPairs 0 entries

/-- Checks the aliases from index `i` on against the names of the table and the identifiers of the
source. -/
def checkAliases (names identifiers : List Bytes) : Nat → List Entry → Except Refusal Unit
  | _, [] => .ok ()
  | i, e :: later =>
    if names.contains e.new then .error (.aliasIsName e.new i)
    else if identifiers.contains e.new then .error (.aliasInSource e.new i)
    else checkAliases names identifiers (i + 1) later

/-- The first name that stands as a word in a text, with its index. -/
def firstName? (entries : List Entry) (text : Bytes) : Option (Bytes × Nat) :=
  (Bytes.words text).findSome? fun w =>
    (entries.findIdx? (·.name == w)).map (w, ·)

/-- No name stands as a word in a token that is neither an identifier nor part of a literal. -/
def checkOutside (entries : List Entry) : List Token → Except Refusal Unit
  | [] => .ok ()
  | t :: ts =>
    if t.isIdentifier || t.isLiteral then checkOutside entries ts
    else match firstName? entries t.value with
      | some (name, i) => .error (.nameStranded name i t.value)
      | none => checkOutside entries ts

/-- May the entries be applied to these tokens? -/
def checkTokens (entries : List Entry) (tokens : List Token) : Except Refusal Unit := do
  checkEntries entries
  checkAliases (entries.map Entry.name)
    ((tokens.filter Token.isIdentifier).map Token.value) 0 entries
  checkOutside entries tokens

end KernelPack.Renaming
