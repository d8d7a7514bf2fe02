import KernelPack.Renaming.Check

/-!
# Applying a table

Both strategies check the table first. A table without entries changes nothing under either.
-/

namespace KernelPack.Renaming

/-- The text with the entries replaced one after another, wherever their names occur. -/
def renameText (text : Bytes) (entries : List Entry) : Bytes :=
  entries.foldl (fun t e => Bytes.replaceAll e.name e.new t) text

/-- The entry of a name. Of a name that is listed again, the last entry counts. -/
def entryOf? (entries : List Entry) (name : Bytes) : Option Entry :=
  entries.findRev? (·.name == name)

/-- A token under a table: an identifier that is a name becomes its alias. -/
def renameToken (entries : List Entry) (t : Token) : Token :=
  if t.isIdentifier then
    match entryOf? entries t.value with
    | some e => { t with value := e.new }
    | none => t
  else t

/-- The text of tokens. -/
def joinTokens (tokens : List Token) : Bytes := tokens.flatMap Token.value

/-- The text of the tokens after renaming. -/
def renameTokens (tokens : List Token) (entries : List Entry) : Bytes :=
  joinTokens (tokens.map (renameToken entries))

/-- The text under a table, or why the table is refused. -/
def apply (strategy : Strategy) (text : Bytes) (table : Table) : Except Refusal Bytes :=
  let entries := table.resolve
  if entries.isEmpty then .ok text
  else match strategy with
    | .text => do
      checkText entries
      return renameText text entries
    | .token => do
      let tokens := tokenize text
      checkTokens entries tokens
      return renameTokens tokens entries

end KernelPack.Renaming
