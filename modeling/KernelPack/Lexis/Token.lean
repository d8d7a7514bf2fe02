import KernelPack.Lexis.KernelGrammar

/-!
# Tokens

A kernel text as a list of **tokens**, classified byte strings. The text is read with every line
ending turned into a line feed and every stray byte into U+FFFD, so for valid text without
carriage returns the tokens put together are the text again. The lexer wants to see a line feed
at the end; one that was added is taken away again.

`identifiers` counts the identifiers of a text, the most frequent first.
-/

namespace KernelPack

/-- A classified piece of kernel text. -/
structure Token where
  value : Bytes
  kind : Lexis.Kind
  deriving DecidableEq, Repr

namespace Token

/-- Is the token an identifier? -/
def isIdentifier (t : Token) : Bool := t.kind == .identifier

/-- Is the token part of a literal? -/
def isLiteral (t : Token) : Bool := t.kind == .literal

/-- A lexeme as a token. -/
def ofLexeme (l : Lexis.Lexeme) : Token := ⟨Bytes.ofChars l.text, l.kind⟩

/-- The text with every line ending turned into a line feed. -/
def unifyLineEnds (text : Bytes) : Bytes :=
  Bytes.replaceAll [Byte.cr] [Byte.lf] (Bytes.replaceAll [Byte.cr, Byte.lf] [Byte.lf] text)

/-- The lexemes of a text that ends in a line feed, or to which one is added for the lexer. -/
def lexemes (cs : List Char) : List Lexis.Lexeme :=
  if cs.getLast? = some '\n' then Lexis.kernelGrammar.lex 0 [] ⟨none, cs⟩
  else Lexis.kernelGrammar.lex 1 [] ⟨none, cs ++ ['\n']⟩

/-- The tokens without a line feed at the end of the last one; a last token that is empty then is
dropped. -/
def dropFinalLineFeed (ts : List Token) : List Token :=
  match ts.getLast? with
  | none => ts
  | some t =>
    let value := Bytes.stripEnding [Byte.lf] t.value
    if value.isEmpty then ts.dropLast else ts.dropLast ++ [⟨value, t.kind⟩]

end Token

/-- The tokens of a kernel text. -/
def tokenize (text : Bytes) : List Token :=
  if text.isEmpty then []
  else
    let ts := (Token.lexemes (Token.unifyLineEnds text).chars).map Token.ofLexeme
    if text.getLast? = some Byte.lf then ts else Token.dropFinalLineFeed ts

/-- An identifier and how often it occurs. -/
structure IdentifierCount where
  name : Bytes
  count : Int
  deriving DecidableEq, Repr

namespace IdentifierCount

/-- The order of the list: the more frequent first, by name among equals. -/
def precedes (a b : IdentifierCount) : Bool :=
  b.count < a.count || (a.count == b.count && !Bytes.before b.name a.name)

/-- The counts with one more occurrence of a name. -/
def tally : List IdentifierCount → Bytes → List IdentifierCount
  | [], name => [⟨name, 1⟩]
  | c :: cs, name =>
    if c.name = name then { c with count := c.count + 1 } :: cs else c :: tally cs name

end IdentifierCount

/-- The distinct identifiers among the tokens with their numbers of occurrences, in the order in
which they first occur. -/
def tallyIdentifiers (ts : List Token) : List IdentifierCount :=
  ts.foldl (fun cs t => if t.isIdentifier then IdentifierCount.tally cs t.value else cs) []

/-- The distinct identifiers among the tokens with their numbers of occurrences, in the order of the
list. -/
def countIdentifiers (ts : List Token) : List IdentifierCount :=
  (tallyIdentifiers ts).mergeSort IdentifierCount.precedes

/-- The identifiers of a kernel text, the most frequent first. -/
def identifiers (text : Bytes) : List IdentifierCount := countIdentifiers (tokenize text)

end KernelPack
