import KernelPack.Lexis.Lexer
import KernelPack.Text.Blank
import KernelPack.Text.Word

/-!
# The lexical grammar of kernels

Kernels are written in a dialect of C. The grammar here is line-oriented where C is: a `#` at the
beginning of a line opens a **directive** that runs to the end of the line, and a region switched
off by `#if 0` is skipped as a whole. At the top level a stretch that looks like the head of a
function (a return type, a name, a parameter list, then a brace or a semicolon) is cut into its
parts first, and the parts are lexed on their own; everything else is a statement.

The order of the rules matters, since the first rule that matches is taken.
-/

namespace KernelPack.Lexis

/-- The modes of the kernel grammar. -/
inductive Mode where
  /-- Between definitions. -/
  | top
  /-- In a statement, up to its semicolon. -/
  | statement
  /-- Between the braces of a function. -/
  | body
  /-- In a string literal. -/
  | string
  /-- In a directive. -/
  | directive
  /-- In a region switched off by `#if 0`. -/
  | disabled
  deriving DecidableEq, Repr

namespace KernelGrammar

open Pattern

/-! ### Character classes -/

/-- One of the given characters. -/
def oneOf (s : String) (c : Char) : Bool := s.toList.contains c

/-- None of the given characters. -/
def noneOf (s : String) (c : Char) : Bool := !oneOf s c

/-- Any character. -/
def anyChar (_ : Char) : Bool := true

/-- Any character but a line feed. -/
def inLine (c : Char) : Bool := c != '\n'

/-- A hexadecimal digit. -/
def isHexDigit (c : Char) : Bool :=
  c.isDigit || ('a' ≤ c && c ≤ 'f') || ('A' ≤ c && c ≤ 'F')

/-- An octal digit. -/
def isOctalDigit (c : Char) : Bool := '0' ≤ c && c ≤ '7'

/-- What begins an identifier: an ASCII letter or the underscore. -/
def isNameStart (c : Char) : Bool := c.isAlpha || c == '_'

/-- A place between a word and something else. -/
def wordEdge : Pattern := edge Text.isWord

/-- One given character. -/
def char (c : Char) : Pattern := one (· == c)

/-- White space, possibly none. -/
def blanks : Pattern := many Text.isBlank

/-- An identifier. -/
def name : Pattern := one isNameStart ++ many Text.isWord

/-- A backslash at the end of a line. -/
def splice : Pattern := text "\\\n"

/-- A line feed with no backslash before it. -/
def lineEnd : Pattern := notAfter (· == '\\') ++ char '\n'

/-! ### White space, comments and the beginning of directives -/

/-- White space and at most one comment within the line, at the beginning of a line. -/
def indentation : Pattern :=
  lineStart ++ blanks ++ opt (text "/*" ++ few inLine ++ text "*/" ++ blanks)

/-- The words that switch a region off. -/
def switchOff : Pattern := text "#if" ++ many1 Text.isBlank ++ char '0'

/-- Rules that hold both between and inside statements. -/
def spacing : List (Rule Mode) :=
  [ .token .other (lineStart ++ switchOff) (.enter .disabled),
    .token .other (lineStart ++ char '#') (.enter .directive),
    ⟨[(indentation, .nested), (switchOff, .token .other)], .enter .disabled⟩,
    ⟨[(indentation, .nested), (char '#', .token .other)], .enter .directive⟩,
    .token .other (char '\n'),
    .token .other (many1 Text.isBlank),
    .token .other splice,
    .token .other (text "//" ++ choice
      [char '\n', few anyChar ++ one (noneOf "\\") ++ char '\n']),
    .token .other (char '/' ++ opt splice ++ char '*' ++ few anyChar ++ char '*' ++ opt splice
      ++ char '/'),
    .token .other (char '/' ++ opt splice ++ char '*' ++ many anyChar) ]

/-! ### Statements -/

/-- Digits with a point, or none. -/
def fraction (whole : Pattern) : Pattern :=
  choice
    [ many1 Text.isDigit ++ char '.' ++ many Text.isDigit,
      char '.' ++ many1 Text.isDigit,
      whole ]

/-- Length and sign marks of an integer. -/
def marks : Pattern := many (oneOf "LlUu")

/-- The words that are never identifiers. -/
def keywords : List String :=
  [ "restricted", "volatile", "continue", "register", "default", "typedef", "struct", "extern",
    "switch", "sizeof", "static", "return", "union", "while", "const", "break", "goto", "enum",
    "else", "case", "auto", "for", "asm", "if", "do" ]

/-- The names of types: the basic ones, sized integers, and every lower-case name in `_t`. -/
def typeName : Pattern :=
  alt
    (choice
      [ words ["bool", "int", "long", "float", "short", "double"],
        text "char" ++ opt (words ["8", "16", "32"] ++ text "_t"),
        words ["unsigned", "signed", "void"],
        opt (char 'u') ++ text "int" ++ choice [text "_fast", text "_least", empty]
          ++ words ["8", "16", "32", "64"] ++ text "_t" ]
      ++ wordEdge)
    (wordEdge ++ one (fun c => 'a' ≤ c && c ≤ 'z') ++ many Text.isWord ++ text "_t" ++ wordEdge)

/-- Reserved words after two underscores. -/
def dialectWords : List String :=
  [ "forceinline", "identifier", "unaligned", "declspec", "fastcall", "finally", "stdcall",
    "wchar_t", "assume", "except", "int32", "cdecl", "int16", "leave", "based", "raise", "int64",
    "noop", "int8", "w64", "try", "asm" ]

/-- What stands between the quotes of a character literal. -/
def quotedChar : Pattern :=
  choice
    [ char '\\' ++ one inLine,
      char '\\' ++ one isOctalDigit ++ upTo isOctalDigit 2,
      text "\\x" ++ one isHexDigit ++ upTo isHexDigit 1,
      one (noneOf "\\'\n") ]

/-- Rules for the parts of statements. -/
def statements : List (Rule Mode) :=
  [ ⟨[(opt (char 'L'), .token .literal), (char '"', .token .literal)], .enter .string⟩,
    ⟨[(opt (char 'L'), .token .literal), (char '\'', .token .literal),
      (quotedChar, .token .literal), (char '\'', .token .literal)], .stay⟩,
    .token .other (fraction (many1 Text.isDigit) ++ one (oneOf "eE") ++ opt (one (oneOf "+-"))
      ++ many1 Text.isDigit ++ marks),
    .token .other (fraction (many1 Text.isDigit ++ one (oneOf "fF")) ++ opt (one (oneOf "fF"))),
    .token .other (text "0x" ++ many1 isHexDigit ++ marks),
    .token .other (char '0' ++ many1 isOctalDigit ++ marks),
    .token .other (many1 Text.isDigit ++ marks),
    .token .other (text "*/"),
    .token .other (one (oneOf "~!%^&*+=|?:<>/-")),
    .token .other (one (oneOf "()[],.")),
    .token .other (words keywords ++ wordEdge),
    .token .other typeName,
    .token .other (words ["typename", "__inline", "restrict", "_inline", "thread", "inline",
      "naked"] ++ wordEdge),
    .token .other (text "__m" ++ words ["128i", "128d", "128", "64"] ++ wordEdge),
    .token .other (text "__" ++ words dialectWords ++ wordEdge),
    .token .identifier (words ["true", "false", "NULL"] ++ wordEdge),
    ⟨[(name, .token .identifier), (blanks, .token .other),
      (char ':' ++ notAhead (char ':'), .token .other)], .stay⟩,
    .token .identifier (wordEdge ++ name ++ ahead (blanks ++ char '(')),
    .token .identifier name ]

/-! ### Function heads -/

/-- The parts of a function head up to its last character: what precedes the name, the name,
the parameter list, and what stands between that and the end. -/
def functionHead (tail : Pattern) (last : Char) : List (Pattern × Action) :=
  [ (few1 (fun c => Text.isWord c || c == '*' || Text.isBlank c)
      ++ one (fun c => Text.isBlank c || c == '*'), .nested),
    (name, .token .identifier),
    (blanks ++ char '(' ++ few (noneOf ";") ++ char ')', .nested),
    (tail, .nested),
    (char last, .token .other) ]

/-! ### The modes -/

/-- The rules of each mode. -/
def rules : Mode → List (Rule Mode)
  | .top =>
    spacing ++
    [ ⟨functionHead (many (noneOf ";\x7b")) '{', .enter .body⟩,
      ⟨functionHead (many (noneOf ";")) ';', .stay⟩ ]
  | .statement =>
    spacing ++ statements ++
    [ .token .other (one (oneOf "\x7b\x7d")),
      .token .other (char ';') .leave ]
  | .body =>
    spacing ++ statements ++
    [ .token .other (char ';'),
      .token .other (char '{') .again,
      .token .other (char '}') .leave ]
  | .string =>
    [ .token .literal (char '"') .leave,
      .token .literal (char '\\' ++ choice
        [ one (oneOf "\\abfnrtv\"'"),
          char 'x' ++ exactly isHexDigit 2 ++ upTo isHexDigit 2,
          char 'u' ++ exactly isHexDigit 4,
          char 'U' ++ exactly isHexDigit 8,
          one isOctalDigit ++ upTo isOctalDigit 2 ]),
      .token .literal (many1 (noneOf "\\\"\n")),
      .token .literal splice,
      .token .literal (char '\\') ]
  | .directive =>
    [ ⟨[(text "include", .token .other),
        (blanks ++ opt (text "/*" ++ few inLine ++ text "*/" ++ blanks), .token .other),
        (many1 inLine, .token .other)], .stay⟩,
      .token .other (many1 (noneOf "/\n")),
      .token .other (text "/*" ++ few anyChar ++ text "*/"),
      .token .other (text "//" ++ few inLine ++ char '\n') .leave,
      .token .other (char '/'),
      .token .other (after (· == '\\') ++ char '\n'),
      .token .other (char '\n') .leave ]
  | .disabled =>
    [ .token .other (lineStart ++ blanks ++ text "#if" ++ few inLine ++ lineEnd) .again,
      .token .other (lineStart ++ blanks ++ text "#el" ++ words ["se", "if"] ++ many inLine
        ++ char '\n') .leave,
      .token .other (lineStart ++ blanks ++ text "#endif" ++ few inLine ++ lineEnd) .leave,
      .token .other (few inLine ++ char '\n') ]

end KernelGrammar

/-- The lexical grammar of kernels. -/
def kernelGrammar : Grammar Mode where
  start := .top
  rules := KernelGrammar.rules
  otherwise
    | .top => some .statement
    | _ => none

end KernelPack.Lexis
