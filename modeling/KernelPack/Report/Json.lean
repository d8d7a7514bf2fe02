import KernelPack.Text.Numeral
import KernelPack.Text.Rune

/-!
# JSON documents

Reports can be written as JSON. The documents are **flat**: records of texts, numbers and flags,
alone on one line or as an indented list. Texts are safe to embed in a web page: besides control
characters, the characters that could end a script are written as escapes. A stray byte is
written as the escape of U+FFFD.
-/

namespace KernelPack.Json

/-- The value of a field. -/
inductive Field where
  | text (b : Bytes)
  | number (n : Int)
  | flag (b : Bool)

/-- Names and values in order. -/
abbrev Record := List (String × Field)

/-- The escape of a character by its code. -/
def codeEscape (n : Nat) : Bytes := utf8 "\\u" ++ Numeral.zeroPadded 4 (Numeral.digits 16 n)

/-- A character inside a text. -/
def char (c : Char) : Bytes :=
  match c with
  | '"' => utf8 "\\\""
  | '\\' => utf8 "\\\\"
  | '\n' => utf8 "\\n"
  | '\r' => utf8 "\\r"
  | '\t' => utf8 "\\t"
  | '<' | '>' | '&' | '\u2028' | '\u2029' => codeEscape c.toNat
  | c =>
    if c.toNat = 8 then utf8 "\\b"
    else if c.toNat = 12 then utf8 "\\f"
    else if c.toNat < 32 then codeEscape c.toNat
    else Bytes.ofChars [c]

/-- A rune inside a text. -/
def rune : Rune → Bytes
  | .scalar c => char c
  | .stray _ => codeEscape 0xFFFD

/-- A text between quotes. -/
def text (b : Bytes) : Bytes :=
  [Byte.quote] ++ (Rune.decode b).flatMap rune ++ [Byte.quote]

/-- The value of a field. -/
def Field.render : Field → Bytes
  | .text b => Json.text b
  | .number n => Numeral.decimal n
  | .flag true => utf8 "true"
  | .flag false => utf8 "false"

/-- A record on one line, ended by a line feed. -/
def line (r : Record) : Bytes :=
  utf8 "\x7b"
    ++ Bytes.joinWith (utf8 ",") (r.map fun (k, v) => text (utf8 k) ++ utf8 ":" ++ v.render)
    ++ utf8 "\x7d\n"

/-- A record as an element of an indented list. -/
def element (r : Record) : Bytes :=
  utf8 "  \x7b\n"
    ++ Bytes.joinWith (utf8 ",\n")
      (r.map fun (k, v) => utf8 "    " ++ text (utf8 k) ++ utf8 ": " ++ v.render)
    ++ utf8 "\n  \x7d"

/-- An indented list of records, ended by a line feed. -/
def list (rs : List Record) : Bytes :=
  if rs.isEmpty then utf8 "[]\n"
  else utf8 "[\n" ++ Bytes.joinWith (utf8 ",\n") (rs.map element) ++ utf8 "\n]\n"

end KernelPack.Json
