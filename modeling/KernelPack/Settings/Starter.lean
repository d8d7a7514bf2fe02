import KernelPack.Config.Basic
import KernelPack.Settings.Value
import KernelPack.Text.Rune

/-!
# A settings file to start from

`Config.starter` is the configuration that lists given sources with the default settings, and
`starterText` is its text in YAML. The text reads back as the same settings: a source's name stands
without quotes where it would be read as just that text; it is in **double quotes** where it would
be read as a value of another type, by this reader or an older one, or holds characters that have
to be escaped; and in **single quotes** where the characters around it would be misread.
-/

namespace KernelPack

/-- The configuration for the given sources, all else as by default. -/
def Config.starter (sources : List Bytes) : Config :=
  { format := utf8 "text", verbose := false, noColor := false,
    sourceDir := Path.here, outputDir := Path.up, symbolStart := utf8 "opencl___",
    debugMacro := Artifact.standardDebugMacro, chunkSize := Artifact.standardChunkSize,
    headerLines := 4, strategy := Renaming.Strategy.token.label, stripLineComments := true,
    kernels := sources.map fun source =>
      { source, headerLines := none, family := [], aliases := [], names := [] } }

namespace Settings

/-! ### Texts that need double quotes -/

/-- The words that were truth values once. -/
def formerTruths : List Bytes :=
  ["y", "Y", "yes", "Yes", "YES", "on", "On", "ON", "n", "N", "no", "No", "NO", "off", "Off",
    "OFF"].map utf8

/-- Is the text the digits of one part of a sexagesimal number? -/
def isSixtieth : Bytes → Bool
  | [d] => Byte.isDigit d
  | [t, d] => 48 ≤ t && t ≤ 53 && Byte.isDigit d
  | _ => false

/-- Is the text the last part of a sexagesimal number, with a fraction if there is one? -/
def isLastSixtieth (b : Bytes) : Bool :=
  isSixtieth (b.takeWhile (· != Byte.dot))
    && ((b.dropWhile (· != Byte.dot)).drop 1).all fun x => Byte.isDigit x || x == Byte.underscore

/-- Was the text a number of base sixty once, such as `12:30`? -/
def isSexagesimal (b : Bytes) : Bool :=
  let b := match b with
    | 43 :: t | 45 :: t => t
    | _ => b
  match Bytes.pieces 58 b with
  | first :: p :: ps =>
    (first.head?.any Byte.isDigit) && first.all (fun x => Byte.isDigit x || x == Byte.underscore)
      && ((p :: ps).dropLast.all isSixtieth) && isLastSixtieth ((p :: ps).getLastD [])
  | _ => false

/-- Would the text, without quotes, be read as something else? -/
def isAmbiguous (b : Bytes) : Bool := !isTextWord b || isSexagesimal b || formerTruths.contains b

/-- Does the character stand for itself in a document? Characters beyond the basic plane are
escaped. -/
def isPlainChar (c : Char) : Bool :=
  c != '\t' && (c == '\n' || (' ' ≤ c && c ≤ '~') || ('\u00a0' ≤ c && c.toNat < 0x10000
    && c != '\uFEFF' && c != '\uFFFE' && c != '\uFFFF'))

/-- The digits of a code in upper case, filled up with zeros. -/
def upperHex (width n : Nat) : Bytes :=
  Numeral.zeroPadded width ((Numeral.digits 16 n).map fun b => if 97 ≤ b then b - 32 else b)

/-- A character in double quotes. -/
def doubleQuotedChar (c : Char) : Bytes :=
  match c with
  | '"' => utf8 "\\\""
  | '\\' => utf8 "\\\\"
  | '\t' => utf8 "\\t"
  | '\n' => utf8 "\\n"
  | '\r' => utf8 "\\r"
  | '\u0085' => utf8 "\\N"
  | '\u2028' => utf8 "\\L"
  | '\u2029' => utf8 "\\P"
  | c =>
    if isPlainChar c then String.utf8EncodeChar c
    else match c.toNat with
      | 0 => utf8 "\\0"
      | 7 => utf8 "\\a"
      | 8 => utf8 "\\b"
      | 11 => utf8 "\\v"
      | 12 => utf8 "\\f"
      | 27 => utf8 "\\e"
      | n =>
        if n < 0x100 then utf8 "\\x" ++ upperHex 2 n
        else if n < 0x10000 then utf8 "\\u" ++ upperHex 4 n
        else utf8 "\\U" ++ upperHex 8 n

/-- The text in double quotes. -/
def doubleQuoted (b : Bytes) : Bytes :=
  [Byte.quote] ++ b.chars.flatMap doubleQuotedChar ++ [Byte.quote]

/-! ### Texts that need single quotes -/

/-- Does the text begin with a byte that means something there? -/
def beginsIndicator : Bytes → Bool
  | [] => false
  | b :: t =>
    (utf8 "#,[]\x7b\x7d&*!|>'\"%@\x60").contains b
      || ([63, 58, 45].contains b && (t.isEmpty || t.head? == some Byte.space))

/-- Does the text hold a colon before a space or its end, or a number sign after a space? -/
def holdsIndicator : Bytes → Bool
  | [] => false
  | [b] => b == 58
  | b :: c :: t =>
    (b == 58 && c == Byte.space) || (b == Byte.space && c == 35) || holdsIndicator (c :: t)

/-- Would the text, without quotes, be cut or misread by its position in the document? -/
def isMisplaced (b : Bytes) : Bool :=
  b.head? == some Byte.space || b.getLast? == some Byte.space || beginsIndicator b
    || holdsIndicator b || (utf8 "---").isPrefixOf b || (utf8 "...").isPrefixOf b

/-- The text in single quotes, those inside written twice. -/
def singleQuoted (b : Bytes) : Bytes :=
  [39] ++ b.flatMap (fun x => if x == 39 then [39, 39] else [x]) ++ [39]

/-- A text as a scalar of a document. -/
def scalar (b : Bytes) : Bytes :=
  if isAmbiguous b || !b.chars.all isPlainChar || b.contains Byte.lf then doubleQuoted b
  else if isMisplaced b then singleQuoted b
  else b

/-! ### The document -/

/-- A line that gives a setting. -/
def settingLine (key : String) (value : Bytes) : Bytes :=
  utf8 key ++ utf8 ": " ++ value ++ [Byte.lf]

/-- The text of a configuration whose kernels have nothing but sources. -/
def starterText (c : Config) : Bytes :=
  settingLine "source_dir" (scalar c.sourceDir)
    ++ settingLine "output_dir" (scalar c.outputDir)
    ++ settingLine "prefix" (scalar c.symbolStart)
    ++ settingLine "debug_macro" (scalar c.debugMacro)
    ++ settingLine "chunk_size" (Numeral.decimal c.chunkSize.toInt)
    ++ settingLine "header_lines" (Numeral.decimal c.headerLines)
    ++ settingLine "strategy" (scalar c.strategy)
    ++ settingLine "strip_line_comments" (utf8 (if c.stripLineComments then "true" else "false"))
    ++ if c.kernels.isEmpty then settingLine "kernels" (utf8 "[]")
      else utf8 "kernels:\n"
        ++ c.kernels.flatMap fun k => settingLine "  - source" (scalar k.source)

end Settings

end KernelPack
