import KernelPack.Kernel.Log
import KernelPack.Text.Quoted

/-!
# Log lines

A log record as a line of text: its level, its message and its attributes, each as a key, an equals
sign and a value. A value is quoted where it could not be told from what is around it: if it is
empty, or holds a space, a quote, an equals sign, or a character that cannot be shown.
-/

namespace KernelPack.LogRecord

/-- Does the rune make a value need quotes? -/
def needsQuotes : Rune → Bool
  | .stray _ => true
  | .scalar c =>
    if c.toNat < 128 then c == ' ' || c == '=' || c == '"' || c.toNat < 32
    else c == '\uFFFD' || !Text.isPrintable c

/-- A value as it is shown. -/
def shown (b : Bytes) : Bytes :=
  if b.isEmpty || (Rune.decode b).any needsQuotes then b.quoted else b

/-- A key with its value. -/
def pair (key value : Bytes) : Bytes := key ++ utf8 "=" ++ shown value

/-- The record as a line. -/
def line (r : LogRecord) : Bytes :=
  Bytes.joinWith (utf8 " ")
    (pair (utf8 "level") r.level.label :: pair (utf8 "msg") r.message
      :: r.attributes.map fun (k, v) => pair k v) ++ [Byte.lf]

/-- Is the record shown? Errors always are, reports of success on demand. -/
def isShown (verbose : Bool) (r : LogRecord) : Bool :=
  match r.level with
  | .error => true
  | .info => verbose
  | .debug => false

/-- The lines of the records that are shown. -/
def lines (verbose : Bool) (rs : List LogRecord) : Bytes :=
  (rs.filter (isShown verbose)).flatMap line

end KernelPack.LogRecord
