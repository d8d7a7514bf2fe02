import KernelPack.Text.Double
import KernelPack.Text.Timestamp

/-!
# Values of settings

A settings document is a tree of values. Its leaves are **typed by their spelling**: in a document
where a word may stand without quotes, `true` is a truth value, `0x10` an integer, `1e3` a number,
`2001-12-31` a date and `~` nothing, while every other word is text. `Value.ofWord` is this rule. It
is also what decides whether a text can be written without quotes and be read back as text.
-/

namespace KernelPack.Settings

/-- A value in a settings document. -/
inductive Value where
  | null
  | truth (b : Bool)
  /-- An integer of 64 bits, signed or not. -/
  | integer (n : Int)
  | number (x : Double)
  | text (b : Bytes)
  | date
  | list (items : List Value)
  | record (fields : List (Bytes × Value))
  deriving Repr, Inhabited

/-- An entry of a document: a key and its value. -/
abbrev Field := Bytes × Value

/-! ### Words -/

/-- The words with a meaning of their own. -/
def reserved? (w : Bytes) : Option Value :=
  if ["", "~", "null", "Null", "NULL"].any (utf8 · == w) then some .null
  else if ["true", "True", "TRUE"].any (utf8 · == w) then some (.truth true)
  else if ["false", "False", "FALSE"].any (utf8 · == w) then some (.truth false)
  else if [".nan", ".NaN", ".NAN"].any (utf8 · == w) then some (.number .undefined)
  else if [".inf", ".Inf", ".INF", "+.inf", "+.Inf", "+.INF"].any (utf8 · == w) then
    some (.number (.infinite false))
  else if ["-.inf", "-.Inf", "-.INF"].any (utf8 · == w) then some (.number (.infinite true))
  else none

/-- Is every underscore of the word between two digits? -/
def separated (afterDigit : Bool) : Bytes → Bool
  | [] => true
  | [b] => b != Byte.underscore
  | b :: c :: t =>
    (b != Byte.underscore || (afterDigit && Byte.isDigit c)) && separated (Byte.isDigit b) (c :: t)

/-- The integer that a word spells, its base marked as usual. -/
def integer? (w : Bytes) : Option Int :=
  match Numeral.integer w with
  | .ok n => some n
  | .error _ =>
    match Numeral.unsigned w with
    | .ok n => some n
    | .error _ => none

/-- What a word that begins with a digit or a sign spells, apart from dates. Underscores are
passed over. -/
def numeral? (w : Bytes) : Option Value :=
  let w := w.filter (· != Byte.underscore)
  match integer? w with
  | some n => some (.integer n)
  | none => (Double.parse? w).map .number

/-- The value of a word without quotes. -/
def Value.ofWord (w : Bytes) : Value :=
  match reserved? w, w with
  | some v, _ => v
  | none, 46 :: _ =>
    if separated false w then
      ((Double.parse? (w.filter (· != Byte.underscore))).map .number).getD (.text w)
    else .text w
  | none, b :: _ =>
    if Byte.isDigit b || b == 43 || b == 45 then
      if Timestamp.isValid w then .date else (numeral? w).getD (.text w)
    else .text w
  | none, [] => .text w

/-- Does the word spell a text? -/
def isTextWord (w : Bytes) : Bool :=
  match Value.ofWord w with
  | .text _ => true
  | _ => false

end KernelPack.Settings
