import KernelPack.Text.Double

/-!
# Durations

A duration is written as numbers with units, one after another: `1h30m`, `500ms`, `1.5s`. It has a
sign at most in front, and no unit only if it is zero. Durations are counted in nanoseconds and have
to fit into 64 bits.
-/

namespace KernelPack

/-- Why a text is no duration. -/
inductive DurationError where
  | malformed (text : Bytes)
  | noUnit (text : Bytes)
  | unknownUnit (unit text : Bytes)
  deriving DecidableEq, Repr

namespace Duration

/-- A text in double quotes, in which all but printable ASCII is written as hexadecimal codes. -/
def quoted (b : Bytes) : Bytes :=
  [Byte.quote] ++ b.flatMap (fun x =>
    if 128 ≤ x || x < 32 then
      utf8 "\\x" ++ Numeral.zeroPadded 2 (Numeral.digits 16 x.toNat)
    else if x == Byte.quote || x == Byte.backslash then [Byte.backslash, x]
    else [x]) ++ [Byte.quote]

end Duration

/-- The reason in words. -/
def DurationError.message : DurationError → Bytes
  | .malformed text => utf8 "time: invalid duration " ++ Duration.quoted text
  | .noUnit text => utf8 "time: missing unit in duration " ++ Duration.quoted text
  | .unknownUnit unit text =>
    utf8 "time: unknown unit " ++ Duration.quoted unit ++ utf8 " in duration "
      ++ Duration.quoted text

namespace Duration

/-- The nanoseconds of a unit. -/
def unit? (u : Bytes) : Option Nat :=
  if u = utf8 "ns" then some 1
  else if u = utf8 "us" ∨ u = utf8 "\u00b5s" ∨ u = utf8 "\u03bcs" then some 1000
  else if u = utf8 "ms" then some 1000000
  else if u = utf8 "s" then some 1000000000
  else if u = utf8 "m" then some 60000000000
  else if u = utf8 "h" then some 3600000000000
  else none

/-- Is the byte part of a number? -/
def isNumberByte (b : UInt8) : Bool := Byte.isDigit b || b == Byte.dot

/-- The value of decimal digits. -/
def valueOf (digits : Bytes) : Nat := digits.foldl (fun n b => n * 10 + (b.toNat - 48)) 0

/-- One number with its unit at the head of a text: its nanoseconds, and the rest. `whole` is the
text that the errors name. -/
def part (whole b : Bytes) : Except DurationError (Nat × Bytes) :=
  let (digits, rest) := Double.leadingDigits b
  let (fraction, rest) := match rest with
    | 46 :: t => Double.leadingDigits t
    | _ => ([], rest)
  let unit := rest.takeWhile (!isNumberByte ·)
  if (digits.isEmpty && fraction.isEmpty) || Numeral.signBound < valueOf digits then
    .error (.malformed whole)
  else if unit.isEmpty then .error (.noUnit whole)
  else match unit? unit with
    | none => .error (.unknownUnit unit whole)
    | some n =>
      let size := valueOf digits * n + valueOf fraction * n / Nat.pow 10 fraction.length
      if Numeral.signBound < size then .error (.malformed whole)
      else .ok (size, rest.dropWhile (!isNumberByte ·))

/-- The parts of a text, added to what came before. Every part takes something off the text, so
`fuel` need not exceed its length. -/
def parts (whole : Bytes) : (fuel : Nat) → (sum : Nat) → Bytes → Except DurationError Nat
  | _, sum, [] => .ok sum
  | 0, _, _ :: _ => .error (.malformed whole)
  | fuel + 1, sum, b :: t =>
    match part whole (b :: t) with
    | .error e => .error e
    | .ok (n, rest) =>
      if Numeral.signBound < sum + n then .error (.malformed whole)
      else parts whole fuel (sum + n) rest

/-- The nanoseconds of a written duration. -/
def parse (b : Bytes) : Except DurationError Int := do
  let (negative, body) := match b with
    | 45 :: t => (true, t)
    | 43 :: t => (false, t)
    | _ => (false, b)
  if body = utf8 "0" then return 0
  if body.isEmpty then throw (.malformed b)
  let n ← parts b body.length 0 body
  if negative then return -(n : Int)
  if Numeral.signBound ≤ n then throw (.malformed b)
  return n

end Duration

end KernelPack
