import KernelPack.Bytes

/-!
# Numerals

How numbers are written, decimal and hexadecimal, and how an integer written with an optional
base mark is read.
-/

namespace KernelPack.Numeral

/-! ### Writing -/

/-- The digits of `n` in a base up to sixteen, most significant first, in lower case. -/
def digits (base n : Nat) : Bytes := (Nat.toDigits base n).map fun c => UInt8.ofNat c.toNat

/-- A digit string with a minus sign before the digits of a negative number. -/
def signed (base : Nat) (n : Int) : Bytes :=
  if n < 0 then 45 :: digits base n.natAbs else digits base n.natAbs

/-- A number in decimal. -/
def decimal (n : Int) : Bytes := signed 10 n

/-- A number in lower-case hexadecimal. -/
def hex (n : Int) : Bytes := signed 16 n

/-- A digit string filled up with zeros on the left to at least `width` digits. -/
def zeroPadded (width : Nat) (b : Bytes) : Bytes := List.replicate (width - b.length) 48 ++ b

/-! ### Reading -/

/-- The number of 64-bit words. -/
def wordModulus : Nat := 18446744073709551616

/-- The number of 64-bit words without a sign, half of all. -/
def signBound : Nat := 9223372036854775808

/-- Why a text is no integer. -/
inductive Fault where
  | malformed
  | outOfRange
  deriving DecidableEq, Repr

/-- What is wrong with the text, in words. -/
def Fault.message : Fault → Bytes
  | .malformed => utf8 "invalid syntax"
  | .outOfRange => utf8 "value out of range"

/-- The value of a digit in bases up to sixteen. -/
def digitValue? (b : UInt8) : Option Nat :=
  if 48 ≤ b && b ≤ 57 then some (b.toNat - 48)
  else if 97 ≤ b && b ≤ 102 then some (b.toNat - 87)
  else if 65 ≤ b && b ≤ 70 then some (b.toNat - 55)
  else none

/-- The value of a digit string after the value `n` of the digits before it. Underscores
separate digits; the first bad digit or the first value beyond 64 bits ends the reading. -/
def magnitude (base : Nat) : Nat → Bytes → Except Fault Nat
  | n, [] => .ok n
  | n, b :: t =>
    if b == Byte.underscore then magnitude base n t
    else match digitValue? b with
      | none => .error .malformed
      | some d =>
        if base ≤ d then .error .malformed
        else if wordModulus ≤ n * base + d then .error .outOfRange
        else magnitude base (n * base + d) t

/-- Does every underscore stand between two digits? `afterDigit` tells whether one may come
next; a base mark counts as a digit. -/
def separated (afterDigit : Bool) : Bytes → Bool
  | [] => afterDigit
  | b :: t =>
    if b == Byte.underscore then afterDigit && separated false t else separated true t

/-- An unsigned integer: the base is ten, two after `0b`, eight after `0o` or `0`, sixteen after
`0x`. -/
def unsigned (b : Bytes) : Except Fault Nat :=
  let (base, body, okay) := match b with
    | 48 :: mark :: d :: t =>
      if mark == 98 || mark == 66 then (2, d :: t, separated true (d :: t))
      else if mark == 111 || mark == 79 then (8, d :: t, separated true (d :: t))
      else if mark == 120 || mark == 88 then (16, d :: t, separated true (d :: t))
      else (8, mark :: d :: t, separated false b)
    | 48 :: t => (8, t, separated false b)
    | _ => (10, b, separated false b)
  match magnitude base 0 body with
  | .error e => .error e
  | .ok n => if okay then .ok n else .error .malformed

/-- A 64-bit integer with an optional sign and base mark. -/
def integer (b : Bytes) : Except Fault Int :=
  let (negative, body) := match b with
    | 45 :: t => (true, t)
    | 43 :: t => (false, t)
    | _ => (false, b)
  match unsigned body with
  | .error e => .error e
  | .ok n =>
    if negative then if signBound < n then .error .outOfRange else .ok (-(n : Int))
    else if signBound ≤ n then .error .outOfRange else .ok n

/-- A truth value. -/
def truth? (b : Bytes) : Option Bool :=
  if [utf8 "1", utf8 "t", utf8 "T", utf8 "true", utf8 "TRUE", utf8 "True"].contains b then
    some true
  else if [utf8 "0", utf8 "f", utf8 "F", utf8 "false", utf8 "FALSE", utf8 "False"].contains b then
    some false
  else none

end KernelPack.Numeral
