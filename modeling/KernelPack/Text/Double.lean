import KernelPack.Text.Numeral

/-!
# Numbers of double precision

A finite double is `± mantissa · 2 ^ exponent` with a mantissa of at most 53 bits. Everything here
is exact arithmetic on whole numbers: a fraction is rounded to the **nearest** double, a tie to the
even mantissa, and a double is written with the **fewest digits that read back** as the same
double, of these the nearest to it. The written form is positional, however large or small the
number is.
-/

namespace KernelPack

/-- The quotient rounded to the nearest whole number, a tie to the even one. -/
def roundDiv (n d : Nat) : Nat :=
  let q := n / d
  let r := n % d
  if d < 2 * r ∨ (2 * r = d ∧ q % 2 = 1) then q + 1 else q

/-- A number `mantissa · 2 ^ exponent`. -/
structure Binary where
  mantissa : Nat
  exponent : Int
  deriving DecidableEq, Repr

namespace Binary

/-- The least mantissa of 53 bits. -/
def leastMantissa : Nat := 4503599627370496

/-- The number as a fraction. -/
def fraction (b : Binary) : Nat × Nat :=
  if 0 ≤ b.exponent then (b.mantissa * Nat.pow 2 b.exponent.toNat, 1)
  else (b.mantissa, Nat.pow 2 (-b.exponent).toNat)

/-- The fraction `n / d` divided by `2 ^ e`. -/
def shifted (n d : Nat) (e : Int) : Nat × Nat :=
  if 0 ≤ e then (n, d * Nat.pow 2 e.toNat) else (n * Nat.pow 2 (-e).toNat, d)

/-- The exponent at which the whole part of `n / d` has 53 bits. -/
def exponentOf (n d : Nat) : Int :=
  let e : Int := n.log2 - d.log2 - 52
  let (n', d') := shifted n d e
  if n' / d' < leastMantissa then e - 1 else e

/-- The nearest number with 53 significant bits and an exponent of at least `least`. -/
def nearestFrom (least : Int) (n d : Nat) : Binary :=
  if n = 0 then ⟨0, 0⟩
  else
    let e := if exponentOf n d < least then least else exponentOf n d
    let (n', d') := shifted n d e
    let m := roundDiv n' d'
    if m = 2 * leastMantissa then ⟨leastMantissa, e + 1⟩ else ⟨m, e⟩

/-- The nearest number with 53 significant bits. -/
def nearest (n d : Nat) : Binary := if n = 0 then ⟨0, 0⟩ else nearestFrom (exponentOf n d) n d

/-- The nearest whole number. -/
def round (b : Binary) : Nat :=
  let (n, d) := b.fraction
  roundDiv n d

/-- The whole part. -/
def whole (b : Binary) : Nat :=
  let (n, d) := b.fraction
  n / d

end Binary

/-- A number of double precision. -/
inductive Double where
  | finite (negative : Bool) (size : Binary)
  | infinite (negative : Bool)
  | undefined
  deriving DecidableEq, Repr

namespace Double

/-! ### Reading -/

/-- The least exponent of a double. -/
def leastExponent : Int := -1074

/-- The nearest double to `± digits · 10 ^ exponent`, unless it is too large for one. -/
def ofDecimal? (negative : Bool) (digits : Nat) (exponent : Int) : Option Double :=
  let places : Int := (Numeral.digits 10 digits).length
  if digits = 0 ∨ places + exponent < -330 then some (.finite negative ⟨0, 0⟩)
  else if 310 < places + exponent then none
  else
    let (n, d) := if 0 ≤ exponent then (digits * Nat.pow 10 exponent.toNat, 1)
      else (digits, Nat.pow 10 (-exponent).toNat)
    let size := Binary.nearestFrom leastExponent n d
    if Nat.pow 2 1024 ≤ size.whole then none else some (.finite negative size)

/-- A decimal numeral in three parts: the digits before the point, those after it, and the
power of ten. -/
def ofParts? (negative : Bool) (whole fraction : Bytes) (exponent : Int) : Option Double :=
  let value := (whole ++ fraction).foldl (fun n b => n * 10 + (b.toNat - 48)) 0
  ofDecimal? negative value (exponent - fraction.length)

/-- The digits that a text begins with, and the rest. -/
def leadingDigits (b : Bytes) : Bytes × Bytes :=
  (b.takeWhile Byte.isDigit, b.dropWhile Byte.isDigit)

/-- The power of ten that a text consists of, where one may be left out. -/
def exponentPart? : Bytes → Option Int
  | [] => some 0
  | mark :: t =>
    if mark == 101 || mark == 69 then
      let (negative, body) := match t with
        | 45 :: r => (true, r)
        | 43 :: r => (false, r)
        | _ => (false, t)
      if body.isEmpty || !body.all Byte.isDigit then none
      else
        let size : Int := (body.foldl (fun n b => min (n * 10 + (b.toNat - 48)) 1000000) 0 : Nat)
        some (if negative then -size else size)
    else none

/-- The double that an unsigned decimal numeral stands for, with the sign given: digits with at
most one point among them, a digit on at least one side of it, and a power of ten if there is
one. -/
def unsigned? (negative : Bool) (b : Bytes) : Option Double :=
  let (whole, rest) := leadingDigits b
  match rest with
  | 46 :: t =>
    let (fraction, rest) := leadingDigits t
    if whole.isEmpty && fraction.isEmpty then none
    else (exponentPart? rest).bind (ofParts? negative whole fraction)
  | _ => if whole.isEmpty then none else (exponentPart? rest).bind (ofParts? negative whole [])

/-- The double that a decimal numeral with an optional sign stands for. -/
def parse? : Bytes → Option Double
  | 45 :: t => unsigned? true t
  | 43 :: t => unsigned? false t
  | b => unsigned? false b

/-! ### Values -/

/-- Is the number different from zero? An undefined one is. -/
def isNonzero : Double → Bool
  | .finite _ size => size.mantissa != 0
  | _ => true

/-- The whole part as a 64-bit integer; what does not fit becomes the least of these. -/
def toInt64 : Double → Int
  | .finite negative size =>
    let n : Int := size.whole
    let v := if negative then -n else n
    if v < -Numeral.signBound ∨ Numeral.signBound ≤ v then -Numeral.signBound else v
  | _ => -Numeral.signBound

/-! ### Writing -/

/-- The numbers that round to a positive double lie between these two fractions, which have a
common denominator. -/
def neighbourhood (b : Binary) : Nat × Nat × Nat :=
  let (n, d) := (Binary.mk 1 (b.exponent - 2)).fraction
  let below := if b.mantissa = Binary.leastMantissa ∧ leastExponent < b.exponent then 1 else 2
  ((4 * b.mantissa - below) * n, (4 * b.mantissa + 2) * n, d)

/-- The number of places before the point of a positive fraction, or, below one tenth, minus the
number of zeros after it. `bound` limits those zeros. -/
def placesOf : (bound : Nat) → Nat → Nat → Int
  | 0, _, _ => 0
  | bound + 1, n, d =>
    if d ≤ n then (Numeral.digits 10 (n / d)).length
    else if d ≤ 10 * n then 0
    else placesOf bound (10 * n) d - 1

/-- A decimal number `digits · 10 ^ exponent`. -/
structure Decimal where
  digits : Nat
  exponent : Int
  deriving DecidableEq, Repr

namespace Decimal

/-- The number as a fraction. -/
def fraction (x : Decimal) : Nat × Nat :=
  if 0 ≤ x.exponent then (x.digits * Nat.pow 10 x.exponent.toNat, 1)
  else (x.digits, Nat.pow 10 (-x.exponent).toNat)

/-- The number written without a power of ten. -/
def positional (x : Decimal) : Bytes :=
  let ds := Numeral.digits 10 x.digits
  if 0 ≤ x.exponent then ds ++ List.replicate x.exponent.toNat 48
  else
    let places := (-x.exponent).toNat
    let ds := Numeral.zeroPadded (places + 1) ds
    ds.take (ds.length - places) ++ [Byte.dot] ++ ds.drop (ds.length - places)

end Decimal

/-- Does the decimal round to the positive double? -/
def readsAs (b : Binary) (x : Decimal) : Bool :=
  let (low, high, d) := neighbourhood b
  let (n, e) := x.fraction
  if b.mantissa % 2 = 0 then low * e ≤ n * d && n * d ≤ high * e
  else low * e < n * d && n * d < high * e

/-- The nearest decimal with the exponent that reads as the positive double. -/
def onGrid? (b : Binary) (exponent : Int) : Option Decimal :=
  let (n, d) := b.fraction
  let (n', d') := if 0 ≤ exponent then (n, d * Nat.pow 10 exponent.toNat)
    else (n * Nat.pow 10 (-exponent).toNat, d)
  let near := roundDiv n' d'
  let other := if near = n' / d' then near + 1 else n' / d'
  [near, other].map (Decimal.mk · exponent) |>.find? (readsAs b)

/-- The decimal with the fewest digits, at least `count`, that reads as the positive double.
Seventeen digits always suffice. -/
def shortestFrom (b : Binary) (places : Int) : (more count : Nat) → Decimal
  | 0, _ => ⟨b.round, 0⟩
  | more + 1, count =>
    match onGrid? b (places - count) with
    | some x => x
    | none => shortestFrom b places more (count + 1)

/-- The shortest decimal that reads as the positive double. -/
def shortest (b : Binary) : Decimal :=
  let (n, d) := b.fraction
  shortestFrom b (placesOf 400 n d) 17 1

/-- A double in the fewest digits that read back, without a power of ten. -/
def render : Double → Bytes
  | .undefined => utf8 "NaN"
  | .infinite negative => if negative then utf8 "-Inf" else utf8 "+Inf"
  | .finite negative size =>
    (if negative then utf8 "-" else [])
      ++ if size.mantissa = 0 then utf8 "0" else (shortest size).positional

end Double

end KernelPack
