import KernelPack.Bytes

/-!
# Timestamps

The texts that count as a point in time: a **day** (`2001-12-31`), or a day and a **time of day**,
set apart by a space, or by a letter `T` and then with a time zone at the end. Numbers other than
the year may be written with one digit or two. A day has to exist in its month.
-/

namespace KernelPack.Timestamp

/-- A number of one digit or two that a text begins with, and the rest. -/
def number? : Bytes → Option (Nat × Bytes)
  | a :: b :: t =>
    if !Byte.isDigit a then none
    else if Byte.isDigit b then some ((a.toNat - 48) * 10 + (b.toNat - 48), t)
    else some (a.toNat - 48, b :: t)
  | [a] => if Byte.isDigit a then some (a.toNat - 48, []) else none
  | [] => none

/-- The rest of a text after a given byte. -/
def after? (b : UInt8) : Bytes → Option Bytes
  | a :: t => if a == b then some t else none
  | [] => none

/-- Does the year have a 29th of February? -/
def isLeap (year : Nat) : Bool := year % 4 == 0 && (year % 100 != 0 || year % 400 == 0)

/-- The number of days of a month, the months counted from one. -/
def daysIn (year month : Nat) : Nat :=
  if month == 2 then if isLeap year then 29 else 28
  else if [4, 6, 9, 11].contains month then 30
  else 31

/-- The rest of a text after the day it begins with. -/
def afterDay? (b : Bytes) : Option Bytes := do
  let digits := b.takeWhile Byte.isDigit
  if digits.length ≠ 4 then none
  let year := digits.foldl (fun n d => n * 10 + (d.toNat - 48)) 0
  let (month, t) ← number? (← after? 45 (b.drop 4))
  let (day, t) ← number? (← after? 45 t)
  if month = 0 ∨ 12 < month ∨ day = 0 ∨ daysIn year month < day then none
  return t

/-- The rest of a text after a fraction of a second, where there is one. -/
def afterFraction : Bytes → Bytes
  | mark :: d :: t =>
    if (mark == 46 || mark == 44) && Byte.isDigit d then t.dropWhile Byte.isDigit
    else mark :: d :: t
  | b => b

/-- The rest of a text after the time of day it begins with. -/
def afterTime? (b : Bytes) : Option Bytes := do
  let (hour, t) ← number? b
  let (minute, t) ← number? (← after? 58 t)
  let (second, t) ← number? (← after? 58 t)
  if 24 ≤ hour ∨ 60 ≤ minute ∨ 60 ≤ second then none
  return afterFraction t

/-- Is the text a time zone: `Z`, or an offset of hours and minutes? -/
def isZone : Bytes → Bool
  | [90] => true
  | [mark, a, b, 58, c, d] =>
    (mark == 43 || mark == 45) && [a, b, c, d].all Byte.isDigit
      && (a.toNat - 48) * 10 + (b.toNat - 48) ≤ 24 && (c.toNat - 48) * 10 + (d.toNat - 48) ≤ 60
  | _ => false

/-- Is the text a point in time? -/
def isValid (b : Bytes) : Bool :=
  match afterDay? b with
  | none => false
  | some [] => true
  | some (mark :: t) =>
    if mark == Byte.space then afterTime? t == some []
    else if mark == 84 || mark == 116 then (afterTime? t).any isZone
    else false

end KernelPack.Timestamp
