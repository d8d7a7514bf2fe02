import KernelPack.Bytes

/-!
# Runes

Some rules speak of characters and not of bytes: quoting, padding, case, white space, the
lexical classes of the kernel language. They see a byte string as a list of **runes**: the
scalar values of its well-formed UTF-8 sequences, and one stray byte for every byte that
begins no such sequence. Nothing is lost by that view, since `Rune.encode` gives back the bytes
each rune stands for.
-/

namespace KernelPack

/-- A character of a byte string: a scalar value, or a byte outside any UTF-8 sequence. -/
inductive Rune where
  | scalar (c : Char)
  | stray (b : UInt8)
  deriving DecidableEq, Repr

namespace Rune

/-- Is `b` a byte that continues a sequence? -/
def isContinuation (b : UInt8) : Bool := 128 ≤ b && b ≤ 191

/-- The low six bits of a continuation byte. -/
def payload (b : UInt8) : Nat := b.toNat % 64

/-- The scalar value `v`, if it is one and not below `least`, the smallest value that needs
the length of its sequence. -/
def ofValue? (least v : Nat) : Option Rune :=
  if least ≤ v ∧ v.isValidChar then some (.scalar (Char.ofNat v)) else none

/-- The rune of a sequence that begins with `b` and goes on in `t`, with the number of bytes it
takes from `t`. -/
def sequence? (b : UInt8) (t : Bytes) : Option (Rune × Nat) :=
  if b < 128 then (ofValue? 0 b.toNat).map (·, 0)
  else if b < 192 then none
  else if b < 224 then
    match t with
    | c :: _ =>
      if isContinuation c then
        (ofValue? 128 (b.toNat % 32 * 64 + payload c)).map (·, 1)
      else none
    | _ => none
  else if b < 240 then
    match t with
    | c :: d :: _ =>
      if isContinuation c && isContinuation d then
        (ofValue? 2048 (b.toNat % 16 * 4096 + payload c * 64 + payload d)).map (·, 2)
      else none
    | _ => none
  else if b < 248 then
    match t with
    | c :: d :: e :: _ =>
      if isContinuation c && isContinuation d && isContinuation e then
        (ofValue? 65536
          (b.toNat % 8 * 262144 + payload c * 4096 + payload d * 64 + payload e)).map (·, 3)
      else none
    | _ => none
  else none

/-- The first rune of `b :: t`, with the number of bytes it takes from `t`. -/
def first (b : UInt8) (t : Bytes) : Rune × Nat := (sequence? b t).getD (.stray b, 0)

/-- The scanner of `decode`: `skip` further bytes belong to the last rune. -/
def decodeFrom : Nat → Bytes → List Rune
  | _, [] => []
  | skip + 1, _ :: t => decodeFrom skip t
  | 0, b :: t => (first b t).1 :: decodeFrom (first b t).2 t

/-- The runes of a byte string. -/
def decode (b : Bytes) : List Rune := decodeFrom 0 b

/-- The bytes a rune stands for. -/
def encode : Rune → Bytes
  | .scalar c => String.utf8EncodeChar c
  | .stray b => [b]

/-- The character of a rune; a stray byte reads as U+FFFD. -/
def char : Rune → Char
  | .scalar c => c
  | .stray _ => '\uFFFD'

end Rune

/-- The characters of a byte string, each stray byte read as U+FFFD. -/
def Bytes.chars (b : Bytes) : List Char := (Rune.decode b).map Rune.char

/-- The bytes of a list of characters. -/
def Bytes.ofChars (cs : List Char) : Bytes := cs.flatMap String.utf8EncodeChar

/-- The length of a byte string in runes. -/
def Bytes.width (b : Bytes) : Nat := (Rune.decode b).length

end KernelPack
