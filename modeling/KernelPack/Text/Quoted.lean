import KernelPack.Text.Numeral
import KernelPack.Text.Printable
import KernelPack.Text.Rune

/-!
# Quoted text

Messages show names between double quotes. Printable characters stand for themselves, the
quote and the backslash take a backslash, and everything else is written as an escape: a
letter for the seven classic control characters, else the code in hexadecimal. A stray byte is
written as its code, so the quoted form is always valid text.
-/

namespace KernelPack.Quoted

/-- A backslash, a mark, and a number in hexadecimal of at least `width` digits. -/
def hexEscape (mark : Char) (width n : Nat) : Bytes :=
  utf8 "\\" ++ Bytes.ofChars [mark] ++ Numeral.zeroPadded width (Numeral.digits 16 n)

/-- The letter of a classic control character. -/
def controlLetter? (n : Nat) : Option Char :=
  match n with
  | 7 => some 'a'
  | 8 => some 'b'
  | 9 => some 't'
  | 10 => some 'n'
  | 11 => some 'v'
  | 12 => some 'f'
  | 13 => some 'r'
  | _ => none

/-- A rune inside quotes. -/
def rune : Rune → Bytes
  | .stray b => hexEscape 'x' 2 b.toNat
  | .scalar c =>
    if c == '"' || c == '\\' then Bytes.ofChars ['\\', c]
    else if Text.isPrintable c then Bytes.ofChars [c]
    else match controlLetter? c.toNat with
      | some l => Bytes.ofChars ['\\', l]
      | none =>
        if c.toNat < 128 then hexEscape 'x' 2 c.toNat
        else if c.toNat < 65536 then hexEscape 'u' 4 c.toNat
        else hexEscape 'U' 8 c.toNat

end KernelPack.Quoted

/-- The text between double quotes. -/
def KernelPack.Bytes.quoted (b : KernelPack.Bytes) : KernelPack.Bytes :=
  [Byte.quote] ++ (Rune.decode b).flatMap Quoted.rune ++ [Byte.quote]
