import KernelPack.Text.Rune

/-!
# White space

The characters with the white-space property, and trimming by it at both ends. A stray byte is
never white space.
-/

namespace KernelPack

/-- The characters with the Unicode white-space property. -/
def Text.isBlank (c : Char) : Bool :=
  let n := c.toNat
  (9 ≤ n && n ≤ 13) || n == 0x20 || n == 0x85 || n == 0xA0 || n == 0x1680
    || (0x2000 ≤ n && n ≤ 0x200A) || n == 0x2028 || n == 0x2029 || n == 0x202F
    || n == 0x205F || n == 0x3000

/-- Is the rune a white-space character? -/
def Rune.isBlank : Rune → Bool
  | .scalar c => Text.isBlank c
  | .stray _ => false

/-- The string without the white space at both ends. -/
def Bytes.trim (b : Bytes) : Bytes :=
  let rs := (Rune.decode b).dropWhile Rune.isBlank
  ((rs.reverse.dropWhile Rune.isBlank).reverse).flatMap Rune.encode

end KernelPack
