import KernelPack.Proofs.Artifact.Definition
import KernelPack.Proofs.Kernel.Outputs
import KernelPack.Proofs.Text.Encoding
import KernelPack.Source.Lines

/-!
# Names in generated sources

What other C code sees of an artifact are names: the array and its length, which a definition
defines, and the include guard of the header. Here they are **read off** the written sources: the
array from the beginning of a definition, the length from its last line (`definedNames`), the guard
from the beginning of a header (`guardOf`).

A symbol consists of word bytes, so the names are read as they were written
(`definedNames_of_definition`, `guardOf_declaration`). From this it follows when the sources of two
symbols get into each other's way (`names_apart_iff`):

* the guards are the same exactly if the symbols differ at most in the case of letters;
* a name is defined twice exactly if the symbols are the same, or one is the other followed by the
  ending of lengths.
-/

namespace KernelPack

namespace Bytes

/-! ### Words at the beginning of a text -/

/-- The word after a mark, if the text begins with the mark. -/
def wordAfter? (mark text : Bytes) : Option Bytes :=
  if mark.isPrefixOf text then some ((text.drop mark.length).takeWhile Byte.isWord) else none

/-- A word after a mark ends at a byte that belongs to no word. -/
theorem wordAfter?_append {mark word : Bytes} {stop : UInt8}
    (hword : ∀ b ∈ word, Byte.isWord b = true) (hstop : Byte.isWord stop = false) (rest : Bytes) :
    wordAfter? mark (mark ++ (word ++ stop :: rest)) = some word := by
  have hmark : mark.isPrefixOf (mark ++ (word ++ stop :: rest)) = true :=
    List.isPrefixOf_iff_prefix.mpr (List.prefix_append mark _)
  have hend : (stop :: rest).takeWhile Byte.isWord = [] := by simp [hstop]
  rw [wordAfter?, if_pos hmark, List.drop_left, List.takeWhile_append_of_pos hword, hend,
    List.append_nil]

/-! ### Upper case -/

/-- The upper counterpart of an ASCII letter; all other bytes are their own. -/
def upperByte (b : UInt8) : UInt8 := if 97 ≤ b ∧ b ≤ 122 then b - 32 else b

/-- The first rune of a text that begins with an ASCII byte. -/
theorem first_of_lt {x : UInt8} (hx : x.toNat < 128) (t : Bytes) :
    Rune.first x t = (.scalar (Char.ofNat x.toNat), 0) := by
  have hlt : x < 128 := UInt8.lt_iff_toNat_lt.mpr hx
  have hvalid : Nat.isValidChar x.toNat := Or.inl (by omega)
  simp [Rune.first, Rune.sequence?, Rune.ofValue?, hlt, hvalid]

/-- **ASCII text goes to upper case byte by byte.** -/
theorem upper_eq_map {b : Bytes} (hb : ∀ x ∈ b, x.toNat < 128) : b.upper = b.map upperByte := by
  have hbyte : ∀ n < 128, String.utf8EncodeChar (Text.upperChar (Char.ofNat n)) =
      [upperByte (UInt8.ofNat n)] := by decide
  induction b with
  | nil => rfl
  | cons x t ih =>
    obtain ⟨hx, ht⟩ := List.forall_mem_cons.mp hb
    have hfirst := hbyte x.toNat hx
    rw [UInt8.ofNat_toNat] at hfirst
    have hchars : chars (x :: t) = Char.ofNat x.toNat :: chars t := by
      rw [chars, Rune.decode, Rune.decodeFrom, first_of_lt hx]
      rfl
    rw [upper, hchars, List.map_cons, ofChars, List.flatMap_cons, hfirst]
    exact congrArg _ (ih ht)

theorem toNat_lt_of_isWord {x : UInt8} (hx : Byte.isWord x = true) : x.toNat < 128 := by
  have hall : ∀ n < 256, Byte.isWord (UInt8.ofNat n) = true → n < 128 := by decide +kernel
  exact hall x.toNat x.toNat_lt (by rwa [UInt8.ofNat_toNat])

theorem isWord_upperByte {x : UInt8} (hx : Byte.isWord x = true) :
    Byte.isWord (upperByte x) = true := by
  have hall : ∀ n < 256, Byte.isWord (UInt8.ofNat n) = true →
      Byte.isWord (upperByte (UInt8.ofNat n)) = true := by decide +kernel
  have hbyte := hall x.toNat x.toNat_lt
  rw [UInt8.ofNat_toNat] at hbyte
  exact hbyte hx

end Bytes

namespace Artifact

/-! ### Reading the names -/

/-- The ending of the name of a length. -/
def lengthEnding : Bytes := utf8 "_len"

/-- The names that a definition defines: the array at its beginning, and the length on its last
line. -/
def definedNames (source : Bytes) : List Bytes :=
  (Bytes.wordAfter? (utf8 "const char ") source).toList ++
    ((Source.rawLines source).getLast?.bind (Bytes.wordAfter? (utf8 "const unsigned "))).toList

/-- The name that a header asks for before it declares anything. -/
def guardOf (header : Bytes) : Option Bytes := Bytes.wordAfter? (utf8 "#ifndef ") header

/-- The last line of a text that ends in a line feed. -/
theorem getLast?_rawLines {line : Bytes} (hline : Byte.lf ∉ line) (front : Bytes) :
    (Source.rawLines (front ++ Byte.lf :: (line ++ [Byte.lf]))).getLast? = some line := by
  have hsep : ∀ x ∈ line, (x == Byte.lf) = false := fun x hx =>
    beq_eq_false_iff_ne.mpr fun he => hline (he ▸ hx)
  have hpieces : Bytes.pieces Byte.lf (front ++ Byte.lf :: (line ++ [Byte.lf])) =
      Bytes.pieces Byte.lf front ++ [line] ++ [[]] := by
    rw [Bytes.pieces, Bytes.piecesBy_append_cons (by rfl), Bytes.piecesBy_append_cons (by rfl),
      Bytes.piecesBy_eq_singleton hsep, List.append_assoc]
    rfl
  rw [Source.rawLines, hpieces, if_pos (by simp), List.dropLast_concat, List.getLast?_concat]

section Definition

variable {symbol : Bytes} (hword : ∀ b ∈ symbol, Byte.isWord b = true)

include hword

theorem wordAfter?_definitionText (switch : Bytes) (debug release : List Bytes) :
    Bytes.wordAfter? (utf8 "const char ") (definitionText symbol switch debug release) =
      some symbol := by
  have hstop : utf8 "[] = \n\n\n" = 91 :: utf8 "] = \n\n\n" := by decide
  unfold definitionText
  simp only [hstop, List.append_assoc, List.cons_append]
  rw [Bytes.wordAfter?_append hword (by decide)]

theorem getLast?_rawLines_definitionText (switch : Bytes) (debug release : List Bytes) :
    (Source.rawLines (definitionText symbol switch debug release)).getLast? =
      some (utf8 "const unsigned " ++ (symbol ++ lengthEnding ++
        Byte.space :: (utf8 "= sizeof(" ++ symbol ++ utf8 ");"))) := by
  have hlf : Byte.lf ∉ symbol := fun h => absurd (hword _ h) (by decide)
  have hline : Byte.lf ∉ utf8 "const unsigned " ++ (symbol ++ lengthEnding ++
      Byte.space :: (utf8 "= sizeof(" ++ symbol ++ utf8 ");")) := by
    simp [hlf, show Byte.lf ∉ utf8 "const unsigned " by decide,
      show Byte.lf ∉ lengthEnding by decide, show Byte.lf ≠ Byte.space by decide,
      show Byte.lf ∉ utf8 "= sizeof(" by decide, show Byte.lf ∉ utf8 ");" by decide]
  have hlength : utf8 "_len = sizeof(" = lengthEnding ++ Byte.space :: utf8 "= sizeof(" := by decide
  have hmark : utf8 ";\n\n\n" = utf8 ";\n\n" ++ [Byte.lf] := by decide
  have hclose : utf8 ");\n" = utf8 ");" ++ [Byte.lf] := by decide
  have hsplit : ∀ front : Bytes, front ++ utf8 ";\n\n\n" ++ utf8 "const unsigned " ++ symbol ++
      utf8 "_len = sizeof(" ++ symbol ++ utf8 ");\n" =
      (front ++ utf8 ";\n\n") ++ Byte.lf :: ((utf8 "const unsigned " ++ (symbol ++ lengthEnding ++
        Byte.space :: (utf8 "= sizeof(" ++ symbol ++ utf8 ");"))) ++ [Byte.lf]) := by
    intro front
    simp only [hlength, hmark, hclose, List.append_assoc, List.cons_append, List.nil_append]
  unfold definitionText
  rw [hsplit, getLast?_rawLines hline]

end Definition

/-- **The names of a definition** are its symbol and the symbol with the ending of lengths. -/
theorem definedNames_of_definition {a : Artifact} {source : Bytes}
    (hword : ∀ b ∈ a.symbol, Byte.isWord b = true) (h : a.definition = .ok source) :
    definedNames source = [a.symbol, a.symbol ++ lengthEnding] := by
  obtain ⟨release, -, rfl⟩ := definition_eq_ok_iff.mp h
  have hlength : ∀ b ∈ a.symbol ++ lengthEnding, Byte.isWord b = true :=
    List.forall_mem_append.mpr ⟨hword, by decide +kernel⟩
  rw [definedNames, wordAfter?_definitionText hword, getLast?_rawLines_definitionText hword,
    Option.bind_some, Bytes.wordAfter?_append hlength (by decide)]
  rfl

/-- **The guard of a header** is its symbol in upper case, with an ending. -/
theorem guardOf_declaration {a : Artifact} (hword : ∀ b ∈ a.symbol, Byte.isWord b = true) :
    guardOf a.declaration = some (a.symbol.map Bytes.upperByte ++ utf8 "_H") := by
  have hguard : guard a.symbol = a.symbol.map Bytes.upperByte ++ utf8 "_H" := by
    rw [guard, Bytes.upper_eq_map fun x hx => Bytes.toNat_lt_of_isWord (hword x hx)]
  have hupper : ∀ b ∈ guard a.symbol, Byte.isWord b = true := by
    rw [hguard]
    refine List.forall_mem_append.mpr ⟨List.forall_mem_map.mpr fun x hx => ?_, by decide +kernel⟩
    exact Bytes.isWord_upperByte (hword x hx)
  have hstop : utf8 "\n#define " = Byte.lf :: utf8 "#define " := by decide
  rw [← hguard]
  simp only [guardOf, declaration, hstop, List.append_assoc, List.cons_append]
  exact Bytes.wordAfter?_append hupper (by decide) _

/-! ### Two symbols -/

/-- The names of two symbols are different, unless one symbol is the other, with or without the
ending of lengths. -/
theorem disjoint_names_iff {s t : Bytes} :
    (∀ n ∈ [s, s ++ lengthEnding], n ∉ [t, t ++ lengthEnding]) ↔
      s ≠ t ∧ s ≠ t ++ lengthEnding ∧ t ≠ s ++ lengthEnding := by
  constructor
  · intro h
    have hs := h s List.mem_cons_self
    have hlen := h (s ++ lengthEnding) (List.mem_cons_of_mem _ List.mem_cons_self)
    simp only [List.mem_cons, List.not_mem_nil, or_false, not_or] at hs hlen
    exact ⟨hs.1, hs.2, Ne.symm hlen.1⟩
  · rintro ⟨hne, hs, ht⟩
    simp [hne, hs, Ne.symm ht]

/-- **When generated sources can be used together.** The guards of two headers are the same exactly
if the symbols are, but for the case of letters. The names of two definitions are different exactly
if neither symbol is the other, or the other with the ending of lengths. -/
theorem names_apart_iff {a b : Artifact} {s n t m source source' : Bytes}
    (ha : a.symbol = symbolOf s n) (hb : b.symbol = symbolOf t m)
    (hsource : a.definition = .ok source) (hsource' : b.definition = .ok source') :
    (guardOf a.declaration = guardOf b.declaration ↔
      a.symbol.map Bytes.upperByte = b.symbol.map Bytes.upperByte) ∧
    ((∀ n ∈ definedNames source, n ∉ definedNames source') ↔
      a.symbol ≠ b.symbol ∧ a.symbol ≠ b.symbol ++ lengthEnding ∧
        b.symbol ≠ a.symbol ++ lengthEnding) := by
  have hworda : ∀ x ∈ a.symbol, Byte.isWord x = true := fun x hx =>
    isWord_of_mem_sanitize (by rwa [ha] at hx)
  have hwordb : ∀ x ∈ b.symbol, Byte.isWord x = true := fun x hx =>
    isWord_of_mem_sanitize (by rwa [hb] at hx)
  rw [guardOf_declaration hworda, guardOf_declaration hwordb,
    definedNames_of_definition hworda hsource, definedNames_of_definition hwordb hsource',
    Option.some_inj, List.append_left_inj]
  exact ⟨Iff.rfl, disjoint_names_iff⟩

/-- An artifact of one short line. -/
def short (symbol : Bytes) : Artifact := ⟨symbol, [], utf8 "int x;", 76, []⟩

/-- The sources of two kernels of which one is named like the other with an ending. -/
theorem names_apart_iff_blur :
    ∃ source source' : Bytes,
      (short (symbolOf (utf8 "opencl___") (utf8 "blur"))).definition = .ok source ∧
      (short (symbolOf (utf8 "opencl___") (utf8 "blur_h"))).definition = .ok source' ∧
      guardOf (short (symbolOf (utf8 "opencl___") (utf8 "blur"))).declaration ≠
        guardOf (short (symbolOf (utf8 "opencl___") (utf8 "blur_h"))).declaration ∧
      ∀ n ∈ definedNames source, n ∉ definedNames source' := by
  obtain ⟨source, hsource⟩ : ∃ source,
      (short (symbolOf (utf8 "opencl___") (utf8 "blur"))).definition = .ok source := ⟨_, rfl⟩
  obtain ⟨source', hsource'⟩ : ∃ source,
      (short (symbolOf (utf8 "opencl___") (utf8 "blur_h"))).definition = .ok source := ⟨_, rfl⟩
  obtain ⟨hguard, hnames⟩ := names_apart_iff (s := utf8 "opencl___") (n := utf8 "blur")
    (t := utf8 "opencl___") (m := utf8 "blur_h") rfl rfl hsource hsource'
  exact ⟨source, source', hsource, hsource', fun h => absurd (hguard.mp h) (by decide),
    hnames.mpr ⟨by decide, by decide, by decide⟩⟩

/-- Different symbols are not enough: the guards of `a` and `A` are the same, and the length that
belongs to `k` has the name of the array of `k_len`. -/
theorem names_clash :
    symbolOf [] (utf8 "a") ≠ symbolOf [] (utf8 "A") ∧
    guardOf (short (symbolOf [] (utf8 "a"))).declaration =
      guardOf (short (symbolOf [] (utf8 "A"))).declaration ∧
    symbolOf [] (utf8 "k") ≠ symbolOf [] (utf8 "k_len") ∧
    ∃ source source' : Bytes,
      (short (symbolOf [] (utf8 "k"))).definition = .ok source ∧
      (short (symbolOf [] (utf8 "k_len"))).definition = .ok source' ∧
      utf8 "k_len" ∈ definedNames source ∧ utf8 "k_len" ∈ definedNames source' := by
  obtain ⟨source, hsource⟩ : ∃ source,
      (short (symbolOf [] (utf8 "k"))).definition = .ok source := ⟨_, rfl⟩
  obtain ⟨source', hsource'⟩ : ∃ source,
      (short (symbolOf [] (utf8 "k_len"))).definition = .ok source := ⟨_, rfl⟩
  refine ⟨by decide, ?_, by decide, source, source', hsource, hsource', ?_, ?_⟩
  · rw [guardOf_declaration (by decide +kernel), guardOf_declaration (by decide +kernel)]
    decide
  · rw [definedNames_of_definition (by decide +kernel) hsource]
    decide
  · rw [definedNames_of_definition (by decide +kernel) hsource']
    decide

end Artifact

end KernelPack
