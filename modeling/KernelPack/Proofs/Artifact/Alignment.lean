import KernelPack.Proofs.Artifact.Literal
import KernelPack.Proofs.Text.Encoding

/-!
# The literals of lines

Debug literals are filled up with spaces, so that their ends stand one below the other, and lose
nothing of the lines that they stand for. `Shows` says what this means: there is a literal for each
line, all literals have the same **width in runes**, and a literal reads as a space, its line, some
spaces and a line feed, without further spaces where the line is the widest.

Padding goes up to a limit. The main statement says that the literals show the lines exactly if no
escaped line is wider than the limit; where one is, nothing is filled up, and every literal begins
with what stands in place of padding.
-/

namespace KernelPack

namespace Bytes

/-! ### Widths of joined strings -/

theorem width_cons_of_lt {x : UInt8} (hx : x.toNat < 128) (t : Bytes) :
    width (x :: t) = width t + 1 := by
  obtain ⟨r, hr⟩ := Rune.sequence?_of_lt hx t
  have hfirst : Rune.first x t = (r, 0) := by
    rw [Rune.first, hr]
    rfl
  rw [width, Rune.decode, Rune.decodeFrom, hfirst]
  rfl

/-- ASCII text is as wide as it is long. -/
theorem width_of_lt {b : Bytes} (hb : ∀ x ∈ b, x.toNat < 128) : width b = b.length := by
  induction b with
  | nil => rfl
  | cons x t ih =>
    obtain ⟨hx, ht⟩ := List.forall_mem_cons.mp hb
    rw [width_cons_of_lt hx, ih ht, List.length_cons]

/-- ASCII text at the end of a string adds its length. -/
theorem width_append_of_lt (s : Bytes) {u : Bytes} (hu : ∀ x ∈ u, x.toNat < 128) :
    width (s ++ u) = width s + u.length := by
  have hhead : ∀ x ∈ u.head?, Rune.isContinuation x = false := by
    intro x hx
    have hlt := hu x (List.mem_of_mem_head? hx)
    rw [Bool.eq_false_iff, ne_eq, Rune.isContinuation_iff]
    omega
  rw [width, Rune.decode_append hhead, List.length_append, ← width, ← width, width_of_lt hu]

end Bytes

namespace Artifact

/-! ### The widest line -/

theorem foldl_max_width_le_iff {texts : List Bytes} {w m : Nat} :
    texts.foldl (fun w t => max w t.width) w ≤ m ↔ w ≤ m ∧ ∀ t ∈ texts, t.width ≤ m := by
  induction texts generalizing w with
  | nil => simp
  | cons t ts ih => rw [List.foldl_cons, ih, Nat.max_le, and_assoc, List.forall_mem_cons]

theorem widest_le_iff {texts : List Bytes} {m : Nat} :
    widest texts ≤ m ↔ ∀ t ∈ texts, t.width ≤ m :=
  foldl_max_width_le_iff.trans (and_iff_right (Nat.zero_le m))

theorem width_le_widest {texts : List Bytes} {t : Bytes} (ht : t ∈ texts) :
    t.width ≤ widest texts :=
  widest_le_iff.mp (Nat.le_refl _) t ht

/-! ### One literal -/

/-- The literal of a line, filled up to a width. -/
def debugLiteral (width : Nat) (line : Bytes) : Bytes :=
  enclose (Byte.space :: padTo width (escape line) ++ utf8 "\\n")

theorem debugLiterals_eq_map (lines : List Bytes) :
    debugLiterals lines = lines.map (debugLiteral (widest (lines.map escape))) := by
  rw [debugLiterals, List.map_map]
  rfl

section Width

variable {width : Nat}

theorem width_padTo {text : Bytes} (hlimit : width ≤ paddingLimit) (htext : text.width ≤ width) :
    (padTo width text).width = width := by
  have hspaces : ∀ x ∈ List.replicate (width - text.width) Byte.space, x.toNat < 128 := by
    intro x hx
    rw [List.eq_of_mem_replicate hx]
    decide
  rw [padTo, if_neg (Nat.not_lt.mpr hlimit), Bytes.width_append_of_lt _ hspaces,
    List.length_replicate, Nat.add_sub_cancel' htext]

/-- Two quotes, a space and the two bytes of the line feed come to the padded line. -/
theorem width_debugLiteral {line : Bytes} (hlimit : width ≤ paddingLimit)
    (hline : (escape line).width ≤ width) : (debugLiteral width line).width = width + 5 := by
  have hend : ∀ x ∈ utf8 "\\n" ++ [Byte.quote], x.toNat < 128 := by decide +kernel
  have hsplit : debugLiteral width line = Byte.quote :: Byte.space ::
      (padTo width (escape line) ++ (utf8 "\\n" ++ [Byte.quote])) := by
    simp [debugLiteral, enclose]
  rw [hsplit, Bytes.width_cons_of_lt (by decide), Bytes.width_cons_of_lt (by decide),
    Bytes.width_append_of_lt _ hend, width_padTo hlimit hline]
  rfl

/-- **Beyond the limit** a literal reads as the line behind what stands in place of padding. -/
theorem literalValue?_debugLiteral_of_lt (hlimit : paddingLimit < width) (line : Bytes) :
    literalValue? simpleEscape? (debugLiteral width line) =
      some (Byte.space :: paddingRefused ++ line ++ [Byte.lf]) := by
  have hend : unescape? simpleEscape? (utf8 "\\n") = some [Byte.lf] := rfl
  have hmark : paddingRefused ++ escape line = escape (paddingRefused ++ line) := by
    rw [escape_append, show escape paddingRefused = paddingRefused from by decide]
  rw [debugLiteral, literalValue?_enclose, padTo, if_pos hlimit, List.cons_append,
    unescape?_cons (by decide) (by decide), hmark,
    unescape?_escape_append simpleEscape?_quotesBack, hend]
  simp

end Width

/-! ### All literals -/

/-- **The literals show the lines**: one literal for each line, all of one width, and each reads as
a space, its line, some spaces and a line feed; the literal of a widest line has no spaces before
the line feed but those of the line. -/
structure Shows (lines literals : List Bytes) : Prop where
  length_eq : literals.length = lines.length
  width_eq : ∀ l ∈ literals, ∀ m ∈ literals, l.width = m.width
  value : ∀ (i : Nat) (line literal : Bytes), lines[i]? = some line → literals[i]? = some literal →
    ∃ n, literalValue? simpleEscape? literal =
        some (Byte.space :: line ++ List.replicate n Byte.space ++ [Byte.lf]) ∧
      ((∀ l ∈ lines, (escape l).width ≤ (escape line).width) → n = 0)

/-- A literal that begins with the mark of the limit shows no line. -/
theorem refused_ne (line : Bytes) (n : Nat) :
    Byte.space :: paddingRefused ++ line ++ [Byte.lf] ≠
      Byte.space :: line ++ List.replicate n Byte.space ++ [Byte.lf] := by
  intro h
  -- the percent sign of the mark has no counterpart among the spaces
  have hcount := congrArg (List.count 37) h
  have hmark : List.count 37 paddingRefused = 1 := by decide
  simp [List.count_replicate, hmark, Byte.space] at hcount

section Lines

variable {lines : List Bytes}

/-- The literal of a line has the place of the line. -/
theorem eq_debugLiteral {i : Nat} {line literal : Bytes} (hline : lines[i]? = some line)
    (hliteral : (debugLiterals lines)[i]? = some literal) :
    literal = debugLiteral (widest (lines.map escape)) line := by
  rw [debugLiterals_eq_map, List.getElem?_map, hline, Option.map_some] at hliteral
  exact (Option.some.inj hliteral).symm

/-- Up to the limit the literals show the lines. -/
theorem shows_debugLiterals (hlimit : widest (lines.map escape) ≤ paddingLimit) :
    Shows lines (debugLiterals lines) := by
  constructor
  case length_eq => rw [debugLiterals_eq_map, List.length_map]
  case width_eq =>
    have hwidth : ∀ l ∈ debugLiterals lines, l.width = widest (lines.map escape) + 5 := by
      rw [debugLiterals_eq_map, List.forall_mem_map]
      exact fun line hline =>
        width_debugLiteral hlimit (width_le_widest (List.mem_map_of_mem hline))
    intro l hl m hm
    rw [hwidth l hl, hwidth m hm]
  case value =>
    intro i line literal hline hliteral
    rw [eq_debugLiteral hline hliteral]
    refine ⟨widest (lines.map escape) - (escape line).width, literalValue?_debug hlimit line,
      fun hmost => Nat.sub_eq_zero_of_le (widest_le_iff.mpr ?_)⟩
    rwa [List.forall_mem_map]

/-- Beyond the limit every literal has the mark of it. -/
theorem literalValue?_of_lt_widest (hlimit : paddingLimit < widest (lines.map escape)) {i : Nat}
    {line literal : Bytes} (hline : lines[i]? = some line)
    (hliteral : (debugLiterals lines)[i]? = some literal) :
    literalValue? simpleEscape? literal =
      some (Byte.space :: paddingRefused ++ line ++ [Byte.lf]) := by
  rw [eq_debugLiteral hline hliteral, literalValue?_debugLiteral_of_lt hlimit]

end Lines

/-- **Debug literals show the lines up to the limit of padding.** They do so exactly if no escaped
line is wider than the limit. Where one is, each literal reads as its line with the mark of the
limit before it. -/
theorem shows_debugLiterals_iff (lines : List Bytes) :
    (Shows lines (debugLiterals lines) ↔ widest (lines.map escape) ≤ paddingLimit) ∧
    (paddingLimit < widest (lines.map escape) →
      ∀ (i : Nat) (line literal : Bytes), lines[i]? = some line →
        (debugLiterals lines)[i]? = some literal →
        literalValue? simpleEscape? literal =
          some (Byte.space :: paddingRefused ++ line ++ [Byte.lf])) := by
  refine ⟨⟨fun hshows => Nat.le_of_not_lt fun hlimit => ?_, shows_debugLiterals⟩,
    fun hlimit i line literal => literalValue?_of_lt_widest hlimit⟩
  cases lines with
  | nil => exact Nat.not_lt_zero _ hlimit
  | cons line ls =>
    have hliteral : (debugLiterals (line :: ls))[0]? = some _ := rfl
    obtain ⟨n, hvalue, -⟩ := hshows.value 0 line _ rfl hliteral
    rw [literalValue?_of_lt_widest hlimit rfl hliteral] at hvalue
    exact refused_ne line n (Option.some.inj hvalue)

/-- Three lines with quotes, a letter of two bytes and a byte outside UTF-8 are shown; a line of one
byte more than the limit is not, and reads with the mark of it. -/
theorem shows_debugLiterals_iff_limit :
    let short := [utf8 "s = \"é\";", [255], []]
    let wide := List.replicate (paddingLimit + 1) (97 : UInt8)
    Shows short (debugLiterals short) ∧ ¬ Shows [wide] (debugLiterals [wide]) ∧
    ∃ literal, debugLiterals [wide] = [literal] ∧ literalValue? simpleEscape? literal =
      some (Byte.space :: paddingRefused ++ wide ++ [Byte.lf]) := by
  intro short wide
  have hplain : Plain wide := fun x hx => by
    rw [List.eq_of_mem_replicate hx]
    decide
  have hascii : ∀ x ∈ wide, x.toNat < 128 := fun x hx => by
    rw [List.eq_of_mem_replicate hx]
    decide
  have hwide : paddingLimit < widest ([wide].map escape) := by
    have hle := width_le_widest (List.mem_map_of_mem (f := escape) (List.mem_singleton_self wide))
    rw [hplain.escape_eq, Bytes.width_of_lt hascii, List.length_replicate] at hle
    exact hle
  obtain ⟨hshort, -⟩ := shows_debugLiterals_iff short
  obtain ⟨hshows, hbeyond⟩ := shows_debugLiterals_iff [wide]
  exact ⟨hshort.mpr (by decide +kernel), mt hshows.mp (Nat.not_le_of_lt hwide), _, rfl,
    hbeyond hwide 0 wide _ rfl rfl⟩

end Artifact

end KernelPack
