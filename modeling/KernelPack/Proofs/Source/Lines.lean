import KernelPack.Proofs.Bytes.Cutting
import KernelPack.Proofs.Bytes.Substitution
import KernelPack.Source.Lines

/-!
# Reading lines

A text is its lines one after another, each ended by a line feed, but the last one need not be
(`rawLines_append_cons`, `rawLines_of_lf_not_mem`). Reading goes through them with a count, and what
it keeps is what is left of the list behind the header (`readFrom_eq`). Every line has to fit,
whether it is kept or not, so a text can be read unless it has more than `lineLimit` bytes in a row
without a line feed (`HasLongLine`), and then no header helps.

A carriage return in front of a line feed is trimmed with the blanks, so a text with such line
endings gives the same lines (`map_trimLine_rawLines_withCrLf`). It is scanned with the line,
though: the lines that have it fit only if those without it do (`all_fits_of_withCrLf`), and a full
line no longer fits with it (`hasLongLine_withCrLf`).
-/

namespace KernelPack.Source

variable {line text : Bytes}

/-! ### The lines of a text -/

theorem rawLines_of_lf_not_mem (h : Byte.lf ∉ line) :
    rawLines line = if line = [] then [] else [line] := by
  rw [rawLines, Bytes.pieces_eq_singleton h]
  split <;> simp_all

/-- **A terminated line is the first line**, and those of the rest follow. -/
theorem rawLines_append_cons (h : Byte.lf ∉ line) (text : Bytes) :
    rawLines (line ++ Byte.lf :: text) = line :: rawLines text := by
  obtain ⟨p, ps, hpieces⟩ : ∃ p ps, Bytes.pieces Byte.lf text = p :: ps := ⟨_, _, rfl⟩
  rw [rawLines, Bytes.pieces_append_cons h, rawLines, hpieces, List.getLast?_cons_cons]
  split <;> rfl

theorem lf_not_mem_of_mem_rawLines (h : line ∈ rawLines text) : Byte.lf ∉ line := by
  have hmem : line ∈ Bytes.pieces Byte.lf text := by
    rw [rawLines] at h
    split at h
    · exact (List.dropLast_sublist _).mem h
    · exact h
  exact Bytes.not_mem_of_mem_pieces hmem

/-! ### Lines that fit -/

theorem fits_eq_true_iff : fits line = true ↔ line.length ≤ lineLimit := decide_eq_true_iff

/-- Somewhere in the text there are more bytes in a row than a line may have. -/
def HasLongLine (text : Bytes) : Prop :=
  ∃ part, part <:+: text ∧ Byte.lf ∉ part ∧ lineLimit < part.length

/-- Bytes in a row without a line feed lie in the first line or behind it. -/
theorem infix_append_lf {part : Bytes} (hpart : Byte.lf ∉ part) :
    part <:+: line ++ Byte.lf :: text ↔ part <:+: line ∨ part <:+: text := by
  constructor
  · rintro ⟨s, u, h⟩
    obtain ⟨v, rfl, -⟩ | ⟨v, hv, ht⟩ := List.append_eq_append_iff.mp h
    · exact Or.inl ⟨s, v, rfl⟩
    cases v with
    | nil => exact Or.inl ⟨s, [], by simpa using hv⟩
    | cons b v =>
      -- the line feed stands before the end of the part, and so before its beginning
      obtain ⟨rfl, rfl⟩ := List.cons.inj ht
      obtain ⟨w, -, rfl⟩ | ⟨w, -, hw⟩ := List.append_eq_append_iff.mp hv
      · exact absurd (by simp) hpart
      cases w with
      | nil =>
        rw [List.nil_append] at hw
        exact absurd (hw ▸ List.mem_cons_self) hpart
      | cons c w =>
        obtain ⟨-, rfl⟩ := List.cons.inj hw
        exact Or.inr ⟨w, u, rfl⟩
  · rintro (h | h)
    · exact h.trans (List.infix_append' [] line _)
    · exact h.trans ⟨line ++ [Byte.lf], [], by simp⟩

/-- **The lines of a text fit unless it has too many bytes in a row.** -/
theorem all_fits_rawLines_iff : (rawLines text).all fits = true ↔ ¬ HasLongLine text := by
  induction text using Bytes.line_induction Byte.lf with
  | last l hl =>
    have hlong : HasLongLine l ↔ lineLimit < l.length := by
      refine ⟨fun ⟨part, hpart, _, hlength⟩ => ?_, fun h => ⟨l, List.infix_rfl, hl, h⟩⟩
      exact Nat.lt_of_lt_of_le hlength hpart.length_le
    rw [rawLines_of_lf_not_mem hl, hlong]
    split
    · rename_i hnil
      simp [hnil]
    · simp [fits]
  | line l t hl ih =>
    have hlong : HasLongLine (l ++ Byte.lf :: t) ↔ lineLimit < l.length ∨ HasLongLine t := by
      constructor
      · rintro ⟨part, hpart, hlf, hlength⟩
        obtain h | h := (infix_append_lf hlf).mp hpart
        · exact Or.inl (Nat.lt_of_lt_of_le hlength h.length_le)
        · exact Or.inr ⟨part, h, hlf, hlength⟩
      · rintro (h | ⟨part, hpart, hlf, hlength⟩)
        · exact ⟨l, (infix_append_lf hl).mpr (Or.inl List.infix_rfl), hl, h⟩
        · exact ⟨part, (infix_append_lf hlf).mpr (Or.inr hpart), hlf, hlength⟩
    rw [rawLines_append_cons hl, List.all_cons, Bool.and_eq_true, fits_eq_true_iff, ih, hlong,
      not_or, Nat.not_lt]

/-! ### The lines that are kept -/

/-- What becomes of a further line: it is counted, and kept if the header is over. -/
theorem readFrom_cons {header : Int} {count : Nat} {kept rest : List Bytes} (h : fits line = true) :
    readFrom header count kept (line :: rest) =
      readFrom header (count + 1)
        (if (count + 1 : Nat) ≤ header then kept else trimLine line :: kept) rest := by
  rw [readFrom, if_pos h]
  dsimp only
  split <;> rfl

/-- **What is kept of lines**: those behind what is left of the header, if all of them fit. -/
theorem readFrom_eq (header : Int) (count : Nat) (kept lines : List Bytes) :
    readFrom header count kept lines =
      if lines.all fits then
        .ok (kept.reverse ++ (lines.drop (header - count).toNat).map trimLine)
      else .error .lineTooLong := by
  induction lines generalizing count kept with
  | nil => simp [readFrom]
  | cons line rest ih =>
    cases hfits : fits line with
    | false => simp [readFrom, hfits]
    | true =>
      rw [readFrom_cons hfits, ih, List.all_cons, hfits, Bool.true_and]
      by_cases hskip : (count + 1 : Nat) ≤ header
      · have hleft : (header - count).toNat = (header - (count + 1 : Nat)).toNat + 1 := by omega
        rw [if_pos hskip, hleft, List.drop_succ_cons]
      · have hover : (header - count).toNat = 0 := by omega
        have hover' : (header - (count + 1 : Nat)).toNat = 0 := by omega
        rw [if_neg hskip, hover, hover']
        simp

/-- **Reading, seen as a whole.** -/
theorem read_eq (text : Bytes) (header : Int) :
    read text header =
      if (rawLines text).all fits then .ok (((rawLines text).drop header.toNat).map trimLine)
      else .error .lineTooLong := by
  rw [read, readFrom_eq, List.reverse_nil, List.nil_append, Int.natCast_zero, Int.sub_zero]

theorem read_eq_ok_iff {text : Bytes} {header : Int} {lines : List Bytes} :
    read text header = .ok lines ↔
      ¬ HasLongLine text ∧ ((rawLines text).drop header.toNat).map trimLine = lines := by
  rw [read_eq, ← all_fits_rawLines_iff]
  cases (rawLines text).all fits with
  | false => exact iff_of_false nofun fun h => Bool.false_ne_true h.1
  | true => simp

/-- Only a line that is too long is in the way. -/
theorem read_eq_error_iff {text : Bytes} {header : Int} {e : ReadError} :
    read text header = .error e ↔ HasLongLine text := by
  cases e
  rw [read_eq]
  cases hfits : (rawLines text).all fits with
  | false =>
    have hlong : HasLongLine text := Classical.byContradiction fun hno =>
      Bool.false_ne_true (hfits.symm.trans (all_fits_rawLines_iff.mpr hno))
    exact iff_of_true rfl hlong
  | true => exact iff_of_false nofun (all_fits_rawLines_iff.mp hfits)

/-! ### Line endings -/

/-- One carriage return goes with the blanks, whether it is looked at apart or not. -/
theorem trimLine_eq (line : Bytes) : trimLine line = Bytes.dropTrailing isLineEnd line := by
  rw [trimLine]
  by_cases h : line.getLast? = some Byte.cr
  · obtain ⟨l, rfl⟩ := List.getLast?_eq_some_iff.mp h
    rw [Bytes.stripEnding_concat]
    simp [Bytes.dropTrailing, isLineEnd]
  · rw [Bytes.stripEnding_of_getLast?_ne h]

theorem trimLine_append_cr (line : Bytes) : trimLine (line ++ [Byte.cr]) = trimLine line := by
  rw [trimLine, Bytes.stripEnding_concat, trimLine_eq]

/-- The text with a carriage return in front of every line feed. -/
def withCrLf (text : Bytes) : Bytes := Bytes.replaceAll [Byte.lf] [Byte.cr, Byte.lf] text

theorem withCrLf_of_lf_not_mem (h : Byte.lf ∉ text) : withCrLf text = text :=
  Bytes.replaceAll_eq_self List.mem_cons_self h

theorem withCrLf_append_cons (h : Byte.lf ∉ line) (text : Bytes) :
    withCrLf (line ++ Byte.lf :: text) = (line ++ [Byte.cr]) ++ Byte.lf :: withCrLf text := by
  have hline : ∀ u, u <:+ line → u ≠ [] → ¬ [Byte.lf] <+: u ++ Byte.lf :: text := by
    intro u hu hne hpre
    obtain ⟨b, u, rfl⟩ := List.exists_cons_of_ne_nil hne
    have hb : Byte.lf = b := by simpa using hpre
    exact h (hu.subset (hb ▸ List.mem_cons_self))
  have hlf : Byte.lf :: text = [Byte.lf] ++ text := rfl
  rw [withCrLf, Bytes.replaceAll_append hline, hlf,
    Bytes.replaceAll_old_append (List.cons_ne_nil _ _), withCrLf]
  simp

theorem lf_not_mem_append_cr (h : Byte.lf ∉ line) : Byte.lf ∉ line ++ [Byte.cr] := by
  simpa using ⟨h, by decide⟩

/-- The first line of a text, and its line in the text with carriage returns. -/
theorem rawLines_withCrLf_append_cons (h : Byte.lf ∉ line) (text : Bytes) :
    rawLines (withCrLf (line ++ Byte.lf :: text)) =
      (line ++ [Byte.cr]) :: rawLines (withCrLf text) := by
  rw [withCrLf_append_cons h, rawLines_append_cons (lf_not_mem_append_cr h)]

/-- **The carriage returns do not show in the lines.** -/
theorem map_trimLine_rawLines_withCrLf (text : Bytes) :
    (rawLines (withCrLf text)).map trimLine = (rawLines text).map trimLine := by
  induction text using Bytes.line_induction Byte.lf with
  | last l hl => rw [withCrLf_of_lf_not_mem hl]
  | line l t hl ih =>
    rw [rawLines_withCrLf_append_cons hl, rawLines_append_cons hl, List.map_cons, List.map_cons,
      trimLine_append_cr, ih]

/-- Lines that fit with their carriage returns fit without them. -/
theorem all_fits_of_withCrLf (h : (rawLines (withCrLf text)).all fits = true) :
    (rawLines text).all fits = true := by
  induction text using Bytes.line_induction Byte.lf with
  | last l hl => rwa [withCrLf_of_lf_not_mem hl] at h
  | line l t hl ih =>
    rw [rawLines_withCrLf_append_cons hl, List.all_cons, Bool.and_eq_true, fits_eq_true_iff,
      List.length_append] at h
    rw [rawLines_append_cons hl, List.all_cons, Bool.and_eq_true, fits_eq_true_iff]
    exact ⟨Nat.le_of_add_right_le h.1, ih h.2⟩

/-- The other way round it may fail: a full line has no room for a carriage return. -/
theorem hasLongLine_withCrLf (h : Byte.lf ∉ line) (hfull : line.length = lineLimit)
    (text : Bytes) : HasLongLine (withCrLf (line ++ Byte.lf :: text)) := by
  have hcr := lf_not_mem_append_cr h
  refine ⟨line ++ [Byte.cr], ?_, hcr, ?_⟩
  · rw [withCrLf_append_cons h]
    exact (infix_append_lf hcr).mpr (Or.inl List.infix_rfl)
  · rw [List.length_append, hfull]
    exact Nat.lt_succ_self _

/-! ### Reading -/

/-- Neither a line feed nor a blank or carriage return at the end is left of a line. -/
structure IsTrimmed (line : Bytes) : Prop where
  lf_not_mem : Byte.lf ∉ line
  getLast?_ne : ∀ b ∈ line.getLast?, b ≠ Byte.space ∧ b ≠ Byte.tab ∧ b ≠ Byte.cr

theorem isTrimmed_trimLine (h : Byte.lf ∉ line) : IsTrimmed (trimLine line) := by
  rw [trimLine_eq]
  refine ⟨fun hmem => h (Bytes.mem_of_mem_dropTrailing hmem), fun b hb => ?_⟩
  have hend := Bytes.getLast?_dropTrailing b hb
  simpa [isLineEnd, and_assoc] using hend

/-- **Reading a source.** Whatever the text and the header:

* the text is refused exactly if it has a line that is too long, be it in the header or not, and so
  the header does not matter for that;
* otherwise the lines are those that are read without a header, without the first ones, as many as
  the header has;
* every line is trimmed;
* a text with carriage returns in front of its line feeds, if it can be read, gives the lines of the
  text without them. -/
theorem read_drops_header (text : Bytes) (header : Int) :
    (read text header = .error .lineTooLong ↔ HasLongLine text) ∧
    ((∃ e, read text header = .error e) ↔ ∃ e, read text 0 = .error e) ∧
    (∀ lines, read text 0 = .ok lines →
      read text header = .ok (lines.drop (max header 0).toNat)) ∧
    (∀ lines, read text header = .ok lines → ∀ line ∈ lines, IsTrimmed line) ∧
    ∀ lines, read (withCrLf text) header = .ok lines → read text header = .ok lines := by
  refine ⟨read_eq_error_iff, ?_, ?_, ?_, ?_⟩
  · simp only [read_eq_error_iff]
  · intro lines h
    obtain ⟨hfits, rfl⟩ := read_eq_ok_iff.mp h
    have hdrop : (max header 0).toNat = header.toNat := by omega
    exact read_eq_ok_iff.mpr ⟨hfits, by rw [hdrop, List.map_drop, Int.toNat_zero, List.drop_zero]⟩
  · intro lines h line hline
    obtain ⟨-, rfl⟩ := read_eq_ok_iff.mp h
    obtain ⟨raw, hraw, rfl⟩ := List.mem_map.mp hline
    exact isTrimmed_trimLine (lf_not_mem_of_mem_rawLines (List.mem_of_mem_drop hraw))
  · intro lines h
    obtain ⟨hfits, rfl⟩ := read_eq_ok_iff.mp h
    rw [← all_fits_rawLines_iff] at hfits
    refine read_eq_ok_iff.mpr ⟨all_fits_rawLines_iff.mp (all_fits_of_withCrLf hfits), ?_⟩
    rw [List.map_drop, List.map_drop, map_trimLine_rawLines_withCrLf]

/-- A banner, an empty line, and an end without a line feed, with either line ending; and a line
that is too long for any header. -/
theorem read_drops_header_banner :
    read (withCrLf (utf8 "// banner\n\nint a; \t\nint b;")) 1 =
      .ok [[], utf8 "int a;", utf8 "int b;"] ∧
    read (utf8 "// banner\n\nint a; \t\nint b;") 1 = .ok [[], utf8 "int a;", utf8 "int b;"] ∧
    read (utf8 "// banner\n\nint a; \t\nint b;") 7 = .ok [] ∧
    (∀ line ∈ [[], utf8 "int a;", utf8 "int b;"], IsTrimmed line) ∧
    ∀ header, read (List.replicate (lineLimit + 1) Byte.dot) header = .error .lineTooLong := by
  have hcrlf : read (withCrLf (utf8 "// banner\n\nint a; \t\nint b;")) 1 =
      .ok [[], utf8 "int a;", utf8 "int b;"] := rfl
  have hall : read (utf8 "// banner\n\nint a; \t\nint b;") 0 =
      .ok [utf8 "// banner", [], utf8 "int a;", utf8 "int b;"] := rfl
  obtain ⟨-, -, -, htrimmed, hlf⟩ := read_drops_header (utf8 "// banner\n\nint a; \t\nint b;") 1
  obtain ⟨-, -, hbehind, -, -⟩ := read_drops_header (utf8 "// banner\n\nint a; \t\nint b;") 7
  refine ⟨hcrlf, hlf _ hcrlf, hbehind _ hall, htrimmed _ (hlf _ hcrlf), fun header => ?_⟩
  refine (read_drops_header _ header).1.mpr ⟨_, List.infix_rfl, fun hmem => ?_, ?_⟩
  · exact absurd (List.eq_of_mem_replicate hmem) (by decide)
  · rw [List.length_replicate]
    exact Nat.lt_succ_self _

end KernelPack.Source
