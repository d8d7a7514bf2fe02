import KernelPack.Proofs.Lexis.Coverage

/-!
# Texts with dropped spaces

A text and the text without some of its spaces are two readings of one list of **glyphs**: the
characters that stay, and the spaces that go (`looseText`, `tightText`). A space goes only beside
punctuation (`Snug`).

A **spot** is a place in both readings at once. The glyphs that follow are the same; what precedes
may differ, since a space that is gone stands before the one place and not before the other. At a
**sound** spot this is all the difference, and nothing follows that a dropped space would make a
part of something else (`calm`): two characters that come together as a comment mark, a power of ten
with spaces around its sign, or an asterisk at the beginning of a statement, which would lose the
space that makes it look like a type.
-/

namespace KernelPack.Lexis.Spaced

open KernelGrammar

/-! ### Glyphs -/

/-- The characters beside which a space may go. -/
def isPunctuation : Char → Bool := oneOf "\x7b\x7d[](),;+-*/%=><"

/-- A character of a text from which spaces are dropped. -/
inductive Glyph where
  | kept (c : Char)
  /-- A space that is dropped. -/
  | gone
  deriving DecidableEq

namespace Glyph

/-- The glyph in the text with all spaces. -/
def loose : Glyph → Char
  | kept c => c
  | gone => ' '

/-- The glyph in the text without the dropped spaces. -/
def tight : Glyph → List Char
  | kept c => [c]
  | gone => []

/-- Is the glyph punctuation? -/
def isMark : Glyph → Bool
  | kept c => isPunctuation c
  | gone => false

end Glyph

/-- The text with all spaces. -/
def looseText (gs : List Glyph) : List Char := gs.map Glyph.loose

/-- The text without the dropped spaces. -/
def tightText (gs : List Glyph) : List Char := gs.flatMap Glyph.tight

section Texts

variable (c : Char) (gs hs : List Glyph)

@[simp] theorem looseText_nil : looseText [] = [] := rfl

@[simp] theorem tightText_nil : tightText [] = [] := rfl

@[simp] theorem looseText_kept : looseText (.kept c :: gs) = c :: looseText gs := rfl

@[simp] theorem tightText_kept : tightText (.kept c :: gs) = c :: tightText gs := rfl

@[simp] theorem looseText_gone : looseText (.gone :: gs) = ' ' :: looseText gs := rfl

@[simp] theorem tightText_gone : tightText (.gone :: gs) = tightText gs := rfl

@[simp] theorem looseText_append : looseText (gs ++ hs) = looseText gs ++ looseText hs :=
  List.map_append

@[simp] theorem tightText_append : tightText (gs ++ hs) = tightText gs ++ tightText hs :=
  List.flatMap_append

@[simp] theorem length_looseText : (looseText gs).length = gs.length := List.length_map _

end Texts

/-- A character stays in the tight text exactly if it is a glyph that is kept. -/
theorem mem_tightText_iff {c : Char} {gs : List Glyph} : c ∈ tightText gs ↔ .kept c ∈ gs := by
  induction gs with
  | nil => simp
  | cons g gs ih => cases g <;> simp [ih]

/-- A character other than the space is in both texts or in neither. -/
theorem mem_looseText_iff {c : Char} (hc : c ≠ ' ') {gs : List Glyph} :
    c ∈ looseText gs ↔ .kept c ∈ gs := by
  induction gs with
  | nil => simp
  | cons g gs ih => cases g <;> simp [ih, hc]

/-- Without dropped spaces the two texts are the same. -/
theorem tightText_eq_looseText {gs : List Glyph} (h : .gone ∉ gs) :
    tightText gs = looseText gs := by
  induction gs with
  | nil => rfl
  | cons g gs ih =>
    obtain ⟨hg, hgs⟩ := not_or.mp (mt List.mem_cons.mpr h)
    cases g with
    | kept c => rw [tightText_kept, looseText_kept, ih hgs]
    | gone => exact absurd rfl hg

/-- Dropped spaces stand alone, beside punctuation or, unless something comes `before`, at the
beginning. None stands at the end of a line, and a line feed ends the text. -/
def Snug (before : Option Char) : List Glyph → Prop
  | [] => True
  | .gone :: gs =>
    (before.all isPunctuation = true ∨ gs.head?.all Glyph.isMark = true) ∧
      gs.head? ≠ some .gone ∧ gs.head? ≠ some (.kept '\n') ∧ Snug before gs
  | .kept c :: gs => (c = '\n' → gs = []) ∧ Snug (some c) gs

/-- The part of a snug text up to some place is snug. -/
theorem Snug.of_append {before : Option Char} {gs hs : List Glyph} (h : Snug before (gs ++ hs)) :
    Snug before gs := by
  have hhead : ∀ {us : List Glyph} {P : Option Glyph → Prop}, P none → P (us ++ hs).head? →
      P us.head? := by
    intro us P hnone hall
    cases us with
    | nil => exact hnone
    | cons => exact hall
  induction gs generalizing before with
  | nil => trivial
  | cons g gs ih =>
    cases g with
    | kept c =>
      refine ⟨fun hc => ?_, ih h.2⟩
      exact (List.append_eq_nil_iff.mp (h.1 hc)).1
    | gone =>
      obtain ⟨hbeside, hgone, hend, hrest⟩ := h
      refine ⟨hbeside.imp_right fun hmark => ?_, ?_, ?_, ih hrest⟩
      · exact hhead (P := fun o => o.all Glyph.isMark = true) rfl hmark
      · exact hhead (P := fun o => o ≠ some .gone) nofun hgone
      · exact hhead (P := fun o => o ≠ some (.kept '\n')) nofun hend

/-- At the beginning of a text a space may go whatever follows. -/
theorem Snug.of_none {before : Option Char} {gs : List Glyph} (h : Snug before gs) :
    Snug none gs := by
  induction gs with
  | nil => trivial
  | cons g gs ih =>
    cases g with
    | kept c => exact h
    | gone => exact ⟨Or.inl rfl, h.2.1, h.2.2.1, ih h.2.2.2⟩

/-! ### Calm texts -/

/-- The text begins with a character of each class in turn. -/
def fits : List (Char → Bool) → List Char → Bool
  | [], _ => true
  | _ :: _, [] => false
  | p :: ps, c :: t => p c && fits ps t

/-- What ends a number before its power of ten. -/
def endsNumber (c : Char) : Bool := Text.isDigit c || c == '.'

/-- What a text must not hold: the beginning of a directive, the two characters of a comment mark
with a space between them, and a power of ten with spaces around its sign. -/
def hazards : List (List (Char → Bool)) :=
  let space : Char → Bool := (· == ' ')
  let sign := oneOf "+-"
  [ [(· == '#')],
    [(· == '/'), space, (· == '/')],
    [(· == '/'), space, (· == '*')],
    [(· == '*'), space, (· == '/')],
    [endsNumber, oneOf "eE", space, sign, Text.isDigit],
    [endsNumber, oneOf "eE", space, sign, space, Text.isDigit],
    [endsNumber, oneOf "eE", sign, space, Text.isDigit] ]

/-- How far a statement has come. -/
inductive Stage where
  /-- Nothing of it is there yet. -/
  | fresh
  /-- An asterisk is the last of it, so that a slash may end a comment. -/
  | starred
  | begun
  deriving DecidableEq

/-- The stage after one more character. A semicolon, a brace and the end of a comment leave nothing
of a statement. -/
def Stage.next (stage : Stage) (c : Char) : Stage :=
  if Text.isBlank c then stage
  else if oneOf ";\x7d" c || (c == '/' && stage == .starred) then .fresh
  else if c == '*' then .starred
  else .begun

/-- Nothing hazardous stands in the text, and no asterisk with a space after it begins a
statement. -/
def calm (stage : Stage) : List Char → Bool
  | [] => true
  | c :: t =>
    !hazards.any (fits · (c :: t)) && !(c == '*' && stage == .fresh && t.head? == some ' ')
      && calm (stage.next c) t

theorem calm_cons_iff {stage : Stage} {c : Char} {t : List Char} :
    calm stage (c :: t) = true ↔ (∀ h ∈ hazards, fits h (c :: t) = false) ∧
      (c = '*' → stage = .fresh → t.head? ≠ some ' ') ∧ calm (stage.next c) t = true := by
  have hstar : (!(c == '*' && stage == .fresh && t.head? == some ' ')) = true ↔
      (c = '*' → stage = .fresh → t.head? ≠ some ' ') := by
    simp only [Bool.not_eq_true', Bool.and_eq_false_iff, beq_eq_false_iff_ne]
    constructor
    · rintro ((h | h) | h) hc hstage
      · exact absurd hc h
      · exact absurd hstage h
      · exact h
    · intro h
      by_cases hc : c = '*'
      · by_cases hstage : stage = .fresh
        · exact Or.inr (h hc hstage)
        · exact Or.inl (Or.inr hstage)
      · exact Or.inl (Or.inl hc)
  rw [calm, Bool.and_eq_true, Bool.and_eq_true, hstar, and_assoc]
  simp

theorem fits_append {ps : List (Char → Bool)} {s : List Char} (h : fits ps s = true)
    (t : List Char) : fits ps (s ++ t) = true := by
  induction ps generalizing s with
  | nil => rfl
  | cons p ps ih =>
    cases s with
    | nil => cases h
    | cons c s =>
      rw [fits, Bool.and_eq_true] at h
      rw [List.cons_append, fits, h.1, ih h.2]
      rfl

/-- The part of a calm text up to some place is calm. -/
theorem calm_of_append {stage : Stage} {s t : List Char} (h : calm stage (s ++ t) = true) :
    calm stage s = true := by
  induction s generalizing stage with
  | nil => rfl
  | cons c s ih =>
    obtain ⟨hsafe, hstar, hrest⟩ := calm_cons_iff.mp h
    refine calm_cons_iff.mpr ⟨fun ps hps => ?_, fun hc hstage hs => hstar hc hstage ?_, ih hrest⟩
    · have hfits := hsafe ps hps
      rw [Bool.eq_false_iff] at hfits ⊢
      exact fun hs => hfits (fits_append hs t)
    · show (s ++ t).head? = some ' '
      rw [List.head?_append, hs]
      rfl

/-- Nothing hazardous reaches to the end of the line. -/
theorem fits_append_lf {ps : List (Char → Bool)} (hps : ps.all (!· '\n') = true) (s : List Char) :
    fits ps (s ++ ['\n']) = fits ps s := by
  induction ps generalizing s with
  | nil => rfl
  | cons p ps ih =>
    simp only [List.all_cons, Bool.and_eq_true, Bool.not_eq_eq_eq_not, Bool.not_true] at hps
    cases s with
    | nil => simp [fits, hps.1]
    | cons c s => rw [List.cons_append, fits, fits, ih hps.2]

/-- **A line feed at the end does not disturb a calm text.** -/
theorem calm_append_lf (stage : Stage) (s : List Char) :
    calm stage (s ++ ['\n']) = calm stage s := by
  have hlf : ∀ ps ∈ hazards, ps.all (!· '\n') = true := by decide
  have hany : ∀ t, hazards.any (fits · (t ++ ['\n'])) = hazards.any (fits · t) := by
    intro t
    rw [Bool.eq_iff_iff, List.any_eq_true, List.any_eq_true]
    exact exists_congr fun ps => and_congr_right fun hps => by rw [fits_append_lf (hlf ps hps)]
  have hstar : ∀ t : List Char, ((t ++ ['\n']).head? == some ' ') = (t.head? == some ' ') := by
    rintro (_ | ⟨c, t⟩)
    · decide
    · rfl
  induction s generalizing stage with
  | nil =>
    have hnone := hany []
    rw [List.nil_append] at hnone ⊢
    simp only [calm, hnone]
    cases stage <;> decide
  | cons c s ih =>
    have hcons := hany (c :: s)
    rw [List.cons_append] at hcons ⊢
    rw [calm, calm, ih, hcons, hstar]

/-! ### Spots -/

/-- A place in both readings of a list of glyphs. -/
structure Spot where
  /-- The character before the place in the loose text. -/
  looseBefore : Option Char
  /-- The character before the place in the tight text. -/
  tightBefore : Option Char
  /-- How far the statement has come. -/
  stage : Stage
  /-- The glyphs that follow. -/
  glyphs : List Glyph

namespace Spot

/-- The place in the loose text. -/
def loose (σ : Spot) : Place := ⟨σ.looseBefore, looseText σ.glyphs⟩

/-- The place in the tight text. -/
def tight (σ : Spot) : Place := ⟨σ.tightBefore, tightText σ.glyphs⟩

/-- **The spot is sound**: what precedes differs at most by a dropped space, dropped spaces are
beside punctuation, and nothing follows that would become a part of something else. -/
structure Sound (σ : Spot) : Prop where
  before : σ.looseBefore = σ.tightBefore ∨ σ.looseBefore = some ' ' ∧
    (σ.tightBefore.all isPunctuation = true ∨ σ.glyphs.head?.all Glyph.isMark = true)
  snug : Snug σ.tightBefore σ.glyphs
  calm : Spaced.calm σ.stage (looseText σ.glyphs) = true

namespace Sound

variable {a b : Option Char} {g : Stage} {gs : List Glyph}

/-- The spot after a glyph that is kept. -/
theorem kept {c : Char} (h : Sound ⟨a, b, g, .kept c :: gs⟩) :
    Sound ⟨some c, some c, g.next c, gs⟩ :=
  ⟨Or.inl rfl, h.snug.2, (calm_cons_iff.mp h.calm).2.2⟩

/-- The spot after a dropped space. -/
theorem gone (h : Sound ⟨a, b, g, .gone :: gs⟩) : Sound ⟨some ' ', b, g, gs⟩ :=
  ⟨Or.inr ⟨rfl, h.snug.1⟩, h.snug.2.2.2, (calm_cons_iff.mp h.calm).2.2⟩

/-- **A part of the glyphs that follow is a sound text of its own.** -/
theorem alone {hs : List Glyph} (h : Sound ⟨a, b, g, gs ++ hs⟩) : Sound ⟨none, none, g, gs⟩ := by
  refine ⟨Or.inl rfl, h.snug.of_append.of_none, ?_⟩
  have hcalm := h.calm
  rw [looseText_append] at hcalm
  exact calm_of_append hcalm

/-- After a dropped space there is a glyph that is kept, or nothing. -/
theorem gone_cases (h : Sound ⟨a, b, g, .gone :: gs⟩) :
    gs = [] ∨ ∃ y hs, gs = .kept y :: hs ∧ y ≠ '\n' := by
  obtain ⟨-, hgone, hend, -⟩ := h.snug
  match gs with
  | [] => exact Or.inl rfl
  | .gone :: _ => exact absurd rfl hgone
  | .kept y :: hs => exact Or.inr ⟨y, hs, rfl, fun hy => hend (by rw [hy]; rfl)⟩

/-- Nothing hazardous follows. -/
theorem not_fits (h : Sound ⟨a, b, g, gs⟩) {ps : List (Char → Bool)} (hps : ps ∈ hazards) :
    fits ps (looseText gs) = false := by
  have hcalm := h.calm
  cases gs with
  | nil =>
    have hne : ∀ ps ∈ hazards, fits ps [] = false := by decide
    exact hne ps hps
  | cons g gs => exact (calm_cons_iff.mp hcalm).1 ps hps

end Sound

end Spot

end KernelPack.Lexis.Spaced
