import KernelPack.Proofs.Lexis.Glyphs
import KernelPack.Proofs.Source.Gaps
import KernelPack.Proofs.Text.Encoding

/-!
# Normalizing and compaction, seen by characters

Both work on bytes, and both respect characters. Normalized text in UTF-8 is text in UTF-8
(`isUtf8_normalize`), and compacting it drops the spaces beside punctuation: the text and the
compacted text are the two readings of one list of glyphs (`compact_ofChars`).
-/

namespace KernelPack

open Lexis.Spaced (Glyph looseText tightText Snug)

/-! ### Normalized text in UTF-8 -/

namespace Bytes

theorem ofChars_append (cs ds : List Char) : ofChars (cs ++ ds) = ofChars cs ++ ofChars ds :=
  List.flatMap_append

theorem ofChars_cons (c : Char) (cs : List Char) :
    ofChars (c :: cs) = String.utf8EncodeChar c ++ ofChars cs :=
  List.flatMap_cons

/-- Lines in UTF-8 are joined to a text in UTF-8. -/
theorem isUtf8_joinWith {lines : List Bytes} (h : ∀ l ∈ lines, l.IsUtf8) :
    (joinWith [Byte.space] lines).IsUtf8 := by
  induction lines with
  | nil => exact ⟨[], rfl⟩
  | cons l ls ih =>
    obtain ⟨⟨cs, rfl⟩, hls⟩ := List.forall_mem_cons.mp h
    cases ls with
    | nil => exact ⟨cs, by simp [joinWith]⟩
    | cons m ls =>
      obtain ⟨ds, hds⟩ := ih hls
      refine ⟨cs ++ ' ' :: ds, ?_⟩
      rw [ofChars_append, ofChars_cons, ← hds]
      simp only [joinWith, List.intersperse_cons_cons, List.flatten_cons]
      rfl

/-- Trimming cuts between characters. -/
theorem IsUtf8.trim {b : Bytes} (h : b.IsUtf8) : (trim b).IsUtf8 := by
  obtain ⟨cs, rfl⟩ := h
  have hscalar : ∀ rs : List Rune, (∀ r ∈ rs, r ∈ Rune.decode (ofChars cs)) →
      IsUtf8 (rs.flatMap Rune.encode) := by
    intro rs hrs
    induction rs with
    | nil => exact ⟨[], rfl⟩
    | cons r rs ih =>
      obtain ⟨hr, hrest⟩ := List.forall_mem_cons.mp hrs
      rw [decode_ofChars] at hr
      obtain ⟨c, -, rfl⟩ := List.mem_map.mp hr
      obtain ⟨ds, hds⟩ := ih hrest
      exact ⟨c :: ds, by rw [List.flatMap_cons, hds, ofChars_cons]; rfl⟩
  exact hscalar _ fun r hr => mem_decode_of_mem_trimmed (List.mem_reverse.mp hr)

end Bytes

namespace Source

open Bytes (ofChars ofChars_cons)

theorem isAscii_space : Rune.IsAscii ' ' Byte.space := ⟨by decide, by decide⟩

theorem isAscii_tab : Rune.IsAscii '\t' Byte.tab := ⟨by decide, by decide⟩

/-- The bytes of a character are blank if it is a space or a tab, and none of them is otherwise. -/
theorem isBlank_utf8EncodeChar {c : Char} {x : UInt8} (hx : x ∈ String.utf8EncodeChar c)
    (hblank : Byte.isBlank x = true) : c = ' ' ∨ c = '\t' := by
  rw [Byte.isBlank, Bool.or_eq_true, beq_iff_eq, beq_iff_eq] at hblank
  obtain rfl | rfl := hblank
  · exact Or.inl (isAscii_space.mem_utf8EncodeChar_iff.mp hx)
  · exact Or.inr (isAscii_tab.mem_utf8EncodeChar_iff.mp hx)

theorem collapse_append_of_not_blank {s : Bytes} (hs : ∀ x ∈ s, Byte.isBlank x = false)
    (t : Bytes) : collapse (s ++ t) = s ++ collapse t := by
  induction s with
  | nil => rfl
  | cons b s ih =>
    obtain ⟨hb, hs⟩ := List.forall_mem_cons.mp hs
    rw [List.cons_append, collapse_cons_of_not_blank hb, ih hs, List.cons_append]

/-- Collapsing replaces characters by characters. -/
theorem isUtf8_collapse {b : Bytes} (h : b.IsUtf8) : (collapse b).IsUtf8 := by
  obtain ⟨cs, rfl⟩ := h
  induction cs with
  | nil => exact ⟨[], rfl⟩
  | cons c cs ih =>
    obtain ⟨ds, hds⟩ := ih
    rw [ofChars_cons]
    have hblank : ∀ x, Byte.isBlank x = true → (collapse ([x] ++ ofChars cs)).IsUtf8 := by
      intro x hx
      rw [List.singleton_append, collapse_cons, consCollapsed, if_pos hx, hds]
      split
      · exact ⟨ds, rfl⟩
      · exact ⟨' ' :: ds, rfl⟩
    by_cases hc : c = ' ' ∨ c = '\t'
    · obtain rfl | rfl := hc
      · exact hblank Byte.space rfl
      · exact hblank Byte.tab rfl
    · refine ⟨c :: ds, ?_⟩
      rw [collapse_append_of_not_blank, hds, ofChars_cons]
      exact fun x hx => Bool.eq_false_iff.mpr fun hx' => hc (isBlank_utf8EncodeChar hx hx')

/-- **Normalized lines in UTF-8 are text in UTF-8.** -/
theorem isUtf8_normalize {lines : List Bytes} (h : ∀ l ∈ lines, l.IsUtf8) :
    (normalize lines).IsUtf8 :=
  (isUtf8_collapse (Bytes.isUtf8_joinWith h)).trim

/-! ### The glyphs of a text -/

/-- The characters of a text with the spaces beside punctuation marked as dropped. -/
def toGlyphs (before : Option Char) : List Char → List Glyph
  | [] => []
  | c :: t =>
    if c = ' ' ∧ (before.any Lexis.Spaced.isPunctuation = true ∨
        t.head?.any Lexis.Spaced.isPunctuation = true) then .gone :: toGlyphs before t
    else .kept c :: toGlyphs (some c) t

theorem looseText_toGlyphs (before : Option Char) (cs : List Char) :
    looseText (toGlyphs before cs) = cs := by
  induction cs generalizing before with
  | nil => rfl
  | cons c t ih =>
    rw [toGlyphs]
    split
    · rename_i hc
      rw [Lexis.Spaced.looseText_gone, ih, hc.1]
    · rw [Lexis.Spaced.looseText_kept, ih]

/-- A character that is no space is kept, whatever is before it. -/
theorem toGlyphs_cons_of_ne {c : Char} (hc : c ≠ ' ') (before : Option Char) (t : List Char) :
    toGlyphs before (c :: t) = .kept c :: toGlyphs (some c) t := by
  rw [toGlyphs, if_neg fun h => hc h.1]

/-- No two spaces stand beside each other, and none at the end. -/
def WellSpaced : List Char → Prop
  | [] => True
  | c :: t => (c = ' ' → t.head? ≠ some ' ' ∧ t ≠ []) ∧ WellSpaced t

/-- **The dropped spaces are beside punctuation**, with a line feed added at the end. -/
theorem snug_toGlyphs {cs : List Char} (hcs : WellSpaced cs) (hlf : '\n' ∉ cs)
    (before : Option Char) : Snug before (toGlyphs before cs ++ [.kept '\n']) := by
  induction cs generalizing before with
  | nil => exact ⟨fun _ => rfl, trivial⟩
  | cons c t ih =>
    obtain ⟨hspace, ht⟩ := hcs
    obtain ⟨hc, hlf⟩ := not_or.mp (mt List.mem_cons.mpr hlf)
    rw [toGlyphs]
    split
    · rename_i hgone
      obtain ⟨hsingle, hne⟩ := hspace hgone.1
      obtain ⟨d, u, rfl⟩ := List.exists_cons_of_ne_nil hne
      have hd : d ≠ ' ' := fun h => hsingle (by rw [h]; rfl)
      have hd' : d ≠ '\n' := fun h => hlf (by rw [h]; exact List.mem_cons_self)
      have hrest := ih ht hlf before
      rw [toGlyphs_cons_of_ne hd] at hrest ⊢
      refine ⟨hgone.2.imp (fun hbefore => ?_) fun hmark => hmark, nofun, ?_, hrest⟩
      · cases before with
        | none => rfl
        | some x => exact hbefore
      · exact fun h => hd' (Glyph.kept.inj (Option.some.inj h))
    · exact ⟨fun h => absurd h.symm hc, ih ht hlf (some c)⟩

/-! ### Compaction -/

/-- The text that follows `n` spaces after `before`, with the gaps beside punctuation closed. -/
def closedFrom (before : Option UInt8) (n : Nat) (t : Bytes) : Bytes :=
  ofGaps ((gapsFrom before n t).map (Gap.resize Gap.closed))

theorem closedFrom_cons_of_ne {b : UInt8} (hb : b ≠ Byte.space) (before : Option UInt8) (n : Nat)
    (t : Bytes) : closedFrom before n (b :: t) =
      List.replicate (Gap.closed ⟨before, n, some b⟩) Byte.space ++
        b :: closedFrom (some b) 0 t := by
  rw [closedFrom, gapsFrom_cons_of_ne hb, List.map_cons, ofGaps_cons, closedFrom]
  simp [Gap.text, Gap.resize]

/-- An empty gap is closed already. -/
theorem Gap.closed_zero (before after : Option UInt8) : Gap.closed ⟨before, 0, after⟩ = 0 := by
  simp [Gap.closed]

/-- Bytes other than spaces stay. -/
theorem closedFrom_append {s : Bytes} (hs : Byte.space ∉ s) (before : Option UInt8) (t : Bytes) :
    closedFrom before 0 (s ++ t) = s ++ closedFrom (s.getLast?.or before) 0 t := by
  induction s generalizing before with
  | nil => rfl
  | cons b s ih =>
    obtain ⟨hb, hs⟩ := not_or.mp (mt List.mem_cons.mpr hs)
    rw [List.cons_append, closedFrom_cons_of_ne (Ne.symm hb), Gap.closed_zero, ih hs]
    cases s with
    | nil => rfl
    | cons c s => simp [List.getLast?_cons]

/-- The bytes of a character are punctuation exactly if the character is. -/
theorem isPunctuation_utf8EncodeChar {c : Char} {x : UInt8} (hx : x ∈ String.utf8EncodeChar c) :
    isPunctuation x = Lexis.Spaced.isPunctuation c := by
  have hmarks : punctuation.map (fun y => Char.ofNat y.toNat) =
      "\x7b\x7d[](),;+-*/%=><".toList := by decide
  have hascii : (punctuation.all fun y =>
      y.toNat < 128 && (Char.ofNat y.toNat).toNat == y.toNat) = true := by decide
  have hmark : ∀ y ∈ punctuation, Rune.IsAscii (Char.ofNat y.toNat) y := by
    intro y hy
    obtain ⟨hlt, hvalue⟩ := Bool.and_eq_true_iff.mp (List.all_eq_true.mp hascii y hy)
    exact ⟨of_decide_eq_true hlt, beq_iff_eq.mp hvalue⟩
  rw [Bool.eq_iff_iff]
  constructor
  · intro h
    have hx' := List.contains_iff_mem.mp h
    obtain rfl := (hmark x hx').mem_utf8EncodeChar_iff.mp hx
    refine List.contains_iff_mem.mpr ?_
    rw [← hmarks]
    exact List.mem_map_of_mem hx'
  · intro h
    have hc := List.contains_iff_mem.mp h
    rw [← hmarks] at hc
    obtain ⟨y, hy, rfl⟩ := List.mem_map.mp hc
    rw [(hmark y hy).utf8EncodeChar_eq] at hx
    rw [List.mem_singleton.mp hx]
    exact List.contains_iff_mem.mpr hy

/-- The byte before and the character before are both punctuation or neither is. -/
def SameBefore (before : Option UInt8) (before' : Option Char) : Prop :=
  before.any isPunctuation = before'.any Lexis.Spaced.isPunctuation

/-- A single space is closed beside punctuation. -/
theorem Gap.closed_one (before after : Option UInt8) :
    Gap.closed ⟨before, 1, after⟩ =
      if before.any isPunctuation = true ∨ after.any isPunctuation = true then 0 else 1 := by
  rw [Gap.closed, Gap.sides]
  cases before.any isPunctuation <;> cases after.any isPunctuation <;> rfl

/-- A single space is dropped beside punctuation, and stays otherwise. -/
theorem closedFrom_space_cons {b : UInt8} (hb : b ≠ Byte.space) (before : Option UInt8)
    (t : Bytes) : closedFrom before 0 (Byte.space :: b :: t) =
      (if before.any isPunctuation = true ∨ isPunctuation b = true then [] else [Byte.space]) ++
        closedFrom before 0 (b :: t) := by
  have hgap : closedFrom before 0 (Byte.space :: b :: t) = closedFrom before 1 (b :: t) := by
    rw [closedFrom, gapsFrom_cons_space, closedFrom]
  rw [hgap, closedFrom_cons_of_ne hb, closedFrom_cons_of_ne hb, Gap.closed_zero, Gap.closed_one,
    Option.any_some]
  split <;> rfl

/-- **Closing the gaps beside punctuation is dropping the spaces there.** -/
theorem closedFrom_ofChars {cs : List Char} (hcs : WellSpaced cs) {before : Option UInt8}
    {before' : Option Char} (hbefore : SameBefore before before') :
    closedFrom before 0 (ofChars cs) = ofChars (tightText (toGlyphs before' cs)) := by
  induction cs generalizing before before' with
  | nil => exact (List.append_nil _).trans (by rw [Gap.resize, Gap.closed_zero]; rfl)
  | cons c t ih =>
    obtain ⟨hspace, ht⟩ := hcs
    by_cases hc : c = ' '
    · -- whether the space goes is seen from the byte before it and the first of the next character
      obtain ⟨hsingle, hne⟩ := hspace hc
      obtain ⟨d, u, rfl⟩ := List.exists_cons_of_ne_nil hne
      have hd : d ≠ ' ' := fun h => hsingle (by rw [h]; rfl)
      obtain ⟨x, w, hx⟩ := List.exists_cons_of_ne_nil (String.utf8EncodeChar_ne_nil (c := d))
      have hmem : x ∈ String.utf8EncodeChar d := by
        rw [hx]
        exact List.mem_cons_self
      have hx' : x ≠ Byte.space := by
        rintro rfl
        exact hd (isAscii_space.mem_utf8EncodeChar_iff.mp hmem)
      have htext : ofChars (d :: u) = x :: (w ++ ofChars u) := by
        rw [ofChars_cons, hx, List.cons_append]
      have hgap : closedFrom before 0 (ofChars (' ' :: d :: u)) = _ :=
        (congrArg (fun s => closedFrom before 0 (Byte.space :: s)) htext).trans
          (closedFrom_space_cons hx' before (w ++ ofChars u))
      have hglyphs : toGlyphs before' (' ' :: d :: u) = if ' ' = ' ' ∧ _ then _ else _ := rfl
      rw [hc, hgap, ← htext, ih ht hbefore, hbefore, isPunctuation_utf8EncodeChar hmem, hglyphs]
      by_cases hmark : before'.any Lexis.Spaced.isPunctuation = true ∨
          Lexis.Spaced.isPunctuation d = true
      · rw [if_pos hmark, if_pos ⟨rfl, hmark⟩]
        rfl
      · rw [if_neg hmark, if_neg fun h => hmark h.2, toGlyphs_cons_of_ne hd, toGlyphs_cons_of_ne hd]
        rfl
    · have hbytes : Byte.space ∉ String.utf8EncodeChar c :=
        fun h => hc (isAscii_space.mem_utf8EncodeChar_iff.mp h)
      have hlast : SameBefore ((String.utf8EncodeChar c).getLast?.or before) (some c) := by
        have hne := String.utf8EncodeChar_ne_nil (c := c)
        rw [List.getLast?_eq_some_getLast hne, Option.some_or]
        exact isPunctuation_utf8EncodeChar (List.getLast_mem hne)
      rw [ofChars_cons, closedFrom_append hbytes, ih ht hlast, toGlyphs_cons_of_ne hc,
        Lexis.Spaced.tightText_kept, ofChars_cons]

/-- **A text and the compacted text are two readings of the same glyphs.** -/
theorem compact_ofChars {cs : List Char} (hcs : WellSpaced cs) :
    (compact (ofChars cs)).1 = ofChars (tightText (toGlyphs none cs)) :=
  (compact_eq_ofGaps _).trans (closedFrom_ofChars hcs rfl)

/-- Normalized text has single spaces between other characters. -/
theorem wellSpaced_of_single {cs : List Char} (hsingle : Single (ofChars cs))
    (hlast : cs.getLast? ≠ some ' ') : WellSpaced cs := by
  induction cs with
  | nil => trivial
  | cons c t ih =>
    refine ⟨fun hc => ⟨fun hhead => ?_, fun ht => ?_⟩, ih ?_ ?_⟩
    · obtain ⟨u, rfl⟩ : ∃ u, t = ' ' :: u := List.head?_eq_some_iff.mp hhead
      exact hsingle ⟨[], ofChars u, by rw [hc]; rfl⟩
    · exact hlast (by rw [hc, ht]; rfl)
    · exact fun h => hsingle (h.trans (List.suffix_append _ _).isInfix)
    · cases t with
      | nil => nofun
      | cons d u => rwa [List.getLast?_cons_cons] at hlast

end Source

end KernelPack
