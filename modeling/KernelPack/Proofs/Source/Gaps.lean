import KernelPack.Proofs.Source.Blanks
import KernelPack.Proofs.Text.Encoding

/-!
# Gaps

The spaces of a text lie in **gaps**: before the first byte that is no space, between any two such
neighbours, and after the last one. A gap may be empty. A text is put together from its gaps
(`ofGaps_gaps`), and its non-empty gaps are its maximal runs of spaces (`mem_gaps_iff`).

Closing up around a character takes a space from a gap for each side of the gap on which the
character stands, as long as there is one (`closeUp_eq`). So the gaps do not get into each other's
way, and compaction can be followed gap by gap:

* A gap with punctuation on some side is closed, and every other gap is left as it is
  (`compact_eq_ofGaps`).
* A gap with punctuation on one side takes as many passes as it has spaces, one with punctuation on
  both sides half as many, and one more pass finds nothing to do (`passes_eq`).
-/

namespace KernelPack.Source

/-- A stretch of spaces, maybe empty, between two bytes of a text that are none. -/
structure Gap where
  /-- The byte before the gap, unless the text begins with it. -/
  before : Option UInt8
  /-- The number of spaces. -/
  length : Nat
  /-- The byte after the gap, unless the text ends with it. -/
  after : Option UInt8
  deriving DecidableEq, Repr

/-- The gaps of a text that follows `n` spaces after the byte `before`. -/
def gapsFrom (before : Option UInt8) (n : Nat) : Bytes → List Gap
  | [] => [⟨before, n, none⟩]
  | b :: t =>
    if b = Byte.space then gapsFrom before (n + 1) t
    else ⟨before, n, some b⟩ :: gapsFrom (some b) 0 t

/-- The gaps of a text, in order. -/
def gaps (text : Bytes) : List Gap := gapsFrom none 0 text

namespace Gap

/-- The spaces of the gap and the byte after it. -/
def text (g : Gap) : Bytes := List.replicate g.length Byte.space ++ g.after.toList

/-- The gap with another number of spaces. -/
def resize (f : Gap → Nat) (g : Gap) : Gap := { g with length := f g }

/-- The number of sides on which a byte of the class stands. -/
def sides (p : UInt8 → Bool) (g : Gap) : Nat := (g.before.any p).toNat + (g.after.any p).toNat

@[simp] theorem sides_resize (p : UInt8 → Bool) (f : Gap → Nat) (g : Gap) :
    (g.resize f).sides p = g.sides p := rfl

@[simp] theorem length_resize (f : Gap → Nat) (g : Gap) : (g.resize f).length = f g := rfl

theorem resize_resize (f k : Gap → Nat) (g : Gap) :
    (g.resize f).resize k = g.resize fun g => k (g.resize f) := rfl

theorem sides_eq_zero {p : UInt8 → Bool} (hp : ∀ b, p b = false) (g : Gap) : g.sides p = 0 := by
  obtain ⟨before, n, after⟩ := g
  cases before <;> cases after <;> simp [sides, hp]

/-- Gaps that keep their length are not changed. -/
theorem map_resize_eq_self {f : Gap → Nat} {gs : List Gap} (h : ∀ g ∈ gs, f g = g.length) :
    gs.map (resize f) = gs := by
  refine (List.map_congr_left fun g hg => ?_).trans (List.map_id gs)
  rw [resize, h g hg, id]

theorem sides_le_two (p : UInt8 → Bool) (g : Gap) : g.sides p ≤ 2 := by
  have hbefore := Bool.toNat_le (g.before.any p)
  have hafter := Bool.toNat_le (g.after.any p)
  rw [sides]
  omega

end Gap

/-- The text with the given gaps. -/
def ofGaps (gs : List Gap) : Bytes := gs.flatMap Gap.text

@[simp] theorem ofGaps_nil : ofGaps [] = [] := rfl

@[simp] theorem ofGaps_cons (g : Gap) (gs : List Gap) : ofGaps (g :: gs) = g.text ++ ofGaps gs :=
  rfl

/-! ### A text and its gaps -/

theorem gapsFrom_cons_space (before : Option UInt8) (n : Nat) (t : Bytes) :
    gapsFrom before n (Byte.space :: t) = gapsFrom before (n + 1) t := by
  rw [gapsFrom, if_pos rfl]

theorem gapsFrom_cons_of_ne {b : UInt8} (hb : b ≠ Byte.space) (before : Option UInt8) (n : Nat)
    (t : Bytes) : gapsFrom before n (b :: t) = ⟨before, n, some b⟩ :: gapsFrom (some b) 0 t := by
  rw [gapsFrom, if_neg hb]

theorem gapsFrom_replicate_append (before : Option UInt8) (n m : Nat) (t : Bytes) :
    gapsFrom before n (List.replicate m Byte.space ++ t) = gapsFrom before (n + m) t := by
  induction m generalizing n with
  | zero => rfl
  | succ m ih =>
    rw [List.replicate_succ, List.cons_append, gapsFrom_cons_space, ih]
    congr 1
    omega

theorem ofGaps_gapsFrom (before : Option UInt8) (n : Nat) (t : Bytes) :
    ofGaps (gapsFrom before n t) = List.replicate n Byte.space ++ t := by
  induction t generalizing before n with
  | nil => simp [gapsFrom, Gap.text]
  | cons b t ih =>
    by_cases hb : b = Byte.space
    · rw [hb, gapsFrom_cons_space, ih, List.replicate_succ', List.append_assoc,
        List.singleton_append]
    · rw [gapsFrom_cons_of_ne hb, ofGaps_cons, ih]
      simp [Gap.text]

/-- **A text is put together from its gaps.** -/
theorem ofGaps_gaps (text : Bytes) : ofGaps (gaps text) = text :=
  ofGaps_gapsFrom none 0 text

/-- A text with resized gaps has those gaps. -/
theorem gapsFrom_ofGaps_resize (f : Gap → Nat) (before : Option UInt8) (n : Nat) (t : Bytes) :
    gapsFrom before 0 (ofGaps ((gapsFrom before n t).map (Gap.resize f))) =
      (gapsFrom before n t).map (Gap.resize f) := by
  induction t generalizing before n with
  | nil =>
    have hend := gapsFrom_replicate_append before 0 (f ⟨before, n, none⟩) []
    simpa [gapsFrom, Gap.text, Gap.resize] using hend
  | cons b t ih =>
    by_cases hb : b = Byte.space
    · rw [hb, gapsFrom_cons_space, ih]
    · rw [gapsFrom_cons_of_ne hb, List.map_cons, ofGaps_cons, Gap.text, List.append_assoc,
        gapsFrom_replicate_append, Nat.zero_add]
      exact (gapsFrom_cons_of_ne hb before _ _).trans (congrArg _ (ih (some b) 0))

theorem gaps_ofGaps_resize (f : Gap → Nat) (text : Bytes) :
    gaps (ofGaps ((gaps text).map (Gap.resize f))) = (gaps text).map (Gap.resize f) :=
  gapsFrom_ofGaps_resize f none 0 text

/-- The bytes beside a gap are no spaces. -/
theorem ne_space_of_mem_gapsFrom {before : Option UInt8} {n : Nat} {t : Bytes} {g : Gap}
    (hbefore : before ≠ some Byte.space) (hg : g ∈ gapsFrom before n t) :
    g.before ≠ some Byte.space ∧ g.after ≠ some Byte.space := by
  induction t generalizing before n with
  | nil =>
    obtain rfl := List.mem_singleton.mp hg
    exact ⟨hbefore, nofun⟩
  | cons b t ih =>
    by_cases hb : b = Byte.space
    · rw [hb, gapsFrom_cons_space] at hg
      exact ih hbefore hg
    · rw [gapsFrom_cons_of_ne hb] at hg
      obtain rfl | hg := List.mem_cons.mp hg
      · exact ⟨hbefore, fun h => hb (Option.some.inj h)⟩
      · exact ih (fun h => hb (Option.some.inj h)) hg

/-- After a byte that is no space the gaps are those of the rest of the text. -/
theorem exists_gapsFrom_append_cons {b : UInt8} (hb : b ≠ Byte.space) (before : Option UInt8)
    (n : Nat) (s t : Bytes) :
    ∃ gs, gapsFrom before n (s ++ b :: t) = gs ++ gapsFrom (some b) 0 t := by
  induction s generalizing before n with
  | nil => exact ⟨[⟨before, n, some b⟩], gapsFrom_cons_of_ne hb before n t⟩
  | cons c s ih =>
    rw [List.cons_append]
    by_cases hc : c = Byte.space
    · rw [hc, gapsFrom_cons_space]
      exact ih before (n + 1)
    · obtain ⟨gs, hgs⟩ := ih (some c) 0
      exact ⟨⟨before, n, some c⟩ :: gs, by rw [gapsFrom_cons_of_ne hc, hgs, List.cons_append]⟩

/-- **Every text is a run of spaces**, with nothing behind it or with a byte that is no space and a
text of which the same holds. -/
theorem gap_induction {P : Bytes → Prop} (hend : ∀ n, P (List.replicate n Byte.space))
    (hcons : ∀ n b t, b ≠ Byte.space → P t → P (List.replicate n Byte.space ++ b :: t))
    (text : Bytes) : P text := by
  suffices h : ∀ n, P (List.replicate n Byte.space ++ text) from h 0
  induction text with
  | nil => simpa using hend
  | cons b t ih =>
    intro n
    by_cases hb : b = Byte.space
    · have hmore := ih (n + 1)
      rw [List.replicate_succ', List.append_assoc, List.singleton_append] at hmore
      rwa [hb]
    · exact hcons n b t hb (ih 0)

/-- A gap behind the bytes `u` and `n` spaces lies in the text that they begin. -/
theorem exists_of_mem_gapsFrom {u t : Bytes} {n : Nat} {g : Gap}
    (hg : g ∈ gapsFrom u.getLast? n t) :
    ∃ s r, u ++ List.replicate n Byte.space ++ t =
        s ++ List.replicate g.length Byte.space ++ r ∧
      s.getLast? = g.before ∧ r.head? = g.after := by
  induction t generalizing u n with
  | nil =>
    obtain rfl := List.mem_singleton.mp hg
    exact ⟨u, [], rfl, rfl, rfl⟩
  | cons b t ih =>
    by_cases hb : b = Byte.space
    · rw [hb, gapsFrom_cons_space] at hg
      obtain ⟨s, r, htext, h⟩ := ih hg
      refine ⟨s, r, ?_, h⟩
      rw [← htext, hb, List.replicate_succ']
      simp
    · rw [gapsFrom_cons_of_ne hb] at hg
      obtain rfl | hg := List.mem_cons.mp hg
      · exact ⟨u, b :: t, rfl, rfl, rfl⟩
      -- the gap comes later, and the bytes in front of it now end with `b`
      · have hlast : (u ++ List.replicate n Byte.space ++ [b]).getLast? = some b := by simp
        rw [← hlast] at hg
        obtain ⟨s, r, htext, h⟩ := ih hg
        exact ⟨s, r, by rw [← htext]; simp, h⟩

/-- A run of spaces in front of a text that does not go on with one is its first gap. -/
theorem mem_gapsFrom_replicate_append {t : Bytes} (ht : t.head? ≠ some Byte.space)
    (before : Option UInt8) (m : Nat) :
    ⟨before, m, t.head?⟩ ∈ gapsFrom before 0 (List.replicate m Byte.space ++ t) := by
  rw [gapsFrom_replicate_append, Nat.zero_add]
  cases t with
  | nil => exact List.mem_singleton.mpr rfl
  | cons b t =>
    rw [gapsFrom_cons_of_ne fun hb => ht (by rw [hb]; rfl)]
    exact List.mem_cons_self

/-- **The non-empty gaps of a text are its maximal runs of spaces**, and the empty ones lie between
neighbours that are none, or at an end of the text. -/
theorem mem_gaps_iff {text : Bytes} {g : Gap} :
    g ∈ gaps text ↔ ∃ s t, text = s ++ List.replicate g.length Byte.space ++ t ∧
      s.getLast? = g.before ∧ t.head? = g.after ∧
      g.before ≠ some Byte.space ∧ g.after ≠ some Byte.space := by
  constructor
  · intro hg
    have hnone : (none : Option UInt8) ≠ some Byte.space := nofun
    obtain ⟨hbefore, hafter⟩ := ne_space_of_mem_gapsFrom hnone hg
    obtain ⟨s, r, htext, hs, hr⟩ := exists_of_mem_gapsFrom (u := []) (n := 0) hg
    exact ⟨s, r, htext, hs, hr, hbefore, hafter⟩
  · obtain ⟨before, m, after⟩ := g
    rintro ⟨s, t, rfl, rfl, rfl, hs, ht⟩
    have hrun := fun before => mem_gapsFrom_replicate_append ht before m
    rcases List.eq_nil_or_concat s with rfl | ⟨s, b, rfl⟩
    · exact hrun none
    -- `s` ends with a byte that is no space, so that a gap begins behind it
    · rw [List.concat_eq_append, List.getLast?_concat] at hs ⊢
      obtain ⟨gs, hgs⟩ := exists_gapsFrom_append_cons (b := b) (fun hb => hs (by rw [hb])) none 0 s
        (List.replicate m Byte.space ++ t)
      rw [gaps, List.append_assoc, List.append_assoc, List.singleton_append, hgs]
      exact List.mem_append_right gs (hrun (some b))

/-! ### Closing up around a character -/

/-- The text without a space at its beginning. -/
def dropSpace : Bytes → Bytes
  | [] => []
  | b :: t => if b = Byte.space then t else b :: t

theorem dropSpace_replicate (n : Nat) :
    dropSpace (List.replicate n Byte.space) = List.replicate (n - 1) Byte.space := by
  cases n with
  | zero => rfl
  | succ n => rw [List.replicate_succ, dropSpace, if_pos rfl, Nat.add_sub_cancel]

theorem dropSpace_replicate_append {b : UInt8} (hb : b ≠ Byte.space) (n : Nat) (t : Bytes) :
    dropSpace (List.replicate n Byte.space ++ b :: t) =
      List.replicate (n - 1) Byte.space ++ b :: t := by
  cases n with
  | zero => rw [List.replicate_zero, List.nil_append, dropSpace, if_neg hb]
  | succ n => rw [List.replicate_succ, List.cons_append, dropSpace, if_pos rfl, Nat.add_sub_cancel]

section CloseUp

variable {c : UInt8} (hc : c ≠ Byte.space)

/-- No occurrence begins with another byte, unless it is a space right before the character. -/
theorem spaced?_eq_none {b : UInt8} {t : Bytes} (hb : b ≠ c)
    (hspace : b = Byte.space → t.head? ≠ some c) : spaced? c (b :: t) = none := by
  match t with
  | [] => simp [spaced?, hb]
  | [d] =>
    have hd : ¬ (b = Byte.space ∧ d = c) := fun h => hspace h.1 (by simp [h.2])
    simp [spaced?, hb, hd]
  | d :: e :: t =>
    have hd : ¬ (b = Byte.space ∧ d = c) := fun h => hspace h.1 (by simp [h.2])
    simp [spaced?, hb, hd]

theorem closeUp_cons_of_ne {b : UInt8} {t : Bytes} (hb : b ≠ c)
    (hspace : b = Byte.space → t.head? ≠ some c) : closeUp c (b :: t) = b :: closeUp c t := by
  simp only [closeUp, Bytes.substitute, Bytes.substituteFrom, spaced?_eq_none hb hspace]

/-- An occurrence takes a space after it along. -/
theorem closeUp_cons_self (t : Bytes) : closeUp c (c :: t) = c :: closeUp c (dropSpace t) := by
  match t with
  | [] => simp [closeUp, Bytes.substitute, Bytes.substituteFrom, spaced?, dropSpace]
  | [d] =>
    by_cases hd : d = Byte.space <;>
      simp [closeUp, Bytes.substitute, Bytes.substituteFrom, spaced?, dropSpace, hd]
  | d :: e :: t =>
    by_cases hd : d = Byte.space <;>
      simp [closeUp, Bytes.substitute, Bytes.substituteFrom, spaced?, dropSpace, hd]

include hc

/-- It takes a space before it along as well. -/
theorem closeUp_cons_space_self (t : Bytes) :
    closeUp c (Byte.space :: c :: t) = c :: closeUp c (dropSpace t) := by
  have hne : Byte.space ≠ c := hc.symm
  match t with
  | [] => simp [closeUp, Bytes.substitute, Bytes.substituteFrom, spaced?, dropSpace, hne]
  | d :: t =>
    by_cases hd : d = Byte.space <;>
      simp [closeUp, Bytes.substitute, Bytes.substituteFrom, spaced?, dropSpace, hd, hne]

theorem closeUp_replicate (n : Nat) :
    closeUp c (List.replicate n Byte.space) = List.replicate n Byte.space := by
  induction n with
  | zero => rfl
  | succ n ih =>
    rw [List.replicate_succ, closeUp_cons_of_ne hc.symm, ih]
    cases n with
    | zero => simp
    | succ n => simpa [List.replicate_succ] using hc.symm

/-- Spaces before another byte stay. -/
theorem closeUp_replicate_append_of_ne {b : UInt8} (hb : b ≠ Byte.space) (hne : b ≠ c) (n : Nat)
    (t : Bytes) :
    closeUp c (List.replicate n Byte.space ++ b :: t) =
      List.replicate n Byte.space ++ b :: closeUp c t := by
  induction n with
  | zero => exact closeUp_cons_of_ne hne fun h => absurd h hb
  | succ n ih =>
    rw [List.replicate_succ, List.cons_append, closeUp_cons_of_ne hc.symm, ih, List.cons_append]
    cases n with
    | zero => simpa using hne
    | succ n => simpa [List.replicate_succ] using hc.symm

/-- Of the spaces before the character the last one goes. -/
theorem closeUp_replicate_append_self (n : Nat) (t : Bytes) :
    closeUp c (List.replicate n Byte.space ++ c :: t) =
      List.replicate (n - 1) Byte.space ++ c :: closeUp c (dropSpace t) := by
  match n with
  | 0 => exact closeUp_cons_self t
  | 1 => exact closeUp_cons_space_self hc t
  | n + 2 =>
    have ih := closeUp_replicate_append_self (n + 1) t
    have hhead : (List.replicate (n + 1) Byte.space ++ c :: t).head? ≠ some c := by
      simpa [List.replicate_succ] using hc.symm
    rw [List.replicate_succ, List.cons_append, closeUp_cons_of_ne hc.symm fun _ => hhead, ih]
    rfl

/-- **Closing up around a character takes a space for each side of a gap** that it stands on. -/
theorem closeUp_eq (text : Bytes) :
    closeUp c text =
      ofGaps ((gaps text).map (Gap.resize fun g => g.length - g.sides (· == c))) := by
  -- right after the character a space is already gone
  suffices h : ∀ before : Option UInt8,
      closeUp c (if before = some c then dropSpace text else text) =
        ofGaps ((gapsFrom before 0 text).map
          (Gap.resize fun g => g.length - g.sides (· == c))) from h none
  induction text using gap_induction with
  | hend n =>
    intro before
    have hgaps := gapsFrom_replicate_append before 0 n []
    rw [List.append_nil, Nat.zero_add] at hgaps
    rw [hgaps]
    split
    · rename_i hbefore
      rw [dropSpace_replicate, closeUp_replicate hc]
      simp [gapsFrom, Gap.text, Gap.resize, Gap.sides, hbefore]
    · rename_i hbefore
      have hne : before.any (· == c) = false := by
        cases before with
        | none => rfl
        | some b => simpa using hbefore
      rw [closeUp_replicate hc]
      simp [gapsFrom, Gap.text, Gap.resize, Gap.sides, hne]
  | hcons n b t hb ih =>
    intro before
    have hdrop : (if before = some c then dropSpace (List.replicate n Byte.space ++ b :: t)
        else List.replicate n Byte.space ++ b :: t) =
        List.replicate (n - (before.any (· == c)).toNat) Byte.space ++ b :: t := by
      cases before with
      | none => rfl
      | some a =>
        by_cases ha : a = c
        · simp [ha, dropSpace_replicate_append hb]
        · simp [ha, beq_eq_false_iff_ne.mpr ha]
    have hrest := ih (some b)
    rw [hdrop, gapsFrom_replicate_append, Nat.zero_add, gapsFrom_cons_of_ne hb, List.map_cons,
      ofGaps_cons, ← hrest]
    by_cases hbc : b = c
    · rw [hbc, closeUp_replicate_append_self hc, if_pos rfl]
      simp [Gap.text, Gap.resize, Gap.sides, Nat.sub_sub]
    · rw [closeUp_replicate_append_of_ne hc hb hbc, if_neg fun h => hbc (Option.some.inj h)]
      simp [Gap.text, Gap.resize, Gap.sides, beq_eq_false_iff_ne.mpr hbc]

end CloseUp

/-! ### A pass -/

/-- Is the byte one of the punctuation characters? -/
def isPunctuation (b : UInt8) : Bool := punctuation.contains b

/-- A pass takes a space from a gap for each side on which punctuation stands. -/
def Gap.afterPass (g : Gap) : Nat := g.length - g.sides isPunctuation

/-- Different characters take their spaces one after another. -/
theorem foldl_closeUp_eq {cs : Bytes} (hnodup : cs.Nodup) (hspace : Byte.space ∉ cs)
    (text : Bytes) :
    cs.foldl (fun t c => closeUp c t) text =
      ofGaps ((gaps text).map (Gap.resize fun g => g.length - g.sides cs.contains)) := by
  induction cs generalizing text with
  | nil =>
    rw [Gap.map_resize_eq_self, ofGaps_gaps, List.foldl_nil]
    intro g _
    rw [Gap.sides_eq_zero (p := [].contains) fun _ => rfl, Nat.sub_zero]
  | cons c cs ih =>
    obtain ⟨hc, hnodup⟩ := List.nodup_cons.mp hnodup
    obtain ⟨hne, hspace⟩ := not_or.mp (mt List.mem_cons.mpr hspace)
    have hsides : ∀ g : Gap,
        g.sides (c :: cs).contains = g.sides (· == c) + g.sides cs.contains := by
      intro g
      have hone : ∀ o : Option UInt8, (o.any (c :: cs).contains).toNat =
          (o.any (· == c)).toNat + (o.any cs.contains).toNat := by
        rintro (_ | b)
        · rfl
        · by_cases hb : b = c
          · simp [hb, hc]
          · simp [hb]
      rw [Gap.sides, Gap.sides, Gap.sides, hone, hone]
      omega
    rw [List.foldl_cons, ih hnodup hspace, closeUp_eq (Ne.symm hne), gaps_ofGaps_resize,
      List.map_map]
    congr 2
    funext g
    simp only [Function.comp_apply, Gap.resize_resize, Gap.length_resize, Gap.sides_resize]
    simp only [Gap.resize, hsides, Nat.sub_sub]

theorem pass_eq (text : Bytes) :
    pass text = ofGaps ((gaps text).map (Gap.resize Gap.afterPass)) :=
  foldl_closeUp_eq (by decide) (by decide) text

/-- **A pass leaves a text alone exactly if no gap with spaces is beside punctuation.** -/
theorem pass_eq_self_iff {text : Bytes} :
    pass text = text ↔ ∀ g ∈ gaps text, g.length = 0 ∨ g.sides isPunctuation = 0 := by
  constructor
  · intro h g hg
    have hgaps := gaps_ofGaps_resize Gap.afterPass text
    rw [← pass_eq, h] at hgaps
    have hsame : ∀ g ∈ gaps text, g.resize Gap.afterPass = g := by
      refine List.map_inj_left.mp ?_
      rw [← hgaps, List.map_id']
    have hlength := congrArg Gap.length (hsame g hg)
    rw [Gap.length_resize, Gap.afterPass] at hlength
    omega
  · intro h
    rw [pass_eq, Gap.map_resize_eq_self, ofGaps_gaps]
    intro g hg
    have hg := h g hg
    rw [Gap.afterPass]
    omega

/-! ### Compaction -/

/-- What is left of a gap: nothing beside punctuation, and all of it elsewhere. -/
def Gap.closed (g : Gap) : Nat := if g.sides isPunctuation = 0 then g.length else 0

/-- The passes that take spaces from a gap: one for each space, or for each two with punctuation on
both sides. -/
def Gap.passes (g : Gap) : Nat :=
  if g.sides isPunctuation = 0 then 0
  else if g.sides isPunctuation = 1 then g.length
  else (g.length + 1) / 2

/-- After a pass one pass less is needed. -/
theorem Gap.passes_afterPass (g : Gap) : (g.resize Gap.afterPass).passes = g.passes - 1 := by
  have hsides := g.sides_le_two isPunctuation
  rw [Gap.passes, Gap.passes, Gap.sides_resize, Gap.length_resize, Gap.afterPass]
  split
  · rfl
  · split <;> omega

theorem Gap.passes_eq_zero_iff {g : Gap} :
    g.passes = 0 ↔ g.length = 0 ∨ g.sides isPunctuation = 0 := by
  rw [Gap.passes]
  split
  · simp [*]
  · split <;> omega

/-- The most passes that a gap of the text takes. -/
def mostPasses (text : Bytes) : Nat := ((gaps text).map Gap.passes).foldr max 0

theorem foldr_max_le_iff {ns : List Nat} {m : Nat} : ns.foldr max 0 ≤ m ↔ ∀ n ∈ ns, n ≤ m := by
  induction ns with
  | nil => simp
  | cons n ns ih => rw [List.foldr_cons, Nat.max_le, ih, List.forall_mem_cons]

theorem foldr_max_sub_one (ns : List Nat) :
    (ns.map (· - 1)).foldr max 0 = ns.foldr max 0 - 1 := by
  induction ns with
  | nil => rfl
  | cons n ns ih =>
    rw [List.map_cons, List.foldr_cons, List.foldr_cons, ih]
    omega

theorem mostPasses_eq_zero_iff {text : Bytes} : mostPasses text = 0 ↔ pass text = text := by
  rw [pass_eq_self_iff, mostPasses, ← Nat.le_zero, foldr_max_le_iff, List.forall_mem_map]
  simp only [Nat.le_zero, Gap.passes_eq_zero_iff]

theorem mostPasses_pass (text : Bytes) : mostPasses (pass text) = mostPasses text - 1 := by
  rw [mostPasses, pass_eq, gaps_ofGaps_resize, mostPasses, ← foldr_max_sub_one, List.map_map,
    List.map_map]
  congr 2
  funext g
  exact g.passes_afterPass

/-- Further passes after one close the same gaps. -/
theorem ofGaps_closed_pass (text : Bytes) :
    ofGaps ((gaps (pass text)).map (Gap.resize Gap.closed)) =
      ofGaps ((gaps text).map (Gap.resize Gap.closed)) := by
  rw [pass_eq, gaps_ofGaps_resize, List.map_map]
  congr 2
  funext g
  have hclosed : (g.resize Gap.afterPass).closed = g.closed := by
    rw [Gap.closed, Gap.closed, Gap.sides_resize, Gap.length_resize, Gap.afterPass]
    split <;> omega
  rw [Function.comp_apply, Gap.resize_resize, Gap.resize, hclosed, Gap.resize]

theorem compact_eq_ofGaps (text : Bytes) :
    (compact text).1 = ofGaps ((gaps text).map (Gap.resize Gap.closed)) := by
  fun_induction compact text with
  | case1 text h =>
    rw [Gap.map_resize_eq_self, ofGaps_gaps]
    intro g hg
    have hg := pass_eq_self_iff.mp h g hg
    rw [Gap.closed]
    split <;> omega
  | case2 text h hlt out passes hout ih =>
    rw [hout, ofGaps_closed_pass] at ih
    exact ih

/-- No gap of a compacted text is left to be closed. -/
theorem pass_compact (text : Bytes) : pass (compact text).1 = (compact text).1 := by
  rw [pass_eq_self_iff, compact_eq_ofGaps, gaps_ofGaps_resize, List.forall_mem_map]
  intro g _
  rw [Gap.length_resize, Gap.sides_resize, Gap.closed]
  split <;> simp_all

/-- **Compaction in closed form.** A text is put together from its gaps; a compacted one from the
same gaps, those beside punctuation closed and all others at their full length. It is compact
already, as one pass finds. -/
theorem compact_closed_form (text : Bytes) :
    ofGaps (gaps text) = text ∧
    (compact text).1 = ofGaps ((gaps text).map (Gap.resize Gap.closed)) ∧
    compact (compact text).1 = ((compact text).1, 1) := by
  refine ⟨ofGaps_gaps text, compact_eq_ofGaps text, ?_⟩
  rw [compact, dif_pos (pass_compact text)]

/-! ### The number of passes -/

theorem passes_eq (text : Bytes) : (compact text).2 = 1 + mostPasses text := by
  fun_induction compact text with
  | case1 text h => rw [mostPasses_eq_zero_iff.mpr h]
  | case2 text h hlt out passes hout ih =>
    have hpos : mostPasses text ≠ 0 := fun h0 => h (mostPasses_eq_zero_iff.mp h0)
    rw [hout, mostPasses_pass] at ih
    dsimp only at ih ⊢
    omega

/-- No two spaces stand beside each other. -/
def Single (text : Bytes) : Prop := ¬ [Byte.space, Byte.space] <:+: text

theorem single_cons_iff {b : UInt8} {t : Bytes} :
    Single (b :: t) ↔ ¬ (b = Byte.space ∧ t.head? = some Byte.space) ∧ Single t := by
  rw [Single, List.infix_cons_iff, not_or, Single]
  refine and_congr_left fun _ => not_congr ?_
  cases t with
  | nil => simp
  | cons c t => simp [List.cons_prefix_cons, eq_comm]

theorem single_collapse (text : Bytes) : Single (collapse text) := by
  induction text with
  | nil => simp [Single, collapse_nil]
  | cons b t ih =>
    rw [collapse_cons, consCollapsed]
    split
    · split
      · exact ih
      · rename_i hhead
        exact single_cons_iff.mpr ⟨fun h => hhead h.2, ih⟩
    · rename_i hb
      exact single_cons_iff.mpr ⟨fun h => hb (by rw [h.1]; rfl), ih⟩

/-- Trimming cuts at the ends only. -/
theorem trim_isInfix (b : Bytes) : Bytes.trim b <:+: b := by
  have hfront := List.dropWhile_suffix Rune.isBlank (l := Rune.decode b)
  have hback := List.dropWhile_suffix Rune.isBlank
    (l := ((Rune.decode b).dropWhile Rune.isBlank).reverse)
  obtain ⟨s, t, hst⟩ := (List.reverse_prefix.mpr hback).isInfix
  obtain ⟨u, hu⟩ := hfront
  rw [List.reverse_reverse] at hst
  refine ⟨(u ++ s).flatMap Rune.encode, t.flatMap Rune.encode, ?_⟩
  rw [Bytes.trim, ← List.flatMap_append, ← List.flatMap_append]
  refine Eq.trans (congrArg _ ?_) (Rune.flatMap_encode_decode b)
  rw [List.append_assoc u, List.append_assoc u, hst, hu]

theorem single_normalize (lines : List Bytes) : Single (normalize lines) :=
  fun h => single_collapse _ (h.trans (trim_isInfix _))

/-- The gaps of a text with single spaces have at most one. -/
theorem Single.length_le_one {text : Bytes} (h : Single text) {g : Gap} (hg : g ∈ gaps text) :
    g.length ≤ 1 := by
  obtain ⟨s, t, htext, -⟩ := mem_gaps_iff.mp hg
  refine Nat.le_of_not_lt fun hlt => h ?_
  obtain ⟨k, hk⟩ : ∃ k, g.length = k + 2 := ⟨g.length - 2, by omega⟩
  exact ⟨s, List.replicate k Byte.space ++ t, by rw [htext, hk]; simp [List.replicate_succ]⟩

theorem mostPasses_normalize_le (lines : List Bytes) : mostPasses (normalize lines) ≤ 1 := by
  rw [mostPasses, foldr_max_le_iff, List.forall_mem_map]
  intro g hg
  have hlength := (single_normalize lines).length_le_one hg
  rw [Gap.passes]
  split
  · exact Nat.zero_le 1
  · split <;> omega

/-- **The number of passes is exact**: one more than the gap beside punctuation that needs the most,
and so at most two after normalizing. -/
theorem passes_exact (text : Bytes) (lines : List Bytes) :
    (compact text).2 = 1 + ((gaps text).map Gap.passes).foldr max 0 ∧
    (compact (normalize lines)).2 ≤ 2 := by
  have hle := mostPasses_normalize_le lines
  refine ⟨passes_eq text, ?_⟩
  rw [passes_eq]
  omega

end KernelPack.Source
