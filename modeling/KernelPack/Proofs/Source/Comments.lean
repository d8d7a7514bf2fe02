import KernelPack.Proofs.Bytes.Cutting
import KernelPack.Proofs.Bytes.Substitution
import KernelPack.Source.Comments

/-!
# What comment removal removes

The recogniser of block comments finds exactly the comments with no slash between their marks
(`blockComment?_eq_some_iff`). A text can be **cut at its comments** (`Cuts`), so that none begins
in a stretch between them, and in one way only (`Cuts.exists_leftmost`, `Cuts.Leftmost.eq`): these
are the comments that go, and the stretches are what is left (`Cuts.Leftmost.dropComments_eq`).
Line comments go line by line (`pieces_dropComments_lineComment?`). The main statement,
`withoutComments_leftmost`, says what lines are left of a kernel.
-/

namespace KernelPack

namespace Source

/-! ### Block comments -/

/-- **A block comment**: the text between its marks holds no slash. -/
def IsBlockComment (c : Bytes) : Prop :=
  ∃ u, c = [Byte.slash, Byte.star] ++ u ++ [Byte.star, Byte.slash] ∧ Byte.slash ∉ u

theorem IsBlockComment.ne_nil {c : Bytes} (h : IsBlockComment c) : c ≠ [] := by
  obtain ⟨u, rfl, -⟩ := h
  simp

/-- After an opening mark the next slash decides. -/
theorem blockComment?_slash {u : Bytes} (hu : Byte.slash ∉ u) (t : Bytes) :
    blockComment? (Byte.slash :: Byte.star :: (u ++ Byte.slash :: t)) =
      if u.getLast? = some Byte.star then some (u.length + 3) else none := by
  have hbody : (u ++ Byte.slash :: t).takeWhile (· != Byte.slash) = u := by
    have hpos : ∀ x ∈ u, (x != Byte.slash) = true := fun x hx =>
      bne_iff_ne.mpr fun h => hu (h ▸ hx)
    rw [List.takeWhile_append_of_pos hpos, List.takeWhile_cons_of_neg (by simp), List.append_nil]
  have hslash : (u ++ Byte.slash :: t).contains Byte.slash = true := by simp
  calc blockComment? (Byte.slash :: Byte.star :: (u ++ Byte.slash :: t))
      = if ((u ++ Byte.slash :: t).takeWhile (· != Byte.slash)).getLast? = some Byte.star ∧
            (u ++ Byte.slash :: t).contains Byte.slash = true
        then some (((u ++ Byte.slash :: t).takeWhile (· != Byte.slash)).length + 3) else none := rfl
    _ = if u.getLast? = some Byte.star then some (u.length + 3) else none := by
        rw [hbody, hslash]
        simp

/-- Without a slash after it an opening mark begins no comment. -/
theorem blockComment?_of_not_mem {t : Bytes} (ht : Byte.slash ∉ t) :
    blockComment? (Byte.slash :: Byte.star :: t) = none :=
  if_neg fun h => ht (List.contains_iff_mem.mp h.2)

theorem blockComment?_of_not_isPrefix {s : Bytes} (h : ¬ [Byte.slash, Byte.star] <+: s) :
    blockComment? s = none := by
  unfold blockComment?
  split
  · exact absurd ⟨_, rfl⟩ h
  · rfl

/-- **The recogniser finds the block comment that a text begins with**, if there is one. -/
theorem blockComment?_eq_some_iff {s : Bytes} {n : Nat} :
    blockComment? s = some n ↔ ∃ c, IsBlockComment c ∧ c <+: s ∧ c.length = n := by
  constructor
  · intro h
    obtain ⟨t, rfl⟩ : ∃ t, s = Byte.slash :: Byte.star :: t := by
      unfold blockComment? at h
      split at h
      · exact ⟨_, rfl⟩
      · cases h
    obtain ⟨u, hu, rfl | ⟨x, r, hx, rfl⟩⟩ := Bytes.exists_first_piece (· == Byte.slash) t
    · rw [blockComment?_of_not_mem fun hmem => by simpa using hu _ hmem] at h
      cases h
    · obtain rfl := beq_iff_eq.mp hx
      have hu : Byte.slash ∉ u := fun hmem => by simpa using hu _ hmem
      rw [blockComment?_slash hu, Option.ite_none_right_eq_some] at h
      obtain ⟨hlast, hn⟩ := h
      obtain ⟨v, rfl⟩ := List.getLast?_eq_some_iff.mp hlast
      refine ⟨_, ⟨v, rfl, fun hmem => hu (List.mem_append_left _ hmem)⟩, ⟨r, by simp⟩, ?_⟩
      rw [← Option.some.inj hn]
      simp
  · rintro ⟨_, ⟨u, rfl, hu⟩, ⟨r, rfl⟩, rfl⟩
    have hbody : Byte.slash ∉ u ++ [Byte.star] := by simpa [Byte.slash, Byte.star] using hu
    have h := blockComment?_slash hbody r
    rw [List.getLast?_concat, if_pos rfl] at h
    simpa using h

theorem blockComment?_eq_none_iff {s : Bytes} :
    blockComment? s = none ↔ ∀ c, IsBlockComment c → ¬ c <+: s := by
  constructor
  · intro h c hc hpre
    have hsome := blockComment?_eq_some_iff.mpr ⟨c, hc, hpre, rfl⟩
    rw [h] at hsome
    cases hsome
  · intro h
    refine Option.eq_none_iff_forall_ne_some.mpr fun n hn => ?_
    obtain ⟨c, hc, hpre, -⟩ := blockComment?_eq_some_iff.mp hn
    exact h c hc hpre

theorem blockComment?_append_iff {c t : Bytes} :
    blockComment? (c ++ t) = some c.length ↔ IsBlockComment c := by
  rw [blockComment?_eq_some_iff]
  constructor
  · rintro ⟨c', hc', hpre, hlength⟩
    obtain rfl := (List.prefix_of_prefix_length_le hpre (List.prefix_append c t)
      (Nat.le_of_eq hlength)).eq_of_length hlength
    exact hc'
  · exact fun hc => ⟨c, hc, List.prefix_append c t, rfl⟩

/-- A text begins with one block comment at most. -/
theorem IsBlockComment.eq_of_isPrefix {c c' s : Bytes} (hc : IsBlockComment c)
    (hc' : IsBlockComment c') (h : c <+: s) (h' : c' <+: s) : c = c' := by
  have hlength := (blockComment?_eq_some_iff.mpr ⟨c, hc, h, rfl⟩).symm.trans
    (blockComment?_eq_some_iff.mpr ⟨c', hc', h', rfl⟩)
  exact List.IsPrefix.eq_of_length
    (List.prefix_of_prefix_length_le h h' (Nat.le_of_eq (Option.some.inj hlength)))
    (Option.some.inj hlength)

/-! ### Removing what is recognised -/

section DropComments

variable {comment? : Bytes → Option Nat}

theorem dropComments_cons_of_none {b : UInt8} {t : Bytes} (h : comment? (b :: t) = none) :
    dropComments comment? (b :: t) = b :: dropComments comment? t :=
  Bytes.substitute_cons_of_none (by rw [h]; rfl)

/-- A comment at the beginning goes. -/
theorem dropComments_append {c t : Bytes} (hne : c ≠ []) (h : comment? (c ++ t) = some c.length) :
    dropComments comment? (c ++ t) = dropComments comment? t :=
  @Bytes.substitute_append_of_some (fun s => (comment? s).map (·, [])) c t [] hne
    (by rw [h, Option.map_some])

/-- A stretch in which no comment begins stays. -/
theorem dropComments_append_of_none {s t : Bytes}
    (h : ∀ u, u <:+ s → u ≠ [] → comment? (u ++ t) = none) :
    dropComments comment? (s ++ t) = s ++ dropComments comment? t :=
  Bytes.substitute_append fun u hu hne => by rw [h u hu hne]; rfl

theorem head?_dropComments {s : Bytes} (h : comment? s = none) :
    (dropComments comment? s).head? = s.head? := by
  cases s with
  | nil => rfl
  | cons b t => rw [dropComments_cons_of_none h]; rfl

/-- What is recognised is not empty and is there. -/
def Recognises (comment? : Bytes → Option Nat) : Prop :=
  ∀ s n, comment? s = some n → 0 < n ∧ n ≤ s.length

theorem Recognises.advances (h : Recognises comment?) :
    Bytes.Advances fun s => (comment? s).map (·, []) := by
  intro s n new hfind
  obtain ⟨k, hcomment, hk⟩ := Option.map_eq_some_iff.mp hfind
  rw [← (Prod.mk.inj hk).1]
  exact h s k hcomment

/-- **Induction along the scanner**, over the comments that go and the bytes that stay. -/
theorem scan_induction (h : Recognises comment?) {motive : Bytes → Prop} (nil : motive [])
    (goes : ∀ c t, c ≠ [] → comment? (c ++ t) = some c.length → motive t → motive (c ++ t))
    (stays : ∀ b t, comment? (b :: t) = none → motive t → motive (b :: t)) (text : Bytes) :
    motive text := by
  induction text using Bytes.scan_induction h.advances with
  | nil => exact nil
  | found s t new hne hfind ih =>
    obtain ⟨k, hcomment, hk⟩ := Option.map_eq_some_iff.mp hfind
    exact goes s t hne (by rw [hcomment, (Prod.mk.inj hk).1]) ih
  | stays b t hfind ih => exact stays b t (Option.map_eq_none_iff.mp hfind) ih

end DropComments

theorem recognises_blockComment? : Recognises blockComment? := by
  intro s n h
  obtain ⟨c, hc, hpre, rfl⟩ := blockComment?_eq_some_iff.mp h
  exact ⟨List.length_pos_iff.mpr hc.ne_nil, hpre.length_le⟩

theorem recognises_lineComment? : Recognises lineComment? := by
  intro s n h
  unfold lineComment? at h
  split at h
  · rename_i t
    have hle := (List.takeWhile_sublist (· != Byte.lf) (l := t)).length_le
    rw [← Option.some.inj h, List.length_cons, List.length_cons]
    omega
  · cases h

/-! ### Cutting a text at its comments -/

/-- A text cut into stretches, with a comment between any two. -/
inductive Cuts where
  | last (stretch : Bytes)
  | cut (stretch comment : Bytes) (rest : Cuts)
  deriving DecidableEq, Repr

namespace Cuts

/-- The text that was cut. -/
def text : Cuts → Bytes
  | last g => g
  | cut g c rest => g ++ (c ++ rest.text)

/-- What is left of the text without the comments. -/
def kept : Cuts → Bytes
  | last g => g
  | cut g _ rest => g ++ rest.kept

/-- No block comment begins inside the stretch, when `after` follows it. -/
def NoneBegins (stretch after : Bytes) : Prop :=
  ∀ s, s <:+ stretch → s ≠ [] → ∀ c, IsBlockComment c → ¬ c <+: s ++ after

/-- **The cut is leftmost**: the comments are block comments, and none begins in the text at a place
inside a stretch. -/
def Leftmost : Cuts → Prop
  | last g => NoneBegins g []
  | cut g c rest => NoneBegins g (c ++ rest.text) ∧ IsBlockComment c ∧ rest.Leftmost

theorem NoneBegins.blockComment? {stretch after s : Bytes} (h : NoneBegins stretch after)
    (hs : s <:+ stretch) (hne : s ≠ []) : blockComment? (s ++ after) = none :=
  blockComment?_eq_none_iff.mpr (h s hs hne)

theorem noneBegins_nil (after : Bytes) : NoneBegins [] after :=
  fun _ hs hne => absurd (List.suffix_nil.mp hs) hne

theorem NoneBegins.cons {b : UInt8} {stretch after : Bytes} (h : NoneBegins stretch after)
    (hb : ∀ c, IsBlockComment c → ¬ c <+: b :: stretch ++ after) :
    NoneBegins (b :: stretch) after := by
  intro s hs hne
  obtain rfl | hs := List.suffix_cons_iff.mp hs
  · exact hb
  · exact h s hs hne

/-- **Every text can be cut so.** -/
theorem exists_leftmost (t : Bytes) : ∃ d : Cuts, d.text = t ∧ d.Leftmost := by
  induction t using scan_induction recognises_blockComment? with
  | nil => exact ⟨last [], rfl, noneBegins_nil []⟩
  | goes c t hne hc ih =>
    obtain ⟨d, rfl, hd⟩ := ih
    exact ⟨cut [] c d, rfl, noneBegins_nil _, blockComment?_append_iff.mp hc, hd⟩
  | stays b t hb ih =>
    obtain ⟨d, rfl, hd⟩ := ih
    have hb := blockComment?_eq_none_iff.mp hb
    cases d with
    | last g => exact ⟨last (b :: g), rfl, hd.cons (by simpa [text] using hb)⟩
    | cut g c rest => exact ⟨cut (b :: g) c rest, rfl, hd.1.cons hb, hd.2⟩

/-- A comment of the text begins after a stretch inside which none begins. -/
theorem NoneBegins.length_le {g c r stretch after : Bytes} (h : NoneBegins stretch after)
    (hc : IsBlockComment c) (htext : stretch ++ after = g ++ (c ++ r)) :
    stretch.length ≤ g.length := by
  rcases List.append_eq_append_iff.mp htext with ⟨w, rfl, -⟩ | ⟨w, rfl, hw⟩
  · simp
  · by_cases hne : w = []
    · simp [hne]
    · exact absurd ⟨r, hw⟩ (h w (List.suffix_append g w) hne c hc)

/-- A text inside which no comment begins has no comment. -/
theorem NoneBegins.ne_append {g c r text : Bytes} (h : NoneBegins text [])
    (hc : IsBlockComment c) : text ≠ g ++ (c ++ r) := by
  intro htext
  have hle := h.length_le hc (by rw [List.append_nil, htext])
  have hpos := List.length_pos_iff.mpr hc.ne_nil
  simp only [htext, List.length_append] at hle
  omega

/-- **Only one cut of a text is leftmost.** -/
theorem Leftmost.eq {d d' : Cuts} (h : d.Leftmost) (h' : d'.Leftmost) (htext : d.text = d'.text) :
    d = d' := by
  induction d generalizing d' with
  | last g =>
    cases d' with
    | last g' => exact congrArg last htext
    | cut g' c rest => exact absurd htext (NoneBegins.ne_append h h'.2.1)
  | cut g c rest ih =>
    obtain ⟨hg, hc, hrest⟩ := h
    cases d' with
    | last g' => exact absurd htext.symm (NoneBegins.ne_append h' hc)
    | cut g' c' rest' =>
      -- no comment begins inside a stretch, so neither first comment begins before the other
      obtain ⟨hg', hc', hrest'⟩ := h'
      have hlength : g.length = g'.length :=
        Nat.le_antisymm (hg.length_le hc' htext) (hg'.length_le hc htext.symm)
      obtain ⟨rfl, hafter⟩ := List.append_inj htext hlength
      obtain rfl := hc.eq_of_isPrefix hc' (List.prefix_append c _) ⟨_, hafter.symm⟩
      rw [ih hrest hrest' (List.append_cancel_left hafter)]

/-- **Removing block comments leaves the stretches.** -/
theorem Leftmost.dropComments_eq {d : Cuts} (h : d.Leftmost) :
    dropComments blockComment? d.text = d.kept := by
  induction d with
  | last g =>
    have hnone := dropComments_append_of_none fun u hu hne => h.blockComment? hu hne
    simpa [text, kept, dropComments, Bytes.substitute, Bytes.substituteFrom] using hnone
  | cut g c rest ih =>
    obtain ⟨hg, hc, hrest⟩ := h
    rw [text, dropComments_append_of_none fun u hu hne => hg.blockComment? hu hne,
      dropComments_append hc.ne_nil (blockComment?_append_iff.mpr hc), ih hrest, kept]

end Cuts

/-! ### Line comments -/

/-- A line up to its first two slashes. -/
def beforeSlashes : Bytes → Bytes
  | [] => []
  | b :: t => if [Byte.slash, Byte.slash] <+: b :: t then [] else b :: beforeSlashes t

theorem beforeSlashes_isPrefix (l : Bytes) : beforeSlashes l <+: l := by
  induction l with
  | nil => exact List.prefix_refl []
  | cons b t ih =>
    rw [beforeSlashes]
    split
    · exact List.nil_prefix
    · exact List.cons_prefix_cons.mpr ⟨rfl, ih⟩

/-- What is left of the line holds no two slashes. -/
theorem not_isInfix_beforeSlashes (l : Bytes) :
    ¬ [Byte.slash, Byte.slash] <:+: beforeSlashes l := by
  induction l with
  | nil => simp [beforeSlashes]
  | cons b t ih =>
    rw [beforeSlashes]
    split
    · simp
    · rename_i hslashes
      intro h
      obtain h | h := List.infix_cons_iff.mp h
      · exact hslashes (h.trans (List.cons_prefix_cons.mpr ⟨rfl, beforeSlashes_isPrefix t⟩))
      · exact ih h

theorem lineComment?_of_isPrefix {l r : Bytes} (h : [Byte.slash, Byte.slash] <+: l)
    (hl : Byte.lf ∉ l) (hr : ∀ x ∈ r.head?, x = Byte.lf) :
    lineComment? (l ++ r) = some l.length := by
  obtain ⟨t, rfl⟩ := h
  have ht : ∀ x ∈ t, (x != Byte.lf) = true := fun x hx => bne_iff_ne.mpr fun he =>
    hl (he ▸ List.mem_append_right _ hx)
  have hr : r.takeWhile (· != Byte.lf) = [] := by
    cases r with
    | nil => rfl
    | cons x r => rw [hr x (by simp)]; rfl
  calc lineComment? ([Byte.slash, Byte.slash] ++ t ++ r)
      = some (((t ++ r).takeWhile (· != Byte.lf)).length + 2) := rfl
    _ = some ([Byte.slash, Byte.slash] ++ t).length := by
        rw [List.takeWhile_append_of_pos ht, hr]
        simp

theorem lineComment?_of_not_isPrefix {s : Bytes} (h : ¬ [Byte.slash, Byte.slash] <+: s) :
    lineComment? s = none := by
  unfold lineComment?
  split
  · exact absurd ⟨_, rfl⟩ h
  · rfl

/-- Removing line comments from a line that ends here cuts it. -/
theorem dropComments_lineComment?_append {l r : Bytes} (hl : Byte.lf ∉ l)
    (hr : ∀ x ∈ r.head?, x = Byte.lf) :
    dropComments lineComment? (l ++ r) = beforeSlashes l ++ dropComments lineComment? r := by
  induction l with
  | nil => rfl
  | cons b l ih =>
    rw [beforeSlashes]
    split
    · rename_i hslashes
      exact dropComments_append (List.cons_ne_nil b l) (lineComment?_of_isPrefix hslashes hl hr)
    · rename_i hslashes
      -- what follows the line is a line feed, and does not make two slashes of one
      have hnone : ¬ [Byte.slash, Byte.slash] <+: b :: (l ++ r) := by
        intro hpre
        cases l with
        | cons x l => exact hslashes (by simpa using hpre)
        | nil =>
          cases r with
          | nil => simp at hpre
          | cons x r =>
            rw [hr x (by simp)] at hpre
            simp [Byte.slash, Byte.lf] at hpre
      rw [List.cons_append, dropComments_cons_of_none (lineComment?_of_not_isPrefix hnone),
        ih fun h => hl (List.mem_cons_of_mem b h), List.cons_append]

/-- **Line comments are cut off line by line.** -/
theorem pieces_dropComments_lineComment? (text : Bytes) :
    Bytes.pieces Byte.lf (dropComments lineComment? text) =
      (Bytes.pieces Byte.lf text).map beforeSlashes := by
  have hcut : ∀ {l}, Byte.lf ∉ l → Byte.lf ∉ beforeSlashes l := fun {l} hl hmem =>
    hl ((beforeSlashes_isPrefix l).subset hmem)
  induction text using Bytes.line_induction Byte.lf with
  | last l hl =>
    have hline := dropComments_lineComment?_append (r := []) hl (by simp)
    rw [List.append_nil] at hline
    rw [hline, Bytes.pieces_eq_singleton hl, show dropComments lineComment? [] = [] from rfl,
      List.append_nil, Bytes.pieces_eq_singleton (hcut hl), List.map_singleton]
  | line l t hl ih =>
    have hfeed : dropComments lineComment? (Byte.lf :: t) =
        Byte.lf :: dropComments lineComment? t := dropComments_cons_of_none rfl
    rw [dropComments_lineComment?_append hl (by simp), hfeed, Bytes.pieces_append_cons (hcut hl),
      Bytes.pieces_append_cons hl, ih, List.map_cons]

/-! ### Lines without comments -/

/-- The lines left by comment removal, in terms of what removing block comments leaves. -/
theorem withoutComments_eq_map {lines : List Bytes} (hne : lines ≠ []) (lineComments : Bool) :
    withoutComments lines lineComments =
      (Bytes.pieces Byte.lf (dropComments blockComment? (Bytes.joinWith [Byte.lf] lines))).map
        fun l => Bytes.dropTrailing Byte.isBlank (if lineComments then beforeSlashes l else l) := by
  rw [withoutComments, if_neg (by simpa using hne)]
  cases lineComments with
  | false => rfl
  | true =>
    simp only [if_true, pieces_dropComments_lineComment?, List.map_map]
    rfl

/-- No line is left with a line feed once comments are gone. -/
theorem lf_not_mem_of_mem_withoutComments {lines : List Bytes} {lineComments : Bool}
    {l : Bytes} (h : l ∈ withoutComments lines lineComments) : Byte.lf ∉ l := by
  unfold withoutComments at h
  split at h
  · exact absurd h List.not_mem_nil
  · obtain ⟨p, hp, rfl⟩ := List.mem_map.mp h
    exact fun hlf => Bytes.not_mem_of_mem_pieces hp (Bytes.mem_of_mem_dropTrailing hlf)

/-- **What comment removal removes.** The joined lines are cut at their comments in one way only:
each is a block comment without a slash inside, and none begins outside them. The stretches between
them are what is left, each line up to its first two slashes if line comments go too, without blanks
at its end. -/
theorem withoutComments_leftmost (lines : List Bytes) (hne : lines ≠ []) (lineComments : Bool) :
    ∃ d : Cuts, (d.text = Bytes.joinWith [Byte.lf] lines ∧ d.Leftmost) ∧
      (∀ d' : Cuts, d'.text = Bytes.joinWith [Byte.lf] lines → d'.Leftmost → d' = d) ∧
      (withoutComments lines lineComments =
        (Bytes.pieces Byte.lf d.kept).map fun l =>
          Bytes.dropTrailing Byte.isBlank (if lineComments then beforeSlashes l else l)) ∧
      (∀ l ∈ withoutComments lines lineComments,
        Byte.lf ∉ l ∧ (∀ x ∈ l.getLast?, Byte.isBlank x = false) ∧
          (lineComments = true → ¬ [Byte.slash, Byte.slash] <:+: l)) ∧
      (withoutComments lines lineComments).length = d.kept.count Byte.lf + 1 := by
  obtain ⟨d, htext, hd⟩ := Cuts.exists_leftmost (Bytes.joinWith [Byte.lf] lines)
  have hlines := withoutComments_eq_map hne lineComments
  rw [← htext, hd.dropComments_eq] at hlines
  refine ⟨d, ⟨htext, hd⟩, fun d' htext' hd' => hd'.eq hd (htext'.trans htext.symm), hlines,
    fun l hl => ⟨lf_not_mem_of_mem_withoutComments hl, ?_⟩, ?_⟩
  · rw [hlines] at hl
    obtain ⟨p, -, rfl⟩ := List.mem_map.mp hl
    refine ⟨Bytes.getLast?_dropTrailing, fun hflag hslashes => ?_⟩
    rw [if_pos hflag] at hslashes
    exact not_isInfix_beforeSlashes p (hslashes.trans (Bytes.dropTrailing_isPrefix _ _).isInfix)
  · rw [hlines, List.length_map, Bytes.length_pieces]

theorem withoutComments_leftmost_overlapping :
    ∃ d : Cuts, d.text = utf8 "a/*/*x*/b/* u\n*/c // d" ∧ d.Leftmost ∧
      withoutComments [utf8 "a/*/*x*/b/* u", utf8 "*/c // d"] true = [utf8 "a/*bc"] ∧
      d.kept.count Byte.lf = 0 := by
  obtain ⟨d, ⟨htext, hd⟩, -, -, -, hlength⟩ := withoutComments_leftmost
    [utf8 "a/*/*x*/b/* u", utf8 "*/c // d"] (List.cons_ne_nil _ _) true
  have hleft : withoutComments [utf8 "a/*/*x*/b/* u", utf8 "*/c // d"] true = [utf8 "a/*bc"] := by
    decide +kernel
  rw [hleft] at hlength
  exact ⟨d, htext.trans (by decide), hd, hleft, (Nat.succ.inj hlength).symm⟩

end Source

end KernelPack
