import KernelPack.Proofs.Source.Characters
import KernelPack.Proofs.Source.Closing
import KernelPack.Proofs.Text.Trimming

/-!
# What is left of white space

Minifying joins lines, collapses runs of blanks, trims the ends and closes up around punctuation.
What each of these does to white space shows in what it does to the places where **a blank parts the
text** (`PartedAt`), told by the bytes before and after it:

* Collapsing keeps all of them (`partedAt_collapse_iff`), and compaction those without punctuation
  on either side (`partedAt_compact_iff`).
* Both leave the text in **another spacing** (`Respaced`): bytes beside each other were so before,
  unless one of them is punctuation (`Respaced.exists_append`). So the bytes of a white-space
  character do not come together anew, a trimmed text stays trimmed (`Respaced.trimmed`), and
  trimming may be done first (`trim_collapse`).

`minified_spacing` puts this together for whole lines. The other side of it is what compaction
brings together: characters with nothing but spaces between them become one mark
(`mark_infix_compact_iff`).
-/

namespace KernelPack.Source

/-! ### Blanks between bytes -/

/-- **A blank parts the text**: without its blanks the text reads `u` and then `v`, and at least one
blank stands between the two. -/
def PartedAt (p : UInt8 → Bool) (text u v : Bytes) : Prop :=
  ∃ s b t, text = s ++ b :: t ∧ p b = true ∧
    s.filter (!p ·) = u ∧ t.filter (!p ·) = v

section PartedAt

variable {p : UInt8 → Bool} {b : UInt8} {t u v : Bytes}

theorem not_partedAt_nil : ¬ PartedAt p [] u v := by
  rintro ⟨s, b, t, h, -⟩
  simp at h

theorem partedAt_cons_of_blank (hb : p b = true) :
    PartedAt p (b :: t) u v ↔ u = [] ∧ t.filter (!p ·) = v ∨ PartedAt p t u v := by
  constructor
  · rintro ⟨s, c, r, h, hc, rfl, rfl⟩
    cases s with
    | nil =>
      obtain ⟨rfl, rfl⟩ := List.cons.inj h
      exact Or.inl ⟨rfl, rfl⟩
    | cons d s =>
      obtain ⟨rfl, rfl⟩ := List.cons.inj h
      exact Or.inr ⟨s, c, r, rfl, hc, by simp [hb], rfl⟩
  · rintro (⟨rfl, rfl⟩ | ⟨s, c, r, rfl, hc, rfl, rfl⟩)
    · exact ⟨[], b, t, rfl, hb, rfl, rfl⟩
    · exact ⟨b :: s, c, r, rfl, hc, by simp [hb], rfl⟩

theorem partedAt_cons_of_not_blank (hb : p b = false) :
    PartedAt p (b :: t) u v ↔ ∃ w, u = b :: w ∧ PartedAt p t w v := by
  constructor
  · rintro ⟨s, c, r, h, hc, rfl, rfl⟩
    cases s with
    | nil =>
      obtain ⟨rfl, rfl⟩ := List.cons.inj h
      rw [hb] at hc
      cases hc
    | cons d s =>
      obtain ⟨rfl, rfl⟩ := List.cons.inj h
      exact ⟨s.filter (!p ·), by simp [hb], s, c, r, rfl, hc, rfl, rfl⟩
  · rintro ⟨w, rfl, s, c, r, rfl, hc, rfl, rfl⟩
    exact ⟨b :: s, c, r, rfl, hc, by simp [hb], rfl⟩

end PartedAt

/-! ### Collapsing -/

/-- Is the byte the space? -/
def isSpace (b : UInt8) : Bool := b == Byte.space

theorem isSpace_space : isSpace Byte.space = true := rfl

/-- What is no blank is no space. -/
theorem isSpace_of_not_isBlank {b : UInt8} (h : Byte.isBlank b = false) : isSpace b = false :=
  (Bool.or_eq_false_iff.mp h).1

theorem filter_collapse (text : Bytes) :
    (collapse text).filter isInk = text.filter (!Byte.isBlank ·) := by
  induction text with
  | nil => rfl
  | cons b t ih =>
    rw [collapse_cons, consCollapsed, List.filter_cons]
    cases hb : Byte.isBlank b with
    | true =>
      rw [if_pos rfl, ← ih]
      split
      · rfl
      · rw [List.filter_cons]
        rfl
    | false =>
      have hink : isInk b = true := congrArg not (isSpace_of_not_isBlank hb)
      simp [hink, ih]

theorem tab_not_mem_collapse (text : Bytes) : Byte.tab ∉ collapse text := by
  induction text with
  | nil => exact List.not_mem_nil
  | cons b t ih =>
    have hspace : Byte.tab ≠ Byte.space := by decide
    rw [collapse_cons, consCollapsed]
    split
    · split
      · exact ih
      · simp [hspace, ih]
    · rename_i hb
      have hne : Byte.tab ≠ b := fun h => hb (by rw [← h]; rfl)
      simp [hne, ih]

theorem partedAt_collapse_iff {text u v : Bytes} :
    PartedAt isSpace (collapse text) u v ↔ PartedAt Byte.isBlank text u v := by
  induction text generalizing u with
  | nil => exact iff_of_false not_partedAt_nil not_partedAt_nil
  | cons b t ih =>
    rw [collapse_cons, consCollapsed]
    cases hb : Byte.isBlank b with
    | true =>
      rw [if_pos rfl, partedAt_cons_of_blank hb]
      split
      · rename_i hhead
        rw [ih]
        -- the space that stands there already comes from another blank, which parts the same bytes
        refine ⟨Or.inr, fun h => h.elim ?_ id⟩
        rintro ⟨rfl, rfl⟩
        obtain ⟨c, hc, hblank⟩ := (head?_collapse_eq_space_iff t).mp hhead
        obtain ⟨t, rfl⟩ := List.head?_eq_some_iff.mp hc
        exact (partedAt_cons_of_blank hblank).mpr (Or.inl ⟨rfl, by simp [hblank]⟩)
      · rw [partedAt_cons_of_blank isSpace_space, ih]
        have hfilter : (collapse t).filter (!isSpace ·) = t.filter (!Byte.isBlank ·) :=
          filter_collapse t
        rw [hfilter]
    | false =>
      rw [if_neg (by simp), partedAt_cons_of_not_blank (isSpace_of_not_isBlank hb),
        partedAt_cons_of_not_blank hb]
      simp only [ih]

/-! ### Closing up -/

theorem filter_spaces (n : Nat) : (List.replicate n Byte.space).filter isInk = [] :=
  List.filter_eq_nil_iff.mpr fun b hb => by simp [List.eq_of_mem_replicate hb, isInk]

theorem closedFrom_spaces (before : Option UInt8) (n : Nat) :
    closedFrom before 0 (List.replicate n Byte.space) =
      List.replicate (Gap.closed ⟨before, n, none⟩) Byte.space := by
  have hgaps := gapsFrom_replicate_append before 0 n []
  rw [List.append_nil, Nat.zero_add] at hgaps
  rw [closedFrom, hgaps]
  simp [gapsFrom, Gap.text, Gap.resize]

theorem closedFrom_spaces_append (before : Option UInt8) (n : Nat) {b : UInt8}
    (hb : b ≠ Byte.space) (t : Bytes) :
    closedFrom before 0 (List.replicate n Byte.space ++ b :: t) =
      List.replicate (Gap.closed ⟨before, n, some b⟩) Byte.space ++
        b :: closedFrom (some b) 0 t := by
  have hgaps := gapsFrom_replicate_append before 0 n (b :: t)
  rw [Nat.zero_add] at hgaps
  rw [closedFrom, hgaps, ← closedFrom, closedFrom_cons_of_ne hb]

theorem filter_closedFrom (before : Option UInt8) (text : Bytes) :
    (closedFrom before 0 text).filter isInk = text.filter isInk := by
  induction text using gap_induction generalizing before with
  | hend n => rw [closedFrom_spaces, filter_spaces, filter_spaces]
  | hcons n b t hb ih =>
    rw [closedFrom_spaces_append before n hb, List.filter_append, List.filter_append, filter_spaces,
      filter_spaces, List.filter_cons, List.filter_cons, ih]

theorem Gap.closed_pos_iff {g : Gap} :
    0 < g.closed ↔ 0 < g.length ∧ (∀ x ∈ g.before, isPunctuation x = false) ∧
      ∀ y ∈ g.after, isPunctuation y = false := by
  obtain ⟨before, n, after⟩ := g
  have hany : ∀ o : Option UInt8,
      (o.any isPunctuation).toNat = 0 ↔ ∀ x ∈ o, isPunctuation x = false := by
    rintro (_ | x) <;> simp
  rw [← hany, ← hany, Gap.closed, Gap.sides]
  split <;> dsimp only at * <;> omega

theorem partedAt_replicate_iff {n : Nat} {u v : Bytes} :
    PartedAt isSpace (List.replicate n Byte.space) u v ↔ 0 < n ∧ u = [] ∧ v = [] := by
  have hspaces : ∀ k, (List.replicate k Byte.space).filter (!isSpace ·) = [] := filter_spaces
  induction n with
  | zero => exact iff_of_false not_partedAt_nil (by simp)
  | succ n ih =>
    rw [List.replicate_succ, partedAt_cons_of_blank isSpace_space, hspaces]
    constructor
    · rintro (⟨rfl, rfl⟩ | h)
      · exact ⟨Nat.succ_pos n, rfl, rfl⟩
      · exact ⟨Nat.succ_pos n, (ih.mp h).2⟩
    · rintro ⟨-, rfl, rfl⟩
      exact Or.inl ⟨rfl, rfl⟩

theorem partedAt_replicate_append_iff {b : UInt8} (hb : b ≠ Byte.space) {n : Nat} {t u v : Bytes} :
    PartedAt isSpace (List.replicate n Byte.space ++ b :: t) u v ↔
      0 < n ∧ u = [] ∧ b :: t.filter isInk = v ∨ ∃ w, u = b :: w ∧ PartedAt isSpace t w v := by
  have hb' : isSpace b = false := beq_eq_false_iff_ne.mpr hb
  have hfilter : ∀ k, (List.replicate k Byte.space ++ b :: t).filter (!isSpace ·) =
      b :: t.filter isInk := by
    intro k
    have hspaces : (List.replicate k Byte.space).filter (!isSpace ·) = [] := filter_spaces k
    rw [List.filter_append, hspaces, List.nil_append, List.filter_cons_of_pos (by simp [hb'])]
    rfl
  induction n with
  | zero =>
    rw [List.replicate_zero, List.nil_append, partedAt_cons_of_not_blank hb']
    simp
  | succ n ih =>
    rw [List.replicate_succ, List.cons_append, partedAt_cons_of_blank isSpace_space, hfilter]
    constructor
    · rintro (h | h)
      · exact Or.inl ⟨Nat.succ_pos n, h⟩
      · exact (ih.mp h).imp_left fun h => ⟨Nat.succ_pos n, h.2⟩
    · rintro (h | h)
      · exact Or.inl h.2
      · exact Or.inr (ih.mpr (Or.inr h))

theorem partedAt_closedFrom_iff {text u v : Bytes} (before : Option UInt8) :
    PartedAt isSpace (closedFrom before 0 text) u v ↔ PartedAt isSpace text u v ∧
      (∀ x ∈ u.getLast?.or before, isPunctuation x = false) ∧
      ∀ y ∈ v.head?, isPunctuation y = false := by
  induction text using gap_induction generalizing before u with
  | hend n =>
    rw [closedFrom_spaces, partedAt_replicate_iff, partedAt_replicate_iff, Gap.closed_pos_iff]
    constructor
    · rintro ⟨⟨hn, hbefore, -⟩, rfl, rfl⟩
      exact ⟨⟨hn, rfl, rfl⟩, hbefore, nofun⟩
    · rintro ⟨⟨hn, rfl, rfl⟩, hbefore, -⟩
      exact ⟨⟨hn, hbefore, nofun⟩, rfl, rfl⟩
  | hcons n b t hb ih =>
    rw [closedFrom_spaces_append before n hb, partedAt_replicate_append_iff hb,
      partedAt_replicate_append_iff hb, Gap.closed_pos_iff, filter_closedFrom]
    constructor
    · rintro (⟨⟨hn, hbefore, hafter⟩, rfl, rfl⟩ | ⟨w, rfl, hw⟩)
      · exact ⟨Or.inl ⟨hn, rfl, rfl⟩, hbefore, hafter⟩
      · obtain ⟨hparted, hu, hv⟩ := (ih (some b)).mp hw
        refine ⟨Or.inr ⟨w, rfl, hparted⟩, ?_, hv⟩
        rw [List.getLast?_cons]
        cases hw : w.getLast? <;> simp_all
    · rintro ⟨⟨hn, rfl, rfl⟩ | ⟨w, rfl, hw⟩, hu, hv⟩
      · exact Or.inl ⟨⟨hn, hu, hv⟩, rfl, rfl⟩
      · refine Or.inr ⟨w, rfl, (ih (some b)).mpr ⟨hw, ?_, hv⟩⟩
        rw [List.getLast?_cons] at hu
        cases hw : w.getLast? <;> simp_all

/-- No space parts a text inside a stretch that holds none. -/
theorem not_partedAt_inside {s p q t : Bytes} (hp : p ≠ []) (hq : q ≠ [])
    (hspace : ∀ x ∈ p ++ q, isSpace x = false) :
    ¬ PartedAt isSpace (s ++ (p ++ q) ++ t) (s.filter isInk ++ p) (q ++ t.filter isInk) := by
  rintro ⟨s', b, t', htext, hb, hs', -⟩
  have hink : (p ++ q).filter isInk = p ++ q := List.filter_eq_self.mpr fun x hx => by
    simpa [isInk, isSpace] using hspace x hx
  have hp := List.length_pos_iff.mpr hp
  have hq := List.length_pos_iff.mpr hq
  have hlength := congrArg List.length hs'
  rw [List.append_assoc] at htext
  rcases List.append_eq_append_iff.mp htext with ⟨w, rfl, hw⟩ | ⟨w, rfl, hw⟩
  · -- the space is after `s`, and not in the stretch, so the whole stretch is before it
    have hafter : p ++ q <+: w := by
      rcases List.append_eq_append_iff.mp hw with ⟨w', rfl, -⟩ | ⟨w', hpq, hw'⟩
      · exact List.prefix_append _ w'
      · cases w' with
        | nil =>
          exact ⟨[], by rw [List.append_nil, hpq, List.append_nil]⟩
        | cons c w' =>
          obtain ⟨rfl, -⟩ := List.cons.inj hw'
          rw [hspace b (by rw [hpq]; simp)] at hb
          cases hb
    obtain ⟨w', rfl⟩ := hafter
    have hlength : (s.filter isInk ++ ((p ++ q).filter isInk ++ w'.filter isInk)).length =
        (s.filter isInk ++ p).length := by
      rw [← List.filter_append, ← List.filter_append]
      exact hlength
    rw [hink] at hlength
    simp only [List.length_append] at hlength
    omega
  · have hlength : (s'.filter isInk).length = ((s' ++ w).filter isInk ++ p).length := hlength
    simp only [List.filter_append, List.length_append] at hlength
    omega

/-! ### Other spacing of a text -/

/-- **The text in another spacing**: the same bytes, blanks aside, with a space only where the text
has a blank, and with one wherever it has a blank between bytes that are no punctuation. -/
structure Respaced (text out : Bytes) : Prop where
  filter_eq : out.filter isInk = text.filter (!Byte.isBlank ·)
  tab_not_mem : Byte.tab ∉ out
  partedAt : ∀ {u v}, PartedAt isSpace out u v → PartedAt Byte.isBlank text u v
  kept : ∀ {u v}, PartedAt Byte.isBlank text u v → (∀ x ∈ u.getLast?, isPunctuation x = false) →
    (∀ y ∈ v.head?, isPunctuation y = false) → PartedAt isSpace out u v

theorem respaced_collapse (text : Bytes) : Respaced text (collapse text) where
  filter_eq := filter_collapse text
  tab_not_mem := tab_not_mem_collapse text
  partedAt := partedAt_collapse_iff.mp
  kept h _ _ := partedAt_collapse_iff.mpr h

theorem partedAt_compact_iff {text u v : Bytes} :
    PartedAt isSpace (compact text).1 u v ↔ PartedAt isSpace text u v ∧
      (∀ x ∈ u.getLast?, isPunctuation x = false) ∧ ∀ y ∈ v.head?, isPunctuation y = false := by
  have h := @partedAt_closedFrom_iff text u v none
  rwa [Option.or_none, ← show (compact text).1 = closedFrom none 0 text from compact_eq_ofGaps text]
    at h

theorem respaced_compact (text : Bytes) : Respaced text (compact (collapse text)).1 where
  filter_eq := (filter_compact _).trans (filter_collapse text)
  tab_not_mem h := tab_not_mem_collapse text ((compact_sublist _).subset h)
  partedAt h := partedAt_collapse_iff.mp (partedAt_compact_iff.mp h).1
  kept h hu hv := partedAt_compact_iff.mpr ⟨partedAt_collapse_iff.mpr h, hu, hv⟩

/-- Between bytes side by side there was no blank: one would have left a space there. -/
theorem Respaced.isBlank_next {text out : Bytes} (h : Respaced text out) {s p q t : Bytes}
    {y : UInt8} (hout : out = s ++ (p ++ y :: q) ++ t) (hp : p ≠ [])
    (hplain : ∀ x ∈ p ++ y :: q, Byte.isBlank x = false ∧ isPunctuation x = false) {a r : Bytes}
    {b : UInt8} (htext : text = a ++ p ++ b :: r)
    (ha : a.filter (!Byte.isBlank ·) = s.filter isInk)
    (hrest : (b :: r).filter (!Byte.isBlank ·) = y :: q ++ t.filter isInk) :
    Byte.isBlank b = false := by
  refine Bool.eq_false_iff.mpr fun hb => ?_
  have hpink : p.filter (!Byte.isBlank ·) = p := List.filter_eq_self.mpr fun x hx => by
    rw [(hplain x (List.mem_append_left _ hx)).1, Bool.not_false]
  have hparted : PartedAt Byte.isBlank text (s.filter isInk ++ p) (y :: q ++ t.filter isInk) := by
    refine ⟨a ++ p, b, r, htext, hb, ?_, ?_⟩
    · rw [List.filter_append, ha, hpink]
    · rw [← hrest, List.filter_cons_of_neg (by simp [hb])]
  have hspace : PartedAt isSpace out (s.filter isInk ++ p) (y :: q ++ t.filter isInk) := by
    refine h.kept hparted (fun x hx => ?_) fun x hx => ?_
    · rw [List.getLast?_append, List.getLast?_eq_some_getLast hp, Option.some_or] at hx
      obtain rfl := Option.some.inj hx
      exact (hplain _ (List.mem_append_left _ (List.getLast_mem hp))).2
    · obtain rfl := Option.some.inj hx
      exact (hplain _ (List.mem_append_right _ List.mem_cons_self)).2
  rw [hout] at hspace
  exact not_partedAt_inside hp (List.cons_ne_nil y q)
    (fun x hx => isSpace_of_not_isBlank (hplain x hx).1) hspace

/-- After the first bytes of a stretch, its other bytes follow one by one. -/
theorem Respaced.exists_rest {text out : Bytes} (h : Respaced text out) {s p q t : Bytes}
    (hout : out = s ++ (p ++ q) ++ t) (hp : p ≠ [])
    (hplain : ∀ x ∈ p ++ q, Byte.isBlank x = false ∧ isPunctuation x = false) {a r : Bytes}
    (htext : text = a ++ p ++ r) (ha : a.filter (!Byte.isBlank ·) = s.filter isInk)
    (hrest : r.filter (!Byte.isBlank ·) = q ++ t.filter isInk) :
    ∃ t', r = q ++ t' ∧ t'.filter (!Byte.isBlank ·) = t.filter isInk := by
  induction q generalizing p r with
  | nil => exact ⟨r, rfl, hrest⟩
  | cons y q ih =>
    obtain ⟨bs, r, rfl, hbs, -, hq⟩ := List.filter_eq_cons_iff.mp hrest
    cases bs with
    | nil =>
      rw [List.append_cons] at hout hplain
      have hnext : text = a ++ (p ++ [y]) ++ r := by simp [htext]
      obtain ⟨t', rfl, ht⟩ := ih hout (List.append_ne_nil_of_left_ne_nil hp [y]) hplain hnext hq
      exact ⟨t', rfl, ht⟩
    | cons b bs =>
      have hb := h.isBlank_next hout hp hplain htext ha hrest
      exact absurd (hbs b List.mem_cons_self) (by simp [hb])

/-- **Bytes side by side were so before**, blanks and punctuation apart. -/
theorem Respaced.exists_append {text out : Bytes} (h : Respaced text out) {s e t : Bytes}
    (hout : out = s ++ e ++ t) (hne : e ≠ [])
    (hplain : ∀ x ∈ e, Byte.isBlank x = false ∧ isPunctuation x = false) :
    ∃ s' t', text = s' ++ e ++ t' ∧ s'.filter (!Byte.isBlank ·) = s.filter isInk ∧
      t'.filter (!Byte.isBlank ·) = t.filter isInk := by
  obtain ⟨x, q, rfl⟩ := List.exists_cons_of_ne_nil hne
  have hink : (x :: q).filter isInk = x :: q := List.filter_eq_self.mpr fun y hy =>
    congrArg not (isSpace_of_not_isBlank (hplain y hy).1)
  have htext : text.filter (!Byte.isBlank ·) = s.filter isInk ++ (x :: q ++ t.filter isInk) := by
    rw [← h.filter_eq, hout, List.append_assoc, List.filter_append, List.filter_append, hink]
  obtain ⟨a, r, rfl, ha, hrest⟩ := List.filter_eq_append_iff.mp htext
  obtain ⟨bs, r, rfl, hbs, -, hrest⟩ := List.filter_eq_cons_iff.mp hrest
  have ha : (a ++ bs).filter (!Byte.isBlank ·) = s.filter isInk := by
    rw [List.filter_append, ha, List.filter_eq_nil_iff.mpr hbs, List.append_nil]
  obtain ⟨t', rfl, ht⟩ :=
    h.exists_rest (p := [x]) hout (List.cons_ne_nil x []) hplain (by simp) ha hrest
  exact ⟨a ++ bs, t', by simp, ha, ht⟩

/-- A blank is a white-space character. -/
theorem exists_char_of_isBlank {x : UInt8} (hx : Byte.isBlank x = true) :
    ∃ c, Text.isBlank c = true ∧ String.utf8EncodeChar c = [x] := by
  rw [Byte.isBlank, Bool.or_eq_true, beq_iff_eq, beq_iff_eq] at hx
  obtain rfl | rfl := hx
  · exact ⟨' ', rfl, isAscii_space.utf8EncodeChar_eq⟩
  · exact ⟨'\t', rfl, isAscii_tab.utf8EncodeChar_eq⟩

/-- White space is no punctuation. -/
theorem isPunctuation_of_isBlank {c : Char} (hc : Text.isBlank c = true) :
    Lexis.Spaced.isPunctuation c = false := by
  refine Bool.eq_false_iff.mpr fun hmark => ?_
  have hnone : ("\x7b\x7d[](),;+-*/%=><".toList.all fun d => !Text.isBlank d) = true := by decide
  have hblank := List.all_eq_true.mp hnone c (List.contains_iff_mem.mp hmark)
  rw [hc] at hblank
  cases hblank

/-- **White space was there before**: where a respaced text has some, the text had some. -/
theorem Respaced.exists_isBlank {text out : Bytes} (h : Respaced text out) {c : Char}
    (hc : Text.isBlank c = true) {s t : Bytes} (hout : out = s ++ String.utf8EncodeChar c ++ t) :
    ∃ d s' t', Text.isBlank d = true ∧ text = s' ++ String.utf8EncodeChar d ++ t' ∧
      s'.filter (!Byte.isBlank ·) = s.filter isInk ∧
      t'.filter (!Byte.isBlank ·) = t.filter isInk := by
  by_cases hspace : c = ' '
  · rw [hspace, isAscii_space.utf8EncodeChar_eq, List.append_assoc, List.singleton_append] at hout
    obtain ⟨s', x, t', htext, hx, hs, ht⟩ := h.partedAt ⟨s, Byte.space, t, hout, rfl, rfl, rfl⟩
    obtain ⟨d, hd, hencode⟩ := exists_char_of_isBlank hx
    exact ⟨d, s', t', hd, by simp [htext, hencode], hs, ht⟩
  · -- the bytes of any other character are neither blanks nor punctuation
    have htab : c ≠ '\t' := by
      rintro rfl
      refine h.tab_not_mem ?_
      rw [hout, isAscii_tab.utf8EncodeChar_eq]
      simp
    obtain ⟨s', t', htext, hs, ht⟩ := h.exists_append hout String.utf8EncodeChar_ne_nil
      fun x hx => ⟨Bool.eq_false_iff.mpr fun hb => (isBlank_utf8EncodeChar hx hb).elim hspace htab,
        (isPunctuation_utf8EncodeChar hx).trans (isPunctuation_of_isBlank hc)⟩
    exact ⟨c, s', t', hc, htext, hs, ht⟩

/-- A trimmed text neither begins nor ends with a blank. -/
theorem isBlank_of_trimmed {text : Bytes} (h : text.Trimmed) :
    (∀ x ∈ text.head?, Byte.isBlank x = false) ∧ ∀ x ∈ text.getLast?, Byte.isBlank x = false := by
  refine ⟨fun x hx => Bool.eq_false_iff.mpr fun hb => ?_,
    fun x hx => Bool.eq_false_iff.mpr fun hb => ?_⟩
  · obtain ⟨c, hc, hencode⟩ := exists_char_of_isBlank hb
    obtain ⟨t, rfl⟩ := List.head?_eq_some_iff.mp hx
    exact (Bytes.trimmed_iff.mp h c hc).1 ⟨t, by rw [hencode]; rfl⟩
  · obtain ⟨c, hc, hencode⟩ := exists_char_of_isBlank hb
    obtain ⟨s, rfl⟩ := List.getLast?_eq_some_iff.mp hx
    exact (Bytes.trimmed_iff.mp h c hc).2 ⟨s, by rw [hencode]⟩

/-- **A trimmed text stays trimmed in another spacing.** -/
theorem Respaced.trimmed {text out : Bytes} (h : Respaced text out) (htext : text.Trimmed) :
    out.Trimmed := by
  obtain ⟨hhead, hlast⟩ := isBlank_of_trimmed htext
  refine Bytes.trimmed_iff.mpr fun c hc => ⟨?_, ?_⟩
  · rintro ⟨t, hout⟩
    obtain ⟨d, s', t', hd, hsplit, hs, -⟩ := h.exists_isBlank hc (s := []) hout.symm
    cases s' with
    | nil => exact (Bytes.trimmed_iff.mp htext d hd).1 ⟨t', hsplit.symm⟩
    | cons x s' =>
      have hx := List.filter_eq_nil_iff.mp hs x List.mem_cons_self
      rw [hhead x (by rw [hsplit]; rfl)] at hx
      exact hx rfl
  · rintro ⟨s, hout⟩
    obtain ⟨d, s', t', hd, hsplit, -, ht⟩ :=
      h.exists_isBlank hc (t := []) (by rw [hout, List.append_nil])
    rcases List.eq_nil_or_concat t' with rfl | ⟨t', x, rfl⟩
    · exact (Bytes.trimmed_iff.mp htext d hd).2 ⟨s', by rw [hsplit, List.append_nil]⟩
    · have hx := List.filter_eq_nil_iff.mp ht x (by simp)
      rw [hlast x (by rw [hsplit]; simp)] at hx
      exact hx rfl

/-! ### Normalizing -/

/-- A character is a blank, or none of its bytes is. -/
theorem isBlank_cases (c : Char) : (∃ x, Byte.isBlank x = true ∧ String.utf8EncodeChar c = [x]) ∨
    ∀ x ∈ String.utf8EncodeChar c, Byte.isBlank x = false := by
  by_cases h : c = ' ' ∨ c = '\t'
  · obtain rfl | rfl := h
    · exact Or.inl ⟨Byte.space, rfl, isAscii_space.utf8EncodeChar_eq⟩
    · exact Or.inl ⟨Byte.tab, rfl, isAscii_tab.utf8EncodeChar_eq⟩
  · exact Or.inr fun x hx => Bool.eq_false_iff.mpr fun hb => h (isBlank_utf8EncodeChar hx hb)

theorem collapse_append_of_not_blank_right (s : Bytes) {e : Bytes}
    (he : ∀ x ∈ e, Byte.isBlank x = false) : collapse (s ++ e) = collapse s ++ e := by
  induction s with
  | nil => simpa [collapse_nil] using collapse_append_of_not_blank he []
  | cons b s ih =>
    have hhead : (collapse s ++ e).head? = some Byte.space ↔
        (collapse s).head? = some Byte.space := by
      cases collapse s with
      | cons c t => exact Iff.rfl
      | nil => exact iff_of_false (fun h => nomatch he _ (List.mem_of_mem_head? h)) nofun
    rw [List.cons_append, collapse_cons, collapse_cons, ih, consCollapsed, consCollapsed]
    by_cases hb : Byte.isBlank b = true
    · by_cases h : (collapse s).head? = some Byte.space
      · rw [if_pos hb, if_pos hb, if_pos (hhead.mpr h), if_pos h]
      · rw [if_pos hb, if_pos hb, if_neg (mt hhead.mp h), if_neg h, List.cons_append]
    · rw [if_neg hb, if_neg hb, List.cons_append]

/-- **Trimming and collapsing do not get into each other's way.** -/
theorem trim_collapse (text : Bytes) : Bytes.trim (collapse text) = collapse (Bytes.trim text) := by
  have hspace : Byte.isBlank Byte.space = true := rfl
  induction text using Bytes.trim_induction with
  | htrimmed b hb => rw [hb.trim_eq, ((respaced_collapse b).trimmed hb).trim_eq]
  | hfront c t hc ih =>
    rw [Bytes.trim_utf8EncodeChar_append hc, ← ih]
    obtain ⟨x, hx, hencode⟩ | hencode := isBlank_cases c
    · rw [hencode, List.singleton_append, collapse_cons, consCollapsed_of_blank hx hspace,
        ← collapse_cons, trim_collapse_cons_space]
    · rw [collapse_append_of_not_blank hencode, Bytes.trim_utf8EncodeChar_append hc]
  | hback c s hc ih =>
    rw [Bytes.trim_append_utf8EncodeChar hc, ← ih]
    obtain ⟨x, hx, hencode⟩ | hencode := isBlank_cases c
    · have hone : collapse [x] = collapse [Byte.space] := by
        rw [collapse_cons, consCollapsed_of_blank hx hspace, ← collapse_cons]
      rw [hencode, collapse_append_congr rfl hone, trim_collapse_append_space]
    · rw [collapse_append_of_not_blank_right s hencode, Bytes.trim_append_utf8EncodeChar hc]

theorem normalize_eq_collapse (lines : List Bytes) :
    normalize lines = collapse (Bytes.trim (Bytes.joinWith [Byte.space] lines)) := by
  rw [normalize_eq, trim_collapse]

/-! ### Minified lines -/

/-- Gaps of at most one space each leave no two spaces beside each other. -/
theorem single_of_length_le {text : Bytes} (h : ∀ g ∈ gaps text, g.length ≤ 1) : Single text := by
  suffices hfrom : ∀ before, (∀ g ∈ gapsFrom before 0 text, g.length ≤ 1) → Single text from
    hfrom none h
  clear h
  induction text using gap_induction with
  | hend n =>
    intro before h
    have hgaps := gapsFrom_replicate_append before 0 n []
    rw [List.append_nil, Nat.zero_add] at hgaps
    have hn : n ≤ 1 := h ⟨before, n, none⟩ (by rw [hgaps]; exact List.mem_singleton_self _)
    refine fun hpair => absurd hpair.length_le ?_
    simp only [List.length_replicate, List.length_cons, List.length_nil]
    omega
  | hcons n b t hb ih =>
    intro before h
    rw [gapsFrom_replicate_append, Nat.zero_add, gapsFrom_cons_of_ne hb, List.forall_mem_cons] at h
    have hrest : Single (b :: t) := single_cons_iff.mpr ⟨fun hpair => hb hpair.1, ih (some b) h.2⟩
    obtain rfl | rfl : n = 0 ∨ n = 1 := by have := h.1; dsimp only at this; omega
    · exact hrest
    · exact single_cons_iff.mpr ⟨fun hpair => hb (Option.some.inj hpair.2), hrest⟩

/-- Compaction leaves no two spaces beside each other where there were none. -/
theorem single_compact {text : Bytes} (h : Single text) : Single (compact text).1 := by
  refine single_of_length_le ?_
  rw [compact_eq_ofGaps, gaps_ofGaps_resize, List.forall_mem_map]
  intro g hg
  refine Nat.le_trans ?_ (h.length_le_one hg)
  rw [Gap.length_resize, Gap.closed]
  split <;> omega

theorem collapse_eq_self {text : Bytes} (htab : Byte.tab ∉ text) (h : Single text) :
    collapse text = text := by
  induction text with
  | nil => rfl
  | cons b t ih =>
    obtain ⟨hb, htab⟩ := not_or.mp (mt List.mem_cons.mpr htab)
    obtain ⟨hpair, h⟩ := single_cons_iff.mp h
    rw [collapse_cons, ih htab h, consCollapsed]
    split
    · rename_i hblank
      have hspace : b = Byte.space := by
        rw [Byte.isBlank, Bool.or_eq_true, beq_iff_eq, beq_iff_eq] at hblank
        exact hblank.resolve_right (Ne.symm hb)
      rw [if_neg fun hhead => hpair ⟨hspace, hhead⟩, hspace]
    · rfl

/-- In a trimmed text there are bytes on both sides of a blank. -/
theorem ne_nil_of_partedAt {text u v : Bytes} (htext : text.Trimmed)
    (h : PartedAt Byte.isBlank text u v) : u ≠ [] ∧ v ≠ [] := by
  obtain ⟨hhead, hlast⟩ := isBlank_of_trimmed htext
  obtain ⟨s, b, t, rfl, hb, rfl, rfl⟩ := h
  constructor
  · intro hnil
    cases s with
    | nil => exact absurd hb (Bool.eq_false_iff.mp (hhead b rfl))
    | cons x s => exact List.filter_eq_nil_iff.mp hnil x List.mem_cons_self (by simp [hhead x rfl])
  · intro hnil
    rcases List.eq_nil_or_concat t with rfl | ⟨t, x, rfl⟩
    · exact absurd hb (Bool.eq_false_iff.mp (hlast b (by simp)))
    · rw [List.concat_eq_append, ← List.cons_append, ← List.append_assoc] at hlast
      have hx := hlast x List.getLast?_concat
      exact List.filter_eq_nil_iff.mp hnil x (by simp) (by simp [hx])

/-- **White space goes, and words stay apart.** Let `text` be the lines joined by spaces, so that a
line break counts as a blank, without the white space at its ends. The minified lines are `text` but
for its blanks; of these there is a space left, and only one, exactly between two bytes that are no
punctuation. Minifying once more changes nothing. -/
theorem minified_spacing (lines : List Bytes) :
    let text := Bytes.trim (Bytes.joinWith [Byte.space] lines)
    let out := (compact (normalize lines)).1
    out.filter isInk = text.filter (!Byte.isBlank ·) ∧
    Byte.tab ∉ out ∧ Single out ∧ out.Trimmed ∧
    (∀ u v, PartedAt isSpace out u v ↔ PartedAt Byte.isBlank text u v ∧
      (∃ x ∈ u.getLast?, isPunctuation x = false) ∧ ∃ y ∈ v.head?, isPunctuation y = false) ∧
    compact (normalize [out]) = (out, 1) := by
  intro text out
  have htext : text.Trimmed := Bytes.trimmed_trim _
  have hout : out = (compact (collapse text)).1 := by
    rw [← normalize_eq_collapse]
  have hrespaced : Respaced text out := hout ▸ respaced_compact text
  have hsingle : Single out := single_compact (single_normalize lines)
  have htrimmed : out.Trimmed := hrespaced.trimmed htext
  refine ⟨hrespaced.filter_eq, hrespaced.tab_not_mem, hsingle, htrimmed, fun u v => ?_, ?_⟩
  · rw [hout, partedAt_compact_iff, partedAt_collapse_iff]
    refine and_congr_right fun hparted => ?_
    obtain ⟨hu, hv⟩ := ne_nil_of_partedAt htext hparted
    rw [List.getLast?_eq_some_getLast hu, List.head?_eq_some_head hv]
    simp
  · have hnormal : normalize [out] = out := by
      rw [normalize_eq, show Bytes.joinWith [Byte.space] [out] = out by simp [Bytes.joinWith],
        collapse_eq_self hrespaced.tab_not_mem hsingle, htrimmed.trim_eq]
    rw [hnormal, compact, dif_pos (pass_compact _)]

/-! ### Characters that meet -/

/-- Two bytes with nothing but spaces between them enclose a gap. -/
theorem mem_gaps_some_iff {a b : UInt8} (ha : a ≠ Byte.space) (hb : b ≠ Byte.space) {n : Nat}
    {text : Bytes} : ⟨some a, n, some b⟩ ∈ gaps text ↔
      [a] ++ List.replicate n Byte.space ++ [b] <:+: text := by
  rw [mem_gaps_iff]
  constructor
  · rintro ⟨s, t, rfl, hs, ht, -⟩
    obtain ⟨s, rfl⟩ := List.getLast?_eq_some_iff.mp hs
    obtain ⟨t, rfl⟩ := List.head?_eq_some_iff.mp ht
    exact ⟨s, t, by simp⟩
  · rintro ⟨s, t, rfl⟩
    exact ⟨s ++ [a], b :: t, by simp, by simp, rfl, fun h => ha (Option.some.inj h),
      fun h => hb (Option.some.inj h)⟩

/-- **Bytes meet around punctuation** in a compacted text exactly if they stood side by side, or
with nothing but spaces between them. -/
theorem pair_infix_compact_iff {a b : UInt8} (ha : a ≠ Byte.space) (hb : b ≠ Byte.space)
    (hmark : isPunctuation a = true ∨ isPunctuation b = true) (text : Bytes) :
    [a, b] <:+: (compact text).1 ↔
      ∃ n, [a] ++ List.replicate n Byte.space ++ [b] <:+: text := by
  have hclosed : ∀ n, Gap.closed ⟨some a, n, some b⟩ = 0 := by
    intro n
    refine Nat.eq_zero_of_not_pos fun hpos => ?_
    obtain ⟨-, hbefore, hafter⟩ := Gap.closed_pos_iff.mp hpos
    rw [hbefore a rfl, hafter b rfl] at hmark
    simp at hmark
  calc [a, b] <:+: (compact text).1
      ↔ (⟨some a, 0, some b⟩ : Gap) ∈ gaps (compact text).1 :=
        (mem_gaps_some_iff ha hb (n := 0)).symm
    _ ↔ ∃ g ∈ gaps text, g.resize Gap.closed = ⟨some a, 0, some b⟩ := by
        rw [compact_eq_ofGaps, gaps_ofGaps_resize, List.mem_map]
    _ ↔ ∃ n, ⟨some a, n, some b⟩ ∈ gaps text := by
        constructor
        · rintro ⟨⟨before, n, after⟩, hg, heq⟩
          obtain ⟨rfl, -, rfl⟩ := Gap.mk.inj heq
          exact ⟨n, hg⟩
        · rintro ⟨n, hg⟩
          exact ⟨_, hg, by rw [Gap.resize, hclosed]⟩
    _ ↔ ∃ n, [a] ++ List.replicate n Byte.space ++ [b] <:+: text :=
        exists_congr fun n => mem_gaps_some_iff ha hb

/-- The operators and comment marks that consist of two punctuation characters. -/
def doubleMarks : List Bytes :=
  [utf8 "++", utf8 "--", utf8 "+=", utf8 "-=", utf8 "*=", utf8 "/=", utf8 "%=", utf8 "==",
    utf8 "<=", utf8 ">=", utf8 "<<", utf8 ">>", utf8 "->", utf8 "/*", utf8 "*/", utf8 "//"]

/-- The two characters of a mark with `n` spaces between them. -/
def spread (n : Nat) (mark : Bytes) : Bytes :=
  mark.take 1 ++ List.replicate n Byte.space ++ mark.drop 1

/-- **The marks of a compacted text** are those that the text has when the spaces inside them do not
count. So a new one comes up wherever nothing but spaces parts its two characters, and nowhere
else. -/
theorem mark_infix_compact_iff {mark : Bytes} (hmark : mark ∈ doubleMarks) (text : Bytes) :
    mark <:+: (compact text).1 ↔ ∃ n, spread n mark <:+: text := by
  have hpairs : (doubleMarks.all fun m => m.length == 2 && m.all isPunctuation) = true := by decide
  obtain ⟨hlength, hall⟩ := Bool.and_eq_true_iff.mp (List.all_eq_true.mp hpairs mark hmark)
  obtain ⟨a, b, rfl⟩ : ∃ a b, mark = [a, b] := by
    match mark, hlength with
    | [a, b], _ => exact ⟨a, b, rfl⟩
  have hspace : ∀ x ∈ [a, b], x ≠ Byte.space := by
    rintro x hx rfl
    exact absurd (List.all_eq_true.mp hall _ hx) (by decide)
  exact pair_infix_compact_iff (hspace a (by simp)) (hspace b (by simp))
    (Or.inl (List.all_eq_true.mp hall a (by simp))) text

/-- A division by what a pointer points to becomes the beginning of a comment. -/
theorem mark_infix_compact_division :
    utf8 "/*" ∈ doubleMarks ∧ (∀ mark ∈ doubleMarks, ¬ mark <:+: utf8 "a / *p") ∧
      utf8 "/*" <:+: (compact (utf8 "a / *p")).1 := by
  have hmark : utf8 "/*" ∈ doubleMarks := by decide
  refine ⟨hmark, by decide +kernel, (mark_infix_compact_iff hmark _).mpr ?_⟩
  exact ⟨1, utf8 "a ", utf8 "p", by decide⟩

end KernelPack.Source
