import KernelPack.Proofs.Source.Comments

/-!
# Comments that are kept

A comment with a slash between its marks is no block comment here and stays. Whether it comes
through in one piece is another matter, since line comments are looked for afterwards and in all of
the text: two slashes inside the comment, as in an address, cut off its end and **leave it open**. A
block comment that begins inside it takes the closing mark with it.

`closed_withoutComments` says when nothing of the kind happens. In an **orderly** text (`Orderly`)
the comments and what follows them do no harm to each other; if every opening mark of it is followed
by a closing mark (`Closed`), it is so in the lines that are left, and the comments with a slash are
left in place. Both conditions can be checked by evaluation.

The two stages are followed one after the other: removing block comments leaves a text whose
comments hold no two slashes (`Sound`, `sound_dropComments`), and removing line comments from such a
text leaves none open (`Sound.closed_dropComments`).
-/

namespace KernelPack

namespace Source

/-! ### Comments with any text inside -/

/-- The comment with the text `v` between its marks. -/
def comment (v : Bytes) : Bytes := [Byte.slash, Byte.star] ++ v ++ [Byte.star, Byte.slash]

theorem comment_append (v t : Bytes) :
    comment v ++ t = [Byte.slash, Byte.star] ++ (v ++ [Byte.star, Byte.slash] ++ t) := by
  simp [comment]

/-- **What a comment may hold**: no closing mark, so that the comment ends at the first one. -/
def IsBody (v : Bytes) : Prop := ¬ [Byte.star, Byte.slash] <:+: v

theorem isBody_of_not_mem {v : Bytes} (h : Byte.slash ∉ v) : IsBody v :=
  fun hclose => h (hclose.subset (by simp))

/-- **Every opening mark is followed by a closing mark.** -/
def Closed (text : Bytes) : Prop :=
  ∀ t, [Byte.slash, Byte.star] ++ t <:+ text → [Byte.star, Byte.slash] <:+: t

theorem closed_nil : Closed [] := fun _ ht => absurd (List.suffix_nil.mp ht) (by simp)

theorem Closed.suffix {s text : Bytes} (h : Closed text) (hs : s <:+ text) : Closed s :=
  fun t ht => h t (ht.trans hs)

/-- The text of a comment and the text after it **do no harm** to each other: no comment begins with
the last slash of this one, and if it is kept, for a slash in it, it holds no two slashes and no
block comment ends with it. -/
def Harmless (v t : Bytes) : Prop :=
  t.head? ≠ some Byte.star ∧ (Byte.slash ∈ v → t.head? ≠ some Byte.slash ∧
    ¬ [Byte.slash, Byte.slash] <:+: v ∧
    ∀ w, [Byte.slash, Byte.star] ++ w <:+ v → Byte.slash ∈ w)

/-- The comments of the text, and what follows them, do no harm to each other. -/
def Orderly (text : Bytes) : Prop :=
  ∀ v t, comment v ++ t <:+ text → IsBody v → Harmless v t

theorem Orderly.suffix {s text : Bytes} (h : Orderly text) (hs : s <:+ text) : Orderly s :=
  fun v t ht => h v t (ht.trans hs)

/-! ### Finding the end of a comment -/

/-- The text up to the first closing mark, and the text after it. -/
def firstClose? : Bytes → Option (Bytes × Bytes)
  | [] => none
  | b :: t =>
    if [Byte.star, Byte.slash] <+: b :: t then some ([], t.drop 1)
    else (firstClose? t).map fun p => (b :: p.1, p.2)

theorem firstClose?_eq_some_iff {s v t : Bytes} :
    firstClose? s = some (v, t) ↔ s = v ++ [Byte.star, Byte.slash] ++ t ∧ IsBody v := by
  induction s generalizing v with
  | nil => simp [firstClose?]
  | cons b s ih =>
    rw [firstClose?]
    split
    · rename_i hmark
      obtain ⟨r, hr⟩ := hmark
      obtain ⟨rfl, rfl⟩ := List.cons.inj hr
      constructor
      · intro h
        obtain ⟨rfl, rfl⟩ := Prod.mk.inj (Option.some.inj h)
        exact ⟨rfl, by simp [IsBody]⟩
      · rintro ⟨htext, hbody⟩
        match v with
        | [] =>
          obtain ⟨-, htext⟩ := List.cons.inj htext
          obtain ⟨-, rfl⟩ := List.cons.inj htext
          rfl
        | [x] => simp [Byte.star, Byte.slash] at htext
        | x :: y :: v =>
          simp only [List.cons_append, List.cons.injEq] at htext
          obtain ⟨rfl, rfl, -⟩ := htext
          exact absurd (List.prefix_append [Byte.star, Byte.slash] v).isInfix hbody
    · rename_i hmark
      constructor
      · intro h
        obtain ⟨⟨v, t⟩, hp, hv⟩ := Option.map_eq_some_iff.mp h
        obtain ⟨rfl, rfl⟩ := Prod.mk.inj hv
        obtain ⟨rfl, hbody⟩ := ih.mp hp
        refine ⟨rfl, fun hclose => ?_⟩
        obtain hpre | hclose := List.infix_cons_iff.mp hclose
        · exact hmark (hpre.trans (by simp))
        · exact hbody hclose
      · rintro ⟨htext, hbody⟩
        cases v with
        | nil => exact absurd ⟨t, htext.symm⟩ hmark
        | cons x v =>
          obtain ⟨rfl, rfl⟩ := List.cons.inj htext
          rw [ih.mpr ⟨rfl, fun h => hbody (List.infix_cons h)⟩]
          rfl

theorem firstClose?_isSome_iff {s : Bytes} :
    (firstClose? s).isSome ↔ [Byte.star, Byte.slash] <:+: s := by
  induction s with
  | nil => simp [firstClose?]
  | cons b s ih =>
    rw [firstClose?, List.infix_cons_iff]
    split
    · rename_i hmark
      simp [hmark]
    · rename_i hmark
      simp [hmark, ih]

/-- A comment ends at the first of the closing marks that follow. -/
theorem exists_isBody {s : Bytes} (h : [Byte.star, Byte.slash] <:+: s) :
    ∃ v t, s = v ++ [Byte.star, Byte.slash] ++ t ∧ IsBody v := by
  obtain ⟨⟨v, t⟩, hp⟩ := Option.isSome_iff_exists.mp (firstClose?_isSome_iff.mpr h)
  exact ⟨v, t, firstClose?_eq_some_iff.mp hp⟩

/-! ### Checking a text -/

theorem forall_suffix_iff {m text : Bytes} {P : Bytes → Prop} :
    (∀ t, m ++ t <:+ text → P t) ↔
      ∀ n < text.length + 1, m <+: text.drop n → P (text.drop (n + m.length)) := by
  constructor
  · rintro h n - ⟨t, ht⟩
    have hdrop : text.drop (n + m.length) = t := by
      rw [← List.drop_drop, ← ht, List.drop_left]
    rw [hdrop]
    exact h t (ht ▸ List.drop_suffix n text)
  · rintro h t ⟨s, rfl⟩
    have ht := h s.length (by rw [List.length_append]; omega)
    rw [List.drop_left, ← List.drop_drop, List.drop_left, List.drop_left] at ht
    exact ht (List.prefix_append m t)

instance decidableForallSuffix (m text : Bytes) (P : Bytes → Prop) [DecidablePred P] :
    Decidable (∀ t, m ++ t <:+ text → P t) := decidable_of_iff _ forall_suffix_iff.symm

theorem closed_iff {text : Bytes} :
    Closed text ↔ ∀ t, [Byte.slash, Byte.star] ++ t <:+ text → (firstClose? t).isSome = true :=
  forall_congr' fun _ => imp_congr_right fun _ => firstClose?_isSome_iff.symm

instance : DecidablePred Closed := fun _ => decidable_of_iff _ closed_iff.symm

instance : DecidablePred IsBody := fun _ =>
  decidable_of_iff _ (not_congr firstClose?_isSome_iff)

instance (v t : Bytes) : Decidable (Harmless v t) :=
  inferInstanceAs (Decidable (t.head? ≠ some Byte.star ∧ (Byte.slash ∈ v →
    t.head? ≠ some Byte.slash ∧ ¬ [Byte.slash, Byte.slash] <:+: v ∧
    ∀ w, [Byte.slash, Byte.star] ++ w <:+ v → Byte.slash ∈ w)))

theorem orderly_iff {text : Bytes} :
    Orderly text ↔ ∀ r, [Byte.slash, Byte.star] ++ r <:+ text →
      ∀ p ∈ firstClose? r, Harmless p.1 p.2 := by
  constructor
  · rintro h r hr ⟨v, t⟩ hp
    obtain ⟨rfl, hbody⟩ := firstClose?_eq_some_iff.mp hp
    exact h v t (comment_append v t ▸ hr) hbody
  · intro h v t ht hbody
    exact h (v ++ [Byte.star, Byte.slash] ++ t) (comment_append v t ▸ ht) (v, t)
      (firstClose?_eq_some_iff.mpr ⟨rfl, hbody⟩)

instance : DecidablePred Orderly := fun _ => decidable_of_iff _ orderly_iff.symm

/-! ### What begins inside a comment -/

theorem not_isPrefix_of_head? {a : UInt8} {m s : Bytes} (h : s.head? ≠ some a) :
    ¬ a :: m <+: s := by
  rintro ⟨t, rfl⟩
  exact h rfl

/-- A comment with a slash inside is no block comment. -/
theorem blockComment?_of_mem {v : Bytes} (hbody : IsBody v) (hslash : Byte.slash ∈ v) (t : Bytes) :
    blockComment? (comment v ++ t) = none := by
  obtain ⟨u, r, rfl, hu⟩ := List.eq_append_cons_of_mem hslash
  have h := blockComment?_slash hu (r ++ [Byte.star, Byte.slash] ++ t)
  rw [if_neg fun hlast => ?_] at h
  · simpa [comment] using h
  · obtain ⟨u, rfl⟩ := List.getLast?_eq_some_iff.mp hlast
    exact hbody ⟨u, r, by simp⟩

/-- The ends of a comment. -/
theorem suffix_comment_cases {u v : Bytes} (hu : u <:+ comment v) (hne : u ≠ []) :
    u = comment v ∨ u.head? = some Byte.star ∨
      (∃ x w, x :: w <:+ v ∧ u = x :: (w ++ [Byte.star, Byte.slash])) ∨ u = [Byte.slash] := by
  obtain rfl | hu := List.suffix_cons_iff.mp hu
  · exact Or.inl rfl
  obtain rfl | ⟨p, hp⟩ := List.suffix_cons_iff.mp hu
  · exact Or.inr (Or.inl rfl)
  rcases List.append_eq_append_iff.mp hp with ⟨w, rfl, rfl⟩ | ⟨w, rfl, hu⟩
  · cases w with
    | nil => exact Or.inr (Or.inl rfl)
    | cons x w => exact Or.inr (Or.inr (Or.inl ⟨x, w, ⟨p, rfl⟩, rfl⟩))
  · match w, hu with
    | [], hu =>
      rw [← List.nil_append u, ← hu]
      exact Or.inr (Or.inl rfl)
    | [x], hu => exact Or.inr (Or.inr (Or.inr (List.cons.inj hu).2.symm))
    | [x, y], hu => exact absurd (List.cons.inj (List.cons.inj hu).2).2.symm hne

/-- No block comment begins inside a comment that is kept. -/
theorem blockComment?_of_suffix {v t u : Bytes} (hbody : IsBody v) (hslash : Byte.slash ∈ v)
    (h : Harmless v t) (hu : u <:+ comment v) (hne : u ≠ []) : blockComment? (u ++ t) = none := by
  obtain ⟨hstar, hkept⟩ := h
  obtain ⟨-, -, hinner⟩ := hkept hslash
  rcases suffix_comment_cases hu hne with rfl | hhead | ⟨x, w, hw, rfl⟩ | rfl
  · exact blockComment?_of_mem hbody hslash t
  · refine blockComment?_of_not_isPrefix (not_isPrefix_of_head? ?_)
    simp [List.head?_append, hhead, Byte.star, Byte.slash]
  · by_cases hx : x = Byte.slash
    · subst hx
      cases w with
      | nil => exact blockComment?_slash List.not_mem_nil t
      | cons y w =>
        by_cases hy : y = Byte.star
        · -- another opening mark: its comment ends with this one, and has a slash inside as well
          subst hy
          have hinfix : w <:+: v :=
            ((List.suffix_append [Byte.slash, Byte.star] w).trans hw).isInfix
          have hnone := blockComment?_of_mem (fun hclose => hbody (hclose.trans hinfix))
            (hinner w hw) t
          simpa [comment] using hnone
        · exact blockComment?_of_not_isPrefix (by simp [Ne.symm hy])
    · exact blockComment?_of_not_isPrefix (by simp [Ne.symm hx])
  · refine blockComment?_of_not_isPrefix fun hpre => ?_
    exact not_isPrefix_of_head? hstar (List.cons_prefix_cons.mp hpre).2

theorem dropComments_comment_append {v t : Bytes} (hbody : IsBody v) (hslash : Byte.slash ∈ v)
    (h : Harmless v t) :
    dropComments blockComment? (comment v ++ t) = comment v ++ dropComments blockComment? t :=
  dropComments_append_of_none fun _ hu hne => blockComment?_of_suffix hbody hslash h hu hne

/-- No line comment begins inside a comment without two slashes. -/
theorem lineComment?_of_suffix {v t u : Bytes} (hslashes : ¬ [Byte.slash, Byte.slash] <:+: v)
    (ht : t.head? ≠ some Byte.slash) (hu : u <:+ comment v) (hne : u ≠ []) :
    lineComment? (u ++ t) = none := by
  refine lineComment?_of_not_isPrefix fun hpre => ?_
  rcases suffix_comment_cases hu hne with rfl | hhead | ⟨x, w, hw, rfl⟩ | rfl
  · simp [comment, Byte.slash, Byte.star] at hpre
  · refine not_isPrefix_of_head? ?_ hpre
    simp [List.head?_append, hhead, Byte.star, Byte.slash]
  · cases w with
    | nil => simp [Byte.slash, Byte.star] at hpre
    | cons y w =>
      obtain ⟨rfl, rfl⟩ : Byte.slash = x ∧ Byte.slash = y := by simpa using hpre
      exact hslashes ((List.prefix_append [Byte.slash, Byte.slash] w).isInfix.trans hw.isInfix)
  · exact not_isPrefix_of_head? ht (List.cons_prefix_cons.mp hpre).2

theorem dropComments_lineComment?_comment_append {v t : Bytes}
    (hslashes : ¬ [Byte.slash, Byte.slash] <:+: v) (ht : t.head? ≠ some Byte.slash) :
    dropComments lineComment? (comment v ++ t) = comment v ++ dropComments lineComment? t :=
  dropComments_append_of_none fun _ hu hne => lineComment?_of_suffix hslashes ht hu hne

/-! ### From block comments to line comments -/

/-- **The comments of the text are safe from line comments**: each ends before two slashes, and not
with the first of two. -/
def Sound (text : Bytes) : Prop :=
  ∀ t, [Byte.slash, Byte.star] ++ t <:+ text →
    ∃ v r, t = v ++ [Byte.star, Byte.slash] ++ r ∧ ¬ [Byte.slash, Byte.slash] <:+: v ∧
      r.head? ≠ some Byte.slash

theorem Sound.suffix {s text : Bytes} (h : Sound text) (hs : s <:+ text) : Sound s :=
  fun t ht => h t (ht.trans hs)

/-- What follows a kept comment still does not begin with a slash when block comments are gone. -/
theorem head?_dropComments_ne_slash {t : Bytes} (h : t.head? ≠ some Byte.slash) :
    (dropComments blockComment? t).head? ≠ some Byte.slash := by
  rwa [head?_dropComments (blockComment?_of_not_isPrefix (not_isPrefix_of_head? h))]

/-- Removing block comments brings no star to the beginning of an orderly text. -/
theorem head?_of_head?_dropComments {text : Bytes} (h : Orderly text)
    (hstar : (dropComments blockComment? text).head? = some Byte.star) :
    text.head? = some Byte.star := by
  induction text using scan_induction recognises_blockComment? with
  | nil => exact hstar
  | stays b t hb ih => rwa [head?_dropComments hb] at hstar
  | goes c t hne hc ih =>
    rw [dropComments_append hne hc] at hstar
    obtain ⟨u, rfl, hu⟩ := blockComment?_append_iff.mp hc
    have hhead := ih (h.suffix (List.suffix_append _ t)) hstar
    exact absurd hhead (h u t (List.suffix_refl _) (isBody_of_not_mem hu)).1

/-- **Removing block comments leaves comments without two slashes.** -/
theorem sound_dropComments {text : Bytes} (hclosed : Closed text) (h : Orderly text) :
    Sound (dropComments blockComment? text) := by
  induction text using scan_induction recognises_blockComment? with
  | nil => exact fun t ht => absurd (List.suffix_nil.mp ht) (by simp)
  | goes c t hne hc ih =>
    have hsuffix := List.suffix_append c t
    rw [dropComments_append hne hc]
    exact ih (hclosed.suffix hsuffix) (h.suffix hsuffix)
  | stays b t hb ih =>
    have hsuffix := List.suffix_cons b t
    have hdrop := dropComments_cons_of_none hb
    intro r hr
    rw [hdrop] at hr
    obtain heq | hr := List.suffix_cons_iff.mp hr
    · -- an opening mark here was one before, and its comment has a slash inside
      obtain ⟨rfl, hstar⟩ := List.cons.inj heq
      have hhead := head?_of_head?_dropComments (h.suffix hsuffix) (by rw [← hstar]; rfl)
      obtain ⟨t, rfl⟩ := List.head?_eq_some_iff.mp hhead
      obtain ⟨v, t, rfl, hbody⟩ := exists_isBody (hclosed t (List.suffix_refl _))
      change blockComment? ([Byte.slash, Byte.star] ++ (v ++ [Byte.star, Byte.slash] ++ t)) = none
        at hb
      have htext := comment_append v t
      rw [← htext] at hb
      have hslash : Byte.slash ∈ v := Decidable.byContradiction fun hslash =>
        blockComment?_eq_none_iff.mp hb (comment v) ⟨v, rfl, hslash⟩ (List.prefix_append _ t)
      have hharmless := h v t (htext ▸ List.suffix_refl _) hbody
      obtain ⟨hnot, hslashes, -⟩ := hharmless.2 hslash
      have hkept := dropComments_comment_append hbody hslash hharmless
      rw [htext, comment_append] at hkept
      refine ⟨v, dropComments blockComment? t, ?_, hslashes, head?_dropComments_ne_slash hnot⟩
      exact List.append_cancel_left (heq.trans (hdrop.symm.trans hkept))
    · exact ih (hclosed.suffix hsuffix) (h.suffix hsuffix) r hr

/-- **Removing line comments leaves no comment open.** -/
theorem Sound.closed_dropComments {text : Bytes} (h : Sound text) :
    Closed (dropComments lineComment? text) := by
  induction text using scan_induction recognises_lineComment? with
  | nil => exact closed_nil
  | goes c t hne hc ih =>
    rw [dropComments_append hne hc]
    exact ih (h.suffix (List.suffix_append c t))
  | stays b t hb ih =>
    have hdrop := dropComments_cons_of_none hb
    intro r hr
    rw [hdrop] at hr
    obtain heq | hr := List.suffix_cons_iff.mp hr
    · -- no line comment begins at the star either, so the opening mark was one before
      obtain ⟨rfl, hstar⟩ := List.cons.inj heq
      have hnone : lineComment? t = none := by
        refine lineComment?_of_not_isPrefix fun hpre => ?_
        obtain ⟨t, rfl⟩ := hpre
        cases hb
      have hhead : t.head? = some Byte.star := by
        rw [← head?_dropComments hnone, ← hstar]
        rfl
      obtain ⟨t, rfl⟩ := List.head?_eq_some_iff.mp hhead
      obtain ⟨v, t, rfl, hslashes, hnot⟩ := h t (List.suffix_refl _)
      have hkept := dropComments_lineComment?_comment_append hslashes hnot
      rw [comment_append, comment_append] at hkept
      have hr := List.append_cancel_left (heq.trans (hdrop.symm.trans hkept))
      exact ⟨v, dropComments lineComment? t, hr.symm⟩
    · exact ih (h.suffix (List.suffix_cons b t)) r hr

/-! ### The ends of lines -/

/-- The text without the blanks at the ends of its lines. -/
def trimLines (text : Bytes) : Bytes :=
  Bytes.joinWith [Byte.lf] ((Bytes.pieces Byte.lf text).map (Bytes.dropTrailing Byte.isBlank))

/-- A byte stays, but for a blank with only blanks after it on its line. -/
theorem trimLines_cons (b : UInt8) (t : Bytes) :
    trimLines (b :: t) =
      if Byte.isBlank b && (trimLines t).head?.all (· == Byte.lf) then trimLines t
      else b :: trimLines t := by
  obtain ⟨l, ls, hlines⟩ : ∃ l ls, Bytes.pieces Byte.lf t = l :: ls := ⟨_, _, rfl⟩
  by_cases hb : b = Byte.lf
  · have hpieces : Bytes.pieces Byte.lf (b :: t) = [] :: l :: ls := by
      rw [hb, ← hlines]
      exact Bytes.pieces_append_cons List.not_mem_nil t
    have hblank : Byte.isBlank b = false := by rw [hb]; decide
    rw [hblank, Bool.false_and, if_neg Bool.false_ne_true, trimLines, trimLines, hpieces, hlines]
    simp [Bytes.joinWith_cons, Bytes.dropTrailing, hb]
  · have hpieces : Bytes.pieces Byte.lf (b :: t) = (b :: l) :: ls := by
      rw [Bytes.pieces_cons_of_ne hb, hlines]
      rfl
    have hlf : Byte.lf ∉ l := Bytes.not_mem_of_mem_pieces (hlines ▸ List.mem_cons_self)
    -- the rest begins with a line feed, or is empty, exactly if nothing is left of this line
    have hempty : (trimLines t).head?.all (· == Byte.lf) = true ↔
        Bytes.dropTrailing Byte.isBlank l = [] := by
      rw [trimLines, hlines, List.map_cons, Bytes.joinWith_cons]
      cases hl : Bytes.dropTrailing Byte.isBlank l with
      | nil => cases ls <;> simp
      | cons x r =>
        have hx : x ≠ Byte.lf := fun hx =>
          hlf (Bytes.mem_of_mem_dropTrailing (by rw [hl, hx]; exact List.mem_cons_self))
        simpa using hx
    simp only [Bool.and_eq_true, hempty]
    rw [trimLines, trimLines, hpieces, hlines, List.map_cons, List.map_cons, Bytes.joinWith_cons,
      Bytes.joinWith_cons, Bytes.dropTrailing_cons]
    split
    · rename_i h
      rw [h.2]
    · rfl

/-- A closing mark stays. -/
theorem infix_trimLines {t : Bytes} (h : [Byte.star, Byte.slash] <:+: t) :
    [Byte.star, Byte.slash] <:+: trimLines t := by
  obtain ⟨s, r, rfl⟩ := h
  induction s with
  | nil =>
    have hstar : Byte.isBlank Byte.star = false := rfl
    have hslash : Byte.isBlank Byte.slash = false := rfl
    refine ⟨[], trimLines r, ?_⟩
    simp [trimLines_cons, hstar, hslash]
  | cons b s ih =>
    rw [List.append_assoc, List.cons_append, trimLines_cons, ← List.append_assoc]
    split
    · exact ih
    · exact List.infix_cons ih

/-- An opening mark was there before. -/
theorem exists_of_suffix_trimLines {text t : Bytes}
    (h : [Byte.slash, Byte.star] ++ t <:+ trimLines text) :
    ∃ r, [Byte.slash, Byte.star] ++ r <:+ text ∧ t = trimLines r := by
  induction text with
  | nil => exact absurd (List.suffix_nil.mp h) (by simp)
  | cons b text ih =>
    have hlater (h : [Byte.slash, Byte.star] ++ t <:+ trimLines text) :
        ∃ r, [Byte.slash, Byte.star] ++ r <:+ b :: text ∧ t = trimLines r := by
      obtain ⟨r, hr, ht⟩ := ih h
      exact ⟨r, hr.trans (List.suffix_cons b text), ht⟩
    rw [trimLines_cons] at h
    split at h
    · exact hlater h
    obtain heq | h := List.suffix_cons_iff.mp h
    · obtain ⟨rfl, hstar⟩ := List.cons.inj heq
      cases text with
      | nil => cases hstar
      | cons c text =>
        rw [trimLines_cons] at hstar
        split at hstar
        · -- a blank that goes does not let the star move up
          rename_i hblank
          rw [← hstar, Bool.and_eq_true] at hblank
          exact absurd hblank.2 (by simp [Byte.star, Byte.lf])
        · obtain ⟨rfl, rfl⟩ := List.cons.inj hstar
          exact ⟨text, List.suffix_refl _, rfl⟩
    · exact hlater h

theorem Closed.trimLines {text : Bytes} (h : Closed text) : Closed (trimLines text) := by
  intro t ht
  obtain ⟨r, hr, rfl⟩ := exists_of_suffix_trimLines ht
  exact infix_trimLines (h r hr)

/-! ### Left in place -/

/-- Block comments can be removed on both sides of a place on which none of them lies. -/
theorem dropComments_append_of_isPrefix {s r : Bytes}
    (h : ∀ u c, u <:+ s → IsBlockComment c → c <+: u ++ r → c <+: u) :
    dropComments blockComment? (s ++ r) =
      dropComments blockComment? s ++ dropComments blockComment? r := by
  induction s using scan_induction recognises_blockComment? with
  | nil => rfl
  | goes c t hne hc ih =>
    have hlong := (blockComment?_append_iff (t := t ++ r)).mpr (blockComment?_append_iff.mp hc)
    rw [List.append_assoc, dropComments_append hne hlong, dropComments_append hne hc,
      ih fun u c hu => h u c (hu.trans (List.suffix_append _ t))]
  | stays b t hb ih =>
    have hlong : blockComment? (b :: (t ++ r)) = none := blockComment?_eq_none_iff.mpr
      fun c hc hpre => blockComment?_eq_none_iff.mp hb c hc (h _ c (List.suffix_refl _) hc hpre)
    rw [List.cons_append, dropComments_cons_of_none hlong, dropComments_cons_of_none hb,
      ih fun u c hu => h u c (hu.trans (List.suffix_cons b t)), List.cons_append]

/-- A block comment that begins before some slash and goes on there ends with it. -/
theorem eq_nil_of_append_slash {x u w : Bytes} (hx : Byte.slash ∉ x) (hu : u ≠ [])
    (h : comment x = u ++ Byte.slash :: w) : w = [] := by
  obtain ⟨b, u, rfl⟩ := List.exists_cons_of_ne_nil hu
  have hfront : Byte.slash ∉ Byte.star :: x ++ [Byte.star] := by
    simpa [Byte.slash, Byte.star] using hx
  have htail : (Byte.star :: x ++ [Byte.star]) ++ [Byte.slash] = u ++ Byte.slash :: w := by
    simpa [comment] using (List.cons.inj h).2
  rcases List.append_eq_append_iff.mp htail with ⟨r, -, hr⟩ | ⟨r, hr, hw⟩
  · cases r with
    | nil => exact (List.cons.inj hr).2.symm
    | cons y r =>
      have hlength := congrArg List.length (List.cons.inj hr).2
      simp at hlength
  · cases r with
    | nil => exact (List.cons.inj hw).2
    | cons y r =>
      obtain ⟨rfl, -⟩ := List.cons.inj hw
      exact absurd (by rw [hr]; simp) hfront

/-- **A comment that is kept is left in place** when block comments are removed. -/
theorem dropComments_append_comment {s v t : Bytes} (h : Orderly (s ++ (comment v ++ t)))
    (hbody : IsBody v) (hslash : Byte.slash ∈ v) :
    dropComments blockComment? (s ++ (comment v ++ t)) =
      dropComments blockComment? s ++ (comment v ++ dropComments blockComment? t) := by
  rw [dropComments_append_of_isPrefix, dropComments_comment_append hbody hslash
    (h v t (List.suffix_append s _) hbody)]
  rintro u c ⟨p, rfl⟩ ⟨x, rfl, hx⟩ ⟨d, hd⟩
  rcases List.append_eq_append_iff.mp hd with ⟨w, rfl, -⟩ | ⟨w, hcomment, hrest⟩
  · exact List.prefix_append _ w
  cases w with
  | nil =>
    exact ⟨[], by rw [List.append_nil, hcomment, List.append_nil]⟩
  | cons y w =>
    obtain ⟨rfl, hstar⟩ := List.cons.inj hrest
    by_cases hu : u = []
    · have hnone := blockComment?_eq_none_iff.mp (blockComment?_of_mem hbody hslash t)
      exact absurd ⟨d, by rw [hd, hu, List.nil_append]⟩ (hnone _ ⟨x, rfl, hx⟩)
    · -- the other comment ends with the first slash of this one, and a star follows it
      obtain rfl := eq_nil_of_append_slash hx hu hcomment
      have hnot := (h x d ⟨p, by rw [List.append_assoc, ← hd]; rfl⟩ (isBody_of_not_mem hx)).1
      have hd : d = Byte.star :: (v ++ [Byte.star, Byte.slash] ++ t) := hstar.symm
      exact absurd (by rw [hd]; rfl) hnot

/-- **No line comment is open at the end of the text**, and none begins with its last byte when a
slash comes next: there are no two slashes on the last line. -/
def InCode (text : Bytes) : Prop :=
  ∃ s l, text = s ++ l ∧ (∀ x ∈ s.getLast?, x = Byte.lf) ∧
    ¬ [Byte.slash, Byte.slash] <:+: l ++ [Byte.slash]

/-- Line comments can be removed on both sides of the end of a line. -/
theorem dropComments_lineComment?_append_of_lf {s : Bytes} (hs : ∀ x ∈ s.getLast?, x = Byte.lf)
    (t : Bytes) : dropComments lineComment? (s ++ t) =
      dropComments lineComment? s ++ dropComments lineComment? t := by
  have hfeed (r : Bytes) : dropComments lineComment? (Byte.lf :: r) =
      Byte.lf :: dropComments lineComment? r := dropComments_cons_of_none rfl
  induction s using Bytes.line_induction Byte.lf with
  | last l hl =>
    rcases List.eq_nil_or_concat l with rfl | ⟨l, x, rfl⟩
    · rfl
    · exact absurd (by simp [hs x (by simp)]) hl
  | line l r hl ih =>
    have hr : ∀ x ∈ r.getLast?, x = Byte.lf := by
      intro x hx
      rw [Option.mem_def] at hx
      exact hs x (by simp [List.getLast?_cons, hx])
    rw [List.append_assoc, List.cons_append, dropComments_lineComment?_append hl (by simp), hfeed,
      ih hr, dropComments_lineComment?_append hl (by simp), hfeed]
    simp

/-- Line comments can be removed on both sides of a slash in code. -/
theorem InCode.dropComments_append {s r : Bytes} (h : InCode s)
    (hr : ∀ x ∈ r.head?, x = Byte.slash) : dropComments lineComment? (s ++ r) =
      dropComments lineComment? s ++ dropComments lineComment? r := by
  obtain ⟨s, l, rfl, hs, hl⟩ := h
  -- the last line stays, whether or not a slash follows
  have hstays (r : Bytes) (hr : ∀ x ∈ r.head?, x = Byte.slash) :
      dropComments lineComment? (l ++ r) = l ++ dropComments lineComment? r := by
    refine dropComments_append_of_none fun u hu hne => lineComment?_of_not_isPrefix fun hpre => ?_
    have hslashes : [Byte.slash, Byte.slash] <+: u ++ [Byte.slash] := by
      match u, r with
      | [x], [] => simp at hpre
      | [x], y :: r => simpa using (List.cons_prefix_cons.mp hpre).1
      | x :: y :: u, r => simpa using hpre
    obtain ⟨p, rfl⟩ := hu
    exact hl (hslashes.isInfix.trans ⟨p, [], by simp⟩)
  have hall : dropComments lineComment? l = l := by
    simpa [dropComments, Bytes.substitute, Bytes.substituteFrom] using hstays [] (by simp)
  rw [List.append_assoc, dropComments_lineComment?_append_of_lf hs,
    dropComments_lineComment?_append_of_lf hs, hstays r hr, hall, List.append_assoc]

/-- **Comment removal leaves no comment open** if the joined lines are orderly and have none open.
Then a comment with a slash inside is left in place, unless it stands in a line comment: the lines
are those of a text with this comment in it, but for the blanks at their ends. -/
theorem closed_withoutComments {lines : List Bytes}
    (hclosed : Closed (Bytes.joinWith [Byte.lf] lines))
    (horderly : Orderly (Bytes.joinWith [Byte.lf] lines)) :
    Closed (Bytes.joinWith [Byte.lf] (withoutComments lines true)) ∧
    ∀ s v t, Bytes.joinWith [Byte.lf] lines = s ++ (comment v ++ t) → IsBody v →
      Byte.slash ∈ v → InCode (dropComments blockComment? s) →
      withoutComments lines true =
        (Bytes.pieces Byte.lf (dropComments lineComment? (dropComments blockComment? s) ++
          (comment v ++ dropComments lineComment? (dropComments blockComment? t)))).map
            (Bytes.dropTrailing Byte.isBlank) := by
  cases lines with
  | nil =>
    refine ⟨hclosed, fun s v t htext => ?_⟩
    have hlength := congrArg List.length htext
    simp [Bytes.joinWith, comment] at hlength
  | cons l ls =>
    have hlines : withoutComments (l :: ls) true = (Bytes.pieces Byte.lf (dropComments lineComment?
        (dropComments blockComment? (Bytes.joinWith [Byte.lf] (l :: ls))))).map
          (Bytes.dropTrailing Byte.isBlank) := rfl
    rw [hlines]
    refine ⟨(sound_dropComments hclosed horderly).closed_dropComments.trimLines, ?_⟩
    intro s v t htext hbody hslash hcode
    rw [htext] at horderly
    obtain ⟨hnot, hslashes, -⟩ := (horderly v t (List.suffix_append s _) hbody).2 hslash
    have hmark : ∀ x ∈ (comment v ++ dropComments blockComment? t).head?, x = Byte.slash :=
      fun x hx => (Option.some.inj hx).symm
    rw [htext, dropComments_append_comment horderly hbody hslash, hcode.dropComments_append hmark,
      dropComments_lineComment?_comment_append hslashes (head?_dropComments_ne_slash hnot)]

theorem closed_withoutComments_path :
    Closed (utf8 "x = /* a/b */ 1; // one\n/* two */ y") ∧
    Orderly (utf8 "x = /* a/b */ 1; // one\n/* two */ y") ∧
    Closed (Bytes.joinWith [Byte.lf]
      (withoutComments [utf8 "x = /* a/b */ 1; // one", utf8 "/* two */ y"] true)) ∧
    withoutComments [utf8 "x = /* a/b */ 1; // one", utf8 "/* two */ y"] true =
      [utf8 "x = /* a/b */ 1;", utf8 " y"] := by
  have hlines : Bytes.joinWith [Byte.lf] [utf8 "x = /* a/b */ 1; // one", utf8 "/* two */ y"] =
      utf8 "x = /* a/b */ 1; // one\n/* two */ y" := by decide
  have hclosed : Closed (utf8 "x = /* a/b */ 1; // one\n/* two */ y") := by decide +kernel
  have horderly : Orderly (utf8 "x = /* a/b */ 1; // one\n/* two */ y") := by decide +kernel
  rw [← hlines] at hclosed horderly ⊢
  obtain ⟨hresult, hplace⟩ := closed_withoutComments hclosed horderly
  refine ⟨hclosed, horderly, hresult, ?_⟩
  have hcode : InCode (dropComments blockComment? (utf8 "x = ")) :=
    ⟨[], utf8 "x = ", by decide, by simp, by decide⟩
  rw [hplace (utf8 "x = ") (utf8 " a/b ") (utf8 " 1; // one\n/* two */ y") (by decide) (by decide)
    (by decide) hcode]
  decide +kernel

/-- Two slashes inside a comment leave it open. -/
example : Closed (utf8 "/* see http://x */ int a;") ∧
    withoutComments [utf8 "/* see http://x */ int a;"] true = [utf8 "/* see http:"] ∧
    ¬ Closed (utf8 "/* see http:") := by decide +kernel

end Source

end KernelPack
