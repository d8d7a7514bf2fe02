import KernelPack.Proofs.Bytes.Cutting
import KernelPack.Proofs.Bytes.Substitution
import KernelPack.Proofs.Text.Rune
import KernelPack.Source.Compaction

/-!
# Blank runs

Collapsing every run of blanks to one space is a scan with a look at what follows; seen from the
right it is a fold (`collapse_eq_foldr`): a blank adds a space, unless one stands there already.
From this form it follows that

* collapsing is **compatible with joining** (`collapse_append_congr`): what a part collapses to
  is all that matters of it;
* any two runs of blanks collapse alike (`collapse_of_blanks`).

The main statement is that `normalize` does not see spaces around its lines, nor an empty line at
the end (`normalize_surrounded`).
-/

namespace KernelPack

namespace Source

/-- The text with every run of blanks collapsed to one space. -/
def collapse (text : Bytes) : Bytes := Bytes.substitute blankRun? text

/-- A byte in front of a collapsed text: a blank shows as a space, unless one follows. -/
def consCollapsed (b : UInt8) (t : Bytes) : Bytes :=
  if Byte.isBlank b then
    if t.head? = some Byte.space then t else Byte.space :: t
  else b :: t

/-! ### Collapsing as a fold -/

theorem collapse_nil : collapse [] = [] := rfl

theorem collapse_cons_of_not_blank {b : UInt8} (hb : Byte.isBlank b = false) (t : Bytes) :
    collapse (b :: t) = b :: collapse t := by
  have hnone : blankRun? (b :: t) = none := by simp [blankRun?, hb]
  simp only [collapse, Bytes.substitute, Bytes.substituteFrom, hnone]

/-- A blank collapses together with all blanks after it. -/
theorem collapse_cons_of_blank {b : UInt8} (hb : Byte.isBlank b = true) (t : Bytes) :
    collapse (b :: t) = Byte.space :: collapse (t.dropWhile Byte.isBlank) := by
  have hrun : blankRun? (b :: t)
      = some ((t.takeWhile Byte.isBlank).length + 1, [Byte.space]) := by
    simp [blankRun?, hb]
  have hdrop : t.drop (t.takeWhile Byte.isBlank).length = t.dropWhile Byte.isBlank := by
    calc t.drop (t.takeWhile Byte.isBlank).length
        = (t.takeWhile Byte.isBlank ++ t.dropWhile Byte.isBlank).drop
            (t.takeWhile Byte.isBlank).length := by rw [List.takeWhile_append_dropWhile]
      _ = t.dropWhile Byte.isBlank := List.drop_left
  simp only [collapse, Bytes.substitute, Bytes.substituteFrom, hrun]
  rw [Nat.add_sub_cancel, Bytes.substituteFrom_eq_drop, hdrop]
  rfl

/-- A collapsed text begins with a space exactly if the text begins with a blank. -/
theorem head?_collapse_eq_space_iff (t : Bytes) :
    (collapse t).head? = some Byte.space ↔ ∃ b, t.head? = some b ∧ Byte.isBlank b = true := by
  cases t with
  | nil => simp [collapse_nil]
  | cons b t =>
    cases hb : Byte.isBlank b with
    | true => simp [collapse_cons_of_blank hb, hb]
    | false =>
      have hne : b ≠ Byte.space := fun he => by rw [he] at hb; exact absurd hb (by decide)
      simp [collapse_cons_of_not_blank hb, hb, hne]

theorem collapse_cons (b : UInt8) (t : Bytes) :
    collapse (b :: t) = consCollapsed b (collapse t) := by
  unfold consCollapsed
  cases hb : Byte.isBlank b with
  | false => simpa using collapse_cons_of_not_blank hb t
  | true =>
    rw [if_pos rfl, collapse_cons_of_blank hb]
    split
    · -- the run goes on: its first blank makes no difference
      rename_i hhead
      obtain ⟨c, hc, hblank⟩ := (head?_collapse_eq_space_iff t).mp hhead
      obtain ⟨t, rfl⟩ := List.head?_eq_some_iff.mp hc
      rw [collapse_cons_of_blank hblank, List.dropWhile_cons_of_pos hblank]
    · rename_i hhead
      have hstop : t.dropWhile Byte.isBlank = t := by
        cases t with
        | nil => rfl
        | cons c t =>
          refine List.dropWhile_cons_of_neg fun hc => hhead ?_
          exact (head?_collapse_eq_space_iff _).mpr ⟨c, rfl, hc⟩
      rw [hstop]

/-- **Collapsing is a fold from the right.** -/
theorem collapse_eq_foldr (text : Bytes) : collapse text = text.foldr consCollapsed [] := by
  induction text with
  | nil => rfl
  | cons b t ih => rw [collapse_cons, ih, List.foldr_cons]

/-! ### Collapsing parts -/

/-- A blank in front of a blank adds nothing. -/
theorem consCollapsed_consCollapsed {b c : UInt8} (hb : Byte.isBlank b = true)
    (hc : Byte.isBlank c = true) (t : Bytes) :
    consCollapsed b (consCollapsed c t) = consCollapsed c t := by
  have hhead : (consCollapsed c t).head? = some Byte.space := by
    rw [consCollapsed, if_pos hc]
    split
    · assumption
    · rfl
  rw [consCollapsed, if_pos hb, if_pos hhead]

/-- All blanks show alike. -/
theorem consCollapsed_of_blank {b c : UInt8} (hb : Byte.isBlank b = true)
    (hc : Byte.isBlank c = true) (t : Bytes) : consCollapsed b t = consCollapsed c t := by
  rw [consCollapsed, consCollapsed, if_pos hb, if_pos hc]

/-- Folding over a text is folding over what it collapses to. -/
theorem foldr_consCollapsed_collapse (u t : Bytes) :
    (collapse u).foldr consCollapsed t = u.foldr consCollapsed t := by
  have hspace : Byte.isBlank Byte.space = true := rfl
  induction u with
  | nil => rfl
  | cons b u ih =>
    rw [collapse_cons, List.foldr_cons, ← ih]
    cases hb : Byte.isBlank b with
    | false => simp [consCollapsed, hb]
    | true =>
      rw [consCollapsed_of_blank hb hspace, consCollapsed_of_blank hb hspace]
      rw [consCollapsed, if_pos hspace]
      split
      · rename_i hhead
        obtain ⟨v, hv⟩ := List.head?_eq_some_iff.mp hhead
        rw [hv, List.foldr_cons, consCollapsed_consCollapsed hspace hspace]
      · rfl

/-- What a text collapses to in front of another depends on what both collapse to. -/
theorem collapse_append (u v : Bytes) :
    collapse (u ++ v) = (collapse u).foldr consCollapsed (collapse v) := by
  rw [foldr_consCollapsed_collapse, collapse_eq_foldr, collapse_eq_foldr, List.foldr_append]

/-- **Collapsing is compatible with joining.** -/
theorem collapse_append_congr {u u' v v' : Bytes} (hu : collapse u = collapse u')
    (hv : collapse v = collapse v') : collapse (u ++ v) = collapse (u' ++ v') := by
  rw [collapse_append, collapse_append, hu, hv]

/-- A run of blanks collapses to a space. -/
theorem collapse_of_blanks {s : Bytes} (hne : s ≠ []) (hs : ∀ b ∈ s, Byte.isBlank b = true) :
    collapse s = [Byte.space] := by
  induction s with
  | nil => exact absurd rfl hne
  | cons b t ih =>
    have hb : Byte.isBlank b = true := hs b List.mem_cons_self
    rw [collapse_cons, consCollapsed, if_pos hb]
    cases t with
    | nil => rfl
    | cons c t =>
      rw [ih (by simp) fun x hx => hs x (List.mem_cons_of_mem _ hx)]
      rfl

/-- A space at the end of a text shows, or is part of the run that ends the text. -/
theorem collapse_append_space (text : Bytes) :
    collapse (text ++ [Byte.space]) = collapse text ∨
      collapse (text ++ [Byte.space]) = collapse text ++ [Byte.space] := by
  induction text with
  | nil => exact Or.inr rfl
  | cons b t ih =>
    rw [List.cons_append, collapse_cons, collapse_cons]
    rcases ih with h | h
    · exact Or.inl (by rw [h])
    · rw [h]
      cases hb : Byte.isBlank b with
      | false => exact Or.inr (by simp [consCollapsed, hb])
      | true =>
        -- with nothing in between, the space at the end is the one `b` shows as
        cases ht : collapse t with
        | nil => exact Or.inl (by simp [consCollapsed, hb])
        | cons c u =>
          refine Or.inr ?_
          by_cases hc : c = Byte.space
          · simp [consCollapsed, hb, hc]
          · simp [consCollapsed, hb, hc]

/-! ### Normalizing -/

theorem normalize_eq (lines : List Bytes) :
    normalize lines = Bytes.trim (collapse (Bytes.joinWith [Byte.space] lines)) := rfl

theorem trim_collapse_cons_space (text : Bytes) :
    Bytes.trim (collapse (Byte.space :: text)) = Bytes.trim (collapse text) := by
  rw [collapse_cons, consCollapsed, if_pos (by rfl)]
  split
  · rfl
  · exact Bytes.trim_cons_space _

theorem trim_collapse_append_space (text : Bytes) :
    Bytes.trim (collapse (text ++ [Byte.space])) = Bytes.trim (collapse text) := by
  rcases collapse_append_space text with h | h
  · rw [h]
  · rw [h, Bytes.trim_append_space]

/-- After a space, terminated lines collapse alike with and without spaces around them. -/
theorem collapse_surrounded (after : Bytes → Nat) (lines : List Bytes) :
    collapse (Byte.space :: Bytes.terminated Byte.space
        (lines.map fun l => Byte.space :: l ++ List.replicate (after l) Byte.space))
      = collapse (Byte.space :: Bytes.terminated Byte.space lines) := by
  induction lines with
  | nil => rfl
  | cons l ls ih =>
    have hfront : collapse [Byte.space, Byte.space] = collapse [Byte.space] := rfl
    have hback : collapse (List.replicate (after l) Byte.space ++ [Byte.space])
        = collapse [Byte.space] := by
      refine collapse_of_blanks (by simp) fun b hb => ?_
      rw [List.mem_append, List.mem_singleton] at hb
      rcases hb with hb | rfl
      · rw [List.eq_of_mem_replicate hb]
        rfl
      · rfl
    calc collapse (Byte.space :: Bytes.terminated Byte.space
          ((l :: ls).map fun l => Byte.space :: l ++ List.replicate (after l) Byte.space))
        = collapse ([Byte.space, Byte.space] ++ (l ++
            ((List.replicate (after l) Byte.space ++ [Byte.space]) ++ Bytes.terminated Byte.space
              (ls.map fun l => Byte.space :: l ++ List.replicate (after l) Byte.space)))) := by
          simp [Bytes.terminated]
      _ = collapse ([Byte.space] ++ (l ++ ([Byte.space] ++ Bytes.terminated Byte.space
            (ls.map fun l => Byte.space :: l ++ List.replicate (after l) Byte.space)))) :=
          collapse_append_congr hfront
            (collapse_append_congr rfl (collapse_append_congr hback rfl))
      _ = collapse ([Byte.space] ++ (l ++ ([Byte.space] ++ Bytes.terminated Byte.space ls))) :=
          collapse_append_congr rfl (collapse_append_congr rfl ih)
      _ = collapse (Byte.space :: Bytes.terminated Byte.space (l :: ls)) := by
          simp [Bytes.terminated]

/-- **Spaces around lines do not show**, nor does an empty line at the end. -/
theorem normalize_surrounded (after : Bytes → Nat) (lines : List Bytes) :
    normalize ((lines.map fun l => Byte.space :: l ++ List.replicate (after l) Byte.space) ++ [[]])
      = normalize lines := by
  rw [normalize_eq, Bytes.joinWith_concat, List.append_nil, ← trim_collapse_cons_space,
    collapse_surrounded, trim_collapse_cons_space, normalize_eq]
  cases lines with
  | nil => rfl
  | cons l ls => rw [← Bytes.joinWith_append_sep (by simp), trim_collapse_append_space]

end Source

end KernelPack
