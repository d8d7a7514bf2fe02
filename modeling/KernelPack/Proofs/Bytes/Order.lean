import KernelPack.Bytes
import Mathlib.Data.List.Induction
import Mathlib.Data.List.Nodup
import Mathlib.Data.List.Sort

/-!
# The byte order of strings

`before` compares two strings byte by byte. It is the standard lexicographic order of lists
(`before_eq_true_iff`), so it is strict, and of two different strings one comes first. Sorting
strings that are all different puts each before the next (`pairwise_mergeSort`). Sorting by
insertion gives the same list and, other than sorting by merging, can be evaluated
(`mergeSort_eq_insertionSort`).
-/

namespace KernelPack

/-! ### Repetitions -/

/-- One more element is new, or was there before. -/
theorem eraseDups_concat (l : List Bytes) (b : Bytes) :
    (l ++ [b]).eraseDups = if b ∈ l then l.eraseDups else l.eraseDups ++ [b] := by
  rw [List.eraseDups_append]
  split <;> rename_i h <;> simp [List.removeAll, h, List.eraseDups_cons]

theorem nodup_eraseDups (l : List Bytes) : l.eraseDups.Nodup := by
  induction l using List.reverseRecOn with
  | nil => exact List.nodup_nil
  | append_singleton l b ih =>
    rw [eraseDups_concat]
    split
    · exact ih
    · rename_i h
      rw [← List.concat_eq_append]
      exact List.Nodup.concat (mt List.mem_eraseDups.mp h) ih

namespace Bytes

/-! ### The order -/

/-- **The byte order is the lexicographic order.** -/
theorem before_eq_true_iff {s t : Bytes} : before s t = true ↔ s < t := by
  induction s generalizing t with
  | nil => cases t with
    | nil => simp [before]
    | cons b t => simp [before]
  | cons a s ih => cases t with
    | nil => simp [before]
    | cons b t => simp [before, List.cons_lt_cons_iff, ih]

theorem before_eq_false_iff {s t : Bytes} : before s t = false ↔ ¬ s < t := by
  rw [← Bool.not_eq_true, before_eq_true_iff]

/-- Of two different strings one comes first. -/
theorem lt_or_lt_of_ne {s t : Bytes} (h : s ≠ t) : s < t ∨ t < s := by
  by_cases hst : s < t
  · exact Or.inl hst
  · exact Or.inr (Std.not_le.mp fun hle => h (Std.le_antisymm hle (Std.not_lt.mp hst)))

/-- **Different strings are sorted strictly.** -/
theorem pairwise_mergeSort {l : List Bytes} (h : l.Nodup) :
    (l.mergeSort fun a b => !before b a).Pairwise (· < ·) := by
  have htrans : ∀ a b c : Bytes, (!before b a) = true → (!before c b) = true →
      (!before c a) = true := by
    simp only [Bool.not_eq_true', before_eq_false_iff, Std.not_lt]
    exact fun a b c => Std.le_trans
  have htotal : ∀ a b : Bytes, (!before b a || !before a b) = true := by
    simp only [Bool.or_eq_true, Bool.not_eq_true', before_eq_false_iff, Std.not_lt]
    exact fun a b => Std.le_total
  have hnodup : (l.mergeSort fun a b => !before b a).Nodup :=
    (List.mergeSort_perm _ _).nodup_iff.mpr h
  refine (hnodup.and (List.pairwise_mergeSort htrans htotal l)).imp fun ⟨hne, hle⟩ => ?_
  have hle := before_eq_false_iff.mp (by simpa using hle)
  exact (lt_or_lt_of_ne hne).resolve_right hle

theorem mergeSort_eq_insertionSort (l : List Bytes) :
    (l.mergeSort fun a b => !before b a) = l.insertionSort (· ≤ ·) := by
  have hle : (fun a b : Bytes => !before b a) = fun a b => decide (a ≤ b) := by
    funext a b
    rw [Bool.eq_iff_iff]
    simp [before_eq_false_iff]
  rw [hle, List.mergeSort_eq_insertionSort]

end Bytes

end KernelPack
