import KernelPack.Proofs.Path.Components
import Mathlib.Data.List.Basic

/-!
# Normal forms of paths

A normal form, held last component first, is names on top of steps up, and there are no steps up
above the root (`IsNormal`). Whatever is pushed leaves a normal form (`isNormal_push`), so the
components of every path end up as one (`isNormal_normalComponents`). In turn, a normal form that is
pushed anew stays as it is, and so **cleaning a path twice is cleaning it once** (`clean_clean`).

Putting a path below a directory pushes its components on those of the directory (`join_of_ne_nil`).
No step up is taken back that way (`count_up_le_foldl_push`): what is put below a directory begins
where the directory does, and goes up at least as far (`isUnder_join`).
-/

namespace KernelPack.Path

/-- A normal form held last component first: names, and below them steps up, of which there are none
at the root. -/
inductive IsNormal (rooted : Bool) : List Bytes → Prop where
  | parents (k : Nat) (h : rooted = true → k = 0) : IsNormal rooted (List.replicate k up)
  | name {c : Bytes} {stack : List Bytes} (hc : IsName c) (hstack : IsNormal rooted stack) :
    IsNormal rooted (c :: stack)

theorem isComponent_up : IsComponent up := ⟨by decide, by decide⟩

namespace IsNormal

variable {rooted : Bool} {stack : List Bytes}

theorem nil : IsNormal rooted [] := .parents 0 fun _ => rfl

theorem isComponent (h : IsNormal rooted stack) : ∀ c ∈ stack, IsComponent c := by
  induction h with
  | parents k _ =>
    intro c hc
    rw [List.eq_of_mem_replicate hc]
    exact isComponent_up
  | name hc _ ih => exact List.forall_mem_cons.mpr ⟨hc.toIsComponent, ih⟩

/-- Below the top a normal form is normal too. -/
theorem tail {c : Bytes} (h : IsNormal rooted (c :: stack)) : IsNormal rooted stack := by
  generalize hcs : c :: stack = cs at h
  cases h with
  | parents k h =>
    cases k with
    | zero => cases hcs
    | succ k =>
      obtain ⟨-, rfl⟩ := List.cons.inj hcs
      exact .parents k fun hrooted => nomatch h hrooted
  | name _ hstack =>
    obtain ⟨-, rfl⟩ := List.cons.inj hcs
    exact hstack

theorem of_append {cs : List Bytes} (h : IsNormal rooted (cs ++ stack)) :
    IsNormal rooted stack := by
  induction cs with
  | nil => exact h
  | cons c cs ih => exact ih h.tail

/-- Below a step up there are steps up only. -/
theorem eq_up_of_mem (h : IsNormal rooted (up :: stack)) : ∀ c ∈ stack, c = up := by
  generalize hcs : up :: stack = cs at h
  cases h with
  | parents k _ =>
    intro c hc
    exact List.eq_of_mem_replicate (hcs ▸ List.mem_cons_of_mem _ hc)
  | name hc _ => exact absurd (List.cons.inj hcs).1.symm hc.ne_up

/-- What stands on something else than a step up are names. -/
theorem isName_of_getLast? {cs : List Bytes} (h : IsNormal rooted (cs ++ stack))
    (hlast : cs.getLast? ≠ some up) : ∀ c ∈ cs, IsName c := by
  induction cs with
  | nil => exact nofun
  | cons c cs ih =>
    generalize hds : c :: cs ++ stack = ds at h
    cases h with
    | parents k _ =>
      -- then the last of them would be a step up as well
      refine absurd ?_ hlast
      rw [List.getLast?_eq_some_getLast (List.cons_ne_nil _ _)]
      exact congrArg some (List.eq_of_mem_replicate
        (hds ▸ List.mem_append_left _ (List.getLast_mem _)))
    | name hc hstack =>
      obtain ⟨rfl, rfl⟩ := List.cons.inj hds
      refine List.forall_mem_cons.mpr ⟨hc, ih hstack ?_⟩
      cases cs with
      | nil => exact nofun
      | cons d cs => rwa [List.getLast?_cons_cons] at hlast

end IsNormal

/-! ### Pushing -/

theorem push_here (rooted : Bool) (stack : List Bytes) : push rooted stack here = stack :=
  if_pos rfl

/-- **What is pushed on a normal form leaves a normal form.** -/
theorem isNormal_push {rooted : Bool} {stack : List Bytes} {c : Bytes}
    (hstack : IsNormal rooted stack) (hc : IsComponent c) :
    IsNormal rooted (push rooted stack c) := by
  unfold push
  split
  · exact hstack
  rename_i hhere
  split
  · split
    · cases rooted with
      | false => exact .parents 1 nofun
      | true => exact .nil
    · rename_i d ds
      split
      · rename_i hd
        generalize hds : d :: ds = stack at hstack
        cases hstack with
        | parents k h =>
          cases k with
          | zero => cases hds
          | succ k => exact .parents (k + 2) fun hrooted => nomatch h hrooted
        | name hname _ => exact absurd ((List.cons.inj hds).1.symm.trans hd) hname.ne_up
      · exact hstack.tail
  · rename_i hup
    exact .name ⟨hc, hhere, hup⟩ hstack

theorem isNormal_foldl_push {rooted : Bool} {stack cs : List Bytes}
    (hstack : IsNormal rooted stack) (hcs : ∀ c ∈ cs, IsComponent c) :
    IsNormal rooted (cs.foldl (push rooted) stack) := by
  induction cs generalizing stack with
  | nil => exact hstack
  | cons c cs ih =>
    exact ih (isNormal_push hstack (hcs c List.mem_cons_self))
      fun d hd => hcs d (List.mem_cons_of_mem c hd)

theorem isNormal_normalComponents (p : Bytes) :
    IsNormal (isAbsolute p) (normalComponents p).reverse := by
  rw [normalComponents, List.reverse_reverse]
  exact isNormal_foldl_push .nil fun _ => isComponent_of_mem_components

/-- What stands on a normal form and leaves it one does so by being pushed. -/
theorem IsNormal.push_eq {rooted : Bool} {c : Bytes} {stack : List Bytes}
    (h : IsNormal rooted (c :: stack)) : push rooted stack c = c :: stack := by
  generalize hcs : c :: stack = cs at h
  cases h with
  | parents k hk =>
    cases k with
    | zero => cases hcs
    | succ k =>
      obtain ⟨rfl, rfl⟩ := List.cons.inj hcs
      obtain rfl : rooted = false := Bool.eq_false_iff.mpr fun hrooted => nomatch hk hrooted
      cases k <;> rfl
  | name hc _ =>
    obtain ⟨rfl, rfl⟩ := List.cons.inj hcs
    exact hc.push_eq rooted stack

/-- **A normal form that is pushed anew stays as it is**, all of it or what is on top. -/
theorem IsNormal.foldl_push {rooted : Bool} {cs stack : List Bytes}
    (h : IsNormal rooted (cs.reverse ++ stack)) :
    cs.foldl (push rooted) stack = cs.reverse ++ stack := by
  induction cs generalizing stack with
  | nil => rfl
  | cons c cs ih =>
    rw [List.reverse_cons, List.append_assoc, List.singleton_append] at h ⊢
    rw [List.foldl_cons, h.of_append.push_eq, ih h]

/-- Steps up take as many names away. -/
theorem foldl_push_replicate_up {names : List Bytes} (h : ∀ c ∈ names, IsName c) (rooted : Bool)
    (stack : List Bytes) :
    (List.replicate names.length up).foldl (push rooted) (names ++ stack) = stack := by
  induction names with
  | nil => rfl
  | cons c names ih =>
    obtain ⟨hc, hnames⟩ := List.forall_mem_cons.mp h
    have hpush : push rooted (c :: (names ++ stack)) up = names ++ stack := by
      rw [push, if_neg (by decide), if_pos rfl]
      exact if_neg hc.ne_up
    rw [List.length_cons, List.replicate_succ, List.foldl_cons, List.cons_append, hpush, ih hnames]

/-- Steps up are not taken back. -/
theorem count_up_le_push (rooted : Bool) (stack : List Bytes) (c : Bytes) :
    stack.count up ≤ (push rooted stack c).count up := by
  unfold push
  split
  · exact Nat.le_refl _
  split
  · split
    · exact Nat.zero_le _
    · split
      · exact List.count_le_count_cons
      · rename_i hd
        rw [List.count_cons_of_ne hd]
  · exact List.count_le_count_cons

theorem count_up_le_foldl_push (rooted : Bool) (stack cs : List Bytes) :
    stack.count up ≤ (cs.foldl (push rooted) stack).count up := by
  induction cs generalizing stack with
  | nil => exact Nat.le_refl _
  | cons c cs ih => exact (count_up_le_push rooted stack c).trans (ih _)

/-! ### Paths in normal form -/

/-- A path of components does not begin with a slash of its own. -/
theorem isAbsolute_joinWith {cs : List Bytes} (h : ∀ c ∈ cs, IsComponent c) :
    isAbsolute (Bytes.joinWith [Byte.slash] cs) = false := by
  cases cs with
  | nil => rfl
  | cons c cs =>
    obtain ⟨hc, -⟩ := List.forall_mem_cons.mp h
    rw [isAbsolute, Bytes.joinWith_cons, List.head?_append_of_ne_nil _ hc.ne_nil,
      beq_eq_false_iff_ne]
    exact fun hslash => hc.slash_not_mem (List.mem_of_head? hslash)

/-- A path with components is not empty. -/
theorem joinWith_ne_nil {cs : List Bytes} (hne : cs ≠ []) (h : ∀ c ∈ cs, IsComponent c) :
    Bytes.joinWith [Byte.slash] cs ≠ [] := by
  intro hnil
  have hcs := components_joinWith h
  rw [hnil] at hcs
  exact hne hcs.symm

section

variable {rooted : Bool} {cs : List Bytes}

theorem isAbsolute_ofComponents (h : ∀ c ∈ cs, IsComponent c) :
    isAbsolute (ofComponents rooted cs) = rooted := by
  rw [ofComponents]
  split
  · rename_i hrooted
    rw [hrooted]
    rfl
  · rename_i hrooted
    rw [Bool.eq_false_iff.mpr hrooted]
    split
    · rfl
    · exact isAbsolute_joinWith h

/-- The components of a path in normal form read back. -/
theorem normalComponents_ofComponents (h : IsNormal rooted cs.reverse) :
    normalComponents (ofComponents rooted cs) = cs := by
  have hcs : ∀ c ∈ cs, IsComponent c := fun c hc => h.isComponent c (List.mem_reverse.mpr hc)
  have hfold : (cs.foldl (push rooted) []).reverse = cs := by
    have hnormal : IsNormal rooted (cs.reverse ++ []) := (List.append_nil _).symm ▸ h
    rw [hnormal.foldl_push, List.append_nil, List.reverse_reverse]
  rw [normalComponents, isAbsolute_ofComponents hcs]
  cases rooted with
  | true => rw [components_ofComponents hcs, hfold]
  | false =>
    rw [ofComponents, if_neg Bool.false_ne_true]
    split
    · rename_i hnil
      rw [List.isEmpty_iff.mp hnil]
      rfl
    · rw [components_joinWith hcs, hfold]

theorem ofComponents_ne_nil (h : ∀ c ∈ cs, IsComponent c) : ofComponents rooted cs ≠ [] := by
  rw [ofComponents]
  split
  · exact List.cons_ne_nil _ _
  split
  · exact List.cons_ne_nil _ _
  · rename_i hne
    exact joinWith_ne_nil (mt List.isEmpty_iff.mpr hne) h

/-- One component more is put behind a slash. -/
theorem ofComponents_concat (hne : cs ≠ []) (c : Bytes) :
    ofComponents rooted (cs ++ [c]) = ofComponents rooted cs ++ Byte.slash :: c := by
  have hjoin : Bytes.joinWith [Byte.slash] (cs ++ [c]) =
      Bytes.joinWith [Byte.slash] cs ++ Byte.slash :: c := by
    rw [Bytes.joinWith_concat, ← Bytes.joinWith_append_sep hne, List.append_assoc]
    rfl
  cases rooted with
  | true => simp [ofComponents, hjoin]
  | false => simp [ofComponents, hjoin, hne]

theorem clean_ofComponents (h : IsNormal rooted cs.reverse) :
    clean (ofComponents rooted cs) = ofComponents rooted cs := by
  rw [clean, normalComponents_ofComponents h,
    isAbsolute_ofComponents fun c hc => h.isComponent c (List.mem_reverse.mpr hc)]

end

theorem isAbsolute_clean (p : Bytes) : isAbsolute (clean p) = isAbsolute p :=
  isAbsolute_ofComponents fun _ => isComponent_of_mem_normalComponents

theorem normalComponents_clean (p : Bytes) : normalComponents (clean p) = normalComponents p :=
  normalComponents_ofComponents (isNormal_normalComponents p)

/-- **The normal form of a normal form is the same.** -/
theorem clean_clean (p : Bytes) : clean (clean p) = clean p :=
  clean_ofComponents (isNormal_normalComponents p)

/-! ### Below a directory -/

/-- Below no directory a path stays what it is. -/
theorem join_nil {p : Bytes} (h : p ≠ []) : join [[], p] = clean p := by
  cases p with
  | nil => exact absurd rfl h
  | cons b p => simp [join, Bytes.joinWith]

/-- **Below a directory the components of a path are pushed on those of the directory.** -/
theorem join_of_ne_nil {dir : Bytes} (h : dir ≠ []) (p : Bytes) :
    join [dir, p] = ofComponents (isAbsolute dir)
      ((components p).foldl (push (isAbsolute dir)) (normalComponents dir).reverse).reverse := by
  have hjoin : join [dir, p] = clean (dir ++ Byte.slash :: p) := by
    cases dir with
    | nil => exact absurd rfl h
    | cons b dir => simp [join, Bytes.joinWith]
  have habsolute : isAbsolute (dir ++ Byte.slash :: p) = isAbsolute dir := by
    rw [isAbsolute, isAbsolute, List.head?_append_of_ne_nil _ h]
  rw [hjoin, clean, habsolute, normalComponents, habsolute, components_append_slash,
    List.foldl_append, normalComponents, List.reverse_reverse]

/-- A path in normal form that begins at the root or does not, and goes up `k` steps at least. -/
structure IsUnder (rooted : Bool) (k : Nat) (p : Bytes) : Prop where
  isAbsolute_eq : isAbsolute p = rooted
  clean_eq : clean p = p
  le_count : k ≤ (normalComponents p).count up

theorem isUnder_ofComponents {rooted : Bool} {cs : List Bytes} {k : Nat}
    (h : IsNormal rooted cs.reverse) (hk : k ≤ cs.count up) :
    IsUnder rooted k (ofComponents rooted cs) where
  isAbsolute_eq := isAbsolute_ofComponents fun c hc => h.isComponent c (List.mem_reverse.mpr hc)
  clean_eq := clean_ofComponents h
  le_count := by rwa [normalComponents_ofComponents h]

theorem isUnder_clean (p : Bytes) : IsUnder (isAbsolute p) 0 (clean p) :=
  isUnder_ofComponents (isNormal_normalComponents p) (Nat.zero_le _)

/-- **What is put below a directory** begins where the directory does, and goes up at least as
far. -/
theorem isUnder_join {dir : Bytes} (h : dir ≠ []) (p : Bytes) :
    IsUnder (isAbsolute dir) ((normalComponents dir).count up) (join [dir, p]) := by
  rw [join_of_ne_nil h]
  refine isUnder_ofComponents ?_ ?_
  · rw [List.reverse_reverse]
    exact isNormal_foldl_push (isNormal_normalComponents dir) fun _ => isComponent_of_mem_components
  · rw [List.count_reverse, ← List.count_reverse (l := normalComponents dir)]
    exact count_up_le_foldl_push _ _ _

theorem IsUnder.ne_nil {rooted : Bool} {k : Nat} {p : Bytes} (h : IsUnder rooted k p) : p ≠ [] := by
  rintro rfl
  exact absurd h.clean_eq (by decide)

theorem IsUnder.join {rooted : Bool} {k : Nat} {dir : Bytes} (h : IsUnder rooted k dir)
    (p : Bytes) : IsUnder rooted k (join [dir, p]) := by
  obtain ⟨habsolute, hclean, hcount⟩ := isUnder_join h.ne_nil p
  exact ⟨habsolute.trans h.isAbsolute_eq, hclean, h.le_count.trans hcount⟩

end KernelPack.Path
