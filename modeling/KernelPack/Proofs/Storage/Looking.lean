import KernelPack.Proofs.Storage.Tree

/-!
# Looking at a tree

A computation that only looks leaves the tree as it is. What it gives is then a matter of the tree
alone: `Tree.Looks t x P` says that `x` leaves `t` as it is and gives something that satisfies `P`.
Computations that look are put together from the two ways of looking, at a path and at a directory,
and going through a list by looking is mapping or filtering it (`Looks.mapM`, `Looks.filterM`).
-/

namespace KernelPack.Tree

/-- The computation leaves the tree as it is, and what it gives satisfies `P`. -/
def Looks {α : Type} (t : Tree) (x : StateM Tree α) (P : α → Prop) : Prop :=
  ∃ a, x.run t = (a, t) ∧ P a

namespace Looks

variable {α β : Type} {t : Tree} {P Q : α → Prop} {R : β → Prop}

theorem pure {a : α} (h : P a) : t.Looks (Pure.pure a) P := ⟨a, rfl, h⟩

theorem bind {x : StateM Tree α} {f : α → StateM Tree β} (hx : t.Looks x P)
    (hf : ∀ a, P a → t.Looks (f a) R) : t.Looks (x >>= f) R := by
  obtain ⟨a, ha, hP⟩ := hx
  obtain ⟨b, hb, hR⟩ := hf a hP
  refine ⟨b, ?_, hR⟩
  rw [StateT.run_bind, ha]
  exact hb

theorem mono {x : StateM Tree α} (hx : t.Looks x P) (h : ∀ a, P a → Q a) : t.Looks x Q := by
  obtain ⟨a, ha, hP⟩ := hx
  exact ⟨a, ha, h a hP⟩

theorem inspect (path : Bytes) :
    t.Looks (FileStore.inspect path) (· = t.inspect path) := ⟨_, rfl, rfl⟩

theorem names (path : Bytes) : t.Looks (FileStore.names path) (· = t.names path) := ⟨_, rfl, rfl⟩

/-- A list that is gone through by looking is mapped. -/
theorem mapM {f : α → StateM Tree β} {g : α → β} {xs : List α}
    (hf : ∀ x, t.Looks (f x) (· = g x)) : t.Looks (xs.mapM f) (· = xs.map g) := by
  induction xs with
  | nil => exact pure rfl
  | cons x xs ih =>
    rw [List.mapM_cons]
    refine (hf x).bind ?_
    rintro _ rfl
    refine ih.bind ?_
    rintro _ rfl
    exact pure rfl

/-- A list that is filtered by looking keeps what passes. -/
theorem filterM {f : α → StateM Tree Bool} {p : α → Bool} {xs : List α}
    (hf : ∀ x, t.Looks (f x) (· = p x)) : t.Looks (xs.filterM f) (· = xs.filter p) := by
  have haux : ∀ acc, t.Looks (List.filterAuxM f xs acc) (· = (xs.filter p).reverse ++ acc) := by
    induction xs with
    | nil => exact fun acc => pure rfl
    | cons x xs ih =>
      intro acc
      refine (hf x).bind ?_
      rintro _ rfl
      refine (ih (cond (p x) (x :: acc) acc)).mono ?_
      rintro _ rfl
      cases hp : p x <;> simp [hp]
  refine (haux []).bind ?_
  rintro _ rfl
  exact pure (by simp)

end Looks

/-! ### What is seen -/

variable {t : Tree}

/-- Does the path lead to a file? -/
def isFile (t : Tree) (path : Bytes) : Bool :=
  match t.inspect path with
  | .ok .file => true
  | _ => false

theorem isFile_eq_true_iff {path : Bytes} : t.isFile path = true ↔ t.inspect path = .ok .file := by
  unfold isFile
  split
  · rename_i h
    exact iff_of_true rfl h
  · rename_i h
    exact iff_of_false nofun h

/-- A path that leads to a file is not empty. -/
theorem ne_nil_of_isFile {path : Bytes} (h : t.isFile path = true) : path ≠ [] := by
  rintro rfl
  simp [isFile, inspect, lookup, locate, Bind.bind, Except.bind] at h

/-- Names are found in directories only. -/
theorem inspect_of_mem_names {dir name : Bytes} (h : name ∈ t.names dir) :
    t.inspect dir = .ok .directory := by
  unfold names at h
  split at h
  · cases h
  · rename_i p hlocate
    split at h
    · rename_i hdir
      simp [inspect, lookup, hlocate, hdir, Bind.bind, Except.bind]
    · cases h

end KernelPack.Tree
