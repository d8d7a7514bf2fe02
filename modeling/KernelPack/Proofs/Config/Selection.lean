import KernelPack.Config.Basic
import KernelPack.Proofs.Path.Components
import Mathlib.Data.List.Find
import Mathlib.Data.List.Nodup

/-!
# Selection by name

Kernels are picked by names, and a name may be written as a path or with an extension: it **calls**
for the kernels that have the name it stands for (`Kernel.IsCalled`). The marks serve two ends in
one pass over the kernels: a kernel is taken if its name has a mark, and the mark then says that the
name was seen. What has a mark stays what was asked for (`isSome_selectStep_fst`), so that neither
end disturbs the other.

Selection comes out well exactly if every name calls for some kernel (`selectKernels_eq_ok_iff`),
and else it reports the first name that calls for none (`selectKernels_eq_error_iff`).

The first main statement adds what users rely on: the kernels keep the order of the configuration,
the order of the names and their repetitions do not matter, nor how a name is written, and what was
selected is selected again by the same names (`selectKernels_by_name`).

The second is about the names that are **reported**. They are read like any other, so a reported
name that has a dot loses what stands behind it and calls for another kernel or for none
(`selectKernels_reported_name`).
-/

namespace KernelPack

variable {kernels : List Kernel} {names : List Bytes}

/-! ### Names that call for kernels -/

namespace Kernel

/-- The name calls for the kernel. -/
def IsCalled (k : Kernel) (n : Bytes) : Prop := k.name = nameOf n

instance (k : Kernel) (n : Bytes) : Decidable (k.IsCalled n) :=
  inferInstanceAs (Decidable (k.name = nameOf n))

/-- One of the names calls for the kernel. -/
def IsWanted (names : List Bytes) (k : Kernel) : Prop := ∃ n ∈ names, k.IsCalled n

instance (names : List Bytes) (k : Kernel) : Decidable (k.IsWanted names) :=
  inferInstanceAs (Decidable (∃ n ∈ names, k.IsCalled n))

/-- Of the names it matters only what they stand for. -/
theorem isWanted_iff_mem {k : Kernel} : k.IsWanted names ↔ k.name ∈ names.map nameOf := by
  rw [List.mem_map]
  exact exists_congr fun n => and_congr_right' eq_comm

end Kernel

/-- Every name calls for a kernel of the list. -/
def AllFound (kernels : List Kernel) (names : List Bytes) : Prop :=
  ∀ n ∈ names, ∃ k ∈ kernels, k.IsCalled n

theorem allFound_iff_mem :
    AllFound kernels names ↔ ∀ b ∈ names.map Kernel.nameOf, ∃ k ∈ kernels, k.name = b :=
  (List.forall_mem_map (P := fun b => ∃ k ∈ kernels, k.name = b)).symm

/-! ### The marks -/

@[simp] theorem Marks.set_self (marks : Marks) (n : Bytes) (seen : Bool) :
    marks.set n seen n = some seen :=
  if_pos rfl

theorem Marks.set_of_ne {b n : Bytes} (h : b ≠ n) (marks : Marks) (seen : Bool) :
    marks.set n seen b = marks b :=
  if_neg h

/-- What names ask for in addition. -/
theorem Marks.foldl_set (names : List Bytes) (marks : Marks) (b : Bytes) :
    names.foldl (fun marks n => marks.set (Kernel.nameOf n) false) marks b =
      if b ∈ names.map Kernel.nameOf then some false else marks b := by
  induction names generalizing marks with
  | nil => rfl
  | cons n names ih =>
    rw [List.foldl_cons, ih, List.map_cons]
    by_cases hlater : b ∈ names.map Kernel.nameOf
    · rw [if_pos hlater, if_pos (List.mem_cons_of_mem _ hlater)]
    · rw [if_neg hlater]
      by_cases hb : b = Kernel.nameOf n
      · rw [hb, set_self, if_pos List.mem_cons_self]
      · rw [set_of_ne hb, if_neg (List.not_mem_cons_of_ne_of_not_mem hb hlater)]

/-- Names ask for what they stand for. -/
theorem Marks.ofNames_apply (names : List Bytes) (b : Bytes) :
    Marks.ofNames names b = if b ∈ names.map Kernel.nameOf then some false else none :=
  Marks.foldl_set names _ b

theorem isSome_ofNames (k : Kernel) :
    (Marks.ofNames names k.name).isSome = decide (k.IsWanted names) := by
  rw [Marks.ofNames_apply]
  by_cases h : k.name ∈ names.map Kernel.nameOf
  · rw [if_pos h, decide_eq_true (Kernel.isWanted_iff_mem.mpr h), Option.isSome_some]
  · rw [if_neg h, decide_eq_false (mt Kernel.isWanted_iff_mem.mp h), Option.isSome_none]

/-! ### The pass over the kernels -/

/-- A kernel marks its name, if the name is asked for, and leaves the other marks. -/
theorem selectStep_fst (s : Marks × List Kernel) (k : Kernel) (b : Bytes) :
    (selectStep s k).1 b = (s.1 b).map (· || k.name == b) := by
  unfold selectStep
  by_cases hb : b = k.name
  · -- the mark says so from now on, if there is one
    subst hb
    split <;> rename_i hsome
    · obtain ⟨seen, hseen⟩ := Option.isSome_iff_exists.mp hsome
      simp [hseen]
    · rw [Option.not_isSome_iff_eq_none.mp hsome, Option.map_none]
  · have hne : (k.name == b) = false := beq_eq_false_iff_ne.mpr (Ne.symm hb)
    have hsame : (s.1 b).map (· || k.name == b) = s.1 b := by simp [hne]
    rw [hsame]
    split
    · exact Marks.set_of_ne hb _ _
    · rfl

/-- A kernel is taken if its name has a mark. -/
theorem selectStep_snd (s : Marks × List Kernel) (k : Kernel) :
    (selectStep s k).2 = s.2 ++ [k].filter fun k => (s.1 k.name).isSome := by
  unfold selectStep
  split <;> rename_i hsome <;> simp [hsome]

/-- What is asked for does not change on the way. -/
theorem isSome_selectStep_fst (s : Marks × List Kernel) (k : Kernel) (b : Bytes) :
    ((selectStep s k).1 b).isSome = (s.1 b).isSome := by
  rw [selectStep_fst, Option.isSome_map]

/-- **The marks behind the pass**: the names asked for that a kernel has are marked as seen. -/
theorem foldl_selectStep_fst (kernels : List Kernel) (s : Marks × List Kernel) (b : Bytes) :
    (kernels.foldl selectStep s).1 b = (s.1 b).map (· || kernels.any fun k => k.name == b) := by
  induction kernels generalizing s with
  | nil => simp
  | cons k kernels ih =>
    rw [List.foldl_cons, ih, selectStep_fst, Option.map_map, List.any_cons]
    simp only [Function.comp_def, Bool.or_assoc]

/-- **The kernels taken in the pass**: those whose names had a mark before it. -/
theorem foldl_selectStep_snd (kernels : List Kernel) (s : Marks × List Kernel) :
    (kernels.foldl selectStep s).2 = s.2 ++ kernels.filter fun k => (s.1 k.name).isSome := by
  induction kernels generalizing s with
  | nil => simp
  | cons k kernels ih =>
    rw [List.foldl_cons, ih, selectStep_snd, List.append_assoc]
    simp only [isSome_selectStep_fst]
    rw [← List.filter_append, List.singleton_append]

/-! ### The first name that calls for nothing -/

/-- The first name that calls for no kernel. -/
def missing? (kernels : List Kernel) (names : List Bytes) : Option Bytes :=
  names.find? fun n => !(kernels.any fun k => k.name == Kernel.nameOf n)

theorem any_name_eq_true_iff {n : Bytes} :
    (kernels.any fun k => k.name == Kernel.nameOf n) = true ↔ ∃ k ∈ kernels, k.IsCalled n := by
  rw [List.any_eq_true]
  exact exists_congr fun k => and_congr_right' beq_iff_eq

theorem missing?_eq_none_iff : missing? kernels names = none ↔ AllFound kernels names := by
  rw [missing?, List.find?_eq_none]
  refine forall₂_congr fun n _ => ?_
  rw [Bool.not_eq_true, Bool.not_eq_false', any_name_eq_true_iff]

theorem missing?_eq_some_iff {n : Bytes} :
    missing? kernels names = some n ↔ ∃ before after, names = before ++ n :: after ∧
      AllFound kernels before ∧ ∀ k ∈ kernels, ¬ k.IsCalled n := by
  have hmissing : (!(kernels.any fun k => k.name == Kernel.nameOf n)) = true ↔
      ∀ k ∈ kernels, ¬ k.IsCalled n := by
    rw [Bool.not_eq_true', Bool.eq_false_iff, ne_eq, any_name_eq_true_iff]
    simp
  rw [missing?, List.find?_eq_some_iff_append, hmissing]
  constructor
  · rintro ⟨hn, before, after, hnames, hbefore⟩
    refine ⟨before, after, hnames, fun m hm => any_name_eq_true_iff.mp ?_, hn⟩
    simpa using hbefore m hm
  · rintro ⟨before, after, hnames, hbefore, hn⟩
    refine ⟨hn, before, after, hnames, fun m hm => ?_⟩
    simpa using any_name_eq_true_iff.mpr (hbefore m hm)

/-! ### The two outcomes -/

/-- Behind the pass a name is seen exactly if it calls for a kernel. -/
theorem isSeen_foldl_selectStep {n : Bytes} (hn : n ∈ names) :
    (kernels.foldl selectStep (Marks.ofNames names, [])).1.isSeen n =
      kernels.any fun k => k.name == Kernel.nameOf n := by
  have hasked : Marks.ofNames names (Kernel.nameOf n) = some false := by
    rw [Marks.ofNames_apply, if_pos (List.mem_map_of_mem hn)]
  simp only [Marks.isSeen, foldl_selectStep_fst, hasked]
  rfl

/-- So the first name that is not seen is the first that calls for no kernel. -/
theorem find?_not_isSeen (kernels : List Kernel) (names : List Bytes) :
    (names.find? fun n => !(kernels.foldl selectStep (Marks.ofNames names, [])).1.isSeen n) =
      missing? kernels names :=
  List.find?_congr fun n hn => by rw [isSeen_foldl_selectStep hn]

/-- The kernels taken are those that a name calls for. -/
theorem foldl_selectStep_ofNames_snd (kernels : List Kernel) (names : List Bytes) :
    (kernels.foldl selectStep (Marks.ofNames names, [])).2 =
      kernels.filter (·.IsWanted names) := by
  rw [foldl_selectStep_snd]
  simp only [isSome_ofNames, List.nil_append]

theorem selectKernels_of_missing (hne : names ≠ []) {n : Bytes}
    (h : missing? kernels names = some n) : selectKernels kernels names = .error n := by
  have hempty : ¬ names.isEmpty = true := by rwa [List.isEmpty_iff]
  simp only [selectKernels, if_neg hempty, find?_not_isSeen, h]

theorem selectKernels_of_allFound (hne : names ≠ []) (h : AllFound kernels names) :
    selectKernels kernels names = .ok (kernels.filter (·.IsWanted names)) := by
  have hempty : ¬ names.isEmpty = true := by rwa [List.isEmpty_iff]
  rw [← missing?_eq_none_iff] at h
  simp only [selectKernels, if_neg hempty, find?_not_isSeen, h, foldl_selectStep_ofNames_snd]

/-- **What is selected**: the kernels that one of the names calls for, if every name calls for
one. -/
theorem selectKernels_eq_ok_iff (hne : names ≠ []) {chosen : List Kernel} :
    selectKernels kernels names = .ok chosen ↔
      AllFound kernels names ∧ chosen = kernels.filter (·.IsWanted names) := by
  cases hmissing : missing? kernels names with
  | none =>
    have hfound := missing?_eq_none_iff.mp hmissing
    rw [selectKernels_of_allFound hne hfound, Except.ok.injEq, and_iff_right hfound, eq_comm]
  | some n =>
    rw [selectKernels_of_missing hne hmissing, ← missing?_eq_none_iff, hmissing]
    exact iff_of_false nofun fun h => nomatch h.1

/-- **What is reported**: the first name that calls for no kernel. -/
theorem selectKernels_eq_error_iff (hne : names ≠ []) {n : Bytes} :
    selectKernels kernels names = .error n ↔ ∃ before after, names = before ++ n :: after ∧
      AllFound kernels before ∧ ∀ k ∈ kernels, ¬ k.IsCalled n := by
  rw [← missing?_eq_some_iff]
  cases hmissing : missing? kernels names with
  | none =>
    rw [selectKernels_of_allFound hne (missing?_eq_none_iff.mp hmissing)]
    exact iff_of_false nofun nofun
  | some m => rw [selectKernels_of_missing hne hmissing, Except.error.injEq, Option.some.injEq]

/-- Only kernels of the list are selected. -/
theorem mem_of_mem_selectKernels {chosen : List Kernel}
    (h : selectKernels kernels names = .ok chosen) {k : Kernel} (hk : k ∈ chosen) :
    k ∈ kernels := by
  by_cases hne : names = []
  · subst hne
    rwa [Except.ok.inj h]
  · obtain ⟨-, rfl⟩ := (selectKernels_eq_ok_iff hne).mp h
    exact (List.mem_filter.mp hk).1

/-! ### What the names matter for -/

/-- Names that stand for the same are found together and call for the same kernels. -/
theorem selectKernels_eq_ok_congr {names' : List Bytes} (hne : names ≠ [])
    (hsame : ∀ b, b ∈ names'.map Kernel.nameOf ↔ b ∈ names.map Kernel.nameOf)
    {chosen : List Kernel} :
    selectKernels kernels names' = .ok chosen ↔ selectKernels kernels names = .ok chosen := by
  have hne' : names' ≠ [] := by
    rintro rfl
    obtain ⟨n, hn⟩ := List.exists_mem_of_ne_nil names hne
    exact absurd ((hsame _).mpr (List.mem_map_of_mem hn)) List.not_mem_nil
  have hwanted : ∀ k : Kernel, k.IsWanted names' ↔ k.IsWanted names := fun k => by
    rw [Kernel.isWanted_iff_mem, Kernel.isWanted_iff_mem, hsame]
  rw [selectKernels_eq_ok_iff hne, selectKernels_eq_ok_iff hne', allFound_iff_mem, allFound_iff_mem]
  simp only [hsame, hwanted]

/-- What was selected is selected again. -/
theorem selectKernels_chosen {chosen : List Kernel} (hne : names ≠ [])
    (h : selectKernels kernels names = .ok chosen) : selectKernels chosen names = .ok chosen := by
  obtain ⟨hfound, rfl⟩ := (selectKernels_eq_ok_iff hne).mp h
  refine (selectKernels_eq_ok_iff hne).mpr ⟨fun n hn => ?_, ?_⟩
  · obtain ⟨k, hk, hcalled⟩ := hfound n hn
    exact ⟨k, List.mem_filter.mpr ⟨hk, decide_eq_true ⟨n, hn, hcalled⟩⟩, hcalled⟩
  · rw [List.filter_filter]
    simp only [Bool.and_self]

/-- **Selection by name keeps the order of the kernels.** Given some names, it comes out well
exactly if every name calls for a kernel, and then the kernels called for are selected, each as
often as it is listed and in that order. This depends only on the set of what the names stand for;
selecting by the same names once more changes nothing; and a failure reports the first name that
calls for no kernel. -/
theorem selectKernels_by_name (hne : names ≠ []) :
    (∀ chosen, selectKernels kernels names = .ok chosen ↔
      (∀ n ∈ names, ∃ k ∈ kernels, k.name = Kernel.nameOf n) ∧
        chosen = kernels.filter fun k => ∃ n ∈ names, k.name = Kernel.nameOf n) ∧
    (∀ names', (∀ b, b ∈ names'.map Kernel.nameOf ↔ b ∈ names.map Kernel.nameOf) →
      ∀ chosen, selectKernels kernels names' = .ok chosen ↔
        selectKernels kernels names = .ok chosen) ∧
    (∀ chosen, selectKernels kernels names = .ok chosen →
      selectKernels chosen names = .ok chosen) ∧
    ∀ n, selectKernels kernels names = .error n ↔ ∃ before after, names = before ++ n :: after ∧
      (∀ m ∈ before, ∃ k ∈ kernels, k.name = Kernel.nameOf m) ∧
        ∀ k ∈ kernels, k.name ≠ Kernel.nameOf n :=
  ⟨fun _ => selectKernels_eq_ok_iff hne, fun _ hsame _ => selectKernels_eq_ok_congr hne hsame,
    fun _ => selectKernels_chosen hne, fun _ => selectKernels_eq_error_iff hne⟩

/-- Two files of one name in different directories are called for by one name, however it is
written; and a name that calls for nothing is reported, not the one behind it. -/
theorem selectKernels_by_name_paths :
    let kernel (source : Bytes) : Kernel := ⟨source, 0, ⟨.positional, [], []⟩⟩
    let kernels := [kernel (utf8 "d/a.cl"), kernel (utf8 "b.cl"), kernel (utf8 "a.c")]
    [utf8 "x/a.h", utf8 "a"] ≠ [] ∧
    selectKernels kernels [utf8 "x/a.h", utf8 "a"] =
      .ok [kernel (utf8 "d/a.cl"), kernel (utf8 "a.c")] ∧
    selectKernels kernels [utf8 "a", utf8 "c", utf8 "d"] = .error (utf8 "c") := by
  intro kernel kernels
  obtain ⟨hok, -, -, -⟩ := @selectKernels_by_name kernels [utf8 "x/a.h", utf8 "a"] (by decide)
  obtain ⟨-, -, -, herror⟩ :=
    @selectKernels_by_name kernels [utf8 "a", utf8 "c", utf8 "d"] (by decide)
  exact ⟨by decide, (hok _).mpr (by decide),
    (herror _).mpr ⟨[utf8 "a"], [utf8 "d"], rfl, by decide, by decide⟩⟩

/-! ### Reported names -/

namespace Kernel

/-- A kernel is called for by its source. -/
theorem isCalled_source (k : Kernel) : k.IsCalled k.source := rfl

/-- A kernel is called for by its own name if the file name of its source has at most one dot. -/
theorem isCalled_name_iff {k : Kernel} :
    k.IsCalled k.name ↔ (Path.base k.source).count Byte.dot ≤ 1 := by
  have hdots := Path.count_dot_stem k.source
  rw [IsCalled, eq_comm, name, nameOf, nameOf, Path.stem_stem_eq_iff, ← List.count_eq_zero]
  omega

end Kernel

/-- **One name selects one kernel** where all kernels have different names. -/
theorem selectKernels_of_isCalled (hnodup : (kernels.map Kernel.name).Nodup) {k : Kernel}
    (hk : k ∈ kernels) {n : Bytes} (hn : k.IsCalled n) : selectKernels kernels [n] = .ok [k] := by
  refine (selectKernels_eq_ok_iff (List.cons_ne_nil n [])).mpr
    ⟨List.forall_mem_singleton.mpr ⟨k, hk, hn⟩, ?_⟩
  have hwanted : ∀ l : Kernel, l.IsWanted [n] ↔ l.name = k.name := fun l => by
    rw [hn, Kernel.isWanted_iff_mem, List.map_singleton, List.mem_singleton]
  -- the kernels on either side have other names
  obtain ⟨before, after, rfl⟩ := List.append_of_mem hk
  rw [List.map_append, List.map_cons, List.nodup_middle, List.nodup_cons,
    ← List.map_append] at hnodup
  have hnone : ∀ ls : List Kernel, ls ⊆ before ++ after → ls.filter (·.IsWanted [n]) = [] := by
    refine fun ls hls => List.filter_eq_nil_iff.mpr fun l hl h => hnodup.1 ?_
    exact List.mem_map.mpr ⟨l, hls hl, (hwanted l).mp (of_decide_eq_true h)⟩
  have hone : [k].filter (·.IsWanted [n]) = [k] :=
    List.filter_eq_self.mpr (List.forall_mem_singleton.mpr (decide_eq_true ((hwanted k).mpr rfl)))
  rw [List.append_cons, List.filter_append, List.filter_append, hone,
    hnone before (List.subset_append_left _ _), hnone after (List.subset_append_right _ _)]
  rfl

/-- **When a kernel can be selected by its reported name.** Of kernels with different names, each is
selected by the path of its source. The name reported for it selects it exactly if the last
component of that path has no more than one dot. With more dots the reported name stands for
another one, itself without what stands behind its last dot: the kernel of that name is selected in
its place, and without such a kernel the reported name is refused. -/
theorem selectKernels_reported_name (hnodup : (kernels.map Kernel.name).Nodup) {k : Kernel}
    (hk : k ∈ kernels) :
    selectKernels kernels [k.source] = .ok [k] ∧
    (selectKernels kernels [k.name] = .ok [k] ↔ (Path.base k.source).count Byte.dot ≤ 1) ∧
    (1 < (Path.base k.source).count Byte.dot → Kernel.nameOf k.name ≠ k.name ∧
      (∀ l ∈ kernels, l.name = Kernel.nameOf k.name → selectKernels kernels [k.name] = .ok [l]) ∧
      ((∀ l ∈ kernels, l.name ≠ Kernel.nameOf k.name) →
        selectKernels kernels [k.name] = .error k.name)) := by
  refine ⟨selectKernels_of_isCalled hnodup hk k.isCalled_source, ?_, fun hdots => ⟨?_, ?_, ?_⟩⟩
  · rw [← Kernel.isCalled_name_iff]
    refine ⟨fun h => ?_, selectKernels_of_isCalled hnodup hk⟩
    -- what is selected was called for
    obtain ⟨-, hchosen⟩ := (selectKernels_eq_ok_iff (List.cons_ne_nil k.name [])).mp h
    have hmem : k ∈ kernels.filter (·.IsWanted [k.name]) := by
      rw [← hchosen]
      exact List.mem_singleton_self k
    obtain ⟨n, hn, hcalled⟩ := of_decide_eq_true (List.mem_filter.mp hmem).2
    rwa [List.mem_singleton.mp hn] at hcalled
  · exact fun h => absurd (Kernel.isCalled_name_iff.mp h.symm) (not_le.mpr hdots)
  · exact fun l hl hname => selectKernels_of_isCalled hnodup hl hname
  · exact fun hnone => (selectKernels_eq_error_iff (List.cons_ne_nil k.name [])).mpr
      ⟨[], [], rfl, List.forall_mem_nil _, hnone⟩

/-- Of two versions of a kernel, the one with the version in its name is reported by a name that
selects the other; of two versions that both have it, neither can be selected by its name. -/
theorem selectKernels_reported_name_version :
    let kernel (source : Bytes) : Kernel := ⟨source, 0, ⟨.positional, [], []⟩⟩
    let old := kernel (utf8 "blur.v1.cl")
    let new := kernel (utf8 "blur.v2.cl")
    let plain := kernel (utf8 "src/blur.cl")
    ([plain, new].map Kernel.name).Nodup ∧ new ∈ [plain, new] ∧ new.name = utf8 "blur.v2" ∧
    selectKernels [plain, new] [utf8 "blur.v2"] = .ok [plain] ∧
    selectKernels [plain, new] [utf8 "blur.v2.cl"] = .ok [new] ∧
    selectKernels [plain, new] [utf8 "blur"] = .ok [plain] ∧
    selectKernels [old, new] [utf8 "blur.v2"] = .error (utf8 "blur.v2") := by
  intro kernel old new plain
  have hnodup : ([plain, new].map Kernel.name).Nodup := by decide
  have hnodup' : ([old, new].map Kernel.name).Nodup := by decide
  obtain ⟨hsource, -, hdotted⟩ := selectKernels_reported_name hnodup (k := new) (by decide)
  obtain ⟨-, hplain, -⟩ := selectKernels_reported_name hnodup (k := plain) (by decide)
  obtain ⟨-, -, hdotted'⟩ := selectKernels_reported_name hnodup' (k := new) (by decide)
  exact ⟨hnodup, by decide, by decide, (hdotted (by decide)).2.1 plain (by decide) (by decide),
    hsource, hplain.mpr (by decide), (hdotted' (by decide)).2.2 (by decide)⟩

end KernelPack
