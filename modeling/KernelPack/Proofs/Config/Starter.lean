import KernelPack.Proofs.Config.Sources
import KernelPack.Proofs.Config.Validity
import KernelPack.Settings.Starter

/-!
# Starting from a list of sources

The configuration to start from lists the sources that were found, with nothing said about any of
them. Each of its kernels is acceptable by itself, since a listed source is not the empty path, so
the one thing that can be wrong with it is that two sources give their kernels **one name**: they
lie in different directories or have different extensions. `starter_accepted_iff` states both sides:
sources with different names give one kernel each, and otherwise the first name that comes a second
time is refused.
-/

namespace KernelPack.Config

/-! ### Names that come twice -/

/-- Kernel `j` is the first that has the name of an earlier one, and kernel `i` has it first. -/
structure RepeatsName (names : List Bytes) (i j : Nat) (name : Bytes) : Prop where
  lt : i < j
  first : names[i]? = some name
  second : names[j]? = some name
  nodup_before : (names.take j).Nodup

/-- The step of the check for a kernel that is acceptable by itself: only its name matters. -/
theorem validateKernels_cons_of_isAcceptable {seen : List Bytes} {e : KernelEntry}
    (hok : e.IsAcceptable) (es : List KernelEntry) :
    validateKernels seen (e :: es) =
      match seen.findIdx? (· == Kernel.nameOf e.source) with
      | some j => .error (.sameName j seen.length (Kernel.nameOf e.source))
      | none => validateKernels (seen ++ [Kernel.nameOf e.source]) es := by
  have hsource : e.source.isEmpty = false := by simpa using hok.source_ne_nil
  have hheader : e.headerLines.any (· < 0) = false := by
    cases hlines : e.headerLines with
    | none => rfl
    | some n => simpa using hok.headerLines_nonneg n hlines
  have htables : (!e.aliases.isEmpty && !e.names.isEmpty) = false := by
    rcases hok.one_table with h | h <;> simp [h]
  rw [validateKernels]
  cases seen.findIdx? (· == Kernel.nameOf e.source) <;>
    simp only [hsource, hheader, htables, Bool.false_eq_true, if_false]

/-- **What is refused about acceptable kernels is the first name that comes a second time.** -/
theorem exists_repeatsName {seen : List Bytes} {es : List KernelEntry}
    (hok : ∀ e ∈ es, e.IsAcceptable) (hseen : seen.Nodup)
    (hnodup : ¬ (seen ++ es.map fun e => Kernel.nameOf e.source).Nodup) :
    ∃ i j name, RepeatsName (seen ++ es.map fun e => Kernel.nameOf e.source) i j name ∧
      validateKernels seen es = .error (.sameName i j name) := by
  induction es generalizing seen with
  | nil =>
    rw [List.map_nil, List.append_nil] at hnodup
    exact absurd hseen hnodup
  | cons e es ih =>
    obtain ⟨he, hes⟩ := List.forall_mem_cons.mp hok
    rw [validateKernels_cons_of_isAcceptable he]
    cases hfind : seen.findIdx? (· == Kernel.nameOf e.source) with
    | some i =>
      obtain ⟨hlt, hi, -⟩ := List.findIdx?_eq_some_iff_getElem.mp hfind
      refine ⟨i, seen.length, Kernel.nameOf e.source, ⟨hlt, ?_, ?_, ?_⟩, rfl⟩
      · rw [List.getElem?_append_left hlt, List.getElem?_eq_getElem hlt]
        exact congrArg some (by simpa using hi)
      · simp
      · rw [List.take_left']
        · exact hseen
        · rfl
    | none =>
      have hnew : Kernel.nameOf e.source ∉ seen := fun hmem => by
        simpa using List.findIdx?_eq_none_iff.mp hfind _ hmem
      have hseen' : (seen ++ [Kernel.nameOf e.source]).Nodup := by
        rw [List.nodup_append]
        refine ⟨hseen, by simp, fun a ha b hb hab => hnew ?_⟩
        rwa [← List.mem_singleton.mp hb, ← hab]
      have hshift : seen ++ (e :: es).map (fun e => Kernel.nameOf e.source) =
          seen ++ [Kernel.nameOf e.source] ++ es.map fun e => Kernel.nameOf e.source := by
        simp
      rw [hshift] at hnodup ⊢
      exact ih hes hseen' hnodup

/-! ### The configuration to start from -/

variable {sources : List Bytes}

theorem map_nameOf_starter :
    ((starter sources).kernels.map fun e => Kernel.nameOf e.source) =
      sources.map Kernel.nameOf := by
  rw [starter, List.map_map]
  rfl

/-- The settings are fine, so the kernels decide. -/
theorem validate_starter :
    (starter sources).validate = validateKernels [] (starter sources).kernels := by
  have hstrategy : Renaming.Strategy.parse? Renaming.Strategy.token.label = some .token := by
    decide +kernel
  have hchunk : ¬ (starter sources).chunkSize < 0 := by
    show ¬ Artifact.standardChunkSize < 0
    decide
  have hheader : ¬ (starter sources).headerLines < 0 := by
    show ¬ (4 : Int) < 0
    decide
  have hsetting : (starter sources).strategy = Renaming.Strategy.token.label := rfl
  rw [validate, if_neg hchunk, if_neg hheader, hsetting, hstrategy]

/-- Every kernel is acceptable by itself, if no source is the empty path. -/
theorem isAcceptable_starter (h : ∀ s ∈ sources, s ≠ []) :
    ∀ e ∈ (starter sources).kernels, e.IsAcceptable := by
  intro e he
  obtain ⟨s, hs, rfl⟩ := List.mem_map.mp he
  exact ⟨h s hs, nofun, Or.inl rfl⟩

/-- A listed source becomes a kernel with the default banner and nothing to rename. -/
theorem mapIdx_kernel_starter :
    (starter sources).kernels.mapIdx (starter sources).kernel =
      sources.map fun s => ⟨Path.join [Path.here, s], 4, .ofPairs []⟩ := by
  refine List.ext_getElem? fun i => ?_
  rw [List.getElem?_mapIdx, starter, List.getElem?_map, List.getElem?_map, Option.map_map]
  rfl

/-- **When a started project builds.** Whatever the directory holds and whichever patterns are
asked for, if sources are found then the configuration that lists them is valid exactly if the names
they give their kernels are all different. It then has one kernel for each source, in order, without
aliases. Otherwise it is refused because of the first name that comes a second time. -/
theorem starter_accepted_iff (t : Tree) (dir : Bytes) (patterns : List Bytes)
    {sources : List Bytes}
    (h : ((findSources dir patterns : StateM Tree _).run t).1 = .ok sources) :
    ((starter sources).validate = .ok () ↔ (sources.map Kernel.nameOf).Nodup) ∧
    ((sources.map Kernel.nameOf).Nodup →
      (starter sources).kernelList =
        .ok (sources.map fun s => ⟨Path.join [Path.here, s], 4, .ofPairs []⟩)) ∧
    (¬ (sources.map Kernel.nameOf).Nodup →
      ∃ i j name, RepeatsName (sources.map Kernel.nameOf) i j name ∧
        (starter sources).validate = .error (.sameName i j name)) := by
  have hne : ∀ s ∈ sources, s ≠ [] := by
    obtain ⟨found, hrun, hfiles⟩ := looks_findSources (t := t) dir patterns
    intro s hs
    rw [hrun] at h
    obtain ⟨path, hpath, rfl⟩ := hfiles _ h s hs
    exact listedAs_ne_nil dir (t.ne_nil_of_isFile hpath)
  have hok := isAcceptable_starter hne
  have hvalid : (starter sources).validate = .ok () ↔ (sources.map Kernel.nameOf).Nodup := by
    rw [validate_starter, validateKernels_eq_ok_iff, map_nameOf_starter]
    exact ⟨And.right, fun hnodup => ⟨fun e he => ⟨hok e he, by simp⟩, hnodup⟩⟩
  refine ⟨hvalid, fun hnodup => ?_, fun hdup => ?_⟩
  · rw [← mapIdx_kernel_starter]
    exact Outcome.check_bind_eq_ok_iff.mpr ⟨hvalid.mpr hnodup, rfl⟩
  · rw [validate_starter, ← map_nameOf_starter]
    exact exists_repeatsName hok List.nodup_nil (by rwa [map_nameOf_starter])

/-- Two sources of one directory that differ in their extensions only are both listed, and the
configuration that lists them is refused; with different names, each becomes a kernel. -/
theorem starter_accepted_iff_extensions :
    (∃ t : Tree,
      ((findSources Path.here [] : StateM Tree _).run t).1 = .ok [utf8 "a.c", utf8 "a.cl"] ∧
      (starter [utf8 "a.c", utf8 "a.cl"]).validate = .error (.sameName 0 1 (utf8 "a"))) ∧
    ∃ t : Tree,
      ((findSources Path.here [] : StateM Tree _).run t).1 = .ok [utf8 "a.c", utf8 "b.cl"] ∧
      ((starter [utf8 "a.c", utf8 "b.cl"]).kernelList).toOption.map (·.length) = some 2 := by
  have hsame : ((findSources Path.here [] : StateM Tree _).run
      ⟨[([utf8 "a.c"], .file []), ([utf8 "a.cl"], .file [])], []⟩).1 =
        .ok [utf8 "a.c", utf8 "a.cl"] := by
    simp only [findSources, defaultPatterns, sourcesOfAll, sourcesOf, glob, globFrom, matchesIn,
      FileStore.names, Tree.names, Tree.children, Bytes.mergeSort_eq_insertionSort,
      List.isEmpty_nil, Bool.not_true, Bool.false_eq_true, if_false]
    decide +kernel
  have hdiffer : ((findSources Path.here [] : StateM Tree _).run
      ⟨[([utf8 "a.c"], .file []), ([utf8 "b.cl"], .file [])], []⟩).1 =
        .ok [utf8 "a.c", utf8 "b.cl"] := by
    simp only [findSources, defaultPatterns, sourcesOfAll, sourcesOf, glob, globFrom, matchesIn,
      FileStore.names, Tree.names, Tree.children, Bytes.mergeSort_eq_insertionSort,
      List.isEmpty_nil, Bool.not_true, Bool.false_eq_true, if_false]
    decide +kernel
  refine ⟨⟨_, hsame, ?_⟩, _, hdiffer, ?_⟩
  · obtain ⟨i, j, name, hrep, hrefused⟩ :=
      (starter_accepted_iff _ _ _ hsame).2.2 (by decide +kernel)
    have hnames : [utf8 "a.c", utf8 "a.cl"].map Kernel.nameOf = [utf8 "a", utf8 "a"] := by
      decide +kernel
    rw [hnames] at hrep
    obtain ⟨hj, -⟩ := List.getElem?_eq_some_iff.mp hrep.second
    obtain rfl : j = 1 := by
      have := hrep.lt
      simp only [List.length_cons, List.length_nil] at hj
      omega
    obtain rfl : i = 0 := by
      have := hrep.lt
      omega
    rw [hrefused, ← Option.some.inj hrep.first]
  · rw [(starter_accepted_iff _ _ _ hdiffer).2.1 (by decide +kernel)]
    rfl

end KernelPack.Config
