import KernelPack.Config.Basic
import KernelPack.Proofs.Kernel.Packing

/-!
# Valid configurations

`validate` goes through the kernels and stops at the first thing wrong. `validateKernels_eq_ok_iff`
says what it comes to: every kernel is acceptable by itself, and the names that the sources give
are all different.

Different names are meant to keep the files of different kernels apart. They do so as long as the
sources **name their kernels plainly** (`NamesPlainly`): the last component of the path is the name
of a file, and up to its extension it can stand in a symbol as it is. Otherwise two different names
may lead to one symbol, and the second kernel overwrites the first; `outputs_distinct` states both.
-/

namespace KernelPack

namespace KernelEntry

/-- The kernel is acceptable by itself. -/
structure IsAcceptable (e : KernelEntry) : Prop where
  source_ne_nil : e.source ≠ []
  headerLines_nonneg : ∀ n ∈ e.headerLines, 0 ≤ n
  one_table : e.aliases = [] ∨ e.names = []

/-- The source names its kernel plainly: it leads to the name of a file, and that name, without its
extension, can stand in a symbol after `start` as it is. -/
structure NamesPlainly (start : Bytes) (e : KernelEntry) : Prop where
  isName_base : Path.IsName (Path.base e.source)
  fitsSymbol : FitsSymbol start (Kernel.nameOf e.source)

end KernelEntry

namespace Config

/-! ### What validity comes to -/

/-- The step of the check: a kernel passes if it is acceptable and has a new name. -/
theorem validateKernels_cons_eq_ok_iff {seen : List Bytes} {e : KernelEntry}
    {es : List KernelEntry} :
    validateKernels seen (e :: es) = .ok () ↔
      e.IsAcceptable ∧ Kernel.nameOf e.source ∉ seen ∧
        validateKernels (seen ++ [Kernel.nameOf e.source]) es = .ok () := by
  have hseen : seen.findIdx? (· == Kernel.nameOf e.source) = none ↔
      Kernel.nameOf e.source ∉ seen := by
    rw [List.findIdx?_eq_none_iff]
    constructor
    · intro h hmem
      simpa using h _ hmem
    · intro h x hx
      exact beq_eq_false_iff_ne.mpr fun he => h (he ▸ hx)
  have hheader : e.headerLines.any (· < 0) = true ↔ ¬ ∀ n ∈ e.headerLines, 0 ≤ n := by
    cases e.headerLines with
    | none => simp
    | some n => simp
  rw [validateKernels, ← hseen]
  split
  · rename_i h
    exact iff_of_false nofun fun ⟨hok, _⟩ => hok.source_ne_nil (List.isEmpty_iff.mp h)
  rename_i hsource
  split
  · rename_i h
    exact iff_of_false nofun fun ⟨hok, _⟩ => hheader.mp h hok.headerLines_nonneg
  rename_i hlines
  split
  · rename_i h
    refine iff_of_false nofun fun ⟨hok, _⟩ => ?_
    rcases hok.one_table with htable | htable <;> simp [htable] at h
  rename_i htables
  have hok : e.IsAcceptable := by
    refine ⟨fun h => hsource (List.isEmpty_iff.mpr h), ?_, ?_⟩
    · exact Decidable.not_not.mp fun h => hlines (hheader.mpr h)
    · cases ha : e.aliases with
      | nil => exact Or.inl rfl
      | cons a as =>
        cases hn : e.names with
        | nil => exact Or.inr rfl
        | cons n ns => simp [ha, hn] at htables
  split
  · rename_i j hj
    exact iff_of_false nofun fun ⟨_, hnone, _⟩ => by
      rw [hj] at hnone
      cases hnone
  · rename_i hnone
    exact ⟨fun h => ⟨hok, hnone, h⟩, fun h => h.2.2⟩

/-- **Kernels pass exactly if each is acceptable and no name is given twice.** -/
theorem validateKernels_eq_ok_iff {seen : List Bytes} {es : List KernelEntry} :
    validateKernels seen es = .ok () ↔
      (∀ e ∈ es, e.IsAcceptable ∧ Kernel.nameOf e.source ∉ seen) ∧
        (es.map fun e => Kernel.nameOf e.source).Nodup := by
  induction es generalizing seen with
  | nil => simp [validateKernels]
  | cons e es ih =>
    rw [validateKernels_cons_eq_ok_iff, ih, List.forall_mem_cons, List.map_cons, List.nodup_cons]
    simp only [List.mem_append, List.mem_singleton, not_or, List.mem_map, not_exists, not_and]
    constructor
    · rintro ⟨hok, hnew, hrest, hnodup⟩
      exact ⟨⟨⟨hok, hnew⟩, fun f hf => ⟨(hrest f hf).1, (hrest f hf).2.1⟩⟩,
        fun f hf => (hrest f hf).2.2, hnodup⟩
    · rintro ⟨⟨⟨hok, hnew⟩, hrest⟩, hne, hnodup⟩
      exact ⟨hok, hnew, fun f hf => ⟨(hrest f hf).1, (hrest f hf).2, hne f hf⟩, hnodup⟩

/-- The kernels of a valid configuration, and what its validity says about them. -/
theorem kernelList_eq_ok {c : Config} {kernels : List Kernel} (h : c.kernelList = .ok kernels) :
    kernels = c.kernels.mapIdx c.kernel ∧ (∀ e ∈ c.kernels, e.IsAcceptable) ∧
      (c.kernels.map fun e => Kernel.nameOf e.source).Nodup := by
  obtain ⟨hvalid, hkernels⟩ := Outcome.check_bind_eq_ok_iff.mp h
  unfold validate at hvalid
  split at hvalid
  · cases hvalid
  split at hvalid
  · cases hvalid
  split at hvalid
  · cases hvalid
  obtain ⟨hall, hnodup⟩ := validateKernels_eq_ok_iff.mp hvalid
  exact ⟨(Except.ok.inj hkernels).symm, fun e he => (hall e he).1, hnodup⟩

/-- A configuration that passes the check has a list of kernels. -/
theorem kernelList_of_isOk {c : Config} (h : c.validate.isOk = true) :
    c.kernelList = .ok (c.kernels.mapIdx c.kernel) := by
  obtain ⟨_, hvalidate⟩ := Outcome.exists_eq_ok_of_isOk h
  exact Outcome.check_bind_eq_ok_iff.mpr ⟨hvalidate, rfl⟩

/-! ### The files of different kernels -/

/-- A kernel of the list comes from the entry at its index. -/
theorem exists_entry {c : Config} {kernels : List Kernel} (h : c.kernelList = .ok kernels)
    {i : Nat} {k : Kernel} (hk : kernels[i]? = some k) :
    ∃ e, c.kernels[i]? = some e ∧ k = c.kernel i e := by
  rw [(kernelList_eq_ok h).1, List.getElem?_mapIdx, Option.map_eq_some_iff] at hk
  obtain ⟨e, he, rfl⟩ := hk
  exact ⟨e, he, rfl⟩

/-- A kernel has the name that its source gives it, if this is plain. -/
theorem name_kernel {c : Config} {i : Nat} {e : KernelEntry} {start : Bytes}
    (hne : e.source ≠ []) (h : e.NamesPlainly start) :
    (c.kernel i e).name = Kernel.nameOf e.source := by
  have hbase : Path.base (Path.join [c.sourceDir, e.source]) = Path.base e.source :=
    Path.base_join c.sourceDir hne h.isName_base
  simp only [Kernel.name, Kernel.nameOf, Path.stem, kernel, hbase]

/-- Entries at different places of a valid configuration give different names. -/
theorem nameOf_ne_of_nodup {es : List KernelEntry}
    (h : (es.map fun e => Kernel.nameOf e.source).Nodup) {i j : Nat} (hij : i ≠ j)
    {e f : KernelEntry} (he : es[i]? = some e) (hf : es[j]? = some f) :
    Kernel.nameOf e.source ≠ Kernel.nameOf f.source := by
  intro hsame
  have hi : (es.map fun e => Kernel.nameOf e.source)[i]? = some (Kernel.nameOf e.source) := by
    rw [List.getElem?_map, he, Option.map_some]
  have hj : (es.map fun e => Kernel.nameOf e.source)[j]? = some (Kernel.nameOf e.source) := by
    rw [List.getElem?_map, hf, Option.map_some, hsame]
  obtain ⟨hlt, -⟩ := List.getElem?_eq_some_iff.mp hi
  exact hij ((List.getElem?_inj hlt h).mp (hi.trans hj.symm))

/-- **When different kernels write different files.** In a valid configuration, under any options
and in any trees, the definitions and declarations that two kernels are written to are four
different files exactly if the symbols of the kernels differ, and they do differ if the sources of
both name them plainly. -/
theorem outputs_distinct (c : Config) {kernels : List Kernel} (h : c.kernelList = .ok kernels)
    (o : PackOptions) {i j : Nat} (hij : i ≠ j) {k l : Kernel} (hk : kernels[i]? = some k)
    (hl : kernels[j]? = some l) :
    (∀ t t' r r', packedIn o t k = .ok r → packedIn o t' l = .ok r' → r.written = true →
      r'.written = true → [r.definition, r.declaration] ++ [r'.definition, r'.declaration]
        = o.outputs k ++ o.outputs l) ∧
    ((o.outputs k ++ o.outputs l).Nodup ↔ o.symbol k ≠ o.symbol l) ∧
    ∀ e f, c.kernels[i]? = some e → c.kernels[j]? = some f →
      e.NamesPlainly o.symbolStart → f.NamesPlainly o.symbolStart → o.symbol k ≠ o.symbol l := by
  refine ⟨fun t t' r r' hr hr' hw hw' => by rw [pack_outputs hr hw, pack_outputs hr' hw'],
    PackOptions.nodup_outputs_iff, fun e f he hf hplain hplain' hsame => ?_⟩
  obtain ⟨-, hok, hnodup⟩ := kernelList_eq_ok h
  obtain ⟨e', he', rfl⟩ := exists_entry h hk
  obtain rfl := Option.some.inj (he.symm.trans he')
  obtain ⟨f', hf', rfl⟩ := exists_entry h hl
  obtain rfl := Option.some.inj (hf.symm.trans hf')
  have hname := name_kernel (c := c) (i := i) (hok e (List.mem_of_getElem? he)).source_ne_nil hplain
  have hname' :=
    name_kernel (c := c) (i := j) (hok f (List.mem_of_getElem? hf)).source_ne_nil hplain'
  rw [PackOptions.symbol, PackOptions.symbol, hname, hname'] at hsame
  exact nameOf_ne_of_nodup hnodup hij he hf
    (symbolOf_inj hplain.fitsSymbol hplain'.fitsSymbol hsame)

/-- Of three kernels whose names are all different, the first two write the same files, since a
hyphen cannot stand in a symbol; the last two name themselves plainly and keep apart. -/
theorem outputs_distinct_hyphen :
    ∃ (c : Config) (k l n : Kernel),
      c.kernels.map (·.source) = [utf8 "a-b.cl", utf8 "a_b.cl", utf8 "c.cl"] ∧
      c.kernelList = .ok [k, l, n] ∧
      ¬ (PackOptions.outputs {} k ++ PackOptions.outputs {} l).Nodup ∧
      (PackOptions.outputs {} l ++ PackOptions.outputs {} n).Nodup := by
  let entry (source : Bytes) : KernelEntry := ⟨source, none, [], [], []⟩
  let c : Config :=
    { format := [], verbose := false, noColor := false, sourceDir := [], outputDir := Path.up,
      symbolStart := utf8 "opencl___", debugMacro := [], chunkSize := 0, headerLines := 0,
      strategy := utf8 "token", stripLineComments := true,
      kernels := [entry (utf8 "a-b.cl"), entry (utf8 "a_b.cl"), entry (utf8 "c.cl")] }
  let k := c.kernel 0 (entry (utf8 "a-b.cl"))
  let l := c.kernel 1 (entry (utf8 "a_b.cl"))
  let n := c.kernel 2 (entry (utf8 "c.cl"))
  have hok : c.validate.isOk = true := by decide +kernel
  have hvalid : c.kernelList = .ok [k, l, n] := by
    obtain ⟨_, hvalidate⟩ := Outcome.exists_eq_ok_of_isOk hok
    exact Outcome.check_bind_eq_ok_iff.mpr ⟨hvalidate, rfl⟩
  have hplain : ∀ source, source = utf8 "a_b.cl" ∨ source = utf8 "c.cl" →
      (entry source).NamesPlainly (utf8 "opencl___") := by
    rintro _ (rfl | rfl)
    all_goals
      refine ⟨⟨⟨?_, ?_⟩, ?_, ?_⟩, ?_, nofun⟩
      all_goals decide +kernel
  have hfirst := outputs_distinct c hvalid {} (i := 0) (j := 1) (by decide) rfl rfl
  have hlast := outputs_distinct c hvalid {} (i := 1) (j := 2) (by decide) rfl rfl
  refine ⟨c, k, l, n, rfl, hvalid, fun hnodup => hfirst.2.1.mp hnodup ?_, ?_⟩
  · decide +kernel
  · exact hlast.2.1.mpr
      (hlast.2.2 _ _ rfl rfl (hplain _ (Or.inl rfl)) (hplain _ (Or.inr rfl)))

end Config

end KernelPack
