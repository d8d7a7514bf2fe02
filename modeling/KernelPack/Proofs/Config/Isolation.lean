import KernelPack.CommandLine.Program
import KernelPack.Proofs.Config.Selection
import KernelPack.Proofs.Config.Validity
import KernelPack.Proofs.Kernel.Runs
import Mathlib.Data.List.Nodup

/-!
# Kernels built together

Kernels of a configuration are built in one run, but each by itself: if no file of a kernel is the
source of one, a kernel finds its source at its turn as it was at the start, whatever was built
before it. So its result, and the files generated for it, are those of packing it alone at the
start (`PacksAll.packedIn_start`, `PacksAll.content?_generated`), and it makes no difference which
other kernels are built, and in which order (`run_independent`).

Nothing keeps the files of a kernel from being a source, though. A source is left as it was by any
run if no file of a kernel leads to it; if one does, a complete run puts a generated text in its
place (`run_keeps_sources`).
-/

namespace KernelPack

/-- No file of the kernels is the source of one of them. -/
def SourcesApart (o : PackOptions) (t : Tree) (kernels : List Kernel) : Prop :=
  ∀ k ∈ kernels, ∀ path ∈ o.outputs k, ∀ l ∈ kernels, t.Apart path l.source

variable {o : PackOptions} {t t' u : Tree} {kernels ks : List Kernel} {rs : List PackResult}

/-- The files of kernels with different symbols are apart. -/
theorem apart_outputs (t : Tree) {k l : Kernel} (hne : o.symbol k ≠ o.symbol l) {path other : Bytes}
    (hpath : path ∈ o.outputs k) (hother : other ∈ o.outputs l) : t.Apart path other := by
  have hc := o.isName_definition
  have hh := o.isName_declaration
  have happend : ∀ x : Bytes, o.symbol k ++ x ≠ o.symbol l ++ x := fun x h =>
    hne (List.append_cancel_right h)
  simp only [PackOptions.outputs, List.mem_cons, List.not_mem_nil, or_false] at hpath hother
  obtain rfl | rfl := hpath
  · obtain rfl | rfl := hother
    · exact t.apart_join (hc k) (hc l) (happend _)
    · exact t.apart_join (hc k) (hh l) (o.definition_name_ne_declaration_name k l)
  · obtain rfl | rfl := hother
    · exact t.apart_join (hh k) (hc l) (o.definition_name_ne_declaration_name l k).symm
    · exact t.apart_join (hh k) (hh l) (happend _)

/-! ### Kernels among others -/

/-- The kernels lead only through trees that differ in their files. -/
theorem rewrites_treeAfter_of_mem (hu : t.Rewrites (kernels.flatMap o.outputs) u) {k : Kernel}
    (hk : k ∈ kernels) : t.Rewrites (kernels.flatMap o.outputs) (treeAfter o u k) :=
  hu.trans ((rewrites_treeAfter o u k).mono fun _ hmem => List.mem_flatMap.mpr ⟨k, hk, hmem⟩)

section Among

variable (hapart : SourcesApart o t kernels) (hu : t.Rewrites (kernels.flatMap o.outputs) u)
  (hks : ∀ k ∈ ks, k ∈ kernels)

include hapart hu

/-- What the kernels write leaves their sources. -/
theorem SourcesApart.content? {k : Kernel} (hk : k ∈ kernels) :
    t.content? k.source = u.content? k.source := by
  refine (hu.content?_of_apart fun path hpath => ?_).symm
  obtain ⟨l, hl, hmem⟩ := List.mem_flatMap.mp hpath
  exact hapart l hl path hmem k hk

include hks

/-- **A kernel that is packed among others comes out as it does alone at the start.** -/
theorem PacksAll.packedIn_start (h : PacksAll o u ks rs t') {i : Nat} {k : Kernel}
    (hk : ks[i]? = some k) : ∃ r, rs[i]? = some r ∧ packedIn o t k = .ok r := by
  induction h generalizing i with
  | nil => cases hk
  | @cons u t' l ks r rs hl _ ih =>
    obtain ⟨hmem, hrest⟩ := List.forall_mem_cons.mp hks
    cases i with
    | zero =>
      obtain rfl := Option.some.inj hk
      -- its source is still what it was at the start, and so is the shape of the tree
      have hsource := hapart.content? hu hmem
      exact ⟨r, rfl, packedIn_eq_ok_congr hu.sameShape.symm hsource.symm hl⟩
    | succ i => exact ih (rewrites_treeAfter_of_mem hu hmem) hrest hk

/-- Kernels that can be packed alone at the start can be packed one after another. -/
theorem exists_packsAll (hok : ∀ k ∈ ks, ∃ r, packedIn o t k = .ok r) :
    ∃ rs t', PacksAll o u ks rs t' := by
  induction ks generalizing u with
  | nil => exact ⟨[], u, .nil u⟩
  | cons k ks ih =>
    obtain ⟨hmem, hrest⟩ := List.forall_mem_cons.mp hks
    obtain ⟨⟨r, hr⟩, hok⟩ := List.forall_mem_cons.mp hok
    have hk := packedIn_eq_ok_congr hu.sameShape (hapart.content? hu hmem) hr
    obtain ⟨rs, t', h⟩ := ih (rewrites_treeAfter_of_mem hu hmem) hrest hok
    exact ⟨r :: rs, t', .cons hk h⟩

/-- **A kernel that is packed among others has the files that are generated for it at the start**,
if no other kernel has its symbol. -/
theorem PacksAll.content?_generated (hdry : o.dryRun = false)
    (hsymbols : (kernels.map o.symbol).Nodup) (h : PacksAll o u ks rs t') {k : Kernel}
    (hk : k ∈ ks) {f : Bytes × Bytes} (hf : f ∈ generatedIn o t k) :
    t'.content? f.1 = some f.2 := by
  induction h with
  | nil => cases hk
  | @cons u t' l ks r rs hl h ih =>
    obtain ⟨hmem, hrest⟩ := List.forall_mem_cons.mp hks
    by_cases hlater : k ∈ ks
    · exact ih (rewrites_treeAfter_of_mem hu hmem) hrest hlater
    -- the kernel is packed now for the last time, and the others leave its files
    obtain rfl : k = l := (List.mem_cons.mp hk).resolve_right hlater
    obtain ⟨hpaths, hcontents⟩ := generated_of_packedIn hdry hl
    rw [generatedIn_congr hu.sameShape (hapart.content? hu hmem)] at hf
    have hpath : f.1 ∈ o.outputs k := hpaths ▸ List.mem_map_of_mem hf
    rw [← hcontents f hf]
    refine h.rewrites.content?_of_apart fun path hother => ?_
    obtain ⟨l, hl, hother⟩ := List.mem_flatMap.mp hother
    -- a later kernel with the same symbol would be this one again
    refine apart_outputs _ (fun hsame => hlater ?_) hother hpath
    exact List.inj_on_of_nodup_map hsymbols (hrest l hl) hmem hsame ▸ hl

end Among

/-! ### Builds of some kernels -/

/-- **What is built of a kernel does not depend on the others.** Let the kernels of a configuration
have different symbols, let no file of a kernel be the source of one, and let the run over all of
them succeed. Then from the same tree a run over the kernels of any accepted names, and a run over
all of them in any order, succeeds too; and each kernel of it, which is the one that the
configuration describes at its own index, has the result and the files of the full run. -/
theorem run_independent (c : Config) (hc : c.kernelList = .ok kernels) (hdry : o.dryRun = false)
    (hsymbols : (kernels.map o.symbol).Nodup) (hapart : SourcesApart o t kernels)
    {full : List PackResult} (hfull : reportIn o none t kernels = .ok ⟨full, none⟩)
    {chosen : List Kernel}
    (hchosen : (∃ names, selectKernels kernels names = .ok chosen) ∨ chosen.Perm kernels) :
    ∃ part, reportIn o none t chosen = .ok ⟨part, none⟩ ∧ part.length = chosen.length ∧
    ∀ (i : Nat) (k : Kernel), chosen[i]? = some k → ∃ j e r,
      c.kernels[j]? = some e ∧ k = c.kernel j e ∧ kernels[j]? = some k ∧
      part[i]? = some r ∧ full[j]? = some r ∧
      ∀ path ∈ o.outputs k, ∃ content,
        (treeAfterRun o none t chosen).content? path = some content ∧
        (treeAfterRun o none t kernels).content? path = some content := by
  have hsub : ∀ k ∈ chosen, k ∈ kernels := by
    obtain ⟨names, hnames⟩ | hperm := hchosen
    · exact fun k => mem_of_mem_selectKernels hnames
    · exact fun k => hperm.mem_iff.mp
  have hall := packsAll_of_run hfull
  -- both runs are compared with packing each kernel alone at the start
  have hok : ∀ k ∈ chosen, ∃ r, packedIn o t k = .ok r := by
    intro k hk
    obtain ⟨j, hj⟩ := List.getElem?_of_mem (hsub k hk)
    obtain ⟨r, -, hr⟩ := hall.packedIn_start hapart .refl (fun _ => id) hj
    exact ⟨r, hr⟩
  obtain ⟨part, t', hpart⟩ := exists_packsAll hapart .refl hsub hok
  obtain ⟨hreport, htree⟩ := hpart.run_eq
  rw [htree]
  refine ⟨part, hreport, hpart.length_eq, fun i k hi => ?_⟩
  have hk := List.mem_of_getElem? hi
  obtain ⟨j, hj⟩ := List.getElem?_of_mem (hsub k hk)
  obtain ⟨e, he, heq⟩ := Config.exists_entry hc hj
  obtain ⟨r, hr, hpacked⟩ := hall.packedIn_start hapart .refl (fun _ => id) hj
  obtain ⟨r', hr', hpacked'⟩ := hpart.packedIn_start hapart .refl hsub hi
  obtain rfl : r = r' := Except.ok.inj (hpacked.symm.trans hpacked')
  refine ⟨j, e, r, he, heq, hj, hr', hr, fun path hpath => ?_⟩
  obtain ⟨hpaths, -⟩ := generated_of_packedIn hdry hpacked
  rw [← hpaths] at hpath
  obtain ⟨f, hf, rfl⟩ := List.mem_map.mp hpath
  exact ⟨f.2, hpart.content?_generated hapart .refl hsub hdry hsymbols hk hf,
    hall.content?_generated hapart .refl (fun _ => id) hdry hsymbols (hsub k hk) hf⟩

/-- Of two kernels that shorten the same name, each within its own family of aliases, the second is
built alone as it is built after the first. -/
theorem run_independent_second :
    let entry (source : Bytes) : KernelEntry := ⟨source, none, [], [], [utf8 "width"]⟩
    let c : Config := { Config.starter [] with
      headerLines := 0, kernels := [entry (utf8 "a.cl"), entry (utf8 "b.cl")] }
    let o := Program.packOptions c false
    let t : Tree := ⟨[([utf8 "a.cl"], .file (utf8 "int width;\n")),
      ([utf8 "b.cl"], .file (utf8 "f(width);\n"))], []⟩
    ∃ a b, c.kernelList = .ok [a, b] ∧ selectKernels [a, b] [utf8 "b"] = .ok [b] ∧
      ∃ (j : Nat) (full part : List PackResult) (r : PackResult), [a, b][j]? = some b ∧
        reportIn o none t [b] = .ok ⟨part, none⟩ ∧ part[0]? = some r ∧
        reportIn o none t [a, b] = .ok ⟨full, none⟩ ∧ full[j]? = some r ∧
        ∀ path ∈ o.outputs b, ∃ content,
          (treeAfterRun o none t [b]).content? path = some content ∧
          (treeAfterRun o none t [a, b]).content? path = some content := by
  intro entry c o t
  let a := c.kernel 0 (entry (utf8 "a.cl"))
  let b := c.kernel 1 (entry (utf8 "b.cl"))
  have hvalid : c.kernelList = .ok [a, b] := Config.kernelList_of_isOk (by decide +kernel)
  have hselect : selectKernels [a, b] [utf8 "b"] = .ok [b] := by decide +kernel
  have hplaced : t.IsPlaced := fun _ h => absurd h List.not_mem_nil
  have hne : ∀ k ∈ [a, b], ∀ path ∈ o.outputs k, ∀ l ∈ [a, b],
      Path.absolute t.cwd path ≠ Path.absolute t.cwd l.source := by
    decide +kernel
  have hapart : SourcesApart o t [a, b] := fun k hk path hpath l hl =>
    Tree.apart_of_absolute_ne hplaced (hne k hk path hpath l hl)
  have hruns : (reportIn o none t [a, b]).map RunReport.failure = .ok none := by decide +kernel
  obtain ⟨⟨full, failure⟩, hfull, rfl⟩ := Outcome.map_eq_ok_iff.mp hruns
  obtain ⟨part, hpart, -, hsame⟩ := run_independent c hvalid (o := o) rfl (by decide +kernel)
    hapart hfull (.inl ⟨_, hselect⟩)
  obtain ⟨j, -, r, -, -, hj, hr, hr', hfiles⟩ := hsame 0 b rfl
  exact ⟨a, b, hvalid, hselect, j, full, part, r, hj, hpart, hr, hfull, hr', hfiles⟩

/-! ### Sources that are written to -/

/-- **A place that a kernel's file leads to is taken by a generated text.** It is the text of the
last kernel with such a file, as it is generated at its turn. -/
theorem PacksAll.overwrites (hdry : o.dryRun = false) (h : PacksAll o t ks rs t') {p : Location}
    (hp : ∃ k ∈ ks, ∃ path ∈ o.outputs k, t.locate path = .ok p) :
    ∃ earlier k later rs' u, ks = earlier ++ k :: later ∧ PacksAll o t earlier rs' u ∧
      ∃ f ∈ generatedIn o u k, t'.node? p = some (.file f.2) := by
  induction h with
  | nil t =>
    obtain ⟨k, hk, -⟩ := hp
    cases hk
  | @cons t t' l ks r rs hl h ih =>
    have hshape := (rewrites_treeAfter o t l).sameShape
    by_cases hlater : ∃ k ∈ ks, ∃ path ∈ o.outputs k, (treeAfter o t l).locate path = .ok p
    · obtain ⟨earlier, k, later, rs', u, rfl, hbefore, hfile⟩ := ih hlater
      exact ⟨l :: earlier, k, later, r :: rs', u, rfl, .cons hl hbefore, hfile⟩
    -- only the first kernel has a file there, and the others leave it
    obtain ⟨k, hk, path, hpath, hlocate⟩ := hp
    have hlocate' := hshape.locate_eq_ok_iff.mp hlocate
    have hfirst : k = l := (List.mem_cons.mp hk).resolve_right fun hmem =>
      hlater ⟨k, hmem, path, hpath, hlocate'⟩
    obtain ⟨hpaths, hcontents⟩ := generated_of_packedIn hdry hl
    rw [hfirst, ← hpaths] at hpath
    obtain ⟨f, hf, rfl⟩ := List.mem_map.mp hpath
    refine ⟨[], l, ks, [], t, rfl, .nil t, f, hf, ?_⟩
    obtain ⟨q, hq, hnode, -⟩ :=
      Tree.read_eq_ok_iff.mp (Tree.content?_eq_some_iff.mp (hcontents f hf))
    obtain rfl := Except.ok.inj (hlocate'.symm.trans hq)
    rw [← hnode]
    refine h.rewrites.sameBut.node?_eq p fun other hother hlead => hlater ?_
    obtain ⟨m, hm, hmem⟩ := List.mem_flatMap.mp hother
    exact ⟨m, hm, other, hmem, hlead⟩

/-- The path of a source that is packed at some point does not ask for a directory. -/
theorem PacksAll.asksDirectory_source (h : PacksAll o t ks rs t') {k : Kernel} (hk : k ∈ ks) :
    Tree.asksDirectory k.source = false := by
  induction h with
  | nil => cases hk
  | @cons t t' l ks r rs hl _ ih =>
    by_cases hlater : k ∈ ks
    · exact ih hlater
    obtain rfl : k = l := (List.mem_cons.mp hk).resolve_right hlater
    obtain ⟨_, _, hassembled⟩ := exists_assembled hl
    obtain ⟨content, hread⟩ := exists_read hassembled
    obtain ⟨-, -, -, hfile⟩ := Tree.read_eq_ok_iff.mp hread
    exact hfile

/-- **Which sources a run keeps.** A dry run touches nothing. Any run over the kernels of a
configuration, however it ends, keeps the contents of every source that is none of the files of
these kernels. A source that is one of them is not kept: when the run is complete, it holds a
generated text. -/
theorem run_keeps_sources (c : Config) (hc : c.kernelList = .ok kernels) (o : PackOptions)
    (patience : Option Nat) (t : Tree) :
    (o.dryRun = true → treeAfterRun o patience t kernels = t) ∧
    ∀ (i : Nat) (e : KernelEntry), c.kernels[i]? = some e →
      ((∀ (j : Nat) (f : KernelEntry), c.kernels[j]? = some f →
          ∀ path ∈ o.outputs (c.kernel j f), t.Apart path (c.kernel i e).source) →
        (treeAfterRun o patience t kernels).content? (c.kernel i e).source
          = t.content? (c.kernel i e).source) ∧
      (∀ results, reportIn o patience t kernels = .ok ⟨results, none⟩ → o.dryRun = false →
        ∀ (j : Nat) (f : KernelEntry), c.kernels[j]? = some f →
          ∀ path ∈ o.outputs (c.kernel j f), ¬ t.Apart path (c.kernel i e).source →
          ∃ earlier k later rs u, kernels = earlier ++ k :: later ∧ PacksAll o t earlier rs u ∧
            ∃ g ∈ generatedIn o u k,
              (treeAfterRun o patience t kernels).content? (c.kernel i e).source = some g.2) := by
  have hmem : ∀ {i e}, c.kernels[i]? = some e → c.kernel i e ∈ kernels := by
    intro i e he
    rw [(Config.kernelList_eq_ok hc).1]
    exact List.mem_of_getElem? (by rw [List.getElem?_mapIdx, he, Option.map_some])
  refine ⟨fun hdry => treeAfterRun_of_dryRun hdry patience t kernels, fun i e he => ⟨?_, ?_⟩⟩
  · intro hapart
    refine (rewrites_run o patience t kernels).content?_of_apart fun path hpath => ?_
    obtain ⟨k, hk, houtput⟩ := List.mem_flatMap.mp hpath
    obtain ⟨j, hj⟩ := List.getElem?_of_mem hk
    obtain ⟨f, hf, rfl⟩ := Config.exists_entry hc hj
    exact hapart j f hf path houtput
  · intro results hsuccess hdry j f hf path hpath hmeet
    obtain ⟨p, hlead, hsource⟩ : ∃ p, t.locate path = .ok p ∧
        t.locate (c.kernel i e).source = .ok p := by
      simpa [Tree.Apart] using hmeet
    have hall := packsAll_of_run hsuccess
    obtain ⟨earlier, k, later, rs, u, hsplit, hbefore, g, hg, hnode⟩ :=
      hall.overwrites hdry ⟨_, hmem hf, path, hpath, hlead⟩
    refine ⟨earlier, k, later, rs, u, hsplit, hbefore, g, hg, ?_⟩
    -- the source still leads there, since a run keeps the shape of the tree
    have hsource' := hall.rewrites.sameShape.locate_eq_ok_iff.mp hsource
    exact Tree.content?_eq_some_iff.mpr
      (Tree.read_eq_ok_iff.mpr ⟨p, hsource', hnode, hall.asksDirectory_source (hmem he)⟩)

/-- A source in the directory of the generated files is kept, since what symbols begin with sets its
name apart from theirs. -/
theorem run_keeps_sources_prefixed :
    let c : Config := { Config.starter [utf8 "k.c"] with headerLines := 0 }
    let t : Tree := ⟨[([utf8 "k.c"], .file (utf8 "int a;\n"))], []⟩
    ∃ k, c.kernelList = .ok [k] ∧
      (treeAfterRun (Program.packOptions c false) none t [k]).content? k.source
        = some (utf8 "int a;\n") := by
  intro c t
  let e : KernelEntry := ⟨utf8 "k.c", none, [], [], []⟩
  have hvalid : c.kernelList = .ok [c.kernel 0 e] := Config.kernelList_of_isOk (by decide +kernel)
  have hplaced : t.IsPlaced := fun _ h => absurd h List.not_mem_nil
  have hne : ∀ path ∈ (Program.packOptions c false).outputs (c.kernel 0 e),
      Path.absolute t.cwd path ≠ Path.absolute t.cwd (c.kernel 0 e).source := by
    decide +kernel
  obtain ⟨-, hsources⟩ := run_keeps_sources c hvalid (Program.packOptions c false) none t
  have hkept := (hsources 0 e rfl).1 fun j f hf path hpath => by
    cases j with
    | zero =>
      obtain rfl := Option.some.inj hf
      exact Tree.apart_of_absolute_ne hplaced (hne path hpath)
    | succ j => cases hf
  exact ⟨_, hvalid, hkept.trans (by decide +kernel)⟩

/-- Without a beginning of symbols, the definition of a kernel takes the place of its source. -/
theorem run_overwrites_source :
    let c : Config := { Config.starter [utf8 "k.c"] with
      outputDir := Path.here, symbolStart := [], headerLines := 0 }
    let t : Tree := ⟨[([utf8 "k.c"], .file (utf8 "int a;\n"))], []⟩
    ∃ k, c.kernelList = .ok [k] ∧ t.content? k.source = some (utf8 "int a;\n") ∧
      (treeAfterRun (Program.packOptions c false) none t [k]).content? k.source
        ≠ some (utf8 "int a;\n") := by
  intro c t
  refine ⟨_, Config.kernelList_of_isOk (by decide +kernel), ?_, ?_⟩
  · decide +kernel
  · decide +kernel

end KernelPack
