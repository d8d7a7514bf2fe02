import KernelPack.Proofs.Kernel.Effects

/-!
# Runs

A run packs kernels one after another, each in the tree that the one before it left. `PacksAll` is
this plain sequence: every kernel is packed, with these results, and this tree is left in the end.
A run is such a sequence over a **prefix** of its kernels, and it ends in one of four ways
(`run_prefix`): all kernels are packed, or it is called off before the next kernel, or the next
kernel fails, after it has left behind what it had written, or the next kernel crashes. Nothing is
done about the kernels after that. Unless there was a crash the run returns, and then the number of
results is the place of the kernel that it stopped at. After a crash nothing is returned.
-/

namespace KernelPack

/-- What a run in a tree comes to, and what it logs. -/
def ranIn (o : PackOptions) (patience : Option Nat) (t : Tree) (ks : List Kernel) :
    Logged Crash RunReport :=
  ((runKernels o patience ks : StateM Tree _).run t).1

/-- What a run in a tree reports, unless it crashes. -/
def reportIn (o : PackOptions) (patience : Option Nat) (t : Tree) (ks : List Kernel) :
    Except Crash RunReport :=
  (ranIn o patience t ks).value

/-- The tree after a run. -/
def treeAfterRun (o : PackOptions) (patience : Option Nat) (t : Tree) (ks : List Kernel) : Tree :=
  ((runKernels o patience ks : StateM Tree _).run t).2

/-- Packing the kernels one after another, each in the tree that the one before it left, gives the
results and leaves the tree `t'`. -/
inductive PacksAll (o : PackOptions) : Tree → List Kernel → List PackResult → Tree → Prop where
  | nil (t : Tree) : PacksAll o t [] [] t
  | cons {t t' : Tree} {k : Kernel} {ks : List Kernel} {r : PackResult} {rs : List PackResult}
    (hk : packedIn o t k = .ok r) (hks : PacksAll o (treeAfter o t k) ks rs t') :
    PacksAll o t (k :: ks) (r :: rs) t'

/-- How a run over `ks` ends that packed as many kernels as there are results `rs`, and had the tree
`u` then: what it reports, unless it crashes, and which tree it leaves. -/
inductive RunEnds (o : PackOptions) (patience : Option Nat) (ks : List Kernel)
    (rs : List PackResult) (u : Tree) : Except Crash RunReport → Tree → Prop where
  /-- All kernels are packed. -/
  | complete (h : rs.length = ks.length) : RunEnds o patience ks rs u (.ok ⟨rs, none⟩) u
  /-- The run is called off before the next kernel. -/
  | canceled {k : Kernel} (hk : ks[rs.length]? = some k) (h : patience = some rs.length) :
    RunEnds o patience ks rs u (.ok ⟨rs, some .canceled⟩) u
  /-- The next kernel fails. -/
  | failed {k : Kernel} {e : PackError} (hk : ks[rs.length]? = some k)
    (h : ∀ m ∈ patience, rs.length < m) (he : packedIn o u k = .error (.failed e)) :
    RunEnds o patience ks rs u (.ok ⟨rs, some (.kernel k.name e)⟩) (treeAfter o u k)
  /-- The next kernel crashes. -/
  | crashed {k : Kernel} (hk : ks[rs.length]? = some k) (h : ∀ m ∈ patience, rs.length < m)
    (hcut : ¬ o.CanCut u k) : RunEnds o patience ks rs u (.error .capacity) u

variable {o : PackOptions} {patience : Option Nat} {t t' u : Tree} {k : Kernel} {ks : List Kernel}
  {r : PackResult} {rs : List PackResult}

/-! ### One step of a run -/

/-- A run that is not called off packs the first kernel, and goes on if that comes out well. -/
theorem runKernels_cons {m : Type → Type} [Monad m] [FileStore m] (h : patience ≠ some 0)
    (o : PackOptions) (k : Kernel) (ks : List Kernel) :
    (runKernels o patience (k :: ks) : m _) = do
      match ← pack o k with
      | ⟨.error (.crashed c), log⟩ => return ⟨.error c, log⟩
      | ⟨.error (.failed e), log⟩ =>
        return ⟨.ok ⟨[], some (.kernel k.name e)⟩, log ++ [.failed k.name (e.message k.name)]⟩
      | ⟨.ok r, log⟩ =>
        let rest ← runKernels o (patience.map (· - 1)) ks
        return ⟨rest.value.map (·.after r), log ++ rest.log⟩ := by
  cases patience with
  | none => rfl
  | some n =>
    cases n with
    | zero => exact absurd rfl h
    | succ n => rfl

/-- Packing a kernel, as the outcome that it comes to and the tree that it leaves. -/
theorem exists_run_pack {value : Except Halt PackResult} (h : packedIn o t k = value) :
    ∃ log, (pack o k : StateM Tree _).run t = pure (⟨value, log⟩, treeAfter o t k) := by
  subst h
  exact ⟨_, rfl⟩

theorem run_cons_of_failed {e : PackError} (h : patience ≠ some 0)
    (he : packedIn o t k = .error (.failed e)) (ks : List Kernel) :
    reportIn o patience t (k :: ks) = .ok ⟨[], some (.kernel k.name e)⟩ ∧
      treeAfterRun o patience t (k :: ks) = treeAfter o t k := by
  obtain ⟨log, hpack⟩ := exists_run_pack he
  rw [reportIn, ranIn, treeAfterRun, runKernels_cons h, StateT.run_bind, hpack]
  exact ⟨rfl, rfl⟩

theorem run_cons_of_crashed {c : Crash} (h : patience ≠ some 0)
    (hc : packedIn o t k = .error (.crashed c)) (ks : List Kernel) :
    reportIn o patience t (k :: ks) = .error c ∧
      treeAfterRun o patience t (k :: ks) = treeAfter o t k := by
  obtain ⟨log, hpack⟩ := exists_run_pack hc
  rw [reportIn, ranIn, treeAfterRun, runKernels_cons h, StateT.run_bind, hpack]
  exact ⟨rfl, rfl⟩

theorem run_cons_of_ok (h : patience ≠ some 0) (hr : packedIn o t k = .ok r)
    (ks : List Kernel) :
    reportIn o patience t (k :: ks)
        = (reportIn o (patience.map (· - 1)) (treeAfter o t k) ks).map (·.after r) ∧
      treeAfterRun o patience t (k :: ks)
        = treeAfterRun o (patience.map (· - 1)) (treeAfter o t k) ks := by
  obtain ⟨log, hpack⟩ := exists_run_pack hr
  rw [reportIn, ranIn, treeAfterRun, runKernels_cons h, StateT.run_bind, hpack]
  exact ⟨rfl, rfl⟩

namespace RunEnds

variable {report : Except Crash RunReport}

/-- The end of a run is the end of the run with one kernel more in front. -/
theorem cons (hpatience : patience ≠ some 0)
    (h : RunEnds o (patience.map (· - 1)) ks rs u report t') (k : Kernel) (r : PackResult) :
    RunEnds o patience (k :: ks) (r :: rs) u (report.map (·.after r)) t' := by
  have hnext : ∀ {l : Kernel}, ks[rs.length]? = some l → (k :: ks)[(r :: rs).length]? = some l := id
  have hpast : (∀ m ∈ patience.map (· - 1), rs.length < m) →
      ∀ m ∈ patience, (r :: rs).length < m := fun hlt m hm => by
    have hless := hlt (m - 1) (Option.mem_map_of_mem _ hm)
    rw [List.length_cons]
    omega
  cases h with
  | complete h => exact .complete (congrArg Nat.succ h)
  | canceled hk h =>
    obtain ⟨m, rfl, hm⟩ := Option.map_eq_some_iff.mp h
    have hpos : m ≠ 0 := fun hzero => hpatience (congrArg some hzero)
    refine .canceled (hnext hk) ?_
    rw [Option.some.injEq, List.length_cons]
    omega
  | failed hk h he => exact .failed (hnext hk) (hpast h) he
  | crashed hk h hcut => exact .crashed (hnext hk) (hpast h) hcut

/-- A run that returns has the results of the kernels that it packed, and succeeds exactly if these
are all. -/
theorem of_ok {report : RunReport} (h : RunEnds o patience ks rs u (.ok report) t') :
    report.results = rs ∧ (report.failure = none ↔ rs.length = ks.length) := by
  have hne : ∀ {k : Kernel}, ks[rs.length]? = some k → rs.length ≠ ks.length := fun hk hn => by
    obtain ⟨hlt, -⟩ := List.getElem?_eq_some_iff.mp hk
    omega
  cases h with
  | complete h => exact ⟨rfl, iff_of_true rfl h⟩
  | canceled hk => exact ⟨rfl, iff_of_false nofun (hne hk)⟩
  | failed hk => exact ⟨rfl, iff_of_false nofun (hne hk)⟩

/-- A run that cannot be called off fails with its next kernel. -/
theorem exists_kernel {f : RunError} (h : RunEnds o none ks rs u (.ok ⟨rs, some f⟩) t') :
    ∃ k e, ks[rs.length]? = some k ∧ f = .kernel k.name e := by
  cases h with
  | canceled _ h => cases h
  | @failed k e hk => exact ⟨k, e, hk, rfl⟩

end RunEnds

/-! ### Whole runs -/

/-- **A run is the sequence of a prefix of its kernels**, none of which it was called off before;
then it ends, and does nothing about the others. -/
theorem run_prefix (o : PackOptions) (patience : Option Nat) (t : Tree) (ks : List Kernel) :
    ∃ rs u, rs.length ≤ ks.length ∧ (∀ m ∈ patience, rs.length ≤ m) ∧
      PacksAll o t (ks.take rs.length) rs u ∧
      RunEnds o patience ks rs u (reportIn o patience t ks) (treeAfterRun o patience t ks) := by
  -- the rest of a run starts from the tree that the first kernel left, with one check less to go
  induction ks generalizing patience t with
  | nil => exact ⟨[], t, Nat.le_refl 0, fun m _ => Nat.zero_le m, .nil t, .complete rfl⟩
  | cons k ks ih =>
    by_cases hpatience : patience = some 0
    · subst hpatience
      exact ⟨[], t, Nat.zero_le _, fun m _ => Nat.zero_le m, .nil t, .canceled rfl rfl⟩
    have hpos : ∀ m ∈ patience, 0 < m := fun m hm =>
      Nat.pos_of_ne_zero fun hzero => hpatience (hzero ▸ hm)
    cases hk : packedIn o t k with
    | error s =>
      refine ⟨[], t, Nat.zero_le _, fun m _ => Nat.zero_le m, .nil t, ?_⟩
      cases s with
      | failed e =>
        obtain ⟨hreport, htree⟩ := run_cons_of_failed hpatience hk ks
        rw [hreport, htree]
        exact .failed rfl hpos hk
      | crashed c =>
        obtain ⟨hreport, htree⟩ := run_cons_of_crashed hpatience hk ks
        rw [hreport, htree, treeAfter_of_crashed hk]
        exact .crashed rfl hpos (packedIn_eq_crashed_iff.mp hk)
    | ok r =>
      obtain ⟨hreport, htree⟩ := run_cons_of_ok hpatience hk ks
      obtain ⟨rs, u, hn, hbefore, hpacks, hends⟩ := ih (patience.map (· - 1)) (treeAfter o t k)
      rw [hreport, htree]
      refine ⟨r :: rs, u, Nat.succ_le_succ hn, fun m hm => ?_, .cons hk hpacks,
        hends.cons hpatience k r⟩
      have hle := hbefore (m - 1) (Option.mem_map_of_mem _ hm)
      have hm' := hpos m hm
      rw [List.length_cons]
      omega

/-- A run that is never called off is the sequence of all its kernels, if they can all be packed. -/
theorem PacksAll.run_eq (h : PacksAll o t ks rs t') :
    reportIn o none t ks = .ok ⟨rs, none⟩ ∧ treeAfterRun o none t ks = t' := by
  induction h with
  | nil t => exact ⟨rfl, rfl⟩
  | @cons t t' k ks r rs hk _ ih =>
    have hpatience : (none : Option Nat) ≠ some 0 := nofun
    obtain ⟨hreport, htree⟩ := run_cons_of_ok hpatience hk ks
    obtain ⟨hreport', htree'⟩ := ih
    rw [hreport, htree, Option.map_none, hreport']
    exact ⟨rfl, htree'⟩

theorem PacksAll.length_eq (h : PacksAll o t ks rs t') : rs.length = ks.length := by
  induction h with
  | nil => rfl
  | cons _ _ ih => rw [List.length_cons, List.length_cons, ih]

/-- A run without failure is the sequence of all its kernels. -/
theorem packsAll_of_run (h : reportIn o patience t ks = .ok ⟨rs, none⟩) :
    PacksAll o t ks rs (treeAfterRun o patience t ks) := by
  obtain ⟨rs', u, -, -, hpacks, hends⟩ := run_prefix o patience t ks
  rw [h] at hends
  generalize treeAfterRun o patience t ks = t' at hends ⊢
  cases hends with
  | complete hn =>
    rw [hn, List.take_length] at hpacks
    exact hpacks

/-! ### The files that a run touches -/

/-- Packing a kernel touches nothing but its files. -/
theorem rewrites_treeAfter (o : PackOptions) (t : Tree) (k : Kernel) :
    t.Rewrites (o.outputs k) (treeAfter o t k) := by
  rw [treeAfter, run_pack]
  exact rewrites_packLoaded o k (k.loadedIn t) t

/-- Packing kernels touches nothing but their files. -/
theorem PacksAll.rewrites (h : PacksAll o t ks rs t') : t.Rewrites (ks.flatMap o.outputs) t' := by
  induction h with
  | nil => exact .refl
  | @cons t t' k ks r rs hk _ ih =>
    rw [List.flatMap_cons]
    have hfirst : t.Rewrites (o.outputs k ++ ks.flatMap o.outputs) (treeAfter o t k) :=
      (rewrites_treeAfter o t k).mono fun _ => List.mem_append_left _
    exact hfirst.trans (ih.mono fun _ => List.mem_append_right _)

/-- **A run touches nothing but the files of its kernels**, however it ends. -/
theorem rewrites_run (o : PackOptions) (patience : Option Nat) (t : Tree) (ks : List Kernel) :
    t.Rewrites (ks.flatMap o.outputs) (treeAfterRun o patience t ks) := by
  obtain ⟨rs, u, -, -, hpacks, hends⟩ := run_prefix o patience t ks
  have hsub : ∀ path ∈ (ks.take rs.length).flatMap o.outputs, path ∈ ks.flatMap o.outputs := by
    intro path hpath
    obtain ⟨l, hl, hmem⟩ := List.mem_flatMap.mp hpath
    exact List.mem_flatMap.mpr ⟨l, List.mem_of_mem_take hl, hmem⟩
  have hbefore := hpacks.rewrites.mono hsub
  -- a kernel that fails may have written its definition, which is a file of the run too
  generalize treeAfterRun o patience t ks = t', reportIn o patience t ks = report at hends
  cases hends with
  | complete => exact hbefore
  | canceled => exact hbefore
  | crashed => exact hbefore
  | @failed k e hk =>
    exact hbefore.trans ((rewrites_treeAfter o u k).mono fun path hmem =>
      List.mem_flatMap.mpr ⟨k, List.mem_of_getElem? hk, hmem⟩)

/-- **A dry run touches nothing.** -/
theorem treeAfterRun_of_dryRun (hdry : o.dryRun = true) (patience : Option Nat) (t : Tree)
    (ks : List Kernel) : treeAfterRun o patience t ks = t := by
  have hkernel : ∀ u k, treeAfter o u k = u := by
    intro u k
    cases h : assembledIn o u k with
    | error e => exact (pack_of_error h).2
    | ok assembled => exact (pack_of_dryRun h hdry).2
  have hkernels : ∀ {ks rs t u}, PacksAll o t ks rs u → u = t := by
    intro ks rs t u h
    induction h with
    | nil => rfl
    | cons _ _ ih => rw [ih, hkernel]
  obtain ⟨rs, u, -, -, hpacks, hends⟩ := run_prefix o patience t ks
  obtain rfl := hkernels hpacks
  generalize treeAfterRun o patience u ks = t', reportIn o patience u ks = report at hends ⊢
  cases hends with
  | complete => rfl
  | canceled => rfl
  | crashed => rfl
  | failed => exact hkernel u _

end KernelPack
