import KernelPack.Kernel.Watcher
import KernelPack.Proofs.Kernel.Effects

/-!
# What a watcher packs

A watcher is used by two kinds of calls: it is handed an event, or it is told to pack what is
pending. Between the calls anything may happen to the files. `Reached` lists the watchers that such
calls lead to, with the calls that led there. Only calls that return lead on: there is no watcher
after a crash.

A watcher keeps the sources it watches in a list, the latest first. If they are different files, it
finds each by its absolute path (`Finds`). So an event marks the one kernel whose source has new
contents, or nothing (`handle_cases`), and packing goes through the marked kernels in their order
and, unless it crashes, leaves no mark (`packPending_eq`). Going through kernels means to pack and
report them one after another, be it a result or a failure (`BuildsAll`), up to the first that
crashes, if there is one (`buildAll_prefix`). Together: what is packed are the kernels whose sources
had new contents since the watcher last packed (`packPending_recent`).
-/

namespace KernelPack

/-- The event says that the source of the kernel has new contents, both paths seen from `cwd`. -/
def FileEvent.concerns (cwd : Bytes) (e : FileEvent) (k : Kernel) : Bool :=
  e.isNewContent && Path.absolute cwd e.path == Path.absolute cwd k.source

/-- The outcome of packing that a build reports. -/
def Build.outcome (b : Build) : Except Halt PackResult := b.value.mapError .failed

/-- A crash is not reported. -/
theorem Build.outcome_ne_crashed (b : Build) (c : Crash) : b.outcome ≠ .error (.crashed c) := by
  unfold Build.outcome
  cases b.value with
  | error e => nofun
  | ok r => nofun

namespace Watcher

/-- A call of a watcher. -/
inductive Call where
  | event (e : FileEvent)
  | flush

/-- The events since the last time that pending kernels were packed; the latest call comes
first. -/
def Call.recent : List Call → List FileEvent
  | [] => []
  | .event e :: calls => e :: recent calls
  | .flush :: _ => []

/-- The watchers that calls lead to, the latest call first. Each time that pending kernels are
packed, the files may be any, as long as no kernel crashes. -/
inductive Reached (w₀ : Watcher) : List Call → Watcher → Prop where
  | start : Reached w₀ [] w₀
  | event {calls : List Call} {w : Watcher} (e : FileEvent) (h : Reached w₀ calls w) :
    Reached w₀ (.event e :: calls) (w.handle e).1
  | flush {calls : List Call} {w w' : Watcher} (t : Tree) (h : Reached w₀ calls w)
    (hreturns : ((w.packPending : StateM Tree _).run t).1.value = .ok w') :
    Reached w₀ (.flush :: calls) w'

/-! ### Finding sources -/

/-- The watcher finds a kernel by the path of its source, and no other. -/
def Finds (w : Watcher) : Prop :=
  ∀ path i, w.sourceIndex? path = some i ↔ ∃ k, w.kernels[i]? = some k ∧
    Path.absolute w.workingDirectory path = Path.absolute w.workingDirectory k.source

/-- The sources of kernels with the indices from `i` on, as a watcher keeps them. -/
def sourcesFrom (cwd : Bytes) (i : Nat) (ks : List Kernel) : List (Bytes × Nat) :=
  ((ks.zipIdx i).map fun p => (Path.absolute cwd p.1.source, p.2)).reverse

/-- Kernels that are registered are put in front of the sources, and nothing else changes. -/
theorem register_eq_ok {w w' : Watcher} {dirs : List Bytes} {i : Nat} {ks : List Kernel} {t : Tree}
    (h : ((register w dirs i ks : StateM Tree _).run t).1.1 = .ok w') :
    w' = { w with sources := sourcesFrom w.workingDirectory i ks ++ w.sources } := by
  induction ks generalizing w dirs i with
  | nil => exact (Except.ok.inj h).symm
  | cons k ks ih =>
    -- with or without a new directory, the kernel is put in front and the rest is registered
    have hcons : ∀ dirs', ((register { w with sources :=
          (Path.absolute w.workingDirectory k.source, i) :: w.sources } dirs' (i + 1) ks
            : StateM Tree _).run t).1.1 = .ok w' →
        w' = { w with sources := sourcesFrom w.workingDirectory i (k :: ks) ++ w.sources } := by
      intro dirs' h'
      rw [ih h']
      simp [sourcesFrom]
    rw [register] at h
    split at h
    · exact hcons _ h
    · rw [StateT.run_bind, Tree.run_inspect, pure_bind] at h
      cases hdir : t.inspect (Path.directory (Path.absolute w.workingDirectory k.source)) with
      | error e =>
        rw [hdir] at h
        cases h
      | ok kind =>
        rw [hdir] at h
        exact hcons _ h

/-- A watcher that has begun watches the kernels from the working directory, and nothing is
pending. -/
theorem start_eq_ok {o : PackOptions} {kernels : List Kernel} {t : Tree} {w : Watcher}
    (h : ((start o kernels : StateM Tree _).run t).1.1 = .ok w) :
    w = ⟨o, kernels, t.cwd, sourcesFrom t.cwd 0 kernels, []⟩ := by
  rw [start, StateT.run_bind, Tree.run_workingDirectory, pure_bind] at h
  have hw := register_eq_ok h
  rwa [List.append_nil] at hw

/-- In a list of pairs with different keys, looking up a key finds the pair with it. -/
theorem lookup_eq_some_iff_mem {l : List (Bytes × Nat)} (h : (l.map Prod.fst).Nodup) {a : Bytes}
    {i : Nat} : l.lookup a = some i ↔ (a, i) ∈ l := by
  induction l with
  | nil => simp
  | cons p l ih =>
    obtain ⟨b, j⟩ := p
    rw [List.map_cons, List.nodup_cons] at h
    by_cases hab : a = b
    · have hnot : (b, i) ∉ l := fun hmem => h.1 (List.mem_map.mpr ⟨_, hmem, rfl⟩)
      simp [hab, hnot, eq_comm]
    · have hbeq : (a == b) = false := by simpa using hab
      rw [List.lookup_cons, hbeq, List.mem_cons, ← ih h.2]
      simp [hab]

/-- **A watcher that has begun finds its kernels**, if their sources are different files. -/
theorem finds_of_start {o : PackOptions} {kernels : List Kernel} {t : Tree} {w : Watcher}
    (h : ((start o kernels : StateM Tree _).run t).1.1 = .ok w)
    (hdistinct : (kernels.map fun k => Path.absolute w.workingDirectory k.source).Nodup) :
    w.Finds := by
  obtain rfl := start_eq_ok h
  have hpaths : (sourcesFrom t.cwd 0 kernels).map Prod.fst
      = (kernels.map fun k => Path.absolute t.cwd k.source).reverse := by
    conv => rhs; rw [← List.zipIdx_map_fst 0 kernels]
    rw [sourcesFrom, List.map_reverse, List.map_map, List.map_map]
    rfl
  have hkeys : ((sourcesFrom t.cwd 0 kernels).map Prod.fst).Nodup := by
    rw [hpaths]
    exact List.pairwise_reverse.mpr (hdistinct.imp Ne.symm)
  intro path i
  rw [sourceIndex?, lookup_eq_some_iff_mem hkeys, sourcesFrom]
  simp only [List.mem_reverse, List.mem_map, List.mem_zipIdx_iff_getElem?, Prod.mk.injEq]
  constructor
  · rintro ⟨⟨k, j⟩, hk, hpath, rfl⟩
    exact ⟨k, hk, hpath.symm⟩
  · rintro ⟨k, hk, hpath⟩
    exact ⟨(k, i), hk, hpath.symm, rfl⟩

/-! ### Taking in events -/

theorem mem_pending_mark {w : Watcher} {i j : Nat} :
    j ∈ (w.mark i).pending ↔ j = i ∨ j ∈ w.pending := by
  unfold mark
  split
  · rename_i h
    have hmem : i ∈ w.pending := by simpa using h
    exact ⟨Or.inr, fun h => h.elim (fun he => he ▸ hmem) id⟩
  · exact List.mem_cons

theorem mark_eq (w : Watcher) (i : Nat) :
    w.mark i = { w with pending := (w.mark i).pending } := by
  unfold mark
  split
  · rfl
  · rfl

/-- Events change nothing but the marks. -/
theorem handle_eq (w : Watcher) (e : FileEvent) :
    (w.handle e).1 = { w with pending := (w.handle e).1.pending } := by
  unfold handle
  split
  · split
    · exact mark_eq w _
    · rfl
  · rfl

/-- Events take no mark away. -/
theorem mem_pending_handle {w : Watcher} {i : Nat} (h : i ∈ w.pending) (e : FileEvent) :
    i ∈ (w.handle e).1.pending := by
  unfold handle
  split
  · split
    · exact mem_pending_mark.mpr (Or.inr h)
    · exact h
  · exact h

/-- An event concerns one kernel at most. -/
theorem Finds.index_eq {w : Watcher} (h : w.Finds) {e : FileEvent} {i j : Nat} {k l : Kernel}
    (hk : w.kernels[i]? = some k) (hek : e.concerns w.workingDirectory k = true)
    (hl : w.kernels[j]? = some l) (hel : e.concerns w.workingDirectory l = true) : i = j := by
  rw [FileEvent.concerns, Bool.and_eq_true, beq_iff_eq] at hek hel
  exact Option.some.inj (((h e.path i).mpr ⟨k, hk, hek.2⟩).symm.trans
    ((h e.path j).mpr ⟨l, hl, hel.2⟩))

/-- **An event marks the kernel that it concerns**, if there is one, and otherwise leaves the
watcher as it is. -/
theorem handle_cases {w : Watcher} (h : w.Finds) (e : FileEvent) :
    (∃ i k, w.kernels[i]? = some k ∧ e.concerns w.workingDirectory k = true ∧
      w.handle e = (w.mark i, some i)) ∨
    (∀ k ∈ w.kernels, e.concerns w.workingDirectory k = false) ∧ w.handle e = (w, none) := by
  unfold handle FileEvent.concerns
  cases e.isNewContent with
  | false => exact Or.inr ⟨fun _ _ => rfl, rfl⟩
  | true =>
    cases hi : w.sourceIndex? e.path with
    | some i =>
      obtain ⟨k, hk, hpath⟩ := (h e.path i).mp hi
      exact Or.inl ⟨i, k, hk, by simp [hpath], rfl⟩
    | none =>
      refine Or.inr ⟨fun k hk => ?_, rfl⟩
      obtain ⟨i, hik⟩ := List.getElem?_of_mem hk
      rw [Bool.true_and, beq_eq_false_iff_ne]
      intro hpath
      have hsome := (h e.path i).mpr ⟨k, hik, hpath⟩
      rw [hi] at hsome
      cases hsome

/-- A kernel is pending after an event that concerns it. -/
theorem Finds.mem_pending {w : Watcher} (h : w.Finds) {e : FileEvent} {i : Nat} {k : Kernel}
    (hk : w.kernels[i]? = some k) (hconcerns : e.concerns w.workingDirectory k = true) :
    i ∈ (w.handle e).1.pending := by
  obtain ⟨j, l, hl, hconcerns', heq⟩ | ⟨hnone, -⟩ := handle_cases h e
  · rw [heq]
    exact mem_pending_mark.mpr (Or.inl (h.index_eq hk hconcerns hl hconcerns'))
  · rw [hnone k (List.mem_of_getElem? hk)] at hconcerns
    cases hconcerns

/-! ### Going through kernels -/

/-- What is reported of a kernel that was packed, unless that crashed, and what is logged. -/
def report (k : Kernel) : Logged Halt PackResult → Logged Crash Build
  | ⟨.error (.crashed c), log⟩ => ⟨.error c, log⟩
  | ⟨.error (.failed e), log⟩ =>
    ⟨.ok ⟨k.name, .error e⟩, log ++ [.rebuildFailed k.name (e.message k.name)]⟩
  | ⟨.ok r, log⟩ => ⟨.ok ⟨k.name, .ok r⟩, log⟩

/-- A kernel that was packed is reported with its outcome, unless that is a crash. -/
theorem report_cases (k : Kernel) (r : Logged Halt PackResult) :
    (∃ b, (report k r).value = .ok b ∧ b.kernel = k.name ∧ r.value = b.outcome) ∨
      ∃ c, (report k r).value = .error c ∧ r.value = .error (.crashed c) := by
  match r with
  | ⟨.error (.crashed c), log⟩ => exact .inr ⟨c, rfl, rfl⟩
  | ⟨.error (.failed e), log⟩ => exact .inl ⟨_, rfl, rfl, rfl⟩
  | ⟨.ok r, log⟩ => exact .inl ⟨_, rfl, rfl, rfl⟩

/-- A kernel is packed once, and what came of it is reported. -/
theorem build_eq {m : Type → Type} [Monad m] [LawfulMonad m] [FileStore m] (o : PackOptions)
    (k : Kernel) : (build o k : m _) = report k <$> pack o k := by
  rw [build, map_eq_pure_bind]
  refine bind_congr fun r => ?_
  match r with
  | ⟨.error (.crashed c), log⟩ => rfl
  | ⟨.error (.failed e), log⟩ => rfl
  | ⟨.ok r, log⟩ => rfl

theorem run_build (o : PackOptions) (k : Kernel) (t : Tree) :
    (build o k : StateM Tree _).run t
      = pure (report k ((pack o k : StateM Tree _).run t).1, treeAfter o t k) := by
  rw [build_eq, StateT.run_map]
  rfl

/-- **A kernel that is built** is packed and reported with its outcome, or it crashes. -/
theorem run_build_cases (o : PackOptions) (k : Kernel) (t : Tree) :
    (∃ b log, (build o k : StateM Tree _).run t = pure (⟨.ok b, log⟩, treeAfter o t k) ∧
      b.kernel = k.name ∧ packedIn o t k = b.outcome) ∨
    ∃ c log, (build o k : StateM Tree _).run t = pure (⟨.error c, log⟩, treeAfter o t k) ∧
      packedIn o t k = .error (.crashed c) := by
  rw [run_build]
  obtain ⟨b, hb, hkernel, hk⟩ | ⟨c, hc, hk⟩ :=
    report_cases k ((pack o k : StateM Tree _).run t).1
  · exact .inl ⟨b, _, by rw [← hb], hkernel, hk⟩
  · exact .inr ⟨c, _, by rw [← hc], hk⟩

/-- What going through kernels in a tree comes to. -/
def roundIn (o : PackOptions) (t : Tree) (ks : List Kernel) : Round Unit :=
  ((buildAll o ks : StateM Tree _).run t).1

/-- The tree after going through kernels. -/
def treeAfterRound (o : PackOptions) (t : Tree) (ks : List Kernel) : Tree :=
  ((buildAll o ks : StateM Tree _).run t).2

/-- Packing the kernels one after another, each in the tree that the one before it left, and
reporting every one of them, whether packed or failed, gives the builds and leaves the tree `t'`. -/
inductive BuildsAll (o : PackOptions) : Tree → List Kernel → List Build → Tree → Prop where
  | nil (t : Tree) : BuildsAll o t [] [] t
  | cons {t t' : Tree} {k : Kernel} {ks : List Kernel} {b : Build} {bs : List Build}
    (hkernel : b.kernel = k.name) (hk : packedIn o t k = b.outcome)
    (hks : BuildsAll o (treeAfter o t k) ks bs t') : BuildsAll o t (k :: ks) (b :: bs) t'

/-- How going through `ks` ends after the builds `bs` in the tree `u`: with the last kernel, or
with a crash of the next one. -/
inductive RoundEnds (o : PackOptions) (ks : List Kernel) (bs : List Build) (u : Tree) :
    Except Crash Unit → Prop where
  | complete (h : bs.length = ks.length) : RoundEnds o ks bs u (.ok ())
  | crashed {k : Kernel} (hk : ks[bs.length]? = some k) (hcut : ¬ o.CanCut u k) :
    RoundEnds o ks bs u (.error .capacity)

/-- **Going through kernels is packing and reporting a prefix of them**: all of them, or those
before the first that crashes. -/
theorem buildAll_prefix (o : PackOptions) (t : Tree) (ks : List Kernel) :
    BuildsAll o t (ks.take (roundIn o t ks).builds.length) (roundIn o t ks).builds
        (treeAfterRound o t ks) ∧
      RoundEnds o ks (roundIn o t ks).builds (treeAfterRound o t ks) (roundIn o t ks).value := by
  induction ks generalizing t with
  | nil => exact ⟨.nil t, .complete rfl⟩
  | cons k ks ih =>
    obtain ⟨b, log, hbuild, hkernel, hk⟩ | ⟨c, log, hbuild, hk⟩ := run_build_cases o k t
    · -- the others are packed in the tree that the first kernel left
      obtain ⟨hall, hends⟩ := ih (treeAfter o t k)
      have hround : (buildAll o (k :: ks) : StateM Tree _).run t
          = pure ((roundIn o (treeAfter o t k) ks).after b log,
              treeAfterRound o (treeAfter o t k) ks) := by
        rw [buildAll, StateT.run_bind, hbuild]
        rfl
      rw [roundIn, treeAfterRound, hround]
      refine ⟨.cons hkernel hk hall, ?_⟩
      dsimp only [pure, Round.after]
      generalize (roundIn o (treeAfter o t k) ks).value = value at hends
      cases hends with
      | complete h => exact .complete (congrArg Nat.succ h)
      | @crashed l hk hcut =>
        have hnext : (k :: ks)[(b :: (roundIn o (treeAfter o t k) ks).builds).length]? = some l :=
          hk
        exact .crashed hnext hcut
    · have hround : (buildAll o (k :: ks) : StateM Tree _).run t
          = pure (⟨.error c, [], log⟩, treeAfter o t k) := by
        rw [buildAll, StateT.run_bind, hbuild]
        rfl
      rw [roundIn, treeAfterRound, hround, treeAfter_of_crashed hk]
      exact ⟨.nil t, .crashed rfl (packedIn_eq_crashed_iff.mp hk)⟩

/-! ### Packing what is pending -/

/-- The kernels of a list, with indices from `i` on, that are pending. -/
def due (w : Watcher) (i : Nat) (ks : List Kernel) : List Kernel :=
  ((ks.zipIdx i).filter fun p => w.pending.contains p.2).map Prod.fst

theorem due_cons (w : Watcher) (i : Nat) (k : Kernel) (ks : List Kernel) :
    w.due i (k :: ks)
      = if w.pending.contains i then k :: w.due (i + 1) ks else w.due (i + 1) ks := by
  rw [due, List.zipIdx_cons, List.filter_cons]
  split
  · rfl
  · rfl

/-- Taking the mark of a kernel away leaves the kernels behind it due. -/
theorem due_unmark (w : Watcher) (i : Nat) (ks : List Kernel) :
    { w with pending := w.pending.filter (· != i) }.due (i + 1) ks = w.due (i + 1) ks := by
  unfold due
  congr 1
  refine List.filter_congr fun p hp => ?_
  have hle := List.le_snd_of_mem_zipIdx hp
  have hne : p.2 ≠ i := by omega
  simp [hne]

section Files

variable {m : Type → Type} [Monad m] [LawfulMonad m] [FileStore m]

/-- Packing goes through the kernels that are due, and takes their marks away. -/
theorem packPendingFrom_eq (w : Watcher) (i : Nat) (ks : List Kernel) :
    (packPendingFrom w i ks : m _) =
      Round.map (fun _ =>
          { w with pending := w.pending.filter fun j => j < i || i + ks.length ≤ j }) <$>
        buildAll w.options (w.due i ks) := by
  induction ks generalizing w i with
  | nil =>
    have hall : w.pending.filter (fun j => j < i || i ≤ j) = w.pending := by
      refine List.filter_eq_self.mpr fun j _ => ?_
      simpa using Nat.lt_or_ge j i
    simp [packPendingFrom, due, buildAll, Round.map, Except.map, hall]
  | cons k ks ih =>
    rw [packPendingFrom, due_cons]
    split
    · -- the mark at `i` is gone when the rest is packed
      have hrest : (w.pending.filter (· != i)).filter (fun j => j < i + 1 || i + 1 + ks.length ≤ j)
          = w.pending.filter fun j => j < i || i + (ks.length + 1) ≤ j := by
        rw [List.filter_filter]
        refine List.filter_congr fun j _ => ?_
        rw [Bool.eq_iff_iff]
        simp only [Bool.and_eq_true, Bool.or_eq_true, decide_eq_true_eq, bne_iff_ne]
        omega
      rw [buildAll, map_bind]
      refine bind_congr fun built => ?_
      obtain ⟨value, log⟩ := built
      cases value with
      | error c => simp [Round.map, Except.map]
      | ok b =>
        simp only [ih, due_unmark, hrest, bind_pure_comp, Functor.map_map, List.length_cons]
        rfl
    · rename_i hpending
      have hrest : w.pending.filter (fun j => j < i + 1 || i + 1 + ks.length ≤ j)
          = w.pending.filter fun j => j < i || i + (ks.length + 1) ≤ j := by
        refine List.filter_congr fun j hj => ?_
        have hne : j ≠ i := by
          rintro rfl
          exact hpending (List.contains_iff_mem.mpr hj)
        rw [Bool.eq_iff_iff]
        simp only [Bool.or_eq_true, decide_eq_true_eq]
        omega
      simp only [ih, hrest, List.length_cons]

/-- **Packing what is pending**: going through the kernels that are due. Unless one of them crashes
no mark is left, if all marks belong to kernels. -/
theorem packPending_eq {w : Watcher} (h : ∀ i ∈ w.pending, i < w.kernels.length) :
    (w.packPending : m _) = Round.map (fun _ => { w with pending := [] }) <$>
      buildAll w.options (w.due 0 w.kernels) := by
  have hnone : w.pending.filter (fun j => j < 0 || 0 + w.kernels.length ≤ j) = [] := by
    refine List.filter_eq_nil_iff.mpr fun j hj => ?_
    have hlt := h j hj
    simp only [Bool.or_eq_true, decide_eq_true_eq]
    omega
  rw [packPending, packPendingFrom_eq, hnone]

end Files

/-! ### What calls lead to -/

/-- The watcher is `w₀` with marks for exactly the kernels that one of the events concerns. -/
structure Owes (w₀ : Watcher) (es : List FileEvent) (w : Watcher) : Prop where
  eq : w = { w₀ with pending := w.pending }
  pending_iff : ∀ i, i ∈ w.pending ↔
    ∃ k, w₀.kernels[i]? = some k ∧ ∃ e ∈ es, e.concerns w₀.workingDirectory k = true

namespace Owes

variable {w₀ w : Watcher} {es : List FileEvent}

theorem lt_length (h : w₀.Owes es w) {i : Nat} (hi : i ∈ w.pending) : i < w.kernels.length := by
  obtain ⟨k, hk, -⟩ := (h.pending_iff i).mp hi
  rw [h.eq]
  exact (List.getElem?_eq_some_iff.mp hk).1

theorem finds (h : w₀.Owes es w) (hfinds : w₀.Finds) : w.Finds := by
  rw [h.eq]
  exact hfinds

/-- The kernels that are due are those that the events concern. -/
theorem due_eq (h : w₀.Owes es w) : w.due 0 w.kernels
    = w₀.kernels.filter fun k => es.any fun e => e.concerns w₀.workingDirectory k := by
  have hmarked : ∀ p ∈ w₀.kernels.zipIdx 0, w.pending.contains p.2
      = es.any fun e => e.concerns w₀.workingDirectory p.1 := by
    intro p hp
    have hk : w₀.kernels[p.2]? = some p.1 := List.mem_zipIdx_iff_getElem?.mp hp
    rw [Bool.eq_iff_iff, List.contains_iff_mem, h.pending_iff, List.any_eq_true, hk]
    simp
  rw [due, h.eq]
  dsimp only
  rw [List.filter_congr hmarked]
  conv => rhs; rw [← List.zipIdx_map_fst 0 w₀.kernels, List.filter_map]
  rfl

/-- An event that is taken in is owed too. -/
theorem handle (h : w₀.Owes es w) (hfinds : w₀.Finds) (e : FileEvent) :
    w₀.Owes (e :: es) (w.handle e).1 := by
  have hkernels : w.kernels = w₀.kernels := by rw [h.eq]
  have hcwd : w.workingDirectory = w₀.workingDirectory := by rw [h.eq]
  refine ⟨by rw [handle_eq, h.eq], fun j => ?_⟩
  obtain ⟨i, k, hk, hconcerns, heq⟩ | ⟨hnone, heq⟩ := handle_cases (h.finds hfinds) e
  · rw [hkernels] at hk
    rw [hcwd] at hconcerns
    rw [heq, mem_pending_mark, h.pending_iff]
    constructor
    · rintro (rfl | ⟨l, hl, e', he', hconcerns'⟩)
      · exact ⟨k, hk, e, List.mem_cons_self, hconcerns⟩
      · exact ⟨l, hl, e', List.mem_cons_of_mem e he', hconcerns'⟩
    · rintro ⟨l, hl, e', he', hconcerns'⟩
      obtain rfl | he' := List.mem_cons.mp he'
      · exact Or.inl (hfinds.index_eq hl hconcerns' hk hconcerns)
      · exact Or.inr ⟨l, hl, e', he', hconcerns'⟩
  · rw [hkernels, hcwd] at hnone
    rw [heq, h.pending_iff]
    refine exists_congr fun l => and_congr_right fun hl => ?_
    simp [hnone l (List.mem_of_getElem? hl)]

/-- Packing what is pending goes through the kernels that are due. -/
theorem run_packPending (h : w₀.Owes es w) (t : Tree) :
    (w.packPending : StateM Tree _).run t
      = pure ((roundIn w.options t (w.due 0 w.kernels)).map fun _ => { w with pending := [] },
          treeAfterRound w.options t (w.due 0 w.kernels)) := by
  rw [packPending_eq fun _ hi => h.lt_length hi, StateT.run_map]
  rfl

/-- Nothing is owed once what was pending is packed. -/
theorem packPending (h : w₀.Owes es w) {t : Tree} {w' : Watcher}
    (hreturns : ((w.packPending : StateM Tree _).run t).1.value = .ok w') : w₀.Owes [] w' := by
  rw [h.run_packPending] at hreturns
  obtain ⟨_, -, rfl⟩ := Outcome.map_eq_ok_iff.mp hreturns
  exact ⟨by rw [h.eq], fun i => by simp⟩

end Owes

/-- **What a watcher owes** after any calls are the events since it was last told to pack. -/
theorem Reached.owes {w₀ w : Watcher} {calls : List Call} (hfinds : w₀.Finds)
    (hidle : w₀.pending = []) (h : w₀.Reached calls w) : w₀.Owes (Call.recent calls) w := by
  induction h with
  | start => exact ⟨rfl, fun i => by simp [hidle, Call.recent]⟩
  | event e _ ih => exact ih.handle hfinds e
  | flush t _ hreturns ih => exact ih.packPending hreturns

/-- The kernels of a list that one of the events since the last packing concerns. -/
def Call.changed (cwd : Bytes) (calls : List Call) (kernels : List Kernel) : List Kernel :=
  kernels.filter fun k => (recent calls).any fun e => e.concerns cwd k

/-- **A watcher packs exactly what changed.** Let a watcher begin with kernels whose sources are
different files, and let it be called in any way, each call returning. When it is told to pack, then
in any file store it goes once through the kernels whose sources had new contents since it was last
told so, in their order, and unless that crashes nothing is pending then. In a tree this means that
they are packed one after another, and each of them is reported, whether packed or failed: all of
them, if each can be cut at its turn, and otherwise those before the first that cannot; that one
crashes, it is not reported, and the kernels behind it are not packed any more. When the watcher is
handed an event, it marks a kernel and says so exactly if the event concerns one; otherwise it stays
as it is. -/
theorem packPending_recent {o : PackOptions} {kernels : List Kernel} {t : Tree} {w₀ w : Watcher}
    {calls : List Call} (hstart : ((start o kernels : StateM Tree _).run t).1.1 = .ok w₀)
    (hdistinct : (kernels.map fun k => Path.absolute w₀.workingDirectory k.source).Nodup)
    (hreached : w₀.Reached calls w) :
    (∀ (m : Type → Type) [Monad m] [LawfulMonad m] [FileStore m], (w.packPending : m _) =
      Round.map (fun _ => { w with pending := [] }) <$>
        buildAll o (Call.changed w₀.workingDirectory calls kernels)) ∧
    (∀ (u u' : Tree) (round : Round Watcher) (changed : List Kernel),
      changed = Call.changed w₀.workingDirectory calls kernels →
      (w.packPending : StateM Tree _).run u = pure (round, u') →
      ((∀ i k bs v, changed[i]? = some k → BuildsAll o u (changed.take i) bs v → o.CanCut v k) →
        round.value = .ok { w with pending := [] } ∧ BuildsAll o u changed round.builds u') ∧
      BuildsAll o u (changed.take round.builds.length) round.builds u' ∧
      (round.value = .ok { w with pending := [] } ∧ round.builds.length = changed.length ∨
        round.value = .error .capacity ∧
          ∃ k, changed[round.builds.length]? = some k ∧ ¬ o.CanCut u' k)) ∧
    ∀ e, (∃ i k, kernels[i]? = some k ∧ e.concerns w₀.workingDirectory k = true ∧
        w.handle e = (w.mark i, some i) ∧ ∀ j, j ∈ (w.mark i).pending ↔ j = i ∨ j ∈ w.pending) ∨
      (∀ k ∈ kernels, e.concerns w₀.workingDirectory k = false) ∧ w.handle e = (w, none) := by
  have hfinds := finds_of_start hstart hdistinct
  obtain rfl := start_eq_ok hstart
  have howes := hreached.owes hfinds rfl
  have hoptions : w.options = o := by rw [howes.eq]
  have hdue : w.due 0 w.kernels = Call.changed t.cwd calls kernels := howes.due_eq
  refine ⟨fun m _ _ _ => ?_, fun u u' round changed hchanged hround => ?_, fun e => ?_⟩
  · rw [packPending_eq fun _ hi => howes.lt_length hi, hdue, hoptions]
  · rw [howes.run_packPending, hdue, ← hchanged] at hround
    obtain ⟨rfl, rfl⟩ := Prod.mk.inj hround
    rw [hoptions]
    obtain ⟨hall, hends⟩ := buildAll_prefix o u changed
    dsimp only [Round.map]
    generalize (roundIn o u changed).value = value at hends
    cases hends with
    | complete hn =>
      have hround : BuildsAll o u changed (roundIn o u changed).builds
          (treeAfterRound o u changed) := by rwa [hn, List.take_length] at hall
      exact ⟨fun _ => ⟨rfl, hround⟩, hall, .inl ⟨rfl, hn⟩⟩
    | crashed hk hcut =>
      exact ⟨fun hcan => absurd (hcan _ _ _ _ hk hall) hcut, hall, .inr ⟨rfl, _, hk, hcut⟩⟩
  · have hkernels : w.kernels = kernels := by rw [howes.eq]
    have hcwd : w.workingDirectory = t.cwd := by rw [howes.eq]
    have hcases := handle_cases (howes.finds hfinds) e
    rw [hkernels, hcwd] at hcases
    refine hcases.imp_left ?_
    rintro ⟨i, k, hk, hconcerns, heq⟩
    exact ⟨i, k, hk, hconcerns, heq, fun _ => mem_pending_mark⟩

/-- Only the second kernel changed since the watcher last packed. With the largest chunk size it is
packed and reported while its text has one byte, and crashes unreported once it has two. -/
theorem packPending_recent_second :
    let o : PackOptions := { chunkSize := Int64.maxValue }
    let a : Kernel := ⟨utf8 "a.cl", 0, .ofPairs []⟩
    let b : Kernel := ⟨utf8 "b.cl", 0, .ofPairs []⟩
    let t : Tree := ⟨[([utf8 "a.cl"], .file []), ([utf8 "b.cl"], .file (utf8 "b"))], []⟩
    let u : Tree := ⟨[([utf8 "a.cl"], .file []), ([utf8 "b.cl"], .file (utf8 "bb"))], []⟩
    ∃ w₀ w, ((start o [a, b] : StateM Tree _).run t).1.1 = .ok w₀ ∧
      w₀.Reached [.event ⟨utf8 "./b.cl", [.write, .chmod]⟩, .event ⟨utf8 "a.cl", [.remove]⟩,
        .flush, .event ⟨utf8 "/a.cl", [.create]⟩] w ∧
      (∃ round t', (w.packPending : StateM Tree _).run t = pure (round, t') ∧
        round.value = .ok { w with pending := [] } ∧ BuildsAll o t [b] round.builds t') ∧
      ∃ round u', (w.packPending : StateM Tree _).run u = pure (round, u') ∧
        round.value = .error .capacity ∧ round.builds = [] := by
  intro o a b t u
  have hok : ((start o [a, b] : StateM Tree _).run t).1.1.isOk = true := by decide +kernel
  obtain ⟨w₀, hstart⟩ := Outcome.exists_eq_ok_of_isOk hok
  obtain rfl := start_eq_ok hstart
  set w₀ : Watcher := ⟨o, [a, b], t.cwd, sourcesFrom t.cwd 0 [a, b], []⟩
  have hreturns : (((w₀.handle ⟨utf8 "/a.cl", [.create]⟩).1.packPending : StateM Tree _).run
      t).1.value.isOk = true := by decide +kernel
  obtain ⟨w₁, hw₁⟩ := Outcome.exists_eq_ok_of_isOk hreturns
  obtain ⟨w, hreached⟩ : ∃ w, w₀.Reached [.event ⟨utf8 "./b.cl", [.write, .chmod]⟩,
      .event ⟨utf8 "a.cl", [.remove]⟩, .flush, .event ⟨utf8 "/a.cl", [.create]⟩] w :=
    ⟨_, ((Reached.start.event _).flush t hw₁).event _ |>.event _⟩
  refine ⟨w₀, w, hstart, hreached, ?_⟩
  have hdistinct : ([a, b].map fun k => Path.absolute w₀.workingDirectory k.source).Nodup := by
    decide +kernel
  have hchanged : [b] = Call.changed w₀.workingDirectory [.event ⟨utf8 "./b.cl", [.write, .chmod]⟩,
      .event ⟨utf8 "a.cl", [.remove]⟩, .flush, .event ⟨utf8 "/a.cl", [.create]⟩] [a, b] := by
    decide +kernel
  have hpacks := (packPending_recent hstart hdistinct hreached).2.1
  constructor
  · refine ⟨_, _, rfl, (hpacks t _ _ [b] hchanged rfl).1 fun i k bs v hk hbefore => ?_⟩
    obtain ⟨rfl, rfl⟩ : i = 0 ∧ b = k := by simpa [List.getElem?_singleton] using hk
    cases hbefore
    have hpacked : packedIn o t b ≠ .error (.crashed .capacity) := by decide +kernel
    exact not_not.mp fun hcut => hpacked (packedIn_eq_crashed_iff.mpr hcut)
  · obtain ⟨round, u', hround⟩ : ∃ round u', (w.packPending : StateM Tree _).run u
        = pure (round, u') := ⟨_, _, rfl⟩
    refine ⟨round, u', hround, ?_⟩
    obtain ⟨-, hbefore, ⟨-, hall⟩ | ⟨hvalue, k, hk, -⟩⟩ := hpacks u u' round [b] hchanged hround
    · -- had the kernel been reported, it would not have crashed
      have hcrashed : packedIn o u b = .error (.crashed .capacity) := by decide +kernel
      generalize round.builds = builds at hbefore hall
      rw [hall] at hbefore
      cases hbefore with
      | @cons _ _ _ _ built _ _ hpacked _ =>
        exact absurd (hpacked.symm.trans hcrashed) (built.outcome_ne_crashed _)
    · have hnone : round.builds.length = 0 := by
        have hlt := (List.getElem?_eq_some_iff.mp hk).1
        rwa [List.length_singleton, Nat.lt_one_iff] at hlt
      exact ⟨hvalue, List.length_eq_zero_iff.mp hnone⟩

end Watcher

end KernelPack
