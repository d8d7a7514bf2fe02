import KernelPack.Proofs.Kernel.Packing
import KernelPack.Proofs.Kernel.Watching
import Mathlib.Logic.Relation

/-!
# No update is lost

A **session** is a watcher at work among files that others rewrite. Whoever rewrites a file sends an
event, which stays in flight until it is handed to the watcher, in any order. The watcher's loop
goes through the kernels once at the beginning, packing all of them, and then again and again,
packing those that are pending. It proceeds by steps (`advance`): a kernel's mark is cleared and its
source is loaded, and later the kernel is packed from what was loaded. Anything may happen between
two steps, unless a kernel crashes: then the loop stands still for good, and takes no event any
more. Left alone, the loop does what `Watcher.buildAll` and `Watcher.packPending` do
(`comesTo_buildAll`, `comesTo_packPending`).

The invariant is `Sound`. Its core is that a kernel whose source is not what was last loaded is
pending, or an event about it is in flight (`Covered`): rewriting a source sends the event, handing
over the event marks the kernel, and the mark is cleared no earlier than the source is loaded. When
nothing is in flight and the loop then goes once through the kernels without a file being rewritten,
all of them are packed from what their sources hold (`Settling`).

Outcomes are compared by `SameOutcome`: of a failed file operation the cause may change although
no source does, since a file may come to stand on the way to another.
-/

namespace KernelPack

/-- Where the loop of a watcher stands. In the first round every kernel is packed. -/
inductive Stage where
  /-- It waits. -/
  | idle
  /-- It comes to the kernel at an index. -/
  | visiting (first : Bool) (i : Nat)
  /-- It packs the kernel at an index from what was loaded of its source. -/
  | packing (first : Bool) (i : Nat) (k : Kernel) (loaded : Except LoadError (List Bytes))
  /-- It crashed over the kernel at an index. -/
  | crashed (first : Bool) (i : Nat) (c : Crash)
  deriving DecidableEq

namespace Stage

/-- The loop has come to the kernel at an index; after the first round it has come to all. -/
def Begun : Stage → Nat → Prop
  | .idle, _ => True
  | .visiting first p, i => first = true → i < p
  | .packing first p _ _, i | .crashed first p _, i => first = true → i ≤ p

/-- The index of the kernel that was loaded and is not reported yet. -/
def current? : Stage → Option Nat
  | .packing _ i _ _ | .crashed _ i _ => some i
  | _ => none

/-- The loop comes to the kernel at an index in this round. -/
def Ahead : Stage → Nat → Prop
  | .idle, _ => False
  | .visiting _ p, i => p ≤ i
  | .packing _ p _ _, i | .crashed _ p _, i => p < i

end Stage

/-- A watcher at work. -/
structure Session where
  watcher : Watcher
  tree : Tree
  /-- The events that were sent and not yet handed to the watcher. -/
  inFlight : List FileEvent
  stage : Stage
  /-- What the sources of kernels held when they were loaded, if they could be read; the latest
  first. -/
  loads : List (Nat × Option Bytes)
  /-- What was reported of kernels, the latest first. -/
  reports : List (Nat × Build)

namespace Session

/-- The session of a watcher that has begun. -/
def begin (w : Watcher) (t : Tree) : Session := ⟨w, t, [], .visiting true 0, [], []⟩

/-! ### Steps -/

/-- The loop loads the source of a kernel. -/
def load (s : Session) (first : Bool) (i : Nat) (k : Kernel) : Session :=
  { s with
    stage := .packing first i k (k.loadedIn s.tree)
    loads := (i, s.tree.content? k.source) :: s.loads }

/-- The loop packs a kernel from what was loaded, and reports it unless it crashes. -/
def finish (s : Session) (first : Bool) (i : Nat) (k : Kernel)
    (loaded : Except LoadError (List Bytes)) : Session :=
  let packed := (packLoaded s.watcher.options k loaded : StateM Tree _).run s.tree
  let s := { s with tree := packed.2 }
  match (Watcher.report k packed.1).value with
  | .error c => { s with stage := .crashed first i c }
  | .ok b => { s with stage := .visiting first (i + 1), reports := (i, b) :: s.reports }

/-- The mark of a kernel is cleared. -/
def unmark (s : Session) (i : Nat) : Session :=
  { s with watcher := { s.watcher with pending := s.watcher.pending.filter (· != i) } }

/-- The loop takes a step. -/
def advance (s : Session) : Session :=
  match s.stage with
  | .idle => { s with stage := .visiting false 0 }
  | .visiting first i =>
    match s.watcher.kernels[i]? with
    | none => { s with stage := .idle }
    | some k =>
      if first then s.load first i k
      else if s.watcher.pending.contains i then (s.unmark i).load first i k
      else { s with stage := .visiting first (i + 1) }
  | .packing first i k loaded => s.finish first i k loaded
  | .crashed _ _ _ => s

/-- An event is handed to the watcher, whether or not somebody rewrote a file for it. -/
def deliver (s : Session) (e : FileEvent) : Session :=
  { s with watcher := (s.watcher.handle e).1, inFlight := s.inFlight.erase e }

/-- What happens without a file being rewritten from outside. -/
inductive Quiet : Session → Session → Prop where
  | advance (s : Session) : Quiet s s.advance
  | deliver (s : Session) (e : FileEvent) (hruns : ∀ first i c, s.stage ≠ .crashed first i c) :
    Quiet s (s.deliver e)

/-- What may happen: also, a file is rewritten and an event about it is sent. -/
inductive Step : Session → Session → Prop where
  | quiet {s s' : Session} (h : Quiet s s') : Step s s'
  | rewrite {s : Session} {t : Tree} {path content : Bytes} {e : FileEvent}
    (hwrite : s.tree.write path content = .ok t) (hnew : e.isNewContent = true)
    (hpath : Path.absolute s.watcher.workingDirectory e.path
      = Path.absolute s.watcher.workingDirectory path) :
    Step s { s with tree := t, inFlight := e :: s.inFlight }

/-! ### The loop left alone -/

/-- How a round ends: at rest with the watcher that it comes to, or with a crash. -/
def EndsWith (s : Session) : Except Crash Watcher → Prop
  | .ok w => s.stage = .idle ∧ s.watcher = w
  | .error c => ∃ first i, s.stage = .crashed first i c

/-- Left alone, the loop does what a round of a watcher does, and leaves a tree. -/
def ComesTo (s : Session) (round : Round Watcher) (t : Tree) : Prop :=
  ∃ s', Relation.ReflTransGen (fun a b => b = a.advance) s s' ∧ s'.EndsWith round.value ∧
    s'.tree = t ∧ s'.inFlight = s.inFlight ∧
    s'.reports.map Prod.snd = round.builds.reverse ++ s.reports.map Prod.snd

/-- The kernel that comes next, and those behind it. -/
theorem getElem?_of_drop_eq_cons {kernels ks : List Kernel} {i : Nat} {k : Kernel}
    (h : kernels.drop i = k :: ks) : kernels[i]? = some k ∧ kernels.drop (i + 1) = ks := by
  constructor
  · rw [← List.head?_drop, h, List.head?_cons]
  · rw [← List.tail_drop, h, List.tail_cons]

section Load

variable {s : Session} {k : Kernel} {t : Tree} {log : List LogRecord}

/-- Loading and packing with nothing between them is what `Watcher.build` does. -/
theorem advance_load_of_ok {b : Build}
    (h : (Watcher.build s.watcher.options k : StateM Tree _).run s.tree = pure (⟨.ok b, log⟩, t))
    (first : Bool) (i : Nat) :
    (s.load first i k).advance = { s with
      tree := t
      stage := .visiting first (i + 1)
      loads := (i, s.tree.content? k.source) :: s.loads
      reports := (i, b) :: s.reports } := by
  rw [Watcher.run_build, treeAfter, run_pack] at h
  obtain ⟨hreport, htree⟩ := Prod.mk.inj h
  simp only [advance, load, finish, hreport, htree]

/-- So it is with a crash. -/
theorem advance_load_of_error {c : Crash}
    (h : (Watcher.build s.watcher.options k : StateM Tree _).run s.tree
      = pure (⟨.error c, log⟩, t)) (first : Bool) (i : Nat) :
    (s.load first i k).advance = { s with
      tree := t
      stage := .crashed first i c
      loads := (i, s.tree.content? k.source) :: s.loads } := by
  rw [Watcher.run_build, treeAfter, run_pack] at h
  obtain ⟨hreport, htree⟩ := Prod.mk.inj h
  simp only [advance, load, finish, hreport, htree]

end Load

namespace ComesTo

variable {s u : Session} {first : Bool} {i : Nat} {k : Kernel} {round : Round Watcher} {t t' : Tree}
  {log : List LogRecord}

/-- The loop rests behind the last kernel. -/
theorem rest (hstage : s.stage = .visiting first i) (hnone : s.watcher.kernels[i]? = none) :
    s.ComesTo ⟨.ok s.watcher, [], []⟩ s.tree := by
  refine ⟨s.advance, .single rfl, ?_⟩
  have hadvance : s.advance = { s with stage := .idle } := by
    simp only [advance, hstage, hnone]
  rw [hadvance]
  exact ⟨⟨rfl, rfl⟩, rfl, rfl, rfl⟩

/-- A step that reports nothing comes first. -/
theorem skip (hadvance : s.advance = u) (hflight : u.inFlight = s.inFlight)
    (hreports : u.reports = s.reports) (h : u.ComesTo round t) : s.ComesTo round t := by
  obtain ⟨s', halone, hends, htree, hflight', hreports'⟩ := h
  exact ⟨s', .head hadvance.symm halone, hends, htree, hflight'.trans hflight,
    hreports ▸ hreports'⟩

/-- A kernel is built first. -/
theorem build {b : Build} (hadvance : s.advance = u.load first i k)
    (hflight : u.inFlight = s.inFlight) (hreports : u.reports = s.reports)
    (hbuild : (Watcher.build u.watcher.options k : StateM Tree _).run u.tree
      = pure (⟨.ok b, log⟩, t'))
    (h : (u.load first i k).advance.ComesTo round t) : s.ComesTo (round.after b log) t := by
  obtain ⟨s', halone, hends, htree, hflight', hreports'⟩ := h
  rw [advance_load_of_ok hbuild] at hflight' hreports'
  refine ⟨s', .head hadvance.symm (.head rfl halone), hends, htree, hflight'.trans hflight, ?_⟩
  rw [hreports', List.map_cons, hreports, Round.after, List.reverse_cons, List.append_assoc,
    List.singleton_append]

/-- A kernel crashes, which is the end. -/
theorem crash {c : Crash} (hadvance : s.advance = u.load first i k)
    (hflight : u.inFlight = s.inFlight) (hreports : u.reports = s.reports)
    (hbuild : (Watcher.build u.watcher.options k : StateM Tree _).run u.tree
      = pure (⟨.error c, log⟩, t)) : s.ComesTo ⟨.error c, [], log⟩ t := by
  refine ⟨(u.load first i k).advance, .head hadvance.symm (.single rfl), ?_⟩
  rw [advance_load_of_error hbuild]
  exact ⟨⟨first, i, rfl⟩, rfl, hflight, congrArg _ hreports⟩

end ComesTo

/-- **The first round left alone** packs all kernels in their order. -/
theorem comesTo_buildAll {s : Session} {i : Nat} {ks : List Kernel}
    (hstage : s.stage = .visiting true i) (hks : s.watcher.kernels.drop i = ks) :
    s.ComesTo (((Watcher.buildAll s.watcher.options ks : StateM Tree _).run s.tree).1.map
        fun _ => s.watcher)
      ((Watcher.buildAll s.watcher.options ks : StateM Tree _).run s.tree).2 := by
  induction ks generalizing s i with
  | nil =>
    have hnone : s.watcher.kernels[i]? = none := by simpa using hks
    exact .rest hstage hnone
  | cons k ks ih =>
    obtain ⟨hk, hks'⟩ := getElem?_of_drop_eq_cons hks
    have hadvance : s.advance = s.load true i k := by
      simp only [advance, hstage, hk, if_true]
    rw [Watcher.buildAll, StateT.run_bind]
    obtain ⟨⟨⟨c | b, log⟩, t⟩, hbuild⟩ : ∃ built,
        (Watcher.build s.watcher.options k : StateM Tree _).run s.tree = pure built := ⟨_, rfl⟩
    · rw [hbuild]
      exact .crash hadvance rfl rfl hbuild
    · have hnext := advance_load_of_ok hbuild true i
      have hrest := ih (s := (s.load true i k).advance) (i := i + 1) (by rw [hnext])
        (by rw [hnext]; exact hks')
      have hcomes := ComesTo.build hadvance rfl rfl hbuild hrest
      rw [hnext] at hcomes
      rw [hbuild]
      exact hcomes

/-- **A later round left alone** packs what is pending. -/
theorem comesTo_packPendingFrom {s : Session} {i : Nat} {ks : List Kernel}
    (hstage : s.stage = .visiting false i) (hks : s.watcher.kernels.drop i = ks) :
    s.ComesTo ((s.watcher.packPendingFrom i ks : StateM Tree _).run s.tree).1
      ((s.watcher.packPendingFrom i ks : StateM Tree _).run s.tree).2 := by
  induction ks generalizing s i with
  | nil =>
    have hnone : s.watcher.kernels[i]? = none := by simpa using hks
    exact .rest hstage hnone
  | cons k ks ih =>
    obtain ⟨hk, hks'⟩ := getElem?_of_drop_eq_cons hks
    rw [Watcher.packPendingFrom]
    split
    · rename_i hpending
      have hadvance : s.advance = (s.unmark i).load false i k := by
        simp only [advance, hstage, hk, hpending, if_true]
        rfl
      rw [StateT.run_bind]
      obtain ⟨⟨⟨c | b, log⟩, t⟩, hbuild⟩ : ∃ built,
          (Watcher.build (s.unmark i).watcher.options k : StateM Tree _).run (s.unmark i).tree
            = pure built := ⟨_, rfl⟩
      · exact hbuild ▸ ComesTo.crash (u := s.unmark i) hadvance rfl rfl hbuild
      · have hnext := advance_load_of_ok hbuild false i
        have hrest := ih (s := ((s.unmark i).load false i k).advance) (i := i + 1) (by rw [hnext])
          (by rw [hnext]; exact hks')
        have hcomes := ComesTo.build (u := s.unmark i) hadvance rfl rfl hbuild hrest
        rw [hnext] at hcomes
        exact hbuild ▸ hcomes
    · rename_i hpending
      have hadvance : s.advance = { s with stage := .visiting false (i + 1) } := by
        simp only [advance, hstage, hk, hpending]
        rfl
      refine ComesTo.skip hadvance rfl rfl (ih rfl hks')

/-- **A round that begins at rest** does what the watcher does when it is told to pack. -/
theorem comesTo_packPending {s : Session} (hidle : s.stage = .idle) :
    s.ComesTo ((s.watcher.packPending : StateM Tree _).run s.tree).1
      ((s.watcher.packPending : StateM Tree _).run s.tree).2 := by
  have hadvance : s.advance = { s with stage := .visiting false 0 } := by
    simp only [advance, hidle]
  exact ComesTo.skip hadvance rfl rfl (comesTo_packPendingFrom rfl rfl)

/-! ### The invariant -/

/-- What a session needs: the watcher finds its kernels, it works where the tree does, and what it
writes is no source. -/
structure Fit (w : Watcher) (t : Tree) : Prop where
  finds : w.Finds
  placed : t.IsPlaced
  workingDirectory_eq : w.workingDirectory = t.cwd
  apart : ∀ k ∈ w.kernels, ∀ path ∈ w.options.outputs k, ∀ l ∈ w.kernels,
    Path.absolute w.workingDirectory path ≠ Path.absolute w.workingDirectory l.source

/-- The kernel was last loaded from what its source holds, or it is pending, or an event about it is
in flight. -/
def Covered (s : Session) (i : Nat) (k : Kernel) : Prop :=
  s.loads.lookup i = some (s.tree.content? k.source) ∨ i ∈ s.watcher.pending ∨
    ∃ e ∈ s.inFlight, e.concerns s.watcher.workingDirectory k = true

/-- The invariant of a session that began with a watcher and a tree. -/
structure Sound (w₀ : Watcher) (t₀ : Tree) (s : Session) : Prop where
  watcher_eq : s.watcher = { w₀ with pending := s.watcher.pending }
  shape : t₀.SameShape s.tree
  covered : ∀ i k, w₀.kernels[i]? = some k → s.stage.Begun i → s.Covered i k
  /-- What is being packed was loaded from the source at the last load. -/
  packing : ∀ first i k loaded, s.stage = .packing first i k loaded →
    w₀.kernels[i]? = some k ∧ ∃ t, t₀.SameShape t ∧ loaded = k.loadedIn t ∧
      s.loads.lookup i = some (t.content? k.source)
  /-- What was reported last is the outcome of packing from the last load. -/
  reported : ∀ i k c, w₀.kernels[i]? = some k → s.loads.lookup i = some c →
    s.stage.current? ≠ some i →
    ∃ b t t', s.reports.lookup i = some b ∧ b.kernel = k.name ∧ t₀.SameShape t ∧
      t₀.SameShape t' ∧ t.content? k.source = c ∧ packedFrom w₀.options t t' k = b.outcome

/-- **What becomes of a kernel that is packed**: it is reported with its outcome, or it crashes. -/
theorem finish_cases (s : Session) (first : Bool) (i : Nat) (k : Kernel)
    (loaded : Except LoadError (List Bytes)) :
    ∃ t, t = ((packLoaded s.watcher.options k loaded : StateM Tree _).run s.tree).2 ∧
      ((∃ b, b.kernel = k.name ∧
          ((packLoaded s.watcher.options k loaded : StateM Tree _).run s.tree).1.value
            = b.outcome ∧
          s.finish first i k loaded = { s with
            tree := t, stage := .visiting first (i + 1), reports := (i, b) :: s.reports }) ∨
        ∃ c, ((packLoaded s.watcher.options k loaded : StateM Tree _).run s.tree).1.value
            = .error (.crashed c) ∧
          s.finish first i k loaded = { s with tree := t, stage := .crashed first i c }) := by
  refine ⟨_, rfl, ?_⟩
  unfold finish
  dsimp only
  obtain ⟨b, hb, hkernel, houtcome⟩ | ⟨c, hc, hcrashed⟩ := Watcher.report_cases k
    ((packLoaded s.watcher.options k loaded : StateM Tree _).run s.tree).1
  · rw [hb]
    exact .inl ⟨b, hkernel, houtcome, rfl⟩
  · rw [hc]
    exact .inr ⟨c, hcrashed, rfl⟩

/-- **What a step of the loop can do**: begin a round, end it, pass over a kernel, load one, finish
one, or nothing after a crash. -/
theorem advance_cases (s : Session) :
    (s.stage = .idle ∧ s.advance = { s with stage := .visiting false 0 }) ∨
    (∃ first i, s.stage = .visiting first i ∧ s.watcher.kernels[i]? = none ∧
      s.advance = { s with stage := .idle }) ∨
    (∃ i, s.stage = .visiting false i ∧ i ∉ s.watcher.pending ∧
      s.advance = { s with stage := .visiting false (i + 1) }) ∨
    (∃ first i k pending, s.stage = .visiting first i ∧ s.watcher.kernels[i]? = some k ∧
      (∀ j, j ≠ i → j ∈ s.watcher.pending → j ∈ pending) ∧
      s.advance = { s with watcher := { s.watcher with pending } }.load first i k) ∨
    (∃ first i k loaded, s.stage = .packing first i k loaded ∧
      s.advance = s.finish first i k loaded) ∨
    s.advance = s := by
  unfold advance
  cases hstage : s.stage with
  | idle => exact .inl ⟨rfl, rfl⟩
  | packing first i k loaded =>
    exact .inr (.inr (.inr (.inr (.inl ⟨first, i, k, loaded, rfl, rfl⟩))))
  | crashed first i c => exact .inr (.inr (.inr (.inr (.inr rfl))))
  | visiting first i =>
    refine .inr ?_
    cases hk : s.watcher.kernels[i]? with
    | none => exact .inl ⟨first, i, rfl, hk, by simp only [hk]⟩
    | some k =>
      simp only [hk]
      cases first with
      | true =>
        exact .inr (.inr (.inl ⟨true, i, k, s.watcher.pending, rfl, hk, fun _ _ h => h, rfl⟩))
      | false =>
        by_cases hpending : i ∈ s.watcher.pending
        · refine .inr (.inr (.inl ⟨false, i, k, s.watcher.pending.filter (· != i), rfl, hk,
            fun j hj hmem => ?_, ?_⟩))
          · exact List.mem_filter.mpr ⟨hmem, by simpa using hj⟩
          · simp only [List.contains_iff_mem.mpr hpending, if_true]
            rfl
        · exact .inr (.inl ⟨i, rfl, hpending, by simp [hpending]⟩)

namespace Sound

variable {w₀ : Watcher} {t₀ : Tree} {s : Session}

theorem begin (w₀ : Watcher) (t₀ : Tree) : Sound w₀ t₀ (begin w₀ t₀) where
  watcher_eq := rfl
  shape := .refl t₀
  covered _ _ _ hbegun := absurd (hbegun rfl) (Nat.not_lt_zero _)
  packing _ _ _ _ h := nomatch h
  reported _ _ _ _ h _ := nomatch h

theorem kernels_eq (h : Sound w₀ t₀ s) : s.watcher.kernels = w₀.kernels := by rw [h.watcher_eq]

theorem workingDirectory_eq (h : Sound w₀ t₀ s) :
    s.watcher.workingDirectory = w₀.workingDirectory := by rw [h.watcher_eq]

theorem finds (h : Sound w₀ t₀ s) (hfit : Fit w₀ t₀) : s.watcher.Finds := by
  rw [h.watcher_eq]
  exact hfit.finds

theorem cwd_eq (h : Sound w₀ t₀ s) (hfit : Fit w₀ t₀) :
    s.tree.cwd = s.watcher.workingDirectory := by
  rw [h.shape.cwd_eq, h.workingDirectory_eq, hfit.workingDirectory_eq]

/-- A rewritten source sends an event about its kernel. -/
theorem rewrite (h : Sound w₀ t₀ s) (hfit : Fit w₀ t₀) {t : Tree} {path content : Bytes}
    {e : FileEvent} (hwrite : s.tree.write path content = .ok t) (hnew : e.isNewContent = true)
    (hpath : Path.absolute s.watcher.workingDirectory e.path
      = Path.absolute s.watcher.workingDirectory path) :
    Sound w₀ t₀ { s with tree := t, inFlight := e :: s.inFlight } where
  watcher_eq := h.watcher_eq
  shape := h.shape.trans (Tree.sameShape_of_write hwrite)
  packing := h.packing
  reported := h.reported
  covered i k hk hbegun := by
    by_cases hsource : Path.absolute s.watcher.workingDirectory path
        = Path.absolute s.watcher.workingDirectory k.source
    · refine .inr (.inr ⟨e, List.mem_cons_self, ?_⟩)
      simp [FileEvent.concerns, hnew, hpath, hsource]
    · have hcontent : t.content? k.source = s.tree.content? k.source := by
        refine Tree.content?_write (h.shape.isPlaced hfit.placed) hwrite ?_
        rwa [h.cwd_eq hfit]
      obtain hloaded | hpending | ⟨e', he', hconcerns⟩ := h.covered i k hk hbegun
      · exact .inl (hcontent ▸ hloaded)
      · exact .inr (.inl hpending)
      · exact .inr (.inr ⟨e', List.mem_cons_of_mem e he', hconcerns⟩)

/-- An event that is handed over marks the kernel that it is about. -/
theorem deliver (h : Sound w₀ t₀ s) (hfit : Fit w₀ t₀) (e : FileEvent) :
    Sound w₀ t₀ (s.deliver e) := by
  have hwatcher : (s.watcher.handle e).1
      = { w₀ with pending := (s.watcher.handle e).1.pending } := by
    rw [Watcher.handle_eq, h.watcher_eq]
  refine ⟨hwatcher, h.shape, fun i k hk hbegun => ?_, h.packing, h.reported⟩
  obtain hloaded | hpending | ⟨e', he', hconcerns⟩ := h.covered i k hk hbegun
  · exact .inl hloaded
  · exact .inr (.inl (Watcher.mem_pending_handle hpending e))
  · by_cases hsame : e' = e
    · rw [← h.kernels_eq] at hk
      exact .inr (.inl ((h.finds hfit).mem_pending hk (hsame ▸ hconcerns)))
    · refine .inr (.inr ⟨e', (List.mem_erase_of_ne hsame).mpr he', ?_⟩)
      have hcwd : (s.deliver e).watcher.workingDirectory = s.watcher.workingDirectory := by
        rw [h.workingDirectory_eq, Session.deliver, hwatcher]
      rwa [hcwd]

/-- The loop goes on where nothing is being packed. -/
theorem restage (h : Sound w₀ t₀ s) {stage : Stage}
    (hbegun : ∀ i k, w₀.kernels[i]? = some k → stage.Begun i → s.stage.Begun i)
    (hold : s.stage.current? = none) (hnew : stage.current? = none) :
    Sound w₀ t₀ { s with stage } where
  watcher_eq := h.watcher_eq
  shape := h.shape
  covered i k hk hi := h.covered i k hk (hbegun i k hk hi)
  packing first i k loaded hstage := by
    subst hstage
    cases hnew
  reported i k c hk hc _ := h.reported i k c hk hc (by rw [hold]; exact nofun)

/-- A kernel that is loaded needs no mark any more. -/
theorem load (h : Sound w₀ t₀ s) {first : Bool} {i : Nat} {k : Kernel} {pending : List Nat}
    (hstage : s.stage = .visiting first i) (hk : w₀.kernels[i]? = some k)
    (hpending : ∀ j, j ≠ i → j ∈ s.watcher.pending → j ∈ pending) :
    Sound w₀ t₀ ({ s with watcher := { s.watcher with pending } }.load first i k) := by
  have hlookup : ∀ j, j ≠ i →
      ((i, s.tree.content? k.source) :: s.loads).lookup j = s.loads.lookup j := by
    intro j hj
    rw [List.lookup_cons, beq_eq_false_iff_ne.mpr hj]
  refine ⟨?_, h.shape, fun j l hl hbegun => ?_, ?_, fun j l c hl hc hnot => ?_⟩
  · rw [h.watcher_eq]
    rfl
  · by_cases hj : j = i
    · subst hj
      obtain rfl := Option.some.inj (hk.symm.trans hl)
      exact .inl List.lookup_cons_self
    · have hbefore : s.stage.Begun j := by
        rw [hstage]
        exact fun hfirst => Nat.lt_of_le_of_ne (hbegun hfirst) hj
      obtain hloaded | hmarked | hflight := h.covered j l hl hbefore
      · exact .inl ((hlookup j hj).trans hloaded)
      · exact .inr (.inl (hpending j hj hmarked))
      · exact .inr (.inr hflight)
  · rintro first' j l loaded hpacking
    obtain ⟨-, rfl, rfl, rfl⟩ := Stage.packing.inj hpacking
    exact ⟨hk, s.tree, h.shape, rfl, List.lookup_cons_self⟩
  · have hj : j ≠ i := fun hij => hnot (congrArg some hij.symm)
    have hcurrent : s.stage.current? = none := by rw [hstage]; rfl
    exact h.reported j l c hl ((hlookup j hj).symm.trans hc) (by rw [hcurrent]; exact nofun)

/-- Packing a kernel leaves the sources as they are. -/
theorem content?_packLoaded (h : Sound w₀ t₀ s) (hfit : Fit w₀ t₀)
    (loaded : Except LoadError (List Bytes)) {k l : Kernel} (hk : k ∈ w₀.kernels)
    (hl : l ∈ w₀.kernels) :
    ((packLoaded s.watcher.options k loaded : StateM Tree _).run s.tree).2.content? l.source
      = s.tree.content? l.source := by
  refine (rewrites_packLoaded s.watcher.options k loaded s.tree).content?
    (h.shape.isPlaced hfit.placed) fun path hpath => ?_
  rw [h.cwd_eq hfit, h.workingDirectory_eq]
  have hoptions : s.watcher.options = w₀.options := by rw [h.watcher_eq]
  exact hfit.apart k hk path (hoptions ▸ hpath) l hl

/-- Packing a kernel leaves every kernel covered that was so before. -/
theorem covered_packLoaded (h : Sound w₀ t₀ s) (hfit : Fit w₀ t₀)
    (loaded : Except LoadError (List Bytes)) {k l : Kernel} (hk : k ∈ w₀.kernels) {j : Nat}
    (hl : w₀.kernels[j]? = some l) (hbegun : s.stage.Begun j) :
    Covered { s with
      tree := ((packLoaded s.watcher.options k loaded : StateM Tree _).run s.tree).2 } j l := by
  have hcontent := h.content?_packLoaded hfit loaded hk (List.mem_of_getElem? hl)
  exact (h.covered j l hl hbegun).imp_left fun hloaded => hcontent.symm ▸ hloaded

/-- A kernel that is packed is reported, unless it crashes. -/
theorem finish (h : Sound w₀ t₀ s) (hfit : Fit w₀ t₀) {first : Bool} {i : Nat} {k : Kernel}
    {loaded : Except LoadError (List Bytes)} (hstage : s.stage = .packing first i k loaded) :
    Sound w₀ t₀ (s.finish first i k loaded) := by
  obtain ⟨hk, t, ht, rfl, hload⟩ := h.packing first i k loaded hstage
  have hoptions : s.watcher.options = w₀.options := by rw [h.watcher_eq]
  obtain ⟨t', ht', hcases⟩ := s.finish_cases first i k (k.loadedIn t)
  have hshape : t₀.SameShape t' := by
    rw [ht']
    exact h.shape.trans (rewrites_packLoaded s.watcher.options k (k.loadedIn t) s.tree).sameShape
  have hcovered : ∀ j l, w₀.kernels[j]? = some l → (first = true → j ≤ i) →
      Covered { s with tree := t' } j l := fun j l hl hbegun => by
    have hbefore : s.stage.Begun j := by rwa [hstage]
    exact ht' ▸ h.covered_packLoaded hfit (k.loadedIn t) (List.mem_of_getElem? hk) hl hbefore
  have hreported : ∀ j l c, w₀.kernels[j]? = some l → s.loads.lookup j = some c → j ≠ i →
      ∃ b u u', s.reports.lookup j = some b ∧ b.kernel = l.name ∧ t₀.SameShape u ∧
        t₀.SameShape u' ∧ u.content? l.source = c ∧ packedFrom w₀.options u u' l = b.outcome :=
    fun j l c hl hc hj => by
      have hcurrent : s.stage.current? ≠ some j := by
        rw [hstage]
        exact fun hij => hj (Option.some.inj hij).symm
      exact h.reported j l c hl hc hcurrent
  obtain ⟨b, hname, houtcome, heq⟩ | ⟨c, -, heq⟩ := hcases
  · rw [heq]
    refine ⟨h.watcher_eq, hshape, fun j l hl hbegun => hcovered j l hl fun hfirst =>
      Nat.le_of_lt_succ (hbegun hfirst), ?_, fun j l c hl hc _ => ?_⟩
    · intro first' j l loaded' hpacking
      cases hpacking
    by_cases hj : j = i
    · subst hj
      obtain rfl := Option.some.inj (hk.symm.trans hl)
      refine ⟨b, t, s.tree, List.lookup_cons_self, hname, ht, h.shape,
        Option.some.inj (hload.symm.trans hc), ?_⟩
      rwa [packedFrom, ← hoptions]
    · obtain ⟨b', u, u', hb', hrest⟩ := hreported j l c hl hc hj
      refine ⟨b', u, u', ?_, hrest⟩
      rw [List.lookup_cons, beq_eq_false_iff_ne.mpr hj]
      exact hb'
  · rw [heq]
    refine ⟨h.watcher_eq, hshape, hcovered, ?_, fun j l c' hl hc hnot =>
      hreported j l c' hl hc fun hij => hnot (congrArg some hij.symm)⟩
    intro first' j l loaded' hpacking
    cases hpacking

/-- **A step of the loop keeps the invariant.** -/
theorem advance (h : Sound w₀ t₀ s) (hfit : Fit w₀ t₀) : Sound w₀ t₀ s.advance := by
  obtain ⟨hstage, heq⟩ | ⟨first, i, hstage, hnone, heq⟩ | ⟨i, hstage, -, heq⟩ |
    ⟨first, i, k, pending, hstage, hk, hpending, heq⟩ | ⟨first, i, k, loaded, hstage, heq⟩ | heq :=
      s.advance_cases
  · -- a round begins
    rw [heq]
    refine h.restage (fun _ _ _ _ => ?_) (by rw [hstage]; rfl) rfl
    rw [hstage]
    trivial
  · -- the round ends behind the last kernel, so the loop has come to all of them
    rw [heq]
    refine h.restage (fun j k hk _ => ?_) (by rw [hstage]; rfl) rfl
    rw [hstage]
    rw [h.kernels_eq, List.getElem?_eq_none_iff] at hnone
    exact fun _ => Nat.lt_of_lt_of_le (List.getElem?_eq_some_iff.mp hk).1 hnone
  · -- a kernel is passed over, which happens after the first round only
    rw [heq]
    refine h.restage (fun j k hk _ => ?_) (by rw [hstage]; rfl) rfl
    rw [hstage]
    exact nofun
  · rw [heq]
    exact h.load hstage (h.kernels_eq ▸ hk) hpending
  · rw [heq]
    exact h.finish hfit hstage
  · rwa [heq]

/-- **Whatever happens keeps the invariant.** -/
theorem step (hfit : Fit w₀ t₀) (h : Sound w₀ t₀ s) {s' : Session} (hstep : Step s s') :
    Sound w₀ t₀ s' := by
  cases hstep with
  | rewrite hwrite hnew hpath => exact h.rewrite hfit hwrite hnew hpath
  | quiet hquiet =>
    cases hquiet with
    | advance => exact h.advance hfit
    | deliver e => exact h.deliver hfit e

theorem steps (hfit : Fit w₀ t₀) (h : Sound w₀ t₀ s) {s' : Session}
    (hsteps : Relation.ReflTransGen Step s s') : Sound w₀ t₀ s' := by
  induction hsteps with
  | refl => exact h
  | tail _ hstep ih => exact ih.step hfit hstep

/-- At rest, a kernel that was last loaded from what its source holds was last reported with the
outcome of packing it from that, and packing it now would give the same. -/
theorem exists_report (h : Sound w₀ t₀ s) (hidle : s.stage = .idle) {i : Nat} {k : Kernel}
    (hk : w₀.kernels[i]? = some k)
    (hloaded : s.loads.lookup i = some (s.tree.content? k.source)) :
    ∃ b t t', s.reports.lookup i = some b ∧ b.kernel = k.name ∧
      t.content? k.source = s.tree.content? k.source ∧
      packedFrom w₀.options t t' k = b.outcome ∧
      SameOutcome b.outcome (packedIn w₀.options s.tree k) := by
  obtain ⟨b, t, t', hb, hname, ht, ht', hcontent, houtcome⟩ :=
    h.reported i k _ hk hloaded (by rw [hidle]; exact nofun)
  refine ⟨b, t, t', hb, hname, hcontent, houtcome, ?_⟩
  rw [← houtcome]
  exact sameOutcome_packedIn (ht.symm.trans h.shape) (ht'.symm.trans h.shape) hcontent

end Sound

/-! ### Catching up -/

/-- Nothing is in flight, and a kernel that is not up to date is pending and still comes up in this
round. -/
structure Settling (w₀ : Watcher) (s : Session) : Prop where
  inFlight_eq : s.inFlight = []
  covered : ∀ i k, w₀.kernels[i]? = some k →
    s.loads.lookup i = some (s.tree.content? k.source) ∨ i ∈ s.watcher.pending ∧ s.stage.Ahead i

namespace Settling

variable {w₀ : Watcher} {t₀ : Tree} {s : Session}

/-- A round that begins when nothing is in flight catches up. -/
theorem of_idle (h : Sound w₀ t₀ s) (hidle : s.stage = .idle) (hflight : s.inFlight = []) :
    Settling w₀ s.advance := by
  have hadvance : s.advance = { s with stage := .visiting false 0 } := by
    simp only [Session.advance, hidle]
  rw [hadvance]
  refine ⟨hflight, fun i k hk => ?_⟩
  have hbegun : s.stage.Begun i := by
    rw [hidle]
    trivial
  obtain hloaded | hpending | ⟨e, he, -⟩ := h.covered i k hk hbegun
  · exact .inl hloaded
  · exact .inr ⟨hpending, Nat.zero_le i⟩
  · rw [hflight] at he
    cases he

theorem deliver (hs : Settling w₀ s) (e : FileEvent) : Settling w₀ (s.deliver e) where
  inFlight_eq := by rw [Session.deliver, hs.inFlight_eq, List.erase_nil]
  covered i k hk := by
    obtain hloaded | ⟨hpending, hahead⟩ := hs.covered i k hk
    · exact .inl hloaded
    · exact .inr ⟨Watcher.mem_pending_handle hpending e, hahead⟩

/-- A kernel that the loop passes is up to date. -/
theorem advance (hs : Settling w₀ s) (h : Sound w₀ t₀ s) (hfit : Fit w₀ t₀) :
    Settling w₀ s.advance := by
  obtain ⟨hstage, heq⟩ | ⟨first, i, hstage, hnone, heq⟩ | ⟨i, hstage, hnot, heq⟩ |
    ⟨first, i, k, pending, hstage, hk, hpending, heq⟩ | ⟨first, i, k, loaded, hstage, heq⟩ | heq :=
      s.advance_cases
  · -- at rest no kernel is ahead, so all are up to date
    rw [heq]
    refine ⟨hs.inFlight_eq, fun j l hl => ?_⟩
    obtain hloaded | ⟨-, hahead⟩ := hs.covered j l hl
    · exact .inl hloaded
    · rw [hstage] at hahead
      exact hahead.elim
  · -- nor is one when the round ends
    rw [heq]
    refine ⟨hs.inFlight_eq, fun j l hl => ?_⟩
    obtain hloaded | ⟨-, hahead⟩ := hs.covered j l hl
    · exact .inl hloaded
    · rw [h.kernels_eq, List.getElem?_eq_none_iff] at hnone
      rw [hstage] at hahead
      have hlt := (List.getElem?_eq_some_iff.mp hl).1
      exact absurd (Nat.le_trans hnone hahead) (Nat.not_le.mpr hlt)
  · -- a kernel that is passed over is not pending
    rw [heq]
    refine ⟨hs.inFlight_eq, fun j l hl => ?_⟩
    obtain hloaded | ⟨hmarked, hahead⟩ := hs.covered j l hl
    · exact .inl hloaded
    · rw [hstage] at hahead
      have hj : i ≠ j := fun hij => hnot (hij ▸ hmarked)
      exact .inr ⟨hmarked, Nat.lt_of_le_of_ne hahead hj⟩
  · -- the kernel that is loaded is up to date from now on
    rw [heq]
    refine ⟨hs.inFlight_eq, fun j l hl => ?_⟩
    by_cases hj : j = i
    · subst hj
      rw [h.kernels_eq] at hk
      obtain rfl := Option.some.inj (hk.symm.trans hl)
      exact .inl List.lookup_cons_self
    · obtain hloaded | ⟨hmarked, hahead⟩ := hs.covered j l hl
      · refine .inl ?_
        rw [Session.load, List.lookup_cons, beq_eq_false_iff_ne.mpr hj]
        exact hloaded
      · rw [hstage] at hahead
        exact .inr ⟨hpending j hj hmarked, Nat.lt_of_le_of_ne hahead (Ne.symm hj)⟩
  · -- packing touches no source
    obtain ⟨t', ht', hcases⟩ := s.finish_cases first i k loaded
    have hcovered : ∀ j l, w₀.kernels[j]? = some l →
        s.loads.lookup j = some (t'.content? l.source) ∨ j ∈ s.watcher.pending ∧ i < j := by
      intro j l hl
      obtain hloaded | ⟨hmarked, hahead⟩ := hs.covered j l hl
      · have hk := (h.packing first i k loaded hstage).1
        rw [ht', h.content?_packLoaded hfit loaded (List.mem_of_getElem? hk)
          (List.mem_of_getElem? hl)]
        exact .inl hloaded
      · rw [hstage] at hahead
        exact .inr ⟨hmarked, hahead⟩
    obtain ⟨b, -, -, hfinish⟩ | ⟨c, -, hfinish⟩ := hcases
    · rw [heq, hfinish]
      exact ⟨hs.inFlight_eq, hcovered⟩
    · rw [heq, hfinish]
      exact ⟨hs.inFlight_eq, hcovered⟩
  · rwa [heq]

/-- **While no file is rewritten**, the session stays sound and settling. -/
theorem steps (hfit : Fit w₀ t₀) (h : Sound w₀ t₀ s) (hs : Settling w₀ s) {s' : Session}
    (hquiet : Relation.ReflTransGen Quiet s s') : Sound w₀ t₀ s' ∧ Settling w₀ s' := by
  induction hquiet with
  | refl => exact ⟨h, hs⟩
  | tail _ hstep ih =>
    refine ⟨ih.1.step hfit (.quiet hstep), ?_⟩
    cases hstep with
    | advance => exact ih.2.advance ih.1 hfit
    | deliver e => exact ih.2.deliver e

end Settling

/-- **No update is lost.** Let a watcher begin with kernels whose sources are different files, none
of them a file that is written for a kernel. Let it go once through all kernels, let files be
rewritten at any time, each with an event, let events arrive in any order, and others as well, and
let the watcher pack what is pending again and again. Its rounds, where they are left alone, are
those of `Watcher.buildAll` and `Watcher.packPending`. At any time each kernel that the first round
has come to was last loaded from what its source holds, or is pending, or an event about it is in
flight. And once nothing is in flight and the watcher then goes through the pending kernels without
a file being rewritten, and comes to the end, what it reported last of every kernel is the outcome
of packing it from what its source holds.

Packing the kernel again would give the same result, or fail in the same way at the same file; only
the *cause* of a file's failure may be another by then. The way to a source or to a generated file
may lead over a place where nothing stood when the kernel was reported, and where the definition of
another kernel was written since: what was not found then is no directory now. No source was
rewritten for that, so no event tells of it, and the watcher has no reason to pack the kernel
again. -/
theorem no_update_lost {o : PackOptions} {kernels : List Kernel} {t : Tree} {w : Watcher}
    (hstart : ((Watcher.start o kernels : StateM Tree _).run t).1.1 = .ok w)
    (hplaced : t.IsPlaced)
    (hdistinct : (kernels.map fun k => Path.absolute t.cwd k.source).Nodup)
    (hapart : ∀ k ∈ kernels, ∀ path ∈ o.outputs k, ∀ l ∈ kernels,
      Path.absolute t.cwd path ≠ Path.absolute t.cwd l.source)
    {s : Session} (hsteps : Relation.ReflTransGen Step (begin w t) s) :
    (begin w t).ComesTo
      (((Watcher.buildAll o kernels : StateM Tree _).run t).1.map fun _ => w)
      ((Watcher.buildAll o kernels : StateM Tree _).run t).2 ∧
    (s.stage = .idle →
      s.ComesTo ((s.watcher.packPending : StateM Tree _).run s.tree).1
        ((s.watcher.packPending : StateM Tree _).run s.tree).2) ∧
    (∀ i k, kernels[i]? = some k → s.stage.Begun i → s.Covered i k) ∧
    (s.stage = .idle → s.inFlight = [] →
      ∀ s', Relation.ReflTransGen Quiet s.advance s' → s'.stage = .idle →
        ∀ i k, kernels[i]? = some k → ∃ b t₁ t₂, s'.reports.lookup i = some b ∧
          b.kernel = k.name ∧ t₁.content? k.source = s'.tree.content? k.source ∧
          packedFrom o t₁ t₂ k = b.outcome ∧ SameOutcome b.outcome (packedIn o s'.tree k)) := by
  obtain rfl := Watcher.start_eq_ok hstart
  have hfit : Fit _ t := ⟨Watcher.finds_of_start hstart hdistinct, hplaced, rfl, hapart⟩
  have hsound := (Sound.begin _ t).steps hfit hsteps
  refine ⟨comesTo_buildAll rfl rfl, comesTo_packPending, hsound.covered,
    fun hidle hflight s' hquiet hidle' i k hk => ?_⟩
  obtain ⟨hsound', hsettling⟩ :=
    (Settling.of_idle hsound hidle hflight).steps hfit (hsound.advance hfit) hquiet
  obtain hloaded | ⟨-, hahead⟩ := hsettling.covered i k hk
  · exact hsound'.exists_report hidle' hk hloaded
  · rw [hidle'] at hahead
    exact hahead.elim

/-- A source is rewritten while its kernel is packed for the first time. The event arrives after the
round, and the next round packs the kernel from the new contents. -/
theorem no_update_lost_amid_packing :
    let k : Kernel := ⟨utf8 "k.cl", 0, .ofPairs []⟩
    let t : Tree := ⟨[([utf8 "k.cl"], .file (utf8 "int a;\n"))], []⟩
    ∃ w s s' b, ((Watcher.start {} [k] : StateM Tree _).run t).1.1 = .ok w ∧
      Relation.ReflTransGen Step (begin w t) s ∧ s.stage = .idle ∧ s.inFlight = [] ∧
      0 ∈ s.watcher.pending ∧ Relation.ReflTransGen Quiet s.advance s' ∧ s'.stage = .idle ∧
      s'.reports.lookup 0 = some b ∧ SameOutcome b.outcome (packedIn {} s'.tree k) := by
  intro k t
  have hok : ((Watcher.start {} [k] : StateM Tree _).run t).1.1.isOk = true := by decide +kernel
  obtain ⟨w, hstart⟩ := Outcome.exists_eq_ok_of_isOk hok
  have hplaced : t.IsPlaced := nofun
  have hdistinct : ([k].map fun k => Path.absolute t.cwd k.source).Nodup := by
    simp
  have hapart : ∀ k' ∈ [k], ∀ path ∈ PackOptions.outputs {} k', ∀ l ∈ [k],
      Path.absolute t.cwd path ≠ Path.absolute t.cwd l.source := by
    decide +kernel
  obtain rfl := Watcher.start_eq_ok hstart
  set w : Watcher := ⟨{}, [k], t.cwd, Watcher.sourcesFrom t.cwd 0 [k], []⟩
  let e : FileEvent := ⟨utf8 "k.cl", [.write]⟩
  let u : Tree := ⟨[([utf8 "k.cl"], .file (utf8 "int b;\n"))], []⟩
  have hwrite : t.write k.source (utf8 "int b;\n") = .ok u := rfl
  -- the first round: the source is rewritten after it was loaded, and the event arrives at the end
  let s₁ : Session := (begin w t).advance
  let s₂ : Session := { s₁ with tree := u, inFlight := [e] }
  have hrewrite : Step s₁ s₂ := .rewrite hwrite rfl rfl
  have hrest : s₂.advance.advance.stage = .idle := by decide +kernel
  let s : Session := s₂.advance.advance.deliver e
  have hsteps : Relation.ReflTransGen Step (begin w t) s := by
    refine .head (.quiet (.advance _)) (.head hrewrite ?_)
    refine .head (.quiet (.advance _)) (.head (.quiet (.advance _)) ?_)
    exact .single (.quiet (.deliver _ e (by rw [hrest]; exact nofun)))
  have hflight : s.inFlight = [] := by decide +kernel
  have hpending : 0 ∈ s.watcher.pending := by decide +kernel
  -- the second round is left alone
  let s' : Session := s.advance.advance.advance.advance
  have hquiet : Relation.ReflTransGen Quiet s.advance s' :=
    .head (.advance _) (.head (.advance _) (.single (.advance _)))
  have hidle : s'.stage = .idle := by decide +kernel
  obtain ⟨-, -, -, hsettled⟩ := no_update_lost hstart hplaced hdistinct hapart hsteps
  obtain ⟨b, -, -, hb, -, -, -, hsame⟩ := hsettled hrest hflight s' hquiet hidle 0 k rfl
  exact ⟨w, s, s', b, hstart, hsteps, hrest, hflight, hpending, hquiet, hidle, hb, hsame⟩

end Session

end KernelPack
