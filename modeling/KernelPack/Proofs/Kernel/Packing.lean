import KernelPack.Proofs.Kernel.Assembly
import KernelPack.Proofs.Kernel.Outputs
import KernelPack.Proofs.Storage.Tree

/-!
# Packing in a tree

Packing a kernel reads its source once, at the beginning, and from there on touches nothing but the
files of the kernel (`pack_eq`, `rewrites_packLoaded`), whose paths it reports (`pack_outputs`). So
its outcome is decided by what was loaded and by the shape of the tree (`packLoaded_congr`), be it a
result, a failure or a crash; it may differ only in the **cause** of a failed file operation, which
says what stood in the way.
-/

namespace KernelPack

/-! ### Outcomes -/

/-- The failure with the cause of a file's failure left open. -/
def LoadError.withoutCause : LoadError → LoadError
  | .unopened e => .unopened e.withoutCause
  | .unread e => .unread e.withoutCause
  | .refused path e => .refused path e

/-- The failure with the cause of a file's failure left open. -/
def PackError.withoutCause : PackError → PackError
  | .load e => .load e.withoutCause
  | .write e => .write e.withoutCause
  | e => e

/-- What there is in place of a result, with the cause of a file's failure left open. -/
def Halt.withoutCause : Halt → Halt
  | .failed e => .failed e.withoutCause
  | .crashed c => .crashed c

/-- The outcomes are the same, except that a failure to open, read or write a file may have another
cause. -/
def SameOutcome (x y : Except Halt PackResult) : Prop :=
  x.mapError Halt.withoutCause = y.mapError Halt.withoutCause

/-! ### Loading -/

/-- What is loaded of a kernel in a tree. -/
def Kernel.loadedIn (k : Kernel) (t : Tree) : Except LoadError (List Bytes) :=
  match t.read k.source with
  | .error e => .error (if e.action = .reading then .unread e else .unopened e)
  | .ok text => (Source.read text k.headerLines).mapError (.refused k.source)

/-- Loading leaves the tree as it is. -/
theorem run_loadSource (t : Tree) (k : Kernel) :
    (loadSource k.source k.headerLines : StateM Tree _).run t = pure (k.loadedIn t, t) := by
  unfold Kernel.loadedIn loadSource
  cases h : t.read k.source with
  | error e => simp [h]
  | ok text => simp [h]

/-- What is loaded is decided by the contents of the source and the shape of the tree. -/
theorem loadedIn_congr {t t' : Tree} (h : t.SameShape t') {k : Kernel}
    (hcontent : t.content? k.source = t'.content? k.source) :
    (k.loadedIn t).mapError LoadError.withoutCause
      = (k.loadedIn t').mapError LoadError.withoutCause := by
  have hread := h.read_congr hcontent
  unfold Kernel.loadedIn
  cases hr : t.read k.source with
  | error e =>
    cases hr' : t'.read k.source with
    | error e' =>
      rw [hr, hr'] at hread
      have hsame : e.withoutCause = e'.withoutCause := Except.error.inj hread
      have haction : e.action = e'.action := (FileError.mk.inj hsame).1
      dsimp only
      rw [haction]
      split
      · exact congrArg (Except.error ∘ LoadError.unread) hsame
      · exact congrArg (Except.error ∘ LoadError.unopened) hsame
    | ok text' =>
      rw [hr, hr'] at hread
      cases hread
  | ok text =>
    cases hr' : t'.read k.source with
    | error e' =>
      rw [hr, hr'] at hread
      cases hread
    | ok text' =>
      rw [hr, hr'] at hread
      cases hread
      rfl

/-! ### From what was loaded -/

section Files

variable {m : Type → Type} [Monad m] [FileStore m]

/-- Packs a kernel from what was loaded of its source. -/
def packLoaded (o : PackOptions) (k : Kernel) :
    Except LoadError (List Bytes) → m (Logged Halt PackResult)
  | .error e => return ⟨.error (.failed (.load e)), []⟩
  | .ok lines =>
    match assemble o k lines with
    | ⟨.error h, log⟩ => return ⟨.error h, log⟩
    | ⟨.ok (result, artifact), log⟩ =>
      if o.dryRun then
        return ⟨.ok result, log ++ [.checked result.kernel result.minifiedBytes]⟩
      else do
        match ← writeArtifact o.outputDir artifact with
        | .error h => return ⟨.error h, log⟩
        | .ok (definition, declaration) =>
          return ⟨.ok { result with written := true, definition, declaration },
            log ++ [.generated result.kernel result.symbol result.sourceBytes
              result.minifiedBytes result.chunks]⟩

/-- **Packing loads the source, then goes on from what was loaded.** -/
theorem pack_eq (o : PackOptions) (k : Kernel) :
    (pack o k : m _) = loadSource k.source k.headerLines >>= packLoaded o k := rfl

end Files

/-! ### The files that are written -/

/-- What becomes of an artifact that is written into a tree. -/
theorem run_writeArtifact (dir : Bytes) (a : Artifact) (t : Tree) :
    (writeArtifact dir a : StateM Tree _).run t = pure (
      match a.definition with
      | .error c =>
        match t.write (Path.join [dir, a.symbol ++ utf8 ".c"]) [] with
        | .error e => (.error (.failed (.write e)), t)
        | .ok t₁ => (.error (.crashed c), t₁)
      | .ok definition =>
        match t.write (Path.join [dir, a.symbol ++ utf8 ".c"]) definition with
        | .error e => (.error (.failed (.write e)), t)
        | .ok t₁ =>
          match t₁.write (Path.join [dir, a.symbol ++ utf8 ".h"]) a.declaration with
          | .error e => (.error (.failed (.write e)), t₁)
          | .ok t₂ => (.ok (Path.join [dir, a.symbol ++ utf8 ".c"],
              Path.join [dir, a.symbol ++ utf8 ".h"]), t₂)) := by
  unfold writeArtifact
  cases a.definition with
  | error c =>
    cases hc : t.write (Path.join [dir, a.symbol ++ utf8 ".c"]) [] with
    | error e => simp [Tree.run_write_error hc]
    | ok t₁ => simp [Tree.run_write_ok hc]
  | ok definition =>
    cases hc : t.write (Path.join [dir, a.symbol ++ utf8 ".c"]) definition with
    | error e => simp [Tree.run_write_error hc, hc]
    | ok t₁ =>
      cases hh : t₁.write (Path.join [dir, a.symbol ++ utf8 ".h"]) a.declaration with
      | error e => simp [Tree.run_write_ok hc, Tree.run_write_error hh, hc, hh]
      | ok t₂ => simp [Tree.run_write_ok hc, Tree.run_write_ok hh, hc, hh]

/-- Writing an artifact touches its two files at most. -/
theorem rewrites_writeArtifact (dir : Bytes) (a : Artifact) (t : Tree) :
    t.Rewrites [Path.join [dir, a.symbol ++ utf8 ".c"], Path.join [dir, a.symbol ++ utf8 ".h"]]
      ((writeArtifact dir a : StateM Tree _).run t).2 := by
  rw [run_writeArtifact]
  cases a.definition with
  | error c =>
    dsimp only [pure]
    split
    · exact .refl
    · rename_i t₁ hc
      exact .write .refl List.mem_cons_self hc
  | ok definition =>
    dsimp only [pure]
    split
    · exact .refl
    · rename_i t₁ hc
      split
      · exact .write .refl List.mem_cons_self hc
      · rename_i t₂ hh
        exact .write (.write .refl List.mem_cons_self hc) (by simp) hh

/-- An artifact that is written reports the paths of its files. -/
theorem paths_writeArtifact {dir : Bytes} {a : Artifact} {t : Tree} {paths : Bytes × Bytes}
    (h : ((writeArtifact dir a : StateM Tree _).run t).1 = .ok paths) :
    paths = (Path.join [dir, a.symbol ++ utf8 ".c"], Path.join [dir, a.symbol ++ utf8 ".h"]) := by
  rw [run_writeArtifact] at h
  dsimp only [pure] at h
  split at h
  · split at h
    · cases h
    · cases h
  split at h
  · cases h
  split at h
  · cases h
  exact (Except.ok.inj h).symm

/-- In trees of one shape an artifact is written alike. -/
theorem writeArtifact_congr {t t' : Tree} (h : t.SameShape t') (dir : Bytes) (a : Artifact) :
    ((writeArtifact dir a : StateM Tree _).run t).1.mapError Halt.withoutCause
      = ((writeArtifact dir a : StateM Tree _).run t').1.mapError Halt.withoutCause := by
  have hwrite : ∀ {e e' : FileError}, e.withoutCause = e'.withoutCause →
      (Except.error (.failed (.write e.withoutCause)) : Except Halt (Bytes × Bytes))
        = .error (.failed (.write e'.withoutCause)) := fun he => by rw [he]
  rw [run_writeArtifact, run_writeArtifact]
  cases a.definition with
  | error c =>
    dsimp only [pure]
    obtain ⟨t₁, t₁', hc, hc'⟩ | ⟨e, e', hc, hc', he⟩ :=
      h.write_congr (Path.join [dir, a.symbol ++ utf8 ".c"]) [] []
    · simp only [hc, hc']
    · simp only [hc, hc']
      exact hwrite he
  | ok definition =>
    dsimp only [pure]
    obtain ⟨t₁, t₁', hc, hc'⟩ | ⟨e, e', hc, hc', he⟩ :=
      h.write_congr (Path.join [dir, a.symbol ++ utf8 ".c"]) definition definition
    · -- the definition is written in both trees, and their shape is still the same
      have hshape := (Tree.sameShape_of_write hc).symm.trans (h.trans (Tree.sameShape_of_write hc'))
      obtain ⟨t₂, t₂', hh, hh'⟩ | ⟨e, e', hh, hh', he⟩ :=
        hshape.write_congr (Path.join [dir, a.symbol ++ utf8 ".h"]) a.declaration a.declaration
      · simp only [hc, hc', hh, hh']
      · simp only [hc, hc', hh, hh']
        exact hwrite he
    · simp only [hc, hc']
      exact hwrite he

/-- What is reported of a kernel once its artifact is written, or cannot be. -/
def reportWritten (result : PackResult) (log : List LogRecord) :
    Except Halt (Bytes × Bytes) → Logged Halt PackResult
  | .error h => ⟨.error h, log⟩
  | .ok (definition, declaration) =>
    ⟨.ok { result with written := true, definition, declaration },
      log ++ [.generated result.kernel result.symbol result.sourceBytes result.minifiedBytes
        result.chunks]⟩

/-- Writings that went alike are reported alike. -/
theorem reportWritten_congr (result : PackResult) (log : List LogRecord)
    {x y : Except Halt (Bytes × Bytes)}
    (h : x.mapError Halt.withoutCause = y.mapError Halt.withoutCause) :
    SameOutcome (reportWritten result log x).value (reportWritten result log y).value := by
  cases x with
  | error s =>
    cases y with
    | error s' =>
      have hs : s.withoutCause = s'.withoutCause := Except.error.inj h
      exact congrArg Except.error hs
    | ok paths => cases h
  | ok paths =>
    cases y with
    | error e' => cases h
    | ok paths' =>
      obtain rfl : paths = paths' := Except.ok.inj h
      rfl

/-- Lines that cannot be assembled are given up. -/
theorem run_packLoaded_of_error {o : PackOptions} {k : Kernel} {lines : List Bytes} {s : Halt}
    (h : (assemble o k lines).value = .error s) (t : Tree) :
    (packLoaded o k (.ok lines) : StateM Tree _).run t
      = pure (⟨.error s, (assemble o k lines).log⟩, t) := by
  unfold packLoaded
  dsimp only
  generalize assemble o k lines = assembled at h
  obtain ⟨value, log⟩ := assembled
  obtain rfl : value = .error s := h
  rfl

/-- What was assembled is written, and how that went is reported; a dry run leaves it at that. -/
theorem run_packLoaded_of_ok {o : PackOptions} {k : Kernel} {lines : List Bytes}
    {result : PackResult} {a : Artifact} (h : (assemble o k lines).value = .ok (result, a))
    (t : Tree) :
    (packLoaded o k (.ok lines) : StateM Tree _).run t = pure (
      if o.dryRun then
        (⟨.ok result, (assemble o k lines).log ++ [.checked result.kernel result.minifiedBytes]⟩, t)
      else
        (reportWritten result (assemble o k lines).log
            ((writeArtifact o.outputDir a : StateM Tree _).run t).1,
          ((writeArtifact o.outputDir a : StateM Tree _).run t).2)) := by
  unfold packLoaded
  dsimp only
  generalize assemble o k lines = assembled at h
  obtain ⟨value, log⟩ := assembled
  obtain rfl : value = .ok (result, a) := h
  dsimp only
  split
  · rfl
  · rw [StateT.run_bind]
    generalize (writeArtifact o.outputDir a : StateM Tree _).run t = written
    obtain ⟨paths, t'⟩ := written
    cases paths with
    | error e => rfl
    | ok paths => rfl

/-- **What packing does with loaded lines**: it leaves the tree alone, and nothing is written, or it
writes an artifact with the kernel's symbol and reports how that went. -/
theorem packLoaded_cases (o : PackOptions) (k : Kernel) (lines : List Bytes) :
    (∃ r, (∀ t, (packLoaded o k (.ok lines) : StateM Tree _).run t = pure (r, t)) ∧
      ∀ result, r.value = .ok result → result.written = false) ∨
    ∃ result a log, a.symbol = o.symbol k ∧
      ∀ t, (packLoaded o k (.ok lines) : StateM Tree _).run t
        = pure (reportWritten result log ((writeArtifact o.outputDir a : StateM Tree _).run t).1,
            ((writeArtifact o.outputDir a : StateM Tree _).run t).2) := by
  cases hvalue : (assemble o k lines).value with
  | error e => exact .inl ⟨_, run_packLoaded_of_error hvalue, nofun⟩
  | ok assembled =>
    obtain ⟨result, a⟩ := assembled
    obtain ⟨_, _, -, -, hartifact, hresult⟩ := assemble_eq_ok_iff.mp hvalue
    by_cases hdry : o.dryRun = true
    · refine .inl ⟨_, fun t => by rw [run_packLoaded_of_ok hvalue, if_pos hdry], fun r h => ?_⟩
      rw [← Except.ok.inj h, hresult]
    · exact .inr ⟨result, a, _, by rw [hartifact], fun t => by
        rw [run_packLoaded_of_ok hvalue, if_neg hdry]⟩

/-- **Once the source is loaded, packing touches nothing but the kernel's files.** -/
theorem rewrites_packLoaded (o : PackOptions) (k : Kernel)
    (loaded : Except LoadError (List Bytes)) (t : Tree) :
    t.Rewrites (o.outputs k) ((packLoaded o k loaded : StateM Tree _).run t).2 := by
  cases loaded with
  | error e => exact .refl
  | ok lines =>
    obtain ⟨r, hrun, -⟩ | ⟨result, a, log, hsymbol, hrun⟩ := packLoaded_cases o k lines
    · rw [hrun]
      exact .refl
    · have hwrites := rewrites_writeArtifact o.outputDir a t
      rw [hsymbol] at hwrites
      rw [hrun]
      exact hwrites

/-- **What was loaded and the shape of the tree decide the outcome.** -/
theorem packLoaded_congr {t t' : Tree} (h : t.SameShape t') (o : PackOptions) (k : Kernel)
    {loaded loaded' : Except LoadError (List Bytes)}
    (hloaded : loaded.mapError LoadError.withoutCause = loaded'.mapError LoadError.withoutCause) :
    SameOutcome ((packLoaded o k loaded : StateM Tree _).run t).1.value
      ((packLoaded o k loaded' : StateM Tree _).run t').1.value := by
  cases loaded with
  | error e =>
    cases loaded' with
    | error e' =>
      have he : e.withoutCause = e'.withoutCause := Except.error.inj hloaded
      exact congrArg (Except.error ∘ Halt.failed ∘ PackError.load) he
    | ok lines' => cases hloaded
  | ok lines =>
    cases loaded' with
    | error e' => cases hloaded
    | ok lines' =>
      obtain rfl : lines = lines' := Except.ok.inj hloaded
      obtain ⟨r, hrun, -⟩ | ⟨result, a, log, -, hrun⟩ := packLoaded_cases o k lines
      · rw [hrun, hrun]
        rfl
      · rw [hrun, hrun]
        exact reportWritten_congr result log (writeArtifact_congr h o.outputDir a)

/-! ### The outcome of packing -/

theorem run_pack (o : PackOptions) (k : Kernel) (t : Tree) :
    (pack o k : StateM Tree _).run t
      = (packLoaded o k (k.loadedIn t) : StateM Tree _).run t := by
  rw [pack_eq, StateT.run_bind, run_loadSource]
  rfl

/-- The outcome of packing a kernel that is loaded in one tree and written in another. -/
def packedFrom (o : PackOptions) (t t' : Tree) (k : Kernel) : Except Halt PackResult :=
  ((packLoaded o k (k.loadedIn t) : StateM Tree _).run t').1.value

/-- The outcome of packing a kernel in a tree. -/
def packedIn (o : PackOptions) (t : Tree) (k : Kernel) : Except Halt PackResult :=
  ((pack o k : StateM Tree _).run t).1.value

theorem packedIn_eq (o : PackOptions) (t : Tree) (k : Kernel) :
    packedIn o t k = packedFrom o t t k := by
  rw [packedIn, run_pack, packedFrom]

/-- **The contents of the source and the shape of the tree decide the outcome.** -/
theorem sameOutcome_packedIn {o : PackOptions} {k : Kernel} {t t' u : Tree} (h : t.SameShape u)
    (h' : t'.SameShape u) (hcontent : t.content? k.source = u.content? k.source) :
    SameOutcome (packedFrom o t t' k) (packedIn o u k) := by
  rw [packedIn_eq]
  exact packLoaded_congr h' o k (loadedIn_congr h hcontent)

/-- A kernel that is packed and written reports the paths of its files. -/
theorem pack_outputs {o : PackOptions} {k : Kernel} {t : Tree} {r : PackResult}
    (h : packedIn o t k = .ok r) (hwritten : r.written = true) :
    [r.definition, r.declaration] = o.outputs k := by
  rw [packedIn_eq, packedFrom] at h
  cases hloaded : k.loadedIn t with
  | error e =>
    rw [hloaded] at h
    cases h
  | ok lines =>
    rw [hloaded] at h
    obtain ⟨logged, hrun, hnot⟩ | ⟨result, a, log, hsymbol, hrun⟩ := packLoaded_cases o k lines
    · rw [hrun] at h
      exact absurd hwritten (by rw [hnot r h]; exact nofun)
    · rw [hrun] at h
      cases hpaths : ((writeArtifact o.outputDir a : StateM Tree _).run t).1 with
      | error e =>
        rw [hpaths] at h
        cases h
      | ok paths =>
        rw [hpaths] at h
        obtain rfl := Except.ok.inj h
        rw [paths_writeArtifact hpaths, hsymbol]
        rfl

end KernelPack
