import KernelPack.Proofs.Artifact.Definition
import KernelPack.Proofs.Kernel.Packing

/-!
# What packing leaves behind

Packing a kernel has two halves. Up to the artifact nothing is touched (`assembledIn`): a kernel
that cannot be loaded or transformed, whether that fails or crashes, and a dry run leave the tree as
it was. From there on two files are created, the definition first. So packing is **all or nothing,
up to the kernel's own two files**: what it leaves behind is decided by which of them can be
created, and a file that is created is complete, whatever stood there before
(`pack_all_or_nothing`).

Packing crashes exactly if it comes to a text that cannot be cut into chunks
(`packedIn_eq_crashed_iff`), which is before anything is written.
-/

namespace KernelPack

/-! ### Up to the artifact -/

/-- What is assembled of a kernel in a tree, unless it cannot be loaded or transformed. -/
def assembledIn (o : PackOptions) (t : Tree) (k : Kernel) :
    Except Halt (PackResult × Artifact) :=
  match k.loadedIn t with
  | .error e => .error (.failed (.load e))
  | .ok lines => (assemble o k lines).value

/-- The tree after packing a kernel. -/
def treeAfter (o : PackOptions) (t : Tree) (k : Kernel) : Tree :=
  ((pack o k : StateM Tree _).run t).2

variable {o : PackOptions} {t : Tree} {k : Kernel} {result : PackResult} {a : Artifact}

theorem assembledIn_eq_ok_iff : assembledIn o t k = .ok (result, a) ↔
    ∃ lines, k.loadedIn t = .ok lines ∧ (assemble o k lines).value = .ok (result, a) := by
  unfold assembledIn
  cases k.loadedIn t with
  | error e => exact iff_of_false nofun nofun
  | ok lines => simp

/-- The text of the kernel, if the tree gives it one, can be cut into chunks. -/
def PackOptions.CanCut (o : PackOptions) (t : Tree) (k : Kernel) : Prop :=
  ∀ lines text, k.loadedIn t = .ok lines →
    Renaming.apply o.strategy (minify lines o.lineComments).2.1 k.table = .ok text →
    Artifact.chunk text o.chunkSize ≠ .error .capacity

theorem assembledIn_eq_crashed_iff {c : Crash} :
    assembledIn o t k = .error (.crashed c) ↔ ¬ o.CanCut t k := by
  unfold assembledIn PackOptions.CanCut
  cases hloaded : k.loadedIn t with
  | error e => simp
  | ok lines =>
    cases c
    simp [assemble_eq_crashed_iff]

/-- What is assembled was read from the source. -/
theorem exists_read (h : assembledIn o t k = .ok (result, a)) :
    ∃ content, t.read k.source = .ok content := by
  obtain ⟨lines, hlines, -⟩ := assembledIn_eq_ok_iff.mp h
  unfold Kernel.loadedIn at hlines
  cases hread : t.read k.source with
  | error e =>
    rw [hread] at hlines
    cases hlines
  | ok content => exact ⟨content, rfl⟩

/-- What is assembled has the kernel's symbol, and its definition can be written down. -/
theorem exists_definition (h : assembledIn o t k = .ok (result, a)) :
    a.symbol = o.symbol k ∧ ∃ definition, a.definition = .ok definition := by
  obtain ⟨lines, -, hvalue⟩ := assembledIn_eq_ok_iff.mp h
  obtain ⟨text, chunks, -, hchunks, rfl, -⟩ := assemble_eq_ok_iff.mp hvalue
  have hrelease := Artifact.releaseLiterals_eq_ok_iff.mpr ⟨chunks, hchunks, rfl⟩
  exact ⟨rfl, _, Artifact.definition_eq_ok_iff.mpr ⟨_, hrelease, rfl⟩⟩

/-- Without an artifact nothing is touched. -/
theorem pack_of_error {s : Halt} (h : assembledIn o t k = .error s) :
    packedIn o t k = .error s ∧ treeAfter o t k = t := by
  unfold assembledIn at h
  rw [packedIn, treeAfter, run_pack]
  split at h
  · rename_i he
    obtain rfl := Except.error.inj h
    rw [he]
    exact ⟨rfl, rfl⟩
  · rename_i hlines
    rw [hlines, run_packLoaded_of_error h]
    exact ⟨rfl, rfl⟩

/-- A kernel that is packed has been assembled. -/
theorem exists_assembled {r : PackResult} (h : packedIn o t k = .ok r) :
    ∃ result a, assembledIn o t k = .ok (result, a) := by
  cases hassembled : assembledIn o t k with
  | error e => exact absurd ((pack_of_error hassembled).1.symm.trans h) nofun
  | ok assembled => exact ⟨assembled.1, assembled.2, rfl⟩

/-- A dry run ends with the artifact. -/
theorem pack_of_dryRun (h : assembledIn o t k = .ok (result, a)) (hdry : o.dryRun = true) :
    packedIn o t k = .ok result ∧ treeAfter o t k = t := by
  obtain ⟨lines, hlines, hvalue⟩ := assembledIn_eq_ok_iff.mp h
  rw [packedIn, treeAfter, run_pack, hlines, run_packLoaded_of_ok hvalue, if_pos hdry]
  exact ⟨rfl, rfl⟩

/-! ### Creating the two files -/

/-- The result of a kernel whose files are written. -/
def PackResult.writtenTo (result : PackResult) (paths : Bytes × Bytes) : PackResult :=
  { result with written := true, definition := paths.1, declaration := paths.2 }

/-- Otherwise the artifact is written. -/
theorem pack_of_ok (h : assembledIn o t k = .ok (result, a)) (hdry : o.dryRun = false) :
    packedIn o t k
        = ((writeArtifact o.outputDir a : StateM Tree _).run t).1.map result.writtenTo ∧
      treeAfter o t k = ((writeArtifact o.outputDir a : StateM Tree _).run t).2 := by
  obtain ⟨lines, hlines, hvalue⟩ := assembledIn_eq_ok_iff.mp h
  rw [packedIn, treeAfter, run_pack, hlines, run_packLoaded_of_ok hvalue,
    if_neg (by rw [hdry]; exact Bool.false_ne_true)]
  refine ⟨?_, rfl⟩
  dsimp only [pure]
  cases ((writeArtifact o.outputDir a : StateM Tree _).run t).1 with
  | error e => rfl
  | ok paths => rfl

/-- The declaration of a kernel is apart from its definition. -/
theorem apart_declaration_definition (o : PackOptions) (t : Tree) (k : Kernel) :
    t.Apart (o.declarationPath k) (o.definitionPath k) :=
  t.apart_join (o.isName_declaration k) (o.isName_definition k)
    (o.definition_name_ne_declaration_name k k).symm

section Create

variable {definition : Bytes} {t₁ t₂ : Tree}
  (h : assembledIn o t k = .ok (result, a)) (hdry : o.dryRun = false)
  (hdefinition : a.definition = .ok definition)

include h hdry hdefinition

/-- The artifact is written by creating its definition, then its declaration. -/
theorem pack_of_definition :
    (packedIn o t k, treeAfter o t k) =
      match t.write (o.definitionPath k) definition with
      | .error e => (.error (.failed (.write e)), t)
      | .ok t₁ =>
        match t₁.write (o.declarationPath k) a.declaration with
        | .error e => (.error (.failed (.write e)), t₁)
        | .ok t₂ => (.ok (result.writtenTo (o.definitionPath k, o.declarationPath k)), t₂) := by
  obtain ⟨hpacked, htree⟩ := pack_of_ok h hdry
  obtain ⟨hsymbol, -⟩ := exists_definition h
  rw [hpacked, htree, run_writeArtifact, hdefinition, hsymbol, ← PackOptions.definitionPath,
    ← PackOptions.declarationPath]
  dsimp only [pure]
  cases t.write (o.definitionPath k) definition with
  | error e => rfl
  | ok t₁ =>
    dsimp only
    cases t₁.write (o.declarationPath k) a.declaration with
    | error e => rfl
    | ok t₂ => rfl

/-- If the definition cannot be created, nothing is touched. -/
theorem pack_of_undefined {e : FileError}
    (hc : t.write (o.definitionPath k) definition = .error e) :
    packedIn o t k = .error (.failed (.write e)) ∧ treeAfter o t k = t := by
  have hpack := pack_of_definition h hdry hdefinition
  rw [hc] at hpack
  exact Prod.mk.inj hpack

/-- If the declaration cannot be created, the definition is left behind. -/
theorem pack_of_undeclared {e : FileError}
    (hc : t.write (o.definitionPath k) definition = .ok t₁)
    (hh : t₁.write (o.declarationPath k) a.declaration = .error e) :
    packedIn o t k = .error (.failed (.write e)) ∧
      t.SameBut [o.definitionPath k] (treeAfter o t k) ∧
      (treeAfter o t k).content? (o.definitionPath k) = some definition := by
  have hpack := pack_of_definition h hdry hdefinition
  rw [hc] at hpack
  dsimp only at hpack
  rw [hh] at hpack
  obtain ⟨hpacked, htree⟩ := Prod.mk.inj hpack
  have hfirst : t.Rewrites [o.definitionPath k] t₁ := .write .refl List.mem_cons_self hc
  rw [htree]
  exact ⟨hpacked, hfirst.sameBut, Tree.content?_write_self hc⟩

/-- What is assembled does not crash any more. -/
theorem packedIn_ne_crashed (c : Crash) : packedIn o t k ≠ .error (.crashed c) := by
  intro hcrashed
  have hpack := congrArg Prod.fst (pack_of_definition h hdry hdefinition)
  rw [hcrashed] at hpack
  cases hc : t.write (o.definitionPath k) definition with
  | error e => simp [hc] at hpack
  | ok t₁ =>
    cases hh : t₁.write (o.declarationPath k) a.declaration with
    | error e => simp [hc, hh] at hpack
    | ok t₂ => simp [hc, hh] at hpack

/-- If both can be created, both are left behind. -/
theorem pack_of_written (hc : t.write (o.definitionPath k) definition = .ok t₁)
    (hh : t₁.write (o.declarationPath k) a.declaration = .ok t₂) :
    packedIn o t k = .ok (result.writtenTo (o.definitionPath k, o.declarationPath k)) ∧
      t.SameBut [o.definitionPath k, o.declarationPath k] (treeAfter o t k) ∧
      (treeAfter o t k).content? (o.definitionPath k) = some definition ∧
      (treeAfter o t k).content? (o.declarationPath k) = some a.declaration := by
  have hpack := pack_of_definition h hdry hdefinition
  rw [hc] at hpack
  dsimp only at hpack
  rw [hh] at hpack
  obtain ⟨hpacked, htree⟩ := Prod.mk.inj hpack
  have hfirst : t.Rewrites [o.definitionPath k] t₁ := .write .refl List.mem_cons_self hc
  have hsecond : t₁.Rewrites [o.declarationPath k] t₂ := .write .refl List.mem_cons_self hh
  have hboth : t.Rewrites [o.definitionPath k, o.declarationPath k] t₂ :=
    (hfirst.mono (by simp)).trans (hsecond.mono (by simp))
  -- creating the declaration leaves the definition, since they are two places
  have hkept : t₂.content? (o.definitionPath k) = some definition := by
    rw [← Tree.content?_write_self hc]
    exact hsecond.content?_of_apart
      (List.forall_mem_singleton.mpr (apart_declaration_definition o t₁ k))
  rw [htree]
  exact ⟨hpacked, hboth.sameBut, hkept, Tree.content?_write_self hh⟩

/-- If the kernel is packed, both have been. -/
theorem written_of_packedIn {r : PackResult} (hr : packedIn o t k = .ok r) :
    r = result.writtenTo (o.definitionPath k, o.declarationPath k) ∧
      (treeAfter o t k).content? (o.definitionPath k) = some definition ∧
      (treeAfter o t k).content? (o.declarationPath k) = some a.declaration := by
  cases hc : t.write (o.definitionPath k) definition with
  | error e => exact absurd ((pack_of_undefined h hdry hdefinition hc).1.symm.trans hr) nofun
  | ok t₁ =>
    cases hh : t₁.write (o.declarationPath k) a.declaration with
    | error e =>
      exact absurd ((pack_of_undeclared h hdry hdefinition hc hh).1.symm.trans hr) nofun
    | ok t₂ =>
      obtain ⟨hpacked, -, hcontents⟩ := pack_of_written h hdry hdefinition hc hh
      exact ⟨Except.ok.inj (hr.symm.trans hpacked), hcontents⟩

end Create

/-- **Packing crashes exactly if it comes to a text that cannot be cut.** -/
theorem packedIn_eq_crashed_iff {c : Crash} :
    packedIn o t k = .error (.crashed c) ↔ ¬ o.CanCut t k := by
  rw [← assembledIn_eq_crashed_iff (c := c)]
  cases h : assembledIn o t k with
  | error s => rw [(pack_of_error h).1, Except.error.injEq, Except.error.injEq]
  | ok assembled =>
    obtain ⟨result, a⟩ := assembled
    refine iff_of_false (fun hcrashed => ?_) nofun
    cases hdry : o.dryRun with
    | true => exact nomatch (pack_of_dryRun h hdry).1.symm.trans hcrashed
    | false =>
      obtain ⟨-, definition, hdefinition⟩ := exists_definition h
      exact packedIn_ne_crashed h hdry hdefinition c hcrashed

/-- A crash leaves the tree as it was. -/
theorem treeAfter_of_crashed {c : Crash} (h : packedIn o t k = .error (.crashed c)) :
    treeAfter o t k = t :=
  (pack_of_error (assembledIn_eq_crashed_iff (c := c).mpr (packedIn_eq_crashed_iff.mp h))).2

/-- **Packing is all or nothing, up to the kernel's own two files.** If the kernel cannot be loaded
or transformed, or in a dry run, the tree is as it was. Otherwise the definition is created first:
if that fails, the tree is as it was. If then the declaration cannot be created, only the
definition differs, and it is complete. If both can be, they are both complete, nothing else
differs, and the result says that they were written. -/
theorem pack_all_or_nothing (o : PackOptions) (t : Tree) (k : Kernel) :
    (∀ e, assembledIn o t k = .error e → packedIn o t k = .error e ∧ treeAfter o t k = t) ∧
    ∀ result a, assembledIn o t k = .ok (result, a) →
      (o.dryRun = true → packedIn o t k = .ok result ∧ treeAfter o t k = t) ∧
      (o.dryRun = false → ∃ definition, a.definition = .ok definition ∧
        ((∃ e, t.write (o.definitionPath k) definition = .error e ∧
            packedIn o t k = .error (.failed (.write e)) ∧ treeAfter o t k = t) ∨
          (∃ t₁ e, t.write (o.definitionPath k) definition = .ok t₁ ∧
            t₁.write (o.declarationPath k) a.declaration = .error e ∧
            packedIn o t k = .error (.failed (.write e)) ∧
            t.SameBut [o.definitionPath k] (treeAfter o t k) ∧
            (treeAfter o t k).content? (o.definitionPath k) = some definition) ∨
          ∃ t₁ t₂, t.write (o.definitionPath k) definition = .ok t₁ ∧
            t₁.write (o.declarationPath k) a.declaration = .ok t₂ ∧
            packedIn o t k = .ok { result with
              written := true
              definition := o.definitionPath k
              declaration := o.declarationPath k } ∧
            t.SameBut [o.definitionPath k, o.declarationPath k] (treeAfter o t k) ∧
            (treeAfter o t k).content? (o.definitionPath k) = some definition ∧
            (treeAfter o t k).content? (o.declarationPath k) = some a.declaration)) := by
  refine ⟨fun e he => pack_of_error he, fun result a h => ⟨pack_of_dryRun h, fun hdry => ?_⟩⟩
  obtain ⟨-, definition, hdefinition⟩ := exists_definition h
  refine ⟨definition, hdefinition, ?_⟩
  cases hc : t.write (o.definitionPath k) definition with
  | error e => exact .inl ⟨e, rfl, pack_of_undefined h hdry hdefinition hc⟩
  | ok t₁ =>
    cases hh : t₁.write (o.declarationPath k) a.declaration with
    | error e =>
      exact .inr (.inl ⟨t₁, e, rfl, hh, pack_of_undeclared h hdry hdefinition hc hh⟩)
    | ok t₂ => exact .inr (.inr ⟨t₁, t₂, rfl, hh, pack_of_written h hdry hdefinition hc hh⟩)

/-- Where a directory has the name of the declaration, a kernel fails, and leaves its definition
behind in place of an older and longer one. -/
theorem pack_all_or_nothing_undeclared :
    let k : Kernel := ⟨utf8 "k.cl", 0, .ofPairs []⟩
    let t : Tree := ⟨[([utf8 "k.cl"], .file (utf8 "int a;\n")),
      ([utf8 "opencl___k.c"], .file (List.replicate 1000 Byte.space)),
      ([utf8 "opencl___k.h"], .directory)], []⟩
    ∃ result a definition e, assembledIn {} t k = .ok (result, a) ∧
      a.definition = .ok definition ∧ packedIn {} t k = .error (.failed (.write e)) ∧
      t.SameBut [PackOptions.definitionPath {} k] (treeAfter {} t k) ∧
      (treeAfter {} t k).content? (PackOptions.definitionPath {} k) = some definition := by
  intro k t
  have hok : (assembledIn {} t k).isOk = true := by decide +kernel
  obtain ⟨⟨result, a⟩, h⟩ := Outcome.exists_eq_ok_of_isOk hok
  obtain ⟨definition, hdefinition, hwritten⟩ := ((pack_all_or_nothing {} t k).2 result a h).2 rfl
  have hfailed : (packedIn {} t k).isOk = false := by decide +kernel
  have hreplaced : (treeAfter {} t k).content? (PackOptions.definitionPath {} k)
      ≠ t.content? (PackOptions.definitionPath {} k) := by
    decide +kernel
  obtain ⟨e, -, -, htree⟩ | ⟨t₁, e, -, -, hpacked, hsame, hcontent⟩ | ⟨_, _, -, -, hpacked, -⟩ :=
    hwritten
  · rw [htree] at hreplaced
    exact absurd rfl hreplaced
  · exact ⟨result, a, definition, e, h, hdefinition, hpacked, hsame, hcontent⟩
  · rw [hpacked] at hfailed
    cases hfailed

/-! ### What is generated -/

/-- The files that are generated for a kernel in a tree, as paths with their contents. -/
def generatedIn (o : PackOptions) (t : Tree) (k : Kernel) : List (Bytes × Bytes) :=
  match assembledIn o t k with
  | .error _ => []
  | .ok (_, a) =>
    match a.definition with
    | .error _ => []
    | .ok definition =>
      [(o.definitionPath k, definition), (o.declarationPath k, a.declaration)]

/-- **A kernel that is packed has its generated files**, which are its two files. -/
theorem generated_of_packedIn {r : PackResult} (hdry : o.dryRun = false)
    (hr : packedIn o t k = .ok r) :
    (generatedIn o t k).map Prod.fst = o.outputs k ∧
      ∀ f ∈ generatedIn o t k, (treeAfter o t k).content? f.1 = some f.2 := by
  obtain ⟨result, a, h⟩ := exists_assembled hr
  obtain ⟨-, definition, hdefinition⟩ := exists_definition h
  have hfiles : generatedIn o t k
      = [(o.definitionPath k, definition), (o.declarationPath k, a.declaration)] := by
    simp only [generatedIn, h, hdefinition]
  obtain ⟨-, hfirst, hsecond⟩ := written_of_packedIn h hdry hdefinition hr
  rw [hfiles]
  exact ⟨rfl, List.forall_mem_cons.mpr ⟨hfirst, List.forall_mem_singleton.mpr hsecond⟩⟩

section Congr

variable {u : Tree} (hshape : t.SameShape u)
  (hcontent : t.content? k.source = u.content? k.source)

include hshape hcontent

/-- The contents of the source and the shape of the tree decide how a kernel comes out. -/
theorem packedIn_eq_ok_congr {r : PackResult} (h : packedIn o t k = .ok r) :
    packedIn o u k = .ok r := by
  have hsame : SameOutcome (packedFrom o t t k) (packedIn o u k) :=
    sameOutcome_packedIn hshape hshape hcontent
  rw [← packedIn_eq, h] at hsame
  cases hu : packedIn o u k with
  | error e =>
    rw [hu] at hsame
    cases hsame
  | ok r' =>
    rw [hu] at hsame
    exact congrArg Except.ok (Except.ok.inj hsame).symm

/-- The contents of the source and the shape of the tree decide what is generated. -/
theorem generatedIn_congr : generatedIn o t k = generatedIn o u k := by
  have hloaded := loadedIn_congr hshape hcontent
  unfold generatedIn assembledIn
  cases ht : k.loadedIn t with
  | error e =>
    cases hu : k.loadedIn u with
    | error e' => rfl
    | ok lines' =>
      rw [ht, hu] at hloaded
      cases hloaded
  | ok lines =>
    cases hu : k.loadedIn u with
    | error e' =>
      rw [ht, hu] at hloaded
      cases hloaded
    | ok lines' =>
      rw [ht, hu] at hloaded
      rw [Except.ok.inj hloaded]

end Congr

end KernelPack
