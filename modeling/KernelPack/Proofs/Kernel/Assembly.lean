import KernelPack.Kernel.Pack
import KernelPack.Proofs.Artifact.Literal
import KernelPack.Proofs.Outcome
import KernelPack.Proofs.Source.Blanks
import KernelPack.Proofs.Source.Comments

/-!
# What an artifact is assembled from

`assemble_eq_ok_iff` says once and for all when lines are assembled into an artifact, and into
which, and `assemble_eq_crashed_iff` when that crashes. The main statement is about the two forms in
which the artifact carries its kernel: the **debug form** keeps the lines, indented and padded, and
the **release form** is compacted, renamed and cut. They hold the same kernel: a compiler's reading
of the debug literals, normalized and compacted again, is the very text that was handed to renaming.
-/

namespace KernelPack

/-! ### Assembling -/

/-- Lines are assembled when their table can be applied to the minified text and the outcome can
be cut into chunks. -/
theorem assemble_eq_ok_iff {o : PackOptions} {k : Kernel} {lines : List Bytes}
    {result : PackResult} {a : Artifact} :
    (assemble o k lines).value = .ok (result, a) ↔
      ∃ text chunks,
        Renaming.apply o.strategy (minify lines o.lineComments).2.1 k.table = .ok text ∧
        Artifact.chunk text o.chunkSize = .ok chunks ∧
        a = { symbol := o.symbol k, debugLines := (minify lines o.lineComments).1, text,
              chunkSize := o.chunkSize, debugMacro := o.debugMacro } ∧
        result = { kernel := k.name, symbol := o.symbol k, sourceBytes := byteCount lines,
                   minifiedBytes := (Artifact.escape text).length,
                   passes := (minify lines o.lineComments).2.2, aliases := k.table.size,
                   chunks := chunks.length, debugLines := (minify lines o.lineComments).1.length,
                   written := false, definition := [], declaration := [],
                   text := Artifact.escape text } := by
  rcases hm : minify lines o.lineComments with ⟨debug, text, passes⟩
  simp only [assemble, hm]
  cases Renaming.apply o.strategy text k.table with
  | error r => simp
  | ok renamed =>
    cases hchunks : Artifact.chunk renamed o.chunkSize with
    | error e => simp [hchunks]
    | ok chunks =>
      simp only [hchunks]
      constructor
      · intro h
        obtain ⟨rfl, rfl⟩ := Prod.mk.inj (Except.ok.inj h)
        exact ⟨renamed, chunks, rfl, hchunks, rfl, rfl⟩
      · rintro ⟨text, chunks, htext, hcut, rfl, rfl⟩
        obtain rfl := Except.ok.inj htext
        obtain rfl := Except.ok.inj (hchunks.symm.trans hcut)
        rfl

/-- Assembling crashes when the table can be applied, but the outcome cannot be cut. -/
theorem assemble_eq_crashed_iff {o : PackOptions} {k : Kernel} {lines : List Bytes} {c : Crash} :
    (assemble o k lines).value = .error (.crashed c) ↔
      ∃ text, Renaming.apply o.strategy (minify lines o.lineComments).2.1 k.table = .ok text ∧
        Artifact.chunk text o.chunkSize = .error c := by
  rcases hm : minify lines o.lineComments with ⟨debug, text, passes⟩
  simp only [assemble, hm]
  cases Renaming.apply o.strategy text k.table with
  | error r => simp
  | ok renamed =>
    cases hchunks : Artifact.chunk renamed o.chunkSize with
    | error e => simp [hchunks]
    | ok chunks => simp [hchunks]

/-! ### Two forms of one kernel -/

/-- The lines that debug literals show, once read, are the padded lines and an empty rest. -/
theorem Artifact.pieces_stringValue_debugLiterals {lines : List Bytes}
    (hlf : ∀ l ∈ lines, Byte.lf ∉ l) (hwidth : widest (lines.map escape) ≤ paddingLimit) :
    ∃ source, stringValue? simpleEscape? (debugLiterals lines) = some source ∧
      Bytes.pieces Byte.lf source
        = lines.map (paddedLine (widest (lines.map escape))) ++ [[]] := by
  refine ⟨_, stringValue?_debugLiterals hwidth, Bytes.pieces_terminated fun l hl => ?_⟩
  obtain ⟨line, hline, rfl⟩ := List.mem_map.mp hl
  intro hmem
  rcases List.mem_append.mp hmem with hmem | hmem
  · rcases List.mem_cons.mp hmem with hspace | hmem
    · exact absurd hspace (by decide)
    · exact hlf line hline hmem
  · exact absurd (List.eq_of_mem_replicate hmem) (by decide)

/-- **Both forms of an artifact hold the same kernel.** As long as the padding is carried out, the
debug literals are well-formed C strings; the lines they show, normalized and compacted, are the
text that was handed to renaming, reached in the same number of passes; so renaming it by the same
table gives the text of the release form. -/
theorem debug_form_holds_kernel (o : PackOptions) (k : Kernel) (lines : List Bytes)
    {result : PackResult} {a : Artifact} (h : (assemble o k lines).value = .ok (result, a))
    (hwidth : Artifact.widest ((Source.withoutComments lines o.lineComments).map Artifact.escape)
      ≤ Artifact.paddingLimit) :
    ∃ source,
      Artifact.stringValue? Artifact.simpleEscape? (Artifact.debugLiterals a.debugLines)
        = some source ∧
      Source.compact (Source.normalize (Bytes.pieces Byte.lf source))
        = (minify lines o.lineComments).2 ∧
      Renaming.apply o.strategy
          (Source.compact (Source.normalize (Bytes.pieces Byte.lf source))).1 k.table
        = .ok a.text := by
  obtain ⟨text, chunks, htext, -, rfl, -⟩ := assemble_eq_ok_iff.mp h
  obtain ⟨source, hsource, hpieces⟩ := Artifact.pieces_stringValue_debugLiterals
    (fun l hl => Source.lf_not_mem_of_mem_withoutComments hl) hwidth
  have hnormal : Source.normalize (Bytes.pieces Byte.lf source)
      = Source.normalize (Source.withoutComments lines o.lineComments) := by
    rw [hpieces]
    exact Source.normalize_surrounded _ _
  have hcompact : Source.compact (Source.normalize (Bytes.pieces Byte.lf source))
      = (minify lines o.lineComments).2 := by
    rw [hnormal]
    rfl
  refine ⟨source, hsource, hcompact, ?_⟩
  rw [hcompact]
  exact htext

/-- A kernel of three lines with a literal, a comment, an empty line and a name to shorten is
assembled, and its debug literals hold it. -/
theorem debug_form_holds_kernel_shortened :
    ∃ result a source,
      (assemble { strategy := .text } ⟨utf8 "k.cl", 0, .ofPairs [⟨utf8 "width", utf8 "w"⟩]⟩
        [utf8 "p(\"width\\n\") ; // c", [], utf8 "\t width"]).value = .ok (result, a) ∧
      Artifact.stringValue? Artifact.simpleEscape? (Artifact.debugLiterals a.debugLines)
        = some source ∧
      Renaming.apply .text (Source.compact (Source.normalize (Bytes.pieces Byte.lf source))).1
        (.ofPairs [⟨utf8 "width", utf8 "w"⟩]) = .ok a.text := by
  have hok : (assemble { strategy := .text }
      ⟨utf8 "k.cl", 0, .ofPairs [⟨utf8 "width", utf8 "w"⟩]⟩
      [utf8 "p(\"width\\n\") ; // c", [], utf8 "\t width"]).value.isOk = true := by
    decide +kernel
  obtain ⟨⟨result, a⟩, h⟩ := Outcome.exists_eq_ok_of_isOk hok
  obtain ⟨source, hsource, -, htext⟩ := debug_form_holds_kernel _ _ _ h (by decide +kernel)
  exact ⟨result, a, source, h, hsource, htext⟩

end KernelPack
