import KernelPack.Proofs.Artifact.Bodies
import KernelPack.Proofs.Kernel.Effects
import KernelPack.Proofs.Source.Closing
import KernelPack.Proofs.Source.Gaps

/-!
# The numbers in a result

A result counts what was packed: the bytes of the source and of the packed text, the release
literals and the debug lines. The numbers are worked out beside the artifact, from other copies of
the text than those that are written. The main statement is that they are the numbers of the
**written definition** (`statistics_match`), as a reader of literals finds them there.

The bytes of a source are counted with a terminator for each line. On the way to the packed text a
step may drop bytes and never adds any, and the terminator of the last line has no counterpart in
the text, so a source that has a line is larger than its minified text (`length_minify_lt`).
-/

namespace KernelPack

/-! ### The bytes of a source -/

theorem length_terminated (sep : UInt8) (lines : List Bytes) :
    (Bytes.terminated sep lines).length = byteCount lines := by
  induction lines with
  | nil => rfl
  | cons l ls ih =>
    rw [Bytes.terminated, List.flatMap_cons, ← Bytes.terminated, List.length_append,
      List.length_append, ih]
    rfl

/-- The last line of joined lines has no terminator. -/
theorem byteCount_eq (sep : UInt8) {lines : List Bytes} (h : lines ≠ []) :
    byteCount lines = (Bytes.joinWith [sep] lines).length + 1 := by
  rw [← length_terminated sep, ← Bytes.joinWith_append_sep h, List.length_append]
  rfl

theorem byteCount_pieces (sep : UInt8) (text : Bytes) :
    byteCount (Bytes.pieces sep text) = text.length + 1 := by
  induction text using Bytes.line_induction sep with
  | last l hl => rw [Bytes.pieces_eq_singleton hl]; rfl
  | line l t hl ih =>
    have hcons : ∀ ls, byteCount (l :: ls) = l.length + 1 + byteCount ls := fun _ => rfl
    rw [Bytes.pieces_append_cons hl, hcons, ih, List.length_append, List.length_cons]
    omega

theorem byteCount_map_le {f : Bytes → Bytes} (hf : ∀ l, (f l).length ≤ l.length)
    (lines : List Bytes) : byteCount (lines.map f) ≤ byteCount lines := by
  induction lines with
  | nil => exact Nat.le_refl 0
  | cons l ls ih => exact Nat.add_le_add (Nat.add_le_add_right (hf l) 1) ih

namespace Source

theorem pieces_ne_nil (sep : UInt8) (text : Bytes) : Bytes.pieces sep text ≠ [] := nofun

/-- Removing comments only drops bytes. -/
theorem dropComments_sublist {comment? : Bytes → Option Nat} (h : Recognises comment?)
    (text : Bytes) : (dropComments comment? text).Sublist text := by
  refine substituteFrom_sublist (fun s n new hfind => ?_) 0 text
  obtain ⟨m, hm, heq⟩ := Option.map_eq_some_iff.mp hfind
  obtain ⟨rfl, rfl⟩ := Prod.mk.inj heq
  exact ⟨List.nil_sublist _, (h s m hm).1⟩

theorem byteCount_withoutComments_le (lines : List Bytes) (lineComments : Bool) :
    byteCount (withoutComments lines lineComments) ≤ byteCount lines := by
  unfold withoutComments
  split
  · exact Nat.zero_le _
  · rename_i hlines
    have hne : lines ≠ [] := mt List.isEmpty_iff.mpr hlines
    have hblocks := (dropComments_sublist recognises_blockComment?
      (Bytes.joinWith [Byte.lf] lines)).length_le
    have hlength : ∀ text : Bytes, text.length ≤ (Bytes.joinWith [Byte.lf] lines).length →
        byteCount ((Bytes.pieces Byte.lf text).map (Bytes.dropTrailing Byte.isBlank)) ≤
          byteCount lines := fun text htext =>
      calc byteCount ((Bytes.pieces Byte.lf text).map (Bytes.dropTrailing Byte.isBlank))
          ≤ byteCount (Bytes.pieces Byte.lf text) :=
            byteCount_map_le (fun l => (Bytes.dropTrailing_isPrefix _ l).length_le) _
        _ = text.length + 1 := byteCount_pieces Byte.lf text
        _ ≤ (Bytes.joinWith [Byte.lf] lines).length + 1 := Nat.add_le_add_right htext 1
        _ = byteCount lines := (byteCount_eq Byte.lf hne).symm
    refine hlength _ ?_
    split
    · exact (dropComments_sublist recognises_lineComment? _).length_le.trans hblocks
    · exact hblocks

theorem withoutComments_ne_nil {lines : List Bytes} (h : lines ≠ []) (lineComments : Bool) :
    withoutComments lines lineComments ≠ [] := by
  unfold withoutComments
  rw [if_neg (mt List.isEmpty_iff.mp h)]
  exact mt List.map_eq_nil_iff.mp (pieces_ne_nil _ _)

theorem length_collapse_le (text : Bytes) : (collapse text).length ≤ text.length := by
  have hcons : ∀ b t, (consCollapsed b t).length ≤ t.length + 1 := by
    intro b t
    unfold consCollapsed
    split
    · split
      · exact Nat.le_succ _
      · exact Nat.le_refl _
    · exact Nat.le_refl _
  induction text with
  | nil => exact Nat.le_refl 0
  | cons b t ih =>
    rw [collapse_cons]
    exact (hcons b _).trans (Nat.add_le_add_right ih 1)

theorem length_normalize_lt {lines : List Bytes} (h : lines ≠ []) :
    (normalize lines).length < byteCount lines := by
  rw [byteCount_eq Byte.space h, Nat.lt_succ_iff, normalize_eq]
  exact (trim_isInfix _).length_le.trans (length_collapse_le _)

end Source

/-- **A source that has a line is larger than its minified text.** -/
theorem length_minify_lt {lines : List Bytes} (h : lines ≠ []) (lineComments : Bool) :
    (minify lines lineComments).2.1.length < byteCount lines :=
  calc (minify lines lineComments).2.1.length
      ≤ (Source.normalize (Source.withoutComments lines lineComments)).length :=
        (Source.compact_sublist _).length_le
    _ < byteCount (Source.withoutComments lines lineComments) :=
        Source.length_normalize_lt (Source.withoutComments_ne_nil h lineComments)
    _ ≤ byteCount lines := Source.byteCount_withoutComments_le lines lineComments

/-! ### The numbers of the written definition -/

namespace PackOptions

/-- The macro that selects the debug literals of the kernels packed. -/
def switch (o : PackOptions) : Bytes :=
  if o.debugMacro.isEmpty then Artifact.standardDebugMacro else o.debugMacro

/-- A chunk size that is asked for does not make the number of bytes anything but positive. -/
theorem chunkSize_pos_chunkedBy {o : PackOptions} (h : 0 < o.chunkSize) (size : Int64) :
    0 < (o.chunkedBy size).chunkSize := by
  unfold chunkedBy
  split
  · assumption
  · exact h

end PackOptions

section Statistics

variable {o : PackOptions} {t : Tree} {k : Kernel} {r : PackResult}

/-- A result that says that files were written belongs to an artifact whose definition is left
behind. -/
theorem exists_written (h : packedIn o t k = .ok r) (hw : r.written = true) :
    ∃ result a definition, assembledIn o t k = .ok (result, a) ∧ a.definition = .ok definition ∧
      r = result.writtenTo (o.definitionPath k, o.declarationPath k) ∧
      (treeAfter o t k).content? r.definition = some definition := by
  obtain ⟨result, a, hassembled⟩ := exists_assembled h
  obtain ⟨-, definition, hdefinition⟩ := exists_definition hassembled
  cases hdry : o.dryRun with
  | true =>
    -- the result of a dry run says that nothing was written
    obtain rfl := Except.ok.inj ((pack_of_dryRun hassembled hdry).1.symm.trans h)
    obtain ⟨lines, -, hvalue⟩ := assembledIn_eq_ok_iff.mp hassembled
    obtain ⟨_, _, -, -, -, rfl⟩ := assemble_eq_ok_iff.mp hvalue
    cases hw
  | false =>
    obtain ⟨rfl, hcontent, -⟩ := written_of_packedIn hassembled hdry hdefinition h
    exact ⟨result, a, definition, hassembled, hdefinition, rfl, hcontent⟩

end Statistics

/-- **The numbers in a result are those of the written definition.** Chunk sizes are positive, from
the first one on. With such a size, take a kernel whose files were written, and read the definition
that is left behind. There are as many release literals in it as chunks in the result, and as it
takes to hold the renamed text; as many debug literals as debug lines; the minified bytes are the
bytes between the quotes of the release literals, and the text in the result is what stands there.
And where a line was loaded, the source bytes exceed the text before it was renamed. -/
theorem statistics_match :
    (0 < PackOptions.chunkSize {} ∧
      ∀ (o : PackOptions) (size : Int64), 0 < o.chunkSize → 0 < (o.chunkedBy size).chunkSize) ∧
    ∀ (o : PackOptions) (t : Tree) (k : Kernel) (r : PackResult), 0 < o.chunkSize →
      packedIn o t k = .ok r → r.written = true →
      ∃ lines text definition bodies,
        k.loadedIn t = .ok lines ∧
        Renaming.apply o.strategy (minify lines o.lineComments).2.1 k.table = .ok text ∧
        (treeAfter o t k).content? r.definition = some definition ∧
        Artifact.readBodies r.symbol o.switch definition = some bodies ∧
        r.chunks = (text.length ⌈/⌉ o.chunkSize.toInt.toNat : Nat) ∧
        r.chunks = Artifact.literalCount bodies.release ∧
        r.minifiedBytes = (bodies.release.map List.length).sum ∧
        r.text = bodies.release.flatten ∧ r.text = Artifact.escape text ∧
        r.debugLines = Artifact.literalCount bodies.debug ∧
        (lines ≠ [] → ((minify lines o.lineComments).2.1.length : Int) + 1 ≤ r.sourceBytes) := by
  refine ⟨⟨by decide, fun o size h => PackOptions.chunkSize_pos_chunkedBy h size⟩,
    fun o t k r hsize hr hw => ?_⟩
  obtain ⟨result, a, definition, hassembled, hdefinition, rfl, hcontent⟩ := exists_written hr hw
  obtain ⟨lines, hlines, hvalue⟩ := assembledIn_eq_ok_iff.mp hassembled
  obtain ⟨text, chunks, htext, hchunks, rfl, rfl⟩ := assemble_eq_ok_iff.mp hvalue
  obtain ⟨bodies, chunks', hbodies, hchunks', hdebug, hrelease, hflatten⟩ :=
    Artifact.readBodies_definition hdefinition
  obtain rfl : chunks = chunks' := Except.ok.inj (hchunks.symm.trans hchunks')
  have hlength : chunks.length = text.length ⌈/⌉ o.chunkSize.toInt.toNat := by
    rw [Artifact.length_of_chunk hchunks, Artifact.chunkLength_eq, if_pos hsize]
  refine ⟨lines, text, definition, bodies, hlines, htext, hcontent, hbodies, ?_, ?_, ?_, ?_, rfl,
    ?_, ?_⟩
  · exact congrArg Nat.cast hlength
  · exact congrArg Nat.cast hrelease.symm
  · rw [← List.length_flatten, hflatten]
    rfl
  · exact hflatten.symm
  · exact congrArg Nat.cast hdebug.symm
  · intro hne
    -- a number is less than another if the next one is at most that
    exact Int.ofNat_lt.mpr (length_minify_lt hne o.lineComments)

/-- A carriage return within a line comes out of renaming as a line feed, so the first of three
release literals goes on in another line of the definition. It is one literal all the same. -/
theorem statistics_match_line_feed :
    let o : PackOptions := { chunkSize := 8 }
    let k : Kernel := ⟨utf8 "k.cl", 0, .ofPairs [⟨utf8 "width", utf8 "w"⟩]⟩
    let t : Tree :=
      ⟨[([utf8 "k.cl"], .file (utf8 "int width;\r// size\nchar c = '\"';\n"))], []⟩
    0 < o.chunkSize ∧ ∃ r definition bodies, packedIn o t k = .ok r ∧ r.written = true ∧
      (treeAfter o t k).content? r.definition = some definition ∧
      Artifact.readBodies r.symbol o.switch definition = some bodies ∧
      bodies.release = [utf8 "int w;\n ", utf8 "char c='", utf8 "\\\"';"] ∧
      r.chunks = 3 ∧ r.minifiedBytes = 20 ∧ r.debugLines = 2 := by
  intro o k t
  have hread : (packedIn o t k).toOption.bind (fun r =>
      ((treeAfter o t k).content? r.definition).bind fun definition =>
        (Artifact.readBodies r.symbol o.switch definition).map fun b =>
          (r.written, b.release, b.debug.length)) =
      some (true, [utf8 "int w;\n ", utf8 "char c='", utf8 "\\\"';"], 2) := by
    decide +kernel
  obtain ⟨r, hr, hread⟩ := Option.bind_eq_some_iff.mp hread
  replace hr : packedIn o t k = .ok r := Outcome.eq_ok_of_toOption hr
  obtain ⟨definition, hdefinition, hread⟩ := Option.bind_eq_some_iff.mp hread
  obtain ⟨bodies, hbodies, heq⟩ := Option.map_eq_some_iff.mp hread
  simp only [Prod.mk.injEq] at heq
  obtain ⟨hw, hrelease, hdebug⟩ := heq
  obtain ⟨_, _, definition', bodies', -, -, hdefinition', hbodies', -, hchunks, hminified, -, -,
    hlines, -⟩ := statistics_match.2 o t k r (by decide) hr hw
  obtain rfl := Option.some.inj (hdefinition.symm.trans hdefinition')
  obtain rfl := Option.some.inj (hbodies.symm.trans hbodies')
  have hcount : Artifact.literalCount bodies.debug = 2 := by
    have hne : bodies.debug ≠ [[]] := fun he => by simp [he] at hdebug
    rw [Artifact.literalCount, if_neg hne, hdebug]
  rw [hrelease] at hchunks hminified
  rw [hcount] at hlines
  exact ⟨by decide, r, definition, bodies, hr, hw, hdefinition, hbodies, hrelease, hchunks,
    hminified, hlines⟩

end KernelPack
