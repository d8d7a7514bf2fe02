import KernelPack.Proofs.Artifact.Alignment
import KernelPack.Proofs.Artifact.Chunks
import KernelPack.Proofs.Artifact.Definition
import Mathlib.Data.List.Basic

/-!
# Reading a definition by its quotes

Where a kernel brings line feeds into its literals, a definition cannot be read line by line. It can
be read **from the left**: a literal begins at a quote and ends at the next quote that no backslash
takes along (`readLiterals`), and behind the literals of a branch the next line of the definition
has to follow (`readBodies`). Nothing is asked of the artifact for this.

The main statement is that this reader finds the bodies of the literals that the definition was
written from (`readBodies_definitionText`). A branch without literals has an **empty literal** in
their place, which is not counted (`literalCount`).
-/

namespace KernelPack.Artifact

/-! ### The reader -/

/-- The bodies of the literals that a text begins with, and the text behind them. Line feeds
between literals are passed. Inside a literal, what has been read of its body is kept, and a
backslash takes the byte behind it along. -/
def readLiterals : Option Bytes → Bytes → List Bytes × Bytes
  | none, [] => ([], [])
  | some _, [] => ([], [])
  | none, b :: t =>
    if b = Byte.lf then readLiterals none t
    else if b = Byte.quote then readLiterals (some []) t
    else ([], b :: t)
  | some body, b :: t =>
    if b = Byte.quote then
      let (bodies, rest) := readLiterals none t
      (body :: bodies, rest)
    else if b = Byte.backslash then
      match t with
      | [] => ([], [])
      | c :: u => readLiterals (some (body ++ [b, c])) u
    else readLiterals (some (body ++ [b])) t

/-- What stands between the quotes of the literals of the two branches. -/
structure Bodies where
  debug : List Bytes
  release : List Bytes
  deriving DecidableEq, Repr

/-- The bodies in a definition of a symbol and a macro. -/
def readBodies (symbol switch source : Bytes) : Option Bodies := do
  let below ← source.dropPrefix? (Bytes.terminated Byte.lf (openingLines symbol switch))
  let (debug, below) := readLiterals none below
  let below ← below.dropPrefix? (elseLine switch)
  let (release, below) := readLiterals none below
  let _ ← below.dropPrefix? (endLine switch)
  return ⟨debug, release⟩

/-- The number of literals in a branch, where a single empty one only holds the place. -/
def literalCount (bodies : List Bytes) : Nat := if bodies = [[]] then 0 else bodies.length

/-! ### Literals from the left -/

@[simp] theorem readLiterals_lf (t : Bytes) :
    readLiterals none (Byte.lf :: t) = readLiterals none t := rfl

@[simp] theorem readLiterals_open (t : Bytes) :
    readLiterals none (Byte.quote :: t) = readLiterals (some []) t := rfl

@[simp] theorem readLiterals_close (body t : Bytes) : readLiterals (some body) (Byte.quote :: t) =
    (body :: (readLiterals none t).1, (readLiterals none t).2) := by
  cases t <;> rfl

theorem readLiterals_escaped (body : Bytes) (b : UInt8) (t : Bytes) :
    readLiterals (some body) (Byte.backslash :: b :: t) =
      readLiterals (some (body ++ [Byte.backslash, b])) t := by
  rw [readLiterals, if_neg (by decide), if_pos rfl]

theorem readLiterals_plain {b : UInt8} (hquote : b ≠ Byte.quote) (hbackslash : b ≠ Byte.backslash)
    (body t : Bytes) :
    readLiterals (some body) (b :: t) = readLiterals (some (body ++ [b])) t := by
  cases t <;> simp only [readLiterals, if_neg hquote, if_neg hbackslash]

/-- Every quote and every backslash in the body is part of an escape that C knows. -/
def WellFormed (body : Bytes) : Prop := ∃ text, unescape? simpleEscape? body = some text

/-- **A well-formed body is read to its end.** -/
theorem WellFormed.readLiterals_append {body : Bytes} (h : WellFormed body) (before t : Bytes) :
    readLiterals (some before) (body ++ t) = readLiterals (some (before ++ body)) t := by
  obtain ⟨text, h⟩ := h
  -- along the other reader of bodies, which refuses a bare quote and a backslash at the end
  fun_induction unescape? simpleEscape? body generalizing text before with
  | case1 => rw [List.nil_append, List.append_nil]
  | case2 => cases h
  | case3 e rest ih =>
    obtain ⟨_, -, u, hu, -⟩ : ∃ x, simpleEscape? e = some x ∧
        ∃ u, unescape? simpleEscape? rest = some u ∧ some (x :: u) = some text := by
      simpa [Option.bind_eq_some_iff] using h
    rw [List.cons_append, List.cons_append, readLiterals_escaped, ih _ _ hu, List.append_assoc]
    rfl
  | case4 => cases h
  | case5 b rest hbackslash hquote ih =>
    obtain ⟨u, hu, -⟩ := Option.map_eq_some_iff.mp h
    rw [List.cons_append, readLiterals_plain hquote hbackslash, ih _ _ hu, List.append_assoc]
    rfl

theorem readLiterals_enclose {body : Bytes} (h : WellFormed body) (t : Bytes) :
    readLiterals none (enclose body ++ t) =
      (body :: (readLiterals none t).1, (readLiterals none t).2) := by
  rw [enclose, List.append_assoc, List.append_assoc, List.singleton_append, readLiterals_open,
    h.readLiterals_append, List.nil_append, List.singleton_append, readLiterals_close]

/-- Literals on lines of their own are read one after another. -/
theorem readLiterals_terminated {bodies : List Bytes} (h : ∀ b ∈ bodies, WellFormed b)
    (t : Bytes) :
    readLiterals none (Bytes.terminated Byte.lf (bodies.map enclose) ++ t) =
      (bodies ++ (readLiterals none t).1, (readLiterals none t).2) := by
  induction bodies with
  | nil => rfl
  | cons b bodies ih =>
    obtain ⟨hb, hbodies⟩ := List.forall_mem_cons.mp h
    rw [List.map_cons, Bytes.terminated, List.flatMap_cons, ← Bytes.terminated, List.append_assoc,
      List.append_assoc, readLiterals_enclose hb, List.singleton_append, readLiterals_lf,
      ih hbodies, List.cons_append]

/-! ### Branches -/

/-- The bodies that a branch shows: an empty one if there are none. -/
def shownBodies (bodies : List Bytes) : List Bytes := if bodies.isEmpty then [[]] else bodies

theorem branchLines_map_enclose (bodies : List Bytes) :
    branchLines (bodies.map enclose) = (shownBodies bodies).map enclose := by
  cases bodies <;> rfl

theorem wellFormed_of_mem_shownBodies {bodies : List Bytes} (h : ∀ b ∈ bodies, WellFormed b) :
    ∀ b ∈ shownBodies bodies, WellFormed b := by
  unfold shownBodies
  split
  · exact List.forall_mem_singleton.mpr ⟨[], rfl⟩
  · exact h

/-- What holds the place of literals is told from them if none of them is empty. -/
theorem literalCount_shownBodies {bodies : List Bytes} (h : ∀ b ∈ bodies, b ≠ []) :
    literalCount (shownBodies bodies) = bodies.length := by
  unfold literalCount shownBodies
  cases bodies with
  | nil => rfl
  | cons b bodies =>
    have hb : b :: bodies ≠ [[]] := fun he => h b List.mem_cons_self (List.cons.inj he).1
    exact if_neg hb

@[simp] theorem flatten_shownBodies (bodies : List Bytes) :
    (shownBodies bodies).flatten = bodies.flatten := by
  cases bodies <;> rfl

/-- The literals of a branch are read up to the next line of the preprocessor, over blank lines. -/
theorem readLiterals_branch {bodies : List Bytes} (h : ∀ b ∈ bodies, WellFormed b)
    (line : Bytes) (hline : line.head? = some 35) (t : Bytes) :
    readLiterals none
        (Bytes.terminated Byte.lf (branchLines (bodies.map enclose) ++ [[], []]) ++ (line ++ t)) =
      (shownBodies bodies, line ++ t) := by
  obtain ⟨line, rfl⟩ := List.head?_eq_some_iff.mp hline
  -- 35 is the number sign: neither a line feed nor a quote
  have hstop : readLiterals none (Bytes.terminated Byte.lf [[], []] ++ (35 :: line ++ t)) =
      ([], 35 :: line ++ t) := rfl
  rw [branchLines_map_enclose, Bytes.terminated, List.flatMap_append, List.append_assoc,
    ← Bytes.terminated, ← Bytes.terminated,
    readLiterals_terminated (wellFormed_of_mem_shownBodies h), hstop, List.append_nil]

/-- **The reader finds the bodies of both branches**, whatever they hold. -/
theorem readBodies_definitionText {symbol switch : Bytes} {debug release : List Bytes}
    (hdebug : ∀ b ∈ debug, WellFormed b) (hrelease : ∀ b ∈ release, WellFormed b) :
    readBodies symbol switch
        (definitionText symbol switch (debug.map enclose) (release.map enclose)) =
      some ⟨shownBodies debug, shownBodies release⟩ := by
  obtain ⟨closing, htext⟩ : ∃ closing,
      definitionText symbol switch (debug.map enclose) (release.map enclose) =
        Bytes.terminated Byte.lf (openingLines symbol switch) ++
          (Bytes.terminated Byte.lf (branchLines (debug.map enclose) ++ [[], []]) ++
            (elseLine switch ++ ([Byte.lf, Byte.lf, Byte.lf] ++
              (Bytes.terminated Byte.lf (branchLines (release.map enclose) ++ [[], []]) ++
                (endLine switch ++ closing))))) := by
    refine ⟨Byte.lf :: Bytes.terminated Byte.lf (closingLines symbol), ?_⟩
    rw [definitionText_eq_terminated]
    simp [definitionLines, Bytes.terminated]
  -- what is left of the line between the branches, and the blank lines below it
  have hrest : ∀ t, readLiterals none ([Byte.lf, Byte.lf, Byte.lf] ++ t) = readLiterals none t :=
    fun _ => rfl
  have hdrop : ∀ u v : Bytes, (u ++ v).dropPrefix? u = some v := fun u v =>
    List.dropPrefix?_append_of_beq v (beq_self_eq_true u)
  simp only [readBodies, htext, hdrop, Option.bind_eq_bind, Option.bind_some, hrest,
    readLiterals_branch hdebug (elseLine switch) rfl,
    readLiterals_branch hrelease (endLine switch) rfl]
  rfl

/-! ### What is written between the quotes -/

theorem wellFormed_escape (text : Bytes) : WellFormed (escape text) :=
  ⟨text, unescape?_escape simpleEscape?_quotesBack text⟩

/-- The body of the debug literal of a line. -/
def debugBody (width : Nat) (line : Bytes) : Bytes :=
  Byte.space :: padTo width (escape line) ++ utf8 "\\n"

theorem debugLiterals_eq_map_enclose (lines : List Bytes) :
    debugLiterals lines = (lines.map (debugBody (widest (lines.map escape)))).map enclose := by
  rw [debugLiterals_eq_map, List.map_map]
  rfl

/-- It can be read, whether padding is carried out or not. -/
theorem wellFormed_debugBody (width : Nat) (line : Bytes) : WellFormed (debugBody width line) := by
  rw [WellFormed, ← literalValue?_enclose]
  obtain hlt | hle := Nat.lt_or_ge paddingLimit width
  · exact ⟨_, literalValue?_debugLiteral_of_lt hlt line⟩
  · exact ⟨_, literalValue?_debug hle line⟩

/-- No chunk is empty. -/
theorem ne_nil_of_mem_chunk {text : Bytes} {size : Int64} {chunks : List Bytes}
    (h : chunk text size = .ok chunks) : ∀ c ∈ chunks, c ≠ [] := by
  have hcut : ∀ {n : Nat}, 0 < n → ∀ u : Bytes, ∀ c ∈ cutEvery n u, c ≠ [] := by
    intro n hn u
    fun_induction cutEvery n u with
    | case1 u hu => exact List.forall_mem_nil _
    | case2 u hu ih =>
      refine List.forall_mem_cons.mpr ⟨fun hnil => hu (Or.inr ?_), ih⟩
      exact (List.take_eq_nil_iff.mp hnil).resolve_left hn.ne'
  simp only [chunk] at h
  split at h
  · cases h
  · rw [← Except.ok.inj h]
    exact hcut (effectiveSize_pos size) text

/-- **What is read in a definition**: one body for each line without comments, and one for each
chunk. -/
theorem readBodies_definition {a : Artifact} {source : Bytes} (h : a.definition = .ok source) :
    ∃ bodies chunks, readBodies a.symbol a.switch source = some bodies ∧
      chunk a.text a.chunkSize = .ok chunks ∧
      literalCount bodies.debug = a.debugLines.length ∧
      literalCount bodies.release = chunks.length ∧
      bodies.release.flatten = escape a.text := by
  obtain ⟨release, hrelease, rfl⟩ := definition_eq_ok_iff.mp h
  obtain ⟨chunks, hchunks, -⟩ := releaseLiterals_eq_ok_iff.mp hrelease
  obtain rfl := Except.ok.inj ((releaseLiterals_of_chunk hchunks).symm.trans hrelease)
  have hbodies : ∀ b ∈ chunks.map escape, WellFormed b ∧ b ≠ [] :=
    List.forall_mem_map.mpr fun c hc =>
      ⟨wellFormed_escape c, mt escape_eq_nil_iff.mp (ne_nil_of_mem_chunk hchunks c hc)⟩
  have hdebug : ∀ b ∈ a.debugLines.map (debugBody (widest (a.debugLines.map escape))),
      WellFormed b ∧ b ≠ [] :=
    List.forall_mem_map.mpr fun line _ => ⟨wellFormed_debugBody _ line, List.cons_ne_nil _ _⟩
  rw [debugLiterals_eq_map_enclose]
  refine ⟨_, chunks, readBodies_definitionText (fun b hb => (hdebug b hb).1)
    (fun b hb => (hbodies b hb).1), hchunks, ?_, ?_, ?_⟩
  · rw [literalCount_shownBodies fun b hb => (hdebug b hb).2, List.length_map]
  · rw [literalCount_shownBodies fun b hb => (hbodies b hb).2, List.length_map]
  · rw [flatten_shownBodies, flatten_map_escape, flatten_of_chunk hchunks]

end KernelPack.Artifact
