import KernelPack.Artifact.Source
import KernelPack.Proofs.Artifact.Literal
import KernelPack.Proofs.Outcome

/-!
# Reading a definition back

A definition is read **line by line**, without looking into its literals: `branches` collects the
lines that begin with a quote, up to the line that begins with the word for the other branch, and
from there to the line that begins with the word for the end. The main statement is that this
finds exactly the literals the definition was written from, whatever bytes the artifact is made
of, as long as none of them is a line feed; and the release literals read as the packed text. So
a definition determines its text.

The proof goes through the list of lines of a definition (`definitionLines`). Its lines are of
three sorts that their first byte or two keep apart: literals, the two dividing lines, and the
rest, which are neither.
-/

namespace KernelPack.Artifact

/-! ### The reader -/

/-- What the line between the two branches begins with. -/
def elseMark : Bytes := utf8 "#else"

/-- What the line after the second branch begins with. -/
def endMark : Bytes := utf8 "#endif"

/-- Does the line begin with a quote? -/
def isLiteralLine (line : Bytes) : Bool := line.head? == some Byte.quote

/-- The literals of the two branches of a definition. -/
structure Branches where
  debug : List Bytes
  release : List Bytes
  deriving DecidableEq, Repr

/-- The literals of a definition: those above the line between the branches, and those from there
to the end of the second branch. -/
def branches (source : Bytes) : Branches :=
  let lines := Bytes.pieces Byte.lf source
  let below := (lines.dropWhile (!elseMark.isPrefixOf ·)).tail
  { debug := (lines.takeWhile (!elseMark.isPrefixOf ·)).filter isLiteralLine
    release := (below.takeWhile (!endMark.isPrefixOf ·)).filter isLiteralLine }

/-! ### The lines of a definition -/

/-- The lines of a branch: its literals, or an empty literal if it has none. -/
def branchLines (literals : List Bytes) : List Bytes :=
  if literals.isEmpty then [enclose []] else literals

/-- The lines above the first branch. -/
def openingLines (symbol switch : Bytes) : List Bytes :=
  [utf8 "const char " ++ symbol ++ utf8 "[] = ", [], [],
    utf8 "#if defined(" ++ switch ++ utf8 ")", [], []]

/-- The line between the branches. -/
def elseLine (switch : Bytes) : Bytes := utf8 "#else /* defined(" ++ switch ++ utf8 ") */"

/-- The line after the second branch. -/
def endLine (switch : Bytes) : Bytes := utf8 "#endif /* defined(" ++ switch ++ utf8 ") */"

/-- The lines below the second branch. -/
def closingLines (symbol : Bytes) : List Bytes :=
  [[], [], utf8 ";", [], [],
    utf8 "const unsigned " ++ symbol ++ utf8 "_len = sizeof(" ++ symbol ++ utf8 ");"]

/-- All lines of a definition. -/
def definitionLines (symbol switch : Bytes) (debug release : List Bytes) : List Bytes :=
  (openingLines symbol switch ++ branchLines debug ++ [[], []]) ++ elseLine switch ::
    (([[], []] ++ branchLines release ++ [[], []]) ++ endLine switch :: closingLines symbol)

/-- A definition is its lines, each with a line feed after it. -/
theorem definitionText_eq_terminated (symbol switch : Bytes) (debug release : List Bytes) :
    definitionText symbol switch debug release
      = Bytes.terminated Byte.lf (definitionLines symbol switch debug release) := by
  have hopen : utf8 "[] = \n\n\n" = utf8 "[] = " ++ [Byte.lf, Byte.lf, Byte.lf] := by decide
  have hif : utf8 ")\n\n\n" = utf8 ")" ++ [Byte.lf, Byte.lf, Byte.lf] := by decide
  have helse : utf8 "\n\n#else /* defined(" = [Byte.lf, Byte.lf] ++ utf8 "#else /* defined(" := by
    decide
  have hend : utf8 "\n\n#endif /* defined(" = [Byte.lf, Byte.lf] ++ utf8 "#endif /* defined(" := by
    decide
  have hmark : utf8 ") */\n\n\n" = utf8 ") */" ++ [Byte.lf, Byte.lf, Byte.lf] := by decide
  have hsemi : utf8 ";\n\n\n" = utf8 ";" ++ [Byte.lf, Byte.lf, Byte.lf] := by decide
  have hlast : utf8 ");\n" = utf8 ");" ++ [Byte.lf] := by decide
  unfold definitionText
  simp only [definitionLines, literalLines, branchLines, openingLines, closingLines,
    elseLine, endLine, Bytes.terminated, hopen, hif, helse, hend, hmark, hsemi, hlast,
    List.flatMap_append, List.flatMap_cons, List.flatMap_nil, List.append_assoc, List.cons_append,
    List.nil_append, List.append_nil]

/-! ### The three sorts of lines -/

theorem onOneLine_of_mem_branchLines {literals : List Bytes}
    (h : ∀ l ∈ literals, OnOneLine l) {l : Bytes} (hl : l ∈ branchLines literals) :
    OnOneLine l := by
  unfold branchLines at hl
  split at hl
  · exact ⟨[], List.mem_singleton.mp hl, by simp⟩
  · exact h l hl

theorem lf_not_mem_of_onOneLine {l : Bytes} (h : OnOneLine l) : Byte.lf ∉ l := by
  obtain ⟨body, rfl, hbody⟩ := h
  simpa [enclose, show ¬ Byte.lf = Byte.quote by decide] using hbody

/-- No line of a definition holds a line feed if none of its parts does. -/
theorem lf_not_mem_of_mem_definitionLines {symbol switch : Bytes} {debug release : List Bytes}
    (hsymbol : Byte.lf ∉ symbol) (hswitch : Byte.lf ∉ switch)
    (hdebug : ∀ l ∈ debug, OnOneLine l) (hrelease : ∀ l ∈ release, OnOneLine l) :
    ∀ l ∈ definitionLines symbol switch debug release, Byte.lf ∉ l := by
  have hopen : ∀ l ∈ openingLines symbol switch, Byte.lf ∉ l := by
    simp [openingLines, hsymbol, hswitch, show Byte.lf ∉ utf8 "const char " by decide,
      show Byte.lf ∉ utf8 "[] = " by decide, show Byte.lf ∉ utf8 "#if defined(" by decide,
      show Byte.lf ∉ utf8 ")" by decide]
  have hclose : ∀ l ∈ closingLines symbol, Byte.lf ∉ l := by
    simp [closingLines, hsymbol, show Byte.lf ∉ utf8 ";" by decide,
      show Byte.lf ∉ utf8 "const unsigned " by decide,
      show Byte.lf ∉ utf8 "_len = sizeof(" by decide, show Byte.lf ∉ utf8 ");" by decide]
  have helse : Byte.lf ∉ elseLine switch := by
    simp [elseLine, hswitch, show Byte.lf ∉ utf8 "#else /* defined(" by decide,
      show Byte.lf ∉ utf8 ") */" by decide]
  have hend : Byte.lf ∉ endLine switch := by
    simp [endLine, hswitch, show Byte.lf ∉ utf8 "#endif /* defined(" by decide,
      show Byte.lf ∉ utf8 ") */" by decide]
  have hlits : ∀ literals : List Bytes, (∀ l ∈ literals, OnOneLine l) →
      ∀ l ∈ branchLines literals, Byte.lf ∉ l := fun _ h l hl =>
    lf_not_mem_of_onOneLine (onOneLine_of_mem_branchLines h hl)
  have hblank : ∀ l ∈ ([[], []] : List Bytes), Byte.lf ∉ l := by simp
  intro l hl
  simp only [definitionLines, List.mem_append, List.mem_cons (a := l) (b := elseLine switch),
    List.mem_cons (a := l) (b := endLine switch)] at hl
  rcases hl with ((hl | hl) | hl) | rfl | ((hl | hl) | hl) | rfl | hl
  · exact hopen l hl
  · exact hlits debug hdebug l hl
  · exact hblank l hl
  · exact helse
  · exact hblank l hl
  · exact hlits release hrelease l hl
  · exact hblank l hl
  · exact hend
  · exact hclose l hl

/-- The lines of a branch begin with a quote, and so with no mark. -/
theorem sort_of_mem_branchLines {literals : List Bytes} (h : ∀ l ∈ literals, OnOneLine l)
    {l : Bytes} (hl : l ∈ branchLines literals) :
    isLiteralLine l = true ∧ elseMark.isPrefixOf l = false ∧ endMark.isPrefixOf l = false := by
  obtain ⟨body, rfl, -⟩ := onOneLine_of_mem_branchLines h hl
  exact ⟨rfl, rfl, rfl⟩

/-! ### Reading -/

section Reading

variable {symbol switch : Bytes} {debug release : List Bytes}

/-- The lines of a definition, as a reader sees them: an empty one follows the last. -/
theorem pieces_definitionText (hsymbol : Byte.lf ∉ symbol) (hswitch : Byte.lf ∉ switch)
    (hdebug : ∀ l ∈ debug, OnOneLine l) (hrelease : ∀ l ∈ release, OnOneLine l) :
    Bytes.pieces Byte.lf (definitionText symbol switch debug release)
      = definitionLines symbol switch debug release ++ [[]] := by
  rw [definitionText_eq_terminated]
  exact Bytes.pieces_terminated
    (lf_not_mem_of_mem_definitionLines hsymbol hswitch hdebug hrelease)

/-- There is one line between the branches, and one after them. -/
theorem countP_marks (hsymbol : Byte.lf ∉ symbol) (hswitch : Byte.lf ∉ switch)
    (hdebug : ∀ l ∈ debug, OnOneLine l) (hrelease : ∀ l ∈ release, OnOneLine l) :
    (Bytes.pieces Byte.lf (definitionText symbol switch debug release)).countP
        (elseMark.isPrefixOf ·) = 1 ∧
      (Bytes.pieces Byte.lf (definitionText symbol switch debug release)).countP
        (endMark.isPrefixOf ·) = 1 := by
  have helse : ∀ literals : List Bytes, (∀ l ∈ literals, OnOneLine l) →
      (branchLines literals).countP (elseMark.isPrefixOf ·) = 0 := fun literals h =>
    List.countP_eq_zero.mpr fun l hl => by simp [(sort_of_mem_branchLines h hl).2.1]
  have hend : ∀ literals : List Bytes, (∀ l ∈ literals, OnOneLine l) →
      (branchLines literals).countP (endMark.isPrefixOf ·) = 0 := fun literals h =>
    List.countP_eq_zero.mpr fun l hl => by simp [(sort_of_mem_branchLines h hl).2.2]
  rw [pieces_definitionText hsymbol hswitch hdebug hrelease]
  simp only [definitionLines, List.countP_append, List.countP_cons (a := elseLine switch),
    List.countP_cons (a := endLine switch), helse debug hdebug, helse release hrelease,
    hend debug hdebug, hend release hrelease]
  exact ⟨rfl, rfl⟩

/-- The part of a list in front of the first element of a class, and the part from there on. -/
private theorem takeWhile_dropWhile_append_cons {α : Type} {p : α → Bool} {s : List α} {y : α}
    (hs : ∀ x ∈ s, p x = false) (hy : p y = true) (t : List α) :
    (s ++ y :: t).takeWhile (!p ·) = s ∧ (s ++ y :: t).dropWhile (!p ·) = y :: t := by
  have hs' : ∀ x ∈ s, (!p x) = true := fun x hx => by simp [hs x hx]
  rw [List.takeWhile_append_of_pos hs', List.dropWhile_append_of_pos hs']
  simp [hy]

/-- **The reader finds the literals of both branches**, or the empty literal of a branch that has
none. -/
theorem branches_definitionText (hsymbol : Byte.lf ∉ symbol) (hswitch : Byte.lf ∉ switch)
    (hdebug : ∀ l ∈ debug, OnOneLine l) (hrelease : ∀ l ∈ release, OnOneLine l) :
    branches (definitionText symbol switch debug release)
      = ⟨branchLines debug, branchLines release⟩ := by
  have habove : ∀ l ∈ openingLines symbol switch ++ branchLines debug ++ [[], []],
      elseMark.isPrefixOf l = false := by
    intro l hl
    simp only [openingLines, List.mem_append, List.mem_cons, List.not_mem_nil, or_false] at hl
    rcases hl with ((rfl | rfl | rfl | rfl | rfl | rfl) | hl) | rfl | rfl
    case inl.inr => exact (sort_of_mem_branchLines hdebug hl).2.1
    all_goals rfl
  have hbelow : ∀ l ∈ [[], []] ++ branchLines release ++ [[], []],
      endMark.isPrefixOf l = false := by
    intro l hl
    simp only [List.mem_append, List.mem_cons, List.not_mem_nil, or_false] at hl
    rcases hl with ((rfl | rfl) | hl) | rfl | rfl
    case inl.inr => exact (sort_of_mem_branchLines hrelease hl).2.2
    all_goals rfl
  have hkeep : ∀ literals : List Bytes, (∀ l ∈ literals, OnOneLine l) →
      (branchLines literals).filter isLiteralLine = branchLines literals := fun literals h =>
    List.filter_eq_self.mpr fun l hl => (sort_of_mem_branchLines h hl).1
  obtain ⟨htake, hdrop⟩ := takeWhile_dropWhile_append_cons habove
    (show elseMark.isPrefixOf (elseLine switch) = true from rfl)
    ([[], []] ++ branchLines release ++ [[], []] ++ endLine switch :: (closingLines symbol ++ [[]]))
  obtain ⟨htake', -⟩ := takeWhile_dropWhile_append_cons hbelow
    (show endMark.isPrefixOf (endLine switch) = true from rfl) (closingLines symbol ++ [[]])
  have hlines : definitionLines symbol switch debug release ++ [[]]
      = openingLines symbol switch ++ branchLines debug ++ [[], []] ++ elseLine switch ::
        ([[], []] ++ branchLines release ++ [[], []] ++ endLine switch ::
          (closingLines symbol ++ [[]])) := by
    simp only [definitionLines, List.append_assoc, List.cons_append, List.nil_append]
  simp only [branches, pieces_definitionText hsymbol hswitch hdebug hrelease, hlines, htake, hdrop,
    List.tail_cons, htake', List.filter_append, hkeep debug hdebug, hkeep release hrelease]
  -- what is left to filter are lines that begin with no quote
  rw [show (openingLines symbol switch).filter isLiteralLine = [] from rfl,
    show ([[], []] : List Bytes).filter isLiteralLine = [] from rfl]
  simp only [List.nil_append, List.append_nil]

end Reading

/-! ### Artifacts -/

/-- Nothing that the artifact is written from holds a line feed. -/
structure LineFeedFree (a : Artifact) : Prop where
  symbol : Byte.lf ∉ a.symbol
  debugLines : ∀ l ∈ a.debugLines, Byte.lf ∉ l
  text : Byte.lf ∉ a.text
  debugMacro : Byte.lf ∉ a.debugMacro

/-- The macro that selects the debug literals of the artifact. -/
def switch (a : Artifact) : Bytes :=
  if a.debugMacro.isEmpty then standardDebugMacro else a.debugMacro

theorem LineFeedFree.switch {a : Artifact} (ha : a.LineFeedFree) : Byte.lf ∉ a.switch := by
  unfold Artifact.switch
  split
  · decide
  · exact ha.debugMacro

/-- An artifact has a definition when its text can be cut, and then it is this one. -/
theorem definition_eq_ok_iff {a : Artifact} {source : Bytes} :
    a.definition = .ok source ↔
      ∃ release, releaseLiterals a.text a.chunkSize = .ok release ∧
        definitionText a.symbol a.switch (debugLiterals a.debugLines) release = source := by
  rw [definition, Outcome.bind_eq_ok_iff]
  constructor
  · rintro ⟨release, hrelease, h⟩
    exact ⟨release, hrelease, Except.ok.inj h⟩
  · rintro ⟨release, hrelease, rfl⟩
    exact ⟨release, hrelease, rfl⟩

/-- The empty literal of a branch without literals adds nothing to what it reads as. -/
theorem stringValue?_branchLines {escape? : UInt8 → Option UInt8} (literals : List Bytes) :
    stringValue? escape? (branchLines literals) = stringValue? escape? literals := by
  unfold branchLines
  split
  · rename_i hempty
    rw [List.isEmpty_iff.mp hempty]
    rfl
  · rfl

/-- The lines of both branches of an artifact hold a literal each. -/
theorem LineFeedFree.onOneLine {a : Artifact} (ha : a.LineFeedFree) {release : List Bytes}
    (hrelease : releaseLiterals a.text a.chunkSize = .ok release) :
    (∀ l ∈ debugLiterals a.debugLines, OnOneLine l) ∧ ∀ l ∈ release, OnOneLine l :=
  ⟨fun _ hl => onOneLine_of_mem_debugLiterals ha.debugLines hl,
    fun _ hl => onOneLine_of_mem_release ha.text hrelease hl⟩

/-- The release branch of a definition reads as the text of the artifact. -/
theorem stringValue?_branches_release {a : Artifact} (ha : a.LineFeedFree) {source : Bytes}
    (h : a.definition = .ok source) :
    stringValue? quotingEscape? (branches source).release = some a.text := by
  obtain ⟨release, hrelease, rfl⟩ := definition_eq_ok_iff.mp h
  obtain ⟨hd, hr⟩ := ha.onOneLine hrelease
  rw [branches_definitionText ha.symbol ha.switch hd hr, stringValue?_branchLines]
  exact stringValue?_release quotingEscape?_quotesBack hrelease

/-- **A definition can be read back.** An artifact without line feeds whose text can be cut into
chunks has a definition with one line between the branches and one after them; reading it line by
line gives the debug literals and the release literals; these read as the text, byte for byte; and
no artifact with another text has the same definition. -/
theorem definition_reads_back (a : Artifact) (ha : a.LineFeedFree)
    (hchunk : chunk a.text a.chunkSize ≠ .error .capacity) :
    ∃ source release, a.definition = .ok source ∧
      releaseLiterals a.text a.chunkSize = .ok release ∧
      (Bytes.pieces Byte.lf source).countP (elseMark.isPrefixOf ·) = 1 ∧
      (Bytes.pieces Byte.lf source).countP (endMark.isPrefixOf ·) = 1 ∧
      (branches source).debug = branchLines (debugLiterals a.debugLines) ∧
      (branches source).release = branchLines release ∧
      stringValue? quotingEscape? (branches source).release = some a.text ∧
      ∀ b : Artifact, b.LineFeedFree → b.definition = .ok source → b.text = a.text := by
  obtain ⟨chunks, hchunks⟩ : ∃ chunks, chunk a.text a.chunkSize = .ok chunks := by
    cases h : chunk a.text a.chunkSize with
    | error e => cases e; exact absurd h hchunk
    | ok chunks => exact ⟨chunks, rfl⟩
  have hrelease := releaseLiterals_eq_ok_iff.mpr ⟨chunks, hchunks, rfl⟩
  have hsource := definition_eq_ok_iff.mpr ⟨_, hrelease, rfl⟩
  obtain ⟨hd, hr⟩ := ha.onOneLine hrelease
  have hmarks := countP_marks ha.symbol ha.switch hd hr
  have hbranches := branches_definitionText ha.symbol ha.switch hd hr
  have htext := stringValue?_branches_release ha hsource
  refine ⟨_, _, hsource, hrelease, hmarks.1, hmarks.2, ?_, ?_, htext, fun b hb hbsource => ?_⟩
  · rw [hbranches]
  · rw [hbranches]
  · exact Option.some.inj ((stringValue?_branches_release hb hbsource).symm.trans htext)

/-- A text of quotes, backslashes and a marker, cut after every second byte, is read back from a
definition whose debug branch shows the marker too. -/
theorem definition_reads_back_marker :
    ∃ source,
      (⟨utf8 "k", [utf8 "#else \"x\"", []], utf8 "\"#else\\\"", 2, []⟩ : Artifact).definition
        = .ok source ∧
      stringValue? quotingEscape? (branches source).release = some (utf8 "\"#else\\\"") := by
  obtain ⟨source, release, hsource, -, -, -, -, -, htext, -⟩ :=
    definition_reads_back ⟨utf8 "k", [utf8 "#else \"x\"", []], utf8 "\"#else\\\"", 2, []⟩
      ⟨by decide, by decide, by decide, by decide⟩
      (fun h => absurd (chunk_eq_error_iff.mp h) (by decide))
  exact ⟨source, hsource, htext⟩

end KernelPack.Artifact
