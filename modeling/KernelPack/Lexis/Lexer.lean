import KernelPack.Lexis.Pattern

/-!
# Lexers

A **lexical grammar** has modes, each with rules tried in order; a lexer keeps a stack of modes
and looks at the rules of the topmost one. A rule cuts a stretch of text into parts, each of
which becomes one lexeme or is lexed again on its own from the start, and then changes the stack.

When no rule of a mode applies, the mode may name another one to enter; if that does not help
either, a line feed brings the lexer back to the start mode, and any other character becomes a
lexeme of its own. So every step takes at least one character (`Grammar.step_lt`), which is what
`Grammar.lex` recurses on.
-/

namespace KernelPack.Lexis

/-- What a lexeme is, as far as renaming cares. -/
inductive Kind where
  /-- An identifier. -/
  | identifier
  /-- Part of a string or character literal. -/
  | literal
  /-- Everything else: keywords, numbers, punctuation, comments, directives, blanks. -/
  | other
  deriving DecidableEq, Repr

/-- A classified stretch of text. -/
structure Lexeme where
  kind : Kind
  text : List Char
  deriving DecidableEq, Repr

/-- What becomes of a part of a match. -/
inductive Action where
  /-- It is one lexeme. -/
  | token (kind : Kind)
  /-- It is lexed on its own, from the start. -/
  | nested
  deriving DecidableEq, Repr

/-- What a rule does to the stack of modes. -/
inductive Move (μ : Type) where
  | stay
  /-- Leave the current mode. -/
  | leave
  /-- Enter a mode. -/
  | enter (mode : μ)
  /-- Enter the current mode once more. -/
  | again

/-- A rule: the parts to match one after another, and the change of mode. -/
structure Rule (μ : Type) where
  parts : List (Pattern × Action)
  move : Move μ

/-- Modes with their rules. -/
structure Grammar (μ : Type) where
  /-- The mode at the bottom of the stack. -/
  start : μ
  rules : μ → List (Rule μ)
  /-- The mode to enter where no rule of this one applies. -/
  otherwise : μ → Option μ

/-- A rule that matches, with the places where its parts end. -/
structure Match (μ : Type) where
  rule : Rule μ
  ends : List Place

/-- What a step yields: the parts taken, the stack, and the place to go on from. -/
structure Step (μ : Type) where
  parts : List (Action × List Char)
  stack : List μ
  next : Place

namespace Rule

variable {μ : Type}

/-- A rule whose whole match is one lexeme. -/
def token (kind : Kind) (p : Pattern) (move : Move μ := .stay) : Rule μ :=
  ⟨[(p, .token kind)], move⟩

/-- The match of a rule at a place, provided it takes something. -/
def match? (r : Rule μ) (s : Place) : Option (Match μ) :=
  match Pattern.ends (r.parts.map Prod.fst) s with
  | none => none
  | some ends =>
    if (ends.getLast?.getD s).rest.length < s.rest.length then some ⟨r, ends⟩ else none

end Rule

namespace Match

variable {μ : Type}

/-- The place where the match ends. -/
def last (m : Match μ) (s : Place) : Place := m.ends.getLast?.getD s

/-- The texts between consecutive places. -/
def cuts : Place → List Place → List (List Char)
  | _, [] => []
  | s, e :: es => s.rest.take (s.rest.length - e.rest.length) :: cuts e es

/-- The parts of the match with what becomes of them. -/
def parts (m : Match μ) (s : Place) : List (Action × List Char) :=
  (m.rule.parts.map Prod.snd).zip (cuts s m.ends)

end Match

namespace Grammar

variable {μ : Type} [DecidableEq μ] (G : Grammar μ)

/-- The topmost mode of a stack; the start mode lies below every stack. -/
def top (stack : List μ) : μ := stack.headD G.start

/-- The stack after a rule. -/
def moved (stack : List μ) : Move μ → List μ
  | .stay => stack
  | .leave => stack.tail
  | .enter m => m :: stack
  | .again => G.top stack :: stack

/-- The first rule of a mode that matches. -/
def firstMatch (mode : μ) (s : Place) : Option (Match μ) :=
  (G.rules mode).findSome? fun r => r.match? s

/-- The stack to work in, with the match found there: the mode on top, or the one it names for
want of a match. -/
def select (stack : List μ) (s : Place) : List μ × Option (Match μ) :=
  match G.firstMatch (G.top stack) s with
  | some m => (stack, some m)
  | none =>
    match G.otherwise (G.top stack) with
    | none => (stack, none)
    | some mode => (mode :: stack, G.firstMatch mode s)

/-- The step a match gives. -/
def apply (stack : List μ) (m : Match μ) (s : Place) : Step μ :=
  ⟨m.parts s, G.moved stack m.rule.move, m.last s⟩

/-- The step where nothing matches: one character by itself. -/
def skip (stack : List μ) (c : Char) (rest : List Char) : Step μ :=
  ⟨[(.token .other, [c])], stack, ⟨some c, rest⟩⟩

/-- One step at a place where the text goes on with `c` and `rest`. -/
def step (stack : List μ) (prev : Option Char) (c : Char) (rest : List Char) : Step μ :=
  let s : Place := ⟨prev, c :: rest⟩
  match G.select stack s with
  | (stack, some m) => G.apply stack m s
  | (stack, none) =>
    if c = '\n' ∧ G.top stack ≠ G.start then
      match G.select [] s with
      | (stack, some m) => G.apply stack m s
      | (stack, none) => skip stack c rest
    else skip stack c rest

/-! ### Every step takes something -/

omit [DecidableEq μ] in
/-- A rule that matches takes something. -/
theorem length_last_lt {r : Rule μ} {s : Place} {m : Match μ} (h : r.match? s = some m) :
    (m.last s).rest.length < s.rest.length := by
  unfold Rule.match? at h
  split at h
  · simp at h
  · split at h
    · rename_i hlt
      simp only [Option.some.injEq] at h
      subst h
      exact hlt
    · simp at h

omit [DecidableEq μ] in
/-- The first match of a mode takes something. -/
theorem firstMatch_lt {mode : μ} {s : Place} {m : Match μ} (h : G.firstMatch mode s = some m) :
    (m.last s).rest.length < s.rest.length := by
  obtain ⟨r, _, hr⟩ := List.exists_of_findSome?_eq_some h
  exact length_last_lt hr

omit [DecidableEq μ] in
/-- A selected match takes something. -/
theorem select_lt {stack : List μ} {s : Place} {m : Match μ} (h : (G.select stack s).2 = some m) :
    (m.last s).rest.length < s.rest.length := by
  unfold select at h
  split at h
  · rename_i m' hm
    simp only [Option.some.injEq] at h
    subst h
    exact G.firstMatch_lt hm
  · split at h
    · simp at h
    · exact G.firstMatch_lt h

/-- A step takes at least one character: lexing makes **progress**. -/
theorem step_lt (stack : List μ) (prev : Option Char) (c : Char) (rest : List Char) :
    (G.step stack prev c rest).next.rest.length < (c :: rest).length := by
  unfold step
  dsimp only
  split
  · rename_i stack' m h
    exact G.select_lt (s := ⟨prev, c :: rest⟩) (m := m) (by rw [h])
  · split
    · split
      · rename_i stack' m h
        exact G.select_lt (s := ⟨prev, c :: rest⟩) (m := m) (by rw [h])
      · simp [skip]
    · simp [skip]

/-! ### Lexing -/

/-- The lexemes from a place on. The last `reserve` characters belong to the text for the
patterns to see, but no step begins there. A part to be lexed on its own is shorter than the
text from the place on; one that is not would never be finished, and is kept as it stands. -/
def lex (reserve : Nat) (stack : List μ) (s : Place) : List Lexeme :=
  match _h : s.rest with
  | [] => []
  | c :: rest =>
    if (c :: rest).length ≤ reserve then []
    else
      let st := G.step stack s.prev c rest
      let here := st.parts.flatMap fun part =>
        match part.1 with
        | .token kind => [⟨kind, part.2⟩]
        | .nested =>
          if part.2.length < s.rest.length then lex 0 [] ⟨none, part.2⟩ else [⟨.other, part.2⟩]
      here ++ lex reserve st.stack st.next
termination_by s.rest.length
decreasing_by
  · assumption
  · rw [_h]; exact G.step_lt ..

end Grammar

end KernelPack.Lexis
