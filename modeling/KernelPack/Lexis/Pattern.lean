/-!
# Patterns

A lexical rule recognises a stretch of text by a **pattern**. Patterns are tried by
backtracking: of the ways a pattern can match, the first in its own order of preference that
lets the rest of the rule match is taken. Repetition is over single characters only, as many as
possible (`many`) or as few as possible (`few`), so the search is structural: `Pattern.run`
recurses on the pattern and each repetition on the text.

A match is driven by what comes after it: `p.run k s` matches `p` at the place `s` and hands
each place reached, best first, to `k`, until `k` accepts one.
-/

namespace KernelPack.Lexis

/-- A place in a text: the character before it, if there is one, and the text after it. -/
structure Place where
  prev : Option Char
  rest : List Char
  deriving DecidableEq, Repr

/-- The shapes of text that rules look for. -/
inductive Pattern where
  /-- Nothing at all. -/
  | empty
  /-- One character of a class. -/
  | one (p : Char → Bool)
  /-- Any number of characters of a class, as many as possible. -/
  | many (p : Char → Bool)
  /-- Any number of characters of a class, as few as possible. -/
  | few (p : Char → Bool)
  /-- One pattern and then another. -/
  | seq (p q : Pattern)
  /-- One pattern or, failing that, another. -/
  | alt (p q : Pattern)
  /-- The beginning of the text or of a line. -/
  | lineStart
  /-- A place with a word character on one side only, for a given class of those. -/
  | edge (isWord : Char → Bool)
  /-- A place after a character of a class. -/
  | after (p : Char → Bool)
  /-- A place that is not after a character of a class. -/
  | notAfter (p : Char → Bool)
  /-- A place where a pattern would match. -/
  | ahead (p : Pattern)
  /-- A place where a pattern would not match. -/
  | notAhead (p : Pattern)

namespace Pattern

instance : Append Pattern := ⟨seq⟩

instance : Inhabited Pattern := ⟨empty⟩

/-! ### Derived patterns -/

/-- The given characters in order. -/
def text (s : String) : Pattern := s.toList.foldr (fun c p => one (· == c) ++ p) empty

/-- At least one character of a class, as many as possible. -/
def many1 (p : Char → Bool) : Pattern := one p ++ many p

/-- At least one character of a class, as few as possible. -/
def few1 (p : Char → Bool) : Pattern := one p ++ few p

/-- A pattern or nothing, preferring the pattern. -/
def opt (p : Pattern) : Pattern := alt p empty

/-- The first of several patterns that serves. -/
def choice : List Pattern → Pattern
  | [] => notAhead empty
  | [p] => p
  | p :: ps => alt p (choice ps)

/-- One of several words. -/
def words (ws : List String) : Pattern := choice (ws.map text)

/-- Exactly `n` characters of a class. -/
def exactly (p : Char → Bool) : Nat → Pattern
  | 0 => empty
  | n + 1 => one p ++ exactly p n

/-- Up to `n` characters of a class, as many as possible. -/
def upTo (p : Char → Bool) : Nat → Pattern
  | 0 => empty
  | n + 1 => opt (one p ++ upTo p n)

/-! ### Matching -/

/-- Hands on the place after the longest run of `p` first, then shorter ones. -/
def runMany {α : Type} (p : Char → Bool) (k : Place → Option α) :
    Option Char → List Char → Option α
  | prev, [] => k ⟨prev, []⟩
  | prev, c :: t =>
    if p c then
      match runMany p k (some c) t with
      | none => k ⟨prev, c :: t⟩
      | r => r
    else k ⟨prev, c :: t⟩

/-- Hands on the place after the shortest run of `p` first, then longer ones. -/
def runFew {α : Type} (p : Char → Bool) (k : Place → Option α) :
    Option Char → List Char → Option α
  | prev, [] => k ⟨prev, []⟩
  | prev, c :: t =>
    match k ⟨prev, c :: t⟩ with
    | none => if p c then runFew p k (some c) t else none
    | r => r

/-- Matches a pattern at a place and hands the places reached to `k`, best first. -/
def run : Pattern → {α : Type} → (Place → Option α) → Place → Option α
  | empty, _, k, s => k s
  | one p, _, k, s =>
    match s.rest with
    | [] => none
    | c :: t => if p c then k ⟨some c, t⟩ else none
  | many p, _, k, s => runMany p k s.prev s.rest
  | few p, _, k, s => runFew p k s.prev s.rest
  | seq p q, _, k, s => p.run (q.run k) s
  | alt p q, _, k, s =>
    match p.run k s with
    | none => q.run k s
    | r => r
  | lineStart, _, k, s => if s.prev = none ∨ s.prev = some '\n' then k s else none
  | edge isWord, _, k, s => if s.prev.any isWord != s.rest.head?.any isWord then k s else none
  | after p, _, k, s => if s.prev.any p then k s else none
  | notAfter p, _, k, s => if s.prev.any p then none else k s
  | ahead p, _, k, s => if (p.run some s).isSome then k s else none
  | notAhead p, _, k, s => if (p.run some s).isSome then none else k s

/-- Matches patterns one after another: the places where each of them ends. -/
def ends : List Pattern → Place → Option (List Place)
  | [], _ => some []
  | p :: ps, s => p.run (fun s' => (ends ps s').map (s' :: ·)) s

end Pattern

end KernelPack.Lexis
