import KernelPack.Proofs.Lexis.Coverage

/-!
# Texts in two versions

A text in two versions is a list of **pieces**: characters that both versions have, and words of
which one version has one and the other another. The words stand apart from what could run into
them (`Apart`). At places **beside** each other the same pieces follow, and what precedes looks
alike (`Beside`); `Beside.induction` goes through the pieces that follow.
-/

namespace KernelPack.Lexis

open KernelGrammar

/-! ### Word characters of ASCII -/

/-- An ASCII letter or digit, or the underscore. -/
def isLatin (c : Char) : Bool := c.isAlphanum || c == '_'

theorem toNat_lt_of_isLatin {c : Char} (h : isLatin c = true) : c.toNat < 128 := by
  have hle : c.toNat ≤ 122 := by
    delta isLatin Char.isAlphanum Char.isAlpha Char.isUpper Char.isLower Char.isDigit at h
    simp only [Bool.or_eq_true, Bool.and_eq_true, decide_eq_true_eq, beq_iff_eq] at h
    rcases h with ((⟨-, h⟩ | ⟨-, h⟩) | ⟨-, h⟩) | rfl
    · exact Nat.le_trans (show c.toNat ≤ 90 from h) (by decide)
    · exact h
    · exact Nat.le_trans (show c.toNat ≤ 57 from h) (by decide)
    · decide
  omega

theorem isLatin_of_isNameStart {c : Char} (hc : isNameStart c = true) : isLatin c = true := by
  simp only [isNameStart, Bool.or_eq_true, beq_iff_eq] at hc
  rcases hc with hc | rfl
  · simp [isLatin, Char.isAlphanum, hc]
  · rfl

/-- What holds of all ASCII characters can be checked one by one. -/
theorem forall_ascii {P : Char → Prop} (h : ∀ n < 128, P (Char.ofNat n)) {c : Char}
    (hc : c.toNat < 128) : P c := by
  have hn := h c.toNat hc
  rwa [Char.ofNat_toNat] at hn

/-- How a class treats the ASCII word characters. -/
theorem forall_isLatin {p : Char → Bool} {v : Bool}
    (h : ∀ n < 128, isLatin (Char.ofNat n) = true → p (Char.ofNat n) = v) :
    ∀ c, isLatin c = true → p c = v :=
  fun _ hc => forall_ascii (P := fun c => isLatin c = true → p c = v) h (toNat_lt_of_isLatin hc) hc

/-- How a class treats the characters that begin an identifier. -/
theorem forall_isNameStart {p : Char → Bool} {v : Bool}
    (h : ∀ n < 128, isNameStart (Char.ofNat n) = true → p (Char.ofNat n) = v) :
    ∀ c, isNameStart c = true → p c = v :=
  fun _ hc => forall_ascii (P := fun c => isNameStart c = true → p c = v) h
    (toNat_lt_of_isLatin (isLatin_of_isNameStart hc)) hc

theorem isWord_of_isLatin : ∀ c, isLatin c = true → Text.isWord c = true :=
  forall_isLatin (by decide)

/-- The word is an identifier of ASCII characters. -/
structure IsName (w : List Char) : Prop where
  exists_start : ∃ c t, w = c :: t ∧ isNameStart c = true
  isLatin_of_mem : ∀ c ∈ w, isLatin c = true

/-! ### Pieces -/

/-- A piece of a text in two versions: a character that both have, or a word in the place of
another. -/
inductive Piece where
  | kept (c : Char)
  | swapped (w w' : List Char)

namespace Piece

/-- The piece in the first version. -/
def old : Piece → List Char
  | kept c => [c]
  | swapped w _ => w

/-- The piece in the second version. -/
def new : Piece → List Char
  | kept c => [c]
  | swapped _ w' => w'

end Piece

/-- The first version. -/
def olds (ps : List Piece) : List Char := ps.flatMap Piece.old

/-- The second version. -/
def news (ps : List Piece) : List Char := ps.flatMap Piece.new

@[simp] theorem olds_nil : olds [] = [] := rfl

@[simp] theorem news_nil : news [] = [] := rfl

@[simp] theorem olds_kept (c : Char) (ps : List Piece) :
    olds (.kept c :: ps) = c :: olds ps := rfl

@[simp] theorem news_kept (c : Char) (ps : List Piece) :
    news (.kept c :: ps) = c :: news ps := rfl

@[simp] theorem olds_swapped (w w' : List Char) (ps : List Piece) :
    olds (.swapped w w' :: ps) = w ++ olds ps := rfl

@[simp] theorem news_swapped (w w' : List Char) (ps : List Piece) :
    news (.swapped w w' :: ps) = w' ++ news ps := rfl

@[simp] theorem olds_append (ps qs : List Piece) : olds (ps ++ qs) = olds ps ++ olds qs :=
  List.flatMap_append

@[simp] theorem news_append (ps qs : List Piece) : news (ps ++ qs) = news ps ++ news qs :=
  List.flatMap_append

@[simp] theorem olds_map_kept (cs : List Char) : olds (cs.map .kept) = cs := by
  induction cs with
  | nil => rfl
  | cons c cs ih => rw [List.map_cons, olds_kept, ih]

@[simp] theorem news_map_kept (cs : List Char) : news (cs.map .kept) = cs := by
  induction cs with
  | nil => rfl
  | cons c cs ih => rw [List.map_cons, news_kept, ih]

/-- No condition on the pieces. -/
def Anything (_ : List Piece) : Prop := True

/-- The pieces do not begin with a swapped word. -/
def StartsKept : List Piece → Prop
  | .swapped _ _ :: _ => False
  | _ => True

/-- The pieces do not go on with a word. -/
def EndsWord : List Piece → Prop
  | [] => True
  | .kept c :: _ => Text.isWord c = false
  | .swapped _ _ :: _ => False

/-- A swapped word does not stand right after the character: it could be taken together with it. -/
def guards (c : Char) : Bool := Text.isWord c || c == '\'' || c == '\\' || c == '#'

/-- **Every swapped word stands apart** from other words and from the marks before it. -/
def Apart : List Piece → Prop
  | [] => True
  | .kept c :: ps => (guards c = true → StartsKept ps) ∧ Apart ps
  | .swapped w w' :: ps => IsName w ∧ IsName w' ∧ EndsWord ps ∧ Apart ps

theorem EndsWord.startsKept {ps : List Piece} (h : EndsWord ps) : StartsKept ps := by
  match ps, h with
  | [], _ => trivial
  | .kept _ :: _, _ => trivial

theorem Apart.tail {p : Piece} {ps : List Piece} (h : Apart (p :: ps)) : Apart ps := by
  cases p with
  | kept c => exact h.2
  | swapped w w' => exact h.2.2.2

theorem Apart.of_suffix {ps qs : List Piece} (h : Apart ps) (hs : qs <:+ ps) : Apart qs := by
  induction ps with
  | nil =>
    obtain rfl := List.suffix_nil.mp hs
    exact h
  | cons p ps ih =>
    obtain rfl | hs := List.suffix_cons_iff.mp hs
    · exact h
    · exact ih h.tail hs

theorem StartsKept.of_append {ps qs : List Piece} (h : StartsKept (ps ++ qs)) :
    StartsKept ps := by
  match ps, h with
  | [], _ => trivial
  | .kept _ :: _, _ => trivial

theorem EndsWord.of_append {ps qs : List Piece} (h : EndsWord (ps ++ qs)) : EndsWord ps := by
  match ps, h with
  | [], _ => trivial
  | .kept _ :: _, h => exact h

theorem Apart.of_append {ps qs : List Piece} (h : Apart (ps ++ qs)) : Apart ps := by
  induction ps with
  | nil => trivial
  | cons p ps ih =>
    cases p with
    | kept c => exact ⟨fun hc => (h.1 hc).of_append, ih h.2⟩
    | swapped w w' => exact ⟨h.1, h.2.1, h.2.2.1.of_append, ih h.2.2.2⟩

/-! ### Places beside each other -/

/-- What precedes is the same, or a word on either side. -/
def SamePrev (a b : Option Char) : Prop := a = b ∨ a.any isLatin = true ∧ b.any isLatin = true

/-- **The places are beside each other**: the same pieces follow, and what precedes looks alike. -/
structure Beside (ps : List Piece) (s s' : Place) : Prop where
  rest_old : s.rest = olds ps
  rest_new : s'.rest = news ps
  prev : SamePrev s.prev s'.prev
  apart : Apart ps
  guarded : ∀ c ∈ s.prev, guards c = true → StartsKept ps

/-- A class that treats all word characters of ASCII alike sees the same before both places. -/
theorem SamePrev.any_eq {a b : Option Char} (h : SamePrev a b) {q : Char → Bool} {v : Bool}
    (hq : ∀ c, isLatin c = true → q c = v) : a.any q = b.any q := by
  obtain rfl | ⟨ha, hb⟩ := h
  · rfl
  · match a, b, ha, hb with
    | some x, some y, hx, hy => rw [Option.any_some, Option.any_some, hq x hx, hq y hy]

/-- After a character that both versions have. -/
theorem Beside.kept {c : Char} {ps : List Piece} (h : Apart (.kept c :: ps)) :
    Beside ps ⟨some c, olds ps⟩ ⟨some c, news ps⟩ where
  rest_old := rfl
  rest_new := rfl
  prev := Or.inl rfl
  apart := h.2
  guarded := fun _ hd => Option.some.inj hd ▸ h.1

/-- After a swapped word. -/
theorem Beside.swapped {w w' : List Char} {ps : List Piece} (h : Apart (.swapped w w' :: ps))
    {c d : Char} (hc : isLatin c = true) (hd : isLatin d = true) :
    Beside ps ⟨some c, olds ps⟩ ⟨some d, news ps⟩ where
  rest_old := rfl
  rest_new := rfl
  prev := Or.inr ⟨hc, hd⟩
  apart := h.tail
  guarded := fun _ _ _ => h.2.2.1.startsKept

/-- Going through places beside each other piece by piece. -/
@[elab_as_elim]
theorem Beside.induction {motive : (ps : List Piece) → (s s' : Place) → Beside ps s s' → Prop}
    (nil : ∀ prev prev' hb, motive [] ⟨prev, []⟩ ⟨prev', []⟩ hb)
    (kept : ∀ x ps prev prev' hb (hnext : Beside ps ⟨some x, olds ps⟩ ⟨some x, news ps⟩),
      motive ps ⟨some x, olds ps⟩ ⟨some x, news ps⟩ hnext →
      motive (.kept x :: ps) ⟨prev, x :: olds ps⟩ ⟨prev', x :: news ps⟩ hb)
    (swapped : ∀ x w y w' ps prev prev', isNameStart x = true → isNameStart y = true →
      (∀ z ∈ x :: w, isLatin z = true) → (∀ z ∈ y :: w', isLatin z = true) →
      ∀ hb (hnext : Beside ps ⟨some (w.getLastD x), olds ps⟩ ⟨some (w'.getLastD y), news ps⟩),
      motive ps ⟨some (w.getLastD x), olds ps⟩ ⟨some (w'.getLastD y), news ps⟩ hnext →
      motive (.swapped (x :: w) (y :: w') :: ps) ⟨prev, x :: (w ++ olds ps)⟩
        ⟨prev', y :: (w' ++ news ps)⟩ hb)
    {ps : List Piece} {s s' : Place} (h : Beside ps s s') : motive ps s s' h := by
  induction ps generalizing s s' with
  | nil =>
    obtain ⟨prev, rest⟩ := s
    obtain ⟨prev', rest'⟩ := s'
    obtain rfl : rest = [] := h.rest_old
    obtain rfl : rest' = [] := h.rest_new
    exact nil prev prev' h
  | cons piece ps ih =>
    obtain ⟨prev, rest⟩ := s
    obtain ⟨prev', rest'⟩ := s'
    cases piece with
    | kept x =>
      obtain rfl : rest = x :: olds ps := h.rest_old
      obtain rfl : rest' = x :: news ps := h.rest_new
      exact kept x ps prev prev' h (.kept h.apart) (ih (.kept h.apart))
    | swapped v v' =>
      obtain ⟨⟨⟨x, w, rfl, hx⟩, hw⟩, ⟨⟨y, w', rfl, hy⟩, hw'⟩, -⟩ := id h.apart
      obtain rfl : rest = x :: (w ++ olds ps) := h.rest_old
      obtain rfl : rest' = y :: (w' ++ news ps) := h.rest_new
      have hnext : Beside ps ⟨some (w.getLastD x), olds ps⟩ ⟨some (w'.getLastD y), news ps⟩ :=
        .swapped h.apart (hw _ List.getLastD_mem_cons) (hw' _ List.getLastD_mem_cons)
      exact swapped x w y w' ps prev prev' hx hy hw hw' h hnext (ih hnext)

end KernelPack.Lexis
