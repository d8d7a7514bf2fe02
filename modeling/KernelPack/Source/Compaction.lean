import KernelPack.Text.Blank

/-!
# Compaction

White space carries meaning in a kernel only between words. `normalize` joins the lines of a
source by single spaces, so that neighbouring lines never fuse, and collapses every run of
spaces and tabs. `compact` then closes the text up around **punctuation**: one *pass* removes, for
each punctuation character in turn, at most one space on either side of each occurrence, and
passes repeat until one changes nothing. A pass only ever drops bytes (`pass_sublist`), which is
why the repetition ends.
-/

namespace KernelPack.Source

/-! ### Joining the lines -/

/-- The run of spaces and tabs that begins here, to be replaced by one space. -/
def blankRun? (s : Bytes) : Option (Nat × Bytes) :=
  let n := (s.takeWhile Byte.isBlank).length
  if n = 0 then none else some (n, [Byte.space])

/-- The lines as one line: blank runs collapse to one space and the ends are trimmed of white
space. -/
def normalize (lines : List Bytes) : Bytes :=
  Bytes.trim (Bytes.substitute blankRun? (Bytes.joinWith [Byte.space] lines))

/-! ### Closing up around punctuation -/

/-- The characters beside which a space carries no meaning, in the order a pass takes them. -/
def punctuation : Bytes := utf8 "\x7b\x7d[](),;+-*/%=><"

/-- An occurrence of `c` with the space before it and the space after it, where there is one. -/
def spaced? (c : UInt8) : Bytes → Option (Nat × Bytes)
  | a :: b :: d :: _ =>
    if a = c then some (if b = Byte.space then 2 else 1, [c])
    else if a = Byte.space ∧ b = c then some (if d = Byte.space then 3 else 2, [c])
    else none
  | [a, b] =>
    if a = c then some (if b = Byte.space then 2 else 1, [c])
    else if a = Byte.space ∧ b = c then some (2, [c])
    else none
  | [a] => if a = c then some (1, [c]) else none
  | [] => none

/-- Removes at most one space on either side of each `c`. -/
def closeUp (c : UInt8) (text : Bytes) : Bytes := Bytes.substitute (spaced? c) text

/-- One pass over all punctuation. -/
def pass (text : Bytes) : Bytes := punctuation.foldl (fun t c => closeUp c t) text

/-! ### A pass only drops bytes -/

/-- What replaces an occurrence is part of what stood there. -/
theorem spaced?_sublist {c : UInt8} {s new : Bytes} {n : Nat} (h : spaced? c s = some (n, new)) :
    new.Sublist (s.take n) ∧ 0 < n := by
  unfold spaced? at h
  split at h
  · split at h
    · rename_i hac
      simp only [Option.some.injEq, Prod.mk.injEq] at h
      obtain ⟨rfl, rfl⟩ := h
      subst hac
      split <;> simp
    · split at h
      · rename_i hab
        simp only [Option.some.injEq, Prod.mk.injEq] at h
        obtain ⟨rfl, rfl⟩ := h
        obtain ⟨rfl, rfl⟩ := hab
        split <;> simp
      · simp at h
  · split at h
    · rename_i hac
      simp only [Option.some.injEq, Prod.mk.injEq] at h
      obtain ⟨rfl, rfl⟩ := h
      subst hac
      split <;> simp
    · split at h
      · rename_i hab
        simp only [Option.some.injEq, Prod.mk.injEq] at h
        obtain ⟨rfl, rfl⟩ := h
        obtain ⟨rfl, rfl⟩ := hab
        simp
      · simp at h
  · split at h
    · rename_i hac
      simp only [Option.some.injEq, Prod.mk.injEq] at h
      obtain ⟨rfl, rfl⟩ := h
      subst hac
      simp
    · simp at h
  · simp at h

/-- A substitution that puts part of each match in its place only drops bytes. -/
theorem substituteFrom_sublist {find : Bytes → Option (Nat × Bytes)}
    (hfind : ∀ s n new, find s = some (n, new) → new.Sublist (s.take n) ∧ 0 < n)
    (skip : Nat) (s : Bytes) : (Bytes.substituteFrom find skip s).Sublist (s.drop skip) := by
  induction s generalizing skip with
  | nil => simp [Bytes.substituteFrom]
  | cons b t ih =>
    cases skip with
    | succ k => simpa [Bytes.substituteFrom] using ih k
    | zero =>
      rw [Bytes.substituteFrom, List.drop_zero]
      split
      · exact (ih 0).cons_cons b
      · rename_i len new h
        obtain ⟨hsub, hpos⟩ := hfind _ _ _ h
        obtain ⟨k, rfl⟩ : ∃ k, len = k + 1 := ⟨len - 1, by omega⟩
        have hsplit : b :: t = (b :: t).take (k + 1) ++ t.drop k := by
          simp
        rw [hsplit]
        exact hsub.append (ih k)

/-- Closing up only drops bytes. -/
theorem closeUp_sublist (c : UInt8) (text : Bytes) : (closeUp c text).Sublist text := by
  simpa [closeUp, Bytes.substitute] using
    substituteFrom_sublist (fun _ _ _ h => spaced?_sublist h) 0 text

/-- A pass only drops bytes. -/
theorem pass_sublist (text : Bytes) : (pass text).Sublist text := by
  unfold pass
  generalize punctuation = cs
  induction cs generalizing text with
  | nil => exact List.Sublist.refl text
  | cons c cs ih => exact (ih (closeUp c text)).trans (closeUp_sublist c text)

/-- A pass that changes the text shortens it. -/
theorem length_pass_lt {text : Bytes} (h : pass text ≠ text) :
    (pass text).length < text.length :=
  Nat.lt_of_le_of_ne (pass_sublist text).length_le fun he =>
    h ((pass_sublist text).eq_of_length he)

/-- Passes until one changes nothing: the text reached, and the number of passes made, the last
one included. -/
def compact (text : Bytes) : Bytes × Nat :=
  if h : pass text = text then (text, 1)
  else
    have := length_pass_lt h
    let (out, passes) := compact (pass text)
    (out, passes + 1)
termination_by text.length

end KernelPack.Source
