import KernelPack.Proofs.Source.Blanks

/-!
# Compaction drops only spaces

Closing a text up around punctuation removes spaces and nothing else: the other bytes of the text
stay, in their order (`filter_compact`). So a text that does not end in a space keeps its last byte
(`getLast?_compact`).
-/

namespace KernelPack.Source

/-- Is the byte something else than a space? -/
def isInk (b : UInt8) : Bool := b != Byte.space

/-! ### One occurrence -/

/-- **What an occurrence can be**: the character, after at most one space and before at most
one. -/
theorem spaced?_eq_some {c : UInt8} {s new : Bytes} {n : Nat} (h : spaced? c s = some (n, new)) :
    new = [c] ∧ ∃ front back rest, s = front ++ c :: back ++ rest ∧
      n = (front ++ c :: back).length ∧ ∀ b ∈ front ++ back, b = Byte.space := by
  unfold spaced? at h
  split at h
  · rename_i a b d t
    split at h
    · rename_i ha
      obtain ⟨rfl, rfl⟩ := Prod.mk.inj (Option.some.inj h)
      subst ha
      split
      · rename_i hb
        exact ⟨rfl, [], [b], d :: t, rfl, rfl, by simp [hb]⟩
      · exact ⟨rfl, [], [], b :: d :: t, rfl, rfl, by simp⟩
    · split at h
      · rename_i hab
        obtain ⟨rfl, rfl⟩ := Prod.mk.inj (Option.some.inj h)
        obtain ⟨ha, rfl⟩ := hab
        split
        · rename_i hd
          exact ⟨rfl, [a], [d], t, rfl, rfl, by simp [ha, hd]⟩
        · exact ⟨rfl, [a], [], d :: t, rfl, rfl, by simp [ha]⟩
      · cases h
  · rename_i a b
    split at h
    · rename_i ha
      obtain ⟨rfl, rfl⟩ := Prod.mk.inj (Option.some.inj h)
      subst ha
      split
      · rename_i hb
        exact ⟨rfl, [], [b], [], rfl, rfl, by simp [hb]⟩
      · exact ⟨rfl, [], [], [b], rfl, rfl, by simp⟩
    · split at h
      · rename_i hab
        obtain ⟨rfl, rfl⟩ := Prod.mk.inj (Option.some.inj h)
        obtain ⟨ha, rfl⟩ := hab
        exact ⟨rfl, [a], [], [], rfl, rfl, by simp [ha]⟩
      · cases h
  · rename_i a
    split at h
    · rename_i ha
      obtain ⟨rfl, rfl⟩ := Prod.mk.inj (Option.some.inj h)
      subst ha
      exact ⟨rfl, [], [], [], rfl, rfl, by simp⟩
    · cases h
  · cases h

/-- Replacing an occurrence drops only spaces. -/
theorem filter_spaced? {c : UInt8} {s new : Bytes} {n : Nat} (h : spaced? c s = some (n, new)) :
    new.filter isInk = (s.take n).filter isInk := by
  obtain ⟨rfl, front, back, rest, rfl, rfl, hspaces⟩ := spaced?_eq_some h
  have hnone : ∀ {l : Bytes}, (∀ b ∈ l, b = Byte.space) → l.filter isInk = [] := fun hl =>
    List.filter_eq_nil_iff.mpr fun b hb => by simp [isInk, hl b hb]
  have hfront := hnone fun b hb => hspaces b (List.mem_append_left _ hb)
  have hback := hnone fun b hb => hspaces b (List.mem_append_right _ hb)
  rw [List.take_left, List.filter_append, hfront, List.nil_append, List.filter_cons,
    List.filter_cons, hback]
  rfl

/-! ### Passes -/

/-- A substitution that drops only spaces from each match drops only spaces. -/
theorem filter_substituteFrom {find : Bytes → Option (Nat × Bytes)}
    (hfind : ∀ s n new, find s = some (n, new) →
      0 < n ∧ new.filter isInk = (s.take n).filter isInk) (skip : Nat) (s : Bytes) :
    (Bytes.substituteFrom find skip s).filter isInk = (s.drop skip).filter isInk := by
  induction s generalizing skip with
  | nil => simp [Bytes.substituteFrom]
  | cons b t ih =>
    cases skip with
    | succ k => simpa [Bytes.substituteFrom] using ih k
    | zero =>
      rw [Bytes.substituteFrom, List.drop_zero]
      split
      · rw [← List.singleton_append, List.filter_append, ih, ← List.filter_append,
          List.drop_zero, List.singleton_append]
      · rename_i len new h
        obtain ⟨hpos, hink⟩ := hfind _ _ _ h
        obtain ⟨k, rfl⟩ : ∃ k, len = k + 1 := ⟨len - 1, by omega⟩
        rw [List.filter_append, hink, ih, ← List.filter_append, Nat.add_sub_cancel,
          List.take_succ_cons, List.cons_append, List.take_append_drop]

/-- Closing up drops only spaces. -/
theorem filter_closeUp (c : UInt8) (text : Bytes) :
    (closeUp c text).filter isInk = text.filter isInk :=
  filter_substituteFrom (fun _ _ _ h => ⟨(spaced?_sublist h).2, filter_spaced? h⟩) 0 text

/-- A pass drops only spaces. -/
theorem filter_pass (text : Bytes) : (pass text).filter isInk = text.filter isInk := by
  unfold pass
  generalize punctuation = cs
  induction cs generalizing text with
  | nil => rfl
  | cons c cs ih => rw [List.foldl_cons, ih, filter_closeUp]

/-! ### Compaction -/

theorem compact_of_pass_ne {text : Bytes} (h : pass text ≠ text) :
    compact text = ((compact (pass text)).1, (compact (pass text)).2 + 1) := by
  rw [compact, dif_neg h]

/-- Compaction only drops bytes. -/
theorem compact_sublist (text : Bytes) : (compact text).1.Sublist text := by
  fun_induction compact text with
  | case1 text h => exact List.Sublist.refl text
  | case2 text h hlt out passes hout ih =>
    rw [hout] at ih
    exact ih.trans (pass_sublist text)

/-- **Compaction drops only spaces.** -/
theorem filter_compact (text : Bytes) : (compact text).1.filter isInk = text.filter isInk := by
  fun_induction compact text with
  | case1 text h => rfl
  | case2 text h hlt out passes hout ih =>
    rw [hout] at ih
    rw [ih, filter_pass]

/-- What drops only spaces from a text keeps its last byte, if that is none. -/
theorem getLast?_of_sublist {out text : Bytes} {x : UInt8} (hsub : out.Sublist text)
    (hink : out.filter isInk = text.filter isInk) (hx : isInk x = true)
    (hlast : text.getLast? = some x) : out.getLast? = some x := by
  obtain ⟨front, rfl⟩ := List.getLast?_eq_some_iff.mp hlast
  have hlen : (front.filter isInk).length < (out.filter isInk).length := by
    rw [hink, List.filter_append, List.length_append]
    simp [hx]
  -- without its last byte the text has too little ink
  rcases List.eq_nil_or_concat out with rfl | ⟨out, y, rfl⟩
  · simp at hlen
  · rw [List.concat_eq_append] at hsub hlen ⊢
    by_cases hy : y = x
    · simp [hy]
    · have hfront : (out ++ [y]).Sublist front := by
        have hrev := hsub.reverse
        rw [List.reverse_concat, List.reverse_concat] at hrev
        cases hrev with
        | cons _ hrev =>
          rw [← List.reverse_concat] at hrev
          exact List.reverse_sublist.mp hrev
        | cons_cons _ hrev => exact absurd rfl hy
      exact absurd (hfront.filter isInk).length_le (Nat.not_le.mpr hlen)

/-- A text that does not end in a space keeps its last byte. -/
theorem getLast?_compact {text : Bytes} {x : UInt8} (hx : isInk x = true)
    (hlast : text.getLast? = some x) : (compact text).1.getLast? = some x :=
  getLast?_of_sublist (compact_sublist text) (filter_compact text) hx hlast

end KernelPack.Source
