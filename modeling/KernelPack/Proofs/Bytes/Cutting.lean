import KernelPack.Bytes

/-!
# Pieces, lines and words

Cutting a byte string at a class of separators is the standard `List.splitOnP`
(`piecesBy_eq_splitOnP`), so it obeys the laws of that function. On top of them this module has
what the readers of texts need:

* **Lines one by one** (`line_induction`): a text is a line, or a line in front of a text. It has
  one line more than separators (`length_pieces`).
* **Terminated lines** (`terminated`): lines without a separator, each followed by one, are cut
  back into the lines they were written from (`pieces_terminated`).
* **Whole words** (`WordAt`): a word stands at a place of a text when no word byte touches it on
  either side. A whole word splits the words of the text into those before and those after it
  (`words_of_wordAt`), and the words of a text are exactly its whole words (`mem_words_iff`).
-/

namespace KernelPack.Bytes

/-! ### Pieces -/

/-- Cutting at separators is the standard splitting of lists. -/
theorem piecesBy_eq_splitOnP (separates : UInt8 → Bool) (b : Bytes) :
    piecesBy separates b = b.splitOnP separates := by
  induction b with
  | nil => rfl
  | cons x t ih =>
    rw [List.splitOnP_cons_eq_if_modifyHead, ← ih]
    simp only [piecesBy, List.foldr_cons]
    split <;> rfl

/-- At a separator the string falls apart into the pieces on its left and those on its right. -/
theorem piecesBy_append_cons {separates : UInt8 → Bool} {sep : UInt8} (hsep : separates sep)
    (s t : Bytes) :
    piecesBy separates (s ++ sep :: t) = piecesBy separates s ++ piecesBy separates t := by
  simp only [piecesBy_eq_splitOnP, List.splitOnP_append_cons s t hsep]

/-- A string without separators is its only piece. -/
theorem piecesBy_eq_singleton {separates : UInt8 → Bool} {b : Bytes}
    (h : ∀ x ∈ b, separates x = false) : piecesBy separates b = [b] := by
  rw [piecesBy_eq_splitOnP, List.splitOnP_eq_singleton h]

/-- Every string is a first piece, followed by nothing or by a separator and the rest. -/
theorem exists_first_piece (separates : UInt8 → Bool) (b : Bytes) :
    ∃ p, (∀ x ∈ p, separates x = false) ∧
      (b = p ∨ ∃ sep t, separates sep = true ∧ b = p ++ sep :: t) := by
  refine ⟨b.takeWhile (!separates ·), fun x hx => ?_, ?_⟩
  · simpa using List.all_eq_true.mp (List.all_takeWhile (p := (!separates ·)) (l := b)) x hx
  · have hsplit := List.takeWhile_append_dropWhile (p := (!separates ·)) (l := b)
    cases hrest : b.dropWhile (!separates ·) with
    | nil =>
      rw [hrest, List.append_nil] at hsplit
      exact Or.inl hsplit.symm
    | cons sep t =>
      have hsep := List.head?_dropWhile_not (!separates ·) b
      rw [hrest] at hsep
      exact Or.inr ⟨sep, t, by simpa using hsep, by rw [← hrest, hsplit]⟩

/-- A piece of a string holds no separator, and a separator or an end of the string is next to
it on either side. -/
theorem exists_of_mem_piecesBy {separates : UInt8 → Bool} {b p : Bytes}
    (h : p ∈ piecesBy separates b) :
    (∀ x ∈ p, separates x = false) ∧ ∃ s t, b = s ++ p ++ t ∧
      (∀ x ∈ s.getLast?, separates x = true) ∧ (∀ x ∈ t.head?, separates x = true) := by
  induction hn : b.length using Nat.strongRecOn generalizing b with
  | ind n ih =>
    obtain ⟨q, hq, rfl | ⟨sep, t, hsep, rfl⟩⟩ := exists_first_piece separates b
    · rw [piecesBy_eq_singleton hq, List.mem_singleton] at h
      subst h
      exact ⟨hq, [], [], by simp⟩
    · rw [piecesBy_append_cons hsep, piecesBy_eq_singleton hq, List.mem_append,
        List.mem_singleton] at h
      rcases h with rfl | h
      · exact ⟨hq, [], sep :: t, by simp [hsep]⟩
      · have hlt : t.length < n := by
          rw [← hn, List.length_append, List.length_cons]
          omega
        obtain ⟨hp, s, u, rfl, hs, hu⟩ := ih t.length hlt h rfl
        refine ⟨hp, q ++ sep :: s, u, by simp, fun x hx => ?_, hu⟩
        cases s with
        | nil => simp_all
        | cons y s => exact hs x (by simpa using hx)

/-! ### Lines -/

theorem pieces_eq_singleton {sep : UInt8} {l : Bytes} (h : sep ∉ l) : pieces sep l = [l] :=
  piecesBy_eq_singleton fun _ hx => beq_eq_false_iff_ne.mpr fun he => h (he ▸ hx)

theorem pieces_append_cons {sep : UInt8} {l : Bytes} (h : sep ∉ l) (t : Bytes) :
    pieces sep (l ++ sep :: t) = l :: pieces sep t := by
  have hcut : pieces sep (l ++ sep :: t) = pieces sep l ++ pieces sep t :=
    piecesBy_append_cons (by simp) l t
  rw [hcut, pieces_eq_singleton h, List.singleton_append]

theorem pieces_cons_of_ne {sep b : UInt8} (h : b ≠ sep) (t : Bytes) :
    pieces sep (b :: t) = (pieces sep t).modifyHead (b :: ·) := by
  rw [pieces, pieces, piecesBy_eq_splitOnP, piecesBy_eq_splitOnP,
    List.splitOnP_cons_eq_if_modifyHead, if_neg (by simpa using h)]

/-- **Induction over the lines of a text**: a text is a line, or a line in front of a text. -/
theorem line_induction (sep : UInt8) {motive : Bytes → Prop}
    (last : ∀ l, sep ∉ l → motive l)
    (line : ∀ l t, sep ∉ l → motive t → motive (l ++ sep :: t)) (b : Bytes) : motive b := by
  induction hn : b.length using Nat.strongRecOn generalizing b with
  | ind n ih =>
    obtain ⟨l, hl, hb⟩ := exists_first_piece (· == sep) b
    have hl : sep ∉ l := fun hmem => by simpa using hl sep hmem
    obtain rfl | ⟨x, t, hx, rfl⟩ := hb
    · exact last b hl
    · rw [List.length_append, List.length_cons] at hn
      exact beq_iff_eq.mp hx ▸ line l t hl (ih t.length (by omega) t rfl)

/-- A text has one line more than separators. -/
theorem length_pieces (sep : UInt8) (b : Bytes) : (pieces sep b).length = b.count sep + 1 := by
  induction b using line_induction sep with
  | last l hl => rw [pieces_eq_singleton hl, List.count_eq_zero_of_not_mem hl]; rfl
  | line l t hl ih =>
    rw [pieces_append_cons hl, List.length_cons, ih, List.count_append,
      List.count_eq_zero_of_not_mem hl, List.count_cons_self, Nat.zero_add]

theorem joinWith_cons (sep : UInt8) (l : Bytes) (ls : List Bytes) :
    joinWith [sep] (l :: ls) = l ++ ls.flatMap (sep :: ·) := by
  induction ls generalizing l with
  | nil => simp [joinWith]
  | cons m ls ih =>
    have h := ih m
    simp only [joinWith, List.intersperse_cons_cons, List.flatten_cons] at h ⊢
    rw [h, List.flatMap_cons, List.singleton_append, List.cons_append]

/-- Joined lines hold what the lines hold, and separators. -/
theorem mem_joinWith {sep x : UInt8} {lines : List Bytes} (h : x ∈ joinWith [sep] lines) :
    x = sep ∨ ∃ l ∈ lines, x ∈ l := by
  cases lines with
  | nil => exact absurd h List.not_mem_nil
  | cons l ls =>
    rw [joinWith_cons, List.mem_append, List.mem_flatMap] at h
    obtain h | ⟨m, hm, h⟩ := h
    · exact Or.inr ⟨l, List.mem_cons_self, h⟩
    · exact (List.mem_cons.mp h).imp_right fun h => ⟨m, List.mem_cons_of_mem l hm, h⟩

/-- The lines, each followed by the terminator. -/
def terminated (sep : UInt8) (lines : List Bytes) : Bytes := lines.flatMap (· ++ [sep])

/-- Lines joined by a separator, and one more at the end, are terminated lines. -/
theorem joinWith_append_sep {sep : UInt8} {lines : List Bytes} (h : lines ≠ []) :
    joinWith [sep] lines ++ [sep] = terminated sep lines := by
  induction lines with
  | nil => exact absurd rfl h
  | cons l ls ih =>
    cases ls with
    | nil => simp [joinWith, terminated]
    | cons m ls =>
      have hrest := ih (by simp)
      simp only [joinWith, terminated, List.intersperse_cons_cons, List.flatten_cons,
        List.flatMap_cons, List.append_assoc] at hrest ⊢
      rw [hrest]

/-- Joining terminates all lines but the last. -/
theorem joinWith_concat (sep : UInt8) (lines : List Bytes) (l : Bytes) :
    joinWith [sep] (lines ++ [l]) = terminated sep lines ++ l := by
  have h : joinWith [sep] (lines ++ [l]) ++ [sep] = terminated sep lines ++ l ++ [sep] := by
    rw [joinWith_append_sep (by simp)]
    simp [terminated]
  exact List.append_cancel_right h

/-- Terminated lines in front of a text are cut off as they are. -/
theorem pieces_terminated_append {sep : UInt8} {lines : List Bytes}
    (h : ∀ l ∈ lines, sep ∉ l) (rest : Bytes) :
    pieces sep (terminated sep lines ++ rest) = lines ++ pieces sep rest := by
  induction lines with
  | nil => rfl
  | cons l ls ih =>
    have hfirst : terminated sep (l :: ls) ++ rest = l ++ sep :: (terminated sep ls ++ rest) := by
      simp [terminated]
    rw [hfirst, pieces_append_cons (h l List.mem_cons_self),
      ih fun m hm => h m (List.mem_cons_of_mem _ hm), List.cons_append]

/-- **Terminated lines read back.** What is left after the last terminator is an empty piece. -/
theorem pieces_terminated {sep : UInt8} {lines : List Bytes} (h : ∀ l ∈ lines, sep ∉ l) :
    pieces sep (terminated sep lines) = lines ++ [[]] := by
  rw [← List.append_nil (terminated sep lines), pieces_terminated_append h]
  rfl

/-- No piece holds the separator. -/
theorem not_mem_of_mem_pieces {sep : UInt8} {b p : Bytes} (h : p ∈ pieces sep b) : sep ∉ p :=
  fun hsep => by simpa using (exists_of_mem_piecesBy h).1 sep hsep

/-! ### Endings -/

/-- Dropping a tail leaves a beginning. -/
theorem dropTrailing_isPrefix (p : UInt8 → Bool) (b : Bytes) : dropTrailing p b <+: b := by
  have h := List.reverse_prefix.mpr (List.dropWhile_suffix p (l := b.reverse))
  rwa [List.reverse_reverse] at h

/-- Dropping a tail leaves only bytes that were there. -/
theorem mem_of_mem_dropTrailing {p : UInt8 → Bool} {b : Bytes} {x : UInt8}
    (h : x ∈ dropTrailing p b) : x ∈ b := (dropTrailing_isPrefix p b).subset h

/-- What is left does not end in the dropped class. -/
theorem getLast?_dropTrailing {p : UInt8 → Bool} {b : Bytes} :
    ∀ x ∈ (dropTrailing p b).getLast?, p x = false := by
  intro x hx
  have h := List.head?_dropWhile_not p b.reverse
  rw [dropTrailing, List.getLast?_reverse, Option.mem_def] at hx
  rwa [hx] at h

/-- Dropping a tail, seen from the left: a byte goes if nothing is left after it. -/
theorem dropTrailing_cons (p : UInt8 → Bool) (b : UInt8) (l : Bytes) :
    dropTrailing p (b :: l) =
      if p b = true ∧ dropTrailing p l = [] then [] else b :: dropTrailing p l := by
  simp only [dropTrailing, List.reverse_cons, List.dropWhile_append, List.reverse_eq_nil_iff]
  cases h : l.reverse.dropWhile p with
  | nil => cases hb : p b <;> simp [hb]
  | cons x r => simp

theorem stripEnding_concat (x : UInt8) (b : Bytes) : stripEnding [x] (b ++ [x]) = b := by
  have hsuffix : [x].isSuffixOf (b ++ [x]) = true :=
    List.isSuffixOf_iff_suffix.mpr (List.suffix_append b [x])
  rw [stripEnding, if_pos hsuffix]
  simp

theorem stripEnding_of_getLast?_ne {x : UInt8} {b : Bytes} (h : b.getLast? ≠ some x) :
    stripEnding [x] b = b := by
  have hsuffix : ¬ [x].isSuffixOf b = true := by
    rw [List.isSuffixOf_iff_suffix]
    rintro ⟨s, rfl⟩
    exact h (by simp)
  rw [stripEnding, if_neg hsuffix]

/-- The ending of a string is that of its last part, if this is not empty. -/
theorem stripEnding_append {x : UInt8} (s : Bytes) {t : Bytes} (ht : t ≠ []) :
    stripEnding [x] (s ++ t) = s ++ stripEnding [x] t := by
  obtain ⟨t, y, rfl⟩ := (List.eq_nil_or_concat t).resolve_left ht
  rw [List.concat_eq_append]
  by_cases hy : y = x
  · rw [hy, ← List.append_assoc, stripEnding_concat, stripEnding_concat]
  · rw [stripEnding_of_getLast?_ne (b := t ++ [y]) (by simpa using hy),
      stripEnding_of_getLast?_ne (by simpa using hy)]

/-! ### Whole words -/

/-- The word `w` stands in the text right after `s`, and no word byte touches it: a **whole
word**, bounded by other bytes or by the ends of the text. -/
def WordAt (s w text : Bytes) : Prop :=
  ∃ t, text = s ++ w ++ t ∧ (∀ x ∈ s.getLast?, Byte.isWord x = false) ∧
    (∀ x ∈ t.head?, Byte.isWord x = false)

/-- A byte outside words separates the words on its left from those on its right. -/
theorem words_append_cons {sep : UInt8} (hsep : Byte.isWord sep = false) (s t : Bytes) :
    words (s ++ sep :: t) = words s ++ words t := by
  rw [words, piecesBy_append_cons (by simp [hsep]), List.filter_append]
  rfl

/-- A run of word bytes is its only word. -/
theorem words_eq_singleton {w : Bytes} (hne : w ≠ []) (hw : ∀ x ∈ w, Byte.isWord x = true) :
    words w = [w] := by
  rw [words, piecesBy_eq_singleton fun x hx => by simp [hw x hx]]
  simp [hne]

/-- What follows a word without touching it adds its own words. -/
theorem words_append_of_head {s t : Bytes} (h : ∀ x ∈ t.head?, Byte.isWord x = false) :
    words (s ++ t) = words s ++ words t := by
  cases t with
  | nil => simp [words, piecesBy]
  | cons x t =>
    have hx := h x (by simp)
    rw [words_append_cons hx, show words (x :: t) = words t from words_append_cons hx [] t]

/-- What precedes a word without touching it adds its own words. -/
theorem words_append_of_getLast {s t : Bytes} (h : ∀ x ∈ s.getLast?, Byte.isWord x = false) :
    words (s ++ t) = words s ++ words t := by
  rcases List.eq_nil_or_concat s with rfl | ⟨s, x, rfl⟩
  · rfl
  · have hx := h x (by simp)
    have hlast : words (s ++ [x]) = words s := by
      rw [words_append_cons hx, show words [] = [] from rfl, List.append_nil]
    rw [List.concat_eq_append, List.append_assoc, List.singleton_append, words_append_cons hx,
      hlast]

/-- **A whole word parts the words of its text**: those before it, itself, those after it. -/
theorem words_of_wordAt {s w text : Bytes} (hne : w ≠ [])
    (hw : ∀ x ∈ w, Byte.isWord x = true) (h : WordAt s w text) :
    ∃ t, words text = words s ++ w :: words t := by
  obtain ⟨t, rfl, hs, ht⟩ := h
  refine ⟨t, ?_⟩
  rw [words_append_of_head ht, words_append_of_getLast hs, words_eq_singleton hne hw]
  simp

/-- A whole word stays one when the text goes on after a byte outside words, and it ends before
that byte. -/
theorem wordAt_append {s w text : Bytes} (hne : w ≠ []) (hw : ∀ x ∈ w, Byte.isWord x = true)
    (h : WordAt s w text) (hlast : ∀ x ∈ text.getLast?, Byte.isWord x = false) (more : Bytes) :
    WordAt s w (text ++ more) ∧ s.length < text.length := by
  obtain ⟨t, rfl, hs, ht⟩ := h
  have hpos : 0 < w.length := List.length_pos_iff.mpr hne
  have hlen : s.length < (s ++ w ++ t).length := by
    simp only [List.length_append]
    omega
  refine ⟨⟨t ++ more, by simp, hs, ?_⟩, hlen⟩
  cases t with
  | cons y t => exact ht
  | nil =>
    -- the word would be the end of the text, and its last byte a word byte
    have hend : (s ++ w ++ []).getLast? = some (w.getLast hne) := by
      rw [List.append_nil, List.getLast?_append, List.getLast?_eq_some_getLast hne, Option.some_or]
    have hno := hlast _ hend
    rw [hw _ (List.getLast_mem hne)] at hno
    cases hno

/-- Within word bytes no whole word stands but all of them. -/
theorem WordAt.eq_of_isWord {s w text : Bytes} (h : WordAt s w text)
    (hall : ∀ x ∈ text, Byte.isWord x = true) : s = [] ∧ text = w := by
  obtain ⟨t, rfl, hs, ht⟩ := h
  have hsnil : s = [] := by
    rcases List.eq_nil_or_concat s with rfl | ⟨s, x, rfl⟩
    · rfl
    · have hx := hs x (by simp)
      rw [hall x (by simp)] at hx
      cases hx
  have htnil : t = [] := by
    cases t with
    | nil => rfl
    | cons x t =>
      have hx := ht x rfl
      rw [hall x (by simp)] at hx
      cases hx
  exact ⟨hsnil, by simp [hsnil, htnil]⟩

/-- A whole word that lies within a stretch of the text is a whole word of the stretch. -/
theorem WordAt.within {s w p text q : Bytes} (h : WordAt s w (p ++ text ++ q))
    (hbegin : p.length ≤ s.length) (hend : s.length + w.length ≤ p.length + text.length) :
    ∃ r, s = p ++ r ∧ WordAt r w text := by
  obtain ⟨t, htext, hs, ht⟩ := h
  rw [List.append_assoc, List.append_assoc] at htext
  obtain ⟨r, rfl⟩ : p <+: s :=
    List.prefix_of_prefix_length_le (htext ▸ List.prefix_append p _) (List.prefix_append s _) hbegin
  have hrest : text ++ q = r ++ w ++ t := by
    simpa only [List.append_assoc, List.append_cancel_left_eq] using htext
  obtain ⟨u, rfl⟩ : r ++ w <+: text := by
    refine List.prefix_of_prefix_length_le ⟨t, rfl⟩ (hrest ▸ List.prefix_append text q) ?_
    simp only [List.length_append] at hend ⊢
    omega
  obtain rfl : u ++ q = t := by
    simpa only [List.append_assoc, List.append_cancel_left_eq] using hrest
  -- what stands beside the word in the stretch stands beside it in the text
  refine ⟨r, rfl, u, rfl, fun x hx => hs x ?_, fun x hx => ht x ?_⟩
  · simp [List.getLast?_append, Option.mem_def.mp hx]
  · simp [List.head?_append, Option.mem_def.mp hx]

/-- The words of a text are its whole words. -/
theorem mem_words_iff {w text : Bytes} :
    w ∈ words text ↔ w ≠ [] ∧ (∀ x ∈ w, Byte.isWord x = true) ∧ ∃ s, WordAt s w text := by
  constructor
  · intro h
    obtain ⟨hmem, hne⟩ := List.mem_filter.mp h
    obtain ⟨hw, s, t, htext, hs, ht⟩ := exists_of_mem_piecesBy hmem
    refine ⟨by simpa using hne, fun x hx => by simpa using hw x hx, s, t, htext, ?_, ?_⟩
    · exact fun x hx => by simpa using hs x hx
    · exact fun x hx => by simpa using ht x hx
  · rintro ⟨hne, hw, s, h⟩
    obtain ⟨t, ht⟩ := words_of_wordAt hne hw h
    simp [ht]

end KernelPack.Bytes
