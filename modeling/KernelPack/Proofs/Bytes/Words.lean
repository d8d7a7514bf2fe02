import KernelPack.Proofs.Bytes.Cutting
import KernelPack.Proofs.Bytes.Substitution
import Mathlib.Data.List.SplitBy

/-!
# Word by word

A text is a sequence of words, maximal runs of word bytes, and of single other bytes. `mapWords f`
puts `f w` in the place of each word `w` and keeps the rest. It can be done on either side of any
place that is not inside a word (`mapWords_append`), so it is determined by what it does to a word
by itself and to a byte outside words.

Where the string to be replaced is a word, and every word of the text is that string or does not
hold it, replacing is done word by word (`replaceAll_eq_mapWords`).
-/

namespace KernelPack.Bytes

/-! ### Searching -/

theorem occursIn_eq_true_iff {needle b : Bytes} : occursIn needle b = true ↔ needle <:+: b := by
  induction b with
  | nil => simp [occursIn]
  | cons x t ih =>
    rw [occursIn, Bool.or_eq_true, ih, List.isPrefixOf_iff_prefix, List.infix_cons_iff]

theorem occursIn_eq_false_iff {needle b : Bytes} : occursIn needle b = false ↔ ¬ needle <:+: b := by
  rw [← occursIn_eq_true_iff, Bool.not_eq_true]

/-! ### Maximal runs -/

/-- A **maximal run** of word bytes stands in the text right after `s`. -/
structure RunAt (s w text : Bytes) : Prop where
  ne_nil : w ≠ []
  isWord : ∀ x ∈ w, Byte.isWord x = true
  wordAt : WordAt s w text

/-- The words of a text are its maximal runs. -/
theorem mem_words_iff_runAt {w text : Bytes} : w ∈ words text ↔ ∃ s, RunAt s w text := by
  rw [mem_words_iff]
  exact ⟨fun ⟨hne, hw, s, hat⟩ => ⟨s, hne, hw, hat⟩,
    fun ⟨s, hrun⟩ => ⟨hrun.ne_nil, hrun.isWord, s, hrun.wordAt⟩⟩

/-- A run stays one when the text goes on after a byte outside words, and it ends before that
byte. -/
theorem RunAt.append {s w text : Bytes} (h : RunAt s w text)
    (hlast : ∀ x ∈ text.getLast?, Byte.isWord x = false) (more : Bytes) :
    RunAt s w (text ++ more) ∧ s.length < text.length := by
  obtain ⟨hat, hlt⟩ := wordAt_append h.ne_nil h.isWord h.wordAt hlast more
  exact ⟨⟨h.ne_nil, h.isWord, hat⟩, hlt⟩

/-- The runs after a beginning that the text does not continue are those of the text. -/
theorem runAt_append_iff {p r w text : Bytes} (hhead : ∀ x ∈ text.head?, Byte.isWord x = false) :
    RunAt (p ++ r) w (p ++ text) ↔ RunAt r w text := by
  constructor
  · rintro ⟨hne, hw, t, htext, hr, ht⟩
    refine ⟨hne, hw, t, ?_, fun x hx => hr x ?_, ht⟩
    · simpa only [List.append_assoc, List.append_cancel_left_eq] using htext
    · simp [List.getLast?_append, Option.mem_def.mp hx]
  · rintro ⟨hne, hw, t, rfl, hr, ht⟩
    refine ⟨hne, hw, t, by simp, fun x hx => ?_, ht⟩
    rcases List.eq_nil_or_concat r with rfl | ⟨r, y, rfl⟩
    · -- the run would begin where the text does, with a word byte
      obtain ⟨y, w, rfl⟩ := List.exists_cons_of_ne_nil hne
      have hy := hhead y rfl
      rw [hw y List.mem_cons_self] at hy
      cases hy
    · exact hr x (by simpa using hx)

/-- **Texts are built of words and other bytes.** What holds of the empty text, of a byte outside
words in front of a text it holds of, and of a word in front of a text it holds of that does not
continue the word, holds of all texts. -/
theorem word_induction {P : Bytes → Prop} (hnil : P [])
    (hother : ∀ x t, Byte.isWord x = false → P t → P (x :: t))
    (hword : ∀ w t, w ≠ [] → (∀ x ∈ w, Byte.isWord x = true) →
      (∀ x ∈ t.head?, Byte.isWord x = false) → P t → P (w ++ t)) (b : Bytes) : P b := by
  induction hn : b.length using Nat.strongRecOn generalizing b with
  | ind n ih =>
    cases b with
    | nil => exact hnil
    | cons x t =>
      cases hx : Byte.isWord x with
      | false => exact hother x t hx (ih t.length (by rw [← hn]; simp) t rfl)
      | true =>
        have hsplit := List.takeWhile_append_dropWhile (p := Byte.isWord) (l := x :: t)
        have hlen : ((x :: t).dropWhile Byte.isWord).length < n := by
          rw [← hn, List.dropWhile_cons_of_pos hx, List.length_cons]
          exact Nat.lt_succ_of_le (List.dropWhile_sublist _).length_le
        rw [← hsplit]
        refine hword _ _ ?_ ?_ ?_ (ih _ hlen _ rfl)
        · simp [hx]
        · exact fun y hy => List.all_eq_true.mp List.all_takeWhile y hy
        · intro y hy
          have hhead := List.head?_dropWhile_not Byte.isWord (x :: t)
          rw [Option.mem_def.mp hy] at hhead
          simpa using hhead

/-! ### Mapping words -/

/-- The text with `f w` in the place of each word `w`, and all else as it is. -/
def mapWords (f : Bytes → Bytes) (b : Bytes) : Bytes :=
  (b.splitBy fun x y => Byte.isWord x && Byte.isWord y).flatMap fun run =>
    if run.all Byte.isWord then f run else run

variable {f g : Bytes → Bytes}

/-- **Words are mapped on either side** of a place that is not inside a word. -/
theorem mapWords_append {s t : Bytes}
    (h : ∀ x ∈ s.getLast?, ∀ y ∈ t.head?, (Byte.isWord x && Byte.isWord y) = false) :
    mapWords f (s ++ t) = mapWords f s ++ mapWords f t := by
  rw [mapWords, List.splitBy_append h, List.flatMap_append]
  rfl

theorem mapWords_of_word {w : Bytes} (hne : w ≠ []) (hw : ∀ x ∈ w, Byte.isWord x = true) :
    mapWords f w = f w := by
  have hchain : w.IsChain fun x y => (Byte.isWord x && Byte.isWord y) = true :=
    (List.pairwise_of_forall_mem_list fun x hx y hy => by simp [hw x hx, hw y hy]).isChain
  rw [mapWords, List.splitBy_of_isChain hne hchain, List.flatMap_singleton,
    if_pos (List.all_eq_true.mpr hw)]

theorem mapWords_cons_of_not_isWord {x : UInt8} (hx : Byte.isWord x = false) (t : Bytes) :
    mapWords f (x :: t) = x :: mapWords f t := by
  have hone : mapWords f [x] = [x] := by simp [mapWords, List.splitBy, List.splitBy.loop, hx]
  rw [← List.singleton_append, mapWords_append (by simp [hx]), hone]
  rfl

theorem mapWords_word_append {w t : Bytes} (hne : w ≠ []) (hw : ∀ x ∈ w, Byte.isWord x = true)
    (ht : ∀ x ∈ t.head?, Byte.isWord x = false) : mapWords f (w ++ t) = f w ++ mapWords f t := by
  rw [mapWords_append fun x _ y hy => by simp [ht y hy], mapWords_of_word hne hw]

/-- What precedes a run, the run itself, and what follows it are mapped apart. -/
theorem mapWords_of_runAt {s w t : Bytes} (h : RunAt s w (s ++ w ++ t)) :
    mapWords f (s ++ w ++ t) = mapWords f s ++ f w ++ mapWords f t := by
  obtain ⟨t', htext, hs, ht⟩ := h.wordAt
  obtain rfl : t = t' := List.append_cancel_left htext
  rw [List.append_assoc, mapWords_append fun x hx y _ => by simp [hs x hx],
    mapWords_word_append h.ne_nil h.isWord ht, List.append_assoc]

theorem words_cons_of_not_isWord {x : UInt8} (hx : Byte.isWord x = false) (t : Bytes) :
    words (x :: t) = words t :=
  words_append_cons hx [] t

theorem words_word_append {w t : Bytes} (hne : w ≠ []) (hw : ∀ x ∈ w, Byte.isWord x = true)
    (ht : ∀ x ∈ t.head?, Byte.isWord x = false) : words (w ++ t) = w :: words t := by
  rw [words_append_of_head ht, words_eq_singleton hne hw, List.singleton_append]

/-- Mapping words alike comes to the same. -/
theorem mapWords_congr {b : Bytes} (h : ∀ w ∈ words b, f w = g w) :
    mapWords f b = mapWords g b := by
  induction b using word_induction with
  | hnil => rfl
  | hother x t hx ih =>
    rw [words_cons_of_not_isWord hx] at h
    rw [mapWords_cons_of_not_isWord hx, mapWords_cons_of_not_isWord hx, ih h]
  | hword w t hne hw ht ih =>
    rw [words_word_append hne hw ht, List.forall_mem_cons] at h
    rw [mapWords_word_append hne hw ht, mapWords_word_append hne hw ht, h.1, ih h.2]

/-- A text whose words all stay is left as it is. -/
theorem mapWords_eq_self {b : Bytes} (h : ∀ w ∈ words b, f w = w) : mapWords f b = b := by
  induction b using word_induction with
  | hnil => rfl
  | hother x t hx ih =>
    rw [words_cons_of_not_isWord hx] at h
    rw [mapWords_cons_of_not_isWord hx, ih h]
  | hword w t hne hw ht ih =>
    rw [words_word_append hne hw ht, List.forall_mem_cons] at h
    rw [mapWords_word_append hne hw ht, h.1, ih h.2]

/-- A text that does not begin with a word does not do so afterwards. -/
theorem head?_mapWords {t : Bytes} (ht : ∀ x ∈ t.head?, Byte.isWord x = false) :
    ∀ x ∈ (mapWords f t).head?, Byte.isWord x = false := by
  cases t with
  | nil => exact fun x hx => absurd hx nofun
  | cons y t =>
    rw [mapWords_cons_of_not_isWord (ht y rfl)]
    exact ht

section Words

variable {b : Bytes} (h : ∀ w ∈ words b, f w ≠ [] ∧ ∀ x ∈ f w, Byte.isWord x = true)

include h

/-- **The words of a mapped text are the mapped words**, if words become words. -/
theorem words_mapWords : words (mapWords f b) = (words b).map f := by
  induction b using word_induction with
  | hnil => rfl
  | hother x t hx ih =>
    rw [words_cons_of_not_isWord hx] at h ⊢
    rw [mapWords_cons_of_not_isWord hx, words_cons_of_not_isWord hx, ih h]
  | hword w t hne hw ht ih =>
    rw [words_word_append hne hw ht] at h ⊢
    obtain ⟨⟨hne', hw'⟩, htail⟩ := List.forall_mem_cons.mp h
    rw [mapWords_word_append hne hw ht, words_word_append hne' hw' (head?_mapWords ht), ih htail,
      List.map_cons]

/-- Mapping words twice is mapping them once by both. -/
theorem mapWords_mapWords : mapWords g (mapWords f b) = mapWords (g ∘ f) b := by
  induction b using word_induction with
  | hnil => rfl
  | hother x t hx ih =>
    rw [words_cons_of_not_isWord hx] at h
    rw [mapWords_cons_of_not_isWord hx, mapWords_cons_of_not_isWord hx,
      mapWords_cons_of_not_isWord hx, ih h]
  | hword w t hne hw ht ih =>
    rw [words_word_append hne hw ht] at h
    obtain ⟨⟨hne', hw'⟩, htail⟩ := List.forall_mem_cons.mp h
    rw [mapWords_word_append hne hw ht, mapWords_word_append hne' hw' (head?_mapWords ht),
      mapWords_word_append hne hw ht, ih htail]
    rfl

end Words

/-! ### Replacing words -/

/-- A string of word bytes at the beginning of a text lies within the first word. -/
theorem prefix_of_prefix_append {old u t : Bytes} (hold : ∀ x ∈ old, Byte.isWord x = true)
    (ht : ∀ x ∈ t.head?, Byte.isWord x = false) (h : old <+: u ++ t) : old <+: u := by
  rcases Nat.lt_or_ge u.length old.length with hlt | hle
  · -- otherwise it would go on with the first byte after the word
    obtain ⟨v, rfl⟩ := List.prefix_of_prefix_length_le (List.prefix_append u t) h hlt.le
    rw [List.prefix_append_right_inj] at h
    cases v with
    | nil => simp at hlt
    | cons y v =>
      obtain ⟨r, rfl⟩ := h
      have hy := hold y (by simp)
      rw [ht y (by simp)] at hy
      cases hy
  · exact List.prefix_of_prefix_length_le h (List.prefix_append u t) hle

/-- **Replacing word by word.** Where the string to be replaced is a word, and every word of the
text is that string or does not hold it, exactly the words that are that string are replaced. -/
theorem replaceAll_eq_mapWords {old new b : Bytes} (hne : old ≠ [])
    (hold : ∀ x ∈ old, Byte.isWord x = true) (h : ∀ w ∈ words b, w = old ∨ ¬ old <:+: w) :
    replaceAll old new b = mapWords (fun w => if w = old then new else w) b := by
  induction b using word_induction with
  | hnil => rfl
  | hother x t hx ih =>
    rw [words_cons_of_not_isWord hx] at h
    have hnot : ¬ old <+: [] ++ x :: t := fun hpre =>
      hne (List.prefix_nil.mp (prefix_of_prefix_append hold (by simpa using hx) hpre))
    rw [mapWords_cons_of_not_isWord hx, ← ih h, ← List.singleton_append, replaceAll_append]
    · rfl
    · intro u hu hune hpre
      obtain rfl : u = [x] := (List.suffix_cons_iff.mp hu).resolve_right fun hnil =>
        hune (List.suffix_nil.mp hnil)
      exact hnot hpre
  | hword w t hwne hw ht ih =>
    rw [words_word_append hwne hw ht, List.forall_mem_cons] at h
    rw [mapWords_word_append hwne hw ht, ← ih h.2]
    by_cases hwold : w = old
    · rw [if_pos hwold, hwold, replaceAll_old_append hne]
    · rw [if_neg hwold, replaceAll_append]
      intro u hu _ hpre
      exact h.1.resolve_left hwold
        ((prefix_of_prefix_append hold ht hpre).isInfix.trans hu.isInfix)

end KernelPack.Bytes
