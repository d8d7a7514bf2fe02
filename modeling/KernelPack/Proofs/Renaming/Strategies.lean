import KernelPack.Proofs.Bytes.Words
import KernelPack.Proofs.Lexis.Token
import KernelPack.Proofs.Renaming.Tokens

/-!
# Where the two strategies agree

Replacing text goes through the table entry by entry and knows nothing of words; renaming tokens
goes through the tokens once and touches identifiers only. Both come to
`mapWords (renamed entries)`, which puts its alias in the place of each word that is a name:

* a table that passes `checkText` **replaces in sequence** (`checkText_eq_ok_iff`): what an entry
  puts in is safe from the later ones, and a later name is safe from the entry. So it is enough that
  the words of the text that are no names hold none (`renameText_eq_mapWords`).
* a table that fits the tokens renames every word that is a name as long as the tokens have
  **whole words** (`WholeWords`): then the words that are names are the identifiers that are names
  (`WholeWords.exists_identifier`), and the text around them can be put aside piece by piece
  (`NamesAreTokens.append_renameTokens`).
-/

namespace KernelPack.Renaming

/-! ### Replacing in sequence -/

/-- The entry `e` may be replaced before `f`: it does not touch the name of `f`, and `f` does not
touch the alias it has put in. -/
def Precedes (e f : Entry) : Prop := ¬ e.name <:+: f.name ∧ ¬ f.name <:+: e.new

theorem checkAgainstLater_eq_ok_iff {i j : Nat} {e : Entry} {later : List Entry} :
    checkAgainstLater i e j later = .ok () ↔ ∀ f ∈ later, Precedes e f := by
  induction later generalizing j with
  | nil => simp [checkAgainstLater]
  | cons f later ih =>
    rw [checkAgainstLater, List.forall_mem_cons, Precedes, ← Bytes.occursIn_eq_false_iff,
      ← Bytes.occursIn_eq_false_iff]
    cases Bytes.occursIn e.name f.name with
    | true => simp
    | false =>
      cases Bytes.occursIn f.name e.new with
      | true => simp
      | false => simp [ih]

theorem checkPairs_eq_ok_iff {i : Nat} {entries : List Entry} :
    checkPairs i entries = .ok () ↔ entries.Pairwise Precedes := by
  induction entries generalizing i with
  | nil => simp [checkPairs]
  | cons e later ih =>
    rw [checkPairs, Outcome.check_bind_eq_ok_iff, checkAgainstLater_eq_ok_iff, ih,
      List.pairwise_cons]

/-- **Text may be replaced exactly by usable tables whose entries precede each other.** -/
theorem checkText_eq_ok_iff {entries : List Entry} :
    checkText entries = .ok () ↔ Usable entries ∧ entries.Pairwise Precedes := by
  rw [checkText, Outcome.check_bind_eq_ok_iff, checkEntries_eq_ok_iff, checkPairs_eq_ok_iff]

/-- What may be replaced may be so with entries left out. -/
theorem checkText_sublist {entries part : List Entry} (h : checkText entries = .ok ())
    (hsub : part.Sublist entries) : checkText part = .ok () := by
  obtain ⟨husable, hpairs⟩ := checkText_eq_ok_iff.mp h
  exact checkText_eq_ok_iff.mpr ⟨husable.sublist hsub, hpairs.sublist hsub⟩

/-- The word is a name of the table, or holds none. -/
def WholeOrFree (entries : List Entry) (w : Bytes) : Prop :=
  (∃ e ∈ entries, w = e.name) ∨ ∀ e ∈ entries, ¬ e.name <:+: w

/-- **Replacing text is mapping words**, if every word of the text is a name or holds none. -/
theorem renameText_eq_mapWords {entries : List Entry} (husable : Usable entries)
    (hpairs : entries.Pairwise Precedes) {text : Bytes}
    (hwords : ∀ w ∈ Bytes.words text, WholeOrFree entries w) :
    renameText text entries = Bytes.mapWords (renamed entries) text := by
  induction entries generalizing text with
  | nil => exact (Bytes.mapWords_eq_self fun w _ => rfl).symm
  | cons e later ih =>
    have hnodup := husable.nodup_names
    obtain ⟨hname, hnew, hnames, -, husable⟩ := usable_cons_iff.mp husable
    obtain ⟨hlater, hpairs⟩ := List.pairwise_cons.mp hpairs
    obtain ⟨hne, hword⟩ := isWord_of_isIdentifier hname
    let one : Bytes → Bytes := fun w => if w = e.name then e.new else w
    -- the first entry is replaced word by word, since no later name holds its name
    have hfirst : Bytes.replaceAll e.name e.new text = Bytes.mapWords one text := by
      refine Bytes.replaceAll_eq_mapWords hne hword fun w hw => ?_
      obtain ⟨f, hf, rfl⟩ | hfree := hwords w hw
      · obtain rfl | hf := List.mem_cons.mp hf
        · exact Or.inl rfl
        · exact Or.inr (hlater f hf).1
      · exact Or.inr (hfree e List.mem_cons_self)
    have hone : ∀ w ∈ Bytes.words text, one w ≠ [] ∧ ∀ x ∈ one w, Byte.isWord x = true := by
      intro w hw
      by_cases hwe : w = e.name
      · simpa only [one, if_pos hwe] using isWord_of_isIdentifier hnew
      · obtain ⟨hwne, hww, -⟩ := Bytes.mem_words_iff.mp hw
        simpa only [one, if_neg hwe] using ⟨hwne, hww⟩
    -- the alias that was put in holds no later name, and the other words are what they were
    have hrest : ∀ w ∈ Bytes.words (Bytes.mapWords one text), WholeOrFree later w := by
      intro w hw
      rw [Bytes.words_mapWords hone] at hw
      obtain ⟨v, hv, rfl⟩ := List.mem_map.mp hw
      by_cases hve : v = e.name
      · exact Or.inr fun f hf => by simpa only [one, if_pos hve] using (hlater f hf).2
      · simp only [one, if_neg hve]
        obtain ⟨f, hf, rfl⟩ | hfree := hwords v hv
        · exact Or.inl ⟨f, (List.mem_cons.mp hf).resolve_left fun h => hve (h ▸ rfl), rfl⟩
        · exact Or.inr fun f hf => hfree f (List.mem_cons_of_mem e hf)
    calc renameText text (e :: later)
        = renameText (Bytes.mapWords one text) later := by
          rw [← hfirst]
          rfl
      _ = Bytes.mapWords (renamed later) (Bytes.mapWords one text) := ih husable hpairs hrest
      _ = Bytes.mapWords (renamed later ∘ one) text := Bytes.mapWords_mapWords hone
      _ = Bytes.mapWords (renamed (e :: later)) text := by
          refine Bytes.mapWords_congr fun w _ => ?_
          by_cases hwe : w = e.name
          · have hfree : ∀ f ∈ later, f.name ≠ e.new := fun f hf heq =>
              (hlater f hf).2 (heq ▸ List.infix_refl _)
            simp only [Function.comp_apply, one, if_pos hwe]
            rw [renamed_of_forall_ne hfree, hwe, renamed_name hnodup List.mem_cons_self]
          · simp only [Function.comp_apply, one, if_neg hwe]
            rw [renamed, renamed, entryOf?_cons_of_ne (Ne.symm hwe)]

/-! ### Whole words among tokens -/

/-- Tokens with **whole words**: an identifier is a maximal run of word bytes, a run that is a name
is not cut, a literal holds no name, and a run that is no name holds none. -/
structure WholeWords (entries : List Entry) (tokens : List Token) : Prop where
  runAt_identifier : ∀ before t after, tokens = before ++ t :: after → t.isIdentifier = true →
    Bytes.RunAt (joinTokens before) t.value (joinTokens tokens)
  not_cut : ∀ before after, tokens = before ++ after → ∀ s, ∀ e ∈ entries,
    Bytes.RunAt s e.name (joinTokens tokens) →
      ¬ (s.length < (joinTokens before).length ∧
        (joinTokens before).length < s.length + e.name.length)
  literal_free : ∀ t ∈ tokens, t.isLiteral = true → ∀ e ∈ entries, ¬ e.name <:+: t.value
  whole_or_free : ∀ s w, Bytes.RunAt s w (joinTokens tokens) → WholeOrFree entries w

/-- The token that a place of the text lies in. -/
theorem exists_token_at {tokens : List Token} {n : Nat} (h : n < (joinTokens tokens).length) :
    ∃ before t after, tokens = before ++ t :: after ∧ (joinTokens before).length ≤ n ∧
      n < (joinTokens before).length + t.value.length := by
  induction tokens generalizing n with
  | nil => exact absurd h (Nat.not_lt_zero n)
  | cons t tokens ih =>
    rw [joinTokens_cons, List.length_append] at h
    rcases Nat.lt_or_ge n t.value.length with hlt | hge
    · exact ⟨[], t, tokens, rfl, Nat.zero_le _, by simpa [joinTokens] using hlt⟩
    · obtain ⟨before, u, after, rfl, hle, hlt⟩ := ih (n := n - t.value.length) (by omega)
      refine ⟨t :: before, u, after, rfl, ?_, ?_⟩
      · simp only [joinTokens, List.flatMap_cons, List.length_append] at hle ⊢
        omega
      · simp only [joinTokens, List.flatMap_cons, List.length_append] at hlt ⊢
        omega

/-- **A run that is a name lies in one token**, and is a whole word of it. -/
theorem WholeWords.exists_token {entries : List Entry} {tokens : List Token}
    (hwhole : WholeWords entries tokens) {s : Bytes} {e : Entry} (he : e ∈ entries)
    (hrun : Bytes.RunAt s e.name (joinTokens tokens)) :
    ∃ before t after r, tokens = before ++ t :: after ∧ s = joinTokens before ++ r ∧
      Bytes.WordAt r e.name t.value := by
  have hpos : 0 < e.name.length := List.length_pos_iff.mpr hrun.ne_nil
  have hlt : s.length < (joinTokens tokens).length := by
    obtain ⟨u, htext, -⟩ := hrun.wordAt
    rw [htext, List.length_append, List.length_append]
    omega
  obtain ⟨before, t, after, rfl, hle, hlt⟩ := exists_token_at hlt
  -- the token in which the run begins holds all of it, since it does not end inside
  have hend : s.length + e.name.length ≤ (joinTokens before).length + t.value.length := by
    have hcut := hwhole.not_cut (before ++ [t]) after (by simp) s e he hrun
    have hlen : (joinTokens (before ++ [t])).length =
        (joinTokens before).length + t.value.length := by
      simp [joinTokens]
    rw [hlen] at hcut
    omega
  have hjoin : joinTokens (before ++ t :: after) =
      joinTokens before ++ t.value ++ joinTokens after := by
    simp [joinTokens]
  obtain ⟨r, hs, hword⟩ := (hjoin ▸ hrun.wordAt).within hle hend
  exact ⟨before, t, after, r, rfl, hs, hword⟩

/-- **The words that are names are the identifiers that are names.** -/
theorem WholeWords.exists_identifier {entries : List Entry} {tokens : List Token}
    (hwhole : WholeWords entries tokens) (hstrands : ∀ t ∈ tokens, ¬ Strands entries t)
    {s : Bytes} {e : Entry} (he : e ∈ entries)
    (hrun : Bytes.RunAt s e.name (joinTokens tokens)) :
    ∃ before t after, tokens = before ++ t :: after ∧ t.isIdentifier = true ∧
      t.value = e.name ∧ joinTokens before = s := by
  obtain ⟨before, t, after, r, rfl, rfl, hword⟩ := hwhole.exists_token he hrun
  cases hkind : t.kind with
  | identifier =>
    -- an identifier is made of word bytes, so the name is all of it
    have hid : t.isIdentifier = true := by simp [Token.isIdentifier, hkind]
    obtain ⟨rfl, hvalue⟩ :=
      hword.eq_of_isWord (hwhole.runAt_identifier before t after rfl hid).isWord
    exact ⟨before, t, after, rfl, hid, hvalue, (List.append_nil _).symm⟩
  | literal =>
    have hlit : t.isLiteral = true := by simp [Token.isLiteral, hkind]
    obtain ⟨u, hu, -⟩ := hword
    exact absurd ⟨r, u, hu.symm⟩ (hwhole.literal_free t (by simp) hlit e he)
  | other =>
    have hout : t.isOutside = true := by
      simp [Token.isOutside, Token.isIdentifier, Token.isLiteral, hkind]
    exact absurd ⟨hout, r, e.name, ⟨e, he, rfl⟩, hword⟩ (hstrands t (by simp))

/-- In the text made of `s` and the tokens after it, the maximal runs that are names are the
identifiers among the tokens that are names. -/
structure NamesAreTokens (entries : List Entry) (s : Bytes) (tokens : List Token) : Prop where
  runAt : ∀ before t after, tokens = before ++ t :: after → t.isIdentifier = true →
    (∃ e ∈ entries, t.value = e.name) →
      Bytes.RunAt (s ++ joinTokens before) t.value (s ++ joinTokens tokens)
  exists_token : ∀ r, ∀ e ∈ entries, Bytes.RunAt r e.name (s ++ joinTokens tokens) →
    ∃ before t after, tokens = before ++ t :: after ∧ t.isIdentifier = true ∧
      t.value = e.name ∧ s ++ joinTokens before = r

namespace NamesAreTokens

variable {entries : List Entry} {s : Bytes} {t : Token} {tokens : List Token}

/-- A token that is no name can be counted to the text before it. -/
theorem keep (h : NamesAreTokens entries s (t :: tokens))
    (ht : ¬ (t.isIdentifier = true ∧ ∃ e ∈ entries, t.value = e.name)) :
    NamesAreTokens entries (s ++ t.value) tokens where
  runAt before u after hsplit hid hname := by
    have hrun := h.runAt (t :: before) u after (by rw [hsplit, List.cons_append]) hid hname
    simpa only [joinTokens_cons, List.append_assoc] using hrun
  exists_token r e he hrun := by
    rw [List.append_assoc, ← joinTokens_cons] at hrun
    obtain ⟨before, u, after, hsplit, hid, hvalue, hbefore⟩ := h.exists_token r e he hrun
    cases before with
    | nil =>
      obtain ⟨rfl, -⟩ := List.cons.inj hsplit
      exact absurd ⟨hid, e, he, hvalue⟩ ht
    | cons v before =>
      obtain ⟨rfl, rfl⟩ := List.cons.inj hsplit
      refine ⟨before, u, after, rfl, hid, hvalue, ?_⟩
      rw [← hbefore, joinTokens_cons, List.append_assoc]

/-- What a token that is a name says about the text around it. -/
theorem head_runAt (h : NamesAreTokens entries s (t :: tokens)) (hid : t.isIdentifier = true)
    (hname : ∃ e ∈ entries, t.value = e.name) :
    Bytes.RunAt s t.value (s ++ t.value ++ joinTokens tokens) := by
  have hrun := h.runAt [] t tokens rfl hid hname
  rw [joinTokens_cons, ← List.append_assoc] at hrun
  simpa [joinTokens] using hrun

/-- After a token that is a name the text begins anew. -/
theorem restart (h : NamesAreTokens entries s (t :: tokens)) (hid : t.isIdentifier = true)
    (hname : ∃ e ∈ entries, t.value = e.name) : NamesAreTokens entries [] tokens := by
  obtain ⟨u, hu, -, hhead⟩ := (h.head_runAt hid hname).wordAt
  obtain rfl : joinTokens tokens = u := List.append_cancel_left hu
  have hjoin : s ++ joinTokens (t :: tokens) = s ++ t.value ++ joinTokens tokens := by
    rw [joinTokens_cons, List.append_assoc]
  refine ⟨fun before u after hsplit hid' hname' => ?_, fun r e he hrun => ?_⟩
  · have hrun := h.runAt (t :: before) u after (by rw [hsplit, List.cons_append]) hid' hname'
    rw [hjoin, joinTokens_cons, ← List.append_assoc, Bytes.runAt_append_iff hhead] at hrun
    exact hrun
  · rw [List.nil_append, ← Bytes.runAt_append_iff (p := s ++ t.value) hhead, ← hjoin] at hrun
    obtain ⟨before, u, after, hsplit, hid', hvalue, hbefore⟩ := h.exists_token _ e he hrun
    cases before with
    | nil =>
      -- the run begins after the token, which is not empty
      have hlen := congrArg List.length hbefore
      have hpos := List.length_pos_iff.mpr (h.head_runAt hid hname).ne_nil
      simp only [joinTokens, List.flatMap_nil, List.append_nil, List.length_append] at hlen
      omega
    | cons v before =>
      obtain ⟨rfl, rfl⟩ := List.cons.inj hsplit
      refine ⟨before, u, after, rfl, hid', hvalue, ?_⟩
      rw [joinTokens_cons, ← List.append_assoc] at hbefore
      exact List.append_cancel_left hbefore

/-- No name stands in the text before the tokens, if that ends with them or outside words. -/
theorem mapWords_before (h : NamesAreTokens entries s tokens)
    (hs : tokens = [] ∨ ∀ x ∈ s.getLast?, Byte.isWord x = false) :
    Bytes.mapWords (renamed entries) s = s := by
  refine Bytes.mapWords_eq_self fun w hw => renamed_of_forall_ne fun e he heq => ?_
  obtain ⟨r, hrun⟩ := Bytes.mem_words_iff_runAt.mp hw
  rw [← heq] at hrun
  obtain rfl | hlast := hs
  · obtain ⟨before, t, after, hsplit, -⟩ := h.exists_token r e he (by simpa [joinTokens] using hrun)
    simp at hsplit
  · obtain ⟨hrun, hlt⟩ := hrun.append hlast (joinTokens tokens)
    obtain ⟨before, t, after, -, -, -, rfl⟩ := h.exists_token r e he hrun
    rw [List.length_append] at hlt
    omega

/-- **Renaming the tokens after a text is mapping the words of both.** -/
theorem append_renameTokens (h : NamesAreTokens entries s tokens) :
    s ++ renameTokens tokens entries =
      Bytes.mapWords (renamed entries) (s ++ joinTokens tokens) := by
  induction tokens generalizing s with
  | nil => simpa [renameTokens, joinTokens] using (h.mapWords_before (Or.inl rfl)).symm
  | cons t tokens ih =>
    have hrest : renameTokens (t :: tokens) entries =
        (renameToken entries t).value ++ renameTokens tokens entries := by
      rw [renameTokens, List.map_cons, joinTokens_cons, renameTokens]
    by_cases ht : t.isIdentifier = true ∧ ∃ e ∈ entries, t.value = e.name
    · -- a name: the text before it is done with, and the rest stands by itself
      obtain ⟨hid, hname⟩ := ht
      have hrun := h.head_runAt hid hname
      have hs : Bytes.mapWords (renamed entries) s = s :=
        h.mapWords_before (Or.inr hrun.wordAt.choose_spec.2.1)
      have hnil := ih (h.restart hid hname)
      rw [List.nil_append, List.nil_append] at hnil
      rw [hrest, renameToken_of_isIdentifier hid, joinTokens_cons, ← List.append_assoc,
        ← List.append_assoc, Bytes.mapWords_of_runAt hrun, hs, hnil]
    · -- anything else stays, and is put aside
      have hkept : renameToken entries t = t := by
        cases hid : t.isIdentifier with
        | false => exact renameToken_of_not_isIdentifier hid
        | true =>
          rw [renameToken_of_isIdentifier hid, renamed_of_forall_ne fun e he heq =>
            ht ⟨hid, e, he, heq.symm⟩]
      rw [hrest, hkept, joinTokens_cons, ← List.append_assoc, ← List.append_assoc, ih (h.keep ht)]

end NamesAreTokens

/-- **The two strategies agree.** Let a table pass the checks of both strategies, and let the tokens
have whole words. Then replacing the text and renaming the tokens come to the same: the text with
each maximal run of word bytes that is a name replaced by the alias of that name, and all else as
it is. -/
theorem strategies_agree {entries : List Entry} {tokens : List Token}
    (htext : checkText entries = .ok ()) (htokens : checkTokens entries tokens = .ok ())
    (hwhole : WholeWords entries tokens) :
    renameText (joinTokens tokens) entries = renameTokens tokens entries ∧
      renameTokens tokens entries =
        Bytes.mapWords (renamed entries) (joinTokens tokens) := by
  obtain ⟨husable, hpairs⟩ := checkText_eq_ok_iff.mp htext
  have hfits : Fits entries tokens := checkTokens_eq_ok_iff.mp htokens
  have hnames : NamesAreTokens entries [] tokens := by
    refine ⟨fun before t after hsplit hid _ => ?_, fun r e he hrun => ?_⟩
    · exact hwhole.runAt_identifier before t after hsplit hid
    · exact hwhole.exists_identifier hfits.not_strands he hrun
  have htoken : renameTokens tokens entries =
      Bytes.mapWords (renamed entries) (joinTokens tokens) :=
    hnames.append_renameTokens
  refine ⟨?_, htoken⟩
  rw [htoken]
  refine renameText_eq_mapWords husable hpairs fun w hw => ?_
  obtain ⟨s, hrun⟩ := Bytes.mem_words_iff_runAt.mp hw
  exact hwhole.whole_or_free s w hrun

/-- Replacing `sum` in `sum="y"` is renaming the one identifier among its tokens. -/
theorem strategies_agree_assignment : ∃ entries tokens,
    joinTokens tokens = utf8 "sum=\"y\"" ∧ checkText entries = .ok () ∧
    checkTokens entries tokens = .ok () ∧ WholeWords entries tokens ∧
    renameText (joinTokens tokens) entries = renameTokens tokens entries ∧
    renameTokens tokens entries = utf8 "_0=\"y\"" := by
  let entries : List Entry := [⟨utf8 "sum", utf8 "_0"⟩]
  let tokens : List Token :=
    [⟨utf8 "sum", .identifier⟩, ⟨utf8 "=", .other⟩, ⟨utf8 "\"y\"", .literal⟩]
  have hstart : ∀ s, Bytes.RunAt s (utf8 "sum") (joinTokens tokens) → s.length = 0 := by
    rintro s ⟨-, -, t, htext, -⟩
    have hlen := congrArg List.length htext
    have hat : ((joinTokens tokens).drop s.length).take 3 = utf8 "sum" := by
      rw [htext, List.append_assoc, List.drop_left]
      rfl
    have hall : ∀ n < 8, ((joinTokens tokens).drop n).take 3 = utf8 "sum" → n = 0 := by decide
    refine hall _ ?_ hat
    have hseven : (joinTokens tokens).length = 7 := by decide
    simp only [List.length_append] at hlen
    omega
  have hwhole : WholeWords entries tokens := by
    refine ⟨?_, ?_, ?_, ?_⟩
    · -- the only identifier stands at the beginning
      rintro before t after hsplit hid
      rcases before with _ | ⟨_, _ | ⟨_, _ | ⟨_, before⟩⟩⟩
      · obtain ⟨rfl, -⟩ := List.cons.inj hsplit
        refine ⟨by decide, by decide +kernel, utf8 "=\"y\"", by decide, by decide +kernel,
          by decide +kernel⟩
      · obtain ⟨-, rfl, -⟩ := by simpa [tokens] using hsplit
        cases hid
      · obtain ⟨-, -, rfl, -⟩ := by simpa [tokens] using hsplit
        cases hid
      · simp [tokens] at hsplit
    · rintro before after hsplit s e he hrun
      obtain rfl := List.mem_singleton.mp he
      rw [hstart s hrun]
      rcases before with _ | ⟨_, before⟩
      · decide
      · obtain ⟨rfl, -⟩ := List.cons.inj hsplit
        rw [joinTokens_cons, List.length_append]
        exact fun hcut => absurd hcut.2 (Nat.not_lt.mpr (Nat.le_add_right 3 _))
    · decide
    · rintro s w hrun
      have hall : ∀ w ∈ Bytes.words (joinTokens tokens), WholeOrFree entries w := by
        unfold WholeOrFree
        decide
      exact hall w (Bytes.mem_words_iff_runAt.mpr ⟨s, hrun⟩)
  have hagree : renameText (joinTokens tokens) entries = renameTokens tokens entries ∧ _ :=
    strategies_agree rfl rfl hwhole
  exact ⟨entries, tokens, by decide, rfl, rfl, hwhole, hagree.1, by decide⟩

end KernelPack.Renaming
