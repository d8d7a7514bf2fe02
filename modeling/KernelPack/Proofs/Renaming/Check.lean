import KernelPack.Proofs.Bytes.Cutting
import KernelPack.Renaming.Check

/-!
# What the checks of a table accept

Each check goes through a list and stops at the first thing wrong. This module says what the
checks amount to, without the order in which things are looked at.

* `checkEntries` accepts the **usable** tables: identifiers throughout, none listed twice
  (`checkEntries_eq_ok_iff`).
* `checkAliases` accepts the tables whose aliases are neither names nor identifiers of the source
  (`checkAliases_eq_ok_iff`).
* `checkOutside` looks for tokens that **strand** a name: they are not renamed, and the name stands
  in them as a whole word. It accepts where there is none (`checkOutside_eq_ok_iff`), and otherwise
  reports the leftmost name of the first such token (`checkOutside_of_leftmost`). Being leftmost is
  a matter of places in the text, so the order of the entries does not enter.
-/

namespace KernelPack

/-- Is the token neither an identifier nor part of a literal? Such a token is kept as it is. -/
def Token.isOutside (t : Token) : Bool := !t.isIdentifier && !t.isLiteral

namespace Renaming

/-! ### Entries by themselves -/

/-- Names and aliases are identifiers, and none is listed twice. -/
structure Usable (entries : List Entry) : Prop where
  isIdentifier_name : ∀ e ∈ entries, isIdentifier e.name = true
  isIdentifier_new : ∀ e ∈ entries, isIdentifier e.new = true
  nodup_names : (entries.map Entry.name).Nodup
  nodup_aliases : (entries.map Entry.new).Nodup

theorem usable_nil : Usable [] := ⟨by simp, by simp, by simp, by simp⟩

theorem usable_cons_iff {e : Entry} {entries : List Entry} :
    Usable (e :: entries) ↔ isIdentifier e.name = true ∧ isIdentifier e.new = true ∧
      (∀ f ∈ entries, f.name ≠ e.name) ∧ (∀ f ∈ entries, f.new ≠ e.new) ∧ Usable entries := by
  constructor
  · rintro ⟨hname, hnew, hnames, haliases⟩
    simp only [List.map_cons, List.nodup_cons, List.mem_map, not_exists, not_and] at hnames haliases
    simp only [List.forall_mem_cons] at hname hnew
    exact ⟨hname.1, hnew.1, hnames.1, haliases.1,
      hname.2, hnew.2, hnames.2, haliases.2⟩
  · rintro ⟨hname, hnew, hnames, haliases, h⟩
    refine ⟨?_, ?_, ?_, ?_⟩
    · exact List.forall_mem_cons.mpr ⟨hname, h.isIdentifier_name⟩
    · exact List.forall_mem_cons.mpr ⟨hnew, h.isIdentifier_new⟩
    · simpa using ⟨hnames, h.nodup_names⟩
    · simpa using ⟨haliases, h.nodup_aliases⟩

/-- Usability does not depend on the order of the entries. -/
theorem Usable.perm {entries others : List Entry} (h : Usable entries)
    (hperm : others.Perm entries) : Usable others where
  isIdentifier_name e he := h.isIdentifier_name e (hperm.mem_iff.mp he)
  isIdentifier_new e he := h.isIdentifier_new e (hperm.mem_iff.mp he)
  nodup_names := (hperm.map Entry.name).nodup_iff.mpr h.nodup_names
  nodup_aliases := (hperm.map Entry.new).nodup_iff.mpr h.nodup_aliases

/-- Nor does it suffer when entries are left out. -/
theorem Usable.sublist {entries part : List Entry} (h : Usable entries)
    (hsub : part.Sublist entries) : Usable part where
  isIdentifier_name e he := h.isIdentifier_name e (hsub.subset he)
  isIdentifier_new e he := h.isIdentifier_new e (hsub.subset he)
  nodup_names := h.nodup_names.sublist (hsub.map Entry.name)
  nodup_aliases := h.nodup_aliases.sublist (hsub.map Entry.new)

/-- No earlier entry agrees with `e` in a field exactly if none is found. -/
theorem findIdx?_beq_eq_none_iff {field : Entry → Bytes} {earlier : List Entry} {e : Entry} :
    earlier.findIdx? (fun f => field f == field e) = none ↔
      ∀ f ∈ earlier, field f ≠ field e := by
  simp [List.findIdx?_eq_none_iff]

/-- The step of the check: an entry passes if it is made of identifiers and repeats no earlier
one. -/
theorem checkEntriesFrom_cons_eq_ok_iff {earlier later : List Entry} {e : Entry} :
    checkEntriesFrom earlier (e :: later) = .ok () ↔
      isIdentifier e.name = true ∧ isIdentifier e.new = true ∧
        (∀ f ∈ earlier, f.name ≠ e.name) ∧ (∀ f ∈ earlier, f.new ≠ e.new) ∧
        checkEntriesFrom (earlier ++ [e]) later = .ok () := by
  rw [checkEntriesFrom, ← findIdx?_beq_eq_none_iff, ← findIdx?_beq_eq_none_iff]
  cases isIdentifier e.name with
  | false => simp
  | true =>
    cases isIdentifier e.new with
    | false => simp
    | true =>
      cases earlier.findIdx? (·.name == e.name) with
      | some j => simp
      | none =>
        cases earlier.findIdx? (·.new == e.new) with
        | some j => simp
        | none => simp

/-- The entries after earlier ones pass if they are usable and repeat none of those. -/
theorem checkEntriesFrom_eq_ok_iff {earlier entries : List Entry} :
    checkEntriesFrom earlier entries = .ok () ↔ Usable entries ∧
      ∀ e ∈ entries, (∀ f ∈ earlier, f.name ≠ e.name) ∧ (∀ f ∈ earlier, f.new ≠ e.new) := by
  induction entries generalizing earlier with
  | nil => simp [checkEntriesFrom, usable_nil]
  | cons e entries ih =>
    -- `e` is checked against the earlier entries now, and the later ones against `e` further on
    rw [checkEntriesFrom_cons_eq_ok_iff, usable_cons_iff, ih, List.forall_mem_cons]
    simp only [List.mem_append, List.mem_singleton]
    constructor
    · rintro ⟨hname, hnew, hnames, haliases, husable, hlater⟩
      refine ⟨⟨hname, hnew, fun f hf he => ?_, fun f hf he => ?_, husable⟩,
        ⟨hnames, haliases⟩, fun f hf => ⟨fun g hg => ?_, fun g hg => ?_⟩⟩
      · exact (hlater f hf).1 e (Or.inr rfl) he.symm
      · exact (hlater f hf).2 e (Or.inr rfl) he.symm
      · exact (hlater f hf).1 g (Or.inl hg)
      · exact (hlater f hf).2 g (Or.inl hg)
    · rintro ⟨⟨hname, hnew, hnames, haliases, husable⟩, hearlier, hlater⟩
      refine ⟨hname, hnew, hearlier.1, hearlier.2, husable, fun f hf => ⟨?_, ?_⟩⟩
      · rintro g (hg | rfl)
        · exact (hlater f hf).1 g hg
        · exact (hnames f hf).symm
      · rintro g (hg | rfl)
        · exact (hlater f hf).2 g hg
        · exact (haliases f hf).symm

/-- **The entries pass exactly if they are usable.** -/
theorem checkEntries_eq_ok_iff {entries : List Entry} :
    checkEntries entries = .ok () ↔ Usable entries := by
  simp [checkEntries, checkEntriesFrom_eq_ok_iff]

/-- **The aliases pass exactly if none is a name or an identifier of the source.** -/
theorem checkAliases_eq_ok_iff {names identifiers : List Bytes} {i : Nat}
    {entries : List Entry} :
    checkAliases names identifiers i entries = .ok () ↔
      ∀ e ∈ entries, e.new ∉ names ∧ e.new ∉ identifiers := by
  induction entries generalizing i with
  | nil => simp [checkAliases]
  | cons e entries ih =>
    rw [checkAliases, List.forall_mem_cons]
    by_cases hname : e.new ∈ names
    · simp [hname]
    · by_cases hsource : e.new ∈ identifiers
      · simp [hname, hsource]
      · simp [hname, hsource, ih]

/-! ### Names outside identifiers -/

/-- An identifier is a word. -/
theorem isWord_of_isIdentifier {b : Bytes} (h : isIdentifier b = true) :
    b ≠ [] ∧ ∀ x ∈ b, Byte.isWord x = true := by
  cases b with
  | nil => cases h
  | cons x t =>
    simp only [isIdentifier, Bool.and_eq_true, List.all_eq_true] at h
    refine ⟨List.cons_ne_nil x t, List.forall_mem_cons.mpr ⟨?_, h.2⟩⟩
    simp [Byte.isWord, h.1]

/-- A name of the table stands in the text, right after `s`, as a whole word. -/
def NameAt (entries : List Entry) (s name text : Bytes) : Prop :=
  (∃ e ∈ entries, e.name = name) ∧ Bytes.WordAt s name text

/-- A name stands in the text, right after `s`, as a whole word, and none stands further left. -/
structure LeftmostName (entries : List Entry) (s name text : Bytes) : Prop where
  nameAt : NameAt entries s name text
  leftmost : ∀ s' name', NameAt entries s' name' text → s.length ≤ s'.length

/-- Where names stand, and which is leftmost, does not depend on the order of the entries. -/
theorem nameAt_perm {entries others : List Entry} (hperm : others.Perm entries)
    {s name text : Bytes} : NameAt others s name text ↔ NameAt entries s name text := by
  simp [NameAt, hperm.mem_iff]

theorem LeftmostName.perm {entries others : List Entry} {s name text : Bytes}
    (h : LeftmostName entries s name text) (hperm : others.Perm entries) :
    LeftmostName others s name text where
  nameAt := (nameAt_perm hperm).mpr h.nameAt
  leftmost s' name' h' := h.leftmost s' name' ((nameAt_perm hperm).mp h')

/-- If a name stands in the text, one is leftmost. -/
theorem exists_leftmostName {entries : List Entry} {s name text : Bytes}
    (h : NameAt entries s name text) : ∃ s name, LeftmostName entries s name text := by
  -- a name that is not leftmost is replaced by one further left, until there is none
  induction hn : s.length using Nat.strongRecOn generalizing s name with
  | ind n ih =>
    by_cases hleft : ∀ s' name', NameAt entries s' name' text → s.length ≤ s'.length
    · exact ⟨s, name, h, hleft⟩
    · simp only [Classical.not_forall, Nat.not_le] at hleft
      obtain ⟨s', name', h', hlt⟩ := hleft
      exact ih s'.length (hn ▸ hlt) h' rfl

/-- The token is kept as it is although a name stands in it. -/
def Strands (entries : List Entry) (t : Token) : Prop :=
  t.isOutside = true ∧ ∃ s name, NameAt entries s name t.value

theorem strands_perm {entries others : List Entry} (hperm : others.Perm entries) {t : Token} :
    Strands others t ↔ Strands entries t := by
  simp only [Strands, nameAt_perm hperm]

/-- If a token strands a name, there is a first one that does. -/
theorem exists_first_strands {entries : List Entry} {tokens : List Token} {t : Token}
    (ht : t ∈ tokens) (h : Strands entries t) :
    ∃ before u after, tokens = before ++ u :: after ∧
      (∀ v ∈ before, ¬ Strands entries v) ∧ Strands entries u := by
  induction tokens with
  | nil => exact absurd ht List.not_mem_nil
  | cons v tokens ih =>
    by_cases hv : Strands entries v
    · exact ⟨[], v, tokens, rfl, by simp, hv⟩
    · obtain rfl | ht := List.mem_cons.mp ht
      · exact absurd h hv
      · obtain ⟨before, u, after, rfl, hbefore, hu⟩ := ih ht
        exact ⟨v :: before, u, after, rfl, List.forall_mem_cons.mpr ⟨hv, hbefore⟩, hu⟩

section Stranded

variable {entries : List Entry} (husable : Usable entries)

include husable

theorem isWord_of_nameAt {s name text : Bytes} (h : NameAt entries s name text) :
    name ≠ [] ∧ ∀ x ∈ name, Byte.isWord x = true := by
  obtain ⟨⟨e, he, rfl⟩, -⟩ := h
  exact isWord_of_isIdentifier (husable.isIdentifier_name e he)

/-- No name is found in a text exactly if none stands there as a whole word. -/
theorem firstName?_eq_none_iff {text : Bytes} :
    firstName? entries text = none ↔ ∀ s name, ¬ NameAt entries s name text := by
  simp only [firstName?, List.findSome?_eq_none_iff, Option.map_eq_none_iff,
    List.findIdx?_eq_none_iff, beq_eq_false_iff_ne]
  constructor
  · intro h s name hname
    obtain ⟨hne, hword⟩ := isWord_of_nameAt husable hname
    obtain ⟨⟨e, he, heq⟩, hat⟩ := hname
    exact h name (Bytes.mem_words_iff.mpr ⟨hne, hword, s, hat⟩) e he heq
  · intro h w hw e he heq
    obtain ⟨-, -, s, hat⟩ := Bytes.mem_words_iff.mp hw
    exact h s w ⟨⟨e, he, heq⟩, hat⟩

/-- **The name found in a text is the leftmost one.** -/
theorem firstName?_of_leftmost {s name text : Bytes} (h : LeftmostName entries s name text) :
    ∃ i, (entries[i]?).map Entry.name = some name ∧
      firstName? entries text = some (name, i) := by
  obtain ⟨hne, hword⟩ := isWord_of_nameAt husable h.nameAt
  obtain ⟨⟨e, he, heq⟩, hat⟩ := h.nameAt
  -- no word before the leftmost name is a name
  have hbefore : (Bytes.words s).findSome?
      (fun w => (entries.findIdx? (·.name == w)).map (w, ·)) = none := by
    refine (firstName?_eq_none_iff husable).mpr fun s' name' h' => ?_
    obtain ⟨hne', hword'⟩ := isWord_of_nameAt husable h'
    obtain ⟨t, rfl, hs, -⟩ := hat
    obtain ⟨hat', hlt⟩ := Bytes.wordAt_append hne' hword' h'.2 hs (name ++ t)
    rw [← List.append_assoc] at hat'
    exact absurd (h.leftmost s' name' ⟨h'.1, hat'⟩) (Nat.not_le.mpr hlt)
  obtain ⟨t, hwords⟩ := Bytes.words_of_wordAt hne hword hat
  obtain ⟨i, hi⟩ : ∃ i, entries.findIdx? (·.name == name) = some i := by
    cases hi : entries.findIdx? (·.name == name) with
    | some i => exact ⟨i, rfl⟩
    | none =>
      have hnone := List.findIdx?_eq_none_iff.mp hi e he
      simp [heq] at hnone
  refine ⟨i, ?_, ?_⟩
  · obtain ⟨hlt, hname, -⟩ := List.findIdx?_eq_some_iff_getElem.mp hi
    rw [List.getElem?_eq_getElem hlt, Option.map_some]
    exact congrArg some (by simpa using hname)
  · rw [firstName?, hwords, List.findSome?_append, hbefore, Option.none_or, List.findSome?_cons]
    simp [hi]

theorem strands_iff {t : Token} :
    Strands entries t ↔ t.isOutside = true ∧ firstName? entries t.value ≠ none := by
  rw [Strands, ne_eq, firstName?_eq_none_iff husable]
  simp only [Classical.not_forall, Classical.not_not]

/-- The step of the check: a token passes unless it strands a name. -/
theorem checkOutside_cons_of_not_strands {t : Token} (ht : ¬ Strands entries t)
    (tokens : List Token) : checkOutside entries (t :: tokens) = checkOutside entries tokens := by
  rw [checkOutside]
  by_cases hkept : (t.isIdentifier || t.isLiteral) = true
  · rw [if_pos hkept]
  · have hout : t.isOutside = true := by simpa [Token.isOutside] using hkept
    have hnone : firstName? entries t.value = none := by
      by_cases hfirst : firstName? entries t.value = none
      · exact hfirst
      · exact absurd ((strands_iff husable).mpr ⟨hout, hfirst⟩) ht
    rw [if_neg hkept, hnone]

/-- **The refusal is about the leftmost name of the first token that strands one.** -/
theorem checkOutside_of_leftmost {before after : List Token} {t : Token} {s name : Bytes}
    (hbefore : ∀ u ∈ before, ¬ Strands entries u) (ht : t.isOutside = true)
    (h : LeftmostName entries s name t.value) :
    ∃ i, (entries[i]?).map Entry.name = some name ∧
      checkOutside entries (before ++ t :: after) = .error (.nameStranded name i t.value) := by
  obtain ⟨i, hi, hfirst⟩ := firstName?_of_leftmost husable h
  refine ⟨i, hi, ?_⟩
  induction before with
  | nil =>
    have hkept : (t.isIdentifier || t.isLiteral) = false := by simpa [Token.isOutside] using ht
    simp [checkOutside, hkept, hfirst]
  | cons u before ih =>
    obtain ⟨hu, hrest⟩ := List.forall_mem_cons.mp hbefore
    rw [List.cons_append, checkOutside_cons_of_not_strands husable hu]
    exact ih hrest

/-- **Tokens pass exactly if none strands a name.** -/
theorem checkOutside_eq_ok_iff {tokens : List Token} :
    checkOutside entries tokens = .ok () ↔ ∀ t ∈ tokens, ¬ Strands entries t := by
  constructor
  · intro hok t ht hstrands
    obtain ⟨before, u, after, rfl, hbefore, hout, s, name, hname⟩ :=
      exists_first_strands ht hstrands
    obtain ⟨s, name, hleft⟩ := exists_leftmostName hname
    obtain ⟨i, -, herror⟩ :=
      checkOutside_of_leftmost husable hbefore hout hleft
    rw [hok] at herror
    cases herror
  · intro h
    induction tokens with
    | nil => rfl
    | cons t tokens ih =>
      obtain ⟨ht, hrest⟩ := List.forall_mem_cons.mp h
      rw [checkOutside_cons_of_not_strands husable ht]
      exact ih hrest

end Stranded

end Renaming

end KernelPack
