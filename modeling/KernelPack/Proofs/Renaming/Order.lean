import KernelPack.Proofs.Renaming.Strategies

/-!
# The order of a table

A table lists its entries in an order, and the two strategies make different use of it.

* **Renaming tokens does not see the order** (`apply_token_perm`). Each check amounts to a condition
  that speaks of entries and pairs of entries only (`Fits`), and an identifier is renamed by the one
  entry that lists it (`renamed_perm`).
* **Replacing text does**, and there is an order that suits it: where no name is part of another
  entry's alias, the longest names first. What is accepted stays so when entries are left out
  (`checkText_of_longest_first`).
-/

namespace KernelPack.Renaming

variable {entries others : List Entry} {tokens : List Token}

/-! ### Renaming tokens -/

theorem Fits.perm (h : Fits entries tokens) (hperm : others.Perm entries) : Fits others tokens where
  usable := h.usable.perm hperm
  fresh := h.fresh.perm hperm
  not_strands t ht := mt (strands_perm hperm).mp (h.not_strands t ht)

/-- A name that is listed once has the same alias in any order. -/
theorem renamed_perm (hnodup : (entries.map Entry.name).Nodup) (hperm : others.Perm entries)
    (v : Bytes) : renamed others v = renamed entries v := by
  have hnodup' : (others.map Entry.name).Nodup := (hperm.map Entry.name).nodup_iff.mpr hnodup
  obtain ⟨e, he, rfl, hnew⟩ | ⟨hne, hsame⟩ := renamed_cases hnodup v
  · rw [hnew, renamed_name hnodup' (hperm.mem_iff.mpr he)]
  · rw [hsame, renamed_of_forall_ne fun e he => hne e (hperm.mem_iff.mp he)]

theorem renameTokens_perm (hnodup : (entries.map Entry.name).Nodup)
    (hperm : others.Perm entries) (tokens : List Token) :
    renameTokens tokens others = renameTokens tokens entries := by
  have htoken : ∀ t ∈ tokens, renameToken others t = renameToken entries t := by
    intro t _
    cases hid : t.isIdentifier with
    | false => rw [renameToken_of_not_isIdentifier hid, renameToken_of_not_isIdentifier hid]
    | true =>
      rw [renameToken_of_isIdentifier hid, renameToken_of_isIdentifier hid,
        renamed_perm hnodup hperm]
  rw [renameTokens, renameTokens, List.map_congr_left htoken]

/-- **What renaming tokens gives**: the text itself if there is nothing to rename, else the renamed
tokens, if the table fits them. -/
theorem apply_token_eq_ok_iff {family text out : Bytes} :
    apply .token text ⟨.explicit, family, entries⟩ = .ok out ↔
      (entries = [] ∧ out = text) ∨
        (entries ≠ [] ∧ Fits entries (tokenize text) ∧
          out = renameTokens (tokenize text) entries) := by
  have hresolve : (⟨.explicit, family, entries⟩ : Table).resolve = entries := rfl
  rw [apply, hresolve]
  cases hentries : entries with
  | nil => simp [eq_comm]
  | cons e later =>
    simp only [List.isEmpty_cons, Bool.false_eq_true, if_false, Outcome.check_bind_eq_ok_iff,
      checkTokens_eq_ok_iff]
    simp [pure, Except.pure, eq_comm]

/-- **The token strategy does not depend on the order of the table.** Two orders of the same entries
are both accepted, with one text as the outcome, or both refused. -/
theorem apply_token_perm (hperm : others.Perm entries) (family text out : Bytes) :
    apply .token text ⟨.explicit, family, others⟩ = .ok out ↔
      apply .token text ⟨.explicit, family, entries⟩ = .ok out := by
  have hfits : Fits others (tokenize text) ↔ Fits entries (tokenize text) :=
    ⟨fun h => h.perm hperm.symm, fun h => h.perm hperm⟩
  have hnil : others = [] ↔ entries = [] := by
    rw [← List.length_eq_zero_iff, hperm.length_eq, List.length_eq_zero_iff]
  rw [apply_token_eq_ok_iff, apply_token_eq_ok_iff, ne_eq, ne_eq, hnil, hfits]
  refine or_congr_right (and_congr_right fun _ => and_congr_right fun h => ?_)
  rw [renameTokens_perm h.usable.nodup_names hperm]

/-- Three entries in two orders, one name part of another; and a table with an alias that the source
has, refused in both orders. -/
theorem apply_token_perm_size :
    (apply .token (utf8 "int size2=size/n;")
        (.ofPairs [⟨utf8 "n", utf8 "_c"⟩, ⟨utf8 "size2", utf8 "_b"⟩, ⟨utf8 "size", utf8 "_a"⟩]) =
      .ok (utf8 "int _b=_a/_c;")) ∧
    ∀ out, apply .token (utf8 "int size2=size/n;")
        (.ofPairs [⟨utf8 "size2", utf8 "_b"⟩, ⟨utf8 "size", utf8 "n"⟩]) ≠ .ok out := by
  have haccepted : apply .token (utf8 "int size2=size/n;")
      (.ofPairs [⟨utf8 "size", utf8 "_a"⟩, ⟨utf8 "size2", utf8 "_b"⟩, ⟨utf8 "n", utf8 "_c"⟩]) =
      .ok (utf8 "int _b=_a/_c;") :=
    Outcome.eq_ok_of_toOption (by decide +kernel)
  have hrefused : (apply .token (utf8 "int size2=size/n;")
      (.ofPairs [⟨utf8 "size", utf8 "n"⟩, ⟨utf8 "size2", utf8 "_b"⟩])).toOption = none := by
    decide +kernel
  refine ⟨(apply_token_perm (by decide) _ _ _).mpr haccepted, fun out hout => ?_⟩
  have hother := (apply_token_perm (List.Perm.swap ⟨utf8 "size", utf8 "n"⟩
    ⟨utf8 "size2", utf8 "_b"⟩ []) _ _ _).mp hout
  rw [Table.ofPairs, hother] at hrefused
  cases hrefused

/-! ### Replacing text -/

/-- Names that are no shorter than the later ones are not part of them, unless they are the same. -/
theorem pairwise_precedes (hnames : (entries.map Entry.name).Nodup)
    (hfree : ∀ e ∈ entries, ∀ f ∈ entries, e ≠ f → ¬ e.name <:+: f.new)
    (hlength : entries.Pairwise fun e f => f.name.length ≤ e.name.length) :
    entries.Pairwise Precedes := by
  have hne : entries.Pairwise fun e f => e.name ≠ f.name := List.pairwise_map.mp hnames
  refine (hlength.and hne).imp_of_mem fun he hf ⟨hle, hne⟩ => ⟨fun hin => ?_, ?_⟩
  · exact hne (hin.eq_of_length (Nat.le_antisymm hin.length_le hle))
  · exact hfree _ hf _ he fun h => hne (congrArg Entry.name h.symm)

/-- **The longest names first.** A usable table in which no name is part of another entry's alias is
accepted for replacing text if no name is longer than an earlier one; and whatever is accepted stays
so when entries are left out. -/
theorem checkText_of_longest_first :
    (∀ entries : List Entry, Usable entries →
      (∀ e ∈ entries, ∀ f ∈ entries, e ≠ f → ¬ e.name <:+: f.new) →
      (entries.Pairwise fun e f => f.name.length ≤ e.name.length) →
      checkText entries = .ok ()) ∧
    ∀ entries part : List Entry, checkText entries = .ok () → part.Sublist entries →
      checkText part = .ok () := by
  constructor
  · intro entries husable hfree hlength
    exact checkText_eq_ok_iff.mpr ⟨husable, pairwise_precedes husable.nodup_names hfree hlength⟩
  · exact fun entries part h hsub => checkText_sublist h hsub

/-- Names of several lengths, two of them equal, with a name inside its own alias; the shorter ones
by themselves; and the table refused with the shorter name first. -/
theorem checkText_of_longest_first_ties :
    ∃ entries : List Entry,
      entries.map (·.name.length) = [10, 4, 3, 3] ∧
      checkText entries = .ok () ∧ checkText (entries.drop 1) = .ok () ∧
      checkText entries.reverse ≠ .ok () := by
  refine ⟨[⟨utf8 "dst_strive", utf8 "_8"⟩, ⟨utf8 "size", utf8 "size_"⟩, ⟨utf8 "dst", utf8 "_d"⟩,
    ⟨utf8 "src", utf8 "_s"⟩], rfl, ?_⟩
  have haccepted : checkText [⟨utf8 "dst_strive", utf8 "_8"⟩, ⟨utf8 "size", utf8 "size_"⟩,
      ⟨utf8 "dst", utf8 "_d"⟩, ⟨utf8 "src", utf8 "_s"⟩] = .ok () :=
    checkText_of_longest_first.1 _ (checkEntries_eq_ok_iff.mp rfl) (by decide +kernel)
      (by decide +kernel)
  refine ⟨haccepted, checkText_of_longest_first.2 _ _ haccepted (List.drop_sublist 1 _), ?_⟩
  rw [ne_eq, checkText_eq_ok_iff]
  exact fun h => absurd h.2 (by unfold Precedes; decide +kernel)

end KernelPack.Renaming
