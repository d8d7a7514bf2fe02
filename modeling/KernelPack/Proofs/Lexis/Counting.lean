import KernelPack.Lexis.Token
import KernelPack.Proofs.Bytes.Order
import Mathlib.Data.List.Induction
import Mathlib.Data.List.Sort

/-!
# Counting identifiers

The identifiers of a text are counted in one pass over its tokens and then ranked. The pass finds
every identifier once, with the number of its occurrences (`tallyIdentifiers_eq`).

An identifier **outranks** another if it is more frequent, or as frequent and its name comes first
in byte order (`Outranks`). Two entries of different names are never on a par, so the ranking leaves
nothing open: there is one list of the entries in the order of their ranks (`isRanking_iff`), and it
comes out whatever order the counts are in before, and whatever a sort does with entries on a par
(`eq_countIdentifiers_of_sorted`).
-/

namespace KernelPack

/-- The values of the identifiers among tokens, in order. -/
def Token.identifierValues (ts : List Token) : List Bytes := (ts.filter isIdentifier).map value

open Token (identifierValues)

/-! ### The pass over the tokens -/

@[simp] theorem Token.identifierValues_append (ts us : List Token) :
    identifierValues (ts ++ us) = identifierValues ts ++ identifierValues us := by
  rw [identifierValues, List.filter_append, List.map_append, identifierValues, identifierValues]

namespace IdentifierCount

/-- The entry of a name that occurs among others. -/
def among (names : List Bytes) (n : Bytes) : IdentifierCount := ⟨n, names.count n⟩

/-- Counting raises the entry of a name, or adds one. -/
theorem tally_map {l : List Bytes} (hl : l.Nodup) (counts : Bytes → Int) {n : Bytes}
    (hnew : n ∉ l → counts n = 0) :
    tally (l.map fun m => ⟨m, counts m⟩) n =
      (if n ∈ l then l else l ++ [n]).map fun m => ⟨m, counts m + if m = n then 1 else 0⟩ := by
  induction l with
  | nil => simp [tally, hnew]
  | cons a l ih =>
    obtain ⟨ha, hl⟩ := List.nodup_cons.mp hl
    rw [List.map_cons, tally]
    by_cases h : a = n
    · -- no later entry has the name
      subst h
      have hlater : ∀ m ∈ l, (⟨m, counts m⟩ : IdentifierCount) =
          ⟨m, counts m + if m = a then 1 else 0⟩ := fun m hm => by
        rw [if_neg fun he : m = a => ha (he ▸ hm), Int.add_zero]
      rw [if_pos rfl, if_pos List.mem_cons_self, List.map_cons, if_pos rfl,
        List.map_congr_left hlater]
    · have hmem : n ∈ a :: l ↔ n ∈ l := by simp [Ne.symm h]
      rw [if_neg h, ih hl fun hn => hnew (mt hmem.mp hn)]
      simp only [hmem]
      split <;> simp [h]

/-- **One step of counting**: the entries of some names become those of the names and one more. -/
theorem tally_among (names : List Bytes) (n : Bytes) :
    tally (names.eraseDups.map (among names)) n =
      (names ++ [n]).eraseDups.map (among (names ++ [n])) := by
  -- a name that has no entry yet has not occurred
  have hnew : n ∉ names.eraseDups → (names.count n : Int) = 0 := fun h =>
    Int.ofNat_eq_zero.mpr (List.count_eq_zero.mpr (mt List.mem_eraseDups.mpr h))
  have hstep := tally_map (nodup_eraseDups names) (fun m => names.count m) hnew
  simp only [List.mem_eraseDups, ← eraseDups_concat] at hstep
  refine hstep.trans (List.map_congr_left fun m _ => ?_)
  simp only [among, List.count_append, List.count_singleton, beq_iff_eq, Int.natCast_add,
    eq_comm (a := m)]
  split <;> rfl

end IdentifierCount

open IdentifierCount (among)

/-- **The pass finds every identifier once, with the number of its occurrences.** -/
theorem tallyIdentifiers_eq (ts : List Token) :
    tallyIdentifiers ts = (identifierValues ts).eraseDups.map (among (identifierValues ts)) := by
  induction ts using List.reverseRecOn with
  | nil => rfl
  | append_singleton ts t ih =>
    rw [tallyIdentifiers, List.foldl_append, ← tallyIdentifiers, ih, List.foldl_cons,
      List.foldl_nil, Token.identifierValues_append]
    cases h : t.isIdentifier with
    | false => simp [identifierValues, h]
    | true =>
      have hone : identifierValues [t] = [t.value] := by simp [identifierValues, h]
      rw [if_pos rfl, hone, IdentifierCount.tally_among]

theorem Token.countIdentifiers_eq (ts : List Token) : countIdentifiers ts =
    ((identifierValues ts).eraseDups.map fun v => ⟨v, (identifierValues ts).count v⟩).mergeSort
      IdentifierCount.precedes := by
  rw [countIdentifiers, tallyIdentifiers_eq]
  rfl

theorem mem_tallyIdentifiers_iff {ts : List Token} {i : IdentifierCount} :
    i ∈ tallyIdentifiers ts ↔
      i.name ∈ identifierValues ts ∧ i.count = (identifierValues ts).count i.name := by
  rw [tallyIdentifiers_eq, List.mem_map]
  constructor
  · rintro ⟨v, hv, rfl⟩
    exact ⟨List.mem_eraseDups.mp hv, rfl⟩
  · rintro ⟨hname, hcount⟩
    exact ⟨i.name, List.mem_eraseDups.mpr hname, by rw [among, ← hcount]⟩

theorem nodup_name_tallyIdentifiers (ts : List Token) :
    ((tallyIdentifiers ts).map IdentifierCount.name).Nodup := by
  rw [tallyIdentifiers_eq, List.map_map]
  exact (List.map_id _).symm ▸ nodup_eraseDups (identifierValues ts)

/-! ### The ranking -/

namespace IdentifierCount

/-- The entry is ranked above the other: it is more frequent, or as frequent and its name comes
first in byte order. -/
def Outranks (a b : IdentifierCount) : Prop :=
  b.count < a.count ∨ a.count = b.count ∧ a.name < b.name

instance (a b : IdentifierCount) : Decidable (a.Outranks b) :=
  inferInstanceAs (Decidable (_ ∨ _))

theorem not_outranks_self (a : IdentifierCount) : ¬ a.Outranks a := by
  rintro (h | ⟨-, h⟩)
  · exact absurd h (Int.lt_irrefl _)
  · exact List.lt_irrefl _ h

theorem Outranks.trans {a b c : IdentifierCount} (h : a.Outranks b) (h' : b.Outranks c) :
    a.Outranks c := by
  obtain hab | ⟨hab, hname⟩ := h <;> obtain hbc | ⟨hbc, hname'⟩ := h'
  · exact Or.inl (by omega)
  · exact Or.inl (by omega)
  · exact Or.inl (by omega)
  · exact Or.inr ⟨by omega, List.lt_trans hname hname'⟩

/-- An entry that another does not outrank is ranked above it, or is that entry. -/
theorem outranks_or_eq {a b : IdentifierCount} (h : ¬ b.Outranks a) : a.Outranks b ∨ a = b := by
  obtain ⟨hcount, hname⟩ := not_or.mp h
  obtain hlt | heq := Int.lt_or_eq_of_le (Int.not_lt.mp hcount)
  · exact Or.inl (Or.inl hlt)
  by_cases hne : a.name = b.name
  · obtain ⟨n, c⟩ := a
    obtain ⟨n', c'⟩ := b
    exact Or.inr (by simp_all)
  · obtain hlt | hlt := Bytes.lt_or_lt_of_ne hne
    · exact Or.inl (Or.inr ⟨heq.symm, hlt⟩)
    · exact absurd ⟨heq, hlt⟩ hname

/-- The order that the counts are sorted by: no entry before one that outranks it. -/
theorem precedes_iff {a b : IdentifierCount} : a.precedes b = true ↔ ¬ b.Outranks a := by
  simp only [precedes, Outranks, Bool.or_eq_true, Bool.and_eq_true, Bool.not_eq_true',
    decide_eq_true_eq, beq_iff_eq, Bytes.before_eq_false_iff]
  constructor
  · rintro (h | ⟨h, hname⟩) (h' | ⟨h', hname'⟩)
    · omega
    · omega
    · omega
    · exact hname hname'
  · intro h
    obtain ⟨hcount, hname⟩ := not_or.mp h
    by_cases heq : a.count = b.count
    · exact Or.inr ⟨heq, fun hlt => hname ⟨heq.symm, hlt⟩⟩
    · exact Or.inl (by omega)

theorem precedes_trans (a b c : IdentifierCount) (h : a.precedes b = true)
    (h' : b.precedes c = true) : a.precedes c = true := by
  rw [precedes_iff] at h h' ⊢
  intro hca
  obtain hab | rfl := outranks_or_eq h
  · exact h' (hca.trans hab)
  · exact h' hca

theorem precedes_total (a b : IdentifierCount) : (a.precedes b || b.precedes a) = true := by
  rw [Bool.or_eq_true, precedes_iff, precedes_iff, ← not_and_or]
  exact fun ⟨hba, hab⟩ => a.not_outranks_self (hab.trans hba)

end IdentifierCount

open IdentifierCount (Outranks)

/-- Where names are not repeated, entries of which none stands before one that outranks it are in
the order of their ranks. -/
theorem pairwise_outranks {l : List IdentifierCount} (hnodup : (l.map IdentifierCount.name).Nodup)
    (h : l.Pairwise fun a b => ¬ b.Outranks a) : l.Pairwise Outranks := by
  rw [List.Nodup, List.pairwise_map] at hnodup
  exact (hnodup.and h).imp fun ⟨hne, hab⟩ =>
    (IdentifierCount.outranks_or_eq hab).resolve_right fun he => hne (congrArg _ he)

/-- **Ranked entries are determined by which they are.** -/
theorem eq_of_pairwise_outranks {l l' : List IdentifierCount} (h : l.Pairwise Outranks)
    (h' : l'.Pairwise Outranks) (hmem : ∀ i, i ∈ l ↔ i ∈ l') : l = l' := by
  have hirrefl : Std.Irrefl Outranks := ⟨IdentifierCount.not_outranks_self⟩
  have hantisymm : Std.Antisymm Outranks :=
    ⟨fun a b hab hba => absurd (hab.trans hba) a.not_outranks_self⟩
  exact List.Pairwise.eq_of_mem_iff h h' hmem

theorem mem_countIdentifiers_iff {ts : List Token} {i : IdentifierCount} :
    i ∈ countIdentifiers ts ↔
      i.name ∈ identifierValues ts ∧ i.count = (identifierValues ts).count i.name := by
  rw [countIdentifiers, List.mem_mergeSort, mem_tallyIdentifiers_iff]

theorem nodup_name_countIdentifiers (ts : List Token) :
    ((countIdentifiers ts).map IdentifierCount.name).Nodup :=
  ((List.mergeSort_perm _ _).map IdentifierCount.name).nodup_iff.mpr
    (nodup_name_tallyIdentifiers ts)

/-- **The identifiers are listed in the order of their ranks.** -/
theorem pairwise_countIdentifiers (ts : List Token) : (countIdentifiers ts).Pairwise Outranks :=
  pairwise_outranks (nodup_name_countIdentifiers ts)
    ((List.pairwise_mergeSort IdentifierCount.precedes_trans IdentifierCount.precedes_total _).imp
      IdentifierCount.precedes_iff.mp)

/-- Every identifier among the tokens is in the list once, with the number of its occurrences, and
the entries are in the order of their ranks. -/
structure IsRanking (ts : List Token) (l : List IdentifierCount) : Prop where
  mem_iff : ∀ i, i ∈ l ↔
    i.name ∈ identifierValues ts ∧ i.count = (identifierValues ts).count i.name
  nodup : (l.map IdentifierCount.name).Nodup
  ranked : l.Pairwise Outranks

/-- **The list of the identifiers is their one ranking.** -/
theorem isRanking_iff {ts : List Token} {l : List IdentifierCount} :
    IsRanking ts l ↔ l = countIdentifiers ts := by
  have h : IsRanking ts (countIdentifiers ts) :=
    ⟨fun _ => mem_countIdentifiers_iff, nodup_name_countIdentifiers ts,
      pairwise_countIdentifiers ts⟩
  refine ⟨fun hl => ?_, fun hl => hl ▸ h⟩
  exact eq_of_pairwise_outranks hl.ranked h.ranked fun i => (hl.mem_iff i).trans (h.mem_iff i).symm

/-- **However the counts are sorted**, the same list comes out: it is enough that no entry stands
before one that outranks it. -/
theorem eq_countIdentifiers_of_sorted {ts : List Token} {l : List IdentifierCount}
    (hperm : l.Perm (tallyIdentifiers ts)) (h : l.Pairwise fun a b => ¬ b.Outranks a) :
    l = countIdentifiers ts := by
  have hnodup : (l.map IdentifierCount.name).Nodup :=
    (hperm.map IdentifierCount.name).nodup_iff.mpr (nodup_name_tallyIdentifiers ts)
  exact isRanking_iff.mp ⟨fun _ => hperm.mem_iff.trans mem_tallyIdentifiers_iff, hnodup,
    pairwise_outranks hnodup h⟩

end KernelPack
