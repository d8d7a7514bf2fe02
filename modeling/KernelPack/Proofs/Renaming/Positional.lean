import KernelPack.Config.Basic
import KernelPack.Proofs.Renaming.Check
import KernelPack.Proofs.Text.Numeral
import Mathlib.Data.List.Nodup

/-!
# Positional aliases

A positional alias is put together from a family and an index, with underscores between and nothing
to fix the width of either. The index is written without an underscore, so the **last underscore**
tells the two parts apart whatever the family is made of, and an alias determines both
(`numberedAlias_inj`).

It follows that a positional table never repeats an alias, that tables of different families have no
alias in common (`disjoint_aliases_iff`), and that nothing but the names and the bytes of the family
decides whether a positional table is usable (`usable_ofNames_iff`). Kernels that do not name a
family have their indices for families, which keeps their aliases apart.
-/

namespace KernelPack.Renaming

/-! ### One alias -/

/-- Behind the last underscore of an alias stands its index. -/
theorem pieces_numberedAlias (f : Bytes) (i : Int) :
    Bytes.pieces Byte.underscore (numberedAlias f i)
      = Bytes.pieces Byte.underscore (Byte.underscore :: f) ++ [Numeral.hex i] := by
  have hshape : numberedAlias f i = (Byte.underscore :: f) ++ Byte.underscore :: Numeral.hex i := by
    simp [numberedAlias]
  have hindex : Bytes.pieces Byte.underscore (Numeral.hex i) = [Numeral.hex i] :=
    Bytes.pieces_eq_singleton (Numeral.underscore_not_mem_hex i)
  rw [hshape, Bytes.pieces, Bytes.piecesBy_append_cons (by simp), ← Bytes.pieces, ← Bytes.pieces,
    hindex]

/-- **An alias determines its family and its index.** -/
theorem numberedAlias_inj {f f' : Bytes} {i i' : Int} :
    numberedAlias f i = numberedAlias f' i' ↔ f = f' ∧ i = i' := by
  refine ⟨fun h => ?_, fun ⟨hf, hi⟩ => by rw [hf, hi]⟩
  have hpieces := congrArg (Bytes.pieces Byte.underscore) h
  rw [pieces_numberedAlias, pieces_numberedAlias] at hpieces
  have hindex : Numeral.hex i = Numeral.hex i' :=
    List.singleton_inj.mp (List.append_inj' hpieces rfl).2
  -- with the index in common, the rest can be cancelled
  simp only [numberedAlias, hindex, List.append_cancel_right_eq, List.append_cancel_left_eq] at h
  exact ⟨h, Numeral.hex_inj hindex⟩

theorem isIdentifier_underscore_cons_iff {b : Bytes} :
    isIdentifier (Byte.underscore :: b) = true ↔ ∀ x ∈ b, Byte.isWord x = true := by
  rw [isIdentifier, show Byte.isNameStart Byte.underscore = true by decide, Bool.true_and,
    List.all_eq_true]

/-- **An alias is an identifier** exactly if its family is made of word bytes and its index is not
negative. -/
theorem isIdentifier_numberedAlias_iff {f : Bytes} {i : Int} :
    isIdentifier (numberedAlias f i) = true ↔ (∀ x ∈ f, Byte.isWord x = true) ∧ 0 ≤ i := by
  have hshape : numberedAlias f i = Byte.underscore :: (f ++ Byte.underscore :: Numeral.hex i) := by
    simp [numberedAlias]
  rw [hshape, isIdentifier_underscore_cons_iff, List.forall_mem_append, List.forall_mem_cons,
    Numeral.isWord_hex_iff, and_iff_right (show Byte.isWord Byte.underscore = true by decide)]

/-! ### The aliases of a table -/

namespace Table

/-- The aliases of a table, in the order of its entries. -/
def aliases (t : Table) : List Bytes := t.resolve.map Entry.new

variable {f f' : Bytes} {names names' : List Bytes}

theorem resolve_ofNames (f : Bytes) (names : List Bytes) :
    (ofNames f names).resolve = names.mapIdx fun i n => ⟨n, numberedAlias f i⟩ := by
  refine List.ext_getElem (by simp [ofNames, resolve]) fun i hi hi' => ?_
  simp [ofNames, resolve]

theorem map_name_resolve_ofNames (f : Bytes) (names : List Bytes) :
    (ofNames f names).resolve.map Entry.name = names := by
  rw [resolve_ofNames]
  refine List.ext_getElem (by simp) fun i hi hi' => ?_
  simp

/-- A positional table has the aliases of its family, as many as it has names. -/
theorem aliases_ofNames (f : Bytes) (names : List Bytes) :
    (ofNames f names).aliases = (List.range names.length).map fun i : Nat => numberedAlias f i := by
  rw [aliases, resolve_ofNames]
  refine List.ext_getElem (by simp) fun i hi hi' => ?_
  simp

theorem mem_aliases_ofNames {a : Bytes} :
    a ∈ (ofNames f names).aliases ↔ ∃ i < names.length, a = numberedAlias f i := by
  simp [aliases_ofNames, eq_comm]

/-- No alias of a positional table is listed twice. -/
theorem nodup_aliases_ofNames (f : Bytes) (names : List Bytes) :
    (ofNames f names).aliases.Nodup := by
  rw [aliases_ofNames]
  exact List.nodup_range.map fun i j h => Int.ofNat_inj.mp (numberedAlias_inj.mp h).2

/-- **Positional tables have no alias in common** exactly if their families differ, or one is
empty. -/
theorem disjoint_aliases_iff :
    (ofNames f names).aliases.Disjoint (ofNames f' names').aliases ↔
      names = [] ∨ names' = [] ∨ f ≠ f' := by
  rw [List.disjoint_left]
  constructor
  · intro h
    by_contra hshared
    obtain ⟨hne, hne', rfl⟩ : names ≠ [] ∧ names' ≠ [] ∧ f = f' := by tauto
    exact h (mem_aliases_ofNames.mpr ⟨0, List.length_pos_iff.mpr hne, rfl⟩)
      (mem_aliases_ofNames.mpr ⟨0, List.length_pos_iff.mpr hne', rfl⟩)
  · intro h a ha ha'
    obtain ⟨i, hi, rfl⟩ := mem_aliases_ofNames.mp ha
    obtain ⟨j, hj, hij⟩ := mem_aliases_ofNames.mp ha'
    obtain rfl | rfl | hne := h
    · exact absurd hi (Nat.not_lt_zero i)
    · exact absurd hj (Nat.not_lt_zero j)
    · exact hne (numberedAlias_inj.mp hij).1

/-- **When a positional table is usable**: its names are different identifiers, and its family is
made of word bytes, unless there is no name to use it for. -/
theorem usable_ofNames_iff :
    Usable (ofNames f names).resolve ↔ (∀ n ∈ names, isIdentifier n = true) ∧ names.Nodup ∧
      (names = [] ∨ ∀ x ∈ f, Byte.isWord x = true) := by
  have hname : (∀ e ∈ (ofNames f names).resolve, isIdentifier e.name = true) ↔
      ∀ n ∈ names, isIdentifier n = true := by
    rw [← List.forall_mem_map (f := Entry.name) (P := fun n => isIdentifier n = true),
      map_name_resolve_ofNames]
  have hnew : (∀ e ∈ (ofNames f names).resolve, isIdentifier e.new = true) ↔
      names = [] ∨ ∀ x ∈ f, Byte.isWord x = true := by
    rw [← List.forall_mem_map (f := Entry.new) (P := fun a => isIdentifier a = true), ← aliases]
    constructor
    · intro h
      refine or_iff_not_imp_left.mpr fun hne => ?_
      have hfirst := h _ (mem_aliases_ofNames.mpr ⟨0, List.length_pos_iff.mpr hne, rfl⟩)
      exact (isIdentifier_numberedAlias_iff.mp hfirst).1
    · intro h a ha
      obtain ⟨i, hi, rfl⟩ := mem_aliases_ofNames.mp ha
      refine isIdentifier_numberedAlias_iff.mpr ⟨h.resolve_left ?_, Int.natCast_nonneg i⟩
      rintro rfl
      exact absurd hi (Nat.not_lt_zero i)
  rw [← hname, ← hnew]
  constructor
  · intro h
    exact ⟨h.isIdentifier_name, map_name_resolve_ofNames f names ▸ h.nodup_names,
      h.isIdentifier_new⟩
  · rintro ⟨hisName, hnodup, hisNew⟩
    exact ⟨hisName, hisNew, (map_name_resolve_ofNames f names).symm ▸ hnodup,
      nodup_aliases_ofNames f names⟩

end Table

/-- **Positional aliases never collide.** An alias determines its family and its index, and is an
identifier exactly if the family is made of word bytes and the index is not negative. With such a
family and different identifiers for names, a positional table passes the check of its entries.
Kernels at different indices of a configuration that name no family have no alias in common. -/
theorem positional_aliases_apart :
    (∀ f f' i i', numberedAlias f i = numberedAlias f' i' ↔ f = f' ∧ i = i') ∧
    (∀ f i, isIdentifier (numberedAlias f i) = true ↔ (∀ x ∈ f, Byte.isWord x = true) ∧ 0 ≤ i) ∧
    (∀ f names, (∀ x ∈ f, Byte.isWord x = true) → names.Nodup →
      (∀ n ∈ names, isIdentifier n = true) →
      checkEntries (Table.ofNames f names).resolve = .ok ()) ∧
    ∀ (k l : KernelEntry) (i j : Nat), i ≠ j → k.names ≠ [] → l.names ≠ [] → k.family = [] →
      l.family = [] → (k.table i).aliases.Disjoint (l.table j).aliases := by
  refine ⟨fun _ _ _ _ => numberedAlias_inj, fun _ _ => isIdentifier_numberedAlias_iff,
    fun f names hf hnodup hnames => ?_, fun k l i j hij hk hl hkf hlf => ?_⟩
  · exact checkEntries_eq_ok_iff.mpr (Table.usable_ofNames_iff.mpr ⟨hnames, hnodup, Or.inr hf⟩)
  · have htable : ∀ (e : KernelEntry) (n : Nat), e.names ≠ [] → e.family = [] →
        e.table n = .ofNames (defaultFamily n) e.names := fun e n hne hfamily => by
      simp [KernelEntry.table, hne, hfamily]
    rw [htable k i hk hkf, htable l j hl hlf, Table.disjoint_aliases_iff]
    exact Or.inr (Or.inr fun h => hij (Int.ofNat_inj.mp (Numeral.hex_inj h)))

/-- A family with an underscore and digits of its own is usable, and its aliases are not those of
the family before the underscore; the second and the eighteenth kernel share none either. -/
theorem positional_aliases_apart_eighteenth :
    let entry (name : Bytes) : KernelEntry := ⟨utf8 "k.cl", none, [], [], [name]⟩
    checkEntries (Table.ofNames (utf8 "1_1") [utf8 "width", utf8 "height"]).resolve = .ok () ∧
    numberedAlias (utf8 "1_1") 0 ≠ numberedAlias (utf8 "1") 16 ∧
    ((entry (utf8 "width")).table 1).aliases = [utf8 "_1_0"] ∧
    ((entry (utf8 "width")).table 17).aliases = [utf8 "_11_0"] ∧
    ((entry (utf8 "width")).table 1).aliases.Disjoint
      ((entry (utf8 "width")).table 17).aliases := by
  intro entry
  obtain ⟨hinj, -, hcheck, hdisjoint⟩ := positional_aliases_apart
  refine ⟨hcheck _ _ (List.all_eq_true.mp (by decide)) (by decide) (by decide), fun h => ?_,
    by decide, by decide,
    hdisjoint _ _ 1 17 (by decide) (by decide) (by decide) rfl rfl⟩
  exact absurd ((hinj _ _ _ _).mp h).1 (by decide)

end KernelPack.Renaming
