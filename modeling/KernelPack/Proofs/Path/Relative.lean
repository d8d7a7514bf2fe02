import KernelPack.Proofs.Path.Normal

/-!
# Relative paths

The way from a directory to a path goes up past what they do not share and then down
(`dropCommon_spec`). It leads there: **put below the directory it is the path again**
(`join_relativeTo?`). There is such a way exactly if both are absolute or both are relative, and the
directory does not go up further than the path does (`isSome_relativeTo?_iff`); what it went up past
has no name to come back by.
-/

namespace KernelPack.Path

/-- What two lists have in common at their beginning, and what is left of them: it does not begin
with the same. -/
theorem dropCommon_spec {as bs ups downs : List Bytes} (h : dropCommon as bs = (ups, downs)) :
    ∃ common, as = common ++ ups ∧ bs = common ++ downs ∧
      ∀ c, ups.head? = some c → downs.head? ≠ some c := by
  fun_induction dropCommon as bs with
  | case1 as b bs ih =>
    obtain ⟨common, rfl, rfl, hhead⟩ := ih h
    exact ⟨b :: common, rfl, rfl, hhead⟩
  | case2 a as b bs hne =>
    obtain ⟨rfl, rfl⟩ := Prod.mk.inj h
    refine ⟨[], rfl, rfl, fun c ha hb => hne ?_⟩
    exact (Option.some.inj ha).trans (Option.some.inj hb).symm
  | case3 as bs hnil =>
    obtain ⟨rfl, rfl⟩ := Prod.mk.inj h
    refine ⟨[], rfl, rfl, fun c ha hb => ?_⟩
    obtain ⟨as, rfl⟩ := List.head?_eq_some_iff.mp ha
    obtain ⟨bs, rfl⟩ := List.head?_eq_some_iff.mp hb
    exact hnil _ _ _ _ rfl rfl

variable {dir p r : Bytes}

/-- Components of a normal form that follow others, the first of them not a step up, are names. -/
theorem IsNormal.isName_of_head? {rooted : Bool} {front back : List Bytes}
    (h : IsNormal rooted (front ++ back).reverse) (hhead : back.head? ≠ some up) :
    ∀ c ∈ back, IsName c := by
  rw [List.reverse_append] at h
  intro c hc
  exact h.isName_of_getLast? (by rwa [List.getLast?_reverse]) c (List.mem_reverse.mpr hc)

/-- **What a way is made of**: it goes nowhere, or up past the names of the directory to where the
two part, and down. -/
theorem relativeTo?_cases (h : relativeTo? dir p = some r) :
    (clean dir = clean p ∧ r = here) ∨
      isAbsolute dir = isAbsolute p ∧ ∃ common ups downs, (∀ c ∈ ups, IsName c) ∧
        normalComponents dir = common ++ ups ∧ normalComponents p = common ++ downs ∧
        List.replicate ups.length up ++ downs ≠ [] ∧
        r = Bytes.joinWith [Byte.slash] (List.replicate ups.length up ++ downs) := by
  unfold relativeTo? at h
  split at h
  · rename_i hclean
    exact .inl ⟨hclean, (Option.some.inj h).symm⟩
  rename_i hclean
  split at h
  · cases h
  rename_i habsolute
  have habsolute : isAbsolute dir = isAbsolute p := by simpa using habsolute
  generalize hdrop : dropCommon (normalComponents dir) (normalComponents p) = parted at h
  obtain ⟨ups, downs⟩ := parted
  obtain ⟨common, hdir, hp, -⟩ := dropCommon_spec hdrop
  dsimp only at h
  split at h
  · cases h
  rename_i hhead
  have hnames : ∀ c ∈ ups, IsName c :=
    (hdir ▸ isNormal_normalComponents dir).isName_of_head? hhead
  rw [List.map_const'] at h
  refine .inr ⟨habsolute, common, ups, downs, hnames, hdir, hp, fun hnil => hclean ?_,
    (Option.some.inj h).symm⟩
  -- the two are the same path otherwise
  obtain ⟨hups, rfl⟩ := List.append_eq_nil_iff.mp hnil
  obtain rfl := List.length_eq_zero_iff.mp ((List.replicate_eq_nil_iff _).mp hups)
  rw [clean, clean, hdir, hp, habsolute]

theorem isComponent_way (ups : List Bytes) {downs common : List Bytes}
    (h : normalComponents p = common ++ downs) :
    ∀ c ∈ List.replicate ups.length up ++ downs, IsComponent c := by
  intro c hc
  obtain hc | hc := List.mem_append.mp hc
  · rw [List.eq_of_mem_replicate hc]
    exact isComponent_up
  · exact isComponent_of_mem_normalComponents (h ▸ List.mem_append_right _ hc)

/-- The way from a directory to a path is not empty. -/
theorem relativeTo?_ne_nil (h : relativeTo? dir p = some r) : r ≠ [] := by
  obtain ⟨-, rfl⟩ | ⟨-, common, ups, downs, -, -, hp, hne, rfl⟩ := relativeTo?_cases h
  · decide
  · exact joinWith_ne_nil hne (isComponent_way ups hp)

/-- **The way from a directory to a path leads there.** -/
theorem join_relativeTo? (h : relativeTo? dir p = some r) : join [dir, r] = clean p := by
  obtain ⟨hclean, rfl⟩ | ⟨habsolute, common, ups, downs, hnames, hdir, hp, hne, rfl⟩ :=
    relativeTo?_cases h
  · rw [← hclean]
    cases dir with
    | nil => rfl
    | cons b dir =>
      have hhere : components here = [here] := rfl
      rw [join_of_ne_nil (List.cons_ne_nil b dir), hhere, List.foldl_cons, List.foldl_nil,
        push_here, List.reverse_reverse, clean]
  have hway := isComponent_way ups hp
  cases dir with
  | nil =>
    -- nothing to go up past: the way is the path
    have hnil : common ++ ups = [] := hdir.symm
    obtain ⟨rfl, rfl⟩ := List.append_eq_nil_iff.mp hnil
    have hsame : clean p = Bytes.joinWith [Byte.slash] downs := by
      rw [clean, hp, ← habsolute]
      exact if_neg (mt List.isEmpty_iff.mp hne)
    rw [join_nil (joinWith_ne_nil hne hway)]
    exact (congrArg clean hsame).symm.trans (clean_clean p)
  | cons b dir =>
    have hnormal : IsNormal (isAbsolute p) (downs.reverse ++ common.reverse) := by
      rw [← List.reverse_append, ← hp]
      exact isNormal_normalComponents p
    rw [join_of_ne_nil (List.cons_ne_nil b dir), components_joinWith hway, List.foldl_append, hdir,
      List.reverse_append, ← List.length_reverse,
      foldl_push_replicate_up fun c hc => hnames c (List.mem_reverse.mp hc),
      habsolute, hnormal.foldl_push, ← List.reverse_append, List.reverse_reverse, clean, hp]

/-- **There is a way** exactly if both begin alike and the directory does not go up further. -/
theorem isSome_relativeTo?_iff : (relativeTo? dir p).isSome = true ↔
    isAbsolute dir = isAbsolute p ∧
      (normalComponents dir).count up ≤ (normalComponents p).count up := by
  constructor
  · intro h
    obtain ⟨r, h⟩ := Option.isSome_iff_exists.mp h
    obtain ⟨hclean, -⟩ | ⟨habsolute, common, ups, downs, hnames, hdir, hp, -, -⟩ :=
      relativeTo?_cases h
    · refine ⟨?_, ?_⟩
      · rw [← isAbsolute_clean dir, hclean, isAbsolute_clean]
      · rw [← normalComponents_clean dir, hclean, normalComponents_clean]
    · refine ⟨habsolute, ?_⟩
      have hups : ups.count up = 0 := List.count_eq_zero.mpr fun hup => (hnames up hup).ne_up rfl
      rw [hdir, hp, List.count_append, List.count_append, hups]
      omega
  · rintro ⟨habsolute, hcount⟩
    unfold relativeTo?
    split
    · rfl
    rw [habsolute, bne_self_eq_false, if_neg Bool.false_ne_true]
    generalize hdrop : dropCommon (normalComponents dir) (normalComponents p) = parted
    obtain ⟨ups, downs⟩ := parted
    obtain ⟨common, hdir, hp, hhead⟩ := dropCommon_spec hdrop
    dsimp only
    split
    · -- the path does not go on with a step up, so it has one less at least
      rename_i hup
      exfalso
      have hnormal : IsNormal (isAbsolute p) (common ++ downs).reverse :=
        hp ▸ isNormal_normalComponents p
      have hdowns : downs.count up = 0 := List.count_eq_zero.mpr fun hmem =>
        (hnormal.isName_of_head? (hhead up hup) up hmem).ne_up rfl
      obtain ⟨rest, rfl⟩ := List.head?_eq_some_iff.mp hup
      rw [hdir, hp, List.count_append, List.count_append, hdowns, List.count_cons_self] at hcount
      omega
    · rfl

end KernelPack.Path
