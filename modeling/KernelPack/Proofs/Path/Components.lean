import KernelPack.Path.Basic
import KernelPack.Proofs.Bytes.Cutting
import Mathlib.Data.List.TakeWhile

/-!
# Components of paths

A path is best seen as its list of **components**, the non-empty stretches between slashes. Putting
paths one below the other puts their components one after the other (`components_append_slash`),
and a list of components can be read back from the path it makes (`components_joinWith`).

Normal forms are reached by pushing the components on a stack, where `.` does nothing and `..`
takes the last one away again. A **name**, a component that is neither, stays on top of the stack if
it comes last. So joining paths and cleaning the outcome does not change what the last path names
(`base_join`). A path seen from a working directory stands for the stack that begins with the names
of the directory (`absolute_ofComponents`).

The **stem** of a path is its last component up to the last dot. So it has one dot less
(`count_dot_stem`), and taking the stem is not settled after one time: the stem of a stem is the
same exactly if it has no dot left (`stem_stem_eq_iff`).
-/

namespace KernelPack.Path

/-- A non-empty string without slashes. -/
structure IsComponent (c : Bytes) : Prop where
  ne_nil : c ≠ []
  slash_not_mem : Byte.slash ∉ c

/-- A component that names something in its directory: neither `.` nor `..`. -/
structure IsName (c : Bytes) : Prop extends IsComponent c where
  ne_here : c ≠ here
  ne_up : c ≠ up

/-! ### Splitting and joining -/

theorem isComponent_of_mem_components {p c : Bytes} (h : c ∈ components p) : IsComponent c := by
  obtain ⟨hmem, hne⟩ := List.mem_filter.mp h
  exact ⟨by simpa using hne, Bytes.not_mem_of_mem_pieces hmem⟩

/-- **A path below another has the components of both.** -/
theorem components_append_slash (p q : Bytes) :
    components (p ++ Byte.slash :: q) = components p ++ components q := by
  rw [components, Bytes.pieces, Bytes.piecesBy_append_cons (by simp), List.filter_append]
  rfl

/-- The slash at the root adds no component. -/
theorem components_slash_cons (p : Bytes) : components (Byte.slash :: p) = components p :=
  components_append_slash [] p

/-- A component is the only component of itself. -/
theorem IsComponent.components_eq {c : Bytes} (h : IsComponent c) : components c = [c] := by
  have hpieces : Bytes.pieces Byte.slash c = [c] :=
    Bytes.piecesBy_eq_singleton fun x hx =>
      beq_eq_false_iff_ne.mpr fun he => h.slash_not_mem (he ▸ hx)
  rw [components, hpieces]
  simp [h.ne_nil]

/-- **Components that are joined read back.** -/
theorem components_joinWith {cs : List Bytes} (h : ∀ c ∈ cs, IsComponent c) :
    components (Bytes.joinWith [Byte.slash] cs) = cs := by
  induction cs with
  | nil => rfl
  | cons c cs ih =>
    have hc : IsComponent c := h c List.mem_cons_self
    cases cs with
    | nil => simpa [Bytes.joinWith] using hc.components_eq
    | cons d cs =>
      have hjoin : Bytes.joinWith [Byte.slash] (c :: d :: cs)
          = c ++ Byte.slash :: Bytes.joinWith [Byte.slash] (d :: cs) := by
        simp [Bytes.joinWith]
      rw [hjoin, components_append_slash, hc.components_eq,
        ih fun e he => h e (List.mem_cons_of_mem c he)]
      rfl

/-- The components of an absolute path read back. -/
theorem components_ofComponents {cs : List Bytes} (h : ∀ c ∈ cs, IsComponent c) :
    components (ofComponents true cs) = cs := by
  rw [ofComponents, if_pos rfl, components_slash_cons, components_joinWith h]

/-! ### Normal forms -/

/-- What is pushed on a stack of components leaves a stack of components. -/
theorem isComponent_push {rooted : Bool} {acc : List Bytes} {c : Bytes}
    (hacc : ∀ d ∈ acc, IsComponent d) (hc : IsComponent c) :
    ∀ d ∈ push rooted acc c, IsComponent d := by
  have hup : IsComponent up := ⟨by decide, by decide⟩
  unfold push
  split
  · exact hacc
  · split
    · split
      · split
        · exact nofun
        · exact List.forall_mem_singleton.mpr hup
      · split
        · exact List.forall_mem_cons.mpr ⟨hup, hacc⟩
        · exact fun e he => hacc e (List.mem_cons_of_mem _ he)
    · exact List.forall_mem_cons.mpr ⟨hc, hacc⟩

theorem isComponent_foldl_push {rooted : Bool} {acc cs : List Bytes}
    (hacc : ∀ d ∈ acc, IsComponent d) (hcs : ∀ c ∈ cs, IsComponent c) :
    ∀ d ∈ cs.foldl (push rooted) acc, IsComponent d := by
  induction cs generalizing acc with
  | nil => exact hacc
  | cons c cs ih =>
    exact ih (isComponent_push hacc (hcs c List.mem_cons_self))
      fun d hd => hcs d (List.mem_cons_of_mem c hd)

theorem isComponent_of_mem_normalComponents {p c : Bytes} (h : c ∈ normalComponents p) :
    IsComponent c :=
  isComponent_foldl_push (fun _ hd => absurd hd List.not_mem_nil)
    (fun _ hd => isComponent_of_mem_components hd) c (List.mem_reverse.mp h)

/-- A name that is pushed stays on top. -/
theorem IsName.push_eq {c : Bytes} (h : IsName c) (rooted : Bool) (acc : List Bytes) :
    push rooted acc c = c :: acc := by
  unfold push
  rw [if_neg h.ne_here, if_neg h.ne_up]

/-- **A path that ends in a name keeps it in its normal form.** -/
theorem normalComponents_concat {p c : Bytes} {cs : List Bytes} (hc : IsName c)
    (h : components p = cs ++ [c]) :
    normalComponents p = (cs.foldl (push (isAbsolute p)) []).reverse ++ [c] := by
  rw [normalComponents, h, List.foldl_append, List.foldl_cons, List.foldl_nil, hc.push_eq,
    List.reverse_cons]

/-- The components of a normal form that is not the empty path. -/
theorem components_clean {p : Bytes} (h : normalComponents p ≠ []) :
    components (clean p) = normalComponents p := by
  have hcs : ∀ c ∈ normalComponents p, IsComponent c := fun c hc =>
    isComponent_of_mem_normalComponents hc
  rw [clean, ofComponents]
  split
  · rw [components_slash_cons, components_joinWith hcs]
  · rw [if_neg (by simpa using h), components_joinWith hcs]

/-! ### The last component -/

theorem base_eq_of_components {p c : Bytes} {cs : List Bytes} (h : components p = cs ++ [c]) :
    base p = c := by
  have hne : p ≠ [] := by
    rintro rfl
    have hnil : components [] = [] := rfl
    rw [hnil] at h
    simp at h
  rw [base, if_neg (by simpa using hne), h]
  simp

/-- A path whose last component is a name has components. -/
theorem exists_components_of_isName_base {p : Bytes} (hne : p ≠ []) (h : IsName (base p)) :
    ∃ cs, components p = cs ++ [base p] := by
  rcases List.eq_nil_or_concat (components p) with hnil | ⟨cs, c, hcs⟩
  · -- only slashes: the last component would be a slash
    have hbase : base p = [Byte.slash] := by
      rw [base, if_neg (by simpa using hne), hnil]
      rfl
    rw [hbase] at h
    exact absurd (List.mem_singleton_self _) h.slash_not_mem
  · rw [List.concat_eq_append] at hcs
    exact ⟨cs, by rw [base_eq_of_components hcs, hcs]⟩

/-- The normal form of a path that ends in a name ends in it. -/
theorem exists_components_clean {p c : Bytes} {cs : List Bytes} (hc : IsName c)
    (h : components p = cs ++ [c]) : ∃ ds, components (clean p) = ds ++ [c] := by
  have hnormal := normalComponents_concat hc h
  have hcomponents : components (clean p) = normalComponents p :=
    components_clean (by rw [hnormal]; simp)
  exact ⟨_, hcomponents.trans hnormal⟩

/-- A path that ends in a name and is put below a directory still ends in it. -/
theorem exists_components_join_of_concat (d : Bytes) {s c : Bytes} {cs : List Bytes}
    (hc : IsName c) (h : components s = cs ++ [c]) :
    ∃ ds, components (join [d, s]) = ds ++ [c] := by
  have hs : s.isEmpty = false := by
    cases s with
    | nil => simp [show components [] = [] from rfl] at h
    | cons b s => rfl
  cases d with
  | nil =>
    have hjoin : join [[], s] = clean s := by simp [join, hs, Bytes.joinWith]
    rw [hjoin]
    exact exists_components_clean hc h
  | cons b d =>
    have hjoin : join [b :: d, s] = clean (b :: d ++ Byte.slash :: s) := by
      simp [join, Bytes.joinWith]
    have hcomponents : components (b :: d ++ Byte.slash :: s)
        = (components (b :: d) ++ cs) ++ [c] := by
      rw [components_append_slash, h, List.append_assoc]
    rw [hjoin]
    exact exists_components_clean hc hcomponents

/-- A name put below a directory is the last component. -/
theorem exists_components_join (d : Bytes) {c : Bytes} (hc : IsName c) :
    ∃ ds, components (join [d, c]) = ds ++ [c] := by
  have hcomponents : components c = [] ++ [c] := hc.components_eq
  exact exists_components_join_of_concat d hc hcomponents

/-- **Putting a path below a directory does not change what it names.** -/
theorem base_join (d : Bytes) {s : Bytes} (hne : s ≠ []) (h : IsName (base s)) :
    base (join [d, s]) = base s := by
  obtain ⟨cs, hcs⟩ := exists_components_of_isName_base hne h
  obtain ⟨ds, hds⟩ := exists_components_join_of_concat d h hcs
  exact base_eq_of_components hds

/-- A component is the last component of itself. -/
theorem IsComponent.base_eq {c : Bytes} (h : IsComponent c) : base c = c := by
  have hcomponents : components c = [] ++ [c] := h.components_eq
  exact base_eq_of_components hcomponents

/-- **Files of different names in one directory have different paths.** -/
theorem join_inj {d c e : Bytes} (hc : IsName c) (he : IsName e)
    (h : join [d, c] = join [d, e]) : c = e := by
  have hbase := congrArg base h
  rwa [base_join d hc.ne_nil (hc.base_eq.symm ▸ hc), base_join d he.ne_nil (he.base_eq.symm ▸ he),
    hc.base_eq, he.base_eq] at hbase

/-! ### Stems -/

/-- The last component is a component, unless the path is made of slashes only. -/
theorem base_cases (p : Bytes) : base p = [Byte.slash] ∨ IsComponent (base p) := by
  rw [base]
  split
  · exact Or.inr ⟨by decide, by decide⟩
  · rcases List.eq_nil_or_concat (components p) with hnil | ⟨cs, c, hcs⟩
    · rw [hnil]
      exact Or.inl rfl
    · rw [List.concat_eq_append] at hcs
      have hc : IsComponent c := isComponent_of_mem_components (by rw [hcs]; simp)
      rw [hcs, List.getLastD_concat]
      exact Or.inr hc

/-- Without a dot there is no extension. -/
theorem extension_of_dot_not_mem {c : Bytes} (h : Byte.dot ∉ c) : extension c = [] := by
  have hall : c.reverse.takeWhile (· != Byte.dot) = c.reverse :=
    List.takeWhile_eq_self_iff.mpr fun x hx =>
      bne_iff_ne.mpr fun he => h (he ▸ List.mem_reverse.mp hx)
  simp only [extension, hall, List.reverse_reverse, if_pos]

/-- The extension begins at the last dot. -/
theorem extension_append_dot (s : Bytes) {t : Bytes} (h : Byte.dot ∉ t) :
    extension (s ++ Byte.dot :: t) = Byte.dot :: t := by
  have hall : ∀ x ∈ t.reverse, (x != Byte.dot) = true := fun x hx =>
    bne_iff_ne.mpr fun he => h (he ▸ List.mem_reverse.mp hx)
  have htail : (s ++ Byte.dot :: t).reverse.takeWhile (· != Byte.dot) = t.reverse := by
    rw [List.reverse_append, List.reverse_cons, List.append_assoc,
      List.takeWhile_append_of_pos hall]
    simp
  simp only [extension, htail, List.reverse_reverse]
  rw [if_neg]
  simp only [List.length_append, List.length_cons]
  omega

/-- A string with a dot has a last one. -/
theorem exists_last_dot {c : Bytes} (h : Byte.dot ∈ c) :
    ∃ s t, c = s ++ Byte.dot :: t ∧ Byte.dot ∉ t := by
  obtain ⟨t, s, hc, ht⟩ := List.eq_append_cons_of_mem (List.mem_reverse.mpr h)
  refine ⟨s.reverse, t.reverse, ?_, mt List.mem_reverse.mp ht⟩
  rw [← List.reverse_reverse c, hc]
  simp

theorem stem_of_dot_not_mem {p : Bytes} (h : Byte.dot ∉ base p) : stem p = base p := by
  simp only [stem, extension_of_dot_not_mem h, List.length_nil, Nat.sub_zero, List.take_length]

theorem stem_of_base_eq {p s t : Bytes} (hbase : base p = s ++ Byte.dot :: t)
    (ht : Byte.dot ∉ t) : stem p = s := by
  simp only [stem, hbase, extension_append_dot s ht, List.length_append, Nat.add_sub_cancel,
    List.take_left]

/-- **A stem has one dot less** than the last component, if that has any. -/
theorem count_dot_stem (p : Bytes) :
    (stem p).count Byte.dot = (base p).count Byte.dot - 1 := by
  by_cases h : Byte.dot ∈ base p
  · obtain ⟨s, t, hbase, ht⟩ := exists_last_dot h
    rw [stem_of_base_eq hbase ht, hbase, List.count_append, List.count_cons_self,
      List.count_eq_zero.mpr ht]
    omega
  · rw [stem_of_dot_not_mem h, List.count_eq_zero.mpr h]

theorem stem_eq_base_iff {p : Bytes} : stem p = base p ↔ Byte.dot ∉ base p := by
  refine ⟨fun h hdot => ?_, stem_of_dot_not_mem⟩
  obtain ⟨s, t, hbase, ht⟩ := exists_last_dot hdot
  rw [stem_of_base_eq hbase ht, hbase] at h
  simp at h

theorem stem_isPrefix_base (p : Bytes) : stem p <+: base p := List.take_prefix _ _

/-- A stem that is not empty is a last component itself. -/
theorem base_stem {p : Bytes} (h : stem p ≠ []) : base (stem p) = stem p := by
  obtain hslash | hc := base_cases p
  · have hstem : stem p = [Byte.slash] := by
      rw [stem_of_dot_not_mem (by rw [hslash]; decide), hslash]
    rw [hstem]
    rfl
  · exact IsComponent.base_eq
      ⟨h, fun hmem => hc.slash_not_mem ((stem_isPrefix_base p).subset hmem)⟩

/-- **Taking the stem once more changes nothing exactly if no dot is left.** -/
theorem stem_stem_eq_iff {p : Bytes} : stem (stem p) = stem p ↔ Byte.dot ∉ stem p := by
  by_cases h : stem p = []
  · rw [h]
    exact iff_of_true rfl List.not_mem_nil
  · have hiff := stem_eq_base_iff (p := stem p)
    rwa [base_stem h] at hiff

/-! ### Absolute paths -/

/-- Names that are pushed pile up. -/
theorem foldl_push_of_isName {cs : List Bytes} (h : ∀ c ∈ cs, IsName c) (rooted : Bool)
    (acc : List Bytes) : cs.foldl (push rooted) acc = cs.reverse ++ acc := by
  induction cs generalizing acc with
  | nil => rfl
  | cons c cs ih =>
    rw [List.foldl_cons, (h c List.mem_cons_self).push_eq,
      ih fun d hd => h d (List.mem_cons_of_mem c hd), List.reverse_cons, List.append_assoc,
      List.singleton_append]

/-- **A path seen from a directory of names**: its components pushed on these names, or on nothing
if the path is absolute. -/
theorem absolute_ofComponents {ds : List Bytes} (h : ∀ d ∈ ds, IsName d) (p : Bytes) :
    absolute (ofComponents true ds) p = ofComponents true
      ((components p).foldl (push true) (if isAbsolute p then [] else ds.reverse)).reverse := by
  rw [absolute]
  split
  · rename_i habs
    rw [clean, normalComponents, habs]
  · have hdir : ofComponents true ds = Byte.slash :: Bytes.joinWith [Byte.slash] ds := rfl
    have hjoin : join [ofComponents true ds, p]
        = clean (ofComponents true ds ++ Byte.slash :: p) := by
      simp [hdir, join, Bytes.joinWith]
    have habs : isAbsolute (ofComponents true ds ++ Byte.slash :: p) = true := by
      simp [hdir, isAbsolute]
    have hcomponents : components (ofComponents true ds ++ Byte.slash :: p)
        = ds ++ components p := by
      rw [components_append_slash, components_ofComponents fun d hd => (h d hd).toIsComponent]
    rw [hjoin, clean, normalComponents, habs, hcomponents, List.foldl_append,
      foldl_push_of_isName h, List.append_nil]

end KernelPack.Path
