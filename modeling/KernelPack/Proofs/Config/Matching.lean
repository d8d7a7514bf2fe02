import KernelPack.Config.Sources
import KernelPack.Proofs.Path.Normal
import KernelPack.Proofs.Storage.Looking

/-!
# Matching name patterns

A pattern is matched component by component. A pattern without special characters is a path, and
matches itself if it leads anywhere. Any other matches the entries of directories: what is in front
of its last component is a pattern again and matches the directories, and the last component covers
the names in them (`Tree.Matches`). Each of these patterns has to be well-formed by itself
(`Glob.WellFormed`): a set that is closed only behind a slash is not.

A path that is matched goes up as far as the pattern does at least, since no step up is special
(`Tree.Matches.isUnder`).

Searching a tree gives exactly the paths that match, and fails exactly if the pattern is not
well-formed (`looks_glob`). The bound on the components is never met, since a pattern in front of a
slash is shorter.
-/

namespace KernelPack

/-- The last component of a pattern. -/
def patternName (pattern : Bytes) : Bytes :=
  (pattern.reverse.takeWhile (· != Byte.slash)).reverse

/-- A directory part in which something is special is shorter than the pattern. -/
theorem length_patternDirectory_lt {pattern : Bytes}
    (h : Glob.hasMeaning (patternDirectory pattern) = true) :
    (patternDirectory pattern).length < pattern.length := by
  have hle : (pattern.reverse.dropWhile (· != Byte.slash)).length ≤ pattern.length :=
    (List.dropWhile_sublist _).length_le.trans_eq List.length_reverse
  have hhead := List.head?_dropWhile_not (· != Byte.slash) pattern.reverse
  rw [← List.length_reverse] at hle
  unfold patternDirectory at h ⊢
  split at h
  · exact absurd h (by decide)
  · -- the root
    rename_i b hb
    rw [List.reverse_eq_iff.mp hb] at hhead
    obtain rfl : b = Byte.slash := by simpa using hhead
    exact absurd h (by decide)
  · rename_i hnil _
    have hpos := List.length_pos_iff.mpr hnil
    rw [List.length_dropLast]
    omega

/-- The directory part is cut off at the last slash. -/
theorem patternDirectory_append_slash (dir : Bytes) {name : Bytes} (h : Byte.slash ∉ name) :
    patternDirectory (dir ++ Byte.slash :: name) = if dir = [] then [Byte.slash] else dir := by
  have hall : ∀ b ∈ name.reverse, (b != Byte.slash) = true := fun b hb =>
    bne_iff_ne.mpr fun he => h (he ▸ List.mem_reverse.mp hb)
  have hcut : ((dir ++ Byte.slash :: name).reverse.dropWhile (· != Byte.slash)).reverse =
      dir ++ [Byte.slash] := by
    rw [List.reverse_append, List.reverse_cons, List.append_assoc,
      List.dropWhile_append_of_pos hall]
    simp
  rw [patternDirectory, hcut]
  cases dir with
  | nil => rfl
  | cons b dir =>
    rw [if_neg (List.cons_ne_nil b dir)]
    cases dir with
    | nil => rfl
    | cons d dir =>
      show (b :: d :: dir ++ [Byte.slash]).dropLast = b :: d :: dir
      exact List.dropLast_concat

/-- What has no slash lies in the directory that the search begins with. -/
theorem patternDirectory_of_slash_not_mem {name : Bytes} (h : Byte.slash ∉ name) :
    patternDirectory name = Path.here := by
  have hcut : name.reverse.dropWhile (· != Byte.slash) = [] :=
    List.dropWhile_eq_nil_iff.mpr fun b hb =>
      bne_iff_ne.mpr fun he => h (he ▸ List.mem_reverse.mp hb)
  rw [patternDirectory, hcut]
  rfl

/-- **The directory part of a path in normal form** has all components but the last. -/
theorem patternDirectory_ofComponents {rooted : Bool} {cs : List Bytes} {c : Bytes}
    (h : ∀ d ∈ cs ++ [c], Path.IsComponent d) :
    patternDirectory (Path.ofComponents rooted (cs ++ [c])) = Path.ofComponents rooted cs := by
  have hslash : Byte.slash ∉ c := (h c (by simp)).slash_not_mem
  by_cases hne : cs = []
  · subst hne
    have hjoin : Bytes.joinWith [Byte.slash] [c] = c := by simp [Bytes.joinWith]
    cases rooted with
    | true =>
      have hroot : Path.ofComponents true ([] ++ [c]) = [] ++ Byte.slash :: c := by
        simp [Path.ofComponents, hjoin]
      rw [hroot, patternDirectory_append_slash _ hslash, if_pos rfl]
      rfl
    | false =>
      have hname : Path.ofComponents false ([] ++ [c]) = c := by simp [Path.ofComponents, hjoin]
      rw [hname, patternDirectory_of_slash_not_mem hslash]
      rfl
  · have hdir : Path.ofComponents rooted cs ≠ [] :=
      Path.ofComponents_ne_nil fun d hd => h d (List.mem_append_left _ hd)
    rw [Path.ofComponents_concat hne, patternDirectory_append_slash _ hslash, if_neg hdir]

namespace Glob

theorem hasMeaning_eq_true_iff {p : Bytes} : hasMeaning p = true ↔
    ∃ b ∈ p, b = Byte.star ∨ b = 63 ∨ b = 91 ∨ b = Byte.backslash := by
  simp only [hasMeaning, isPattern, Bool.or_eq_true, List.any_eq_true, List.contains_iff_mem,
    beq_iff_eq, or_assoc]
  constructor
  · rintro (⟨b, hb, h⟩ | hescape)
    · exact ⟨b, hb, h.imp_right (Or.imp_right .inl)⟩
    · exact ⟨_, hescape, .inr (.inr (.inr rfl))⟩
  · rintro ⟨b, hb, hstar | hany | hset | rfl⟩
    · exact .inl ⟨b, hb, .inl hstar⟩
    · exact .inl ⟨b, hb, .inr (.inl hany)⟩
    · exact .inl ⟨b, hb, .inr (.inr hset)⟩
    · exact .inr hb

/-- What is special in a path in normal form is special in one of its components. -/
theorem exists_hasMeaning {rooted : Bool} {cs : List Bytes}
    (h : hasMeaning (Path.ofComponents rooted cs) = true) : ∃ c ∈ cs, hasMeaning c = true := by
  obtain ⟨b, hb, hspecial⟩ := hasMeaning_eq_true_iff.mp h
  have hslash : b ≠ Byte.slash := by
    rintro rfl
    exact absurd hspecial (by decide)
  suffices hmem : b ∈ Bytes.joinWith [Byte.slash] cs by
    obtain hsep | ⟨c, hc, hbc⟩ := Bytes.mem_joinWith hmem
    · exact absurd hsep hslash
    · exact ⟨c, hc, hasMeaning_eq_true_iff.mpr ⟨b, hbc, hspecial⟩⟩
  rw [Path.ofComponents] at hb
  split at hb
  · exact (List.mem_cons.mp hb).resolve_left hslash
  split at hb
  · -- the directory itself
    obtain rfl := List.mem_singleton.mp hb
    exact absurd hspecial (by decide)
  · exact hb

theorem of_hasMeaning_cons {b : UInt8} {p : Bytes} (h : hasMeaning (b :: p) = false) :
    (b ≠ Byte.star ∧ b ≠ 63 ∧ b ≠ 91 ∧ b ≠ Byte.backslash) ∧ hasMeaning p = false := by
  simp only [hasMeaning, isPattern, List.any_cons, List.contains_cons, Bool.or_eq_false_iff,
    beq_eq_false_iff_ne] at h ⊢
  obtain ⟨⟨⟨⟨hstar, hany⟩, hset⟩, hrest⟩, hescape, hrest'⟩ := h
  exact ⟨⟨hstar, hany, hset, Ne.symm hescape⟩, hrest, hrest'⟩

theorem isSome_parseFrom {fuel : Nat} {p : Bytes} (hfuel : p.length < fuel)
    (h : hasMeaning p = false) (floating : Bool) (items : List Item) :
    (parseFrom fuel floating items p).isSome = true := by
  induction p generalizing fuel items with
  | nil =>
    cases fuel with
    | zero => exact absurd hfuel (Nat.not_lt_zero _)
    | succ fuel => rfl
  | cons b p ih =>
    obtain ⟨⟨hstar, hany, hset, hescape⟩, hrest⟩ := of_hasMeaning_cons h
    cases fuel with
    | zero => exact absurd hfuel (Nat.not_lt_zero _)
    | succ fuel =>
      simp only [parseFrom, if_neg hstar, if_neg hany, if_neg hset, if_neg hescape]
      exact ih (Nat.lt_of_succ_lt_succ hfuel) hrest _

/-- What has no special characters can be read. -/
theorem isSome_parse?_of_hasMeaning_eq_false {p : Bytes} (h : hasMeaning p = false) :
    (parse? p).isSome = true :=
  isSome_parseFrom (Nat.lt_succ_self _) h _ _

/-- The pattern can be read, and so can all that are matched on its behalf: its last component, and
what is in front of that. -/
inductive WellFormed : Bytes → Prop where
  | literal {p : Bytes} (h : hasMeaning p = false) : WellFormed p
  | nested {p : Bytes} (h : hasMeaning p = true) (hparse : (parse? p).isSome = true)
    (hname : (parse? (patternName p)).isSome = true) (hdir : WellFormed (patternDirectory p)) :
    WellFormed p

theorem wellFormed_iff {p : Bytes} (h : hasMeaning p = true) (hparse : (parse? p).isSome = true) :
    WellFormed p ↔ (parse? (patternName p)).isSome = true ∧ WellFormed (patternDirectory p) := by
  constructor
  · rintro (hnot | ⟨-, -, hname, hdir⟩)
    · rw [h] at hnot
      cases hnot
    · exact ⟨hname, hdir⟩
  · rintro ⟨hname, hdir⟩
    exact .nested h hparse hname hdir

end Glob

/-- The pattern matches the path. -/
inductive Tree.Matches (t : Tree) : Bytes → Bytes → Prop where
  | literal {path : Bytes} (h : Glob.hasMeaning path = false)
    (hexists : ∃ kind, t.inspect path = .ok kind) : Matches t path path
  | entry {pattern dir name : Bytes} {segments : List Glob.Segment}
    (h : Glob.hasMeaning pattern = true) (hdir : Matches t (patternDirectory pattern) dir)
    (hparse : Glob.parse? (patternName pattern) = some segments) (hname : name ∈ t.names dir)
    (hcovers : Glob.covers segments name = true) : Matches t pattern (Path.join [dir, name])

/-- **The directory part of a pattern** lies below what the pattern lies below, because a step up is
not special. -/
theorem isUnder_patternDirectory {rooted : Bool} {k : Nat} {pattern : Bytes}
    (h : Glob.hasMeaning pattern = true) (hunder : Path.IsUnder rooted k pattern) :
    Path.IsUnder rooted k (patternDirectory pattern) := by
  have hnormal := Path.isNormal_normalComponents pattern
  have hpattern : pattern = Path.ofComponents rooted (Path.normalComponents pattern) := by
    rw [← hunder.isAbsolute_eq]
    exact hunder.clean_eq.symm
  have hcount := hunder.le_count
  rw [hunder.isAbsolute_eq] at hnormal
  rw [hpattern] at h ⊢
  generalize Path.normalComponents pattern = cs at hnormal h hcount
  obtain ⟨special, hspecial, hmeaning⟩ := Glob.exists_hasMeaning h
  obtain rfl | ⟨front, c, rfl⟩ := List.eq_nil_or_concat' cs
  · cases hspecial
  rw [patternDirectory_ofComponents fun d hd => hnormal.isComponent d (List.mem_reverse.mpr hd)]
  rw [List.reverse_append, List.reverse_singleton, List.singleton_append] at hnormal
  have hc : c ≠ Path.up := by
    rintro rfl
    -- there would be steps up only
    have hup : special = Path.up := by
      obtain hfront | hlast := List.mem_append.mp hspecial
      · exact hnormal.eq_up_of_mem special (List.mem_reverse.mpr hfront)
      · exact List.mem_singleton.mp hlast
    rw [hup] at hmeaning
    exact absurd hmeaning (by decide)
  refine Path.isUnder_ofComponents hnormal.tail ?_
  rwa [List.count_append, List.count_singleton, if_neg (by simpa using hc), Nat.add_zero] at hcount

/-- **What a pattern matches** lies below what the pattern lies below. -/
theorem Tree.Matches.isUnder {t : Tree} {rooted : Bool} {k : Nat} {pattern path : Bytes}
    (h : t.Matches pattern path) (hpattern : Path.IsUnder rooted k pattern) :
    Path.IsUnder rooted k path := by
  induction h with
  | literal _ _ => exact hpattern
  | entry h _ _ _ _ ih => exact (ih (isUnder_patternDirectory h hpattern)).join _

/-- The outcome of a search: it fails unless it is possible, and what it gives are the members. -/
structure Lists (possible : Prop) (member : Bytes → Prop)
    (found : Except SourcesError (List Bytes)) : Prop where
  isOk_iff : found.isOk = true ↔ possible
  mem_iff : ∀ paths, found = .ok paths → ∀ path, path ∈ paths ↔ member path

namespace Lists

variable {possible : Prop} {member : Bytes → Prop}

theorem ok {paths : List Bytes} (h : possible) (hmem : ∀ path, path ∈ paths ↔ member path) :
    Lists possible member (.ok paths) := by
  refine ⟨iff_of_true rfl h, fun paths' heq => ?_⟩
  obtain rfl := Except.ok.inj heq
  exact hmem

theorem error {e : SourcesError} (h : ¬ possible) : Lists possible member (.error e) :=
  ⟨iff_of_false nofun h, nofun⟩

end Lists

variable {t : Tree}

/-- The entries of a directory that a name pattern covers, as paths. -/
def Tree.entries (t : Tree) (segments : List Glob.Segment) (dir : Bytes) : List Bytes :=
  ((t.names dir).filter (Glob.covers segments)).map fun n => Path.join [dir, n]

theorem mem_entries {segments : List Glob.Segment} {dir path : Bytes} :
    path ∈ t.entries segments dir ↔
      ∃ name ∈ t.names dir, Glob.covers segments name = true ∧ path = Path.join [dir, name] := by
  simp only [Tree.entries, List.mem_map, List.mem_filter, and_assoc, eq_comm (a := path)]

theorem looks_matchesIn (segments : List Glob.Segment) (dir : Bytes) :
    t.Looks (matchesIn segments dir) (· = t.entries segments dir) := by
  refine (Tree.Looks.inspect dir).bind ?_
  rintro _ rfl
  split
  · refine (Tree.Looks.names dir).bind ?_
    rintro _ rfl
    exact .pure rfl
  · rename_i hdir
    have hnone : t.names dir = [] := List.eq_nil_iff_forall_not_mem.mpr fun name hname =>
      hdir (Tree.inspect_of_mem_names hname)
    exact .pure (by rw [Tree.entries, hnone]; rfl)

/-- What a pattern with special characters matches, by what its directory part matches. -/
theorem matches_iff {pattern path : Bytes} {segments : List Glob.Segment}
    (h : Glob.hasMeaning pattern = true)
    (hparse : Glob.parse? (patternName pattern) = some segments) :
    t.Matches pattern path ↔
      ∃ dir, t.Matches (patternDirectory pattern) dir ∧ path ∈ t.entries segments dir := by
  constructor
  · rintro (⟨hnot, -⟩ | ⟨-, hdir, hparse', hname, hcovers⟩)
    · rw [h] at hnot
      cases hnot
    · obtain rfl := Option.some.inj (hparse.symm.trans hparse')
      exact ⟨_, hdir, mem_entries.mpr ⟨_, hname, hcovers, rfl⟩⟩
  · rintro ⟨dir, hdir, hmem⟩
    obtain ⟨name, hname, hcovers, rfl⟩ := mem_entries.mp hmem
    exact .entry h hdir hparse hname hcovers

/-- A pattern without special characters matches itself at most. -/
theorem matches_iff_of_literal {pattern path : Bytes} (h : Glob.hasMeaning pattern = false) :
    t.Matches pattern path ↔ path = pattern ∧ ∃ kind, t.inspect pattern = .ok kind := by
  constructor
  · rintro (⟨-, hexists⟩ | ⟨hnot, -⟩)
    · exact ⟨rfl, hexists⟩
    · rw [h] at hnot
      cases hnot
  · rintro ⟨rfl, hexists⟩
    exact .literal h hexists

/-- A search for a pattern without special characters gives it if it leads anywhere. -/
theorem lists_of_literal {pattern : Bytes} (h : Glob.hasMeaning pattern = false)
    {found : List Bytes}
    (hfound : ∀ path, path ∈ found ↔ path = pattern ∧ ∃ kind, t.inspect pattern = .ok kind) :
    Lists (Glob.WellFormed pattern) (t.Matches pattern) (.ok found) :=
  .ok (.literal h) fun path => by rw [matches_iff_of_literal h, hfound]

section Entries

variable {pattern : Bytes} {segments : List Glob.Segment} (h : Glob.hasMeaning pattern = true)
  (hparse : (Glob.parse? pattern).isSome = true)
  (hname : Glob.parse? (patternName pattern) = some segments)

include h hparse hname

/-- A pattern whose last component can be read is as well-formed as its directory part. -/
theorem wellFormed_iff_directory :
    Glob.WellFormed pattern ↔ Glob.WellFormed (patternDirectory pattern) := by
  rw [Glob.wellFormed_iff h hparse, hname]
  exact and_iff_right rfl

/-- If the directory part has no special characters, a search gives the entries of that directory
which the last component covers. -/
theorem lists_entries (hdir : Glob.hasMeaning (patternDirectory pattern) = false) :
    Lists (Glob.WellFormed pattern) (t.Matches pattern)
      (.ok (t.entries segments (patternDirectory pattern))) := by
  refine .ok ((wellFormed_iff_directory h hparse hname).mpr (.literal hdir)) fun path => ?_
  rw [matches_iff h hname]
  constructor
  · intro hmem
    obtain ⟨name, hentry, -⟩ := mem_entries.mp hmem
    exact ⟨_, .literal hdir ⟨_, Tree.inspect_of_mem_names hentry⟩, hmem⟩
  · rintro ⟨dir, hmatches, hmem⟩
    rwa [((matches_iff_of_literal hdir).mp hmatches).1] at hmem

/-- If the directory part is searched first, a search gives such entries of all directories that
were found. -/
theorem lists_flatten_entries {dirs : List Bytes}
    (hdirs : Lists (Glob.WellFormed (patternDirectory pattern))
      (t.Matches (patternDirectory pattern)) (.ok dirs)) :
    Lists (Glob.WellFormed pattern) (t.Matches pattern)
      (.ok (dirs.map (t.entries segments)).flatten) := by
  have hformed := (wellFormed_iff_directory h hparse hname).mpr (hdirs.isOk_iff.mp rfl)
  refine .ok hformed fun path => ?_
  rw [matches_iff h hname, List.mem_flatten]
  simp only [List.mem_map, exists_exists_and_eq_and, hdirs.mem_iff _ rfl]

end Entries

/-- **A search gives the paths that match**, if it is long enough. -/
theorem looks_globFrom {depth : Nat} {pattern : Bytes} (hdepth : pattern.length < depth) :
    t.Looks (globFrom depth pattern) (Lists (Glob.WellFormed pattern) (t.Matches pattern)) := by
  induction depth generalizing pattern with
  | zero => exact absurd hdepth (Nat.not_lt_zero _)
  | succ depth ih =>
    unfold globFrom
    split
    · rename_i hnone
      have hnone : (Glob.parse? pattern).isSome ≠ true := by simpa using hnone
      refine .pure (.error fun hformed => hnone ?_)
      obtain hliteral | ⟨-, hparse, -, -⟩ := hformed
      · exact Glob.isSome_parse?_of_hasMeaning_eq_false hliteral
      · exact hparse
    rename_i hparse
    have hparse : (Glob.parse? pattern).isSome = true := by
      simpa [Option.isSome_iff_ne_none] using hparse
    split
    · rename_i hliteral
      have hliteral : Glob.hasMeaning pattern = false := by simpa using hliteral
      refine (Tree.Looks.inspect pattern).bind ?_
      rintro _ rfl
      split
      · rename_i kind hkind
        exact .pure (lists_of_literal hliteral (by simp [hkind]))
      · rename_i e he
        exact .pure (lists_of_literal hliteral (by simp [he]))
    rename_i hspecial
    have hspecial : Glob.hasMeaning pattern = true := by simpa using hspecial
    dsimp only
    split
    · rename_i hname
      refine .pure (.error fun hformed => ?_)
      obtain ⟨hname', -⟩ := (Glob.wellFormed_iff hspecial hparse).mp hformed
      rw [patternName, hname] at hname'
      cases hname'
    rename_i segments hname
    split
    · rename_i hdir
      refine (looks_matchesIn segments _).bind ?_
      rintro _ rfl
      exact .pure (lists_entries hspecial hparse hname (by simpa using hdir))
    · -- the directory part is shorter, so the search for it is long enough
      rename_i hdir
      have hmeaning : Glob.hasMeaning (patternDirectory pattern) = true := by simpa using hdir
      have hshorter := length_patternDirectory_lt hmeaning
      refine (ih (by omega)).bind fun found hfound => ?_
      split
      · have hwell := wellFormed_iff_directory hspecial hparse hname
        exact .pure (.error fun hformed => nomatch hfound.isOk_iff.mpr (hwell.mp hformed))
      · refine (Tree.Looks.mapM fun dir => looks_matchesIn segments dir).bind ?_
        rintro _ rfl
        exact .pure (lists_flatten_entries hspecial hparse hname hfound)

/-- **What a search gives.** -/
theorem looks_glob (pattern : Bytes) :
    t.Looks (glob pattern) (Lists (Glob.WellFormed pattern) (t.Matches pattern)) :=
  looks_globFrom (Nat.lt_succ_self _)

end KernelPack
