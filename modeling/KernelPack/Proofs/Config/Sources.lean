import KernelPack.Proofs.Bytes.Order
import KernelPack.Proofs.Config.Matching
import KernelPack.Proofs.Outcome
import KernelPack.Proofs.Path.Relative
import Mathlib.Data.List.Sort

/-!
# Sources in a tree

Looking for sources only looks: it leaves the tree as it is, whatever it finds. A plain name stands
for the file that it leads to, and a pattern for the files that it matches (`Tree.StandsFor`). The
directory is put in front of a pattern before the pattern is read, so what is special in the name of
the directory is special in the pattern too.

What one pattern gives, and when it fails (`looks_sourcesOf`), makes up what patterns give together
(`looks_sourcesOfAll`), and there it no longer shows which of them came first. The list that is made
of it has each file once, as seen from the directory, in byte order, and there is one such list only
(`Tree.IsListing`, `looks_findSources_iff`). So the main statement is that the list goes by the set
of the patterns (`findSources_by_set`).

A listed source is the way from the directory to its file, so put below the directory it leads there
(`Tree.StandsFor.join_listedAs`). In particular the listed sources are **files of the tree**
(`looks_findSources`), and none is the empty path (`listedAs_ne_nil`).
-/

namespace KernelPack

variable {t : Tree}

namespace Tree

/-- The pattern or plain name stands for the file: it leads to it, or matches it. -/
inductive StandsFor (t : Tree) (dir : Bytes) : Bytes → Bytes → Prop where
  | named {name : Bytes} (h : Glob.isPattern name = false)
    (hfile : t.isFile (Path.join [dir, name]) = true) :
    StandsFor t dir name (Path.join [dir, name])
  | matched {pattern path : Bytes} (h : Glob.isPattern pattern = true)
    (hmatches : t.Matches (Path.join [dir, pattern]) path) (hfile : t.isFile path = true) :
    StandsFor t dir pattern path

/-- The pattern or plain name is good for something: a plain name leads to a file, and a pattern is
well-formed and, if it is asked for explicitly, matches something. -/
def Resolves (t : Tree) (dir : Bytes) (explicit : Bool) (pattern : Bytes) : Prop :=
  if Glob.isPattern pattern = true then
    Glob.WellFormed (Path.join [dir, pattern]) ∧
      (explicit = true → ∃ path, t.Matches (Path.join [dir, pattern]) path)
  else t.isFile (Path.join [dir, pattern]) = true

/-- The sources that patterns stand for, each once and in byte order, as seen from the directory. -/
structure IsListing (t : Tree) (dir : Bytes) (patterns sources : List Bytes) : Prop where
  ne_nil : sources ≠ []
  sorted : sources.Pairwise (· < ·)
  mem_iff : ∀ source, source ∈ sources ↔
    ∃ pattern ∈ patterns, ∃ path, t.StandsFor dir pattern path ∧ source = listedAs dir path

end Tree

theorem Tree.StandsFor.isFile {dir pattern path : Bytes} (h : t.StandsFor dir pattern path) :
    t.isFile path = true := by
  cases h with
  | named _ hfile => exact hfile
  | matched _ _ hfile => exact hfile

theorem Tree.standsFor_iff_of_plain {dir name path : Bytes} (h : Glob.isPattern name = false) :
    t.StandsFor dir name path ↔
      path = Path.join [dir, name] ∧ t.isFile (Path.join [dir, name]) = true := by
  constructor
  · rintro (⟨-, hfile⟩ | ⟨hnot, -, -⟩)
    · exact ⟨rfl, hfile⟩
    · rw [h] at hnot
      cases hnot
  · rintro ⟨rfl, hfile⟩
    exact .named h hfile

theorem Tree.standsFor_iff_of_pattern {dir pattern path : Bytes}
    (h : Glob.isPattern pattern = true) :
    t.StandsFor dir pattern path ↔
      t.Matches (Path.join [dir, pattern]) path ∧ t.isFile path = true := by
  constructor
  · rintro (⟨hnot, -⟩ | ⟨-, hmatches, hfile⟩)
    · rw [h] at hnot
      cases hnot
    · exact ⟨hmatches, hfile⟩
  · rintro ⟨hmatches, hfile⟩
    exact .matched h hmatches hfile

/-! ### Listed paths -/

/-- A path as listed is not empty. -/
theorem listedAs_ne_nil (dir : Bytes) {path : Bytes} (h : path ≠ []) : listedAs dir path ≠ [] := by
  unfold listedAs
  cases hrel : Path.relativeTo? dir path with
  | none => exact h
  | some r => exact Path.relativeTo?_ne_nil hrel

/-- A file goes up as far as the pattern below its directory does at least. -/
theorem Tree.StandsFor.isUnder {rooted : Bool} {k : Nat} {dir pattern path : Bytes}
    (h : t.StandsFor dir pattern path)
    (hpattern : Path.IsUnder rooted k (Path.join [dir, pattern])) : Path.IsUnder rooted k path := by
  cases h with
  | named _ _ => exact hpattern
  | matched _ hmatches _ => exact hmatches.isUnder hpattern

/-- Where nothing is put in front, an empty pattern stands for no file. -/
theorem Tree.StandsFor.pattern_ne_nil {pattern path : Bytes} (h : t.StandsFor [] pattern path) :
    pattern ≠ [] := by
  rintro rfl
  cases h with
  | named _ hfile => exact t.ne_nil_of_isFile hfile rfl
  | matched hnot _ _ => cases hnot

/-- **What is listed leads to the file**, once it is put below the directory. -/
theorem Tree.StandsFor.join_listedAs {dir pattern path : Bytes} (h : t.StandsFor dir pattern path) :
    Path.join [dir, listedAs dir path] = path := by
  by_cases hdir : dir = []
  · subst hdir
    have hunder : Path.IsUnder (Path.isAbsolute pattern) 0 path := h.isUnder <| by
      rw [Path.join_nil h.pattern_ne_nil]
      exact Path.isUnder_clean pattern
    cases hrel : Path.relativeTo? [] path with
    | none =>
      -- an absolute path is listed as it is
      rw [listedAs, hrel, Option.getD_none, Path.join_nil hunder.ne_nil, hunder.clean_eq]
    | some r => rw [listedAs, hrel, Option.getD_some, Path.join_relativeTo? hrel, hunder.clean_eq]
  · have hunder := h.isUnder (Path.isUnder_join hdir pattern)
    obtain ⟨r, hrel⟩ := Option.isSome_iff_exists.mp
      (Path.isSome_relativeTo?_iff.mpr ⟨hunder.isAbsolute_eq.symm, hunder.le_count⟩)
    rw [listedAs, hrel, Option.getD_some, Path.join_relativeTo? hrel, hunder.clean_eq]

/-! ### Looking for sources -/

/-- What a plain name gives. -/
theorem looks_sourcesOf_plain (dir : Bytes) (explicit : Bool) {name : Bytes}
    (h : Glob.isPattern name = false) :
    t.Looks (sourcesOf dir explicit name)
      (Lists (t.Resolves dir explicit name) (t.StandsFor dir name)) := by
  have hresolves : t.Resolves dir explicit name ↔
      t.inspect (Path.join [dir, name]) = .ok .file := by
    rw [Tree.Resolves, h, if_neg Bool.false_ne_true, Tree.isFile_eq_true_iff]
  unfold sourcesOf
  dsimp only
  rw [h, Bool.not_false, if_pos rfl]
  refine (Tree.Looks.inspect _).bind ?_
  rintro _ rfl
  split
  · rename_i e he
    exact .pure (.error fun hok => nomatch he.symm.trans (hresolves.mp hok))
  · rename_i hdir
    exact .pure (.error fun hok => nomatch hdir.symm.trans (hresolves.mp hok))
  · rename_i hfile
    refine .pure (.ok (hresolves.mpr hfile) fun path => ?_)
    rw [Tree.standsFor_iff_of_plain h, List.mem_singleton,
      and_iff_left (Tree.isFile_eq_true_iff.mpr hfile)]

/-- A match is looked at to see whether it is a file. -/
theorem looks_isFile (path : Bytes) : t.Looks
    (do match ← FileStore.inspect path with
      | .ok .file => return true
      | _ => return false)
    (· = t.isFile path) := by
  refine (Tree.Looks.inspect path).bind ?_
  rintro _ rfl
  split
  · rename_i hfile
    exact .pure (Tree.isFile_eq_true_iff.mpr hfile).symm
  · rename_i hnot
    exact .pure (Bool.eq_false_iff.mpr (mt Tree.isFile_eq_true_iff.mp hnot)).symm

/-- What a pattern gives: of its matches those that are files. -/
theorem looks_sourcesOf_pattern (dir : Bytes) (explicit : Bool) {pattern : Bytes}
    (h : Glob.isPattern pattern = true) :
    t.Looks (sourcesOf dir explicit pattern)
      (Lists (t.Resolves dir explicit pattern) (t.StandsFor dir pattern)) := by
  have hresolves : t.Resolves dir explicit pattern ↔
      Glob.WellFormed (Path.join [dir, pattern]) ∧
        (explicit = true → ∃ path, t.Matches (Path.join [dir, pattern]) path) := by
    rw [Tree.Resolves, if_pos h]
  unfold sourcesOf
  dsimp only
  rw [h, Bool.not_true, if_neg Bool.false_ne_true]
  refine (looks_glob _).bind fun found hfound => ?_
  split
  · exact .pure (.error fun hok => nomatch hfound.isOk_iff.mpr (hresolves.mp hok).1)
  rename_i matched
  have hmem := hfound.mem_iff _ rfl
  split
  · rename_i hnone
    obtain ⟨hempty, hexplicit⟩ := (Bool.and_eq_true _ _).mp hnone
    refine .pure (.error fun hok => ?_)
    obtain ⟨path, hpath⟩ := (hresolves.mp hok).2 hexplicit
    rw [← hmem, List.isEmpty_iff.mp hempty] at hpath
    cases hpath
  · rename_i hsome
    refine (Tree.Looks.filterM looks_isFile).bind ?_
    rintro _ rfl
    refine .pure (.ok (hresolves.mpr ⟨hfound.isOk_iff.mp rfl, fun hexplicit => ?_⟩) fun path => ?_)
    · obtain ⟨path, hpath⟩ := List.exists_mem_of_ne_nil matched (by simpa [hexplicit] using hsome)
      exact ⟨path, (hmem path).mp hpath⟩
    · rw [Tree.standsFor_iff_of_pattern h, List.mem_filter, hmem]

/-- **What a pattern or plain name gives** are the files it stands for. -/
theorem looks_sourcesOf (dir : Bytes) (explicit : Bool) (pattern : Bytes) :
    t.Looks (sourcesOf dir explicit pattern)
      (Lists (t.Resolves dir explicit pattern) (t.StandsFor dir pattern)) := by
  cases h : Glob.isPattern pattern with
  | false => exact looks_sourcesOf_plain dir explicit h
  | true => exact looks_sourcesOf_pattern dir explicit h

/-- **What patterns give together.** It does not matter which of them comes first. -/
theorem looks_sourcesOfAll (dir : Bytes) (explicit : Bool) (patterns : List Bytes) :
    t.Looks (sourcesOfAll dir explicit patterns)
      (Lists (∀ pattern ∈ patterns, t.Resolves dir explicit pattern)
        fun path => ∃ pattern ∈ patterns, t.StandsFor dir pattern path) := by
  induction patterns with
  | nil => exact .pure (.ok nofun fun path => by simp)
  | cons pattern patterns ih =>
    refine (looks_sourcesOf dir explicit pattern).bind fun here hhere => ?_
    rw [List.forall_mem_cons]
    split
    · exact .pure (.error fun hok => nomatch hhere.isOk_iff.mpr hok.1)
    refine ih.bind fun rest hrest => ?_
    split
    · exact .pure (.error fun hok => nomatch hrest.isOk_iff.mpr hok.2)
    refine .pure (.ok ⟨hhere.isOk_iff.mp rfl, hrest.isOk_iff.mp rfl⟩ fun path => ?_)
    rw [List.mem_append, hhere.mem_iff _ rfl, hrest.mem_iff _ rfl]
    simp

/-- The patterns that are looked for. -/
def askedFor (patterns : List Bytes) : List Bytes :=
  if !patterns.isEmpty then patterns else defaultPatterns

/-- A listing goes by which patterns there are. -/
theorem Tree.isListing_congr {dir : Bytes} {patterns patterns' sources : List Bytes}
    (h : ∀ p, p ∈ patterns ↔ p ∈ patterns') :
    t.IsListing dir patterns sources ↔ t.IsListing dir patterns' sources := by
  constructor
  · rintro ⟨hne, hsorted, hmem⟩
    exact ⟨hne, hsorted, fun source => by simp only [hmem, h]⟩
  · rintro ⟨hne, hsorted, hmem⟩
    exact ⟨hne, hsorted, fun source => by simp only [hmem, h]⟩

/-- There is one listing at most. -/
theorem Tree.IsListing.eq {dir : Bytes} {patterns sources sources' : List Bytes}
    (h : t.IsListing dir patterns sources) (h' : t.IsListing dir patterns sources') :
    sources = sources' :=
  h.sorted.eq_of_mem_iff h'.sorted fun source =>
    (h.mem_iff source).trans (h'.mem_iff source).symm

theorem Tree.IsListing.exists_standsFor {dir : Bytes} {patterns sources : List Bytes}
    (h : t.IsListing dir patterns sources) :
    ∃ pattern ∈ patterns, ∃ path, t.StandsFor dir pattern path := by
  obtain ⟨source, hsource⟩ := List.exists_mem_of_ne_nil sources h.ne_nil
  obtain ⟨pattern, hpattern, path, hstands, -⟩ := (h.mem_iff source).mp hsource
  exact ⟨pattern, hpattern, path, hstands⟩

/-- **The files of a listing**, put below the directory again, are those that the patterns stand
for. -/
theorem Tree.IsListing.exists_join_eq_iff {dir : Bytes} {patterns sources : List Bytes}
    (h : t.IsListing dir patterns sources) {path : Bytes} :
    (∃ source ∈ sources, Path.join [dir, source] = path) ↔
      ∃ pattern ∈ patterns, t.StandsFor dir pattern path := by
  constructor
  · rintro ⟨source, hsource, rfl⟩
    obtain ⟨pattern, hpattern, path, hstands, rfl⟩ := (h.mem_iff source).mp hsource
    exact ⟨pattern, hpattern, hstands.join_listedAs.symm ▸ hstands⟩
  · rintro ⟨pattern, hpattern, hstands⟩
    exact ⟨listedAs dir path, (h.mem_iff _).mpr ⟨pattern, hpattern, path, hstands, rfl⟩,
      hstands.join_listedAs⟩

/-- The paths that patterns stand for make up a listing, once they are seen from the directory,
freed of repetitions and sorted. -/
theorem isListing_mergeSort {dir : Bytes} {patterns paths : List Bytes}
    (hmem : ∀ path, path ∈ paths ↔ ∃ pattern ∈ patterns, t.StandsFor dir pattern path)
    (hne : (paths.map (listedAs dir)).eraseDups ≠ []) :
    t.IsListing dir patterns
      ((paths.map (listedAs dir)).eraseDups.mergeSort fun a b => !Bytes.before b a) where
  ne_nil := fun hnil => hne (List.perm_nil.mp (hnil ▸ (List.mergeSort_perm _ _).symm))
  sorted := Bytes.pairwise_mergeSort (nodup_eraseDups _)
  mem_iff := fun source => by
    rw [List.mem_mergeSort, List.mem_eraseDups, List.mem_map]
    constructor
    · rintro ⟨path, hpath, rfl⟩
      obtain ⟨pattern, hpattern, hstands⟩ := (hmem path).mp hpath
      exact ⟨pattern, hpattern, path, hstands, rfl⟩
    · rintro ⟨pattern, hpattern, path, hstands, rfl⟩
      exact ⟨path, (hmem path).mpr ⟨pattern, hpattern, hstands⟩, rfl⟩

theorem eraseDups_listedAs_ne_nil {dir : Bytes} {patterns paths : List Bytes}
    (hmem : ∀ path, path ∈ paths ↔ ∃ pattern ∈ patterns, t.StandsFor dir pattern path)
    (h : ∃ pattern ∈ patterns, ∃ path, t.StandsFor dir pattern path) :
    (paths.map (listedAs dir)).eraseDups ≠ [] := by
  obtain ⟨pattern, hpattern, path, hstands⟩ := h
  have hpath : path ∈ paths := (hmem path).mpr ⟨pattern, hpattern, hstands⟩
  exact List.ne_nil_of_mem (List.mem_eraseDups.mpr (List.mem_map_of_mem hpath))

/-- **What is found is the listing**, if every pattern is good for something. -/
theorem looks_findSources_iff (dir : Bytes) (patterns : List Bytes) :
    t.Looks (findSources dir patterns) fun found => ∀ sources, found = .ok sources ↔
      (∀ pattern ∈ askedFor patterns, t.Resolves dir (!patterns.isEmpty) pattern) ∧
        t.IsListing dir (askedFor patterns) sources := by
  refine (looks_sourcesOfAll dir _ (askedFor patterns)).bind fun found hfound => ?_
  split
  · exact .pure fun sources => iff_of_false nofun fun hok => nomatch hfound.isOk_iff.mpr hok.1
  rename_i paths
  have hresolve := hfound.isOk_iff.mp rfl
  have hmem := hfound.mem_iff paths rfl
  dsimp only
  split
  · rename_i hnone
    refine .pure fun sources => iff_of_false nofun fun ⟨_, hlisting⟩ => ?_
    exact eraseDups_listedAs_ne_nil hmem hlisting.exists_standsFor (List.isEmpty_iff.mp hnone)
  · rename_i hsome
    have hlisting := isListing_mergeSort hmem (mt List.isEmpty_iff.mpr hsome)
    refine .pure fun sources => ⟨fun heq => ?_, fun ⟨_, h⟩ => congrArg _ (hlisting.eq h)⟩
    obtain rfl := Except.ok.inj heq
    exact ⟨hresolve, hlisting⟩

/-- **The listed sources are files of the tree.** -/
theorem looks_findSources (dir : Bytes) (patterns : List Bytes) :
    t.Looks (findSources dir patterns) fun found => ∀ sources, found = .ok sources →
      ∀ source ∈ sources, ∃ path, t.isFile path = true ∧ source = listedAs dir path := by
  refine (looks_findSources_iff dir patterns).mono fun found hfound sources hsources => ?_
  have hlisting := ((hfound sources).mp hsources).2
  intro source hsource
  obtain ⟨pattern, -, path, hstands, rfl⟩ := (hlisting.mem_iff source).mp hsource
  exact ⟨path, hstands.isFile, rfl⟩

/-- The default patterns only count where nothing is asked for. -/
theorem looks_findSources_of_ne_nil (dir : Bytes) {patterns : List Bytes} (hne : patterns ≠ []) :
    t.Looks (findSources dir patterns) fun found => ∀ sources, found = .ok sources ↔
      (∀ pattern ∈ patterns, t.Resolves dir true pattern) ∧ t.IsListing dir patterns sources := by
  have hexplicit : (!patterns.isEmpty) = true := by simpa using hne
  have hlooks := looks_findSources_iff (t := t) dir patterns
  rwa [hexplicit, askedFor, if_pos hexplicit] at hlooks

/-- Patterns that are good for something and stand for some file have a listing. -/
theorem exists_isListing {dir : Bytes} {explicit : Bool} {patterns : List Bytes}
    (hresolve : ∀ pattern ∈ patterns, t.Resolves dir explicit pattern)
    (hstands : ∃ pattern ∈ patterns, ∃ path, t.StandsFor dir pattern path) :
    ∃ sources, t.IsListing dir patterns sources := by
  obtain ⟨found, -, hfound⟩ := looks_sourcesOfAll (t := t) dir explicit patterns
  obtain ⟨paths, rfl⟩ := Outcome.exists_eq_ok_of_isOk (hfound.isOk_iff.mpr hresolve)
  have hmem := hfound.mem_iff paths rfl
  exact ⟨_, isListing_mergeSort hmem (eraseDups_listedAs_ne_nil hmem hstands)⟩

/-- **Listing sources goes by the set of the patterns.** Whatever the tree and the directory, take
patterns and plain names, at least one, and the same ones in any order and with any repetitions:

* looking for sources leaves the tree as it is, and fails for both or gives both the same list;
* it succeeds exactly if every plain name leads to a file, every pattern is well-formed and matches
  something, and some file is named or matched;
* the list is not empty, strictly increasing in byte order, and has exactly the files that are named
  or matched, as they are seen from the directory: put below the directory, its members are these
  files again. -/
theorem findSources_by_set (t : Tree) (dir : Bytes) {patterns patterns' : List Bytes}
    (hne : patterns ≠ []) (hsame : ∀ p, p ∈ patterns ↔ p ∈ patterns') :
    ∃ found found', (findSources dir patterns : StateM Tree _).run t = (found, t) ∧
      (findSources dir patterns' : StateM Tree _).run t = (found', t) ∧
      (∀ sources, found = .ok sources ↔ found' = .ok sources) ∧
      ((∃ sources, found = .ok sources) ↔
        (∀ p ∈ patterns, t.Resolves dir true p) ∧
          ∃ p ∈ patterns, ∃ path, t.StandsFor dir p path) ∧
      ∀ sources, found = .ok sources → t.IsListing dir patterns sources ∧
        ∀ path, (∃ source ∈ sources, Path.join [dir, source] = path) ↔
          ∃ p ∈ patterns, t.StandsFor dir p path := by
  have hne' : patterns' ≠ [] := by
    obtain ⟨p, hp⟩ := List.exists_mem_of_ne_nil patterns hne
    exact List.ne_nil_of_mem ((hsame p).mp hp)
  obtain ⟨found, hrun, hfound⟩ := looks_findSources_of_ne_nil (t := t) dir hne
  obtain ⟨found', hrun', hfound'⟩ := looks_findSources_of_ne_nil (t := t) dir hne'
  refine ⟨found, found', hrun, hrun', fun sources => ?_, ⟨?_, ?_⟩, fun sources h => ?_⟩
  · rw [hfound, hfound', Tree.isListing_congr hsame]
    simp only [hsame]
  · rintro ⟨sources, h⟩
    obtain ⟨hresolve, hlisting⟩ := (hfound sources).mp h
    exact ⟨hresolve, hlisting.exists_standsFor⟩
  · rintro ⟨hresolve, hstands⟩
    obtain ⟨sources, hlisting⟩ := exists_isListing hresolve hstands
    exact ⟨sources, (hfound sources).mpr ⟨hresolve, hlisting⟩⟩
  · have hlisting := ((hfound sources).mp h).2
    exact ⟨hlisting, fun _ => hlisting.exists_join_eq_iff⟩

/-- Two sources of which one matches and the other is named, and a directory that is passed over;
asked for in two ways. -/
theorem findSources_by_set_notes :
    ∃ t : Tree, (∀ p, p ∈ [utf8 "*.c", utf8 "./n.txt"] ↔
        p ∈ [utf8 "./n.txt", utf8 "*.c", utf8 "*.c"]) ∧
      ((findSources Path.here [utf8 "*.c", utf8 "./n.txt"] : StateM Tree _).run t).1 =
        .ok [utf8 "a.c", utf8 "n.txt"] ∧
      ((findSources Path.here [utf8 "./n.txt", utf8 "*.c", utf8 "*.c"] : StateM Tree _).run t).1 =
        .ok [utf8 "a.c", utf8 "n.txt"] ∧
      t.IsListing Path.here [utf8 "*.c", utf8 "./n.txt"] [utf8 "a.c", utf8 "n.txt"] := by
  have hfind : ((findSources Path.here [utf8 "*.c", utf8 "./n.txt"] : StateM Tree _).run
      ⟨[([utf8 "n.txt"], .file []), ([utf8 "a.c"], .file []), ([utf8 "s.c"], .directory)], []⟩).1 =
        .ok [utf8 "a.c", utf8 "n.txt"] := by
    simp only [findSources, sourcesOfAll, sourcesOf, glob, globFrom, matchesIn, FileStore.names,
      Tree.names, Tree.children, Bytes.mergeSort_eq_insertionSort, List.isEmpty_cons,
      Bool.not_false, if_true]
    decide +kernel
  have hsame : ∀ p, p ∈ [utf8 "*.c", utf8 "./n.txt"] ↔
      p ∈ [utf8 "./n.txt", utf8 "*.c", utf8 "*.c"] := by
    simp [or_comm]
  obtain ⟨found, found', hrun, hrun', hboth, -, hlisting⟩ :=
    findSources_by_set ⟨[([utf8 "n.txt"], .file []), ([utf8 "a.c"], .file []),
      ([utf8 "s.c"], .directory)], []⟩ Path.here (List.cons_ne_nil _ _) hsame
  rw [hrun] at hfind
  refine ⟨_, hsame, ?_, ?_, (hlisting _ hfind).1⟩
  · rw [hrun, hfind]
  · rw [hrun', (hboth _).mp hfind]

end KernelPack
