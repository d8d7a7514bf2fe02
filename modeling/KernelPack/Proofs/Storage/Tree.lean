import KernelPack.Proofs.Outcome
import KernelPack.Proofs.Path.Components
import KernelPack.Storage.Tree

/-!
# Reading and writing in a tree

Writing a file never makes a directory nor removes one, so all trees that come from one another by
writing have the same **shape** (`SameShape`): the same directories and the same working directory.
The shape alone decides where a path leads and whether it can be written; only the cause of a
failure may change, since a file may come to stand where nothing stood (`write_congr`).

A path that leads anywhere leads to the place that its absolute form spells (`locate_absolute`),
since a tree has no links. Paths that do not lead to one place are **apart**, as are those of two
files of one directory (`apart_join`). Writing some files leaves the tree the same at every other
place (`Rewrites.sameBut`), and so leaves what is read by a path that is apart from theirs
(`Rewrites.content?_of_apart`).
-/

namespace KernelPack

/-- The failure with its cause left open: what was tried, and with which file. -/
def FileError.withoutCause (e : FileError) : FileError := { e with cause := .faulty }

namespace Tree

/-! ### The tree as the state of a computation -/

@[simp]
theorem run_workingDirectory (t : Tree) :
    (FileStore.workingDirectory : StateM Tree Bytes).run t
      = pure (Path.ofComponents true t.workingLocation, t) := rfl

@[simp]
theorem run_inspect (t : Tree) (path : Bytes) :
    (FileStore.inspect path : StateM Tree _).run t = pure (t.inspect path, t) := rfl

@[simp]
theorem run_read (t : Tree) (path : Bytes) :
    (FileStore.read path : StateM Tree _).run t = pure (t.read path, t) := rfl

theorem run_write_error {t : Tree} {path content : Bytes} {e : FileError}
    (h : t.write path content = .error e) :
    (FileStore.write path content : StateM Tree _).run t = pure (.error e, t) := by
  simp [FileStore.write, h]

theorem run_write_ok {t t' : Tree} {path content : Bytes} (h : t.write path content = .ok t') :
    (FileStore.write path content : StateM Tree _).run t = pure (.ok (), t') := by
  simp [FileStore.write, h]

/-! ### Places -/

/-- A place below the root holds what was last put there. -/
theorem node?_put {t : Tree} {p : Location} (hp : p ≠ []) (n : Node) (q : Location) :
    (t.put p n).node? q = if q = p then some n else t.node? q := by
  have hfilter : ∀ ns : List (Location × Node), q ≠ p →
      (ns.filter (·.1 != p)).lookup q = ns.lookup q := by
    intro ns hq
    induction ns with
    | nil => rfl
    | cons a ns ih =>
      obtain ⟨r, m⟩ := a
      by_cases hr : r = p
      · have hne : (q == r) = false := by simpa [hr] using hq
        simp [hr, List.lookup_cons, ih, hr ▸ hne]
      · simp [hr, List.lookup_cons, ih]
  unfold node? put
  split
  · rename_i hroot
    have hq : q ≠ p := fun h => hp (h ▸ List.isEmpty_iff.mp hroot)
    rw [if_neg hq]
  · by_cases hq : q = p
    · simp [hq]
    · have hne : (q == p) = false := by simpa using hq
      simp [hq, List.lookup_cons, hne, hfilter]

theorem node?_nil (t : Tree) : t.node? [] = some .directory := rfl

/-! ### Where a path leads -/

/-- The working directory is reached by names. -/
def IsPlaced (t : Tree) : Prop := ∀ c ∈ t.workingLocation, Path.IsName c

/-- The working directory as a path. -/
def cwd (t : Tree) : Bytes := Path.ofComponents true t.workingLocation

/-- The place that a component leads to from another. -/
def enter (p : Location) (c : Bytes) : Location :=
  if c = Path.here then p else if c = Path.up then p.dropLast else p ++ [c]

/-- Names can be followed exactly if the place is a directory, the first name is not too long, and
the others can be followed from where it leads. -/
theorem follow_cons_eq_ok_iff {t : Tree} {p q : Location} {c : Bytes} {cs : List Bytes} :
    t.follow p (c :: cs) = .ok q ↔ t.node? p = some .directory ∧
      (c = Path.here ∨ c = Path.up ∨ c.length ≤ nameLimit) ∧ t.follow (enter p c) cs = .ok q := by
  rw [follow, enter]
  cases hnode : t.node? p with
  | none => exact iff_of_false nofun nofun
  | some n =>
    cases n with
    | file content => exact iff_of_false nofun nofun
    | directory =>
      by_cases hhere : c = Path.here
      · simp [hhere]
      by_cases hup : c = Path.up
      · simp [hup, show Path.up ≠ Path.here by decide]
      by_cases hlong : nameLimit < c.length
      · simp [hhere, hup, hlong, Nat.not_le.mpr hlong]
      · simp [hhere, hup, hlong, Nat.not_lt.mp hlong]

theorem reverse_enter {p : Location} (hp : Path.up ∉ p) (c : Bytes) :
    (enter p c).reverse = Path.push true p.reverse c := by
  unfold enter Path.push
  split
  · rfl
  split
  · rcases List.eq_nil_or_concat p with rfl | ⟨ds, d, rfl⟩
    · rfl
    · have hd : d ≠ Path.up := by
        rintro rfl
        simp at hp
      simp [hd]
  · simp

theorem up_not_mem_enter {p : Location} (hp : Path.up ∉ p) (c : Bytes) :
    Path.up ∉ enter p c := by
  unfold enter
  split
  · exact hp
  split
  · exact fun h => hp ((List.dropLast_sublist p).mem h)
  · rename_i hup
    simp [hp, Ne.symm hup]

/-- Following names comes to pushing them on the names of the place. -/
theorem reverse_of_follow {t : Tree} {p q : Location} {cs : List Bytes} (hp : Path.up ∉ p)
    (h : t.follow p cs = .ok q) : q.reverse = cs.foldl (Path.push true) p.reverse := by
  induction cs generalizing p with
  | nil => rw [Except.ok.inj h, List.foldl_nil]
  | cons c cs ih =>
    obtain ⟨-, -, hrest⟩ := follow_cons_eq_ok_iff.mp h
    rw [ih (up_not_mem_enter hp c) hrest, reverse_enter hp, List.foldl_cons]

/-- A path leads to a place if it can be used at all and its components can be followed. -/
theorem locate_eq_ok_iff {t : Tree} {path : Bytes} {p : Location} :
    t.locate path = .ok p ↔ (0 ∉ path ∧ path ≠ [] ∧ path.length ≤ pathLimit) ∧
      t.follow (if Path.isAbsolute path then [] else t.workingLocation) (Path.components path)
        = .ok p := by
  unfold locate
  by_cases hzero : 0 ∈ path
  · simp [hzero]
  by_cases hempty : path = []
  · simp [hempty]
  by_cases hlong : pathLimit < path.length
  · simp [hzero, hempty, hlong, Nat.not_le.mpr hlong]
  · simp [hzero, hempty, hlong, Nat.not_lt.mp hlong]

/-- **A path leads to the place that its absolute form spells.** -/
theorem locate_absolute {t : Tree} (hplaced : t.IsPlaced) {path : Bytes} {p : Location}
    (h : t.locate path = .ok p) : Path.absolute t.cwd path = Path.ofComponents true p := by
  have hup : Path.up ∉ if Path.isAbsolute path then [] else t.workingLocation := by
    split
    · exact List.not_mem_nil
    · exact fun hmem => (hplaced _ hmem).ne_up rfl
  have hp := reverse_of_follow hup (locate_eq_ok_iff.mp h).2
  rw [cwd, Path.absolute_ofComponents hplaced, ← List.reverse_reverse p, hp]
  split <;> rfl

/-- A path that ends in a name leads to a place of this name. -/
theorem getLast?_of_locate {t : Tree} {path c : Bytes} {cs : List Bytes} {p : Location}
    (hc : Path.IsName c) (hpath : Path.components path = cs ++ [c]) (h : t.locate path = .ok p) :
    p.getLast? = some c := by
  have hfollow : ∀ (ds : List Bytes) (q : Location), t.follow q (ds ++ [c]) = .ok p →
      p.getLast? = some c := by
    intro ds
    induction ds with
    | nil =>
      intro q hq
      obtain ⟨-, -, hend⟩ := follow_cons_eq_ok_iff.mp hq
      rw [← Except.ok.inj hend, enter, if_neg hc.ne_here, if_neg hc.ne_up, List.getLast?_concat]
    | cons d ds ih =>
      intro q hq
      obtain ⟨-, -, hrest⟩ := follow_cons_eq_ok_iff.mp hq
      exact ih _ hrest
  have hlead := (locate_eq_ok_iff.mp h).2
  rw [hpath] at hlead
  exact hfollow cs _ hlead

/-! ### Paths apart -/

/-- The paths do not lead to one place. -/
def Apart (t : Tree) (path other : Bytes) : Prop :=
  ∀ p, t.locate path = .ok p → t.locate other ≠ .ok p

/-- Paths of different absolute forms are apart. -/
theorem apart_of_absolute_ne {t : Tree} (hplaced : t.IsPlaced) {path other : Bytes}
    (hne : Path.absolute t.cwd path ≠ Path.absolute t.cwd other) : t.Apart path other :=
  fun _ hp hq => hne ((locate_absolute hplaced hp).trans (locate_absolute hplaced hq).symm)

/-- **Files of different names in one directory are apart.** -/
theorem apart_join (t : Tree) {d c e : Bytes} (hc : Path.IsName c) (he : Path.IsName e)
    (hne : c ≠ e) : t.Apart (Path.join [d, c]) (Path.join [d, e]) := by
  intro p hp hq
  obtain ⟨cs, hcs⟩ := Path.exists_components_join d hc
  obtain ⟨es, hes⟩ := Path.exists_components_join d he
  have hlast := getLast?_of_locate hc hcs hp
  rw [getLast?_of_locate he hes hq] at hlast
  exact hne (Option.some.inj hlast).symm

/-! ### The shape of a tree -/

/-- The trees have the same directories and the same working directory. -/
structure SameShape (t t' : Tree) : Prop where
  workingLocation_eq : t.workingLocation = t'.workingLocation
  directory_iff : ∀ p, t.node? p = some .directory ↔ t'.node? p = some .directory

namespace SameShape

variable {t t' t'' : Tree}

theorem refl (t : Tree) : SameShape t t := ⟨rfl, fun _ => Iff.rfl⟩

theorem symm (h : SameShape t t') : SameShape t' t :=
  ⟨h.workingLocation_eq.symm, fun p => (h.directory_iff p).symm⟩

theorem trans (h : SameShape t t') (h' : SameShape t' t'') : SameShape t t'' :=
  ⟨h.workingLocation_eq.trans h'.workingLocation_eq,
    fun p => (h.directory_iff p).trans (h'.directory_iff p)⟩

theorem cwd_eq (h : SameShape t t') : t'.cwd = t.cwd := by
  rw [cwd, cwd, h.workingLocation_eq]

theorem isPlaced (h : SameShape t t') (hplaced : t.IsPlaced) : t'.IsPlaced := by
  rw [IsPlaced, ← h.workingLocation_eq]
  exact hplaced

/-- The shape decides where names lead. -/
theorem follow_eq_ok_iff (h : SameShape t t') {p q : Location} {cs : List Bytes} :
    t.follow p cs = .ok q ↔ t'.follow p cs = .ok q := by
  induction cs generalizing p with
  | nil => exact Iff.rfl
  | cons c cs ih => rw [follow_cons_eq_ok_iff, follow_cons_eq_ok_iff, h.directory_iff, ih]

/-- The shape decides where a path leads. -/
theorem locate_eq_ok_iff (h : SameShape t t') {path : Bytes} {p : Location} :
    t.locate path = .ok p ↔ t'.locate path = .ok p := by
  rw [Tree.locate_eq_ok_iff, Tree.locate_eq_ok_iff, h.workingLocation_eq, h.follow_eq_ok_iff]

/-- The shape decides which paths are apart. -/
theorem apart (h : SameShape t t') {path other : Bytes} (hapart : t.Apart path other) :
    t'.Apart path other :=
  fun p hp hq => hapart p (h.locate_eq_ok_iff.mpr hp) (h.locate_eq_ok_iff.mpr hq)

end SameShape

/-! ### Writing -/

/-- A path can be written if it leads to a place that holds no directory, and asks for none. -/
theorem target_eq_ok_iff {t : Tree} {path : Bytes} {p : Location} :
    t.target path = .ok p ↔
      t.locate path = .ok p ∧ t.node? p ≠ some .directory ∧ asksDirectory path = false := by
  unfold target
  cases t.locate path with
  | error c => exact iff_of_false nofun nofun
  | ok q =>
    simp only [bind, Except.bind, Except.ok.injEq]
    cases hnode : t.node? q with
    | none => grind
    | some n =>
      cases n with
      | directory => grind
      | file content => grind

theorem write_eq_ok_iff {t t' : Tree} {path content : Bytes} :
    t.write path content = .ok t' ↔ ∃ p, t.target path = .ok p ∧ t' = t.put p (.file content) := by
  unfold write
  cases t.target path with
  | error c => exact iff_of_false nofun nofun
  | ok p => simp [eq_comm]

/-- Writing puts a file where the path leads, and changes nothing else. -/
theorem node?_write {t t' : Tree} {path content : Bytes} (h : t.write path content = .ok t') :
    ∃ p, t.locate path = .ok p ∧ t.node? p ≠ some .directory ∧ asksDirectory path = false ∧
      t'.workingLocation = t.workingLocation ∧
      ∀ q, t'.node? q = if q = p then some (.file content) else t.node? q := by
  obtain ⟨p, hp, rfl⟩ := write_eq_ok_iff.mp h
  obtain ⟨hlocate, hdir, hasks⟩ := target_eq_ok_iff.mp hp
  have hroot : p ≠ [] := fun hnil => hdir (hnil ▸ node?_nil t)
  exact ⟨p, hlocate, hdir, hasks, rfl, node?_put hroot _⟩

/-- **Writing keeps the shape.** -/
theorem sameShape_of_write {t t' : Tree} {path content : Bytes}
    (h : t.write path content = .ok t') : SameShape t t' := by
  obtain ⟨p, -, hdir, -, hworking, hnode⟩ := node?_write h
  refine ⟨hworking.symm, fun q => ?_⟩
  rw [hnode]
  by_cases hq : q = p
  · rw [if_pos hq, hq]
    exact iff_of_false hdir nofun
  · rw [if_neg hq]

/-- In trees of one shape the same paths can be written, and a failure differs in its cause at
most. -/
theorem SameShape.write_congr {t t' : Tree} (h : SameShape t t') (path content content' : Bytes) :
    (∃ u u', t.write path content = .ok u ∧ t'.write path content' = .ok u') ∨
      ∃ e e', t.write path content = .error e ∧ t'.write path content' = .error e' ∧
        e.withoutCause = e'.withoutCause := by
  have htarget : ∀ p, t.target path = .ok p ↔ t'.target path = .ok p := by
    intro p
    rw [target_eq_ok_iff, target_eq_ok_iff, h.locate_eq_ok_iff, Ne, h.directory_iff]
  unfold write
  cases ht : t.target path with
  | ok p =>
    rw [(htarget p).mp ht]
    exact Or.inl ⟨_, _, rfl, rfl⟩
  | error c =>
    cases ht' : t'.target path with
    | ok p => exact absurd (ht.symm.trans ((htarget p).mpr ht')) nofun
    | error c' => exact Or.inr ⟨_, _, rfl, rfl, rfl⟩

/-! ### Reading -/

/-- The contents of the file that a path leads to, if they can be read. -/
def content? (t : Tree) (path : Bytes) : Option Bytes := (t.read path).toOption

/-- A file can be read if the path leads to it and does not ask for a directory. -/
theorem read_eq_ok_iff {t : Tree} {path content : Bytes} :
    t.read path = .ok content ↔ ∃ p, t.locate path = .ok p ∧
      t.node? p = some (.file content) ∧ asksDirectory path = false := by
  unfold read lookup
  cases t.locate path with
  | error c => exact iff_of_false nofun nofun
  | ok q =>
    simp only [bind, Except.bind, Except.ok.injEq]
    cases hnode : t.node? q with
    | none => grind
    | some n =>
      cases n with
      | directory => grind
      | file content => grind

/-- Reading gives the contents, or fails: a directory can be opened but not read, and anything else
cannot be opened. -/
theorem read_cases (t : Tree) (path : Bytes) :
    (∃ content, t.read path = .ok content) ∨
    ((∃ p, t.locate path = .ok p ∧ t.node? p = some .directory) ∧
      t.read path = .error ⟨.reading, path, .isDirectory⟩) ∨
    ((∀ p, t.locate path = .ok p → t.node? p ≠ some .directory) ∧
      ∃ c, t.read path = .error ⟨.opening, path, c⟩) := by
  unfold read lookup
  cases t.locate path with
  | error c => exact Or.inr (Or.inr ⟨nofun, c, rfl⟩)
  | ok q =>
    simp only [bind, Except.bind, Except.ok.injEq]
    cases hnode : t.node? q with
    | none => exact Or.inr (Or.inr ⟨by grind, _, rfl⟩)
    | some n =>
      cases n with
      | directory => exact Or.inr (Or.inl ⟨⟨q, rfl, hnode⟩, rfl⟩)
      | file content => grind

theorem content?_eq_some_iff {t : Tree} {path content : Bytes} :
    t.content? path = some content ↔ t.read path = .ok content := by
  unfold content?
  cases t.read path with
  | error e => exact iff_of_false nofun nofun
  | ok c => simp [Except.toOption]

/-- What was written is read back. -/
theorem content?_write_self {t t' : Tree} {path content : Bytes}
    (h : t.write path content = .ok t') : t'.content? path = some content := by
  obtain ⟨p, hlocate, -, hasks, -, hnode⟩ := node?_write h
  have hlocate' := (sameShape_of_write h).locate_eq_ok_iff.mp hlocate
  have hfile : t'.node? p = some (.file content) := by rw [hnode, if_pos rfl]
  exact content?_eq_some_iff.mpr (read_eq_ok_iff.mpr ⟨p, hlocate', hfile, hasks⟩)

/-- In trees of one shape a path gives the same if the file has the same contents, and a failure
differs in its cause at most. -/
theorem SameShape.read_congr {t t' : Tree} (h : SameShape t t') {path : Bytes}
    (hcontent : t.content? path = t'.content? path) :
    (t.read path).mapError FileError.withoutCause
      = (t'.read path).mapError FileError.withoutCause := by
  have hsame : ∀ c, t.read path = .ok c ↔ t'.read path = .ok c := fun c => by
    rw [← content?_eq_some_iff, ← content?_eq_some_iff, hcontent]
  obtain ⟨c, hc⟩ | ⟨⟨p, hp, hdir⟩, hread⟩ | ⟨hno, c, hread⟩ := t.read_cases path
  · rw [hc, (hsame c).mp hc]
  · have hp' := h.locate_eq_ok_iff.mp hp
    have hdir' := (h.directory_iff p).mp hdir
    obtain ⟨c, hc⟩ | ⟨-, hread'⟩ | ⟨hno, -⟩ := t'.read_cases path
    · exact absurd (hread.symm.trans ((hsame c).mpr hc)) nofun
    · rw [hread, hread']
    · exact absurd hdir' (hno p hp')
  · obtain ⟨c, hc⟩ | ⟨⟨p, hp, hdir⟩, -⟩ | ⟨-, c', hread'⟩ := t'.read_cases path
    · exact absurd (hread.symm.trans ((hsame c).mpr hc)) nofun
    · exact absurd ((h.directory_iff p).mpr hdir) (hno p (h.locate_eq_ok_iff.mpr hp))
    · rw [hread, hread']
      rfl

/-! ### Writing several files -/

/-- The second tree comes from the first by writing files at some of the paths. -/
inductive Rewrites (paths : List Bytes) (t : Tree) : Tree → Prop where
  | refl : Rewrites paths t t
  | write {t' t'' : Tree} {path content : Bytes} (h : Rewrites paths t t') (hmem : path ∈ paths)
    (hwrite : t'.write path content = .ok t'') : Rewrites paths t t''

/-- The trees differ at most in what the places hold that the paths lead to. -/
structure SameBut (paths : List Bytes) (t t' : Tree) : Prop where
  workingLocation_eq : t'.workingLocation = t.workingLocation
  node?_eq : ∀ p, (∀ path ∈ paths, t.locate path ≠ .ok p) → t'.node? p = t.node? p

namespace Rewrites

variable {paths : List Bytes} {t t' t'' : Tree}

theorem trans (h : Rewrites paths t t') (h' : Rewrites paths t' t'') : Rewrites paths t t'' := by
  induction h' with
  | refl => exact h
  | write _ hmem hwrite ih => exact .write ih hmem hwrite

theorem mono {more : List Bytes} (h : Rewrites paths t t') (hsub : ∀ path ∈ paths, path ∈ more) :
    Rewrites more t t' := by
  induction h with
  | refl => exact .refl
  | write _ hmem hwrite ih => exact .write ih (hsub _ hmem) hwrite

theorem sameShape (h : Rewrites paths t t') : SameShape t t' := by
  induction h with
  | refl => exact SameShape.refl t
  | write _ _ hwrite ih => exact ih.trans (sameShape_of_write hwrite)

/-- **What is written leaves every other place.** -/
theorem sameBut (h : Rewrites paths t t') : t.SameBut paths t' := by
  induction h with
  | refl => exact ⟨rfl, fun _ _ => rfl⟩
  | write hbefore hmem hwrite ih =>
    obtain ⟨p, hlocate, -, -, hworking, hnode⟩ := node?_write hwrite
    refine ⟨hworking.trans ih.workingLocation_eq, fun q hq => ?_⟩
    have hne : q ≠ p := by
      rintro rfl
      exact hq _ hmem (hbefore.sameShape.locate_eq_ok_iff.mpr hlocate)
    rw [hnode, if_neg hne, ih.node?_eq q hq]

/-- **What is written leaves the files that other paths lead to.** -/
theorem content?_of_apart (h : Rewrites paths t t') {other : Bytes}
    (hapart : ∀ path ∈ paths, t.Apart path other) : t'.content? other = t.content? other := by
  refine Option.ext fun c => ?_
  rw [content?_eq_some_iff, content?_eq_some_iff, read_eq_ok_iff, read_eq_ok_iff]
  refine exists_congr fun q => ?_
  rw [← h.sameShape.locate_eq_ok_iff]
  refine and_congr_right fun hq => ?_
  rw [h.sameBut.node?_eq q fun path hmem hpath => hapart path hmem q hpath hq]

/-- What is written leaves the files at other absolute paths. -/
theorem content? (h : Rewrites paths t t') (hplaced : t.IsPlaced) {other : Bytes}
    (hne : ∀ path ∈ paths, Path.absolute t.cwd path ≠ Path.absolute t.cwd other) :
    t'.content? other = t.content? other :=
  h.content?_of_apart fun path hmem => apart_of_absolute_ne hplaced (hne path hmem)

end Rewrites

/-- **Writing one file leaves the others.** -/
theorem content?_write {t t' : Tree} (hplaced : t.IsPlaced) {path content other : Bytes}
    (h : t.write path content = .ok t')
    (hne : Path.absolute t.cwd path ≠ Path.absolute t.cwd other) :
    t'.content? other = t.content? other := by
  have hrewrites : t.Rewrites [path] t' := .write .refl List.mem_cons_self h
  exact hrewrites.content? hplaced (List.forall_mem_singleton.mpr hne)

end Tree

end KernelPack
