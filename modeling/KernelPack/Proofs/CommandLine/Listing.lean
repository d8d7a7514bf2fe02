import KernelPack.CommandLine.Program
import KernelPack.Proofs.Kernel.Packing
import KernelPack.Proofs.Lexis.Counting

/-!
# Listing identifiers

The list of the identifiers of a source is a part of their ranking: those whose names are long
enough, and of these the first ones if their number is limited. The loop that draws up the list does
both in one pass and stops early; what it has shown so far is a **prefix** of the list
(`showFrom_eq`).
-/

namespace KernelPack

open IdentifierCount (Outranks)

namespace Program

/-- The first so many of a list, or all of it if the number is not positive. -/
def firstOf {α : Type} (top : Int) (l : List α) : List α := if 0 < top then l.take top.toNat else l

theorem firstOf_of_length_le {α : Type} {top : Int} {l : List α}
    (h : 0 < top → (l.length : Int) ≤ top) : firstOf top l = l := by
  unfold firstOf
  split
  · rename_i htop
    exact List.take_of_length_le (by have := h htop; omega)
  · rfl

/-- Has the identifier a name of at least the length? -/
def isLong (minLength : Int) (i : IdentifierCount) : Bool := minLength ≤ i.name.length

/-- **The loop goes through the identifiers that are long enough**, and ends where the list is cut
off. As long as it runs, it has shown less than it may. -/
theorem showFrom_eq {minLength top : Int} (l shown : List IdentifierCount)
    (hroom : 0 < top → (shown.length : Int) < top) :
    showFrom minLength top shown l = firstOf top (shown ++ l.filter (isLong minLength)) := by
  induction l generalizing shown with
  | nil =>
    rw [showFrom, List.filter_nil, List.append_nil,
      firstOf_of_length_le fun htop => (hroom htop).le]
  | cons i rest ih =>
    rw [showFrom]
    by_cases hlong : i.name.length < minLength
    · have hskip : ¬ isLong minLength i = true := by simpa [isLong] using hlong
      rw [if_pos hlong, List.filter_cons_of_neg hskip, ih shown hroom]
    · have hshow : isLong minLength i = true := by simpa [isLong] using hlong
      rw [if_neg hlong, List.filter_cons_of_pos hshow,
        List.append_cons shown i (rest.filter _)]
      dsimp only
      split
      · -- the list is full: what comes behind is cut off
        rename_i hfull
        rw [firstOf, if_pos hfull.1, List.take_left' (by omega)]
      · rename_i hmore
        refine ih (shown ++ [i]) fun htop => ?_
        have hlt := hroom htop
        rw [List.length_append, List.length_singleton] at hmore ⊢
        omega

theorem listedIdentifiers_eq (lines : List Bytes) (lineComments : Bool) (minLength top : Int) :
    listedIdentifiers lines lineComments minLength top =
      firstOf top ((identifiers (Source.normalize
        (Source.withoutComments lines lineComments))).filter (isLong minLength)) :=
  showFrom_eq _ [] id

/-- The number of header lines that the command skips: what is asked for, or what is configured. -/
def headerLinesOf (a : Arguments) (c : Config) : Int :=
  if a.integer "header-lines" (-1) < 0 then c.headerLines else a.integer "header-lines" (-1)

/-- What the command prints of a source that can be loaded. -/
theorem run_listIdentifiers {l : Settings.Layers} {a : Arguments} {c : Config} {path : Bytes}
    {t : Tree} {lines : List Bytes} (hc : configOf l a = .ok c)
    (hlines : (loadSource path (headerLinesOf a c) : StateM Tree _).run t = (.ok lines, t)) :
    (listIdentifiers l a path : StateM Tree _).run t =
      (succeed (Report.identifiers (Report.Format.parse c.format)
        (listedIdentifiers lines c.stripLineComments (a.integer "min-length" 3)
          (a.integer "top" 0))), t) := by
  unfold listIdentifiers
  rw [hc]
  dsimp only
  rw [StateT.run_bind, ← headerLinesOf, hlines]
  rfl

end Program

open Program

/-- **Identifiers are ranked, and the list is cut from the ranking.** For every text the list of the
identifiers is the one list that holds each of them once, with the number of its occurrences, the
more frequent before the less and those as frequent in byte order. It is what any sort makes of the
counts, in whatever order it finds them. And what the command prints of a source are the first of
those identifiers of its text whose names are long enough, as many as are asked for. -/
theorem identifiers_ranked :
    (∀ text l, IsRanking (tokenize text) l ↔ l = identifiers text) ∧
    (∀ text counts l, counts.Perm (tallyIdentifiers (tokenize text)) → l.Perm counts →
      l.Pairwise (fun a b => ¬ b.Outranks a) → l = identifiers text) ∧
    (∀ lines lineComments minLength top, listedIdentifiers lines lineComments minLength top =
      firstOf top ((identifiers (Source.normalize
        (Source.withoutComments lines lineComments))).filter (isLong minLength))) ∧
    ∀ (l : Settings.Layers) (a : Arguments) (c : Config) (path : Bytes) (t : Tree)
      (lines : List Bytes), configOf l a = .ok c →
      (loadSource path (headerLinesOf a c) : StateM Tree _).run t = (.ok lines, t) →
      (listIdentifiers l a path : StateM Tree _).run t =
        (succeed (Report.identifiers (Report.Format.parse c.format)
          (listedIdentifiers lines c.stripLineComments (a.integer "min-length" 3)
            (a.integer "top" 0))), t) := by
  refine ⟨fun _ _ => isRanking_iff, fun text counts l hcounts hl hsorted => ?_,
    listedIdentifiers_eq, fun _ _ _ _ _ _ => run_listIdentifiers⟩
  exact eq_countIdentifiers_of_sorted (hl.trans hcounts) hsorted

/-- Of three identifiers, found in the order of their names, the most frequent has too short a name,
and the second is the only one to be shown. -/
theorem identifiers_ranked_width :
    let a : Arguments := { flags := [("header-lines", .integer 0), ("top", .integer 1)] }
    let t : Tree :=
      ⟨[([utf8 "k.cl"], .file (utf8 "int w = w*width; // width again\nw = height + width;\n"))], []⟩
    let text := utf8 "int w = w*width; w = height + width;"
    let ranking : List IdentifierCount := [⟨utf8 "w", 3⟩, ⟨utf8 "width", 2⟩, ⟨utf8 "height", 1⟩]
    IsRanking (tokenize text) ranking ∧ identifiers text = ranking ∧
      (listIdentifiers {} a (utf8 "k.cl") : StateM Tree _).run t =
        (succeed (utf8 "     2  width\n"), t) := by
  intro a t text ranking
  obtain ⟨hone, hsort, hlisted, hprints⟩ := identifiers_ranked
  have hranking : ranking = identifiers text :=
    hsort text [⟨utf8 "height", 1⟩, ⟨utf8 "w", 3⟩, ⟨utf8 "width", 2⟩] ranking (by decide +kernel)
      (by decide +kernel) (by decide +kernel)
  refine ⟨(hone _ _).mpr hranking, hranking.symm, ?_⟩
  let lines := [utf8 "int w = w*width; // width again", utf8 "w = height + width;"]
  have hconfig : (configOf {} a).toOption.map
      (fun c => (c.stripLineComments, Report.Format.parse c.format)) = some (true, .text) := by
    decide +kernel
  obtain ⟨c, hc, hsettings⟩ := Option.map_eq_some_iff.mp hconfig
  obtain ⟨hcomments, hformat⟩ := Prod.mk.inj hsettings
  have hload : (loadSource (utf8 "k.cl") 0 : StateM Tree _).run t = (.ok lines, t) := rfl
  have htext : Source.normalize (Source.withoutComments lines true) = text := by decide +kernel
  have hrows : Report.identifiers .text
      (firstOf (a.integer "top" 0) (ranking.filter (isLong (a.integer "min-length" 3)))) =
      utf8 "     2  width\n" := by
    decide +kernel
  rw [hprints {} a c (utf8 "k.cl") t lines (Outcome.eq_ok_of_toOption hc) hload, hcomments, hformat,
    hlisted, htext, ← hranking, hrows]

end KernelPack
