import KernelPack.Proofs.Artifact.Literal
import KernelPack.Proofs.Renaming.Strategies
import KernelPack.Proofs.Source.Closing
import KernelPack.Proofs.Source.Comments
import KernelPack.Proofs.Text.Trimming

/-!
# Escaping at the end

A kernel is escaped after everything else has been done to it, so comments, spaces and names are
looked for in the text itself. The main statement says that nothing depends on this: lines that are
escaped before they are packed give the escaped text, in as many passes, and names are replaced in
an escaped text as in the text (`escape_commutes`).

But for cutting and trimming, all that is done on the way is substitution, and no match begins with
a quote or a backslash. Such a search is **blind** to escapes (`Blind`) if an escaped text has the
matches of the text, escaped. One theorem on blind substitutions, `Blind.substitute_escape`, then
serves comments, blanks, punctuation and names alike.
-/

namespace KernelPack

namespace Artifact

/-! ### Escaped texts -/

/-- Words need no escaping. -/
theorem plain_of_isIdentifier {b : Bytes} (h : Renaming.isIdentifier b = true) : Plain b := by
  intro x hx hneeds
  have hword := (Renaming.isWord_of_isIdentifier h).2 x hx
  rcases hneeds with rfl | rfl <;> exact absurd hword (by decide)

/-- Neither does white space. -/
theorem plain_of_isBlank {c : Char} (hc : Text.isBlank c = true) :
    Plain (String.utf8EncodeChar c) := by
  have hbackslash : Rune.IsAscii '\\' Byte.backslash := ⟨by decide, by decide⟩
  have hquote : Rune.IsAscii '"' Byte.quote := ⟨by decide, by decide⟩
  rintro x hx (rfl | rfl)
  · rw [hbackslash.mem_utf8EncodeChar_iff.mp hx] at hc
    exact absurd hc (by decide)
  · rw [hquote.mem_utf8EncodeChar_iff.mp hx] at hc
    exact absurd hc (by decide)

/-- An escaped text ends as the text does. -/
theorem getLast?_escape (s : Bytes) : (escape s).getLast? = s.getLast? := by
  rcases List.eq_nil_or_concat s with rfl | ⟨s, b, rfl⟩
  · rfl
  · rw [List.concat_eq_append, escape_append]
    by_cases hb : NeedsEscape b
    · simp [escape_cons_of_needsEscape hb]
    · simp [escape_cons_of_not_needsEscape hb]

/-- **A plain text begins an escaped text** exactly if it begins the text. -/
theorem isPrefix_escape_iff {p s : Bytes} (hp : Plain p) : p <+: escape s ↔ p <+: s := by
  induction p generalizing s with
  | nil => exact iff_of_true List.nil_prefix List.nil_prefix
  | cons x p ih =>
    obtain ⟨hx, hp⟩ := plain_cons_iff.mp hp
    cases s with
    | nil => exact Iff.rfl
    | cons b t =>
      by_cases hb : NeedsEscape b
      · rw [escape_cons_of_needsEscape hb, List.cons_prefix_cons, List.cons_prefix_cons]
        refine iff_of_false (fun h => hx (Or.inl h.1)) fun h => hx (h.1 ▸ hb)
      · rw [escape_cons_of_not_needsEscape hb, List.cons_prefix_cons, List.cons_prefix_cons, ih hp]

/-- No plain text stands where an escape begins. -/
theorem Plain.not_isPrefix_cons {p : Bytes} (hp : Plain p) (hne : p ≠ []) {b : UInt8}
    (hb : NeedsEscape b) (t : Bytes) : ¬ p <+: b :: t := by
  obtain ⟨x, p, rfl⟩ := List.exists_cons_of_ne_nil hne
  exact fun h => (plain_cons_iff.mp hp).1 ((List.cons_prefix_cons.mp h).1 ▸ hb)

theorem concat_isSuffix_concat_iff {p s : Bytes} {x b : UInt8} :
    p ++ [x] <:+ s ++ [b] ↔ p <:+ s ∧ x = b := by
  have hlength : [x].length = [b].length := rfl
  rw [List.suffix_append_inj_of_length_eq hlength, List.singleton_inj]

/-- It ends an escaped text exactly if it ends the text. -/
theorem isSuffix_escape_iff {p s : Bytes} (hp : Plain p) : p <:+ escape s ↔ p <:+ s := by
  induction s using List.reverseRecOn generalizing p with
  | nil => exact Iff.rfl
  | append_singleton s b ih =>
    rcases List.eq_nil_or_concat p with rfl | ⟨p, x, rfl⟩
    · exact iff_of_true List.nil_suffix List.nil_suffix
    · rw [List.concat_eq_append] at hp ⊢
      have hx : ¬ NeedsEscape x := hp x (by simp)
      have hp : Plain p := fun y hy => hp y (List.mem_append_left _ hy)
      rw [concat_isSuffix_concat_iff, escape_append]
      by_cases hb : NeedsEscape b
      · -- an escape ends with the byte itself, as the text does
        have hne : x ≠ b := fun h => hx (h ▸ hb)
        have hend : escape s ++ escape [b] = escape s ++ [Byte.backslash] ++ [b] := by
          rw [escape_cons_of_needsEscape hb, List.append_assoc]
          rfl
        rw [hend, concat_isSuffix_concat_iff]
        exact iff_of_false (fun h => hne h.2) fun h => hne h.2
      · rw [escape_cons_of_not_needsEscape hb, ← ih hp]
        exact concat_isSuffix_concat_iff

/-- A class that holds both quotes and backslashes, or neither, parts an escaped text where it parts
the text. -/
theorem takeWhile_escape {p : UInt8 → Bool} (hp : p Byte.backslash = p Byte.quote) (s : Bytes) :
    (escape s).takeWhile p = escape (s.takeWhile p) := by
  induction s with
  | nil => rfl
  | cons b t ih =>
    by_cases hb : NeedsEscape b
    · have hsame : p b = p Byte.backslash := by
        rcases hb with rfl | rfl
        · rfl
        · exact hp.symm
      rw [escape_cons_of_needsEscape hb, List.takeWhile_cons, List.takeWhile_cons,
        List.takeWhile_cons, hsame]
      cases p Byte.backslash with
      | true => simp only [if_true, escape_cons_of_needsEscape hb, ih]
      | false => rfl
    · rw [escape_cons_of_not_needsEscape hb, List.takeWhile_cons, List.takeWhile_cons]
      cases p b with
      | true => simp only [if_true, escape_cons_of_not_needsEscape hb, ih]
      | false => rfl

/-! ### Blind substitution -/

/-- A search that is **blind to escapes**: nothing it looks for begins with a quote or a backslash,
and what it finds at the beginning of an escaped text is what it finds at the beginning of the text,
escaped. -/
structure Blind (find : Bytes → Option (Nat × Bytes)) : Prop where
  advances : Bytes.Advances find
  eq_none : ∀ b t, NeedsEscape b → find (b :: t) = none
  find_escape : ∀ s, find (escape s) =
    (find s).map fun m => ((escape (s.take m.1)).length, escape m.2)

/-- **A blind substitution commutes with escaping.** -/
theorem Blind.substitute_escape {find : Bytes → Option (Nat × Bytes)} (h : Blind find)
    (text : Bytes) : Bytes.substitute find (escape text) = escape (Bytes.substitute find text) := by
  induction text using Bytes.scan_induction h.advances with
  | nil => rfl
  | found s t new hne hfind ih =>
    have hescaped := h.find_escape (s ++ t)
    rw [hfind, Option.map_some, List.take_left, escape_append] at hescaped
    rw [Bytes.substitute_append_of_some hne hfind, escape_append,
      Bytes.substitute_append_of_some (mt escape_eq_nil_iff.mp hne) hescaped, ih, escape_append]
  | stays b t hnone ih =>
    rw [Bytes.substitute_cons_of_none hnone]
    by_cases hb : NeedsEscape b
    · -- neither the backslash nor the byte that it escapes begins a match
      rw [escape_cons_of_needsEscape hb, escape_cons_of_needsEscape hb,
        Bytes.substitute_cons_of_none (h.eq_none _ _ (Or.inl rfl)),
        Bytes.substitute_cons_of_none (h.eq_none b _ hb), ih]
    · have hescaped := h.find_escape (b :: t)
      rw [hnone, Option.map_none, escape_cons_of_not_needsEscape hb] at hescaped
      rw [escape_cons_of_not_needsEscape hb, escape_cons_of_not_needsEscape hb,
        Bytes.substitute_cons_of_none hescaped, ih]

/-- The search for the first of some patterns that the text begins with. Each comes with what takes
its place. -/
def firstOf : List (Bytes × Bytes) → Bytes → Option (Nat × Bytes)
  | [], _ => none
  | (old, new) :: patterns, s => if old <+: s then some (old.length, new) else firstOf patterns s

/-- **Plain patterns are looked for blindly.** -/
theorem blind_firstOf {patterns : List (Bytes × Bytes)}
    (h : ∀ p ∈ patterns, p.1 ≠ [] ∧ Plain p.1 ∧ Plain p.2) : Blind (firstOf patterns) := by
  induction patterns with
  | nil => exact ⟨nofun, fun _ _ _ => rfl, fun _ => rfl⟩
  | cons p patterns ih =>
    obtain ⟨⟨hne, hold, hnew⟩, h⟩ := List.forall_mem_cons.mp h
    have ih := ih h
    constructor
    case advances =>
      intro s n new hfind
      rw [firstOf] at hfind
      split at hfind
      · rename_i hpre
        obtain ⟨rfl, -⟩ := Prod.mk.inj (Option.some.inj hfind)
        exact ⟨List.length_pos_iff.mpr hne, hpre.length_le⟩
      · exact ih.advances s n new hfind
    case eq_none =>
      intro b t hb
      rw [firstOf, if_neg (hold.not_isPrefix_cons hne hb t), ih.eq_none b t hb]
    case find_escape =>
      intro s
      simp only [firstOf, isPrefix_escape_iff hold]
      split
      · rename_i hpre
        obtain ⟨t, rfl⟩ := hpre
        rw [Option.map_some, List.take_left, hold.escape_eq, hnew.escape_eq]
      · exact ih.find_escape s

/-- **Plain texts are replaced blindly by plain texts.** -/
theorem replaceAll_escape {old new : Bytes} (hne : old ≠ []) (hold : Plain old) (hnew : Plain new)
    (text : Bytes) :
    Bytes.replaceAll old new (escape text) = escape (Bytes.replaceAll old new text) := by
  have hfind : (fun s => if old.isPrefixOf s then some (old.length, new) else none) =
      firstOf [(old, new)] := by
    funext s
    simp only [firstOf, List.isPrefixOf_iff_prefix]
  have hblind := blind_firstOf (List.forall_mem_singleton.mpr (⟨hne, hold, hnew⟩ :
    (old, new).1 ≠ [] ∧ Plain (old, new).1 ∧ Plain (old, new).2))
  rw [Bytes.replaceAll, Bytes.replaceAll, hfind, hblind.substitute_escape]

/-- The occurrences of a character with the spaces around it are found by four patterns. -/
theorem spaced?_eq_firstOf (c : UInt8) :
    Source.spaced? c = firstOf [([c, Byte.space], [c]), ([c], [c]),
      ([Byte.space, c, Byte.space], [c]), ([Byte.space, c], [c])] := by
  funext s
  match s with
  | [] => rfl
  | [a] =>
    simp only [Source.spaced?, firstOf, List.cons_prefix_cons]
    grind
  | [a, b] =>
    simp only [Source.spaced?, firstOf, List.cons_prefix_cons]
    grind
  | a :: b :: d :: t =>
    simp only [Source.spaced?, firstOf, List.cons_prefix_cons]
    grind

/-! ### Comments -/

/-- **Comments with a plain mark are looked for blindly**, if a comment of the escaped text ends
after its mark where the comment of the text ends. -/
theorem blind_comment {comment? : Bytes → Option Nat} {mark : Bytes}
    (h : Source.Recognises comment?) (hne : mark ≠ []) (hmark : Plain mark)
    (hnone : ∀ s, ¬ mark <+: s → comment? s = none)
    (hescape : ∀ t, comment? (mark ++ escape t) =
      (comment? (mark ++ t)).map fun n => (escape ((mark ++ t).take n)).length) :
    Blind fun s => (comment? s).map (·, []) where
  advances := h.advances
  eq_none b t hb := by rw [hnone _ (hmark.not_isPrefix_cons hne hb t), Option.map_none]
  find_escape s := by
    rw [Option.map_map]
    by_cases hpre : mark <+: s
    · obtain ⟨t, rfl⟩ := hpre
      rw [escape_append, hmark.escape_eq, hescape, Option.map_map]
      rfl
    · rw [hnone s hpre, hnone _ (mt (isPrefix_escape_iff hmark).mp hpre)]
      rfl

/-- The first slash after the mark is the same one in the escaped text, and the same byte stands
before it. -/
theorem blind_blockComment? : Blind fun s => (Source.blockComment? s).map (·, []) := by
  refine blind_comment Source.recognises_blockComment? (List.cons_ne_nil Byte.slash [Byte.star])
    (by decide) (fun s => Source.blockComment?_of_not_isPrefix) fun t => ?_
  have hslash : ¬ NeedsEscape Byte.slash := by decide
  obtain ⟨u, hu, rfl | ⟨x, r, hx, rfl⟩⟩ := Bytes.exists_first_piece (· == Byte.slash) t
  · have hu : Byte.slash ∉ t := fun hmem => by simpa using hu _ hmem
    have hnone := Source.blockComment?_of_not_mem hu
    have hescaped := Source.blockComment?_of_not_mem (mt (mem_escape_iff hslash).mp hu)
    exact hescaped.trans (congrArg (Option.map _) hnone).symm
  · obtain rfl := beq_iff_eq.mp hx
    have hu : Byte.slash ∉ u := fun hmem => by simpa using hu _ hmem
    have hlength : (escape ((Byte.slash :: Byte.star :: (u ++ Byte.slash :: r)).take
        (u.length + 3))).length = (escape u).length + 3 := by
      have htake : (u ++ Byte.slash :: r).take (u.length + 1) = u ++ [Byte.slash] := by
        rw [List.take_append, List.take_of_length_le (Nat.le_succ _), Nat.add_sub_cancel_left]
        rfl
      rw [List.take_succ_cons, List.take_succ_cons, htake, escape_cons_of_not_needsEscape hslash,
        escape_cons_of_not_needsEscape (by decide), escape_append]
      simp [escape_cons_of_not_needsEscape hslash]
    have hescaped := Source.blockComment?_slash (mt (mem_escape_iff hslash).mp hu) (escape r)
    rw [getLast?_escape] at hescaped
    rw [escape_append, escape_cons_of_not_needsEscape hslash]
    refine hescaped.trans (Eq.trans ?_
      (congrArg (Option.map _) (Source.blockComment?_slash hu r)).symm)
    split
    · exact congrArg some hlength.symm
    · rfl

/-- Escaping brings in no line feed that would end a line comment. -/
theorem blind_lineComment? : Blind fun s => (Source.lineComment? s).map (·, []) := by
  refine blind_comment Source.recognises_lineComment? (List.cons_ne_nil Byte.slash [Byte.slash])
    (by decide) (fun s => Source.lineComment?_of_not_isPrefix) fun t => ?_
  have hrun : (escape t).takeWhile (· != Byte.lf) = escape (t.takeWhile (· != Byte.lf)) :=
    takeWhile_escape rfl t
  have htake := List.prefix_iff_eq_take.mp (List.takeWhile_prefix (· != Byte.lf) (l := t))
  calc Source.lineComment? ([Byte.slash, Byte.slash] ++ escape t)
      = some (((escape t).takeWhile (· != Byte.lf)).length + 2) := rfl
    _ = some ((escape (Byte.slash :: Byte.slash :: t.takeWhile (· != Byte.lf))).length) := by
        rw [hrun]; rfl
    _ = (Source.lineComment? ([Byte.slash, Byte.slash] ++ t)).map fun n =>
          (escape (([Byte.slash, Byte.slash] ++ t).take n)).length := by
        rw [htake]; rfl

/-! ### Blanks -/

theorem isBlank_eq_false_of_needsEscape {b : UInt8} (hb : NeedsEscape b) :
    Byte.isBlank b = false := by
  rcases hb with rfl | rfl <;> rfl

theorem blind_blankRun? : Blind Source.blankRun? := by
  constructor
  case advances =>
    intro s n new h
    simp only [Source.blankRun?] at h
    split at h
    · cases h
    · rename_i hpos
      obtain ⟨rfl, -⟩ := Prod.mk.inj (Option.some.inj h)
      exact ⟨Nat.pos_of_ne_zero hpos, (List.takeWhile_prefix Byte.isBlank).length_le⟩
  case eq_none =>
    intro b t hb
    simp [Source.blankRun?, isBlank_eq_false_of_needsEscape hb]
  case find_escape =>
    intro s
    have hrun : (escape s).takeWhile Byte.isBlank = s.takeWhile Byte.isBlank := by
      rw [takeWhile_escape rfl]
      refine Plain.escape_eq fun x hx hneeds => ?_
      have hblank := List.all_eq_true.mp (List.all_takeWhile (p := Byte.isBlank) (l := s)) x hx
      rw [isBlank_eq_false_of_needsEscape hneeds] at hblank
      cases hblank
    have htake := List.prefix_iff_eq_take.mp (List.takeWhile_prefix Byte.isBlank (l := s))
    simp only [Source.blankRun?, hrun]
    split
    · rfl
    · rw [Option.map_some, ← htake, ← takeWhile_escape rfl, hrun]
      rfl

/-! ### Lines and their ends -/

theorem joinWith_map_escape {sep : UInt8} (hsep : ¬ NeedsEscape sep) (lines : List Bytes) :
    Bytes.joinWith [sep] (lines.map escape) = escape (Bytes.joinWith [sep] lines) := by
  cases lines with
  | nil => rfl
  | cons l ls =>
    have hrest : (ls.map escape).flatMap (sep :: ·) = escape (ls.flatMap (sep :: ·)) := by
      rw [List.flatMap_map, escape, List.flatMap_assoc]
      exact List.flatMap_congr fun m _ => (escape_cons_of_not_needsEscape hsep m).symm
    rw [List.map_cons, Bytes.joinWith_cons, Bytes.joinWith_cons, escape_append, hrest]

theorem pieces_escape {sep : UInt8} (hsep : ¬ NeedsEscape sep) (text : Bytes) :
    Bytes.pieces sep (escape text) = (Bytes.pieces sep text).map escape := by
  have hmem : ∀ {l}, sep ∉ l → sep ∉ escape l := fun h => mt (mem_escape_iff hsep).mp h
  induction text using Bytes.line_induction sep with
  | last l hl => rw [Bytes.pieces_eq_singleton hl, Bytes.pieces_eq_singleton (hmem hl)]; rfl
  | line l t hl ih =>
    rw [escape_append, escape_cons_of_not_needsEscape hsep, Bytes.pieces_append_cons (hmem hl),
      Bytes.pieces_append_cons hl, ih, List.map_cons]

theorem dropTrailing_escape {p : UInt8 → Bool} (hp : ∀ {b}, NeedsEscape b → p b = false)
    (l : Bytes) : Bytes.dropTrailing p (escape l) = escape (Bytes.dropTrailing p l) := by
  induction l with
  | nil => rfl
  | cons b l ih =>
    by_cases hb : NeedsEscape b
    · have hstays : ∀ {x t}, NeedsEscape x →
          Bytes.dropTrailing p (x :: t) = x :: Bytes.dropTrailing p t := fun hx => by
        rw [Bytes.dropTrailing_cons, if_neg (by simp [hp hx])]
      rw [escape_cons_of_needsEscape hb, hstays (Or.inl rfl), hstays hb, hstays hb, ih,
        escape_cons_of_needsEscape hb]
    · simp only [escape_cons_of_not_needsEscape hb, Bytes.dropTrailing_cons, ih, escape_eq_nil_iff]
      split
      · rfl
      · rw [escape_cons_of_not_needsEscape hb]

theorem trim_escape (text : Bytes) : Bytes.trim (escape text) = escape (Bytes.trim text) := by
  induction text using Bytes.trim_induction with
  | htrimmed b hb =>
    have hescaped : Bytes.Trimmed (escape b) := by
      refine Bytes.trimmed_iff.mpr fun c hc => ?_
      rw [isPrefix_escape_iff (plain_of_isBlank hc), isSuffix_escape_iff (plain_of_isBlank hc)]
      exact Bytes.trimmed_iff.mp hb c hc
    rw [hb.trim_eq, hescaped.trim_eq]
  | hfront c t hc ih =>
    rw [escape_append, (plain_of_isBlank hc).escape_eq, Bytes.trim_utf8EncodeChar_append hc, ih,
      Bytes.trim_utf8EncodeChar_append hc]
  | hback c s hc ih =>
    rw [escape_append, (plain_of_isBlank hc).escape_eq, Bytes.trim_append_utf8EncodeChar hc, ih,
      Bytes.trim_append_utf8EncodeChar hc]

/-! ### Packing and renaming -/

theorem withoutComments_map_escape (lines : List Bytes) (lineComments : Bool) :
    Source.withoutComments (lines.map escape) lineComments =
      (Source.withoutComments lines lineComments).map escape := by
  have hlf : ¬ NeedsEscape Byte.lf := by decide
  have htrailing := dropTrailing_escape isBlank_eq_false_of_needsEscape
  rw [Source.withoutComments, Source.withoutComments, List.isEmpty_map]
  split
  · rfl
  · simp only [Source.dropComments, joinWith_map_escape hlf,
      blind_blockComment?.substitute_escape]
    cases lineComments <;>
      simp [blind_lineComment?.substitute_escape, pieces_escape hlf, htrailing]

theorem normalize_map_escape (lines : List Bytes) :
    Source.normalize (lines.map escape) = escape (Source.normalize lines) := by
  rw [Source.normalize, Source.normalize, joinWith_map_escape (by decide),
    blind_blankRun?.substitute_escape, trim_escape]

theorem closeUp_escape {c : UInt8} (hc : ¬ NeedsEscape c) (text : Bytes) :
    Source.closeUp c (escape text) = escape (Source.closeUp c text) := by
  have hspace : ¬ NeedsEscape Byte.space := by decide
  have hblind : Blind (Source.spaced? c) := by
    rw [spaced?_eq_firstOf]
    refine blind_firstOf ?_
    simp [plain_cons_iff, plain_nil, hc, hspace]
  exact hblind.substitute_escape text

theorem pass_escape (text : Bytes) : Source.pass (escape text) = escape (Source.pass text) := by
  have hpunctuation : Plain Source.punctuation := by decide
  rw [Source.pass, Source.pass]
  generalize Source.punctuation = cs at hpunctuation
  induction cs generalizing text with
  | nil => rfl
  | cons c cs ih =>
    obtain ⟨hc, hcs⟩ := plain_cons_iff.mp hpunctuation
    rw [List.foldl_cons, List.foldl_cons, closeUp_escape hc, ih _ hcs]

/-- An escaped text is compacted in as many passes. -/
theorem compact_escape (text : Bytes) :
    Source.compact (escape text) = (escape (Source.compact text).1, (Source.compact text).2) := by
  fun_induction Source.compact text with
  | case1 text h =>
    rw [Source.compact, dif_pos (by rw [pass_escape, h])]
  | case2 text h _ out passes hrest ih =>
    have hchanged : Source.pass (escape text) ≠ escape text := by
      rw [pass_escape]
      exact mt escape_injective h
    rw [Source.compact_of_pass_ne hchanged, pass_escape, ih, hrest]

/-- Names are replaced in an escaped text as in the text. -/
theorem renameText_escape {entries : List Renaming.Entry}
    (h : Renaming.checkText entries = .ok ()) (text : Bytes) :
    Renaming.renameText (escape text) entries = escape (Renaming.renameText text entries) := by
  induction entries generalizing text with
  | nil => rfl
  | cons e entries ih =>
    obtain ⟨husable, -⟩ := Renaming.checkText_eq_ok_iff.mp h
    have hname := husable.isIdentifier_name e List.mem_cons_self
    have hnew := husable.isIdentifier_new e List.mem_cons_self
    have hentry := replaceAll_escape (Renaming.isWord_of_isIdentifier hname).1
      (plain_of_isIdentifier hname) (plain_of_isIdentifier hnew) text
    calc Renaming.renameText (escape text) (e :: entries)
        = Renaming.renameText (escape (Bytes.replaceAll e.name e.new text)) entries :=
          congrArg (Renaming.renameText · entries) hentry
      _ = escape (Renaming.renameText text (e :: entries)) :=
          ih (Renaming.checkText_sublist h (List.sublist_cons_self e entries)) _

/-- **Escaping commutes with packing and with renaming.** Escaped lines are packed into the escaped
text, in as many passes, and a table that is accepted renames an escaped text into the escaped
renaming. -/
theorem escape_commutes :
    (∀ (lines : List Bytes) (lineComments : Bool),
      Source.compact (Source.normalize
          (Source.withoutComments (lines.map escape) lineComments)) =
        (escape (Source.compact (Source.normalize
            (Source.withoutComments lines lineComments))).1,
          (Source.compact (Source.normalize
            (Source.withoutComments lines lineComments))).2)) ∧
    ∀ (text : Bytes) (entries : List Renaming.Entry), Renaming.checkText entries = .ok () →
      Renaming.renameText (escape text) entries = escape (Renaming.renameText text entries) := by
  refine ⟨fun lines lineComments => ?_, fun text entries h => renameText_escape h text⟩
  rw [withoutComments_map_escape, normalize_map_escape, compact_escape]

theorem escape_commutes_quoted :
    Source.compact (Source.normalize (Source.withoutComments
        ([utf8 "f (\"a \\\" ) ; /* \"b */", utf8 "g  (\" // c"].map escape) true)) =
      (escape (utf8 "f(\"a \\\");g(\""), 2) ∧
    Renaming.checkText [⟨utf8 "na", utf8 "x"⟩] = .ok () ∧
    Renaming.renameText (escape (utf8 "\\na(\"na\")")) [⟨utf8 "na", utf8 "x"⟩] =
      escape (utf8 "\\x(\"x\")") := by
  obtain ⟨hpack, hrename⟩ := escape_commutes
  have hlines : Source.normalize (Source.withoutComments
      [utf8 "f (\"a \\\" ) ; /* \"b */", utf8 "g  (\" // c"] true) =
        utf8 "f (\"a \\\" ) ; g (\"" := by decide +kernel
  have hpass : Source.pass (utf8 "f (\"a \\\" ) ; g (\"") = utf8 "f(\"a \\\");g(\"" := by
    decide +kernel
  refine ⟨?_, rfl, ?_⟩
  · rw [hpack, hlines, Source.compact_of_pass_ne, hpass, Source.compact, dif_pos]
    · decide +kernel
    · decide +kernel
  · rw [hrename _ _ rfl]
    decide +kernel

end Artifact

end KernelPack
