import KernelPack.Proofs.Renaming.Strategies

/-!
# Sealed aliases

Replacing text goes over the whole text anew with each entry, aliases included. This module compares
it with a replacement that **seals** what it puts in: a `Sealed` text is original stretches with
aliases between them, and an entry is replaced inside the stretches only (`Sealed.rename`).

The two may differ although the table is accepted. The check keeps a later name from lying inside an
alias, but it can still **straddle** one: lie partly in the alias and partly in the text beside it
(`Straddles`). The main statement is that nothing else goes wrong (`renameText_sealed_iff`): an
accepted table and all its parts leave aliases alone, in every text, exactly if no name straddles
the alias of an earlier entry, other than a name that is its own alias.

* In one direction what holds of a text is that its stretches are `Tight`; an entry keeps that, and
  is replaced in the text as it is in the stretches (`Sealed.Tight.text_rename`).
* In the other direction an overlap of a name with an alias is completed to a text in which the two
  replacements differ (`exists_renameText_ne`).
-/

namespace KernelPack.Renaming

/-! ### Sealed texts -/

/-- A text in which aliases have been put: **stretches** of original text, with the alias of an
entry between any two. -/
inductive Sealed where
  | last (stretch : Bytes)
  | cut (stretch : Bytes) (entry : Entry) (rest : Sealed)
  deriving DecidableEq, Repr

namespace Sealed

/-- The text as it is written, aliases included. -/
def text : Sealed → Bytes
  | last s => s
  | cut s e rest => s ++ (e.new ++ rest.text)

/-- The text as it was, with the names in the place of their aliases. -/
def source : Sealed → Bytes
  | last s => s
  | cut s e rest => s ++ (e.name ++ rest.source)

/-- The stretch after the last alias. -/
def final : Sealed → Bytes
  | last s => s
  | cut _ _ rest => rest.final

/-- One more byte in front of the first stretch. -/
def consByte (b : UInt8) : Sealed → Sealed
  | last s => last (b :: s)
  | cut s e rest => cut (b :: s) e rest

/-- A sealed text, then an alias, then another sealed text. -/
def append (p : Sealed) (e : Entry) (q : Sealed) : Sealed :=
  match p with
  | last s => cut s e q
  | cut s f rest => cut s f (rest.append e q)

/-- The scanner of `replace`: `skip` further bytes belong to the name just replaced. -/
def replaceFrom (e : Entry) : Nat → Bytes → Sealed
  | _, [] => last []
  | skip + 1, _ :: t => replaceFrom e skip t
  | 0, b :: t =>
    if e.name.isPrefixOf (b :: t) then cut [] e (replaceFrom e (e.name.length - 1) t)
    else (replaceFrom e 0 t).consByte b

/-- A stretch in which the leftmost, non-overlapping occurrences of a name give way to its alias. -/
def replace (e : Entry) (stretch : Bytes) : Sealed := replaceFrom e 0 stretch

/-- An entry replaced inside the stretches. -/
def rename (e : Entry) : Sealed → Sealed
  | last s => replace e s
  | cut s f rest => (replace e s).append f (rest.rename e)

end Sealed

/-- The text with the entries replaced one after another, each in what is left of the original. -/
def renameSealed (text : Bytes) (entries : List Entry) : Sealed :=
  entries.foldl (fun p e => p.rename e) (.last text)

namespace Sealed

variable {e f : Entry} {s t : Bytes} {p q : Sealed}

theorem text_consByte (b : UInt8) (p : Sealed) : (p.consByte b).text = b :: p.text := by
  cases p <;> rfl

theorem source_consByte (b : UInt8) (p : Sealed) : (p.consByte b).source = b :: p.source := by
  cases p <;> rfl

theorem text_append (p : Sealed) (e : Entry) (q : Sealed) :
    (p.append e q).text = p.text ++ (e.new ++ q.text) := by
  induction p with
  | last s => rfl
  | cut s f rest ih => simp only [append, text, ih, List.append_assoc]

theorem final_isSuffix_source (p : Sealed) : p.final <:+ p.source := by
  induction p with
  | last s => exact List.suffix_refl s
  | cut s e rest ih =>
    exact ih.trans ((List.suffix_append e.name _).trans (List.suffix_append s _))

/-! ### Replacing in a stretch -/

theorem replaceFrom_eq_drop (e : Entry) (skip : Nat) (s : Bytes) :
    replaceFrom e skip s = replace e (s.drop skip) := by
  induction s generalizing skip with
  | nil => cases skip <;> rfl
  | cons b t ih =>
    cases skip with
    | zero => rfl
    | succ skip => rw [replaceFrom, ih skip, List.drop_succ_cons]

/-- An occurrence at the beginning gives way to the alias. -/
theorem replace_name_append (hne : e.name ≠ []) (t : Bytes) :
    replace e (e.name ++ t) = cut [] e (replace e t) := by
  obtain ⟨b, n, hname⟩ := List.exists_cons_of_ne_nil hne
  have hpre : e.name.isPrefixOf (b :: (n ++ t)) = true :=
    List.isPrefixOf_iff_prefix.mpr ⟨t, by rw [hname, List.cons_append]⟩
  have hlength : e.name.length - 1 = n.length := by rw [hname, List.length_cons, Nat.add_sub_cancel]
  rw [replace, hname, List.cons_append, replaceFrom, if_pos hpre, hlength, replaceFrom_eq_drop,
    List.drop_left]

/-- A byte at which no occurrence begins is passed. -/
theorem replace_cons_of_not_isPrefix {b : UInt8} (h : ¬ e.name <+: b :: t) :
    replace e (b :: t) = (replace e t).consByte b :=
  if_neg fun hpre => h (List.isPrefixOf_iff_prefix.mp hpre)

/-- A stretch without the name is left as it is. -/
theorem replace_of_not_isInfix (h : ¬ e.name <:+: s) : replace e s = last s := by
  induction s with
  | nil => rfl
  | cons b t ih =>
    obtain ⟨hpre, htail⟩ := not_or.mp (mt List.infix_cons_iff.mpr h)
    rw [replace_cons_of_not_isPrefix hpre, ih htail, consByte]

/-- **Unsealed, it is the replacement of text.** -/
theorem text_replace (hne : e.name ≠ []) (s : Bytes) :
    (replace e s).text = Bytes.replaceAll e.name e.new s := by
  induction s using Bytes.occurrence_induction hne with
  | nil => rfl
  | occurs t ih => rw [replace_name_append hne, Bytes.replaceAll_old_append hne, ← ih]; rfl
  | stays b t hb ih =>
    rw [replace_cons_of_not_isPrefix hb, Bytes.replaceAll_cons_of_not_isPrefix hb, text_consByte,
      ih]

theorem source_replace (hne : e.name ≠ []) (s : Bytes) : (replace e s).source = s := by
  induction s using Bytes.occurrence_induction hne with
  | nil => rfl
  | occurs t ih => rw [replace_name_append hne, source, ih, List.nil_append]
  | stays b t hb ih => rw [replace_cons_of_not_isPrefix hb, source_consByte, ih]

end Sealed

/-! ### Straddling -/

/-- No occurrence of the name of `e` begins inside the text when that name comes after it. Such a
text may stand right before an alias that was put in. -/
def StaysBefore (e : Entry) (s : Bytes) : Prop :=
  ∀ n < s.length, ¬ e.name <+: s.drop n ++ e.name

/-- An occurrence of the name may begin **inside the alias** of `e` and run out of it. -/
def RunsOut (e : Entry) (name : Bytes) : Prop := ∃ n < e.new.length, e.new.drop n <+: name

/-- An occurrence of the name may begin in the text **before the alias** of `e` and run into it. -/
def RunsIn (e : Entry) (name : Bytes) : Prop :=
  ∃ n < name.length, 0 < n ∧ (name.drop n <+: e.new ∨ e.new <+: name.drop n) ∧
    StaysBefore e (name.take n)

/-- An occurrence of the name may share bytes with the alias of `e`. -/
def Straddles (e : Entry) (name : Bytes) : Prop := RunsOut e name ∨ RunsIn e name

/-- The entry `f` does not touch the alias of `e`, or puts back what it replaces. -/
def Separate (e f : Entry) : Prop := f.new = f.name ∨ ¬ Straddles e f.name

instance (e : Entry) (s : Bytes) : Decidable (StaysBefore e s) :=
  inferInstanceAs (Decidable (∀ n < s.length, ¬ e.name <+: s.drop n ++ e.name))

instance (e : Entry) (name : Bytes) : Decidable (RunsOut e name) :=
  inferInstanceAs (Decidable (∃ n < e.new.length, e.new.drop n <+: name))

instance (e : Entry) (name : Bytes) : Decidable (RunsIn e name) :=
  inferInstanceAs (Decidable (∃ n < name.length, 0 < n ∧
    (name.drop n <+: e.new ∨ e.new <+: name.drop n) ∧ StaysBefore e (name.take n)))

instance (e f : Entry) : Decidable (Separate e f) :=
  inferInstanceAs (Decidable (f.new = f.name ∨ ¬ (RunsOut e f.name ∨ RunsIn e f.name)))

section Straddling

variable {e f : Entry} {s t u name : Bytes}

theorem exists_drop_of_isSuffix (hs : u <:+ s) (hne : u ≠ []) : ∃ n < s.length, s.drop n = u := by
  obtain ⟨v, rfl⟩ := hs
  have hpos := List.length_pos_iff.mpr hne
  exact ⟨v.length, by rw [List.length_append]; omega, List.drop_left⟩

theorem staysBefore_nil : StaysBefore e [] := fun _ hn => absurd hn (Nat.not_lt_zero _)

theorem StaysBefore.suffix (h : StaysBefore e s) (hu : u <:+ s) : StaysBefore e u := by
  intro n hn
  have hne : u.drop n ≠ [] := by simpa using hn
  obtain ⟨m, hm, hdrop⟩ := exists_drop_of_isSuffix ((List.drop_suffix n u).trans hu) hne
  rw [← hdrop]
  exact h m hm

/-- In front of the name it makes no difference what comes after. -/
theorem isPrefix_append_iff (u t : Bytes) :
    name <+: u ++ name ↔ name <+: u ++ (name ++ t) := by
  rw [← List.append_assoc]
  refine ⟨fun h => h.trans (List.prefix_append _ t), fun h => ?_⟩
  exact List.prefix_of_prefix_length_le h (List.prefix_append _ t) (by simp)

theorem staysBefore_cons_iff {b : UInt8} :
    StaysBefore e (b :: s) ↔ ¬ e.name <+: b :: s ++ e.name ∧ StaysBefore e s := by
  constructor
  · exact fun h => ⟨h 0 (Nat.zero_lt_succ _), h.suffix (List.suffix_cons b s)⟩
  · rintro ⟨hb, h⟩ n hn
    cases n with
    | zero => exact hb
    | succ n => exact h n (Nat.lt_of_succ_lt_succ hn)

/-- Where the name occurs in `u ++ t` but not in the beginning `u`, it begins with `u` and goes on
in `t`. -/
theorem exists_of_isPrefix_append (h : name <+: u ++ t) (hnot : ¬ name <+: u) :
    ∃ w, w ≠ [] ∧ name = u ++ w ∧ w <+: t := by
  obtain hpre | ⟨w, rfl⟩ := List.prefix_or_prefix_of_prefix h (List.prefix_append u t)
  · exact absurd hpre hnot
  · refine ⟨w, fun hw => hnot (by simp [hw]), rfl, ?_⟩
    exact (List.prefix_append_right_inj u).mp h

/-- **A name that does not straddle an alias cannot begin before it** and end behind its
beginning. -/
theorem isPrefix_of_not_runsIn (h : ¬ RunsIn e name) (hs : StaysBefore e s) (hu : u <:+ s)
    (hune : u ≠ []) (hpre : name <+: u ++ (e.new ++ t)) : name <+: u := by
  by_contra hnot
  obtain ⟨w, hw, rfl, hwt⟩ := exists_of_isPrefix_append hpre hnot
  have hpos := List.length_pos_iff.mpr hw
  refine h ⟨u.length, by rw [List.length_append]; omega, List.length_pos_iff.mpr hune, ?_, ?_⟩
  · rw [List.drop_left]
    exact List.prefix_or_prefix_of_prefix hwt (List.prefix_append e.new t)
  · rw [List.take_left]
    exact hs.suffix hu

/-- **Nor can it begin inside it**, if it does not lie inside it. -/
theorem not_isPrefix_of_not_runsOut (h : ¬ RunsOut e name) (hin : ¬ name <:+: e.new)
    (hu : u <:+ e.new) (hune : u ≠ []) : ¬ name <+: u ++ t := by
  intro hpre
  obtain hpre | hpre := List.prefix_or_prefix_of_prefix hpre (List.prefix_append u t)
  · exact hin (hpre.isInfix.trans hu.isInfix)
  · obtain ⟨n, hn, rfl⟩ := exists_drop_of_isSuffix hu hune
    exact h ⟨n, hn, hpre⟩

end Straddling

/-! ### Tables without straddling names -/

namespace Sealed

/-- The aliases are those of the given entries, and each stands where the leftmost occurrence of its
name was: none begins in the stretch before it. -/
def Tight (entries : List Entry) : Sealed → Prop
  | last _ => True
  | cut s e rest => e ∈ entries ∧ StaysBefore e s ∧ rest.Tight entries

variable {entries others : List Entry} {e f : Entry} {s : Bytes} {p q : Sealed}

theorem Tight.mono (h : p.Tight entries) (hsub : entries ⊆ others) : p.Tight others := by
  induction p with
  | last s => trivial
  | cut s e rest ih => exact ⟨hsub h.1, h.2.1, ih h.2.2⟩

/-- What is replaced in a stretch is tight. -/
theorem tight_replace (hne : e.name ≠ []) (s : Bytes) : (replace e s).Tight [e] := by
  induction s using Bytes.occurrence_induction hne with
  | nil => trivial
  | occurs t ih =>
    rw [replace_name_append hne]
    exact ⟨List.mem_singleton.mpr rfl, staysBefore_nil, ih⟩
  | stays b t hb ih =>
    rw [replace_cons_of_not_isPrefix hb]
    have hsource := source_replace hne t
    cases hp : replace e t with
    | last s => trivial
    | cut s f rest =>
      rw [hp] at ih hsource
      obtain ⟨hf, hs, hrest⟩ := ih
      obtain rfl := List.mem_singleton.mp hf
      rw [source] at hsource
      refine ⟨hf, staysBefore_cons_iff.mpr ⟨fun hpre => hb ?_, hs⟩, hrest⟩
      rw [← hsource]
      exact (isPrefix_append_iff (b :: s) rest.source).mp hpre

theorem Tight.append (hp : p.Tight entries) (he : e ∈ entries) (hfinal : StaysBefore e p.final)
    (hq : q.Tight entries) : (p.append e q).Tight entries := by
  induction p with
  | last s => exact ⟨he, hfinal, hq⟩
  | cut s f rest ih => exact ⟨hp.1, hp.2.1, ih hp.2.2 hfinal⟩

/-- **A replacement keeps a text tight**: what is left of a stretch before an alias is an end of
it. -/
theorem Tight.rename (hne : e.name ≠ []) (h : p.Tight entries) (he : e ∈ entries) :
    (p.rename e).Tight entries := by
  have hreplace : ∀ s, (replace e s).Tight entries := fun s =>
    (tight_replace hne s).mono (List.cons_subset.mpr ⟨he, List.nil_subset entries⟩)
  induction p with
  | last s => exact hreplace s
  | cut s f rest ih =>
    obtain ⟨hf, hs, hrest⟩ := h
    have hfinal := final_isSuffix_source (replace e s)
    rw [source_replace hne] at hfinal
    exact (hreplace s).append hf (hs.suffix hfinal) (ih hrest)

/-- Replacing a name by itself shows nowhere. -/
theorem text_rename_of_eq (hne : e.name ≠ []) (heq : e.new = e.name) (p : Sealed) :
    (p.rename e).text = p.text := by
  have hsame : ∀ s, (replace e s).text = s := by
    intro s
    rw [text_replace hne, Bytes.replaceAll_eq_self_iff hne]
    exact Or.inl heq.symm
  induction p with
  | last s => exact hsame s
  | cut s f rest ih => rw [Sealed.rename, text_append, hsame, ih, text]

/-- **The step**: if no alias that was put in holds the name of `f` or is straddled by it, replacing
`f` in the text is replacing it in the stretches. -/
theorem Tight.text_rename (hne : f.name ≠ []) (h : p.Tight entries)
    (hentries : ∀ e ∈ entries, Precedes e f ∧ Separate e f) :
    (p.rename f).text = Bytes.replaceAll f.name f.new p.text := by
  by_cases heq : f.new = f.name
  · rw [text_rename_of_eq hne heq, eq_comm, Bytes.replaceAll_eq_self_iff hne]
    exact Or.inl heq.symm
  induction p with
  | last s => exact text_replace hne s
  | cut s e rest ih =>
    obtain ⟨he, hs, hrest⟩ := h
    obtain ⟨⟨-, hin⟩, hseparate⟩ := hentries e he
    obtain ⟨hout, hinto⟩ := not_or.mp (hseparate.resolve_left heq)
    calc ((cut s e rest).rename f).text
        = Bytes.replaceAll f.name f.new s ++
            (e.new ++ Bytes.replaceAll f.name f.new rest.text) := by
          rw [Sealed.rename, text_append, text_replace hne, ih hrest]
      _ = Bytes.replaceAll f.name f.new s ++
            Bytes.replaceAll f.name f.new (e.new ++ rest.text) := by
          rw [Bytes.replaceAll_append fun u hu hune =>
            not_isPrefix_of_not_runsOut hout hin hu hune]
      _ = Bytes.replaceAll f.name f.new (s ++ (e.new ++ rest.text)) := by
          rw [Bytes.replaceAll_append_of_not_across hne fun u hu hune hpre =>
            isPrefix_of_not_runsIn hinto hs hu hune hpre]

/-- **The run**: entries that are separate from each other, and from those already replaced, are
replaced in the text as in the stretches. -/
theorem Tight.renameText_eq (h : p.Tight others)
    (hpairs : (others ++ entries).Pairwise fun e f => Precedes e f ∧ Separate e f)
    (hne : ∀ e ∈ entries, e.name ≠ []) :
    renameText p.text entries = (entries.foldl (fun p e => p.rename e) p).text := by
  induction entries generalizing others p with
  | nil => rfl
  | cons f later ih =>
    obtain ⟨hf, hlater⟩ := List.forall_mem_cons.mp hne
    have hstep : (p.rename f).text = Bytes.replaceAll f.name f.new p.text :=
      h.text_rename hf fun e he => (List.pairwise_append.mp hpairs).2.2 e he f List.mem_cons_self
    have htight : (p.rename f).Tight (others ++ [f]) :=
      (h.mono (List.subset_append_left _ _)).rename hf
        (List.mem_append_right _ (List.mem_singleton.mpr rfl))
    rw [List.append_cons] at hpairs
    calc renameText p.text (f :: later)
        = renameText (p.rename f).text later := by rw [hstep]; rfl
      _ = (later.foldl (fun p e => p.rename e) (p.rename f)).text := ih htight hpairs hlater

end Sealed

/-- Replacing text leaves aliases alone if no name straddles an earlier alias. -/
theorem renameText_eq_text_renameSealed {entries : List Entry} (h : checkText entries = .ok ())
    (hseparate : entries.Pairwise Separate) (text : Bytes) :
    renameText text entries = (renameSealed text entries).text := by
  obtain ⟨husable, hpairs⟩ := checkText_eq_ok_iff.mp h
  have hne : ∀ e ∈ entries, e.name ≠ [] := fun e he =>
    (isWord_of_isIdentifier (husable.isIdentifier_name e he)).1
  have htight : (Sealed.last text).Tight [] := trivial
  exact htight.renameText_eq (hpairs.and hseparate) hne

/-! ### Names that straddle -/

section Straddled

variable {e f : Entry} {s t : Bytes}

/-- In front of its name a text in which it does not begin is a stretch of its own. -/
theorem Sealed.replace_append (hne : e.name ≠ []) (hs : StaysBefore e s) (t : Bytes) :
    Sealed.replace e (s ++ (e.name ++ t)) = .cut s e (Sealed.replace e t) := by
  induction s with
  | nil => exact replace_name_append hne t
  | cons b s ih =>
    obtain ⟨hb, hs⟩ := staysBefore_cons_iff.mp hs
    have hpre : ¬ e.name <+: b :: (s ++ (e.name ++ t)) :=
      mt (isPrefix_append_iff (b :: s) t).mpr hb
    rw [List.cons_append, replace_cons_of_not_isPrefix hpre, ih hs, consByte]

/-- **Around an alias the two replacements part.** If a text around the name of `e` holds no name of
its own, but the name of `f` stands in it once the alias is put in, replacing text goes on to
rewrite the alias and the sealed replacement does not. -/
theorem renameText_ne (he : e.name ≠ []) (hf : f.name ≠ []) (hnew : f.new ≠ f.name)
    (hs : StaysBefore e s) (ht : ¬ e.name <:+: t) (hsf : ¬ f.name <:+: s) (htf : ¬ f.name <:+: t)
    (hin : f.name <:+: s ++ (e.new ++ t)) :
    renameText (s ++ (e.name ++ t)) [e, f] ≠ (renameSealed (s ++ (e.name ++ t)) [e, f]).text := by
  have hfirst : Sealed.replace e (s ++ (e.name ++ t)) = .cut s e (.last t) := by
    rw [Sealed.replace_append he hs, Sealed.replace_of_not_isInfix ht]
  have htext : Bytes.replaceAll e.name e.new (s ++ (e.name ++ t)) = s ++ (e.new ++ t) := by
    rw [← Sealed.text_replace he, hfirst]
    rfl
  have hsealed : (renameSealed (s ++ (e.name ++ t)) [e, f]).text = s ++ (e.new ++ t) := by
    change ((Sealed.replace e (s ++ (e.name ++ t))).rename f).text = _
    rw [hfirst, Sealed.rename, Sealed.rename, Sealed.replace_of_not_isInfix hsf,
      Sealed.replace_of_not_isInfix htf]
    rfl
  have hrewritten : renameText (s ++ (e.name ++ t)) [e, f] =
      Bytes.replaceAll f.name f.new (s ++ (e.new ++ t)) :=
    congrArg (Bytes.replaceAll f.name f.new) htext
  rw [hsealed, hrewritten, ne_eq, Bytes.replaceAll_eq_self_iff hf]
  exact not_or.mpr ⟨hnew.symm, not_not_intro hin⟩

theorem not_isInfix_of_length_lt (h : t.length < s.length) : ¬ s <:+: t := fun hin =>
  absurd hin.length_le (Nat.not_le.mpr h)

/-- **A name that straddles an alias is caught in some text**: what is missing of the name is put
beside the name that gives way to the alias. -/
theorem exists_renameText_ne (he : e.name ≠ []) (hprecedes : Precedes e f)
    (hseparate : ¬ Separate e f) :
    ∃ text, renameText text [e, f] ≠ (renameSealed text [e, f]).text := by
  obtain ⟨hnew, hstraddles⟩ := not_or.mp hseparate
  have hname : ∀ t, t <:+ f.name → ¬ e.name <:+: t := fun t ht hin =>
    hprecedes.1 (hin.trans ht.isInfix)
  obtain ⟨n, hn, t, ht⟩ | ⟨n, hn, hpos, hoverlap, hstays⟩ := not_not.mp hstraddles
  · -- the name begins in the alias, and `t` is its rest
    have hlength := congrArg List.length ht
    rw [List.length_append, List.length_drop] at hlength
    have hf : f.name ≠ [] := List.length_pos_iff.mp (by omega)
    refine ⟨[] ++ (e.name ++ t), renameText_ne he hf hnew staysBefore_nil
      (hname t ⟨_, ht⟩) (fun hin => hf (List.infix_nil.mp hin))
      (not_isInfix_of_length_lt (by omega)) ⟨e.new.take n, [], ?_⟩⟩
    rw [← ht, ← List.append_assoc, List.take_append_drop]
    simp
  · -- the name begins before the alias, and `t` is what it has left after it
    obtain ⟨t, ht, hpre⟩ : ∃ t, t <:+ f.name.drop n ∧ f.name.drop n <+: e.new ++ t := by
      obtain hpre | ⟨t, ht⟩ := hoverlap
      · exact ⟨[], List.nil_suffix, by rwa [List.append_nil]⟩
      · exact ⟨t, ⟨_, ht⟩, ht ▸ List.prefix_refl _⟩
    have hlength := ht.length_le
    rw [List.length_drop] at hlength
    have hf : f.name ≠ [] := List.length_pos_iff.mp (by omega)
    refine ⟨f.name.take n ++ (e.name ++ t), renameText_ne he hf hnew hstays
      (hname t (ht.trans (List.drop_suffix n f.name)))
      (not_isInfix_of_length_lt (by rw [List.length_take]; omega))
      (not_isInfix_of_length_lt (by omega)) ?_⟩
    have hall := (List.prefix_append_right_inj (f.name.take n)).mpr hpre
    rw [List.take_append_drop] at hall
    exact hall.isInfix

end Straddled

/-- **When replacing text leaves aliases alone.** Let a table be accepted. For the table and all its
parts, and in every text, replacing the entries one after another comes to replacing each only
inside the stretches of the original that are left, exactly if no name straddles the alias of an
earlier entry, other than a name that is replaced by itself. -/
theorem renameText_sealed_iff {entries : List Entry} (h : checkText entries = .ok ()) :
    (∀ part : List Entry, part.Sublist entries → ∀ text,
      renameText text part = (renameSealed text part).text) ↔ entries.Pairwise Separate := by
  obtain ⟨husable, hpairs⟩ := checkText_eq_ok_iff.mp h
  constructor
  · intro hall
    -- two entries by themselves already show it
    refine List.pairwise_iff_forall_sublist.mpr fun {e f} hsub => ?_
    by_contra hseparate
    have he : e ∈ entries := hsub.subset List.mem_cons_self
    obtain ⟨text, hne⟩ := exists_renameText_ne
      (isWord_of_isIdentifier (husable.isIdentifier_name e he)).1
      (List.pairwise_iff_forall_sublist.mp hpairs hsub) hseparate
    exact hne (hall [e, f] hsub text)
  · intro hseparate part hsub text
    exact renameText_eq_text_renameSealed (checkText_sublist h hsub) (hseparate.sublist hsub) text

/-- With `a` replaced by `x` and then `xb` by `y` an accepted table rewrites its alias in `ab`,
since `xb` runs out of `x`; with `x_` in the place of `x` it leaves its aliases alone. -/
theorem renameText_sealed_iff_straddled : ∃ straddled separate : List Entry,
    checkText straddled = .ok () ∧
    renameText (utf8 "int ab;") straddled = utf8 "int y;" ∧
    (renameSealed (utf8 "int ab;") straddled).text = utf8 "int xb;" ∧
    ¬ (∀ part : List Entry, part.Sublist straddled → ∀ text,
      renameText text part = (renameSealed text part).text) ∧
    checkText separate = .ok () ∧
    ∀ part : List Entry, part.Sublist separate → ∀ text,
      renameText text part = (renameSealed text part).text := by
  refine ⟨[⟨utf8 "a", utf8 "x"⟩, ⟨utf8 "xb", utf8 "y"⟩],
    [⟨utf8 "a", utf8 "x_"⟩, ⟨utf8 "xb", utf8 "y"⟩], rfl, by decide +kernel, by decide +kernel,
    ?_, rfl, ?_⟩
  · rw [renameText_sealed_iff rfl]
    decide +kernel
  · exact (renameText_sealed_iff rfl).mpr (by decide +kernel)

end KernelPack.Renaming
