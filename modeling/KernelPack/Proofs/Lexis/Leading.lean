import KernelPack.Proofs.Lexis.Pieces

/-!
# Matching two versions of a text

A pattern sees the same in both versions of a text, as long as it does not tell the words apart in
which they differ. How it fares is said by a triple: `Leads d P p Q`. From places whose pieces
satisfy `P` the pattern `p` hands on places beside each other whose pieces satisfy `Q`, best first
on both sides alike, provided that the rest of the match meets the **demand** `d`. A pattern that
can stop in the middle of a word, where the two versions have nothing in common, demands that the
rest fails there (`Demand.fails`) or takes the first place it is offered (`Demand.succeeds`).

The triples are put together along the patterns (`Leads.seq`, `Leads.seq_barred`, `Leads.alt`) and
along the parts of a rule (`LeadsAll.cons`, `LeadsAll.cons_barred`, `LeadsAll.last`).
-/

namespace KernelPack.Lexis

open KernelGrammar

/-! ### Demands on the rest of a match -/

/-- The place is inside of a word of ASCII characters. -/
def Place.InWord (s : Place) : Prop :=
  s.prev.any isLatin = true ∧ s.rest.head?.any isLatin = true

/-- What a pattern demands of the rest of the match. -/
inductive Demand where
  | nothing
  /-- The rest fails inside of words. -/
  | fails
  /-- The rest takes every place it is offered. -/
  | succeeds

/-- The rest of a match meets a demand. -/
def Demand.Met {α : Type} (k : Place → Option α) : Demand → Prop
  | nothing => True
  | fails => ∀ s, s.InWord → k s = none
  | succeeds => ∀ s, (k s).isSome = true

/-- The rests of a match on both sides agree at places beside each other, within the pieces `all`,
whose pieces satisfy `P`. -/
def Agree {α β : Type} (all : List Piece) (P : List Piece → Prop) (R : α → β → Prop)
    (k : Place → Option α) (k' : Place → Option β) : Prop :=
  ∀ ps s s', ps <:+ all → Beside ps s s' → P ps → Option.Rel R (k s) (k' s')

/-- **From `P` the pattern leads to `Q` on both sides alike**, if the rest meets the demand. -/
def Leads (d : Demand) (P : List Piece → Prop) (p : Pattern) (Q : List Piece → Prop) : Prop :=
  ∀ ⦃α β : Type⦄ ⦃all : List Piece⦄ ⦃R : α → β → Prop⦄ ⦃k : Place → Option α⦄
    ⦃k' : Place → Option β⦄, d.Met k → d.Met k' → Agree all Q R k k' →
      Agree all P R (p.run k) (p.run k')

/-- The pattern fails wherever a word character follows. -/
def Barred (p : Pattern) : Prop :=
  ∀ ⦃α : Type⦄ (k : Place → Option α) (s : Place), s.rest.head?.any Text.isWord = true →
    p.run k s = none

/-- A word character follows inside of words. -/
theorem Place.InWord.isWord {s : Place} (h : s.InWord) : s.rest.head?.any Text.isWord = true := by
  obtain ⟨prev, rest⟩ := s
  match rest, h.2 with
  | x :: _, hx => exact isWord_of_isLatin x hx

/-! ### Matching as a sequence of attempts -/

namespace Pattern

variable {α : Type} {c : Char → Bool} {k : Place → Option α}

theorem run_alt (p q : Pattern) (s : Place) :
    (alt p q).run k s = (p.run k s).or (q.run k s) := by
  rw [run]
  cases p.run k s with
  | none => rfl
  | some a => rfl

theorem runMany_cons (prev : Option Char) (x : Char) (t : List Char) :
    runMany c k prev (x :: t) =
      if c x then (runMany c k (some x) t).or (k ⟨prev, x :: t⟩) else k ⟨prev, x :: t⟩ := by
  rw [runMany]
  cases runMany c k (some x) t with
  | none => rfl
  | some a => rfl

theorem runFew_cons (prev : Option Char) (x : Char) (t : List Char) :
    runFew c k prev (x :: t) =
      (k ⟨prev, x :: t⟩).or (if c x then runFew c k (some x) t else none) := by
  rw [runFew]
  cases k ⟨prev, x :: t⟩ with
  | none => rfl
  | some a => rfl

end Pattern

/-- Attempts that agree one by one agree together. -/
theorem rel_or {α β : Type} {R : α → β → Prop} {a a' : Option α} {b b' : Option β}
    (h : Option.Rel R a b) (h' : Option.Rel R a' b') : Option.Rel R (a.or a') (b.or b') := by
  cases h with
  | none => exact h'
  | some h => exact .some h

namespace Leads

variable {d : Demand} {P Q M : List Piece → Prop} {p q : Pattern}

theorem of_nothing (h : Leads .nothing P p Q) : Leads d P p Q :=
  fun _ _ _ _ _ _ _ _ => h trivial trivial

theorem mono {P' Q' : List Piece → Prop} (h : Leads d P p Q) (hP : ∀ ps, P' ps → P ps)
    (hQ : ∀ ps, Q ps → Q' ps) : Leads d P' p Q' :=
  fun _ _ _ _ _ _ hk hk' hagree ps s s' hps hb hp =>
    h hk hk' (fun ps s s' hps hb hq => hagree ps s s' hps hb (hQ ps hq)) ps s s' hps hb (hP ps hp)

/-- One pattern after another, if the first makes no demand. -/
theorem seq (hp : Leads .nothing P p M) (hq : Leads d M q Q) : Leads d P (p ++ q) Q :=
  fun _ _ _ _ _ _ hk hk' hagree => hp trivial trivial (hq hk hk' hagree)

/-- One pattern after another that fails where the first may stop in the middle of a word. -/
theorem seq_barred (hp : Leads .fails P p M) (hq : Leads d M q Q) (hbar : Barred q) :
    Leads d P (p ++ q) Q :=
  fun _ _ _ _ _ _ hk hk' hagree =>
    hp (fun s hs => hbar _ s hs.isWord) (fun s hs => hbar _ s hs.isWord) (hq hk hk' hagree)

theorem alt (hp : Leads d P p Q) (hq : Leads d P q Q) : Leads d P (.alt p q) Q := by
  intro α β all R k k' hk hk' hagree ps s s' hps hb hP
  rw [Pattern.run_alt, Pattern.run_alt]
  exact rel_or (hp hk hk' hagree ps s s' hps hb hP) (hq hk hk' hagree ps s s' hps hb hP)

theorem empty (h : ∀ ps, P ps → Q ps) : Leads .nothing P .empty Q :=
  fun _ _ _ _ _ _ _ _ hagree ps s s' hps hb hP => hagree ps s s' hps hb (h ps hP)

theorem opt (hp : Leads .nothing P p Q) (h : ∀ ps, P ps → Q ps) :
    Leads .nothing P (Pattern.opt p) Q :=
  hp.alt (Leads.empty h)

/-- One of several patterns. -/
theorem choice {ps : List Pattern} (h : ∀ p ∈ ps, Leads d P p Q) :
    Leads d P (Pattern.choice ps) Q := by
  induction ps with
  | nil => exact fun _ _ _ _ _ _ _ _ _ _ _ _ _ _ _ => .none
  | cons p ps ih =>
    obtain ⟨hp, hps⟩ := List.forall_mem_cons.mp h
    cases ps with
    | nil => exact hp
    | cons => exact hp.alt (ih hps)

/-! ### Conditions on the place -/

theorem lineStart (h : ∀ ps, P ps → Q ps) : Leads .nothing P .lineStart Q := by
  intro α β all R k k' _ _ hagree ps s s' hps hb hP
  have hsame : (s.prev = none ∨ s.prev = some '\n') ↔ (s'.prev = none ∨ s'.prev = some '\n') := by
    obtain heq | ⟨hs, hs'⟩ := hb.prev
    · rw [heq]
    · -- neither a text nor a line begins after a word
      have hword : ∀ o : Option Char, o.any isLatin = true → ¬ (o = none ∨ o = some '\n') := by
        rintro _ ho (rfl | rfl)
        · cases ho
        · revert ho
          decide
      exact iff_of_false (hword _ hs) (hword _ hs')
  simp only [Pattern.run, hsame]
  split
  · exact hagree ps s s' hps hb (h ps hP)
  · exact .none

/-- The same class of characters stands before both places. -/
theorem after {c : Char → Bool} {v : Bool} (hc : ∀ x, isLatin x = true → c x = v)
    (h : ∀ ps, P ps → Q ps) : Leads .nothing P (.after c) Q := by
  intro α β all R k k' _ _ hagree ps s s' hps hb hP
  simp only [Pattern.run, hb.prev.any_eq hc]
  split
  · exact hagree ps s s' hps hb (h ps hP)
  · exact .none

theorem notAfter {c : Char → Bool} {v : Bool} (hc : ∀ x, isLatin x = true → c x = v)
    (h : ∀ ps, P ps → Q ps) : Leads .nothing P (.notAfter c) Q := by
  intro α β all R k k' _ _ hagree ps s s' hps hb hP
  simp only [Pattern.run, hb.prev.any_eq hc]
  split
  · exact .none
  · exact hagree ps s s' hps hb (h ps hP)

end Leads

/-- A word begins at both places or at neither. -/
theorem Beside.head?_any_isWord {ps : List Piece} {s s' : Place} (h : Beside ps s s') :
    s.rest.head?.any Text.isWord = s'.rest.head?.any Text.isWord := by
  induction h using Beside.induction with
  | nil => rfl
  | kept => rfl
  | swapped x w y w' ps prev prev' hx hy =>
    simp [isWord_of_isLatin _ (isLatin_of_isNameStart hx),
      isWord_of_isLatin _ (isLatin_of_isNameStart hy)]

namespace Leads

variable {d : Demand} {P Q M : List Piece → Prop} {p q : Pattern}

theorem wordEdge (h : ∀ ps, P ps → Q ps) : Leads .nothing P wordEdge Q := by
  intro α β all R k k' _ _ hagree ps s s' hps hb hP
  simp only [KernelGrammar.wordEdge, Pattern.run, hb.prev.any_eq isWord_of_isLatin,
    hb.head?_any_isWord]
  split
  · exact hagree ps s s' hps hb (h ps hP)
  · exact .none

/-- A pattern ahead is found on both sides or on neither. -/
theorem isSome_run (hp : Leads .succeeds P p Q) {ps : List Piece} {s s' : Place}
    (hb : Beside ps s s') (hP : P ps) :
    (p.run some s).isSome = (p.run some s').isSome := by
  have hagree : Agree ps Q (fun _ _ => True) some some := fun _ _ _ _ _ _ => .some trivial
  have hrel := hp (fun _ => rfl) (fun _ => rfl) hagree ps s s' (List.suffix_refl ps) hb hP
  generalize p.run some s = r at hrel ⊢
  generalize p.run some s' = r' at hrel ⊢
  cases hrel with
  | none => rfl
  | some => rfl

theorem ahead (hp : Leads .succeeds P p M) (h : ∀ ps, P ps → Q ps) :
    Leads .nothing P (.ahead p) Q := by
  intro α β all R k k' _ _ hagree ps s s' hps hb hP
  simp only [Pattern.run, hp.isSome_run hb hP]
  split
  · exact hagree ps s s' hps hb (h ps hP)
  · exact .none

theorem notAhead (hp : Leads .succeeds P p M) (h : ∀ ps, P ps → Q ps) :
    Leads .nothing P (.notAhead p) Q := by
  intro α β all R k k' _ _ hagree ps s s' hps hb hP
  simp only [Pattern.run, hp.isSome_run hb hP]
  split
  · exact .none
  · exact hagree ps s s' hps hb (h ps hP)

/-! ### Characters -/

/-- One character of a class. Either the class leaves out what begins a word, or no swapped word
can come. -/
theorem one {c : Char → Bool}
    (hkept : ∀ x ps, Apart (.kept x :: ps) → P (.kept x :: ps) → c x = true → Q ps)
    (hswapped : (∀ x, isNameStart x = true → c x = false) ∨ ∀ ps, P ps → StartsKept ps) :
    Leads .nothing P (.one c) Q := by
  intro α β all R k k' _ _ hagree ps s s' hps hb hP
  induction hb using Beside.induction with
  | nil => exact .none
  | kept x ps prev prev' hb hnext =>
    simp only [Pattern.run]
    split
    · rename_i hx
      exact hagree ps _ _ ((List.suffix_cons _ ps).trans hps) hnext
        (hkept x ps hb.apart hP hx)
    · exact .none
  | swapped x w y w' ps prev prev' hx hy =>
    obtain hc | hno := hswapped
    · simp only [Pattern.run, hc x hx, hc y hy, Bool.false_eq_true, if_false]
      exact .none
    · exact (hno _ hP).elim

/-- As many characters of a class as possible, where no swapped word comes in between. -/
theorem many {c : Char → Bool}
    (hkept : ∀ x ps, Apart (.kept x :: ps) → P (.kept x :: ps) → c x = true → P ps)
    (hswapped : (∀ x, isNameStart x = true → c x = false) ∨ ∀ ps, P ps → StartsKept ps) :
    Leads .nothing P (.many c) P := by
  intro α β all R k k' _ _ hagree ps s s' hps hb hP
  have hhere := hagree ps s s' hps hb hP
  simp only [Pattern.run]
  induction hb using Beside.induction with
  | nil => exact hhere
  | kept x ps prev prev' hb hnext ih =>
    simp only [Pattern.runMany_cons]
    split
    · rename_i hx
      have hps' := (List.suffix_cons _ ps).trans hps
      have hP' := hkept x ps hb.apart hP hx
      exact rel_or (ih hps' hP' (hagree ps _ _ hps' hnext hP')) hhere
    · exact hhere
  | swapped x w y w' ps prev prev' hx hy =>
    obtain hc | hno := hswapped
    · simp only [Pattern.runMany_cons, hc x hx, hc y hy, Bool.false_eq_true, if_false]
      exact hhere
    · exact (hno _ hP).elim

end Leads

/-! ### Through words -/

/-- A longest run of a class takes some place, if the rest takes every place it is offered. -/
theorem isSome_runMany {α : Type} (c : Char → Bool) {k : Place → Option α}
    (hk : Demand.succeeds.Met k) (prev : Option Char) (r : List Char) :
    (Pattern.runMany c k prev r).isSome = true := by
  induction r generalizing prev with
  | nil => exact hk _
  | cons z r ih =>
    rw [Pattern.runMany]
    split
    · cases Pattern.runMany c k (some z) r with
      | none => exact hk _
      | some a => rfl
    · exact hk _

section Through

variable {α β : Type} {c : Char → Bool} (hc : ∀ x, isLatin x = true → c x = true)

include hc

/-- A longest run goes on to the end of a word it is in, if the rest fails inside of words or takes
the first place it is offered. -/
theorem runMany_append {k : Place → Option α} {d : Demand} (hk : d.Met k) (hd : d ≠ .nothing)
    {x : Char} {w : List Char} (hw : ∀ y ∈ x :: w, isLatin y = true) (r : List Char) :
    Pattern.runMany c k (some x) (w ++ r) = Pattern.runMany c k (some (w.getLastD x)) r := by
  induction w generalizing x with
  | nil => rfl
  | cons y w ih =>
    obtain ⟨hx, hyw⟩ := List.forall_mem_cons.mp hw
    have hy := hyw y List.mem_cons_self
    rw [List.cons_append, Pattern.runMany, if_pos (hc y hy), ih hyw, List.getLastD_cons]
    cases hrest : Pattern.runMany c k (some (w.getLastD y)) r with
    | some a => rfl
    | none =>
      cases d with
      | nothing => exact absurd rfl hd
      | fails => exact hk ⟨some x, y :: (w ++ r)⟩ ⟨hx, hy⟩
      | succeeds =>
        -- the longest run would have been taken
        have hsome := isSome_runMany c hk (some (w.getLastD y)) r
        rw [hrest] at hsome
        cases hsome

/-- A shortest run goes on to the end of a word it is in, if the rest fails inside of words. -/
theorem runFew_append {k : Place → Option α} (hk : Demand.fails.Met k) {x : Char} {w : List Char}
    (hw : ∀ y ∈ x :: w, isLatin y = true) (r : List Char) :
    Pattern.runFew c k (some x) (w ++ r) = Pattern.runFew c k (some (w.getLastD x)) r := by
  induction w generalizing x with
  | nil => rfl
  | cons y w ih =>
    obtain ⟨hx, hyw⟩ := List.forall_mem_cons.mp hw
    have hy := hyw y List.mem_cons_self
    have hnone : k ⟨some x, y :: (w ++ r)⟩ = none := hk _ ⟨hx, hy⟩
    rw [List.cons_append, Pattern.runFew, hnone, List.getLastD_cons]
    simp only [if_pos (hc y hy)]
    exact ih hyw

/-- As many characters of a class as possible, over words and all. -/
theorem Leads.many_through {d : Demand} (hd : d ≠ .nothing) :
    Leads d Anything (.many c) Anything := by
  intro α β all R k k' hk hk' hagree ps s s' hps hb hP
  have hhere := hagree ps s s' hps hb hP
  simp only [Pattern.run]
  induction hb using Beside.induction with
  | nil => exact hhere
  | kept x ps prev prev' hb hnext ih =>
    simp only [Pattern.runMany_cons]
    split
    · have hps' := (List.suffix_cons _ ps).trans hps
      exact rel_or (ih hps' trivial (hagree ps _ _ hps' hnext trivial)) hhere
    · exact hhere
  | swapped x w y w' ps prev prev' hx hy hw hw' hb hnext ih =>
    have hps' := (List.suffix_cons _ ps).trans hps
    simp only [Pattern.runMany_cons, if_pos (hc x (hw x List.mem_cons_self)),
      if_pos (hc y (hw' y List.mem_cons_self))]
    rw [runMany_append hc hk hd hw, runMany_append hc hk' hd hw']
    exact rel_or (ih hps' trivial (hagree ps _ _ hps' hnext trivial)) hhere

/-- As few characters of a class as possible, over words and all. -/
theorem Leads.few_through : Leads .fails Anything (.few c) Anything := by
  intro α β all R k k' hk hk' hagree ps s s' hps hb hP
  have hhere := hagree ps s s' hps hb hP
  simp only [Pattern.run]
  induction hb using Beside.induction with
  | nil => exact hhere
  | kept x ps prev prev' hb hnext ih =>
    simp only [Pattern.runFew_cons]
    refine rel_or hhere ?_
    split
    · have hps' := (List.suffix_cons _ ps).trans hps
      exact ih hps' trivial (hagree ps _ _ hps' hnext trivial)
    · exact .none
  | swapped x w y w' ps prev prev' hx hy hw hw' hb hnext ih =>
    have hps' := (List.suffix_cons _ ps).trans hps
    simp only [Pattern.runFew_cons, if_pos (hc x (hw x List.mem_cons_self)),
      if_pos (hc y (hw' y List.mem_cons_self))]
    rw [runFew_append hc hk hw, runFew_append hc hk' hw']
    exact rel_or hhere (ih hps' trivial (hagree ps _ _ hps' hnext trivial))

omit hc in
/-- A character and then a run of a class: a swapped word is taken whole, if the run takes it to
its end. -/
theorem Leads.one_run {d : Demand} {q : Char → Bool} {r : Pattern}
    (hq : ∀ x, isNameStart x = true → q x = true) (hr : Leads d Anything r Anything)
    (hword : ∀ ⦃γ : Type⦄ (k : Place → Option γ), d.Met k → ∀ (x : Char) (w t : List Char),
      (∀ y ∈ x :: w, isLatin y = true) →
        r.run k ⟨some x, w ++ t⟩ = r.run k ⟨some (w.getLastD x), t⟩) :
    Leads d Anything (.one q ++ r) Anything := by
  intro α β all R k k' hk hk' hagree ps s s' hps hb _
  have hrun := hr hk hk' hagree
  show Option.Rel R ((Pattern.one q).run (r.run k) s) ((Pattern.one q).run (r.run k') s')
  induction hb using Beside.induction with
  | nil => exact .none
  | kept x ps prev prev' hb hnext =>
    simp only [Pattern.run]
    split
    · exact hrun ps _ _ ((List.suffix_cons _ ps).trans hps) hnext trivial
    · exact .none
  | swapped x w y w' ps prev prev' hx hy hw hw' hb hnext =>
    simp only [Pattern.run, if_pos (hq x hx), if_pos (hq y hy)]
    rw [hword k hk x w _ hw, hword k' hk' y w' _ hw']
    exact hrun ps _ _ ((List.suffix_cons _ ps).trans hps) hnext trivial

omit hc in
/-- An identifier, or more generally a character and then as many of a class as possible. -/
theorem Leads.one_many_through {d : Demand} (hd : d ≠ .nothing) {q : Char → Bool}
    (hq : ∀ x, isNameStart x = true → q x = true) (hc : ∀ x, isLatin x = true → c x = true) :
    Leads d Anything (.one q ++ .many c) Anything :=
  .one_run hq (.many_through hc hd) fun _ _ hk _ _ t hw => runMany_append hc hk hd hw t

omit hc in
/-- A character and then as few of a class as possible. -/
theorem Leads.few1_through (hc : ∀ x, isLatin x = true → c x = true) :
    Leads .fails Anything (Pattern.few1 c) Anything :=
  .one_run (fun x hx => hc x (isLatin_of_isNameStart hx)) (.few_through hc)
    fun _ _ hk _ _ t hw => runFew_append hc hk hw t

end Through

/-! ### The usual cases -/

namespace Leads

variable {d : Demand} {P Q : List Piece → Prop} {c : Char → Bool}

/-- A character that begins no identifier. -/
theorem one_plain (hc : ∀ x, isNameStart x = true → c x = false) :
    Leads .nothing Anything (.one c) Anything :=
  .one (fun _ _ _ _ _ => trivial) (Or.inl hc)

/-- A character that begins no identifier, and after which no swapped word comes. -/
theorem one_guard (hc : ∀ x, isNameStart x = true → c x = false)
    (hguard : ∀ x, c x = true → guards x = true) :
    Leads .nothing Anything (.one c) StartsKept :=
  .one (fun x _ hapart _ hx => hapart.1 (hguard x hx)) (Or.inl hc)

/-- Any character, where no swapped word comes. -/
theorem one_kept : Leads .nothing StartsKept (.one c) Anything :=
  .one (fun _ _ _ _ _ => trivial) (Or.inr fun _ h => h)

theorem one_kept_guard (hguard : ∀ x, c x = true → guards x = true) :
    Leads .nothing StartsKept (.one c) StartsKept :=
  .one (fun x _ hapart _ hx => hapart.1 (hguard x hx)) (Or.inr fun _ h => h)

theorem many_plain (hc : ∀ x, isNameStart x = true → c x = false) :
    Leads .nothing Anything (.many c) Anything :=
  .many (fun _ _ _ _ _ => trivial) (Or.inl hc)

theorem many_kept (hguard : ∀ x, c x = true → guards x = true) :
    Leads .nothing StartsKept (.many c) StartsKept :=
  .many (fun x _ hapart _ hx => hapart.1 (hguard x hx)) (Or.inr fun _ h => h)

theorem many1_plain (hc : ∀ x, isNameStart x = true → c x = false) :
    Leads .nothing Anything (Pattern.many1 c) Anything :=
  (one_plain hc).seq (many_plain hc)

theorem many1_through (hd : d ≠ .nothing) (hc : ∀ x, isLatin x = true → c x = true) :
    Leads d Anything (Pattern.many1 c) Anything :=
  one_many_through hd (fun x hx => hc x (isLatin_of_isNameStart hx)) hc

/-- Given characters in order. -/
theorem spelled {cs : List Char} {I : List Piece → Prop}
    (h : ∀ x ∈ cs, Leads .nothing I (char x) I) :
    Leads .nothing I (cs.foldr (fun x p => char x ++ p) .empty) I := by
  induction cs with
  | nil => exact .empty fun _ h => h
  | cons x cs ih =>
    obtain ⟨hx, hcs⟩ := List.forall_mem_cons.mp h
    exact hx.seq (ih hcs)

theorem char_plain {x : Char} (hx : isNameStart x = false) :
    Leads .nothing Anything (char x) Anything :=
  one_plain fun y hy => beq_eq_false_iff_ne.mpr fun heq => by simp [← heq, hy] at hx

theorem char_guard {x : Char} (hx : isNameStart x = false) (hguard : guards x = true) :
    Leads .nothing Anything (char x) StartsKept :=
  one_guard (fun y hy => beq_eq_false_iff_ne.mpr fun heq => by simp [← heq, hy] at hx)
    fun _ hy => beq_iff_eq.mp hy ▸ hguard

theorem char_kept_guard {x : Char} (hguard : guards x = true) :
    Leads .nothing StartsKept (char x) StartsKept :=
  one_kept_guard fun _ hy => beq_iff_eq.mp hy ▸ hguard

/-- A text of characters none of which begins an identifier. -/
theorem text_plain {t : String} (h : t.toList.all (!isNameStart ·) = true) :
    Leads .nothing Anything (Pattern.text t) Anything :=
  spelled fun x hx => char_plain (Bool.not_eq_eq_eq_not.mp (List.all_eq_true.mp h x hx))

/-- A text of characters after each of which no swapped word comes. -/
theorem text_kept {t : String} (h : t.toList.all guards = true) :
    Leads .nothing StartsKept (Pattern.text t) StartsKept :=
  spelled fun x hx => char_kept_guard (List.all_eq_true.mp h x hx)

/-- Such a text that begins no identifier. -/
theorem text_guard {t : String} {x : Char} {cs : List Char} (ht : t.toList = x :: cs)
    (hx : isNameStart x = false) (h : (x :: cs).all guards = true) :
    Leads .nothing Anything (Pattern.text t) StartsKept := by
  obtain ⟨hguard, hcs⟩ := List.forall_mem_cons.mp (List.all_eq_true.mp h)
  rw [Pattern.text, ht]
  exact (char_guard hx hguard).seq (spelled fun y hy => char_kept_guard (hcs y hy))

theorem words_kept {ws : List String} (h : ws.all (·.toList.all guards) = true) :
    Leads .nothing StartsKept (Pattern.words ws) StartsKept := by
  refine .choice fun p hp => ?_
  obtain ⟨w, hw, rfl⟩ := List.mem_map.mp hp
  exact text_kept (List.all_eq_true.mp h w hw)

end Leads

/-! ### Patterns that fail where a word character follows -/

/-- The pattern takes nothing where a word character follows: it fails or stays where it is. -/
def Idle (p : Pattern) : Prop :=
  ∀ ⦃α : Type⦄ (k : Place → Option α) (s : Place), s.rest.head?.any Text.isWord = true →
    p.run k s = none ∨ p.run k s = k s

namespace Idle

variable {p q : Pattern} {c : Char → Bool}

theorem lineStart : Idle .lineStart := by
  intro α k s _
  simp only [Pattern.run]
  split
  · exact Or.inr rfl
  · exact Or.inl rfl

theorem notAfter : Idle (.notAfter c) := by
  intro α k s _
  simp only [Pattern.run]
  split
  · exact Or.inl rfl
  · exact Or.inr rfl

theorem many (hc : ∀ x, Text.isWord x = true → c x = false) : Idle (.many c) := by
  rintro α k ⟨prev, rest⟩ hhead
  match rest, hhead with
  | x :: t, hx =>
    refine Or.inr ?_
    rw [Pattern.run, Pattern.runMany_cons, hc x hx]
    rfl

theorem seq (hp : Idle p) (hq : Idle q) : Idle (p ++ q) := by
  intro α k s hs
  obtain h | h := hp (q.run k) s hs
  · exact Or.inl h
  · obtain h' | h' := hq k s hs
    · exact Or.inl (h.trans h')
    · exact Or.inr (h.trans h')

theorem opt (hp : Barred p) : Idle (.opt p) := by
  intro α k s hs
  refine Or.inr ?_
  rw [Pattern.opt, Pattern.run_alt, hp k s hs, Option.none_or]
  rfl

end Idle

namespace Barred

variable {p q : Pattern} {c : Char → Bool}

theorem one (hc : ∀ x, Text.isWord x = true → c x = false) : Barred (.one c) := by
  rintro α k ⟨prev, rest⟩ hhead
  match rest, hhead with
  | x :: t, hx => simp [Pattern.run, hc x hx]

theorem char {x : Char} (hx : Text.isWord x = false) : Barred (char x) :=
  one fun y hy => beq_eq_false_iff_ne.mpr fun heq => by simp [← heq, hy] at hx

theorem seq (hp : Barred p) : Barred (p ++ q) := fun _ _ => hp _

theorem idle_seq (hp : Idle p) (hq : Barred q) : Barred (p ++ q) := by
  intro α k s hs
  obtain h | h := hp (q.run k) s hs
  · exact h
  · exact h.trans (hq k s hs)

theorem ahead (hp : Barred p) : Barred (.ahead p) := by
  intro α k s hs
  simp [Pattern.run, hp some s hs]

end Barred

/-! ### The parts of a rule -/

/-- Places in order that are beside each other one by one. -/
inductive EndsBeside : List Piece → List Place → List Place → Prop
  | nil (ps : List Piece) : EndsBeside ps [] []
  | cons {ps qs : List Piece} {e e' : Place} {es es' : List Place} :
    qs <:+ ps → Beside qs e e' → EndsBeside qs es es' → EndsBeside ps (e :: es) (e' :: es')

/-- From `P` the patterns match one after another on both sides alike. -/
def LeadsAll (P : List Piece → Prop) (patterns : List Pattern) : Prop :=
  ∀ ps s s', Beside ps s s' → P ps →
    Option.Rel (EndsBeside ps) (Pattern.ends patterns s) (Pattern.ends patterns s')

/-- The patterns fail wherever a word character follows. -/
def BarredAll (patterns : List Pattern) : Prop :=
  ∀ s : Place, s.rest.head?.any Text.isWord = true → Pattern.ends patterns s = none

namespace BarredAll

variable {p : Pattern} {patterns : List Pattern}

theorem cons (hp : Barred p) (patterns : List Pattern) : BarredAll (p :: patterns) :=
  fun s hs => hp _ s hs

theorem idle_cons (hp : Idle p) (h : BarredAll patterns) : BarredAll (p :: patterns) := by
  intro s hs
  obtain hnone | hstay := hp (fun e => (Pattern.ends patterns e).map (e :: ·)) s hs
  · exact hnone
  · rw [Pattern.ends, hstay, h s hs, Option.map_none]

end BarredAll

namespace LeadsAll

variable {P Q : List Piece → Prop} {p : Pattern} {patterns : List Pattern}

theorem nil : LeadsAll P [] := fun ps _ _ _ _ => .some (.nil ps)

/-- A part and then the others. -/
theorem cons_of_met {d : Demand} (hp : Leads d P p Q) (hrest : LeadsAll Q patterns)
    (hmet : d.Met fun s => (Pattern.ends patterns s).map (s :: ·)) :
    LeadsAll P (p :: patterns) := by
  intro ps s s' hb hP
  have hagree : Agree ps Q (EndsBeside ps) (fun e => (Pattern.ends patterns e).map (e :: ·))
      (fun e => (Pattern.ends patterns e).map (e :: ·)) := by
    intro qs e e' hqs he hQ
    have hends := hrest qs e e' he hQ
    simp only
    generalize Pattern.ends patterns e = r at hends ⊢
    generalize Pattern.ends patterns e' = r' at hends ⊢
    cases hends with
    | none => exact .none
    | some h => exact .some (.cons hqs he h)
  exact hp hmet hmet hagree ps s s' (List.suffix_refl ps) hb hP

theorem cons (hp : Leads .nothing P p Q) (hrest : LeadsAll Q patterns) :
    LeadsAll P (p :: patterns) :=
  cons_of_met hp hrest trivial

/-- A part and then others that fail where it may stop in the middle of a word. -/
theorem cons_barred (hp : Leads .fails P p Q) (hrest : LeadsAll Q patterns)
    (hbar : BarredAll patterns) : LeadsAll P (p :: patterns) :=
  cons_of_met hp hrest fun s hs => by simp only [hbar s hs.isWord, Option.map_none]

/-- The last part. -/
theorem last (hp : Leads .succeeds P p Q) : LeadsAll P [p] :=
  cons_of_met hp nil fun _ => rfl

end LeadsAll

end KernelPack.Lexis
