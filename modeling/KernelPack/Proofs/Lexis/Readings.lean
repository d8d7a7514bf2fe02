import KernelPack.Proofs.Lexis.Tracking
import KernelPack.Proofs.Lexis.Stability

/-!
# The kernel grammar in both readings

Each rule of the kernel grammar matches alike in both readings of a text (`Stable`). Most rules take
neither spaces nor punctuation, and nothing more is to be said of them. The others are:

* **comments**, whose marks do not come together where a space is dropped, since the text is calm;
* **numbers** with a power of ten, for the same reason;
* **character literals**, which are alike if every quote that could begin one does so in the loose
  text (`Quoted`);
* labels and calls, which look over white space;
* **heads of functions**, which may begin with an asterisk only where no space is dropped behind it.
-/

namespace KernelPack.Lexis.Spaced

open KernelGrammar

/-! ### Line feeds and hashes -/

/-- A line feed ends both readings. -/
theorem Snug.eq_nil_of_lf {before : Option Char} {gs : List Glyph} (h : Snug before gs)
    {u v : List Char} :
    (looseText gs = u ++ '\n' :: v → v = []) ∧ (tightText gs = u ++ '\n' :: v → v = []) := by
  induction gs generalizing before u with
  | nil => simp
  | cons z gs ih =>
    cases z with
    | gone =>
      refine ⟨fun hloose => ?_, (ih h.2.2.2).2⟩
      cases u with
      | nil => cases hloose
      | cons c u => exact (ih h.2.2.2).1 (List.cons.inj hloose).2
    | kept c =>
      have hend : c = '\n' → looseText gs = [] ∧ tightText gs = [] := by
        intro hc
        rw [h.1 hc]
        exact ⟨rfl, rfl⟩
      constructor
      · intro hloose
        cases u with
        | nil =>
          obtain ⟨hc, rfl⟩ := List.cons.inj hloose
          exact (hend hc).1
        | cons d u => exact (ih h.2).1 (List.cons.inj hloose).2
      · intro htight
        cases u with
        | nil =>
          obtain ⟨hc, rfl⟩ := List.cons.inj htight
          exact (hend hc).2
        | cons d u => exact (ih h.2).2 (List.cons.inj htight).2

/-- Calm texts hold no hash. -/
theorem Spot.Sound.hash_not_mem {a b : Option Char} {g : Stage} {gs : List Glyph}
    (h : Sound ⟨a, b, g, gs⟩) : '#' ∉ looseText gs ∧ '#' ∉ tightText gs := by
  rw [mem_looseText_iff (by decide), mem_tightText_iff, and_self]
  induction gs generalizing a b g with
  | nil => exact List.not_mem_nil
  | cons z gs ih =>
    rw [List.mem_cons, not_or]
    cases z with
    | gone => exact ⟨nofun, ih h.gone⟩
    | kept c =>
      refine ⟨fun hc => ?_, ih h.kept⟩
      obtain rfl := Glyph.kept.inj hc
      have hsafe := h.not_fits (List.mem_of_getElem? (i := 0) rfl)
      simp [fits] at hsafe

theorem mem_of_run_char {α : Type} {k : Place → Option α} {s : Place} {x : Char} {a : α}
    (h : (char x).run k s = some a) : x ∈ s.rest := by
  obtain ⟨prev, rest⟩ := s
  cases rest with
  | nil => cases h
  | cons c t =>
    change (if (c == x) = true then _ else none) = some a at h
    split at h
    · rename_i hc
      rw [beq_iff_eq.mp hc]
      exact List.mem_cons_self
    · cases h

/-- **Without a hash there are no directives.** -/
theorem match?_directive_eq_none {s : Place} (hs : '#' ∉ s.rest) :
    ∀ r ∈ spacing.take 4, r.match? s = none := by
  have hnone : ∀ {r : Rule Mode}, (∀ es, Pattern.ends (r.parts.map Prod.fst) s = some es →
      '#' ∈ s.rest) → r.match? s = none := by
    intro r hr
    rw [Rule.match?]
    cases hends : Pattern.ends (r.parts.map Prod.fst) s with
    | none => rfl
    | some es => exact absurd (hr es hends) hs
  have hstart : ∀ {α : Type} {k : Place → Option α} {x : α},
      Pattern.lineStart.run ((Pattern.one (· == '#')).run k) s = some x → '#' ∈ s.rest := by
    intro α k x h
    simp only [Pattern.run] at h
    split at h
    · exact mem_of_run_char (x := '#') h
    · cases h
  have hindented : ∀ {q : Pattern} {es : List Place},
      (∀ {α : Type} (k : Place → Option α) s x, q.run k s = some x → '#' ∈ s.rest) →
      Pattern.ends [indentation, q] s = some es → '#' ∈ s.rest := by
    intro q es hq hends
    obtain ⟨s', rest, -, hrest, hsuffix, -⟩ := Pattern.ends_cons_eq_some hends
    exact hsuffix.subset (hq _ _ _ hrest)
  show ∀ r ∈ ([_, _, _, _] : List (Rule Mode)), Rule.match? r s = none
  simp only [List.forall_mem_cons]
  refine ⟨hnone fun es h => hstart h, hnone fun es h => hstart h, hnone fun es h => ?_,
    hnone fun es h => ?_, List.forall_mem_nil _⟩
  · exact hindented (q := switchOff) (fun k s x hrun => mem_of_run_char (x := '#') hrun) h
  · exact hindented (fun k s x hrun => mem_of_run_char (x := '#') hrun) h

/-! ### Settled spots

Where a statement may begin, the head of a function is looked for. It is found alike in both
readings if nothing of a statement is there yet, if no head can follow for want of the character
that ends it, or if a parenthesis comes first. -/

/-- Nothing follows that ends the head of a function. -/
def Headless (gs : List Glyph) : Prop := .kept ';' ∉ gs ∧ .kept '{' ∉ gs

/-- The first character that is no white space. -/
def firstInk : List Glyph → Option Char
  | [] => none
  | .gone :: gs => firstInk gs
  | .kept c :: gs => if Text.isBlank c then firstInk gs else some c

/-- The head of a function is looked for alike in both readings. -/
def Settled (σ : Spot) : Prop :=
  σ.stage = .fresh ∨ Headless σ.glyphs ∨ firstInk σ.glyphs = some '('

/-- What white space does not change, and what holds after a statement and at the end. -/
structure Lasting (W : Spot → Prop) : Prop where
  blank : Carries Text.isBlank W W
  passes : Passes W
  fresh : ∀ σ : Spot, σ.stage = .fresh → W σ
  nil : ∀ σ : Spot, σ.glyphs = [] → W σ

theorem lasting_anywhere : Lasting Anywhere :=
  ⟨carries_anywhere, fun _ _ _ _ _ _ => trivial, fun _ _ => trivial, fun _ _ => trivial⟩

theorem lasting_settled : Lasting Settled where
  blank a b g x gs _ hP hx := by
    refine hP.imp (fun hstage => ?_) (Or.imp (fun hheadless => ?_) fun hink => ?_)
    · simpa [Stage.next, hx] using hstage
    · exact ⟨fun h => hheadless.1 (List.mem_cons_of_mem _ h),
        fun h => hheadless.2 (List.mem_cons_of_mem _ h)⟩
    · simpa [firstInk, hx] using hink
  passes a b g gs _ hP := by
    refine hP.imp_right (Or.imp_left fun hheadless => ?_)
    exact ⟨fun h => hheadless.1 (List.mem_cons_of_mem _ h),
      fun h => hheadless.2 (List.mem_cons_of_mem _ h)⟩
  fresh σ h := Or.inl h
  nil σ h := Or.inr (Or.inl (by simp [Headless, h]))

/-! ### White space and comments -/

theorem Halts.mono {c : Char → Bool} {P P' : Spot → Prop} (h : Halts c P)
    (hP : ∀ σ, P' σ → P σ) : Halts c P' :=
  fun _ _ _ _ hσ hP' => h hσ (hP _ hP')

theorem halts_atChar {c : Char → Bool} {P : Spot → Prop} :
    Halts c fun σ => AtChar σ ∧ P σ :=
  halts_of_atKept.mono fun _ h => atKept_of_atChar h.1

/-- A line feed ends the text. -/
theorem carries_lf {P : Spot → Prop} : Carries (· == '\n') P fun σ => σ.glyphs = [] :=
  fun _ _ _ _ _ hσ _ hx => hσ.snug.1 (beq_iff_eq.mp hx)

/-- No line feed follows a dropped space. -/
theorem halts_lf {P : Spot → Prop} : Halts (· == '\n') P := by
  intro a b g gs hσ _
  refine ⟨by decide, fun y hy => beq_eq_false_iff_ne.mpr fun heq => hσ.snug.2.2.1 ?_⟩
  rw [hy, heq]

theorem tracks_lf {P : Spot → Prop} : Tracks .nothing P (char '\n') fun σ => σ.glyphs = [] :=
  .one carries_lf halts_lf

theorem tracks_splice : Tracks .nothing AtKept splice fun σ => σ.glyphs = [] := by
  have hopen : Tracks .nothing AtKept (char '\\') Anywhere := .one carries_anywhere halts_of_atKept
  exact hopen.seq (tracks_lf.seq (.empty fun _ _ h => h))

/-- A pattern fails at dropped spaces if its first character is no space. -/
theorem stops_one {c : Char → Bool} (hc : c ' ' = false) : Stops (.one c) := by
  rintro α k ⟨a, b, g, gs⟩ - hgone
  obtain ⟨gs, rfl⟩ := List.head?_eq_some_iff.mp hgone
  simp [Spot.loose, Pattern.run, hc]

theorem Stops.seq {p q : Pattern} (h : Stops p) : Stops (p ++ q) := fun _ _ => h _

/-- A spliced line ends the text, so nothing comes of it where more has to follow. -/
theorem run_opt_splice {α : Type} {k : Place → Option α} {s : Place}
    (hlf : ∀ u v, s.rest = u ++ '\n' :: v → v = []) (hend : ∀ prev, k ⟨prev, []⟩ = none) :
    (Pattern.opt splice).run k s = k s := by
  have hnone : splice.run k s = none := by
    obtain ⟨prev, rest⟩ := s
    show (Pattern.one (· == '\\')).run ((Pattern.one (· == '\n')).run k) ⟨prev, rest⟩ = none
    match rest with
    | [] => rfl
    | [c] =>
      show (if (c == '\\') = true then none else none) = none
      rw [ite_self]
    | c :: d :: t =>
      show (if (c == '\\') = true then (if (d == '\n') = true then k ⟨some d, t⟩ else none)
        else none) = none
      split
      · split
        · rename_i hd
          obtain rfl := beq_iff_eq.mp hd
          rw [hlf [c] t rfl, hend]
        · rfl
      · rfl
  rw [Pattern.opt, Pattern.run_alt, hnone, Option.none_or]
  rfl

/-- A place for a spliced line makes no difference before a pattern that takes something. -/
theorem Tracks.splice_seq {n : Need} {P Q : Spot → Prop} {q : Pattern} (hq : Tracks n P q Q)
    (hend : ∀ {α : Type} (k : Place → Option α) prev, q.run k ⟨prev, []⟩ = none) :
    Tracks n P (.opt splice ++ q) Q := by
  intro α β all R k k' hk hagree σ hσ hall hP
  have hloose : (Pattern.opt splice ++ q).run k σ.loose = q.run k σ.loose :=
    run_opt_splice (fun u v => (hσ.snug.eq_nil_of_lf).1) fun _ => hend _ _
  have htight : (Pattern.opt splice ++ q).run k' σ.tight = q.run k' σ.tight :=
    run_opt_splice (fun u v => (hσ.snug.eq_nil_of_lf).2) fun _ => hend _ _
  rw [hloose, htight]
  exact hq hk hagree σ hσ hall hP

/-- A slash or an asterisk does not follow where it would make a comment mark. -/
def Unmarked (marks : String) (σ : Spot) : Prop :=
  ∀ y gs, σ.glyphs = .gone :: .kept y :: gs → oneOf marks y = false

theorem halts_unmarked {marks : String} {x : Char} (hx : x ≠ ' ')
    (hmem : oneOf marks x = true) : Halts (· == x) (Unmarked marks) := by
  intro a b g gs _ hP
  refine ⟨beq_eq_false_iff_ne.mpr (Ne.symm hx), fun y hy => beq_eq_false_iff_ne.mpr ?_⟩
  rintro rfl
  obtain ⟨gs, rfl⟩ := List.head?_eq_some_iff.mp hy
  rw [hP y gs rfl] at hmem
  cases hmem

/-- After a slash no comment is made by dropping a space. -/
theorem carries_slash {P : Spot → Prop} : Carries (· == '/') P (Unmarked "/*") := by
  intro a b g x gs hσ _ hx
  obtain rfl := beq_iff_eq.mp hx
  rintro y hs rfl
  have hslash := hσ.not_fits (List.mem_of_getElem? (i := 1) rfl)
  have hstar := hσ.not_fits (List.mem_of_getElem? (i := 2) rfl)
  simp [fits] at hslash hstar
  simp [oneOf, hslash, hstar]

/-- After an asterisk no comment is ended by dropping a space. -/
theorem carries_star {P : Spot → Prop} :
    Carries (· == '*') P fun σ => σ.stage = .starred ∧ Unmarked "/" σ := by
  intro a b g x gs hσ _ hx
  obtain rfl := beq_iff_eq.mp hx
  refine ⟨(by cases g <;> rfl : g.next '*' = .starred), ?_⟩
  rintro y hs rfl
  have hslash := hσ.not_fits (List.mem_of_getElem? (i := 3) rfl)
  simp [fits] at hslash
  simp [oneOf, hslash]

/-- The two characters that begin a comment, and what follows. -/
theorem tracks_commentStart {n : Need} {Q : Spot → Prop} {q : Pattern}
    (hq : Tracks n Anywhere q Q) :
    Tracks n AtKept (char '/' ++ (.opt splice ++ (char '*' ++ q))) Q := by
  have hslash : Tracks .nothing AtKept (char '/') (Unmarked "/*") :=
    .one carries_slash halts_of_atKept
  have hstar : Tracks .nothing (Unmarked "/*") (char '*') Anywhere :=
    .one carries_anywhere (halts_unmarked (by decide) (by decide))
  exact hslash.seq ((hstar.seq hq).splice_seq fun _ _ => rfl)

theorem tracks_few_any : Tracks .stops Anywhere (.few anyChar) AtKept :=
  .few_across rfl carries_anywhere (fun _ _ _ _ _ _ => trivial) fun _ _ _ h => h

theorem tracks_comment : Tracks .nothing AtKept
    (char '/' ++ .opt splice ++ char '*' ++ .few anyChar ++ char '*' ++ .opt splice ++ char '/')
    fun σ => σ.stage = .fresh := by
  have hstar : Tracks .nothing AtKept (char '*')
      fun σ => σ.stage = .starred ∧ Unmarked "/" σ := .one carries_star halts_of_atKept
  have hslash : Tracks .nothing (fun σ => σ.stage = .starred ∧ Unmarked "/" σ) (char '/')
      fun σ => σ.stage = .fresh := by
    refine .one ?_ ((halts_unmarked (by decide) (by decide)).mono fun _ h => h.2)
    intro a b g x gs _ hP hx
    obtain rfl := beq_iff_eq.mp hx
    obtain ⟨rfl, -⟩ := hP
    rfl
  simp only [Tracks.assoc]
  exact tracks_commentStart (tracks_few_any.seq_stops (hstar.seq
    (hslash.splice_seq fun _ _ => rfl)) (stops_one (by decide)).seq)

/-- A comment that is not ended goes on to the end of the text. -/
theorem tracks_openComment : Tracks .succeeds AtKept
    (char '/' ++ .opt splice ++ char '*' ++ .many anyChar) fun σ => σ.glyphs = [] := by
  simp only [Tracks.assoc]
  refine tracks_commentStart (.many_to_end rfl carries_anywhere (fun _ _ _ _ _ _ => trivial) ?_)
  rintro ⟨a, b, g, gs⟩ - - hkept hstop
  match gs with
  | [] => rfl
  | .gone :: _ => exact absurd rfl hkept
  | .kept x :: _ => exact absurd (hstop x rfl) (by simp [anyChar])

theorem tracks_lineComment : Tracks .nothing AtKept
    (Pattern.text "//" ++ Pattern.choice
      [char '\n', .few anyChar ++ .one (noneOf "\\") ++ char '\n']) fun σ => σ.glyphs = [] := by
  have hfirst : Tracks .nothing AtKept (char '/') (Unmarked "/*") :=
    .one carries_slash halts_of_atKept
  have hsecond : Tracks .nothing (Unmarked "/*") (char '/') Anywhere :=
    .one carries_anywhere (halts_unmarked (by decide) (by decide))
  have hlast : Tracks .nothing AtKept (.one (noneOf "\\") ++ char '\n') fun σ => σ.glyphs = [] :=
    (Tracks.one carries_anywhere halts_of_atKept).seq tracks_lf
  have hstops : Stops (.one (noneOf "\\") ++ char '\n') := by
    rintro α k ⟨a, b, g, gs⟩ hσ hgone
    obtain ⟨gs, rfl⟩ := List.head?_eq_some_iff.mp hgone
    obtain rfl | ⟨y, hs, rfl, hy⟩ := hσ.gone_cases
    · rfl
    · show (if (y == '\n') = true then _ else none) = none
      rw [if_neg fun h => hy (beq_iff_eq.mp h)]
  refine Tracks.seq (hfirst.seq (hsecond.seq (.empty fun _ _ h => h))) (.choice ?_)
  simp only [List.forall_mem_cons]
  exact ⟨tracks_lf, tracks_few_any.seq_stops hlast hstops, nofun⟩

/-- Directives are found in neither reading. -/
theorem stable_directive (P Q : Spot → Prop) : ∀ r ∈ spacing.take 4, Stable P r Q := fun r hr =>
  stable_of_none fun _ hσ _ _ => ⟨match?_directive_eq_none hσ.hash_not_mem.1 r hr,
    match?_directive_eq_none hσ.hash_not_mem.2 r hr⟩

/-- **White space and comments are alike in both readings.** -/
theorem stable_spacing {W : Spot → Prop} (hW : Lasting W) : ∀ r ∈ spacing.drop 4, Stable W r W := by
  have hatKept : ∀ {n : Need} {p : Pattern} {Q : Spot → Prop}, Tracks n AtKept p Q →
      (∀ σ, Q σ → W σ) → Tracks n (fun σ => AtChar σ ∧ W σ) p W := fun h hQ =>
    h.mono (fun _ _ h => atKept_of_atChar h.1) fun σ _ => hQ σ
  show ∀ r ∈ [_, _, _, _, _, _], Stable W r W
  simp only [List.forall_mem_cons]
  refine ⟨?_, ?_, ?_, ?_, ?_, ?_, List.forall_mem_nil _⟩
  · exact stable_token (hatKept tracks_lf hW.nil).of_nothing
  · have hfirst : Tracks .nothing (fun σ => AtChar σ ∧ W σ) (.one Text.isBlank) W :=
      .one (fun a b g x gs hσ hP hx => hW.blank hσ hP.2 hx) halts_atChar
    exact stable_token (hfirst.seq (.many_to_end rfl hW.blank hW.passes fun _ _ h _ _ => h))
  · exact stable_token (hatKept tracks_splice hW.nil).of_nothing
  · exact stable_token (hatKept tracks_lineComment hW.nil).of_nothing
  · exact stable_token (hatKept tracks_comment hW.fresh).of_nothing
  · exact stable_token (hatKept tracks_openComment hW.nil)

/-! ### Numbers -/

/-- A sign with a space beside it, and a digit behind it. -/
def spacedSigns : List (List (Char → Bool)) :=
  [ [(· == ' '), oneOf "+-", Text.isDigit],
    [(· == ' '), oneOf "+-", (· == ' '), Text.isDigit],
    [oneOf "+-", (· == ' '), Text.isDigit] ]

/-- No sign with a space beside it leads to a digit. -/
def Unsigned (σ : Spot) : Prop :=
  Steady σ ∧ ∀ ps ∈ spacedSigns, fits ps (looseText σ.glyphs) = false

/-- The power of ten that may follow has no sign with a space beside it. -/
def Mantissa (σ : Spot) : Prop :=
  Steady σ ∧ ∀ x gs, σ.glyphs = .kept x :: gs → oneOf "eE" x = true →
    ∀ ps ∈ spacedSigns, fits ps (looseText gs) = false

theorem carries_mantissa {c : Char → Bool} (hc : unspaced c = true)
    (hnumber : ∀ x, c x = true → endsNumber x = true) {P : Spot → Prop} :
    Carries c P Mantissa := by
  intro a b g x gs hσ hP hx
  refine ⟨carries_steady hc hσ hP hx, ?_⟩
  rintro e hs rfl he ps hps
  have hmem : endsNumber :: oneOf "eE" :: ps ∈ hazards := by
    have hall : ∀ ps ∈ spacedSigns, endsNumber :: oneOf "eE" :: ps ∈ hazards.drop 4 :=
      fun ps hps => List.mem_map_of_mem (f := fun ps => endsNumber :: oneOf "eE" :: ps) hps
    exact List.mem_of_mem_drop (hall ps hps)
  have hsafe := hσ.not_fits hmem
  simpa [fits, hnumber x hx, he] using hsafe

/-- The digits before a power of ten. -/
theorem tracks_mantissa :
    Tracks .nothing Steady (fraction (Pattern.many1 Text.isDigit)) Mantissa := by
  have hdigit : ∀ P, Carries Text.isDigit P Mantissa := fun P =>
    carries_mantissa (by decide) fun x hx => by simp [endsNumber, hx]
  have hpoint : ∀ P, Carries (· == '.') P Mantissa := fun P =>
    carries_mantissa (by decide) fun x hx => by simp [endsNumber, beq_iff_eq.mp hx]
  have hhalts : ∀ {c : Char → Bool}, unspaced c = true → Halts c Mantissa := fun hc =>
    (halts_steady hc).mono fun _ h => h.1
  have hmany : Tracks .nothing Mantissa (.many Text.isDigit) Mantissa :=
    .many (hdigit _) (hhalts (by decide))
  have hdigits : ∀ {P : Spot → Prop}, Halts Text.isDigit P →
      Tracks .nothing P (Pattern.many1 Text.isDigit) Mantissa :=
    fun h => (Tracks.one (hdigit _) h).seq hmany
  refine .choice ?_
  simp only [List.forall_mem_cons]
  refine ⟨?_, ?_, hdigits (halts_steady (by decide)), nofun⟩
  · have hwhole := hdigits (halts_steady (by decide))
    exact (hwhole.seq (.one (hpoint _) (hhalts (by decide)))).seq hmany
  · exact (Tracks.one (hpoint _) (halts_steady (by decide))).seq (hdigits (hhalts (by decide)))

/-- Behind a sign no digit follows a dropped space. -/
def Undivided (σ : Spot) : Prop :=
  ∀ y gs, σ.glyphs = .gone :: .kept y :: gs → Text.isDigit y = false

theorem tracks_power :
    Tracks .nothing Undivided (Pattern.many1 Text.isDigit ++ marks) Anywhere := by
  have hfirst : Tracks .nothing Undivided (.one Text.isDigit) Steady := by
    refine .one (carries_steady (by decide)) fun a b g gs _ hP => ⟨by decide, fun y hy => ?_⟩
    obtain ⟨hs, rfl⟩ := List.head?_eq_some_iff.mp hy
    exact hP y hs rfl
  have hrest : Tracks .nothing Steady (.many Text.isDigit ++ marks) Steady :=
    tracks_of_unspaced (by decide)
  exact (hfirst.seq hrest).mono (fun _ _ h => h) fun _ _ _ => trivial

/-- Behind a dropped space and a sign no digit follows in the tight text. -/
theorem Unsigned.any_head? {a b : Option Char} {g : Stage} {y : Char} {hs : List Glyph}
    (h : Unsigned ⟨a, b, g, .gone :: .kept y :: hs⟩)
    (hσ : Spot.Sound ⟨a, b, g, .gone :: .kept y :: hs⟩) (hy : oneOf "+-" y = true) :
    (tightText hs).head?.any Text.isDigit = false := by
  have hnear := h.2 _ (List.mem_of_getElem? (i := 0) rfl)
  have hfar := h.2 _ (List.mem_of_getElem? (i := 1) rfl)
  match hs, hσ.gone.kept with
  | [], _ => rfl
  | .kept d :: hs, _ => simpa [fits, hy] using hnear
  | .gone :: hs, hσ =>
    obtain rfl | ⟨z, us, rfl, -⟩ := hσ.gone_cases
    · rfl
    · simpa [fits, hy] using hfar

/-- The sign of a power of ten, and its digits. -/
theorem tracks_sign : Tracks .nothing Unsigned
    (.one (oneOf "+-") ++ (Pattern.many1 Text.isDigit ++ marks)) Anywhere := by
  rintro α β all R k k' - hagree ⟨a, b, g, gs⟩ hσ hall hunsigned
  match gs, hσ, hall, hunsigned with
  | [], _, _, _ => exact .none
  | .kept x :: gs, hσ, hall, hunsigned =>
    show Option.Rel R (if oneOf "+-" x = true then _ else none)
      (if oneOf "+-" x = true then _ else none)
    split
    · rename_i hx
      refine tracks_power trivial hagree _ hσ.kept ((List.suffix_cons _ gs).trans hall) ?_
      rintro y hs rfl
      have hdivided := hunsigned.2 _ (List.mem_of_getElem? (i := 2) rfl)
      simpa [fits, hx] using hdivided
    · exact .none
  | .gone :: gs, hσ, _, hunsigned =>
    -- the loose text has a space here, and in the tight one no digit follows the sign
    have hloose : (Pattern.one (oneOf "+-") ++ (Pattern.many1 Text.isDigit ++ marks)).run k
        (Spot.loose ⟨a, b, g, .gone :: gs⟩) = none := rfl
    rw [hloose]
    obtain rfl | ⟨y, hs, rfl, -⟩ := hσ.gone_cases
    · exact .none
    · show Option.Rel R none (if oneOf "+-" y = true then
        (Pattern.one Text.isDigit).run _ ⟨some y, tightText hs⟩ else none)
      split
      · rename_i hy
        rw [run_one_of_head _ (hunsigned.any_head? hσ hy)]
        exact .none
      · exact .none

/-- A number with a power of ten. -/
theorem tracks_exponent : Tracks .nothing AtKept
    (fraction (Pattern.many1 Text.isDigit) ++ .one (oneOf "eE") ++ .opt (.one (oneOf "+-"))
      ++ Pattern.many1 Text.isDigit ++ marks) Anywhere := by
  have hmark : Tracks .nothing Mantissa (.one (oneOf "eE")) Unsigned := by
    refine .one (fun a b g x gs hσ hP hx => ?_) ((halts_steady (by decide)).mono fun _ h => h.1)
    exact ⟨carries_steady (by decide) hσ hP hx, hP.2 x gs rfl hx⟩
  have hunsigned : Tracks .nothing Unsigned (Pattern.many1 Text.isDigit ++ marks) Anywhere := by
    refine tracks_power.mono (fun σ _ hP y gs hgs => ?_) fun _ _ h => h
    have hy := hP.1.ahead _ hgs
    exact unspaced_punctuation (by decide) hy
  have hpower : Tracks .nothing Unsigned
      (.opt (.one (oneOf "+-")) ++ (Pattern.many1 Text.isDigit ++ marks)) Anywhere :=
    tracks_sign.alt hunsigned
  simp only [Tracks.assoc]
  exact .of_steady (refuses_of_unspaced (by decide) (by decide)).seq
    (tracks_mantissa.seq (hmark.seq hpower))

/-! ### Character literals -/

/-- The rule for character literals. -/
def charLiteral : Rule Mode :=
  ⟨[(.opt (char 'L'), .token .literal), (char '\'', .token .literal),
    (quotedChar, .token .literal), (char '\'', .token .literal)], .stay⟩

/-- The patterns of a character literal behind its first quote. -/
def quotedPatterns : List Pattern := [quotedChar, char '\'']

/-- **Every quote begins a character literal**, in the loose text. -/
def Quoted (σ : Spot) : Prop :=
  ∀ t, looseText σ.glyphs = '\'' :: t ∨ looseText σ.glyphs = 'L' :: '\'' :: t →
    (Pattern.ends quotedPatterns ⟨some '\'', t⟩).isSome = true

/-- The last part of a character literal, its second quote. -/
def closing (e : Place) : Option (List Place) := (Pattern.ends [char '\''] e).map (e :: ·)

theorem head?_of_isSome_closing {prev : Option Char} {t : List Char}
    (h : (closing ⟨prev, t⟩).isSome = true) : t.head? = some '\'' := by
  cases t with
  | nil => cases h
  | cons y t =>
    by_cases hy : y = '\''
    · rw [hy]
      rfl
    · simp [closing, Pattern.ends, char, Pattern.run, hy] at h

/-- What a backslash may be followed by between quotes. -/
def escapes : Pattern :=
  .alt (.one inLine) (.alt (.one isOctalDigit ++ Pattern.upTo isOctalDigit 2)
    (char 'x' ++ (.one isHexDigit ++ Pattern.upTo isHexDigit 1)))

/-- Between quotes there is a backslash and more, or one other character. -/
theorem ends_quoted (prev : Option Char) (x : Char) (t : List Char) :
    Pattern.ends quotedPatterns ⟨prev, x :: t⟩ =
      if x = '\\' then escapes.run closing ⟨some x, t⟩
      else if noneOf "\\'\n" x = true then closing ⟨some x, t⟩ else none := by
  have hescaped : ∀ q : Pattern, (char '\\' ++ q).run closing ⟨prev, x :: t⟩ =
      if x = '\\' then q.run closing ⟨some x, t⟩ else none := by
    intro q
    show (if (x == '\\') = true then q.run closing ⟨some x, t⟩ else none) = _
    simp only [beq_iff_eq]
  have hplain : (Pattern.one (noneOf "\\'\n")).run closing ⟨prev, x :: t⟩ =
      if noneOf "\\'\n" x = true then closing ⟨some x, t⟩ else none := rfl
  have hrun : Pattern.ends quotedPatterns ⟨prev, x :: t⟩ =
      ((char '\\' ++ .one inLine).run closing ⟨prev, x :: t⟩).or
        (((char '\\' ++ (.one isOctalDigit ++ Pattern.upTo isOctalDigit 2)).run closing
            ⟨prev, x :: t⟩).or
          (((char '\\' ++ (char 'x' ++ (.one isHexDigit ++ Pattern.upTo isHexDigit 1))).run closing
            ⟨prev, x :: t⟩).or ((Pattern.one (noneOf "\\'\n")).run closing ⟨prev, x :: t⟩))) := by
    rw [← Pattern.run_alt, ← Pattern.run_alt, ← Pattern.run_alt]
    rfl
  rw [hrun, hescaped, hescaped, hescaped, hplain]
  split
  · rename_i hx
    have hbackslash : noneOf "\\'\n" '\\' = false := by decide
    rw [hx, hbackslash, escapes, Pattern.run_alt, Pattern.run_alt]
    simp
  · rfl

/-- What stands between quotes is one character, or a backslash and more. -/
theorem quoted_cases {prev : Option Char} {x : Char} {t : List Char}
    (h : (Pattern.ends quotedPatterns ⟨prev, x :: t⟩).isSome = true) :
    (x ≠ '\\' → t.head? = some '\'') ∧
      (x = '\\' → ∀ y u, t = y :: u → y = ' ' ∨ isPunctuation y = true → u.head? = some '\'') := by
  rw [ends_quoted] at h
  constructor
  · intro hx
    rw [if_neg hx] at h
    split at h
    · exact head?_of_isSome_closing h
    · cases h
  · rintro rfl y u rfl hy
    -- a space and punctuation are no digits, so the escape is that one character
    have hrefuse : ∀ q : Pattern, isUnspaced q = true → q.consumes = true →
        q.run closing ⟨some '\\', y :: u⟩ = none := by
      intro q hq hconsumes
      refine refuses_of_unspaced hq hconsumes _ _ ?_
      rintro z ⟨⟩
      exact hy
    rw [if_pos rfl, escapes, Pattern.run_alt, Pattern.run_alt,
      hrefuse (.one isOctalDigit ++ _) (by decide) (by decide),
      hrefuse (char 'x' ++ _) (by decide) (by decide)] at h
    change ((if inLine y = true then closing ⟨some y, u⟩ else none).or none).isSome = true at h
    rw [Option.or_none] at h
    split at h
    · exact head?_of_isSome_closing h
    · cases h

/-- The spot is behind the first quote of a character literal. -/
def Opened (σ : Spot) : Prop := Steady σ ∧ (Pattern.ends quotedPatterns σ.loose).isSome = true

/-- A character follows, and behind it no quote after a dropped space. -/
def Shut (gs : List Glyph) : Prop :=
  gs.head? ≠ some .gone ∧ ∀ x y hs, gs = .kept x :: .gone :: .kept y :: hs → y ≠ '\''

theorem carries_shut {c : Char → Bool} : Carries c (fun σ => Shut σ.glyphs) (Unmarked "'") := by
  rintro a b g x gs - hP - y hs rfl
  simpa [oneOf] using hP.2 x y hs rfl

theorem Steady.unmarked {σ : Spot} (h : Steady σ) : Unmarked "'" σ := fun _ _ hgs =>
  unspaced_punctuation (by decide) (h.ahead _ hgs)

/-- **A character literal of the loose text has no dropped space in it.** -/
theorem shut_of_opened {a b : Option Char} {g : Stage} {gs : List Glyph}
    (hσ : Spot.Sound ⟨a, b, g, gs⟩) (h : Opened ⟨a, b, g, gs⟩) :
    Shut gs ∧ ∀ hs, gs = .kept '\\' :: hs → Shut hs := by
  obtain ⟨hsteady, hsome⟩ := h
  -- no quote is the punctuation behind a dropped space
  have hquote : ∀ {a b g} {hs : List Glyph}, Steady ⟨a, b, g, .gone :: hs⟩ →
      (looseText hs).head? ≠ some '\'' := by
    intro a b g hs hsteady hhead
    have hmark := hsteady.ahead hs rfl
    match hs, hhead, hmark with
    | .kept y :: hs, hhead, hmark =>
      obtain rfl : y = '\'' := Option.some.inj hhead
      exact absurd (show isPunctuation '\'' = true from hmark) (by decide)
  match gs, hσ, hsteady, hsome with
  | [], _, _, hsome => cases hsome
  | .gone :: gs, hσ, hsteady, hsome =>
    exact absurd ((quoted_cases hsome).1 (by decide)) (hquote hsteady)
  | .kept x :: gs, hσ, hsteady, hsome =>
    have hcases := quoted_cases hsome
    have hshut : ∀ {a b g} {x : Char} {hs : List Glyph}, Spot.Sound ⟨a, b, g, .kept x :: hs⟩ →
        (isPunctuation x = true → (looseText hs).head? = some '\'') → Shut (.kept x :: hs) := by
      intro a b g x hs hσ hclosed
      refine ⟨nofun, ?_⟩
      rintro _ y us ⟨⟩ rfl
      cases hx : isPunctuation x with
      | false => exact hquote (hσ.steady_kept hx) rfl
      | true => exact absurd (hclosed hx) (by simp)
    refine ⟨hshut hσ fun hx => hcases.1 ?_, ?_⟩
    · rintro rfl
      exact absurd hx (by decide)
    · rintro hs ⟨⟩
      have hbehind := hσ.steady_kept (by decide : isPunctuation '\\' = false)
      match gs, hσ.kept, hbehind, hcases.2 rfl with
      | [], _, _, _ => exact ⟨nofun, nofun⟩
      | .gone :: gs, _, hbehind, hcases =>
        exact absurd (hcases ' ' _ rfl (Or.inl rfl)) (hquote hbehind)
      | .kept y :: gs, hσ, _, hcases =>
        exact hshut hσ fun hy => hcases y _ rfl (Or.inr hy)

theorem tracksAll_quoted : TracksAll Opened quotedPatterns Anywhere := by
  have hclose : Tracks .nothing (Unmarked "'") (char '\'') Anywhere :=
    .one carries_anywhere (halts_unmarked (by decide) (by decide))
  have hplain : ∀ c : Char → Bool,
      Tracks .nothing (fun σ => Shut σ.glyphs) (.one c) (Unmarked "'") :=
    fun c => .one carries_shut (halts_of_atKept.mono fun _ h => h.1)
  have hescape : Tracks .nothing Opened (char '\\') fun σ => Shut σ.glyphs := by
    refine .one (fun a b g x gs hσ hP hx => ?_) fun a b g gs hσ hP => ?_
    · obtain rfl := beq_iff_eq.mp hx
      exact (shut_of_opened hσ hP).2 gs rfl
    · exact absurd rfl (shut_of_opened hσ hP).1.1
  have hunspaced : ∀ {p : Pattern}, isUnspaced p = true → Tracks .nothing Opened p (Unmarked "'") :=
    fun hp => (tracks_of_unspaced hp).mono (fun _ _ h => h.1) fun _ _ h => h.unmarked
  refine .cons (.choice ?_) (.last hclose.of_nothing)
  simp only [List.forall_mem_cons]
  refine ⟨hescape.seq (hplain _), hunspaced (by decide), hunspaced (by decide), ?_, nofun⟩
  exact (hplain _).mono (fun σ hσ hP => (shut_of_opened hσ hP).1) fun _ _ h => h

/-- **Character literals are alike in both readings** where every quote begins one. -/
theorem stable_charLiteral : Stable Quoted charLiteral Anywhere := by
  have hopen : Tracks .nothing
      (fun σ => Steady σ ∧ ∀ t, looseText σ.glyphs = '\'' :: t →
        (Pattern.ends quotedPatterns ⟨some '\'', t⟩).isSome = true) (char '\'') Opened := by
    refine .one (fun a b g x gs hσ hP hx => ?_) ((halts_steady (by decide)).mono fun _ h => h.1)
    obtain rfl := beq_iff_eq.mp hx
    exact ⟨hσ.steady_kept (by decide), hP.2 _ rfl⟩
  have hmark : Tracks .nothing (fun σ => Steady σ ∧ Quoted σ) (.opt (char 'L'))
      (fun σ => Steady σ ∧ ∀ t, looseText σ.glyphs = '\'' :: t →
        (Pattern.ends quotedPatterns ⟨some '\'', t⟩).isSome = true) := by
    refine .opt (.one (fun a b g x gs hσ hP hx => ?_) ((halts_steady (by decide)).mono
      fun _ h => h.1)) fun σ _ hP => ⟨hP.1, fun t ht => hP.2 t (Or.inl ht)⟩
    obtain rfl := beq_iff_eq.mp hx
    exact ⟨hσ.steady_kept (by decide), fun t ht => hP.2 t (Or.inr (by rw [looseText_kept, ht]))⟩
  have hspacer : ∀ {s : Place}, AtSpacer s →
      Pattern.ends (charLiteral.parts.map Prod.fst) s = none := by
    intro s hs
    have hquote : Pattern.ends (char '\'' :: quotedPatterns) s = none :=
      refuses_of_unspaced (by decide) (by decide) _ s hs
    have hprefix : isUnspaced (.opt (char 'L')) = true := by decide
    obtain hnone | ⟨-, hstays⟩ := run_of_not_takesAt
      (fun e => (Pattern.ends (char '\'' :: quotedPatterns) e).map (e :: ·))
      (takesAt_of_unspaced hprefix hs)
    · exact hnone
    · exact hstays.trans (by rw [hquote]; rfl)
  refine stable_of_tracksAll fun σ hσ hσP => ?_
  obtain hsteady | ⟨hloose, htight⟩ := hσ.steady_or_atSpacer (atKept_of_atChar hσP.1)
  · exact (TracksAll.cons hmark (.cons hopen tracksAll_quoted)) σ hσ ⟨hsteady, hσP.2⟩
  · rw [hspacer hloose, hspacer htight]
    exact .none

/-! ### Statements -/

theorem tracks_blanks : Tracks .stops Anywhere blanks AtKept :=
  .many_across rfl carries_anywhere (fun _ _ _ _ _ _ => trivial) fun _ _ _ h => h

theorem tracks_name : Tracks .nothing AtKept name Steady :=
  .of_steady (refuses_of_unspaced (by decide) (by decide)) (tracks_of_unspaced (by decide))

/-- Word characters are neither spaces nor punctuation. -/
theorem unspaced_of_isWord {c : Char → Bool} (hc : ∀ x, c x = true → Text.isWord x = true) :
    unspaced c = true := by
  have hword : unspaced Text.isWord = true := by decide
  have hclass : ∀ x, Text.isWord x = false → c x = false := fun x hx =>
    Bool.eq_false_iff.mpr fun h => by simp [hc x h] at hx
  rw [unspaced, Bool.and_eq_true, List.all_eq_true]
  refine ⟨?_, fun x hx => ?_⟩
  · rw [hclass _ (unspaced_space hword)]
    rfl
  · rw [hclass _ (unspaced_punctuation hword (List.contains_iff_mem.mpr hx))]
    rfl

theorem isUnspaced_of_spelling {p : Pattern} (h : Spelling p) : isUnspaced p = true := by
  induction h with
  | empty => rfl
  | one hc => exact unspaced_of_isWord hc
  | many hc => exact unspaced_of_isWord hc
  | seq _ _ ihp ihq => exact Bool.and_eq_true_iff.mpr ⟨ihp, ihq⟩
  | alt _ _ ihp ihq => exact Bool.and_eq_true_iff.mpr ⟨ihp, ihq⟩
  | wordEdge => exact unspaced_of_isWord fun _ h => h

/-- Certain words. -/
theorem stable_spelling {kind : Kind} {p : Pattern} {move : Move Mode} (h : Spelling p)
    (hconsumes : p.consumes = true) {P : Spot → Prop} : Stable P (.token kind p move) Anywhere := by
  refine stable_of_unspaced ?_ ?_ P
  · exact Bool.and_eq_true_iff.mpr ⟨isUnspaced_of_spelling h, rfl⟩
  · exact Bool.or_eq_true_iff.mpr (Or.inl hconsumes)

/-- A single character. -/
theorem stable_one {c : Char → Bool} {kind : Kind} {move : Move Mode} {P : Spot → Prop} :
    Stable P (.token kind (.one c) move) Anywhere :=
  stable_token (Tracks.one carries_anywhere halts_atChar).of_nothing

/-- A single character that leaves nothing of a statement. -/
theorem stable_end {x : Char} (hx : ∀ g : Stage, g.next x = .fresh) {kind : Kind}
    {move : Move Mode} {P : Spot → Prop} : Stable P (.token kind (char x) move) Settled := by
  refine stable_token (Tracks.one (fun a b g y gs _ _ hy => Or.inl ?_) halts_atChar).of_nothing
  obtain rfl := beq_iff_eq.mp hy
  exact hx g

/-- **The parts of statements are alike in both readings.** -/
theorem stable_statements : ∀ r ∈ statements, Stable Quoted r Anywhere := by
  have hkept : ∀ {kind} {p : Pattern} {Q : Spot → Prop}, Tracks .nothing AtKept p Q →
      Stable Quoted (.token kind p) Anywhere := fun h =>
    stable_token (h.mono (fun _ _ h => atKept_of_atChar h.1) fun _ _ _ => trivial).of_nothing
  have hstarSlash : Tracks .nothing AtKept (Pattern.text "*/") Anywhere :=
    (Tracks.one carries_star halts_of_atKept).seq ((Tracks.one carries_anywhere
      ((halts_unmarked (by decide) (by decide)).mono fun _ h => h.2)).seq (.empty fun _ _ h => h))
  have hlabel : Tracks .nothing AtKept (char ':' ++ .notAhead (char ':')) Steady :=
    (Tracks.one (carries_steady (by decide)) halts_of_atKept).seq (tracks_of_unspaced (by decide))
  have hcall : Tracks .nothing Steady (.ahead (blanks ++ char '(')) Steady := by
    have hopen : Tracks .nothing AtKept (char '(') Anywhere :=
      .one carries_anywhere halts_of_atKept
    have hlist : Tracks .nothing Anywhere (blanks ++ char '(') Anywhere :=
      tracks_blanks.seq_stops hopen (stops_one (by decide))
    exact (hlist.mono (fun _ _ _ => trivial) fun _ _ h => h).of_nothing.ahead
  simp only [statements, List.forall_mem_cons]
  refine ⟨?_, stable_charLiteral, ?_, ?_, ?_, ?_, ?_, ?_, stable_one, stable_one, ?_, ?_, ?_, ?_,
    ?_, ?_, ?_, ?_, ?_, List.forall_mem_nil _⟩
  · exact stable_of_unspaced (by decide) (by decide) _
  · exact hkept tracks_exponent
  · exact stable_of_unspaced (by decide) (by decide) _
  · exact stable_of_unspaced (by decide) (by decide) _
  · exact stable_of_unspaced (by decide) (by decide) _
  · exact stable_of_unspaced (by decide) (by decide) _
  · exact hkept hstarSlash
  · exact stable_spelling (spelling_words (by decide) (by decide)) (by decide)
  · exact stable_spelling spelling_typeName (by decide)
  · exact stable_spelling (spelling_words (by decide) (by decide)) (by decide)
  · exact stable_spelling
      (.seq (.seq (.text (by decide)) (.words (by decide) (by decide))) .wordEdge) (by decide)
  · exact stable_spelling
      (.seq (.seq (.text (by decide)) (.words (by decide) (by decide))) .wordEdge) (by decide)
  · exact stable_spelling (spelling_words (by decide) (by decide)) (by decide)
  · refine stable_of_tracksAll (.cons (tracks_name.mono (fun _ _ h => atKept_of_atChar h.1)
      fun _ _ _ => trivial) (.cons_stops tracks_blanks (.last (hlabel.mono (fun _ _ h => h)
        fun _ _ _ => trivial).of_nothing) (stops_one (by decide)).seq))
  · have hname : isUnspaced (wordEdge ++ name) = true := by decide
    exact hkept (.of_steady (refuses_of_unspaced hname (by decide)).seq
      ((tracks_of_unspaced hname).seq hcall))
  · exact stable_of_unspaced (by decide) (by decide) _

/-! ### Strings -/

/-- A run of characters up to where it must end. -/
theorem stable_run {c : Char → Bool} (hc : c ' ' = true) {kind : Kind} {move : Move Mode}
    {P : Spot → Prop} : Stable P (.token kind (Pattern.many1 c) move) Anywhere := by
  have hrest : Tracks .succeeds Anywhere (.many c) Anywhere :=
    .many_to_end hc carries_anywhere (fun _ _ _ _ _ _ => trivial) fun _ _ _ _ _ => trivial
  exact stable_token ((Tracks.one carries_anywhere halts_atChar).seq hrest)

/-- **Strings are alike in both readings.** -/
theorem stable_string : ∀ r ∈ rules .string, Stable Anywhere r Anywhere := by
  simp only [rules, List.forall_mem_cons]
  refine ⟨stable_one, ?_, stable_run (by decide), ?_, stable_one, nofun⟩
  · exact stable_of_unspaced (by decide) (by decide) _
  · exact stable_token (tracks_splice.mono (fun _ _ h => atKept_of_atChar h.1)
      fun _ _ _ => trivial).of_nothing

end KernelPack.Lexis.Spaced
