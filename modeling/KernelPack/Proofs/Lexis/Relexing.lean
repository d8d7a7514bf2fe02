import KernelPack.Proofs.Lexis.Stability

/-!
# A step in two versions of a text

The rules of a mode tell two versions of a text alike (`stable_rules`), each mode under a condition
of its own on the pieces that follow (`Ready`). So the first rule that matches is the same on both
sides (`firstMatch_beside`), and a **step** takes the same pieces and leads to the same stack and to
places beside each other (`step_beside`).

The conditions need not be asked for, as long as the pieces fit the lexemes of the first version
(`Keeps`). If a swapped word came in a directive it would be part of a lexeme that is kept
(`startsKept_of_keeps`). If a number with a point ran on into a swapped word then the number would
be the lexeme before it (`numberSafe_of_keeps`): the rules for numbers come first among those that
apply to digits, and they take the point and maybe more (`exists_findSome?_point`).
-/

namespace KernelPack.Lexis

open KernelGrammar

/-! ### The modes -/

theorem stable_top : ∀ r ∈ rules .top, Stable Anything r := by
  refine List.forall_mem_append.mpr ⟨stable_spacing, ?_⟩
  simp only [List.forall_mem_cons]
  exact ⟨stable_functionHead (forall_isLatin (by decide)) (by decide),
    stable_functionHead (forall_isLatin (by decide)) (by decide), nofun⟩

/-- The rules for statements and the marks around them. -/
theorem stable_statement_append {rs : List (Rule Mode)} (h : ∀ r ∈ rs, Stable Anything r) :
    ∀ r ∈ spacing ++ statements ++ rs, Stable (fun ps => PlainHead ps ∧ NumberSafe ps) r :=
  List.forall_mem_append.mpr ⟨List.forall_mem_append.mpr
    ⟨fun r hr => (stable_spacing r hr).mono fun _ _ => trivial, stable_statements⟩,
    fun r hr => (h r hr).mono fun _ _ => trivial⟩

theorem stable_statement :
    ∀ r ∈ rules .statement, Stable (fun ps => PlainHead ps ∧ NumberSafe ps) r := by
  refine stable_statement_append ?_
  simp only [List.forall_mem_cons]
  exact ⟨stable_token (Leads.one_plain (forall_isNameStart (by decide))).of_nothing,
    stable_token (Leads.char_plain (by decide)).of_nothing, nofun⟩

theorem stable_body : ∀ r ∈ rules .body, Stable (fun ps => PlainHead ps ∧ NumberSafe ps) r := by
  refine stable_statement_append ?_
  simp only [List.forall_mem_cons]
  exact ⟨stable_token (Leads.char_plain (by decide)).of_nothing,
    stable_token (Leads.char_plain (by decide)).of_nothing,
    stable_token (Leads.char_plain (by decide)).of_nothing, nofun⟩

/-- **String literals are told alike**: no swapped word comes after a backslash. -/
theorem stable_string : ∀ r ∈ rules .string, Stable Anything r := by
  have hescape : Leads .nothing Anything (char '\\') StartsKept :=
    .char_guard (by decide) (by decide)
  have hletter : ∀ {x : Char}, guards x = true → ∀ n,
      Leads .nothing StartsKept (char x ++ .exactly isHexDigit n) StartsKept :=
    fun hx n => (Leads.char_kept_guard hx).seq (leads_exactly guards_of_isHexDigit n)
  simp only [rules, List.forall_mem_cons]
  refine ⟨?_, ?_, ?_, ?_, ?_, nofun⟩
  · exact stable_token (Leads.char_plain (by decide)).of_nothing
  · refine stable_token (hescape.seq (Q := Anything) (.choice ?_)).of_nothing
    simp only [List.forall_mem_cons]
    refine ⟨.one_kept, ?_, (hletter (by decide) 4).anything, (hletter (by decide) 8).anything, ?_,
      nofun⟩
    · exact ((hletter (by decide) 2).seq (leads_upTo guards_of_isHexDigit 2)).anything
    · exact ((Leads.one_kept_guard guards_of_isOctalDigit).seq
        (leads_upTo guards_of_isOctalDigit 2)).anything
  · exact stable_token (Leads.many1_through nofun (forall_isLatin (by decide)))
  · exact stable_token leads_splice.of_nothing
  · exact stable_token hescape.of_nothing

/-- **Directives are told alike** where no swapped word comes. -/
theorem stable_directive : ∀ r ∈ rules .directive, Stable StartsKept r := by
  have hany : ∀ {r}, Stable Anything r → Stable StartsKept r := fun h => h.mono fun _ _ => trivial
  have hgap : Leads .nothing StartsKept
      (blanks ++ .opt (Pattern.text "/*" ++ .few inLine ++ Pattern.text "*/" ++ blanks))
      Anything :=
    (leads_blanks.seq (leads_shortComment.opt fun _ h => h)).mono (fun _ _ => trivial) fun _ h => h
  have hopen : ∀ {t : String}, t.toList.all (!isNameStart ·) = true →
      Leads .nothing Anything (Pattern.text t) Anything := Leads.text_plain
  have hline : Leads .nothing Anything (char '\n') Anything := .char_plain (by decide)
  simp only [rules, List.forall_mem_cons]
  refine ⟨?_, hany ?_, hany ?_, hany ?_, hany ?_, hany ?_, hany ?_, nofun⟩
  · exact stable_of_leadsAll (.cons (.text_kept (by decide)) (.cons hgap
      (.last (.many1_through nofun inLine_of_isLatin))))
  · exact stable_token (Leads.many1_through nofun (forall_isLatin (by decide)))
  · exact stable_token (((hopen (by decide)).seq (.few_through fun _ _ => rfl)).seq_barred
      (hopen (by decide)) (Barred.char (by decide)).seq).of_nothing
  · exact stable_token (((hopen (by decide)).seq (.few_through inLine_of_isLatin)).seq_barred hline
      (.char (by decide))).of_nothing
  · exact stable_token (Leads.char_plain (by decide)).of_nothing
  · exact stable_token ((Leads.after (forall_isLatin (v := false) (by decide)) fun _ h => h).seq
      hline).of_nothing
  · exact stable_token hline.of_nothing

/-- **Regions that are switched off are told alike**: no swapped word comes after a hash. -/
theorem stable_disabled : ∀ r ∈ rules .disabled, Stable Anything r := by
  have hstart : Leads .nothing Anything (.lineStart ++ blanks) Anything :=
    (Leads.lineStart fun _ h => h).seq leads_blanks
  have hfew : Leads .fails StartsKept (.few inLine) Anything :=
    (Leads.few_through inLine_of_isLatin).mono (fun _ _ => trivial) fun _ h => h
  have hline : Leads .nothing Anything (char '\n') Anything := .char_plain (by decide)
  have hend : Leads .nothing Anything lineEnd Anything :=
    (Leads.notAfter (forall_isLatin (v := false) (by decide)) fun _ h => h).seq hline
  have hbar : Barred lineEnd := .idle_seq .notAfter (.char (by decide))
  simp only [rules, List.forall_mem_cons]
  refine ⟨?_, ?_, ?_, ?_, nofun⟩
  · have hif : Leads .nothing Anything (Pattern.text "#if") StartsKept :=
      .text_guard rfl (by decide) (by decide)
    exact stable_token (((hstart.seq hif).seq hfew).seq_barred hend hbar).of_nothing
  · have hel : Leads .nothing Anything (Pattern.text "#el") StartsKept :=
      .text_guard rfl (by decide) (by decide)
    have hmany : Leads .fails StartsKept (.many inLine) Anything :=
      (Leads.many_through (d := .fails) inLine_of_isLatin nofun).mono (fun _ _ => trivial)
        fun _ h => h
    have hword : Leads .nothing StartsKept (Pattern.words ["se", "if"]) StartsKept :=
      .words_kept (by decide)
    have hrest := ((hstart.seq hel).seq hword).seq hmany
    exact stable_token (hrest.seq_barred hline (.char (by decide))).of_nothing
  · have hendif : Leads .nothing Anything (Pattern.text "#endif") StartsKept :=
      .text_guard rfl (by decide) (by decide)
    exact stable_token (((hstart.seq hendif).seq hfew).seq_barred hend hbar).of_nothing
  · exact stable_token ((Leads.few_through inLine_of_isLatin).seq_barred hline
      (.char (by decide))).of_nothing

/-! ### The first rule that matches -/

/-- What it takes for the rules of a mode to tell two versions of a text alike. -/
def Ready : Mode → List Piece → Prop
  | .top | .string | .disabled => Anything
  | .statement | .body => fun ps => PlainHead ps ∧ NumberSafe ps
  | .directive => StartsKept

theorem stable_rules : ∀ mode, ∀ r ∈ rules mode, Stable (Ready mode) r
  | .top => stable_top
  | .statement => stable_statement
  | .body => stable_body
  | .string => stable_string
  | .directive => stable_directive
  | .disabled => stable_disabled

/-- **The first rule that matches is the same on both sides.** -/
theorem firstMatch_beside {mode : Mode} {ps : List Piece} {s s' : Place} (hb : Beside ps s s')
    (hready : Ready mode ps) :
    Option.Rel (MatchBeside ps) (kernelGrammar.firstMatch mode s)
      (kernelGrammar.firstMatch mode s') := by
  have hrules := stable_rules mode
  show Option.Rel _ ((rules mode).findSome? (·.match? s)) ((rules mode).findSome? (·.match? s'))
  generalize rules mode = rs at hrules ⊢
  induction rs with
  | nil => exact .none
  | cons r rs ih =>
    obtain ⟨hr, hrs⟩ := List.forall_mem_cons.mp hrules
    have hhere := hr ps s s' hb hready
    rw [List.findSome?_cons, List.findSome?_cons]
    generalize r.match? s = m at hhere ⊢
    generalize r.match? s' = m' at hhere ⊢
    cases hhere with
    | none => exact ih hrs
    | some h => exact .some h

/-! ### Steps -/

/-- **The steps are beside each other**: they take the two versions of the same pieces, and lead to
the same stack and to places beside each other. -/
structure StepBeside (ps : List Piece) (st st' : Step Mode) : Prop where
  stack_eq : st.stack = st'.stack
  exists_cuts : ∃ (cuts : List (Action × List Piece)) (qs : List Piece),
    ps = cuts.flatMap Prod.snd ++ qs ∧
      st.parts = cuts.map (fun cut => (cut.1, olds cut.2)) ∧
      st'.parts = cuts.map (fun cut => (cut.1, news cut.2)) ∧
      Beside qs st.next st'.next

theorem apply_beside {ps : List Piece} {s s' : Place} (hb : Beside ps s s') {m m' : Match Mode}
    {r : Rule Mode} (hm : r.match? s = some m) (h : MatchBeside ps m m') (stack : List Mode) :
    StepBeside ps (kernelGrammar.apply stack m s) (kernelGrammar.apply stack m' s') := by
  obtain ⟨rfl, hends⟩ := Rule.match?_eq_some hm
  obtain ⟨qss, qs, rfl, hold, hnew, hlast⟩ := h.ends_beside.exists_cuts hb
  have hlen : qss.length ≤ (m.rule.parts.map Prod.snd).length := by
    have hcuts := Match.length_cuts s m.ends
    rw [hold, Pattern.length_ends hends, List.length_map, List.length_map] at hcuts
    rw [List.length_map]
    exact Nat.le_of_eq hcuts
  refine ⟨?_, (m.rule.parts.map Prod.snd).zip qss, qs, ?_, ?_, ?_, hlast⟩
  · simp only [Grammar.apply, h.rule_eq]
  · rw [List.flatMap_def, List.map_snd_zip hlen]
  · show (m.rule.parts.map Prod.snd).zip (Match.cuts s m.ends) = _
    rw [hold, List.zip_map_right]
    rfl
  · show (m'.rule.parts.map Prod.snd).zip (Match.cuts s' m'.ends) = _
    rw [hnew, ← h.rule_eq, List.zip_map_right]
    rfl

/-- A single character that both versions have. -/
theorem skip_beside {c : Char} {ps : List Piece} (h : Apart (.kept c :: ps)) (stack : List Mode) :
    StepBeside (.kept c :: ps) (Grammar.skip stack c (olds ps))
      (Grammar.skip stack c (news ps)) :=
  ⟨rfl, [(.token .other, [.kept c])], ps, rfl, rfl, rfl, .kept h⟩

/-! ### What the lexemes say of the pieces

The pieces fit the lexemes of the first version: in a lexeme other than an identifier nothing is
swapped, nor right after a number. This is what readies the modes that could see what is swapped. -/

/-- A lexeme that a step begins with is kept unless it is an identifier, and if it is a number and
all that the step takes, no swapped word follows. -/
def Keeps (ps : List Piece) (parts : List (Action × List Char)) : Prop :=
  ∀ kind v rest, parts = (.token kind, v) :: rest → kind ≠ .identifier →
    ∃ qs, ps = v.map .kept ++ qs ∧
      (rest = [] → v.head?.any Text.isDigit = true → StartsKept qs)

/-- The first part of a match. -/
theorem Match.parts_eq_cons {r : Rule Mode} {p : Pattern} {action : Action}
    {others : List (Pattern × Action)} (hr : r.parts = (p, action) :: others) {s : Place}
    {m : Match Mode} (hm : r.match? s = some m) :
    ∃ v rest, m.parts s = (action, v) :: rest ∧ (p.consumes = true → v ≠ []) := by
  obtain ⟨rfl, hends⟩ := Rule.match?_eq_some hm
  rw [hr] at hends
  obtain ⟨e, es, hes, -, -, hlt⟩ := Pattern.ends_cons_eq_some hends
  refine ⟨s.rest.take (s.rest.length - e.rest.length),
    (others.map Prod.snd).zip (Match.cuts e es), ?_, fun hc hnil => ?_⟩
  · rw [Match.parts, hr, hes]
    rfl
  · have hlen := congrArg List.length hnil
    have := hlt hc
    rw [List.length_take, List.length_nil] at hlen
    omega

/-- In a directive the rest of the line is taken, up to a slash. -/
theorem firstMatch_directive_ne_none {x : Char} (hx : isNameStart x = true) (prev : Option Char)
    (t : List Char) : kernelGrammar.firstMatch .directive ⟨prev, x :: t⟩ ≠ none := by
  intro hnone
  have hclass : noneOf "/\n" x = true := forall_isNameStart (by decide) x hx
  have hline := List.findSome?_eq_none_iff.mp hnone
    (.token .other (Pattern.many1 (noneOf "/\n"))) (List.mem_of_getElem? (i := 1) rfl)
  rw [match?_token_eq_none_iff (by decide)] at hline
  change (if noneOf "/\n" x = true then _ else none).isSome = false at hline
  rw [if_pos hclass] at hline
  exact Bool.false_ne_true (hline.symm.trans (isSome_runMany _ (fun _ => rfl) _ _))

/-- Whatever is taken in a directive begins with a lexeme that is no identifier. -/
theorem parts_directive {s : Place} {m : Match Mode}
    (hm : kernelGrammar.firstMatch .directive s = some m) :
    ∃ v rest, m.parts s = (.token .other, v) :: rest ∧ v ≠ [] := by
  have hfirst : ∀ r ∈ rules .directive, ∃ p others, r.parts = (p, .token .other) :: others ∧
      p.consumes = true := by
    simp only [rules, List.forall_mem_cons]
    exact ⟨⟨_, _, rfl, by decide⟩, ⟨_, _, rfl, by decide⟩, ⟨_, _, rfl, by decide⟩,
      ⟨_, _, rfl, by decide⟩, ⟨_, _, rfl, by decide⟩, ⟨_, _, rfl, by decide⟩,
      ⟨_, _, rfl, by decide⟩, nofun⟩
  obtain ⟨r, hr, hmatch⟩ := kernelGrammar.firstMatch_eq_some hm
  obtain ⟨p, others, hparts, hconsumes⟩ := hfirst r hr
  obtain ⟨v, rest, hv, hne⟩ := Match.parts_eq_cons hparts hmatch
  exact ⟨v, rest, hv, hne hconsumes⟩

/-- **No swapped word comes in a directive**: it would be part of a lexeme that is kept. -/
theorem startsKept_of_keeps {ps : List Piece} {s s' : Place} (hb : Beside ps s s')
    (hkeeps : ∀ m, kernelGrammar.firstMatch .directive s = some m → Keeps ps (m.parts s)) :
    StartsKept ps := by
  match ps, hb, hkeeps with
  | [], _, _ => trivial
  | .kept _ :: _, _, _ => trivial
  | .swapped w w' :: ps, hb, hkeeps =>
    obtain ⟨⟨x, t, rfl, hx⟩, -⟩ := hb.apart.1
    have hs : s = ⟨s.prev, x :: (t ++ olds ps)⟩ := by
      have hrest : s.rest = x :: (t ++ olds ps) := hb.rest_old
      rw [← hrest]
    obtain ⟨m, hm⟩ := Option.ne_none_iff_exists'.mp
      (firstMatch_directive_ne_none hx s.prev (t ++ olds ps))
    rw [← hs] at hm
    obtain ⟨v, rest, hv, hne⟩ := parts_directive hm
    obtain ⟨qs, hqs, -⟩ := hkeeps m hm .other v rest hv (by decide)
    obtain ⟨y, v, rfl⟩ := List.exists_cons_of_ne_nil hne
    cases hqs

/-! ### Numbers with a point -/

/-- A number with a point that runs on into a swapped word. -/
theorem exists_of_not_pointSafe {ps : List Piece} (h : ¬ PointSafe ps) :
    ∃ (ds : List Char) (w w' : List Char) (qs : List Piece), (∀ d ∈ ds, Text.isDigit d = true) ∧
      ps = ds.map .kept ++ .kept '.' :: .swapped w w' :: qs := by
  induction ps with
  | nil => exact absurd trivial h
  | cons p ps ih =>
    cases p with
    | swapped w w' => exact absurd trivial h
    | kept x =>
      rw [PointSafe] at h
      split at h
      · rename_i hx
        obtain ⟨ds, w, w', qs, hds, rfl⟩ := ih h
        exact ⟨x :: ds, w, w', qs, List.forall_mem_cons.mpr ⟨hx, hds⟩, rfl⟩
      · obtain ⟨rfl, hstart⟩ := Classical.not_imp.mp h
        rcases ps with _ | ⟨_ | ⟨w, w'⟩, qs⟩
        · exact absurd trivial hstart
        · exact absurd trivial hstart
        · exact ⟨[], w, w', qs, List.forall_mem_nil _, rfl⟩

/-- Digits are taken up to the point after them. -/
theorem run_digits {α : Type} {k : Place → Option α}
    (hk : ∀ prev d u, Text.isDigit d = true → k ⟨prev, d :: u⟩ = none) {d : Char} {ds : List Char}
    (hds : ∀ x ∈ d :: ds, Text.isDigit x = true) (prev : Option Char) (u : List Char) :
    ∃ last, (Pattern.many1 Text.isDigit).run k ⟨prev, d :: ds ++ '.' :: u⟩ =
      k ⟨last, '.' :: u⟩ := by
  show ∃ last, (if Text.isDigit d = true then
    Pattern.runMany Text.isDigit k (some d) (ds ++ '.' :: u) else none) = k ⟨last, '.' :: u⟩
  rw [if_pos (hds d List.mem_cons_self)]
  induction ds generalizing d with
  | nil =>
    have hpoint : Text.isDigit '.' = false := by decide
    exact ⟨some d, by rw [List.nil_append, Pattern.runMany_cons, hpoint]; rfl⟩
  | cons x ds ih =>
    have htail := (List.forall_mem_cons.mp hds).2
    have hx := htail x List.mem_cons_self
    rw [List.cons_append, Pattern.runMany_cons, if_pos hx, hk _ x _ hx, Option.or_none]
    exact ih htail

/-- **A fraction takes the digits and the point**, and no more before a word. -/
theorem run_fraction {α : Type} {k : Place → Option α} {whole : Pattern} {d x : Char}
    {ds : List Char} (hds : ∀ x ∈ d :: ds, Text.isDigit x = true) (hx : isNameStart x = true)
    (prev : Option Char) (t : List Char)
    (hwhole : whole.run k ⟨prev, d :: ds ++ '.' :: x :: t⟩ = none) :
    (fraction whole).run k ⟨prev, d :: ds ++ '.' :: x :: t⟩ = k ⟨some '.', x :: t⟩ := by
  have hd := hds d List.mem_cons_self
  have hne : ∀ y, Text.isDigit y = true → (y == '.') = false := by
    intro y hy
    refine beq_eq_false_iff_ne.mpr ?_
    rintro rfl
    revert hy
    decide
  let more : Place → Option α := (Pattern.many Text.isDigit).run k
  have hpointed : (Pattern.many1 Text.isDigit ++ char '.' ++ .many Text.isDigit).run k
      ⟨prev, d :: ds ++ '.' :: x :: t⟩ = k ⟨some '.', x :: t⟩ := by
    obtain ⟨last, hlast⟩ := run_digits (k := (char '.').run more)
      (fun _ y _ hy => by simp [char, Pattern.run, hne y hy]) hds prev (x :: t)
    refine hlast.trans ?_
    show Pattern.runMany Text.isDigit k (some '.') (x :: t) = _
    rw [Pattern.runMany_cons, isDigit_of_isNameStart x hx]
    rfl
  have hbare : (char '.' ++ Pattern.many1 Text.isDigit).run k
      ⟨prev, d :: ds ++ '.' :: x :: t⟩ = none := by
    show (if (d == '.') = true then _ else none) = none
    rw [hne d hd]
    rfl
  show (Pattern.alt (Pattern.many1 Text.isDigit ++ char '.' ++ .many Text.isDigit)
    (.alt (char '.' ++ Pattern.many1 Text.isDigit) whole)).run k _ = _
  rw [Pattern.run_alt, Pattern.run_alt, hpointed, hbare, hwhole, Option.or_none, Option.or_none]

/-- A match of a rule with one part. -/
theorem Match.parts_token {kind : Kind} {p : Pattern} {move : Move Mode} {s : Place}
    {m : Match Mode} (hm : (Rule.token kind p move).match? s = some m) :
    ∃ e v, p.run (fun e => some [e]) s = some [e] ∧ m.parts s = [(.token kind, v)] ∧
      v ++ e.rest = s.rest := by
  obtain ⟨hrule, hends⟩ := Rule.match?_eq_some hm
  obtain ⟨e, es, hes, hnil, hsuffix, -⟩ := Pattern.ends_cons_eq_some hends
  obtain rfl := Option.some.inj hnil
  refine ⟨e, s.rest.take (s.rest.length - e.rest.length), hes ▸ hends, ?_,
    Match.take_append_rest hsuffix⟩
  rw [Match.parts, hrule, hes]
  rfl

/-- The digits and the point are among what a rule for fractions takes. -/
theorem parts_fraction {whole p q : Pattern}
    (hp : ∀ {α : Type} (k : Place → Option α) s, p.run k s = (fraction whole).run (q.run k) s)
    {d x : Char} {ds : List Char} (hds : ∀ x ∈ d :: ds, Text.isDigit x = true)
    (hx : isNameStart x = true) {prev : Option Char} {t : List Char}
    (hwhole : ∀ {α : Type} (k : Place → Option α),
      whole.run (q.run k) ⟨prev, d :: ds ++ '.' :: x :: t⟩ = none) {m : Match Mode}
    (hm : (Rule.token .other p).match? ⟨prev, d :: ds ++ '.' :: x :: t⟩ = some m) :
    ∃ u, m.parts ⟨prev, d :: ds ++ '.' :: x :: t⟩ = [(.token .other, d :: ds ++ '.' :: u)] := by
  obtain ⟨e, v, hrun, hparts, hv⟩ := Match.parts_token hm
  rw [hp, run_fraction hds hx prev t (hwhole _)] at hrun
  obtain ⟨e', ⟨u, hu⟩, -, he⟩ := Pattern.run_eq_some hrun
  obtain rfl : e' = e := by simpa using he
  refine ⟨u, ?_⟩
  have hu : u ++ e'.rest = x :: t := hu
  have hsplit : v ++ e'.rest = (d :: ds ++ '.' :: u) ++ e'.rest := by
    rw [hv, ← hu]
    simp
  rw [hparts, List.append_cancel_right hsplit]

/-- A class of marks takes no digit. -/
theorem oneOf_of_isDigit {t : String} (ht : t.toList.all (!Text.isDigit ·) = true) {d : Char}
    (hd : Text.isDigit d = true) : oneOf t d = false := by
  refine Bool.eq_false_iff.mpr fun h => ?_
  have hmem : (!Text.isDigit d) = true := List.all_eq_true.mp ht d (List.contains_iff_mem.mp h)
  rw [hd] at hmem
  cases hmem

/-- Digits with a point after them are no whole number with a mark. -/
theorem run_marked_eq_none {α : Type} {k : Place → Option α} {t : String}
    (ht : t.toList.all (!Text.isDigit ·) = true) (hpoint : oneOf t '.' = false) {d : Char}
    {ds : List Char} (hds : ∀ x ∈ d :: ds, Text.isDigit x = true) (prev : Option Char)
    (u : List Char) :
    (Pattern.many1 Text.isDigit).run ((Pattern.one (oneOf t)).run k)
      ⟨prev, d :: ds ++ '.' :: u⟩ = none := by
  obtain ⟨last, hlast⟩ := run_digits (k := (Pattern.one (oneOf t)).run k)
    (fun _ y _ hy => by simp [Pattern.run, oneOf_of_isDigit ht hy]) hds prev u
  rw [hlast]
  simp [Pattern.run, hpoint]

/-- Nothing of spacing begins with a word character. -/
theorem match?_spacing_eq_none {s : Place} (hs : s.rest.head?.any Text.isWord = true) :
    ∀ r ∈ spacing, r.match? s = none := by
  have hnone : ∀ {r : Rule Mode}, BarredAll (r.parts.map Prod.fst) → r.match? s = none :=
    fun h => by rw [Rule.match?, h s hs]
  have htoken : ∀ {kind p} {move : Move Mode}, Barred p →
      (Rule.token kind p move).match? s = none :=
    fun h => hnone (.cons h [])
  have hswitch : Barred switchOff := (Barred.char (x := '#') (by decide)).seq.seq.seq
  have hblanks : Idle blanks := .many isBlank_of_isWord
  have hindent : Idle indentation :=
    (Idle.lineStart.seq hblanks).seq (.opt (Barred.char (x := '/') (by decide)).seq.seq.seq.seq)
  simp only [spacing, List.forall_mem_cons]
  refine ⟨?_, ?_, ?_, ?_, ?_, ?_, ?_, ?_, ?_, ?_, List.forall_mem_nil _⟩
  · exact htoken (.idle_seq .lineStart hswitch)
  · exact htoken (.idle_seq .lineStart (.char (by decide)))
  · exact hnone (.idle_cons hindent (.cons hswitch []))
  · exact hnone (.idle_cons hindent (.cons (.char (by decide)) []))
  · exact htoken (.char (by decide))
  · exact htoken (Barred.one isBlank_of_isWord).seq
  · exact htoken (Barred.char (x := '\\') (by decide)).seq
  · exact htoken (Barred.char (x := '/') (by decide)).seq.seq
  · exact htoken (Barred.char (x := '/') (by decide)).seq.seq.seq.seq.seq.seq
  · exact htoken (Barred.char (x := '/') (by decide)).seq.seq.seq

/-- No literal begins with a digit. -/
theorem match?_literal_eq_none {r : Rule Mode} {q : Char} {patterns : List Pattern}
    (hr : r.parts.map Prod.fst = .opt (char 'L') :: char q :: patterns)
    (hq : Text.isDigit q = false) {d : Char} (hd : Text.isDigit d = true) (prev : Option Char)
    (u : List Char) : r.match? ⟨prev, d :: u⟩ = none := by
  have hne : ∀ {y}, Text.isDigit y = false → d ≠ y := fun hy heq => by simp [← heq, hd] at hy
  have hmark : d ≠ 'L' := hne (by decide)
  simp [Rule.match?, hr, Pattern.ends, Pattern.opt, char, Pattern.run, hmark,
    hne hq]

/-- **A number with a point is taken before anything else** that a statement can begin with, with
its point and maybe more. -/
theorem exists_findSome?_point (rs : List (Rule Mode)) {d x : Char} {ds : List Char}
    (hds : ∀ x ∈ d :: ds, Text.isDigit x = true) (hx : isNameStart x = true) (prev : Option Char)
    (t : List Char) :
    ∃ m u, (spacing ++ statements ++ rs).findSome? (·.match? ⟨prev, d :: ds ++ '.' :: x :: t⟩) =
        some m ∧
      m.parts ⟨prev, d :: ds ++ '.' :: x :: t⟩ = [(.token .other, d :: ds ++ '.' :: u)] := by
  have hd := hds d List.mem_cons_self
  have hspacing := List.findSome?_eq_none_iff.mpr
    (match?_spacing_eq_none (s := ⟨prev, d :: ds ++ '.' :: x :: t⟩) (isWord_of_isDigit hd))
  simp only [List.findSome?_append, hspacing, Option.none_or, statements, List.findSome?_cons]
  rw [List.cons_append, match?_literal_eq_none rfl (by decide) hd,
    match?_literal_eq_none rfl (by decide) hd]
  dsimp only
  split
  · rename_i m hm
    obtain ⟨u, hu⟩ := parts_fraction (q := .one (oneOf "eE") ++ (.opt (.one (oneOf "+-"))
      ++ (Pattern.many1 Text.isDigit ++ marks))) (fun _ _ => rfl) hds hx
      (fun k => run_marked_eq_none (by decide) (by decide) hds prev _) hm
    exact ⟨m, u, rfl, hu⟩
  · split
    · rename_i m hm
      obtain ⟨u, hu⟩ := parts_fraction (q := .opt (.one (oneOf "fF"))) (fun _ _ => rfl) hds hx
        (fun k => run_marked_eq_none (by decide) (by decide) hds prev _) hm
      exact ⟨m, u, rfl, hu⟩
    · -- the point is enough: no mark has to follow
      rename_i hnone
      have hrun : (fraction (Pattern.many1 Text.isDigit ++ .one (oneOf "fF"))).run
          ((Pattern.opt (.one (oneOf "fF"))).run fun e => some [e])
            ⟨prev, d :: ds ++ '.' :: x :: t⟩ =
          (Pattern.opt (.one (oneOf "fF"))).run (fun e => some [e]) ⟨some '.', x :: t⟩ :=
        run_fraction hds hx prev t (run_marked_eq_none (by decide) (by decide) hds prev _)
      rw [match?_token_eq_none_iff (by decide)] at hnone
      change ((fraction _).run _ _).isSome = false at hnone
      rw [List.cons_append] at hrun
      rw [hrun, Pattern.opt, Pattern.run_alt, Option.isSome_or, Bool.or_eq_false_iff] at hnone
      cases hnone.2

/-- **A number does not run on into a swapped word**, where it would be taken together with the
point after it. -/
theorem numberSafe_of_keeps {rs : List (Rule Mode)} {ps : List Piece} {s s' : Place}
    (hb : Beside ps s s')
    (hkeeps : ∀ m, (spacing ++ statements ++ rs).findSome? (·.match? s) = some m →
      Keeps ps (m.parts s)) : NumberSafe ps := by
  match ps, hb, hkeeps with
  | [], _, _ => trivial
  | .swapped _ _ :: _, _, _ => trivial
  | .kept d :: ps, hb, hkeeps =>
    intro hd
    refine Classical.byContradiction fun hpoint => ?_
    obtain ⟨ds, w, w', qs, hds, rfl⟩ := exists_of_not_pointSafe hpoint
    have hsuffix : .swapped w w' :: qs <:+
        .kept d :: (ds.map .kept ++ .kept '.' :: .swapped w w' :: qs) :=
      ⟨.kept d :: ds.map .kept ++ [.kept '.'], by simp⟩
    obtain ⟨⟨⟨x, t, rfl, hx⟩, -⟩, -⟩ := hb.apart.of_suffix hsuffix
    have hdigits : ∀ y ∈ d :: ds, Text.isDigit y = true := List.forall_mem_cons.mpr ⟨hd, hds⟩
    have hs : s = ⟨s.prev, d :: ds ++ '.' :: x :: (t ++ olds qs)⟩ := by
      have hrest : s.rest = d :: ds ++ '.' :: x :: (t ++ olds qs) := by simp [hb.rest_old]
      rw [← hrest]
    obtain ⟨m, u, hm, hparts⟩ := exists_findSome?_point rs hdigits hx s.prev (t ++ olds qs)
    rw [← hs] at hm hparts
    obtain ⟨rest, hrest, hstart⟩ := hkeeps m hm .other _ [] hparts (by decide)
    -- the number ends right before the swapped word
    have hswapped : u.map .kept ++ rest = .swapped (x :: t) w' :: qs := by
      simpa using hrest.symm
    cases u with
    | nil =>
      obtain rfl : rest = _ := hswapped
      exact hstart rfl hd
    | cons y u => cases hswapped

/-! ### A step -/

/-- **The lexemes a step begins with ready every mode.** -/
theorem ready_of_keeps {mode : Mode} {ps : List Piece} {s s' : Place} (hb : Beside ps s s')
    (hplain : PlainHead ps)
    (hkeeps : ∀ m, kernelGrammar.firstMatch mode s = some m → Keeps ps (m.parts s)) :
    Ready mode ps := by
  cases mode with
  | top => trivial
  | string => trivial
  | disabled => trivial
  | statement => exact ⟨hplain, numberSafe_of_keeps hb hkeeps⟩
  | body => exact ⟨hplain, numberSafe_of_keeps hb hkeeps⟩
  | directive => exact startsKept_of_keeps hb hkeeps

/-- The same mode is worked in on both sides, provided that the pieces fit the match found in the
first version. -/
theorem select_beside (stack : List Mode) {ps : List Piece} {s s' : Place} (hb : Beside ps s s')
    (hplain : PlainHead ps)
    (hkeeps : ∀ m, (kernelGrammar.select stack s).2 = some m → Keeps ps (m.parts s)) :
    (kernelGrammar.select stack s).1 = (kernelGrammar.select stack s').1 ∧
      Option.Rel (MatchBeside ps) (kernelGrammar.select stack s).2
        (kernelGrammar.select stack s').2 := by
  have hready : Ready (kernelGrammar.top stack) ps := ready_of_keeps hb hplain fun m hm =>
    hkeeps m (by rw [Grammar.select, hm])
  have hfirst := firstMatch_beside hb hready
  unfold Grammar.select at hkeeps ⊢
  generalize kernelGrammar.firstMatch (kernelGrammar.top stack) s = m at hfirst hkeeps ⊢
  generalize kernelGrammar.firstMatch (kernelGrammar.top stack) s' = m' at hfirst ⊢
  cases hfirst with
  | some h => exact ⟨rfl, .some h⟩
  | none =>
    cases hmode : kernelGrammar.otherwise (kernelGrammar.top stack) with
    | none => exact ⟨rfl, .none⟩
    | some mode =>
      simp only [hmode] at hkeeps
      exact ⟨rfl, firstMatch_beside hb (ready_of_keeps hb hplain hkeeps)⟩

namespace Grammar

variable {μ : Type} [DecidableEq μ] (G : Grammar μ)

/-- The selection a step goes by: for want of a match at the end of a line, that of the start. -/
def selection (stack : List μ) (c : Char) (s : Place) : List μ × Option (Match μ) :=
  if (G.select stack s).2.isNone = true ∧ c = '\n' ∧ G.top (G.select stack s).1 ≠ G.start then
    G.select [] s
  else G.select stack s

/-- What a selection comes to: a match, or a character by itself. -/
def settle (c : Char) (rest : List Char) (s : Place) : List μ × Option (Match μ) → Step μ
  | (stack, some m) => G.apply stack m s
  | (stack, none) => skip stack c rest

theorem step_eq_settle (stack : List μ) (prev : Option Char) (c : Char) (rest : List Char) :
    G.step stack prev c rest =
      G.settle c rest ⟨prev, c :: rest⟩ (G.selection stack c ⟨prev, c :: rest⟩) := by
  unfold step selection
  dsimp only
  obtain ⟨stack', m⟩ := G.select stack ⟨prev, c :: rest⟩
  cases m with
  | some m => rfl
  | none =>
    simp only [Option.isNone_none, true_and]
    split
    · obtain ⟨stack'', m⟩ := G.select [] ⟨prev, c :: rest⟩
      cases m <;> rfl
    · rfl

theorem selection_eq_some (stack : List μ) (c : Char) {s : Place} {m : Match μ}
    (h : (G.selection stack c s).2 = some m) : ∃ r : Rule μ, r.match? s = some m := by
  unfold selection at h
  split at h
  · obtain ⟨-, r, -, hr⟩ := G.select_eq_some [] h
    exact ⟨r, hr⟩
  · obtain ⟨-, r, -, hr⟩ := G.select_eq_some stack h
    exact ⟨r, hr⟩

end Grammar

/-- A line feed follows on both sides or on neither. -/
theorem Beside.eq_lineFeed_iff {ps : List Piece} {prev prev' : Option Char} {c c' : Char}
    {rest rest' : List Char} (hb : Beside ps ⟨prev, c :: rest⟩ ⟨prev', c' :: rest'⟩) :
    c = '\n' ↔ c' = '\n' := by
  have hname : ∀ {x}, isNameStart x = true → x ≠ '\n' := by
    rintro _ hx rfl
    revert hx
    decide
  match ps, hb with
  | [], hb => cases hb.rest_old
  | .kept x :: ps, hb =>
    obtain ⟨rfl, -⟩ := List.cons.inj hb.rest_old
    obtain ⟨rfl, -⟩ := List.cons.inj hb.rest_new
    exact Iff.rfl
  | .swapped w w' :: ps, hb =>
    obtain ⟨⟨⟨x, t, rfl, hx⟩, -⟩, ⟨⟨y, u, rfl, hy⟩, -⟩, -⟩ := hb.apart
    obtain ⟨rfl, -⟩ := List.cons.inj hb.rest_old
    obtain ⟨rfl, -⟩ := List.cons.inj hb.rest_new
    exact iff_of_false (hname hx) (hname hy)

/-- The selections that a step goes by are alike. -/
theorem selection_beside (stack : List Mode) {ps : List Piece} {prev prev' : Option Char}
    {c c' : Char} {rest rest' : List Char}
    (hb : Beside ps ⟨prev, c :: rest⟩ ⟨prev', c' :: rest'⟩) (hplain : PlainHead ps)
    (hkeeps : ∀ m, (kernelGrammar.selection stack c ⟨prev, c :: rest⟩).2 = some m →
      Keeps ps (m.parts ⟨prev, c :: rest⟩)) :
    (kernelGrammar.selection stack c ⟨prev, c :: rest⟩).1 =
        (kernelGrammar.selection stack c' ⟨prev', c' :: rest'⟩).1 ∧
      Option.Rel (MatchBeside ps) (kernelGrammar.selection stack c ⟨prev, c :: rest⟩).2
        (kernelGrammar.selection stack c' ⟨prev', c' :: rest'⟩).2 := by
  have hselect := select_beside stack hb hplain fun m hm =>
    hkeeps m (by rwa [Grammar.selection, hm, if_neg (by simp)])
  have hnone : (kernelGrammar.select stack ⟨prev, c :: rest⟩).2.isNone =
      (kernelGrammar.select stack ⟨prev', c' :: rest'⟩).2.isNone := by
    obtain ⟨-, hrel⟩ := hselect
    generalize (kernelGrammar.select stack ⟨prev, c :: rest⟩).2 = m at hrel ⊢
    generalize (kernelGrammar.select stack ⟨prev', c' :: rest'⟩).2 = m' at hrel ⊢
    cases hrel with
    | none => rfl
    | some => rfl
  unfold Grammar.selection at hkeeps ⊢
  simp only [← hnone, ← hselect.1, ← hb.eq_lineFeed_iff]
  split
  · rename_i hline
    rw [if_pos hline] at hkeeps
    exact select_beside [] hb hplain hkeeps
  · exact hselect

/-- **A step goes the same way in both versions**, provided that the pieces fit the lexemes it
begins with in the first. -/
theorem step_beside {stack : List Mode} {ps : List Piece} {prev prev' : Option Char} {c c' : Char}
    {rest rest' : List Char} (hb : Beside ps ⟨prev, c :: rest⟩ ⟨prev', c' :: rest'⟩)
    (hplain : PlainHead ps) (hkeeps : Keeps ps (kernelGrammar.step stack prev c rest).parts) :
    StepBeside ps (kernelGrammar.step stack prev c rest)
      (kernelGrammar.step stack prev' c' rest') := by
  rw [Grammar.step_eq_settle] at hkeeps ⊢
  rw [Grammar.step_eq_settle]
  have hmatch := fun m => kernelGrammar.selection_eq_some stack c (s := ⟨prev, c :: rest⟩) (m := m)
  have hselection := selection_beside stack hb hplain
  generalize kernelGrammar.selection stack c ⟨prev, c :: rest⟩ = selected
    at hselection hkeeps hmatch ⊢
  generalize kernelGrammar.selection stack c' ⟨prev', c' :: rest'⟩ = selected' at hselection ⊢
  obtain ⟨stack, m⟩ := selected
  obtain ⟨stack', m'⟩ := selected'
  obtain ⟨hstack, hrel⟩ := hselection fun m hm => by
    obtain rfl : _ = some m := hm
    exact hkeeps
  obtain rfl : stack = stack' := hstack
  cases hrel with
  | @some m m' h =>
    obtain ⟨r, hr⟩ := hmatch m rfl
    exact apply_beside hb hr h stack
  | none =>
    obtain ⟨qs, rfl, -⟩ := hkeeps .other [c] [] rfl (by simp)
    obtain ⟨-, rfl⟩ := List.cons.inj hb.rest_old
    obtain ⟨rfl, rfl⟩ := List.cons.inj hb.rest_new
    exact skip_beside hb.apart stack

end KernelPack.Lexis
