import KernelPack.Proofs.Lexis.Heads
import KernelPack.Proofs.Lexis.Identifiers
import KernelPack.Proofs.Lexis.Relexing

/-!
# Lexing a text with spaces dropped

A **step** at a character goes the same way in both readings (`step_near`): the same rule matches,
its parts are two readings of the same glyphs, and the stacks stay alike. At a dropped space only
the loose text has a step to take. It makes a lexeme of white space, or begins a part of a string,
and can be left out (`lex_space`).

So both readings have the same identifiers (`namesAgree`), provided that no quote of the loose text
stands by itself (`stray`): such a quote could begin a character literal in the tight text.
-/

namespace KernelPack.Lexis.Spaced

open KernelGrammar

/-! ### The modes -/

/-- What it takes for the rules of a mode to be alike in both readings. -/
def Ready : Mode → Spot → Prop
  | .top => Settled
  | .statement | .body => Quoted
  | .string => Anywhere
  | .directive | .disabled => fun _ => False

/-- What holds after a match in a mode. Where a function may begin next, the spot is settled; and no
directive is entered. -/
def Leaves : Mode → Move Mode → Spot → Prop
  | .top, .stay | .statement, .leave | .body, .leave => Settled
  | .top, .enter .body | .statement, .stay | .statement, .enter .string | .body, .stay
  | .body, .again | .body, .enter .string | .string, .stay | .string, .leave => Anywhere
  | _, _ => fun _ => False

/-- White space and comments change no mode. -/
theorem stable_spacing_leaves {mode : Mode} {W : Spot → Prop} (hW : Lasting W)
    (hready : ∀ σ, Ready mode σ → W σ) (hleaves : Leaves mode .stay = W) :
    ∀ r ∈ spacing, Stable (Ready mode) r (Leaves mode r.move) := by
  have hstay : ∀ r ∈ spacing.drop 4, r.move = .stay := by
    simp [spacing, Rule.token]
  rw [← List.take_append_drop 4 spacing, List.forall_mem_append]
  refine ⟨fun r hr => stable_directive _ _ r hr, fun r hr => ?_⟩
  rw [hstay r hr, hleaves]
  exact (stable_spacing hW r hr).mono hready fun _ h => h

theorem stable_top : ∀ r ∈ rules .top, Stable (Ready .top) r (Leaves .top r.move) := by
  refine List.forall_mem_append.mpr ⟨stable_spacing_leaves lasting_settled (fun _ h => h) rfl, ?_⟩
  simp only [List.forall_mem_cons]
  refine ⟨stable_functionHead (by decide) (Or.inr rfl) carries_anywhere,
    stable_functionHead (by decide) (Or.inl rfl) fun a b g x gs _ _ hx => Or.inl ?_, nofun⟩
  obtain rfl := beq_iff_eq.mp hx
  rfl

/-- The rules for statements and the marks around them. -/
theorem stable_statement_append {mode : Mode} (hready : Ready mode = Quoted)
    (hstay : Leaves mode .stay = Anywhere) (hstring : Leaves mode (.enter .string) = Anywhere)
    {rs : List (Rule Mode)} (h : ∀ r ∈ rs, Stable Quoted r (Leaves mode r.move)) :
    ∀ r ∈ spacing ++ statements ++ rs, Stable (Ready mode) r (Leaves mode r.move) := by
  have hleaves : ∀ r ∈ statements, Leaves mode r.move = Anywhere := by
    simp [statements, Rule.token, hstay, hstring]
  refine List.forall_mem_append.mpr ⟨List.forall_mem_append.mpr ⟨?_, fun r hr => ?_⟩, ?_⟩
  · exact stable_spacing_leaves lasting_anywhere (fun _ _ => trivial) hstay
  · rw [hready, hleaves r hr]
    exact stable_statements r hr
  · rw [hready]
    exact h

theorem stable_statement :
    ∀ r ∈ rules .statement, Stable (Ready .statement) r (Leaves .statement r.move) := by
  refine stable_statement_append rfl rfl rfl ?_
  simp only [List.forall_mem_cons]
  exact ⟨stable_one, stable_end (by rintro (_ | _ | _) <;> rfl), nofun⟩

theorem stable_body : ∀ r ∈ rules .body, Stable (Ready .body) r (Leaves .body r.move) := by
  refine stable_statement_append rfl rfl rfl ?_
  simp only [List.forall_mem_cons]
  exact ⟨stable_one, stable_one, stable_end (by rintro (_ | _ | _) <;> rfl), nofun⟩

theorem stable_rules :
    ∀ mode, ∀ r ∈ rules mode, Stable (Ready mode) r (Leaves mode r.move)
  | .top => stable_top
  | .statement => stable_statement
  | .body => stable_body
  | .string => by
    have hleaves : ∀ r ∈ rules .string, Leaves .string r.move = Anywhere := by
      simp only [rules, List.forall_mem_cons]
      exact ⟨rfl, rfl, rfl, rfl, rfl, List.forall_mem_nil _⟩
    intro r hr
    rw [hleaves r hr]
    exact stable_string r hr
  | .directive | .disabled => fun _ _ _ _ _ h => h.elim

/-- **The first rule that matches is the same in both readings.** -/
theorem firstMatch_near {mode : Mode} {σ : Spot} (hσ : σ.Sound) (hchar : AtChar σ)
    (hready : Ready mode σ) :
    Option.Rel (fun m m' => MatchNear (Leaves mode m.rule.move) σ m m')
      (kernelGrammar.firstMatch mode σ.loose) (kernelGrammar.firstMatch mode σ.tight) := by
  have hrules := stable_rules mode
  show Option.Rel _ ((rules mode).findSome? (·.match? σ.loose))
    ((rules mode).findSome? (·.match? σ.tight))
  generalize rules mode = rs at hrules ⊢
  induction rs with
  | nil => exact .none
  | cons r rs ih =>
    obtain ⟨hr, hrs⟩ := List.forall_mem_cons.mp hrules
    have hhere := hr σ hσ hchar hready
    have hrule : ∀ m, r.match? σ.loose = some m → m.rule = r := fun m hm =>
      (Rule.match?_eq_some hm).1
    rw [List.findSome?_cons, List.findSome?_cons]
    generalize r.match? σ.loose = m at hhere hrule ⊢
    generalize r.match? σ.tight = m' at hhere ⊢
    cases hhere with
    | none => exact ih hrs
    | some h =>
      rw [← hrule _ rfl] at h
      exact .some h

/-! ### Stacks -/

/-- The stacks that occur where there are no directives: statements and bodies, and maybe a string
on top. -/
inductive Tidy : List Mode → Prop
  | nil : Tidy []
  | statement {stack : List Mode} : Tidy stack → Tidy (.statement :: stack)
  | body {stack : List Mode} : Tidy stack → Tidy (.body :: stack)
  | stringInStatement {stack : List Mode} : Tidy stack → Tidy (.string :: .statement :: stack)
  | stringInBody {stack : List Mode} : Tidy stack → Tidy (.string :: .body :: stack)

/-- The stack fits the spot: where a function may begin, the spot is settled. -/
structure Fits (stack : List Mode) (σ : Spot) : Prop where
  tidy : Tidy stack
  settled : stack = [] → Settled σ

/-- **Every move leaves a stack that fits.** -/
theorem fits_moved {stack : List Mode} (hstack : Tidy stack) {move : Move Mode} {σ : Spot}
    (h : Leaves (kernelGrammar.top stack) move σ) : Fits (kernelGrammar.moved stack move) σ := by
  cases hstack with
  | nil =>
    match move, h with
    | .stay, h => exact ⟨.nil, fun _ => h⟩
    | .enter .body, _ => exact ⟨.body .nil, nofun⟩
  | statement hrest =>
    match move, h with
    | .stay, _ => exact ⟨.statement hrest, nofun⟩
    | .leave, h => exact ⟨hrest, fun _ => h⟩
    | .enter .string, _ => exact ⟨.stringInStatement hrest, nofun⟩
  | body hrest =>
    match move, h with
    | .stay, _ => exact ⟨.body hrest, nofun⟩
    | .again, _ => exact ⟨.body (.body hrest), nofun⟩
    | .leave, h => exact ⟨hrest, fun _ => h⟩
    | .enter .string, _ => exact ⟨.stringInBody hrest, nofun⟩
  | stringInStatement hrest =>
    match move, h with
    | .stay, _ => exact ⟨.stringInStatement hrest, nofun⟩
    | .leave, _ => exact ⟨.statement hrest, nofun⟩
  | stringInBody hrest =>
    match move, h with
    | .stay, _ => exact ⟨.stringInBody hrest, nofun⟩
    | .leave, _ => exact ⟨.body hrest, nofun⟩

/-- The rules of the topmost mode are ready. -/
theorem Fits.ready {stack : List Mode} {σ : Spot} (h : Fits stack σ)
    (hquoted : kernelGrammar.top stack ≠ .string → Quoted σ) :
    Ready (kernelGrammar.top stack) σ := by
  obtain ⟨htidy, hsettled⟩ := h
  cases htidy with
  | nil => exact hsettled rfl
  | statement => exact hquoted nofun
  | body => exact hquoted nofun
  | stringInStatement => trivial
  | stringInBody => trivial

/-! ### Steps -/

/-- The selections made in the two readings are alike. -/
structure SelectionNear (σ : Spot) (sel sel' : List Mode × Option (Match Mode)) : Prop where
  stack_eq : sel.1 = sel'.1
  tidy : Tidy sel.1
  ne_nil : sel.2 = none → sel.1 ≠ []
  rel : Option.Rel (fun m m' => MatchNear (Leaves (kernelGrammar.top sel.1) m.rule.move) σ m m')
    sel.2 sel'.2
  exists_mode : ∀ m, sel.2 = some m → ∃ mode, kernelGrammar.firstMatch mode σ.loose = some m

theorem select_near {stack : List Mode} {σ : Spot} (hσ : σ.Sound) (hchar : AtChar σ)
    (hstack : Fits stack σ) (hquoted : kernelGrammar.top stack ≠ .string → Quoted σ) :
    SelectionNear σ (kernelGrammar.select stack σ.loose) (kernelGrammar.select stack σ.tight) := by
  have hfirst := firstMatch_near hσ hchar (hstack.ready hquoted)
  unfold Grammar.select
  cases hloose : kernelGrammar.firstMatch (kernelGrammar.top stack) σ.loose with
  | some m =>
    rw [hloose] at hfirst
    generalize kernelGrammar.firstMatch (kernelGrammar.top stack) σ.tight = m' at hfirst ⊢
    cases hfirst with
    | some h =>
      refine ⟨rfl, hstack.tidy, nofun, .some h, fun m' hm' => ?_⟩
      exact ⟨_, hloose.trans hm'⟩
  | none =>
    rw [hloose] at hfirst
    generalize kernelGrammar.firstMatch (kernelGrammar.top stack) σ.tight = m' at hfirst ⊢
    cases hfirst
    cases hstack.tidy with
    | nil =>
      have hready : Ready .statement σ := hquoted nofun
      exact ⟨rfl, .statement .nil, nofun, firstMatch_near hσ hchar hready, fun m hm => ⟨_, hm⟩⟩
    | statement h => exact ⟨rfl, .statement h, nofun, .none, nofun⟩
    | body h => exact ⟨rfl, .body h, nofun, .none, nofun⟩
    | stringInStatement h => exact ⟨rfl, .stringInStatement h, nofun, .none, nofun⟩
    | stringInBody h => exact ⟨rfl, .stringInBody h, nofun, .none, nofun⟩

/-- At the end of a line a string is given up. -/
theorem selection_near {stack : List Mode} {σ : Spot} (hσ : σ.Sound) {c : Char} {gs : List Glyph}
    (hglyphs : σ.glyphs = .kept c :: gs) (hstack : Fits stack σ)
    (hquoted : kernelGrammar.top stack ≠ .string → Quoted σ) :
    SelectionNear σ (kernelGrammar.selection stack c σ.loose)
      (kernelGrammar.selection stack c σ.tight) := by
  have hselect := select_near hσ ⟨c, gs, hglyphs⟩ hstack hquoted
  have hnone : (kernelGrammar.select stack σ.loose).2.isNone =
      (kernelGrammar.select stack σ.tight).2.isNone := by
    have hrel := hselect.rel
    generalize (kernelGrammar.select stack σ.loose).2 = m at hrel ⊢
    generalize (kernelGrammar.select stack σ.tight).2 = m' at hrel ⊢
    cases hrel with
    | none => rfl
    | some => rfl
  unfold Grammar.selection
  simp only [← hnone, ← hselect.stack_eq]
  split
  · -- nothing follows the line feed, neither a quote nor the head of a function
    rename_i hline
    obtain ⟨a, b, g, gs'⟩ := σ
    obtain rfl : gs' = .kept c :: gs := hglyphs
    obtain rfl := hline.2.1
    obtain rfl := hσ.snug.1 rfl
    have hsettled : Settled ⟨a, b, g, [.kept '\n']⟩ := Or.inr (Or.inl (by simp [Headless]))
    refine select_near hσ ⟨_, _, rfl⟩ ⟨.nil, fun _ => hsettled⟩ fun _ t ht => ?_
    obtain ht | ht := ht
    · cases ht
    · cases ht
  · exact hselect

/-- **The steps are near each other**: the parts are two readings of the `cuts`, each of them sound
by itself, and the step leads to the spot `τ` with a stack that fits. -/
structure StepNear (cuts : List (Action × List Glyph)) (τ : Spot) (st st' : Step Mode) : Prop where
  parts_loose : st.parts = cuts.map fun cut => (cut.1, looseText cut.2)
  parts_tight : st'.parts = cuts.map fun cut => (cut.1, tightText cut.2)
  next_loose : st.next = τ.loose
  next_tight : st'.next = τ.tight
  stack_eq : st'.stack = st.stack
  sound : τ.Sound
  fits : Fits st.stack τ
  alone : ∀ cut ∈ cuts, ∃ g, Spot.Sound ⟨none, none, g, cut.2⟩
  settled : ∀ cut ∈ cuts, cut.1 = .nested → ∀ g, Settled ⟨none, none, g, cut.2⟩

/-- What is lexed on its own holds no head of a function. -/
theorem settled_of_nested {gs : List Glyph}
    (h : (';' ∉ looseText gs ∧ '{' ∉ looseText gs) ∨ Opens (looseText gs)) (g : Stage) :
    Settled ⟨none, none, g, gs⟩ := by
  obtain ⟨hsemicolon, hbrace⟩ | ⟨u, w, hopens, hu⟩ := h
  · exact Or.inr (Or.inl ⟨mt (mem_looseText_iff (by decide)).mpr hsemicolon,
      mt (mem_looseText_iff (by decide)).mpr hbrace⟩)
  · refine Or.inr (Or.inr ?_)
    show firstInk gs = some '('
    induction gs generalizing u with
    | nil => simp at hopens
    | cons z gs ih =>
      cases u with
      | nil =>
        match z, hopens with
        | .kept c, hopens =>
          obtain rfl : c = '(' := (List.cons.inj hopens).1
          rfl
      | cons x u =>
        obtain ⟨hx, hblank⟩ := List.forall_mem_cons.mp hu
        obtain ⟨hz, hrest⟩ := List.cons.inj hopens
        cases z with
        | gone => exact ih u hrest hblank
        | kept c =>
          obtain rfl : c = x := hz
          rw [firstInk, if_pos hx]
          exact ih u hrest hblank

theorem apply_near {stack : List Mode} (hstack : Tidy stack) {σ : Spot} (hσ : σ.Sound)
    {m m' : Match Mode} {mode : Mode} (hm : kernelGrammar.firstMatch mode σ.loose = some m)
    (h : MatchNear (Leaves (kernelGrammar.top stack) m.rule.move) σ m m') :
    ∃ cuts τ, StepNear cuts τ (kernelGrammar.apply stack m σ.loose)
      (kernelGrammar.apply stack m' σ.tight) := by
  obtain ⟨r, hr, hmatch⟩ := kernelGrammar.firstMatch_eq_some hm
  obtain ⟨-, hends⟩ := Rule.match?_eq_some hmatch
  obtain ⟨cuts, τ, -, halone, hloose, htight, hlast, hlast', hτ, hleaves⟩ :=
    h.ends_near.exists_cuts hσ
  have hparts : m.parts σ.loose =
      ((m.rule.parts.map Prod.snd).zip cuts).map fun cut => (cut.1, looseText cut.2) := by
    rw [Match.parts, hloose, List.zip_map_right]
    rfl
  have hcuts : ∀ cut ∈ (m.rule.parts.map Prod.snd).zip cuts, cut.2 ∈ cuts := fun cut hcut =>
    (List.of_mem_zip hcut).2
  refine ⟨(m.rule.parts.map Prod.snd).zip cuts, τ, hparts, ?_, hlast, hlast', ?_, hτ,
    fits_moved hstack hleaves, fun cut hcut => halone _ (hcuts cut hcut),
    fun cut hcut hnested g => ?_⟩
  · show (m'.rule.parts.map Prod.snd).zip (Match.cuts σ.tight m'.ends) = _
    rw [htight, ← h.rule_eq, List.zip_map_right]
    rfl
  · simp only [Grammar.apply, h.rule_eq]
  · have hmem : (.nested, looseText cut.2) ∈ m.parts σ.loose := by
      rw [hparts, ← hnested]
      exact List.mem_map_of_mem hcut
    exact settled_of_nested (nested_firstMatch hσ.hash_not_mem.1 hm hmem) g

/-- **A step at a character goes the same way in both readings.** -/
theorem step_near {stack : List Mode} {a b : Option Char} {g : Stage} {c : Char} {gs : List Glyph}
    (hσ : Spot.Sound ⟨a, b, g, .kept c :: gs⟩) (hstack : Fits stack ⟨a, b, g, .kept c :: gs⟩)
    (hquoted : kernelGrammar.top stack ≠ .string → Quoted ⟨a, b, g, .kept c :: gs⟩) :
    ∃ cuts τ, StepNear cuts τ (kernelGrammar.step stack a c (looseText gs))
      (kernelGrammar.step stack b c (tightText gs)) := by
  have hnear := selection_near hσ rfl hstack hquoted
  rw [Grammar.step_eq_settle, Grammar.step_eq_settle]
  change SelectionNear _ (kernelGrammar.selection stack c ⟨a, c :: looseText gs⟩)
    (kernelGrammar.selection stack c ⟨b, c :: tightText gs⟩) at hnear
  generalize kernelGrammar.selection stack c ⟨a, c :: looseText gs⟩ = sel at hnear ⊢
  generalize kernelGrammar.selection stack c ⟨b, c :: tightText gs⟩ = sel' at hnear ⊢
  obtain ⟨stack₁, m⟩ := sel
  obtain ⟨stack₂, m'⟩ := sel'
  obtain ⟨hstacks, htidy, hne, hrel, hmode⟩ := hnear
  obtain rfl : stack₁ = stack₂ := hstacks
  cases hrel with
  | @some m m' h =>
    obtain ⟨mode, hm⟩ := hmode m rfl
    exact apply_near htidy hσ hm h
  | none =>
    have hhead : Spot.Sound ⟨a, b, g, [.kept c] ++ gs⟩ := hσ
    refine ⟨[(.token .other, [.kept c])], ⟨some c, some c, g.next c, gs⟩, rfl, rfl, rfl, rfl, rfl,
      hσ.kept, ⟨htidy, fun hnil => absurd hnil (hne rfl)⟩, ?_, ?_⟩
    · exact List.forall_mem_singleton.mpr ⟨g, hhead.alone⟩
    · exact List.forall_mem_singleton.mpr nofun

/-! ### Quotes that begin nothing -/

/-- A quote by itself. -/
def stray : Lexeme := ⟨.other, ['\'']⟩

/-- The rules that fail where a character follows, whatever is behind it. -/
def failAt (x : Char) (rs : List (Rule Mode)) : Bool :=
  rs.all fun r => !takesAt (some x) (row (r.parts.map Prod.fst)) &&
    (row (r.parts.map Prod.fst)).consumes

theorem match?_of_failAt {x : Char} {rs : List (Rule Mode)} (h : failAt x rs = true)
    (prev : Option Char) (t : List Char) : ∀ r ∈ rs, r.match? ⟨prev, x :: t⟩ = none := by
  intro r hr
  have hr := List.all_eq_true.mp h r hr
  rw [Bool.and_eq_true, Bool.not_eq_eq_eq_not, Bool.not_true] at hr
  exact match?_of_not_takesAt hr.1 hr.2

/-- No comment or white space begins with the character. -/
theorem match?_spacing_of_failAt {x : Char} (hx : x ≠ '#') (h : failAt x (spacing.drop 4) = true)
    (prev : Option Char) {t : List Char} (ht : '#' ∉ t) :
    ∀ r ∈ spacing, r.match? ⟨prev, x :: t⟩ = none := by
  rw [← List.take_append_drop 4 spacing, List.forall_mem_append]
  refine ⟨match?_directive_eq_none ?_, match?_of_failAt h prev t⟩
  exact List.not_mem_cons_of_ne_of_not_mem (Ne.symm hx) ht

/-- The modes in which statements are read. -/
def isPlainMode : Mode → Bool
  | .top | .statement | .body => true
  | _ => false

/-- Behind a quote that begins no character literal there is none, nor is there behind a mark before
it. -/
theorem match?_charLiteral_eq_none (prev : Option Char) {t : List Char}
    (hnone : Pattern.ends quotedPatterns ⟨some '\'', t⟩ = none) :
    charLiteral.match? ⟨prev, '\'' :: t⟩ = none ∧
      charLiteral.match? ⟨prev, 'L' :: '\'' :: t⟩ = none := by
  have hquote : Pattern.ends (charLiteral.parts.map Prod.fst) ⟨prev, '\'' :: t⟩ = none := by
    show ((Pattern.ends quotedPatterns ⟨some '\'', t⟩).map (⟨some '\'', t⟩ :: ·)).map
      (⟨prev, '\'' :: t⟩ :: ·) = none
    rw [hnone]
    rfl
  have hmark : Pattern.ends (charLiteral.parts.map Prod.fst) ⟨prev, 'L' :: '\'' :: t⟩ = none := by
    refine (Pattern.run_alt ..).trans ?_
    show (((Pattern.ends quotedPatterns ⟨some '\'', t⟩).map (⟨some '\'', t⟩ :: ·)).map
      (⟨some 'L', '\'' :: t⟩ :: ·)).or none = none
    rw [hnone]
    rfl
  rw [Rule.match?, Rule.match?, hquote, hmark]
  exact ⟨rfl, rfl⟩

/-- **A quote that begins no character literal stands by itself.** -/
theorem firstMatch_quote {mode : Mode} (hmode : isPlainMode mode = true) (prev : Option Char)
    {t : List Char} (ht : '#' ∉ t) (hnone : Pattern.ends quotedPatterns ⟨some '\'', t⟩ = none) :
    kernelGrammar.firstMatch mode ⟨prev, '\'' :: t⟩ = none := by
  have hspacing := match?_spacing_of_failAt (x := '\'') (by decide) (by decide) prev ht
  have hliteral := (match?_charLiteral_eq_none prev hnone).1
  have hstatements : ∀ r ∈ statements, r.match? ⟨prev, '\'' :: t⟩ = none := by
    have hothers : ∀ r ∈ statements.take 1 ++ statements.drop 2,
        r.match? ⟨prev, '\'' :: t⟩ = none :=
      match?_of_failAt (by decide) prev t
    obtain ⟨hfirst, hrest⟩ := List.forall_mem_append.mp hothers
    show ∀ r ∈ statements.take 1 ++ charLiteral :: statements.drop 2, _
    exact List.forall_mem_append.mpr ⟨hfirst, List.forall_mem_cons.mpr ⟨hliteral, hrest⟩⟩
  have hmarks : ∀ {us : List (Rule Mode)}, failAt '\'' us = true →
      ∀ r ∈ us, r.match? ⟨prev, '\'' :: t⟩ = none := fun hus => match?_of_failAt hus prev t
  refine List.findSome?_eq_none_iff.mpr ?_
  cases mode with
  | top => exact List.forall_mem_append.mpr ⟨hspacing, hmarks (by decide)⟩
  | statement =>
    exact List.forall_mem_append.mpr ⟨List.forall_mem_append.mpr ⟨hspacing, hstatements⟩,
      hmarks (by decide)⟩
  | body =>
    exact List.forall_mem_append.mpr ⟨List.forall_mem_append.mpr ⟨hspacing, hstatements⟩,
      hmarks (by decide)⟩
  | string | directive | disabled => cases hmode

/-- The mode that a plain mode falls back on is plain. -/
theorem select_plain {stack : List Mode} (hstack : isPlainMode (kernelGrammar.top stack) = true)
    {s : Place} {m : Option (Match Mode)} (htop : kernelGrammar.firstMatch .top s = none)
    (hstatement : kernelGrammar.firstMatch .statement s = m)
    (hbody : kernelGrammar.firstMatch .body s = m) :
    ∃ stack', kernelGrammar.select stack s = (stack', m) ∧
      isPlainMode (kernelGrammar.top stack') = true := by
  unfold Grammar.select
  cases hmode : kernelGrammar.top stack with
  | top =>
    rw [htop]
    exact ⟨.statement :: stack, by rw [← hstatement]; rfl, rfl⟩
  | statement =>
    rw [hstatement]
    cases m with
    | none => exact ⟨stack, rfl, hstack⟩
    | some m => exact ⟨stack, rfl, hstack⟩
  | body =>
    rw [hbody]
    cases m with
    | none => exact ⟨stack, rfl, hstack⟩
    | some m => exact ⟨stack, rfl, hstack⟩
  | string | directive | disabled => simp [hmode, isPlainMode] at hstack

theorem stray_mem_lex {stack : List Mode} (hstack : isPlainMode (kernelGrammar.top stack) = true)
    (prev : Option Char) {t : List Char} (ht : '#' ∉ t)
    (hnone : Pattern.ends quotedPatterns ⟨some '\'', t⟩ = none) :
    stray ∈ kernelGrammar.lex 0 stack ⟨prev, '\'' :: t⟩ := by
  obtain ⟨stack', hselect, -⟩ := select_plain hstack (firstMatch_quote rfl prev ht hnone)
    (firstMatch_quote rfl prev ht hnone) (firstMatch_quote rfl prev ht hnone)
  have hstep : kernelGrammar.step stack prev '\'' t = Grammar.skip stack' '\'' t := by
    unfold Grammar.step
    dsimp only
    rw [hselect]
    exact if_neg fun h => absurd h.1 (by decide)
  rw [Grammar.lex_cons, if_neg (by simp), hstep]
  exact List.mem_append_left _ List.mem_cons_self

/-- The mark before a quote that begins no character literal is a name. -/
theorem firstMatch_mark {rs : List (Rule Mode)} (prev : Option Char) {t : List Char}
    (hnone : Pattern.ends quotedPatterns ⟨some '\'', t⟩ = none) :
    (spacing ++ statements ++ rs).findSome? (·.match? ⟨prev, 'L' :: '\'' :: t⟩) =
      some ⟨.token .identifier name, [⟨some 'L', '\'' :: t⟩]⟩ := by
  let s : Place := ⟨prev, 'L' :: '\'' :: t⟩
  have hliteral : charLiteral.match? s = none := (match?_charLiteral_eq_none prev hnone).2
  have hcall : (Rule.token .identifier (wordEdge ++ name ++ .ahead (blanks ++ char '(')) :
      Rule Mode).match? s = none := by
    have hends : Pattern.ends [wordEdge ++ name ++ .ahead (blanks ++ char '(')] s =
        if (prev.any Text.isWord != true) = true then none else none := rfl
    rw [ite_self] at hends
    rw [match?_token_eq_none_iff rfl]
    exact congrArg Option.isSome hends
  have hname : (Rule.token .identifier name : Rule Mode).match? s =
      some ⟨.token .identifier name, [⟨some 'L', '\'' :: t⟩]⟩ := by
    show (if ('\'' :: t).length < ('L' :: '\'' :: t).length then some _ else none) = _
    rw [if_pos (by simp)]
  have hbefore : ∀ r ∈ spacing ++ statements.take 18, r.match? s = none := by
    refine List.forall_mem_append.mpr ⟨match?_spacing_eq_none rfl, ?_⟩
    show ∀ r ∈ _ :: charLiteral :: ((statements.drop 2).take 14 ++ [_, _]), Rule.match? r s = none
    simp only [List.forall_mem_cons, List.forall_mem_append]
    exact ⟨rfl, hliteral, match?_of_failAt (by decide) prev _, rfl, hcall, List.forall_mem_nil _⟩
  refine List.findSome?_eq_some_iff.mpr ⟨spacing ++ statements.take 18, _, rs, ?_, hname, hbefore⟩
  simp only [List.append_assoc]
  rfl

/-- **Where no quote stands by itself, every quote begins a character literal.** -/
theorem quoted_of_stray_not_mem {stack : List Mode}
    (hstack : isPlainMode (kernelGrammar.top stack) = true) {σ : Spot} (hσ : σ.Sound)
    (h : stray ∉ kernelGrammar.lex 0 stack σ.loose) : Quoted σ := by
  obtain ⟨a, b, g, gs⟩ := σ
  have hhash : '#' ∉ looseText gs := hσ.hash_not_mem.1
  change stray ∉ kernelGrammar.lex 0 stack ⟨a, looseText gs⟩ at h
  intro t ht
  change looseText gs = _ ∨ looseText gs = _ at ht
  refine Option.isSome_iff_ne_none.mpr fun hnone => h ?_
  obtain ht | ht := ht
  · rw [ht] at hhash ⊢
    exact stray_mem_lex hstack a (List.not_mem_of_not_mem_cons hhash) hnone
  · -- the mark is read as a name, and then the quote stands by itself
    rw [ht] at hhash ⊢
    have htop : kernelGrammar.firstMatch .top ⟨a, 'L' :: '\'' :: t⟩ = none := by
      refine List.findSome?_eq_none_iff.mpr (List.forall_mem_append.mpr
        ⟨match?_spacing_eq_none rfl, ?_⟩)
      simp only [List.forall_mem_cons]
      exact ⟨rfl, rfl, nofun⟩
    obtain ⟨stack', hselect, hstack'⟩ := select_plain hstack htop (firstMatch_mark a hnone)
      (firstMatch_mark a hnone)
    have hstep : kernelGrammar.step stack a 'L' ('\'' :: t) =
        kernelGrammar.apply stack' ⟨.token .identifier name, [⟨some 'L', '\'' :: t⟩]⟩
          ⟨a, 'L' :: '\'' :: t⟩ := by
      unfold Grammar.step
      dsimp only
      rw [hselect]
    rw [Grammar.lex_cons, if_neg (by simp), hstep]
    have hrest : '#' ∉ t := fun hmem => hhash (by simp [hmem])
    exact List.mem_append_right _ (stray_mem_lex hstack' (some 'L') hrest hnone)

/-! ### Dropped spaces -/

/-- Where a run of a class ends. -/
def endOf (c : Char → Bool) : Option Char → List Char → Place
  | prev, [] => ⟨prev, []⟩
  | prev, x :: t => if c x then endOf c (some x) t else ⟨prev, x :: t⟩

theorem runMany_eq_endOf (c : Char → Bool) (prev : Option Char) (t : List Char) :
    Pattern.runMany c (fun e => some [e]) prev t = some [endOf c prev t] := by
  induction t generalizing prev with
  | nil => rfl
  | cons x t ih =>
    rw [Pattern.runMany_cons, endOf]
    split
    · rw [ih, Option.some_or]
    · rfl

theorem length_endOf_le (c : Char → Bool) (prev : Option Char) (t : List Char) :
    (endOf c prev t).rest.length ≤ t.length := by
  induction t generalizing prev with
  | nil => exact Nat.le_refl _
  | cons x t ih =>
    rw [endOf]
    split
    · exact Nat.le_succ_of_le (ih (some x))
    · exact Nat.le_refl _

/-- A run of a class, from a character of it on. -/
theorem match?_run {kind : Kind} {c : Char → Bool} {x : Char} (hx : c x = true)
    (prev : Option Char) (t : List Char) :
    (Rule.token kind (Pattern.many1 c) : Rule Mode).match? ⟨prev, x :: t⟩ =
      some ⟨.token kind (Pattern.many1 c), [endOf c (some x) t]⟩ := by
  have hends : Pattern.ends [Pattern.many1 c] ⟨prev, x :: t⟩ = some [endOf c (some x) t] := by
    show (if c x = true then Pattern.runMany c (fun e => some [e]) (some x) t else none) = _
    rw [if_pos hx, runMany_eq_endOf]
  have hlt := Nat.lt_succ_of_le (length_endOf_le c (some x) t)
  simp only [Rule.match?, Rule.token, List.map_cons, List.map_nil, hends]
  exact if_pos hlt

/-- In the mode on top of the stack the characters of the class are read in runs. -/
def ReadsRuns (stack : List Mode) (kind : Kind) (c : Char → Bool) : Prop :=
  ∀ prev x t, c x = true → x ≠ '\n' → '#' ∉ t →
    kernelGrammar.firstMatch (kernelGrammar.top stack) ⟨prev, x :: t⟩ =
      some ⟨.token kind (Pattern.many1 c), [endOf c (some x) t]⟩

theorem readsRuns_blank {stack : List Mode}
    (hstack : isPlainMode (kernelGrammar.top stack) = true) :
    ReadsRuns stack .other Text.isBlank := by
  intro prev x t hx hlf ht
  have hhash : x ≠ '#' := by
    rintro rfl
    exact absurd hx (by decide)
  have hlineFeed : (Rule.token .other (char '\n') : Rule Mode).match? ⟨prev, x :: t⟩ = none :=
    match?_of_not_takesAt (by simp [row, Rule.token, takesAt, char, hlf]) (by decide)
  have hbefore : ∀ r ∈ spacing.take 4 ++ [.token .other (char '\n')],
      Rule.match? r ⟨prev, x :: t⟩ = none := by
    refine List.forall_mem_append.mpr ⟨match?_directive_eq_none ?_, ?_⟩
    · exact List.not_mem_cons_of_ne_of_not_mem (Ne.symm hhash) ht
    · exact List.forall_mem_singleton.mpr hlineFeed
  have hspacing : ∀ us : List (Rule Mode), (spacing ++ us).findSome? (·.match? ⟨prev, x :: t⟩) =
      some ⟨.token .other (Pattern.many1 Text.isBlank), [endOf Text.isBlank (some x) t]⟩ := by
    intro us
    refine List.findSome?_eq_some_iff.mpr ⟨spacing.take 4 ++ [.token .other (char '\n')], _,
      spacing.drop 6 ++ us, ?_, match?_run hx prev t, hbefore⟩
    simp only [List.append_assoc]
    rfl
  cases hmode : kernelGrammar.top stack with
  | top => exact hspacing _
  | statement => exact (congrArg (List.findSome? _) (List.append_assoc ..)).trans (hspacing _)
  | body => exact (congrArg (List.findSome? _) (List.append_assoc ..)).trans (hspacing _)
  | string | directive | disabled => simp [hmode, isPlainMode] at hstack

theorem readsRuns_string {stack : List Mode} (hstack : kernelGrammar.top stack = .string) :
    ReadsRuns stack .literal (noneOf "\\\"\n") := by
  intro prev x t hx hlf ht
  rw [hstack]
  have hne : x ≠ '"' ∧ x ≠ '\\' := by
    constructor
    all_goals
      rintro rfl
      exact absurd hx (by decide)
  refine List.findSome?_eq_some_iff.mpr ⟨(rules .string).take 2, _, (rules .string).drop 3, rfl,
    match?_run hx prev t, ?_⟩
  show ∀ r ∈ [_, _], Rule.match? r ⟨prev, x :: t⟩ = none
  simp only [List.forall_mem_cons]
  refine ⟨match?_of_not_takesAt ?_ (by decide), match?_of_not_takesAt ?_ (by decide), nofun⟩
  · simp [row, Rule.token, takesAt, char, hne.1]
  · have hescape : takesAt (some x) (char '\\') = false := beq_eq_false_iff_ne.mpr hne.2
    show ((takesAt (some x) (char '\\') || (!true && _)) || (!true && _)) = false
    rw [hescape]
    rfl

/-- The names among lexemes, in order. -/
def names (ls : List Lexeme) : List (List Char) :=
  (ls.filter fun l => decide (l.kind = .identifier)).map Lexeme.text

@[simp] theorem names_append (ls ms : List Lexeme) : names (ls ++ ms) = names ls ++ names ms := by
  simp [names]

theorem names_cons_of_ne {l : Lexeme} (h : l.kind ≠ .identifier) (ls : List Lexeme) :
    names (l :: ls) = names ls := by
  simp [names, h]

/-- A step that takes a run. -/
theorem lex_run {stack : List Mode} {kind : Kind} {c : Char → Bool}
    (hruns : ReadsRuns stack kind c) {x : Char} (hx : c x = true) (hlf : x ≠ '\n') {t : List Char}
    (ht : '#' ∉ t) (prev : Option Char) :
    ∃ v, kernelGrammar.lex 0 stack ⟨prev, x :: t⟩ =
      ⟨kind, x :: v⟩ :: kernelGrammar.lex 0 stack (endOf c (some x) t) := by
  have htake : (x :: t).take ((x :: t).length - (endOf c (some x) t).rest.length) =
      x :: t.take (t.length - (endOf c (some x) t).rest.length) := by
    rw [List.length_cons, Nat.succ_sub (length_endOf_le c (some x) t), List.take_succ_cons]
  have hselect : kernelGrammar.select stack ⟨prev, x :: t⟩ =
      (stack, some ⟨.token kind (Pattern.many1 c), [endOf c (some x) t]⟩) := by
    rw [Grammar.select, hruns prev x t hx hlf ht]
  have hstep : kernelGrammar.step stack prev x t =
      ⟨[(.token kind, (x :: t).take ((x :: t).length - (endOf c (some x) t).rest.length))], stack,
        endOf c (some x) t⟩ := by
    unfold Grammar.step
    dsimp only
    rw [hselect]
    rfl
  refine ⟨t.take (t.length - (endOf c (some x) t).rest.length), ?_⟩
  rw [Grammar.lex_cons, if_neg (by simp), hstep, htake]
  rfl

/-- **A dropped space can be left out** where it is part of a run: the names are the same, and no
other quotes stand by themselves. -/
theorem lex_space {stack : List Mode} {kind : Kind} {c : Char → Bool}
    (hruns : ReadsRuns stack kind c) (hspace : c ' ' = true) (hkind : kind ≠ .identifier)
    (hquote : ∀ x v, c x = true → stray ≠ ⟨kind, x :: v⟩) {t : List Char} (ht : '#' ∉ t)
    (hlf : t.head? ≠ some '\n') (prev : Option Char) :
    names (kernelGrammar.lex 0 stack ⟨prev, ' ' :: t⟩) =
        names (kernelGrammar.lex 0 stack ⟨some ' ', t⟩) ∧
      (stray ∈ kernelGrammar.lex 0 stack ⟨some ' ', t⟩ →
        stray ∈ kernelGrammar.lex 0 stack ⟨prev, ' ' :: t⟩) := by
  obtain ⟨v, hv⟩ := lex_run hruns hspace (by decide) ht prev
  rw [hv, names_cons_of_ne hkind]
  match t, ht, hlf with
  | [], _, _ => exact ⟨rfl, List.mem_cons_of_mem _⟩
  | x :: t, ht, hlf =>
    cases hx : c x with
    | false =>
      have hend : endOf c (some ' ') (x :: t) = ⟨some ' ', x :: t⟩ := by simp [endOf, hx]
      rw [hend]
      exact ⟨rfl, List.mem_cons_of_mem _⟩
    | true =>
      -- the run goes on
      have hend : endOf c (some ' ') (x :: t) = endOf c (some x) t := by simp [endOf, hx]
      obtain ⟨w, hw⟩ := lex_run hruns hx (fun h => hlf (by rw [h]; rfl))
        (List.not_mem_of_not_mem_cons ht) (some ' ')
      rw [hend, hw, names_cons_of_ne hkind]
      refine ⟨rfl, fun hmem => List.mem_cons_of_mem _ ?_⟩
      exact (List.mem_cons.mp hmem).resolve_left (hquote x w hx)

/-! ### All steps -/

theorem names_flatMap_congr {α : Type} {f h : α → List Lexeme} {xs : List α}
    (heq : ∀ x ∈ xs, names (f x) = names (h x)) : names (xs.flatMap f) = names (xs.flatMap h) := by
  induction xs with
  | nil => rfl
  | cons x xs ih =>
    obtain ⟨hx, hxs⟩ := List.forall_mem_cons.mp heq
    rw [List.flatMap_cons, List.flatMap_cons, names_append, names_append, hx, ih hxs]

/-- A part that is lexed on its own is shorter than what the step begins with. -/
theorem length_nested_lt {stack : List Mode} {prev : Option Char} {c : Char} {rest v : List Char}
    (hv : (.nested, v) ∈ (kernelGrammar.step stack prev c rest).parts) :
    v.length < (c :: rest).length := by
  obtain ⟨kind, t, hlast, hne⟩ :=
    kernelGrammar.getLast?_step kernelGrammar_endsInToken stack prev c rest
  obtain ⟨parts, hparts⟩ := List.getLast?_eq_some_iff.mp hlast
  have hflatten := congrArg List.length (kernelGrammar.flatten_step stack prev c rest)
  rw [hparts] at hv hflatten
  have hmem : v ∈ parts.map Prod.snd := by
    obtain hv | hv := List.mem_append.mp hv
    · exact List.mem_map_of_mem (f := Prod.snd) hv
    · cases List.mem_singleton.mp hv
  have hle := (List.sublist_flatten_of_mem hmem).length_le
  have hpos := List.length_pos_iff.mpr hne
  simp only [List.map_append, List.flatten_append, List.length_append, List.map_cons, List.map_nil,
    List.flatten_cons, List.flatten_nil, List.append_nil] at hflatten
  omega

/-- Word characters are not dropped. -/
theorem tightText_of_isWord {gs : List Glyph} (h : ∀ x ∈ looseText gs, Text.isWord x = true) :
    tightText gs = looseText gs := by
  refine tightText_eq_looseText fun hgone => ?_
  have hword := h ' ' (List.mem_map_of_mem (f := Glyph.loose) hgone)
  exact absurd hword (by decide)

/-- The lexemes of both readings from the spot on have the same names in the same order, if no quote
of the loose text stands by itself. -/
def NamesAgree (σ : Spot) : Prop :=
  ∀ stack, Fits stack σ → stray ∉ kernelGrammar.lex 0 stack σ.loose →
    names (kernelGrammar.lex 0 stack σ.loose) = names (kernelGrammar.lex 0 stack σ.tight)

/-- A stack without a string on top is in a plain mode. -/
theorem Tidy.isPlainMode {stack : List Mode} (h : Tidy stack)
    (hstring : kernelGrammar.top stack ≠ .string) :
    isPlainMode (kernelGrammar.top stack) = true := by
  cases h with
  | nil => rfl
  | statement => rfl
  | body => rfl
  | stringInStatement => exact absurd rfl hstring
  | stringInBody => exact absurd rfl hstring

theorem namesAgree_gone {a b : Option Char} {g : Stage} {gs : List Glyph}
    (hσ : Spot.Sound ⟨a, b, g, .gone :: gs⟩) (h : NamesAgree ⟨some ' ', b, g, gs⟩) :
    NamesAgree ⟨a, b, g, .gone :: gs⟩ := by
  intro stack hstack hstray
  have hfits : Fits stack ⟨some ' ', b, g, gs⟩ :=
    ⟨hstack.tidy, fun h => lasting_settled.passes hσ (hstack.settled h)⟩
  have hhash : '#' ∉ looseText gs := hσ.gone.hash_not_mem.1
  have hlf : (looseText gs).head? ≠ some '\n' := by
    obtain rfl | ⟨y, hs, rfl, hy⟩ := hσ.gone_cases
    · nofun
    · exact fun h => hy (Option.some.inj h)
  have hspace : names (kernelGrammar.lex 0 stack ⟨a, ' ' :: looseText gs⟩) =
        names (kernelGrammar.lex 0 stack ⟨some ' ', looseText gs⟩) ∧
      (stray ∈ kernelGrammar.lex 0 stack ⟨some ' ', looseText gs⟩ →
        stray ∈ kernelGrammar.lex 0 stack ⟨a, ' ' :: looseText gs⟩) := by
    by_cases hstring : kernelGrammar.top stack = .string
    · exact lex_space (readsRuns_string hstring) (by decide) nofun nofun hhash hlf a
    · refine lex_space (readsRuns_blank (hstack.tidy.isPlainMode hstring)) (by decide) nofun
        (fun x v hx => ?_) hhash hlf a
      rintro ⟨⟩
      exact absurd hx (by decide)
  exact hspace.1.trans (h stack hfits (mt hspace.2 hstray))

/-- A part of a step has the same names in both readings. -/
theorem names_partLexemes {action : Action} {gs : List Glyph} {n n' : Nat}
    (hword : action = .token .identifier → ∀ x ∈ looseText gs, Text.isWord x = true)
    (hlt : action = .nested → (looseText gs).length < n ∧ (tightText gs).length < n')
    (hagree : action = .nested → stray ∉ kernelGrammar.lex 0 [] ⟨none, looseText gs⟩ →
      names (kernelGrammar.lex 0 [] ⟨none, looseText gs⟩) =
        names (kernelGrammar.lex 0 [] ⟨none, tightText gs⟩))
    (hstray : stray ∉ kernelGrammar.partLexemes n (action, looseText gs)) :
    names (kernelGrammar.partLexemes n (action, looseText gs)) =
      names (kernelGrammar.partLexemes n' (action, tightText gs)) := by
  cases action with
  | token kind =>
    by_cases hkind : kind = .identifier
    · obtain rfl := hkind
      rw [tightText_of_isWord (hword rfl)]
      rfl
    · exact (names_cons_of_ne hkind []).trans (names_cons_of_ne hkind []).symm
  | nested =>
    obtain ⟨hloose, htight⟩ := hlt rfl
    simp only [Grammar.partLexemes, if_pos hloose, if_pos htight] at hstray ⊢
    exact hagree rfl hstray

theorem namesAgree_kept {a b : Option Char} {g : Stage} {c : Char} {gs : List Glyph}
    (hσ : Spot.Sound ⟨a, b, g, .kept c :: gs⟩)
    (ih : ∀ τ : Spot, τ.Sound → τ.glyphs.length < (Glyph.kept c :: gs).length → NamesAgree τ) :
    NamesAgree ⟨a, b, g, .kept c :: gs⟩ := by
  intro stack hstack hstray
  have hquoted : kernelGrammar.top stack ≠ .string → Quoted ⟨a, b, g, .kept c :: gs⟩ := fun h =>
    quoted_of_stray_not_mem (hstack.tidy.isPlainMode h) hσ hstray
  obtain ⟨cuts, τ, hnear⟩ := step_near hσ hstack hquoted
  change stray ∉ kernelGrammar.lex 0 stack ⟨a, c :: looseText gs⟩ at hstray
  show names (kernelGrammar.lex 0 stack ⟨a, c :: looseText gs⟩) =
    names (kernelGrammar.lex 0 stack ⟨b, c :: tightText gs⟩)
  rw [Grammar.lex_cons, if_neg (by simp), List.mem_append, not_or] at hstray
  rw [Grammar.lex_cons, Grammar.lex_cons, if_neg (by simp), if_neg (by simp), names_append,
    names_append]
  -- the steps that follow and the parts of this one are all shorter, so that `ih` is about them
  have hlater : names (kernelGrammar.lex 0 (kernelGrammar.step stack a c (looseText gs)).stack
        (kernelGrammar.step stack a c (looseText gs)).next) =
      names (kernelGrammar.lex 0 (kernelGrammar.step stack b c (tightText gs)).stack
        (kernelGrammar.step stack b c (tightText gs)).next) := by
    have hlt := kernelGrammar.step_lt stack a c (looseText gs)
    rw [hnear.next_loose] at hlt hstray
    rw [hnear.next_loose, hnear.next_tight, hnear.stack_eq]
    refine ih τ hnear.sound ?_ _ hnear.fits hstray.2
    simpa [Spot.loose] using hlt
  have hparts : ∀ cut ∈ cuts,
      names (kernelGrammar.partLexemes (c :: looseText gs).length (cut.1, looseText cut.2)) =
        names (kernelGrammar.partLexemes (c :: tightText gs).length (cut.1, tightText cut.2)) := by
    intro cut hcut
    have hloose : (cut.1, looseText cut.2) ∈
        (kernelGrammar.step stack a c (looseText gs)).parts := by
      rw [hnear.parts_loose]
      exact List.mem_map_of_mem hcut
    have htight : (cut.1, tightText cut.2) ∈
        (kernelGrammar.step stack b c (tightText gs)).parts := by
      rw [hnear.parts_tight]
      exact List.mem_map_of_mem hcut
    refine names_partLexemes (fun hid => ?_) (fun hnested => ?_) (fun hnested hstray => ?_) ?_
    · rw [hid] at hloose
      exact isWord_of_identifier_mem_step hloose
    · rw [hnested] at hloose htight
      exact ⟨length_nested_lt hloose, length_nested_lt htight⟩
    · rw [hnested] at hloose
      obtain ⟨stage, halone⟩ := hnear.alone cut hcut
      refine ih ⟨none, none, stage, cut.2⟩ halone ?_ []
        ⟨.nil, fun _ => hnear.settled cut hcut hnested stage⟩ hstray
      simpa using length_nested_lt hloose
    · exact fun hmem => hstray.1 (List.mem_flatMap.mpr ⟨_, hloose, hmem⟩)
  rw [hlater, hnear.parts_loose, hnear.parts_tight, List.flatMap_map, List.flatMap_map,
    names_flatMap_congr hparts]

/-- **Both readings have the same names in the same order**, if no quote of the loose text stands by
itself. -/
theorem namesAgree {σ : Spot} (hσ : σ.Sound) : NamesAgree σ := by
  obtain ⟨a, b, g, gs⟩ := σ
  induction hn : gs.length using Nat.strongRecOn generalizing a b g gs with
  | ind n ih =>
    match gs, hσ with
    | [], _ =>
      intro stack _ _
      rw [Spot.loose, Spot.tight, looseText_nil, tightText_nil, Grammar.lex_nil, Grammar.lex_nil]
    | .gone :: gs, hσ =>
      exact namesAgree_gone hσ (ih gs.length (by simp [← hn]) _ _ _ _ hσ.gone rfl)
    | .kept c :: gs, hσ =>
      exact namesAgree_kept hσ fun τ hτ hlt => ih τ.glyphs.length (hn ▸ hlt) _ _ _ _ hτ rfl

end KernelPack.Lexis.Spaced
