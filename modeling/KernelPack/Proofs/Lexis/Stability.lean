import KernelPack.Proofs.Lexis.Spelling

/-!
# The kernel grammar on two versions of a text

Each rule of the kernel grammar matches two versions of a text alike (`Stable`), given what it takes
for that rule:

* most rules need **nothing**: they do not look into words, or take identifiers as they come;
* the rules for words need the swapped words to be **plain** (`PlainHead`);
* the rules for numbers need that a number with a point does **not run on** into a swapped word
  (`NumberSafe`);
* the rules for literals need that the swapped word does not mark a literal, and the rule for
  included files that no swapped word comes (`StartsKept`).
-/

namespace KernelPack.Lexis

open KernelGrammar

/-! ### Matches beside each other -/

theorem Apart.ne_nil {p : Piece} {ps : List Piece} (h : Apart (p :: ps)) :
    p.old ≠ [] ∧ p.new ≠ [] := by
  cases p with
  | kept c => exact ⟨by simp [Piece.old], by simp [Piece.new]⟩
  | swapped w w' =>
    obtain ⟨⟨⟨x, t, rfl, -⟩, -⟩, ⟨⟨y, u, rfl, -⟩, -⟩, -⟩ := h
    exact ⟨by simp [Piece.old], by simp [Piece.new]⟩

/-- Something is taken in one version exactly if something is taken in the other. -/
theorem Apart.length_lt_iff {qs ps : List Piece} (h : Apart ps) (hqs : qs <:+ ps) :
    ((olds qs).length < (olds ps).length ↔ qs.length < ps.length) ∧
      ((news qs).length < (news ps).length ↔ qs.length < ps.length) := by
  obtain ⟨rs, rfl⟩ := hqs
  cases rs with
  | nil => simp
  | cons r rs =>
    obtain ⟨hold, hnew⟩ := Apart.ne_nil h
    have hold := List.length_pos_iff.mpr hold
    have hnew := List.length_pos_iff.mpr hnew
    simp only [List.cons_append, olds, news, List.flatMap_cons, List.flatMap_append,
      List.length_append, List.length_cons]
    omega

/-- The texts between places beside each other are the two versions of the same pieces. -/
theorem EndsBeside.exists_cuts {ps : List Piece} {es es' : List Place}
    (h : EndsBeside ps es es') {s s' : Place} (hb : Beside ps s s') :
    ∃ (qss : List (List Piece)) (qs : List Piece), ps = qss.flatten ++ qs ∧
      Match.cuts s es = qss.map olds ∧
      Match.cuts s' es' = qss.map news ∧
      Beside qs (es.getLast?.getD s) (es'.getLast?.getD s') := by
  induction h generalizing s s' with
  | nil ps => exact ⟨[], ps, rfl, rfl, rfl, hb⟩
  | @cons ps qs e e' es es' hqs he _ ih =>
    obtain ⟨rs, rfl⟩ := hqs
    obtain ⟨qss, last, rfl, hold, hnew, hlast⟩ := ih he
    refine ⟨rs :: qss, last, by simp, ?_, ?_, ?_⟩
    · simp [Match.cuts, hold, hb.rest_old, he.rest_old]
    · simp [Match.cuts, hnew, hb.rest_new, he.rest_new]
    · rw [List.getLast?_cons, List.getLast?_cons]
      exact hlast

/-- The same rule matches on both sides, up to places beside each other. -/
structure MatchBeside (ps : List Piece) (m m' : Match Mode) : Prop where
  rule_eq : m.rule = m'.rule
  ends_beside : EndsBeside ps m.ends m'.ends

/-- **The rule matches both versions of a text alike**, from places whose pieces satisfy `P`. -/
def Stable (P : List Piece → Prop) (r : Rule Mode) : Prop :=
  ∀ ps s s', Beside ps s s' → P ps → Option.Rel (MatchBeside ps) (r.match? s) (r.match? s')

theorem stable_of_leadsAll {P : List Piece → Prop} {r : Rule Mode}
    (h : LeadsAll P (r.parts.map Prod.fst)) : Stable P r := by
  intro ps s s' hb hP
  have hends := h ps s s' hb hP
  unfold Rule.match?
  generalize Pattern.ends (r.parts.map Prod.fst) s = es at hends ⊢
  generalize Pattern.ends (r.parts.map Prod.fst) s' = es' at hends ⊢
  cases hends with
  | none => exact .none
  | @some es es' h =>
    obtain ⟨qss, qs, rfl, -, -, hlast⟩ := h.exists_cuts hb
    obtain ⟨hold, hnew⟩ := hb.apart.length_lt_iff (List.suffix_append qss.flatten qs)
    simp only [hlast.rest_old, hlast.rest_new, hb.rest_old, hb.rest_new, hold, hnew]
    split
    · exact .some ⟨rfl, h⟩
    · exact .none

/-- A rule with one part. -/
theorem stable_token {P Q : List Piece → Prop} {kind : Kind} {p : Pattern} {move : Move Mode}
    (h : Leads .succeeds P p Q) : Stable P (.token kind p move) :=
  stable_of_leadsAll (.last h)

theorem Stable.mono {P P' : List Piece → Prop} {r : Rule Mode} (h : Stable P r)
    (hP : ∀ ps, P' ps → P ps) : Stable P' r :=
  fun ps s s' hb hP' => h ps s s' hb (hP ps hP')

/-! ### White space and comments -/

/-- No word character is white space. -/
theorem isBlank_of_isWord (x : Char) (hx : Text.isWord x = true) : Text.isBlank x = false := by
  have hblank : ∀ n ∈ List.range' 9 5 ++ [0x20, 0x85, 0xA0, 0x1680] ++ List.range' 0x2000 11
      ++ [0x2028, 0x2029, 0x202F, 0x205F, 0x3000], Text.isWord (Char.ofNat n) = false := by
    decide +kernel
  refine Bool.eq_false_iff.mpr fun h => ?_
  have hword := hblank x.toNat (by
    simp only [Text.isBlank, Bool.or_eq_true, Bool.and_eq_true, decide_eq_true_eq, beq_iff_eq] at h
    simp only [List.mem_append, List.mem_range'_1, List.mem_cons, List.not_mem_nil, or_false]
    omega)
  rw [Char.ofNat_toNat, hx] at hword
  cases hword

theorem isWord_of_isNameStart {x : Char} (hx : isNameStart x = true) : Text.isWord x = true :=
  isWord_of_isLatin x (isLatin_of_isNameStart hx)

theorem isBlank_of_isNameStart (x : Char) (hx : isNameStart x = true) : Text.isBlank x = false :=
  isBlank_of_isWord x (isWord_of_isNameStart hx)

theorem leads_blanks : Leads .nothing Anything blanks Anything :=
  .many_plain isBlank_of_isNameStart

theorem inLine_of_isLatin : ∀ x, isLatin x = true → inLine x = true :=
  forall_isLatin (by decide)

theorem leads_switchOff : Leads .nothing Anything switchOff Anything := by
  have hif : Leads .nothing Anything (Pattern.text "#if") StartsKept :=
    .text_guard rfl (by decide) (by decide)
  have hblank : Leads .nothing StartsKept (Pattern.many1 Text.isBlank) Anything :=
    (Leads.many1_plain isBlank_of_isNameStart).mono (fun _ _ => trivial) fun _ h => h
  exact (hif.seq hblank).seq (.char_plain (by decide))

/-- A comment within the line. -/
theorem leads_shortComment : Leads .nothing Anything
    (Pattern.text "/*" ++ .few inLine ++ Pattern.text "*/" ++ blanks) Anything := by
  have hopen : Leads .nothing Anything (Pattern.text "/*") Anything := .text_plain (by decide)
  have hclose : Leads .nothing Anything (Pattern.text "*/") Anything := .text_plain (by decide)
  have hbar : Barred (Pattern.text "*/") := (Barred.char (by decide)).seq
  exact ((hopen.seq (.few_through inLine_of_isLatin)).seq_barred hclose hbar).seq leads_blanks

theorem leads_indentation : Leads .nothing Anything indentation Anything :=
  ((Leads.lineStart fun _ h => h).seq leads_blanks).seq (leads_shortComment.opt fun _ h => h)

theorem leads_splice : Leads .nothing Anything splice Anything := .text_plain (by decide)

/-- A line comment ends at a line feed without a backslash before it: taking a last character other
than a backslash is looking back at it. -/
theorem run_commentEnd {α : Type} (k : Place → Option α) (s : Place) :
    (Pattern.few anyChar ++ .one (noneOf "\\") ++ char '\n').run k s =
      (Pattern.few1 anyChar ++ (.notAfter (· == '\\') ++ char '\n')).run k s := by
  obtain ⟨prev, rest⟩ := s
  let taking : Place → Option α := (Pattern.one (noneOf "\\")).run ((char '\n').run k)
  let looking : Place → Option α := (Pattern.notAfter (· == '\\')).run ((char '\n').run k)
  have hsame : ∀ prev x rest, taking ⟨prev, x :: rest⟩ = looking ⟨some x, rest⟩ := by
    intro prev x rest
    by_cases hx : x = '\\'
    · simp [taking, looking, Pattern.run, noneOf, oneOf, hx]
    · simp [taking, looking, Pattern.run, noneOf, oneOf, hx]
  show Pattern.runFew anyChar taking prev rest =
    (Pattern.one anyChar).run ((Pattern.few anyChar).run looking) ⟨prev, rest⟩
  induction rest generalizing prev with
  | nil => rfl
  | cons x rest ih =>
    have hany : anyChar x = true := rfl
    rw [Pattern.runFew_cons, hsame, if_pos hany, ih]
    cases rest with
    | nil => exact Option.or_none
    | cons y rest =>
      show _ = Pattern.runFew anyChar looking (some x) (y :: rest)
      rw [Pattern.runFew_cons]
      rfl

theorem leads_lineComment : Leads .nothing Anything
    (Pattern.text "//" ++ Pattern.choice
      [char '\n', .few anyChar ++ .one (noneOf "\\") ++ char '\n']) Anything := by
  have hopen : Leads .nothing Anything (Pattern.text "//") Anything := .text_plain (by decide)
  have hline : Leads .nothing Anything (char '\n') Anything := .char_plain (by decide)
  have hback : Leads .nothing Anything (.notAfter (· == '\\')) Anything :=
    .notAfter (forall_isLatin (v := false) (by decide)) fun _ h => h
  have hrest : Leads .nothing Anything
      (Pattern.few anyChar ++ .one (noneOf "\\") ++ char '\n') Anything := by
    have hfew : Leads .nothing Anything
        (Pattern.few1 anyChar ++ (.notAfter (· == '\\') ++ char '\n')) Anything :=
      (Leads.few1_through fun _ _ => rfl).seq_barred (hback.seq hline)
        ((Barred.char (by decide)).idle_seq .notAfter)
    intro α β all R k k' hk hk' hagree ps s s' hps hb hP
    rw [run_commentEnd, run_commentEnd]
    exact hfew hk hk' hagree ps s s' hps hb hP
  refine hopen.seq (.choice ?_)
  simp only [List.forall_mem_cons]
  exact ⟨hline, hrest, nofun⟩

/-- The beginning of a comment over several lines. -/
theorem leads_commentStart :
    Leads .nothing Anything (char '/' ++ .opt splice ++ char '*') Anything :=
  ((Leads.char_plain (by decide)).seq (leads_splice.opt fun _ h => h)).seq (.char_plain (by decide))

/-- Comments over several lines. -/
theorem leads_comment : Leads .nothing Anything
    (char '/' ++ .opt splice ++ char '*' ++ .few anyChar ++ char '*' ++ .opt splice ++ char '/')
    Anything := by
  have hinner := leads_commentStart.seq (Leads.few_through (c := anyChar) fun _ _ => rfl)
  have hstar := hinner.seq_barred (.char_plain (by decide)) (Barred.char (x := '*') (by decide))
  exact (hstar.seq (leads_splice.opt fun _ h => h)).seq (.char_plain (by decide))

/-- **Spacing, comments and the beginnings of directives are told alike.** -/
theorem stable_spacing : ∀ r ∈ spacing, Stable Anything r := by
  have hline : Leads .nothing Anything .lineStart Anything := .lineStart fun _ h => h
  simp only [spacing, List.forall_mem_cons]
  refine ⟨?_, ?_, ?_, ?_, ?_, ?_, ?_, ?_, ?_, ?_, nofun⟩
  · exact stable_token (hline.seq leads_switchOff).of_nothing
  · exact stable_token (hline.seq (.char_plain (by decide))).of_nothing
  · exact stable_of_leadsAll (.cons leads_indentation (.last leads_switchOff.of_nothing))
  · exact stable_of_leadsAll
      (.cons leads_indentation (.last (Leads.char_plain (by decide)).of_nothing))
  · exact stable_token (Leads.char_plain (by decide)).of_nothing
  · exact stable_token (Leads.many1_plain isBlank_of_isNameStart).of_nothing
  · exact stable_token leads_splice.of_nothing
  · exact stable_token leads_lineComment.of_nothing
  · exact stable_token leads_comment.of_nothing
  · exact stable_token (leads_commentStart.seq (.many_through (fun _ _ => rfl) nofun))

/-! ### Numbers -/

/-- Digits of every script are word characters. -/
theorem isWord_of_isDigit {x : Char} (h : Text.isDigit x = true) : Text.isWord x = true := by
  have hranges : Text.digitRanges.all (fun r =>
      Text.wordRanges.any fun r' => Nat.ble r'.1 r.1 && Nat.ble r.2 r'.2) = true := by
    decide +kernel
  unfold Text.isDigit at h
  unfold Text.isWord
  dsimp only at h ⊢
  split
  · rename_i hn
    rw [if_pos hn] at h
    simp [Char.isAlphanum, h]
  · rename_i hn
    rw [if_neg hn, Text.inRanges, List.any_eq_true] at h
    obtain ⟨r, hr, hin⟩ := h
    obtain ⟨r', hr', hle⟩ := List.any_eq_true.mp (List.all_eq_true.mp hranges r hr)
    simp only [Bool.and_eq_true, decide_eq_true_eq, Nat.ble_eq] at hin hle
    have hword : Text.inRanges Text.wordRanges x.toNat = true := by
      refine List.any_eq_true.mpr ⟨r', hr', ?_⟩
      simp only [Bool.and_eq_true, decide_eq_true_eq]
      omega
    simp [hword]

theorem guards_of_isWord {x : Char} (h : Text.isWord x = true) : guards x = true := by
  simp [guards, h]

theorem guards_of_isDigit (x : Char) (h : Text.isDigit x = true) : guards x = true :=
  guards_of_isWord (isWord_of_isDigit h)

theorem isDigit_of_isNameStart : ∀ x, isNameStart x = true → Text.isDigit x = false :=
  forall_isNameStart (by decide)

/-- The digits that follow, and a point after them, do not run on into a swapped word. -/
def PointSafe : List Piece → Prop
  | .kept x :: ps => if Text.isDigit x then PointSafe ps else x = '.' → StartsKept ps
  | _ => True

/-- A number that follows does not run on into a swapped word. -/
def NumberSafe : List Piece → Prop
  | .kept x :: ps => Text.isDigit x = true → PointSafe ps
  | _ => True

theorem leads_digits : Leads .nothing Anything (Pattern.many1 Text.isDigit) StartsKept :=
  (Leads.one_guard isDigit_of_isNameStart guards_of_isDigit).seq (.many_kept guards_of_isDigit)

/-- **A fraction comes to an end before a swapped word.** -/
theorem leads_fraction {whole : Pattern} (hwhole : Leads .nothing Anything whole StartsKept) :
    Leads .nothing NumberSafe (fraction whole) StartsKept := by
  have hany : ∀ {p : Pattern}, Leads .nothing Anything p StartsKept →
      Leads .nothing NumberSafe p StartsKept :=
    fun h => h.mono (fun _ _ => trivial) fun _ h => h
  have hfirst : Leads .nothing NumberSafe (.one Text.isDigit) PointSafe :=
    .one (fun x ps _ hP hx => hP hx) (Or.inl isDigit_of_isNameStart)
  have hmore : Leads .nothing PointSafe (.many Text.isDigit) PointSafe := by
    refine .many (fun x ps _ hP hx => ?_) (Or.inl isDigit_of_isNameStart)
    rwa [PointSafe, if_pos hx] at hP
  have hpoint : Leads .nothing PointSafe (char '.') StartsKept := by
    refine .one (fun x ps _ hP hx => ?_) (Or.inl (forall_isNameStart (by decide)))
    obtain rfl := beq_iff_eq.mp hx
    exact hP rfl
  refine .choice ?_
  simp only [List.forall_mem_cons]
  refine ⟨?_, hany ?_, hany hwhole, nofun⟩
  · exact ((hfirst.seq hmore).seq hpoint).seq (.many_kept guards_of_isDigit)
  · exact (Leads.char_plain (by decide)).seq leads_digits

theorem guards_of_oneOf {t : String} (h : t.toList.all guards = true) (x : Char)
    (hx : oneOf t x = true) : guards x = true :=
  List.all_eq_true.mp h x (List.contains_iff_mem.mp hx)

/-- Marks of numbers are letters, so no swapped word comes after them. -/
theorem leads_mark {t : String} (h : t.toList.all guards = true) :
    Leads .nothing StartsKept (.one (oneOf t)) StartsKept :=
  .one_kept_guard (guards_of_oneOf h)

theorem leads_marks : Leads .nothing StartsKept marks StartsKept :=
  .many_kept (guards_of_oneOf (by decide))

/-- The digits of numbers and escapes are ASCII word characters. -/
theorem guards_of_isHexDigit (x : Char) (h : isHexDigit x = true) : guards x = true := by
  have hascii : x.toNat < 128 := by
    simp only [isHexDigit, Char.isDigit, Bool.or_eq_true, Bool.and_eq_true,
      decide_eq_true_eq] at h
    have hle : x.toNat ≤ 102 := by
      obtain (⟨-, h⟩ | ⟨-, h⟩) | ⟨-, h⟩ := h
      · exact Nat.le_trans (show x.toNat ≤ 57 from h) (by decide)
      · exact h
      · exact Nat.le_trans (show x.toNat ≤ 70 from h) (by decide)
    omega
  exact forall_ascii (P := fun x => isHexDigit x = true → guards x = true) (by decide) hascii h

theorem guards_of_isOctalDigit (x : Char) (h : isOctalDigit x = true) : guards x = true := by
  refine guards_of_isHexDigit x ?_
  simp only [isOctalDigit, Bool.and_eq_true, decide_eq_true_eq] at h
  have hdigit : x.isDigit = true := by
    simp only [Char.isDigit, Bool.and_eq_true, decide_eq_true_eq]
    exact ⟨h.1, Nat.le_trans (show x.toNat ≤ 55 from h.2) (by decide)⟩
  simp [isHexDigit, hdigit]

/-- The rules for numbers. -/
theorem leads_exponent : Leads .nothing NumberSafe
    (fraction (Pattern.many1 Text.isDigit) ++ .one (oneOf "eE") ++ .opt (.one (oneOf "+-"))
      ++ Pattern.many1 Text.isDigit ++ marks) StartsKept := by
  have hmark := (leads_fraction leads_digits).seq (leads_mark (t := "eE") (by decide))
  have hsign : Leads .nothing StartsKept (Pattern.opt (.one (oneOf "+-"))) Anything :=
    .opt .one_kept fun _ _ => trivial
  exact ((hmark.seq hsign).seq leads_digits).seq leads_marks

theorem leads_float : Leads .nothing NumberSafe
    (fraction (Pattern.many1 Text.isDigit ++ .one (oneOf "fF")) ++ .opt (.one (oneOf "fF")))
    StartsKept := by
  have hmark : Leads .nothing StartsKept (.one (oneOf "fF")) StartsKept := leads_mark (by decide)
  exact (leads_fraction (leads_digits.seq hmark)).seq (hmark.opt fun _ h => h)

theorem leads_hexadecimal : Leads .nothing Anything
    (Pattern.text "0x" ++ Pattern.many1 isHexDigit ++ marks) StartsKept := by
  have hstart : Leads .nothing Anything (Pattern.text "0x") StartsKept :=
    .text_guard rfl (by decide) (by decide)
  have hdigits : Leads .nothing StartsKept (Pattern.many1 isHexDigit) StartsKept :=
    (Leads.one_kept_guard guards_of_isHexDigit).seq (.many_kept guards_of_isHexDigit)
  exact (hstart.seq hdigits).seq leads_marks

theorem leads_octal : Leads .nothing Anything
    (char '0' ++ Pattern.many1 isOctalDigit ++ marks) StartsKept := by
  have hdigits : Leads .nothing StartsKept (Pattern.many1 isOctalDigit) StartsKept :=
    (Leads.one_kept_guard guards_of_isOctalDigit).seq (.many_kept guards_of_isOctalDigit)
  exact ((Leads.char_guard (by decide) (by decide)).seq hdigits).seq leads_marks

/-! ### Literals -/

/-- Up to so many digits of an escape. -/
theorem leads_upTo {c : Char → Bool} (hc : ∀ x, c x = true → guards x = true) (n : Nat) :
    Leads .nothing StartsKept (Pattern.upTo c n) StartsKept := by
  induction n with
  | zero => exact .empty fun _ h => h
  | succ n ih => exact ((Leads.one_kept_guard hc).seq ih).opt fun _ h => h

theorem leads_exactly {c : Char → Bool} (hc : ∀ x, c x = true → guards x = true) (n : Nat) :
    Leads .nothing StartsKept (Pattern.exactly c n) StartsKept := by
  induction n with
  | zero => exact .empty fun _ h => h
  | succ n ih => exact (Leads.one_kept_guard hc).seq ih

/-- What comes after a swapped word is not said. -/
theorem Leads.anything {d : Demand} {P Q : List Piece → Prop} {p : Pattern} (h : Leads d P p Q) :
    Leads d P p Anything :=
  h.mono (fun _ h => h) fun _ _ => trivial

theorem leads_quotedChar : Leads .nothing StartsKept quotedChar Anything := by
  have hescape : Leads .nothing StartsKept (char '\\') StartsKept := .char_kept_guard (by decide)
  have hoctal : Leads .nothing StartsKept (.one isOctalDigit) StartsKept :=
    .one_kept_guard guards_of_isOctalDigit
  have hhex : Leads .nothing StartsKept (.one isHexDigit) StartsKept :=
    .one_kept_guard guards_of_isHexDigit
  refine .choice ?_
  simp only [List.forall_mem_cons]
  refine ⟨?_, ?_, ?_, ?_, nofun⟩
  · exact hescape.seq .one_kept
  · exact ((hescape.seq hoctal).seq (leads_upTo guards_of_isOctalDigit 2)).anything
  · have hmark : Leads .nothing StartsKept (Pattern.text "\\x") StartsKept :=
      .text_kept (by decide)
    exact ((hmark.seq hhex).seq (leads_upTo guards_of_isHexDigit 1)).anything
  · exact .one_kept

/-- No literal begins with a name, unless the name is the mark of wide literals. -/
theorem ends_mark_eq_none {q : Char} (hq : isLatin q = false) {w : List Char} (hw : IsName w)
    (hmark : w ≠ ['L']) (patterns : List Pattern) (a : Option Char) (t : List Char) :
    Pattern.ends (.opt (char 'L') :: char q :: patterns) ⟨a, w ++ t⟩ = none := by
  obtain ⟨⟨x, v, rfl, -⟩, hlatin⟩ := hw
  let quote : Place → Option (List Place) :=
    fun e => (Pattern.ends (char q :: patterns) e).map (e :: ·)
  have hquote : ∀ prev y u, isLatin y = true → quote ⟨prev, y :: u⟩ = none := by
    intro prev y u hy
    have hne : y ≠ q := fun heq => by simp [← heq, hy] at hq
    simp [quote, Pattern.ends, char, Pattern.run, hne]
  have hunmarked : Pattern.empty.run quote ⟨a, x :: v ++ t⟩ = none :=
    hquote a x _ (hlatin x List.mem_cons_self)
  show (Pattern.alt (char 'L') .empty).run quote ⟨a, x :: v ++ t⟩ = none
  rw [Pattern.run_alt, hunmarked, Option.or_none]
  show (if (x == 'L') = true then quote ⟨some x, v ++ t⟩ else none) = none
  split
  · rename_i hL
    obtain rfl := beq_iff_eq.mp hL
    cases v with
    | nil => exact absurd rfl hmark
    | cons y v => exact hquote _ y _ (hlatin y (by simp))
  · rfl

/-! ### Words -/

/-- A swapped word that follows is plain in both versions. -/
def PlainHead : List Piece → Prop
  | .swapped w w' :: _ => isPlain w = true ∧ isPlain w' = true
  | _ => True

/-- The mark of wide literals is not plain. -/
theorem ne_mark_of_isPlain {w : List Char} (h : isPlain w = true) : w ≠ ['L'] := by
  rintro rfl
  revert h
  decide

theorem EndsWord.noWord {ps : List Piece} (h : EndsWord ps) :
    Spelling.NoWord (olds ps) ∧ Spelling.NoWord (news ps) := by
  match ps, h with
  | [], _ => exact ⟨nofun, nofun⟩
  | .kept x :: ps, h =>
    exact ⟨fun _ hy => Option.some.inj hy ▸ h, fun _ hy => Option.some.inj hy ▸ h⟩

/-- A rule that tells both versions alike where no swapped word comes, and that applies to no plain
word, tells them alike if the swapped words are plain. -/
theorem stable_of_none {r : Rule Mode} (hkept : Stable StartsKept r)
    (hnone : ∀ w a t, IsName w → isPlain w = true → Spelling.NoWord t →
      a.any Text.isWord = false → r.match? ⟨a, w ++ t⟩ = none) : Stable PlainHead r := by
  intro ps s s' hb hP
  match ps, hb, hP with
  | [], hb, _ => exact hkept _ s s' hb trivial
  | .kept _ :: _, hb, _ => exact hkept _ s s' hb trivial
  | .swapped w w' :: ps, hb, ⟨hplain, hplain'⟩ =>
    obtain ⟨hw, hw', hends, -⟩ := hb.apart
    have hprev : s.prev.any Text.isWord = false := by
      rw [Option.any_eq_false]
      intro x hx
      exact Bool.eq_false_iff.mpr fun hword => hb.guarded x hx (guards_of_isWord hword)
    have hprev' : s'.prev.any Text.isWord = false := by
      rw [← hb.prev.any_eq isWord_of_isLatin, hprev]
    have hold : s = ⟨s.prev, w ++ olds ps⟩ := by rw [← olds_swapped, ← hb.rest_old]
    have hnew : s' = ⟨s'.prev, w' ++ news ps⟩ := by rw [← news_swapped, ← hb.rest_new]
    rw [hold, hnew, hnone w _ _ hw hplain hends.noWord.1 hprev,
      hnone w' _ _ hw' hplain' hends.noWord.2 hprev']
    exact .none

/-- A rule for the beginning of a literal: no plain word marks one. -/
theorem stable_literal {r : Rule Mode} {q : Char} {patterns : List Pattern}
    (hr : r.parts.map Prod.fst = .opt (char 'L') :: char q :: patterns) (hq : isLatin q = false)
    (hrest : LeadsAll StartsKept (char q :: patterns)) : Stable PlainHead r := by
  have hmark : Leads .nothing StartsKept (Pattern.opt (char 'L')) StartsKept :=
    .opt (.char_kept_guard (by decide)) fun _ h => h
  refine stable_of_none (stable_of_leadsAll (hr ▸ .cons hmark hrest)) fun w a t hw hplain _ _ => ?_
  rw [Rule.match?, hr, ends_mark_eq_none hq hw (ne_mark_of_isPlain hplain)]

/-- A rule for certain words: no plain word is one of them. -/
theorem stable_spelling {kind : Kind} {p : Pattern} {move : Move Mode}
    (hmem : Rule.token kind p move ∈ statements.dropLast) (hspell : Spelling p)
    (hconsumes : p.consumes = true) : Stable PlainHead (.token kind p move) :=
  stable_of_none (stable_token hspell.leads.of_nothing) fun _ _ _ hw hplain ht ha =>
    match?_token_of_isPlain hmem hspell hconsumes hplain
      (fun x hx => isWord_of_isLatin x (hw.isLatin_of_mem x hx)) ht ha

theorem isWord_of_lower {x : Char} (h : ('a' ≤ x && x ≤ 'z') = true) : Text.isWord x = true := by
  have hlower : x.isLower = true := h
  have halpha : x.isAlpha = true := Bool.or_eq_true_iff.mpr (.inr hlower)
  exact isWord_of_isLatin x (isLatin_of_isNameStart (Bool.or_eq_true_iff.mpr (.inl halpha)))

theorem spelling_typeName : Spelling typeName := by
  have hsuffix : Spelling (Pattern.text "_t") := .text (by decide)
  have hopt : ∀ {p : Pattern}, Spelling p → Spelling (Pattern.opt p) := fun h => .alt h .empty
  refine .alt (.seq (.choice (by simp) ?_) .wordEdge) ?_
  · simp only [List.forall_mem_cons]
    refine ⟨.words (by decide) (by decide), ?_, .words (by decide) (by decide), ?_, nofun⟩
    · exact .seq (.text (by decide)) (hopt (.seq (.words (by decide) (by decide)) hsuffix))
    · have hwidth : Spelling (Pattern.choice [.text "_fast", .text "_least", .empty]) := by
        refine .choice (by simp) ?_
        simp only [List.forall_mem_cons]
        exact ⟨.text (by decide), .text (by decide), .empty, nofun⟩
      have hstart : Spelling (Pattern.opt (char 'u') ++ Pattern.text "int") :=
        .seq (hopt (.one fun x hx => beq_iff_eq.mp hx ▸ (by decide))) (.text (by decide))
      exact .seq (.seq (.seq hstart hwidth) (.words (by decide) (by decide))) hsuffix
  · have hname : Spelling (wordEdge ++ .one (fun c => 'a' ≤ c && c ≤ 'z') ++ .many Text.isWord) :=
      .seq (.seq .wordEdge (.one fun _ => isWord_of_lower)) (.many fun _ h => h)
    exact .seq (.seq hname hsuffix) .wordEdge

/-- One of several words, up to the end of the word. -/
theorem spelling_words {ws : List String} (hne : ws ≠ [])
    (h : ws.all (·.toList.all Text.isWord) = true) :
    Spelling (Pattern.words ws ++ wordEdge) :=
  .seq (.words hne h) .wordEdge

/-! ### Identifiers -/

theorem leads_name {d : Demand} (hd : d ≠ .nothing) : Leads d Anything name Anything :=
  .one_many_through hd (fun _ h => h) isWord_of_isLatin

theorem barred_blanks {x : Char} (hx : Text.isWord x = false) : Barred (blanks ++ char x) :=
  .idle_seq (.many isBlank_of_isWord) (.char hx)

/-- **The parts of statements are told alike** if the swapped words are plain and numbers do not run
on into them. -/
theorem stable_statements :
    ∀ r ∈ statements, Stable (fun ps => PlainHead ps ∧ NumberSafe ps) r := by
  have hany : ∀ {r}, Stable Anything r → Stable (fun ps => PlainHead ps ∧ NumberSafe ps) r :=
    fun h => h.mono fun _ _ => trivial
  have hnumber : ∀ {r}, Stable NumberSafe r → Stable (fun ps => PlainHead ps ∧ NumberSafe ps) r :=
    fun h => h.mono fun _ h => h.2
  have hword : ∀ {r}, Stable PlainHead r → Stable (fun ps => PlainHead ps ∧ NumberSafe ps) r :=
    fun h => h.mono fun _ h => h.1
  have hlabel : Leads .nothing Anything (char ':' ++ .notAhead (char ':')) Anything :=
    (Leads.char_plain (by decide)).seq
      (.notAhead (Leads.char_plain (by decide)).of_nothing fun _ h => h)
  have hcall : Leads .nothing Anything (.ahead (blanks ++ char '(')) Anything :=
    .ahead (leads_blanks.seq (.char_plain (by decide))).of_nothing fun _ h => h
  have hquote : Leads .nothing StartsKept (char '\'') StartsKept := .char_kept_guard (by decide)
  simp only [statements, List.forall_mem_cons]
  refine ⟨?_, ?_, ?_, ?_, ?_, ?_, ?_, ?_, ?_, ?_, ?_, ?_, ?_, ?_, ?_, ?_, ?_, ?_, ?_, nofun⟩
  · exact hword (stable_literal rfl (by decide) (.last Leads.one_kept.of_nothing))
  · exact hword (stable_literal rfl (by decide) (.cons hquote (.cons leads_quotedChar
      (.last (Leads.char_plain (by decide)).of_nothing))))
  · exact hnumber (stable_token leads_exponent.of_nothing)
  · exact hnumber (stable_token leads_float.of_nothing)
  · exact hany (stable_token leads_hexadecimal.of_nothing)
  · exact hany (stable_token leads_octal.of_nothing)
  · exact hany (stable_token (leads_digits.seq leads_marks).of_nothing)
  · exact hany (stable_token (Leads.text_plain (by decide)).of_nothing)
  · exact hany (stable_token (Leads.one_plain (forall_isNameStart (by decide))).of_nothing)
  · exact hany (stable_token (Leads.one_plain (forall_isNameStart (by decide))).of_nothing)
  · exact hword (stable_spelling (List.mem_of_getElem? (i := 10) rfl)
      (spelling_words (by decide) (by decide)) (by decide))
  · exact hword (stable_spelling (List.mem_of_getElem? (i := 11) rfl) spelling_typeName (by decide))
  · exact hword (stable_spelling (List.mem_of_getElem? (i := 12) rfl)
      (spelling_words (by decide) (by decide)) (by decide))
  · exact hword (stable_spelling (List.mem_of_getElem? (i := 13) rfl)
      (.seq (.seq (.text (by decide)) (.words (by decide) (by decide))) .wordEdge) (by decide))
  · exact hword (stable_spelling (List.mem_of_getElem? (i := 14) rfl)
      (.seq (.seq (.text (by decide)) (.words (by decide) (by decide))) .wordEdge) (by decide))
  · exact hword (stable_spelling (List.mem_of_getElem? (i := 15) rfl)
      (spelling_words (by decide) (by decide)) (by decide))
  · exact hany (stable_of_leadsAll (.cons_barred (leads_name nofun)
      (.cons leads_blanks (.last hlabel.of_nothing))
      (.idle_cons (.many isBlank_of_isWord) (.cons (Barred.char (by decide)).seq _))))
  · have hname := (Leads.wordEdge fun _ h => h).seq (leads_name (d := .fails) nofun)
    exact hany (stable_token (hname.seq_barred hcall (barred_blanks (by decide)).ahead).of_nothing)
  · exact hany (stable_token (leads_name nofun))

/-! ### Function heads -/

/-- **The head of a function is found alike**, whatever its words are. -/
theorem stable_functionHead {c : Char → Bool} (hc : ∀ x, isLatin x = true → c x = true) {x : Char}
    (hx : Text.isWord x = false) {move : Move Mode} :
    Stable Anything ⟨functionHead (.many c) x, move⟩ := by
  have hend : isNameStart x = false :=
    Bool.eq_false_iff.mpr fun h => by simp [isWord_of_isNameStart h] at hx
  have hgap : Barred (.one fun c => Text.isBlank c || c == '*') := by
    refine .one fun x hx => ?_
    have hne : x ≠ '*' := by
      rintro rfl
      revert hx
      decide
    simp [isBlank_of_isWord x hx, hne]
  have hbefore : Leads .nothing Anything
      (Pattern.few1 (fun c => Text.isWord c || c == '*' || Text.isBlank c)
        ++ .one (fun c => Text.isBlank c || c == '*')) Anything :=
    (Leads.few1_through (forall_isLatin (by decide))).seq_barred
      (.one_plain (forall_isNameStart (by decide))) hgap
  have hparameters : Leads .nothing Anything
      (blanks ++ char '(' ++ .few (noneOf ";") ++ char ')') Anything :=
    ((leads_blanks.seq (.char_plain (by decide))).seq
      (.few_through (forall_isLatin (by decide)))).seq_barred (.char_plain (by decide))
        (.char (by decide))
  refine stable_of_leadsAll (.cons hbefore (.cons_barred (leads_name nofun) (.cons hparameters
    (.cons_barred (.many_through hc nofun) (.last (Leads.char_plain hend).of_nothing) ?_)) ?_))
  · exact .cons (.char hx) _
  · exact .cons (barred_blanks (by decide)).seq.seq _

end KernelPack.Lexis
