import KernelPack.Proofs.Lexis.Leading

/-!
# Words with a rule of their own

Some words are not mere identifiers: keywords, type names and a few constants have rules of their
own. Their patterns take word characters only and look at word edges (`Spelling`), so whether one
applies depends on the word alone and not on what stands around it (`Spelling.isSome_run`). Hence a
word is **plain** (`isPlain`) if no such rule applies to it before a quote, and then none applies to
it anywhere (`match?_token_of_isPlain`). The quote is there for the mark of wide literals, which is
an identifier everywhere else.
-/

namespace KernelPack.Lexis

open KernelGrammar

/-- Is the word a mere identifier? No rule for statements applies to it but the last one, which
takes any name, even if a quote follows. -/
def isPlain (w : List Char) : Bool :=
  statements.dropLast.all fun r => (r.match? ⟨none, w ++ ['"']⟩).isNone

/-- The pattern takes word characters only and looks at nothing but the edges of words. -/
inductive Spelling : Pattern → Prop
  | empty : Spelling .empty
  | one {c : Char → Bool} (hc : ∀ x, c x = true → Text.isWord x = true) : Spelling (.one c)
  | many {c : Char → Bool} (hc : ∀ x, c x = true → Text.isWord x = true) : Spelling (.many c)
  | seq {p q : Pattern} (hp : Spelling p) (hq : Spelling q) : Spelling (p ++ q)
  | alt {p q : Pattern} (hp : Spelling p) (hq : Spelling q) : Spelling (.alt p q)
  | wordEdge : Spelling wordEdge

namespace Spelling

variable {p : Pattern}

theorem text {t : String} (h : t.toList.all Text.isWord = true) :
    Spelling (Pattern.text t) := by
  unfold Pattern.text
  replace h := List.all_eq_true.mp h
  generalize t.toList = cs at h
  induction cs with
  | nil => exact .empty
  | cons x cs ih =>
    obtain ⟨hx, hcs⟩ := List.forall_mem_cons.mp h
    exact .seq (.one fun y hy => beq_iff_eq.mp hy ▸ hx) (ih hcs)

theorem choice {ps : List Pattern} (hne : ps ≠ []) (h : ∀ p ∈ ps, Spelling p) :
    Spelling (Pattern.choice ps) := by
  induction ps with
  | nil => exact absurd rfl hne
  | cons p ps ih =>
    obtain ⟨hp, hps⟩ := List.forall_mem_cons.mp h
    cases ps with
    | nil => exact hp
    | cons => exact .alt hp (ih (by simp) hps)

theorem words {ws : List String} (hne : ws ≠ [])
    (h : ws.all (·.toList.all Text.isWord) = true) : Spelling (Pattern.words ws) := by
  refine choice (by simpa using hne) fun p hp => ?_
  obtain ⟨w, hw, rfl⟩ := List.mem_map.mp hp
  exact text (List.all_eq_true.mp h w hw)

/-- Where no swapped word comes, a spelling sees the same on both sides, and none comes after it. -/
theorem leads (hp : Spelling p) : Leads .nothing StartsKept p StartsKept := by
  have hguard : ∀ x, Text.isWord x = true → guards x = true := fun x hx => by simp [guards, hx]
  induction hp with
  | empty => exact .empty fun _ h => h
  | one hc => exact .one_kept_guard fun x hx => hguard x (hc x hx)
  | many hc => exact .many_kept fun x hx => hguard x (hc x hx)
  | seq _ _ ihp ihq => exact ihp.seq ihq
  | alt _ _ ihp ihq => exact ihp.alt ihq
  | wordEdge => exact .wordEdge fun _ h => h

/-- The text goes on with something other than a word. -/
def NoWord (t : List Char) : Prop := ∀ x ∈ t.head?, Text.isWord x = false

/-- A class of word characters is not found where there is no word. -/
theorem NoWord.eq_false {t : List Char} (ht : NoWord t) {c : Char → Bool}
    (hc : ∀ x, c x = true → Text.isWord x = true) {x : Char} (hx : x ∈ t.head?) :
    c x = false := by
  cases hcx : c x with
  | false => rfl
  | true => exact absurd ((hc x hcx).symm.trans (ht x hx)) (by decide)

theorem run_one_of_noWord {c : Char → Bool} (hc : ∀ x, c x = true → Text.isWord x = true)
    {t : List Char} (ht : NoWord t) {α : Type} (k : Place → Option α) (a : Option Char) :
    (Pattern.one c).run k ⟨a, t⟩ = none := by
  cases t with
  | nil => rfl
  | cons x t => simp [Pattern.run, ht.eq_false hc rfl]

theorem runMany_of_noWord {c : Char → Bool} (hc : ∀ x, c x = true → Text.isWord x = true)
    {t : List Char} (ht : NoWord t) {α : Type} (k : Place → Option α) (a : Option Char) :
    Pattern.runMany c k a t = k ⟨a, t⟩ := by
  cases t with
  | nil => rfl
  | cons x t => simp [Pattern.runMany_cons, ht.eq_false hc rfl]

theorem any_isWord_head? {t : List Char} (ht : NoWord t) : t.head?.any Text.isWord = false := by
  cases t with
  | nil => rfl
  | cons x t => exact ht x rfl

/-- **What a spelling makes of a word depends on the word alone**: not on what comes after it, and
of what comes before it only on whether that is a word. -/
theorem isSome_run (hp : Spelling p) {t t' : List Char} (ht : NoWord t) (ht' : NoWord t')
    {α β : Type} {k : Place → Option α} {k' : Place → Option β}
    (hk : ∀ u a a', (∀ x ∈ u, Text.isWord x = true) → a.any Text.isWord = a'.any Text.isWord →
      (k ⟨a, u ++ t⟩).isSome = (k' ⟨a', u ++ t'⟩).isSome)
    {u : List Char} {a a' : Option Char} (hu : ∀ x ∈ u, Text.isWord x = true)
    (ha : a.any Text.isWord = a'.any Text.isWord) :
    (p.run k ⟨a, u ++ t⟩).isSome = (p.run k' ⟨a', u ++ t'⟩).isSome := by
  induction hp generalizing α β u a a' with
  | empty => exact hk u a a' hu ha
  | one hc =>
    cases u with
    | nil =>
      rw [List.nil_append, List.nil_append, run_one_of_noWord hc ht, run_one_of_noWord hc ht']
      rfl
    | cons x u =>
      simp only [Pattern.run, List.cons_append]
      split
      · exact hk u _ _ (List.forall_mem_cons.mp hu).2 rfl
      · rfl
  | many hc =>
    simp only [Pattern.run]
    induction u generalizing a a' with
    | nil =>
      rw [List.nil_append, List.nil_append, runMany_of_noWord hc ht, runMany_of_noWord hc ht']
      exact hk [] a a' hu ha
    | cons x u ih =>
      have hhere := hk (x :: u) a a' hu ha
      simp only [List.cons_append] at hhere ⊢
      rw [Pattern.runMany_cons, Pattern.runMany_cons]
      split
      · rw [Option.isSome_or, Option.isSome_or, hhere, ih (List.forall_mem_cons.mp hu).2 rfl]
      · exact hhere
  | seq _ _ ihp ihq => exact ihp (fun u a a' hu ha => ihq hk hu ha) hu ha
  | alt _ _ ihp ihq =>
    rw [Pattern.run_alt, Pattern.run_alt, Option.isSome_or, Option.isSome_or, ihp hk hu ha,
      ihq hk hu ha]
  | wordEdge =>
    have hhead : (u ++ t).head?.any Text.isWord = (u ++ t').head?.any Text.isWord := by
      cases u with
      | nil => rw [List.nil_append, List.nil_append, any_isWord_head? ht, any_isWord_head? ht']
      | cons x u => rfl
    simp only [KernelGrammar.wordEdge, Pattern.run, ha, hhead]
    split
    · exact hk u a a' hu ha
    · rfl

end Spelling

/-- A rule with one part that takes something matches where its pattern does. -/
theorem match?_token_eq_none_iff {μ : Type} {kind : Kind} {p : Pattern} {move : Move μ} {s : Place}
    (hp : p.consumes = true) :
    (Rule.token kind p move).match? s = none ↔
      (p.run (fun e => some [e]) s).isSome = false := by
  have hends : Pattern.ends [p] s = p.run (fun e => some [e]) s := rfl
  unfold Rule.match?
  simp only [Rule.token, List.map_cons, List.map_nil, hends]
  cases hrun : p.run (fun e => some [e]) s with
  | none => simp
  | some es =>
    obtain ⟨e, -, hlt, he⟩ := Pattern.run_eq_some hrun
    obtain rfl := Option.some.inj he
    simp [hlt hp]

/-- **A rule of its own does not apply to a plain word**, wherever the word stands. -/
theorem match?_token_of_isPlain {kind : Kind} {p : Pattern} {move : Move Mode}
    (hmem : Rule.token kind p move ∈ statements.dropLast) (hspell : Spelling p)
    (hconsumes : p.consumes = true) {w : List Char} (hplain : isPlain w = true)
    (hw : ∀ x ∈ w, Text.isWord x = true) {t : List Char} (ht : Spelling.NoWord t)
    {a : Option Char} (ha : a.any Text.isWord = false) :
    (Rule.token kind p move).match? ⟨a, w ++ t⟩ = none := by
  have halone : (Rule.token kind p move).match? ⟨none, w ++ ['"']⟩ = none := by
    simpa using List.all_eq_true.mp hplain _ hmem
  rw [match?_token_eq_none_iff hconsumes] at halone ⊢
  rw [← halone]
  refine hspell.isSome_run ht ?_ (fun _ _ _ _ _ => rfl) hw (by rw [ha]; rfl)
  intro x hx
  obtain rfl := Option.some.inj hx
  decide

end KernelPack.Lexis
