import KernelPack.Proofs.Kernel.LineFeeds
import KernelPack.Proofs.Lexis.Counting
import KernelPack.Proofs.Lexis.Tightening
import KernelPack.Proofs.Renaming.Structure
import KernelPack.Proofs.Source.Characters

/-!
# The identifiers reported

The list of the identifiers of a source is drawn up from the normalized text, but renaming sees the
compacted one. The two have the same identifiers, as often as each occurs
(`identifiers_compact_normalize`), as long as compaction brings nothing together that belongs apart
(`Lexis.Spaced.calm`) and no quote stands by itself.

The lexer's view of this is `Lexis.Spaced.namesAgree`. What is left to do here is to see that the
line feed at the end, at which no step begins and which the tokens lose again, is not part of an
identifier.
-/

namespace KernelPack

open Lexis (Lexeme Mode kernelGrammar)
open Lexis.Spaced (Spot calm looseText names namesAgree stray tightText)

/-! ### The line feed at the end -/

namespace Lexis.Spaced

/-- A line feed is neither a name nor a quote. -/
theorem ne_of_mem_lex_lf {stack : List Mode} {prev : Option Char} {l : Lexeme}
    (hl : l ∈ kernelGrammar.lex 0 stack ⟨prev, ['\n']⟩) : l.kind ≠ .identifier ∧ l ≠ stray := by
  have htext : ∀ x ∈ l.text, x = '\n' := by
    obtain ⟨left, hleft, -⟩ := kernelGrammar.exists_flatMap_lex 0 stack ⟨prev, ['\n']⟩
    intro x hx
    have hmem := List.mem_append_left left (List.mem_flatMap.mpr ⟨l, hl, hx⟩)
    rw [hleft] at hmem
    exact List.mem_singleton.mp hmem
  refine ⟨fun hid => ?_, ?_⟩
  · obtain ⟨x, t, ht⟩ := List.exists_cons_of_ne_nil (ne_nil_of_identifier_mem_lex hl hid)
    have hx : x ∈ l.text := by
      rw [ht]
      exact List.mem_cons_self
    have hword := isWord_of_identifier_mem_lex hl hid x hx
    rw [htext x hx] at hword
    exact absurd hword (by decide)
  · rintro rfl
    exact absurd (htext '\'' List.mem_cons_self) (by decide)

theorem names_eq_nil {ls : List Lexeme} (h : ∀ l ∈ ls, l.kind ≠ .identifier) : names ls = [] := by
  rw [names, List.map_eq_nil_iff, List.filter_eq_nil_iff]
  exact fun l hl => by simpa using h l hl

theorem lex_one_lf (stack : List Mode) (prev : Option Char) :
    kernelGrammar.lex 1 stack ⟨prev, ['\n']⟩ = [] := by
  rw [Grammar.lex_cons, if_pos (by decide)]

/-- **Holding back a line feed at the end** hides no name and no quote. -/
theorem exists_lex_zero_eq (stack : List Mode) (prev : Option Char) {text : List Char}
    (hlast : ∀ c ∈ text.getLast?, c = '\n') :
    ∃ more, kernelGrammar.lex 0 stack ⟨prev, text⟩ =
        kernelGrammar.lex 1 stack ⟨prev, text⟩ ++ more ∧ names more = [] ∧ stray ∉ more := by
  induction hn : text.length using Nat.strongRecOn generalizing stack prev text with
  | ind n ih =>
    cases text with
    | nil => exact ⟨[], by rw [Grammar.lex_nil, Grammar.lex_nil]; rfl, rfl, List.not_mem_nil⟩
    | cons c rest =>
      by_cases hone : (c :: rest).length ≤ 1
      · -- here the one lexer stops, and the other goes on over the line feed
        obtain rfl : rest = [] := by
          rw [List.length_cons] at hone
          exact List.length_eq_zero_iff.mp (by omega)
        obtain rfl : c = '\n' := hlast c rfl
        refine ⟨kernelGrammar.lex 0 stack ⟨prev, ['\n']⟩, ?_,
          names_eq_nil fun l hl => (ne_of_mem_lex_lf hl).1, fun h => (ne_of_mem_lex_lf h).2 rfl⟩
        rw [lex_one_lf, List.nil_append]
      · have hnext : ∀ d ∈ (kernelGrammar.step stack prev c rest).next.rest.getLast?, d = '\n' := by
          obtain ⟨taken, htaken⟩ : (kernelGrammar.step stack prev c rest).next.rest <:+ c :: rest :=
            ⟨_, kernelGrammar.flatten_step stack prev c rest⟩
          intro d hd
          refine hlast d ?_
          rw [← htaken, List.getLast?_append, Option.mem_def.mp hd]
          rfl
        obtain ⟨more, hmore, hrest⟩ := ih _ (hn ▸ kernelGrammar.step_lt stack prev c rest)
          (kernelGrammar.step stack prev c rest).stack
          (kernelGrammar.step stack prev c rest).next.prev hnext rfl
        refine ⟨more, ?_, hrest⟩
        rw [Grammar.lex_cons, Grammar.lex_cons, if_neg (by simp), if_neg hone, List.append_assoc]
        exact congrArg _ hmore

end Lexis.Spaced

namespace Token

theorem identifierValues_map_ofLexeme (ls : List Lexeme) :
    identifierValues (ls.map ofLexeme) = (names ls).map Bytes.ofChars := by
  rw [identifierValues, names, List.filter_map, List.map_map, List.map_map]
  congr 1

/-- The line feed taken from the end is not part of an identifier. -/
theorem identifierValues_dropFinalLineFeed {ts : List Token}
    (h : ∀ t ∈ ts, t.isIdentifier = true → t.value ≠ [] ∧ Byte.lf ∉ t.value) :
    identifierValues (dropFinalLineFeed ts) = identifierValues ts := by
  rcases List.eq_nil_or_concat ts with rfl | ⟨ts, t, rfl⟩
  · rfl
  · rw [List.concat_eq_append] at h ⊢
    cases hid : t.isIdentifier with
    | true =>
      obtain ⟨hne, hlf⟩ := h t (List.mem_append_right ts List.mem_cons_self) hid
      rw [dropFinalLineFeed_of_ne ts hne fun hlast => hlf (List.mem_of_getLast? hlast)]
    | false =>
      have hcut : ∀ v, isIdentifier ⟨v, t.kind⟩ = false := fun _ => hid
      rw [dropFinalLineFeed_concat]
      split
      · simp [identifierValues, hid]
      · simp [identifierValues, hid, hcut]

/-- The tokens of identifiers are not empty, and hold no line feed. -/
theorem value_of_identifier {reserve : Nat} {stack : List Mode} {s : Lexis.Place} {t : Token}
    (ht : t ∈ (kernelGrammar.lex reserve stack s).map ofLexeme) (hid : t.isIdentifier = true) :
    t.value ≠ [] ∧ Byte.lf ∉ t.value := by
  obtain ⟨l, hl, rfl⟩ := List.mem_map.mp ht
  have hid : l.kind = .identifier := beq_iff_eq.mp hid
  refine ⟨?_, fun hmem => ?_⟩
  · obtain ⟨c, t, ht⟩ := List.exists_cons_of_ne_nil (Lexis.ne_nil_of_identifier_mem_lex hl hid)
    simp [ofLexeme, ht, Bytes.ofChars, String.utf8EncodeChar_ne_nil]
  · have hword := Lexis.isWord_of_identifier_mem_lex hl hid '\n'
      ((Bytes.mem_ofChars_iff Rune.isAscii_lf).mp hmem)
    exact absurd hword (by decide)

/-- A token that does not end in a line feed is not lost with the one at the end. -/
theorem mem_dropFinalLineFeed {ts : List Token} {t : Token} (ht : t ∈ ts) (hne : t.value ≠ [])
    (hlf : t.value.getLast? ≠ some Byte.lf) : t ∈ dropFinalLineFeed ts := by
  obtain ⟨before, after, rfl⟩ := List.append_of_mem ht
  rw [dropFinalLineFeed_append_cons hne hlf]
  exact List.mem_append_right before List.mem_cons_self

/-- A quote by itself. -/
def quote : Token := ofLexeme stray

/-- The tokens of a line and the lexemes of the line with a line feed at its end. -/
theorem tokenize_line {cs : List Char} (hcr : '\r' ∉ cs) (hlf : '\n' ∉ cs) :
    identifierValues (tokenize (Bytes.ofChars cs)) =
        (names (kernelGrammar.lex 0 [] ⟨none, cs ++ ['\n']⟩)).map Bytes.ofChars ∧
      (stray ∈ kernelGrammar.lex 0 [] ⟨none, cs ++ ['\n']⟩ →
        quote ∈ tokenize (Bytes.ofChars cs)) := by
  have hend : ∀ c ∈ (cs ++ ['\n']).getLast?, c = '\n' := by simp
  obtain ⟨more, hmore, hnames, hstray⟩ := Lexis.Spaced.exists_lex_zero_eq [] none hend
  rw [hmore, Lexis.Spaced.names_append, hnames, List.append_nil]
  by_cases hne : cs = []
  · -- the empty text has no tokens, though the line feed added to it has a lexeme
    subst hne
    rw [List.nil_append, Lexis.Spaced.lex_one_lf, List.nil_append]
    exact ⟨rfl, fun h => absurd h hstray⟩
  · have hlast : cs.getLast? ≠ some '\n' := fun h => hlf (List.mem_of_getLast? h)
    have hlex : lexemes cs = kernelGrammar.lex 1 [] ⟨none, cs ++ ['\n']⟩ := if_neg hlast
    rw [tokenize_ofChars hcr hne, if_neg hlast, hlex]
    constructor
    · rw [identifierValues_dropFinalLineFeed fun _ => value_of_identifier,
        identifierValues_map_ofLexeme]
    · intro h
      refine mem_dropFinalLineFeed (List.mem_map_of_mem (f := ofLexeme) ?_) (by decide) (by decide)
      exact (List.mem_append.mp h).resolve_right hstray

end Token

namespace Source

/-! ### Compacted text -/

/-- Compacting a calm line keeps its identifiers. -/
theorem identifiers_compact_ofChars {cs : List Char} (hspaced : WellSpaced cs) (hlf : '\n' ∉ cs)
    (hcr : '\r' ∉ cs) (hcalm : calm .fresh cs = true)
    (hquote : Token.quote ∉ tokenize (Bytes.ofChars cs)) :
    identifiers (compact (Bytes.ofChars cs)).1 = identifiers (Bytes.ofChars cs) := by
  have hloose : looseText (toGlyphs none cs ++ [.kept '\n']) = cs ++ ['\n'] := by
    rw [Lexis.Spaced.looseText_append, looseText_toGlyphs]
    rfl
  have htight : tightText (toGlyphs none cs ++ [.kept '\n']) =
      tightText (toGlyphs none cs) ++ ['\n'] := by
    rw [Lexis.Spaced.tightText_append]
    rfl
  have hmem : ∀ {c}, c ∉ cs → c ∉ tightText (toGlyphs none cs) := by
    intro c hc h
    refine hc ?_
    rw [← looseText_toGlyphs none cs]
    exact List.mem_map_of_mem (f := Lexis.Spaced.Glyph.loose)
      (Lexis.Spaced.mem_tightText_iff.mp h)
  obtain ⟨hnames, hstray⟩ := Token.tokenize_line hcr hlf
  obtain ⟨hnames', -⟩ := Token.tokenize_line (hmem hcr) (hmem hlf)
  have hsound : Spot.Sound ⟨none, none, .fresh, toGlyphs none cs ++ [.kept '\n']⟩ := by
    refine ⟨Or.inl rfl, snug_toGlyphs hspaced hlf none, ?_⟩
    rw [hloose, Lexis.Spaced.calm_append_lf]
    exact hcalm
  have hagree := namesAgree hsound [] ⟨.nil, fun _ => Or.inl rfl⟩
  simp only [Spot.loose, Spot.tight, hloose, htight] at hagree
  rw [identifiers, identifiers, Token.countIdentifiers_eq, Token.countIdentifiers_eq,
    compact_ofChars hspaced, hnames, hnames', hagree (mt hstray hquote)]

/-- **The identifiers reported are those that renaming sees**, each as often, unless a dropped space
brings together what belongs apart or a quote stands by itself. -/
theorem identifiers_compact_normalize {lines : List Bytes} (hutf8 : ∀ l ∈ lines, l.IsUtf8)
    (hlf : ∀ l ∈ lines, Byte.lf ∉ l) (hcr : ∀ l ∈ lines, Byte.cr ∉ l)
    (hcalm : calm .fresh (normalize lines).chars = true)
    (hquote : Token.quote ∉ tokenize (normalize lines)) :
    identifiers (compact (normalize lines)).1 = identifiers (normalize lines) := by
  obtain ⟨cs, hcs⟩ := isUtf8_normalize hutf8
  have hlf' := lf_not_mem_normalize hlf
  have hcr' : Byte.cr ∉ normalize lines := by
    intro h
    obtain hspace | ⟨l, hl, h⟩ := mem_of_mem_normalize h
    · exact absurd hspace (by decide)
    · exact hcr l hl h
  have hsingle := single_normalize lines
  have hlast : (normalize lines).getLast? ≠ some Byte.space :=
    Bytes.getLast?_trim_ne isAscii_space (by decide) _
  rw [hcs] at hcalm hquote hlf' hcr' hsingle hlast ⊢
  rw [Bytes.chars_ofChars] at hcalm
  refine identifiers_compact_ofChars (wellSpaced_of_single hsingle fun h => hlast ?_)
    (mt (Bytes.mem_ofChars_iff Rune.isAscii_lf).mpr hlf')
    (mt (Bytes.mem_ofChars_iff Rune.isAscii_cr).mpr hcr') hcalm hquote
  exact Bytes.getLast?_of_chars isAscii_space (by rwa [Bytes.chars_ofChars])

/-- The identifiers of a function with a character literal and a division are reported as they are
renamed. Divided by what a pointer points to, a comment begins at the pointer, and it is reported
but not renamed. -/
theorem identifiers_compact_normalize_division :
    identifiers (compact (normalize [utf8 "int f (char *p) \x7b",
        utf8 "  return *p == '+' / 2 ; \x7d"])).1 = [⟨utf8 "p", 2⟩, ⟨utf8 "f", 1⟩] ∧
    identifiers (normalize [utf8 "int r = a / *p;"]) =
      [⟨utf8 "a", 1⟩, ⟨utf8 "p", 1⟩, ⟨utf8 "r", 1⟩] ∧
    identifiers (compact (normalize [utf8 "int r = a / *p;"])).1 =
      [⟨utf8 "a", 1⟩, ⟨utf8 "r", 1⟩] := by
  have hcount : ∀ text ranking, ranking.Perm (tallyIdentifiers (tokenize text)) →
      (ranking.Pairwise fun a b => ¬ b.Outranks a) → identifiers text = ranking :=
    fun _ _ hperm hsorted => (eq_countIdentifiers_of_sorted hperm hsorted).symm
  refine ⟨?_, ?_, ?_⟩
  · rw [identifiers_compact_normalize]
    · exact hcount _ _ (by decide +kernel) (by decide +kernel)
    · intro l hl
      obtain rfl | rfl : l = _ ∨ l = _ := by simpa using hl
      · exact ⟨_, rfl⟩
      · exact ⟨_, rfl⟩
    · decide +kernel
    · decide +kernel
    · decide +kernel
    · decide +kernel
  · exact hcount _ _ (by decide +kernel) (by decide +kernel)
  · exact hcount _ _ (by decide +kernel) (by decide +kernel)

end Source

end KernelPack
