import KernelPack.Proofs.Lexis.Identifiers
import KernelPack.Proofs.Lexis.Neighbours
import KernelPack.Proofs.Lexis.Token
import KernelPack.Proofs.Renaming.Tokens

/-!
# Renaming keeps the lexical structure

After renaming, the text should fall into the same tokens as before, up to the renamed identifiers.
A table that passes its check does not ensure this: an alias has the shape of an identifier, but it
may be a keyword or the name of a type, and an identifier may stand where its alias reads as part of
something else. The lexical structure is kept (`tokenize_apply_token`) where the renamed identifiers
can be **told apart** (`ToldApart`): names and aliases are plain words, and each occurrence stands
apart from its neighbours.

The lexer's view of this is `Lexis.lex_rename`. What is left to do here is to go from bytes to
characters, where the tokens of a table are ASCII (`exists_isName`), and to see that the line feed
at the end, which the lexer wants and the tokens lose again, is never part of an identifier.
-/

namespace KernelPack

open Lexis (IsName Lexeme Renameable StandsApart)

namespace Token

/-! ### The line feed at the end -/

theorem dropFinalLineFeed_concat (ts : List Token) (t : Token) :
    dropFinalLineFeed (ts ++ [t]) =
      if (Bytes.stripEnding [Byte.lf] t.value).isEmpty then ts
      else ts ++ [⟨Bytes.stripEnding [Byte.lf] t.value, t.kind⟩] := by
  simp [dropFinalLineFeed]

/-- A last token that does not end in a line feed stays. -/
theorem dropFinalLineFeed_of_ne (ts : List Token) {t : Token} (hne : t.value ≠ [])
    (hlf : t.value.getLast? ≠ some Byte.lf) : dropFinalLineFeed (ts ++ [t]) = ts ++ [t] := by
  rw [dropFinalLineFeed_concat, Bytes.stripEnding_of_getLast?_ne hlf, if_neg (by simpa using hne)]

/-- A line feed at the end does not concern a token that does not end in one. -/
theorem dropFinalLineFeed_append_cons {before after : List Token} {t : Token} (hne : t.value ≠ [])
    (hlf : t.value.getLast? ≠ some Byte.lf) :
    dropFinalLineFeed (before ++ t :: after) = before ++ t :: dropFinalLineFeed after := by
  rcases List.eq_nil_or_concat after with rfl | ⟨after, u, rfl⟩
  · exact dropFinalLineFeed_of_ne before hne hlf
  · have hconcat : before ++ t :: after.concat u = (before ++ t :: after) ++ [u] := by simp
    rw [hconcat, dropFinalLineFeed_concat, List.concat_eq_append, dropFinalLineFeed_concat]
    split
    · rfl
    · simp

/-- The tokens of a text without carriage returns. -/
theorem tokenize_ofChars {cs : List Char} (hcr : '\r' ∉ cs) (hne : cs ≠ []) :
    tokenize (Bytes.ofChars cs) =
      if cs.getLast? = some '\n' then (lexemes cs).map ofLexeme
      else dropFinalLineFeed ((lexemes cs).map ofLexeme) := by
  have hempty : (Bytes.ofChars cs).isEmpty = false := by
    obtain ⟨c, cs, rfl⟩ := List.exists_cons_of_ne_nil hne
    simp [Bytes.ofChars, String.utf8EncodeChar_ne_nil]
  have hseen : (unifyLineEnds (Bytes.ofChars cs)).chars = cs := by
    rw [unifyLineEnds_eq_self (mt (Bytes.mem_ofChars_iff Rune.isAscii_cr).mp hcr),
      Bytes.chars_ofChars]
  have hlast : (Bytes.ofChars cs).getLast? = some Byte.lf ↔ cs.getLast? = some '\n' := by
    refine ⟨Bytes.getLast?_of_ofChars Rune.isAscii_lf, fun h => ?_⟩
    exact Bytes.getLast?_of_chars Rune.isAscii_lf (by rwa [Bytes.chars_ofChars])
  simp only [tokenize, hempty, hseen, hlast, Bool.false_eq_true, if_false]

/-! ### The lexemes of a renamed text -/

section Lexemes

variable {f : List Char → Option (List Char)} {cs left : List Char}

/-- A renamed text that ends in a line feed. -/
theorem lexemes_rename_of_lf (hlast : cs.getLast? = some '\n')
    (h : Renameable f (lexemes cs) []) :
    (((lexemes cs).map (Lexeme.rename f)).flatMap Lexeme.text).getLast? = some '\n' ∧
      lexemes (((lexemes cs).map (Lexeme.rename f)).flatMap Lexeme.text) =
        (lexemes cs).map (Lexeme.rename f) := by
  have hlex : lexemes cs = Lexis.kernelGrammar.lex 0 [] ⟨none, cs⟩ := if_pos hlast
  have htext : (lexemes cs).flatMap Lexeme.text = cs :=
    (flatMap_lexemes cs).resolve_right fun hadded => hadded.1 hlast
  have hapart := Lexis.apart_pieces h
  rw [List.map_nil, List.append_nil] at hapart
  have hnews : (((lexemes cs).map (Lexeme.rename f)).flatMap Lexeme.text).getLast? = some '\n' := by
    rw [← Lexis.news_pieces, hapart.getLast?_news_iff (by decide),
      ← hapart.getLast?_olds_iff (by decide), Lexis.olds_pieces, htext, hlast]
  refine ⟨hnews, ?_⟩
  rw [lexemes, if_pos hnews]
  rw [hlex] at htext h ⊢
  simpa using Lexis.lex_rename_of_renameable (Or.inl rfl) (by rwa [List.append_nil]) h

/-- A renamed text to which a line feed is added. -/
theorem lexemes_rename_of_ne (hne : cs ≠ []) (hlast : cs.getLast? ≠ some '\n')
    (hleft : (lexemes cs).flatMap Lexeme.text ++ left = cs ++ ['\n'])
    (h : Renameable f (lexemes cs) left) :
    ∃ cs', ((lexemes cs).map (Lexeme.rename f)).flatMap Lexeme.text ++ left = cs' ++ ['\n'] ∧
      cs' ≠ [] ∧ cs'.getLast? ≠ some '\n' ∧ lexemes cs' = (lexemes cs).map (Lexeme.rename f) := by
  have hlex : lexemes cs = Lexis.kernelGrammar.lex 1 [] ⟨none, cs ++ ['\n']⟩ := if_neg hlast
  have hapart := Lexis.apart_pieces h
  -- the line feed is kept, and the pieces before it do not end in another one
  have hold : Lexis.olds (Lexis.pieces f (lexemes cs) ++ left.map .kept) = cs ++ ['\n'] :=
    (Lexis.olds_pieces_append _ left).trans hleft
  obtain ⟨ps, hps⟩ := List.getLast?_eq_some_iff.mp
    ((hapart.getLast?_olds_iff (c := '\n') (by decide)).mp (by rw [hold, List.getLast?_concat]))
  rw [hps] at hapart
  have hcs : Lexis.olds ps = cs := by
    rw [hps, Lexis.olds_append] at hold
    exact List.append_cancel_right hold
  have hnews : ((lexemes cs).map (Lexeme.rename f)).flatMap Lexeme.text ++ left =
      Lexis.news ps ++ ['\n'] := by
    rw [← Lexis.news_pieces_append, hps, Lexis.news_append]
    rfl
  have hne' : Lexis.news ps ≠ [] := by
    have hzero := hapart.of_append.length_le_zero_iff
    rw [hcs] at hzero
    simpa [hne] using hzero
  have hlast' : (Lexis.news ps).getLast? ≠ some '\n' := by
    rw [Ne, hapart.of_append.getLast?_news_iff (by decide),
      ← hapart.of_append.getLast?_olds_iff (by decide), hcs]
    exact hlast
  refine ⟨Lexis.news ps, hnews, hne', hlast', ?_⟩
  rw [lexemes, if_neg hlast', ← hnews]
  rw [hlex] at hleft h ⊢
  exact Lexis.lex_rename_of_renameable (Or.inr ⟨rfl, List.getLast?_concat⟩) hleft h

end Lexemes

end Token

namespace Renaming

/-! ### From bytes to characters -/

/-- The bytes of words are ASCII. -/
theorem exists_isAscii_of_isWord {x : UInt8} (hx : Byte.isWord x = true) :
    ∃ c, Rune.IsAscii c x ∧ Lexis.isLatin c = true ∧
      (Byte.isNameStart x = true → Lexis.KernelGrammar.isNameStart c = true) := by
  have hall : ∀ n < 256, Byte.isWord (UInt8.ofNat n) = true →
      (n < 128 ∧ (Char.ofNat n).toNat = n) ∧ Lexis.isLatin (Char.ofNat n) = true ∧
      (Byte.isNameStart (UInt8.ofNat n) = true →
        Lexis.KernelGrammar.isNameStart (Char.ofNat n) = true) := by
    decide +kernel
  have hbyte := hall x.toNat x.toNat_lt
  rw [UInt8.ofNat_toNat] at hbyte
  obtain ⟨⟨hlt, heq⟩, hlatin, hstart⟩ := hbyte hx
  exact ⟨Char.ofNat x.toNat, ⟨hlt, heq⟩, hlatin, hstart⟩

theorem ofChars_cons {c : Char} {x : UInt8} (h : Rune.IsAscii c x) (w : List Char) :
    Bytes.ofChars (c :: w) = x :: Bytes.ofChars w := by
  rw [Bytes.ofChars, List.flatMap_cons, h.utf8EncodeChar_eq]
  rfl

theorem exists_ofChars_of_isWord {b : Bytes} (h : ∀ x ∈ b, Byte.isWord x = true) :
    ∃ w, (∀ c ∈ w, Lexis.isLatin c = true) ∧ b = Bytes.ofChars w := by
  induction b with
  | nil => exact ⟨[], nofun, rfl⟩
  | cons x b ih =>
    obtain ⟨hx, hb⟩ := List.forall_mem_cons.mp h
    obtain ⟨c, hc, hlatin, -⟩ := exists_isAscii_of_isWord hx
    obtain ⟨w, hw, rfl⟩ := ih hb
    exact ⟨c :: w, List.forall_mem_cons.mpr ⟨hlatin, hw⟩, (ofChars_cons hc w).symm⟩

/-- **An identifier is the encoding of a name.** -/
theorem exists_isName {b : Bytes} (h : isIdentifier b = true) :
    ∃ w, IsName w ∧ b = Bytes.ofChars w := by
  cases b with
  | nil => cases h
  | cons x b =>
    simp only [isIdentifier, Bool.and_eq_true, List.all_eq_true] at h
    obtain ⟨hx, hb⟩ := h
    obtain ⟨c, hc, hlatin, hstart⟩ := exists_isAscii_of_isWord (x := x) (by simp [Byte.isWord, hx])
    obtain ⟨w, hw, rfl⟩ := exists_ofChars_of_isWord hb
    exact ⟨c :: w, ⟨⟨c, w, rfl, hstart hx⟩, List.forall_mem_cons.mpr ⟨hlatin, hw⟩⟩,
      (ofChars_cons hc w).symm⟩

/-- An identifier in characters. -/
theorem isName_chars {b : Bytes} (h : isIdentifier b = true) :
    IsName b.chars ∧ Bytes.ofChars b.chars = b := by
  obtain ⟨w, hw, rfl⟩ := exists_isName h
  rw [Bytes.chars_ofChars]
  exact ⟨hw, rfl⟩

/-- Renaming in characters. -/
def aliasOf (entries : List Entry) (w : List Char) : Option (List Char) :=
  (entryOf? entries (Bytes.ofChars w)).map fun e => e.new.chars

theorem exists_of_alias?_eq_some {entries : List Entry} {l : Lexeme} {w : List Char}
    (h : l.alias? (aliasOf entries) = some w) :
    l.kind = .identifier ∧ ∃ e ∈ entries, e.name = Bytes.ofChars l.text ∧ e.new.chars = w := by
  unfold Lexeme.alias? at h
  split at h
  · rename_i hid
    obtain ⟨e, hentry, rfl⟩ := Option.map_eq_some_iff.mp h
    obtain ⟨he, hname⟩ := of_entryOf?_eq_some hentry
    exact ⟨hid, e, he, hname, rfl⟩
  · cases h

/-- Renaming the token of a lexeme is renaming the lexeme. -/
theorem renameToken_ofLexeme {entries : List Entry} (husable : Usable entries) (l : Lexeme) :
    renameToken entries (Token.ofLexeme l) = Token.ofLexeme (l.rename (aliasOf entries)) := by
  by_cases hid : l.kind = .identifier
  · have hisId : (Token.ofLexeme l).isIdentifier = true := by
      simp [Token.isIdentifier, Token.ofLexeme, hid]
    rw [renameToken, if_pos hisId]
    simp only [Token.ofLexeme, Lexeme.rename, Lexeme.alias?, hid, if_true, aliasOf]
    cases hentry : entryOf? entries (Bytes.ofChars l.text) with
    | none => rfl
    | some e =>
      have he := (of_entryOf?_eq_some hentry).1
      have hnew := (isName_chars (husable.isIdentifier_new e he)).2
      simp [hnew]
  · have hisId : (Token.ofLexeme l).isIdentifier = false := by
      simpa [Token.isIdentifier, Token.ofLexeme] using hid
    rw [renameToken_of_not_isIdentifier hisId]
    simp [Lexeme.rename, Lexeme.alias?, hid]

/-- An identifier between `before` and `after` can be told apart before and after it is renamed: its
name and its alias are plain words, and it stands apart. -/
def Entry.IsClear (e : Entry) (before after : List Token) : Prop :=
  Lexis.isPlain e.name.chars = true ∧ Lexis.isPlain e.new.chars = true ∧
    StandsApart (before.map fun t => t.value.chars) (joinTokens after).chars

instance (e : Entry) (before after : List Token) : Decidable (e.IsClear before after) :=
  inferInstanceAs (Decidable (_ ∧ _ ∧ _))

/-- **All renamed identifiers can be told apart.** -/
def ToldApart (entries : List Entry) (tokens : List Token) : Prop :=
  ∀ before t after, tokens = before ++ t :: after → t.isIdentifier = true →
    ∀ e ∈ entries, e.name = t.value → e.IsClear before after

/-- One token after another can be looked at. -/
theorem toldApart_iff {entries : List Entry} {tokens : List Token} :
    ToldApart entries tokens ↔ ∀ i : Fin tokens.length, (tokens.get i).isIdentifier = true →
      ∀ e ∈ entries, e.name = (tokens.get i).value →
        e.IsClear (tokens.take i) (tokens.drop (i + 1)) := by
  constructor
  · intro h i
    refine h (tokens.take i) (tokens.get i) (tokens.drop (i + 1)) ?_
    rw [List.get_eq_getElem, ← List.drop_eq_getElem_cons, List.take_append_drop]
  · rintro h before t after rfl hid e he hname
    simpa using h ⟨before.length, by simp⟩ (by simpa using hid) e he (by simpa using hname)

instance (entries : List Entry) (tokens : List Token) : Decidable (ToldApart entries tokens) :=
  decidable_of_iff' _ toldApart_iff

/-- The tokens of lexemes that can be told apart. -/
theorem ToldApart.renameable {entries : List Entry} (husable : Usable entries)
    {ls : List Lexeme} {left : List Char} {tokens : List Token} (h : ToldApart entries tokens)
    (hsplit : ∀ before l after, ls = before ++ l :: after →
      isIdentifier (Bytes.ofChars l.text) = true →
      ∃ rest, tokens = before.map Token.ofLexeme ++ Token.ofLexeme l :: rest ∧
        (StandsApart (before.map Lexeme.text) (joinTokens rest).chars →
          StandsApart (before.map Lexeme.text) (after.flatMap Lexeme.text ++ left))) :
    Renameable (aliasOf entries) ls left := by
  intro before l after w hls hw
  obtain ⟨hid, e, he, hname, rfl⟩ := exists_of_alias?_eq_some hw
  have hidentifier := husable.isIdentifier_name e he
  obtain ⟨rest, htokens, hrest⟩ := hsplit before l after hls (hname ▸ hidentifier)
  have hisId : (Token.ofLexeme l).isIdentifier = true := by
    simp [Token.isIdentifier, Token.ofLexeme, hid]
  obtain ⟨hplain, hplain', hapart⟩ := h _ _ rest htokens hisId e he hname
  have hold := (isName_chars hidentifier).1
  rw [hname, Bytes.chars_ofChars] at hplain hold
  rw [List.map_map] at hapart
  have htexts : before.map ((fun t : Token => t.value.chars) ∘ Token.ofLexeme) =
      before.map Lexeme.text :=
    List.map_congr_left fun l _ => Bytes.chars_ofChars l.text
  rw [htexts] at hapart
  exact ⟨⟨hold, hplain⟩, ⟨(isName_chars (husable.isIdentifier_new e he)).1, hplain'⟩, hrest hapart⟩

theorem map_renameToken_ofLexeme {entries : List Entry} (husable : Usable entries)
    (ls : List Lexeme) :
    (ls.map Token.ofLexeme).map (renameToken entries) =
      (ls.map (Lexeme.rename (aliasOf entries))).map Token.ofLexeme := by
  rw [List.map_map, List.map_map]
  exact List.map_congr_left fun l _ => renameToken_ofLexeme husable l

/-- **A renamed text that ends in a line feed** falls into the renamed tokens. -/
theorem tokenize_renameTokens_of_lf {entries : List Entry} (husable : Usable entries)
    {cs : List Char} (hcr : '\r' ∉ cs) (hlast : cs.getLast? = some '\n')
    (htold : ToldApart entries (tokenize (Bytes.ofChars cs))) :
    tokenize (renameTokens (tokenize (Bytes.ofChars cs)) entries) =
      (tokenize (Bytes.ofChars cs)).map (renameToken entries) := by
  have hne : cs ≠ [] := by
    rintro rfl
    cases hlast
  have htokens := Token.tokenize_ofChars hcr hne
  rw [if_pos hlast] at htokens
  rw [htokens] at htold ⊢
  have hren : Renameable (aliasOf entries) (Token.lexemes cs) [] := by
    refine htold.renameable husable fun before l after hsplit _ => ?_
    refine ⟨after.map Token.ofLexeme, by simp [hsplit], fun hapart => ?_⟩
    rwa [joinTokens_ofLexeme, Bytes.chars_ofChars, ← List.append_nil (after.flatMap _)] at hapart
  obtain ⟨hlast', hlex⟩ := Token.lexemes_rename_of_lf hlast hren
  have htext : (Token.lexemes cs).flatMap Lexeme.text = cs :=
    (Token.flatMap_lexemes cs).resolve_right fun h => h.1 hlast
  have hcr' := hren.not_mem_rename (c := '\r') (by decide) (by rwa [htext, List.append_nil])
  rw [List.append_nil] at hcr'
  have hne' :
      ((Token.lexemes cs).map (Lexeme.rename (aliasOf entries))).flatMap Lexeme.text ≠ [] := by
    intro hnil
    rw [hnil] at hlast'
    cases hlast'
  rw [renameTokens, map_renameToken_ofLexeme husable, joinTokens_ofLexeme,
    Token.tokenize_ofChars hcr' hne', if_pos hlast', hlex]

/-- A line feed is no part of an identifier. -/
theorem getLast?_ne_lf_of_isIdentifier {b : Bytes} (h : isIdentifier b = true) :
    b ≠ [] ∧ b.getLast? ≠ some Byte.lf := by
  obtain ⟨hne, hword⟩ := isWord_of_isIdentifier h
  refine ⟨hne, fun hlf => ?_⟩
  have hword := hword _ (List.mem_of_getLast? hlf)
  revert hword
  decide

/-- Renaming an identifier and taking away a line feed that is not part of one. -/
theorem map_renameToken_dropFinalLineFeed {entries : List Entry} (husable : Usable entries)
    {ts : List Token}
    (hident : ∀ t ∈ ts.getLast?, t.isIdentifier = true →
      t.value ≠ [] ∧ t.value.getLast? ≠ some Byte.lf) :
    (Token.dropFinalLineFeed ts).map (renameToken entries) =
      Token.dropFinalLineFeed (ts.map (renameToken entries)) := by
  rcases List.eq_nil_or_concat ts with rfl | ⟨ts, t, rfl⟩
  · rfl
  · rw [List.concat_eq_append] at hident ⊢
    cases hid : t.isIdentifier with
    | true =>
      obtain ⟨hne, hlf⟩ := hident t List.getLast?_concat hid
      have hrenamed : (renameToken entries t).value ≠ [] ∧
          (renameToken entries t).value.getLast? ≠ some Byte.lf := by
        rw [renameToken_of_isIdentifier hid]
        obtain ⟨e, he, -, hnew⟩ | ⟨-, hkeep⟩ := renamed_cases husable.nodup_names t.value
        · rw [hnew]
          exact getLast?_ne_lf_of_isIdentifier (husable.isIdentifier_new e he)
        · rw [hkeep]
          exact ⟨hne, hlf⟩
      rw [Token.dropFinalLineFeed_of_ne ts hne hlf, List.map_append, List.map_singleton,
        Token.dropFinalLineFeed_of_ne _ hrenamed.1 hrenamed.2]
    | false =>
      have hstripped : ∀ v, renameToken entries ⟨v, t.kind⟩ = ⟨v, t.kind⟩ :=
        fun v => renameToken_of_not_isIdentifier hid
      rw [List.map_append, List.map_singleton, renameToken_of_not_isIdentifier hid,
        Token.dropFinalLineFeed_concat, Token.dropFinalLineFeed_concat]
      split
      · rfl
      · rw [List.map_append, List.map_singleton, hstripped]

/-- Without its line feed at the end a text is a text. -/
theorem exists_stripEnding_ofChars (cs : List Char) :
    ∃ cs' lfs, cs = cs' ++ lfs ∧ (∀ c ∈ lfs, c = '\n') ∧
      Bytes.stripEnding [Byte.lf] (Bytes.ofChars cs) = Bytes.ofChars cs' := by
  by_cases hlast : cs.getLast? = some '\n'
  · obtain ⟨cs', rfl⟩ := List.getLast?_eq_some_iff.mp hlast
    refine ⟨cs', ['\n'], rfl, by simp, ?_⟩
    have hsplit : Bytes.ofChars (cs' ++ ['\n']) = Bytes.ofChars cs' ++ [Byte.lf] := by
      rw [Bytes.ofChars, List.flatMap_append]
      rfl
    rw [hsplit, Bytes.stripEnding_concat]
  · refine ⟨cs, [], (List.append_nil cs).symm, List.forall_mem_nil _, ?_⟩
    exact Bytes.stripEnding_of_getLast?_ne fun h =>
      hlast (Bytes.getLast?_of_ofChars Rune.isAscii_lf h)

theorem isWord_of_identifier_mem_lexemes {cs : List Char} {l : Lexeme} (hl : l ∈ Token.lexemes cs)
    (hid : l.kind = .identifier) : ∀ c ∈ l.text, Text.isWord c = true := by
  unfold Token.lexemes at hl
  split at hl
  · exact Lexis.isWord_of_identifier_mem_lex hl hid
  · exact Lexis.isWord_of_identifier_mem_lex hl hid

/-- An identifier at the end of a text is not the line feed that was added. -/
theorem getLast?_ne_lf_of_identifier_lexemes {cs : List Char} {t : Token}
    (ht : t ∈ ((Token.lexemes cs).map Token.ofLexeme).getLast?) (hid : t.isIdentifier = true) :
    t.value ≠ [] ∧ t.value.getLast? ≠ some Byte.lf := by
  refine ⟨Token.getLast?_map_ofLexeme (fun _ => Token.getLast?_lexemes) t ht, fun hlf => ?_⟩
  rw [Option.mem_def, List.getLast?_map, Option.map_eq_some_iff] at ht
  obtain ⟨l, hl, rfl⟩ := ht
  have hword := isWord_of_identifier_mem_lexemes (List.mem_of_getLast? hl) (beq_iff_eq.mp hid)
    '\n' (List.mem_of_getLast? (Bytes.getLast?_of_ofChars Rune.isAscii_lf hlf))
  revert hword
  decide

/-- The lexemes of a text with a line feed added, and what of it they leave over. -/
theorem exists_flatMap_lexemes_append (cs : List Char) : ∃ left, (∀ c ∈ left, c = '\n') ∧
    (Token.lexemes cs).flatMap Lexeme.text ++ left = cs ++ ['\n'] := by
  obtain htext | ⟨-, htext⟩ := Token.flatMap_lexemes cs
  · exact ⟨['\n'], by simp, by rw [htext]⟩
  · exact ⟨[], nofun, by rw [htext, List.append_nil]⟩

/-- What can be told apart without the line feed at the end can be renamed with it, and with more of
them. -/
theorem ToldApart.renameable_of_dropFinalLineFeed {entries : List Entry} (husable : Usable entries)
    {cs left : List Char} (hlfs : ∀ c ∈ left, c = '\n')
    (h : ToldApart entries (Token.dropFinalLineFeed ((Token.lexemes cs).map Token.ofLexeme))) :
    Renameable (aliasOf entries) (Token.lexemes cs) left := by
  refine h.renameable husable fun before l after hsplit hid => ?_
  obtain ⟨hvalue, hlf⟩ := getLast?_ne_lf_of_isIdentifier hid
  refine ⟨Token.dropFinalLineFeed (after.map Token.ofLexeme), ?_, fun hapart => ?_⟩
  · rw [hsplit, List.map_append, List.map_cons]
    exact Token.dropFinalLineFeed_append_cons hvalue hlf
  · have hafter : ∀ l, after.getLast? = some l → l.text ≠ [] := by
      intro m hm
      have hlast : (Token.lexemes cs).getLast? = some m := by
        rw [hsplit, List.getLast?_append, List.getLast?_cons, hm]
        rfl
      exact Token.getLast?_lexemes hlast
    rw [joinTokens_dropFinalLineFeed (Token.getLast?_map_ofLexeme hafter),
      joinTokens_ofLexeme] at hapart
    -- what comes after the identifier differs by line feeds, and they touch nothing
    obtain ⟨cs', lfs, hcs, hlfs', hstrip⟩ := exists_stripEnding_ofChars (after.flatMap Lexeme.text)
    rw [hstrip, Bytes.chars_ofChars] at hapart
    rw [hcs, List.append_assoc]
    exact hapart.append_lineFeeds (List.forall_mem_append.mpr ⟨hlfs', hlfs⟩)

/-- **A renamed text to which a line feed is added** falls into the renamed tokens. -/
theorem tokenize_renameTokens_of_ne {entries : List Entry} (husable : Usable entries)
    {cs : List Char} (hcr : '\r' ∉ cs) (hne : cs ≠ []) (hlast : cs.getLast? ≠ some '\n')
    (htold : ToldApart entries (tokenize (Bytes.ofChars cs))) :
    tokenize (renameTokens (tokenize (Bytes.ofChars cs)) entries) =
      (tokenize (Bytes.ofChars cs)).map (renameToken entries) := by
  have htokens := Token.tokenize_ofChars hcr hne
  rw [if_neg hlast] at htokens
  rw [htokens] at htold ⊢
  obtain ⟨left, hlfs, hleft⟩ := exists_flatMap_lexemes_append cs
  have hren : Renameable (aliasOf entries) (Token.lexemes cs) left :=
    htold.renameable_of_dropFinalLineFeed husable hlfs
  obtain ⟨cs', hnews, hne', hlast', hlex⟩ := Token.lexemes_rename_of_ne hne hlast hleft hren
  have hcr' : '\r' ∉ cs' := by
    have hmem := hren.not_mem_rename (c := '\r') (by decide) (by simpa [hleft] using hcr)
    rw [hnews] at hmem
    exact fun h => hmem (List.mem_append_left _ h)
  have htokens' : tokenize (Bytes.ofChars cs') =
      (Token.dropFinalLineFeed ((Token.lexemes cs).map Token.ofLexeme)).map
        (renameToken entries) := by
    rw [map_renameToken_dropFinalLineFeed husable fun _ ht hid =>
        getLast?_ne_lf_of_identifier_lexemes ht hid,
      map_renameToken_ofLexeme husable, Token.tokenize_ofChars hcr' hne', if_neg hlast', hlex]
  have hlf : (Bytes.ofChars cs').getLast? ≠ some Byte.lf := fun h =>
    hlast' (Bytes.getLast?_of_ofChars Rune.isAscii_lf h)
  rw [renameTokens, ← htokens', joinTokens_tokenize hlf,
    Token.unifyLineEnds_eq_self (mt (Bytes.mem_ofChars_iff Rune.isAscii_cr).mp hcr'),
    Bytes.chars_ofChars, Bytes.stripEnding_of_getLast?_ne hlf]

/-- **Renaming keeps the lexical structure.** If the table is accepted and the renamed identifiers
can be told apart, then the tokens of the renamed text are the renamed tokens of the text: each
identifier that is a name has become its alias, and all else is as it was. -/
theorem tokenize_apply_token {text out : Bytes} {table : Table} (hutf8 : text.IsUtf8)
    (hcr : Byte.cr ∉ text) (hout : apply .token text table = .ok out)
    (htold : ToldApart table.resolve (tokenize text)) :
    tokenize out = (tokenize text).map (renameToken table.resolve) := by
  obtain ⟨cs, rfl⟩ := hutf8
  have hcr := mt (Bytes.mem_ofChars_iff Rune.isAscii_cr).mpr hcr
  unfold apply at hout
  dsimp only at hout
  split at hout
  · rename_i hempty
    obtain rfl := Except.ok.inj hout
    have hid : ∀ t, renameToken [] t = t := fun t => by
      simp [renameToken, entryOf?_eq_none]
    rw [List.isEmpty_iff.mp hempty, List.map_congr_left fun t _ => hid t, List.map_id']
  · obtain ⟨hcheck, hout⟩ := Outcome.check_bind_eq_ok_iff.mp hout
    obtain rfl := Except.ok.inj hout
    have husable := (checkTokens_eq_ok_iff.mp hcheck).usable
    by_cases hne : cs = []
    · rw [hne]
      rfl
    · by_cases hlast : cs.getLast? = some '\n'
      · exact tokenize_renameTokens_of_lf husable hcr hlast htold
      · exact tokenize_renameTokens_of_ne husable hcr hne hlast htold

/-- A member and a function are renamed beside a number and a name that ends in a digit, and the
text falls into the same tokens. With a keyword for an alias the table is accepted as well, but the
alias does not come out as an identifier. -/
theorem tokenize_apply_token_member :
    (∃ out, apply .token (utf8 "v1.foo=foo(1.5f);") (.ofPairs [⟨utf8 "foo", utf8 "x"⟩]) = .ok out ∧
      (tokenize out).map Token.value =
        ["v1", ".", "x", "=", "x", "(", "1.5f", ")", ";"].map utf8) ∧
    ∃ out, apply .token (utf8 "int foo;") (.ofPairs [⟨utf8 "foo", utf8 "if"⟩]) = .ok out ∧
      tokenize out ≠ (tokenize (utf8 "int foo;")).map (renameToken [⟨utf8 "foo", utf8 "if"⟩]) := by
  have hmember : apply .token (utf8 "v1.foo=foo(1.5f);") (.ofPairs [⟨utf8 "foo", utf8 "x"⟩]) =
      .ok (utf8 "v1.x=x(1.5f);") :=
    Outcome.eq_ok_of_toOption (by decide +kernel)
  have hkeyword : apply .token (utf8 "int foo;") (.ofPairs [⟨utf8 "foo", utf8 "if"⟩]) =
      .ok (utf8 "int if;") :=
    Outcome.eq_ok_of_toOption (by decide +kernel)
  refine ⟨⟨_, hmember, ?_⟩, _, hkeyword, by decide +kernel⟩
  rw [tokenize_apply_token ⟨_, rfl⟩ (by decide +kernel) hmember (by decide +kernel)]
  decide +kernel

end Renaming

end KernelPack
