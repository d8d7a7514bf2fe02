import KernelPack.Proofs.Bytes.Cutting
import KernelPack.Proofs.Bytes.Substitution
import KernelPack.Proofs.Lexis.Coverage
import KernelPack.Proofs.Text.Encoding
import KernelPack.Renaming.Apply

/-!
# The text of tokens

The tokens of a text, put together, are the text as the lexer sees it: with its line endings made
alike. The line feed that is added for the lexer is the last character it sees, so it can only end
the last token, and taking it away from there is taking it away altogether
(`joinTokens_tokenize`). Text in UTF-8 without carriage returns is seen as it is, and so its tokens
make it up again (`joinTokens_tokenize_eq`).

For a text without line feeds making line endings alike turns each carriage return into a line
feed (`unifyLineEnds_eq_map`). So the tokens of such a text hold a line feed exactly if the text
holds a carriage return (`lf_mem_joinTokens_tokenize_iff`).
-/

namespace KernelPack

/-- The line feed. -/
theorem Rune.isAscii_lf : IsAscii '\n' Byte.lf := ⟨by decide, by decide⟩

/-- The carriage return. -/
theorem Rune.isAscii_cr : IsAscii '\r' Byte.cr := ⟨by decide, by decide⟩

namespace Token

/-- Making line endings alike in a text without line feeds turns its carriage returns into line
feeds. -/
theorem unifyLineEnds_eq_map {text : Bytes} (h : Byte.lf ∉ text) :
    unifyLineEnds text = text.map fun b => if b = Byte.cr then Byte.lf else b := by
  rw [unifyLineEnds, Bytes.replaceAll_eq_self (x := Byte.lf) (by simp) h,
    Bytes.replaceAll_singleton]

/-- Making line endings alike changes nothing where there are no carriage returns. -/
theorem unifyLineEnds_eq_self {text : Bytes} (h : Byte.cr ∉ text) : unifyLineEnds text = text := by
  have hcrlf : Bytes.replaceAll [Byte.cr, Byte.lf] [Byte.lf] text = text :=
    Bytes.replaceAll_eq_self (x := Byte.cr) (by simp) h
  rw [unifyLineEnds, hcrlf, Bytes.replaceAll_eq_self (x := Byte.cr) (by simp) h]

/-- The lexemes make up the text, or the text with the line feed that was added. -/
theorem flatMap_lexemes (cs : List Char) :
    (lexemes cs).flatMap Lexis.Lexeme.text = cs ∨
      cs.getLast? ≠ some '\n' ∧ (lexemes cs).flatMap Lexis.Lexeme.text = cs ++ ['\n'] := by
  unfold lexemes
  split
  · obtain ⟨left, hleft, hlen⟩ := Lexis.kernelGrammar.exists_flatMap_lex 0 [] ⟨none, cs⟩
    obtain rfl := List.length_eq_zero_iff.mp (Nat.le_zero.mp hlen)
    exact Or.inl (by simpa using hleft)
  · rename_i hend
    obtain ⟨left, hleft, hlen⟩ :=
      Lexis.kernelGrammar.exists_flatMap_lex 1 [] ⟨none, cs ++ ['\n']⟩
    rcases left with _ | ⟨c, _ | ⟨d, left⟩⟩
    · exact Or.inr ⟨hend, by simpa using hleft⟩
    · exact Or.inl (List.append_inj_left' hleft rfl)
    · simp at hlen

/-- No lexeme list ends in an empty lexeme. -/
theorem getLast?_lexemes {cs : List Char} {l : Lexis.Lexeme}
    (h : (lexemes cs).getLast? = some l) : l.text ≠ [] := by
  unfold lexemes at h
  split at h
  · exact Lexis.kernelGrammar.getLast?_lex Lexis.kernelGrammar_endsInToken _ _ _ h
  · exact Lexis.kernelGrammar.getLast?_lex Lexis.kernelGrammar_endsInToken _ _ _ h

/-- The token of a last lexeme that is not empty is not empty. -/
theorem getLast?_map_ofLexeme {ls : List Lexis.Lexeme}
    (h : ∀ l, ls.getLast? = some l → l.text ≠ []) :
    ∀ t ∈ (ls.map ofLexeme).getLast?, t.value ≠ [] := by
  intro t ht
  rw [List.getLast?_map, Option.mem_def, Option.map_eq_some_iff] at ht
  obtain ⟨l, hl, rfl⟩ := ht
  obtain ⟨c, cs, hc⟩ := List.exists_cons_of_ne_nil (h l hl)
  simp [ofLexeme, hc, Bytes.ofChars, String.utf8EncodeChar_ne_nil]

end Token

namespace Renaming

theorem joinTokens_append (ts us : List Token) :
    joinTokens (ts ++ us) = joinTokens ts ++ joinTokens us :=
  List.flatMap_append

theorem joinTokens_cons (t : Token) (ts : List Token) :
    joinTokens (t :: ts) = t.value ++ joinTokens ts :=
  List.flatMap_cons

/-- The tokens of lexemes have their text. -/
theorem joinTokens_ofLexeme (ls : List Lexis.Lexeme) :
    joinTokens (ls.map Token.ofLexeme) = Bytes.ofChars (ls.flatMap Lexis.Lexeme.text) := by
  rw [joinTokens, List.flatMap_map, Bytes.ofChars, List.flatMap_assoc]
  rfl

/-- Taking the line feed away from the last token is taking it away from the text. -/
theorem joinTokens_dropFinalLineFeed {ts : List Token}
    (h : ∀ t ∈ ts.getLast?, t.value ≠ []) :
    joinTokens (Token.dropFinalLineFeed ts) = Bytes.stripEnding [Byte.lf] (joinTokens ts) := by
  rcases List.eq_nil_or_concat ts with rfl | ⟨ts, t, rfl⟩
  · rfl
  · have hlast : (ts ++ [t]).getLast? = some t := List.getLast?_concat
    have hjoin : joinTokens [t] = t.value := List.append_nil _
    rw [List.concat_eq_append] at h ⊢
    rw [joinTokens_append, hjoin, Bytes.stripEnding_append _ (h t hlast)]
    simp only [Token.dropFinalLineFeed, hlast, List.dropLast_concat]
    split
    · rename_i hempty
      rw [List.isEmpty_iff.mp hempty, List.append_nil]
    · rw [joinTokens_append]
      exact congrArg _ (List.append_nil _)

/-- **Tokens lose nothing**: put together they are the text as the lexer sees it, but for a line
feed at its end. -/
theorem joinTokens_tokenize {text : Bytes} (h : text.getLast? ≠ some Byte.lf) :
    joinTokens (tokenize text)
      = Bytes.stripEnding [Byte.lf] (Bytes.ofChars (Token.unifyLineEnds text).chars) := by
  by_cases hempty : text = []
  · rw [hempty]
    rfl
  · have htokens : tokenize text = Token.dropFinalLineFeed
        ((Token.lexemes (Token.unifyLineEnds text).chars).map Token.ofLexeme) := by
      simp [tokenize, hempty, h]
    rw [htokens]
    generalize (Token.unifyLineEnds text).chars = cs
    rw [joinTokens_dropFinalLineFeed (Token.getLast?_map_ofLexeme fun _ => Token.getLast?_lexemes),
      joinTokens_ofLexeme]
    obtain hall | ⟨hend, hadded⟩ := Token.flatMap_lexemes cs
    · rw [hall]
    · -- the added line feed goes, and no other one stands before it
      have hne : (Bytes.ofChars cs).getLast? ≠ some Byte.lf := fun hlf =>
        hend (Bytes.getLast?_of_ofChars Rune.isAscii_lf hlf)
      have hsplit : Bytes.ofChars (cs ++ ['\n']) = Bytes.ofChars cs ++ [Byte.lf] := by
        rw [Bytes.ofChars, List.flatMap_append]
        rfl
      rw [hadded, hsplit, Bytes.stripEnding_concat, Bytes.stripEnding_of_getLast?_ne hne]

/-- The tokens of a text that ends in a line feed are the text as the lexer sees it. -/
theorem joinTokens_tokenize_of_lf {text : Bytes} (h : text.getLast? = some Byte.lf)
    (hseen : (Token.unifyLineEnds text).chars.getLast? = some '\n') :
    joinTokens (tokenize text) = Bytes.ofChars (Token.unifyLineEnds text).chars := by
  have hne : text ≠ [] := by
    rintro rfl
    cases h
  have htokens : tokenize text =
      (Token.lexemes (Token.unifyLineEnds text).chars).map Token.ofLexeme := by
    simp [tokenize, hne, h]
  rw [htokens, joinTokens_ofLexeme]
  obtain hall | ⟨hend, -⟩ := Token.flatMap_lexemes (Token.unifyLineEnds text).chars
  · rw [hall]
  · exact absurd hseen hend

/-- **Tokenizing loses nothing.** The tokens of a text in UTF-8 without carriage returns, put
together, are the text: the line feed that the lexer wants to see at the end is taken away again
where it was added, and no line feed of the text is. -/
theorem joinTokens_tokenize_eq {text : Bytes} (hutf8 : text.IsUtf8) (hcr : Byte.cr ∉ text) :
    joinTokens (tokenize text) = text := by
  have hseen : Token.unifyLineEnds text = text := Token.unifyLineEnds_eq_self hcr
  have hchars : Bytes.ofChars text.chars = text := hutf8.ofChars_chars
  by_cases hend : text.getLast? = some Byte.lf
  · have hlast : text.chars.getLast? = some '\n' :=
      Bytes.getLast?_of_ofChars Rune.isAscii_lf (hchars.symm ▸ hend)
    rw [joinTokens_tokenize_of_lf hend (hseen.symm ▸ hlast), hseen, hchars]
  · rw [joinTokens_tokenize hend, hseen, hchars, Bytes.stripEnding_of_getLast?_ne hend]

/-- A text with a directive, a label and characters beyond ASCII, with and without a line feed at
its end. -/
theorem joinTokens_tokenize_eq_directive :
    joinTokens (tokenize (utf8 "#if é\nx: \"ü\\")) = utf8 "#if é\nx: \"ü\\" ∧
    joinTokens (tokenize (utf8 "#if é\nx: \"ü\\\n")) = utf8 "#if é\nx: \"ü\\\n" :=
  ⟨joinTokens_tokenize_eq ⟨_, rfl⟩ (by decide), joinTokens_tokenize_eq ⟨_, rfl⟩ (by decide)⟩

/-- **Carriage returns become line feeds.** The tokens of a text without line feeds, and without a
carriage return at its end, hold a line feed exactly if the text holds a carriage return. -/
theorem lf_mem_joinTokens_tokenize_iff {text : Bytes} (hlf : Byte.lf ∉ text)
    (hcr : text.getLast? ≠ some Byte.cr) :
    Byte.lf ∈ joinTokens (tokenize text) ↔ Byte.cr ∈ text := by
  have hend : text.getLast? ≠ some Byte.lf := fun h => hlf (List.mem_of_getLast? h)
  have hunified := Token.unifyLineEnds_eq_map hlf
  have hlast : (Bytes.ofChars (Token.unifyLineEnds text).chars).getLast? ≠ some Byte.lf := by
    intro h
    have h := Bytes.getLast?_of_chars Rune.isAscii_lf
      (Bytes.getLast?_of_ofChars Rune.isAscii_lf h)
    rw [hunified, List.getLast?_map, Option.map_eq_some_iff] at h
    obtain ⟨b, hb, hsame⟩ := h
    split at hsame
    · rename_i hb'
      exact hcr (hb' ▸ hb)
    · exact hend (hsame ▸ hb)
  rw [joinTokens_tokenize hend, Bytes.stripEnding_of_getLast?_ne hlast,
    Bytes.mem_ofChars_iff Rune.isAscii_lf, Bytes.mem_chars_iff Rune.isAscii_lf, hunified,
    List.mem_map]
  constructor
  · rintro ⟨b, hb, hsame⟩
    split at hsame
    · rename_i hb'
      exact hb' ▸ hb
    · exact absurd (hsame ▸ hb) hlf
  · intro h
    exact ⟨_, h, if_pos rfl⟩

end Renaming

end KernelPack
