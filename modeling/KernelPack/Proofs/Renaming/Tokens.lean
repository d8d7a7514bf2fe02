import KernelPack.Proofs.Outcome
import KernelPack.Proofs.Renaming.Check
import KernelPack.Renaming.Apply

/-!
# Renaming tokens

A table that passes `checkTokens` **fits** the tokens (`checkTokens_eq_ok_iff`): it is usable, its
aliases are new, and no token strands a name. Renaming tokens under a fitting table is

* **free of capture**: an identifier becomes the alias of its entry or stays what it is, and
  identifiers that differ keep differing. The table read backwards restores the text
  (`renameTokens_reversible`).
* **complete**: afterwards no name is left, neither as an identifier nor as a word outside
  literals. A table that is fine otherwise is refused for the first name the source strands, and
  which one that is does not depend on the order of the entries (`renameTokens_complete`).
-/

namespace KernelPack.Renaming

/-! ### Tables that fit -/

/-- No alias is a name or an identifier of the source. -/
structure Fresh (entries : List Entry) (tokens : List Token) : Prop where
  name_ne_new : ∀ e ∈ entries, ∀ f ∈ entries, f.name ≠ e.new
  value_ne_new : ∀ e ∈ entries, ∀ t ∈ tokens, t.isIdentifier = true → t.value ≠ e.new

theorem Fresh.perm {entries others : List Entry} {tokens : List Token}
    (h : Fresh entries tokens) (hperm : others.Perm entries) : Fresh others tokens where
  name_ne_new e he f hf := h.name_ne_new e (hperm.mem_iff.mp he) f (hperm.mem_iff.mp hf)
  value_ne_new e he := h.value_ne_new e (hperm.mem_iff.mp he)

/-- The table is usable, its aliases are fresh, and no token strands a name. -/
structure Fits (entries : List Entry) (tokens : List Token) : Prop where
  usable : Usable entries
  fresh : Fresh entries tokens
  not_strands : ∀ t ∈ tokens, ¬ Strands entries t

/-- The check of the aliases against the table and the source asks that they be fresh. -/
theorem checkAliases_eq_ok_iff_fresh {entries : List Entry} {tokens : List Token} :
    checkAliases (entries.map Entry.name)
        ((tokens.filter Token.isIdentifier).map Token.value) 0 entries = .ok () ↔
      Fresh entries tokens := by
  rw [checkAliases_eq_ok_iff]
  simp only [List.mem_map, List.mem_filter, not_exists, not_and, and_imp]
  exact ⟨fun h => ⟨fun e he => (h e he).1, fun e he => (h e he).2⟩,
    fun h e he => ⟨h.name_ne_new e he, h.value_ne_new e he⟩⟩

/-- For a usable table with fresh aliases, only stranded names are left to check. -/
theorem checkTokens_eq_checkOutside {entries : List Entry} {tokens : List Token}
    (husable : Usable entries) (hfresh : Fresh entries tokens) :
    checkTokens entries tokens = checkOutside entries tokens := by
  rw [checkTokens, checkEntries_eq_ok_iff.mpr husable, checkAliases_eq_ok_iff_fresh.mpr hfresh]
  rfl

/-- **Tokens may be renamed exactly under the tables that fit.** -/
theorem checkTokens_eq_ok_iff {entries : List Entry} {tokens : List Token} :
    checkTokens entries tokens = .ok () ↔ Fits entries tokens := by
  rw [checkTokens, Outcome.check_bind_eq_ok_iff, Outcome.check_bind_eq_ok_iff,
    checkEntries_eq_ok_iff, checkAliases_eq_ok_iff_fresh]
  constructor
  · rintro ⟨husable, hfresh, houtside⟩
    exact ⟨husable, hfresh, (checkOutside_eq_ok_iff husable).mp houtside⟩
  · rintro ⟨husable, hfresh, hstrands⟩
    exact ⟨husable, hfresh, (checkOutside_eq_ok_iff husable).mpr hstrands⟩

/-! ### Identifiers under a table -/

/-- The entry of a name is listed with it. -/
theorem of_entryOf?_eq_some {entries : List Entry} {v : Bytes} {e : Entry}
    (h : entryOf? entries v = some e) : e ∈ entries ∧ e.name = v := by
  rw [entryOf?, List.findRev?_eq_find?_reverse] at h
  exact ⟨List.mem_reverse.mp (List.mem_of_find?_eq_some h), by simpa using List.find?_some h⟩

/-- What is not a name of the table has no entry. -/
theorem entryOf?_eq_none {entries : List Entry} {v : Bytes} (h : ∀ e ∈ entries, e.name ≠ v) :
    entryOf? entries v = none := by
  rw [entryOf?, List.findRev?_eq_find?_reverse, List.find?_eq_none]
  exact fun e he => by simpa using h e (List.mem_reverse.mp he)

theorem entryOf?_cons_of_ne {e : Entry} {v : Bytes} (h : e.name ≠ v) (later : List Entry) :
    entryOf? (e :: later) v = entryOf? later v := by
  rw [entryOf?, List.findRev?, ← entryOf?]
  cases entryOf? later v with
  | none => exact if_neg (by simpa using h)
  | some f => rfl

/-- The entry of a name that is not listed again. -/
theorem entryOf?_cons_self {e : Entry} {later : List Entry} (h : ∀ f ∈ later, f.name ≠ e.name) :
    entryOf? (e :: later) e.name = some e := by
  rw [entryOf?, List.findRev?, ← entryOf?, entryOf?_eq_none h]
  exact if_pos (by simp)

/-- An identifier under a table. -/
def renamed (entries : List Entry) (v : Bytes) : Bytes :=
  ((entryOf? entries v).map Entry.new).getD v

/-- The entry read backwards. -/
def Entry.swap (e : Entry) : Entry := ⟨e.new, e.name⟩

theorem renameToken_of_isIdentifier {entries : List Entry} {t : Token}
    (h : t.isIdentifier = true) :
    renameToken entries t = { t with value := renamed entries t.value } := by
  rw [renameToken, if_pos h, renamed]
  cases entryOf? entries t.value with
  | none => rfl
  | some e => rfl

theorem renameToken_of_not_isIdentifier {entries : List Entry} {t : Token}
    (h : t.isIdentifier = false) : renameToken entries t = t := by
  simp [renameToken, h]

/-- Renaming does not change what a token is. -/
@[simp]
theorem renameToken_isIdentifier (entries : List Entry) (t : Token) :
    (renameToken entries t).isIdentifier = t.isIdentifier := by
  cases h : t.isIdentifier with
  | false => rw [renameToken_of_not_isIdentifier h, h]
  | true => rw [renameToken_of_isIdentifier h]; exact h

/-- What is not a name of the table stays. -/
theorem renamed_of_forall_ne {entries : List Entry} {v : Bytes}
    (h : ∀ e ∈ entries, e.name ≠ v) : renamed entries v = v := by
  rw [renamed, entryOf?_eq_none h, Option.map_none, Option.getD_none]

/-- A name that is listed once becomes the alias beside it. -/
theorem renamed_name {entries : List Entry} (hnodup : (entries.map Entry.name).Nodup)
    {e : Entry} (he : e ∈ entries) : renamed entries e.name = e.new := by
  induction entries with
  | nil => exact absurd he List.not_mem_nil
  | cons f entries ih =>
    rw [List.map_cons, List.nodup_cons] at hnodup
    obtain rfl | he := List.mem_cons.mp he
    · have hne : ∀ f ∈ entries, f.name ≠ e.name := fun f hf heq =>
        hnodup.1 (heq ▸ List.mem_map_of_mem hf)
      rw [renamed, entryOf?_cons_self hne, Option.map_some, Option.getD_some]
    · have hne : f.name ≠ e.name := fun heq => hnodup.1 (heq ▸ List.mem_map_of_mem he)
      rw [← ih hnodup.2 he, renamed, renamed, entryOf?_cons_of_ne hne]

/-- An identifier is either a name of the table or none. -/
theorem renamed_cases {entries : List Entry} (hnodup : (entries.map Entry.name).Nodup)
    (v : Bytes) :
    (∃ e ∈ entries, v = e.name ∧ renamed entries v = e.new) ∨
      ((∀ e ∈ entries, e.name ≠ v) ∧ renamed entries v = v) := by
  by_cases h : ∃ e ∈ entries, v = e.name
  · obtain ⟨e, he, rfl⟩ := h
    exact Or.inl ⟨e, he, rfl, renamed_name hnodup he⟩
  · have hne : ∀ e ∈ entries, e.name ≠ v := fun e he heq => h ⟨e, he, heq.symm⟩
    exact Or.inr ⟨hne, renamed_of_forall_ne hne⟩

section Fitting

variable {entries : List Entry} {tokens : List Token} (hfits : Fits entries tokens)

include hfits

/-- **The table read backwards undoes the renaming of every identifier of the source.** -/
theorem renamed_swap_renamed {t : Token} (ht : t ∈ tokens) (hid : t.isIdentifier = true) :
    renamed (entries.map Entry.swap) (renamed entries t.value) = t.value := by
  obtain ⟨e, he, hv, hnew⟩ | ⟨-, hsame⟩ := renamed_cases hfits.usable.nodup_names t.value
  · -- the alias is listed once among the names of the table read backwards
    have hnodup : ((entries.map Entry.swap).map Entry.name).Nodup := by
      rw [List.map_map]
      exact hfits.usable.nodup_aliases
    rw [hnew, hv]
    exact renamed_name hnodup (List.mem_map_of_mem he)
  · -- an identifier that stayed is no alias
    rw [hsame]
    refine renamed_of_forall_ne fun f hf => ?_
    obtain ⟨e, he, rfl⟩ := List.mem_map.mp hf
    exact (hfits.fresh.value_ne_new e he t ht hid).symm

/-- Nothing is renamed to a name. -/
theorem name_ne_renamed (v : Bytes) {e : Entry} (he : e ∈ entries) :
    e.name ≠ renamed entries v := by
  obtain ⟨f, hf, -, hnew⟩ | ⟨hne, hsame⟩ := renamed_cases hfits.usable.nodup_names v
  · rw [hnew]
    exact hfits.fresh.name_ne_new f hf e he
  · rw [hsame]
    exact hne e he

/-- The table read backwards undoes the renaming of every token. -/
theorem renameToken_swap_renameToken {t : Token} (ht : t ∈ tokens) :
    renameToken (entries.map Entry.swap) (renameToken entries t) = t := by
  cases hid : t.isIdentifier with
  | false =>
    rw [renameToken_of_not_isIdentifier hid, renameToken_of_not_isIdentifier hid]
  | true =>
    have hid' : (renameToken entries t).isIdentifier = true := by
      rw [renameToken_isIdentifier, hid]
    rw [renameToken_of_isIdentifier hid', renameToken_of_isIdentifier hid]
    simp only [renamed_swap_renamed hfits ht hid]

/-- Identifiers of the source are renamed alike only if they are alike. -/
theorem renameToken_value_inj {s t : Token} (hs : s ∈ tokens) (ht : t ∈ tokens)
    (hsid : s.isIdentifier = true) (htid : t.isIdentifier = true) :
    (renameToken entries s).value = (renameToken entries t).value ↔ s.value = t.value := by
  rw [renameToken_of_isIdentifier hsid, renameToken_of_isIdentifier htid]
  refine ⟨fun h => ?_, fun h => congrArg (renamed entries) h⟩
  calc s.value
      = renamed (entries.map Entry.swap) (renamed entries s.value) :=
        (renamed_swap_renamed hfits hs hsid).symm
    _ = renamed (entries.map Entry.swap) (renamed entries t.value) :=
        congrArg (renamed (entries.map Entry.swap)) h
    _ = t.value := renamed_swap_renamed hfits ht htid

end Fitting

/-! ### The renamed tokens -/

/-- **Renaming tokens is free of capture and reversible.** Under a table that passes the check,
an identifier that is a name becomes the alias beside it and every other token stays; identifiers
are renamed alike exactly if they are alike; and the renamed tokens under the table read backwards
are the original text. -/
theorem renameTokens_reversible {entries : List Entry} {tokens : List Token}
    (h : checkTokens entries tokens = .ok ()) :
    (∀ t ∈ tokens, t.isIdentifier = true → ∀ e ∈ entries, t.value = e.name →
      renameToken entries t = { t with value := e.new }) ∧
    (∀ t ∈ tokens, (t.isIdentifier = true → ∀ e ∈ entries, e.name ≠ t.value) →
      renameToken entries t = t) ∧
    (∀ s ∈ tokens, ∀ t ∈ tokens, s.isIdentifier = true → t.isIdentifier = true →
      ((renameToken entries s).value = (renameToken entries t).value ↔ s.value = t.value)) ∧
    renameTokens (tokens.map (renameToken entries)) (entries.map Entry.swap) =
      joinTokens tokens := by
  have hfits : Fits entries tokens := checkTokens_eq_ok_iff.mp h
  refine ⟨?_, ?_, ?_, ?_⟩
  · intro t _ hid e he hv
    rw [renameToken_of_isIdentifier hid, hv, renamed_name hfits.usable.nodup_names he]
  · intro t _ hkept
    cases hid : t.isIdentifier with
    | false => exact renameToken_of_not_isIdentifier hid
    | true => rw [renameToken_of_isIdentifier hid, renamed_of_forall_ne (hkept hid)]
  · intro s hs t ht hsid htid
    exact renameToken_value_inj hfits hs ht hsid htid
  · have hback : (tokens.map (renameToken entries)).map (renameToken (entries.map Entry.swap)) =
        tokens := by
      rw [List.map_map]
      exact (List.map_congr_left fun t ht => renameToken_swap_renameToken hfits ht).trans
        (List.map_id tokens)
    rw [renameTokens, hback]

/-- Renaming `sum` in `sum+n` and back. -/
theorem renameTokens_reversible_sum : ∃ entries tokens,
    checkTokens entries tokens = .ok () ∧ renameTokens tokens entries = utf8 "_a+n" ∧
    joinTokens tokens = utf8 "sum+n" ∧
    renameTokens (tokens.map (renameToken entries)) (entries.map Entry.swap) =
      joinTokens tokens := by
  refine ⟨[⟨utf8 "sum", utf8 "_a"⟩],
    [⟨utf8 "sum", .identifier⟩, ⟨utf8 "+", .other⟩, ⟨utf8 "n", .identifier⟩],
    rfl, by decide, by decide, ?_⟩
  exact (renameTokens_reversible rfl).2.2.2

/-- **Renaming tokens is complete.** Under a table that passes the check, no name is left among
the renamed tokens: no identifier is one, and none stands as a whole word in a token that is
neither an identifier nor part of a literal. If instead such a token of the source holds a name
and the table is fine otherwise, the table is refused for a conflict, in whatever order its entries
are listed; the name reported is the leftmost one of the first such token. -/
theorem renameTokens_complete (entries : List Entry) (tokens : List Token) :
    (checkTokens entries tokens = .ok () →
      ∀ t ∈ tokens.map (renameToken entries),
        (t.isIdentifier = true → ∀ e ∈ entries, e.name ≠ t.value) ∧
        (t.isOutside = true → ∀ s name, ¬ NameAt entries s name t.value)) ∧
    (checkEntries entries = .ok () →
      checkAliases (entries.map Entry.name)
        ((tokens.filter Token.isIdentifier).map Token.value) 0 entries = .ok () →
      (∃ t ∈ tokens, t.isOutside = true ∧ ∃ s name, NameAt entries s name t.value) →
      ∃ before t after s name, tokens = before ++ t :: after ∧
        (∀ u ∈ before, u.isOutside = true → ∀ s name, ¬ NameAt entries s name u.value) ∧
        t.isOutside = true ∧ LeftmostName entries s name t.value ∧
        ∀ others : List Entry, others.Perm entries →
          ∃ i, (others[i]?).map Entry.name = some name ∧
            checkTokens others tokens = .error (.nameStranded name i t.value) ∧
            (Refusal.nameStranded name i t.value).fault = .conflict) := by
  constructor
  · intro h t ht
    have hfits : Fits entries tokens := checkTokens_eq_ok_iff.mp h
    obtain ⟨u, hu, rfl⟩ := List.mem_map.mp ht
    cases hid : u.isIdentifier with
    | true =>
      refine ⟨fun _ e he => ?_, fun hout => ?_⟩
      · rw [renameToken_of_isIdentifier hid]
        exact name_ne_renamed hfits u.value he
      · rw [Token.isOutside, renameToken_isIdentifier, hid] at hout
        exact absurd hout Bool.false_ne_true
    | false =>
      rw [renameToken_of_not_isIdentifier hid, hid]
      refine ⟨fun hfalse => absurd hfalse Bool.false_ne_true, fun hout s name hname => ?_⟩
      exact hfits.not_strands u hu ⟨hout, s, name, hname⟩
  · rintro hentries haliases ⟨t, ht, hstrands⟩
    have husable : Usable entries := checkEntries_eq_ok_iff.mp hentries
    have hfresh : Fresh entries tokens := checkAliases_eq_ok_iff_fresh.mp haliases
    obtain ⟨before, t, after, rfl, hbefore, hout, s, name, hname⟩ :=
      exists_first_strands ht hstrands
    obtain ⟨s, name, hleft⟩ := exists_leftmostName hname
    refine ⟨before, t, after, s, name, rfl, ?_, hout, hleft, fun others hperm => ?_⟩
    · exact fun u hu hout s name hname => hbefore u hu ⟨hout, s, name, hname⟩
    · -- neither the first token nor the leftmost name depends on the order of the entries
      have hbefore' : ∀ u ∈ before, ¬ Strands others u := fun u hu hu' =>
        hbefore u hu ((strands_perm hperm).mp hu')
      obtain ⟨i, hi, herror⟩ :=
        checkOutside_of_leftmost (husable.perm hperm) hbefore' hout (hleft.perm hperm)
      refine ⟨i, hi, ?_, rfl⟩
      rw [checkTokens_eq_checkOutside (husable.perm hperm) (hfresh.perm hperm)]
      exact herror

/-- A table is accepted for a sum, and refused once a directive mentions one of its names. -/
theorem renameTokens_complete_directive : ∃ entries tokens,
    (checkTokens entries (tokens.take 2) = .ok () ∧
      ∀ t ∈ (tokens.take 2).map (renameToken entries),
        t.isIdentifier = true → ∀ e ∈ entries, e.name ≠ t.value) ∧
    ∃ t ∈ tokens, ∃ s name, LeftmostName entries s name t.value ∧
      ∃ i, checkTokens entries tokens = .error (.nameStranded name i t.value) := by
  refine ⟨[⟨utf8 "sum", utf8 "_a"⟩, ⟨utf8 "sums", utf8 "_b"⟩],
    [⟨utf8 "sum", .identifier⟩, ⟨utf8 "+", .other⟩, ⟨utf8 "#if sums", .other⟩],
    ⟨rfl, ?_⟩, ?_⟩
  · exact fun t ht => ((renameTokens_complete _ _).1 rfl t ht).1
  · have hstrands : Strands [⟨utf8 "sum", utf8 "_a"⟩, ⟨utf8 "sums", utf8 "_b"⟩]
        ⟨utf8 "#if sums", .other⟩ := by
      refine ⟨rfl, utf8 "#if ", utf8 "sums", ⟨⟨utf8 "sums", utf8 "_b"⟩, by decide, rfl⟩, [],
        by decide, fun x hx => ?_, by simp⟩
      obtain rfl := Option.some.inj hx
      rfl
    obtain ⟨before, t, after, s, name, htokens, -, -, hleft, hrefused⟩ :=
      (renameTokens_complete _
        [⟨utf8 "sum", .identifier⟩, ⟨utf8 "+", .other⟩, ⟨utf8 "#if sums", .other⟩]).2
        rfl rfl ⟨⟨utf8 "#if sums", .other⟩, by decide, hstrands⟩
    obtain ⟨i, -, herror, -⟩ := hrefused _ (List.Perm.refl _)
    refine ⟨t, ?_, s, name, hleft, i, herror⟩
    rw [htokens]
    exact List.mem_append_right before List.mem_cons_self

end KernelPack.Renaming
