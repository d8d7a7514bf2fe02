import KernelPack.Proofs.Kernel.Assembly
import KernelPack.Proofs.Lexis.Token
import KernelPack.Proofs.Renaming.Tokens
import KernelPack.Proofs.Source.Closing

/-!
# Line feeds in packed texts

A release literal has to stay on its line, so a packed text should hold no line feed. Reading,
comment removal and compaction leave none (`lf_not_mem_minify`), and replacing names in the text
brings none in (`lf_not_mem_renameText`). The exception is the renaming of **tokens**: the lexer
takes a carriage return inside a line for a line ending, and the tokens it yields have a line feed
there. `lf_mem_text_iff` says exactly when this happens: tokens are renamed, by a table that is not
empty, in a text with a carriage return.
-/

namespace KernelPack

/-! ### The text handed to renaming -/

namespace Source

/-- Collapsing blanks brings in nothing but spaces. -/
theorem mem_of_mem_collapse {x : UInt8} {text : Bytes} (h : x ∈ collapse text) :
    x ∈ text ∨ x = Byte.space := by
  refine Bytes.mem_of_mem_substituteFrom (· = Byte.space) (fun s n new hfind y hy => ?_) h
  obtain ⟨-, hnew⟩ := Option.ite_none_left_eq_some.mp hfind
  rw [← (Prod.mk.inj (Option.some.inj hnew)).2] at hy
  exact List.mem_singleton.mp hy

/-- Normalizing brings in nothing but spaces. -/
theorem mem_of_mem_normalize {x : UInt8} {lines : List Bytes} (h : x ∈ normalize lines) :
    x = Byte.space ∨ ∃ l ∈ lines, x ∈ l := by
  rw [normalize_eq] at h
  obtain h | hspace := mem_of_mem_collapse (Bytes.mem_of_mem_trim h)
  · exact Bytes.mem_joinWith h
  · exact Or.inl hspace

/-- Lines without line feeds are normalized to a text without line feeds. -/
theorem lf_not_mem_normalize {lines : List Bytes} (h : ∀ l ∈ lines, Byte.lf ∉ l) :
    Byte.lf ∉ normalize lines := by
  intro hlf
  obtain hspace | ⟨l, hl, hlf⟩ := mem_of_mem_normalize hlf
  · exact absurd hspace (by decide)
  · exact h l hl hlf

/-- Compacting a normalized text leaves no carriage return at its end. -/
theorem getLast?_compact_normalize_ne (lines : List Bytes) :
    (compact (normalize lines)).1.getLast? ≠ some Byte.cr := by
  have hspace : (normalize lines).getLast? ≠ some Byte.space :=
    Bytes.getLast?_trim_ne (a := ' ') ⟨by decide, by decide⟩ (by decide) _
  have hcr : (normalize lines).getLast? ≠ some Byte.cr :=
    Bytes.getLast?_trim_ne Rune.isAscii_cr (by decide) _
  cases hlast : (normalize lines).getLast? with
  | none =>
    rw [List.getLast?_eq_none_iff.mp hlast, List.sublist_nil.mp (compact_sublist [])]
    exact nofun
  | some x =>
    rw [hlast] at hspace hcr
    rw [getLast?_compact (by simpa [isInk] using hspace) hlast]
    exact hcr

end Source

/-- **The text handed to renaming holds no line feed.** -/
theorem lf_not_mem_minify (lines : List Bytes) (lineComments : Bool) :
    Byte.lf ∉ (minify lines lineComments).2.1 := fun h =>
  Source.lf_not_mem_normalize (fun _ hl => Source.lf_not_mem_of_mem_withoutComments hl)
    ((Source.compact_sublist _).subset h)

namespace Renaming

/-! ### Under a table -/

/-- An identifier holds no line feed. -/
theorem lf_not_mem_of_isIdentifier {v : Bytes} (h : isIdentifier v = true) : Byte.lf ∉ v :=
  fun hlf => absurd ((isWord_of_isIdentifier h).2 _ hlf) (by decide)

/-- Replacing names in a text brings in no line feed. -/
theorem lf_not_mem_renameText {text : Bytes} {entries : List Entry} (husable : Usable entries)
    (h : Byte.lf ∉ text) : Byte.lf ∉ renameText text entries := by
  have hnew : ∀ e ∈ entries, Byte.lf ∉ e.new := fun e he =>
    lf_not_mem_of_isIdentifier (husable.isIdentifier_new e he)
  rw [renameText]
  clear husable
  induction entries generalizing text with
  | nil => exact h
  | cons e entries ih =>
    rw [List.foldl_cons]
    refine ih (fun hlf => ?_) fun f hf => hnew f (List.mem_cons_of_mem e hf)
    exact (Bytes.mem_of_mem_replaceAll hlf).elim h (hnew e List.mem_cons_self)

/-- Renaming a token neither brings in a line feed nor takes one away. -/
theorem lf_mem_renameToken_iff {entries : List Entry} (husable : Usable entries) (t : Token) :
    Byte.lf ∈ (renameToken entries t).value ↔ Byte.lf ∈ t.value := by
  cases hid : t.isIdentifier with
  | false => rw [renameToken_of_not_isIdentifier hid]
  | true =>
    rw [renameToken_of_isIdentifier hid]
    obtain ⟨e, he, hname, hnew⟩ | ⟨-, hsame⟩ := renamed_cases husable.nodup_names t.value
    · rw [hnew, hname]
      exact iff_of_false (lf_not_mem_of_isIdentifier (husable.isIdentifier_new e he))
        (lf_not_mem_of_isIdentifier (husable.isIdentifier_name e he))
    · rw [hsame]

/-- Renamed tokens hold a line feed exactly if the tokens do. -/
theorem lf_mem_renameTokens_iff {entries : List Entry} (husable : Usable entries)
    (tokens : List Token) :
    Byte.lf ∈ renameTokens tokens entries ↔ Byte.lf ∈ joinTokens tokens := by
  rw [renameTokens, joinTokens, List.flatMap_map, joinTokens]
  simp only [List.mem_flatMap, lf_mem_renameToken_iff husable]

theorem resolve_eq_nil_iff {table : Table} : table.resolve = [] ↔ table.entries = [] := by
  unfold Table.resolve
  split
  · exact List.mapIdx_eq_nil_iff
  · exact Iff.rfl

/-- **What applying a table can come to**: nothing under a table without entries, else a renaming
of the text or of the tokens, by a table that passed its check. -/
theorem apply_cases {strategy : Strategy} {text out : Bytes} {table : Table}
    (h : apply strategy text table = .ok out) :
    (table.entries = [] ∧ out = text) ∨
    (table.entries ≠ [] ∧ strategy = .text ∧ checkText table.resolve = .ok () ∧
      out = renameText text table.resolve) ∨
    (table.entries ≠ [] ∧ strategy = .token ∧
      checkTokens table.resolve (tokenize text) = .ok () ∧
      out = renameTokens (tokenize text) table.resolve) := by
  simp only [apply, List.isEmpty_iff, resolve_eq_nil_iff] at h
  split at h
  · rename_i hnil
    exact Or.inl ⟨hnil, (Except.ok.inj h).symm⟩
  · rename_i hne
    cases strategy with
    | text =>
      obtain ⟨hcheck, hout⟩ := Outcome.check_bind_eq_ok_iff.mp h
      exact Or.inr (Or.inl ⟨hne, rfl, hcheck, (Except.ok.inj hout).symm⟩)
    | token =>
      obtain ⟨hcheck, hout⟩ := Outcome.check_bind_eq_ok_iff.mp h
      exact Or.inr (Or.inr ⟨hne, rfl, hcheck, (Except.ok.inj hout).symm⟩)

/-- Applying a table to a text without line feeds gives a line feed exactly if tokens are renamed
and the text holds a carriage return. -/
theorem lf_mem_apply_iff {strategy : Strategy} {text out : Bytes} {table : Table}
    (hlf : Byte.lf ∉ text) (hcr : text.getLast? ≠ some Byte.cr)
    (h : apply strategy text table = .ok out) :
    Byte.lf ∈ out ↔ strategy = .token ∧ table.entries ≠ [] ∧ Byte.cr ∈ text := by
  obtain ⟨hnil, rfl⟩ | ⟨-, rfl, hcheck, rfl⟩ | ⟨hne, rfl, hcheck, rfl⟩ := apply_cases h
  · exact iff_of_false hlf fun ⟨_, hne, _⟩ => hne hnil
  · have husable := checkEntries_eq_ok_iff.mp (Outcome.check_bind_eq_ok_iff.mp hcheck).1
    exact iff_of_false (lf_not_mem_renameText husable hlf) nofun
  · rw [lf_mem_renameTokens_iff (checkTokens_eq_ok_iff.mp hcheck).usable,
      lf_mem_joinTokens_tokenize_iff hlf hcr]
    exact ⟨fun hmem => ⟨rfl, hne, hmem⟩, fun ⟨_, _, hmem⟩ => hmem⟩

end Renaming

/-! ### Release literals -/

namespace Artifact

/-- The release literals of a text stand on one line each exactly if the text is free of line
feeds. -/
theorem onOneLine_release_iff {text : Bytes} {size : Int64} {release : List Bytes}
    (h : releaseLiterals text size = .ok release) :
    (∀ literal ∈ release, OnOneLine literal) ↔ Byte.lf ∉ text := by
  refine ⟨fun hall hlf => ?_, fun hlf _ hmem => onOneLine_of_mem_release hlf h hmem⟩
  obtain ⟨chunks, hchunks, rfl⟩ := releaseLiterals_eq_ok_iff.mp h
  rw [← flatten_of_chunk hchunks, List.mem_flatten] at hlf
  obtain ⟨c, hc, hlf⟩ := hlf
  obtain ⟨body, hbody, hfree⟩ := hall _ (List.mem_map.mpr ⟨c, hc, rfl⟩)
  have hsame : escape c = body := by
    rw [enclose, enclose, List.append_left_inj, List.append_right_inj] at hbody
    exact hbody
  exact hfree (hsame ▸ (mem_escape_iff (by decide)).mpr hlf)

end Artifact

/-- **When a packed text holds a line feed.** Whatever the lines, the comments, the table and the
strategy: the text of the artifact holds a line feed exactly if tokens are renamed, by a table that
is not empty, in a text with a carriage return. The release literals can be written, and in all
other cases each of them stands on one line. -/
theorem lf_mem_text_iff (o : PackOptions) (k : Kernel) (lines : List Bytes) {result : PackResult}
    {a : Artifact} (h : (assemble o k lines).value = .ok (result, a)) :
    (Byte.lf ∈ a.text ↔ o.strategy = .token ∧ k.table.entries ≠ [] ∧
      Byte.cr ∈ (minify lines o.lineComments).2.1) ∧
    ∃ release, Artifact.releaseLiterals a.text a.chunkSize = .ok release ∧
      ((∀ literal ∈ release, Artifact.OnOneLine literal) ↔ Byte.lf ∉ a.text) := by
  obtain ⟨text, chunks, htext, hchunks, rfl, -⟩ := assemble_eq_ok_iff.mp h
  have hrelease := Artifact.releaseLiterals_eq_ok_iff.mpr ⟨chunks, hchunks, rfl⟩
  refine ⟨?_, _, hrelease, Artifact.onOneLine_release_iff hrelease⟩
  exact Renaming.lf_mem_apply_iff (lf_not_mem_minify lines o.lineComments)
    (Source.getLast?_compact_normalize_ne _) htext

/-- A source of one line with a carriage return inside is read and assembled, and one of its
release literals is broken in two by a line feed. -/
theorem lf_mem_text_iff_carriage_return :
    ∃ lines result a release,
      Source.read (utf8 "int a;\rint b;\n") 0 = .ok lines ∧
      (assemble {} ⟨utf8 "k.cl", 0, .ofPairs [⟨utf8 "a", utf8 "x"⟩]⟩ lines).value
        = .ok (result, a) ∧
      Byte.lf ∈ a.text ∧ Artifact.releaseLiterals a.text a.chunkSize = .ok release ∧
      ¬ ∀ literal ∈ release, Artifact.OnOneLine literal := by
  have hok : (assemble {} ⟨utf8 "k.cl", 0, .ofPairs [⟨utf8 "a", utf8 "x"⟩]⟩
      [utf8 "int a;\rint b;"]).value.isOk = true := by
    decide +kernel
  obtain ⟨⟨result, a⟩, h⟩ := Outcome.exists_eq_ok_of_isOk hok
  obtain ⟨hiff, release, hrelease, hlines⟩ := lf_mem_text_iff _ _ _ h
  have hlf : Byte.lf ∈ a.text := hiff.mpr ⟨rfl, by decide, by decide +kernel⟩
  exact ⟨_, result, a, release, rfl, h, hlf, hrelease, fun hall => hlines.mp hall hlf⟩

end KernelPack
