import KernelPack.Kernel.Pack
import KernelPack.Proofs.Path.Components

/-!
# The files of a kernel

A kernel is written as two files, named after its symbol, in the output directory (`outputs`). A
symbol is made of word bytes, so it names a file whatever the kernel is called, and two kernels
write different files exactly if their symbols differ (`nodup_outputs_iff`).

Making a symbol is not injective: every byte that cannot stand in an identifier becomes an
underscore. It keeps names apart that need no such replacement (`symbolOf_inj`).
-/

namespace KernelPack

/-! ### Symbols -/

/-- A symbol consists of word bytes. -/
theorem isWord_of_mem_sanitize {b : Bytes} {x : UInt8} (h : x ∈ sanitize b) :
    Byte.isWord x = true := by
  have hbyte : ∀ first y, Byte.isWord (symbolByte first y) = true := by
    intro first y
    unfold symbolByte
    split
    · rename_i hkept
      rw [Byte.isWord, Bool.or_eq_true]
      rw [Bool.or_eq_true, Bool.and_eq_true] at hkept
      exact hkept.imp_right And.left
    · decide
  cases b with
  | nil => exact absurd h List.not_mem_nil
  | cons y t =>
    obtain rfl | h := List.mem_cons.mp h
    · exact hbyte true y
    · obtain ⟨z, -, rfl⟩ := List.mem_map.mp h
      exact hbyte false z

/-- A word byte can stand in a symbol after the first place. -/
theorem symbolByte_of_isWord {x : UInt8} (h : Byte.isWord x = true) : symbolByte false x = x := by
  rw [symbolByte, if_pos]
  simpa [Byte.isWord] using h

/-- A name that can stand in a symbol as it is: made of word bytes, and not beginning with a digit
where nothing stands before it. -/
structure FitsSymbol (start name : Bytes) : Prop where
  isWord : ∀ x ∈ name, Byte.isWord x = true
  not_isDigit : start = [] → ∀ x ∈ name.head?, Byte.isDigit x = false

/-- The symbol of a name that fits is made from what it begins with, and the name. -/
theorem FitsSymbol.symbolOf_eq {start name : Bytes} (h : FitsSymbol start name) :
    symbolOf start name = sanitize start ++ name := by
  have hmap : ∀ t : Bytes, (∀ x ∈ t, Byte.isWord x = true) → t.map (symbolByte false) = t := by
    intro t ht
    rw [List.map_congr_left fun x hx => symbolByte_of_isWord (ht x hx), List.map_id']
  rw [symbolOf]
  cases start with
  | cons b t =>
    rw [List.cons_append, sanitize, List.map_append, hmap name h.isWord]
    rfl
  | nil =>
    cases name with
    | nil => rfl
    | cons x t =>
      have hx := h.isWord x List.mem_cons_self
      have hdigit := h.not_isDigit rfl x rfl
      have hstart : Byte.isNameStart x = true := by
        rw [Byte.isWord, hdigit, Bool.or_false] at hx
        exact hx
      have hrest := hmap t fun y hy => h.isWord y (List.mem_cons_of_mem x hy)
      have hempty : sanitize [] = [] := rfl
      rw [hempty, List.nil_append, sanitize, hrest, symbolByte, hstart]
      rfl

/-- **Names that fit have different symbols.** -/
theorem symbolOf_inj {start n m : Bytes} (hn : FitsSymbol start n) (hm : FitsSymbol start m)
    (h : symbolOf start n = symbolOf start m) : n = m := by
  rw [hn.symbolOf_eq, hm.symbolOf_eq] at h
  exact List.append_cancel_left h

/-! ### Files -/

namespace PackOptions

/-- The path of the definition of a kernel. -/
def definitionPath (o : PackOptions) (k : Kernel) : Bytes :=
  Path.join [o.outputDir, o.symbol k ++ utf8 ".c"]

/-- The path of the declaration of a kernel. -/
def declarationPath (o : PackOptions) (k : Kernel) : Bytes :=
  Path.join [o.outputDir, o.symbol k ++ utf8 ".h"]

/-- The paths of the files of a kernel. -/
def outputs (o : PackOptions) (k : Kernel) : List Bytes :=
  [o.definitionPath k, o.declarationPath k]

/-- A symbol with an extension names a file. -/
theorem isName_symbol_append (o : PackOptions) (k : Kernel) {x : UInt8}
    (hx : x ≠ Byte.slash ∧ x ≠ Byte.dot) :
    Path.IsName (o.symbol k ++ [Byte.dot, x]) where
  ne_nil := by simp
  slash_not_mem h := by
    obtain h | h := List.mem_append.mp h
    · exact absurd (isWord_of_mem_sanitize h) (by decide)
    · obtain h | h := List.mem_cons.mp h
      · exact absurd h (by decide)
      · exact hx.1 (List.mem_singleton.mp h).symm
  ne_here h := by
    have hlast := congrArg List.getLast? h
    simp [Path.here, hx.2] at hlast
  ne_up h := by
    have hlast := congrArg List.getLast? h
    simp [Path.up, hx.2] at hlast

theorem isName_definition (o : PackOptions) (k : Kernel) :
    Path.IsName (o.symbol k ++ utf8 ".c") :=
  o.isName_symbol_append k (x := 99) (by decide)

theorem isName_declaration (o : PackOptions) (k : Kernel) :
    Path.IsName (o.symbol k ++ utf8 ".h") :=
  o.isName_symbol_append k (x := 104) (by decide)

/-- Definitions and declarations never have one name. -/
theorem definition_name_ne_declaration_name (o : PackOptions) (k l : Kernel) :
    o.symbol k ++ utf8 ".c" ≠ o.symbol l ++ utf8 ".h" := by
  intro h
  have hlast := congrArg List.getLast? h
  rw [List.getLast?_append, List.getLast?_append, show (utf8 ".c").getLast? = some 99 from rfl,
    show (utf8 ".h").getLast? = some 104 from rfl, Option.some_or, Option.some_or] at hlast
  exact absurd hlast (by decide)

/-- Definitions and declarations never have one path. -/
theorem definitionPath_ne_declarationPath (o : PackOptions) (k l : Kernel) :
    o.definitionPath k ≠ o.declarationPath l := fun h =>
  o.definition_name_ne_declaration_name k l
    (Path.join_inj (o.isName_definition k) (o.isName_declaration l) h)

theorem definitionPath_eq_iff {o : PackOptions} {k l : Kernel} :
    o.definitionPath k = o.definitionPath l ↔ o.symbol k = o.symbol l := by
  refine ⟨fun h => ?_, fun h => by rw [definitionPath, definitionPath, h]⟩
  exact List.append_cancel_right
    (Path.join_inj (o.isName_definition k) (o.isName_definition l) h)

theorem declarationPath_eq_iff {o : PackOptions} {k l : Kernel} :
    o.declarationPath k = o.declarationPath l ↔ o.symbol k = o.symbol l := by
  refine ⟨fun h => ?_, fun h => by rw [declarationPath, declarationPath, h]⟩
  exact List.append_cancel_right
    (Path.join_inj (o.isName_declaration k) (o.isName_declaration l) h)

/-- **Two kernels write four different files exactly if their symbols differ.** -/
theorem nodup_outputs_iff {o : PackOptions} {k l : Kernel} :
    (o.outputs k ++ o.outputs l).Nodup ↔ o.symbol k ≠ o.symbol l := by
  have hself := o.definitionPath_ne_declarationPath k k
  have hother := o.definitionPath_ne_declarationPath l l
  have hcross := o.definitionPath_ne_declarationPath k l
  have hcross' := (o.definitionPath_ne_declarationPath l k).symm
  simp [outputs, hself, hother, hcross, hcross', definitionPath_eq_iff, declarationPath_eq_iff]

end PackOptions

end KernelPack
