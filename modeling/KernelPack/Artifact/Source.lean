import KernelPack.Artifact.Literal
import KernelPack.Text.Letter

/-!
# Generated sources

A packed kernel is delivered as two C sources. The **definition** defines a character array and
its length; the preprocessor chooses between the readable debug literals and the compact release
literals by whether the debug macro is defined. The **declaration** is the header that announces
both names to C and C++ callers, behind an include guard made from the symbol.
-/

namespace KernelPack

/-- What one kernel's C sources are written from. -/
structure Artifact where
  /-- The name of the character array. -/
  symbol : Bytes
  /-- The source lines without comments. -/
  debugLines : List Bytes
  /-- The packed text, not escaped. -/
  text : Bytes
  /-- The number of bytes per release literal; not positive means the default. -/
  chunkSize : Int64
  /-- The macro that selects the debug literals; empty means the default. -/
  debugMacro : Bytes
  deriving DecidableEq

namespace Artifact

/-- The macro that selects the debug literals, unless told otherwise. -/
def standardDebugMacro : Bytes := utf8 "OPENCL_DBG_MODE"

/-- One literal per line; without any, an empty literal keeps the C source well-formed. -/
def literalLines (literals : List Bytes) : Bytes :=
  (if literals.isEmpty then [enclose []] else literals).flatMap (· ++ [Byte.lf])

/-- The C source that defines the array, from its two sets of literals. -/
def definitionText (symbol switch : Bytes) (debug release : List Bytes) : Bytes :=
  utf8 "const char " ++ symbol ++ utf8 "[] = \n\n\n"
    ++ utf8 "#if defined(" ++ switch ++ utf8 ")\n\n\n"
    ++ literalLines debug
    ++ utf8 "\n\n#else /* defined(" ++ switch ++ utf8 ") */\n\n\n"
    ++ literalLines release
    ++ utf8 "\n\n#endif /* defined(" ++ switch ++ utf8 ") */\n\n\n"
    ++ utf8 ";\n\n\n"
    ++ utf8 "const unsigned " ++ symbol ++ utf8 "_len = sizeof(" ++ symbol ++ utf8 ");\n"

/-- The definition of an artifact, unless cutting its text crashes. -/
def definition (a : Artifact) : Except Crash Bytes := do
  let release ← releaseLiterals a.text a.chunkSize
  let switch := if a.debugMacro.isEmpty then standardDebugMacro else a.debugMacro
  return definitionText a.symbol switch (debugLiterals a.debugLines) release

/-- The include guard of a symbol's header. -/
def guard (symbol : Bytes) : Bytes := symbol.upper ++ utf8 "_H"

/-- The header of an artifact. -/
def declaration (a : Artifact) : Bytes :=
  let g := guard a.symbol
  utf8 "#ifndef " ++ g ++ utf8 "\n#define " ++ g ++ utf8 "\n\n\n\n"
    ++ utf8 "#ifdef __cplusplus\nextern \"C\" \x7b\n#endif\n\n\n\n"
    ++ utf8 "extern const char     " ++ a.symbol ++ utf8 "[];\n"
    ++ utf8 "extern const unsigned " ++ a.symbol ++ utf8 "_len;\n"
    ++ utf8 "\n\n\n#ifdef __cplusplus\n\x7d\n#endif\n\n\n\n"
    ++ utf8 "#endif /* " ++ g ++ utf8 " */\n"

end Artifact

end KernelPack
