import KernelPack.Text.Numeral

/-!
# Log records

What the program reports about its work as it goes: a level, a message, and attributes with their
values as text.
-/

namespace KernelPack

/-- How important a record is. -/
inductive LogLevel where
  | debug
  | info
  | error
  deriving DecidableEq, Repr

/-- The word for a level. -/
def LogLevel.label : LogLevel → Bytes
  | .debug => utf8 "DEBUG"
  | .info => utf8 "INFO"
  | .error => utf8 "ERROR"

/-- One report. -/
structure LogRecord where
  level : LogLevel
  message : Bytes
  attributes : List (Bytes × Bytes)
  deriving DecidableEq, Repr

namespace LogRecord

/-- A numeric attribute. -/
def number (key : String) (n : Int) : Bytes × Bytes := (utf8 key, Numeral.decimal n)

/-- A textual attribute. -/
def text (key : String) (b : Bytes) : Bytes × Bytes := (utf8 key, b)

/-- A text was compacted. -/
def compacted (kernel : Bytes) (passes : Nat) : LogRecord :=
  ⟨.debug, utf8 "compacted", [text "kernel" kernel, number "passes" passes]⟩

/-- A kernel went through without being written. -/
def checked (kernel : Bytes) (bytes : Int) : LogRecord :=
  ⟨.info, utf8 "kernel processed (dry run)", [text "kernel" kernel, number "bytes" bytes]⟩

/-- A kernel was written. -/
def generated (kernel symbol : Bytes) (sourceBytes minifiedBytes chunks : Int) : LogRecord :=
  ⟨.info, utf8 "kernel generated",
    [text "kernel" kernel, text "symbol" symbol, number "source_bytes" sourceBytes,
      number "minified_bytes" minifiedBytes, number "chunks" chunks]⟩

/-- A kernel of a run failed. -/
def failed (kernel error : Bytes) : LogRecord :=
  ⟨.error, utf8 "kernel failed", [text "kernel" kernel, text "error" error]⟩

/-- A kernel failed while its source is being watched. -/
def rebuildFailed (kernel error : Bytes) : LogRecord :=
  ⟨.error, utf8 "rebuild failed", [text "kernel" kernel, text "error" error]⟩

/-- A directory is being watched. -/
def watching (dir : Bytes) : LogRecord :=
  ⟨.debug, utf8 "watching directory", [text "dir" dir]⟩

/-- A watched source changed. -/
def changed (kernel operations : Bytes) : LogRecord :=
  ⟨.debug, utf8 "source changed", [text "kernel" kernel, text "op" operations]⟩

end LogRecord

end KernelPack
