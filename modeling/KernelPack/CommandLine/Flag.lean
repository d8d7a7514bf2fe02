import KernelPack.CommandLine.Duration
import KernelPack.Text.Quoted

/-!
# Flags

A flag has a name, after two dashes, and may have a letter, after one. A **switch** needs no value
and takes one only after an equals sign; every other flag takes the rest of its argument or the next
argument. Letters may be put together after one dash, up to the first that takes a value. Flags and
other arguments may be mixed; after `--` there are no more flags. Reading stops at the first fault.
-/

namespace KernelPack

/-- What a flag takes. -/
inductive FlagKind where
  | text
  | switch
  | integer
  | duration
  deriving DecidableEq, Repr

/-- A flag of a command. -/
structure Flag where
  name : String
  letter : Option Char := none
  kind : FlagKind := .text
  deriving DecidableEq, Repr

/-- The value that a flag was given. -/
inductive FlagValue where
  | text (b : Bytes)
  | truth (b : Bool)
  | integer (n : Int)
  /-- A duration in nanoseconds. -/
  | duration (n : Int)
  deriving DecidableEq, Repr

/-! ### Faults -/

/-- What is wrong with the value of a flag. -/
inductive FlagValueError where
  | integer (text : Bytes) (cause : Numeral.Fault)
  | truth (text : Bytes)
  | duration (cause : DurationError)
  deriving DecidableEq, Repr

/-- What is wrong, in words. -/
def FlagValueError.message : FlagValueError → Bytes
  | .integer text cause =>
    utf8 "strconv.ParseInt: parsing " ++ text.quoted ++ utf8 ": " ++ cause.message
  | .truth text => utf8 "strconv.ParseBool: parsing " ++ text.quoted ++ utf8 ": invalid syntax"
  | .duration cause => cause.message

/-- Why arguments cannot be read. -/
inductive FlagError where
  /-- Two dashes, but no name after them. -/
  | malformed (argument : Bytes)
  | unknown (name : Bytes)
  /-- An unknown letter, with the letters from it on. -/
  | unknownLetter (letter : UInt8) (letters : Bytes)
  | noValue (name : String)
  | noLetterValue (letter : UInt8) (letters : Bytes)
  | badValue (flag : Flag) (value : Bytes) (cause : FlagValueError)
  deriving DecidableEq, Repr

/-- How messages name a flag. -/
def Flag.label (f : Flag) : Bytes :=
  (match f.letter with
    | some c => utf8 "-" ++ Bytes.ofChars [c] ++ utf8 ", "
    | none => []) ++ utf8 "--" ++ utf8 f.name

/-- A letter between single quotes. A byte that is no ASCII character is shown as the character
that the first byte of its own encoding is the code of. -/
def quotedLetter (b : UInt8) : Bytes :=
  let shown : Char := if b < 128 then Char.ofNat b.toNat else if b < 192 then '\u00c2' else '\u00c3'
  let body := if shown == '\'' then utf8 "\\'"
    else if shown == '"' then utf8 "\""
    else Quoted.rune (.scalar shown)
  utf8 "'" ++ body ++ utf8 "'"

/-- The reason in words. -/
def FlagError.message : FlagError → Bytes
  | .malformed argument => utf8 "bad flag syntax: " ++ argument
  | .unknown name => utf8 "unknown flag: --" ++ name
  | .unknownLetter letter letters =>
    utf8 "unknown shorthand flag: " ++ quotedLetter letter ++ utf8 " in -" ++ letters
  | .noValue name => utf8 "flag needs an argument: --" ++ utf8 name
  | .noLetterValue letter letters =>
    utf8 "flag needs an argument: " ++ quotedLetter letter ++ utf8 " in -" ++ letters
  | .badValue flag value cause =>
    utf8 "invalid argument " ++ value.quoted ++ utf8 " for " ++ flag.label.quoted
      ++ utf8 " flag: " ++ cause.message

/-! ### Reading -/

/-- The value that a text stands for, as the value of a flag. -/
def Flag.read (f : Flag) (value : Bytes) : Except FlagError FlagValue :=
  match f.kind with
  | .text => .ok (.text value)
  | .switch =>
    match Numeral.truth? value with
    | some b => .ok (.truth b)
    | none => .error (.badValue f value (.truth value))
  | .integer =>
    match Numeral.integer value with
    | .ok n => .ok (.integer n)
    | .error e => .error (.badValue f value (.integer value e))
  | .duration =>
    match Duration.parse value with
    | .ok n => .ok (.duration n)
    | .error e => .error (.badValue f value (.duration e))

/-- Arguments that have been read: the flags with their values, and the other arguments. -/
structure Arguments where
  /-- The flags in the order given. -/
  flags : List (String × FlagValue) := []
  /-- Everything else. -/
  words : List Bytes := []
  deriving DecidableEq, Repr

namespace Arguments

/-- The value of a flag: the last that it was given. -/
def get? (a : Arguments) (name : String) : Option FlagValue := a.flags.reverse.lookup name

/-- The text of a flag, if it was given. -/
def text? (a : Arguments) (name : String) : Option Bytes :=
  match a.get? name with
  | some (.text b) => some b
  | _ => none

/-- Is the switch on? -/
def isOn (a : Arguments) (name : String) : Bool := a.get? name == some (.truth true)

/-- The integer of a flag. -/
def integer (a : Arguments) (name : String) (otherwise : Int) : Int :=
  match a.get? name with
  | some (.integer n) => n
  | _ => otherwise

/-- The duration of a flag. -/
def duration (a : Arguments) (name : String) (otherwise : Int) : Int :=
  match a.get? name with
  | some (.duration n) => n
  | _ => otherwise

end Arguments

/-- What one argument gives: values for flags, and perhaps a flag that takes its value from the
next argument, with what to report if there is none. -/
structure Reading where
  values : List (String × FlagValue)
  pending : Option (Flag × FlagError)

/-- An argument with two dashes, which `body` follows. -/
def readLong (flags : List Flag) (argument body : Bytes) : Except FlagError Reading :=
  if body.isEmpty || body.head? == some 45 || body.head? == some 61 then
    .error (.malformed argument)
  else
    let name := body.takeWhile (· != 61)
    match flags.find? (utf8 ·.name = name) with
    | none => .error (.unknown name)
    | some f =>
      match body.dropWhile (· != 61), f.kind with
      | _ :: value, _ => (f.read value).map fun v => ⟨[(f.name, v)], none⟩
      | [], .switch => .ok ⟨[(f.name, .truth true)], none⟩
      | [], _ => .ok ⟨[], some (f, .noValue f.name)⟩

/-- The flags that letters after one dash name. -/
def readLetters (flags : List Flag) : Bytes → Except FlagError Reading
  | [] => .ok ⟨[], none⟩
  | b :: t =>
    match flags.find? (·.letter == some (Char.ofNat b.toNat)) with
    | none => .error (.unknownLetter b (b :: t))
    | some f =>
      match t, f.kind with
      | 61 :: c :: r, _ => (f.read (c :: r)).map fun v => ⟨[(f.name, v)], none⟩
      | _, .switch =>
        (readLetters flags t).map fun r => ⟨(f.name, .truth true) :: r.values, r.pending⟩
      | [], _ => .ok ⟨[], some (f, .noLetterValue b [b])⟩
      | _, _ => (f.read t).map fun v => ⟨[(f.name, v)], none⟩

/-- Reads arguments, given the flags that there are. -/
def readArguments (flags : List Flag) : List Bytes → Except FlagError Arguments
  | [] => .ok {}
  | s :: rest =>
    let continued (values : List (String × FlagValue)) (a : Except FlagError Arguments) :=
      a.map fun a => { a with flags := values ++ a.flags }
    let reading := match s with
      | 45 :: 45 :: body => some (readLong flags s body)
      | 45 :: b :: t => some (readLetters flags (b :: t))
      | _ => none
    if s = utf8 "--" then .ok { words := rest }
    else match reading with
      | none => (readArguments flags rest).map fun a => { a with words := s :: a.words }
      | some (.error e) => .error e
      | some (.ok ⟨values, none⟩) => continued values (readArguments flags rest)
      | some (.ok ⟨values, some (f, missing)⟩) =>
        match rest with
        | [] => .error missing
        | value :: rest =>
          match f.read value with
          | .error e => .error e
          | .ok v => continued (values ++ [(f.name, v)]) (readArguments flags rest)

end KernelPack
