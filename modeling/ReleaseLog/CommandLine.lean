import ReleaseLog.Report
import ReleaseLog.Rule

/-!
# Command lines

The words of a command line are read from left to right. An argument is stored when the next one
begins, so that a word which is no argument at all is noticed before a wrong value in front of it.
-/

namespace ReleaseLog

structure Arguments where
  files : List Path := []
  config : Option Path := none
  format : Option Format := none
  watch : Bool := false
  disabled : List Rule := []
  logLevel : Option Text := none
  stdio : Bool := false
deriving DecidableEq, Repr

namespace CommandLine

/-- Why a command line gives no arguments. -/
inductive Refusal
  | unknownArgument
  | invalidValue
  /-- An argument is given twice that may be given once. -/
  | repeatedArgument
  /-- A switch is given a value. -/
  | unexpectedValue
  | malformedText
  /-- Not an error: the help is asked for. -/
  | help
  /-- Not an error: the version is asked for. -/
  | version
deriving DecidableEq, Repr

/-- What a refusal tells the user. -/
def Refusal.message : Refusal → Text
  | .unknownArgument => "unexpected argument".toList
  | .invalidValue => "invalid or missing value of an argument".toList
  | .repeatedArgument => "an argument cannot be used multiple times".toList
  | .unexpectedValue => "unexpected value of a flag".toList
  | .malformedText => "invalid UTF-8 in an argument".toList
  | .help | .version => []

/-! ## Words -/

inductive Switch
  | help
  | version
  | watch
  | stdio
deriving DecidableEq, Repr

def Switch.name : Switch → String
  | .help => "help"
  | .version => "version"
  | .watch => "watch"
  | .stdio => "stdio"

inductive Slot
  | config
  | format
  | disable
  | logLevel
deriving DecidableEq, Repr

def Slot.name : Slot → String
  | .config => "config"
  | .format => "format"
  | .disable => "disable"
  | .logLevel => "log-level"

/-- The part that a word plays before the separator. -/
inductive Word
  /-- The separator: only files follow. -/
  | separator
  | switch (s : Switch)
  /-- A switch with a value, which it does not take. -/
  | valuedSwitch
  /-- The name of a slot, which may have its value attached. -/
  | slot (s : Slot) (value : Option Bytes)
  /-- A name that nothing bears. -/
  | unknown
  /-- A file, or the value of a slot. -/
  | plain (value : Bytes)
deriving DecidableEq, Repr

def equals : UInt8 := 0x3D

def Switch.ofName? (name : Bytes) : Option Switch :=
  [Switch.help, .version, .watch, .stdio].find? fun s => Utf8.encode s.name.toList == name

def Slot.ofName? (name : Bytes) : Option Slot :=
  [Slot.config, .format, .disable, .logLevel].find? fun s => Utf8.encode s.name.toList == name

/-- The word with this name and attached value. -/
def Word.named (name : Bytes) (value : Option Bytes) : Word :=
  match Switch.ofName? name, Slot.ofName? name with
  | some s, _ => if value.isSome then .valuedSwitch else .switch s
  | none, some s => .slot s value
  | none, none => .unknown

/-- Reads a word. The first letter after a single dash decides, since no letter takes a value. -/
def Word.ofBytes (word : Bytes) : Word :=
  match word with
  | 0x2D :: 0x2D :: [] => .separator
  | 0x2D :: 0x2D :: rest =>
    .named (rest.takeWhile (· ≠ equals)) (rest.dropWhile (· ≠ equals)).tail?
  | 0x2D :: letter :: _ =>
    if letter = 0x68 then .switch .help
    else if letter = 0x56 then .switch .version
    else .unknown
  | _ => .plain word

/-! ## Values -/

def path? (value : Bytes) : Except Refusal Path :=
  if value.isEmpty then .error .invalidValue else .ok ⟨value⟩

def named? {α : Type} (ofName? : Text → Option α) (value : Bytes) : Except Refusal α :=
  match (Utf8.decode? value).bind ofName? with
  | some a => .ok a
  | none => .error .invalidValue

def text? (value : Bytes) : Except Refusal Text :=
  match Utf8.decode? value with
  | some s => .ok s
  | none => .error .malformedText

/-- Refuses what is given already. -/
def once (given : Bool) : Except Refusal Unit :=
  if given then .error .repeatedArgument else .ok ()

end CommandLine

namespace Arguments

open CommandLine

def withFiles (args : Arguments) (words : List Bytes) : Except Refusal Arguments := do
  let files ← words.mapM path?
  return { args with files := args.files ++ files }

/-- Stores the value of a slot. Only rules are disabled more than once. -/
def withValue (args : Arguments) (value : Bytes) : Slot → Except Refusal Arguments
  | .config => do
    once args.config.isSome
    return { args with config := some (← path? value) }
  | .format => do
    once args.format.isSome
    return { args with format := some (← named? Format.ofName? value) }
  | .disable => do
    return { args with disabled := args.disabled ++ [← named? Rule.ofName? value] }
  | .logLevel => do
    once args.logLevel.isSome
    return { args with logLevel := some (← text? value) }

def withSwitch (args : Arguments) : Switch → Except Refusal Arguments
  | .help => .error .help
  | .version => .error .version
  | .watch => do
    once args.watch
    return { args with watch := true }
  | .stdio => do
    once args.stdio
    return { args with stdio := true }

end Arguments

namespace CommandLine

/-! ## Scanning -/

/-- What was read but is not stored yet. -/
inductive Pending
  | nothing
  | files (words : List Bytes)
  | slot (s : Slot) (value : Option Bytes)
deriving DecidableEq, Repr

/-- The state between two words. -/
structure Scan where
  stored : Arguments := {}
  pending : Pending := .nothing
  onlyFiles : Bool := false
deriving Repr

/-- The arguments with what was pending. -/
def Scan.finish (st : Scan) : Except Refusal Arguments :=
  match st.pending with
  | .nothing => .ok st.stored
  | .files words => st.stored.withFiles words
  | .slot _ none => .error .invalidValue
  | .slot s (some value) => st.stored.withValue value s

/-- Reads a file. Neighbouring files are stored together. -/
def Scan.addFile (st : Scan) (word : Bytes) : Except Refusal Scan :=
  match st.pending with
  | .files words => .ok { st with pending := .files (words ++ [word]) }
  | _ => do return { st with stored := ← st.finish, pending := .files [word] }

def Scan.step (st : Scan) (word : Bytes) : Except Refusal Scan :=
  if st.onlyFiles then st.addFile word
  else
    match Word.ofBytes word with
    | .separator => .ok { st with onlyFiles := true }
    | .unknown => .error .unknownArgument
    | .valuedSwitch => .error .unexpectedValue
    | .switch s => do
      return { st with stored := ← (← st.finish).withSwitch s, pending := .nothing }
    | .slot s (some value) => do
      return { st with stored := ← (← st.finish).withValue value s, pending := .nothing }
    | .slot s none => do
      return { st with stored := ← st.finish, pending := .slot s none }
    | .plain value =>
      match st.pending with
      | .slot s none => .ok { st with pending := .slot s (some value) }
      | _ => st.addFile value

end CommandLine

/-- The arguments that the words of a command line give, without the name of the program. -/
def Arguments.ofWords (words : List Bytes) : Except CommandLine.Refusal Arguments := do
  let st ← words.foldlM CommandLine.Scan.step {}
  st.finish

end ReleaseLog
