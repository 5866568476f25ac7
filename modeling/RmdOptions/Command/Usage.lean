import RmdOptions.Options.Edits

/-!
# The command line

The command takes one file, options with a value, and flags. Arguments are read from left to right.
A value may be attached to its option by an equals sign or be the next argument, unless that looks
like an option itself; after a bare double dash nothing looks like an option any more.

A value that is not attached is looked at only when the next option, flag or file is met, or at the
end. So of two things that are wrong, an argument that the command does not know is reported before
a bad value that precedes it directly, and every other fault after it.

* `Arguments` — what the command is asked to do;
* `UsageError` — what can be wrong;
* `Arguments.parse` — reading arguments.
-/

namespace RmdOptions

/-- What the command is asked to do. -/
structure Arguments where
  /-- the file to edit -/
  file : Text
  /-- the line of the chunk to edit, counted from one -/
  chunk : Option Nat := none
  /-- the edit -/
  edits : Edits := {}
  /-- the configuration file -/
  config : Option Text := none
  /-- whether only to print the options that are set -/
  printBaseline : Bool := false
  /-- whether to write the file instead of printing it -/
  inPlace : Bool := false
  deriving DecidableEq

/-- What can be wrong with a command line, help and version being asked for included. -/
inductive UsageError where
  /-- help is asked for -/
  | displayHelp
  /-- the version is asked for -/
  | displayVersion
  /-- an option, flag or further file that the command does not know -/
  | unknownArgument
  /-- a flag with a value -/
  | tooManyValues
  /-- an option or flag given twice -/
  | argumentConflict
  /-- a value that is missing, or is not one of the possible values -/
  | invalidValue
  /-- a value that cannot be read -/
  | valueValidation
  /-- no file -/
  | missingRequiredArgument
  deriving DecidableEq

namespace Command

/-- What takes a value. -/
inductive Slot where
  /-- the file -/
  | file
  /-- the line of the chunk -/
  | chunk
  /-- a value for `echo` -/
  | echo
  /-- a value for `eval` -/
  | eval
  /-- a value for `include` -/
  | included
  /-- a truth value for `message` -/
  | message
  /-- a truth value for `warning` -/
  | warning
  /-- a value for `fig.width` -/
  | figWidth
  /-- a value for `fig.height` -/
  | figHeight
  /-- the configuration file -/
  | config
  deriving DecidableEq

/-- What takes no value. -/
inductive Flag where
  /-- print the options that are set -/
  | printBaseline
  /-- write the file -/
  | inPlace
  /-- ask for help -/
  | help
  /-- ask for the version -/
  | version
  deriving DecidableEq

/-- The names of the options that take a value, without their dashes. -/
def slotNames : List (Text × Slot) :=
  [("chunk".toList, .chunk), ("echo".toList, .echo), ("eval".toList, .eval),
    ("include".toList, .included), ("message".toList, .message), ("warning".toList, .warning),
    ("fig-width".toList, .figWidth), ("fig-height".toList, .figHeight),
    ("config".toList, .config)]

/-- The names of the flags, without their dashes. -/
def flagNames : List (Text × Flag) :=
  [("print-baseline".toList, .printBaseline), ("in-place".toList, .inPlace),
    ("help".toList, .help), ("version".toList, .version)]

/-- The flags of one letter. -/
def flagLetters : List (Char × Flag) := [('h', .help), ('V', .version)]

/-! ## Values -/

/-- A line number: digits, perhaps after a plus sign, that fit in 64 bits. -/
def lineNumber? (t : Text) : Option Nat :=
  let digits := (Text.after? ['+'] t).getD t
  if digits.isEmpty ∨ ¬ digits.all Char.isDigit then none
  else
    let n := digits.foldl (fun n c => n * 10 + (c.toNat - 48)) 0
    if n ≤ 0xFFFFFFFFFFFFFFFF then some n else none

/-- A checkbox. -/
def checkbox? (t : Text) : Option Checkbox :=
  if t = "true".toList then some .checked
  else if t = "false".toList then some .unchecked
  else none

/-- What has been read of a command line. -/
structure State where
  /-- the arguments so far; their file counts only when it has been filled -/
  arguments : Arguments := { file := [] }
  /-- what has had a value -/
  filled : List Slot := []
  /-- the flags that have been given -/
  flags : List Flag := []
  /-- what waits for its value, or for its value to be looked at -/
  pending : Option (Slot × Option Text) := none
  /-- whether a file has been met -/
  hasFile : Bool := false
  /-- whether nothing looks like an option any more -/
  trailing : Bool := false

namespace State

/-- Stores the value of a slot, if it is a possible one. -/
def store (a : Arguments) (value : Text) : Slot → Except UsageError Arguments
  | .file => if value.isEmpty then .error .invalidValue else .ok { a with file := value }
  | .chunk =>
    match lineNumber? value with
    | some n => .ok { a with chunk := some n }
    | none => .error .valueValidation
  | .echo => .ok { a with edits := { a.edits with echo := some value } }
  | .eval => .ok { a with edits := { a.edits with eval := some value } }
  | .included => .ok { a with edits := { a.edits with included := some value } }
  | .message =>
    match checkbox? value with
    | some state => .ok { a with edits := { a.edits with message := state } }
    | none => .error .invalidValue
  | .warning =>
    match checkbox? value with
    | some state => .ok { a with edits := { a.edits with warning := state } }
    | none => .error .invalidValue
  | .figWidth => .ok { a with edits := { a.edits with figWidth := value } }
  | .figHeight => .ok { a with edits := { a.edits with figHeight := value } }
  | .config => if value.isEmpty then .error .invalidValue else .ok { a with config := some value }

/-- Fills a slot. It must have a value, for the first time, and a possible one. -/
def fill (s : State) (slot : Slot) (value : Option Text) : Except UsageError State :=
  match value with
  | none => .error .invalidValue
  | some value =>
    if slot ∈ s.filled then .error .argumentConflict
    else
      match store s.arguments value slot with
      | .error e => .error e
      | .ok arguments => .ok { s with arguments, filled := slot :: s.filled }

/-- Looks at the value that waits. -/
def settle (s : State) : Except UsageError State :=
  match s.pending with
  | none => .ok s
  | some (slot, value) => { s with pending := none }.fill slot value

/-! ## Arguments one by one -/

/-- Raises a flag. -/
def raise (s : State) (flag : Flag) : Except UsageError State :=
  match s.settle with
  | .error e => .error e
  | .ok s =>
    match flag with
    | .help => .error .displayHelp
    | .version => .error .displayVersion
    | .printBaseline =>
      if flag ∈ s.flags then .error .argumentConflict
      else .ok { s with
        arguments := { s.arguments with printBaseline := true }, flags := flag :: s.flags }
    | .inPlace =>
      if flag ∈ s.flags then .error .argumentConflict
      else .ok { s with
        arguments := { s.arguments with inPlace := true }, flags := flag :: s.flags }

/-- Reads an option or flag by its long name, with the value attached to it. -/
def long (s : State) (name : Text) (value : Option Text) : Except UsageError State :=
  match slotNames.lookup name with
  | some slot =>
    match s.settle with
    | .error e => .error e
    | .ok s =>
      match value with
      | some _ => s.fill slot value
      | none => .ok { s with pending := some (slot, none) }
  | none =>
    match flagNames.lookup name with
    | none => .error .unknownArgument
    | some flag => if value.isSome then .error .tooManyValues else s.raise flag

/-- Reads flags by their letters, of which the first decides. -/
def short (s : State) : Text → Except UsageError State
  | [] => .error .unknownArgument
  | c :: _ =>
    match flagLetters.lookup c with
    | none => .error .unknownArgument
    | some flag => s.raise flag

/-- Reads an argument that is neither an option nor a value: the file. -/
def positional (s : State) (value : Text) : Except UsageError State :=
  if s.hasFile then .error .unknownArgument
  else
    match s.settle with
    | .error e => .error e
    | .ok s => .ok { s with pending := some (.file, some value), hasFile := true }

/-- Reads an argument that looks like no option: the value that is waited for, or the file. -/
def plain (s : State) (value : Text) : Except UsageError State :=
  match s.pending with
  | some (slot, none) =>
    if s.trailing then s.positional value
    else .ok { s with pending := some (slot, some value) }
  | _ => s.positional value

/-- Reads the next argument. -/
def read (s : State) (argument : Text) : Except UsageError State :=
  if s.trailing then s.plain argument
  else
    match argument with
    | ['-', '-'] => .ok { s with trailing := true }
    | '-' :: '-' :: rest =>
      match rest.dropWhile (· != '=') with
      | [] => s.long rest none
      | _ :: value => s.long (rest.takeWhile (· != '=')) (some value)
    | '-' :: c :: rest => s.short (c :: rest)
    | _ => s.plain argument

/-- The arguments when all have been read. -/
def finish (s : State) : Except UsageError Arguments :=
  match s.settle with
  | .error e => .error e
  | .ok s => if s.hasFile then .ok s.arguments else .error .missingRequiredArgument

end State

end Command

/-- Reads the arguments of the command. -/
def Arguments.parse (arguments : List Text) : Except UsageError Arguments :=
  match arguments.foldlM Command.State.read {} with
  | .error e => .error e
  | .ok s => s.finish

end RmdOptions
