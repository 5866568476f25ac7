import RmdOptions.Config
import RmdOptions.Json.Reader

/-!
# Configuration files

A configuration is kept as a JSON object with a member for each setting that is not the default one.
Members with other names are passed over. A setting that occurs twice is refused as soon as its name
comes again. An array gives the settings by position instead. Texts must be given as strings, and
the line limit as a whole number that fits in 64 bits.

* `Config.fromJson` — reading, which also refuses settings that must not be empty;
* `Config.toJson` — writing.
-/

namespace RmdOptions

open Json

/-- Why a configuration is refused. -/
inductive ConfigError where
  /-- its file cannot be read -/
  | unreadable
  /-- its text is no configuration -/
  | json (fault : Fault)
  /-- a setting must not be empty -/
  | emptyField (field : Config.Field)
  deriving DecidableEq

namespace Config

/-- What is said about an empty setting. -/
def emptyFieldMessage (field : Field) : String :=
  s!"config field \x60{field.name}\x60 must not be empty"

/-! ## Settings -/

/-- The fault of a text whose value is not of the type that is asked for. A value without values in
it is read first, and may have a fault of its own. -/
def mismatch (t : Text) : Fault :=
  match t with
  | [] => .unfinished
  | c :: _ =>
    if c = '[' ∨ c = '{' then .unsuitable
    else
      match scalar .full t with
      | .error fault => fault
      | .ok _ => .unsuitable

/-- What is read of a setting that is a string. -/
def runText (t : Text) : Except Fault (Text × Text) :=
  match scalar .full (skipBlanks t) with
  | .ok (.string content, rest) => .ok (content, rest)
  | _ => .error (mismatch (skipBlanks t))

theorem length_of_runText {t rest content : Text} (h : runText t = .ok (content, rest)) :
    rest.length < t.length := by
  rw [runText.eq_def] at h
  split at h
  · next hs =>
    cases h
    exact Nat.lt_of_lt_of_le (length_of_scalar hs) (length_skipBlanks_le t)
  · cases h

/-- The string of a setting. -/
def textSetting : Reader Text := ⟨runText, length_of_runText⟩

/-- What is read of a setting that is a number: a whole number literal in the range of unsigned
64-bit integers. -/
def runNumber (t : Text) : Except Fault (Nat × Text) :=
  match scalar .full (skipBlanks t) with
  | .ok (.number (.integer (.ofNat n)), rest) => .ok (n, rest)
  | _ => .error (mismatch (skipBlanks t))

theorem length_of_runNumber {t rest : Text} {n : Nat} (h : runNumber t = .ok (n, rest)) :
    rest.length < t.length := by
  rw [runNumber.eq_def] at h
  split at h
  · next hs =>
    cases h
    exact Nat.lt_of_lt_of_le (length_of_scalar hs) (length_skipBlanks_le t)
  · cases h

/-- The number of a setting. -/
def numberSetting : Reader Nat := ⟨runNumber, length_of_runNumber⟩

/-- A setting, which replaces that of a configuration. -/
def setting (config : Config) : Field → Reader Config
  | .package => textSetting.map fun t => { config with package := t }
  | .object => textSetting.map fun t => { config with object := t }
  | .method => textSetting.map fun t => { config with method := t }
  | .indent => textSetting.map fun t => { config with indent := t }
  | .singleLineMax => numberSetting.map fun n => { config with singleLineMax := n }
  | .closingFence => textSetting.map fun t => { config with closingFence := t }

/-! ## Objects -/

/-- A reading step that only has a fault. -/
def refuse {α : Type} (fault : Fault) : Reader α where
  run _ := .error fault
  shrinks := nofun

/-- A member of a configuration object after its name. It is read knowing the settings seen so far
and the configuration that they make. -/
def member (acc : List Field × Config) (name : Text) : Reader (List Field × Config) :=
  match Field.ofName? name with
  | none => (passOver.map fun _ => acc).after ':'
  | some field =>
    if field ∈ acc.1 then refuse .unsuitable
    else ((setting acc.2 field).map fun config => (field :: acc.1, config)).after ':'

/-! ## Arrays -/

/-- The settings of an array from some element on; `first` says whether it is the first. An array
must not have more elements than there are settings. -/
def positional (first : Bool) (config : Config) : List Field → Text → Except Fault (Config × Text)
  | [], t =>
    match skipBlanks t with
    | [] => .error .unfinished
    | c :: rest => if c = ']' then .ok (config, rest) else .error .malformed
  | field :: fields, t =>
    match skipBlanks t with
    | [] => .error .unfinished
    | c :: rest =>
      if c = ']' then .ok (config, rest)
      else
        let element :=
          if first then some (c :: rest) else if c = ',' then some (skipBlanks rest) else none
        match element with
        | none => .error .malformed
        | some [] => .error .unfinished
        | some (d :: more) =>
          if d = ']' then .error .malformed
          else
            match (setting config field).run (d :: more) with
            | .error fault => .error fault
            | .ok (config, rest) => positional false config fields rest

/-! ## Files -/

/-- The configuration that a text gives, together with the text after it. -/
def settings (t : Text) : Except Fault (Config × Text) :=
  match skipBlanks t with
  | [] => .error .unfinished
  | c :: rest =>
    if c = '{' then ((members .full member ([], {})).map Prod.snd).run rest
    else if c = '[' then positional true {} Field.all rest
    else .error (mismatch (c :: rest))

/-- The configuration of a file. -/
def fromJson (t : Text) : Except ConfigError Config :=
  match settings t with
  | .error fault => .error (.json fault)
  | .ok (config, rest) =>
    if (skipBlanks rest).isEmpty then
      match config.emptyField? with
      | some field => .error (.emptyField field)
      | none => .ok config
    else .error (.json .malformed)

/-- The value of a setting in a file. -/
def fieldValue (config : Config) : Field → Value
  | .package => .string config.package
  | .object => .string config.object
  | .method => .string config.method
  | .indent => .string config.indent
  | .singleLineMax => .number (.integer config.singleLineMax)
  | .closingFence => .string config.closingFence

/-- The file of a configuration, all settings in order. -/
def toJson (config : Config) : Value :=
  .object (Field.all.map fun field => (field.name.toList, config.fieldValue field))

end Config

end RmdOptions
