import RmdOptions.Call.Locate

/-!
# Configuration

What the options call is named, how it is laid out when it is written, and which fence closes a
chunk. Every setting has a default.

* `Config` — the settings;
* `Config.shape` — the names in the call;
* `Config.emptyField?` — the first setting that must not be empty but is.
-/

namespace RmdOptions

/-- The settings. -/
structure Config where
  /-- the package that may qualify the call, and that is written before it -/
  package : Text := "knitr".toList
  /-- the object whose method is called -/
  object : Text := "opts_chunk".toList
  /-- the method -/
  method : Text := "set".toList
  /-- what one step of indentation is -/
  indent : Text := ['\t']
  /-- how many options fit on one line at most -/
  singleLineMax : Nat := 2
  /-- the fence that closes a chunk -/
  closingFence : Text := ['\x60', '\x60', '\x60']
  deriving DecidableEq

instance : Inhabited Config := ⟨{}⟩

namespace Config

/-- The settings that have a name in a configuration file, in their order there. -/
inductive Field where
  /-- `Config.package` -/
  | package
  /-- `Config.object` -/
  | object
  /-- `Config.method` -/
  | method
  /-- `Config.indent` -/
  | indent
  /-- `Config.singleLineMax` -/
  | singleLineMax
  /-- `Config.closingFence` -/
  | closingFence
  deriving DecidableEq

/-- All settings, in order. -/
def Field.all : List Field :=
  [.package, .object, .method, .indent, .singleLineMax, .closingFence]

/-- The name of a setting in a configuration file. -/
def Field.name : Field → String
  | .package => "namespace"
  | .object => "object"
  | .method => "method"
  | .indent => "indent_unit"
  | .singleLineMax => "single_line_max"
  | .closingFence => "chunk_end_fence"

/-- The setting with a name. -/
def Field.ofName? (name : Text) : Option Field := Field.all.find? (·.name.toList == name)

/-- The names in the options call. -/
def shape (config : Config) : CallShape := ⟨config.package, config.object, config.method⟩

/-- The first setting that is blank though it must not be. An indent may be blank, but not empty; it
is looked at last. -/
def emptyField? (config : Config) : Option Field :=
  if config.package.trim.isEmpty then some .package
  else if config.object.trim.isEmpty then some .object
  else if config.method.trim.isEmpty then some .method
  else if config.closingFence.trim.isEmpty then some .closingFence
  else if config.indent.isEmpty then some .indent
  else none

end Config

end RmdOptions
