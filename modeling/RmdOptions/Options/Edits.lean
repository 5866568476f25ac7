import RmdOptions.Options.Map

/-!
# Edits

A form edits the options of a chunk: some controls hold a value that is written when it is set, some
are checkboxes with a third, undetermined state, and some are text boxes that count when they are
not empty. Merging writes what the form says over the options and leaves all others as they are.

* `Checkbox.literal?` — what a checkbox writes;
* `Edits.writes` — all that a form writes, in order;
* `OptionMap.merge` — the options after an edit.
-/

namespace RmdOptions

/-- A checkbox that may be undetermined. -/
inductive Checkbox where
  /-- writes `TRUE` -/
  | checked
  /-- writes `FALSE` -/
  | unchecked
  /-- writes nothing -/
  | undetermined
  deriving DecidableEq

instance : Inhabited Checkbox := ⟨.undetermined⟩

/-- The constant for a true option. -/
def trueLiteral : Text := ['T', 'R', 'U', 'E']

/-- The constant for a false option. -/
def falseLiteral : Text := ['F', 'A', 'L', 'S', 'E']

/-- What a checkbox writes. -/
def Checkbox.literal? : Checkbox → Option Text
  | .checked => some trueLiteral
  | .unchecked => some falseLiteral
  | .undetermined => none

/-- The checkbox for a truth value that may be missing. -/
def Checkbox.ofBool? : Option Bool → Checkbox
  | some true => .checked
  | some false => .unchecked
  | none => .undetermined

/-- The state of every control of the form. -/
structure Edits where
  /-- the value for `echo` -/
  echo : Option Text := none
  /-- the value for `eval` -/
  eval : Option Text := none
  /-- the value for `include` -/
  included : Option Text := none
  /-- the checkbox for `message` -/
  message : Checkbox := .undetermined
  /-- the checkbox for `warning` -/
  warning : Checkbox := .undetermined
  /-- the text box for `fig.height` -/
  figHeight : Text := []
  /-- the text box for `fig.width` -/
  figWidth : Text := []
  deriving DecidableEq

namespace Edits

/-- What a text box writes. -/
def textBox? (text : Text) : Option Text := if text.isEmpty then none else some text

/-- Every option of the form with what its control writes. -/
def controls (edits : Edits) : List (Text × Option Text) :=
  [("echo".toList, edits.echo),
    ("eval".toList, edits.eval),
    ("include".toList, edits.included),
    ("message".toList, edits.message.literal?),
    ("warning".toList, edits.warning.literal?),
    ("fig.height".toList, textBox? edits.figHeight),
    ("fig.width".toList, textBox? edits.figWidth)]

/-- What the form writes, in order. -/
def writes (edits : Edits) : List (Text × Text) :=
  edits.controls.filterMap fun control => control.2.map fun value => (control.1, value)

end Edits

/-- The options after an edit. -/
def OptionMap.merge (m : OptionMap) (edits : Edits) : OptionMap := m.insertAll edits.writes

end RmdOptions
