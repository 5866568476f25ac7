import RmdOptions.Call.Arguments
import RmdOptions.Json.Reader

/-!
# Options as JSON

Options are exchanged as a JSON object, whose members are the options in order. A reply may hold
values of any kind: strings are taken as they are, the constants become those of R, and all other
values are kept as compact JSON.

* `OptionMap.toJson` — writing;
* `OptionMap.ofJson` — reading a reply.
-/

namespace RmdOptions.OptionMap

open Json

/-- The options as an object of strings. -/
def toJson (m : OptionMap) : Value :=
  .object (m.entries.map fun entry => (entry.1, .string entry.2))

/-- The text of a value in a reply. -/
def valueText : Value → Text
  | .string t => t
  | .bool true => ['T', 'R', 'U', 'E']
  | .bool false => ['F', 'A', 'L', 'S', 'E']
  | .null => ['N', 'U', 'L', 'L']
  | v => v.compact

/-- The options of a reply, which must be an object. -/
def ofJson : Value → Except ExtractError OptionMap
  | .object members => .ok (ofList (members.map fun member => (member.1, valueText member.2)))
  | v => .error (.notAnObject v.kind)

end RmdOptions.OptionMap
