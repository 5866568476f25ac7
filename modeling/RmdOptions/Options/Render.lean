import RmdOptions.Options.Map
import RmdOptions.Config

/-!
# Writing the options call

Options are written as the arguments of the call, names and values as they are. No options are
written as nothing at all; few enough to fit, on one line in their order; more, one to a line,
indented and sorted by name. What is written ends its line.

* `OptionMap.arguments` — the options with a separator between them;
* `OptionMap.render` — the call.
-/

namespace RmdOptions.OptionMap

/-- An option as an argument. -/
def argument (entry : Text × Text) : Text := entry.1 ++ [' ', '=', ' '] ++ entry.2

/-- The options as arguments, with a separator between them. -/
def arguments (m : OptionMap) (separator : Text) : Text :=
  separator.intercalate (m.entries.map argument)

/-- The call that sets the options, or nothing when there are none. -/
def render (config : Config) (m : OptionMap) : Text :=
  if m.isEmpty then []
  else if m.size ≤ config.singleLineMax then
    config.shape.head ++ ['('] ++ m.arguments [',', ' '] ++ [')', '\n']
  else
    config.shape.head ++ ['(', '\n'] ++ config.indent ++
      m.sorted.arguments ([',', '\n'] ++ config.indent) ++ ['\n', ')', '\n']

end RmdOptions.OptionMap
