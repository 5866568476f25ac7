import RmdOptions.Call.Locate
import RmdOptions.Options.Map
import RmdOptions.Text.Rows
import RmdOptions.Token.Lexer
import RmdOptions.Config

/-!
# Reading the options of a call

The options that a chunk sets are the named arguments of its options call. Values are kept as they
stand in the source, from the first to the last of their tokens; comments between arguments,
arguments without a name and empty arguments are passed over.

* `splitArguments` — the tokens between the brackets of a call, cut at its commas;
* `namedArgument?` — an argument `name = value`;
* `readOptions` — the options set by some code, or why they cannot be read.
-/

namespace RmdOptions

/-- Why options cannot be had. -/
inductive ExtractError where
  /-- a reply is not an object but the named kind of value -/
  | notAnObject (kind : String)
  /-- a call that starts there is never closed -/
  | unbalanced (start : Position)
  /-- the service that was asked reports a failure -/
  | service (report : Text)
  deriving DecidableEq

/-- What is said about an error. -/
def ExtractError.message : ExtractError → String
  | .notAnObject kind => s!"expected a JSON object of options, got {kind}"
  | .unbalanced start => s!"unbalanced options call starting at {start}"
  | .service report => s!"option extraction failed: {String.ofList report}"

/-! ## Arguments -/

/-- How deep in brackets the tokens after `t` are when `t` itself is at `depth`. -/
def depthAfter (depth : Nat) (t : Token) : Nat :=
  if t.kind = .punctuation then
    if t.text = ['('] ∨ t.text = ['['] ∨ t.text = ['{'] then depth + 1
    else if t.text = [')'] ∨ t.text = [']'] ∨ t.text = ['}'] then depth - 1
    else depth
  else depth

/-- Puts a token in front of the first of several arguments. -/
def consToken (t : Token) : List (List Token) → List (List Token)
  | [] => [[t]]
  | first :: rest => (t :: first) :: rest

/-- The arguments in some tokens that are `depth` brackets deep: they are cut at the commas outside
all brackets, and comments are left out. -/
def splitArguments (depth : Nat) : List Token → List (List Token)
  | [] => [[]]
  | t :: rest =>
    if t.kind = .comment then splitArguments depth rest
    else if depth = 0 ∧ t.is .punctuation [','] then [] :: splitArguments 0 rest
    else consToken t (splitArguments (depthAfter depth t) rest)

/-- The name and value of an argument of the form `name = value`. The name loses backticks or quotes
around it; the value is the source from its first token to its last. -/
def namedArgument? (source : Text) : List Token → Option (Text × Text)
  | name :: equals :: first :: more =>
    if equals.is .operator ['='] then
      some (Text.unquote ['\x60', '\x22', '\x27'] name.text,
        source.slice first.start ((first :: more).getLast (List.cons_ne_nil _ _)).stop)
    else none
  | _ => none

/-! ## Options -/

/-- The first token at which the head of a call stands, whether or not the call is closed. -/
def headStart? (shape : CallShape) : List Token → Option Token
  | t :: dollar :: method :: bracket :: rest =>
    if t.is .identifier shape.object && dollar.is .operator ['$'] &&
      method.is .identifier shape.method && bracket.is .punctuation ['('] then some t
    else headStart? shape (dollar :: method :: bracket :: rest)
  | _ => none

/-- The tokens between the brackets of a call whose last token has index `close` and whose span
starts at `start`. -/
def argumentTokens (tokens : List Token) (start : Position) (close : Nat) : List Token :=
  ((tokens.take close).dropWhile
    fun t => !(decide (start ≤ t.start) && t.is .punctuation ['('])).drop 1

/-- The options that some code sets in its first options call; none if there is no call. A call that
is not closed is an error, unless a later one is. -/
def readOptions (lexer : Lexer) (shape : CallShape) (source : Text) :
    Except ExtractError OptionMap :=
  let tokens := lexer.codeTokens source
  match locate shape (Cursor.start tokens) with
  | (none, _) =>
    match headStart? shape tokens with
    | some head => .error (.unbalanced head.start)
    | none => .ok .empty
  | (some span, c) =>
    match c.index? with
    | none => .ok .empty
    | some close =>
      .ok (.ofList ((splitArguments 0 (argumentTokens tokens span.start close)).filterMap
        (namedArgument? source)))

/-- Reads options with the lexer and the call of a configuration. -/
def Config.readOptions (config : Config) (source : Text) : Except ExtractError OptionMap :=
  RmdOptions.readOptions (.closedBy config.closingFence) config.shape source

end RmdOptions
