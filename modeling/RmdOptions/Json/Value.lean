import RmdOptions.Json.Number
import RmdOptions.Text.Keyed

/-!
# JSON values

A value is null, a truth value, a number, a string, an array of values, or an object, whose members
are in order. Values are written in two ways.

* `Value.compact` — without any white space;
* `Value.pretty` — one element to a line, indented by two spaces a level.
-/

namespace RmdOptions.Json

/-- A JSON value. -/
inductive Value where
  /-- null -/
  | null
  /-- a truth value -/
  | bool (value : Bool)
  /-- a number -/
  | number (value : Number)
  /-- a string -/
  | string (value : Text)
  /-- an array -/
  | array (elements : List Value)
  /-- an object, by its members in order -/
  | object (members : List (Text × Value))

instance : Inhabited Value := ⟨.null⟩

/-- What kind of value it is. -/
def Value.kind : Value → String
  | .null => "null"
  | .bool _ => "boolean"
  | .number _ => "number"
  | .string _ => "string"
  | .array _ => "array"
  | .object _ => "object"

/-! ## Strings -/

/-- A hexadecimal digit. -/
def hexDigit (n : Nat) : Char := Nat.digitChar n

/-- How a character is written in a string: quotes, backslashes and control characters are
escaped. -/
def escape (c : Char) : Text :=
  if c = '\x22' then ['\\', '\x22']
  else if c = '\\' then ['\\', '\\']
  else if c = '\x08' then ['\\', 'b']
  else if c = '\x0c' then ['\\', 'f']
  else if c = '\n' then ['\\', 'n']
  else if c = '\r' then ['\\', 'r']
  else if c = '\t' then ['\\', 't']
  else if c.toNat < 32 then ['\\', 'u', '0', '0', hexDigit (c.toNat / 16), hexDigit (c.toNat % 16)]
  else [c]

/-- A text as a string. -/
def quote (t : Text) : Text := '\x22' :: t.flatMap escape ++ ['\x22']

/-! ## Values -/

namespace Value

/-- The texts of the constants. -/
def nullText : Text := ['n', 'u', 'l', 'l']

/-- How a truth value is written. -/
def boolText : Bool → Text
  | true => ['t', 'r', 'u', 'e']
  | false => ['f', 'a', 'l', 's', 'e']

mutual

/-- A value without white space. -/
def compact : Value → Text
  | .null => nullText
  | .bool b => boolText b
  | .number n => n.text
  | .string t => quote t
  | .array elements => '[' :: [','].intercalate (compactElements elements) ++ [']']
  | .object members => '{' :: [','].intercalate (compactMembers members) ++ ['}']

/-- The elements of an array without white space. -/
def compactElements : List Value → List Text
  | [] => []
  | v :: rest => v.compact :: compactElements rest

/-- The members of an object without white space. -/
def compactMembers : List (Text × Value) → List Text
  | [] => []
  | (key, v) :: rest => (quote key ++ ':' :: v.compact) :: compactMembers rest

end

/-- A line break and the indentation of a level. -/
def newLine (level : Nat) : Text := '\n' :: List.replicate (2 * level) ' '

/-- Items between brackets, each on a line of its own one level further in; brackets without items
stay together. -/
def block (level : Nat) (opening closing : Char) (items : List Text) : Text :=
  if items.isEmpty then [opening, closing]
  else
    opening :: newLine (level + 1) ++ (',' :: newLine (level + 1)).intercalate items ++
      newLine level ++ [closing]

mutual

/-- A value whose first line is at a level, one element to a line. -/
def prettyAt (level : Nat) : Value → Text
  | .null => nullText
  | .bool b => boolText b
  | .number n => n.text
  | .string t => quote t
  | .array elements => block level '[' ']' (prettyElements level elements)
  | .object members => block level '{' '}' (prettyMembers level members)

/-- The elements of an array at a level. -/
def prettyElements (level : Nat) : List Value → List Text
  | [] => []
  | v :: rest => prettyAt (level + 1) v :: prettyElements level rest

/-- The members of an object at a level. -/
def prettyMembers (level : Nat) : List (Text × Value) → List Text
  | [] => []
  | (key, v) :: rest =>
    (quote key ++ [':', ' '] ++ prettyAt (level + 1) v) :: prettyMembers level rest

end

/-- A value, one element to a line. -/
def pretty (v : Value) : Text := prettyAt 0 v

end Value

end RmdOptions.Json
