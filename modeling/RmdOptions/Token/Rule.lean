import RmdOptions.Token.Basic
import RmdOptions.Text.Letter
import RmdOptions.Text.Number

/-!
# Token rules

Comments, names, numbers, operators and punctuation are read by one rule each. A rule looks at the
text from some place on and says how many characters from there belong to its token, if any do.
Where a rule has several ways to go on, it takes the first in the order written here; strings and
white space are no rule's business.

* `Rule.length?` — how much of a text a rule reads;
* `Rule.all` — the rules in the order in which they are tried;
* `TokenKind.ofLexeme` — reserved words are no names.
-/

namespace RmdOptions

/-- The rules by which a token is read. -/
inductive Rule where
  /-- a number sign and the rest of its line -/
  | comment
  /-- a name in backticks -/
  | quotedName
  /-- a number -/
  | number
  /-- a bare name -/
  | name
  /-- an operator -/
  | operator
  /-- a bracket, comma or semicolon -/
  | punctuation
  deriving DecidableEq

namespace Rule

/-- All rules, in the order in which they are tried. -/
def all : List Rule := [.comment, .quotedName, .number, .name, .operator, .punctuation]

/-- What a rule reads. -/
def kind : Rule → TokenKind
  | .comment => .comment
  | .quotedName => .identifier
  | .number => .number
  | .name => .identifier
  | .operator => .operator
  | .punctuation => .punctuation

/-- How many characters at the start of a text satisfy `p`. -/
def leading (p : Char → Bool) (t : Text) : Nat := (t.takeWhile p).length

/-! ## Comments and names -/

/-- A comment runs to the end of its line. -/
def commentLength? : Text → Option Nat
  | '#' :: rest => some (1 + leading (· != '\n') rest)
  | _ => none

/-- What is left of a quoted name after its opening backtick, with the closing one. A backslash
takes the next character along, unless that is a line feed. -/
def quotedNameRest? : Text → Option Nat
  | [] => none
  | '\x60' :: _ => some 1
  | '\\' :: c :: rest => if c = '\n' then none else (quotedNameRest? rest).map (· + 2)
  | '\\' :: [] => none
  | _ :: rest => (quotedNameRest? rest).map (· + 1)

/-- A quoted name runs from one backtick to the next. -/
def quotedNameLength? : Text → Option Nat
  | '\x60' :: rest => (quotedNameRest? rest).map (· + 1)
  | _ => none

/-- Whether a bare name can start with a character. -/
def startsName (c : Char) : Bool := isLetter c || c == '.'

/-- Whether a bare name can go on with a character. -/
def continuesName (c : Char) : Bool := isLetter c || isNumber c || c == '.' || c == '_'

/-- A bare name runs as far as its characters go. -/
def nameLength? : Text → Option Nat
  | [] => none
  | c :: rest => if startsName c then some (1 + leading continuesName rest) else none

/-! ## Numbers -/

/-- Whether a character is a hexadecimal digit. -/
def isHexDigit (c : Char) : Bool :=
  ('0' ≤ c && c ≤ '9') || ('a' ≤ c && c ≤ 'f') || ('A' ≤ c && c ≤ 'F')

/-- The mark of an integer or imaginary number at the end of a literal: at most one character. -/
def markLength : Text → Nat
  | [] => 0
  | c :: _ => if c = 'L' ∨ c = 'i' then 1 else 0

/-- A hexadecimal number has at least one digit after its mark. -/
def hexLength? : Text → Option Nat
  | '0' :: x :: rest =>
    if x = 'x' ∨ x = 'X' then
      match leading isHexDigit rest with
      | 0 => none
      | n + 1 => some (3 + n + markLength (rest.drop (n + 1)))
    else none
  | _ => none

/-- A point after the whole part, with the digits that follow it, if any do. -/
def fractionLength : Text → Nat
  | '.' :: rest => 1 + leading isDecimalDigit rest
  | _ => 0

/-- The digits of a decimal number: a whole part that may have a fraction, or a fraction of at
least one digit alone. -/
def digitsLength? (t : Text) : Option Nat :=
  match leading isDecimalDigit t with
  | 0 =>
    match t with
    | '.' :: rest =>
      match leading isDecimalDigit rest with
      | 0 => none
      | n + 1 => some (n + 2)
    | _ => none
  | n + 1 => some (n + 1 + fractionLength (t.drop (n + 1)))

/-- An exponent of at least one digit, which may have a sign; anything less is no exponent. -/
def exponentLength : Text → Nat
  | [] => 0
  | e :: rest =>
    if e = 'e' ∨ e = 'E' then
      let sign := match rest with
        | c :: _ => if c = '+' ∨ c = '-' then 1 else 0
        | [] => 0
      match leading isDecimalDigit (rest.drop sign) with
      | 0 => 0
      | n + 1 => 1 + sign + (n + 1)
    else 0

/-- A decimal number: digits, then an exponent and a mark if they follow. -/
def decimalLength? (t : Text) : Option Nat :=
  (digitsLength? t).map fun digits =>
    let withExponent := digits + exponentLength (t.drop digits)
    withExponent + markLength (t.drop withExponent)

/-- A number is read as hexadecimal if it can be, and as decimal otherwise. -/
def numberLength? (t : Text) : Option Nat :=
  (hexLength? t).or (decimalLength? t)

/-! ## Operators and punctuation -/

/-- The operators of more than one character that are spelled out, in the order of the search. -/
def longOperators : List Text :=
  [[':', ':', ':'], [':', ':'], ['<', '<', '-'], ['-', '>', '>'], ['<', '-'], ['-', '>'],
    ['<', '='], ['>', '='], ['=', '='], ['!', '='], ['&', '&'], ['|', '|'], ['|', '>']]

/-- The operators of one character. -/
def shortOperators : List Char :=
  ['-', '+', '*', '/', '^', '~', '?', '!', '&', '|', '<', '>', '=', '$', '@', ':', '\\']

/-- An operator between two percent signs, which lie on one line. -/
def percentLength? : Text → Option Nat
  | '%' :: rest =>
    let inner := leading (fun c => c != '%' && c != '\n') rest
    match rest.drop inner with
    | '%' :: _ => some (inner + 2)
    | _ => none
  | _ => none

/-- A long operator, then one between percent signs, then a short one. -/
def operatorLength? (t : Text) : Option Nat :=
  match longOperators.find? (·.isPrefixOf t) with
  | some op => some op.length
  | none =>
    match percentLength? t with
    | some n => some n
    | none =>
      match t with
      | c :: _ => if c ∈ shortOperators then some 1 else none
      | [] => none

/-- The brackets and separators. -/
def punctuationMarks : List Char := ['(', ')', '[', ']', '{', '}', ',', ';']

/-- A bracket or separator stands alone. -/
def punctuationLength? : Text → Option Nat
  | c :: _ => if c ∈ punctuationMarks then some 1 else none
  | [] => none

/-! ## Rules together -/

/-- How many characters at the start of a text a rule reads; `none` when its token does not start
there. -/
def length? : Rule → Text → Option Nat
  | .comment => commentLength?
  | .quotedName => quotedNameLength?
  | .number => numberLength?
  | .name => nameLength?
  | .operator => operatorLength?
  | .punctuation => punctuationLength?

/-- The first of some rules that reads something at the start of a text, and how much. -/
def firstMatch? (rules : List Rule) (t : Text) : Option (Rule × Nat) :=
  rules.findSome? fun rule => (rule.length? t).map fun n => (rule, n)

end Rule

/-- The reserved words and literal constants of R. -/
def reservedWords : List Text :=
  ["TRUE", "FALSE", "NULL", "NA", "NA_integer_", "NA_real_", "NA_character_", "NA_complex_", "Inf",
    "NaN", "if", "else", "repeat", "while", "function", "for", "in", "next", "break"].map
    String.toList

/-- The kind of a token read as `kind`: a name that is a reserved word is a keyword. -/
def TokenKind.ofLexeme (kind : TokenKind) (lexeme : Text) : TokenKind :=
  if kind = .identifier ∧ lexeme ∈ reservedWords then .keyword else kind

end RmdOptions
