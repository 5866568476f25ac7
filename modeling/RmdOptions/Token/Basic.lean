import RmdOptions.Text.Basic
import RmdOptions.Text.Position

/-!
# Tokens

A document is read as a sequence of tokens: R code inside the chunks, one token per row of prose
outside, and one token for each fence row of a chunk. Every token keeps the text it was read from
and the span it was read at.

* `TokenKind` — what a token is;
* `Token.isBoundary` — the token that ends a chunk, which no call may cross;
* `Token.closer?` — the bracket that closes an opening bracket.
-/

namespace RmdOptions

/-- What a token is. -/
inductive TokenKind where
  /-- a name, bare or in backticks -/
  | identifier
  /-- a reserved word or a literal constant -/
  | keyword
  /-- a number literal -/
  | number
  /-- a string literal with its quotes -/
  | string
  /-- an operator -/
  | operator
  /-- a bracket, comma or semicolon -/
  | punctuation
  /-- a comment up to the end of its row -/
  | comment
  /-- a row outside the chunks -/
  | prose
  /-- the row that opens a chunk -/
  | chunkStart
  /-- the row that closes a chunk -/
  | chunkEnd
  /-- a character that begins no token -/
  | unknown
  deriving DecidableEq

/-- A token: its kind, its text, and where it starts and stops. -/
structure Token where
  /-- what it is -/
  kind : TokenKind
  /-- the text it was read from -/
  text : Text
  /-- its first position -/
  start : Position
  /-- the position after it -/
  stop : Position
  deriving DecidableEq

namespace Token

/-- Whether the token closes a chunk. -/
def isBoundary (t : Token) : Bool := t.kind = .chunkEnd

/-- Whether the token has a kind and a text. -/
def is (t : Token) (kind : TokenKind) (text : Text) : Bool := t.kind = kind ∧ t.text = text

/-- The text of the bracket that closes this one; only an opening bracket has it. -/
def closer? (t : Token) : Option Text :=
  if t.kind = .punctuation then
    match t.text with
    | ['('] => some [')']
    | ['['] => some [']']
    | ['{'] => some ['}']
    | _ => none
  else none

end Token

end RmdOptions
