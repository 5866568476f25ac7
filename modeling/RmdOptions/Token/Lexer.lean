import RmdOptions.Token.Rule
import RmdOptions.Token.Fence

/-!
# Reading tokens

A lexer has its token rules, in order of preference, and the fence that closes a chunk. It reads a
text line by line, where lines end at line feeds only. Code is read from left to right: white space
separates tokens, a quote opens a string, and otherwise the first rule that reads anything decides;
a character that no rule reads is a token of its own. A string may run over several lines, so what
a line leaves behind is the string that is still open.

* `lexCode` — the tokens of one line of code;
* `Lexer.codeTokens` — the tokens of a text that is all code;
* `Region.read`, `Lexer.documentTokens` — the tokens of a document, whose lines are prose, R code
  or the content of another fenced block, depending on the fences before them.
-/

namespace RmdOptions

/-- A string literal that no closing quote has ended yet. -/
structure OpenString where
  /-- the quote that will close it -/
  quote : Char
  /-- where its opening quote stands -/
  start : Position
  /-- what has been read of it, the opening quote and the line feeds included -/
  text : Text
  deriving DecidableEq

/-- The token of a string that nothing closes, up to `stop`; it does not take the line feed at its
end along. -/
def OpenString.abandon (s : OpenString) (stop : Position) : Token :=
  ⟨.string, if s.text.getLast? = some '\n' then s.text.dropLast else s.text, s.start, stop⟩

/-- How many characters of a line belong to a string that was opened by `quote` before it, with the
closing quote. A backslash takes the next character along. -/
def closingQuote? (quote : Char) : Text → Option Nat
  | [] => none
  | '\\' :: [] => none
  | '\\' :: _ :: rest => (closingQuote? quote rest).map (· + 2)
  | c :: rest => if c = quote then some 1 else (closingQuote? quote rest).map (· + 1)

/-! ## Code -/

/-- The tokens of what is left of a line of code from column `column` on, and the string that the
line leaves open. -/
def lexCode (rules : List Rule) (row column : Nat) : Text → List Token × Option OpenString
  | [] => ([], none)
  | c :: rest =>
    if isWhiteSpace c then lexCode rules row (column + 1) rest
    else if c = '\x22' ∨ c = '\x27' then
      match closingQuote? c rest with
      | none => ([], some ⟨c, ⟨row, column⟩, c :: rest ++ ['\n']⟩)
      | some n =>
        let after := lexCode rules row (column + 1 + n) (rest.drop n)
        (⟨.string, c :: rest.take n, ⟨row, column⟩, ⟨row, column + 1 + n⟩⟩ :: after.1, after.2)
    else
      let (kind, n) := match Rule.firstMatch? rules (c :: rest) with
        | some (rule, n) => (rule.kind, n - 1)
        | none => (.unknown, 0)
      let lexeme := c :: rest.take n
      let after := lexCode rules row (column + 1 + n) (rest.drop n)
      (⟨kind.ofLexeme lexeme, lexeme, ⟨row, column⟩, ⟨row, column + 1 + n⟩⟩ :: after.1, after.2)
termination_by t => t.length

/-- The tokens of a line of code, which may begin inside a string, and the string that it leaves
open. -/
def lexLine (rules : List Rule) (pending : Option OpenString) (row : Nat) (line : Text) :
    List Token × Option OpenString :=
  match pending with
  | none => lexCode rules row 0 line
  | some s =>
    match closingQuote? s.quote line with
    | none => ([], some { s with text := s.text ++ line ++ ['\n'] })
    | some n =>
      let after := lexCode rules row n (line.drop n)
      (⟨.string, s.text ++ line.take n, s.start, ⟨row, n⟩⟩ :: after.1, after.2)

/-! ## Lexers -/

/-- How a document is read: its token rules, the preferred ones first, and its closing fence. -/
structure Lexer where
  /-- the rules for code, in the order in which they are tried -/
  rules : List Rule
  /-- the fence that closes a block -/
  closingFence : Text
  deriving DecidableEq

namespace Lexer

/-- The lexer with all rules in their usual order. -/
def closedBy (fence : Text) : Lexer := ⟨Rule.all, fence⟩

/-- The tokens of lines of code from row `row` on, the last of them ending the text. -/
def codeLines (lexer : Lexer) (pending : Option OpenString) (row : Nat) : List Text → List Token
  | [] => []
  | [last] =>
    let (tokens, left) := lexLine lexer.rules pending row last
    tokens ++ (left.map (·.abandon ⟨row, last.length⟩)).toList
  | line :: more =>
    let (tokens, left) := lexLine lexer.rules pending row line
    tokens ++ codeLines lexer left (row + 1) more

/-- The tokens of a text that is all code, such as the body of a chunk. -/
def codeTokens (lexer : Lexer) (t : Text) : List Token :=
  codeLines lexer none 0 t.lines

end Lexer

/-! ## Documents -/

/-- Where in a document a line stands. -/
inductive Region where
  /-- outside all blocks -/
  | prose
  /-- in an R chunk, perhaps inside a string -/
  | chunk (pending : Option OpenString)
  /-- in a fenced block of another kind -/
  | block
  deriving DecidableEq

/-- A token that is all of a line. -/
def wholeLine (kind : TokenKind) (row : Nat) (line : Text) : Token :=
  ⟨kind, line, ⟨row, 0⟩, ⟨row, line.length⟩⟩

/-- The token of a line outside the chunks: the line without the white space around it, unless it is
blank. -/
def proseTokens (row : Nat) (line : Text) : List Token :=
  if line.trim.isEmpty then []
  else
    let indent := (line.takeWhile isWhiteSpace).length
    [⟨.prose, line.trim, ⟨row, indent⟩, ⟨row, indent + line.trim.length⟩⟩]

namespace Region

/-- The token of a string that is still open when its region ends at `stop`. -/
def leave (region : Region) (stop : Position) : List Token :=
  match region with
  | .chunk (some s) => [s.abandon stop]
  | _ => []

/-- The tokens of a line in a region, and the region of the next line. -/
def read (lexer : Lexer) (row : Nat) (line : Text) : Region → List Token × Region
  | .prose =>
    if Fence.opensChunk line then ([wholeLine .chunkStart row line], .chunk none)
    else if Fence.opensBlock line then (proseTokens row line, .block)
    else (proseTokens row line, .prose)
  | .chunk pending =>
    if Fence.closes lexer.closingFence line then
      ((Region.chunk pending).leave ⟨row, 0⟩ ++ [wholeLine .chunkEnd row line], .prose)
    else
      let (tokens, left) := lexLine lexer.rules pending row line
      (tokens, .chunk left)
  | .block =>
    (proseTokens row line, if Fence.closes lexer.closingFence line then .prose else .block)

end Region

namespace Lexer

/-- The tokens of lines of a document from row `row` on, the last of them ending the document. -/
def documentLines (lexer : Lexer) (region : Region) (row : Nat) : List Text → List Token
  | [] => []
  | [last] =>
    let (tokens, next) := region.read lexer row last
    tokens ++ next.leave ⟨row, last.length⟩
  | line :: more =>
    let (tokens, next) := region.read lexer row line
    tokens ++ documentLines lexer next (row + 1) more

/-- The tokens of a document. -/
def documentTokens (lexer : Lexer) (t : Text) : List Token :=
  documentLines lexer .prose 0 t.lines

end Lexer

end RmdOptions
