import RmdOptions.Token.Cursor

/-!
# Chunks

A chunk is found from the token of its opening fence row, and ends at the next closing fence. Its
header names an engine and may give a label, either as the first word after the engine or as an
option `label = …`, which wins.

* `Chunk.ofTokens` — the chunks of a document in order;
* `Chunk.setup?` — the chunk that holds the settings of a document;
* `endRow?` — the row of the boundary that ends the chunk around a position.
-/

namespace RmdOptions

/-- A chunk of a document. -/
structure Chunk where
  /-- where its header row starts -/
  header : Position
  /-- the row of its closing fence, if it is closed -/
  endRow : Option Nat
  /-- the engine named in the header -/
  engine : Text
  /-- the label given in the header -/
  label : Option Text
  deriving DecidableEq

/-! ## Headers -/

namespace Header

/-- A header without the fence and braces around it. -/
def inner (header : Text) : Text :=
  let unfenced : Text := Text.trim ((Text.trim header).dropWhile (· == '\x60'))
  Text.dropEndWhile (· == '}') (unfenced.dropWhile (· == '{'))

/-- The engine ends at white space or a comma. -/
def endsEngine (c : Char) : Bool := isWhiteSpace c || c == ','

/-- The engine named in a header. -/
def engine (header : Text) : Text := (inner header).takeWhile (!endsEngine ·)

/-- The parts between commas that follow the engine, without the white space around them. -/
def parts (header : Text) : List Text :=
  (Text.cutAt (· == ',') ((inner header).dropWhile (!endsEngine ·))).map Text.trim

/-- The value of a part of the form `label = value`, without quotes around it. -/
def labelValue? (part : Text) : Option Text :=
  match part.dropWhile (· != '=') with
  | [] => none
  | _ :: value =>
    if Text.trim (part.takeWhile (· != '=')) = ['l', 'a', 'b', 'e', 'l'] then
      some (Text.unquote ['\x22', '\x27'] (Text.trim value))
    else none

/-- The part directly after the engine, if it is a word and no option. -/
def bareLabel? : List Text → Option Text
  | [] => none
  | first :: _ => if first.isEmpty || first.contains '=' then none else some first

/-- The label a header gives: the first explicit one, or else the bare word after the engine. -/
def label? (header : Text) : Option Text :=
  ((parts header).findSome? labelValue?).or (bareLabel? (parts header))

end Header

/-! ## Chunks of a document -/

namespace Chunk

/-- Whether the chunk holds R code. -/
def isR (chunk : Chunk) : Bool := chunk.engine = ['r'] ∨ chunk.engine = ['R']

/-- The row of the boundary that ends a chunk whose header precedes some tokens; a new header
before it leaves the chunk open. -/
def closingRow? : List Token → Option Nat
  | [] => none
  | t :: rest =>
    match t.kind with
    | .chunkStart => none
    | .chunkEnd => some t.start.row
    | _ => closingRow? rest

/-- The chunks of a document, in order. -/
def ofTokens : List Token → List Chunk
  | [] => []
  | t :: rest =>
    if t.kind = .chunkStart then
      ⟨t.start, closingRow? rest, Header.engine t.text, Header.label? t.text⟩ :: ofTokens rest
    else ofTokens rest

/-- The label of the chunk that holds the settings of a document. -/
def setupLabel : Text := ['s', 'e', 't', 'u', 'p']

/-- The first R chunk labelled as the setup chunk, or else the first R chunk. -/
def setup? (chunks : List Chunk) : Option Chunk :=
  (chunks.find? fun chunk => chunk.isR && chunk.label == some setupLabel).or
    (chunks.find? isR)

end Chunk

/-- The row of the first boundary after a position, which ends the chunk around it. -/
def endRow? (tokens : List Token) (p : Position) : Option Nat :=
  ((tokens.drop (Cursor.on tokens p).place).find? Token.isBoundary).map (·.start.row)

end RmdOptions
