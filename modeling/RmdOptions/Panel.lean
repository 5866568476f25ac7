import RmdOptions.Call.Arguments
import RmdOptions.Chunk
import RmdOptions.Document
import RmdOptions.Options.Edits
import RmdOptions.Options.Render

/-!
# Panels

A panel edits the options of one chunk. It first obtains the options that the chunk sets, its
baseline; after that every commit merges an edit into the baseline and writes the call anew, over
the call that is there or else at the start of the chunk's body. What was written is the baseline of
the next commit.

* `Baseline` — asked for, awaited, or known;
* `Panel.request`, `Panel.resolve`, `Panel.seed`, `Panel.readBaseline` — obtaining the baseline;
* `Panel.locate` — where the call is;
* `Panel.commit` — writing it.
-/

namespace RmdOptions

/-- What is known of the options that a chunk sets. -/
inductive Baseline where
  /-- nobody has asked -/
  | unrequested
  /-- the answer is awaited -/
  | pending
  /-- the options -/
  | ready (options : OptionMap)
  deriving DecidableEq

/-- The options, once they are known. -/
def Baseline.options? : Baseline → Option OptionMap
  | .ready options => some options
  | _ => none

/-- Editing the options of one chunk. -/
structure Panel where
  /-- where the header of the chunk starts -/
  chunkStart : Position
  /-- how documents are read -/
  tokenize : Text → List Token
  /-- the settings -/
  config : Config
  /-- what is known of the options -/
  baseline : Baseline

/-- Why a commit is refused. -/
inductive CommitError where
  /-- the baseline is not known yet -/
  | baselineNotReady
  deriving DecidableEq

/-- What is said about an error. -/
def CommitError.message : CommitError → String
  | .baselineNotReady => "baseline options have not been seeded yet"

/-- What a commit did. -/
structure Outcome where
  /-- the span that was written over -/
  replaced : Span
  /-- what was written -/
  code : Text
  /-- the options after the edit -/
  options : OptionMap
  /-- whether there was a call -/
  located : Bool
  deriving DecidableEq

namespace Panel

/-- A panel for the chunk whose header starts at a position, before anything is known. -/
def new (chunkStart : Position) (tokenize : Text → List Token) (config : Config) : Panel :=
  ⟨chunkStart, tokenize, config, .unrequested⟩

/-! ## The baseline -/

/-- Asks for the options: the body of the chunk is to be examined, and the baseline is awaited. -/
def request (panel : Panel) (doc : Document) : Text × Panel :=
  (doc.body panel.chunkStart.row (endRow? (panel.tokenize doc.text) panel.chunkStart),
    { panel with baseline := .pending })

/-- Sets the baseline. -/
def seed (panel : Panel) (options : OptionMap) : Panel :=
  { panel with baseline := .ready options }

/-- Takes an answer. A failure counts as no options at all, and an answer that comes when the
baseline is known is ignored. -/
def resolve (panel : Panel) (answer : Except ExtractError OptionMap) : Panel :=
  match panel.baseline with
  | .ready _ => panel
  | _ =>
    match answer with
    | .ok options => panel.seed options
    | .error _ => panel.seed .empty

/-- Asks for the options and takes the answer of `extract`. -/
def readBaseline (panel : Panel) (doc : Document)
    (extract : Text → Except ExtractError OptionMap) : Panel :=
  let (source, waiting) := panel.request doc
  waiting.resolve (extract source)

/-! ## The call -/

/-- The span of the options call of the chunk in a text. -/
def locateIn (panel : Panel) (t : Text) : Option Span :=
  let tokens := panel.tokenize t
  (RmdOptions.locate panel.config.shape (Cursor.on tokens panel.chunkStart)).1

/-- The span of the options call of the chunk. -/
def locate (panel : Panel) (doc : Document) : Option Span := panel.locateIn doc.text

/-- Merges an edit into the baseline and writes the call: over the span `found`, together with the
break after it, or at the start of the chunk's body. When the header is the last row, the call is
put on a new row. -/
def commitAt (panel : Panel) (found : Option Span) (doc : Document) (edits : Edits) :
    Except CommitError (Outcome × Document × Panel) :=
  match panel.baseline with
  | .ready baseline =>
    let pointed := doc.pointAt found panel.chunkStart
    let selected := pointed.selectedSpan
    let options := baseline.merge edits
    let rendered := options.render panel.config
    let code :=
      if found.isNone && selected.start.row == panel.chunkStart.row && !rendered.isEmpty then
        '\n' :: rendered
      else rendered
    let replaced := if found.isSome then pointed.withBreak selected else selected
    .ok (⟨replaced, code, options, found.isSome⟩, pointed.write replaced code, panel.seed options)
  | _ => .error .baselineNotReady

/-- Merges an edit into the baseline and writes the call over the one that is there. -/
def commit (panel : Panel) (doc : Document) (edits : Edits) :
    Except CommitError (Outcome × Document × Panel) :=
  panel.commitAt (panel.locate doc) doc edits

end Panel

/-! ## Opening a chunk of a document -/

/-- Why no panel can be opened. -/
inductive OpenError where
  /-- lines are counted from one -/
  | lineZero
  /-- no chunk starts on the line -/
  | noChunkOn (line : Nat)
  /-- there is no R chunk to choose -/
  | noRChunk
  /-- the chunk on the line holds something else than R code -/
  | notRChunk (line : Nat)
  deriving DecidableEq

/-- What is said about an error. -/
def OpenError.message : OpenError → String
  | .lineZero => "chunk lines are 1-based"
  | .noChunkOn line => s!"no code chunk starts on line {line}"
  | .noRChunk => "document has no R chunk"
  | .notRChunk line => s!"chunk on line {line} is not an R chunk"

/-- The chunk that starts on a line, counted from one, or the setup chunk when no line is given. -/
def Chunk.choose (chunks : List Chunk) : Option Nat → Except OpenError Chunk
  | none =>
    match setup? chunks with
    | none => .error .noRChunk
    | some chunk => .ok chunk
  | some 0 => .error .lineZero
  | some (row + 1) =>
    match chunks.find? (·.header.row = row) with
    | none => .error (.noChunkOn (row + 1))
    | some chunk => .ok chunk

/-- Opens a panel on a chunk of a document and reads the options that the chunk sets. -/
def Panel.openOn (doc : Document) (line : Option Nat) (config : Config) :
    Except OpenError Panel := do
  let lexer := Lexer.closedBy config.closingFence
  let chunk ← Chunk.choose (Chunk.ofTokens (lexer.documentTokens doc.text)) line
  if chunk.isR then
    let panel := Panel.new ⟨chunk.header.row, 0⟩ lexer.documentTokens config
    return panel.readBaseline doc config.readOptions
  else throw (.notRChunk (chunk.header.row + 1))

end RmdOptions
