import RmdOptions.Text.LineEnding
import RmdOptions.Text.Rows

/-!
# Documents

A document is a text that is being edited: it has a caret, perhaps a selection, and remembers how
the rows of its file end. Texts come in with any line ending and are held with line feeds. Places
that do not exist are taken for the nearest that do.

* `Document.load`, `Document.saved` — from and to the text of a file;
* `Document.moveCaret`, `Document.select`, `Document.clearSelection` — caret and selection;
* `Document.write` — replacing a span, which leaves the caret after what was written;
* `Document.pointAt`, `Document.withBreak`, `Document.body` — where in a chunk a call is written,
  and what the chunk holds.
-/

namespace RmdOptions

/-- A text that is being edited. -/
structure Document where
  /-- the text, its rows ending with line feeds -/
  text : Text
  /-- where the caret is -/
  caret : Position
  /-- what is selected -/
  selection : Option Selection
  /-- how the rows of the file end -/
  ending : LineEnding
  deriving DecidableEq

namespace Document

/-- The document of a file, with the caret at its start. -/
def load (t : Text) : Document := ⟨t.withLineFeeds, .origin, none, .ofText t⟩

/-- The text of the file. -/
def saved (doc : Document) : Text := doc.ending.write doc.text

/-- All rows as they are shown, joined by line feeds. -/
def joinedRows (doc : Document) : Text := Text.ofLines doc.text.shownRows

/-! ## Caret and selection -/

/-- Drops the selection; the caret stays. -/
def clearSelection (doc : Document) : Document := { doc with selection := none }

/-- Moves the caret and drops the selection. -/
def moveCaret (doc : Document) (p : Position) : Document :=
  { doc with caret := doc.text.clampPosition p, selection := none }

/-- Selects a span; the caret goes to its end. -/
def select (doc : Document) (span : Span) : Document :=
  let clamped := Span.ofEnds (doc.text.clampPosition span.start) (doc.text.clampPosition span.stop)
  { doc with caret := clamped.stop, selection := some (.ofSpan clamped) }

/-- The selected span, or the empty one at the caret. -/
def selectedSpan (doc : Document) : Span :=
  match doc.selection with
  | some selection => selection.span
  | none => Span.caret doc.caret

/-! ## Writing -/

/-- Writes a text over a span. The caret goes after it, and nothing is selected. -/
def write (doc : Document) (span : Span) (added : Text) : Document :=
  let added := added.withLineFeeds
  let start := doc.text.offset span.start
  let removed := doc.text.deleteAt start (doc.text.offset span.stop - start)
  let text := Text.insertAt removed start added
  { doc with
    text := text
    caret := Text.position text (start + added.length)
    selection := none }

/-! ## Chunks in a document -/

/-- Where the body of a chunk starts: the row after its header, or the end of the header when that
is the last row. -/
def bodyStart (doc : Document) (header : Position) : Position :=
  if header.row + 1 < doc.text.rowCount then header.startOfNextRow
  else ⟨header.row, ((doc.text.row? header.row).map List.length).getD 0⟩

/-- Selects the call that was found, or else moves the caret to where the body of the chunk starts.
The span to write over is then the selected one. -/
def pointAt (doc : Document) (found : Option Span) (header : Position) : Document :=
  match found with
  | some span => doc.select span
  | none => doc.moveCaret (doc.bodyStart header)

/-- A span that ends its row, extended by the break that follows it. Other spans, and those on the
last row, stay as they are. -/
def withBreak (doc : Document) (span : Span) : Span :=
  if span.stop.row + 1 < doc.text.rowCount then
    match doc.text.row? span.stop.row with
    | none => span
    | some row =>
      if span.stop.column < row.length then span
      else Span.ofEnds span.start span.stop.startOfNextRow
  else span

/-- The rows after a header and before an end row, or up to the end of the document, joined by line
feeds. -/
def body (doc : Document) (headerRow : Nat) (endRow : Option Nat) : Text :=
  Text.ofLines ((doc.text.shownRows.take (endRow.getD doc.text.rowCount)).drop (headerRow + 1))

end Document

end RmdOptions
