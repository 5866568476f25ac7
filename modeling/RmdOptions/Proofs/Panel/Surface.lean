import RmdOptions.Proofs.Panel.Commit
import RmdOptions.Proofs.Text.Rows

/-!
# Rows of the document and lines of the lexer

The lexer finds its places by lines, and the document looks them up by rows. In a document without
other row breaks than line feeds the two are the same, and what stands in the span of a call that is
found is the call. In any other document they differ in everything that can be asked about rows.

* `Text.HoldsCall` — a span with the characters of a call;
* `Layout.holdsCall` — what is found in a document with line feeds only;
* `Document.load_rows_iff` — the documents whose rows are their lines.
-/

namespace RmdOptions

/-- A span of a text holds a call: it runs from the first character of one token, the package or
the object, to the last of another, the closing bracket, and the characters in it are those that are
there by the lines. -/
def Text.HoldsCall (t : Text) (shape : CallShape) (tokens : List Token) (span : Span) : Prop :=
  ∃ first ∈ tokens, ∃ close ∈ tokens,
    (first.is .identifier shape.package = true ∨ first.is .identifier shape.object = true) ∧
      close.is .punctuation [')'] = true ∧ span.start = first.start ∧ span.stop = close.stop ∧
      t.upTo span.start ++ t.slice span.start span.stop = t.upTo span.stop ∧
      first.text <+: t.slice span.start span.stop ∧ close.text <:+ t.slice span.start span.stop

theorem Call.first_is {shape : CallShape} {ts before inside after : List Token}
    {first close : Token} (h : Call shape ts before first inside close after) :
    first.is .identifier shape.package = true ∨ first.is .identifier shape.object = true := by
  cases h with
  | bare found => exact Or.inr found.object_is
  | qualified _ hpackage => exact Or.inl hpackage

namespace Layout

variable {lexer : Lexer} {before body after : List Text} {header t : Text}

/-- The text of a token stands between its places, by the lines. -/
theorem upTo_stop_of_cut (h : Layout lexer t.lines before header body after)
    {earlier later : List Token} {token : Token} {head tail : Text} {above below : List Text}
    (hcut : CutAt lexer.rules none (before.length + 1) body earlier token later above head tail
      below) : t.upTo token.stop = t.upTo token.start ++ token.text := by
  have hline := h.getElem?_lines hcut.getElem?_line
  rw [hcut.start_eq, hcut.stop_eq, Text.upTo, Text.upTo]
  dsimp only
  rw [hline, Option.getD_some, List.take_left, List.take_length_add_append, List.take_left,
    List.append_assoc]

/-- **The span of a call holds it**, in a text with line feeds only. -/
theorem holdsCall (h : Layout lexer t.lines before header body after) (hfeeds : t.FeedsOnly)
    {shape : CallShape} {span : Span}
    (hlocate : (locate shape (Cursor.on (lexer.documentTokens t) ⟨before.length, 0⟩)).1 =
      some span) : t.HoldsCall shape (lexer.documentTokens t) span := by
  obtain ⟨earlier, first, inside, close, later, hcall, hstart, hstop,
    ⟨_, _, _, _, _, hmem, hfirst⟩, ⟨_, _, _, _, _, hclose⟩⟩ := h.exists_call_cut hlocate
  obtain ⟨hplace, hplace', -⟩ := h.place_of_cut hfirst
  obtain ⟨hplace₁, hplace₁', -⟩ := h.place_of_cut hclose
  have horder : first.stop ≤ close.start := hfirst.stop_le_start_of_mem close hmem
  have hall : first.start ≤ close.stop :=
    Position.le_trans hfirst.start_le_stop (Position.le_trans horder hclose.start_le_stop)
  have hslice := hplace.upTo_append_slice hplace₁' hfeeds hall
  have hmember {token : Token}
      (htoken : token ∈ bodyTokens lexer (before.length + 1) body after) :
      token ∈ lexer.documentTokens t := by
    rw [h.documentTokens_eq]
    exact List.mem_append_right _ (List.mem_cons_of_mem _ (List.mem_append_left _ htoken))
  rw [Text.HoldsCall, hstart, hstop]
  refine ⟨first, hmember ?_, close, hmember ?_, hcall.first_is, hcall.close_is, rfl, rfl, hslice,
    ?_, ?_⟩
  · rw [hcall.tokens_eq]
    simp
  · rw [hcall.tokens_eq]
    simp
  · -- the first token and what follows it
    have hrest := hplace'.upTo_append_slice hplace₁' hfeeds
      (Position.le_trans horder hclose.start_le_stop)
    rw [h.upTo_stop_of_cut hfirst, List.append_assoc, ← hslice] at hrest
    exact ⟨_, List.append_cancel_left hrest⟩
  · -- what precedes the last token, and that one
    have hrest := hplace.upTo_append_slice hplace₁ hfeeds
      (Position.le_trans hfirst.start_le_stop horder)
    rw [h.upTo_stop_of_cut hclose, ← hrest, List.append_assoc] at hslice
    exact ⟨_, (List.append_cancel_left hslice).symm⟩

end Layout

namespace Document

/-- **The rows of a document are its lines exactly when it has no other row breaks.** The number of
its rows, what each of them shows, what they are together, and where a place is that was found by
lines: each of these alone tells whether there is another row break. When there is none, the span of
a call that is found holds the call. -/
theorem load_rows_iff (t : Text) :
    let doc := Document.load t
    (doc.text.rowCount = doc.text.lines.length ↔ doc.text.FeedsOnly) ∧
      ((∀ row, doc.text.row? row = doc.text.lines[row]?) ↔ doc.text.FeedsOnly) ∧
      (doc.joinedRows = doc.text ↔ doc.text.FeedsOnly) ∧
      ((∀ p, doc.text.HasPlace p → doc.text.take (doc.text.offset p) = doc.text.upTo p) ↔
        doc.text.FeedsOnly) ∧
      (doc.text.FeedsOnly → ∀ (lexer : Lexer) (chunk : Chunk),
        chunk ∈ Chunk.ofTokens (lexer.documentTokens doc.text) →
          ∀ (config : Config) (baseline : Baseline) (call : Span),
            (⟨chunk.header, lexer.documentTokens, config, baseline⟩ : Panel).locate doc =
                some call →
              doc.text.HoldsCall config.shape (lexer.documentTokens doc.text) call) := by
  intro doc
  have hreturn : '\r' ∉ doc.text := Text.not_mem_withLineFeeds t
  refine ⟨Text.rowCount_eq_iff hreturn, Text.row?_eq_iff hreturn,
    Text.ofLines_shownRows_iff hreturn, Text.take_offset_iff hreturn, ?_⟩
  intro hfeeds lexer chunk hchunk config baseline call hlocate
  obtain ⟨before, header, body, after, hlayout, hheader, -⟩ := exists_layout hchunk
  rw [hheader] at hlocate
  exact hlayout.holdsCall hfeeds hlocate

/-- In a document with line feeds only, the whole of a call is found. -/
theorem load_rows_iff_sample :
    let lexer := Lexer.closedBy ['\x60', '\x60', '\x60']
    let panel := Panel.new ⟨0, 0⟩ lexer.documentTokens {}
    ∃ call, panel.locate Document.sample = some call ∧
      Document.sample.joinedRows = Document.sample.text ∧
      Document.sample.text.HoldsCall panel.config.shape
        (lexer.documentTokens Document.sample.text) call := by
  intro lexer panel
  obtain ⟨-, -, hjoined, -, hholds⟩ := load_rows_iff
    "\x60\x60\x60{r}\nx; knitr:::opts_chunk$set(a = 1) # y\n\x60\x60\x60".toList
  have hfeeds : Document.sample.text.FeedsOnly := by decide +kernel
  have hchunk : (⟨⟨0, 0⟩, some 2, ['r'], none⟩ : Chunk) ∈
      Chunk.ofTokens (lexer.documentTokens Document.sample.text) := by
    decide +kernel
  have hlocate : panel.locate Document.sample = some ⟨⟨1, 3⟩, ⟨1, 32⟩, by decide⟩ := by
    decide +kernel
  exact ⟨_, hlocate, hjoined.mpr hfeeds,
    hholds hfeeds lexer _ hchunk {} .unrequested _ hlocate⟩

/-- A vertical tab ends a row and no line. The row behind it is no line, the rows together are
another text, and the span of a call behind it holds nothing. -/
theorem load_rows_verticalTab :
    let doc := Document.load "a\x0bb".toList
    let chunk := Document.load "\x60\x60\x60{r}\n\x0bopts_chunk$set(a = 1)\n\x60\x60\x60".toList
    let panel :=
      Panel.new ⟨0, 0⟩ (Lexer.closedBy ['\x60', '\x60', '\x60']).documentTokens {}
    doc.text.rowCount = 2 ∧ doc.text.lines.length = 1 ∧
      doc.text.row? 1 = some ['b'] ∧ doc.text.lines[1]? = none ∧
      doc.joinedRows ≠ doc.text ∧
      ∃ call, panel.locate chunk = some call ∧
        call.start ≠ call.stop ∧ chunk.text.slice call.start call.stop = [] := by
  intro doc chunk panel
  refine ⟨by decide +kernel, by decide +kernel, by decide +kernel, by decide +kernel,
    by decide +kernel, ⟨⟨1, 1⟩, ⟨1, 22⟩, by decide⟩, by decide +kernel, by decide, ?_⟩
  decide +kernel

end Document

end RmdOptions
