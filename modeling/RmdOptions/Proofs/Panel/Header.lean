import RmdOptions.Proofs.Panel.Commit
import RmdOptions.Proofs.Panel.Session
import RmdOptions.Proofs.Text.Rows

/-!
# The header of a chunk in a session

A commit writes behind the header of its chunk. What it writes may be any text: it may close the
chunk, open a string, or hold breaks that end a row but no line, so that later a call is found on
lines that are not the rows with these numbers. But rows are never fewer than lines, and so whatever
is found below the header is written below the header. The header and what is above it stay, and a
panel finds its chunk again after everything that has been done.

* `Text.length_ended_le_offset` — places below some rows;
* `Document.take_prefix_write` — what precedes a span that is written over;
* `Headed` — a document whose first lines lead up to the header of a chunk;
* `Headed.commit`, `Session.HeadedBy.step` — what one operation keeps;
* `Session.run_header` — what a session keeps.
-/

namespace RmdOptions

/-! ## Below some rows -/

namespace Text

variable {t u line : Text} {ls : List Text} {p : Position}

theorem flatten_map_feed (ls : List Text) : (ls.map (· ++ ['\n'])).flatten = ended ls :=
  (List.flatMap_def ..).symm

/-- A row that is not among the first ones starts behind them. -/
theorem length_flatten_le_offsetIn (front rest : List Text) {row : Nat} (h : front.length ≤ row)
    (column : Nat) : front.flatten.length ≤ offsetIn (front ++ rest) row column := by
  induction front generalizing row with
  | nil => exact Nat.zero_le _
  | cons first front ih =>
    obtain ⟨row, rfl⟩ := Nat.exists_eq_add_of_le' (Nat.le_trans (Nat.succ_pos front.length) h)
    have hrest := ih (Nat.le_of_succ_le_succ h)
    rw [List.flatten_cons, List.length_append, List.cons_append, offsetIn]
    exact Nat.add_le_add_left hrest _

/-- A place below lines that are ended is behind them. -/
theorem length_ended_le_offset (h : ∀ line ∈ ls, Unbroken line) (t : Text)
    (hrow : ls.length ≤ p.row) : (ended ls).length ≤ (ended ls ++ t).offset p := by
  have hlength : (ls.map (· ++ ['\n'])).length ≤ p.row := by rwa [List.length_map]
  have hle := length_flatten_le_offsetIn _ (rows t) hlength p.column
  rwa [flatten_map_feed, ← rows_ended_append h] at hle

/-- There is a row below lines that are ended. -/
theorem length_lt_rowCount (h : ∀ line ∈ ls, Unbroken line) (t : Text) :
    ls.length < (ended ls ++ t).rowCount := by
  have hrest := List.length_pos_iff.mpr (rows_ne_nil t)
  rw [rowCount, rows_ended_append h, List.length_append, List.length_map]
  exact Nat.lt_add_of_pos_right hrest

/-- The nearest place that exists is below these lines when the place is. -/
theorem length_le_row_clampPosition (h : ∀ line ∈ ls, Unbroken line) (t : Text)
    (hrow : ls.length ≤ p.row) : ls.length ≤ ((ended ls ++ t).clampPosition p).row :=
  Nat.le_min.mpr ⟨hrow, Nat.le_sub_one_of_lt (length_lt_rowCount h t)⟩

/-- A text starts with some lines when it consists of them or goes on on a new line behind them. -/
theorem prefix_lines_iff (h : ∀ line ∈ ls, '\n' ∉ line) (hne : ls ≠ []) :
    ls <+: t.lines ↔ t = ofLines ls ∨ ∃ u, t = ended ls ++ u := by
  constructor
  · rintro ⟨more, hmore⟩
    by_cases hnil : more = []
    · rw [hnil, List.append_nil] at hmore
      exact Or.inl (by rw [hmore, ofLines_lines])
    · refine Or.inr ⟨ofLines more, ?_⟩
      rw [← ofLines_append ls hnil, hmore, ofLines_lines]
  · rintro (rfl | ⟨u, rfl⟩)
    · exact ⟨[], by rw [List.append_nil, lines_ofLines hne h]⟩
    · rw [lines_ended_append h]
      exact List.prefix_append _ _

/-- The first rows of a text that starts with some lines show these lines. -/
theorem take_shownRows (h : ∀ line ∈ ls, Unbroken line) (hne : ls ≠ [])
    (hfront : ls <+: t.lines) : t.shownRows.take ls.length = ls := by
  have hfeed : ∀ line ∈ ls, '\n' ∉ line := fun line hline => (h line hline).feed_not_mem
  rcases (prefix_lines_iff hfeed hne).mp hfront with rfl | ⟨u, rfl⟩
  · rw [shownRows_eq (feedsOnly_ofLines h), lines_ofLines hne hfeed, List.take_length]
  · rw [shownRows_ended_append h, List.take_left]

end Text

/-! ## Writing -/

namespace Document

variable {doc : Document} {span : Span}

/-- What precedes a span stays when something is written over the span. -/
theorem take_prefix_write (doc : Document) (span : Span) (added : Text) :
    doc.text.take (doc.text.offset span.start) <+: (doc.write span added).text := by
  rw [write_text, List.append_assoc]
  exact List.prefix_append _ _

/-- Writing below lines that are ended leaves them. -/
theorem prefix_write {ls : List Text} (h : ∀ line ∈ ls, Text.Unbroken line) {rest : Text}
    (htext : doc.text = Text.ended ls ++ rest) (hrow : ls.length ≤ span.start.row) (added : Text) :
    ∃ rest', (doc.write span added).text = Text.ended ls ++ rest' := by
  have hle := Text.length_ended_le_offset h rest hrow
  rw [← htext] at hle
  have hfront : Text.ended ls <+: doc.text.take (doc.text.offset span.start) := by
    rw [List.prefix_take_iff]
    refine ⟨?_, hle⟩
    rw [htext]
    exact List.prefix_append _ _
  obtain ⟨rest', hrest'⟩ := hfront.trans (doc.take_prefix_write span added)
  exact ⟨rest', hrest'.symm⟩

/-- A span below lines that are ended is selected below them. -/
theorem length_le_row_select {ls : List Text} (h : ∀ line ∈ ls, Text.Unbroken line) {rest : Text}
    (htext : doc.text = Text.ended ls ++ rest) (hrow : ls.length ≤ span.start.row)
    (header : Position) :
    ls.length ≤ (doc.pointAt (some span) header).selectedSpan.start.row := by
  have hstop : ls.length ≤ span.stop.row := by
    have hle := span.start_le_stop
    rw [Position.le_def] at hle
    omega
  have hclamp {p : Position} (hp : ls.length ≤ p.row) :
      ls.length ≤ (doc.text.clampPosition p).row := by
    rw [htext]
    exact Text.length_le_row_clampPosition h rest hp
  simp only [pointAt, select, selectedSpan, Selection.span_ofSpan]
  rw [Span.ofEnds]
  -- the ends are put in order if they have changed places
  split
  · exact hclamp hrow
  · exact hclamp hstop

/-- With a row below the header, the caret is put on that row. -/
theorem length_le_row_moveCaret {ls : List Text} (h : ∀ line ∈ ls, Text.Unbroken line) {rest : Text}
    (htext : doc.text = Text.ended ls ++ rest) {header : Position}
    (hheader : ls.length = header.row + 1) :
    ls.length ≤ (doc.pointAt none header).selectedSpan.start.row := by
  have hlt := Text.length_lt_rowCount h rest
  rw [← htext, hheader] at hlt
  have hbody : doc.bodyStart header = header.startOfNextRow := by
    rw [bodyStart, if_pos hlt]
  simp only [pointAt, moveCaret, selectedSpan, Span.caret, hbody]
  rw [htext]
  exact Text.length_le_row_clampPosition h rest (Nat.le_of_eq hheader)

end Document

namespace Panel

variable {panel panel' : Panel} {doc doc' : Document} {edits : Edits} {outcome : Outcome}

/-- A commit is made when the baseline is known. -/
theorem ready_of_commit (h : panel.commit doc edits = .ok (outcome, doc', panel')) :
    ∃ baseline, panel.baseline = .ready baseline := by
  by_contra hunknown
  rw [commit_eq_error_iff.mpr hunknown] at h
  cases h

/-- A commit writes its code over a span that starts where the selection does. -/
theorem write_of_commit (h : panel.commit doc edits = .ok (outcome, doc', panel')) :
    doc' = (doc.pointAt (panel.locate doc) panel.chunkStart).write outcome.replaced outcome.code ∧
      outcome.replaced.start =
        (doc.pointAt (panel.locate doc) panel.chunkStart).selectedSpan.start := by
  obtain ⟨baseline, hready⟩ := ready_of_commit h
  rw [commit, commitAt, hready] at h
  cases h
  refine ⟨rfl, ?_⟩
  dsimp only
  split
  · exact Document.withBreak_start _ _
  · rfl

end Panel

/-! ## Documents with a header -/

/-- The first lines of a text lead up to the header of a chunk, and each of them is a row. -/
structure Headed (lexer : Lexer) (before : List Text) (header : Text) (t : Text) : Prop where
  /-- each of the lines stands on one row -/
  unbroken : ∀ line ∈ before ++ [header], Text.Unbroken line
  /-- the header stands outside all blocks -/
  prose : (Region.prose.readLines lexer 0 before).2 = .prose
  /-- the header opens a chunk -/
  opens : Fence.opensChunk header = true
  /-- the text starts with these lines -/
  prefix_lines : before ++ [header] <+: t.lines

namespace Headed

variable {lexer : Lexer} {before : List Text} {header t : Text}

theorem feed_not_mem (h : Headed lexer before header t) :
    ∀ line ∈ before ++ [header], '\n' ∉ line :=
  fun line hline => (h.unbroken line hline).feed_not_mem

theorem lines_ne_nil (before : List Text) (header : Text) : before ++ [header] ≠ [] :=
  List.append_ne_nil_of_right_ne_nil before (List.cons_ne_nil header [])

/-- A text with a header has a chunk there. -/
theorem exists_layout (h : Headed lexer before header t) :
    ∃ body after, Layout lexer t.lines before header body after := by
  obtain ⟨more, hmore⟩ := h.prefix_lines
  rw [List.append_assoc, List.singleton_append] at hmore
  exact ⟨_, _, Layout.of_opens hmore.symm h.prose h.opens⟩

/-- The header stays when the text behind it is exchanged. -/
theorem of_ended (h : Headed lexer before header t) (rest : Text) :
    Headed lexer before header (Text.ended (before ++ [header]) ++ rest) := by
  refine ⟨h.unbroken, h.prose, h.opens, ?_⟩
  rw [Text.prefix_lines_iff h.feed_not_mem (lines_ne_nil before header)]
  exact Or.inr ⟨rest, rfl⟩

/-- The first rows show the lines up to the header. -/
theorem take_shownRows (h : Headed lexer before header t) :
    t.shownRows.take (before.length + 1) = before ++ [header] := by
  have htake := Text.take_shownRows h.unbroken (lines_ne_nil before header) h.prefix_lines
  rwa [List.length_append, List.length_singleton] at htake

theorem take_lines (h : Headed lexer before header t) :
    t.lines.take (before.length + 1) = before ++ [header] := by
  have htake := List.prefix_iff_eq_take.mp h.prefix_lines
  rw [List.length_append, List.length_singleton] at htake
  exact htake.symm

/-- The cursor that is put on the header stands on its token. -/
theorem current?_on (h : Headed lexer before header t) :
    (Cursor.on (lexer.documentTokens t) ⟨before.length, 0⟩).current? =
      some (wholeLine .chunkStart before.length header) := by
  obtain ⟨body, after, hlayout⟩ := h.exists_layout
  rw [Cursor.current?, hlayout.on_header]
  dsimp only
  rw [hlayout.documentTokens_eq, List.getElem?_append_right (Nat.le_refl _), Nat.sub_self]
  rfl

/-- The header stays when a text is appended that goes on on a new line. -/
theorem append_feed (h : Headed lexer before header t)
    (hall : t = Text.ofLines (before ++ [header])) (rest : Text) :
    Headed lexer before header (t ++ '\n' :: rest) := by
  have htext : t ++ '\n' :: rest = Text.ended (before ++ [header]) ++ rest := by
    rw [hall, Text.ofLines_append before (List.cons_ne_nil header [])]
    simp
  rw [htext]
  exact h.of_ended rest

/-- A call that is found is below the header. -/
theorem row_lt_of_locate (h : Headed lexer before header t) {shape : CallShape} {call : Span}
    (hlocate : (locate shape (Cursor.on (lexer.documentTokens t) ⟨before.length, 0⟩)).1 =
      some call) :
    before.length < call.start.row ∧ call.start.row < t.lines.length := by
  obtain ⟨body, after, hlayout⟩ := h.exists_layout
  obtain ⟨_, _, _, _, _, -, -, -, ⟨line, hline, -⟩, -, hlt, -⟩ := hlayout.exists_call hlocate
  exact ⟨hlt, (List.getElem?_eq_some_iff.mp hline).1⟩

/-- When the header is the last row, a commit leaves the text and may append a new row. -/
theorem commit_last {doc doc' : Document} {config : Config} {baseline : OptionMap} {panel' : Panel}
    {edits : Edits} {outcome : Outcome} (h : Headed lexer before header doc.text)
    (hall : doc.text = Text.ofLines (before ++ [header]))
    (hcommit : (⟨⟨before.length, 0⟩, lexer.documentTokens, config, .ready baseline⟩ :
      Panel).commit doc edits = .ok (outcome, doc', panel')) :
    Headed lexer before header doc'.text := by
  obtain ⟨body, after, hlayout⟩ := h.exists_layout
  have hfeeds : doc.text.FeedsOnly := by
    rw [hall]
    exact Text.feedsOnly_ofLines h.unbroken
  have hlines : doc.text.lines.length = before.length + 1 := by
    rw [hall, Text.lines_ofLines (lines_ne_nil before header) h.feed_not_mem, List.length_append,
      List.length_singleton]
  obtain ⟨_, _, _, hsurgery, htext, -⟩ := hlayout.commit_eq_surgery hfeeds config baseline edits
  cases hcommit.symm.trans hsurgery
  have hnone : (⟨⟨before.length, 0⟩, lexer.documentTokens, config, .ready baseline⟩ :
      Panel).locate doc = none := by
    rw [Option.eq_none_iff_forall_not_mem]
    intro call hcall
    have hrow := h.row_lt_of_locate hcall
    omega
  have hrow : ¬ before.length + 1 < doc.text.rowCount := by
    rw [Text.rowCount_eq hfeeds, hlines]
    exact Nat.lt_irrefl _
  rw [htext]
  simp only [Panel.surgery, hnone, if_neg hrow, Surgery.text, List.append_nil]
  split
  · rwa [List.append_nil]
  · exact h.append_feed hall _

/-- **A commit leaves the header and all that is above it.** -/
theorem commit {doc doc' : Document} {panel panel' : Panel} {edits : Edits} {outcome : Outcome}
    (h : Headed lexer before header doc.text) (hchunk : panel.chunkStart = ⟨before.length, 0⟩)
    (htokenize : panel.tokenize = lexer.documentTokens)
    (hcommit : panel.commit doc edits = .ok (outcome, doc', panel')) :
    Headed lexer before header doc'.text := by
  obtain ⟨baseline, hready⟩ := Panel.ready_of_commit hcommit
  rcases (Text.prefix_lines_iff h.feed_not_mem (lines_ne_nil before header)).mp h.prefix_lines with
    hall | ⟨rest, htext⟩
  · obtain ⟨chunkStart, tokenize, config, _⟩ := panel
    obtain rfl : chunkStart = ⟨before.length, 0⟩ := hchunk
    obtain rfl : tokenize = lexer.documentTokens := htokenize
    cases hready
    exact h.commit_last hall hcommit
  · have hlength : (before ++ [header]).length = before.length + 1 := by
      rw [List.length_append, List.length_singleton]
    obtain ⟨rfl, hstart⟩ := Panel.write_of_commit hcommit
    -- whatever has been found, the span is below the header
    have hrow : (before ++ [header]).length ≤ outcome.replaced.start.row := by
      rw [hstart]
      cases hlocate : panel.locate doc with
      | none =>
        refine Document.length_le_row_moveCaret h.unbroken htext ?_
        rw [hchunk, hlength]
      | some call =>
        rw [Panel.locate, Panel.locateIn, hchunk, htokenize] at hlocate
        refine Document.length_le_row_select h.unbroken htext ?_ _
        rw [hlength]
        exact (h.row_lt_of_locate hlocate).1
    have hpointed : (doc.pointAt (panel.locate doc) panel.chunkStart).text =
        Text.ended (before ++ [header]) ++ rest := by
      rw [← htext]
      cases panel.locate doc <;> rfl
    obtain ⟨rest', hrest'⟩ := Document.prefix_write h.unbroken hpointed hrow outcome.code
    rw [hrest']
    exact h.of_ended rest'

end Headed

namespace Panel.Session

variable {lexer : Lexer} {before : List Text} {header : Text}

/-- The panel is on the chunk with a header, and the document has that header. -/
structure HeadedBy (lexer : Lexer) (before : List Text) (header : Text) (session : Session) :
    Prop where
  /-- the panel is on the chunk -/
  chunkStart : session.panel.chunkStart = ⟨before.length, 0⟩
  /-- the panel reads documents with the lexer -/
  tokenize : session.panel.tokenize = lexer.documentTokens
  /-- the document has the header -/
  headed : Headed lexer before header session.doc.text

/-- **An operation leaves the header and all that is above it.** -/
theorem HeadedBy.step {session : Session} (h : session.HeadedBy lexer before header)
    (op : Operation) : (session.step op).HeadedBy lexer before header := by
  have hpanel := session.panel_step op
  refine ⟨?_, ?_, ?_⟩
  · rw [hpanel]
    exact h.chunkStart
  · rw [hpanel]
    exact h.tokenize
  cases op with
  | request => exact h.headed
  | resolve answer => exact h.headed
  | seed options => exact h.headed
  | locate => exact h.headed
  | commit edits =>
    rw [Session.step]
    split
    · next hcommit => exact h.headed.commit h.chunkStart h.tokenize hcommit
    · exact h.headed

theorem HeadedBy.run {session : Session} (h : session.HeadedBy lexer before header)
    (ops : List Operation) : (session.run ops).HeadedBy lexer before header := by
  induction ops using List.reverseRecOn with
  | nil => exact h
  | append_singleton ops op ih =>
    rw [run_append]
    exact ih.step op

/-- **A session never touches its header or anything above it.** Whatever is done with a panel that
is on a chunk of a document, and whatever the options are, the rows up to the header stay, and the
header is read as the start of the chunk, on which the search for the call begins. This asks of the
document only that the rows up to the header are lines. As loading and writing leave no carriage
return in a text, what they must not hold is a vertical tab, a form feed, a next line, a line
separator or a paragraph separator. -/
theorem run_header (lexer : Lexer) (config : Config) (doc : Document) {chunk : Chunk}
    (hchunk : chunk ∈ Chunk.ofTokens (lexer.documentTokens doc.text))
    (hrows : ∀ line ∈ doc.text.lines.take (chunk.header.row + 1), line.Unbroken)
    (baseline : Baseline) (ops : List Operation) :
    let session := (⟨⟨chunk.header, lexer.documentTokens, config, baseline⟩, doc⟩ : Session).run ops
    session.doc.text.shownRows.take (chunk.header.row + 1) =
        doc.text.shownRows.take (chunk.header.row + 1) ∧
      session.doc.text.lines.take (chunk.header.row + 1) =
        doc.text.lines.take (chunk.header.row + 1) ∧
      ∃ header, doc.text.row? chunk.header.row = some header ∧
        (Cursor.on (lexer.documentTokens session.doc.text) chunk.header).current? =
          some (wholeLine .chunkStart chunk.header.row header) := by
  obtain ⟨before, header, body, after, hlayout, hheader, -⟩ := exists_layout hchunk
  rw [hheader] at hrows ⊢
  intro session
  have hlines : doc.text.lines = before ++ [header] ++ (body ++ after) := by
    rw [hlayout.lines_eq, List.append_assoc, List.singleton_append]
  have hlength : before.length + 1 = (before ++ [header]).length := by
    rw [List.length_append, List.length_singleton]
  have hheaded : Headed lexer before header doc.text := by
    refine ⟨?_, hlayout.prose, hlayout.opens, ?_⟩
    · rwa [hlines, hlength, List.take_left] at hrows
    · rw [hlines]
      exact List.prefix_append _ _
  have hrun : session.HeadedBy lexer before header :=
    HeadedBy.run ⟨rfl, rfl, hheaded⟩ ops
  refine ⟨?_, ?_, header, ?_, hrun.headed.current?_on⟩
  · rw [hrun.headed.take_shownRows, hheaded.take_shownRows]
  · rw [hrun.headed.take_lines, hheaded.take_lines]
  · have htake := congrArg (·[before.length]?) hheaded.take_shownRows
    rw [List.getElem?_take_of_lt (Nat.lt_succ_self _),
      List.getElem?_append_right (Nat.le_refl _), Nat.sub_self] at htake
    exact htake

end Panel.Session

/-- A document with a title and one chunk, which has a row that ends with a vertical tab. -/
def Document.tabbed : Document :=
  Document.load "title\n\x60\x60\x60{r}\nx <- 1\x0by <- 2\n\x60\x60\x60\n".toList

namespace Panel.Session

/-- Values that close the chunk, open a string and a bracket, and break their row leave the title
and the header. -/
theorem run_header_sample :
    let tokenize := (Lexer.closedBy ['\x60', '\x60', '\x60']).documentTokens
    let ops : List Operation := [.seed .empty,
      .commit { echo := some "1\n\x60\x60\x60\n\"".toList }, .locate,
      .commit { echo := some "f(".toList, figWidth := "\x0b7".toList }]
    let session := (⟨⟨⟨1, 0⟩, tokenize, {}, .unrequested⟩, Document.tabbed⟩ : Session).run ops
    session.doc.text.shownRows.take 2 = ["title".toList, "\x60\x60\x60{r}".toList] ∧
      (Cursor.on (tokenize session.doc.text) ⟨1, 0⟩).current? =
        some (wholeLine .chunkStart 1 "\x60\x60\x60{r}".toList) := by
  intro tokenize ops session
  have hchunk : (⟨⟨1, 0⟩, some 3, ['r'], none⟩ : Chunk) ∈
      Chunk.ofTokens (tokenize Document.tabbed.text) := by
    decide +kernel
  have hrows : ∀ line ∈ Document.tabbed.text.lines.take 2, line.Unbroken := by decide +kernel
  obtain ⟨hshown, -, header, hrow, hcursor⟩ :=
    run_header _ {} Document.tabbed hchunk hrows .unrequested ops
  have hheader : Document.tabbed.text.row? 1 = some "\x60\x60\x60{r}".toList := by decide +kernel
  have htitle : Document.tabbed.text.shownRows.take 2 =
      ["title".toList, "\x60\x60\x60{r}".toList] := by
    decide +kernel
  obtain rfl := Option.some.inj (hrow.symm.trans hheader)
  exact ⟨hshown.trans htitle, hcursor⟩

end Panel.Session

end RmdOptions
