import RmdOptions.Proofs.Document.Writing
import RmdOptions.Proofs.Panel.Body

/-!
# Commits as surgery on the text

A commit cuts the text of a document in two and puts the code in between. Where it cuts depends on
the call that is found; both cuts are in the chunk, so that its fences and all that is outside of
them stay.

* `Document.selectedSpan_pointAt` — the span that is written over;
* `Text.resumeAt`, `Panel.surgery` — where a commit cuts, and what it writes;
* `Panel.commit_surgery` — that it does just this.
-/

namespace RmdOptions

/-! ## The span that is written over -/

namespace Document

variable {doc : Document} {span : Span}

/-- A span between places that exist is selected as it is. -/
theorem selectedSpan_pointAt (h : doc.text.FeedsOnly) (header : Position)
    (hstart : doc.text.HasPlace span.start) (hstop : doc.text.HasPlace span.stop) :
    (doc.pointAt (some span) header).selectedSpan = span := by
  have hclamped : Span.ofEnds (doc.text.clampPosition span.start)
      (doc.text.clampPosition span.stop) = span := by
    rw [hstart.clampPosition_eq h, hstop.clampPosition_eq h, Span.ofEnds,
      dif_pos span.start_le_stop]
  simp only [pointAt, select, selectedSpan, hclamped, Selection.span_ofSpan]

/-- With no span, the caret is put where the body of the chunk starts. -/
theorem selectedSpan_pointAt_none (h : doc.text.FeedsOnly) {header : Position}
    (hstart : doc.text.HasPlace (doc.bodyStart header)) :
    (doc.pointAt none header).selectedSpan = Span.caret (doc.bodyStart header) := by
  simp only [pointAt, moveCaret, selectedSpan, hstart.clampPosition_eq h]

end Document

/-! ## Where a commit cuts -/

/-- Where a text goes on behind a call that stops at a place: a line feed right behind the call is
taken along. -/
def Text.resumeAt (t : Text) (p : Position) : Nat :=
  if t[t.offset p]? = some '\n' then t.offset p + 1 else t.offset p

theorem Document.withBreak_start (doc : Document) (span : Span) :
    (doc.withBreak span).start = span.start := by
  have hnext := Position.le_startOfNextRow span.start_le_stop
  rw [withBreak]
  split
  · split
    · rfl
    · split
      · rfl
      · exact Span.ofEnds_start_of_le hnext
  · rfl

theorem Document.offset_withBreak {doc : Document} {span : Span} (h : doc.text.FeedsOnly)
    (hstop : doc.text.HasPlace span.stop) :
    doc.text.offset (doc.withBreak span).stop = doc.text.resumeAt span.stop := by
  obtain ⟨line, hline, hcolumn⟩ := hstop
  have hfeed := Text.getElem?_offset h hline hcolumn
  rw [withBreak, Text.rowCount_eq h, Text.row?_eq h, hline, Text.resumeAt]
  dsimp only
  by_cases hrow : span.stop.row + 1 < doc.text.lines.length
  · rw [if_pos hrow]
    by_cases hend : span.stop.column < line.length
    · rw [if_pos hend, if_neg]
      exact fun hc => absurd (hfeed.mp hc).1 (Nat.ne_of_lt hend)
    · have hcolumn : span.stop.column = line.length := by omega
      have hnext := Position.le_startOfNextRow span.start_le_stop
      rw [if_neg hend, if_pos (hfeed.mpr ⟨hcolumn, hrow⟩), Span.ofEnds_stop_of_le hnext]
      have hoffset := Text.offset_startOfNextRow h hline hrow
      rw [← hcolumn] at hoffset
      exact hoffset
  · rw [if_neg hrow, if_neg]
    exact fun hc => absurd (hfeed.mp hc).2 hrow

/-- A text that is cut in two, and what is written in between. -/
structure Surgery where
  /-- what stays before the cut -/
  before : Text
  /-- what is written -/
  written : Text
  /-- what stays behind the cut -/
  after : Text
  deriving DecidableEq

/-- The text after the surgery. -/
def Surgery.text (cut : Surgery) : Text := cut.before ++ cut.written ++ cut.after

/-- What is done to a text when code is written over the call that is found, or else to the start of
the chunk's body, or to a new row when the header is the last one. -/
def Panel.surgery (panel : Panel) (doc : Document) (code : Text) : Surgery :=
  match panel.locate doc with
  | some call =>
    ⟨doc.text.take (doc.text.offset call.start), code,
      doc.text.drop (doc.text.resumeAt call.stop)⟩
  | none =>
    if panel.chunkStart.row + 1 < doc.text.rowCount then
      let start := doc.text.offset panel.chunkStart.startOfNextRow
      ⟨doc.text.take start, code, doc.text.drop start⟩
    else ⟨doc.text, if code = [] then [] else '\n' :: code, []⟩

/-! ## Commits -/

theorem Text.withLineFeeds_feed (t : Text) :
    Text.withLineFeeds ('\n' :: t) = '\n' :: t.withLineFeeds := by
  simp [withLineFeeds]

theorem Text.withLineFeeds_eq_nil {t : Text} : t.withLineFeeds = [] ↔ t = [] := by
  fun_cases withLineFeeds t <;> simp

namespace Panel

variable {doc : Document} {baseline : OptionMap}

/-- What a commit tells, and the panel for the next one. -/
theorem outcome_of_commit {panel panel' : Panel} {doc' : Document} {edits : Edits}
    {outcome : Outcome} (hready : panel.baseline = .ready baseline)
    (h : panel.commit doc edits = .ok (outcome, doc', panel')) :
    outcome.options = baseline.merge edits ∧ outcome.located = (panel.locate doc).isSome ∧
      panel' = panel.seed (baseline.merge edits) := by
  rw [commit, commitAt, hready] at h
  cases h
  exact ⟨rfl, rfl, rfl⟩

/-- A commit over a call that is found. -/
theorem commitAt_some (panel : Panel) (edits : Edits) {call : Span}
    (hready : panel.baseline = .ready baseline) (h : doc.text.FeedsOnly)
    (hstart : doc.text.HasPlace call.start) (hstop : doc.text.HasPlace call.stop) :
    ∃ pointed : Document, pointed.text = doc.text ∧
      panel.commitAt (some call) doc edits =
        .ok (⟨doc.withBreak call, (baseline.merge edits).render panel.config,
            baseline.merge edits, true⟩,
          pointed.write (doc.withBreak call) ((baseline.merge edits).render panel.config),
          panel.seed (baseline.merge edits)) := by
  have hselected := Document.selectedSpan_pointAt h panel.chunkStart hstart hstop
  refine ⟨doc.pointAt (some call) panel.chunkStart, rfl, ?_⟩
  rw [commitAt, hready]
  simp only [hselected, Option.isNone_some, Bool.false_and, Bool.false_eq_true, if_false,
    Option.isSome_some, if_true]
  rfl

/-- A commit when no call is found. -/
theorem commitAt_none (panel : Panel) (edits : Edits) (hready : panel.baseline = .ready baseline)
    (h : doc.text.FeedsOnly)
    (hstart : doc.text.HasPlace (doc.bodyStart panel.chunkStart)) :
    ∃ pointed : Document, pointed.text = doc.text ∧
      let rendered := (baseline.merge edits).render panel.config
      let code := if (doc.bodyStart panel.chunkStart).row = panel.chunkStart.row ∧ rendered ≠ []
        then '\n' :: rendered else rendered
      panel.commitAt none doc edits =
        .ok (⟨Span.caret (doc.bodyStart panel.chunkStart), code, baseline.merge edits, false⟩,
          pointed.write (Span.caret (doc.bodyStart panel.chunkStart)) code,
          panel.seed (baseline.merge edits)) := by
  have hselected := Document.selectedSpan_pointAt_none h hstart
  refine ⟨doc.pointAt none panel.chunkStart, rfl, ?_⟩
  rw [commitAt, hready]
  simp [hselected, Span.caret]

end Panel

/-! ## Commits around a chunk -/

namespace Layout

variable {lexer : Lexer} {before body after : List Text} {header : Text} {doc : Document}

theorem length_lines {t : Text} (h : Layout lexer t.lines before header body after) :
    t.lines.length = before.length + 1 + body.length + after.length := by
  rw [h.lines_eq]
  simp only [List.length_append, List.length_cons]
  omega

theorem getElem?_header {t : Text} (h : Layout lexer t.lines before header body after) :
    t.lines[before.length]? = some header := by
  rw [h.lines_eq, List.getElem?_append_right (Nat.le_refl _), Nat.sub_self]
  rfl

/-- The body starts on the row after the header, or at the end of the header if that is the last
row. -/
theorem bodyStart_eq (h : Layout lexer doc.text.lines before header body after)
    (hfeeds : doc.text.FeedsOnly) :
    doc.bodyStart ⟨before.length, 0⟩ =
      if before.length + 1 < doc.text.lines.length then ⟨before.length + 1, 0⟩
      else ⟨before.length, header.length⟩ := by
  rw [Document.bodyStart, Text.rowCount_eq hfeeds, Text.row?_eq hfeeds]
  dsimp only
  rw [h.getElem?_header]
  rfl

theorem hasPlace_bodyStart (h : Layout lexer doc.text.lines before header body after)
    (hfeeds : doc.text.FeedsOnly) : doc.text.HasPlace (doc.bodyStart ⟨before.length, 0⟩) := by
  rw [h.bodyStart_eq hfeeds]
  split
  · next hrow => exact Text.hasPlace_start hrow
  · exact ⟨header, h.getElem?_header, Nat.le_refl _⟩

/-- When the header is the last row, the end of the header is the end of the text. -/
theorem offset_bodyStart_last (h : Layout lexer doc.text.lines before header body after)
    (hfeeds : doc.text.FeedsOnly) (hrow : ¬ before.length + 1 < doc.text.lines.length) :
    doc.text.offset ⟨before.length, header.length⟩ = doc.text.length := by
  have hdrop := Text.drop_offset hfeeds h.getElem?_header (Nat.le_refl _)
  rw [List.drop_length, List.drop_of_length_le (Nat.le_of_not_lt hrow), Text.ofLines_singleton,
    List.drop_eq_nil_iff] at hdrop
  exact Nat.le_antisymm (Text.offset_le_length _ _) hdrop

/-- The call of a chunk starts and stops at places of its body. -/
theorem places_of_locate (h : Layout lexer doc.text.lines before header body after) {panel : Panel}
    (hchunk : panel.chunkStart = ⟨before.length, 0⟩)
    (htokenize : panel.tokenize = lexer.documentTokens) {call : Span}
    (hlocate : panel.locate doc = some call) :
    doc.text.HasPlace call.start ∧ doc.text.HasPlace call.stop ∧
      before.length < call.start.row ∧ call.stop.row < before.length + 1 + body.length := by
  rw [Panel.locate, Panel.locateIn, hchunk, htokenize] at hlocate
  obtain ⟨_, _, _, _, _, -, -, -, hplaces⟩ := h.exists_call hlocate
  exact hplaces

/-- **A commit is the surgery.** -/
theorem commit_eq_surgery (h : Layout lexer doc.text.lines before header body after)
    (hfeeds : doc.text.FeedsOnly) (config : Config) (baseline : OptionMap) (edits : Edits) :
    let panel : Panel := ⟨⟨before.length, 0⟩, lexer.documentTokens, config, .ready baseline⟩
    let cut := panel.surgery doc ((baseline.merge edits).render config).withLineFeeds
    ∃ outcome doc' panel', panel.commit doc edits = .ok (outcome, doc', panel') ∧
      doc'.text = cut.text ∧ doc'.selection = none ∧
      doc'.text.offset doc'.caret = (cut.before ++ cut.written).length := by
  intro panel cut
  cases hlocate : panel.locate doc with
  | some call =>
    obtain ⟨hstart, hstop, -, -⟩ := h.places_of_locate rfl rfl hlocate
    obtain ⟨pointed, htext, hcommit⟩ :=
      panel.commitAt_some edits rfl hfeeds hstart hstop
    have hcut : cut = ⟨doc.text.take (doc.text.offset call.start),
        ((baseline.merge edits).render config).withLineFeeds,
        doc.text.drop (doc.text.resumeAt call.stop)⟩ := by
      simp only [cut, Panel.surgery, hlocate]
    rw [← Document.offset_withBreak hfeeds hstop, ← Document.withBreak_start doc call] at hcut
    rw [← htext] at hcut
    refine ⟨_, _, _, by rw [Panel.commit, hlocate, hcommit], ?_, rfl, ?_⟩
    · rw [Document.write_text, hcut]
      rfl
    · rw [Document.offset_caret_write, hcut]
  | none =>
    have hplace := h.hasPlace_bodyStart hfeeds
    obtain ⟨pointed, htext, hcommit⟩ := panel.commitAt_none edits rfl hfeeds hplace
    obtain ⟨code, hcode⟩ : ∃ code : Text, code =
        if (doc.bodyStart ⟨before.length, 0⟩).row = before.length ∧
            (baseline.merge edits).render config ≠ []
          then '\n' :: (baseline.merge edits).render config
          else (baseline.merge edits).render config := ⟨_, rfl⟩
    -- what precedes and what follows the caret
    have hcut : cut = ⟨doc.text.take (doc.text.offset (doc.bodyStart ⟨before.length, 0⟩)),
        code.withLineFeeds,
        doc.text.drop (doc.text.offset (doc.bodyStart ⟨before.length, 0⟩))⟩ := by
      simp only [cut, Panel.surgery, hlocate, Text.rowCount_eq hfeeds]
      rw [hcode, h.bodyStart_eq hfeeds]
      by_cases hrow : before.length + 1 < doc.text.lines.length
      · rw [if_pos hrow, if_pos hrow, if_neg (fun hc => absurd hc.1 (Nat.succ_ne_self _))]
        rfl
      · rw [if_neg hrow, if_neg hrow, h.offset_bodyStart_last hfeeds hrow, List.take_length,
          List.drop_length]
        by_cases hnil : (baseline.merge edits).render config = []
        · rw [hnil, if_pos (Text.withLineFeeds_eq_nil.mpr rfl), if_neg fun hc => hc.2 rfl]
          rfl
        · rw [if_neg (mt Text.withLineFeeds_eq_nil.mp hnil), if_pos ⟨rfl, hnil⟩,
            Text.withLineFeeds_feed]
    have hwritten : panel.commitAt none doc edits =
        .ok (⟨Span.caret (doc.bodyStart ⟨before.length, 0⟩), code, baseline.merge edits, false⟩,
          pointed.write (Span.caret (doc.bodyStart ⟨before.length, 0⟩)) code,
          panel.seed (baseline.merge edits)) := by
      rw [hcode]
      exact hcommit
    rw [← htext] at hcut
    refine ⟨_, _, _, by rw [Panel.commit, hlocate, hwritten], ?_, rfl, ?_⟩
    · rw [Document.write_text, hcut]
      rfl
    · rw [Document.offset_caret_write, hcut]
      rfl

/-- Above the chunk and on its header, a commit leaves everything. -/
theorem take_rows_prefix (h : Layout lexer doc.text.lines before header body after)
    (hfeeds : doc.text.FeedsOnly) (panel : Panel) (hchunk : panel.chunkStart = ⟨before.length, 0⟩)
    (htokenize : panel.tokenize = lexer.documentTokens) (code : Text) :
    (doc.text.rows.take (before.length + 1)).flatten <+: (panel.surgery doc code).before := by
  by_cases hrow : before.length + 1 < doc.text.lines.length
  · rw [Text.flatten_take_rows hfeeds hrow, Panel.surgery]
    split
    · next call hlocate =>
      obtain ⟨-, -, hlt, -⟩ := h.places_of_locate hchunk htokenize hlocate
      refine List.take_prefix_take_left (Text.offset_mono _ ?_)
      rw [Position.le_def]
      dsimp only
      omega
    · rw [Text.rowCount_eq hfeeds, hchunk]
      split
      · exact List.prefix_rfl
      · next hbelow => exact absurd hrow hbelow
  · have hall : (doc.text.rows.take (before.length + 1)).flatten = doc.text := by
      rw [List.take_of_length_le, Text.flatten_rows]
      rw [Text.rows_eq_separated hfeeds, Text.length_separated]
      omega
    rw [hall, Panel.surgery]
    split
    · next call hlocate =>
      -- there is no row for a call to be on
      obtain ⟨⟨line, hline, -⟩, -, hlt, -⟩ := h.places_of_locate hchunk htokenize hlocate
      obtain ⟨hrow', -⟩ := List.getElem?_eq_some_iff.mp hline
      omega
    · rw [Text.rowCount_eq hfeeds, hchunk]
      split
      · next hbelow => exact absurd hbelow hrow
      · exact List.prefix_rfl

/-- From the closing fence of the chunk on, a commit leaves everything. -/
theorem drop_rows_suffix (h : Layout lexer doc.text.lines before header body after)
    (hfeeds : doc.text.FeedsOnly) (panel : Panel) (hchunk : panel.chunkStart = ⟨before.length, 0⟩)
    (htokenize : panel.tokenize = lexer.documentTokens) (code : Text) {row : Nat}
    (hend : Layout.endRow? before body after = some row) :
    (doc.text.rows.drop row).flatten <:+ (panel.surgery doc code).after := by
  obtain ⟨fence, more, rfl⟩ : ∃ fence more, after = fence :: more := by
    cases after with
    | nil => cases hend
    | cons fence more => exact ⟨fence, more, rfl⟩
  obtain rfl : before.length + 1 + body.length = row := Option.some.inj hend
  have hlength := h.length_lines
  rw [List.length_cons] at hlength
  have hrow : before.length + 1 + body.length < doc.text.lines.length := by omega
  rw [Text.flatten_drop_rows hfeeds hrow, Panel.surgery]
  split
  · next call hlocate =>
    obtain ⟨-, ⟨line, hline, hcolumn⟩, -, hlt⟩ := h.places_of_locate hchunk htokenize hlocate
    have hbreak := Text.length_ended_take hline hlt
    have hfence := Text.offset_eq hfeeds (List.getElem?_eq_getElem hrow) (Nat.zero_le _)
    have hoffset : doc.text.offset call.stop =
        (Text.ended (doc.text.lines.take call.stop.row)).length + call.stop.column :=
      Text.offset_eq hfeeds hline hcolumn
    refine List.drop_suffix_drop_left _ ?_
    rw [Text.resumeAt]
    split <;> omega
  · have hbody : before.length + 1 < doc.text.lines.length := by omega
    rw [Text.rowCount_eq hfeeds, hchunk, if_pos hbody]
    refine List.drop_suffix_drop_left _ (Text.offset_mono _ ?_)
    rw [Position.le_def]
    dsimp only [Position.startOfNextRow]
    omega

end Layout

/-- A document with one chunk, whose call stands between other code. -/
def Document.sample : Document :=
  Document.load
    "\x60\x60\x60{r}\nx; knitr:::opts_chunk$set(a = 1) # y\n\x60\x60\x60".toList

namespace Panel

/-- **A commit is exact surgery on the text.** The code is written over the call, together with the
line feed right behind it, or to the start of the chunk's body; the caret goes behind it, nothing is
selected, and the header and the closing fence stay, with all that is outside of them. -/
theorem commit_surgery (lexer : Lexer) (config : Config) {doc : Document}
    (hfeeds : doc.text.FeedsOnly) {chunk : Chunk}
    (hchunk : chunk ∈ Chunk.ofTokens (lexer.documentTokens doc.text)) (baseline : OptionMap)
    (edits : Edits) :
    let panel : Panel := ⟨chunk.header, lexer.documentTokens, config, .ready baseline⟩
    let cut := panel.surgery doc ((baseline.merge edits).render config).withLineFeeds
    ∃ outcome doc' panel', panel.commit doc edits = .ok (outcome, doc', panel') ∧
      doc'.text = cut.before ++ cut.written ++ cut.after ∧
      doc'.selection = none ∧
      doc'.text.offset doc'.caret = (cut.before ++ cut.written).length ∧
      (doc.text.rows.take (chunk.header.row + 1)).flatten <+: doc'.text ∧
      ∀ row, chunk.endRow = some row → (doc.text.rows.drop row).flatten <:+ doc'.text := by
  obtain ⟨before, header, body, after, hlayout, hheader, hend⟩ := exists_layout hchunk
  rw [hheader, hend]
  intro panel cut
  obtain ⟨outcome, doc', panel', hcommit, htext, hselection, hcaret⟩ :=
    hlayout.commit_eq_surgery hfeeds config baseline edits
  refine ⟨outcome, doc', panel', hcommit, htext, hselection, hcaret, ?_, fun row hrow => ?_⟩
  · rw [htext, Surgery.text, List.append_assoc]
    exact (hlayout.take_rows_prefix hfeeds panel rfl rfl _).trans (List.prefix_append _ _)
  · rw [htext]
    exact (hlayout.drop_rows_suffix hfeeds panel rfl rfl _ hrow).trans (List.suffix_append _ _)

/-- In a chunk with other code on the row of its call, that code keeps its place on both sides. -/
theorem commit_surgery_sample :
    ∃ outcome doc' panel',
      (⟨⟨0, 0⟩, (Lexer.closedBy ['\x60', '\x60', '\x60']).documentTokens, {}, .ready .empty⟩ :
          Panel).commit Document.sample { echo := some falseLiteral } =
          .ok (outcome, doc', panel') ∧
        doc'.text =
          "\x60\x60\x60{r}\nx; knitr::opts_chunk$set(echo = FALSE)\n # y\n\x60\x60\x60".toList := by
  have hfeeds : Document.sample.text.FeedsOnly := by decide +kernel
  have hchunk : (⟨⟨0, 0⟩, some 2, ['r'], none⟩ : Chunk) ∈ Chunk.ofTokens
      ((Lexer.closedBy ['\x60', '\x60', '\x60']).documentTokens Document.sample.text) := by
    decide +kernel
  obtain ⟨outcome, doc', panel', hcommit, htext, -⟩ :=
    commit_surgery _ {} hfeeds hchunk .empty { echo := some falseLiteral }
  exact ⟨outcome, doc', panel', hcommit, htext.trans (by decide +kernel)⟩

end Panel

end RmdOptions
