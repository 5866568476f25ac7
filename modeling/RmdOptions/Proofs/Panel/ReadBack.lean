import RmdOptions.Proofs.Options.Slot
import RmdOptions.Proofs.Panel.Baseline

/-!
# Reading back what was committed

Options that a commit has written are the ones that the next session reads: the call that it writes
is the first call of the chunk again, whatever other code the chunk holds.

* `Layout.surgery_text_of_none`, `Layout.exists_slot` — a commit writes behind the header, or over a
  call, and always into a slot;
* `Slot.layout`, `Layout.exists_written` — the chunk and the document after the commit;
* `Panel.readBaseline_commit` — the baseline of the next session.
-/

namespace RmdOptions

/-! ## Cutting a text at a place -/

namespace Text

variable {t a b : Text} {ls more : List Text}

theorem getElem?_of_lines_eq (hlines : t.lines = ls ++ (a ++ b) :: more) :
    t.lines[ls.length]? = some (a ++ b) := by
  rw [hlines, List.getElem?_append_right (Nat.le_refl _), Nat.sub_self]
  rfl

theorem take_offset_of_lines (h : t.FeedsOnly) (hlines : t.lines = ls ++ (a ++ b) :: more) :
    t.take (t.offset ⟨ls.length, a.length⟩) = ended ls ++ a := by
  rw [take_offset h (getElem?_of_lines_eq hlines) (by simp), hlines, List.take_left, List.take_left]

theorem drop_offset_of_lines (h : t.FeedsOnly) (hlines : t.lines = ls ++ (a ++ b) :: more) :
    t.drop (t.offset ⟨ls.length, a.length⟩) = ofLines (b :: more) := by
  rw [drop_offset h (getElem?_of_lines_eq hlines) (by simp), hlines, List.drop_left,
    List.append_cons, List.drop_left']
  simp

/-- What follows a call: the rest of its line and the lines below, or only these. -/
theorem drop_resumeAt (h : t.FeedsOnly) (hlines : t.lines = ls ++ (a ++ b) :: more) :
    t.drop (t.resumeAt ⟨ls.length, a.length⟩) = ofLines (resumedLines b more) := by
  have hfeed : t[t.offset ⟨ls.length, a.length⟩]? = some '\n' ↔
      a.length = (a ++ b).length ∧ ls.length + 1 < t.lines.length :=
    getElem?_offset h (getElem?_of_lines_eq hlines) (by simp)
  have hdrop := drop_offset_of_lines h hlines
  have hend : a.length = (a ++ b).length ∧ ls.length + 1 < t.lines.length ↔ b = [] ∧ more ≠ [] := by
    rw [hlines]
    simp [List.length_pos_iff]
  rw [hend] at hfeed
  rw [resumeAt, resumedLines]
  by_cases hbreak : b = [] ∧ more ≠ []
  · rw [if_pos (hfeed.mpr hbreak), if_pos hbreak, ← List.drop_drop, hdrop, hbreak.1,
      ofLines_cons _ hbreak.2]
    rfl
  · rw [if_neg (mt hfeed.mp hbreak), if_neg hbreak, hdrop]

end Text

/-! ## Where a commit writes -/

namespace Layout

variable {config : Config} {before body after : List Text} {header : Text} {doc : Document}

/-- The lines of the body of a chunk are rows that do not close it. -/
theorem body_unbroken
    (h : Layout (.closedBy config.closingFence) doc.text.lines before header body after)
    (hfeeds : doc.text.FeedsOnly) :
    ∀ line ∈ body, line.Unbroken ∧ Fence.closes config.closingFence line = false := by
  intro line hline
  refine ⟨hfeeds.unbroken ?_, h.body_open line hline⟩
  rw [h.lines_eq]
  simp [hline]

theorem after_unbroken
    (h : Layout (.closedBy config.closingFence) doc.text.lines before header body after)
    (hfeeds : doc.text.FeedsOnly) : ∀ line ∈ after, line.Unbroken := by
  intro line hline
  refine hfeeds.unbroken ?_
  rw [h.lines_eq]
  simp [hline]

/-- The call of a chunk stands in a slot. -/
theorem exists_slot_of_locate (hconfig : config.IsUsual)
    (h : Layout (.closedBy config.closingFence) doc.text.lines before header body after)
    (hfeeds : doc.text.FeedsOnly) {call : Span}
    (hlocate : (locate config.shape (Cursor.on
      ((Lexer.closedBy config.closingFence).documentTokens doc.text) ⟨before.length, 0⟩)).1 =
        some call) :
    ∃ above a rest earlier, Slot config.closingFence config.shape above a rest earlier ∧ rest ≠ [] ∧
      doc.text.take (doc.text.offset call.start) = Text.ended (before ++ header :: above) ++ a ∧
      doc.text.drop (doc.text.resumeAt call.stop) = Text.ofLines rest := by
  rw [h.locate_header_eq_locate_code, locate_start, codeTokens_ofLines _ h.feed_not_mem,
    Option.map_eq_some_iff] at hlocate
  obtain ⟨inBody, hinBody, rfl⟩ := hlocate
  obtain ⟨at', hat, hspan⟩ := Option.bind_eq_some_iff.mp hinBody
  obtain ⟨earlier, first, inside, close, later, hcall, hparts⟩ := RmdOptions.exists_call hat
  obtain rfl := Option.some.inj (hspan.symm.trans hparts)
  -- the lines of the body are cut at the first and at the last token of the call
  have htokens := hcall.tokens_eq
  obtain ⟨later₁, above, head, tail, below, hfirst, -⟩ :=
    bodyTokens_cut h.feed_not_mem (by rw [hcall.first_kind]; decide) htokens
  rw [← List.cons_append, ← List.append_assoc] at htokens
  obtain ⟨later₂, above', head', tail', below', hclose, hlater⟩ :=
    bodyTokens_cut h.feed_not_mem (by rw [(Token.is_iff.mp hcall.close_is).1]; decide) htokens
  have hle := hclose.start_le_stop_of_mem (List.mem_append_right _ List.mem_cons_self)
  have hslot := Slot.of_call (h.body_unbroken hfeeds) (h.after_unbroken hfeeds) h.after_closes
    hconfig.package hconfig.object hcall hfirst hclose hlater
  refine ⟨above, head, resumedLines tail' (below' ++ after), earlier, hslot,
    resumedLines_ne_nil _ _, ?_, ?_⟩
  · have hlines : doc.text.lines = (before ++ header :: above) ++
        (head ++ (first.text ++ tail)) :: (below ++ after) := by
      rw [h.lines_eq, hfirst.lines_eq]
      simp
    have hplace : ((Span.ofEnds first.start close.stop).down (before.length + 1)).start =
        ⟨(before ++ header :: above).length, head.length⟩ := by
      rw [Span.down_start, Span.ofEnds_start_of_le hle, hfirst.start_eq, Position.down]
      simp only [List.length_append, List.length_cons]
      congr 1
      omega
    rw [hplace, Text.take_offset_of_lines hfeeds hlines]
  · have hlines : doc.text.lines = (before ++ header :: above') ++
        ((head' ++ close.text) ++ tail') :: (below' ++ after) := by
      rw [h.lines_eq, hclose.lines_eq]
      simp
    have hplace : ((Span.ofEnds first.start close.stop).down (before.length + 1)).stop =
        ⟨(before ++ header :: above').length, (head' ++ close.text).length⟩ := by
      rw [Span.down_stop, Span.ofEnds_stop_of_le hle, hclose.stop_eq, Position.down]
      simp only [List.length_append, List.length_cons]
      congr 1
      omega
    rw [hplace, Text.drop_resumeAt hfeeds hlines]

/-- There is a row below the header if there are lines of the body, or behind it. -/
theorem lt_rowCount_iff {lexer : Lexer}
    (h : Layout lexer doc.text.lines before header body after) (hfeeds : doc.text.FeedsOnly) :
    before.length + 1 < doc.text.rowCount ↔ body ++ after ≠ [] := by
  rw [Text.rowCount_eq hfeeds, h.length_lines, ← List.length_pos_iff, List.length_append]
  omega

/-- When no call is found, all rows below the header stay behind the code. -/
theorem surgery_after_of_none {lexer : Lexer}
    (h : Layout lexer doc.text.lines before header body after)
    (hfeeds : doc.text.FeedsOnly) {panel : Panel} (hchunk : panel.chunkStart = ⟨before.length, 0⟩)
    (hlocate : panel.locate doc = none) (code : Text) :
    (panel.surgery doc code).after = Text.ofLines (resumedLines [] (body ++ after)) := by
  have hrow := h.lt_rowCount_iff hfeeds
  simp only [Panel.surgery, hlocate, hchunk]
  by_cases hbelow : body ++ after = []
  · rw [if_neg (mt hrow.mp (not_not_intro hbelow)), hbelow, resumedLines_nil,
      Text.ofLines_singleton]
  · obtain ⟨line, more, hmore⟩ := List.exists_cons_of_ne_nil hbelow
    have hlines := h.lines_eq
    rw [hmore, List.append_cons] at hlines
    have hplace : (⟨before.length, 0⟩ : Position).startOfNextRow =
        ⟨(before ++ [header]).length, ([] : Text).length⟩ := by
      simp [Position.startOfNextRow]
    have hdrop : doc.text.drop (doc.text.offset ⟨(before ++ [header]).length, ([] : Text).length⟩) =
        Text.ofLines (line :: more) :=
      Text.drop_offset_of_lines hfeeds hlines
    rw [if_pos (hrow.mpr hbelow), hplace, hdrop, resumedLines_of_ne_nil hbelow, hmore]

/-- When no call is found, code is put behind the row of the header. -/
theorem surgery_text_of_none {lexer : Lexer}
    (h : Layout lexer doc.text.lines before header body after)
    (hfeeds : doc.text.FeedsOnly) {panel : Panel} (hchunk : panel.chunkStart = ⟨before.length, 0⟩)
    (hlocate : panel.locate doc = none) (code : Text) :
    (panel.surgery doc code).text = if code = [] then doc.text else
      Text.ended (before ++ [header]) ++ code ++
        Text.ofLines (resumedLines [] (body ++ after)) := by
  have hlines := h.lines_eq
  have hrow := h.lt_rowCount_iff hfeeds
  have hafter := h.surgery_after_of_none hfeeds hchunk hlocate code
  rw [Surgery.text, hafter]
  simp only [Panel.surgery, hlocate, hchunk]
  by_cases hbelow : body ++ after = []
  · -- the header is the last row
    have htext : doc.text = Text.ended before ++ header := by
      rw [← Text.ofLines_lines doc.text, hlines, hbelow,
        Text.ofLines_append _ (List.cons_ne_nil _ _), Text.ofLines_singleton]
    rw [if_neg (mt hrow.mp (not_not_intro hbelow)), hbelow, resumedLines_nil,
      Text.ofLines_singleton]
    split
    · simp
    · rw [htext]
      simp
  · obtain ⟨line, more, hmore⟩ := List.exists_cons_of_ne_nil hbelow
    rw [hmore, List.append_cons] at hlines
    have hplace : (⟨before.length, 0⟩ : Position).startOfNextRow =
        ⟨(before ++ [header]).length, ([] : Text).length⟩ := by
      simp [Position.startOfNextRow]
    have htake := Text.take_offset_of_lines (a := []) (b := line) hfeeds hlines
    rw [List.append_nil] at htake
    rw [if_pos (hrow.mpr hbelow), hplace, htake]
    split
    · next hcode =>
      rw [hcode, List.append_nil, resumedLines_of_ne_nil hbelow, hmore,
        ← Text.ofLines_append _ (List.cons_ne_nil _ _), ← hlines, Text.ofLines_lines]
    · rfl

/-- **A commit writes into a slot.** Behind the slot are the lines that stay behind the cut. -/
theorem exists_slot (hconfig : config.IsUsual)
    (h : Layout (.closedBy config.closingFence) doc.text.lines before header body after)
    (hfeeds : doc.text.FeedsOnly) (baseline : Baseline) {code : Text} (hcode : code ≠ []) :
    let panel : Panel :=
      ⟨⟨before.length, 0⟩, (Lexer.closedBy config.closingFence).documentTokens, config, baseline⟩
    ∃ above a rest earlier, Slot config.closingFence config.shape above a rest earlier ∧ rest ≠ [] ∧
      (panel.surgery doc code).text =
          Text.ended (before ++ header :: above) ++ a ++ code ++ Text.ofLines rest ∧
        (panel.surgery doc code).after = Text.ofLines rest := by
  intro panel
  cases hlocate : panel.locate doc with
  | some call =>
    obtain ⟨above, a, rest, earlier, hslot, hne, hbefore, hafter⟩ :=
      h.exists_slot_of_locate hconfig hfeeds hlocate
    have hcut : panel.surgery doc code = ⟨doc.text.take (doc.text.offset call.start), code,
        doc.text.drop (doc.text.resumeAt call.stop)⟩ := by
      simp only [Panel.surgery, hlocate]
    refine ⟨above, a, rest, earlier, hslot, hne, ?_, ?_⟩
    · rw [hcut, Surgery.text, hbefore, hafter]
    · rw [hcut, hafter]
  | none =>
    refine ⟨[], [], resumedLines [] (body ++ after), [], Slot.start fun line hline => ?_,
      resumedLines_ne_nil _ _, ?_, h.surgery_after_of_none hfeeds rfl hlocate code⟩
    · rcases mem_resumedLines hline with rfl | hline
      · exact fun c hc => absurd hc List.not_mem_nil
      · rcases List.mem_append.mp hline with hline | hline
        · exact (h.body_unbroken hfeeds line hline).1
        · exact h.after_unbroken hfeeds line hline
    · rw [h.surgery_text_of_none hfeeds rfl hlocate, if_neg hcode, List.append_nil]

end Layout

/-! ## The chunk after a commit -/

variable {config : Config} {before body after : List Text} {header : Text} {m : OptionMap}

/-- A call in a slot leaves the chunk open, at least up to the last line of the call. -/
theorem Slot.layout {ls above rest more : List Text} {a first : Text} {earlier : List Token}
    (hslot : Slot config.closingFence config.shape above a rest earlier) (hconfig : config.IsUsual)
    (h : Layout (.closedBy config.closingFence) ls before header body after)
    (hwritten : m.writtenLines config = first :: more) :
    Layout (.closedBy config.closingFence)
      (before ++ header :: (above ++ (a ++ first) :: (more ++ rest))) before header
      (above ++ (a ++ first) :: (more ++ openLines config.closingFence rest))
      (rest.dropWhile fun line => !Fence.closes config.closingFence line) := by
  have hcloses (b : Text) := hconfig.closes_eq_false (m := m) b
  rw [hwritten] at hcloses
  have hopen : ∀ line ∈ above ++ (a ++ first) :: more,
      (!Fence.closes (Lexer.closedBy config.closingFence).closingFence line) = true := by
    intro line hline
    rw [Bool.not_eq_true']
    rw [List.mem_append, List.mem_cons] at hline
    rcases hline with hline | rfl | hline
    · exact hslot.above_open line hline
    · exact hcloses a first List.mem_cons_self
    · exact hcloses [] line (List.mem_cons_of_mem _ hline)
  have hlines : above ++ (a ++ first) :: (more ++ rest) =
      (above ++ (a ++ first) :: more) ++ rest := by
    simp
  have hlayout : Layout (.closedBy config.closingFence) _ before header _ _ :=
    Layout.of_opens (congrArg (before ++ header :: ·) hlines) h.prose h.opens
  rw [List.takeWhile_append_of_pos hopen, List.dropWhile_append_of_pos hopen] at hlayout
  have hbody : above ++ (a ++ first) :: (more ++ openLines config.closingFence rest) =
      (above ++ (a ++ first) :: more) ++ openLines config.closingFence rest := by
    simp
  rw [hbody]
  exact hlayout

namespace Layout

/-- **The document after a commit.** Its rows are those above the slot, the lines of the call and
those that stay behind the cut, and its chunk is as before but for them. -/
theorem exists_written (hconfig : config.IsUsual) {doc doc' : Document}
    (h : Layout (.closedBy config.closingFence) doc.text.lines before header body after)
    (hfeeds : doc.text.FeedsOnly) (baseline : Baseline) (hm : m.IsPlain) (hne : m.entries ≠ [])
    {first : Text} {more : List Text} (hwritten : m.writtenLines config = first :: more) :
    let panel : Panel :=
      ⟨⟨before.length, 0⟩, (Lexer.closedBy config.closingFence).documentTokens, config, baseline⟩
    doc'.text = (panel.surgery doc (m.render config)).text →
      ∃ above a rest earlier, Slot config.closingFence config.shape above a rest earlier ∧
        rest ≠ [] ∧ (panel.surgery doc (m.render config)).after = Text.ofLines rest ∧
        doc'.text.FeedsOnly ∧
        doc'.text.lines = before ++ header :: (above ++ (a ++ first) :: (more ++ rest)) ∧
        Layout (.closedBy config.closingFence) doc'.text.lines before header
          (above ++ (a ++ first) :: (more ++ openLines config.closingFence rest))
          (rest.dropWhile fun line => !Fence.closes config.closingFence line) := by
  intro panel hdoc'
  have hrender : m.render config = Text.ended (first :: more) := by
    rw [OptionMap.render_eq config hne, hwritten]
  have hcode : m.render config ≠ [] := by
    rw [hrender]
    simp
  obtain ⟨above, a, rest, earlier, hslot, hrest, htext, hafter⟩ :=
    h.exists_slot hconfig hfeeds baseline hcode
  have hwhole : doc'.text = Text.ofLines
      (before ++ header :: (above ++ (a ++ first) :: (more ++ rest))) := by
    have hsplit : before ++ header :: (above ++ (a ++ first) :: (more ++ rest)) =
        (before ++ header :: above ++ (a ++ first) :: more) ++ rest := by
      simp
    rw [hdoc', htext, hrender, hsplit, Text.ofLines_append _ hrest]
    simp
  -- the rows of the new document are its lines again
  have hunbroken : ∀ line ∈ before ++ header :: (above ++ (a ++ first) :: (more ++ rest)),
      Text.Unbroken line := by
    intro line hline
    rw [List.append_cons, List.mem_append] at hline
    rcases hline with hline | hline
    · refine hfeeds.unbroken ?_
      rw [h.lines_eq, List.append_cons]
      exact List.mem_append_left _ hline
    · exact hslot.unbroken_written hconfig hm hwritten line hline
  have hlines : doc'.text.lines =
      before ++ header :: (above ++ (a ++ first) :: (more ++ rest)) := by
    rw [hwhole, Text.lines_ofLines (by simp) fun line hline => (hunbroken line hline).feed_not_mem]
  have hfeeds' : doc'.text.FeedsOnly := by
    rw [hwhole]
    exact Text.feedsOnly_ofLines hunbroken
  refine ⟨above, a, rest, earlier, hslot, hrest, hafter, hfeeds', hlines, ?_⟩
  rw [hlines]
  exact hslot.layout hconfig h hwritten

/-- **Plain options that are written are read again.** -/
theorem readOptions_surgery (hconfig : config.IsUsual) {doc doc' : Document}
    (h : Layout (.closedBy config.closingFence) doc.text.lines before header body after)
    (hfeeds : doc.text.FeedsOnly) (baseline : Baseline) (hm : m.IsPlain) (hne : m.entries ≠ []) :
    let tokenize := (Lexer.closedBy config.closingFence).documentTokens
    let panel : Panel := ⟨⟨before.length, 0⟩, tokenize, config, baseline⟩
    doc'.text = (panel.surgery doc (m.render config)).text →
      config.readOptions ((Panel.new ⟨before.length, 0⟩ tokenize config).request doc').1 =
        .ok (m.written config) := by
  intro tokenize panel hdoc'
  obtain ⟨first, more, hwritten⟩ := List.exists_cons_of_ne_nil (m.writtenLines_ne_nil config)
  obtain ⟨above, a, rest, earlier, hslot, -, -, hfeeds', -, hlayout⟩ :=
    h.exists_written hconfig hfeeds baseline hm hne hwritten hdoc'
  rw [hlayout.request_eq hfeeds' config, hslot.readOptions_eq hconfig hm hne hwritten]

end Layout

/-- A document with one chunk, in which a call is not closed and another one is. -/
def Document.unclosed : Document :=
  Document.load
    "\x60\x60\x60{r}\nopts_chunk$set(a\nx; knitr:::opts_chunk$set(b = 1) # y\n\x60\x60\x60".toList

namespace Panel

theorem options_of_commit {panel panel' : Panel} {doc doc' : Document} {edits : Edits}
    {outcome : Outcome} {baseline : OptionMap} (hready : panel.baseline = .ready baseline)
    (h : panel.commit doc edits = .ok (outcome, doc', panel')) :
    outcome.options = baseline.merge edits :=
  (outcome_of_commit hready h).1

/-- **What a commit has written, the next session reads.** After plain options have been committed,
a panel that is opened on the same chunk starts from them, in the order in which they are written:
whatever else the chunk holds, the call that was written is the one that is read. -/
theorem readBaseline_commit {doc : Document} (hfeeds : doc.text.FeedsOnly) {chunk : Chunk}
    (hchunk : chunk ∈ Chunk.ofTokens
      ((Lexer.closedBy (Config.closingFence {})).documentTokens doc.text))
    (baseline : OptionMap) (edits : Edits) (hplain : (baseline.merge edits).IsPlain)
    (hne : (baseline.merge edits).entries ≠ []) :
    let config : Config := {}
    let tokenize := (Lexer.closedBy config.closingFence).documentTokens
    let panel : Panel := ⟨chunk.header, tokenize, config, .ready baseline⟩
    ∃ outcome doc' panel', panel.commit doc edits = .ok (outcome, doc', panel') ∧
      outcome.options = baseline.merge edits ∧
      ((Panel.new chunk.header tokenize config).readBaseline doc' config.readOptions).baseline =
        .ready (if outcome.options.size ≤ 2 then outcome.options else outcome.options.sorted) := by
  obtain ⟨before, header, body, after, hlayout, hheader, -⟩ := exists_layout hchunk
  rw [hheader]
  intro config tokenize panel
  obtain ⟨outcome, doc', panel', hcommit, htext, -⟩ :=
    hlayout.commit_eq_surgery hfeeds config baseline edits
  have hoptions : outcome.options = baseline.merge edits := options_of_commit rfl hcommit
  refine ⟨outcome, doc', panel', hcommit, hoptions, ?_⟩
  -- plain options are written with no carriage return
  have hfeed : ((baseline.merge edits).render config).withLineFeeds =
      (baseline.merge edits).render config := by
    refine Text.withLineFeeds_of_not_mem fun hc => ?_
    have hreturn := hplain.feedsOnly Config.isPlain_default hne _ hc (by decide)
    exact absurd hreturn (by decide)
  rw [hfeed] at htext
  have hread := hlayout.readOptions_surgery Config.isUsual_default hfeeds (.ready baseline) hplain
    hne htext
  rw [readBaseline_of_ok hread, hoptions]
  rfl

/-- The call that is read back stands behind one that is never closed. -/
theorem readBaseline_commit_sample :
    let config : Config := {}
    let tokenize := (Lexer.closedBy config.closingFence).documentTokens
    let panel : Panel := ⟨⟨0, 0⟩, tokenize, config, .ready .empty⟩
    ∃ outcome doc' panel',
      panel.commit Document.unclosed { echo := some falseLiteral, figHeight := ['7'] } =
          .ok (outcome, doc', panel') ∧
        ((Panel.new ⟨0, 0⟩ tokenize config).readBaseline doc' config.readOptions).baseline =
          .ready (.ofList
            [("echo".toList, "FALSE".toList), ("fig.height".toList, "7".toList)]) := by
  intro config tokenize panel
  have hfeeds : Document.unclosed.text.FeedsOnly := by decide +kernel
  have hchunk : (⟨⟨0, 0⟩, some 3, ['r'], none⟩ : Chunk) ∈
      Chunk.ofTokens (tokenize Document.unclosed.text) := by
    decide +kernel
  have hwrites : ∀ write ∈ ({ echo := some falseLiteral, figHeight := ['7'] } : Edits).writes,
      IsName write.1 ∧ PlainValue write.2 := by
    intro write hwrite
    rcases List.mem_cons.mp hwrite with rfl | hwrite
    · exact ⟨by decide +kernel, .word (by decide)⟩
    · obtain rfl := List.mem_singleton.mp hwrite
      exact ⟨by decide +kernel, .word (by decide)⟩
  obtain ⟨outcome, doc', panel', hcommit, hoptions, hbaseline⟩ := readBaseline_commit hfeeds hchunk
    .empty { echo := some falseLiteral, figHeight := ['7'] }
    (OptionMap.isPlain_empty.merge hwrites) (by decide +kernel)
  refine ⟨outcome, doc', panel', hcommit, hbaseline.trans ?_⟩
  rw [hoptions, if_pos (by decide +kernel)]
  rfl

end Panel

end RmdOptions
