import RmdOptions.Proofs.Panel.ReadBack
import RmdOptions.Proofs.Text.Rows

/-!
# Rows that a commit leaves

The rows above a call and those below it, or those on both sides of the place behind the header when
there is no call, are to stay rows after a commit. What is written ends its row, so they do as long
as something is written. But a call that ends its row is replaced together with the line feed behind
it. When there are no options, nothing is written, and if there is other code before the call, the
row below goes on behind that code.

* `Panel.framingRows` — the rows that are to stay;
* `Panel.Joins` — the commits that join two rows;
* `Layout.exists_cut` — where in its rows a text is cut;
* `Layout.exists_rows_of_ends`, `Layout.exists_rows_of_nil` — what writing something, or nothing,
  does to the rows;
* `Panel.commit_rows` — the rows after a commit.
-/

namespace RmdOptions

/-! ## Rows around what is written -/

namespace Text

variable {t a b code line : Text} {ls more : List Text}

theorem getLast?_ended (h : ls ≠ []) : (ended ls).getLast? = some '\n' := by
  obtain ⟨front, last, rfl⟩ : ∃ front last, ls = front ++ [last] :=
    ⟨_, _, (List.dropLast_concat_getLast h).symm⟩
  simp

/-- A text that ends with a line feed is held as one that does. -/
theorem getLast?_withLineFeeds (h : t.getLast? = some '\n') :
    t.withLineFeeds.getLast? = some '\n' := by
  fun_induction withLineFeeds t with
  | case1 rest ih =>
    rw [List.getLast?_cons]
    rw [List.getLast?_cons, List.getLast?_cons] at h
    cases hrest : rest.getLast? with
    | none =>
      rw [List.getLast?_eq_none_iff.mp hrest]
      rfl
    | some c =>
      rw [hrest] at h ih
      rw [ih h]
      rfl
  | case2 c rest _ ih =>
    rw [List.getLast?_cons] at h ⊢
    cases hrest : rest.getLast? with
    | none =>
      rw [hrest] at h
      obtain rfl : c = '\n' := Option.some.inj h
      rw [List.getLast?_eq_none_iff.mp hrest]
      rfl
    | some d =>
      rw [hrest] at h ih
      rw [ih h]
      rfl
  | case3 => cases h

theorem Unbroken.return_not_mem (h : Unbroken t) : '\r' ∉ t :=
  fun hc => absurd (h _ hc) (by decide)

theorem shownRows_ofLines (hne : ls ≠ []) (h : ∀ line ∈ ls, Unbroken line) :
    (ofLines ls).shownRows = ls := by
  rw [shownRows_eq (feedsOnly_ofLines h),
    lines_ofLines hne fun line hline => (h line hline).feed_not_mem]

/-- A text that ends its row leaves the rows around it, whatever its own are. -/
theorem exists_shownRows_of_ends (hls : ∀ line ∈ ls, Unbroken line) (ha : Unbroken a)
    (hreturn : '\r' ∉ code) (hend : code.getLast? = some '\n') (hne : more ≠ [])
    (hmore : ∀ line ∈ more, Unbroken line) :
    ∃ middle, (ended ls ++ a ++ code ++ ofLines more).shownRows = ls ++ middle ++ more := by
  have hreturn' : '\r' ∉ a ++ code := by
    rw [List.mem_append, not_or]
    exact ⟨ha.return_not_mem, hreturn⟩
  have hend' : (a ++ code).getLast? = some '\n' := by
    rw [List.getLast?_append, hend, Option.some_or]
  obtain ⟨middle, hmiddle⟩ := exists_shownRows_append hreturn' hend'
  refine ⟨middle, ?_⟩
  rw [List.append_assoc, List.append_assoc, ← List.append_assoc a, shownRows_ended_append hls,
    hmiddle, shownRows_ofLines hne hmore, List.append_assoc]

/-- With nothing in between, the start of one row goes on with another one. -/
theorem shownRows_joined (hls : ∀ line ∈ ls, Unbroken line) (ha : Unbroken a) (hb : Unbroken b)
    (hmore : ∀ line ∈ more, Unbroken line) :
    (ended ls ++ a ++ ofLines (b :: more)).shownRows = ls ++ (a ++ b) :: more := by
  rw [List.append_assoc, shownRows_ended_append hls, ← ofLines_append_cons,
    shownRows_ofLines (List.cons_ne_nil _ _)]
  intro line hline
  rcases List.mem_cons.mp hline with rfl | hline
  · exact ha.append hb
  · exact hmore line hline

/-- A place that exists cuts the lines. -/
theorem HasPlace.exists_lines_eq {p : Position} (h : t.HasPlace p) :
    ∃ a b, t.lines = t.lines.take p.row ++ (a ++ b) :: t.lines.drop (p.row + 1) ∧
      p = ⟨(t.lines.take p.row).length, a.length⟩ ∧ t.lines[p.row]? = some (a ++ b) := by
  obtain ⟨line, hline, hcolumn⟩ := h
  obtain ⟨hrow, hget⟩ := List.getElem?_eq_some_iff.mp hline
  refine ⟨line.take p.column, line.drop p.column, ?_, ?_, ?_⟩
  · rw [List.take_append_drop, ← hget, List.getElem_cons_drop, List.take_append_drop]
  · rw [List.length_take_of_le (Nat.le_of_lt hrow), List.length_take_of_le hcolumn]
  · rw [List.take_append_drop, hline]

end Text

/-! ## The rows that are to stay -/

namespace Panel

/-- The rows above the call and those below it, or those up to the header and those below it when
there is no call. -/
def framingRows (panel : Panel) (doc : Document) : List Text × List Text :=
  match panel.locate doc with
  | some call =>
    (doc.text.shownRows.take call.start.row, doc.text.shownRows.drop (call.stop.row + 1))
  | none =>
    (doc.text.shownRows.take (panel.chunkStart.row + 1),
      doc.text.shownRows.drop (panel.chunkStart.row + 1))

/-- There are no options, and the call that goes stands behind other code and ends its row, which is
not the last. -/
def Joins (panel : Panel) (doc : Document) (options : OptionMap) : Prop :=
  options.entries = [] ∧ ∃ call line, panel.locate doc = some call ∧ 0 < call.start.column ∧
    doc.text.row? call.stop.row = some line ∧ call.stop.column = line.length ∧
    call.stop.row + 1 < doc.text.rowCount

/-- Whether rows are joined, in terms of the lines. -/
theorem joins_iff {panel : Panel} {doc : Document} (hfeeds : doc.text.FeedsOnly) {call : Span}
    (hlocate : panel.locate doc = some call) {line : Text}
    (hline : doc.text.lines[call.stop.row]? = some line) (options : OptionMap) :
    panel.Joins doc options ↔ options.entries = [] ∧ 0 < call.start.column ∧
      call.stop.column = line.length ∧ call.stop.row + 1 < doc.text.lines.length := by
  have hrow : doc.text.row? call.stop.row = some line := by
    rw [Text.row?_eq hfeeds, hline]
  rw [← Text.rowCount_eq hfeeds]
  constructor
  · rintro ⟨hnil, call', line', hcall, hstart, hrow', hstop, hmore⟩
    obtain rfl : call = call' := Option.some.inj (hlocate.symm.trans hcall)
    obtain rfl : line = line' := Option.some.inj (hrow.symm.trans hrow')
    exact ⟨hnil, hstart, hstop, hmore⟩
  · rintro ⟨hnil, hstart, hstop, hmore⟩
    exact ⟨hnil, call, line, hlocate, hstart, hrow, hstop, hmore⟩

end Panel

namespace Layout

variable {lexer : Lexer} {before body after : List Text} {header : Text} {doc : Document}

/-- A call that is found is cut out of the text between the start of its first row and the end of
its last one. -/
theorem exists_cut_of_locate (h : Layout lexer doc.text.lines before header body after)
    (hfeeds : doc.text.FeedsOnly) {panel : Panel} (hchunk : panel.chunkStart = ⟨before.length, 0⟩)
    (htokenize : panel.tokenize = lexer.documentTokens) {call : Span}
    (hlocate : panel.locate doc = some call) :
    ∃ above a b below, (∀ line ∈ above ++ a :: b :: below, Text.Unbroken line) ∧
      panel.framingRows doc = (above, below) ∧
      (∀ options, panel.Joins doc options ↔ options.entries = [] ∧ a ≠ [] ∧ b = [] ∧ below ≠ []) ∧
      ∀ code, (panel.surgery doc code).text =
        Text.ended above ++ a ++ code ++ Text.ofLines (resumedLines b below) := by
  obtain ⟨hstart, hstop, -, -⟩ := h.places_of_locate hchunk htokenize hlocate
  obtain ⟨a, tail, hlines, hplace, hline⟩ := hstart.exists_lines_eq
  obtain ⟨head, b, hlines', hplace', hline'⟩ := hstop.exists_lines_eq
  refine ⟨doc.text.lines.take call.start.row, a, b, doc.text.lines.drop (call.stop.row + 1), ?_, ?_,
    fun options => ?_, fun code => ?_⟩
  · intro line hline₁
    rw [List.mem_append, List.mem_cons, List.mem_cons] at hline₁
    rcases hline₁ with hmem | rfl | rfl | hmem
    · exact hfeeds.unbroken (List.mem_of_mem_take hmem)
    · exact (hfeeds.unbroken (List.mem_of_getElem? hline)).left
    · exact (hfeeds.unbroken (List.mem_of_getElem? hline')).right
    · exact hfeeds.unbroken (List.mem_of_mem_drop hmem)
  · simp only [Panel.framingRows, hlocate]
    rw [Text.shownRows_eq hfeeds]
  · have hcolumn : 0 < call.start.column ↔ a ≠ [] := by
      rw [hplace, List.length_pos_iff]
    have hend : call.stop.column = (head ++ b).length ↔ b = [] := by
      rw [hplace', List.length_append, Nat.left_eq_add, List.length_eq_zero_iff]
    have hbelow : call.stop.row + 1 < doc.text.lines.length ↔
        doc.text.lines.drop (call.stop.row + 1) ≠ [] := by
      rw [ne_eq, List.drop_eq_nil_iff, Nat.not_le]
    rw [Panel.joins_iff hfeeds hlocate hline', hcolumn, hend, hbelow]
  · have htake := Text.take_offset_of_lines hfeeds hlines
    have hdrop := Text.drop_resumeAt hfeeds hlines'
    rw [← hplace] at htake
    rw [← hplace'] at hdrop
    simp only [Panel.surgery, hlocate, Surgery.text]
    rw [htake, hdrop]

/-- With no call, the rows up to the header and those below it are to stay. -/
theorem framingRows_of_none (h : Layout lexer doc.text.lines before header body after)
    (hfeeds : doc.text.FeedsOnly) {panel : Panel} (hchunk : panel.chunkStart = ⟨before.length, 0⟩)
    (hlocate : panel.locate doc = none) :
    panel.framingRows doc = (before ++ [header], body ++ after) := by
  have hlines := h.lines_eq
  rw [List.append_cons] at hlines
  have hlength : before.length + 1 = (before ++ [header]).length := by simp
  simp only [Panel.framingRows, hlocate, hchunk]
  rw [Text.shownRows_eq hfeeds, hlines, hlength, List.take_left, List.drop_left]

/-- What is written stands in a row that is kept in part, or in a new one behind the header. -/
theorem exists_cut (h : Layout lexer doc.text.lines before header body after)
    (hfeeds : doc.text.FeedsOnly) {panel : Panel} (hchunk : panel.chunkStart = ⟨before.length, 0⟩)
    (htokenize : panel.tokenize = lexer.documentTokens) {code : Text} (hcode : code ≠ []) :
    ∃ above a b below, (∀ line ∈ above ++ a :: b :: below, Text.Unbroken line) ∧
      panel.framingRows doc = (above, below) ∧
      (panel.surgery doc code).text =
        Text.ended above ++ a ++ code ++ Text.ofLines (resumedLines b below) := by
  cases hlocate : panel.locate doc with
  | some call =>
    obtain ⟨above, a, b, below, hunbroken, hframing, -, htext⟩ :=
      h.exists_cut_of_locate hfeeds hchunk htokenize hlocate
    exact ⟨above, a, b, below, hunbroken, hframing, htext code⟩
  | none =>
    have htext := h.surgery_text_of_none hfeeds hchunk hlocate code
    rw [if_neg hcode] at htext
    refine ⟨before ++ [header], [], [], body ++ after, ?_,
      h.framingRows_of_none hfeeds hchunk hlocate, ?_⟩
    · have hlines : ∀ line ∈ before ++ header :: (body ++ after), Text.Unbroken line :=
        fun line hline => hfeeds.unbroken (h.lines_eq ▸ hline)
      have hempty : Text.Unbroken [] := fun c hc => absurd hc List.not_mem_nil
      intro line hline
      rw [List.mem_append, List.mem_cons, List.mem_cons] at hline
      rcases hline with hline | rfl | rfl | hline
      · refine hlines line ?_
        rw [List.append_cons]
        exact List.mem_append_left _ hline
      · exact hempty
      · exact hempty
      · exact hlines line (List.mem_append_right _ (List.mem_cons_of_mem _ hline))
    · rw [htext, List.append_nil]

/-- **What ends its row leaves the rows around it.** -/
theorem exists_rows_of_ends (h : Layout lexer doc.text.lines before header body after)
    (hfeeds : doc.text.FeedsOnly) {panel : Panel} (hchunk : panel.chunkStart = ⟨before.length, 0⟩)
    (htokenize : panel.tokenize = lexer.documentTokens) {code : Text} (hreturn : '\r' ∉ code)
    (hend : code.getLast? = some '\n') :
    ∃ middle, (panel.surgery doc code).text.shownRows =
      (panel.framingRows doc).1 ++ middle ++ (panel.framingRows doc).2 := by
  have hcode : code ≠ [] := by
    rintro rfl
    cases hend
  obtain ⟨above, a, b, below, hunbroken, hframing, htext⟩ :=
    h.exists_cut hfeeds hchunk htokenize hcode
  have hmem {line : Text} (hline : line ∈ resumedLines b below) :
      line ∈ above ++ a :: b :: below := by
    rcases mem_resumedLines hline with rfl | hline
    · simp
    · simp [hline]
  obtain ⟨middle, hmiddle⟩ := Text.exists_shownRows_of_ends
    (fun line hline => hunbroken line (List.mem_append_left _ hline))
    (hunbroken a (by simp)) hreturn hend (resumedLines_ne_nil b below)
    fun line hline => hunbroken line (hmem hline)
  rw [htext, hmiddle, hframing, resumedLines]
  -- what is left of the last row of the call comes in between as well
  split
  · exact ⟨middle, rfl⟩
  · exact ⟨middle ++ [b], by simp⟩

/-- **Rows are joined when nothing is written in a row that has other code**, and only then. -/
theorem exists_rows_of_nil (h : Layout lexer doc.text.lines before header body after)
    (hfeeds : doc.text.FeedsOnly) {panel : Panel} (hchunk : panel.chunkStart = ⟨before.length, 0⟩)
    (htokenize : panel.tokenize = lexer.documentTokens) {options : OptionMap}
    (hnil : options.entries = []) :
    (¬ panel.Joins doc options → ∃ middle, (panel.surgery doc []).text.shownRows =
        (panel.framingRows doc).1 ++ middle ++ (panel.framingRows doc).2) ∧
      (panel.Joins doc options → ∃ start next more, start ≠ [] ∧
        (panel.framingRows doc).2 = next :: more ∧
        (panel.surgery doc []).text.shownRows =
          (panel.framingRows doc).1 ++ (start ++ next) :: more) := by
  cases hlocate : panel.locate doc with
  | some call =>
    obtain ⟨above, a, b, below, hunbroken, hframing, hjoins, htext⟩ :=
      h.exists_cut_of_locate hfeeds hchunk htokenize hlocate
    have habove : ∀ line ∈ above, Text.Unbroken line :=
      fun line hline => hunbroken line (List.mem_append_left _ hline)
    have ha : Text.Unbroken a := hunbroken a (by simp)
    have hb : Text.Unbroken b := hunbroken b (by simp)
    have hbelow : ∀ line ∈ below, Text.Unbroken line := fun line hline => hunbroken line (by
      simp [hline])
    rw [hjoins, htext, hframing, List.append_nil, resumedLines]
    constructor
    · intro hkept
      split
      · next hfeed =>
        have hstart : a = [] := by
          by_contra hne
          exact hkept ⟨hnil, hne, hfeed⟩
        obtain ⟨next, more, rfl⟩ := List.exists_cons_of_ne_nil hfeed.2
        refine ⟨[], ?_⟩
        rw [Text.shownRows_joined habove ha (hbelow next List.mem_cons_self)
          (fun line hline => hbelow line (List.mem_cons_of_mem _ hline)), hstart]
        simp
      · refine ⟨[a ++ b], ?_⟩
        rw [Text.shownRows_joined habove ha hb hbelow]
        simp
    · rintro ⟨-, hstart, hfeed⟩
      obtain ⟨next, more, rfl⟩ := List.exists_cons_of_ne_nil hfeed.2
      refine ⟨a, next, more, hstart, rfl, ?_⟩
      rw [if_pos hfeed, Text.shownRows_joined habove ha (hbelow next List.mem_cons_self)
        fun line hline => hbelow line (List.mem_cons_of_mem _ hline)]
  | none =>
    constructor
    · intro _
      refine ⟨[], ?_⟩
      rw [h.surgery_text_of_none hfeeds hchunk hlocate, if_pos rfl, Text.shownRows_eq hfeeds,
        h.framingRows_of_none hfeeds hchunk hlocate, h.lines_eq]
      simp
    · rintro ⟨-, call, -, hcall, -⟩
      rw [hlocate] at hcall
      cases hcall

end Layout

namespace Panel

/-- What is written for some options ends its row. -/
theorem render_ends (config : Config) {options : OptionMap} (hne : options.entries ≠ []) :
    (options.render config).withLineFeeds.getLast? = some '\n' := by
  refine Text.getLast?_withLineFeeds ?_
  rw [OptionMap.render_eq config hne]
  exact Text.getLast?_ended (options.writtenLines_ne_nil config)

theorem render_eq_nil (config : Config) {options : OptionMap} (h : options.entries = []) :
    (options.render config).withLineFeeds = [] := by
  have hempty : options.isEmpty = true := by simpa [OptionMap.isEmpty] using h
  rw [OptionMap.render, if_pos hempty]
  rfl

/-- **Rows around a call stay rows when it is written anew**, with one exception. When there are no
options, and the call that is deleted stands behind other code and ends its row, the row below is
appended to that code. -/
theorem commit_rows (lexer : Lexer) (config : Config) {doc : Document}
    (hfeeds : doc.text.FeedsOnly) {chunk : Chunk}
    (hchunk : chunk ∈ Chunk.ofTokens (lexer.documentTokens doc.text)) (baseline : OptionMap)
    (edits : Edits) :
    let panel : Panel := ⟨chunk.header, lexer.documentTokens, config, .ready baseline⟩
    let framing := panel.framingRows doc
    ∃ outcome doc' panel', panel.commit doc edits = .ok (outcome, doc', panel') ∧
      (¬ panel.Joins doc (baseline.merge edits) →
        ∃ middle, doc'.text.shownRows = framing.1 ++ middle ++ framing.2) ∧
      (panel.Joins doc (baseline.merge edits) →
        ∃ start next more, start ≠ [] ∧ framing.2 = next :: more ∧
          doc'.text.shownRows = framing.1 ++ (start ++ next) :: more) := by
  obtain ⟨before, header, body, after, hlayout, hheader, -⟩ := exists_layout hchunk
  rw [hheader]
  intro panel framing
  obtain ⟨outcome, doc', panel', hcommit, htext, -⟩ :=
    hlayout.commit_eq_surgery hfeeds config baseline edits
  refine ⟨outcome, doc', panel', hcommit, ?_⟩
  rw [htext]
  by_cases hne : (baseline.merge edits).entries = []
  · rw [render_eq_nil config hne]
    exact hlayout.exists_rows_of_nil hfeeds rfl rfl hne
  · refine ⟨fun _ => ?_, fun hjoins => absurd hjoins.1 hne⟩
    exact hlayout.exists_rows_of_ends hfeeds rfl rfl (Text.not_mem_withLineFeeds _)
      (render_ends config hne)

/-- With an option to write, the row of the fence is the last row before and after. -/
theorem commit_rows_sample :
    let panel : Panel :=
      ⟨⟨0, 0⟩, (Lexer.closedBy ['\x60', '\x60', '\x60']).documentTokens, {}, .ready .empty⟩
    ∃ outcome doc' panel' middle,
      panel.commit Document.sample { echo := some falseLiteral } = .ok (outcome, doc', panel') ∧
        doc'.text.shownRows =
          ["\x60\x60\x60{r}".toList] ++ middle ++ ["\x60\x60\x60".toList] := by
  intro panel
  have hfeeds : Document.sample.text.FeedsOnly := by decide +kernel
  have hchunk : (⟨⟨0, 0⟩, some 2, ['r'], none⟩ : Chunk) ∈ Chunk.ofTokens
      ((Lexer.closedBy ['\x60', '\x60', '\x60']).documentTokens Document.sample.text) := by
    decide +kernel
  have hframing : panel.framingRows Document.sample =
      (["\x60\x60\x60{r}".toList], ["\x60\x60\x60".toList]) := by
    decide +kernel
  obtain ⟨outcome, doc', panel', hcommit, hkept, -⟩ :=
    commit_rows _ {} hfeeds hchunk .empty { echo := some falseLiteral }
  obtain ⟨middle, hmiddle⟩ := hkept fun hjoins => absurd hjoins.1 (by decide +kernel)
  have hrows : doc'.text.shownRows = (panel.framingRows Document.sample).1 ++ middle ++
      (panel.framingRows Document.sample).2 := hmiddle
  rw [hframing] at hrows
  exact ⟨outcome, doc', panel', middle, hcommit, hrows⟩

/-- When a call without arguments is deleted from the end of a row with other code, the fence is no
longer a row. -/
theorem commit_rows_fence :
    let doc := Document.load "\x60\x60\x60{r}\nx; opts_chunk$set()\n\x60\x60\x60\n".toList
    let panel : Panel :=
      ⟨⟨0, 0⟩, (Lexer.closedBy ['\x60', '\x60', '\x60']).documentTokens, {}, .ready .empty⟩
    ∃ outcome doc' panel', panel.commit doc {} = .ok (outcome, doc', panel') ∧
      (panel.framingRows doc).2 = ["\x60\x60\x60".toList, []] ∧
      doc'.text.shownRows = ["\x60\x60\x60{r}".toList, "x; \x60\x60\x60".toList, []] ∧
      ¬ (panel.framingRows doc).2 <:+ doc'.text.shownRows := by
  intro doc panel
  have hrows : (panel.commit doc {}).toOption.map (·.2.1.text.shownRows) =
      some ["\x60\x60\x60{r}".toList, "x; \x60\x60\x60".toList, []] := by
    decide +kernel
  have hframing : (panel.framingRows doc).2 = ["\x60\x60\x60".toList, []] := by decide +kernel
  cases hcommit : panel.commit doc {} with
  | error e =>
    rw [hcommit] at hrows
    cases hrows
  | ok result =>
    obtain ⟨outcome, doc', panel'⟩ := result
    rw [hcommit] at hrows
    have hshown := Option.some.inj hrows
    dsimp only at hshown
    refine ⟨outcome, doc', panel', rfl, hframing, hshown, ?_⟩
    rw [hframing, hshown]
    decide +kernel

end Panel

end RmdOptions
