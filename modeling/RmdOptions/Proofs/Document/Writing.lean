import RmdOptions.Document
import RmdOptions.Proofs.Text.Rows

/-!
# Writing over a span

Writing takes the ends of its span by their offsets, and these exist for every place: the end of the
row for a column behind it, and the end of the text for a row below the last. Selecting takes the
nearest places instead, and these are on the last row, in the same column, for a row below it. What
is written can be taken back: the place where it starts is still there, and the caret is where it
ends.

* `Document.write_text`, `Document.offset_caret_write` — text and caret after writing;
* `Document.write_eq_write_iff` — spans over which the same is written;
* `Document.select_write_iff` — **when selecting first makes no difference**;
* `Document.writtenSpan`, `Document.text_write_writtenSpan` — taking back what has been written.
-/

namespace RmdOptions

namespace Document

variable {doc : Document} {span : Span} {added : Text}

/-! ## Text and caret -/

/-- What is written stands between what precedes the span and what follows it. -/
theorem write_text (doc : Document) (span : Span) (added : Text) :
    (doc.write span added).text =
      doc.text.take (doc.text.offset span.start) ++ added.withLineFeeds ++
        doc.text.drop (doc.text.offset span.stop) := by
  have hbefore := doc.text.length_take_offset span.start
  simp only [write, Text.deleteAt, Text.insertAt]
  rw [Nat.add_sub_cancel' (Text.offset_mono _ span.start_le_stop), List.take_left' hbefore,
    List.drop_left' hbefore]

/-- The caret is at the place of an offset. -/
theorem caret_write (doc : Document) (span : Span) (added : Text) :
    (doc.write span added).caret = (doc.write span added).text.position
      (doc.text.offset span.start + added.withLineFeeds.length) := rfl

/-- The caret goes behind what is written. -/
theorem offset_caret_write (doc : Document) (span : Span) (added : Text) :
    (doc.write span added).text.offset (doc.write span added).caret =
      (doc.text.take (doc.text.offset span.start) ++ added.withLineFeeds).length := by
  have hbefore : doc.text.offset span.start + added.withLineFeeds.length =
      (doc.text.take (doc.text.offset span.start) ++ added.withLineFeeds).length := by
    rw [List.length_append, Text.length_take_offset]
  rw [caret_write, hbefore]
  refine Text.offset_position ?_
  rw [write_text]
  exact (List.prefix_append _ _).length_le

/-! ## Selecting first -/

/-- Over two spans the same is written only if their ends have the same offsets. -/
theorem write_eq_write_iff {span span' : Span} :
    ((doc.write span added).text = (doc.write span' added).text ∧
        (doc.write span added).caret = (doc.write span' added).caret) ↔
      doc.text.offset span.start = doc.text.offset span'.start ∧
        doc.text.offset span.stop = doc.text.offset span'.stop := by
  constructor
  · rintro ⟨htext, hcaret⟩
    have hstart : doc.text.offset span.start ≤ doc.text.length := Text.offset_le_length _ _
    have hstop : doc.text.offset span.stop ≤ doc.text.length := Text.offset_le_length _ _
    have hstart' : doc.text.offset span'.start ≤ doc.text.length := Text.offset_le_length _ _
    have hstop' : doc.text.offset span'.stop ≤ doc.text.length := Text.offset_le_length _ _
    -- the caret tells where the spans start, and the length of the text how much they hold
    have hbefore := doc.offset_caret_write span added
    rw [htext, hcaret, offset_caret_write] at hbefore
    have hlength := congrArg List.length htext
    rw [write_text, write_text] at hlength
    simp only [List.length_append, List.length_take, List.length_drop] at hbefore hlength
    omega
  · rintro ⟨hstart, hstop⟩
    have htext : (doc.write span added).text = (doc.write span' added).text := by
      rw [write_text, write_text, hstart, hstop]
    refine ⟨htext, ?_⟩
    rw [caret_write, caret_write, htext, hstart]

theorem selectedSpan_select (doc : Document) (span : Span) :
    (doc.select span).selectedSpan =
      Span.ofEnds (doc.text.clampPosition span.start) (doc.text.clampPosition span.stop) :=
  Selection.span_ofSpan _

/-- What is selected is of no matter for a span that is written over. -/
theorem write_select (doc : Document) (span span' : Span) (added : Text) :
    (doc.select span).write span' added = doc.write span' added := rfl

/-- **When selecting first makes no difference.** A place on a row that exists has the offset of the
nearest place, and one below the last row that of the end of the text, while the nearest place keeps
its column. So the two have the same offset exactly for places on rows that exist, and for those
below the last row that are not before its end. When a span is selected, and a text is written over
the selection, text and caret are those after writing over the span itself exactly when both of its
ends are such places. -/
theorem select_write_iff (doc : Document) (span : Span) (added : Text) :
    let isReached (p : Position) : Prop :=
      p.row < doc.text.rowCount ∨ doc.text.rowWidth (doc.text.rowCount - 1) ≤ p.column
    let selected := doc.select span
    (∀ p, doc.text.offset p =
        if p.row < doc.text.rowCount then doc.text.offset (doc.text.clampPosition p)
        else doc.text.length) ∧
      (∀ p, doc.text.offset (doc.text.clampPosition p) = doc.text.offset p ↔ isReached p) ∧
      (((selected.write selected.selectedSpan added).text = (doc.write span added).text ∧
          (selected.write selected.selectedSpan added).caret = (doc.write span added).caret) ↔
        isReached span.start ∧ isReached span.stop) := by
  intro isReached selected
  have hreached (p : Position) :
      doc.text.offset (doc.text.clampPosition p) = doc.text.offset p ↔ isReached p :=
    Text.offset_clampPosition_eq_iff
  refine ⟨doc.text.offset_eq_ite, hreached, ?_⟩
  have hstart := Text.offset_clampPosition_le doc.text span.start
  have hstop := Text.offset_clampPosition_le doc.text span.stop
  have hle := Text.offset_mono doc.text span.start_le_stop
  rw [write_select, selectedSpan_select, write_eq_write_iff, Text.offset_ofEnds_start,
    Text.offset_ofEnds_stop, ← hreached, ← hreached]
  omega

/-- Below the last row, selecting keeps the column, and writing goes to the end of the text. -/
theorem select_write_below :
    let doc := load "ab\ncdef".toList
    let selected := doc.select (Span.caret ⟨9, 1⟩)
    (selected.write selected.selectedSpan ['X']).text = "ab\ncXdef".toList ∧
      (selected.write selected.selectedSpan ['X']).caret = ⟨1, 2⟩ ∧
      (doc.write (Span.caret ⟨9, 1⟩) ['X']).text = "ab\ncdefX".toList ∧
      (doc.write (Span.caret ⟨9, 1⟩) ['X']).caret = ⟨1, 5⟩ ∧
      doc.text.offset (doc.text.clampPosition ⟨9, 1⟩) ≠ doc.text.offset ⟨9, 1⟩ := by
  decide

/-! ## Taking back -/

/-- What is written leaves what precedes the span. -/
theorem take_write (doc : Document) (span : Span) (added : Text) :
    (doc.write span added).text.take (doc.text.offset span.start) =
      doc.text.take (doc.text.offset span.start) := by
  rw [write_text, List.append_assoc, List.take_left' (Text.length_take_offset _ _)]

/-- What is written leaves what follows the span. -/
theorem drop_write (doc : Document) (span : Span) (added : Text) :
    (doc.write span added).text.drop (doc.text.offset span.start + added.withLineFeeds.length) =
      doc.text.drop (doc.text.offset span.stop) := by
  have hbefore : (doc.text.take (doc.text.offset span.start) ++ added.withLineFeeds).length =
      doc.text.offset span.start + added.withLineFeeds.length := by
    rw [List.length_append, Text.length_take_offset]
  rw [write_text, List.drop_left' hbefore]

/-- In the text that is written, what is written starts where the span did. -/
theorem position_write (hreturn : '\r' ∉ doc.text) (hrow : span.start.row < doc.text.rowCount)
    (added : Text) :
    (doc.write span added).text.position (doc.text.offset span.start) =
      doc.text.clampPosition span.start := by
  have hbefore : '\r' ∉ doc.text.take (doc.text.offset span.start) :=
    fun hc => hreturn (List.mem_of_mem_take hc)
  -- the place is told by what precedes it, and that is in both texts
  have hwritten := Text.position_append hbefore
    (added.withLineFeeds ++ doc.text.drop (doc.text.offset span.stop))
  have hplace := Text.position_append hbefore (doc.text.drop (doc.text.offset span.start))
  rw [Text.length_take_offset] at hwritten hplace
  rw [write_text, List.append_assoc, hwritten, ← hplace, List.take_append_drop,
    Text.position_offset_of_lt hrow]

/-- The span of what has been written over another: from the place where that started up to the
caret. -/
def writtenSpan (doc : Document) (span : Span) (added : Text) : Span :=
  Span.ofEnds (doc.text.clampPosition span.start) (doc.write span added).caret

/-- What has been written is in its span. -/
theorem offset_writtenSpan (hreturn : '\r' ∉ doc.text) (hrow : span.start.row < doc.text.rowCount)
    (added : Text) :
    (doc.write span added).text.offset (doc.writtenSpan span added).start =
        doc.text.offset span.start ∧
      (doc.write span added).text.offset (doc.writtenSpan span added).stop =
        doc.text.offset span.start + added.withLineFeeds.length := by
  have hcaret := doc.offset_caret_write span added
  rw [List.length_append, Text.length_take_offset] at hcaret
  have hstart : (doc.write span added).text.offset (doc.text.clampPosition span.start) =
      doc.text.offset span.start := by
    rw [← position_write hreturn hrow added]
    refine Text.offset_position ?_
    exact Nat.le_trans (Nat.le_add_right _ _) (hcaret ▸ Text.offset_le_length _ _)
  rw [writtenSpan, Text.offset_ofEnds_start, Text.offset_ofEnds_stop, hstart, hcaret]
  omega

theorem withLineFeeds_slice (hreturn : '\r' ∉ doc.text) (span : Span) :
    (doc.text.slice span.start span.stop).withLineFeeds = doc.text.slice span.start span.stop :=
  Text.withLineFeeds_of_not_mem fun hc => hreturn (List.mem_of_mem_drop (List.mem_of_mem_take hc))

/-- What was in a span is written over what has been written over it: the text is as it was. -/
theorem text_write_writtenSpan (hreturn : '\r' ∉ doc.text)
    (hrow : span.start.row < doc.text.rowCount) (added : Text) :
    ((doc.write span added).write (doc.writtenSpan span added)
      (doc.text.slice span.start span.stop)).text = doc.text := by
  obtain ⟨hstart, hstop⟩ := offset_writtenSpan hreturn hrow added
  rw [write_text, hstart, hstop, withLineFeeds_slice hreturn, take_write, drop_write,
    Text.take_append_slice _ span.start_le_stop, List.take_append_drop]

/-- The caret then is where the span stops. -/
theorem caret_write_writtenSpan (hreturn : '\r' ∉ doc.text)
    (hstart : span.start.row < doc.text.rowCount) (hstop : span.stop.row < doc.text.rowCount)
    (added : Text) :
    ((doc.write span added).write (doc.writtenSpan span added)
      (doc.text.slice span.start span.stop)).caret = doc.text.clampPosition span.stop := by
  rw [caret_write, text_write_writtenSpan hreturn hstart,
    (offset_writtenSpan hreturn hstart added).1, withLineFeeds_slice hreturn, Text.length_slice,
    Nat.add_sub_cancel' (Text.offset_mono _ span.start_le_stop), Text.position_offset_of_lt hstop]

end Document

end RmdOptions
