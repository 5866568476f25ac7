import Mathlib.Data.List.Basic
import Mathlib.Data.List.Induction
import RmdOptions.Proofs.Panel.Header
import RmdOptions.Proofs.Text.LineEnding

/-!
# Documents that are edited

A document is moved in, selected in and written to in any order, at places that need not exist, and
with any texts; panels commit to it. The caret goes to the nearest place that exists, or to the
place of an offset when something has been written. Both kinds of places are measured by rows, and
what holds of one holds of the other.

* `Document.Operation`, `Document.run` — what can be done to a document;
* `Document.Consistent` — what holds of text, caret and selection, with one lemma for every
  operation;
* `Document.consistent_run` — **it holds of every document that can be reached**, which can also be
  saved and loaded again;
* `Document.run_write_back` — **what is written to such a document can be taken back**.
-/

namespace RmdOptions

namespace Document

/-! ## Operations -/

/-- What can be done to a document. -/
inductive Operation where
  /-- the selection is dropped -/
  | clearSelection
  /-- the caret is moved -/
  | moveCaret (p : Position)
  /-- a span is selected -/
  | select (span : Span)
  /-- a text is written over a span -/
  | write (span : Span) (added : Text)
  /-- a panel commits an edit -/
  | commit (panel : Panel) (edits : Edits)

/-- The document after an operation. A commit that is refused leaves it as it is. -/
def step (doc : Document) : Operation → Document
  | .clearSelection => doc.clearSelection
  | .moveCaret p => doc.moveCaret p
  | .select span => doc.select span
  | .write span added => doc.write span added
  | .commit panel edits =>
    match panel.commit doc edits with
    | .ok (_, written, _) => written
    | .error _ => doc

/-- The document after several operations. -/
def run (doc : Document) (ops : List Operation) : Document := ops.foldl step doc

@[simp] theorem run_nil (doc : Document) : doc.run [] = doc := rfl

@[simp] theorem run_append (doc : Document) (ops : List Operation) (op : Operation) :
    doc.run (ops ++ [op]) = (doc.run ops).step op := by
  rw [run, List.foldl_append]
  rfl

/-! ## What holds of text, caret and selection -/

/-- Text, caret and selection of a document agree with one another. -/
structure Consistent (doc : Document) : Prop where
  /-- the text is held with line feeds -/
  return_not_mem : '\r' ∉ doc.text
  /-- the caret is at a place that exists -/
  caret : doc.text.clampPosition doc.caret = doc.caret
  /-- a selection runs forward between places that exist, and the caret is at its active end -/
  selection : ∀ s, doc.selection = some s →
    s.anchor ≤ s.active ∧ doc.text.clampPosition s.anchor = s.anchor ∧
      doc.text.clampPosition s.active = s.active ∧ doc.caret = s.active

/-- A document that has been loaded has its caret at the start. -/
theorem consistent_load (t : Text) : (load t).Consistent where
  return_not_mem := Text.not_mem_withLineFeeds t
  caret := Text.clampPosition_origin _
  selection := nofun

namespace Consistent

variable {doc : Document}

theorem clearSelection (h : doc.Consistent) : doc.clearSelection.Consistent where
  return_not_mem := h.return_not_mem
  caret := h.caret
  selection := nofun

theorem moveCaret (h : doc.Consistent) (p : Position) : (doc.moveCaret p).Consistent where
  return_not_mem := h.return_not_mem
  caret := Text.clampPosition_clampPosition _ _
  selection := nofun

theorem select (h : doc.Consistent) (span : Span) : (doc.select span).Consistent := by
  -- the two ends are places that exist, whichever of them comes first
  have hends : ∀ p q : Position, doc.text.clampPosition p = p → doc.text.clampPosition q = q →
      doc.text.clampPosition (Span.ofEnds p q).start = (Span.ofEnds p q).start ∧
        doc.text.clampPosition (Span.ofEnds p q).stop = (Span.ofEnds p q).stop := by
    intro p q hp hq
    rw [Span.ofEnds]
    split
    · exact ⟨hp, hq⟩
    · exact ⟨hq, hp⟩
  obtain ⟨hstart, hstop⟩ := hends _ _ (doc.text.clampPosition_clampPosition span.start)
    (doc.text.clampPosition_clampPosition span.stop)
  refine ⟨h.return_not_mem, hstop, ?_⟩
  rintro s hs
  obtain rfl := Option.some.inj hs
  exact ⟨Span.start_le_stop _, hstart, hstop, rfl⟩

/-- Whatever is written, no carriage return gets into the text, and the caret goes to the place of
an offset. -/
theorem write (h : doc.Consistent) (span : Span) (added : Text) :
    (doc.write span added).Consistent where
  return_not_mem := by
    rw [write_text, List.mem_append, List.mem_append, not_or, not_or]
    exact ⟨⟨fun hc => h.return_not_mem (List.mem_of_mem_take hc),
      Text.not_mem_withLineFeeds added⟩, fun hc => h.return_not_mem (List.mem_of_mem_drop hc)⟩
  caret := Text.clampPosition_position _ _
  selection := nofun

/-- A commit selects the call that it has found, or moves the caret, and then writes. -/
theorem commit (h : doc.Consistent) {panel panel' : Panel} {edits : Edits} {outcome : Outcome}
    {doc' : Document} (hcommit : panel.commit doc edits = .ok (outcome, doc', panel')) :
    doc'.Consistent := by
  obtain ⟨rfl, -⟩ := Panel.write_of_commit hcommit
  refine Consistent.write ?_ _ _
  cases panel.locate doc with
  | none => exact h.moveCaret _
  | some call => exact h.select call

/-- **An operation leaves text, caret and selection consistent.** -/
theorem step (h : doc.Consistent) (op : Operation) : (doc.step op).Consistent := by
  cases op with
  | clearSelection => exact h.clearSelection
  | moveCaret p => exact h.moveCaret p
  | select span => exact h.select span
  | write span added => exact h.write span added
  | commit panel edits =>
    rw [Document.step]
    split
    · next hcommit => exact h.commit hcommit
    · exact h

theorem run (h : doc.Consistent) (ops : List Operation) : (doc.run ops).Consistent := by
  induction ops using List.reverseRecOn with
  | nil => exact h
  | append_singleton ops op ih =>
    rw [run_append]
    exact ih.step op

end Consistent

/-! ## How the rows of the file end -/

/-- No operation changes how the rows of the file end. -/
theorem ending_step (doc : Document) (op : Operation) : (doc.step op).ending = doc.ending := by
  cases op with
  | clearSelection => rfl
  | moveCaret p => rfl
  | select span => rfl
  | write span added => rfl
  | commit panel edits =>
    rw [step]
    split
    · next hcommit =>
      obtain ⟨rfl, -⟩ := Panel.write_of_commit hcommit
      cases panel.locate doc <;> rfl
    · rfl

theorem ending_run (doc : Document) (ops : List Operation) : (doc.run ops).ending = doc.ending := by
  induction ops using List.reverseRecOn with
  | nil => rfl
  | append_singleton ops op ih => rw [run_append, ending_step, ih]

/-- **What holds of every document that can be reached.** A file is loaded, and then anything is
done to the document, in any order and at any places. No carriage return is in the text, the caret
and the ends of the selection are at places that exist, and the selection runs forward to the caret.
Saved and loaded again, the document has the text that it has. Its rows are saved as the file ended
them, and if that was with the pair, no line feed is saved without a carriage return before it. -/
theorem consistent_run (t : Text) (ops : List Operation) :
    let doc := (load t).run ops
    '\r' ∉ doc.text ∧
      doc.text.clampPosition doc.caret = doc.caret ∧
      (∀ s, doc.selection = some s →
        s.anchor ≤ s.active ∧ doc.text.clampPosition s.anchor = s.anchor ∧
          doc.text.clampPosition s.active = s.active ∧ doc.caret = s.active) ∧
      (load doc.saved).text = doc.text ∧
      doc.ending = .ofText t ∧
      (doc.ending = .pair →
        ∀ before after, doc.saved = before ++ '\n' :: after → before.getLast? = some '\r') := by
  intro doc
  have hdoc : doc.Consistent := (consistent_load t).run ops
  refine ⟨hdoc.return_not_mem, hdoc.caret, hdoc.selection, (load_saved hdoc.return_not_mem).1,
    ending_run _ ops, ?_⟩
  intro hpair before after hsaved
  rw [saved, hpair] at hsaved
  exact LineEnding.getLast?_of_write_pair hsaved

/-! ## Taking back what is written -/

/-- **What is written can be taken back.** In any document that can be reached, a text is written
over a span whose rows exist; its columns may be behind the ends of the rows. When what was in the
span is then written over what stands between the nearest place to its start, as it was in the
document before, and the caret, the document is as it was, with the caret where the span stops. -/
theorem run_write_back (t : Text) (ops : List Operation) (span : Span) (added : Text)
    (hrow : span.stop.row < ((load t).run ops).text.rowCount) :
    let doc := (load t).run ops
    let written := doc.write span added
    let back := Span.ofEnds (doc.text.clampPosition span.start) written.caret
    written.write back (doc.text.slice span.start span.stop) =
      { doc with caret := doc.text.clampPosition span.stop, selection := none } := by
  intro doc written back
  have hreturn : '\r' ∉ doc.text := ((consistent_load t).run ops).return_not_mem
  have hle : span.start.row ≤ span.stop.row := by
    have horder := span.start_le_stop
    rw [Position.le_def] at horder
    omega
  have hstart : span.start.row < doc.text.rowCount := Nat.lt_of_le_of_lt hle hrow
  have htext := text_write_writtenSpan hreturn hstart added
  have hcaret := caret_write_writtenSpan hreturn hstart hrow added
  exact (mk.injEq ..).mpr ⟨htext, hcaret, rfl, rfl⟩

/-- A span over a vertical tab, that starts behind the end of its row. -/
theorem run_write_back_sample :
    let doc := (load "ab\r\ncd\x0bef".toList).run [.write (Span.caret ⟨0, 2⟩) ['!']]
    let span := Span.ofEnds ⟨0, 9⟩ ⟨2, 1⟩
    let written := doc.write span "\r\nx\r".toList
    let back := Span.ofEnds (doc.text.clampPosition span.start) written.caret
    span.stop.row < doc.text.rowCount ∧
      written.text = "ab!\nx\nf".toList ∧
      doc.text.slice span.start span.stop = "\ncd\x0be".toList ∧
      written.write back (doc.text.slice span.start span.stop) =
        { doc with caret := ⟨2, 1⟩, selection := none } := by
  intro doc span written back
  have hrow : span.stop.row < doc.text.rowCount := by decide
  exact ⟨hrow, by decide, by decide, run_write_back _ _ span _ hrow⟩

end Document

end RmdOptions
