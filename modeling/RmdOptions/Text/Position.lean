/-!
# Positions, spans and selections

A place in a text is given by a row and a column, both counted from zero; columns count characters
(Unicode scalar values). This file holds the three shapes built on that:

* `Position` — a row and a column, ordered row by row;
* `Span` — two positions in order; a span whose ends coincide is a caret;
* `Selection` — where a selection was begun and where its active end is, in either order.

A position is written `row:column` and a span `start..stop`.
-/

namespace RmdOptions

/-- A row and a column, both counted from zero. -/
structure Position where
  /-- the row -/
  row : Nat
  /-- the column, in characters -/
  column : Nat
  deriving DecidableEq

namespace Position

/-- The start of a text. -/
def origin : Position := ⟨0, 0⟩

instance : Inhabited Position := ⟨origin⟩

/-- Rows decide first, then columns. -/
instance : LE Position where
  le p q := p.row < q.row ∨ (p.row = q.row ∧ p.column ≤ q.column)

instance : LT Position where
  lt p q := p.row < q.row ∨ (p.row = q.row ∧ p.column < q.column)

theorem le_def {p q : Position} :
    p ≤ q ↔ p.row < q.row ∨ (p.row = q.row ∧ p.column ≤ q.column) :=
  Iff.rfl

theorem lt_def {p q : Position} :
    p < q ↔ p.row < q.row ∨ (p.row = q.row ∧ p.column < q.column) :=
  Iff.rfl

instance : DecidableLE Position := fun p q =>
  inferInstanceAs (Decidable (p.row < q.row ∨ (p.row = q.row ∧ p.column ≤ q.column)))

instance : DecidableLT Position := fun p q =>
  inferInstanceAs (Decidable (p.row < q.row ∨ (p.row = q.row ∧ p.column < q.column)))

theorem le_refl (p : Position) : p ≤ p :=
  Or.inr ⟨rfl, Nat.le_refl _⟩

theorem le_trans {p q r : Position} (hpq : p ≤ q) (hqr : q ≤ r) : p ≤ r := by
  rw [le_def] at *
  omega

theorem le_total (p q : Position) : p ≤ q ∨ q ≤ p := by
  simp only [le_def]
  omega

theorem lt_iff_not_le {p q : Position} : p < q ↔ ¬ q ≤ p := by
  simp only [le_def, lt_def]
  omega

theorem le_of_lt {p q : Position} (h : p < q) : p ≤ q := by
  rw [lt_def] at h
  rw [le_def]
  omega

/-- How two positions compare. -/
instance : Ord Position where
  compare p q := if p < q then .lt else if p = q then .eq else .gt

/-- The first column of the row after this one. -/
def startOfNextRow (p : Position) : Position := ⟨p.row + 1, 0⟩

/-- The same column, `rows` rows further down. -/
def down (p : Position) (rows : Nat) : Position := ⟨p.row + rows, p.column⟩

theorem le_startOfNextRow {p q : Position} (h : p ≤ q) : p ≤ q.startOfNextRow := by
  simp only [le_def, startOfNextRow] at *
  omega

instance : ToString Position where
  toString p := s!"{p.row}:{p.column}"

end Position

/-- A stretch of text from `start` up to, and without, `stop`. -/
structure Span where
  /-- the first position inside -/
  start : Position
  /-- the first position after -/
  stop : Position
  /-- the ends are in order -/
  start_le_stop : start ≤ stop
  deriving DecidableEq

namespace Span

/-- The span between two positions given in either order. -/
def ofEnds (p q : Position) : Span :=
  if h : p ≤ q then ⟨p, q, h⟩ else ⟨q, p, (Position.le_total p q).resolve_left h⟩

/-- The empty span at a position. -/
def caret (p : Position) : Span := ⟨p, p, Position.le_refl p⟩

instance : Inhabited Span := ⟨caret .origin⟩

/-- Whether the span holds nothing. -/
def isEmpty (s : Span) : Bool := s.start = s.stop

@[simp] theorem ofEnds_start_of_le {p q : Position} (h : p ≤ q) : (ofEnds p q).start = p := by
  simp [ofEnds, h]

@[simp] theorem ofEnds_stop_of_le {p q : Position} (h : p ≤ q) : (ofEnds p q).stop = q := by
  simp [ofEnds, h]

instance : ToString Span where
  toString s := s!"{s.start}..{s.stop}"

end Span

/-- A selection: where it was begun, and its active end, where the caret sits. -/
structure Selection where
  /-- where the selection was begun -/
  anchor : Position
  /-- where the caret sits -/
  active : Position
  deriving DecidableEq

namespace Selection

/-- The selection that covers a span from its start to its end. -/
def ofSpan (s : Span) : Selection := ⟨s.start, s.stop⟩

/-- The span a selection covers, whichever way it was made. -/
def span (s : Selection) : Span := Span.ofEnds s.anchor s.active

@[simp] theorem span_ofSpan (s : Span) : (ofSpan s).span = s := by
  simp [ofSpan, span, Span.ofEnds, s.start_le_stop]

end Selection

end RmdOptions
