import RmdOptions.Text.Basic
import RmdOptions.Text.Position

/-!
# The rows of a text

An editor shows a text as rows. A row ends at a line feed, a carriage return, the two as a pair, or
any of the other breaks of Unicode (vertical tab, form feed, next line, line separator, paragraph
separator), and each row here keeps the break that ends it, so that the rows together are the text.
The last row has no break and may be empty.

Measuring a row takes every break for one character: `rowWidth` is the length of the row less one,
also for a row that ends in the pair, whose carriage return then counts as a column.

* `Text.rows`, `Text.rowCount`, `Text.rowWidth` — rows and their measures;
* `Text.shownRows`, `Text.row?` — what the rows show;
* `Text.clampPosition` — the nearest place that exists, row first;
* `Text.offset`, `Text.position` — places and offsets, each clamped to the text;
* `Text.slice`, `Text.insertAt`, `Text.deleteAt` — reading and changing.
-/

namespace RmdOptions.Text

/-! ## Cutting into rows -/

/-- Whether a character ends a row by itself. -/
def isRowBreak (c : Char) : Bool :=
  c == '\n' || c == '\x0b' || c == '\x0c' || c == '\r' || c == '\u0085' || c == '\u2028' ||
    c == '\u2029'

/-- The rows of a text, each with the break that ends it. -/
def rows : Text → List Text
  | '\r' :: '\n' :: rest => ['\r', '\n'] :: rows rest
  | c :: rest => if isRowBreak c then [c] :: rows rest else consFirst c (rows rest)
  | [] => [[]]

theorem rows_ne_nil (t : Text) : rows t ≠ [] := by
  fun_cases rows t with
  | case1 => simp
  | case2 => simp
  | case3 => exact consFirst_ne_nil _ _
  | case4 => simp

theorem flatten_consFirst (c : Char) (pieces : List Text) :
    (consFirst c pieces).flatten = c :: pieces.flatten := by
  cases pieces <;> simp [consFirst]

/-- The rows of a text, put together, are the text. -/
theorem flatten_rows (t : Text) : (rows t).flatten = t := by
  fun_induction rows t with
  | case1 rest ih => simp [ih]
  | case2 c rest _ _ ih => simp [ih]
  | case3 c rest _ _ ih => simp [flatten_consFirst, ih]
  | case4 => rfl

/-- How many rows a text has. -/
def rowCount (t : Text) : Nat := (rows t).length

/-- The columns of the first of some rows: all of it when it is the last row, and all but one
character, which stands for its break, otherwise. -/
def firstWidth : List Text → Nat
  | [] => 0
  | [last] => last.length
  | row :: _ :: _ => row.length - 1

/-- The columns of a row; a row that does not exist has none. -/
def rowWidth (t : Text) (row : Nat) : Nat := firstWidth ((rows t).drop row)

/-- What a row shows: its characters without a line feed at the end. Other breaks are shown. -/
def shown (row : Text) : Text := if row.getLast? = some '\n' then row.dropLast else row

/-- The rows of a text as they are shown. -/
def shownRows (t : Text) : List Text := (rows t).map shown

/-- A row as it is shown, if it exists. -/
def row? (t : Text) (row : Nat) : Option Text := (shownRows t)[row]?

/-! ## Positions and offsets -/

/-- The nearest place that exists: rows past the end fall onto the last row, columns past the end
of their row onto its end. -/
def clampPosition (t : Text) (p : Position) : Position :=
  let row := min p.row (t.rowCount - 1)
  ⟨row, min p.column (t.rowWidth row)⟩

/-- The offset, within some rows, of a row and a column; past the last row it is their length. -/
def offsetIn : List Text → Nat → Nat → Nat
  | [], _, _ => 0
  | row :: rest, 0, column => min column (firstWidth (row :: rest))
  | row :: rest, n + 1, column => row.length + offsetIn rest n column

/-- How many characters precede a place; past the end of a row it is the end of that row, past the
last row the end of the text. -/
def offset (t : Text) (p : Position) : Nat := offsetIn (rows t) p.row p.column

/-- The row and column, within some rows, of an offset. -/
def positionIn : List Text → Nat → Position
  | [], offset => ⟨0, offset⟩
  | [_], offset => ⟨0, offset⟩
  | row :: next :: rest, offset =>
    if offset < row.length then ⟨0, offset⟩
    else (positionIn (next :: rest) (offset - row.length)).down 1

/-- The place that a number of characters precede; past the end it is the end of the text. A break
belongs to the row it ends, so between the two characters of a pair the row has not ended. -/
def position (t : Text) (offset : Nat) : Position :=
  positionIn (rows t) (min offset t.length)

/-! ## Reading and changing -/

/-- The characters between two places; nothing when the second is not after the first. -/
def slice (t : Text) (p q : Position) : Text :=
  (t.drop (t.offset p)).take (t.offset q - t.offset p)

/-- The text with `added` put in after `offset` characters, or at its end when it is shorter. -/
def insertAt (t : Text) (offset : Nat) (added : Text) : Text :=
  t.take offset ++ added ++ t.drop offset

/-- The text without the `count` characters that follow the first `offset`. -/
def deleteAt (t : Text) (offset count : Nat) : Text :=
  t.take offset ++ t.drop (offset + count)

end RmdOptions.Text
