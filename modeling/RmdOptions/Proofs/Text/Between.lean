import RmdOptions.Proofs.Text.Rows

/-!
# What stands between two places

A text that is cut at line feeds has a place for each of its characters, and one more where it ends.
The characters from one place to another are found by what precedes the two, whatever other row
breaks the text has: nothing here asks for `Text.FeedsOnly`.

* `Text.lineOffset`, `Text.between`, `Text.charAt?` — a place as an offset, what stands between two
  places, and the character behind one;
* `Text.Reads` — a text is what stands between two places, of which the first precedes the other;
* `Text.Reads.trans`, `Text.reads_line`, `Text.reads_feed` — reading in two steps, within a line,
  and over its end;
* `Text.Reads.mem_of_charAt?` — a character between two places belongs to what stands there.
-/

namespace RmdOptions.Text

variable {t u v line : Text} {p q r : Position} {row column : Nat}

/-- How many characters precede a place when the text is cut at line feeds. -/
def lineOffset (t : Text) (p : Position) : Nat := (t.upTo p).length

/-- The characters from one place up to another when the text is cut at line feeds. -/
def between (t : Text) (p q : Position) : Text :=
  (t.drop (t.lineOffset p)).take (t.lineOffset q - t.lineOffset p)

/-- The character behind a place when the text is cut at line feeds. These themselves are behind no
place on a line. -/
def charAt? (t : Text) (p : Position) : Option Char :=
  (t.lines[p.row]?).bind fun own => own[p.column]?

/-! ## Places and their offsets -/

/-- A text goes on behind each of its places with the rest of its line and the lines below. -/
theorem eq_upTo_append (hline : t.lines[row]? = some line) (column : Nat) :
    t = t.upTo ⟨row, column⟩ ++ ofLines (line.drop column :: t.lines.drop (row + 1)) := by
  rw [upTo, hline]
  exact eq_append_of_place hline column

theorem lineOffset_eq (hline : t.lines[row]? = some line) (hcolumn : column ≤ line.length) :
    t.lineOffset ⟨row, column⟩ = (ended (t.lines.take row)).length + column := by
  rw [lineOffset, upTo, hline, List.length_append, Option.getD_some, List.length_take_of_le hcolumn]

theorem exists_of_charAt? {c : Char} (hc : t.charAt? p = some c) :
    ∃ own, t.lines[p.row]? = some own ∧ own[p.column]? = some c :=
  Option.bind_eq_some_iff.mp hc

/-- A place is there if there is a character behind it. -/
theorem hasPlace_of_charAt? {c : Char} (hc : t.charAt? p = some c) : t.HasPlace p := by
  obtain ⟨own, hown, hchar⟩ := exists_of_charAt? hc
  exact ⟨own, hown, Nat.le_of_lt (List.getElem?_eq_some_iff.mp hchar).1⟩

/-- The character behind a place is the one with its offset. -/
theorem getElem?_lineOffset {c : Char} (hc : t.charAt? p = some c) :
    t[t.lineOffset p]? = some c := by
  obtain ⟨row, column⟩ := p
  obtain ⟨own, hown, hchar⟩ := exists_of_charAt? hc
  obtain ⟨hlt, rfl⟩ := List.getElem?_eq_some_iff.mp hchar
  have hfirst := ofLines_append_cons [own[column]] (own.drop (column + 1)) (t.lines.drop (row + 1))
  rw [List.singleton_append, ← List.drop_eq_getElem_cons hlt] at hfirst
  have hsplit := eq_upTo_append hown column
  rw [hfirst] at hsplit
  have hget := congrArg (fun u : Text => u[t.lineOffset ⟨row, column⟩]?) hsplit
  rw [lineOffset] at hget ⊢
  rw [hget, List.getElem?_append_right (Nat.le_refl _), Nat.sub_self]
  rfl

theorem HasPlace.lineOffset_lt (hp : t.HasPlace p) (hq : t.HasPlace q) (h : p < q) :
    t.lineOffset p < t.lineOffset q := by
  obtain ⟨row, column⟩ := p
  obtain ⟨row', column'⟩ := q
  obtain ⟨line, hline, hcolumn⟩ := hp
  obtain ⟨line', hline', hcolumn'⟩ := hq
  rw [lineOffset_eq hline hcolumn, lineOffset_eq hline' hcolumn']
  rcases h with hrow | ⟨hrow, hlt⟩
  · have hrows := length_ended_take hline hrow
    dsimp only at hrows hcolumn ⊢
    omega
  · dsimp only at hrow hlt
    subst hrow
    exact Nat.add_lt_add_left hlt _

/-- Places are in the order of their offsets. -/
theorem HasPlace.le_iff (hp : t.HasPlace p) (hq : t.HasPlace q) :
    p ≤ q ↔ t.lineOffset p ≤ t.lineOffset q := by
  constructor
  · intro hle
    by_cases hqp : q ≤ p
    · have heq : p = q := by
        cases p
        cases q
        simp only [Position.le_def, Position.mk.injEq] at hle hqp ⊢
        omega
      exact Nat.le_of_eq (congrArg t.lineOffset heq)
    · exact Nat.le_of_lt (hp.lineOffset_lt hq (Position.lt_iff_not_le.mpr hqp))
  · intro hle
    refine Classical.byContradiction fun hnot => ?_
    have hlt := hq.lineOffset_lt hp (Position.lt_iff_not_le.mpr hnot)
    exact absurd hle (Nat.not_le_of_lt hlt)

theorem HasPlace.lt_iff (hp : t.HasPlace p) (hq : t.HasPlace q) :
    p < q ↔ t.lineOffset p < t.lineOffset q := by
  rw [Position.lt_iff_not_le, hq.le_iff hp, Nat.not_le]

/-! ## Reading from one place to another -/

/-- The text `u` stands between two places. -/
structure Reads (t : Text) (p : Position) (u : Text) (q : Position) : Prop where
  /-- the first place exists -/
  start : t.HasPlace p
  /-- the second place exists -/
  stop : t.HasPlace q
  /-- what precedes the first, and then the text, is what precedes the second -/
  upTo_eq : t.upTo p ++ u = t.upTo q

theorem Reads.refl (hp : t.HasPlace p) : Reads t p [] p := ⟨hp, hp, List.append_nil _⟩

/-- What stands between two places is read in two steps. -/
theorem Reads.trans (h : Reads t p u q) (h' : Reads t q v r) : Reads t p (u ++ v) r where
  start := h.start
  stop := h'.stop
  upTo_eq := by rw [← List.append_assoc, h.upTo_eq, h'.upTo_eq]

theorem Reads.lineOffset_eq (h : Reads t p u q) : t.lineOffset q = t.lineOffset p + u.length := by
  rw [lineOffset, lineOffset, ← h.upTo_eq, List.length_append]

theorem Reads.le (h : Reads t p u q) : p ≤ q := by
  rw [h.start.le_iff h.stop, h.lineOffset_eq]
  exact Nat.le_add_right _ _

/-- A text that is not empty takes its reader further. -/
theorem Reads.lt (h : Reads t p u q) (hu : u ≠ []) : p < q := by
  rw [h.start.lt_iff h.stop, h.lineOffset_eq]
  exact Nat.lt_add_of_pos_right (List.length_pos_iff.mpr hu)

theorem Reads.exists_eq_append (h : Reads t p u q) : ∃ rest, t = t.upTo p ++ (u ++ rest) := by
  obtain ⟨row, column⟩ := q
  obtain ⟨line, hline, -⟩ := h.stop
  have hsplit := eq_upTo_append hline column
  rw [← h.upTo_eq, List.append_assoc] at hsplit
  exact ⟨_, hsplit⟩

/-- Only one text stands between two places. -/
theorem Reads.between_eq (h : Reads t p u q) : t.between p q = u := by
  obtain ⟨rest, hrest⟩ := h.exists_eq_append
  have hdrop : t.drop (t.lineOffset p) = u ++ rest := by
    have := congrArg (List.drop (t.lineOffset p)) hrest
    rwa [lineOffset, List.drop_left] at this
  rw [between, hdrop, h.lineOffset_eq, Nat.add_sub_cancel_left, List.take_left]

/-- A character between two places belongs to what stands there. -/
theorem Reads.mem_of_charAt? (h : Reads t p u q) {c : Char} (hc : t.charAt? r = some c)
    (hle : p ≤ r) (hlt : r < q) : c ∈ u := by
  have hplace := hasPlace_of_charAt? hc
  have hchar := getElem?_lineOffset hc
  rw [h.start.le_iff hplace] at hle
  rw [hplace.lt_iff h.stop, h.lineOffset_eq] at hlt
  obtain ⟨n, hn⟩ := Nat.exists_eq_add_of_le hle
  rw [hn] at hchar hlt
  obtain ⟨rest, hrest⟩ := h.exists_eq_append
  have hget : (t.upTo p ++ (u ++ rest))[(t.upTo p).length + n]? = some c := by
    rw [← hrest]
    exact hchar
  rw [List.getElem?_append_right (Nat.le_add_right _ _), Nat.add_sub_cancel_left,
    List.getElem?_append_left (Nat.lt_of_add_lt_add_left hlt)] at hget
  exact List.mem_of_getElem? hget

/-! ## Along the lines -/

/-- Within a line. -/
theorem reads_line (hline : t.lines[row]? = some line) {n : Nat} (hn : column + n ≤ line.length) :
    Reads t ⟨row, column⟩ ((line.drop column).take n) ⟨row, column + n⟩ where
  start := ⟨line, hline, by dsimp only; omega⟩
  stop := ⟨line, hline, hn⟩
  upTo_eq := by
    simp only [upTo, hline, Option.getD_some]
    rw [List.append_assoc, ← List.take_add]

/-- A part of a line. -/
theorem reads_part {a v b : Text} (hline : t.lines[row]? = some (a ++ (v ++ b))) :
    Reads t ⟨row, a.length⟩ v ⟨row, a.length + v.length⟩ := by
  have hle : a.length + v.length ≤ (a ++ (v ++ b)).length := by
    rw [← List.append_assoc, List.length_append, List.length_append]
    exact Nat.le_add_right _ _
  have hreads := reads_line hline hle
  rwa [List.drop_left, List.take_left] at hreads

/-- From a place up to the end of its line. -/
theorem reads_drop (hline : t.lines[row]? = some line) (hcolumn : column ≤ line.length) :
    Reads t ⟨row, column⟩ (line.drop column) ⟨row, line.length⟩ := by
  have hreads := reads_line hline (Nat.le_of_eq (Nat.add_sub_cancel' hcolumn))
  rwa [← List.length_drop, List.take_length, List.length_drop,
    Nat.add_sub_cancel' hcolumn] at hreads

/-- From the start of a line. -/
theorem reads_take (hline : t.lines[row]? = some line) {n : Nat} (hn : n ≤ line.length) :
    Reads t ⟨row, 0⟩ (line.take n) ⟨row, n⟩ := by
  have hle : 0 + n ≤ line.length := by rwa [Nat.zero_add]
  have hreads := reads_line hline hle
  rwa [List.drop_zero, Nat.zero_add] at hreads

/-- All of a line. -/
theorem reads_all (hline : t.lines[row]? = some line) :
    Reads t ⟨row, 0⟩ line ⟨row, line.length⟩ := by
  have hreads := reads_take hline (Nat.le_refl _)
  rwa [List.take_length] at hreads

/-- From the end of a line to the start of the next one. -/
theorem reads_feed (hline : t.lines[row]? = some line) (hnext : row + 1 < t.lines.length) :
    Reads t ⟨row, line.length⟩ ['\n'] ⟨row + 1, 0⟩ where
  start := ⟨line, hline, Nat.le_refl _⟩
  stop := hasPlace_start hnext
  upTo_eq := by
    obtain ⟨hlt, rfl⟩ := List.getElem?_eq_some_iff.mp hline
    simp only [upTo, hline, List.getElem?_eq_getElem hnext, Option.getD_some]
    rw [List.take_succ_eq_append_getElem hlt, ended_append, List.take_length]
    simp

end RmdOptions.Text
