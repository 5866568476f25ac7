import RmdOptions.Proofs.Text.Pieces
import RmdOptions.Proofs.Text.Places

/-!
# Lines

Cutting at line feeds and joining with them are inverse to each other on lines that hold no line
feed themselves. A text whose only row breaks are line feeds has its lines as rows, so that a place
in it can be computed from the lines alone.

* `Text.ended` — lines with the line feed that ends each of them;
* `Text.lines_ofLines`, `Text.ofLines_append` — lines of a joined text, and joining in two steps;
* `Text.FeedsOnly` — the texts without other row breaks, whose rows are their lines;
* `Text.Unbroken` — the texts without any row break;
* `Text.take_offset`, `Text.drop_offset` — the text before and after a place on a line;
* `Text.HasPlace`, `Text.getElem?_offset` — the places that exist, and where the line feeds are.
-/

namespace RmdOptions.Text

variable {t : Text} {line : Text} {ls more : List Text} {row column : Nat}

/-- Whether all characters of a text have a property is decided by looking at these characters, and
not at all that there are. -/
instance decidableForallMem {p : Char → Prop} [DecidablePred p] (t : Text) :
    Decidable (∀ c ∈ t, p c) :=
  List.decidableBAll p t

/-! ## Joining -/

/-- Lines, each with the line feed that ends it. -/
def ended (ls : List Text) : Text := ls.flatMap (· ++ ['\n'])

@[simp] theorem ended_nil : ended [] = [] := rfl

@[simp] theorem ended_cons (line : Text) (ls : List Text) :
    ended (line :: ls) = line ++ '\n' :: ended ls := by
  simp [ended]

@[simp] theorem ended_append (ls ms : List Text) : ended (ls ++ ms) = ended ls ++ ended ms := by
  simp [ended]

@[simp] theorem ofLines_nil : ofLines [] = [] := rfl

@[simp] theorem ofLines_singleton (line : Text) : ofLines [line] = line := by simp [ofLines]

theorem ofLines_cons (line : Text) (h : more ≠ []) :
    ofLines (line :: more) = line ++ '\n' :: ofLines more := by
  obtain ⟨next, rest, rfl⟩ := List.exists_cons_of_ne_nil h
  simp [ofLines]

/-- All lines but those that come last are ended where two lists of lines are joined. -/
theorem ofLines_append (ls : List Text) {ms : List Text} (h : ms ≠ []) :
    ofLines (ls ++ ms) = ended ls ++ ofLines ms := by
  induction ls with
  | nil => rfl
  | cons line ls ih =>
    rw [List.cons_append, ofLines_cons line (by simp [h]), ih]
    simp

/-- A text in front of the first line. -/
theorem ofLines_append_cons (a line : Text) (more : List Text) :
    ofLines ((a ++ line) :: more) = a ++ ofLines (line :: more) := by
  cases more with
  | nil => simp
  | cons next rest => simp [ofLines]

/-! ## Cutting -/

theorem lines_ne_nil (t : Text) : lines t ≠ [] := cutAt_ne_nil _ t

/-- A text without line feeds is one line. -/
theorem lines_of_not_mem (h : '\n' ∉ line) : lines line = [line] :=
  cutAt_of_forall fun _ hc => beq_eq_false_iff_ne.mpr (ne_of_mem_of_not_mem hc h)

/-- A line that is ended is the first line. -/
theorem lines_append_feed (h : '\n' ∉ line) (t : Text) :
    lines (line ++ '\n' :: t) = line :: lines t :=
  cutAt_append_cons (fun _ hc => beq_eq_false_iff_ne.mpr (ne_of_mem_of_not_mem hc h)) rfl t

/-- Lines that are ended are the first lines. -/
theorem lines_ended_append (h : ∀ line ∈ ls, '\n' ∉ line) (t : Text) :
    lines (ended ls ++ t) = ls ++ lines t := by
  induction ls with
  | nil => rfl
  | cons line more ih =>
    rw [ended_cons, List.append_assoc, List.cons_append,
      lines_append_feed (h line List.mem_cons_self),
      ih fun l hl => h l (List.mem_cons_of_mem _ hl), List.cons_append]

/-- Lines are joined to a text that has just these lines. -/
theorem lines_ofLines (hne : ls ≠ []) (h : ∀ line ∈ ls, '\n' ∉ line) : lines (ofLines ls) = ls := by
  induction ls with
  | nil => exact absurd rfl hne
  | cons line more ih =>
    have hline : '\n' ∉ line := h line List.mem_cons_self
    by_cases hmore : more = []
    · subst hmore
      rw [ofLines_singleton, lines_of_not_mem hline]
    · rw [ofLines_cons line hmore, lines_append_feed hline,
        ih hmore fun l hl => h l (List.mem_cons_of_mem _ hl)]

/-- What a line holds is in the text, and is no line feed. -/
theorem mem_of_mem_lines {c : Char} (hline : line ∈ lines t) (hc : c ∈ line) :
    c ∈ t ∧ c ≠ '\n' := by
  induction t generalizing line with
  | nil =>
    rw [lines, cutAt, List.mem_singleton] at hline
    subst hline
    cases hc
  | cons d rest ih =>
    rw [lines, cutAt] at hline
    split at hline
    · rcases List.mem_cons.mp hline with rfl | hline
      · cases hc
      · exact ⟨List.mem_cons_of_mem _ (ih hline hc).1, (ih hline hc).2⟩
    · next hd =>
      obtain ⟨first, others, hcut⟩ := List.exists_cons_of_ne_nil (lines_ne_nil rest)
      rw [lines] at hcut
      rw [hcut, consFirst, List.mem_cons] at hline
      rw [lines, hcut] at ih
      rcases hline with rfl | hline
      · rcases List.mem_cons.mp hc with rfl | hc
        · exact ⟨List.mem_cons_self, by simpa using hd⟩
        · have := ih List.mem_cons_self hc
          exact ⟨List.mem_cons_of_mem _ this.1, this.2⟩
      · have := ih (List.mem_cons_of_mem _ hline) hc
        exact ⟨List.mem_cons_of_mem _ this.1, this.2⟩

theorem feed_not_mem_of_mem_lines (h : line ∈ lines t) : '\n' ∉ line :=
  fun hc => (mem_of_mem_lines h hc).2 rfl

/-! ## Line feeds only -/

/-- The text has no row breaks but line feeds. -/
def FeedsOnly (t : Text) : Prop := ∀ c ∈ t, isRowBreak c → c = '\n'

instance (t : Text) : Decidable (FeedsOnly t) :=
  inferInstanceAs (Decidable (∀ c ∈ t, isRowBreak c → c = '\n'))

theorem FeedsOnly.cons {c : Char} (h : FeedsOnly (c :: t)) : FeedsOnly t :=
  fun d hd => h d (List.mem_cons_of_mem _ hd)

theorem FeedsOnly.append {u : Text} (ht : FeedsOnly t) (hu : FeedsOnly u) : FeedsOnly (t ++ u) := by
  intro c hc
  rcases List.mem_append.mp hc with hc | hc
  · exact ht c hc
  · exact hu c hc

theorem FeedsOnly.return_not_mem (h : t.FeedsOnly) : '\r' ∉ t := by
  intro hc
  have hreturn := h _ hc (by decide)
  exact absurd hreturn (by decide)

/-- The text stands on one row. -/
def Unbroken (t : Text) : Prop := ∀ c ∈ t, isRowBreak c = false

instance (t : Text) : Decidable (Unbroken t) :=
  inferInstanceAs (Decidable (∀ c ∈ t, isRowBreak c = false))

theorem Unbroken.feed_not_mem (h : Unbroken t) : '\n' ∉ t :=
  fun hc => absurd (h _ hc) (by decide)

/-- A text that breaks no row has no breaks but line feeds. -/
theorem Unbroken.feedsOnly (h : Unbroken t) : FeedsOnly t := by
  intro c hc hbreak
  rw [h c hc] at hbreak
  cases hbreak

theorem Unbroken.append {u : Text} (ht : Unbroken t) (hu : Unbroken u) : Unbroken (t ++ u) := by
  intro c hc
  rcases List.mem_append.mp hc with hc | hc
  · exact ht c hc
  · exact hu c hc

theorem Unbroken.left {u : Text} (h : Unbroken (t ++ u)) : Unbroken t :=
  fun c hc => h c (List.mem_append_left _ hc)

theorem Unbroken.right {u : Text} (h : Unbroken (t ++ u)) : Unbroken u :=
  fun c hc => h c (List.mem_append_right _ hc)

theorem FeedsOnly.unbroken (h : FeedsOnly t) (hline : line ∈ lines t) : Unbroken line := by
  intro c hc
  obtain ⟨hmem, hne⟩ := mem_of_mem_lines hline hc
  exact Bool.eq_false_iff.mpr fun hbreak => hne (h c hmem hbreak)

/-- Rows that are joined by line feeds have no other breaks. -/
theorem feedsOnly_ofLines (h : ∀ line ∈ ls, Unbroken line) : FeedsOnly (ofLines ls) := by
  induction ls with
  | nil => exact fun c hc => absurd hc List.not_mem_nil
  | cons line more ih =>
    have hline : FeedsOnly line := by
      intro c hc hbreak
      rw [h line List.mem_cons_self c hc] at hbreak
      exact absurd hbreak (by decide)
    by_cases hmore : more = []
    · subst hmore
      rwa [ofLines_singleton]
    · have hrest := ih fun l hl => h l (List.mem_cons_of_mem _ hl)
      rw [ofLines_cons line hmore]
      refine hline.append fun c hc hbreak => ?_
      rcases List.mem_cons.mp hc with rfl | hc
      · rfl
      · exact hrest c hc hbreak

/-- Lines with the line feed that ends each of them but the last. -/
def separated : List Text → List Text
  | [] => []
  | [last] => [last]
  | line :: next :: more => (line ++ ['\n']) :: separated (next :: more)

@[simp] theorem length_separated (ls : List Text) : (separated ls).length = ls.length := by
  fun_induction separated ls with
  | case1 => rfl
  | case2 => rfl
  | case3 line next more ih => simpa using ih

theorem drop_separated (ls : List Text) (n : Nat) :
    (separated ls).drop n = separated (ls.drop n) := by
  fun_induction separated ls generalizing n with
  | case1 => simp [separated]
  | case2 last => cases n <;> simp [separated]
  | case3 line next more ih =>
    cases n with
    | zero => rfl
    | succ n => exact ih n

/-- A character that does not end the first line goes in front of it. -/
theorem separated_consFirst {c : Char} (hne : ls ≠ []) :
    separated (consFirst c ls) = consFirst c (separated ls) := by
  obtain ⟨first, more, rfl⟩ := List.exists_cons_of_ne_nil hne
  cases more <;> rfl

/-- The rows of a text with line feeds only are its lines with their line feeds. -/
theorem rows_eq_separated (h : t.FeedsOnly) : rows t = separated (lines t) := by
  fun_induction rows t with
  | case1 rest =>
    have := h '\r' List.mem_cons_self (by decide)
    exact absurd this (by decide)
  | case2 c rest _ hc ih =>
    obtain rfl : c = '\n' := h c List.mem_cons_self hc
    obtain ⟨first, more, hcut⟩ := List.exists_cons_of_ne_nil (lines_ne_nil rest)
    rw [ih h.cons, hcut]
    rw [lines] at hcut
    simp [lines, cutAt, hcut, separated]
  | case3 c rest _ hc ih =>
    have hfeed : c ≠ '\n' := fun hfeed => hc (by rw [hfeed]; decide)
    rw [ih h.cons, ← separated_consFirst (lines_ne_nil rest), lines, lines, cutAt,
      if_neg (by simpa using hfeed)]
  | case4 => rfl

theorem rowCount_eq (h : t.FeedsOnly) : t.rowCount = t.lines.length := by
  rw [rowCount, rows_eq_separated h, length_separated]

/-- A row shows its line. -/
theorem shownRows_eq (h : t.FeedsOnly) : t.shownRows = t.lines := by
  have hshown : ∀ ls : List Text, (∀ line ∈ ls, '\n' ∉ line) → (separated ls).map shown = ls := by
    intro ls
    fun_induction separated ls with
    | case1 => intro _; rfl
    | case2 last =>
      intro hls
      have hlast : last.getLast? ≠ some '\n' := fun hl =>
        hls last List.mem_cons_self (List.mem_of_getLast? hl)
      simp [shown, hlast]
    | case3 line next more ih =>
      intro hls
      rw [List.map_cons, ih fun l hl => hls l (List.mem_cons_of_mem _ hl)]
      simp [shown]
  rw [shownRows, rows_eq_separated h]
  exact hshown _ fun line hline => feed_not_mem_of_mem_lines hline

theorem row?_eq (h : t.FeedsOnly) (row : Nat) : t.row? row = t.lines[row]? := by
  rw [row?, shownRows_eq h]

/-! ## Places on lines -/

@[simp] theorem firstWidth_separated (line : Text) (more : List Text) :
    firstWidth (separated (line :: more)) = line.length := by
  cases more with
  | nil => rfl
  | cons next rest =>
    obtain ⟨row, others, hrows⟩ : ∃ row others, separated (next :: rest) = row :: others := by
      cases rest <;> simp [separated]
    simp [separated, hrows, firstWidth]

theorem rowWidth_eq (h : t.FeedsOnly) (hline : t.lines[row]? = some line) :
    t.rowWidth row = line.length := by
  obtain ⟨hlt, rfl⟩ := List.getElem?_eq_some_iff.mp hline
  rw [rowWidth, rows_eq_separated h, drop_separated, List.drop_eq_getElem_cons hlt,
    firstWidth_separated]

/-- A place on a line is where it is. -/
theorem clampPosition_eq (h : t.FeedsOnly) (hline : t.lines[row]? = some line)
    (hcolumn : column ≤ line.length) : t.clampPosition ⟨row, column⟩ = ⟨row, column⟩ := by
  have hlt : row < t.lines.length := (List.getElem?_eq_some_iff.mp hline).1
  have hrow : min row (t.lines.length - 1) = row := by omega
  simp [clampPosition, rowCount_eq h, hrow, rowWidth_eq h hline, hcolumn]

theorem offsetIn_separated (hline : ls[row]? = some line) (hcolumn : column ≤ line.length) :
    offsetIn (separated ls) row column = (ended (ls.take row)).length + column := by
  induction row generalizing ls with
  | zero =>
    obtain ⟨first, more, rfl⟩ : ∃ first more, ls = first :: more := by
      cases ls <;> simp_all
    obtain rfl : first = line := by simpa using hline
    obtain ⟨row, others, hrows⟩ : ∃ row others, separated (first :: more) = row :: others := by
      cases more <;> simp [separated]
    have hwidth : firstWidth (row :: others) = first.length := by
      rw [← hrows, firstWidth_separated]
    simp [hrows, offsetIn, hwidth, hcolumn]
  | succ row ih =>
    obtain ⟨first, next, more, rfl⟩ : ∃ first next more, ls = first :: next :: more := by
      rcases ls with _ | ⟨first, _ | ⟨next, more⟩⟩ <;> simp_all
    rw [separated, offsetIn, ih (by simpa using hline)]
    simp
    omega

theorem offset_eq (h : t.FeedsOnly) (hline : t.lines[row]? = some line)
    (hcolumn : column ≤ line.length) :
    t.offset ⟨row, column⟩ = (ended (t.lines.take row)).length + column := by
  rw [offset, rows_eq_separated h, offsetIn_separated hline hcolumn]

/-- A text as the lines before one of them, that line, and the lines after it. -/
theorem eq_ended_append_ofLines (hline : t.lines[row]? = some line) :
    t = ended (t.lines.take row) ++ ofLines (line :: t.lines.drop (row + 1)) := by
  obtain ⟨hlt, rfl⟩ := List.getElem?_eq_some_iff.mp hline
  rw [← ofLines_append _ (List.cons_ne_nil _ _), ← List.drop_eq_getElem_cons hlt,
    List.take_append_drop, ofLines_lines]

/-- A text as what precedes and what follows a place on a line. -/
theorem eq_append_of_place (hline : t.lines[row]? = some line) (column : Nat) :
    t = (ended (t.lines.take row) ++ line.take column) ++
      ofLines (line.drop column :: t.lines.drop (row + 1)) := by
  have hsplit := eq_ended_append_ofLines hline
  have hfirst := ofLines_append_cons (line.take column) (line.drop column) (t.lines.drop (row + 1))
  rw [List.take_append_drop] at hfirst
  rwa [hfirst, ← List.append_assoc] at hsplit

theorem length_eq_offset (h : t.FeedsOnly) (hline : t.lines[row]? = some line)
    (hcolumn : column ≤ line.length) :
    (ended (t.lines.take row) ++ line.take column).length = t.offset ⟨row, column⟩ := by
  rw [offset_eq h hline hcolumn, List.length_append, List.length_take_of_le hcolumn]

/-- What precedes a place on a line: the lines before it and the start of its own. -/
theorem take_offset (h : t.FeedsOnly) (hline : t.lines[row]? = some line)
    (hcolumn : column ≤ line.length) :
    t.take (t.offset ⟨row, column⟩) = ended (t.lines.take row) ++ line.take column := by
  have hsplit := congrArg (List.take (t.offset ⟨row, column⟩)) (eq_append_of_place hline column)
  rwa [List.take_left' (length_eq_offset h hline hcolumn)] at hsplit

/-- What follows a place on a line: the end of its line and the lines after it. -/
theorem drop_offset (h : t.FeedsOnly) (hline : t.lines[row]? = some line)
    (hcolumn : column ≤ line.length) :
    t.drop (t.offset ⟨row, column⟩) = ofLines (line.drop column :: t.lines.drop (row + 1)) := by
  have hsplit := congrArg (List.drop (t.offset ⟨row, column⟩)) (eq_append_of_place hline column)
  rwa [List.drop_left' (length_eq_offset h hline hcolumn)] at hsplit

/-- Within a line, the characters between two places are those between the columns. -/
theorem slice_line (h : t.FeedsOnly) {a v b : Text} (hline : t.lines[row]? = some (a ++ v ++ b)) :
    t.slice ⟨row, a.length⟩ ⟨row, a.length + v.length⟩ = v := by
  have hstart : a.length ≤ (a ++ v ++ b).length := by simp
  have hstop : a.length + v.length ≤ (a ++ v ++ b).length := by simp
  rw [slice, offset_eq h hline hstop, drop_offset h hline hstart, offset_eq h hline hstart,
    Nat.add_sub_add_left, Nat.add_sub_cancel_left, List.append_assoc, List.drop_left,
    ofLines_append_cons, List.take_left]

/-! ## Places that exist -/

/-- A place on one of the lines of a text. -/
def HasPlace (t : Text) (p : Position) : Prop :=
  ∃ line, t.lines[p.row]? = some line ∧ p.column ≤ line.length

theorem hasPlace_start (hrow : row < t.lines.length) : t.HasPlace ⟨row, 0⟩ :=
  ⟨_, List.getElem?_eq_getElem hrow, Nat.zero_le _⟩

theorem HasPlace.clampPosition_eq {p : Position} (hp : t.HasPlace p) (h : t.FeedsOnly) :
    t.clampPosition p = p := by
  obtain ⟨line, hline, hcolumn⟩ := hp
  exact Text.clampPosition_eq h hline hcolumn

/-- Where a row starts, when the row before it exists. -/
theorem length_ended_take (hline : ls[row]? = some line) {next : Nat} (hnext : row < next) :
    (ended (ls.take row)).length + line.length + 1 ≤ (ended (ls.take next)).length := by
  obtain ⟨hlt, rfl⟩ := List.getElem?_eq_some_iff.mp hline
  have htake : (ls.take next).take (row + 1) = ls.take row ++ [ls[row]] := by
    rw [List.take_take, Nat.min_eq_left hnext, List.take_succ_eq_append_getElem hlt]
  have hsplit := congrArg List.length
    (congrArg ended (List.take_append_drop (row + 1) (ls.take next)))
  rw [htake] at hsplit
  simp only [ended_append, ended_cons, ended_nil, List.length_append, List.length_cons,
    List.length_nil] at hsplit
  omega

/-- The place behind a line that is not the last is that behind its line feed. -/
theorem offset_startOfNextRow (h : t.FeedsOnly) (hline : t.lines[row]? = some line)
    (hrow : row + 1 < t.lines.length) :
    t.offset ⟨row + 1, 0⟩ = t.offset ⟨row, line.length⟩ + 1 := by
  obtain ⟨hlt, rfl⟩ := List.getElem?_eq_some_iff.mp hline
  rw [offset_eq h (List.getElem?_eq_getElem hrow) (Nat.zero_le _),
    offset_eq h hline (Nat.le_refl _), List.take_succ_eq_append_getElem hlt, ended_append,
    List.length_append]
  simp [Nat.add_assoc]

/-- A line feed stands at the end of a line that is not the last, and nowhere else. -/
theorem getElem?_offset (h : t.FeedsOnly) (hline : t.lines[row]? = some line)
    (hcolumn : column ≤ line.length) :
    t[t.offset ⟨row, column⟩]? = some '\n' ↔ column = line.length ∧ row + 1 < t.lines.length := by
  have hdrop : t[t.offset ⟨row, column⟩]? =
      (ofLines (line.drop column :: t.lines.drop (row + 1))).head? := by
    rw [← drop_offset h hline hcolumn, List.head?_drop]
  rw [hdrop]
  by_cases hend : column = line.length
  · subst hend
    rw [List.drop_length]
    by_cases hrow : row + 1 < t.lines.length
    · rw [ofLines_cons _ (by simp [hrow])]
      simp [hrow]
    · rw [List.drop_of_length_le (by omega)]
      simp [hrow]
  · have hlt : column < line.length := by omega
    obtain ⟨c, rest, hrest⟩ : ∃ c rest, line.drop column = c :: rest :=
      ⟨_, _, List.drop_eq_getElem_cons hlt⟩
    have hfeed : '\n' ∉ line := feed_not_mem_of_mem_lines (List.mem_of_getElem? hline)
    have hne : c ≠ '\n' := by
      rintro rfl
      exact hfeed (List.mem_of_mem_drop (hrest ▸ List.mem_cons_self))
    have hfirst := ofLines_append_cons [c] rest (t.lines.drop (row + 1))
    rw [List.singleton_append] at hfirst
    rw [hrest, hfirst]
    simp [hne, hend]

theorem flatten_separated (ls : List Text) : (separated ls).flatten = ofLines ls := by
  fun_induction separated ls with
  | case1 => rfl
  | case2 last => simp
  | case3 line next more ih => simp [ih, ofLines_cons line (List.cons_ne_nil next more)]

/-- The rows from one on are the text from the start of that row on. -/
theorem flatten_drop_rows (h : t.FeedsOnly) (hrow : row < t.lines.length) :
    (t.rows.drop row).flatten = t.drop (t.offset ⟨row, 0⟩) := by
  rw [rows_eq_separated h, drop_separated, flatten_separated,
    drop_offset h (List.getElem?_eq_getElem hrow) (Nat.zero_le _), List.drop_zero,
    List.drop_eq_getElem_cons hrow]

/-- The rows before one are the text up to the start of that row. -/
theorem flatten_take_rows (h : t.FeedsOnly) (hrow : row < t.lines.length) :
    (t.rows.take row).flatten = t.take (t.offset ⟨row, 0⟩) := by
  have hrows : (t.rows.take row).flatten ++ (t.rows.drop row).flatten = t := by
    rw [← List.flatten_append, List.take_append_drop, flatten_rows]
  rw [flatten_drop_rows h hrow] at hrows
  exact List.append_cancel_right (hrows.trans (List.take_append_drop _ t).symm)

end RmdOptions.Text
