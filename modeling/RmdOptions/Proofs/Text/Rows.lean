import RmdOptions.Proofs.Text.Lines

/-!
# Rows and lines

A text has as many rows as lines, and one more for every row break that is no line feed. So the two
are the same only when there is no such break, and whatever is computed from the lines of another
text is somewhere else in its rows. Rows that are ended stay what they are whatever follows.

* `Text.length_lines_add` — how many rows a text has;
* `Text.rowCount_eq_iff`, `Text.row?_eq_iff`, `Text.ofLines_shownRows_iff`, `Text.take_offset_iff` —
  the texts whose rows are their lines, by what can be asked about rows;
* `Text.shownRows_ended_append`, `Text.exists_shownRows_append` — rows in front of others;
* `Text.position_append` — a place and what precedes it.
-/

namespace RmdOptions.Text

variable {t line : Text} {ls : List Text}

/-! ## How many rows there are -/

/-- Without a carriage return, every row break ends a row by itself. -/
theorem rows_cons {c : Char} (hc : c ≠ '\r') (t : Text) :
    rows (c :: t) = if isRowBreak c then [c] :: rows t else consFirst c (rows t) := by
  cases t with
  | nil => rw [rows]; simp
  | cons d t => rw [rows]; simp [hc]

theorem length_consFirst {c : Char} (h : ls ≠ []) : (consFirst c ls).length = ls.length := by
  cases ls with
  | nil => exact absurd rfl h
  | cons first more => rfl

/-- Whether a character ends a row but no line. -/
def isOtherBreak (c : Char) : Bool := isRowBreak c && c != '\n'

theorem isOtherBreak_eq_false_iff {c : Char} :
    isOtherBreak c = false ↔ (isRowBreak c = true → c = '\n') := by
  simp [isOtherBreak]

/-- There is a row for every line, and one more for every break that ends no line. -/
theorem length_lines_add (h : '\r' ∉ t) :
    t.lines.length + t.countP isOtherBreak = t.rowCount := by
  induction t with
  | nil => rfl
  | cons c t ih =>
    rw [List.mem_cons, not_or] at h
    have ih := ih h.2
    rw [rowCount] at ih ⊢
    rw [rows_cons (Ne.symm h.1), lines, cutAt, List.countP_cons]
    rw [lines] at ih
    by_cases hfeed : c = '\n'
    · subst hfeed
      have hbreak : isRowBreak '\n' = true := by decide
      simp [hbreak, isOtherBreak]
      omega
    · rw [if_neg (by simpa using hfeed), length_consFirst (cutAt_ne_nil _ t)]
      by_cases hbreak : isRowBreak c = true
      · simp [hbreak, isOtherBreak, hfeed]
        omega
      · rw [if_neg hbreak, length_consFirst (rows_ne_nil t)]
        simp [hbreak, isOtherBreak]
        omega

/-- Only texts without other breaks have as many rows as lines. -/
theorem rowCount_eq_iff (h : '\r' ∉ t) : t.rowCount = t.lines.length ↔ t.FeedsOnly := by
  have hcount := length_lines_add h
  constructor
  · intro heq c hc
    have hnone : t.countP isOtherBreak = 0 := by omega
    have hother := List.countP_eq_zero.mp hnone c hc
    exact isOtherBreak_eq_false_iff.mp (Bool.eq_false_iff.mpr hother)
  · exact rowCount_eq

/-! ## What rows show -/

/-- Only the last character of a row can be a line feed. -/
theorem feed_not_mem_dropLast {row : Text} (h : row ∈ rows t) : '\n' ∉ row.dropLast := by
  fun_induction rows t generalizing row with
  | case1 rest ih =>
    rcases List.mem_cons.mp h with rfl | h
    · decide
    · exact ih h
  | case2 c rest _ _ ih =>
    rcases List.mem_cons.mp h with rfl | h
    · simp
    · exact ih h
  | case3 c rest _ hc ih =>
    obtain ⟨first, more, hrows⟩ := List.exists_cons_of_ne_nil (rows_ne_nil rest)
    rw [hrows, consFirst] at h
    rw [hrows] at ih
    rcases List.mem_cons.mp h with rfl | h
    · cases first with
      | nil => simp
      | cons d first =>
        have hfeed : '\n' ≠ c := by
          rintro rfl
          exact hc (by decide)
        have hrest := ih List.mem_cons_self
        rw [List.dropLast_cons_cons, List.mem_cons, not_or]
        exact ⟨hfeed, hrest⟩
    · exact ih (List.mem_cons_of_mem _ h)
  | case4 =>
    obtain rfl := List.mem_singleton.mp h
    simp

theorem feed_not_mem_shownRows (h : line ∈ t.shownRows) : '\n' ∉ line := by
  obtain ⟨row, hrow, rfl⟩ := List.mem_map.mp h
  have hfront := feed_not_mem_dropLast hrow
  rw [shown]
  split
  · exact hfront
  · next hlast =>
    intro hfeed
    have hne : row ≠ [] := List.ne_nil_of_mem hfeed
    rw [← List.dropLast_concat_getLast hne, List.mem_append, List.mem_singleton] at hfeed
    rcases hfeed with hfeed | hfeed
    · exact hfront hfeed
    · exact hlast (by rw [List.getLast?_eq_some_getLast hne, hfeed])

theorem length_shownRows (t : Text) : t.shownRows.length = t.rowCount := List.length_map _

/-- Each row shows the line with its number only if there are no other breaks. -/
theorem row?_eq_iff (h : '\r' ∉ t) : (∀ row, t.row? row = t.lines[row]?) ↔ t.FeedsOnly := by
  constructor
  · intro heq
    have hrows : t.shownRows = t.lines := List.ext_getElem? heq
    rw [← rowCount_eq_iff h, ← length_shownRows, hrows]
  · exact row?_eq

/-- The rows of a text can be joined by line feeds to the text only if it has no other breaks. -/
theorem ofLines_shownRows_iff (h : '\r' ∉ t) : ofLines t.shownRows = t ↔ t.FeedsOnly := by
  constructor
  · intro heq
    have hne : t.shownRows ≠ [] := by simpa [shownRows] using rows_ne_nil t
    have hlines := lines_ofLines hne fun line hline => feed_not_mem_shownRows hline
    rw [heq] at hlines
    rw [← rowCount_eq_iff h, ← length_shownRows, hlines]
  · intro hfeeds
    rw [shownRows_eq hfeeds, ofLines_lines]

/-! ## Places -/

/-- What precedes a place when the text is cut at line feeds. -/
def upTo (t : Text) (p : Position) : Text :=
  ended (t.lines.take p.row) ++ ((t.lines[p.row]?).getD []).take p.column

theorem HasPlace.take_offset {p : Position} (hp : t.HasPlace p) (h : t.FeedsOnly) :
    t.take (t.offset p) = t.upTo p := by
  obtain ⟨line, hline, hcolumn⟩ := hp
  have htake := Text.take_offset h hline hcolumn
  rw [upTo, hline, Option.getD_some]
  exact htake

/-- Between two places that exist stand the characters that are there by the lines. -/
theorem HasPlace.upTo_append_slice {p q : Position} (hp : t.HasPlace p) (hq : t.HasPlace q)
    (h : t.FeedsOnly) (hle : p ≤ q) : t.upTo p ++ t.slice p q = t.upTo q := by
  rw [← hp.take_offset h, ← hq.take_offset h, take_append_slice t hle]

/-- A place on a row that is not the last stands before the end. -/
theorem offsetIn_lt {rs : List Text} (hne : ∀ row ∈ rs.dropLast, row ≠ []) {row : Nat}
    (hrow : row + 1 < rs.length) (column : Nat) : offsetIn rs row column < rs.flatten.length := by
  induction rs generalizing row with
  | nil => simp at hrow
  | cons first more ih =>
    cases more with
    | nil => simp at hrow
    | cons next more =>
      rw [List.dropLast_cons_cons, List.forall_mem_cons] at hne
      rw [List.flatten_cons, List.length_append]
      cases row with
      | zero =>
        have hfirst := List.length_pos_iff.mpr hne.1
        simp only [offsetIn, firstWidth]
        omega
      | succ row =>
        have hrow : row + 1 < (next :: more).length := by simpa using hrow
        have hrest := ih hne.2 hrow
        rw [offsetIn]
        omega

/-- Places on the lines of a text are found among its rows only if it has no other breaks. -/
theorem take_offset_iff (h : '\r' ∉ t) :
    (∀ p, t.HasPlace p → t.take (t.offset p) = t.upTo p) ↔ t.FeedsOnly := by
  constructor
  · intro hplaces
    refine Classical.byContradiction fun hother => ?_
    have hrows : t.lines.length < t.rowCount := by
      have hcount := length_lines_add h
      have hne := mt (rowCount_eq_iff h).mp hother
      omega
    obtain ⟨front, last, hlines⟩ : ∃ front last, t.lines = front ++ [last] :=
      ⟨_, _, (List.dropLast_concat_getLast (lines_ne_nil t)).symm⟩
    have hlast : t.lines[front.length]? = some last := by
      rw [hlines, List.getElem?_append_right (Nat.le_refl _), Nat.sub_self]
      rfl
    -- the end of the last line is the end of the text, but not of its last row
    have hend := hplaces ⟨front.length, last.length⟩ ⟨last, hlast, Nat.le_refl _⟩
    have hall : t.upTo ⟨front.length, last.length⟩ = t := by
      have hsplit := ofLines_append front (List.cons_ne_nil last [])
      rw [← hlines, ofLines_lines, ofLines_singleton] at hsplit
      rw [upTo, hlast, Option.getD_some, List.take_length, hlines, List.take_left]
      exact hsplit.symm
    have hlt : t.offset ⟨front.length, last.length⟩ < t.length := by
      have hlength := congrArg List.length hlines
      rw [List.length_append, List.length_singleton] at hlength
      have hrow : front.length + 1 < t.rows.length := by
        rw [rowCount] at hrows
        omega
      have hbefore :=
        offsetIn_lt (fun row hrow => ne_nil_of_mem_dropLast_rows hrow) hrow last.length
      rwa [flatten_rows] at hbefore
    rw [hall] at hend
    have := congrArg List.length hend
    rw [List.length_take] at this
    omega
  · exact fun hfeeds p hp => hp.take_offset hfeeds

/-! ## Rows in front of others -/

theorem rows_line_append (h : Unbroken line) (t : Text) :
    rows (line ++ '\n' :: t) = (line ++ ['\n']) :: rows t := by
  induction line with
  | nil => exact rows_cons (by decide) t
  | cons c line ih =>
    have hc := h c List.mem_cons_self
    have hreturn : c ≠ '\r' := by
      rintro rfl
      exact absurd hc (by decide)
    rw [List.cons_append, rows_cons hreturn, if_neg (by simp [hc]),
      ih fun d hd => h d (List.mem_cons_of_mem _ hd)]
    rfl

/-- Lines that are ended are the first rows. -/
theorem rows_ended_append (h : ∀ line ∈ ls, Unbroken line) (t : Text) :
    rows (ended ls ++ t) = ls.map (· ++ ['\n']) ++ rows t := by
  induction ls with
  | nil => rfl
  | cons line ls ih =>
    rw [ended_cons, List.append_assoc, List.cons_append,
      rows_line_append (h line List.mem_cons_self), ih fun l hl => h l (List.mem_cons_of_mem _ hl),
      List.map_cons, List.cons_append]

theorem shownRows_ended_append (h : ∀ line ∈ ls, Unbroken line) (t : Text) :
    (ended ls ++ t).shownRows = ls ++ t.shownRows := by
  rw [shownRows, rows_ended_append h, List.map_append, List.map_map]
  congr 1
  refine List.map_id'' (fun line => ?_) ls
  simp [shown]

/-- Rows that are ended by a line feed stay the same whatever follows. -/
theorem exists_rows_append (h : '\r' ∉ t) :
    ∃ front, front ≠ [] ∧ ∀ u, rows (t ++ '\n' :: u) = front ++ rows u := by
  induction t with
  | nil => exact ⟨[['\n']], List.cons_ne_nil _ _, fun u => rows_cons (by decide) u⟩
  | cons c t ih =>
    rw [List.mem_cons, not_or] at h
    obtain ⟨front, hne, hrows⟩ := ih h.2
    obtain ⟨first, more, rfl⟩ := List.exists_cons_of_ne_nil hne
    by_cases hc : isRowBreak c = true
    · refine ⟨[c] :: first :: more, List.cons_ne_nil _ _, fun u => ?_⟩
      rw [List.cons_append, rows_cons (Ne.symm h.1), if_pos hc, hrows]
      rfl
    · refine ⟨(c :: first) :: more, List.cons_ne_nil _ _, fun u => ?_⟩
      rw [List.cons_append, rows_cons (Ne.symm h.1), if_neg hc, hrows]
      rfl

theorem exists_shownRows_append (h : '\r' ∉ t) (hend : t.getLast? = some '\n') :
    ∃ front, ∀ u, (t ++ u).shownRows = front ++ u.shownRows := by
  obtain ⟨front, rfl⟩ := List.getLast?_eq_some_iff.mp hend
  obtain ⟨rs, -, hrows⟩ := exists_rows_append (t := front) fun hc =>
    h (List.mem_append_left _ hc)
  refine ⟨rs.map shown, fun u => ?_⟩
  rw [shownRows, List.append_assoc, List.singleton_append, hrows, List.map_append]
  rfl

/-! ## Places by what precedes them -/

/-- The start of a text is its first place. -/
theorem position_zero (t : Text) : t.position 0 = .origin := by
  have hoffset : t.offset .origin = 0 := by
    obtain ⟨first, more, hrows⟩ := List.exists_cons_of_ne_nil (rows_ne_nil t)
    rw [offset, hrows, Position.origin, offsetIn, Nat.zero_min]
  rw [← hoffset, position_offset (clampPosition_origin t)]

/-- With another character in front, a place is one row further down if that ends its row, and else
one column further if it is on the first row. -/
theorem position_cons {c : Char} (hc : c ≠ '\r') (t : Text) (n : Nat) :
    position (c :: t) (n + 1) =
      if isRowBreak c then (t.position n).down 1
      else if (t.position n).row = 0 then ⟨0, (t.position n).column + 1⟩ else t.position n := by
  obtain ⟨first, more, hrows⟩ := List.exists_cons_of_ne_nil (rows_ne_nil t)
  rw [position, position, rows_cons hc, hrows, List.length_cons, Nat.add_min_add_right]
  generalize min n t.length = m
  split
  · rw [positionIn, if_neg (by simp)]
    rfl
  · cases more with
    | nil => rfl
    | cons next more =>
      simp only [consFirst, positionIn, List.length_cons, Nat.add_lt_add_iff_right,
        Nat.add_sub_add_right]
      split
      · rfl
      · simp [Position.down]

/-- **A place is told by what precedes it**, in a text without carriage returns. -/
theorem position_append (h : '\r' ∉ t) (u : Text) :
    (t ++ u).position t.length = t.position t.length := by
  induction t with
  | nil => rw [List.length_nil, position_zero, position_zero]
  | cons c t ih =>
    rw [List.mem_cons, not_or] at h
    rw [List.cons_append, List.length_cons, position_cons (Ne.symm h.1),
      position_cons (Ne.symm h.1), ih h.2]

end RmdOptions.Text
