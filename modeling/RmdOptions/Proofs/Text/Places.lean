import RmdOptions.Text.Rows

/-!
# Places and offsets

A place in a text need not exist: it may be below the last row, or behind the end of its row. Every
place has an offset all the same, and is nearest to one place that exists. The places that exist and
the offsets up to the length of the text are the same thing in two forms: each has the other, and
both are in the same order. This holds of every text, whatever breaks its rows have; a row that ends
in a pair has one place more, between the two characters, and that is on the row that they end.

* `Text.clampPosition_eq_iff`, `Text.clampPosition_position` — the places that exist;
* `Text.offset_le_length`, `Text.offset_mono` — the offset of any place;
* `Text.offset_position`, `Text.position_offset` — from offsets to places and back;
* `Text.offset_clampPosition_eq_iff` — where the nearest place has the offset of the place itself;
* `Text.slice_append_slice` — reading in two steps;
* `Text.places_correspond` — **places and offsets correspond one to one and in order**.
-/

namespace RmdOptions.Text

variable {t : Text} {rs : List Text} {p q r : Position} {row column row' column' n m : Nat}

/-! ## Rows that are ended -/

/-- All rows but the last have a break. -/
theorem ne_nil_of_mem_dropLast_rows {row : Text} (h : row ∈ (rows t).dropLast) : row ≠ [] := by
  fun_induction rows t generalizing row with
  | case1 rest ih =>
    rw [List.dropLast_cons_of_ne_nil (rows_ne_nil rest)] at h
    rcases List.mem_cons.mp h with rfl | h
    · exact List.cons_ne_nil _ _
    · exact ih h
  | case2 c rest _ _ ih =>
    rw [List.dropLast_cons_of_ne_nil (rows_ne_nil rest)] at h
    rcases List.mem_cons.mp h with rfl | h
    · exact List.cons_ne_nil _ _
    · exact ih h
  | case3 c rest _ _ ih =>
    obtain ⟨first, more, hrows⟩ := List.exists_cons_of_ne_nil (rows_ne_nil rest)
    rw [hrows, consFirst] at h
    rw [hrows] at ih
    cases more with
    | nil => simp at h
    | cons next more =>
      rw [List.dropLast_cons_cons] at h ih
      rcases List.mem_cons.mp h with rfl | h
      · exact List.cons_ne_nil _ _
      · exact ih (List.mem_cons_of_mem _ h)
  | case4 => simp at h

theorem rowCount_pos (t : Text) : 0 < t.rowCount := List.length_pos_iff.mpr (rows_ne_nil t)

/-- The columns of a row are some of its characters. -/
theorem firstWidth_le (row : Text) (more : List Text) : firstWidth (row :: more) ≤ row.length := by
  cases more with
  | nil => exact Nat.le_refl _
  | cons next more => exact Nat.sub_le _ _

/-! ## Places that exist -/

/-- The nearest place that exists is nearest to itself. -/
theorem clampPosition_clampPosition (t : Text) (p : Position) :
    t.clampPosition (t.clampPosition p) = t.clampPosition p := by
  simp only [clampPosition, Nat.min_assoc, Nat.min_self]

/-- The start of a text exists. -/
theorem clampPosition_origin (t : Text) : t.clampPosition .origin = .origin := by
  simp only [clampPosition, Position.origin, Nat.zero_min]

/-- A place exists if its row does and is as wide. -/
theorem clampPosition_eq_iff :
    t.clampPosition p = p ↔ p.row < t.rowCount ∧ p.column ≤ t.rowWidth p.row := by
  have hcount := t.rowCount_pos
  obtain ⟨row, column⟩ := p
  rw [clampPosition, Position.mk.injEq]
  constructor
  · rintro ⟨hrow, hcolumn⟩
    rw [hrow] at hcolumn
    dsimp only at hrow hcolumn ⊢
    omega
  · rintro ⟨hrow, hcolumn⟩
    have hrow' : min row (t.rowCount - 1) = row := Nat.min_eq_left (Nat.le_sub_one_of_lt hrow)
    rw [hrow']
    exact ⟨rfl, Nat.min_eq_left hcolumn⟩

/-- The nearest place keeps the row, if that exists. -/
theorem clampPosition_of_lt (h : p.row < t.rowCount) :
    t.clampPosition p = ⟨p.row, min p.column (t.rowWidth p.row)⟩ := by
  rw [clampPosition, Nat.min_eq_left (Nat.le_sub_one_of_lt h)]

/-- Below the last row, the nearest place is on it. -/
theorem clampPosition_of_le (h : t.rowCount ≤ p.row) :
    t.clampPosition p = ⟨t.rowCount - 1, min p.column (t.rowWidth (t.rowCount - 1))⟩ := by
  rw [clampPosition, Nat.min_eq_right (Nat.le_trans (Nat.sub_le _ _) h)]

/-! ## The offset of a place -/

theorem offsetIn_le (rs : List Text) (row column : Nat) :
    offsetIn rs row column ≤ rs.flatten.length := by
  induction rs generalizing row with
  | nil => exact Nat.zero_le _
  | cons first more ih =>
    rw [List.flatten_cons, List.length_append]
    cases row with
    | zero =>
      have hfirst := firstWidth_le first more
      rw [offsetIn]
      omega
    | succ row => exact Nat.add_le_add_left (ih row) _

/-- No place is behind the end of the text. -/
theorem offset_le_length (t : Text) (p : Position) : t.offset p ≤ t.length := by
  have hle := offsetIn_le (rows t) p.row p.column
  rwa [flatten_rows] at hle

theorem length_take_offset (t : Text) (p : Position) : (t.take (t.offset p)).length = t.offset p :=
  List.length_take_of_le (offset_le_length t p)

theorem offsetIn_of_length_le (h : rs.length ≤ row) :
    offsetIn rs row column = rs.flatten.length := by
  induction rs generalizing row with
  | nil => rfl
  | cons first more ih =>
    obtain ⟨row, rfl⟩ := Nat.exists_eq_add_of_le' (Nat.le_trans (Nat.succ_pos more.length) h)
    rw [offsetIn, ih (Nat.le_of_succ_le_succ h), List.flatten_cons, List.length_append]

/-- A place below the last row is where the text ends. -/
theorem offset_of_rowCount_le (h : t.rowCount ≤ p.row) : t.offset p = t.length := by
  rw [offset, offsetIn_of_length_le h, flatten_rows]

theorem offsetIn_mono (h : row < row' ∨ (row = row' ∧ column ≤ column')) :
    offsetIn rs row column ≤ offsetIn rs row' column' := by
  induction rs generalizing row row' with
  | nil => exact Nat.le_refl _
  | cons first more ih =>
    have hfirst := firstWidth_le first more
    cases row with
    | zero =>
      cases row' with
      | zero =>
        simp only [offsetIn]
        omega
      | succ row' =>
        simp only [offsetIn]
        omega
    | succ row =>
      cases row' with
      | zero => omega
      | succ row' =>
        have hrest : offsetIn more row column ≤ offsetIn more row' column' := ih (by omega)
        exact Nat.add_le_add_left hrest _

/-- A place that precedes another has no greater offset, whether the two exist or not. -/
theorem offset_mono (t : Text) (h : p ≤ q) : t.offset p ≤ t.offset q := offsetIn_mono h

/-- Columns behind the end of a row are taken for its end. -/
theorem offsetIn_min (rs : List Text) (row column : Nat) :
    offsetIn rs row (min column (firstWidth (rs.drop row))) = offsetIn rs row column := by
  induction rs generalizing row with
  | nil => rfl
  | cons first more ih =>
    cases row with
    | zero => simp only [offsetIn, List.drop_zero, Nat.min_assoc, Nat.min_self]
    | succ row => rw [offsetIn, offsetIn, List.drop_succ_cons, ih]

/-- On a row that exists, the nearest place has the offset of the place itself. -/
theorem offset_clampPosition_of_lt (h : p.row < t.rowCount) :
    t.offset (t.clampPosition p) = t.offset p := by
  rw [clampPosition_of_lt h]
  exact offsetIn_min (rows t) p.row p.column

/-! ## From offsets to places and back -/

/-- The place of an offset within some rows is on one of them. -/
theorem row_positionIn_lt {rs : List Text} (hne : rs ≠ []) (n : Nat) :
    (positionIn rs n).row < rs.length := by
  fun_induction positionIn rs n with
  | case1 => exact absurd rfl hne
  | case2 last n => exact Nat.one_pos
  | case3 row next rest n hlt => exact Nat.succ_pos _
  | case4 row next rest n hge ih => exact Nat.succ_lt_succ (ih (List.cons_ne_nil next rest))

/-- The place of an offset is no further than the end of its row: before the end of the row there is
at least its break. -/
theorem column_positionIn_le {rs : List Text} {n : Nat} (hn : n ≤ rs.flatten.length) :
    (positionIn rs n).column ≤ firstWidth (rs.drop (positionIn rs n).row) := by
  fun_induction positionIn rs n with
  | case1 n => exact hn
  | case2 last n => simpa [firstWidth] using hn
  | case3 row next rest n hlt => exact Nat.le_sub_one_of_lt hlt
  | case4 row next rest n hge ih =>
    refine ih ?_
    rw [List.flatten_cons, List.length_append] at hn
    omega

/-- The place of an offset exists. -/
theorem clampPosition_position (t : Text) (n : Nat) :
    t.clampPosition (t.position n) = t.position n := by
  refine clampPosition_eq_iff.mpr ⟨row_positionIn_lt (rows_ne_nil t) _, column_positionIn_le ?_⟩
  rw [flatten_rows]
  exact Nat.min_le_right _ _

/-- The place found for an offset within some rows has this offset. -/
theorem offsetIn_positionIn {rs : List Text} {n : Nat} (hne : rs ≠ [])
    (hn : n ≤ rs.flatten.length) :
    offsetIn rs (positionIn rs n).row (positionIn rs n).column = n := by
  fun_induction positionIn rs n with
  | case1 => exact absurd rfl hne
  | case2 last n =>
    have : n ≤ last.length := by simpa using hn
    simp [offsetIn, firstWidth, this]
  | case3 row next rest n hlt =>
    simp only [offsetIn, firstWidth]
    omega
  | case4 row next rest n hge ih =>
    have hrest : n - row.length ≤ (next :: rest).flatten.length := by
      rw [List.flatten_cons, List.length_append] at hn
      omega
    simp only [Position.down, offsetIn]
    rw [ih (List.cons_ne_nil _ _) hrest]
    omega

/-- The place found for an offset has this offset. -/
theorem offset_position (hn : n ≤ t.length) : t.offset (t.position n) = n := by
  rw [offset, position, Nat.min_eq_left hn]
  exact offsetIn_positionIn (rows_ne_nil t) (by rwa [flatten_rows])

/-- A place that exists within some rows is found again by its offset. That a row which is not the
last has a break keeps the places at its end and at the start of the next row apart. -/
theorem positionIn_offsetIn (hne : ∀ row ∈ rs.dropLast, row ≠ []) (hrow : row < rs.length)
    (hcolumn : column ≤ firstWidth (rs.drop row)) :
    positionIn rs (offsetIn rs row column) = ⟨row, column⟩ := by
  induction rs generalizing row with
  | nil => exact absurd hrow (Nat.not_lt_zero _)
  | cons first more ih =>
    cases more with
    | nil =>
      obtain rfl : row = 0 := Nat.lt_one_iff.mp hrow
      rw [List.drop_zero] at hcolumn
      rw [offsetIn, Nat.min_eq_left hcolumn, positionIn]
    | cons next more =>
      rw [List.dropLast_cons_cons, List.forall_mem_cons] at hne
      cases row with
      | zero =>
        rw [List.drop_zero] at hcolumn
        have hlt : column < first.length := by
          have hfirst := List.length_pos_iff.mpr hne.1
          rw [firstWidth] at hcolumn
          omega
        rw [offsetIn, Nat.min_eq_left hcolumn, positionIn, if_pos hlt]
      | succ row =>
        have hrest := ih hne.2 (Nat.lt_of_succ_lt_succ hrow) hcolumn
        rw [offsetIn, positionIn, if_neg (Nat.not_lt.mpr (Nat.le_add_right _ _)),
          Nat.add_sub_cancel_left, hrest]
        rfl

/-- A place that exists is found again by its offset. -/
theorem position_offset (h : t.clampPosition p = p) : t.position (t.offset p) = p := by
  obtain ⟨hrow, hcolumn⟩ := clampPosition_eq_iff.mp h
  rw [position, Nat.min_eq_left (offset_le_length t p)]
  exact positionIn_offsetIn (fun row hrow => ne_nil_of_mem_dropLast_rows hrow) hrow hcolumn

/-- The nearest place to one on a row that exists is found by its offset. -/
theorem position_offset_of_lt (h : p.row < t.rowCount) :
    t.position (t.offset p) = t.clampPosition p := by
  rw [← offset_clampPosition_of_lt h]
  exact position_offset (clampPosition_clampPosition t p)

/-! ## The order of places -/

/-- Places that exist are in the order of their offsets. -/
theorem le_iff_offset_le (hp : t.clampPosition p = p) (hq : t.clampPosition q = q) :
    p ≤ q ↔ t.offset p ≤ t.offset q := by
  constructor
  · exact offset_mono t
  · intro hle
    rcases Position.le_total p q with hpq | hqp
    · exact hpq
    · have heq := Nat.le_antisymm hle (offset_mono t hqp)
      rw [← position_offset hp, heq, position_offset hq]
      exact Position.le_refl q

/-- Offsets have their places in order. -/
theorem position_mono (t : Text) (h : n ≤ m) : t.position n ≤ t.position m := by
  have hplace (k : Nat) : t.offset (t.position k) = min k t.length := by
    have hmin : t.position k = t.position (min k t.length) := by
      rw [position, position, Nat.min_assoc, Nat.min_self]
    rw [hmin, offset_position (Nat.min_le_right _ _)]
  rw [le_iff_offset_le (clampPosition_position t n) (clampPosition_position t m), hplace, hplace]
  omega

/-- The text ends at the end of its last row. -/
theorem offset_lastPlace (t : Text) :
    t.offset ⟨t.rowCount - 1, t.rowWidth (t.rowCount - 1)⟩ = t.length := by
  obtain ⟨hrow, hcolumn⟩ := clampPosition_eq_iff.mp (clampPosition_position t t.length)
  -- no place that exists is behind that one
  have hle : t.position t.length ≤ ⟨t.rowCount - 1, t.rowWidth (t.rowCount - 1)⟩ := by
    rw [Position.le_def]
    by_cases hlast : (t.position t.length).row = t.rowCount - 1
    · exact Or.inr ⟨hlast, hlast ▸ hcolumn⟩
    · refine Or.inl ?_
      dsimp only
      omega
  have hmono := offset_mono t hle
  rw [offset_position (Nat.le_refl _)] at hmono
  exact Nat.le_antisymm (offset_le_length t _) hmono

/-- The offset of a place by that of the nearest place that exists. -/
theorem offset_eq_ite (t : Text) (p : Position) :
    t.offset p =
      if p.row < t.rowCount then t.offset (t.clampPosition p) else t.length := by
  split
  · next hrow => exact (offset_clampPosition_of_lt hrow).symm
  · next hrow => exact offset_of_rowCount_le (Nat.le_of_not_lt hrow)

/-- The nearest place does not follow a place by its offset. -/
theorem offset_clampPosition_le (t : Text) (p : Position) :
    t.offset (t.clampPosition p) ≤ t.offset p := by
  rw [offset_eq_ite t p]
  split
  · exact Nat.le_refl _
  · exact offset_le_length t _

/-- The nearest place has another offset than the place itself where that is below the last row, but
not behind its end: the nearest place keeps the column. -/
theorem offset_clampPosition_eq_iff :
    t.offset (t.clampPosition p) = t.offset p ↔
      p.row < t.rowCount ∨ t.rowWidth (t.rowCount - 1) ≤ p.column := by
  by_cases hrow : p.row < t.rowCount
  · exact iff_of_true (offset_clampPosition_of_lt hrow) (Or.inl hrow)
  · have hle := Nat.le_of_not_lt hrow
    have hclamp := clampPosition_of_le hle
    have hexists := clampPosition_clampPosition t p
    rw [offset_of_rowCount_le hle, or_iff_right hrow]
    constructor
    · intro hoffset
      have hlast : t.clampPosition ⟨t.rowCount - 1, t.rowWidth (t.rowCount - 1)⟩ =
          ⟨t.rowCount - 1, t.rowWidth (t.rowCount - 1)⟩ :=
        clampPosition_eq_iff.mpr ⟨Nat.sub_one_lt_of_lt t.rowCount_pos, Nat.le_refl _⟩
      -- only the end of the text has its length as its offset
      have hplace := position_offset hexists
      rw [hoffset, ← offset_lastPlace, position_offset hlast, hclamp, Position.mk.injEq] at hplace
      have hwidth := hplace.2
      omega
    · intro hcolumn
      rw [hclamp, Nat.min_eq_right hcolumn, offset_lastPlace]

/-- Of two places in either order, the span between them starts at the smaller offset. -/
theorem offset_ofEnds_start (t : Text) (p q : Position) :
    t.offset (Span.ofEnds p q).start = min (t.offset p) (t.offset q) := by
  rw [Span.ofEnds]
  split
  · next hle => exact (Nat.min_eq_left (offset_mono t hle)).symm
  · next hnot =>
    exact (Nat.min_eq_right (offset_mono t ((Position.le_total p q).resolve_left hnot))).symm

theorem offset_ofEnds_stop (t : Text) (p q : Position) :
    t.offset (Span.ofEnds p q).stop = max (t.offset p) (t.offset q) := by
  rw [Span.ofEnds]
  split
  · next hle => exact (Nat.max_eq_right (offset_mono t hle)).symm
  · next hnot =>
    exact (Nat.max_eq_left (offset_mono t ((Position.le_total p q).resolve_left hnot))).symm

/-! ## Reading in two steps -/

theorem length_slice (t : Text) (p q : Position) :
    (t.slice p q).length = t.offset q - t.offset p := by
  have hstop := t.offset_le_length q
  rw [slice, List.length_take, List.length_drop]
  omega

/-- What precedes a place, and what stands from there up to another. -/
theorem take_append_slice (t : Text) (h : p ≤ q) :
    t.take (t.offset p) ++ t.slice p q = t.take (t.offset q) := by
  rw [slice, ← List.take_add, Nat.add_sub_cancel' (offset_mono t h)]

/-- What stands between two places, and from the second up to a third. -/
theorem slice_append_slice (t : Text) (hpq : p ≤ q) (hqr : q ≤ r) :
    t.slice p q ++ t.slice q r = t.slice p r := by
  have hboth : t.take (t.offset p) ++ (t.slice p q ++ t.slice q r) =
      t.take (t.offset p) ++ t.slice p r := by
    rw [← List.append_assoc, take_append_slice t hpq, take_append_slice t hqr,
      take_append_slice t (Position.le_trans hpq hqr)]
  exact List.append_cancel_left hboth

/-- **Places and offsets correspond one to one and in order.** An offset up to the length of the
text has a place, which exists and has this offset; a place that exists is the one of its offset. Of
two places, whether they exist or not, the first has no greater offset, and of two offsets the first
has no later place. So a text between two places can be read in two steps, at any place in
between. -/
theorem places_correspond (t : Text) :
    (∀ n ≤ t.length, t.offset (t.position n) = n) ∧
      (∀ n, t.clampPosition (t.position n) = t.position n) ∧
      (∀ p, t.clampPosition p = p → t.position (t.offset p) = p) ∧
      (∀ p q, p ≤ q → t.offset p ≤ t.offset q) ∧
      (∀ n m, n ≤ m → t.position n ≤ t.position m) ∧
      ∀ p q r, p ≤ q → q ≤ r → t.slice p q ++ t.slice q r = t.slice p r :=
  ⟨fun _ => offset_position, clampPosition_position t, fun _ => position_offset,
    fun _ _ => offset_mono t, fun _ _ => position_mono t, fun _ _ _ => slice_append_slice t⟩

/-- Between the two characters of a pair is a place, on the row that they end. -/
theorem places_correspond_pair :
    let t : Text := "a\r\nb".toList
    t.clampPosition ⟨0, 2⟩ = ⟨0, 2⟩ ∧ t.offset ⟨0, 2⟩ = 2 ∧ t.position (t.offset ⟨0, 2⟩) = ⟨0, 2⟩ ∧
      t.slice ⟨0, 0⟩ ⟨0, 2⟩ ++ t.slice ⟨0, 2⟩ ⟨7, 0⟩ = t.slice ⟨0, 0⟩ ⟨7, 0⟩ := by
  intro t
  obtain ⟨-, -, hplace, -, -, hslice⟩ := places_correspond t
  have hexists : t.clampPosition ⟨0, 2⟩ = ⟨0, 2⟩ := by decide
  exact ⟨hexists, by decide, hplace _ hexists, hslice _ _ _ (by decide) (by decide)⟩

end RmdOptions.Text
