import RmdOptions.Text.Basic

/-!
# Lists keyed by text

Options, and the members of a JSON object, are pairs of a name and a value in an order that matters.
Writing a name that is already there replaces its value in place, and writing a new one adds it at
the end.

* `Keyed.put` — writing;
* `Keyed.find?` — reading;
* `Keyed.map_fst_put`, `Keyed.find?_put` — what writing does to the names and to what is read.
-/

namespace RmdOptions.Keyed

variable {α : Type}

/-- Replaces the value at a name, or adds name and value at the end. -/
def put (key : Text) (value : α) : List (Text × α) → List (Text × α)
  | [] => [(key, value)]
  | (k, v) :: rest => if k = key then (k, value) :: rest else (k, v) :: put key value rest

/-- The value at the first occurrence of a name. -/
def find? (key : Text) : List (Text × α) → Option α
  | [] => none
  | (k, v) :: rest => if k = key then some v else find? key rest

/-- The names are as before when the name is among them, and have it at the end otherwise. -/
theorem map_fst_put (key : Text) (value : α) (entries : List (Text × α)) :
    (put key value entries).map Prod.fst =
      if key ∈ entries.map Prod.fst then entries.map Prod.fst
      else entries.map Prod.fst ++ [key] := by
  induction entries with
  | nil => rfl
  | cons entry rest ih =>
    obtain ⟨k, v⟩ := entry
    by_cases h : k = key
    · simp [put, h]
    · simp only [put, if_neg h, List.map_cons, ih, List.mem_cons, Ne.symm h, false_or]
      split <;> rfl

/-- Names that occur once still do after writing. -/
theorem nodup_put {key : Text} {value : α} {entries : List (Text × α)}
    (h : (entries.map Prod.fst).Nodup) : ((put key value entries).map Prod.fst).Nodup := by
  rw [map_fst_put]
  split
  · exact h
  · next hnew =>
    rw [List.nodup_append]
    refine ⟨h, by simp, ?_⟩
    intro a ha b hb hab
    rw [List.mem_singleton] at hb
    exact hnew (hb ▸ hab ▸ ha)

/-- A name that was written has its new value, and all others have theirs. -/
theorem find?_put (key other : Text) (value : α) (entries : List (Text × α)) :
    find? other (put key value entries) =
      if other = key then some value else find? other entries := by
  induction entries with
  | nil => simp [put, find?, eq_comm]
  | cons entry rest ih =>
    obtain ⟨k, v⟩ := entry
    by_cases hk : k = key
    · subst hk
      by_cases h : k = other
      · simp [put, find?, h]
      · simp [put, find?, h, Ne.symm h]
    · by_cases h : k = other
      · subst h
        simp [put, find?, hk]
      · simp [put, find?, hk, h, ih]

end RmdOptions.Keyed
