import RmdOptions.Options.Edits

/-!
# Edits that were made before

A form writes no option twice, so after an edit every option that it writes has the value of the
form. Making the same edit again finds these values and changes nothing.

* `OptionMap.get?_insertAll_of_mem` — what is read after several options have been set;
* `OptionMap.insertAll_of_get?` — setting options to the values that they have;
* `OptionMap.merge_merge` — an edit that is made twice.
-/

namespace RmdOptions

/-- A value that is written where it is read already changes nothing. -/
theorem Keyed.put_of_find? {α : Type} {key : Text} {value : α} {entries : List (Text × α)}
    (h : find? key entries = some value) : put key value entries = entries := by
  induction entries with
  | nil => cases h
  | cons entry rest ih =>
    obtain ⟨k, v⟩ := entry
    rw [find?] at h
    rw [put]
    split at h
    · next hk =>
      obtain rfl := Option.some.inj h
      rw [if_pos hk, hk]
    · next hk => rw [if_neg hk, ih h]

namespace OptionMap

variable {m : OptionMap} {key value : Text} {pairs : List (Text × Text)}

theorem insert_of_get? (h : m.get? key = some value) : m.insert key value = m :=
  ext (Keyed.put_of_find? h)

theorem insertAll_cons (m : OptionMap) (pair : Text × Text) (pairs : List (Text × Text)) :
    m.insertAll (pair :: pairs) = (m.insert pair.1 pair.2).insertAll pairs :=
  rfl

/-- An option that is not set keeps its value. -/
theorem get?_insertAll_of_not_mem (m : OptionMap) (h : key ∉ pairs.map Prod.fst) :
    (m.insertAll pairs).get? key = m.get? key := by
  induction pairs generalizing m with
  | nil => rfl
  | cons pair pairs ih =>
    rw [List.map_cons, List.mem_cons, not_or] at h
    rw [insertAll_cons, ih _ h.2, get?_insert, if_neg h.1]

/-- An option that is set once has its new value. -/
theorem get?_insertAll_of_mem (m : OptionMap) (hnodup : (pairs.map Prod.fst).Nodup)
    (h : (key, value) ∈ pairs) : (m.insertAll pairs).get? key = some value := by
  induction pairs generalizing m with
  | nil => cases h
  | cons pair pairs ih =>
    rw [List.map_cons, List.nodup_cons] at hnodup
    rw [insertAll_cons]
    rcases List.mem_cons.mp h with rfl | h
    · -- the others that are set leave it alone
      rw [get?_insertAll_of_not_mem _ hnodup.1, get?_insert, if_pos rfl]
    · exact ih _ hnodup.2 h

/-- An option has a value that it is set to, or else the one that it had. -/
theorem get?_insertAll_cases (m : OptionMap) (h : (m.insertAll pairs).get? key = some value) :
    m.get? key = some value ∨ (key, value) ∈ pairs := by
  induction pairs generalizing m with
  | nil => exact Or.inl h
  | cons pair pairs ih =>
    rw [insertAll_cons] at h
    rcases ih _ h with hfirst | hmem
    · rw [get?_insert] at hfirst
      split at hfirst
      · next hkey =>
        cases hfirst
        rw [hkey]
        exact Or.inr List.mem_cons_self
      · exact Or.inl hfirst
    · exact Or.inr (List.mem_cons_of_mem _ hmem)

theorem mem_of_get?_ofList (h : (ofList pairs).get? key = some value) : (key, value) ∈ pairs :=
  (get?_insertAll_cases empty h).resolve_left nofun

/-- Setting options to the values that they have changes nothing. -/
theorem insertAll_of_get? (h : ∀ pair ∈ pairs, m.get? pair.1 = some pair.2) :
    m.insertAll pairs = m := by
  induction pairs with
  | nil => rfl
  | cons pair pairs ih =>
    rw [insertAll_cons, insert_of_get? (h pair List.mem_cons_self)]
    exact ih fun pair hpair => h pair (List.mem_cons_of_mem _ hpair)

end OptionMap

/-- A form writes in the order of its controls. -/
theorem Edits.sublist_writes (edits : Edits) :
    (edits.writes.map Prod.fst).Sublist (edits.controls.map Prod.fst) := by
  rw [writes]
  generalize edits.controls = controls
  induction controls with
  | nil => exact List.Sublist.refl _
  | cons control more ih =>
    obtain ⟨name, value⟩ := control
    cases value with
    | none => exact ih.cons name
    | some value => exact ih.cons_cons name

/-- A form writes no option twice. -/
theorem Edits.nodup_writes (edits : Edits) : (edits.writes.map Prod.fst).Nodup := by
  refine edits.sublist_writes.nodup ?_
  simp only [controls, List.map_cons, List.map_nil]
  decide +kernel

/-- **An edit that is made twice is made once.** -/
theorem OptionMap.merge_merge (m : OptionMap) (edits : Edits) :
    (m.merge edits).merge edits = m.merge edits :=
  insertAll_of_get? fun _ hpair => m.get?_insertAll_of_mem edits.nodup_writes hpair

end RmdOptions
