import RmdOptions.Proofs.Options.Merge
import RmdOptions.Proofs.Options.Written
import RmdOptions.Proofs.Text.Bytes

/-!
# Options in the order in which they are written

More options than fit on a line are written in the order of their names. This changes the order and
nothing else: what is read is the same, and sorting again changes nothing. So options that have been
read back from a call are written as the same call, and an edit that they contain already leaves
them.

* `OptionMap.get?_sorted`, `OptionMap.sorted_sorted` — what sorting does;
* `OptionMap.render_written`, `OptionMap.written_merge` — writing and editing what has been written.
-/

namespace RmdOptions

/-- Where no name occurs twice, the order does not matter for what is read. -/
theorem Keyed.find?_eq_some_iff {α : Type} {key : Text} {value : α} {entries : List (Text × α)}
    (h : (entries.map Prod.fst).Nodup) :
    find? key entries = some value ↔ (key, value) ∈ entries := by
  induction entries with
  | nil => exact ⟨nofun, nofun⟩
  | cons entry rest ih =>
    obtain ⟨k, v⟩ := entry
    rw [List.map_cons, List.nodup_cons] at h
    rw [find?, List.mem_cons, ← ih h.2]
    split
    · next hk =>
      subst hk
      have hnew : find? k rest ≠ some value := by
        rw [Ne, ih h.2]
        exact fun hmem => h.1 (List.mem_map.mpr ⟨_, hmem, rfl⟩)
      simp [hnew, eq_comm]
    · next hk => simp [Ne.symm hk]

namespace OptionMap

variable (config : Config) (m : OptionMap)

theorem sorted_perm : m.sorted.entries.Perm m.entries := List.mergeSort_perm _ _

theorem size_sorted : m.sorted.size = m.size := m.sorted_perm.length_eq

theorem isEmpty_sorted : m.sorted.isEmpty = m.isEmpty := by
  rw [isEmpty, isEmpty, Bool.eq_iff_iff, List.isEmpty_iff, List.isEmpty_iff]
  constructor
  · intro h
    exact List.perm_nil.mp (h ▸ m.sorted_perm.symm)
  · intro h
    exact List.perm_nil.mp (h ▸ m.sorted_perm)

/-- Sorting changes no values. -/
theorem get?_sorted (key : Text) : m.sorted.get? key = m.get? key := by
  ext value
  rw [get?, get?, Keyed.find?_eq_some_iff m.sorted.nodup, Keyed.find?_eq_some_iff m.nodup,
    m.sorted_perm.mem_iff]

/-- The names of sorted options are in order. -/
theorem pairwise_atMost_sorted :
    m.sorted.entries.Pairwise fun a b => a.1.atMost b.1 = true := by
  have htotal (a b : Text × Text) : (a.1.atMost b.1 || b.1.atMost a.1) = true := by
    rw [Bool.or_eq_true]
    exact a.1.atMost_total b.1
  have htrans (a b c : Text × Text) (hab : a.1.atMost b.1 = true) (hbc : b.1.atMost c.1 = true) :
      a.1.atMost c.1 = true := Text.atMost_trans hab hbc
  exact List.pairwise_mergeSort htrans htotal m.entries

/-- Options that are sorted stay as they are. -/
theorem sorted_sorted : m.sorted.sorted = m.sorted :=
  ext (List.mergeSort_of_pairwise m.pairwise_atMost_sorted)

theorem get?_written (key : Text) : (m.written config).get? key = m.get? key := by
  rw [written]
  split
  · rfl
  · exact m.get?_sorted key

/-- **Options that are read back are written as before.** -/
theorem render_written : (m.written config).render config = m.render config := by
  rw [written]
  split
  · rfl
  · next hsize =>
    rw [render, render, m.isEmpty_sorted, m.size_sorted, if_neg hsize, if_neg hsize,
      m.sorted_sorted]

/-- **An edit that has been made leaves what is read back.** -/
theorem written_merge (edits : Edits) :
    ((m.merge edits).written config).merge edits = (m.merge edits).written config := by
  refine insertAll_of_get? fun write hwrite => ?_
  rw [get?_written]
  exact m.get?_insertAll_of_mem edits.nodup_writes hwrite

end OptionMap

end RmdOptions
