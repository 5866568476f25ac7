import RmdOptions.Proofs.Options.Merge

/-!
# Edits that follow one another

A form addresses an option when its control for it says something: a value that is set, a checkbox
that is determined, or a text box that is not empty. When several forms are merged one after
another, an option has the value of the last form that addresses it. Its place it gets from the
first one: options that are there already keep theirs, and new ones are added in the order of the
form.

* `Edits.Writes`, `Edits.Addresses` — what a form says about an option;
* `Edits.Introduces` — the options that a form adds;
* `OptionMap.get?_merge_iff`, `OptionMap.exists_keys_merge` — the values and the names after one
  edit;
* `LastWrites`, `OptionMap.get?_foldl_merge` — the values after several;
* `OptionMap.exists_keys_foldl_merge` — and the names.
-/

namespace RmdOptions

/-! ## What a form says -/

namespace Edits

/-- What a form writes for an option. -/
inductive Writes (edits : Edits) : Text → Text → Prop where
  /-- the value for `echo` is set -/
  | echo {value : Text} (h : edits.echo = some value) : Writes edits "echo".toList value
  /-- the value for `eval` is set -/
  | eval {value : Text} (h : edits.eval = some value) : Writes edits "eval".toList value
  /-- the value for `include` is set -/
  | included {value : Text} (h : edits.included = some value) :
    Writes edits "include".toList value
  /-- the checkbox for `message` is checked -/
  | message (h : edits.message = .checked) : Writes edits "message".toList trueLiteral
  /-- the checkbox for `message` is not checked -/
  | noMessage (h : edits.message = .unchecked) : Writes edits "message".toList falseLiteral
  /-- the checkbox for `warning` is checked -/
  | warning (h : edits.warning = .checked) : Writes edits "warning".toList trueLiteral
  /-- the checkbox for `warning` is not checked -/
  | noWarning (h : edits.warning = .unchecked) : Writes edits "warning".toList falseLiteral
  /-- the text box for `fig.height` is not empty -/
  | figHeight (h : edits.figHeight ≠ []) : Writes edits "fig.height".toList edits.figHeight
  /-- the text box for `fig.width` is not empty -/
  | figWidth (h : edits.figWidth ≠ []) : Writes edits "fig.width".toList edits.figWidth

/-- Whether a form writes something for an option. -/
def Addresses (edits : Edits) (key : Text) : Prop := ∃ value, edits.Writes key value

/-- The options of the form, in its order. -/
def order : List Text :=
  ["echo".toList, "eval".toList, "include".toList, "message".toList, "warning".toList,
    "fig.height".toList, "fig.width".toList]

/-- The names that a form adds to those that are known: all that it addresses and that are not
known, in its order. -/
structure Introduces (edits : Edits) (known : Text → Prop) (new : List Text) : Prop where
  /-- they are in the order of the form -/
  sublist : new.Sublist order
  /-- they are the ones that are addressed and not known -/
  mem_iff : ∀ key, key ∈ new ↔ edits.Addresses key ∧ ¬ known key

variable {edits : Edits} {key value : Text}

theorem literal?_eq_some_iff {checkbox : Checkbox} :
    checkbox.literal? = some value ↔
      checkbox = .checked ∧ value = trueLiteral ∨ checkbox = .unchecked ∧ value = falseLiteral := by
  cases checkbox <;> simp [Checkbox.literal?, eq_comm]

theorem textBox?_eq_some_iff {text : Text} :
    textBox? text = some value ↔ text ≠ [] ∧ value = text := by
  cases text <;> simp [textBox?, eq_comm]

/-- **The controls write what the form says.** -/
theorem mem_writes_iff : (key, value) ∈ edits.writes ↔ edits.Writes key value := by
  have hcontrol : (key, value) ∈ edits.writes ↔ (key, some value) ∈ edits.controls := by
    constructor
    · intro h
      obtain ⟨⟨name, written⟩, hmem, hvalue⟩ := List.mem_filterMap.mp h
      obtain ⟨_, rfl, heq⟩ := Option.map_eq_some_iff.mp hvalue
      cases heq
      exact hmem
    · intro h
      exact List.mem_filterMap.mpr ⟨_, h, rfl⟩
  rw [hcontrol]
  constructor
  · intro h
    simp only [controls, List.mem_cons, Prod.mk.injEq, List.not_mem_nil, or_false,
      eq_comm (a := some value), literal?_eq_some_iff, textBox?_eq_some_iff] at h
    rcases h with ⟨rfl, h⟩ | ⟨rfl, h⟩ | ⟨rfl, h⟩ | ⟨rfl, ⟨h, rfl⟩ | ⟨h, rfl⟩⟩ |
      ⟨rfl, ⟨h, rfl⟩ | ⟨h, rfl⟩⟩ | ⟨rfl, h, rfl⟩ | ⟨rfl, h, rfl⟩
    · exact .echo h
    · exact .eval h
    · exact .included h
    · exact .message h
    · exact .noMessage h
    · exact .warning h
    · exact .noWarning h
    · exact .figHeight h
    · exact .figWidth h
  · intro h
    cases h with
    | echo h => simp [controls, h]
    | eval h => simp [controls, h]
    | included h => simp [controls, h]
    | message h => simp [controls, h, Checkbox.literal?]
    | noMessage h => simp [controls, h, Checkbox.literal?]
    | warning h => simp [controls, h, Checkbox.literal?]
    | noWarning h => simp [controls, h, Checkbox.literal?]
    | figHeight h => simp [controls, textBox?, h]
    | figWidth h => simp [controls, textBox?, h]

theorem addresses_iff : edits.Addresses key ↔ key ∈ edits.writes.map Prod.fst := by
  simp [Addresses, ← mem_writes_iff]

end Edits

/-! ## One edit -/

namespace OptionMap

variable {key value : Text}

/-- An option that is not addressed keeps its value, and one that is has what the form writes. -/
theorem get?_merge_iff (m : OptionMap) (edits : Edits) :
    (m.merge edits).get? key = some value ↔
      edits.Writes key value ∨ m.get? key = some value ∧ ¬ edits.Addresses key := by
  by_cases haddressed : edits.Addresses key
  · obtain ⟨written, hwritten⟩ := haddressed
    have hread : (m.merge edits).get? key = some written :=
      m.get?_insertAll_of_mem edits.nodup_writes (Edits.mem_writes_iff.mpr hwritten)
    rw [hread]
    constructor
    · rintro h
      cases h
      exact Or.inl hwritten
    · rintro (h | ⟨-, h⟩)
      · have hread' : (m.merge edits).get? key = some value :=
          m.get?_insertAll_of_mem edits.nodup_writes (Edits.mem_writes_iff.mpr h)
        exact hread.symm.trans hread'
      · exact absurd ⟨written, hwritten⟩ h
  · have hread : (m.merge edits).get? key = m.get? key := by
      rw [Edits.addresses_iff] at haddressed
      exact m.get?_insertAll_of_not_mem haddressed
    rw [hread]
    constructor
    · exact fun h => Or.inr ⟨h, haddressed⟩
    · rintro (h | ⟨h, -⟩)
      · exact absurd ⟨value, h⟩ haddressed
      · exact h

/-- Names that are set are added at the end, those that are there already excepted. -/
theorem keys_insertAll (m : OptionMap) {pairs : List (Text × Text)}
    (h : (pairs.map Prod.fst).Nodup) :
    (m.insertAll pairs).keys = m.keys ++ (pairs.map Prod.fst).filter (· ∉ m.keys) := by
  induction pairs generalizing m with
  | nil => simp [insertAll]
  | cons pair pairs ih =>
    rw [List.map_cons, List.nodup_cons] at h
    rw [insertAll_cons, ih _ h.2, keys_insert, List.map_cons]
    split
    · next hmem => rw [List.filter_cons_of_neg (by simpa using hmem)]
    · next hnew =>
      -- none of the others is the one that has been added
      have hsame : (pairs.map Prod.fst).filter (· ∉ m.keys ++ [pair.1]) =
          (pairs.map Prod.fst).filter (· ∉ m.keys) := by
        refine List.filter_congr fun key hkey => ?_
        have hne : key ≠ pair.1 := fun heq => h.1 (heq ▸ hkey)
        simp [hne]
      rw [hsame, List.filter_cons_of_pos (by simpa using hnew), List.append_assoc]
      rfl

/-- **An edit adds the names that it introduces.** -/
theorem exists_keys_merge (m : OptionMap) (edits : Edits) :
    ∃ new, (m.merge edits).keys = m.keys ++ new ∧ edits.Introduces (· ∈ m.keys) new := by
  refine ⟨_, m.keys_insertAll edits.nodup_writes, ?_, fun key => ?_⟩
  · exact List.filter_sublist.trans edits.sublist_writes
  · rw [List.mem_filter, ← Edits.addresses_iff]
    simp

theorem mem_keys_merge (m : OptionMap) (edits : Edits) :
    key ∈ (m.merge edits).keys ↔ key ∈ m.keys ∨ edits.Addresses key := by
  obtain ⟨new, hkeys, hnew⟩ := m.exists_keys_merge edits
  rw [hkeys, List.mem_append, hnew.mem_iff]
  by_cases h : key ∈ m.keys <;> simp [h]

end OptionMap

/-! ## Several edits -/

/-- The last of some edits that addresses an option writes a value for it. -/
def LastWrites (es : List Edits) (key value : Text) : Prop :=
  ∃ earlier edits later, es = earlier ++ edits :: later ∧ edits.Writes key value ∧
    ∀ next ∈ later, ¬ next.Addresses key

theorem lastWrites_cons {edits : Edits} {es : List Edits} {key value : Text} :
    LastWrites (edits :: es) key value ↔
      LastWrites es key value ∨ edits.Writes key value ∧ ∀ next ∈ es, ¬ next.Addresses key := by
  constructor
  · rintro ⟨earlier, last, later, heq, hwrites, hlast⟩
    cases earlier with
    | nil =>
      cases heq
      exact Or.inr ⟨hwrites, hlast⟩
    | cons first earlier =>
      cases heq
      exact Or.inl ⟨earlier, last, later, rfl, hwrites, hlast⟩
  · rintro (⟨earlier, last, later, rfl, hwrites, hlast⟩ | ⟨hwrites, hlast⟩)
    · exact ⟨edits :: earlier, last, later, rfl, hwrites, hlast⟩
    · exact ⟨[], edits, es, rfl, hwrites, hlast⟩

namespace OptionMap

/-- **The last writer wins.** After several edits, an option has the value that the last of them to
address it writes, or the value that it had before if none addresses it. -/
theorem get?_foldl_merge (m : OptionMap) (es : List Edits) (key value : Text) :
    (es.foldl merge m).get? key = some value ↔
      LastWrites es key value ∨ m.get? key = some value ∧ ∀ edits ∈ es, ¬ edits.Addresses key := by
  induction es generalizing m with
  | nil => simp [LastWrites]
  | cons edits es ih =>
    rw [List.foldl_cons, ih, get?_merge_iff, lastWrites_cons, List.forall_mem_cons, or_and_right,
      ← or_assoc, and_assoc]

/-- **Names stay where they are.** After several edits, the names from before come first, in their
order, and each edit has added the names that it introduces behind them. -/
theorem exists_keys_foldl_merge (m : OptionMap) (es : List Edits) :
    ∃ introduced : List (List Text), (es.foldl merge m).keys = m.keys ++ introduced.flatten ∧
      introduced.length = es.length ∧
      ∀ (i : Nat) (edits : Edits) (new : List Text), es[i]? = some edits →
        introduced[i]? = some new → edits.Introduces
          (fun key => key ∈ m.keys ∨ ∃ earlier ∈ es.take i, earlier.Addresses key) new := by
  induction es generalizing m with
  | nil => exact ⟨[], by simp, rfl, by simp⟩
  | cons edits es ih =>
    obtain ⟨new, hkeys, hnew⟩ := m.exists_keys_merge edits
    obtain ⟨introduced, hmore, hlength, hintroduced⟩ := ih (m.merge edits)
    refine ⟨new :: introduced, ?_, by simp [hlength], ?_⟩
    · rw [List.foldl_cons, hmore, hkeys, List.flatten_cons, List.append_assoc]
    · intro i
      cases i with
      | zero =>
        intro first names hfirst hnames
        cases hfirst
        cases hnames
        simpa using hnew
      | succ i =>
        intro next names hnext hnames
        rw [List.getElem?_cons_succ] at hnext hnames
        have hthere := hintroduced i next names hnext hnames
        -- what is known is what was known before, and what the first edit addresses
        simpa [mem_keys_merge, or_assoc] using hthere

end OptionMap

end RmdOptions
