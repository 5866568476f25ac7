import RmdOptions.Text.Keyed

/-!
# Option maps

The options of a chunk are a mapping from names to values, both kept as they are written. It is
ordered: a new name goes to the end, and a name that is already there keeps its place when its value
is replaced. No name occurs twice.

* `OptionMap.insert`, `OptionMap.get?` — writing and reading;
* `OptionMap.insertAll`, `OptionMap.ofList` — writing several in a row;
* `OptionMap.sorted` — the same options ordered by name.
-/

namespace RmdOptions

/-- Options in order, no name occurring twice. -/
structure OptionMap where
  /-- the names with their values -/
  entries : List (Text × Text)
  /-- no name occurs twice -/
  nodup : (entries.map Prod.fst).Nodup
  deriving DecidableEq

namespace OptionMap

/-- No options. -/
def empty : OptionMap := ⟨[], List.nodup_nil⟩

instance : Inhabited OptionMap := ⟨empty⟩

/-- Maps are equal when their entries are, in order. -/
@[ext] theorem ext {m n : OptionMap} (h : m.entries = n.entries) : m = n := by
  cases m
  cases n
  cases h
  rfl

/-- The names in order. -/
def keys (m : OptionMap) : List Text := m.entries.map Prod.fst

/-- How many options there are. -/
def size (m : OptionMap) : Nat := m.entries.length

/-- Whether there are no options. -/
def isEmpty (m : OptionMap) : Bool := m.entries.isEmpty

/-- The value of an option. -/
def get? (m : OptionMap) (key : Text) : Option Text := Keyed.find? key m.entries

/-! ## Writing -/

/-- Sets an option. -/
def insert (m : OptionMap) (key value : Text) : OptionMap :=
  ⟨Keyed.put key value m.entries, Keyed.nodup_put m.nodup⟩

/-- Sets several options in order. -/
def insertAll (m : OptionMap) (pairs : List (Text × Text)) : OptionMap :=
  pairs.foldl (fun m pair => m.insert pair.1 pair.2) m

/-- The options set by some pairs in order. -/
def ofList (pairs : List (Text × Text)) : OptionMap := empty.insertAll pairs

/-- The names after setting an option. -/
theorem keys_insert (m : OptionMap) (key value : Text) :
    (m.insert key value).keys = if key ∈ m.keys then m.keys else m.keys ++ [key] :=
  Keyed.map_fst_put key value m.entries

/-- A name that was set has its new value, and all others have theirs. -/
theorem get?_insert (m : OptionMap) (key value other : Text) :
    (m.insert key value).get? other = if other = key then some value else m.get? other :=
  Keyed.find?_put key other value m.entries

/-! ## Sorting -/

/-- The same options, ordered by name. -/
def sorted (m : OptionMap) : OptionMap where
  entries := m.entries.mergeSort fun a b => a.1.atMost b.1
  nodup := ((List.mergeSort_perm _ _).map Prod.fst).symm.nodup m.nodup

end OptionMap

end RmdOptions
