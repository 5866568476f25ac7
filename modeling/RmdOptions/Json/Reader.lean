import RmdOptions.Json.Literal

/-!
# Reading JSON

A `Reader` bundles a reading step with the fact that it uses up some of its text. That is what the
loops over the elements of an array and the members of an object need in order to end. How deep
brackets may nest is a limit for values that are kept; values that are passed over may nest as deep
as their text is long.

* `Reader` — a reading step;
* `scalar` — values without values in them;
* `items`, `elements`, `members` — the loops;
* `valueReader` — a value with a limit on its depth;
* `read` — a text that is one value.
-/

namespace RmdOptions.Json

/-! ## Readers -/

/-- A reading step that uses up some of the text whenever it succeeds. -/
structure Reader (α : Type) where
  /-- what is read, and the text after it -/
  run : Text → Except Fault (α × Text)
  /-- something is used up -/
  shrinks : ∀ {t rest : Text} {a : α}, run t = .ok (a, rest) → rest.length < t.length

namespace Reader

variable {α β : Type}

/-- What is read, turned into something else. -/
def runMap (f : α → β) (r : Reader α) (t : Text) : Except Fault (β × Text) :=
  match r.run t with
  | .ok (a, rest) => .ok (f a, rest)
  | .error fault => .error fault

theorem length_of_runMap {f : α → β} {r : Reader α} {t rest : Text} {b : β}
    (h : runMap f r t = .ok (b, rest)) : rest.length < t.length := by
  rw [runMap] at h
  split at h
  · next hr =>
    cases h
    exact r.shrinks hr
  · cases h

/-- Reads, and turns what is read into something else. -/
def map (f : α → β) (r : Reader α) : Reader β := ⟨runMap f r, length_of_runMap⟩

/-- What is read, going on as the first thing read demands. -/
def runBind (r : Reader α) (next : α → Reader β) (t : Text) : Except Fault (β × Text) :=
  match r.run t with
  | .ok (a, rest) => (next a).run rest
  | .error fault => .error fault

theorem length_of_runBind {r : Reader α} {next : α → Reader β} {t rest : Text} {b : β}
    (h : runBind r next t = .ok (b, rest)) : rest.length < t.length := by
  rw [runBind] at h
  split at h
  · next hr => exact Nat.lt_trans ((next _).shrinks h) (r.shrinks hr)
  · cases h

/-- Reads, and goes on as what is read demands. -/
def bind (r : Reader α) (next : α → Reader β) : Reader β := ⟨runBind r next, length_of_runBind⟩

/-- What is read after one character that must come first, blanks not counting. -/
def runAfter (c : Char) (r : Reader α) (t : Text) : Except Fault (α × Text) :=
  match skipBlanks t with
  | [] => .error .unfinished
  | d :: rest => if d = c then r.run rest else .error .malformed

theorem length_of_runAfter {c : Char} {r : Reader α} {t rest : Text} {a : α}
    (h : runAfter c r t = .ok (a, rest)) : rest.length < t.length := by
  have hle := length_skipBlanks_le t
  rw [runAfter] at h
  split at h
  · cases h
  · next d more heq =>
    split at h
    · have hlt := r.shrinks h
      rw [heq, List.length_cons] at hle
      omega
    · cases h

/-- Reads after one character that must come first, blanks not counting. -/
def after (c : Char) (r : Reader α) : Reader α := ⟨runAfter c r, length_of_runAfter⟩

end Reader

/-- A string with its quotes, blanks before it not counting. -/
def stringReader (care : Care) : Reader Text :=
  Reader.after '\x22' ⟨stringRest care, length_of_stringRest⟩

/-! ## Scalars -/

/-- A constant. -/
def constant (word : Text) (value : Value) (t : Text) : Except Fault (Value × Text) :=
  match afterWord word t with
  | .ok rest => .ok (value, rest)
  | .error fault => .error fault

/-- The fault of a number that the text cuts short. -/
def Care.cut : Care → Fault
  | .full => .unfinished
  | .form => .malformed

/-- A number. In a form to pass over, its size does not matter. -/
def number (care : Care) (t : Text) : Except Fault (Value × Text) :=
  match numberLiteral care.cut t with
  | .error fault => .error fault
  | .ok (literal, rest) =>
    match literal.value? with
    | some value => .ok (.number value, rest)
    | none => if care = .form then .ok (.null, rest) else .error .malformed

/-- A value without further values in it, at the start of a text. -/
def scalar (care : Care) : Text → Except Fault (Value × Text)
  | [] => .error .unfinished
  | c :: t =>
    if c = 'n' then constant ['u', 'l', 'l'] .null t
    else if c = 't' then constant ['r', 'u', 'e'] (.bool true) t
    else if c = 'f' then constant ['a', 'l', 's', 'e'] (.bool false) t
    else if c = '\x22' then
      match stringRest care t with
      | .ok (content, rest) => .ok (.string content, rest)
      | .error fault => .error fault
    else if c = '-' ∨ (digitValue? c).isSome then number care (c :: t)
    else .error .malformed

theorem length_of_constant {word t rest : Text} {value v : Value}
    (h : constant word value t = .ok (v, rest)) : rest.length ≤ t.length := by
  rw [constant] at h
  split at h
  · next hword =>
    cases h
    exact length_of_afterWord hword
  · cases h

theorem length_of_number {care : Care} {t rest : Text} {v : Value}
    (h : number care t = .ok (v, rest)) : rest.length < t.length := by
  rw [number] at h
  split at h
  · cases h
  · next hliteral =>
    have hlt := length_of_numberLiteral hliteral
    split at h
    · cases h
      exact hlt
    · split at h
      · cases h
        exact hlt
      · cases h

theorem length_of_scalar {care : Care} {t rest : Text} {v : Value}
    (h : scalar care t = .ok (v, rest)) : rest.length < t.length := by
  cases t with
  | nil => cases h
  | cons c t =>
    rw [scalar] at h
    split at h
    · exact Nat.lt_succ_of_le (length_of_constant h)
    · split at h
      · exact Nat.lt_succ_of_le (length_of_constant h)
      · split at h
        · exact Nat.lt_succ_of_le (length_of_constant h)
        · split at h
          · split at h
            · next hstring =>
              cases h
              exact Nat.lt_succ_of_lt (length_of_stringRest hstring)
            · cases h
          · split at h
            · exact length_of_number h
            · cases h

/-! ## Brackets -/

/-- Items between commas up to a closing bracket, of which there is at least one. Each item is read
knowing what the ones before it amount to. -/
def items {σ : Type} (close : Char) (item : σ → Reader σ) (acc : σ) (t : Text) :
    Except Fault (σ × Text) :=
  match h : (item acc).run t with
  | .error fault => .error fault
  | .ok (acc, rest) =>
    match hb : skipBlanks rest with
    | [] => .error .unfinished
    | c :: more =>
      if c = close then .ok (acc, more)
      else if c = ',' then
        have : more.length < t.length := by
          have hle := length_skipBlanks_le rest
          have hlt := (item _).shrinks h
          rw [hb, List.length_cons] at hle
          omega
        items close item acc more
      else .error .malformed
termination_by t.length

theorem length_of_items {σ : Type} {close : Char} {item : σ → Reader σ} {acc last : σ}
    {t rest : Text} (h : items close item acc t = .ok (last, rest)) :
    rest.length < t.length := by
  fun_induction items close item acc t with
  | case1 => cases h
  | case2 => cases h
  | case3 acc t next after hrun more hb =>
    cases h
    have hle := length_skipBlanks_le after
    have hlt := (item acc).shrinks hrun
    rw [hb, List.length_cons] at hle
    omega
  | case4 acc t next after hrun more hb _ hlt ih => exact Nat.lt_trans (ih h) hlt
  | case5 => cases h

/-- Items go on behind a comma. -/
theorem items_eq {σ : Type} (close : Char) (item : σ → Reader σ) (acc : σ) (t : Text) :
    items close item acc t =
      match (item acc).run t with
      | .error fault => .error fault
      | .ok (acc, rest) =>
        match skipBlanks rest with
        | [] => .error .unfinished
        | c :: more =>
          if c = close then .ok (acc, more)
          else if c = ',' then items close item acc more
          else .error .malformed := by
  rw [items]
  split
  · next hrun => rw [hrun]
  · next hrun =>
    simp only [hrun]
    split
    · next hrest => rw [hrest]
    · next hrest => rw [hrest]

/-- What is read after an opening bracket: items between commas, if there are any, and the closing
bracket. -/
def runBracketed {σ : Type} (close : Char) (item : σ → Reader σ) (init : σ) (t : Text) :
    Except Fault (σ × Text) :=
  match skipBlanks t with
  | [] => .error .unfinished
  | c :: rest => if c = close then .ok (init, rest) else items close item init (c :: rest)

theorem length_of_runBracketed {σ : Type} {close : Char} {item : σ → Reader σ} {init last : σ}
    {t rest : Text} (h : runBracketed close item init t = .ok (last, rest)) :
    rest.length < t.length := by
  have hle := length_skipBlanks_le t
  rw [runBracketed] at h
  split at h
  · cases h
  · next c more heq =>
    rw [heq, List.length_cons] at hle
    split at h
    · cases h
      omega
    · have hlt := length_of_items h
      rw [List.length_cons] at hlt
      omega

/-- Items between commas after an opening bracket and up to the closing one. -/
def bracketed {σ : Type} (close : Char) (item : σ → Reader σ) (init : σ) : Reader σ :=
  ⟨runBracketed close item init, length_of_runBracketed⟩

/-- The elements of an array, the last one first. -/
def elements {α : Type} (element : Reader α) : Reader (List α) :=
  bracketed ']' (fun acc => element.map (· :: acc)) []

/-- The members of an object, each read by what follows its name. -/
def members {σ : Type} (care : Care) (member : σ → Text → Reader σ) (init : σ) : Reader σ :=
  bracketed '}' (fun acc => (stringReader care).bind (member acc)) init

/-! ## Values -/

/-- An array, whose elements are read by `value`. -/
def arrayReader (value : Reader Value) : Reader Value :=
  (elements value).map fun acc => .array acc.reverse

/-- An object, whose members have values that are read by `value`. -/
def objectReader (care : Care) (value : Reader Value) : Reader Value :=
  (members care (fun acc key => (value.map (Keyed.put key · acc)).after ':') []).map .object

/-- What is read of a value whose elements or members are read by `inner`, which is asked for only
at a bracket; where it has no answer, there must be no brackets. -/
def runNested (care : Care) (inner : Unit → Option (Reader Value)) (t : Text) :
    Except Fault (Value × Text) :=
  match skipBlanks t with
  | [] => .error .unfinished
  | c :: rest =>
    if c = '[' ∨ c = '{' then
      match inner () with
      | none => .error .malformed
      | some value =>
        if c = '[' then (arrayReader value).run rest else (objectReader care value).run rest
    else scalar care (c :: rest)

theorem length_of_runNested {care : Care} {inner : Unit → Option (Reader Value)} {t rest : Text}
    {v : Value} (h : runNested care inner t = .ok (v, rest)) : rest.length < t.length := by
  have hle := length_skipBlanks_le t
  rw [runNested] at h
  split at h
  · cases h
  · next c more heq =>
    rw [heq, List.length_cons] at hle
    split at h
    · split at h
      · cases h
      · split at h
        · have hlt := Reader.shrinks _ h
          omega
        · have hlt := Reader.shrinks _ h
          omega
    · have hlt := length_of_scalar h
      rw [List.length_cons] at hlt
      omega

/-- A value whose elements or members are read by `inner`. -/
def nested (care : Care) (inner : Unit → Option (Reader Value)) : Reader Value :=
  ⟨runNested care inner, length_of_runNested⟩

/-- A value in which brackets nest at most `depth` deep. -/
def valueReader (care : Care) : Nat → Reader Value
  | 0 => nested care fun _ => none
  | depth + 1 => nested care fun _ => some (valueReader care depth)

/-- How deep brackets may nest in a value that is kept. -/
def maxDepth : Nat := 127

/-- What is left after passing over a value. A text has no more brackets than characters, so their
depth is no limit. -/
def runPassOver (t : Text) : Except Fault (Unit × Text) :=
  match (valueReader .form t.length).run t with
  | .ok (_, rest) => .ok ((), rest)
  | .error fault => .error fault

theorem length_of_runPassOver {t rest : Text} {u : Unit}
    (h : runPassOver t = .ok (u, rest)) : rest.length < t.length := by
  rw [runPassOver] at h
  split at h
  · next hr =>
    cases h
    exact Reader.shrinks _ hr
  · cases h

/-- Passes over a value. -/
def passOver : Reader Unit := ⟨runPassOver, length_of_runPassOver⟩

/-- Reads a text that is one thing, with nothing but blanks around it. -/
def whole {α : Type} (r : Reader α) (t : Text) : Except Fault α :=
  match r.run t with
  | .error fault => .error fault
  | .ok (a, rest) => if (skipBlanks rest).isEmpty then .ok a else .error .malformed

/-- The value of a JSON text. -/
def read (t : Text) : Except Fault Value := whole (valueReader .full maxDepth) t

end RmdOptions.Json
