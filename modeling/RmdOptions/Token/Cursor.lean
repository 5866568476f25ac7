import RmdOptions.Token.Basic

/-!
# Cursors over a token list

A cursor stands before the first token, on a token, or past the last one. It is a counter of the
tokens reached so far, held between these two ends: stepping on past the end, or back before the
start, stays where it is.

* `Cursor.start`, `Cursor.on` — before all tokens, and on the last token that starts by a position;
* `Cursor.forward`, `Cursor.backward` — one step, clamped at both ends;
* `Cursor.current?`, `Cursor.index?` — the token it stands on;
* `Cursor.closing?` — from an opening bracket to the bracket that closes it.
-/

namespace RmdOptions

/-- A cursor over `tokens`. It counts the tokens up to and with the one it stands on, so `0` is
before the first token and `tokens.length + 1` past the last. -/
structure Cursor (tokens : List Token) where
  /-- how many tokens have been reached; one more than there are when past the end -/
  place : Nat
  /-- it is never further than past the end -/
  place_le : place ≤ tokens.length + 1
  deriving DecidableEq

namespace Cursor

variable {tokens : List Token}

/-- Before the first token. -/
def start (tokens : List Token) : Cursor tokens := ⟨0, Nat.zero_le _⟩

/-- On the last of the leading tokens that start at or before a position; before the first token
when there is none. -/
def on (tokens : List Token) (p : Position) : Cursor tokens where
  place := (tokens.takeWhile (·.start ≤ p)).length
  place_le := Nat.le_succ_of_le (List.takeWhile_prefix _).length_le

/-- One token on, or past the end. -/
def forward (c : Cursor tokens) : Cursor tokens :=
  ⟨min (c.place + 1) (tokens.length + 1), Nat.min_le_right _ _⟩

/-- One token back, or before the first. -/
def backward (c : Cursor tokens) : Cursor tokens :=
  ⟨c.place - 1, Nat.le_trans (Nat.sub_le _ _) c.place_le⟩

/-- The index of the token the cursor stands on. -/
def index? (c : Cursor tokens) : Option Nat :=
  if 0 < c.place ∧ c.place ≤ tokens.length then some (c.place - 1) else none

/-- The token the cursor stands on. -/
def current? (c : Cursor tokens) : Option Token :=
  match c.place with
  | 0 => none
  | i + 1 => tokens[i]?

/-- The steps left until the cursor is past the end. -/
def ahead (c : Cursor tokens) : Nat := tokens.length + 1 - c.place

/-- A cursor is told by its place. -/
theorem ext_place {c d : Cursor tokens} (h : c.place = d.place) : c = d := by
  cases c
  cases d
  rw [mk.injEq]
  exact h

/-! ## Steps and what is left -/

theorem place_forward (c : Cursor tokens) :
    c.forward.place = min (c.place + 1) (tokens.length + 1) := rfl

theorem place_backward (c : Cursor tokens) : c.backward.place = c.place - 1 := rfl

theorem place_le_forward (c : Cursor tokens) : c.place ≤ c.forward.place :=
  Nat.le_min.mpr ⟨Nat.le_succ _, c.place_le⟩

/-- A cursor that stands on a token after a step has fewer steps left. -/
theorem ahead_forward_lt {c : Cursor tokens} {t : Token} (h : c.forward.current? = some t) :
    c.forward.ahead < c.ahead := by
  have hlt : c.place < tokens.length + 1 := by
    apply Classical.byContradiction
    intro hge
    have hplace : c.forward.place = tokens.length + 1 := by
      rw [place_forward]
      omega
    simp [current?, hplace] at h
  simp only [ahead, forward]
  omega

theorem ahead_le_ahead {c d : Cursor tokens} (h : c.place ≤ d.place) : d.ahead ≤ c.ahead := by
  simp only [ahead]
  omega

/-! ## Brackets -/

/-- How many tokens stand before the bracket that closes an opening one, with `depth` further
brackets of its type already open. Brackets of other types do not matter, and the search ends at a
boundary. -/
def closingOffset? (opening closing : Text) : Nat → List Token → Option Nat
  | _, [] => none
  | depth, t :: rest =>
    if t.isBoundary then none
    else if t.is .punctuation opening then
      (closingOffset? opening closing (depth + 1) rest).map (· + 1)
    else if t.is .punctuation closing then
      if depth = 0 then some 0
      else (closingOffset? opening closing (depth - 1) rest).map (· + 1)
    else (closingOffset? opening closing depth rest).map (· + 1)

/-- The search stays within the tokens it is given. -/
theorem closingOffset?_lt {opening closing : Text} {depth k : Nat} {rest : List Token}
    (h : closingOffset? opening closing depth rest = some k) : k < rest.length := by
  induction rest generalizing depth k with
  | nil => simp [closingOffset?] at h
  | cons t rest ih =>
    have step {d : Nat}
        (hd : (closingOffset? opening closing d rest).map (· + 1) = some k) :
        k < (t :: rest).length := by
      obtain ⟨j, hj, rfl⟩ := Option.map_eq_some_iff.mp hd
      simpa using ih hj
    rw [closingOffset?] at h
    split at h
    · cases h
    · split at h
      · exact step h
      · split at h
        · split at h
          · cases h
            simp
          · exact step h
        · exact step h

/-- From an opening bracket, the cursor on the bracket that closes it, if there is one before the
next boundary. -/
def closing? (c : Cursor tokens) : Option (Cursor tokens) :=
  match c.current? with
  | none => none
  | some t =>
    match t.closer? with
    | none => none
    | some closing =>
      match h : closingOffset? t.text closing 0 (tokens.drop c.place) with
      | none => none
      | some k =>
        some ⟨c.place + k + 1, by
          have hlt := closingOffset?_lt h
          rw [List.length_drop] at hlt
          omega⟩

end Cursor

end RmdOptions
