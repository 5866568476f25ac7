import RmdOptions.Token.Cursor

/-!
# Finding the options call

The options of a chunk are set by a call of the form `object$method(…)`, which may be qualified by
a package as in `package::object$method(…)`. The search runs forward over the tokens from a cursor
and never crosses a boundary. A candidate is the object's name; it is given up at the first token
that does not fit, which the search does not look at again, or when its bracket is not closed before
the boundary.

* `CallShape` — the names in the call;
* `follow` — stepping along an expected sequence of tokens;
* `judge` — whether a call starts at a token;
* `locate` — the span of the first call, and the cursor where the search ended.
-/

namespace RmdOptions

/-- The names in an options call. -/
structure CallShape where
  /-- the package that may qualify the call -/
  package : Text
  /-- the object whose method is called -/
  object : Text
  /-- the method -/
  method : Text
  deriving DecidableEq

/-- What a token has to be: its kind and its text. -/
abbrev Expected := TokenKind × Text

namespace CallShape

/-- The tokens that follow the object in a call, up to its opening bracket. -/
def continuation (shape : CallShape) : List Expected :=
  [(.operator, ['$']), (.identifier, shape.method), (.punctuation, ['('])]

/-- The call as it is written, up to its opening bracket. -/
def head (shape : CallShape) : Text :=
  shape.package ++ [':', ':'] ++ shape.object ++ ['$'] ++ shape.method

end CallShape

variable {tokens : List Token}

/-! ## Following a sequence -/

/-- How stepping along expected tokens ended. -/
inductive Progress where
  /-- all of them came -/
  | complete
  /-- another token came -/
  | broken
  /-- a boundary or the end came -/
  | stopped
  deriving DecidableEq

/-- Steps along expected tokens for as long as they come. The cursor ends on the last token it has
looked at. -/
def follow : List Expected → Cursor tokens → Progress × Cursor tokens
  | [], c => (.complete, c)
  | (kind, text) :: more, c =>
    match c.forward.current? with
    | none => (.stopped, c.forward)
    | some t =>
      if t.isBoundary then (.stopped, c.forward)
      else if t.is kind text then follow more c.forward
      else (.broken, c.forward)

/-- Following never goes back. -/
theorem place_le_follow (sequence : List Expected) (c : Cursor tokens) :
    c.place ≤ (follow sequence c).2.place := by
  induction sequence generalizing c with
  | nil => exact Nat.le_refl _
  | cons expected more ih =>
    obtain ⟨kind, text⟩ := expected
    have hstep := c.place_le_forward
    rw [follow]
    split
    · exact hstep
    · split
      · exact hstep
      · split
        · exact Nat.le_trans hstep (ih _)
        · exact hstep

/-! ## The search -/

/-- Where the qualifier before the token under the cursor starts: the package's name, followed by
two or three colons. -/
def qualifierStart? (shape : CallShape) (c : Cursor tokens) : Option Position :=
  match c.backward.current? with
  | none => none
  | some colons =>
    if colons.is .operator [':', ':'] || colons.is .operator [':', ':', ':'] then
      match c.backward.backward.current? with
      | none => none
      | some package => if package.is .identifier shape.package then some package.start else none
    else none

/-- What the search makes of the token under the cursor. -/
inductive Verdict (tokens : List Token) where
  /-- it is the object of a call, which ends at the cursor -/
  | found (span : Span) (c : Cursor tokens)
  /-- no call starts here; the search goes on after the cursor -/
  | resume (c : Cursor tokens)
  /-- the chunk or the tokens end at the cursor -/
  | stop (c : Cursor tokens)

/-- Looks for a call whose object is the token `t` under the cursor. -/
def judge (shape : CallShape) (t : Token) (c : Cursor tokens) : Verdict tokens :=
  if t.isBoundary then .stop c
  else if t.is .identifier shape.object then
    match follow shape.continuation c with
    | (.stopped, d) => .stop d
    | (.broken, d) => .resume d
    | (.complete, d) =>
      match d.closing? with
      | none => .resume d
      | some close =>
        match close.current? with
        | none => .stop close
        | some last =>
          .found (Span.ofEnds ((qualifierStart? shape c).getD t.start) last.stop) close
  else .resume c

/-- The search never resumes before the token it has looked at. -/
theorem place_le_of_judge {shape : CallShape} {t : Token} {c d : Cursor tokens}
    (h : judge shape t c = .resume d) : c.place ≤ d.place := by
  have hfollow := place_le_follow shape.continuation c
  rw [judge] at h
  split at h
  · cases h
  · split at h
    · split at h
      · cases h
      · next hbroken =>
        cases h
        rwa [hbroken] at hfollow
      · next hcomplete =>
        rw [hcomplete] at hfollow
        split at h
        · cases h
          exact hfollow
        · split at h <;> cases h
    · cases h
      exact Nat.le_refl _

/-- The span of the first options call after the cursor, from its qualifier, or from its object when
it has none, to its closing bracket; and the cursor where the search ended, which is that bracket
when a call is found. -/
def locate (shape : CallShape) (c : Cursor tokens) : Option Span × Cursor tokens :=
  match h : c.forward.current? with
  | none => (none, c.forward)
  | some t =>
    match hj : judge shape t c.forward with
    | .found span d => (some span, d)
    | .stop d => (none, d)
    | .resume d =>
      have : d.ahead < c.ahead :=
        Nat.lt_of_le_of_lt (Cursor.ahead_le_ahead (place_le_of_judge hj))
          (Cursor.ahead_forward_lt h)
      locate shape d
termination_by c.ahead

end RmdOptions
