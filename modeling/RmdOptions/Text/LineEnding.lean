import RmdOptions.Text.Basic

/-!
# Line endings

A document is held with line feeds only. On loading, a carriage return followed by a line feed, or
a carriage return alone, becomes a line feed; what is remembered is whether the file used the pair,
so that saving can write it again.

* `LineEnding.ofText` — a single pair anywhere decides for the pair;
* `Text.withLineFeeds` — the text as it is held;
* `LineEnding.write` — the text as it is saved.
-/

namespace RmdOptions

/-- How the rows of a saved file end. -/
inductive LineEnding where
  /-- a line feed -/
  | lineFeed
  /-- a carriage return and a line feed -/
  | pair
  deriving DecidableEq

namespace Text

/-- Whether a carriage return is directly followed by a line feed somewhere. -/
def hasPair : Text → Bool
  | '\r' :: '\n' :: _ => true
  | _ :: rest => hasPair rest
  | [] => false

/-- The text with every pair, and every carriage return left alone, replaced by a line feed. -/
def withLineFeeds : Text → Text
  | '\r' :: '\n' :: rest => '\n' :: withLineFeeds rest
  | c :: rest => (if c = '\r' then '\n' else c) :: withLineFeeds rest
  | [] => []

/-- What is held has no carriage return. -/
theorem not_mem_withLineFeeds (t : Text) : '\r' ∉ withLineFeeds t := by
  fun_induction withLineFeeds t with
  | case1 rest ih => simpa using ih
  | case2 c rest _ ih =>
    split
    · simpa using ih
    · next hc => simpa [Ne.symm hc] using ih
  | case3 => simp

/-- A text without carriage returns is held as it is. -/
theorem withLineFeeds_of_not_mem {t : Text} (h : '\r' ∉ t) : withLineFeeds t = t := by
  fun_induction withLineFeeds t with
  | case1 rest => simp at h
  | case2 c rest _ ih =>
    rw [List.mem_cons, not_or] at h
    simp [Ne.symm h.1, ih h.2]
  | case3 => rfl

end Text

namespace LineEnding

/-- The line ending of a file: the pair as soon as it occurs once. -/
def ofText (t : Text) : LineEnding := if t.hasPair then .pair else .lineFeed

/-- Writes a text with line feeds under a line ending. -/
def write : LineEnding → Text → Text
  | .lineFeed, t => t
  | .pair, t => t.flatMap fun c => if c = '\n' then ['\r', '\n'] else [c]

end LineEnding

end RmdOptions
