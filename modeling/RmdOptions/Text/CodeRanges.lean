/-!
# Sets of characters given by ranges of code points

The character classes of the lexer (letters, digits, white space) are properties of Unicode. Each
is a table of inclusive ranges of code points in increasing order, so that a search can stop at the
first range that starts above the character it looks for.

* `CodeRanges.contains` — membership, read from left to right;
* `CodeRanges.IncreasingFrom` — the ranges are non-empty and lie strictly one after another;
* `CodeRanges.contains_iff` — for increasing ranges, membership means lying inside one of them.
-/

namespace RmdOptions

/-- Inclusive ranges of code points. -/
abbrev CodeRanges := List (Nat × Nat)

/-- Whether a code point lies in one of the ranges, stopping at the first range above it. -/
def CodeRanges.contains : CodeRanges → Nat → Bool
  | [], _ => false
  | (first, last) :: rest, n =>
    if n < first then false
    else if n ≤ last then true
    else CodeRanges.contains rest n

/-- The ranges are non-empty, start above `bound`, and lie strictly one after another. -/
def CodeRanges.IncreasingFrom : Nat → CodeRanges → Prop
  | _, [] => True
  | bound, (first, last) :: rest =>
    bound < first ∧ first ≤ last ∧ CodeRanges.IncreasingFrom last rest

/-- Whether ranges increase is found out by going through them. -/
instance CodeRanges.decidableIncreasingFrom :
    (bound : Nat) → (ranges : CodeRanges) → Decidable (CodeRanges.IncreasingFrom bound ranges)
  | _, [] => isTrue trivial
  | bound, (first, last) :: rest =>
    have := CodeRanges.decidableIncreasingFrom last rest
    inferInstanceAs
      (Decidable (bound < first ∧ first ≤ last ∧ CodeRanges.IncreasingFrom last rest))

/-- Nothing at or below the bound is in ranges that increase from it. -/
theorem CodeRanges.contains_eq_false_of_le {bound : Nat} {ranges : CodeRanges}
    (h : CodeRanges.IncreasingFrom bound ranges) {n : Nat} (hn : n ≤ bound) :
    CodeRanges.contains ranges n = false := by
  cases ranges with
  | nil => rfl
  | cons range rest =>
    obtain ⟨first, last⟩ := range
    have hlt : n < first := Nat.lt_of_le_of_lt hn h.1
    simp [CodeRanges.contains, hlt]

/-- In increasing ranges the early stop loses nothing: a code point is found exactly when one of
the ranges holds it. -/
theorem CodeRanges.contains_iff {bound : Nat} {ranges : CodeRanges}
    (h : CodeRanges.IncreasingFrom bound ranges) (n : Nat) :
    CodeRanges.contains ranges n = true ↔ ∃ r ∈ ranges, r.1 ≤ n ∧ n ≤ r.2 := by
  induction ranges generalizing bound with
  | nil => simp [CodeRanges.contains]
  | cons range rest ih =>
    obtain ⟨first, last⟩ := range
    obtain ⟨-, hle, hrest⟩ := h
    by_cases hlt : n < first
    · have hnot : CodeRanges.contains rest n = false :=
        CodeRanges.contains_eq_false_of_le hrest (by omega)
      have : ¬ ∃ r ∈ rest, r.1 ≤ n ∧ n ≤ r.2 := by
        rw [← ih hrest, hnot]
        simp
      simp only [CodeRanges.contains, hlt, if_true, List.mem_cons, exists_eq_or_imp]
      constructor
      · intro hfalse
        cases hfalse
      · rintro (⟨hfirst, -⟩ | hin)
        · exact absurd hfirst (by omega)
        · exact absurd hin this
    · by_cases hlast : n ≤ last
      · have : first ≤ n := by omega
        simp [CodeRanges.contains, hlt, hlast, this]
      · simp [CodeRanges.contains, hlt, hlast, ih hrest]

end RmdOptions
