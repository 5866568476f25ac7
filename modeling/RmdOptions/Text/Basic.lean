import RmdOptions.Text.WhiteSpace

/-!
# Texts

A text is its list of characters. Besides what lists offer, this file has what the other modules
share:

* `Text.lines`, `Text.ofLines` — cutting at line feeds and joining with them;
* `Text.trim` — dropping white space at both ends;
* `Text.cutAt` — cutting at every character of a kind;
* `Text.unquote` — removing a pair of quotes around a text;
* `Text.atMost` — the order by code point.
-/

namespace RmdOptions

/-- A text, as its characters (Unicode scalar values) in order. -/
abbrev Text := List Char

namespace Text

/-! ## Cutting and joining -/

/-- Puts a character in front of the first of several texts. -/
def consFirst (c : Char) : List Text → List Text
  | [] => [[c]]
  | first :: rest => (c :: first) :: rest

/-- Cuts a text at every character that `isCut` accepts, dropping these characters. There is one
piece more than there are cuts, so at least one. -/
def cutAt (isCut : Char → Bool) : Text → List Text
  | [] => [[]]
  | c :: rest => if isCut c then [] :: cutAt isCut rest else consFirst c (cutAt isCut rest)

/-- The lines of a text: it is cut at every line feed, and at nothing else. -/
def lines (t : Text) : List Text := cutAt (· == '\n') t

/-- Joins lines by line feeds. -/
def ofLines (ls : List Text) : Text := ['\n'].intercalate ls

theorem consFirst_ne_nil (c : Char) (pieces : List Text) : consFirst c pieces ≠ [] := by
  cases pieces <;> simp [consFirst]

theorem cutAt_ne_nil (isCut : Char → Bool) (t : Text) : cutAt isCut t ≠ [] := by
  cases t with
  | nil => simp [cutAt]
  | cons c rest =>
    rw [cutAt]
    split
    · simp
    · exact consFirst_ne_nil _ _

/-- Joining the lines of a text gives the text back. -/
theorem ofLines_lines (t : Text) : ofLines (lines t) = t := by
  induction t with
  | nil => rfl
  | cons c rest ih =>
    obtain ⟨first, more, hlines⟩ := List.exists_cons_of_ne_nil (cutAt_ne_nil (· == '\n') rest)
    simp only [lines] at ih ⊢
    rw [hlines] at ih
    rw [cutAt, hlines]
    split
    · next hc =>
      rw [beq_iff_eq] at hc
      rw [hc, ← ih]
      simp [ofLines]
    · rw [← ih]
      cases more <;> simp [consFirst, ofLines]

/-! ## Trimming -/

/-- Drops the longest end of a text whose characters `p` accepts. -/
def dropEndWhile (p : Char → Bool) (t : Text) : Text := (t.reverse.dropWhile p).reverse

/-- Drops white space at the start. -/
def trimStart (t : Text) : Text := t.dropWhile isWhiteSpace

/-- Drops white space at the end. -/
def trimEnd (t : Text) : Text := dropEndWhile isWhiteSpace t

/-- Drops white space at both ends. -/
def trim (t : Text) : Text := trimEnd (trimStart t)

/-- What follows `start` in a text that begins with it. -/
def after? (start t : Text) : Option Text :=
  match start, t with
  | [], t => some t
  | _ :: _, [] => none
  | c :: start, d :: t => if c = d then after? start t else none

/-- `after?` answers exactly for the texts that begin with `start`. -/
theorem after?_eq_some_iff {start t rest : Text} :
    after? start t = some rest ↔ t = start ++ rest := by
  induction start generalizing t with
  | nil => simp [after?]
  | cons c start ih =>
    cases t with
    | nil => simp [after?]
    | cons d t =>
      by_cases h : c = d
      · simp [after?, h, ih]
      · simp [after?, h, Ne.symm h]

/-! ## Quotes -/

/-- The text between two copies of `quote` that enclose it. A lone quote encloses nothing. -/
def between? (quote : Char) : Text → Option Text
  | [] => none
  | c :: rest =>
    if c = quote ∧ rest.getLast? = some quote then some rest.dropLast else none

/-- A text without the pair of quotes around it, for the first of `quotes` that encloses it; a text
that none of them encloses stays as it is. -/
def unquote (quotes : List Char) (t : Text) : Text :=
  (quotes.findSome? (between? · t)).getD t

/-! ## Order -/

/-- The lexicographic order by code point, which is also the order of the UTF-8 bytes. -/
def atMost : Text → Text → Bool
  | [], _ => true
  | _ :: _, [] => false
  | c :: s, d :: t =>
    if c.toNat < d.toNat then true
    else if d.toNat < c.toNat then false
    else atMost s t

end Text

end RmdOptions
