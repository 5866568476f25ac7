import RmdOptions.Proofs.Token.Layout
import RmdOptions.Proofs.Token.Single

/-!
# Reading on over several lines

What is read behind some text depends on that text only through the place where it ends. So a text
can be read stretch by stretch, and a stretch may have several lines. White space and comments are
read as comments, whatever the comments say.

* `Text.endPlace`, `Text.slice_endPlace` — the place behind a text, and what stands between two such
  places;
* `lexText`, `LexedAs` — a stretch of a text is read as some tokens;
* `LexedAs.codeTokens_eq` — the tokens of a text that is read from its start to its end;
* `IsLayout`, `IsLayout.exists_lexedAs` — **white space and comments are read as comments**.
-/

namespace RmdOptions

open Rule

variable {a t u rest : Text} {ts us : List Token}

/-! ## Places -/

namespace Text

variable {b v x first : Text} {above more : List Text}

theorem exists_lines_eq_concat (a : Text) : ∃ above x, a.lines = above ++ [x] := by
  rcases List.eq_nil_or_concat a.lines with hnil | ⟨above, x, hlines⟩
  · exact absurd hnil (lines_ne_nil a)
  · exact ⟨above, x, by rw [hlines, List.concat_eq_append]⟩

/-- The last line of a text and the first line of the text behind it are one line. -/
theorem lines_append (ha : a.lines = above ++ [x]) (hb : b.lines = first :: more) :
    (a ++ b).lines = above ++ (x ++ first) :: more := by
  have hfront : a = ended above ++ x := by
    rw [← ofLines_lines a, ha, ofLines_append _ (List.cons_ne_nil _ _), ofLines_singleton]
  have hjoined : a ++ b = ofLines (above ++ (x ++ first) :: more) := by
    rw [ofLines_append _ (List.cons_ne_nil _ _), ofLines_append_cons, ← hb, ofLines_lines,
      ← List.append_assoc, ← hfront]
  have hfeeda (line : Text) (hline : line ∈ above ++ [x]) : '\n' ∉ line :=
    feed_not_mem_of_mem_lines (ha ▸ hline)
  have hfeedb (line : Text) (hline : line ∈ first :: more) : '\n' ∉ line :=
    feed_not_mem_of_mem_lines (hb ▸ hline)
  rw [hjoined, lines_ofLines (by simp)]
  intro line hline
  rcases List.mem_append.mp hline with hline | hline
  · exact hfeeda line (List.mem_append_left _ hline)
  · rcases List.mem_cons.mp hline with rfl | hline
    · rw [List.mem_append, not_or]
      exact ⟨hfeeda x (by simp), hfeedb first List.mem_cons_self⟩
    · exact hfeedb line (List.mem_cons_of_mem _ hline)

/-- A text without line feeds goes on with the first line of the text behind it. -/
theorem lines_append_of_not_mem (hfeed : '\n' ∉ v) (hb : b.lines = first :: more) :
    (v ++ b).lines = (v ++ first) :: more := by
  have hv : v.lines = [] ++ [v] := lines_of_not_mem hfeed
  exact lines_append hv hb

/-- The first line of a text. -/
def firstLine (t : Text) : Text := t.lines.headD []

theorem lines_eq_cons (t : Text) : t.lines = t.firstLine :: t.lines.tail := by
  obtain ⟨first, more, hlines⟩ := List.exists_cons_of_ne_nil (lines_ne_nil t)
  rw [firstLine, hlines]
  rfl

/-- The first line starts as the text does, unless the line is empty. -/
theorem head?_firstLine {p : Char → Prop} (h : ∀ c ∈ t.head?, p c) :
    ∀ c ∈ t.firstLine.head?, p c := by
  intro c hc
  obtain ⟨first, hfirst⟩ := List.head?_eq_some_iff.mp hc
  have hlines := t.lines_eq_cons
  have hfront := ofLines_append_cons [c] first t.lines.tail
  rw [List.singleton_append, ← hfirst, ← hlines, ofLines_lines] at hfront
  exact h c (by rw [hfront]; rfl)

/-- The place behind a text. -/
def endPlace (t : Text) : Position := lastPlace 0 t.lines

theorem endPlace_eq (ha : a.lines = above ++ [x]) : a.endPlace = ⟨above.length, x.length⟩ := by
  rw [endPlace, ha, Layout.lastPlace_append _ (List.cons_ne_nil _ _), Nat.zero_add]
  rfl

/-- Further text on the same line moves the place along the line. -/
theorem endPlace_append (hfeed : '\n' ∉ t) :
    (a ++ t).endPlace = ⟨a.endPlace.row, a.endPlace.column + t.length⟩ := by
  obtain ⟨above, x, ha⟩ := exists_lines_eq_concat a
  rw [endPlace_eq (lines_append ha (lines_of_not_mem hfeed)), endPlace_eq ha, List.length_append]

/-- A line feed moves the place to the start of the next line. -/
theorem endPlace_feed : (a ++ ['\n']).endPlace = a.endPlace.startOfNextRow := by
  obtain ⟨above, x, ha⟩ := exists_lines_eq_concat a
  have hlines : (a ++ ['\n']).lines = (above ++ [x]) ++ [[]] := by
    have hfeed : Text.lines ['\n'] = [] :: [[]] := rfl
    rw [lines_append ha hfeed, List.append_nil, List.append_assoc]
    rfl
  rw [endPlace_eq hlines, endPlace_eq ha, List.length_append]
  rfl

/-- **What stands between the places** behind some text and behind a part of the line that follows
is that part. -/
theorem slice_endPlace (h : (a ++ (v ++ b)).FeedsOnly) (hfeed : '\n' ∉ v) :
    (a ++ (v ++ b)).slice a.endPlace (a ++ v).endPlace = v := by
  obtain ⟨above, x, ha⟩ := exists_lines_eq_concat a
  have hrest := lines_append_of_not_mem hfeed b.lines_eq_cons
  have hline : (a ++ (v ++ b)).lines[above.length]? = some (x ++ v ++ b.firstLine) := by
    rw [lines_append ha hrest, List.getElem?_append_right (Nat.le_refl _), Nat.sub_self,
      List.getElem?_cons_zero, List.append_assoc]
  rw [endPlace_append hfeed, endPlace_eq ha]
  exact slice_line h hline

end Text

/-! ## Stretches -/

/-- Reads a text from a place on, where no string is open. -/
def lexText (p : Position) (t : Text) : Reading :=
  lexFrom Rule.all p.row p.column t.firstLine t.lines.tail

theorem lexText_eq {p : Position} {first : Text} {more : List Text}
    (h : t.lines = first :: more) : lexText p t = lexFrom Rule.all p.row p.column first more := by
  rw [lexText, Text.firstLine, h]
  rfl

/-- Behind `a` and in front of `rest`, a text is read as some tokens, and reading goes on behind
it. -/
def LexedAs (a t : Text) (ts : List Token) (rest : Text) : Prop :=
  lexText a.endPlace (t ++ rest) = precede ts (lexText (a ++ t).endPlace rest)

namespace LexedAs

theorem nil : LexedAs a [] [] rest := by
  rw [LexedAs, List.append_nil, List.nil_append, precede_nil]

theorem append (ht : LexedAs a t ts (u ++ rest)) (hu : LexedAs (a ++ t) u us rest) :
    LexedAs a (t ++ u) (ts ++ us) rest := by
  rw [LexedAs, List.append_assoc, ht, hu, precede_precede, List.append_assoc]

/-- Part of a line is read as it is in front of the rest of that line. -/
theorem of_readAs (hfeed : '\n' ∉ t)
    (h : ReadAs a.endPlace.row a.endPlace.column t ts rest.firstLine) : LexedAs a t ts rest := by
  have hlines := Text.lines_append_of_not_mem hfeed rest.lines_eq_cons
  rw [ReadAs] at h
  rw [LexedAs, lexText_eq hlines, lexText, Text.endPlace_append hfeed, lexFrom, h, lexFrom,
    precede_precede]
  rfl

/-- Behind a line feed, reading goes on at the start of the next line. -/
theorem feed : LexedAs a ['\n'] [] rest := by
  have hfeed : Text.lines ['\n'] = [[]] ++ [[]] := rfl
  have hlines := Text.lines_append hfeed rest.lines_eq_cons
  rw [LexedAs, lexText_eq hlines, lexText, Text.endPlace_feed, lexFrom, lexCode_nil]
  rfl

/-- The tokens of a text that is read from its start to its end. -/
theorem codeTokens_eq (h : LexedAs [] t ts []) (fence : Text) :
    (Lexer.closedBy fence).codeTokens t = ts := by
  have hread : lexLines Rule.all none 0 t.lines = (ts, none) := by
    have hend (p : Position) : lexText p [] = ([], none) := by
      rw [lexText_eq (show Text.lines [] = [] :: [] from rfl), lexFrom, lexCode_nil]
      rfl
    rw [LexedAs, List.append_nil, lexText_eq t.lines_eq_cons, hend, precede, List.append_nil] at h
    rw [t.lines_eq_cons]
    exact h
  have hrules : (Lexer.closedBy fence).rules = Rule.all := rfl
  rw [Lexer.codeTokens_eq, hrules, hread]
  exact List.append_nil ts

end LexedAs

theorem StopsWord.firstLine (h : StopsWord rest) : StopsWord rest.firstLine :=
  Text.head?_firstLine h

/-! ## Layout -/

/-- Printable ASCII. -/
def isPrintable (c : Char) : Bool := ' ' ≤ c && c ≤ '~'

/-- What may stand between the tokens of code without a meaning of its own: spaces, tabs, line feeds
and comments, each comment with the line feed that ends it. -/
inductive IsLayout : Text → Prop where
  /-- nothing -/
  | nil : IsLayout []
  /-- a space, a tab or a line feed -/
  | white {c : Char} (hc : c ∈ [' ', '\t', '\n']) {rest : Text} (hrest : IsLayout rest) :
    IsLayout (c :: rest)
  /-- a comment, whatever it says -/
  | comment {body : Text} (hbody : ∀ c ∈ body, isPrintable c = true) {rest : Text}
    (hrest : IsLayout rest) : IsLayout ('#' :: body ++ ('\n' :: rest))

/-- A printable character breaks no row. -/
theorem isRowBreak_of_isPrintable {c : Char} (h : isPrintable c = true) :
    Text.isRowBreak c = false := by
  have hascii : c.toNat < 128 := by
    simp only [isPrintable, Bool.and_eq_true, decide_eq_true_eq] at h
    exact toNat_lt_of_le_tilde h.2
  exact forall_ascii (p := fun c => isPrintable c = true → Text.isRowBreak c = false)
    (by decide +kernel) hascii h

/-- A comment is one token, up to the end of its line. -/
theorem LexedAs.comment {body : Text} (hfeed : '\n' ∉ body) :
    LexedAs a ('#' :: body)
      [tokenAt .comment a.endPlace.row a.endPlace.column ('#' :: body)] ('\n' :: rest) := by
  -- nothing follows the comment on its line
  have hline : Text.firstLine ('\n' :: rest) = [] := rfl
  refine LexedAs.of_readAs (by simp [hfeed]) (readAs_of_lexeme? (forall_head? (by decide) _) ?_)
  rw [hline, lexeme?_comment hfeed, List.length_cons, Nat.add_comm]
  rfl

namespace IsLayout

/-- **White space and comments are read as comments**, whatever the comments say. -/
theorem exists_lexedAs (h : IsLayout t) (a rest : Text) :
    ∃ ts, LexedAs a t ts rest ∧ ∀ u ∈ ts, u.kind = .comment := by
  induction h generalizing a with
  | nil => exact ⟨[], LexedAs.nil, fun u hu => absurd hu List.not_mem_nil⟩
  | @white c hc t _ ih =>
    have hfirst : LexedAs a [c] [] (t ++ rest) := by
      simp only [List.mem_cons, List.not_mem_nil, or_false] at hc
      rcases hc with rfl | rfl | rfl
      · exact LexedAs.of_readAs (by decide) (readAs_white (by decide))
      · exact LexedAs.of_readAs (by decide) (readAs_white (by decide))
      · exact LexedAs.feed
    obtain ⟨ts, hts, hcomments⟩ := ih (a ++ [c])
    exact ⟨ts, hfirst.append hts, hcomments⟩
  | @comment body hbody t _ ih =>
    have hfeed : '\n' ∉ body := fun hc =>
      absurd (isRowBreak_of_isPrintable (hbody _ hc)) (by decide)
    obtain ⟨ts, hts, hcomments⟩ := ih (a ++ ('#' :: body) ++ ['\n'])
    have hcomment : LexedAs a ('#' :: body) _ (['\n'] ++ t ++ rest) := LexedAs.comment hfeed
    refine ⟨_, hcomment.append (LexedAs.feed.append hts), fun u hu => ?_⟩
    rcases List.mem_cons.mp hu with rfl | hu
    · rfl
    · exact hcomments u hu

/-- A text that starts with layout starts with white space or a number sign, or as it goes on behind
the layout. -/
theorem forall_head? {p : Char → Prop} (h : IsLayout t)
    (hlayout : ∀ c ∈ [' ', '\t', '\n', '#'], p c) (hrest : ∀ c ∈ rest.head?, p c) :
    ∀ c ∈ (t ++ rest).head?, p c := by
  cases h with
  | nil => exact hrest
  | white hc _ =>
    rintro c ⟨⟩
    exact hlayout _ (List.mem_append_left ['#'] hc)
  | comment _ _ =>
    rintro c ⟨⟩
    exact hlayout '#' (by decide)

/-- Layout ends every word. -/
theorem stopsWord (h : IsLayout t) (hrest : StopsWord rest) : StopsWord (t ++ rest) :=
  h.forall_head? (by decide +kernel) hrest

theorem feedsOnly (h : IsLayout t) : t.FeedsOnly := by
  induction h with
  | nil => exact fun c hc => absurd hc List.not_mem_nil
  | @white c hc t _ ih =>
    have hfirst : Text.FeedsOnly [c] := by
      simp only [List.mem_cons, List.not_mem_nil, or_false] at hc
      rcases hc with rfl | rfl | rfl
      · decide
      · decide
      · decide
    exact hfirst.append ih
  | @comment body hbody t _ ih =>
    have hbody : Text.Unbroken body := fun c hc => isRowBreak_of_isPrintable (hbody c hc)
    have hsharp : Text.FeedsOnly ['#'] := by decide
    have hfeed : Text.FeedsOnly ['\n'] := by decide
    exact (hsharp.append hbody.feedsOnly).append (hfeed.append ih)

end IsLayout

end RmdOptions
