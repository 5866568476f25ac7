import RmdOptions.Call.Arguments
import RmdOptions.Panel
import RmdOptions.Proofs.Call.Span
import RmdOptions.Proofs.Token.Layout

/-!
# The call in the body of a chunk

Searching a document from the header of a chunk on is searching the body of the chunk, and that is
searching the same lines when they are read alone: only the rows differ.

* `Layout.locate_header` — the search in a document, in terms of a list;
* `Layout.below_bodyTokens` — the tokens of a body and those of the same lines alone;
* `Layout.exists_call` — where the call of a chunk is.
-/

namespace RmdOptions

variable {lexer : Lexer} {shape : CallShape} {row : Nat}

namespace Layout

variable {before body after : List Text} {header : Text} {t : Text}

/-- What stands behind the end of the chunk is not searched. -/
theorem callAt?_bodyTokens (after' : Nat) :
    callAt? shape (bodyTokens lexer row body after ++ afterTokens lexer after' after) =
      callAt? shape (bodyTokens lexer row body after) := by
  cases after with
  | nil => rw [afterTokens, List.append_nil]
  | cons fence more =>
    exact callAt?_boundary (fun token htoken => (bodyTokens_isCode token htoken).isBoundary) rfl _

/-- **The search from the header of a chunk on is a search in its body.** -/
theorem locate_header (h : Layout lexer t.lines before header body after) :
    (locate shape (Cursor.on (lexer.documentTokens t) ⟨before.length, 0⟩)).1 =
      (callAt? shape (bodyTokens lexer (before.length + 1) body after)).bind
        (shape.spanAt (bodyTokens lexer (before.length + 1) body after)) := by
  have hle : (Cursor.on (lexer.documentTokens t) ⟨before.length, 0⟩).place ≤
      (lexer.documentTokens t).length := by
    rw [h.on_header, h.documentTokens_eq, List.length_append, List.length_cons]
    omega
  rw [(locate_eq shape _ hle).1, h.on_header, h.documentTokens_eq, List.append_cons,
    List.drop_left' (by rw [List.length_append, List.length_singleton]), callAt?_bodyTokens,
    ← List.append_cons]
  cases hcall : callAt? shape (bodyTokens lexer (before.length + 1) body after) with
  | none => rfl
  | some at' =>
    obtain ⟨call, object, inside, close, rest, hfound⟩ := exists_foundCall hcall
    obtain rfl : at' = _ := Option.some.inj (hcall.symm.trans hfound.callAt?_eq)
    have hlength := congrArg List.length hfound.tokens_eq
    simp only [List.length_append, List.length_cons] at hlength
    rw [later_some, Option.bind_some, Option.bind_some,
      spanAt_append _ _ rfl (by omega) (by omega)]

/-! ## The body read alone -/

/-- **The tokens of a body are those of the same lines read alone, further down.** -/
theorem below_bodyTokens (lexer : Lexer) (row : Nat) (after : List Text)
    (hbody : ∀ line ∈ body, '\n' ∉ line) :
    List.Forall₂ (Token.Below row) (lexer.codeTokens (Text.ofLines body))
      (bodyTokens lexer row body after) := by
  rw [codeTokens_ofLines lexer hbody, bodyTokens, bodyTokens, lexLines_down lexer.rules row]
  refine List.rel_append ?_ ?_
  · rw [moveReading, List.forall₂_map_right_iff, List.forall₂_same]
    exact fun token _ => ⟨rfl, rfl, rfl, fun _ => rfl⟩
  · rw [moveReading]
    cases (lexLines lexer.rules none 0 body).2 with
    | none => exact List.Forall₂.nil
    | some s => exact List.Forall₂.cons ⟨rfl, rfl, rfl, fun hkind => absurd rfl hkind⟩ .nil

/-- **Where the search ends in a document it ends in the body, read alone.** -/
theorem locate_header_eq_locate_code (h : Layout lexer t.lines before header body after)
    (shape : CallShape) :
    (locate shape (Cursor.on (lexer.documentTokens t) ⟨before.length, 0⟩)).1 =
      (locate shape (Cursor.start (lexer.codeTokens (Text.ofLines body)))).1.map
        (·.down (before.length + 1)) := by
  have hbelow := below_bodyTokens lexer (before.length + 1) after h.feed_not_mem
  rw [h.locate_header, locate_start, ← callAt?_congr (hbelow.imp fun _ _ => Token.Below.alike)]
  cases hcall : callAt? shape (lexer.codeTokens (Text.ofLines body)) with
  | none => rfl
  | some at' => exact spanAt_below hbelow hcall

/-! ## Where the call is -/

/-- The lines of a body can be cut at its tokens. -/
theorem bodyTokens_cut (hbody : ∀ line ∈ body, '\n' ∉ line) {earlier later : List Token}
    {token : Token} (hkind : token.kind ≠ .string)
    (h : bodyTokens lexer row body after = earlier ++ token :: later) :
    ∃ rest above head tail below,
      CutAt lexer.rules none row body earlier token rest above head tail below ∧
      later = rest ++
        abandoned (lexLines lexer.rules none row body).2 (bodyStop row body after) := by
  rw [bodyTokens] at h
  rcases append_eq_append_cons h with ⟨first, -, habandoned⟩ | ⟨rest, hread, hlater⟩
  · have htoken : token ∈
        abandoned (lexLines lexer.rules none row body).2 (bodyStop row body after) := by
      rw [habandoned]
      simp
    obtain ⟨s, -, -, hstring⟩ := mem_abandoned htoken
    exact absurd hstring hkind
  · obtain ⟨above, head, tail, below, hcut⟩ := lexLines_cut hbody hkind (by simp) hread
    exact ⟨rest, above, head, tail, below, hcut, hlater⟩

/-- The lines of a body among those of the document. -/
theorem getElem?_lines (h : Layout lexer t.lines before header body after) {i : Nat} {line : Text}
    (hline : body[i]? = some line) : t.lines[before.length + 1 + i]? = some line := by
  obtain ⟨hi, -⟩ := List.getElem?_eq_some_iff.mp hline
  rw [h.lines_eq, List.getElem?_append_right (by omega)]
  have hindex : before.length + 1 + i - before.length = i + 1 := by omega
  rw [hindex, List.getElem?_cons_succ, List.getElem?_append_left hi, hline]

end Layout

namespace CutAt

variable {rules : List Rule} {pending : Option OpenString} {ls above below : List Text}
  {earlier later : List Token} {token : Token} {head tail : Text}

theorem getElem?_line (h : CutAt rules pending row ls earlier token later above head tail below) :
    ls[above.length]? = some (head ++ (token.text ++ tail)) := by
  rw [h.lines_eq, List.getElem?_append_right (Nat.le_refl _), Nat.sub_self]
  rfl

theorem start_le_stop (h : CutAt rules pending row ls earlier token later above head tail below) :
    token.start ≤ token.stop := by
  rw [h.start_eq, h.stop_eq]
  exact Or.inr ⟨rfl, Nat.le_add_right _ _⟩

/-- What precedes a token starts before the token stops. -/
theorem start_le_stop_of_mem
    (h : CutAt rules pending row ls earlier token later above head tail below) {first : Token}
    (hfirst : first ∈ earlier) : first.start ≤ token.stop := by
  have hlt := h.before_lt first hfirst
  have hstop := h.start_le_stop
  simp only [Position.le_def, Position.lt_def] at *
  omega

end CutAt

namespace Layout

variable {before body after : List Text} {header : Text} {t : Text}

/-- A token of the body stands on a line between those of the fences. -/
theorem place_of_cut (h : Layout lexer t.lines before header body after)
    {earlier later : List Token} {token : Token} {head tail : Text} {above below : List Text}
    (hcut : CutAt lexer.rules none (before.length + 1) body earlier token later above head tail
      below) :
    t.HasPlace token.start ∧ t.HasPlace token.stop ∧
      before.length < token.start.row ∧ token.start.row = token.stop.row ∧
      token.stop.row < before.length + 1 + body.length := by
  have hline := h.getElem?_lines hcut.getElem?_line
  obtain ⟨hlt, -⟩ := List.getElem?_eq_some_iff.mp hcut.getElem?_line
  rw [hcut.start_eq, hcut.stop_eq]
  refine ⟨⟨_, hline, by simp⟩, ⟨_, hline, by simp⟩, ?_, rfl, ?_⟩
  · dsimp only
    omega
  · dsimp only
    omega

/-- The call of a chunk, and the lines of the body cut at its first and at its last token. -/
theorem exists_call_cut (h : Layout lexer t.lines before header body after) {span : Span}
    (hlocate : (locate shape (Cursor.on (lexer.documentTokens t) ⟨before.length, 0⟩)).1 =
      some span) :
    ∃ earlier first inside close later,
      Call shape (bodyTokens lexer (before.length + 1) body after) earlier first inside close
        later ∧
      span.start = first.start ∧ span.stop = close.stop ∧
      (∃ rest above head tail below, close ∈ rest ∧ CutAt lexer.rules none (before.length + 1) body
        earlier first rest above head tail below) ∧
      ∃ rest above head tail below, CutAt lexer.rules none (before.length + 1) body
        (earlier ++ first :: inside) close rest above head tail below := by
  rw [h.locate_header, Option.bind_eq_some_iff] at hlocate
  obtain ⟨at', hat, hspan⟩ := hlocate
  obtain ⟨earlier, first, inside, close, later, hcall, hparts⟩ := RmdOptions.exists_call hat
  obtain rfl := Option.some.inj (hspan.symm.trans hparts)
  have hclosekind : close.kind ≠ .string := by
    rw [(Token.is_iff.mp hcall.close_is).1]
    decide
  have htokens := hcall.tokens_eq
  obtain ⟨rest, above, head, tail, below, hfirst, hrest⟩ :=
    bodyTokens_cut h.feed_not_mem (by rw [hcall.first_kind]; decide) htokens
  rw [← List.cons_append, ← List.append_assoc] at htokens
  obtain ⟨rest', above', head', tail', below', hclose, -⟩ :=
    bodyTokens_cut h.feed_not_mem hclosekind htokens
  have hle := hclose.start_le_stop_of_mem (List.mem_append_right _ List.mem_cons_self)
  -- only a string can be left open by the body
  have hmem : close ∈ rest := by
    have hlater : close ∈ inside ++ close :: later :=
      List.mem_append_right _ List.mem_cons_self
    rw [hrest] at hlater
    rcases List.mem_append.mp hlater with hlater | hlater
    · exact hlater
    · obtain ⟨_, -, -, hkind⟩ := mem_abandoned hlater
      exact absurd hkind hclosekind
  rw [Span.ofEnds_start_of_le hle, Span.ofEnds_stop_of_le hle]
  exact ⟨earlier, first, inside, close, later, hcall, rfl, rfl,
    ⟨rest, above, head, tail, below, hmem, hfirst⟩, ⟨rest', above', head', tail', below', hclose⟩⟩

/-- **The call of a chunk stands between the header and the closing fence.** -/
theorem exists_call (h : Layout lexer t.lines before header body after) {span : Span}
    (hlocate : (locate shape (Cursor.on (lexer.documentTokens t) ⟨before.length, 0⟩)).1 =
      some span) :
    ∃ earlier first inside close later,
      Call shape (bodyTokens lexer (before.length + 1) body after) earlier first inside close
        later ∧
      span.start = first.start ∧ span.stop = close.stop ∧
      t.HasPlace span.start ∧ t.HasPlace span.stop ∧
      before.length < span.start.row ∧ span.stop.row < before.length + 1 + body.length := by
  obtain ⟨earlier, first, inside, close, later, hcall, hstart, hstop,
    ⟨_, _, _, _, _, -, hfirst⟩, ⟨_, _, _, _, _, hclose⟩⟩ := h.exists_call_cut hlocate
  obtain ⟨hplace, -, habove, -, -⟩ := h.place_of_cut hfirst
  obtain ⟨-, hplace', -, -, hbelow⟩ := h.place_of_cut hclose
  rw [← hstart] at hplace habove
  rw [← hstop] at hplace' hbelow
  exact ⟨earlier, first, inside, close, later, hcall, hstart, hstop, hplace, hplace', habove,
    hbelow⟩

end Layout

end RmdOptions
