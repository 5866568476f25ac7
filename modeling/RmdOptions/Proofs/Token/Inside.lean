import RmdOptions.Proofs.Token.Layout

/-!
# Chunks read alone

What a document holds in a chunk is read as the same rows are read when they are all there is. The
one thing that reading a row leaves to the next is a string that is open; none is when the header
has been read, and no row of the body closes the chunk. So the tokens differ in where they stand,
and in one more thing: a string that is still open at the closing fence stops there, and not at the
end of the row before.

* `Token.isUnclosed`, `Token.IsClosed` — a string that has no closing quote, and one that ends with
  it;
* `OpenString.StaysOpen` — what is known of a string while it is open;
* `lexCode_closed`, `lexLine_closed`, `lexLines_closed` — only such a string becomes a token that is
  not closed;
* `Layout.bodyTokens_nil_eq`, `Layout.bodyTokens_cons_eq` — the tokens of a body that the document
  ends, and of one that a fence ends;
* `Lexer.documentTokens_chunk` — **the tokens of a chunk are those of its rows**.
-/

namespace RmdOptions

variable {rules : List Rule} {lexer : Lexer} {row column : Nat} {quote : Char}

/-! ## Strings without a closing quote -/

/-- Whether a token is a string that no quote closes. -/
def Token.isUnclosed (token : Token) : Bool :=
  match token.kind, token.text with
  | .string, quote :: inner => (closingQuote? quote inner).isNone
  | _, _ => false

/-- A token that stops at a place if no quote closes it, and where it did otherwise. -/
def Token.stopUnclosed (stop : Position) (token : Token) : Token :=
  if token.isUnclosed then { token with stop := stop } else token

@[simp] theorem Token.isUnclosed_move (f : Position → Position) (token : Token) :
    (token.move f).isUnclosed = token.isUnclosed := rfl

theorem Token.stopUnclosed_of_closed {token : Token} (h : token.isUnclosed = false)
    (stop : Position) : token.stopUnclosed stop = token := by
  rw [stopUnclosed, h]
  rfl

/-- A string that ends where the first quote closes it, or a token of another kind. -/
def Token.IsClosed (token : Token) : Prop :=
  token.kind = .string → ∃ quote inner, token.text = quote :: inner ∧
    (quote = '\x22' ∨ quote = '\x27') ∧ closingQuote? quote inner = some inner.length

theorem Token.IsClosed.isUnclosed {token : Token} (h : token.IsClosed) :
    token.isUnclosed = false := by
  rw [Token.isUnclosed]
  split
  · next hkind htext =>
    obtain ⟨quote, inner, heq, -, hclosed⟩ := h hkind
    rw [htext] at heq
    obtain ⟨rfl, rfl⟩ := List.cons.inj heq
    rw [hclosed]
    rfl
  · rfl

/-- What is closed by a quote ends with it. -/
theorem closingQuote?_take_length {t : Text} {n : Nat} (h : closingQuote? quote t = some n) :
    closingQuote? quote (t.take n) = some (t.take n).length := by
  rw [closingQuote?_take h, List.length_take_of_le (closingQuote?_bounds h).2]

/-- A quote is neither a line feed nor a backslash. -/
theorem quote_ne (h : quote = '\x22' ∨ quote = '\x27') : quote ≠ '\n' ∧ quote ≠ '\\' := by
  rcases h with rfl | rfl
  · decide
  · decide

/-- A string goes on behind a line in which it is not closed, and behind the line feed. -/
theorem closingQuote?_feed (hquote : quote ≠ '\n') {line : Text}
    (h : closingQuote? quote line = none) (next : Text) :
    closingQuote? quote (line ++ '\n' :: next) =
      (closingQuote? quote next).map (· + (line.length + 1)) := by
  fun_induction closingQuote? quote line with
  | case1 =>
    rw [List.nil_append, closingQuote?_cons quote (by decide), if_neg (Ne.symm hquote)]
    rfl
  | case2 => rfl
  | case3 c rest ih =>
    rw [Option.map_eq_none_iff] at h
    simp only [List.cons_append, closingQuote?, ih h, Option.map_map, List.length_cons]
    rfl
  | case4 rest _ _ => cases h
  | case5 c rest hlast hpair hc ih =>
    have hescape := Rule.ne_backslash hlast hpair
    rw [Option.map_eq_none_iff] at h
    rw [List.cons_append, closingQuote?_cons quote hescape, if_neg hc, ih h, Option.map_map]
    rfl

/-- A string is open: whatever comes next, the closing quote is looked for there. -/
structure OpenString.StaysOpen (s : OpenString) : Prop where
  /-- it starts with one of the two quotes -/
  quote_eq : s.quote = '\x22' ∨ s.quote = '\x27'
  /-- what has been read behind the quote ends with a line feed and does not close it -/
  exists_written : ∃ written, s.text = s.quote :: (written ++ ['\n']) ∧
    ∀ next, closingQuote? s.quote (written ++ '\n' :: next) =
      (closingQuote? s.quote next).map (· + (written.length + 1))

namespace OpenString.StaysOpen

/-- It stays open on a line that does not close it. -/
theorem line {s : OpenString} (h : s.StaysOpen) {line : Text}
    (hline : closingQuote? s.quote line = none) :
    ({ s with text := s.text ++ line ++ ['\n'] } : OpenString).StaysOpen := by
  obtain ⟨written, htext, hread⟩ := h.exists_written
  refine ⟨h.quote_eq, written ++ '\n' :: line, by simp [htext], fun next => ?_⟩
  have hline := closingQuote?_feed (quote_ne h.quote_eq).1 hline next
  dsimp only
  rw [List.append_assoc, List.cons_append, hread, hline, Option.map_map]
  congr 1
  funext n
  simp only [Function.comp_apply, List.length_append, List.length_cons]
  omega

/-- The token that it becomes when a line closes it. -/
theorem isClosed {s : OpenString} (h : s.StaysOpen) {line : Text} {n : Nat}
    (hline : closingQuote? s.quote line = some n) (stop : Position) :
    (⟨.string, s.text ++ line.take n, s.start, stop⟩ : Token).IsClosed := by
  intro _
  obtain ⟨written, htext, hread⟩ := h.exists_written
  refine ⟨s.quote, written ++ '\n' :: line.take n, by simp [htext], h.quote_eq, ?_⟩
  rw [hread, closingQuote?_take_length hline, Option.map_some, List.length_append,
    List.length_cons]
  congr 1
  omega

/-- What has been read of it does not close it. -/
theorem exists_text {s : OpenString} (h : s.StaysOpen) : ∃ written,
    s.text = s.quote :: written ++ ['\n'] ∧ closingQuote? s.quote written = none := by
  obtain ⟨written, htext, hread⟩ := h.exists_written
  refine ⟨written, htext, ?_⟩
  cases hclosed : closingQuote? s.quote written with
  | none => rfl
  | some n =>
    have hfeed := closingQuote?_append_of_le (q := []) (by rwa [List.append_nil])
      (closingQuote?_bounds hclosed).2 ['\n']
    rw [hread] at hfeed
    cases hfeed

/-- The token that it becomes when nothing closes it. -/
theorem isUnclosed_abandon {s : OpenString} (h : s.StaysOpen) (stop : Position) :
    (s.abandon stop).isUnclosed = true := by
  obtain ⟨written, htext, hopen⟩ := h.exists_text
  rw [OpenString.abandon_eq htext, Token.isUnclosed]
  simp [hopen]

end OpenString.StaysOpen

/-! ## Lines -/

theorem quote_of_lexeme?_eq_none {c : Char} {rest : Text} (h : lexeme? rules (c :: rest) = none) :
    (c = '\x22' ∨ c = '\x27') ∧ closingQuote? c rest = none := by
  rw [lexeme?] at h
  split at h
  · next hquote => exact ⟨hquote, Option.map_eq_none_iff.mp h⟩
  · split at h <;> cases h

theorem isClosed_of_lexeme? {c : Char} {rest : Text} {kind : TokenKind} {n : Nat}
    (h : lexeme? rules (c :: rest) = some (kind, n)) (start stop : Position) :
    (⟨kind, (c :: rest).take n, start, stop⟩ : Token).IsClosed := by
  rw [lexeme?] at h
  intro hkind
  split at h
  · next hquote =>
    obtain ⟨m, hm, heq⟩ := Option.map_eq_some_iff.mp h
    cases heq
    exact ⟨c, rest.take m, rfl, hquote, closingQuote?_take_length hm⟩
  · -- no rule reads a string
    refine absurd hkind ?_
    dsimp only
    split at h
    · next rule m _ =>
      cases h
      unfold TokenKind.ofLexeme
      split
      · decide
      · cases rule <;> decide
    · cases h
      decide

/-- **Strings are tokens when they are closed**, and one that the line leaves open stays so. -/
theorem lexCode_closed (rules : List Rule) (row column : Nat) (t : Text) :
    (∀ token ∈ (lexCode rules row column t).1, token.IsClosed) ∧
      ∀ s ∈ (lexCode rules row column t).2, s.StaysOpen := by
  induction column, t using lex_induction rules with
  | nil column => simp
  | white column c rest hc ih =>
    rw [lexCode_white hc]
    exact ih
  | opened column c rest hc h =>
    obtain ⟨hquote, hopen⟩ := quote_of_lexeme?_eq_none h
    rw [lexCode_open hc h]
    refine ⟨by simp, ?_⟩
    rintro s ⟨⟩
    exact ⟨hquote, rest, rfl, closingQuote?_feed (quote_ne hquote).1 hopen⟩
  | token column c rest kind n hc h ih =>
    rw [lexCode_token hc h]
    refine ⟨?_, ih.2⟩
    intro token htoken
    rw [precede_fst, List.mem_append, List.mem_singleton] at htoken
    rcases htoken with rfl | htoken
    · exact isClosed_of_lexeme? h _ _
    · exact ih.1 token htoken

theorem lexLine_closed (rules : List Rule) (row : Nat) {pending : Option OpenString}
    (hpending : ∀ s ∈ pending, s.StaysOpen) (line : Text) :
    (∀ token ∈ (lexLine rules pending row line).1, token.IsClosed) ∧
      ∀ s ∈ (lexLine rules pending row line).2, s.StaysOpen := by
  cases pending with
  | none => exact lexCode_closed rules row 0 line
  | some s =>
    have hs : s.StaysOpen := hpending s rfl
    simp only [lexLine]
    cases hline : closingQuote? s.quote line with
    | none =>
      refine ⟨by simp, ?_⟩
      rintro left ⟨⟩
      exact hs.line hline
    | some n =>
      obtain ⟨htokens, hleft⟩ := lexCode_closed rules row n (line.drop n)
      exact ⟨List.forall_mem_cons.mpr ⟨hs.isClosed hline _, htokens⟩, hleft⟩

theorem lexLines_closed (rules : List Rule) (row : Nat) {pending : Option OpenString}
    (hpending : ∀ s ∈ pending, s.StaysOpen) (ls : List Text) :
    (∀ token ∈ (lexLines rules pending row ls).1, token.IsClosed) ∧
      ∀ s ∈ (lexLines rules pending row ls).2, s.StaysOpen := by
  induction ls generalizing pending row with
  | nil => exact ⟨nofun, hpending⟩
  | cons line ls ih =>
    obtain ⟨htokens, hleft⟩ := lexLine_closed rules row hpending line
    obtain ⟨hmore, hlast⟩ := ih (row + 1) hleft
    rw [lexLines_cons]
    refine ⟨fun token htoken => ?_, hlast⟩
    rcases List.mem_append.mp htoken with htoken | htoken
    · exact htokens token htoken
    · exact hmore token htoken

/-! ## Bodies -/

theorem lastPlace_add (rows row : Nat) (ls : List Text) :
    lastPlace (row + rows) ls = (lastPlace row ls).down rows := by
  induction ls generalizing row with
  | nil => rfl
  | cons line more ih =>
    cases more with
    | nil => rfl
    | cons next more =>
      rw [lastPlace, lastPlace, Nat.add_right_comm]
      exact ih (row + 1)

theorem abandoned_move (f : Position → Position) (left : Option OpenString) (stop : Position) :
    abandoned (left.map (OpenString.move f)) (f stop) =
      (abandoned left stop).map (Token.move f) := by
  cases left <;> rfl

namespace Layout

variable {body after : List Text}

/-- Only a string that the body leaves open is not closed, and it is the last token. -/
theorem isUnclosed_bodyTokens {i : Nat} {token : Token}
    (htoken : (bodyTokens lexer row body after)[i]? = some token)
    (hunclosed : token.isUnclosed = true) : i + 1 = (bodyTokens lexer row body after).length := by
  obtain ⟨hclosed, -⟩ := @lexLines_closed lexer.rules row none nofun body
  rw [bodyTokens] at htoken ⊢
  rcases Nat.lt_or_ge i (lexLines lexer.rules none row body).1.length with hlt | hge
  · rw [List.getElem?_append_left hlt] at htoken
    rw [(hclosed token (List.mem_of_getElem? htoken)).isUnclosed] at hunclosed
    cases hunclosed
  · rw [List.getElem?_append_right hge] at htoken
    obtain ⟨hlt, -⟩ := List.getElem?_eq_some_iff.mp htoken
    have hone (left : Option OpenString) (stop : Position) : (abandoned left stop).length ≤ 1 := by
      cases left <;> simp [abandoned]
    have hlast := hone (lexLines lexer.rules none row body).2 (bodyStop row body after)
    rw [List.length_append]
    omega

/-- **The tokens of a body that the document ends** are those of its rows, further down. -/
theorem bodyTokens_nil_eq (lexer : Lexer) (row : Nat) (body : List Text) :
    bodyTokens lexer row body [] =
      (bodyTokens lexer 0 body []).map (Token.move (·.down row)) := by
  have hstop : bodyStop row body [] = (bodyStop 0 body []).down row := by
    rw [bodyStop, bodyStop, ← lastPlace_add, Nat.zero_add]
  rw [bodyTokens, bodyTokens, lexLines_down lexer.rules row, hstop, List.map_append]
  congr 1
  exact abandoned_move _ _ _

/-- **The tokens of a body that a fence ends** are those of its rows, further down, but an open
string stops at the fence. -/
theorem bodyTokens_cons_eq (lexer : Lexer) (row : Nat) (body : List Text) (fence : Text)
    (more : List Text) :
    bodyTokens lexer row body (fence :: more) = (bodyTokens lexer 0 body []).map fun token =>
      (token.move (·.down row)).stopUnclosed ⟨row + body.length, 0⟩ := by
  obtain ⟨hclosed, hleft⟩ := @lexLines_closed lexer.rules 0 none nofun body
  rw [bodyTokens, bodyTokens, lexLines_down lexer.rules row, List.map_append]
  congr 1
  · refine List.map_congr_left fun token htoken => ?_
    have hmoved : (token.move (·.down row)).isUnclosed = false :=
      (hclosed token htoken).isUnclosed
    exact (Token.stopUnclosed_of_closed hmoved _).symm
  · dsimp only [moveReading, bodyStop]
    cases hopen : (lexLines lexer.rules none 0 body).2 with
    | none => rfl
    | some s =>
      have hunclosed := (hleft s hopen).isUnclosed_abandon (lastPlace 0 body)
      simp only [abandoned, Option.map_some, Option.toList_some, List.map_cons, List.map_nil,
        Token.stopUnclosed, Token.isUnclosed_move, hunclosed, if_true]
      rfl

end Layout

namespace Lexer

/-- **The tokens of a chunk are those of its rows.** Behind the header of a chunk stand the tokens
of the rows up to its end, read alone and moved down to where they are; then comes the row that
closes the chunk, or nothing if none does. If one does, a string that is open there stops at it.
Only the last of the tokens can be such a string. -/
theorem documentTokens_chunk (lexer : Lexer) {t : Text} {chunk : Chunk}
    (hchunk : chunk ∈ Chunk.ofTokens (lexer.documentTokens t)) :
    let below := chunk.header.row + 1
    let rows := (t.lines.take (chunk.endRow.getD t.lines.length)).drop below
    let code := lexer.codeTokens (Text.ofLines rows)
    (∀ (i : Nat) (token : Token), code[i]? = some token → token.isUnclosed = true →
        i + 1 = code.length) ∧
      ∃ before header inside after,
        lexer.documentTokens t = before ++ header :: (inside ++ after) ∧
        header.kind = .chunkStart ∧ header.start = chunk.header ∧
        (∀ token ∈ inside, token.IsCode) ∧
        match chunk.endRow with
        | none => after = [] ∧ inside = code.map (Token.move (·.down below))
        | some row =>
          (∃ fence more, after = fence :: more ∧ fence.kind = .chunkEnd ∧ fence.start = ⟨row, 0⟩) ∧
            inside = code.map fun token => (token.move (·.down below)).stopUnclosed ⟨row, 0⟩ := by
  intro below rows code
  obtain ⟨above, header, body, after, hlayout, hheader, hend⟩ := exists_layout hchunk
  have hrows : rows = body := by
    simp only [rows, below, hheader, hend]
    exact hlayout.rows_eq
  have hbody : ∀ line ∈ body, '\n' ∉ line := hlayout.feed_not_mem
  have hcode : code = Layout.bodyTokens lexer 0 body [] := by
    simp only [code, hrows]
    exact Layout.codeTokens_ofLines lexer hbody
  have hbelow : below = above.length + 1 := by
    simp only [below, hheader]
  rw [hcode, hbelow, hend]
  refine ⟨fun i token => Layout.isUnclosed_bodyTokens, _, _, _, _, hlayout.documentTokens_eq, rfl,
    hheader.symm, Layout.bodyTokens_isCode, ?_⟩
  cases after with
  | nil => exact ⟨rfl, Layout.bodyTokens_nil_eq lexer _ body⟩
  | cons fence more =>
    exact ⟨⟨_, _, rfl, rfl, rfl⟩, Layout.bodyTokens_cons_eq lexer _ body fence more⟩

/-- Read alone, the string stops at the end of its row; in the chunk it stops at the fence. -/
theorem documentTokens_chunk_sample :
    let lexer : Lexer := closedBy ['\x60', '\x60', '\x60']
    let t : Text := "\x60\x60\x60\x7br\x7d\nx \x22a\n\x60\x60\x60".toList
    lexer.codeTokens "x \x22a".toList =
        [⟨.identifier, ['x'], ⟨0, 0⟩, ⟨0, 1⟩⟩, ⟨.string, ['\x22', 'a'], ⟨0, 2⟩, ⟨0, 4⟩⟩] ∧
      ∃ before header inside after,
        lexer.documentTokens t = before ++ header :: (inside ++ after) ∧
        header.kind = .chunkStart ∧ header.start = ⟨0, 0⟩ ∧
        inside =
          [⟨.identifier, ['x'], ⟨1, 0⟩, ⟨1, 1⟩⟩, ⟨.string, ['\x22', 'a'], ⟨1, 2⟩, ⟨2, 0⟩⟩] := by
  intro lexer t
  have hcode : lexer.codeTokens "x \x22a".toList =
      [⟨.identifier, ['x'], ⟨0, 0⟩, ⟨0, 1⟩⟩, ⟨.string, ['\x22', 'a'], ⟨0, 2⟩, ⟨0, 4⟩⟩] := by
    decide +kernel
  have hchunk : (⟨⟨0, 0⟩, some 2, ['r'], none⟩ : Chunk) ∈
      Chunk.ofTokens (lexer.documentTokens t) := by
    decide +kernel
  have hrows : Text.ofLines ((t.lines.take 2).drop 1) = "x \x22a".toList := by decide +kernel
  obtain ⟨-, before, header, inside, after, htokens, hkind, hstart, -, -, hinside⟩ :=
    lexer.documentTokens_chunk hchunk
  refine ⟨hcode, before, header, inside, after, htokens, hkind, hstart, ?_⟩
  rw [hinside]
  dsimp only [Option.getD_some]
  rw [hrows, hcode]
  decide +kernel

end Lexer

end RmdOptions
