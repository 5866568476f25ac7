import RmdOptions.Token.Lexer
import RmdOptions.Proofs.Token.Rule

/-!
# Reading code

A line of code is read token by token, and several lines are read one after another, the string that
one leaves open passing to the next.

* `lexeme?`, `lex_induction` — the token at the start of a text, and induction along these tokens;
* `lexLines`, `lexFrom` — several lines, and those from the middle of a line on;
* `lexLines_move` — where the lines stand matters for the places of the tokens only;
* `CutAt`, `lexLines_cut` — the lines before and after a token, and what is read when others follow
  it.
-/

namespace RmdOptions

variable {rules : List Rule} {row column : Nat}

/-- What reading gives: tokens, and the string that is left open. -/
abbrev Reading : Type := List Token × Option OpenString

/-- A reading with tokens that come before it. -/
def precede (tokens : List Token) (r : Reading) : Reading := (tokens ++ r.1, r.2)

@[simp] theorem precede_nil (r : Reading) : precede [] r = r := rfl

@[simp] theorem precede_precede (ts us : List Token) (r : Reading) :
    precede ts (precede us r) = precede (ts ++ us) r := by
  simp [precede]

@[simp] theorem precede_fst (ts : List Token) (r : Reading) : (precede ts r).1 = ts ++ r.1 := rfl

@[simp] theorem precede_snd (ts : List Token) (r : Reading) : (precede ts r).2 = r.2 := rfl

/-! ## Closing quotes -/

theorem closingQuote?_bounds {quote : Char} {t : Text} {n : Nat}
    (h : closingQuote? quote t = some n) :
    1 ≤ n ∧ n ≤ t.length := by
  fun_induction closingQuote? quote t generalizing n with
  | case1 => cases h
  | case2 => cases h
  | case3 c rest ih =>
    obtain ⟨m, hm, rfl⟩ := Option.map_eq_some_iff.mp h
    have := ih hm
    simp only [List.length_cons]
    omega
  | case4 rest _ _ =>
    cases h
    simp
  | case5 c rest _ _ _ ih =>
    obtain ⟨m, hm, rfl⟩ := Option.map_eq_some_iff.mp h
    have := ih hm
    simp only [List.length_cons]
    omega

theorem closingQuote?_cons (quote : Char) {c : Char} (hc : c ≠ '\\') (rest : Text) :
    closingQuote? quote (c :: rest) =
      if c = quote then some 1 else (closingQuote? quote rest).map (· + 1) := by
  rw [closingQuote?]
  · exact fun h => absurd h hc
  · exact fun _ _ h => absurd h hc

/-- A string that is closed in front of some text is closed there whatever follows. -/
theorem closingQuote?_append_of_le {quote : Char} {p q : Text} {n : Nat}
    (h : closingQuote? quote (p ++ q) = some n) (hn : n ≤ p.length) (r : Text) :
    closingQuote? quote (p ++ r) = some n := by
  fun_induction closingQuote? quote p generalizing n with
  | case1 =>
    have := closingQuote?_bounds h
    simp only [List.length_nil] at hn
    omega
  | case2 =>
    cases q with
    | nil => simp [closingQuote?] at h
    | cons c q =>
      simp only [List.cons_append, List.nil_append, closingQuote?] at h
      obtain ⟨m, -, rfl⟩ := Option.map_eq_some_iff.mp h
      simp only [List.length_cons, List.length_nil] at hn
      omega
  | case3 c rest ih =>
    simp only [List.cons_append, closingQuote?] at h ⊢
    obtain ⟨m, hm, rfl⟩ := Option.map_eq_some_iff.mp h
    rw [ih hm (by simp only [List.length_cons] at hn; omega)]
    rfl
  | case4 rest hlast hpair =>
    have hescape := Rule.ne_backslash hlast hpair
    rw [List.cons_append, closingQuote?_cons quote hescape, if_pos rfl] at h ⊢
    exact h
  | case5 c rest hlast hpair hc ih =>
    have hescape := Rule.ne_backslash hlast hpair
    rw [List.cons_append, closingQuote?_cons quote hescape, if_neg hc] at h ⊢
    obtain ⟨m, hm, rfl⟩ := Option.map_eq_some_iff.mp h
    rw [ih hm (by simp only [List.length_cons] at hn; omega)]
    rfl

/-- A string is closed within what belongs to it. -/
theorem closingQuote?_take {quote : Char} {t : Text} {n : Nat}
    (h : closingQuote? quote t = some n) : closingQuote? quote (t.take n) = some n := by
  have hle : n ≤ (t.take n).length :=
    Nat.le_of_eq (List.length_take_of_le (closingQuote?_bounds h).2).symm
  have htake := closingQuote?_append_of_le (q := t.drop n) (by rwa [List.take_append_drop]) hle []
  rwa [List.append_nil] at htake

/-! ## The first token of a text -/

/-- The kind and the length of the token that a text starts with, or nothing when that is a string
which stays open. -/
def lexeme? (rules : List Rule) : Text → Option (TokenKind × Nat)
  | [] => none
  | c :: rest =>
    if c = '\x22' ∨ c = '\x27' then (closingQuote? c rest).map fun n => (.string, n + 1)
    else
      match Rule.firstMatch? rules (c :: rest) with
      | some (rule, n) => some (rule.kind.ofLexeme ((c :: rest).take n), n)
      | none => some (.unknown, 1)

theorem lexeme?_bounds {t : Text} {kind : TokenKind} {n : Nat}
    (h : lexeme? rules t = some (kind, n)) :
    1 ≤ n ∧ n ≤ t.length := by
  unfold lexeme? at h
  split at h
  · cases h
  · next c rest =>
    split at h
    · obtain ⟨m, hm, heq⟩ := Option.map_eq_some_iff.mp h
      cases heq
      have := closingQuote?_bounds hm
      simp only [List.length_cons]
      omega
    · split at h
      · next rule m hm =>
        cases h
        exact Rule.firstMatch?_bounds hm
      · cases h
        simp

@[simp] theorem lexCode_nil : lexCode rules row column [] = ([], none) := by
  rw [lexCode]

theorem lexCode_white {c : Char} (hc : isWhiteSpace c = true) (rest : Text) :
    lexCode rules row column (c :: rest) = lexCode rules row (column + 1) rest := by
  rw [lexCode, if_pos hc]

theorem lexCode_open {c : Char} {rest : Text} (hc : isWhiteSpace c = false)
    (h : lexeme? rules (c :: rest) = none) :
    lexCode rules row column (c :: rest) = ([], some ⟨c, ⟨row, column⟩, c :: rest ++ ['\n']⟩) := by
  rw [lexCode, if_neg (by simp [hc])]
  rw [lexeme?] at h
  split at h
  · next hquote =>
    rw [Option.map_eq_none_iff] at h
    rw [if_pos hquote, h]
  · split at h <;> cases h

theorem lexCode_token {c : Char} {rest : Text} {kind : TokenKind} {n : Nat}
    (hc : isWhiteSpace c = false) (h : lexeme? rules (c :: rest) = some (kind, n)) :
    lexCode rules row column (c :: rest) =
      precede [⟨kind, (c :: rest).take n, ⟨row, column⟩, ⟨row, column + n⟩⟩]
        (lexCode rules row (column + n) ((c :: rest).drop n)) := by
  obtain ⟨k, rfl⟩ : ∃ k, n = k + 1 := ⟨n - 1, by have := (lexeme?_bounds h).1; omega⟩
  have hcolumn : column + 1 + k = column + (k + 1) := by omega
  rw [lexCode, if_neg (by simp [hc])]
  rw [lexeme?] at h
  by_cases hquote : c = '\x22' ∨ c = '\x27'
  · rw [if_pos hquote] at h ⊢
    obtain ⟨m, hclosing, heq⟩ := Option.map_eq_some_iff.mp h
    cases heq
    rw [hclosing, ← hcolumn]
    rfl
  · rw [if_neg hquote] at h ⊢
    cases hmatch : Rule.firstMatch? rules (c :: rest) with
    | some found =>
      obtain ⟨rule, m⟩ := found
      rw [hmatch] at h
      cases h
      rw [← hcolumn]
      rfl
    | none =>
      rw [hmatch] at h
      cases h
      rfl

/-- Induction along the tokens of a text: it is empty, starts with white space, with a string that
stays open, or with a token. -/
@[elab_as_elim]
theorem lex_induction (rules : List Rule) {motive : Nat → Text → Prop}
    (nil : ∀ column, motive column [])
    (white : ∀ column c rest, isWhiteSpace c = true → motive (column + 1) rest →
      motive column (c :: rest))
    (opened : ∀ column c rest, isWhiteSpace c = false → lexeme? rules (c :: rest) = none →
      motive column (c :: rest))
    (token : ∀ column c rest kind n, isWhiteSpace c = false →
      lexeme? rules (c :: rest) = some (kind, n) →
      motive (column + n) ((c :: rest).drop n) → motive column (c :: rest))
    (column : Nat) (t : Text) : motive column t := by
  match t with
  | [] => exact nil column
  | c :: rest =>
    cases hc : isWhiteSpace c with
    | true =>
      exact white column c rest hc (lex_induction rules nil white opened token (column + 1) rest)
    | false =>
      cases h : lexeme? rules (c :: rest) with
      | none => exact opened column c rest hc h
      | some lexeme =>
        have hn := (lexeme?_bounds h).1
        exact token column c rest lexeme.1 lexeme.2 hc h
          (lex_induction rules nil white opened token (column + lexeme.2) _)
termination_by t.length
decreasing_by
  · rw [List.length_drop]
    exact Nat.sub_lt (Nat.succ_pos _) hn
  · exact Nat.lt_succ_self _

/-! ## Rows and kinds -/

/-- Whether a token can come from a line of code: it is no fence row. -/
def Token.IsCode (t : Token) : Prop := t.kind ≠ .chunkStart ∧ t.kind ≠ .chunkEnd

/-- Whether a token comes from a line of code and not from prose. -/
def Token.IsLexeme (t : Token) : Prop := t.IsCode ∧ t.kind ≠ .prose

theorem Token.IsCode.isBoundary {t : Token} (h : t.IsCode) : t.isBoundary = false := by
  simpa [Token.isBoundary] using h.2

theorem kind_of_lexeme? {t : Text} {kind : TokenKind} {n : Nat}
    (h : lexeme? rules t = some (kind, n)) :
    (kind ≠ .chunkStart ∧ kind ≠ .chunkEnd) ∧ kind ≠ .prose := by
  unfold lexeme? at h
  split at h
  · cases h
  · split at h
    · obtain ⟨m, -, heq⟩ := Option.map_eq_some_iff.mp h
      cases heq
      decide
    · split at h
      · next rule m _ =>
        cases h
        unfold TokenKind.ofLexeme
        split
        · decide
        · cases rule <;> decide
      · cases h
        decide

/-- The tokens of a line start on its row and are lexemes, and a string that it leaves open starts
on its row. -/
theorem lexCode_row (rules : List Rule) (row column : Nat) (t : Text) :
    (∀ token ∈ (lexCode rules row column t).1, token.start.row = row ∧ token.IsLexeme) ∧
      ∀ s ∈ (lexCode rules row column t).2, s.start.row = row := by
  induction column, t using lex_induction rules with
  | nil column => simp
  | white column c rest hc ih =>
    rw [lexCode_white hc]
    exact ih
  | opened column c rest hc h =>
    rw [lexCode_open hc h]
    simp
  | token column c rest kind n hc h ih =>
    rw [lexCode_token hc h]
    refine ⟨?_, ih.2⟩
    intro token htoken
    rw [precede_fst, List.mem_append, List.mem_singleton] at htoken
    rcases htoken with rfl | htoken
    · exact ⟨rfl, kind_of_lexeme? h⟩
    · exact ih.1 token htoken

/-! ## Moving -/

/-- A token with its places moved. -/
def Token.move (f : Position → Position) (t : Token) : Token :=
  { t with start := f t.start, stop := f t.stop }

@[simp] theorem Token.move_kind (f : Position → Position) (t : Token) :
    (t.move f).kind = t.kind := rfl

@[simp] theorem Token.move_text (f : Position → Position) (t : Token) :
    (t.move f).text = t.text := rfl

/-- A string that is still open, with its start moved. -/
def OpenString.move (f : Position → Position) (s : OpenString) : OpenString :=
  { s with start := f s.start }

/-- A reading with its places moved. -/
def moveReading (f : Position → Position) (r : Reading) : Reading :=
  (r.1.map (Token.move f), r.2.map (OpenString.move f))

theorem moveReading_precede (f : Position → Position) (ts : List Token) (r : Reading) :
    moveReading f (precede ts r) = precede (ts.map (Token.move f)) (moveReading f r) := by
  simp [moveReading, precede]

/-- Where a text stands matters for the places of its tokens only. -/
theorem lexCode_move (rules : List Rule) (f : Position → Position) {row' : Nat} (t : Text)
    (column column' : Nat)
    (hf : ∀ n, f ⟨row, column + n⟩ = ⟨row', column' + n⟩) :
    lexCode rules row' column' t = moveReading f (lexCode rules row column t) := by
  induction column, t using lex_induction rules generalizing column' with
  | nil column => simp [moveReading]
  | white column c rest hc ih =>
    rw [lexCode_white hc, lexCode_white hc]
    refine ih _ fun n => ?_
    rw [Nat.add_assoc, hf, Nat.add_assoc]
  | opened column c rest hc h =>
    have hstart : f ⟨row, column⟩ = ⟨row', column'⟩ := hf 0
    rw [lexCode_open hc h, lexCode_open hc h]
    simp [moveReading, OpenString.move, hstart]
  | token column c rest kind n hc h ih =>
    have hstart : f ⟨row, column⟩ = ⟨row', column'⟩ := hf 0
    rw [lexCode_token hc h, lexCode_token hc h, moveReading_precede,
      ih (column' + n) fun m => by rw [Nat.add_assoc, hf, Nat.add_assoc]]
    simp [Token.move, hstart, hf]

theorem lexLine_move (rules : List Rule) (f : Position → Position) {row' : Nat}
    (pending : Option OpenString) (line : Text) (hf : ∀ n, f ⟨row, n⟩ = ⟨row', n⟩) :
    lexLine rules (pending.map (OpenString.move f)) row' line =
      moveReading f (lexLine rules pending row line) := by
  cases pending with
  | none => exact lexCode_move rules f line 0 0 fun n => hf (0 + n)
  | some s =>
    simp only [Option.map_some, lexLine, OpenString.move]
    cases h : closingQuote? s.quote line with
    | none => rfl
    | some n =>
      have hrest := lexCode_move rules f (line.drop n) n n fun m => hf (n + m)
      simp only [hrest, moveReading, Token.move, List.map_cons, hf]

/-! ## Several lines -/

/-- Reads lines of code from row `row` on, the first of them perhaps inside a string. -/
def lexLines (rules : List Rule) (pending : Option OpenString) (row : Nat) : List Text → Reading
  | [] => ([], pending)
  | line :: more =>
    let first := lexLine rules pending row line
    precede first.1 (lexLines rules first.2 (row + 1) more)

@[simp] theorem lexLines_nil (pending : Option OpenString) :
    lexLines rules pending row [] = ([], pending) := rfl

theorem lexLines_cons (pending : Option OpenString) (line : Text) (more : List Text) :
    lexLines rules pending row (line :: more) =
      precede (lexLine rules pending row line).1
        (lexLines rules (lexLine rules pending row line).2 (row + 1) more) := rfl

theorem lexLines_append (pending : Option OpenString) (ls ms : List Text) :
    lexLines rules pending row (ls ++ ms) =
      precede (lexLines rules pending row ls).1
        (lexLines rules (lexLines rules pending row ls).2 (row + ls.length) ms) := by
  induction ls generalizing pending row with
  | nil => rfl
  | cons line ls ih =>
    rw [List.cons_append, lexLines_cons, ih, lexLines_cons, List.length_cons,
      Nat.add_right_comm row, ← Nat.add_assoc]
    simp

theorem lexLines_move (rules : List Rule) (f : Position → Position) {row row' : Nat}
    (pending : Option OpenString) (ls : List Text) (hf : ∀ i n, f ⟨row + i, n⟩ = ⟨row' + i, n⟩) :
    lexLines rules (pending.map (OpenString.move f)) row' ls =
      moveReading f (lexLines rules pending row ls) := by
  induction ls generalizing pending row row' with
  | nil => rfl
  | cons line ls ih =>
    have hrest (i n : Nat) : f ⟨row + 1 + i, n⟩ = ⟨row' + 1 + i, n⟩ := by
      rw [Nat.add_assoc, hf, Nat.add_assoc]
    have hline := lexLine_move rules f pending line (hf 0)
    rw [lexLines_cons, lexLines_cons, moveReading_precede, ← ih _ hrest, Nat.add_zero] at *
    rw [hline]
    rfl

/-- Lines that begin outside all strings are read in the same way on any row. -/
theorem lexLines_down (rules : List Rule) (row : Nat) (ls : List Text) :
    lexLines rules none row ls = moveReading (·.down row) (lexLines rules none 0 ls) := by
  refine lexLines_move rules (·.down row) none ls fun i n => ?_
  simp only [Position.down]
  congr 1
  omega

theorem lexLine_isLexeme (pending : Option OpenString) (line : Text) :
    ∀ token ∈ (lexLine rules pending row line).1, token.IsLexeme := by
  cases pending with
  | none => exact fun token htoken => ((lexCode_row rules row 0 line).1 token htoken).2
  | some s =>
    simp only [lexLine]
    cases closingQuote? s.quote line with
    | none => exact fun _ htoken => absurd htoken List.not_mem_nil
    | some n =>
      intro token htoken
      rcases List.mem_cons.mp htoken with rfl | htoken
      · have hstring : (TokenKind.string ≠ .chunkStart ∧ TokenKind.string ≠ .chunkEnd) ∧
            TokenKind.string ≠ .prose := by decide
        exact hstring
      · exact ((lexCode_row rules row n (line.drop n)).1 token htoken).2

theorem lexLine_isCode (pending : Option OpenString) (line : Text) :
    ∀ token ∈ (lexLine rules pending row line).1, token.IsCode :=
  fun token htoken => (lexLine_isLexeme pending line token htoken).1

/-- Lines of code hold no fence rows. -/
theorem lexLines_isCode (pending : Option OpenString) (ls : List Text) :
    ∀ token ∈ (lexLines rules pending row ls).1, token.IsCode := by
  induction ls generalizing pending row with
  | nil => exact fun _ htoken => absurd htoken List.not_mem_nil
  | cons line ls ih =>
    intro token htoken
    rw [lexLines_cons, precede_fst, List.mem_append] at htoken
    rcases htoken with htoken | htoken
    · exact lexLine_isCode pending line token htoken
    · exact ih _ token htoken

theorem lexLine_row (rules : List Rule) {base : Nat} {pending : Option OpenString} (line : Text)
    (hbase : base ≤ row)
    (hpending : ∀ s ∈ pending, base ≤ s.start.row ∧ s.start.row < row) :
    (∀ token ∈ (lexLine rules pending row line).1,
        base ≤ token.start.row ∧ token.start.row < row + 1) ∧
      ∀ s ∈ (lexLine rules pending row line).2,
        base ≤ s.start.row ∧ s.start.row < row + 1 := by
  have hcode (column : Nat) (t : Text) :
      (∀ token ∈ (lexCode rules row column t).1,
          base ≤ token.start.row ∧ token.start.row < row + 1) ∧
        ∀ s ∈ (lexCode rules row column t).2, base ≤ s.start.row ∧ s.start.row < row + 1 := by
    obtain ⟨htokens, hleft⟩ := lexCode_row rules row column t
    refine ⟨fun token htoken => ?_, fun s hs => ?_⟩
    · have := (htokens token htoken).1
      omega
    · have := hleft s hs
      omega
  cases pending with
  | none => exact hcode 0 line
  | some s =>
    obtain ⟨hfrom, hto⟩ := hpending s rfl
    simp only [lexLine]
    cases h : closingQuote? s.quote line with
    | none =>
      refine ⟨fun _ htoken => absurd htoken List.not_mem_nil, fun s' hs' => ?_⟩
      cases hs'
      exact ⟨hfrom, Nat.lt_succ_of_lt hto⟩
    | some n =>
      refine ⟨fun token htoken => ?_, (hcode n (line.drop n)).2⟩
      rcases List.mem_cons.mp htoken with rfl | htoken
      · exact ⟨hfrom, Nat.lt_succ_of_lt hto⟩
      · exact (hcode n (line.drop n)).1 token htoken

/-! ## Cutting at a token -/

/-- A token that ends in front of `q` is read in front of `r` too. -/
theorem lexeme?_replace {p q r : Text} {kind : TokenKind} {n : Nat} (hfeed : '\n' ∉ p)
    (h : Rule.Replaceable q r) (hlexeme : lexeme? rules (p ++ q) = some (kind, n))
    (hn : n ≤ p.length) : lexeme? rules (p ++ r) = some (kind, n) := by
  have hpos := (lexeme?_bounds hlexeme).1
  have hp : p ≠ [] := by
    rintro rfl
    simp only [List.length_nil] at hn
    omega
  obtain ⟨c, p, rfl⟩ := List.exists_cons_of_ne_nil hp
  rw [List.cons_append, lexeme?] at hlexeme ⊢
  split at hlexeme
  · next hquote =>
    obtain ⟨m, hm, heq⟩ := Option.map_eq_some_iff.mp hlexeme
    cases heq
    rw [if_pos hquote, closingQuote?_append_of_le hm (by simpa using hn)]
    rfl
  · next hquote =>
    have hle : ∀ rule m, Rule.firstMatch? rules (c :: p ++ q) = some (rule, m) →
        m ≤ (c :: p).length := by
      intro rule m hm
      rw [List.cons_append] at hm
      rw [hm] at hlexeme
      cases hlexeme
      exact hn
    have hsame := Rule.firstMatch?_replace rules hp hfeed h hle
    rw [List.cons_append, List.cons_append] at hsame
    rw [if_neg hquote, hsame]
    split at hlexeme
    · next rule m hm =>
      cases hlexeme
      rw [← List.cons_append, ← List.cons_append, List.take_append_of_le_length hn,
        List.take_append_of_le_length hn]
    · next hnone => exact hlexeme

/-- A token that ends before a cut is read again when what follows the cut is exchanged for a text
that starts with a name. -/
theorem lexCode_token_replace {c : Char} {rest p old r : Text} {kind : TokenKind} {n : Nat}
    (hfeed : '\n' ∉ c :: rest) (hc : isWhiteSpace c = false)
    (hlexeme : lexeme? rules (c :: rest) = some (kind, n))
    (hline : c :: rest = ((c :: rest).take n ++ p) ++ old) (hr : Rule.Replaceable old r) :
    lexCode rules row column (((c :: rest).take n ++ p) ++ r) =
      precede [⟨kind, (c :: rest).take n, ⟨row, column⟩, ⟨row, column + n⟩⟩]
        (lexCode rules row (column + n) (p ++ r)) := by
  obtain ⟨hpos, hn⟩ := lexeme?_bounds hlexeme
  have hlength : ((c :: rest).take n).length = n := List.length_take_of_le hn
  have hfeedTake : '\n' ∉ (c :: rest).take n ++ p := by
    rw [hline] at hfeed
    exact fun hmem => hfeed (List.mem_append_left _ hmem)
  have hread : lexeme? rules (((c :: rest).take n ++ p) ++ r) = some (kind, n) := by
    refine lexeme?_replace hfeedTake hr (hline ▸ hlexeme) ?_
    rw [List.length_append, hlength]
    exact Nat.le_add_right _ _
  have htake : (((c :: rest).take n ++ p) ++ r).take n = (c :: rest).take n := by
    rw [List.append_assoc, List.take_left' hlength]
  have hdropped : (((c :: rest).take n ++ p) ++ r).drop n = p ++ r := by
    rw [List.append_assoc, List.drop_left' hlength]
  obtain ⟨t, ht⟩ : ∃ t, ((c :: rest).take n ++ p) ++ r = c :: t := by
    obtain ⟨k, rfl⟩ : ∃ k, n = k + 1 := ⟨n - 1, by omega⟩
    exact ⟨_, rfl⟩
  rw [ht] at hread htake hdropped ⊢
  rw [lexCode_token hc hread, htake, hdropped]

/-- Cuts a line of code at one of its tokens. What precedes the token is read in the same way
whenever the token and what follows it are exchanged for a text that starts with a name. -/
theorem lexCode_cut {line : Text} {before after : List Token} {token : Token}
    (hfeed : '\n' ∉ line)
    (h : (lexCode rules row column line).1 = before ++ token :: after) :
    ∃ p rest, line = p ++ (token.text ++ rest) ∧
      token.start = ⟨row, column + p.length⟩ ∧
      token.stop = ⟨row, column + p.length + token.text.length⟩ ∧
      lexCode rules row (column + p.length + token.text.length) rest =
        (after, (lexCode rules row column line).2) ∧
      (∀ t ∈ before, t.start < token.start) ∧
      ∀ r, Rule.Replaceable (token.text ++ rest) r →
        lexCode rules row column (p ++ r) =
          precede before (lexCode rules row (column + p.length) r) := by
  induction column, line using lex_induction rules generalizing before with
  | nil column => simp at h
  | white column c rest hc ih =>
    rw [lexCode_white hc] at h
    obtain ⟨p, rest, rfl, hstart, hstop, hafter, hbefore, hreplace⟩ :=
      ih (fun hmem => hfeed (List.mem_cons_of_mem _ hmem)) h
    have hcolumn : column + (c :: p).length = column + 1 + p.length := by
      rw [List.length_cons]
      omega
    refine ⟨c :: p, rest, rfl, ?_, ?_, ?_, hbefore, fun r hr => ?_⟩
    · rw [hcolumn, hstart]
    · rw [hcolumn, hstop]
    · rw [hcolumn, hafter, lexCode_white hc]
    · rw [List.cons_append, lexCode_white hc, hreplace r hr, hcolumn]
  | opened column c rest hc hopen =>
    rw [lexCode_open hc hopen] at h
    simp at h
  | token column c rest kind n hc hlexeme ih =>
    obtain ⟨hpos, hn⟩ := lexeme?_bounds hlexeme
    rw [lexCode_token hc hlexeme, precede_fst, List.singleton_append] at h
    rw [lexCode_token hc hlexeme, precede_snd]
    cases before with
    | nil =>
      -- the token is the first one
      obtain ⟨rfl, rfl⟩ := List.cons.inj h
      have hlength : ((c :: rest).take n).length = n := List.length_take_of_le hn
      refine ⟨[], (c :: rest).drop n, ?_, rfl, ?_, ?_, fun t ht => absurd ht List.not_mem_nil,
        fun r _ => rfl⟩
      · exact (List.take_append_drop n _).symm
      · rw [hlength]
        rfl
      · rw [hlength]
        rfl
    | cons first before =>
      obtain ⟨rfl, hmore⟩ := List.cons.inj h
      have hfeedDrop : '\n' ∉ (c :: rest).drop n := fun hmem => hfeed (List.mem_of_mem_drop hmem)
      obtain ⟨p, last, hdrop, hstart, hstop, hafter, hbefore, hreplace⟩ := ih hfeedDrop hmore
      have hline : c :: rest = ((c :: rest).take n ++ p) ++ (token.text ++ last) := by
        rw [List.append_assoc, ← hdrop, List.take_append_drop]
      have hlength : ((c :: rest).take n).length = n := List.length_take_of_le hn
      have hcolumn : column + ((c :: rest).take n ++ p).length = column + n + p.length := by
        rw [List.length_append, hlength]
        omega
      refine ⟨(c :: rest).take n ++ p, last, hline, ?_, ?_, ?_, fun t ht => ?_, fun r hr => ?_⟩
      · rw [hcolumn, hstart]
      · rw [hcolumn, hstop]
      · rw [hcolumn, hafter]
      · rcases List.mem_cons.mp ht with rfl | ht
        · rw [hstart, Position.lt_def]
          exact Or.inr ⟨rfl, by dsimp only; omega⟩
        · exact hbefore t ht
      · rw [lexCode_token_replace hfeed hc hlexeme hline hr, hreplace r hr, hcolumn,
          precede_precede]
        rfl

/-- Reads on from a column of a line, where no string is open, and through the lines below. -/
def lexFrom (rules : List Rule) (row column : Nat) (tail : Text) (below : List Text) : Reading :=
  let first := lexCode rules row column tail
  precede first.1 (lexLines rules first.2 (row + 1) below)

/-- Where some code goes on matters for the places of its tokens only. -/
theorem lexFrom_move (rules : List Rule) (f : Position → Position) {row' column column' : Nat}
    (tail : Text) (below : List Text) (hf : ∀ n, f ⟨row, column + n⟩ = ⟨row', column' + n⟩)
    (hbelow : ∀ i n, f ⟨row + 1 + i, n⟩ = ⟨row' + 1 + i, n⟩) :
    lexFrom rules row' column' tail below =
      moveReading f (lexFrom rules row column tail below) := by
  rw [lexFrom, lexFrom, lexCode_move rules f tail column column' hf, moveReading_precede,
    ← lexLines_move rules f _ below hbelow]
  rfl

/-- Code that goes on behind other code, and the lines below it. -/
theorem lexFrom_append (tail : Text) (below more : List Text) :
    lexFrom rules row column tail (below ++ more) =
      precede (lexFrom rules row column tail below).1
        (lexLines rules (lexFrom rules row column tail below).2 (row + 1 + below.length) more) := by
  rw [lexFrom, lexFrom, lexLines_append]
  simp

/-- What is read from a place on starts there or behind it. -/
theorem start_le_of_mem_lexFrom {column : Nat} {tail : Text} {below : List Text} {token : Token}
    (h : token ∈ (lexFrom rules row column tail below).1) : ⟨row, column⟩ ≤ token.start := by
  -- the same is read from the start of the first row on, and then moved
  have hmove : lexFrom rules row column tail below =
      moveReading
        (fun p => if p.row = 0 then ⟨row, column + p.column⟩ else ⟨row + p.row, p.column⟩)
        (lexFrom rules 0 0 tail below) := by
    refine lexFrom_move rules _ tail below (fun n => ?_) fun i n => ?_
    · simp
    · have hrow : row + (0 + 1 + i) = row + 1 + i := by omega
      simp [hrow]
  rw [hmove, moveReading, List.mem_map] at h
  obtain ⟨t, -, rfl⟩ := h
  rw [Token.move]
  dsimp only
  split
  · exact Or.inr ⟨rfl, Nat.le_add_right _ _⟩
  · next hrow => exact Or.inl (Nat.lt_add_of_pos_right (Nat.pos_of_ne_zero hrow))

/-- Lines of code that are cut at a token: the lines above, the start and the end of its own line,
and the lines below. -/
structure CutAt (rules : List Rule) (pending : Option OpenString) (row : Nat) (ls : List Text)
    (before : List Token) (token : Token) (after : List Token)
    (above : List Text) (head tail : Text) (below : List Text) : Prop where
  /-- the parts make up the lines -/
  lines_eq : ls = above ++ (head ++ (token.text ++ tail)) :: below
  /-- the token starts behind the start of its line -/
  start_eq : token.start = ⟨row + above.length, head.length⟩
  /-- the token stops before the end of its line -/
  stop_eq : token.stop = ⟨row + above.length, head.length + token.text.length⟩
  /-- what follows the token is read from what follows its text -/
  after_eq : lexFrom rules (row + above.length) (head.length + token.text.length) tail below =
    (after, (lexLines rules pending row ls).2)
  /-- what precedes the token starts before it -/
  before_lt : ∀ t ∈ before, t.start < token.start
  /-- what precedes the token is read in the same way if something else follows -/
  replace : ∀ r below', Rule.Replaceable (token.text ++ tail) r →
    lexLines rules pending row (above ++ (head ++ r) :: below') =
      precede before (lexFrom rules (row + above.length) head.length r below')

namespace CutAt

variable {pending : Option OpenString} {ls above below : List Text} {before after : List Token}
  {token : Token} {head tail : Text}

theorem mem_of_mem_above (h : CutAt rules pending row ls before token after above head tail below) :
    ∀ line ∈ above, line ∈ ls := by
  intro line hline
  rw [h.lines_eq]
  exact List.mem_append_left _ hline

theorem line_mem (h : CutAt rules pending row ls before token after above head tail below) :
    head ++ (token.text ++ tail) ∈ ls := by
  rw [h.lines_eq]
  exact List.mem_append_right _ List.mem_cons_self

/-- What follows a token starts no earlier than the token stops. -/
theorem stop_le_start_of_mem
    (h : CutAt rules pending row ls before token after above head tail below) :
    ∀ t ∈ after, token.stop ≤ t.start := by
  intro t ht
  have hread : t ∈ (lexFrom rules (row + above.length) (head.length + token.text.length) tail
      below).1 := by
    rw [h.after_eq]
    exact ht
  rw [h.stop_eq]
  exact start_le_of_mem_lexFrom hread

theorem mem_of_mem_below (h : CutAt rules pending row ls before token after above head tail below) :
    ∀ line ∈ below, line ∈ ls := by
  intro line hline
  rw [h.lines_eq]
  exact List.mem_append_right _ (List.mem_cons_of_mem _ hline)

end CutAt

theorem lexLine_cut {pending : Option OpenString} {line : Text} {before after : List Token}
    {token : Token} (hfeed : '\n' ∉ line) (hkind : token.kind ≠ .string)
    (hpending : ∀ s ∈ pending, s.start.row < row)
    (h : (lexLine rules pending row line).1 = before ++ token :: after) :
    ∃ p rest, line = p ++ (token.text ++ rest) ∧
      token.start = ⟨row, p.length⟩ ∧
      token.stop = ⟨row, p.length + token.text.length⟩ ∧
      lexCode rules row (p.length + token.text.length) rest =
        (after, (lexLine rules pending row line).2) ∧
      (∀ t ∈ before, t.start < token.start) ∧
      ∀ r, Rule.Replaceable (token.text ++ rest) r →
        lexLine rules pending row (p ++ r) = precede before (lexCode rules row p.length r) := by
  cases pending with
  | none =>
    obtain ⟨p, rest, hline, hstart, hstop, hafter, hbefore, hreplace⟩ := lexCode_cut hfeed h
    rw [Nat.zero_add] at hstart hstop hafter
    refine ⟨p, rest, hline, hstart, hstop, hafter, hbefore, fun r hr => ?_⟩
    have := hreplace r hr
    rwa [Nat.zero_add] at this
  | some s =>
    simp only [lexLine] at h ⊢
    cases hquote : closingQuote? s.quote line with
    | none =>
      rw [hquote] at h
      simp at h
    | some n =>
      rw [hquote] at h
      have hn := (closingQuote?_bounds hquote).2
      have hlength : (line.take n).length = n := List.length_take_of_le hn
      cases before with
      | nil =>
        obtain ⟨rfl, -⟩ := List.cons.inj h
        exact absurd rfl hkind
      | cons first before =>
        obtain ⟨rfl, hmore⟩ := List.cons.inj h
        obtain ⟨p, rest, hdrop, hstart, hstop, hafter, hbefore, hreplace⟩ :=
          lexCode_cut (fun hmem => hfeed (List.mem_of_mem_drop hmem)) hmore
        have hline : line = (line.take n ++ p) ++ (token.text ++ rest) := by
          rw [List.append_assoc, ← hdrop, List.take_append_drop]
        have hcolumn : (line.take n ++ p).length = n + p.length := by
          rw [List.length_append, hlength]
        refine ⟨line.take n ++ p, rest, hline, ?_, ?_, ?_, fun t ht => ?_, fun r hr => ?_⟩
        · rw [hcolumn, hstart]
        · rw [hcolumn, hstop]
        · rw [hcolumn, hafter]
        · rcases List.mem_cons.mp ht with rfl | ht
          · have := hpending s rfl
            rw [hstart, Position.lt_def]
            exact Or.inl this
          · exact hbefore t ht
        · have hsame : closingQuote? s.quote ((line.take n ++ p) ++ r) = some n := by
            rw [hline] at hquote
            refine closingQuote?_append_of_le hquote ?_ r
            rw [hcolumn]
            exact Nat.le_add_right _ _
          have htake : ((line.take n ++ p) ++ r).take n = line.take n := by
            rw [List.append_assoc, List.take_left' hlength]
          have hdropped : ((line.take n ++ p) ++ r).drop n = p ++ r := by
            rw [List.append_assoc, List.drop_left' hlength]
          rw [hsame, hcolumn]
          simp only [htake, hdropped, hreplace r hr]
          simp [precede]

/-- An element of two lists in a row is in one of the two. -/
theorem append_eq_append_cons {α : Type} {xs ys before after : List α} {a : α}
    (h : xs ++ ys = before ++ a :: after) :
    (∃ first, before = xs ++ first ∧ ys = first ++ a :: after) ∨
      ∃ rest, xs = before ++ a :: rest ∧ after = rest ++ ys := by
  rcases List.append_eq_append_iff.mp h with ⟨first, hbefore, hys⟩ | ⟨second, hxs, hafter⟩
  · exact Or.inl ⟨first, hbefore, hys⟩
  · cases second with
    | nil => exact Or.inl ⟨[], by simpa using hxs.symm, by simpa using hafter.symm⟩
    | cons b rest =>
      obtain ⟨rfl, hrest⟩ := List.cons.inj hafter
      exact Or.inr ⟨rest, hxs, hrest⟩

/-- Lines of code can be cut at each of their tokens but strings, which may run over several
lines. -/
theorem lexLines_cut {pending : Option OpenString} {ls : List Text} {before after : List Token}
    {token : Token} (hfeed : ∀ line ∈ ls, '\n' ∉ line) (hkind : token.kind ≠ .string)
    (hpending : ∀ s ∈ pending, s.start.row < row)
    (h : (lexLines rules pending row ls).1 = before ++ token :: after) :
    ∃ above head tail below,
      CutAt rules pending row ls before token after above head tail below := by
  induction ls generalizing pending row before with
  | nil => simp at h
  | cons line ls ih =>
    rw [lexLines_cons, precede_fst] at h
    have hrow := (lexLine_row rules line (Nat.zero_le row)
      fun s hs => ⟨Nat.zero_le _, hpending s hs⟩)
    rcases append_eq_append_cons h with ⟨first, hbefore, hmore⟩ | ⟨rest, hfirst, hafter⟩
    · -- the token is on one of the lines below
      obtain ⟨above, head, tail, below, hcut⟩ :=
        ih (fun l hl => hfeed l (List.mem_cons_of_mem _ hl)) (fun s hs => (hrow.2 s hs).2) hmore
      have hplace : row + (line :: above).length = row + 1 + above.length := by
        rw [List.length_cons]
        omega
      refine ⟨line :: above, head, tail, below, ?_, ?_, ?_, ?_, ?_, ?_⟩
      · rw [hcut.lines_eq, List.cons_append]
      · rw [hplace, hcut.start_eq]
      · rw [hplace, hcut.stop_eq]
      · rw [hplace, hcut.after_eq, lexLines_cons, precede_snd]
      · intro t ht
        rw [hbefore] at ht
        rcases List.mem_append.mp ht with ht | ht
        · have := (hrow.1 t ht).2
          rw [hcut.start_eq, Position.lt_def]
          exact Or.inl (by dsimp only; omega)
        · exact hcut.before_lt t ht
      · intro r below' hr
        rw [hplace, List.cons_append, lexLines_cons, hcut.replace r below' hr, precede_precede,
          ← hbefore]
    · -- the token is on this line
      obtain ⟨p, tail, hline, hstart, hstop, hread, hlt, hreplace⟩ :=
        lexLine_cut (hfeed line List.mem_cons_self) hkind hpending hfirst
      refine ⟨[], p, tail, ls, by rw [hline]; rfl, hstart, hstop, ?_, hlt, fun r below' hr => ?_⟩
      · have hread : lexCode rules (row + ([] : List Text).length) (p.length + token.text.length)
            tail = (rest, (lexLine rules pending row line).2) := hread
        rw [lexFrom, hread, lexLines_cons, hafter]
        rfl
      · rw [List.nil_append, lexLines_cons, hreplace r hr]
        simp [lexFrom]

end RmdOptions
