import RmdOptions.Proofs.Token.Plain

/-!
# Texts that are one token

A text may be read as one token when it stands alone, and as something else in front of other text.
In front of a space it is not: only a comment takes the space along, and only percent signs, quotes
and backticks look for their end further on.

* `lexeme?_append_space_iff` — what is one token alone, and in front of a space;
* `lexCode_eq_tokenAt_iff`, `lexeme?_of_mem_lexCode` — reading one token, from the start of a line;
* `readAs_quotedName` — a name in backticks;
* `unquote_eq_self_iff` — only a string loses its quotes.
-/

namespace RmdOptions

open Rule

variable {rules : List Rule} {row column : Nat} {p rest : Text} {kind : TokenKind}

/-! ## In front of a space -/

namespace Rule

/-- Percent signs look for each other within the text, if none follows it. -/
theorem percentLength?_append_space (hp : p ≠ []) (hrest : '%' ∉ rest) :
    percentLength? (p ++ ' ' :: rest) = percentLength? p := by
  obtain ⟨c, p, rfl⟩ := List.exists_cons_of_ne_nil hp
  by_cases hc : c = '%'
  · subst hc
    rw [List.cons_append, percentLength?_cons, percentLength?_cons]
    by_cases hall : ∀ c ∈ p, insidePercent c = true
    · -- no other percent sign comes
      have halone : leading insidePercent p = p.length := by
        have := leading_append_of_all hall []
        rwa [List.append_nil] at this
      rw [leading_append_of_all hall, halone, List.drop_length_add_append, List.drop_length,
        if_neg, if_neg (by simp)]
      intro hmem
      have := List.mem_of_mem_drop (List.mem_of_mem_head? hmem)
      simp [hrest] at this
    · obtain ⟨hsame, hlt⟩ := leading_append_of_not_all hall (' ' :: rest)
      rw [hsame, List.drop_append_of_le_length (Nat.le_of_lt hlt), List.head?_append_of_ne_nil]
      intro hnil
      rw [List.drop_eq_nil_iff] at hnil
      omega
  · rw [List.cons_append, percentLength?_eq_none hc, percentLength?_eq_none hc]

/-- No operator takes a space along. -/
theorem operatorLength?_append_space (hp : p ≠ []) (hrest : '%' ∉ rest) :
    operatorLength? (p ++ ' ' :: rest) = operatorLength? p := by
  have hspace : ∀ op ∈ longOperators, ' ' ∉ op := by decide
  have hfind := find?_isPrefixOf_append hspace p rest
  have hpercent := percentLength?_append_space hp hrest
  obtain ⟨c, p, rfl⟩ := List.exists_cons_of_ne_nil hp
  unfold operatorLength?
  rw [hfind, hpercent]
  rfl

/-- A rule reads the same in front of a space, unless it reads a comment or a quoted name. -/
theorem length?_append_space {c : Char} (hsharp : c ≠ '#') (htick : c ≠ '\x60') (p : Text)
    (hrest : '%' ∉ rest) (rule : Rule) :
    rule.length? (c :: p ++ ' ' :: rest) = rule.length? (c :: p) := by
  have hstops : StopsWord (' ' :: rest) := stopsWord_cons (by decide) rest
  cases rule with
  | comment => exact (commentLength?_eq_none hsharp _).trans (commentLength?_eq_none hsharp _).symm
  | quotedName =>
    exact (quotedNameLength?_eq_none htick _).trans (quotedNameLength?_eq_none htick _).symm
  | number => exact numberLength?_append hstops.stopsNumber _
  | name =>
    have hends : ∀ d ∈ (' ' :: rest).head?, continuesName d = false := fun d hd => (hstops d hd).1
    rw [length?, List.cons_append, nameLength?, nameLength?, leading_append hends]
  | operator => exact operatorLength?_append_space (List.cons_ne_nil c p) hrest
  | punctuation => exact punctuationLength?_append (List.cons_ne_nil c p) (' ' :: rest)

end Rule

/-- A number sign and what follows it on its line are a comment. -/
theorem lexeme?_comment (hfeed : '\n' ∉ p) (rest : Text) :
    lexeme? Rule.all ('#' :: p ++ rest) =
      some (.comment, 1 + (p.length + leading (· != '\n') rest)) := by
  have hall : ∀ c ∈ p, (c != '\n') = true := fun c hc => by
    rw [bne_iff_ne]
    rintro rfl
    exact hfeed hc
  rw [← leading_append_of_all hall, List.cons_append, lexeme?, if_neg (by decide), Rule.all,
    firstMatch?_cons]
  rfl

/-- No other text is. -/
theorem lexeme?_ne_comment {c : Char} {n : Nat} (hc : c ≠ '#')
    (h : lexeme? Rule.all (c :: p) = some (kind, n)) : kind ≠ .comment := by
  rw [lexeme?] at h
  split at h
  · obtain ⟨m, -, heq⟩ := Option.map_eq_some_iff.mp h
    cases heq
    decide
  · split at h
    · next rule m hmatch =>
      cases h
      obtain ⟨tried, -, htried⟩ := List.exists_of_findSome?_eq_some hmatch
      obtain ⟨m', hm', heq⟩ := Option.map_eq_some_iff.mp htried
      obtain ⟨rfl, rfl⟩ := Prod.mk.inj heq
      have hne : tried ≠ .comment := by
        rintro rfl
        rw [length?, commentLength?_eq_none hc] at hm'
        cases hm'
      rw [TokenKind.ofLexeme]
      split
      · decide
      · cases tried with
        | comment => exact absurd rfl hne
        | _ => decide
    · cases h
      decide

/-- A text that starts with a quote is one token if the quote is closed at its end. -/
theorem lexeme?_quote_iff {quote : Char} (hquote : quote = '\x22' ∨ quote = '\x27')
    (p rest : Text) :
    lexeme? rules (quote :: p ++ rest) = some (kind, (quote :: p).length) ↔
      closingQuote? quote (p ++ rest) = some p.length ∧ TokenKind.string = kind := by
  rw [List.cons_append, lexeme?, if_pos hquote, Option.map_eq_some_iff]
  constructor
  · rintro ⟨n, hn, heq⟩
    obtain ⟨rfl, hlength⟩ := Prod.mk.inj heq
    rw [List.length_cons, Nat.add_right_cancel_iff] at hlength
    exact ⟨hlength ▸ hn, rfl⟩
  · rintro ⟨hn, rfl⟩
    exact ⟨_, hn, rfl⟩

/-- The rules read the same in front of a space, unless a comment or a quoted name starts. -/
theorem lexeme?_append_space {c : Char} (hquote : ¬(c = '\x22' ∨ c = '\x27')) (hsharp : c ≠ '#')
    (htick : c ≠ '\x60') (p : Text) (hrest : '%' ∉ rest) :
    lexeme? Rule.all (c :: p ++ ' ' :: rest) = lexeme? Rule.all (c :: p) := by
  have hmatch : firstMatch? Rule.all (c :: (p ++ ' ' :: rest)) = firstMatch? Rule.all (c :: p) := by
    simp only [firstMatch?, ← List.cons_append, length?_append_space hsharp htick p hrest]
  rw [List.cons_append, lexeme?, lexeme?, if_neg hquote, if_neg hquote, hmatch]
  cases hfirst : firstMatch? Rule.all (c :: p) with
  | none => rfl
  | some found =>
    obtain ⟨rule, n⟩ := found
    dsimp only
    rw [← List.cons_append, List.take_append_of_le_length (firstMatch?_bounds hfirst).2]

/-- **What is one token alone is one in front of a space**, unless it is a comment. -/
theorem lexeme?_append_space_iff (hp : p ≠ []) (htick : p.head? ≠ some '\x60') (hfeed : '\n' ∉ p)
    (hrest : '%' ∉ rest) :
    lexeme? Rule.all (p ++ ' ' :: rest) = some (kind, p.length) ↔
      kind ≠ .comment ∧ lexeme? Rule.all p = some (kind, p.length) := by
  obtain ⟨c, p, rfl⟩ := List.exists_cons_of_ne_nil hp
  by_cases hsharp : c = '#'
  · subst hsharp
    have hfeed' : '\n' ∉ p := fun hc => hfeed (List.mem_cons_of_mem _ hc)
    have halone := lexeme?_comment hfeed' []
    rw [List.append_nil] at halone
    rw [lexeme?_comment hfeed', halone]
    constructor
    · intro h
      -- the comment takes the space along
      have hspace : leading (· != '\n') (' ' :: rest) = 1 + leading (· != '\n') rest := by
        simp [leading, Nat.add_comm]
      have hlength := (Prod.mk.inj (Option.some.inj h)).2
      rw [hspace, List.length_cons] at hlength
      omega
    · rintro ⟨hne, h⟩
      exact absurd (Prod.mk.inj (Option.some.inj h)).1.symm hne
  · have hsame : lexeme? Rule.all (c :: p ++ ' ' :: rest) = some (kind, (c :: p).length) ↔
        lexeme? Rule.all (c :: p) = some (kind, (c :: p).length) := by
      by_cases hquote : c = '\x22' ∨ c = '\x27'
      · have halone : lexeme? Rule.all (c :: p ++ []) = some (kind, (c :: p).length) ↔ _ :=
          lexeme?_quote_iff hquote p []
        rw [List.append_nil (c :: p)] at halone
        rw [lexeme?_quote_iff hquote, halone]
        refine and_congr_left fun _ => ⟨fun h => ?_, fun h => ?_⟩
        · exact closingQuote?_append_of_le h (Nat.le_refl _) []
        · exact closingQuote?_append_of_le h (Nat.le_refl _) _
      · have htick' : c ≠ '\x60' := fun heq => htick (by rw [heq]; rfl)
        rw [lexeme?_append_space hquote hsharp htick' p hrest]
    rw [hsame]
    exact ⟨fun h => ⟨lexeme?_ne_comment hsharp h, h⟩, fun h => h.2⟩

/-! ## From the start of a line -/

/-- A token does not start with white space. -/
theorem head_of_mem_lexCode {t : Text} {token : Token}
    (h : token ∈ (lexCode rules row column t).1) :
    ∀ c ∈ token.text.head?, isWhiteSpace c = false := by
  induction column, t using lex_induction rules with
  | nil column => simp at h
  | white column c rest hc ih =>
    rw [lexCode_white hc] at h
    exact ih h
  | opened column c rest hc hopen =>
    rw [lexCode_open hc hopen] at h
    cases h
  | token column c rest kind n hc hlexeme ih =>
    have hn := (lexeme?_bounds hlexeme).1
    rw [lexCode_token hc hlexeme, precede_fst, List.singleton_append, List.mem_cons] at h
    rcases h with rfl | h
    · obtain ⟨n, rfl⟩ : ∃ m, n = m + 1 := ⟨n - 1, by omega⟩
      rintro d ⟨⟩
      exact hc
    · exact ih h

/-- The characters of a token are characters of its line. -/
theorem mem_of_mem_lexCode {t : Text} {token : Token}
    (h : token ∈ (lexCode rules row column t).1) : ∀ c ∈ token.text, c ∈ t := by
  induction column, t using lex_induction rules with
  | nil column => simp at h
  | white column c rest hc ih =>
    rw [lexCode_white hc] at h
    exact fun d hd => List.mem_cons_of_mem _ (ih h d hd)
  | opened column c rest hc hopen =>
    rw [lexCode_open hc hopen] at h
    cases h
  | token column c rest kind n hc hlexeme ih =>
    rw [lexCode_token hc hlexeme, precede_fst, List.singleton_append, List.mem_cons] at h
    rcases h with rfl | h
    · exact fun d hd => List.mem_of_mem_take hd
    · exact fun d hd => List.mem_of_mem_drop (ih h d hd)

/-- What is read of a text comes first among the tokens of its line. -/
theorem ReadAs.exists_lexCode_eq {t : Text} {ts : List Token} (h : ReadAs row column t ts rest) :
    ∃ later, (lexCode Rule.all row column (t ++ rest)).1 = ts ++ later := by
  rw [ReadAs] at h
  exact ⟨_, by rw [h, precede_fst]⟩

theorem ReadAs.mem_text {t : Text} {ts : List Token} (h : ReadAs row column t ts rest) :
    ∀ u ∈ ts, ∀ c ∈ u.text, c ∈ t ++ rest := by
  intro u hu
  obtain ⟨later, hlater⟩ := h.exists_lexCode_eq
  have hmem : u ∈ (lexCode Rule.all row column (t ++ rest)).1 := by
    rw [hlater]
    exact List.mem_append_left _ hu
  exact mem_of_mem_lexCode hmem

/-- No token of a line starts before the place where reading starts. -/
theorem column_le_of_mem_lexCode {t : Text} {token : Token}
    (h : token ∈ (lexCode rules row column t).1) : column ≤ token.start.column := by
  have hmem : token ∈ (lexFrom rules row column t []).1 := by
    rw [lexFrom, lexLines_nil, precede_fst, List.append_nil]
    exact h
  have hle := start_le_of_mem_lexFrom hmem
  have hrow := ((lexCode_row rules row column t).1 token h).1
  rcases hle with hlt | ⟨-, hle⟩
  · dsimp only at hlt
    omega
  · exact hle

/-- A token that starts where reading starts is the first. -/
theorem lexeme?_of_mem_lexCode {t : Text} {token : Token}
    (h : token ∈ (lexCode rules row column t).1) (hstart : token.start = ⟨row, column⟩) :
    lexeme? rules t = some (token.kind, token.text.length) := by
  cases t with
  | nil => simp at h
  | cons c rest =>
    cases hc : isWhiteSpace c with
    | true =>
      rw [lexCode_white hc] at h
      have := column_le_of_mem_lexCode h
      rw [hstart] at this
      dsimp only at this
      omega
    | false =>
      cases hlexeme : lexeme? rules (c :: rest) with
      | none =>
        rw [lexCode_open hc hlexeme] at h
        cases h
      | some found =>
        obtain ⟨kind, n⟩ := found
        obtain ⟨hpos, hle⟩ := lexeme?_bounds hlexeme
        rw [lexCode_token hc hlexeme, precede_fst, List.singleton_append, List.mem_cons] at h
        rcases h with rfl | h
        · dsimp only
          rw [List.length_take_of_le hle]
        · have := column_le_of_mem_lexCode h
          rw [hstart] at this
          dsimp only at this
          omega

/-- **A text is one token** if it starts with no white space and that token takes all of it. -/
theorem lexCode_eq_tokenAt_iff (hfeed : '\n' ∉ p) :
    lexCode rules row column p = ([tokenAt kind row column p], none) ↔
      (∀ c ∈ p.head?, isWhiteSpace c = false) ∧ lexeme? rules p = some (kind, p.length) := by
  constructor
  · intro h
    have hmem : tokenAt kind row column p ∈ (lexCode rules row column p).1 := by
      rw [h]
      exact List.mem_singleton_self _
    exact ⟨head_of_mem_lexCode hmem, lexeme?_of_mem_lexCode hmem rfl⟩
  · rintro ⟨hwhite, h⟩
    obtain ⟨c, p, rfl⟩ := List.exists_cons_of_length_pos (lexeme?_bounds h).1
    rw [lexCode_token (hwhite c rfl) h, List.take_length, List.drop_length, lexCode_nil]
    rfl

/-! ## Quotes -/

/-- A name in backticks may hold anything but backticks, backslashes and line feeds. -/
theorem quotedNameRest?_name {name : Text} (htick : '\x60' ∉ name) (hescape : '\\' ∉ name)
    (rest : Text) : quotedNameRest? (name ++ '\x60' :: rest) = some (name.length + 1) := by
  induction name with
  | nil => rfl
  | cons c name ih =>
    rw [List.mem_cons, not_or] at htick hescape
    rw [List.cons_append, quotedNameRest?_cons (Ne.symm htick.1) (Ne.symm hescape.1),
      ih htick.2 hescape.2]
    rfl

/-- A name in backticks is one token. -/
theorem readAs_quotedName {name : Text} (htick : '\x60' ∉ name) (hescape : '\\' ∉ name) :
    ReadAs row column ('\x60' :: name ++ ['\x60'])
      [tokenAt (TokenKind.identifier.ofLexeme ('\x60' :: name ++ ['\x60'])) row column
        ('\x60' :: name ++ ['\x60'])] rest := by
  refine readAs_of_lexeme? (forall_head? (by decide) _) ?_
  have hlength : ('\x60' :: name ++ ['\x60']).length = name.length + 1 + 1 := by simp
  have hquoted : quotedNameLength? ('\x60' :: (name ++ '\x60' :: rest)) =
      some (name.length + 1 + 1) := by
    rw [quotedNameLength?, quotedNameRest?_name htick hescape]
    rfl
  have hmatch : firstMatch? Rule.all ('\x60' :: (name ++ '\x60' :: rest)) =
      some (.quotedName, name.length + 1 + 1) := by
    have hcomment : commentLength? ('\x60' :: (name ++ '\x60' :: rest)) = none := rfl
    simp only [Rule.all, firstMatch?_cons, length?, hcomment, hquoted]
  have htext : '\x60' :: name ++ ['\x60'] ++ rest = '\x60' :: (name ++ '\x60' :: rest) := by simp
  rw [htext, lexeme?, if_neg (by decide), hmatch, hlength]
  dsimp only
  rw [← htext, ← hlength, List.take_left]
  rfl

/-- What is closed by a quote ends with it. -/
theorem getLast?_take_of_closingQuote? {quote : Char} {t : Text} {n : Nat}
    (h : closingQuote? quote t = some n) : (t.take n).getLast? = some quote := by
  fun_induction closingQuote? quote t generalizing n with
  | case1 => cases h
  | case2 => cases h
  | case3 c rest ih =>
    obtain ⟨m, hm, rfl⟩ := Option.map_eq_some_iff.mp h
    have hlast := ih hm
    rw [List.take_succ_cons, List.take_succ_cons, List.getLast?_cons, List.getLast?_cons, hlast]
    rfl
  | case4 rest _ _ =>
    cases h
    rfl
  | case5 c rest _ _ _ ih =>
    obtain ⟨m, hm, rfl⟩ := Option.map_eq_some_iff.mp h
    have hlast := ih hm
    rw [List.take_succ_cons, List.getLast?_cons, hlast]
    rfl

namespace Text

variable {quotes : List Char} {quote : Char} {t : Text}

theorem between?_eq_some_length {u : Text} (h : between? quote t = some u) :
    t.length = u.length + 2 := by
  cases t with
  | nil => cases h
  | cons c rest =>
    rw [between?] at h
    split at h
    · next hquotes =>
      cases h
      obtain ⟨front, rfl⟩ := List.getLast?_eq_some_iff.mp hquotes.2
      simp
    · cases h

/-- A text without quotes around it stays as it is, and any other is two characters longer. -/
theorem unquote_eq_self_or (quotes : List Char) (t : Text) :
    unquote quotes t = t ∨ t.length = (unquote quotes t).length + 2 := by
  rw [unquote]
  cases hfound : quotes.findSome? (between? · t) with
  | none => exact Or.inl rfl
  | some u =>
    obtain ⟨quote, -, hquote⟩ := List.exists_of_findSome?_eq_some hfound
    exact Or.inr (between?_eq_some_length hquote)

theorem unquote_of_head? (h : ∀ c ∈ t.head?, c ∉ quotes) : unquote quotes t = t := by
  have hnone : quotes.findSome? (between? · t) = none := by
    rw [List.findSome?_eq_none_iff]
    intro quote hquote
    cases t with
    | nil => rfl
    | cons c rest =>
      rw [between?, if_neg]
      rintro ⟨rfl, -⟩
      exact h c rfl hquote
  rw [unquote, hnone, Option.getD_none]

/-- Quotes around a text are removed. -/
theorem unquote_quoted (hquote : quote ∈ quotes) (u : Text) :
    (unquote quotes (quote :: u ++ [quote])) = u := by
  have hbetween (q : Char) :
      between? q (quote :: u ++ [quote]) = if q = quote then some u else none := by
    rw [List.cons_append, between?, List.getLast?_concat, List.dropLast_concat]
    by_cases hq : q = quote
    · rw [if_pos ⟨hq.symm, by rw [hq]⟩, if_pos hq]
    · rw [if_neg fun h => hq h.1.symm, if_neg hq]
  have hfound : quotes.findSome? (between? · (quote :: u ++ [quote])) = some u := by
    induction quotes with
    | nil => cases hquote
    | cons q quotes ih =>
      rw [List.findSome?_cons, hbetween]
      by_cases hq : q = quote
      · rw [if_pos hq]
      · rw [if_neg hq]
        exact ih ((List.mem_cons.mp hquote).resolve_left (Ne.symm hq))
  rw [unquote, hfound, Option.getD_some]

end Text

/-- **Only a string loses its quotes**, among the texts that are one token and have no backtick. -/
theorem unquote_eq_self_iff (htick : p.head? ≠ some '\x60')
    (h : lexeme? Rule.all p = some (kind, p.length)) :
    Text.unquote ['\x60', '\x22', '\x27'] p = p ↔ kind ≠ .string := by
  obtain ⟨c, p, rfl⟩ := List.exists_cons_of_length_pos (lexeme?_bounds h).1
  have hc : c ≠ '\x60' := fun heq => htick (by rw [heq]; rfl)
  by_cases hquote : c = '\x22' ∨ c = '\x27'
  · obtain ⟨hclosing, rfl⟩ := (lexeme?_quote_iff hquote p []).mp (by rwa [List.append_nil])
    rw [List.append_nil] at hclosing
    have hlast := getLast?_take_of_closingQuote? hclosing
    rw [List.take_length] at hlast
    obtain ⟨inside, rfl⟩ := List.getLast?_eq_some_iff.mp hlast
    have hquotes : c ∈ ['\x60', '\x22', '\x27'] := by simpa using Or.inr hquote
    have hunquoted := Text.unquote_quoted hquotes inside
    rw [← List.cons_append, hunquoted]
    refine ⟨fun heq => ?_, fun h => absurd rfl h⟩
    have := congrArg List.length heq
    rw [List.length_append, List.length_cons] at this
    omega
  · rw [lexeme?, if_neg hquote] at h
    have hkind : kind ≠ .string := by
      split at h
      · next rule _ _ =>
        cases h
        rw [TokenKind.ofLexeme]
        split
        · decide
        · cases rule <;> decide
      · obtain ⟨rfl, -⟩ := Prod.mk.inj (Option.some.inj h)
        decide
    refine ⟨fun _ => hkind, fun _ => Text.unquote_of_head? ?_⟩
    rintro d ⟨⟩
    simpa [hc] using hquote

end RmdOptions
