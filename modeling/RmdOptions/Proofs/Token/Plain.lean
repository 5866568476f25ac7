import RmdOptions.Proofs.Call.Arguments
import RmdOptions.Proofs.Options.Plain
import RmdOptions.Proofs.Token.Code

/-!
# The tokens of plain options

Names, strings, operators and punctuation are one token each. A word may be several, since a digit
followed by letters is a number and a name, and an underscore is no part of either; but none of them
is a bracket or a comma, and none reaches beyond the word. So a plain value is read as tokens that
belong together, from its first character to its last.

* `ReadAs` — a text in front of another is read as some tokens;
* `readAs_name`, `exists_readAs_word`, `readAs_quoted`, … — the parts of plain options;
* `exists_readAs_value` — the tokens of a plain value.
-/

namespace RmdOptions

open Rule

variable {row column : Nat} {rest : Text}

/-- Every word ends where the text comes, which may be the end of all. -/
def StopsWord (t : Text) : Prop := ∀ c ∈ t.head?, continuesName c = false ∧ endsNumber c = true

theorem StopsWord.stopsNumber (h : StopsWord rest) : StopsNumber rest := fun c hc => (h c hc).2

theorem StopsWord.leading_eq (h : StopsWord rest) {t : Text}
    (ht : ∀ c ∈ t, continuesName c = true) : leading continuesName (t ++ rest) = t.length := by
  rw [leading_append_of_all ht]
  cases rest with
  | nil => rfl
  | cons c rest => simp [leading, (h c rfl).1]

/-- A text in front of another is read as some tokens, and reading goes on behind it. -/
def ReadAs (row column : Nat) (t : Text) (ts : List Token) (rest : Text) : Prop :=
  lexCode Rule.all row column (t ++ rest) =
    precede ts (lexCode Rule.all row (column + t.length) rest)

namespace ReadAs

variable {t u : Text} {ts us : List Token}

theorem nil : ReadAs row column [] [] rest := rfl

theorem append (ht : ReadAs row column t ts (u ++ rest))
    (hu : ReadAs row (column + t.length) u us rest) :
    ReadAs row column (t ++ u) (ts ++ us) rest := by
  rw [ReadAs, List.append_assoc, ht, hu, precede_precede, List.length_append, Nat.add_assoc]

end ReadAs

/-- A text that ends its line leaves no string open. -/
theorem ReadAs.lexCode_eq {t : Text} {ts : List Token} (h : ReadAs row column t ts []) :
    lexCode Rule.all row column t = (ts, none) := by
  rw [ReadAs, List.append_nil, lexCode_nil] at h
  rw [h, precede, List.append_nil]

/-- A token on one line, by its kind, its text and where it starts. -/
def tokenAt (kind : TokenKind) (row column : Nat) (t : Text) : Token :=
  ⟨kind, t, ⟨row, column⟩, ⟨row, column + t.length⟩⟩

/-- A name or number is no bracket or comma, whether it is reserved or not. -/
theorem TokenKind.ofLexeme_ne {kind : TokenKind} (h : kind = .identifier ∨ kind = .number)
    (t : Text) : kind.ofLexeme t ≠ .punctuation ∧ kind.ofLexeme t ≠ .comment ∧
      kind.ofLexeme t ≠ .chunkEnd := by
  rw [ofLexeme]
  split
  · decide
  · rcases h with rfl | rfl <;> decide

/-- A text that is one lexeme is read as one token. -/
theorem readAs_of_lexeme? {t : Text} {kind : TokenKind}
    (hwhite : ∀ c ∈ t.head?, isWhiteSpace c = false)
    (h : lexeme? Rule.all (t ++ rest) = some (kind, t.length)) :
    ReadAs row column t [tokenAt kind row column t] rest := by
  have hpos := (lexeme?_bounds h).1
  obtain ⟨c, t, rfl⟩ := List.exists_cons_of_length_pos hpos
  rw [List.cons_append] at h
  rw [ReadAs, List.cons_append, lexCode_token (hwhite c rfl) h, ← List.cons_append,
    List.take_left, List.drop_left]
  rfl

/-- What holds of the first character holds of all characters that come first. -/
theorem forall_head? {p : Char → Prop} {c : Char} (h : p c) (t : Text) :
    ∀ d ∈ (c :: t).head?, p d := by
  rintro d ⟨⟩
  exact h

theorem is_tokenAt (kind : TokenKind) (row column : Nat) (t : Text) :
    (tokenAt kind row column t).is kind t = true := by
  simp [tokenAt, Token.is]

theorem neutral_tokenAt {kind : TokenKind}
    (h : kind ≠ .punctuation ∧ kind ≠ .comment ∧ kind ≠ .chunkEnd) (t : Text) :
    Neutral 0 [tokenAt kind row column t] :=
  Neutral.singleton h

/-! ## Characters -/

/-- What the rules make of the characters of words. -/
theorem rules_of_isWordChar {c : Char} (h : isWordChar c = true) :
    (isWhiteSpace c = false ∧ continuesName c = true ∧ c ≠ '\x22' ∧ c ≠ '\x27' ∧ c ≠ '\x60') ∧
      ∀ rule ∈ [Rule.comment, Rule.quotedName, Rule.operator, Rule.punctuation],
        rule.starts c = false :=
  forall_ascii (p := fun c => isWordChar c = true →
      (isWhiteSpace c = false ∧ continuesName c = true ∧ c ≠ '\x22' ∧ c ≠ '\x27' ∧ c ≠ '\x60') ∧
        ∀ rule ∈ [Rule.comment, Rule.quotedName, Rule.operator, Rule.punctuation],
          rule.starts c = false)
    (by decide +kernel) (toNat_lt_of_isWordChar h) h

/-- What the rules make of the characters that names start with. -/
theorem rules_of_isNameStart {c : Char} (h : isNameStart c = true) (hword : isWordChar c = true) :
    startsName c = true ∧ Rule.number.starts c = false :=
  forall_ascii (p := fun c => isNameStart c = true →
      startsName c = true ∧ Rule.number.starts c = false)
    (by decide +kernel) (toNat_lt_of_isWordChar hword) h

/-! ## One token each -/

/-- Of all rules, only those for numbers and names read a word. -/
theorem firstMatch?_word {c : Char} (hc : isWordChar c = true) (t : Text) :
    firstMatch? Rule.all (c :: t) =
      match numberLength? (c :: t) with
      | some n => some (.number, n)
      | none => if startsName c then some (.name, 1 + leading continuesName t) else none := by
  have hnone {rule : Rule}
      (hrule : rule ∈ [Rule.comment, Rule.quotedName, Rule.operator, Rule.punctuation]) :
      rule.length? (c :: t) = none :=
    length?_eq_none ((rules_of_isWordChar hc).2 rule hrule) t
  simp only [Rule.all, firstMatch?_cons, hnone, List.mem_cons, true_or, or_true]
  rw [length?, length?, nameLength?]
  cases numberLength? (c :: t) with
  | some n => rfl
  | none =>
    by_cases hname : startsName c = true
    · simp only [if_pos hname]
    · simp only [if_neg hname]
      rfl

/-- A name is one token. -/
theorem readAs_name (row column : Nat) {name rest : Text} (h : IsName name)
    (hrest : StopsWord rest) :
    ReadAs row column name [tokenAt (TokenKind.identifier.ofLexeme name) row column name] rest := by
  obtain ⟨c, t, rfl, hstart⟩ := h.exists_cons
  have hword := h.2
  have hc := hword c List.mem_cons_self
  obtain ⟨⟨hwhite, -, hdouble, hsingle, -⟩, -⟩ := rules_of_isWordChar hc
  obtain ⟨hname, hnumber⟩ := rules_of_isNameStart hstart hc
  have hcontinues : ∀ d ∈ t, continuesName d = true := fun d hd =>
    (rules_of_isWordChar (hword d (List.mem_cons_of_mem _ hd))).1.2.1
  refine readAs_of_lexeme? (fun d hd => ?_) ?_
  · cases hd
    exact hwhite
  · have hnone : numberLength? (c :: (t ++ rest)) = none := length?_eq_none hnumber _
    rw [List.cons_append, lexeme?, if_neg (by simp [hdouble, hsingle]), firstMatch?_word hc, hnone]
    dsimp only
    rw [if_pos hname, hrest.leading_eq hcontinues]
    dsimp only
    rw [Nat.add_comm 1, ← List.length_cons, ← List.cons_append, List.take_left]
    rfl

/-- White space is passed over. -/
theorem readAs_white {c : Char} (hc : isWhiteSpace c = true) : ReadAs row column [c] [] rest :=
  lexCode_white hc rest

/-- A bracket or comma is one token. -/
theorem readAs_punctuation {c : Char} (hc : c ∈ ['(', ')', ',']) :
    ReadAs row column [c] [tokenAt .punctuation row column [c]] rest := by
  refine readAs_of_lexeme? (forall_head? ?_ []) ?_
  · revert c
    decide
  · simp only [List.mem_cons, List.not_mem_nil, or_false] at hc
    rcases hc with rfl | rfl | rfl
    · rfl
    · rfl
    · rfl

/-- The dollar between an object and its method is one token. -/
theorem readAs_dollar : ReadAs row column ['$'] [tokenAt .operator row column ['$']] rest :=
  readAs_of_lexeme? (forall_head? (by decide) _) rfl

/-- What starts like an operator, and like nothing else, is read as one. -/
theorem lexeme?_operator {c : Char} (hc : c = ':' ∨ c = '=') {t : Text} {n : Nat}
    (h : operatorLength? (c :: t) = some n) : lexeme? Rule.all (c :: t) = some (.operator, n) := by
  obtain ⟨hdouble, hsingle, hstarts⟩ : c ≠ '\x22' ∧ c ≠ '\x27' ∧
      ∀ rule ∈ [Rule.comment, Rule.quotedName, Rule.number, Rule.name], rule.starts c = false := by
    rcases hc with rfl | rfl <;> decide +kernel
  have hnone {rule : Rule}
      (hrule : rule ∈ [Rule.comment, Rule.quotedName, Rule.number, Rule.name]) :
      rule.length? (c :: t) = none :=
    length?_eq_none (hstarts rule hrule) t
  rw [lexeme?, if_neg (by simp [hdouble, hsingle])]
  simp only [Rule.all, firstMatch?_cons, hnone, List.mem_cons, true_or, or_true]
  rw [length?, h]
  rfl

/-- Two colons are one token in front of anything but a third. -/
theorem readAs_colons (h : rest.head? ≠ some ':') :
    ReadAs row column [':', ':'] [tokenAt .operator row column [':', ':']] rest := by
  refine readAs_of_lexeme? (forall_head? (by decide) _) (lexeme?_operator (Or.inl rfl) ?_)
  cases rest with
  | nil => rfl
  | cons c rest =>
    have hc : c ≠ ':' := fun heq => h (by rw [heq]; rfl)
    have hfind : longOperators.find? (·.isPrefixOf (':' :: ':' :: c :: rest)) =
        some [':', ':'] := by
      simp [longOperators, List.isPrefixOf, Ne.symm hc]
    change operatorLength? (':' :: ':' :: c :: rest) = some 2
    rw [operatorLength?, hfind]
    rfl

/-- An equals sign is one token in front of anything but a second. -/
theorem readAs_equals (h : rest.head? ≠ some '=') :
    ReadAs row column ['='] [tokenAt .operator row column ['=']] rest := by
  refine readAs_of_lexeme? (forall_head? (by decide) _) (lexeme?_operator (Or.inr rfl) ?_)
  cases rest with
  | nil => rfl
  | cons c rest =>
    have hc : c ≠ '=' := fun heq => h (by rw [heq]; rfl)
    have hfind : longOperators.find? (·.isPrefixOf ('=' :: c :: rest)) = none := by
      simp [longOperators, List.isPrefixOf, Ne.symm hc]
    have hpercent : percentLength? ('=' :: c :: rest) = none := rfl
    change operatorLength? ('=' :: c :: rest) = some 1
    rw [operatorLength?, hfind]
    dsimp only
    rw [hpercent]
    rfl

/-- A string ends at the first of its quotes that no backslash takes along. -/
theorem closingQuote?_append {quote : Char} (hne : quote ≠ '\\') {s : Text} (hquote : quote ∉ s)
    (hescape : '\\' ∉ s) (rest : Text) :
    closingQuote? quote (s ++ quote :: rest) = some (s.length + 1) := by
  induction s with
  | nil => rw [List.nil_append, closingQuote?_cons _ hne, if_pos rfl]; rfl
  | cons c s ih =>
    rw [List.mem_cons, not_or] at hquote hescape
    rw [List.cons_append, closingQuote?_cons _ (Ne.symm hescape.1), if_neg (Ne.symm hquote.1),
      ih hquote.2 hescape.2]
    rfl

/-- A string is one token. -/
theorem readAs_string {quote : Char} (h : quote = '\x22' ∨ quote = '\x27') {s : Text}
    (hquote : quote ∉ s) (hescape : '\\' ∉ s) :
    ReadAs row column (quote :: s ++ [quote])
      [tokenAt .string row column (quote :: s ++ [quote])] rest := by
  have hmark : isWhiteSpace quote = false ∧ quote ≠ '\\' := by
    rcases h with rfl | rfl <;> decide
  refine readAs_of_lexeme? (forall_head? hmark.1 _) ?_
  rw [List.cons_append, List.cons_append, List.append_assoc, List.singleton_append, lexeme?,
    if_pos h, closingQuote?_append hmark.2 hquote hescape]
  simp

/-- A string that needs no escapes is one token. -/
theorem readAs_quoted {s : Text} (h : ∀ c ∈ s, isQuotable c = true) :
    ReadAs row column ('\x22' :: s ++ ['\x22'])
      [tokenAt .string row column ('\x22' :: s ++ ['\x22'])] rest :=
  readAs_string (Or.inl rfl) (fun hc => absurd (h _ hc) (by decide))
    fun hc => absurd (h _ hc) (by decide)

/-! ## Values -/

/-- A text is read as tokens that reach from its first to its last character, and belong to one
argument. -/
structure ReadAsValue (row column : Nat) (t : Text) (ts : List Token) (rest : Text) : Prop where
  /-- the tokens are read -/
  reads : ReadAs row column t ts rest
  /-- the first token starts with the text -/
  start_eq : ts.head?.map (·.start) = some ⟨row, column⟩
  /-- the last token stops with the text -/
  stop_eq : ts.getLast?.map (·.stop) = some ⟨row, column + t.length⟩
  /-- no argument is cut in between -/
  neutral : Neutral 0 ts

namespace ReadAsValue

variable {t u : Text} {ts us : List Token}

theorem append (ht : ReadAsValue row column t ts (u ++ rest))
    (hu : ReadAsValue row (column + t.length) u us rest) :
    ReadAsValue row column (t ++ u) (ts ++ us) rest where
  reads := ht.reads.append hu.reads
  start_eq := by
    obtain ⟨first, hfirst, hstart⟩ := Option.map_eq_some_iff.mp ht.start_eq
    rw [List.head?_append, hfirst, Option.some_or, Option.map_some, hstart]
  stop_eq := by
    obtain ⟨last, hlast, hstop⟩ := Option.map_eq_some_iff.mp hu.stop_eq
    rw [List.getLast?_append, hlast, Option.some_or, Option.map_some, hstop, List.length_append,
      Nat.add_assoc]
  neutral := ht.neutral.append hu.neutral

/-- A token that is no bracket or comma makes up a value. -/
theorem of_token {kind : TokenKind}
    (hkind : kind ≠ .punctuation ∧ kind ≠ .comment ∧ kind ≠ .chunkEnd)
    (h : ReadAs row column t [tokenAt kind row column t] rest) :
    ReadAsValue row column t [tokenAt kind row column t] rest :=
  ⟨h, rfl, rfl, neutral_tokenAt hkind t⟩

end ReadAsValue

/-- What is read of a word does not reach beyond it, and is no bracket or comma. What follows the
word does not matter. -/
theorem lexeme?_word {w : Text} (h : IsWord w) :
    ∃ kind n, (1 ≤ n ∧ n ≤ w.length) ∧
      (kind ≠ .punctuation ∧ kind ≠ .comment ∧ kind ≠ .chunkEnd) ∧
      ∀ rest, StopsWord rest → lexeme? Rule.all (w ++ rest) = some (kind, n) := by
  obtain ⟨hne, hword⟩ := h
  obtain ⟨c, w, rfl⟩ := List.exists_cons_of_ne_nil hne
  have hc := hword c List.mem_cons_self
  obtain ⟨⟨-, -, hdouble, hsingle, -⟩, -⟩ := rules_of_isWordChar hc
  have hcontinues : ∀ d ∈ w, continuesName d = true := fun d hd =>
    (rules_of_isWordChar (hword d (List.mem_cons_of_mem _ hd))).1.2.1
  have hmatch (rest : Text) (hrest : StopsWord rest) : firstMatch? Rule.all (c :: (w ++ rest)) =
      match numberLength? (c :: w) with
      | some n => some (.number, n)
      | none => if startsName c then some (.name, 1 + w.length) else none := by
    rw [firstMatch?_word hc, ← List.cons_append, numberLength?_append hrest.stopsNumber,
      hrest.leading_eq hcontinues]
  have hlexeme {rule : Rule} {n : Nat} (hn : n ≤ (c :: w).length)
      (hrule : ∀ rest, StopsWord rest → firstMatch? Rule.all (c :: (w ++ rest)) = some (rule, n)) :
      ∀ rest, StopsWord rest → lexeme? Rule.all (c :: w ++ rest) =
        some (rule.kind.ofLexeme ((c :: w).take n), n) := by
    intro rest hrest
    rw [List.cons_append, lexeme?, if_neg (by simp [hdouble, hsingle]), hrule rest hrest]
    dsimp only
    rw [← List.cons_append, List.take_append_of_le_length hn]
  cases hnumber : numberLength? (c :: w) with
  | some n =>
    have hbounds := length?_bounds (show length? .number (c :: w) = some n from hnumber)
    exact ⟨Rule.number.kind.ofLexeme _, n, hbounds, TokenKind.ofLexeme_ne (Or.inr rfl) _,
      hlexeme hbounds.2 fun rest hrest => by rw [hmatch rest hrest, hnumber]⟩
  | none =>
    by_cases hname : startsName c = true
    · have hle : 1 + w.length ≤ (c :: w).length := Nat.le_of_eq (Nat.add_comm _ _)
      exact ⟨Rule.name.kind.ofLexeme _, 1 + w.length, ⟨Nat.le_add_right _ _, hle⟩,
        TokenKind.ofLexeme_ne (Or.inl rfl) _,
        hlexeme hle fun rest hrest => by rw [hmatch rest hrest, hnumber, if_pos hname]⟩
    · refine ⟨.unknown, 1, ⟨Nat.le_refl _, by simp⟩, by decide, fun rest hrest => ?_⟩
      rw [List.cons_append, lexeme?, if_neg (by simp [hdouble, hsingle]), hmatch rest hrest,
        hnumber, if_neg hname]

/-- The tokens of a word, whatever follows it. -/
theorem exists_readAs_word {w : Text} (h : IsWord w) :
    ∃ ts, ∀ rest, StopsWord rest → ReadAsValue row column w ts rest := by
  generalize hlength : w.length = length
  induction length using Nat.strongRecOn generalizing w column with
  | ind length ih =>
    subst hlength
    obtain ⟨kind, n, ⟨hpos, hle⟩, hkind, hlexeme⟩ := lexeme?_word h
    have htake : (w.take n).length = n := List.length_take_of_le hle
    have hwhite : ∀ c ∈ (w.take n).head?, isWhiteSpace c = false := fun c hc =>
      (rules_of_isWordChar (h.2 c (List.mem_of_mem_take (List.mem_of_mem_head? hc)))).1.1
    have hfirst (rest : Text) (hrest : StopsWord rest) : ReadAsValue row column (w.take n)
        [tokenAt kind row column (w.take n)] (w.drop n ++ rest) := by
      refine ReadAsValue.of_token hkind (readAs_of_lexeme? hwhite ?_)
      rw [← List.append_assoc, List.take_append_drop, htake, hlexeme rest hrest]
    by_cases hall : w.drop n = []
    · have hwhole : w.take n = w := by
        have := List.take_append_drop n w
        rwa [hall, List.append_nil] at this
      rw [hall, hwhole] at hfirst
      exact ⟨_, hfirst⟩
    · have hdrop : IsWord (w.drop n) := ⟨hall, fun c hc => h.2 c (List.mem_of_mem_drop hc)⟩
      obtain ⟨ts, hts⟩ : ∃ ts, ∀ rest, StopsWord rest →
          ReadAsValue row (column + (w.take n).length) (w.drop n) ts rest :=
        ih (w.drop n).length (by rw [List.length_drop]; omega) hdrop rfl
      refine ⟨[tokenAt kind row column (w.take n)] ++ ts, fun rest hrest => ?_⟩
      have hwhole := (hfirst rest hrest).append (hts rest hrest)
      rwa [List.take_append_drop] at hwhole

/-- A text in brackets is read as tokens in brackets. -/
theorem ReadAsValue.bracketed {t : Text} {ts : List Token}
    (h : ReadAs row (column + 1) t ts (')' :: rest)) (hneutral : Neutral 1 ts) :
    ∃ us, ReadAsValue row column ('(' :: t ++ [')']) us rest := by
  have hopen : ReadAs row column ['('] [tokenAt .punctuation row column ['(']]
      (t ++ [')'] ++ rest) := readAs_punctuation (by decide)
  have hclose : ReadAs row (column + 1 + t.length) [')']
      [tokenAt .punctuation row (column + 1 + t.length) [')']] rest :=
    readAs_punctuation (by decide)
  have hreads := hopen.append (h.append hclose)
  refine ⟨_, hreads, rfl, ?_, Neutral.bracketed (is_tokenAt _ _ _ _) (is_tokenAt _ _ _ _) hneutral⟩
  rw [List.singleton_append, ← List.cons_append, List.getLast?_concat, Option.map_some]
  simp only [tokenAt, List.length_append, List.length_cons, List.length_nil]
  congr 2
  omega

/-- What stands between arguments ends every word. -/
theorem stopsWord_cons {c : Char} (hc : c ∈ ['(', ')', ',', ' ', ':', '$', '=']) (rest : Text) :
    StopsWord (c :: rest) := by
  have hstops : ∀ c ∈ ['(', ')', ',', ' ', ':', '$', '='],
      continuesName c = false ∧ endsNumber c = true := by decide +kernel
  intro d hd
  cases hd
  exact hstops c hc

theorem stopsWord_nil : StopsWord [] := nofun

/-- Texts with commas and spaces between them are read one after the other. Each text may be read
in view of where it stands on its line. -/
theorem exists_readAs_joined {α : Type} (f : α → Text) {line : Text} {p : α → List Token → Prop}
    {items : List α} (hne : items ≠ [])
    (hitems : ∀ item ∈ items, ∀ a b, line = a ++ (f item ++ b) → StopsWord b →
      ∃ ts, p item ts ∧ ReadAs row a.length (f item) ts b) (a b : Text)
    (hline : line = a ++ ([',', ' '].intercalate (items.map f) ++ b)) (hb : StopsWord b) :
    ∃ groups ts, List.Forall₂ p items groups ∧ Separated groups ts ∧
      ReadAs row a.length ([',', ' '].intercalate (items.map f)) ts b := by
  induction items generalizing a with
  | nil => exact absurd rfl hne
  | cons item more ih =>
    cases more with
    | nil =>
      rw [List.map_singleton, List.intercalate_singleton] at hline ⊢
      obtain ⟨ts, hp, hreads⟩ := hitems item List.mem_cons_self a b hline hb
      exact ⟨[ts], ts, .cons hp .nil, .last ts, hreads⟩
    | cons next more =>
      have hjoin : [',', ' '].intercalate ((item :: next :: more).map f) =
          f item ++ ([','] ++ ([' '] ++ [',', ' '].intercalate ((next :: more).map f))) := by
        simp [List.intercalate]
      rw [hjoin] at hline ⊢
      obtain ⟨ts, hp, hreads⟩ := hitems item List.mem_cons_self a
        ([','] ++ ([' '] ++ [',', ' '].intercalate ((next :: more).map f)) ++ b)
        (by rw [hline, List.append_assoc]) (stopsWord_cons (by decide) _)
      obtain ⟨groups, us, hps, hseparated, hrest⟩ := ih (List.cons_ne_nil _ _)
        (fun i hi => hitems i (List.mem_cons_of_mem _ hi)) (a ++ f item ++ [','] ++ [' '])
        (by rw [hline]; simp)
      have hcomma := is_tokenAt .punctuation row (a.length + (f item).length) [',']
      refine ⟨ts :: groups, _, .cons hp hps, .cons ts hcomma hseparated, ?_⟩
      rw [List.length_append, List.length_append, List.length_append] at hrest
      exact hreads.append ((readAs_punctuation (by decide)).append
        ((readAs_white (by decide)).append hrest))

/-- **A plain value is read as tokens that belong together.** -/
theorem exists_readAs_value {v : Text} (h : PlainValue v) (hrest : StopsWord rest) :
    ∃ ts, ReadAsValue row column v ts rest := by
  induction h generalizing column rest with
  | word h => exact (exists_readAs_word h).imp fun ts hts => hts rest hrest
  | quoted h => exact ⟨_, ReadAsValue.of_token (by decide) (readAs_quoted h)⟩
  | @call w h values _ ih =>
    obtain ⟨ts, hts⟩ : ∃ ts, ReadAsValue row column w ts
        (('(' :: [',', ' '].intercalate values ++ [')']) ++ rest) :=
      (exists_readAs_word h).imp fun ts hts => hts _ (stopsWord_cons (by decide) _)
    obtain ⟨inner, hinner, hneutral⟩ : ∃ inner,
        ReadAs row (column + w.length + 1) ([',', ' '].intercalate values) inner (')' :: rest) ∧
          Neutral 1 inner := by
      by_cases hnil : values = []
      · subst hnil
        exact ⟨[], ReadAs.nil, Neutral.nil⟩
      · -- any text of the right length may stand in front
        obtain ⟨a, ha⟩ : ∃ a : Text, a.length = column + w.length + 1 :=
          ⟨List.replicate _ ' ', List.length_replicate⟩
        have hvalues : ∀ v ∈ values, ∀ a' b', a ++ ([',', ' '].intercalate values ++ ')' :: rest) =
            a' ++ (v ++ b') → StopsWord b' →
              ∃ ts, Neutral 0 ts ∧ ReadAs row a'.length v ts b' := by
          intro v hv a' b' _ hb'
          obtain ⟨ts, hts⟩ : ∃ ts, ReadAsValue row a'.length v ts b' := ih v hv hb'
          exact ⟨ts, hts.neutral, hts.reads⟩
        obtain ⟨groups, inner, hgroups, hseparated, hinner⟩ :=
          exists_readAs_joined id hnil hvalues a (')' :: rest) (by rw [List.map_id])
            (stopsWord_cons (by decide) rest)
        rw [ha, List.map_id] at hinner
        exact ⟨inner, hinner, hseparated.neutral (forall_mem_of_forall₂ hgroups fun _ _ h => h)⟩
    obtain ⟨us, hus⟩ := ReadAsValue.bracketed hinner hneutral
    rw [List.append_assoc]
    exact ⟨_, hts.append hus⟩

end RmdOptions
