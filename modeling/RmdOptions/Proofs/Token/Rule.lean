import RmdOptions.Token.Rule

/-!
# How far a rule reads

A rule reads at least one character and never more than there are. How much it reads depends on the
text behind its token only in that this text must not go on with the token: numbers, names and
operators end where a character comes that cannot belong to them, and a name in backticks ends at
its own backtick.

* `Rule.length?_bounds`, `Rule.firstMatch?_bounds` — how much is read;
* `Rule.endsNumber`, `Rule.numberLength?_append` — the characters at which every number ends;
* `Rule.Replaceable` — two texts that may stand for each other behind the same text;
* `Rule.firstMatch?_replace` — what is read of the text before them then stays the same.
-/

namespace RmdOptions.Rule

variable {p q : Text} {n : Nat}

/-! ## Bounds -/

theorem leading_le (f : Char → Bool) (t : Text) : leading f t ≤ t.length :=
  (List.takeWhile_prefix f).length_le

theorem markLength_le (t : Text) : markLength t ≤ t.length := by
  unfold markLength
  split
  · exact Nat.le_refl _
  · split <;> simp

theorem quotedNameRest?_bounds {t : Text} (h : quotedNameRest? t = some n) :
    1 ≤ n ∧ n ≤ t.length := by
  fun_induction quotedNameRest? t generalizing n with
  | case1 => cases h
  | case2 rest =>
    cases h
    simp
  | case3 rest => cases h
  | case4 c rest _ ih =>
    obtain ⟨m, hm, rfl⟩ := Option.map_eq_some_iff.mp h
    have := ih hm
    simp only [List.length_cons]
    omega
  | case5 => cases h
  | case6 c rest _ _ _ ih =>
    obtain ⟨m, hm, rfl⟩ := Option.map_eq_some_iff.mp h
    have := ih hm
    simp only [List.length_cons]
    omega

theorem hexLength?_bounds {t : Text} (h : hexLength? t = some n) : 1 ≤ n ∧ n ≤ t.length := by
  unfold hexLength? at h
  split at h
  · next x rest =>
    split at h
    · split at h
      · cases h
      · next k hk =>
        cases h
        have hdigits := leading_le isHexDigit rest
        have hmark := markLength_le (rest.drop (k + 1))
        rw [List.length_drop] at hmark
        simp only [List.length_cons]
        omega
    · cases h
  · cases h

theorem fractionLength_le (t : Text) : fractionLength t ≤ t.length := by
  unfold fractionLength
  split
  · next rest =>
    have := leading_le isDecimalDigit rest
    simp only [List.length_cons]
    omega
  · exact Nat.zero_le _

theorem digitsLength?_bounds {t : Text} (h : digitsLength? t = some n) : 1 ≤ n ∧ n ≤ t.length := by
  unfold digitsLength? at h
  split at h
  · split at h
    · next rest _ =>
      split at h
      · cases h
      · next k hk =>
        cases h
        have := leading_le isDecimalDigit rest
        simp only [List.length_cons]
        omega
    · cases h
  · next k hk =>
    cases h
    have hdigits := leading_le isDecimalDigit t
    have hfraction := fractionLength_le (t.drop (k + 1))
    rw [List.length_drop] at hfraction
    omega

/-- The length of a sign. -/
def signLength : Text → Nat
  | c :: _ => if c = '+' ∨ c = '-' then 1 else 0
  | [] => 0

theorem exponentLength_cons (e : Char) (rest : Text) :
    exponentLength (e :: rest) =
      if e = 'e' ∨ e = 'E' then
        match leading isDecimalDigit (rest.drop (signLength rest)) with
        | 0 => 0
        | n + 1 => 1 + signLength rest + (n + 1)
      else 0 := by
  cases rest <;> rfl

theorem exponentLength_le (t : Text) : exponentLength t ≤ t.length := by
  cases t with
  | nil => exact Nat.le_refl _
  | cons e rest =>
    rw [exponentLength_cons]
    split
    · split
      · exact Nat.zero_le _
      · next k hk =>
        have := leading_le isDecimalDigit (rest.drop (signLength rest))
        rw [List.length_drop] at this
        change 1 + signLength rest + (k + 1) ≤ rest.length + 1
        omega
    · exact Nat.zero_le _

theorem decimalLength?_bounds {t : Text} (h : decimalLength? t = some n) :
    1 ≤ n ∧ n ≤ t.length := by
  obtain ⟨digits, hdigits, rfl⟩ := Option.map_eq_some_iff.mp h
  have hbounds := digitsLength?_bounds hdigits
  have hexponent := exponentLength_le (t.drop digits)
  have hmark := markLength_le (t.drop (digits + exponentLength (t.drop digits)))
  rw [List.length_drop] at hexponent hmark
  dsimp only
  omega

theorem operatorLength?_bounds {t : Text} (h : operatorLength? t = some n) :
    1 ≤ n ∧ n ≤ t.length := by
  unfold operatorLength? at h
  split at h
  · next op hop =>
    cases h
    have hmem : op ∈ longOperators := List.mem_of_find?_eq_some hop
    have hpositive : ∀ op ∈ longOperators, 1 ≤ op.length := by decide
    have hprefix := List.isPrefixOf_iff_prefix.mp
      (List.find?_some (p := fun op : Text => op.isPrefixOf t) hop)
    exact ⟨hpositive op hmem, hprefix.length_le⟩
  · split at h
    · next m hm =>
      cases h
      unfold percentLength? at hm
      split at hm
      · next rest =>
        dsimp only at hm
        split at hm
        · next hdrop =>
          cases hm
          have := congrArg List.length hdrop
          rw [List.length_drop, List.length_cons] at this
          simp only [List.length_cons]
          omega
        · cases hm
      · cases hm
    · split at h
      · split at h
        · cases h
          simp
        · cases h
      · cases h

theorem commentLength?_bounds {t : Text} (h : commentLength? t = some n) :
    1 ≤ n ∧ n ≤ t.length := by
  unfold commentLength? at h
  split at h
  · next rest =>
    cases h
    have := leading_le (· != '\n') rest
    simp only [List.length_cons]
    omega
  · cases h

theorem quotedNameLength?_bounds {t : Text} (h : quotedNameLength? t = some n) :
    1 ≤ n ∧ n ≤ t.length := by
  unfold quotedNameLength? at h
  split at h
  · obtain ⟨m, hm, rfl⟩ := Option.map_eq_some_iff.mp h
    have := quotedNameRest?_bounds hm
    simp only [List.length_cons]
    omega
  · cases h

theorem nameLength?_bounds {t : Text} (h : nameLength? t = some n) : 1 ≤ n ∧ n ≤ t.length := by
  unfold nameLength? at h
  split at h
  · cases h
  · next c rest =>
    split at h
    · cases h
      have := leading_le continuesName rest
      simp only [List.length_cons]
      omega
    · cases h

theorem punctuationLength?_bounds {t : Text} (h : punctuationLength? t = some n) :
    1 ≤ n ∧ n ≤ t.length := by
  unfold punctuationLength? at h
  split at h
  · split at h
    · cases h
      simp
    · cases h
  · cases h

/-- A rule reads at least one character, and no more than there are. -/
theorem length?_bounds {rule : Rule} {t : Text} (h : rule.length? t = some n) :
    1 ≤ n ∧ n ≤ t.length := by
  cases rule with
  | comment => exact commentLength?_bounds h
  | quotedName => exact quotedNameLength?_bounds h
  | number =>
    rcases Option.or_eq_some_iff.mp h with h | ⟨-, h⟩
    · exact hexLength?_bounds h
    · exact decimalLength?_bounds h
  | name => exact nameLength?_bounds h
  | operator => exact operatorLength?_bounds h
  | punctuation => exact punctuationLength?_bounds h

theorem firstMatch?_bounds {rules : List Rule} {rule : Rule} {t : Text}
    (h : firstMatch? rules t = some (rule, n)) : 1 ≤ n ∧ n ≤ t.length := by
  obtain ⟨tried, -, hmatch⟩ := List.exists_of_findSome?_eq_some h
  obtain ⟨m, hm, heq⟩ := Option.map_eq_some_iff.mp hmatch
  cases heq
  exact length?_bounds hm

/-! ## First characters

By its first character a text rules out most of the rules. -/

/-- Whether the token of a rule can start with a character. -/
def starts : Rule → Char → Bool
  | .comment, c => c == '#'
  | .quotedName, c => c == '\x60'
  | .number, c => isDecimalDigit c || c == '.'
  | .name, c => startsName c
  | .operator, c => c == '%' || c ∈ shortOperators
  | .punctuation, c => c ∈ punctuationMarks

theorem commentLength?_eq_none {c : Char} (hc : c ≠ '#') (t : Text) :
    commentLength? (c :: t) = none := by
  rw [commentLength?]
  exact fun _ heq => hc (List.cons.inj heq).1

theorem quotedNameLength?_eq_none {c : Char} (hc : c ≠ '\x60') (t : Text) :
    quotedNameLength? (c :: t) = none := by
  rw [quotedNameLength?]
  exact fun _ heq => hc (List.cons.inj heq).1

theorem hexLength?_eq_none {c : Char} (hc : c ≠ '0') (t : Text) : hexLength? (c :: t) = none := by
  rw [hexLength?]
  exact fun _ _ heq => hc (List.cons.inj heq).1

theorem digitsLength?_eq_none {c : Char} (hdigit : isDecimalDigit c = false) (hpoint : c ≠ '.')
    (t : Text) : digitsLength? (c :: t) = none := by
  have hleading : leading isDecimalDigit (c :: t) = 0 := by simp [leading, hdigit]
  rw [digitsLength?, hleading]
  exact fun _ heq => hpoint (List.cons.inj heq).1

theorem numberLength?_eq_none {c : Char} (hdigit : isDecimalDigit c = false) (hpoint : c ≠ '.')
    (t : Text) : numberLength? (c :: t) = none := by
  have hzero : c ≠ '0' := by
    rintro rfl
    exact absurd hdigit (by decide)
  rw [numberLength?, hexLength?_eq_none hzero, decimalLength?, digitsLength?_eq_none hdigit hpoint]
  rfl

theorem percentLength?_eq_none {c : Char} (hc : c ≠ '%') (t : Text) :
    percentLength? (c :: t) = none := by
  rw [percentLength?]
  exact fun _ heq => hc (List.cons.inj heq).1

/-- The long operators start like short ones. -/
theorem operatorLength?_eq_none {c : Char} (hpercent : c ≠ '%') (hshort : c ∉ shortOperators)
    (t : Text) : operatorLength? (c :: t) = none := by
  have hfind : longOperators.find? (·.isPrefixOf (c :: t)) = none := by
    have hlong : ∀ op ∈ longOperators, op.head?.any (· ∈ shortOperators) = true := by decide
    rw [List.find?_eq_none]
    intro op hop hprefix
    obtain ⟨d, hd, hmem⟩ := (Option.any_eq_true _ _).mp (hlong op hop)
    obtain ⟨rest, rfl⟩ := List.head?_eq_some_iff.mp hd
    obtain rfl : d = c := (List.cons_prefix_cons.mp (List.isPrefixOf_iff_prefix.mp hprefix)).1
    exact hshort (of_decide_eq_true hmem)
  unfold operatorLength?
  rw [hfind, percentLength?_eq_none hpercent]
  exact if_neg hshort

/-- A rule reads nothing where its token cannot start. -/
theorem length?_eq_none {rule : Rule} {c : Char} (h : rule.starts c = false) (t : Text) :
    rule.length? (c :: t) = none := by
  cases rule with
  | comment => exact commentLength?_eq_none (by simpa [starts] using h) t
  | quotedName => exact quotedNameLength?_eq_none (by simpa [starts] using h) t
  | number =>
    simp only [starts, Bool.or_eq_false_iff, beq_eq_false_iff_ne] at h
    exact numberLength?_eq_none h.1 h.2 t
  | name => exact if_neg (ne_true_of_eq_false h)
  | operator =>
    simp only [starts, Bool.or_eq_false_iff, beq_eq_false_iff_ne, decide_eq_false_iff_not] at h
    exact operatorLength?_eq_none h.1 h.2 t
  | punctuation => exact if_neg (of_decide_eq_false h)

/-! ## Where numbers end

A number that has been read looks ahead for digits, a point, an exponent, a hexadecimal mark and a
final letter. It ends at any other character. -/

/-- Whether every number ends where the character comes. -/
def endsNumber (c : Char) : Bool :=
  !(isDecimalDigit c || isHexDigit c || ['.', 'L', 'i', 'x', 'X', '+', '-'].contains c)

/-- Whether every number ends where the text comes, which may be the end of all. -/
def StopsNumber (t : Text) : Prop := ∀ c ∈ t.head?, endsNumber c = true

theorem StopsNumber.not_digit {c : Char} {rest : Text} (h : StopsNumber (c :: rest)) :
    isDecimalDigit c = false ∧ isHexDigit c = false := by
  have := h c rfl
  simp only [endsNumber, Bool.not_eq_true', Bool.or_eq_false_iff] at this
  exact this.1

theorem StopsNumber.ne {c : Char} {rest : Text} (h : StopsNumber (c :: rest)) :
    c ≠ '.' ∧ c ≠ 'L' ∧ c ≠ 'i' ∧ c ≠ 'x' ∧ c ≠ 'X' ∧ c ≠ '+' ∧ c ≠ '-' := by
  have := h c rfl
  simp only [endsNumber, Bool.not_eq_true', Bool.or_eq_false_iff] at this
  simpa using this.2

theorem leading_append {f : Char → Bool} (hq : ∀ c ∈ q.head?, f c = false) (p : Text) :
    leading f (p ++ q) = leading f p := by
  induction p with
  | nil =>
    cases q with
    | nil => rfl
    | cons c rest => simp [leading, hq c rfl]
  | cons c p ih =>
    by_cases hc : f c
    · simpa [leading, hc] using ih
    · simp [leading, hc]

theorem StopsNumber.leading_digits (hq : StopsNumber q) (p : Text) :
    leading isDecimalDigit (p ++ q) = leading isDecimalDigit p := by
  refine leading_append (fun c hc => ?_) p
  obtain ⟨rest, rfl⟩ := List.head?_eq_some_iff.mp hc
  exact hq.not_digit.1

theorem StopsNumber.leading_hexDigits (hq : StopsNumber q) (p : Text) :
    leading isHexDigit (p ++ q) = leading isHexDigit p := by
  refine leading_append (fun c hc => ?_) p
  obtain ⟨rest, rfl⟩ := List.head?_eq_some_iff.mp hc
  exact hq.not_digit.2

theorem markLength_append (hq : StopsNumber q) (p : Text) : markLength (p ++ q) = markLength p := by
  cases p with
  | cons c p => rfl
  | nil =>
    cases q with
    | nil => rfl
    | cons c rest =>
      have := hq.ne
      simp [markLength, this]

theorem fractionLength_append (hq : StopsNumber q) (p : Text) :
    fractionLength (p ++ q) = fractionLength p := by
  cases p with
  | nil =>
    cases q with
    | nil => rfl
    | cons c rest =>
      have := hq.ne
      unfold fractionLength
      split
      · next heq => exact absurd (List.cons.inj heq).1 this.1
      · rfl
  | cons c p =>
    by_cases hc : c = '.'
    · subst hc
      simp only [List.cons_append, fractionLength, hq.leading_digits]
    · have (t : Text) : fractionLength (c :: t) = 0 := by
        unfold fractionLength
        split
        · next heq => exact absurd (List.cons.inj heq).1 hc
        · rfl
      rw [List.cons_append, this, this]

theorem exponentLength_append (hq : StopsNumber q) (p : Text) :
    exponentLength (p ++ q) = exponentLength p := by
  cases p with
  | nil =>
    cases q with
    | nil => rfl
    | cons c rest =>
      have hc : ¬ (c = 'e' ∨ c = 'E') := by
        rintro (rfl | rfl)
        · exact absurd hq.not_digit.2 (by decide)
        · exact absurd hq.not_digit.2 (by decide)
      rw [List.nil_append, exponentLength_cons, if_neg hc]
      rfl
  | cons e p =>
    have hsign : signLength (p ++ q) = signLength p := by
      cases p with
      | cons c p => rfl
      | nil =>
        cases q with
        | nil => rfl
        | cons c rest =>
          have := hq.ne
          simp [signLength, this]
    have hle : signLength p ≤ p.length := by
      cases p with
      | nil => exact Nat.le_refl _
      | cons c p =>
        simp only [signLength]
        split <;> simp
    rw [List.cons_append, exponentLength_cons, exponentLength_cons, hsign,
      List.drop_append_of_le_length hle, hq.leading_digits]

theorem digitsLength?_append (hq : StopsNumber q) (p : Text) :
    digitsLength? (p ++ q) = digitsLength? p := by
  unfold digitsLength?
  rw [hq.leading_digits]
  split
  · cases p with
    | nil =>
      cases q with
      | nil => rfl
      | cons c rest =>
        have := hq.ne
        split
        · next heq => exact absurd (List.cons.inj heq).1 this.1
        · rfl
    | cons c p =>
      by_cases hc : c = '.'
      · subst hc
        simp only [List.cons_append, hq.leading_digits]
      · simp [hc]
  · next k hk =>
    have hle := leading_le isDecimalDigit p
    rw [hk] at hle
    rw [List.drop_append_of_le_length hle, fractionLength_append hq]

theorem decimalLength?_append (hq : StopsNumber q) (p : Text) :
    decimalLength? (p ++ q) = decimalLength? p := by
  unfold decimalLength?
  rw [digitsLength?_append hq]
  cases hdigits : digitsLength? p with
  | none => rfl
  | some digits =>
    have hle := (digitsLength?_bounds hdigits).2
    have hexponent := exponentLength_le (p.drop digits)
    rw [List.length_drop] at hexponent
    have hle' : digits + exponentLength (p.drop digits) ≤ p.length := by omega
    simp only [Option.map_some, List.drop_append_of_le_length hle, exponentLength_append hq,
      List.drop_append_of_le_length hle', markLength_append hq]

theorem hexLength?_append (hq : StopsNumber q) (p : Text) : hexLength? (p ++ q) = hexLength? p := by
  match p with
  | [] =>
    cases q with
    | nil => rfl
    | cons c rest =>
      have hc : c ≠ '0' := by
        rintro rfl
        exact absurd hq.not_digit.1 (by decide)
      exact hexLength?_eq_none hc rest
  | [c] =>
    by_cases hc : c = '0'
    · subst hc
      cases q with
      | nil => rfl
      | cons x rest =>
        have := hq.ne
        simp [hexLength?, this]
    · rw [List.singleton_append, hexLength?_eq_none hc, hexLength?_eq_none hc]
  | c :: x :: p =>
    by_cases hc : c = '0'
    · subst hc
      simp only [List.cons_append, hexLength?, hq.leading_hexDigits]
      split
      · split
        · rfl
        · next k hk =>
          have hle := leading_le isHexDigit p
          rw [hk] at hle
          rw [List.drop_append_of_le_length hle, markLength_append hq]
      · rfl
    · simp only [List.cons_append, hexLength?_eq_none hc]

/-- What is read as a number does not depend on a text at which numbers end. -/
theorem numberLength?_append (hq : StopsNumber q) (p : Text) :
    numberLength? (p ++ q) = numberLength? p := by
  rw [numberLength?, numberLength?, hexLength?_append hq, decimalLength?_append hq]

/-! ## Exchanging what follows

A token that ends before a name starts is read from the text in front of that name alone, except
that an operator in percent signs and a name in backticks look for their end in all that follows. -/

/-- Whether a name goes on with the character, and numbers and long operators end at it. -/
def isPlainLetter (c : Char) : Bool :=
  continuesName c && endsNumber c && longOperators.all fun op => !op.contains c

/-- Behind any text, `q` may be exchanged for `r`: a name starts in both, and `r` ends nothing that
has been open. -/
structure Replaceable (q r : Text) : Prop where
  /-- the old text starts with a letter -/
  old : ∃ c rest, q = c :: rest ∧ isPlainLetter c = true
  /-- the new text starts with a letter -/
  new : ∃ c rest, r = c :: rest ∧ isPlainLetter c = true
  /-- the new text ends no operator -/
  percent : '%' ∉ r
  /-- the new text ends no name -/
  backtick : '\x60' ∉ r

theorem stopsNumber_of_isPlainLetter {c : Char} (h : isPlainLetter c = true) (rest : Text) :
    StopsNumber (c :: rest) := by
  intro d hd
  cases hd
  simp only [isPlainLetter, Bool.and_eq_true] at h
  exact h.1.2

/-- A prefix without the first character of what follows is found in front of it. -/
theorem isPrefixOf_append {op : Text} {c : Char} (hc : c ∉ op) (p rest : Text) :
    op.isPrefixOf (p ++ c :: rest) = op.isPrefixOf p := by
  induction op generalizing p with
  | nil => simp
  | cons o op ih =>
    rw [List.mem_cons, not_or] at hc
    cases p with
    | nil =>
      have : (o == c) = false := by simpa using Ne.symm hc.1
      simp only [List.nil_append, List.isPrefixOf_cons_cons, this, Bool.false_and,
        List.isPrefixOf_cons_nil]
    | cons x p => simp only [List.cons_append, List.isPrefixOf_cons_cons, ih hc.2]

theorem find?_isPrefixOf_append {ops : List Text} {c : Char} (hc : ∀ op ∈ ops, c ∉ op)
    (p rest : Text) :
    ops.find? (·.isPrefixOf (p ++ c :: rest)) = ops.find? (·.isPrefixOf p) := by
  induction ops with
  | nil => rfl
  | cons op ops ih =>
    rw [List.find?_cons, List.find?_cons, isPrefixOf_append (hc op List.mem_cons_self),
      ih fun o ho => hc o (List.mem_cons_of_mem _ ho)]

theorem find?_longOperators_append {c : Char} (hc : isPlainLetter c = true) (p rest : Text) :
    longOperators.find? (·.isPrefixOf (p ++ c :: rest)) =
      longOperators.find? (·.isPrefixOf p) := by
  simp only [isPlainLetter, Bool.and_eq_true, List.all_eq_true] at hc
  exact find?_isPrefixOf_append (fun op hop => by simpa using hc.2 op hop) p rest

/-- A character that is no backslash at the end, nor one with a character behind it, is none. -/
theorem ne_backslash {c : Char} {rest : Text} (hlast : c = '\\' → rest = [] → False)
    (hpair : ∀ d more, c = '\\' → rest = d :: more → False) : c ≠ '\\' := by
  intro hc
  cases rest with
  | nil => exact hlast hc rfl
  | cons d more => exact hpair d more hc rfl

theorem quotedNameRest?_cons {c : Char} (hquote : c ≠ '\x60') (hescape : c ≠ '\\') (rest : Text) :
    quotedNameRest? (c :: rest) = (quotedNameRest? rest).map (· + 1) := by
  rw [quotedNameRest?]
  · exact hquote
  · exact fun _ _ hc => absurd hc hescape
  · exact fun hc => absurd hc hescape

/-- A name that is closed in front of some text is closed there whatever follows. -/
theorem quotedNameRest?_append_of_le (h : quotedNameRest? (p ++ q) = some n) (hn : n ≤ p.length)
    (r : Text) : quotedNameRest? (p ++ r) = some n := by
  fun_induction quotedNameRest? p generalizing n with
  | case1 =>
    have := quotedNameRest?_bounds h
    simp only [List.length_nil] at hn
    omega
  | case2 rest => exact h
  | case3 rest => simp [quotedNameRest?] at h
  | case4 c rest hc ih =>
    simp only [List.cons_append, quotedNameRest?, if_neg hc] at h ⊢
    obtain ⟨m, hm, rfl⟩ := Option.map_eq_some_iff.mp h
    rw [ih hm (by simp only [List.length_cons] at hn; omega)]
    rfl
  | case5 =>
    cases q with
    | nil => simp [quotedNameRest?] at h
    | cons c q =>
      simp only [List.cons_append, List.nil_append, quotedNameRest?] at h
      split at h
      · cases h
      · obtain ⟨m, -, rfl⟩ := Option.map_eq_some_iff.mp h
        simp only [List.length_cons, List.length_nil] at hn
        omega
  | case6 c rest hquote hpair hlast ih =>
    have hescape := ne_backslash hlast hpair
    rw [List.cons_append, quotedNameRest?_cons hquote hescape] at h ⊢
    obtain ⟨m, hm, rfl⟩ := Option.map_eq_some_iff.mp h
    rw [ih hm (by simp only [List.length_cons] at hn; omega)]
    rfl

theorem quotedNameRest?_eq_none_of_not_mem {t : Text} (h : '\x60' ∉ t) :
    quotedNameRest? t = none := by
  fun_induction quotedNameRest? t with
  | case1 => rfl
  | case2 => exact absurd List.mem_cons_self h
  | case3 => rfl
  | case4 c rest _ ih =>
    rw [ih fun hmem => h (List.mem_cons_of_mem _ (List.mem_cons_of_mem _ hmem))]
    rfl
  | case5 => rfl
  | case6 c rest _ _ _ ih =>
    rw [ih fun hmem => h (List.mem_cons_of_mem _ hmem)]
    rfl

/-- A name that is not closed stays open before a text without backticks. -/
theorem quotedNameRest?_append_eq_none (h : quotedNameRest? (p ++ q) = none) {r : Text}
    (hr : '\x60' ∉ r) : quotedNameRest? (p ++ r) = none := by
  fun_induction quotedNameRest? p with
  | case1 => exact quotedNameRest?_eq_none_of_not_mem hr
  | case2 rest => exact h
  | case3 rest => rfl
  | case4 c rest hc ih =>
    simp only [List.cons_append, quotedNameRest?, if_neg hc, Option.map_eq_none_iff] at h ⊢
    exact ih h
  | case5 =>
    cases r with
    | nil => rfl
    | cons c r =>
      simp only [List.cons_append, List.nil_append, quotedNameRest?]
      split
      · rfl
      · rw [quotedNameRest?_eq_none_of_not_mem fun hmem => hr (List.mem_cons_of_mem _ hmem)]
        rfl
  | case6 c rest hquote hpair hlast ih =>
    have hescape := ne_backslash hlast hpair
    rw [List.cons_append, quotedNameRest?_cons hquote hescape, Option.map_eq_none_iff] at h ⊢
    exact ih h

theorem leading_append_of_all {f : Char → Bool} (h : ∀ c ∈ p, f c = true) (t : Text) :
    leading f (p ++ t) = p.length + leading f t := by
  rw [leading, List.takeWhile_append_of_pos h, List.length_append, leading]

/-- What stops within a text stops there whatever follows. -/
theorem leading_append_of_not_all {f : Char → Bool} (h : ¬ ∀ c ∈ p, f c = true) (t : Text) :
    leading f (p ++ t) = leading f p ∧ leading f p < p.length := by
  induction p with
  | nil => exact absurd (fun _ hc => absurd hc List.not_mem_nil) h
  | cons c p ih =>
    by_cases hc : f c = true
    · have hp : ¬ ∀ d ∈ p, f d = true := by
        intro hall
        refine h fun d hd => ?_
        rcases List.mem_cons.mp hd with rfl | hd
        · exact hc
        · exact hall d hd
      obtain ⟨hsame, hlt⟩ := ih hp
      simp only [leading] at hsame hlt
      simp only [leading, List.cons_append, List.takeWhile_cons_of_pos hc, List.length_cons]
      omega
    · simp [leading, List.takeWhile_cons_of_neg hc]

/-! ### One rule at a time -/

theorem commentLength?_replace {r : Text} (hp : p ≠ []) (hfeed : '\n' ∉ p) (h : Replaceable q r)
    (hle : ∀ n, commentLength? (p ++ q) = some n → n ≤ p.length) :
    commentLength? (p ++ r) = commentLength? (p ++ q) := by
  obtain ⟨c, p, rfl⟩ := List.exists_cons_of_ne_nil hp
  by_cases hc : c = '#'
  · -- a comment would take the name along that starts behind it
    subst hc
    exfalso
    obtain ⟨d, rest, rfl, hd⟩ := h.old
    have hd : (d != '\n') = true := by
      rw [bne_iff_ne]
      rintro rfl
      exact absurd hd (by decide)
    have hall : ∀ x ∈ p, (x != '\n') = true := by
      intro x hx
      rw [bne_iff_ne]
      rintro rfl
      exact hfeed (List.mem_cons_of_mem _ hx)
    have hle : 1 + leading (· != '\n') (p ++ d :: rest) ≤ p.length + 1 := hle _ rfl
    rw [leading_append_of_all hall, leading, List.takeWhile_cons, if_pos hd,
      List.length_cons] at hle
    omega
  · rw [List.cons_append, List.cons_append, commentLength?_eq_none hc, commentLength?_eq_none hc]

theorem quotedNameLength?_replace {r : Text} (hp : p ≠ []) (h : Replaceable q r)
    (hle : ∀ n, quotedNameLength? (p ++ q) = some n → n ≤ p.length) :
    quotedNameLength? (p ++ r) = quotedNameLength? (p ++ q) := by
  obtain ⟨c, p, rfl⟩ := List.exists_cons_of_ne_nil hp
  by_cases hc : c = '\x60'
  · subst hc
    simp only [List.cons_append, quotedNameLength?] at hle ⊢
    cases hrest : quotedNameRest? (p ++ q) with
    | none => rw [quotedNameRest?_append_eq_none hrest h.backtick]
    | some m =>
      have hle := hle (m + 1) (by rw [hrest]; rfl)
      rw [quotedNameRest?_append_of_le hrest (by simpa using hle)]
  · rw [List.cons_append, List.cons_append, quotedNameLength?_eq_none hc,
      quotedNameLength?_eq_none hc]

theorem numberLength?_replace {r : Text} (h : Replaceable q r) :
    numberLength? (p ++ r) = numberLength? (p ++ q) := by
  obtain ⟨c, rest, rfl, hc⟩ := h.old
  obtain ⟨d, rest', rfl, hd⟩ := h.new
  rw [numberLength?_append (stopsNumber_of_isPlainLetter hc rest),
    numberLength?_append (stopsNumber_of_isPlainLetter hd rest')]

theorem nameLength?_replace {r : Text} (hp : p ≠ []) (h : Replaceable q r)
    (hle : ∀ n, nameLength? (p ++ q) = some n → n ≤ p.length) :
    nameLength? (p ++ r) = nameLength? (p ++ q) := by
  obtain ⟨c, p, rfl⟩ := List.exists_cons_of_ne_nil hp
  simp only [List.cons_append, nameLength?] at hle ⊢
  split
  · next hc =>
    by_cases hall : ∀ x ∈ p, continuesName x = true
    · -- the name would take the next one along
      obtain ⟨d, rest, rfl, hd⟩ := h.old
      simp only [isPlainLetter, Bool.and_eq_true] at hd
      have hle := hle _ (if_pos hc)
      rw [leading_append_of_all hall, leading, List.takeWhile_cons_of_pos hd.1.1] at hle
      simp only [List.length_cons] at hle
      omega
    · rw [(leading_append_of_not_all hall r).1, (leading_append_of_not_all hall q).1]
  · rfl

/-- Whether an operator in percent signs goes on with the character. -/
def insidePercent (c : Char) : Bool := c != '%' && c != '\n'

theorem percentLength?_cons (t : Text) :
    percentLength? ('%' :: t) =
      if (t.drop (leading insidePercent t)).head? = some '%' then
        some (leading insidePercent t + 2)
      else none := by
  have hinside : insidePercent = fun c => c != '%' && c != '\n' := rfl
  rw [percentLength?, hinside]
  split
  · next hdrop => simp [hdrop]
  · next hdrop =>
    rw [if_neg]
    intro hhead
    obtain ⟨rest, hrest⟩ := List.head?_eq_some_iff.mp hhead
    exact hdrop rest hrest

theorem percentLength?_replace {r : Text} (hp : p ≠ []) (h : Replaceable q r)
    (hle : ∀ n, percentLength? (p ++ q) = some n → n ≤ p.length) :
    percentLength? (p ++ r) = percentLength? (p ++ q) := by
  obtain ⟨c, p, rfl⟩ := List.exists_cons_of_ne_nil hp
  by_cases hc : c = '%'
  · subst hc
    rw [List.cons_append, percentLength?_cons] at hle
    rw [List.cons_append, List.cons_append, percentLength?_cons, percentLength?_cons]
    by_cases hall : ∀ x ∈ p, insidePercent x = true
    · -- the operator would end behind the text, and then it takes too much
      have hdrop (t : Text) : (p ++ t).drop (leading insidePercent (p ++ t)) =
          t.drop (leading insidePercent t) := by
        rw [leading_append_of_all hall, List.drop_append, List.drop_eq_nil_of_le (by omega),
          Nat.add_sub_cancel_left, List.nil_append]
      rw [hdrop] at hle
      rw [hdrop, hdrop, if_neg, if_neg]
      · intro hhead
        have hle := hle _ (if_pos hhead)
        rw [leading_append_of_all hall, List.length_cons] at hle
        omega
      · intro hhead
        exact h.percent (List.mem_of_mem_drop (List.mem_of_mem_head? hhead))
    · obtain ⟨hq, hlt⟩ := leading_append_of_not_all hall q
      obtain ⟨hr, -⟩ := leading_append_of_not_all hall r
      have hhead (t : Text) : ((p ++ t).drop (leading insidePercent p)).head? =
          (p.drop (leading insidePercent p)).head? := by
        rw [List.drop_append_of_le_length (Nat.le_of_lt hlt), List.drop_eq_getElem_cons hlt]
        rfl
      rw [hq, hr, hhead, hhead]
  · rw [List.cons_append, List.cons_append, percentLength?_eq_none hc, percentLength?_eq_none hc]

theorem operatorLength?_replace {r : Text} (hp : p ≠ []) (h : Replaceable q r)
    (hle : ∀ n, operatorLength? (p ++ q) = some n → n ≤ p.length) :
    operatorLength? (p ++ r) = operatorLength? (p ++ q) := by
  obtain ⟨c, rest, hq, hc⟩ := h.old
  obtain ⟨d, rest', hr, hd⟩ := h.new
  have hlong : longOperators.find? (·.isPrefixOf (p ++ r)) =
      longOperators.find? (·.isPrefixOf (p ++ q)) := by
    rw [hq, hr, find?_longOperators_append hc, find?_longOperators_append hd]
  unfold operatorLength? at hle ⊢
  rw [hlong]
  cases hfind : longOperators.find? (·.isPrefixOf (p ++ q)) with
  | some op => rfl
  | none =>
    rw [hfind] at hle
    have hpercent : percentLength? (p ++ r) = percentLength? (p ++ q) := by
      refine percentLength?_replace hp h fun n hn => hle n ?_
      rw [hn]
    rw [hpercent]
    obtain ⟨e, p, rfl⟩ := List.exists_cons_of_ne_nil hp
    rfl

theorem punctuationLength?_append (hp : p ≠ []) (q : Text) :
    punctuationLength? (p ++ q) = punctuationLength? p := by
  obtain ⟨c, p, rfl⟩ := List.exists_cons_of_ne_nil hp
  rfl

/-! ### All rules -/

/-- What a rule reads in front of `q` it reads in front of `r`. -/
theorem length?_replace {r : Text} (rule : Rule) (hp : p ≠ []) (hfeed : '\n' ∉ p)
    (h : Replaceable q r) (hle : ∀ n, rule.length? (p ++ q) = some n → n ≤ p.length) :
    rule.length? (p ++ r) = rule.length? (p ++ q) := by
  cases rule with
  | comment => exact commentLength?_replace hp hfeed h hle
  | quotedName => exact quotedNameLength?_replace hp h hle
  | number => exact numberLength?_replace h
  | name => exact nameLength?_replace hp h hle
  | operator => exact operatorLength?_replace hp h hle
  | punctuation =>
    exact (punctuationLength?_append hp r).trans (punctuationLength?_append hp q).symm

theorem firstMatch?_cons (rule : Rule) (rules : List Rule) (t : Text) :
    firstMatch? (rule :: rules) t =
      match rule.length? t with
      | some n => some (rule, n)
      | none => firstMatch? rules t := by
  rw [firstMatch?, List.findSome?_cons]
  cases rule.length? t <;> rfl

/-- A token that ends in front of `q` is read in the same way in front of `r`. -/
theorem firstMatch?_replace {r : Text} (rules : List Rule) (hp : p ≠ []) (hfeed : '\n' ∉ p)
    (h : Replaceable q r)
    (hle : ∀ rule n, firstMatch? rules (p ++ q) = some (rule, n) → n ≤ p.length) :
    firstMatch? rules (p ++ r) = firstMatch? rules (p ++ q) := by
  induction rules with
  | nil => rfl
  | cons rule rules ih =>
    rw [firstMatch?_cons] at hle
    have hrule : rule.length? (p ++ r) = rule.length? (p ++ q) := by
      refine length?_replace rule hp hfeed h fun n hn => hle rule n ?_
      rw [hn]
    rw [firstMatch?_cons, firstMatch?_cons, hrule]
    cases hq : rule.length? (p ++ q) with
    | some n => rfl
    | none =>
      rw [hq] at hle
      exact ih hle

end RmdOptions.Rule
