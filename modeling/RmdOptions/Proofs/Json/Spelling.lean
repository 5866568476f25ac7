import Mathlib.Tactic.SplitIfs
import RmdOptions.Json.Reader

/-!
# Spellings of JSON literals

JSON leaves a choice of how a literal is written. A character of a string may stand for itself or be
escaped, by a letter or by the units that it has in UTF-16; a number may have a fraction and an
exponent; and blanks may stand between all tokens. Here is said which spellings there are, and that
each of them is read up to its end and no further.

* `Gap` — blanks between tokens;
* `SpellsCharacter`, `Spells`, `IsString` — strings, with what they say;
* `NumberForm` — numbers;
* `stringRest_spells`, `stringReader_spells` — **strings are read as what they say**;
* `numberLiteral_form`, `scalar_digitsOf` — **numbers are read to their end**.
-/

namespace RmdOptions.Json

/-! ## Blanks -/

/-- Blanks between two tokens, if there are any. -/
structure Gap where
  /-- the blanks -/
  text : Text
  /-- they are blank -/
  blank : ∀ c ∈ text, isBlank c = true

/-- No blanks. -/
def Gap.none : Gap := ⟨[], fun _ hc => absurd hc List.not_mem_nil⟩

theorem skipBlanks_append {gap : Text} (h : ∀ c ∈ gap, isBlank c = true) (t : Text) :
    skipBlanks (gap ++ t) = skipBlanks t :=
  List.dropWhile_append_of_pos h

theorem skipBlanks_cons {c : Char} (h : isBlank c = false) (t : Text) :
    skipBlanks (c :: t) = c :: t := by
  rw [skipBlanks, List.dropWhile_cons_of_neg]
  simp [h]

theorem skipBlanks_gap (gap : Gap) {c : Char} (h : isBlank c = false) (t : Text) :
    skipBlanks (gap.text ++ c :: t) = c :: t := by
  rw [skipBlanks_append gap.blank, skipBlanks_cons h]

/-- Nothing follows blanks at the end. -/
theorem skipBlanks_end (gap : Gap) : skipBlanks gap.text = [] := by
  have hskip := skipBlanks_append gap.blank []
  rwa [List.append_nil] at hskip

namespace Reader

variable {α β : Type} {r : Reader α} {a : α} {t rest : Text}

theorem run_map (f : α → β) (h : r.run t = .ok (a, rest)) : (r.map f).run t = .ok (f a, rest) := by
  have hrun : (r.map f).run t = runMap f r t := rfl
  rw [hrun, runMap, h]

theorem run_bind (next : α → Reader β) (h : r.run t = .ok (a, rest)) :
    (r.bind next).run t = (next a).run rest := by
  have hrun : (r.bind next).run t = runBind r next t := rfl
  rw [hrun, runBind, h]

/-- What comes first after a gap is read without the gap. -/
theorem run_after (r : Reader α) (gap : Gap) {c : Char} (hc : isBlank c = false) (t : Text) :
    (r.after c).run (gap.text ++ c :: t) = r.run t := by
  have hrun : (r.after c).run (gap.text ++ c :: t) = runAfter c r (gap.text ++ c :: t) := rfl
  rw [hrun, runAfter, skipBlanks_gap gap hc]
  exact if_pos rfl

end Reader

/-! ## Strings -/

/-- The letters that stand for a character behind a backslash. -/
def shortEscapes : List (Char × Char) :=
  [('\x22', '\x22'), ('\\', '\\'), ('/', '/'), ('b', '\x08'), ('f', '\x0c'), ('n', '\n'),
    ('r', '\r'), ('t', '\t')]

/-- A hexadecimal digit and its value. A letter may be of either case. -/
def IsHexDigit (c : Char) (n : Nat) : Prop :=
  n < 16 ∧ (c = Nat.digitChar n ∨ c = (Nat.digitChar n).toUpper)

/-- The escape of a unit of 16 bits, by four hexadecimal digits. -/
inductive UnitEscape : Nat → Text → Prop where
  /-- the four digits behind the mark -/
  | digits {a b c d : Char} {p q r s : Nat} (ha : IsHexDigit a p) (hb : IsHexDigit b q)
      (hc : IsHexDigit c r) (hd : IsHexDigit d s) :
      UnitEscape (((p * 16 + q) * 16 + r) * 16 + s) ['\\', 'u', a, b, c, d]

/-- Any four digits in lower case make an escape. -/
theorem unitEscape_digitChar (p q r s : Fin 16) :
    UnitEscape (((p * 16 + q) * 16 + r) * 16 + s)
      ['\\', 'u', Nat.digitChar p, Nat.digitChar q, Nat.digitChar r, Nat.digitChar s] :=
  .digits ⟨p.isLt, Or.inl rfl⟩ ⟨q.isLt, Or.inl rfl⟩ ⟨r.isLt, Or.inl rfl⟩ ⟨s.isLt, Or.inl rfl⟩

/-- The first of the two units of a character that does not fit in one. -/
def highUnit (c : Char) : Nat := 0xD800 + (c.toNat - 0x10000) / 0x400

/-- The second of its units. -/
def lowUnit (c : Char) : Nat := 0xDC00 + (c.toNat - 0x10000) % 0x400

/-- How a character may be written in a string. In a value that is passed over, every unit may stand
alone, also one of a pair. -/
inductive SpellsCharacter : Care → Char → Text → Prop where
  /-- as it is -/
  | plain {care : Care} {c : Char} (hquote : c ≠ '\x22') (hback : c ≠ '\\')
      (hcontrol : 32 ≤ c.toNat) : SpellsCharacter care c [c]
  /-- by a letter behind a backslash -/
  | short {care : Care} {letter c : Char} (h : (letter, c) ∈ shortEscapes) :
      SpellsCharacter care c ['\\', letter]
  /-- by its unit -/
  | unit {care : Care} {c : Char} {t : Text} (h : UnitEscape c.toNat t) : SpellsCharacter care c t
  /-- by its two units -/
  | pair {c : Char} {t u : Text} (hc : 0x10000 ≤ c.toNat) (hhigh : UnitEscape (highUnit c) t)
      (hlow : UnitEscape (lowUnit c) u) : SpellsCharacter .full c (t ++ u)
  /-- by any unit, where what it says does not count -/
  | lone {n : Nat} {t : Text} (h : UnitEscape n t) : SpellsCharacter .form (Char.ofNat n) t

/-- How a text may be written between quotes. -/
inductive Spells (care : Care) : Text → Text → Prop where
  /-- no characters -/
  | nil : Spells care [] []
  /-- one character after the other -/
  | cons {c : Char} {s t u : Text} (hc : SpellsCharacter care c t) (hrest : Spells care s u) :
      Spells care (c :: s) (t ++ u)

/-- A string with its quotes, and what it says. -/
def IsString (care : Care) (content t : Text) : Prop :=
  ∃ body, Spells care content body ∧ t = '\x22' :: (body ++ ['\x22'])

theorem hexValue?_of_isHexDigit {c : Char} {n : Nat} (h : IsHexDigit c n) :
    hexValue? c = some n := by
  have hdigits : ∀ n < 16, hexValue? (Nat.digitChar n) = some n ∧
      hexValue? (Nat.digitChar n).toUpper = some n := by decide
  obtain ⟨hn, rfl | rfl⟩ := h
  · exact (hdigits n hn).1
  · exact (hdigits n hn).2

/-- The digits of a unit are read behind its mark. -/
theorem UnitEscape.exists_digits {n : Nat} {t : Text} (h : UnitEscape n t) :
    ∃ digits, t = '\\' :: 'u' :: digits ∧
      ∀ rest, escapedUnit (digits ++ rest) = .ok (n, rest) := by
  obtain ⟨ha, hb, hc, hd⟩ := h
  refine ⟨_, rfl, fun rest => ?_⟩
  simp only [List.cons_append, List.nil_append, escapedUnit, hexUnit?, bind, Option.bind, pure,
    hexValue?_of_isHexDigit ha, hexValue?_of_isHexDigit hb, hexValue?_of_isHexDigit hc,
    hexValue?_of_isHexDigit hd]

/-- No character has a number that is kept for the units of pairs. -/
theorem isSurrogate_toNat (c : Char) :
    isLowSurrogate c.toNat = false ∧ isHighSurrogate c.toNat = false := by
  have hvalid : c.toNat < 0xD800 ∨ 0xDFFF < c.toNat ∧ c.toNat < 0x110000 := c.valid
  simp only [isLowSurrogate, isHighSurrogate, Bool.and_eq_false_iff, decide_eq_false_iff_not]
  omega

theorem escapedCharacter_unit {care : Care} {c : Char} {t rest : Text}
    (h : escapedUnit t = .ok (c.toNat, rest)) : escapedCharacter care t = .ok (c, rest) := by
  obtain ⟨hlow, hhigh⟩ := isSurrogate_toNat c
  rw [escapedCharacter, h]
  simp only [hlow, hhigh, Char.ofNat_toNat, Bool.false_eq_true, if_false, ite_self]

/-- The two units of a character are read as the character. -/
theorem escapedCharacter_pair {c : Char} (hc : 0x10000 ≤ c.toNat) {t after rest : Text}
    (hhigh : escapedUnit t = .ok (highUnit c, '\\' :: 'u' :: after))
    (hlow : escapedUnit after = .ok (lowUnit c, rest)) :
    escapedCharacter .full t = .ok (c, rest) := by
  have hvalid : c.toNat < 0xD800 ∨ 0xDFFF < c.toNat ∧ c.toNat < 0x110000 := c.valid
  have hfirst : 0xD800 ≤ highUnit c ∧ highUnit c ≤ 0xDBFF := by
    rw [highUnit]
    omega
  have hsecond : 0xDC00 ≤ lowUnit c ∧ lowUnit c ≤ 0xDFFF := by
    rw [lowUnit]
    omega
  have hhighUnit : isHighSurrogate (highUnit c) = true := by simp [isHighSurrogate, hfirst]
  have hnotLow : isLowSurrogate (highUnit c) = false := by
    rw [isLowSurrogate, Bool.and_eq_false_iff, decide_eq_false_iff_not]
    omega
  have hlowUnit : isLowSurrogate (lowUnit c) = true := by simp [isLowSurrogate, hsecond]
  have hnumber : 0x10000 + (highUnit c - 0xD800) * 0x400 + (lowUnit c - 0xDC00) = c.toNat := by
    simp only [highUnit, lowUnit]
    omega
  have hread : secondUnit ('\\' :: 'u' :: after) = .ok (lowUnit c, rest) := hlow
  rw [escapedCharacter, hhigh]
  simp only [reduceCtorEq, if_false, hnotLow, hhighUnit, Bool.false_eq_true, if_true, hread,
    hlowUnit, ofPair, hnumber, Char.ofNat_toNat]

theorem stringRest_escaped {care : Care} {c : Char} {t after content rest : Text}
    (h : escaped care t = .ok (c, after)) (hrest : stringRest care after = .ok (content, rest)) :
    stringRest care ('\\' :: t) = .ok (c :: content, rest) := by
  rw [stringRest_cons, if_neg (by decide), if_pos rfl, h]
  dsimp only
  rw [hrest]
  rfl

/-- A character is read from each of its spellings. -/
theorem stringRest_spellsCharacter {care : Care} {c : Char} {t after content rest : Text}
    (h : SpellsCharacter care c t) (hrest : stringRest care after = .ok (content, rest)) :
    stringRest care (t ++ after) = .ok (c :: content, rest) := by
  have hmark {t after : Text} (hchar : escapedCharacter care t = .ok (c, after))
      (hrest : stringRest care after = .ok (content, rest)) :
      stringRest care ('\\' :: 'u' :: t) = .ok (c :: content, rest) := by
    refine stringRest_escaped ?_ hrest
    rw [escaped, if_pos rfl, hchar]
  cases h with
  | plain hquote hback hcontrol =>
    rw [List.singleton_append, stringRest_cons, if_neg hquote, if_neg hback,
      if_neg (Nat.not_lt.mpr hcontrol), hrest]
    rfl
  | @short _ letter _ h =>
    have hletters : ∀ e ∈ shortEscapes, e.1 ≠ 'u' ∧ shortEscape? e.1 = some e.2 := by decide
    obtain ⟨hne, hletter⟩ := hletters _ h
    have hescaped : escaped care (letter :: after) = .ok (c, after) := by
      rw [escaped, if_neg hne, hletter]
    exact stringRest_escaped hescaped hrest
  | unit h =>
    obtain ⟨digits, rfl, hdigits⟩ := h.exists_digits
    exact hmark (escapedCharacter_unit (hdigits after)) hrest
  | pair hc hhigh hlow =>
    obtain ⟨digits, rfl, hdigits⟩ := hhigh.exists_digits
    obtain ⟨digits', rfl, hdigits'⟩ := hlow.exists_digits
    rw [List.append_assoc]
    exact hmark (escapedCharacter_pair hc (hdigits _) (hdigits' after)) hrest
  | @lone n _ h =>
    obtain ⟨digits, rfl, hdigits⟩ := h.exists_digits
    have hunit : escapedCharacter .form (digits ++ after) = .ok (Char.ofNat n, after) := by
      rw [escapedCharacter, hdigits]
      exact if_pos rfl
    exact hmark hunit hrest

/-- **A string is read as what it says**, up to its closing quote. -/
theorem stringRest_spells {care : Care} {content t : Text} (h : Spells care content t)
    (rest : Text) : stringRest care (t ++ '\x22' :: rest) = .ok (content, rest) := by
  induction h with
  | nil =>
    rw [List.nil_append, stringRest_cons]
    exact if_pos rfl
  | cons hc _ ih =>
    rw [List.append_assoc]
    exact stringRest_spellsCharacter hc ih

/-- A string is read behind a gap. -/
theorem stringReader_spells {care : Care} {content t : Text} (gap : Gap)
    (h : IsString care content t) (rest : Text) :
    (stringReader care).run (gap.text ++ (t ++ rest)) = .ok (content, rest) := by
  obtain ⟨body, hbody, rfl⟩ := h
  rw [List.cons_append, List.append_assoc, stringReader, Reader.run_after _ gap (by decide)]
  exact stringRest_spells hbody rest

/-- A string is read as a value of its own kind. -/
theorem scalar_string {care : Care} {content t : Text} (h : IsString care content t)
    (rest : Text) : scalar care (t ++ rest) = .ok (.string content, rest) := by
  obtain ⟨body, hbody, rfl⟩ := h
  rw [List.cons_append, List.append_assoc, scalar, if_neg (by decide), if_neg (by decide),
    if_neg (by decide), if_pos rfl]
  have hread : stringRest care (body ++ (['\x22'] ++ rest)) = .ok (content, rest) :=
    stringRest_spells hbody rest
  rw [hread]

/-- What is written for a character is one of its spellings. -/
theorem spellsCharacter_escape (care : Care) (c : Char) : SpellsCharacter care c (escape c) := by
  have hshort {letter : Char} (h : (letter, c) ∈ shortEscapes) :
      SpellsCharacter care c ['\\', letter] := .short h
  rw [escape]
  split_ifs with hquote hback hb hf hn hr ht hcontrol
  · exact hshort (by rw [hquote]; decide)
  · exact hshort (by rw [hback]; decide)
  · exact hshort (by rw [hb]; decide)
  · exact hshort (by rw [hf]; decide)
  · exact hshort (by rw [hn]; decide)
  · exact hshort (by rw [hr]; decide)
  · exact hshort (by rw [ht]; decide)
  · have hunit : UnitEscape (((0 * 16 + 0) * 16 + c.toNat / 16) * 16 + c.toNat % 16) _ :=
      unitEscape_digitChar 0 0 ⟨c.toNat / 16, by omega⟩ ⟨c.toNat % 16, by omega⟩
    have hnumber : ((0 * 16 + 0) * 16 + c.toNat / 16) * 16 + c.toNat % 16 = c.toNat := by omega
    rw [hnumber] at hunit
    exact .unit hunit
  · exact .plain hquote hback (Nat.not_lt.mp hcontrol)

/-- What is written for a text is a string that says it. -/
theorem isString_quote (care : Care) (t : Text) : IsString care t (quote t) := by
  refine ⟨t.flatMap escape, ?_, rfl⟩
  induction t with
  | nil => exact .nil
  | cons c t ih => exact .cons (spellsCharacter_escape care c) ih

/-! ## Numbers -/

/-- Some digits, of which there is at least one. -/
def IsDigits (t : Text) : Prop := t ≠ [] ∧ ∀ c ∈ t, c.isDigit = true

/-- A fraction, if there is one. -/
inductive FractionForm : Text → Prop where
  /-- none -/
  | none : FractionForm []
  /-- a point and digits -/
  | point {ds : Text} (h : IsDigits ds) : FractionForm ('.' :: ds)

/-- An exponent, if there is one. -/
inductive ExponentForm : Text → Prop where
  /-- none -/
  | none : ExponentForm []
  /-- a mark, perhaps a sign, and digits -/
  | mark {c : Char} {sign ds : Text} (hmark : c = 'e' ∨ c = 'E')
      (hsign : sign = [] ∨ sign = ['+'] ∨ sign = ['-']) (h : IsDigits ds) :
      ExponentForm (c :: (sign ++ ds))

/-- How a number may be written. Its whole part has no zero in front of other digits. -/
inductive NumberForm : Text → Prop where
  /-- perhaps a sign, and the parts of the number -/
  | parts {sign whole fraction exponent : Text} (hsign : sign = [] ∨ sign = ['-'])
      (hwhole : IsDigits whole) (hzero : whole.head? = some '0' → whole = ['0'])
      (hfraction : FractionForm fraction) (hexponent : ExponentForm exponent) :
      NumberForm (sign ++ (whole ++ (fraction ++ exponent)))

/-- What no number goes on with. -/
def EndsNumber (t : Text) : Prop :=
  ∀ c ∈ t.head?, c.isDigit = false ∧ c ≠ '.' ∧ c ≠ 'e' ∧ c ≠ 'E'

theorem digitValue?_eq (c : Char) :
    digitValue? c = if c.isDigit = true then some (c.toNat - 48) else none := by
  have hdigit : ('0' ≤ c ∧ c ≤ '9') ↔ c.isDigit = true := by
    simp only [Char.isDigit, Bool.and_eq_true, decide_eq_true_eq]
    rfl
  rw [digitValue?]
  simp only [hdigit]

/-- Digits are read as far as they go. -/
theorem digits_append {ds rest : Text} (h : ∀ c ∈ ds, c.isDigit = true)
    (hrest : ∀ c ∈ rest.head?, c.isDigit = false) :
    digits (ds ++ rest) = (ds.map (·.toNat - 48), rest) := by
  induction ds with
  | nil =>
    cases rest with
    | nil => rfl
    | cons c rest =>
      rw [List.nil_append, digits, digitValue?_eq, if_neg (by simp [hrest c rfl])]
      rfl
  | cons c ds ih =>
    rw [List.cons_append, digits, digitValue?_eq, if_pos (h c List.mem_cons_self),
      ih fun d hd => h d (List.mem_cons_of_mem _ hd)]
    rfl

theorem someDigits_append (cut : Fault) {ds rest : Text} (h : IsDigits ds)
    (hrest : ∀ c ∈ rest.head?, c.isDigit = false) :
    someDigits cut (ds ++ rest) = .ok (ds.map (·.toNat - 48), rest) := by
  obtain ⟨c, more, rfl⟩ := List.exists_cons_of_ne_nil h.1
  rw [someDigits, digits_append h.2 hrest]
  rfl

theorem wholePart_append (cut : Fault) {ds rest : Text} (h : IsDigits ds)
    (hzero : ds.head? = some '0' → ds = ['0']) (hrest : ∀ c ∈ rest.head?, c.isDigit = false) :
    wholePart cut (ds ++ rest) = .ok (ds.map (·.toNat - 48), rest) := by
  rw [wholePart, someDigits_append cut h hrest]
  split
  · next hleading =>
    -- the first digit is a zero, so it is the only one
    obtain ⟨c, more, rfl⟩ := List.exists_cons_of_ne_nil h.1
    have hdigit := h.2 c List.mem_cons_self
    simp only [List.map_cons, Except.ok.injEq, Prod.mk.injEq, List.cons.injEq] at hleading
    obtain ⟨⟨hvalue, hmore⟩, -⟩ := hleading
    have hnumber : c.toNat = 48 := by
      simp only [Char.isDigit, Bool.and_eq_true, decide_eq_true_eq, ge_iff_le,
        UInt32.le_iff_toNat_le] at hdigit
      have hle : 48 ≤ c.toNat := hdigit.1
      omega
    have hc : c = '0' := Char.toNat_inj.mp hnumber
    rw [hc] at hzero
    obtain ⟨-, rfl⟩ := List.cons.inj (hzero rfl)
    cases hmore
  · rfl

/-- There is no fraction where no point stands. -/
theorem fractionPart_none (cut : Fault) {rest : Text} (h : ∀ c ∈ rest.head?, c ≠ '.') :
    fractionPart cut rest = .ok (none, rest) :=
  fractionPart.eq_2 cut rest fun more hmore => h '.' (by rw [hmore]; rfl) rfl

theorem exists_fractionPart (cut : Fault) {t rest : Text} (h : FractionForm t)
    (hrest : ∀ c ∈ rest.head?, c.isDigit = false ∧ c ≠ '.') :
    ∃ fraction, fractionPart cut (t ++ rest) = .ok (fraction, rest) := by
  cases h with
  | none => exact ⟨none, fractionPart_none cut fun c hc => (hrest c hc).2⟩
  | point h =>
    rw [List.cons_append, fractionPart, someDigits_append cut h fun c hc => (hrest c hc).1]
    exact ⟨_, rfl⟩

theorem exponentSign_append {sign ds rest : Text}
    (hsign : sign = [] ∨ sign = ['+'] ∨ sign = ['-']) (h : IsDigits ds) :
    (exponentSign (sign ++ ds ++ rest)).2 = ds ++ rest := by
  rcases hsign with rfl | rfl | rfl
  · obtain ⟨c, more, rfl⟩ := List.exists_cons_of_ne_nil h.1
    have hdigit := h.2 c List.mem_cons_self
    rw [exponentSign.eq_3]
    · rfl
    · rintro _ ⟨⟩
      exact absurd hdigit (by decide)
    · rintro _ ⟨⟩
      exact absurd hdigit (by decide)
  · rfl
  · rfl

/-- There is no exponent where no mark stands. -/
theorem exponentPart_none (cut : Fault) {rest : Text} (h : EndsNumber rest) :
    exponentPart cut rest = .ok (none, rest) := by
  cases rest with
  | nil => rfl
  | cons c rest =>
    obtain ⟨-, -, hlower, hupper⟩ := h c rfl
    rw [exponentPart, if_neg (by simp [hlower, hupper])]

theorem exists_exponentPart (cut : Fault) {t rest : Text} (h : ExponentForm t)
    (hrest : EndsNumber rest) :
    ∃ exponent, exponentPart cut (t ++ rest) = .ok (exponent, rest) := by
  cases h with
  | none => exact ⟨none, exponentPart_none cut hrest⟩
  | mark hmark hsign h =>
    rw [List.cons_append, exponentPart, if_pos hmark, exponentSign_append hsign h,
      someDigits_append cut h fun c hc => (hrest c hc).1]
    exact ⟨_, rfl⟩

/-- The parts of a number end where the next one begins, or the number does. -/
theorem FractionForm.head?_append {fraction exponent rest : Text} (h : FractionForm fraction)
    (hexponent : ExponentForm exponent) (hrest : EndsNumber rest) :
    (∀ c ∈ (exponent ++ rest).head?, c.isDigit = false ∧ c ≠ '.') ∧
      ∀ c ∈ (fraction ++ (exponent ++ rest)).head?, c.isDigit = false := by
  have hmark : ∀ c ∈ (exponent ++ rest).head?, c.isDigit = false ∧ c ≠ '.' := by
    cases hexponent with
    | none => exact fun c hc => ⟨(hrest c hc).1, (hrest c hc).2.1⟩
    | mark hmark _ _ =>
      rintro c ⟨⟩
      rcases hmark with rfl | rfl <;> decide
  refine ⟨hmark, ?_⟩
  cases h with
  | none => exact fun c hc => (hmark c hc).1
  | point _ =>
    rintro c ⟨⟩
    decide

theorem exists_unsignedLiteral (cut : Fault) (negative : Bool) {whole fraction exponent rest : Text}
    (hwhole : IsDigits whole) (hzero : whole.head? = some '0' → whole = ['0'])
    (hfraction : FractionForm fraction) (hexponent : ExponentForm exponent)
    (hrest : EndsNumber rest) :
    ∃ literal, unsignedLiteral cut negative (whole ++ (fraction ++ (exponent ++ rest))) =
      .ok (literal, rest) := by
  obtain ⟨hmark, hpoint⟩ := hfraction.head?_append hexponent hrest
  obtain ⟨fraction', hfraction'⟩ := exists_fractionPart cut hfraction hmark
  obtain ⟨exponent', hexponent'⟩ := exists_exponentPart cut hexponent hrest
  rw [unsignedLiteral, wholePart_append cut hwhole hzero hpoint]
  dsimp only
  rw [hfraction']
  dsimp only
  rw [hexponent']
  exact ⟨_, rfl⟩

/-- Where no sign comes first, the number begins with its whole part. -/
theorem numberLiteral_unsigned (cut : Fault) {whole : Text} (h : IsDigits whole) (t : Text) :
    numberLiteral cut (whole ++ t) = unsignedLiteral cut false (whole ++ t) := by
  obtain ⟨c, more, rfl⟩ := List.exists_cons_of_ne_nil h.1
  have hdigit := h.2 c List.mem_cons_self
  rw [List.cons_append, numberLiteral.eq_2]
  rintro _ ⟨⟩
  exact absurd hdigit (by decide)

/-- **A number is read to its end.** -/
theorem numberLiteral_form (cut : Fault) {t rest : Text} (h : NumberForm t)
    (hrest : EndsNumber rest) : ∃ literal, numberLiteral cut (t ++ rest) = .ok (literal, rest) := by
  obtain ⟨hsign, hwhole, hzero, hfraction, hexponent⟩ := h
  rw [List.append_assoc, List.append_assoc, List.append_assoc]
  rcases hsign with rfl | rfl
  · rw [List.nil_append, numberLiteral_unsigned cut hwhole]
    exact exists_unsignedLiteral cut false hwhole hzero hfraction hexponent hrest
  · exact exists_unsignedLiteral cut true hwhole hzero hfraction hexponent hrest

/-- A sign or a digit comes first in a number. -/
theorem NumberForm.exists_cons {t : Text} (h : NumberForm t) :
    ∃ c more, t = c :: more ∧ (c = '-' ∨ c.isDigit = true) := by
  obtain ⟨hsign, hwhole, -, -, -⟩ := h
  rcases hsign with rfl | rfl
  · obtain ⟨c, more, rfl⟩ := List.exists_cons_of_ne_nil hwhole.1
    exact ⟨c, _, rfl, Or.inr (hwhole.2 c List.mem_cons_self)⟩
  · exact ⟨'-', _, rfl, Or.inl rfl⟩

theorem scalar_eq_number (care : Care) {c : Char} (h : c = '-' ∨ c.isDigit = true) (t : Text) :
    scalar care (c :: t) = number care (c :: t) := by
  have hne {d : Char} (hd : d ≠ '-') (hdigit : d.isDigit = false) : c ≠ d := by
    rintro rfl
    rcases h with rfl | h
    · exact hd rfl
    · rw [hdigit] at h
      cases h
  have hfirst : c = '-' ∨ (digitValue? c).isSome = true := by
    rcases h with h | h
    · exact Or.inl h
    · rw [digitValue?_eq, if_pos h]
      exact Or.inr rfl
  rw [scalar, if_neg (hne (by decide) (by decide)), if_neg (hne (by decide) (by decide)),
    if_neg (hne (by decide) (by decide)), if_neg (hne (by decide) (by decide)), if_pos hfirst]

/-- A number that is passed over may be of any size. -/
theorem exists_scalar_number {t rest : Text} (h : NumberForm t) (hrest : EndsNumber rest) :
    ∃ v, scalar .form (t ++ rest) = .ok (v, rest) := by
  obtain ⟨literal, hliteral⟩ := numberLiteral_form Care.form.cut h hrest
  obtain ⟨c, more, rfl, hfirst⟩ := h.exists_cons
  rw [List.cons_append] at hliteral ⊢
  rw [scalar_eq_number .form hfirst, number, hliteral]
  dsimp only
  split
  · exact ⟨_, rfl⟩
  · exact ⟨_, if_pos rfl⟩

/-! ### Natural numbers -/

theorem isDigits_digitsOf (n : Nat) : IsDigits (digitsOf n) :=
  ⟨Nat.toDigits_ne_nil, fun _ hc => Nat.isDigit_of_mem_toDigits (by decide) (by decide) hc⟩

/-- Only zero is written with a zero in front. -/
theorem head?_digitsOf {n : Nat} (h : (digitsOf n).head? = some '0') : n = 0 := by
  induction n using Nat.strongRecOn with
  | ind n ih =>
    rw [digitsOf, Nat.toDigits_eq_if (by decide)] at h
    split at h
    · exact Nat.digitChar_eq_zero.mp (Option.some.inj h)
    · next hn =>
      have hne : Nat.toDigits 10 (n / 10) ≠ [] := Nat.toDigits_ne_nil
      have hhead : (digitsOf (n / 10)).head? = some '0' := by
        obtain ⟨c, more, hcons⟩ := List.exists_cons_of_ne_nil hne
        rw [hcons] at h
        rw [digitsOf, hcons]
        exact h
      have hzero := ih (n / 10) (by omega) hhead
      omega

theorem ofDigits_digitsOf (n : Nat) :
    NumberLiteral.ofDigits ((digitsOf n).map (·.toNat - 48)) = n := by
  have hvalue := Nat.ofDigitChars_ten_toDigits (n := n)
  rw [Nat.ofDigitChars_eq_foldl] at hvalue
  rw [NumberLiteral.ofDigits, List.foldl_map, digitsOf]
  simp only [Nat.mul_comm _ 10]
  exact hvalue

/-- **A natural number is read as it is**, if it fits in 64 bits. -/
theorem scalar_digitsOf {n : Nat} (h : n ≤ NumberLiteral.maxUnsigned) {rest : Text}
    (hrest : EndsNumber rest) :
    scalar .full (digitsOf n ++ rest) = .ok (.number (.integer n), rest) := by
  have hdigits := isDigits_digitsOf n
  have hzero (hhead : (digitsOf n).head? = some '0') : digitsOf n = ['0'] := by
    rw [head?_digitsOf hhead]
    rfl
  have hliteral : numberLiteral Care.full.cut (digitsOf n ++ rest) =
      .ok (⟨false, (digitsOf n).map (·.toNat - 48), none, none⟩, rest) := by
    rw [numberLiteral_unsigned _ hdigits, unsignedLiteral,
      wholePart_append _ hdigits hzero fun c hc => (hrest c hc).1]
    dsimp only
    rw [fractionPart_none _ fun c hc => (hrest c hc).2.1]
    dsimp only
    rw [exponentPart_none _ hrest]
  have hvalue : NumberLiteral.value? ⟨false, (digitsOf n).map (·.toNat - 48), none, none⟩ =
      some (.integer n) := by
    simp [NumberLiteral.value?, ofDigits_digitsOf, h]
  obtain ⟨c, more, hcons⟩ := List.exists_cons_of_ne_nil hdigits.1
  have hfirst : c.isDigit = true := hdigits.2 c (by rw [hcons]; exact List.mem_cons_self)
  have hnumber : scalar .full (digitsOf n ++ rest) = number .full (digitsOf n ++ rest) := by
    rw [hcons]
    exact scalar_eq_number .full (Or.inr hfirst) (more ++ rest)
  rw [hnumber, number, hliteral]
  dsimp only
  rw [hvalue]

end RmdOptions.Json
