import Mathlib.Order.Bounds.Basic
import RmdOptions.Proofs.Text.Bytes
import RmdOptions.Proofs.Token.Greedy

/-!
# The longest start of a text

A rule tries its alternatives in order and takes the first that succeeds. Its patterns are written
in such an order that this is also the longest: where two alternatives overlap, the one that can go
further comes first, and no part of a pattern can take what a later part needs.

* `Rule.language` — what each rule is for;
* `Rule.hexLength?_greedy`, `Rule.decimalLength?_greedy`, … — the readers of all rules are greedy;
* `Rule.byteLength?` — how much a rule reads, in bytes;
* `Rule.byteLength?_longest` — **it is the longest start of the text in its language**.
-/

namespace RmdOptions.Rule

open Computability

/-! ## The languages of the rules -/

/-- The letter between the digits of a number and its exponent. -/
def isExponentMark (c : Char) : Bool := c == 'e' || c == 'E'

/-- The letter after the zero of a hexadecimal number. -/
def isHexMark (c : Char) : Bool := c == 'x' || c == 'X'

/-- The sign of an exponent. -/
def isSign (c : Char) : Bool := c == '+' || c == '-'

/-- The letter at the end of an integer or imaginary number. -/
def isMark (c : Char) : Bool := c == 'L' || c == 'i'

/-- Hexadecimal numbers. -/
def hexLanguage : Language Char :=
  one (· == '0') * one isHexMark * several isHexDigit * perhaps (one isMark)

/-- The point of a decimal number, and digits behind it if there are any. -/
def fractionLanguage : Language Char := one (· == '.') * (one isDecimalDigit)∗

/-- The digits of decimal numbers, with or without a point. -/
def digitsLanguage : Language Char :=
  several isDecimalDigit * perhaps fractionLanguage + one (· == '.') * several isDecimalDigit

/-- The exponents of decimal numbers. -/
def exponentLanguage : Language Char :=
  one isExponentMark * (perhaps (one isSign) * several isDecimalDigit)

/-- Decimal numbers. -/
def decimalLanguage : Language Char :=
  digitsLanguage * perhaps exponentLanguage * perhaps (one isMark)

/-- What stands between the backticks of a quoted name: characters other than the backtick and the
backslash, and backslashes each with a character other than a line feed. -/
def quotedNamePart : Language Char :=
  one (· == '\\') * one (· != '\n') + one fun c => c != '\x60' && c != '\\'

/-- What each rule is for. -/
def language : Rule → Language Char
  | .comment => one (· == '#') * (one (· != '\n'))∗
  | .quotedName => one (· == '\x60') * quotedNamePart∗ * one (· == '\x60')
  | .number => hexLanguage + decimalLanguage
  | .name => one startsName * (one continuesName)∗
  | .operator =>
    among longOperators +
      (one (· == '%') * (one insidePercent)∗ * one (· == '%') + one (· ∈ shortOperators))
  | .punctuation => one (· ∈ punctuationMarks)

/-! ## Parts of numbers -/

variable {t rest : Text} {n : Nat}

theorem several_greedy (f : Char → Bool) : Greedy (several f) f
    (fun t => if leading f t = 0 then none else some (leading f t)) := by
  refine (((Greedy.one f).mul (Greedy.star f) fun _ _ _ _ => rfl).weaken ?_).congr fun t => ?_
  · intro c hc
    simpa using hc
  · cases t with
    | nil => rfl
    | cons c rest =>
      by_cases hc : f c = true
      · simp [leading, hc, Nat.add_comm]
      · simp [leading, hc]

/-- A single character that may be missing. -/
theorem perhaps_one_greedy (f : Char → Bool) : Greedy (perhaps (one f)) f
    (fun t => some (if t.head?.any f then 1 else 0)) := by
  refine (((Greedy.one f).perhaps (startsWith_one f)).weaken ?_).congr fun t => ?_
  · intro c hc
    simpa using hc
  · split
    · rfl
    · rfl

theorem markLength_greedy :
    Greedy (perhaps (one isMark)) isMark (fun t => some (markLength t)) := by
  refine (perhaps_one_greedy isMark).congr fun t => ?_
  cases t with
  | nil => rfl
  | cons c rest => simp [markLength, isMark]

theorem signLength_greedy :
    Greedy (perhaps (one isSign)) isSign (fun t => some (signLength t)) := by
  refine (perhaps_one_greedy isSign).congr fun t => ?_
  cases t with
  | nil => rfl
  | cons c rest => simp [signLength, isSign]

theorem startsWith_fraction : StartsWith (· == '.') fractionLanguage := (startsWith_one _).mul _

theorem fractionLength_greedy : Greedy (perhaps fractionLanguage)
    (fun c => c == '.' || isDecimalDigit c) (fun t => some (fractionLength t)) := by
  have hpart : Greedy fractionLanguage _ _ :=
    (Greedy.one (· == '.')).mul (Greedy.star isDecimalDigit) fun _ _ _ _ => rfl
  refine ((hpart.perhaps startsWith_fraction).weaken ?_).congr fun t => ?_
  · intro c hc
    simpa using hc
  · cases t with
    | nil => rfl
    | cons c rest =>
      by_cases hc : c = '.'
      · subst hc
        simp [fractionLength]
      · simp [fractionLength, hc]

theorem startsWith_exponent : StartsWith isExponentMark exponentLanguage := (startsWith_one _).mul _

/-- A sign is no digit. -/
theorem isSign_of_isDecimalDigit {c : Char} (h : isDecimalDigit c = true) : isSign c = false := by
  rw [Bool.eq_false_iff]
  intro hsign
  have hc : c = '+' ∨ c = '-' := by simpa [isSign] using hsign
  rcases hc with rfl | rfl
  · exact absurd h (by decide)
  · exact absurd h (by decide)

theorem exponentLength_greedy : Greedy (perhaps exponentLanguage)
    (fun c => isExponentMark c || (isSign c || isDecimalDigit c))
    (fun t => some (exponentLength t)) := by
  have hsigned := signLength_greedy.mul (several_greedy isDecimalDigit) fun q hq c hc =>
    isSign_of_isDecimalDigit ((startsWith_several isDecimalDigit).head hq c hc)
  have hpart : Greedy exponentLanguage _ _ :=
    (Greedy.one isExponentMark).mul hsigned fun _ _ _ _ => rfl
  refine ((hpart.perhaps startsWith_exponent).weaken ?_).congr fun t => ?_
  · intro c hc
    simpa using hc
  · cases t with
    | nil => rfl
    | cons e rest =>
      have hdrop : (e :: rest).drop (1 + signLength rest) = rest.drop (signLength rest) := by
        rw [Nat.add_comm, List.drop_succ_cons]
      rw [exponentLength_cons]
      by_cases he : e = 'e' ∨ e = 'E'
      · cases hdigits : leading isDecimalDigit (rest.drop (signLength rest)) with
        | zero => simp [isExponentMark, he, hdrop, hdigits]
        | succ k => simp [isExponentMark, he, hdrop, hdigits, Nat.add_assoc]
      · simp [isExponentMark, he]

/-! ## Numbers -/

/-- A point is no digit. -/
theorem isDecimalDigit_of_point {c : Char} (h : (c == '.') = true) : isDecimalDigit c = false := by
  obtain rfl := beq_iff_eq.mp h
  decide

theorem digitsLength?_greedy : Greedy digitsLanguage
    (fun c => c == '.' || isDecimalDigit c) digitsLength? := by
  have hwhole := (several_greedy isDecimalDigit).mul fractionLength_greedy fun q hq c hc =>
    isDecimalDigit_of_point (startsWith_fraction.head_perhaps hq c hc)
  have hpoint := (Greedy.one (· == '.')).mul (several_greedy isDecimalDigit) fun _ _ _ _ => rfl
  have hboth := hwhole.or_of_apart hpoint ((startsWith_several isDecimalDigit).mul _)
    ((startsWith_one _).mul _) fun c hc => isDecimalDigit_of_point hc
  refine (hboth.weaken fun c hc => ?_).congr fun t => ?_
  · simpa [or_assoc, or_comm, or_left_comm] using hc
  · unfold digitsLength?
    cases hdigits : leading isDecimalDigit t with
    | succ k => simp
    | zero =>
      cases t with
      | nil => rfl
      | cons c rest =>
        by_cases hc : c = '.'
        · subst hc
          cases hrest : leading isDecimalDigit rest with
          | zero => simp [hrest]
          | succ k => simp [hrest, Nat.add_comm 1]
        · simp [hc]

/-- An exponent starts behind the digits. -/
theorem not_digit_of_isExponentMark {c : Char} (h : isExponentMark c = true) :
    (c == '.' || isDecimalDigit c) = false := by
  have hc : c = 'e' ∨ c = 'E' := by simpa [isExponentMark] using h
  rcases hc with rfl | rfl
  · decide
  · decide

/-- A mark stands behind digits and exponents. -/
theorem not_digit_of_isMark {c : Char} (h : isMark c = true) :
    isHexDigit c = false ∧ (c == '.' || isDecimalDigit c) = false ∧
      (isExponentMark c || (isSign c || isDecimalDigit c)) = false := by
  have hc : c = 'L' ∨ c = 'i' := by simpa [isMark] using h
  rcases hc with rfl | rfl
  · decide
  · decide

theorem decimalLength?_greedy : Greedy decimalLanguage (fun _ => true) decimalLength? := by
  have hexponent := digitsLength?_greedy.mul exponentLength_greedy fun q hq c hc =>
    not_digit_of_isExponentMark (startsWith_exponent.head_perhaps hq c hc)
  have hall := hexponent.mul markLength_greedy fun q hq c hc => by
    obtain ⟨-, hdigits, hexponent⟩ :=
      not_digit_of_isMark ((startsWith_one isMark).head_perhaps hq c hc)
    rw [hdigits, hexponent, Bool.or_false]
  refine (hall.weaken fun _ _ => rfl).congr fun t => ?_
  rw [decimalLength?]
  cases hdigits : digitsLength? t with
  | none => rfl
  | some n => simp

theorem hexLength?_greedy : Greedy hexLanguage (fun _ => true) hexLength? := by
  have hstart := (Greedy.one (· == '0')).mul (Greedy.one isHexMark) fun _ _ _ _ => rfl
  have hdigits := hstart.mul (several_greedy isHexDigit) fun _ _ _ _ => rfl
  have hall := hdigits.mul markLength_greedy fun q hq c hc => by
    simpa using (not_digit_of_isMark ((startsWith_one isMark).head_perhaps hq c hc)).1
  refine (hall.weaken fun _ _ => rfl).congr fun t => ?_
  unfold hexLength?
  split
  · next x rest =>
    by_cases hx : x = 'x' ∨ x = 'X'
    · cases hdigits : leading isHexDigit rest with
      | zero => simp [isHexMark, hx, hdigits]
      | succ k =>
        have hlength : 2 + (k + 1) = 3 + k := by omega
        have hdrop : ('0' :: x :: rest).drop (3 + k) = rest.drop (k + 1) := by
          rw [Nat.add_comm 3]
          rfl
        simp [isHexMark, hx, hdigits, hdrop, hlength]
    · simp [isHexMark, hx]
  · next hnot =>
    match t with
    | [] => rfl
    | [c] =>
      by_cases hc : c = '0'
      · simp [hc]
      · simp [hc]
    | c :: x :: rest =>
      have hc : c ≠ '0' := by
        rintro rfl
        exact hnot x rest rfl
      simp [hc]

/-- As a decimal number, a hexadecimal one would end behind its zero. -/
theorem decimalLength?_of_hexLength? (h : hexLength? t = some n) : decimalLength? t = some 1 := by
  unfold hexLength? at h
  split at h
  · next x rest =>
    split at h
    · next hx =>
      have hzero : isDecimalDigit '0' = true := by decide
      have hdigit : isDecimalDigit x = false := by rcases hx with rfl | rfl <;> decide
      have hpoint : fractionLength (x :: rest) = 0 := by rcases hx with rfl | rfl <;> rfl
      have hexponent : exponentLength (x :: rest) = 0 := by rcases hx with rfl | rfl <;> rfl
      have hmark : markLength (x :: rest) = 0 := by rcases hx with rfl | rfl <;> rfl
      have hlead : leading isDecimalDigit ('0' :: x :: rest) = 1 := by
        simp [leading, hzero, hdigit]
      simp [decimalLength?, digitsLength?, hlead, hpoint, hexponent, hmark]
    · cases h
  · cases h

theorem numberLength?_greedy :
    Greedy (hexLanguage + decimalLanguage) (fun _ => true) numberLength? := by
  refine hexLength?_greedy.or decimalLength?_greedy fun q hq rest n hn => ?_
  obtain ⟨hpos, hle⟩ := hexLength?_bounds hn
  obtain ⟨m, hm, hcovers⟩ := decimalLength?_greedy.covers hq rest
  rw [decimalLength?_of_hexLength? hn] at hm
  cases hm
  exact covers_of_length_le (hcovers.length_le.trans hpos) hle

/-! ## Comments, bare names, punctuation and operators -/

theorem commentLength?_greedy :
    Greedy (one (· == '#') * (one (· != '\n'))∗) (fun _ => true) commentLength? := by
  have hall := (Greedy.one (· == '#')).mul (Greedy.star (· != '\n')) fun _ _ _ _ => rfl
  refine (hall.weaken fun _ _ => rfl).congr fun t => ?_
  cases t with
  | nil => rfl
  | cons c rest =>
    by_cases hc : c = '#'
    · subst hc
      simp [commentLength?]
    · simp [commentLength?, hc]

theorem nameLength?_greedy :
    Greedy (one startsName * (one continuesName)∗) (fun _ => true) nameLength? := by
  have hall := (Greedy.one startsName).mul (Greedy.star continuesName) fun _ _ _ _ => rfl
  refine (hall.weaken fun _ _ => rfl).congr fun t => ?_
  cases t with
  | nil => rfl
  | cons c rest =>
    by_cases hc : startsName c = true
    · simp [nameLength?, hc]
    · simp [nameLength?, hc]

theorem punctuationLength?_greedy :
    Greedy (one (· ∈ punctuationMarks)) (fun _ => true) punctuationLength? := by
  refine ((Greedy.one (· ∈ punctuationMarks)).weaken fun _ _ => rfl).congr fun t => ?_
  cases t with
  | nil => rfl
  | cons c rest => simp [punctuationLength?]

theorem percentLength?_greedy :
    Greedy (one (· == '%') * (one insidePercent)∗ * one (· == '%')) (fun _ => true)
      percentLength? := by
  have hopen := (Greedy.one (· == '%')).mul (Greedy.star insidePercent) fun _ _ _ _ => rfl
  have hall := hopen.mul (Greedy.one (· == '%')) fun q hq c hc => by
    rw [beq_iff_eq.mp ((startsWith_one _).head hq c hc)]
    rfl
  refine (hall.weaken fun _ _ => rfl).congr fun t => ?_
  cases t with
  | nil => rfl
  | cons c rest =>
    by_cases hc : c = '%'
    · subst hc
      rw [percentLength?_cons, List.head?_drop]
      cases hend : rest[leading insidePercent rest]? with
      | none => simp [hend, Nat.add_comm 1]
      | some d =>
        by_cases hd : d = '%'
        · simp [hend, hd, Nat.add_comm 1]
        · simp [hend, hd, Nat.add_comm 1]
    · simp [percentLength?, hc]

/-- A long operator is the first that is tried. -/
theorem operatorLength?_of_long
    (h : (longOperators.find? (·.isPrefixOf t)).map List.length = some n) :
    operatorLength? t = some n := by
  obtain ⟨op, hop, rfl⟩ := Option.map_eq_some_iff.mp h
  unfold operatorLength?
  rw [hop]

theorem operatorLength?_greedy :
    Greedy (language .operator) (fun _ => true) operatorLength? := by
  have hshort := Greedy.one (· ∈ shortOperators)
  have hsmall := percentLength?_greedy.or_of_apart hshort (((startsWith_one _).mul _).mul _)
    (startsWith_one _) fun c hc => by
      rw [beq_eq_false_iff_ne]
      rintro rfl
      exact absurd hc (by decide)
  have hlong : Greedy (among longOperators) _ _ := Greedy.among (by decide)
  refine (hlong.or (hsmall.weaken fun _ _ => rfl) ?_).congr fun t => ?_
  · intro q hq rest n hn
    rcases (Language.mem_add _ _ q).mp hq with hq | hq
    · -- no long operator starts with a percent sign
      obtain ⟨c, q, rfl, hc⟩ := (((startsWith_one _).mul _).mul _) q hq
      obtain rfl := beq_iff_eq.mp hc
      cases hn
    · obtain ⟨c, -, rfl⟩ := hq
      obtain ⟨hpos, hle⟩ := operatorLength?_bounds (operatorLength?_of_long hn)
      exact covers_of_length_le hpos hle
  · unfold operatorLength?
    cases longOperators.find? (·.isPrefixOf t) with
    | some op => rfl
    | none =>
      cases percentLength? t with
      | some n => rfl
      | none =>
        cases t with
        | nil => rfl
        | cons c rest => simp

/-! ## Names in backticks -/

/-- One more part may come first. -/
theorem append_mem_star_mul {A B : Language Char} {part s : Text} (hpart : part ∈ A)
    (hs : s ∈ A∗ * B) : part ++ s ∈ A∗ * B := by
  obtain ⟨a, ha, b, hb, rfl⟩ := Language.mem_mul.mp hs
  rw [← List.append_assoc]
  have hstar : part ++ a ∈ A∗ :=
    Set.mem_of_mem_of_subset (Language.append_mem_mul hpart ha)
      (mul_kstar_le_kstar (a := A))
  exact Language.append_mem_mul hstar hb

/-- What may stand in a name in backticks does not end it. -/
theorem quotedNameRest?_append {b : Text} (hb : b ∈ quotedNamePart∗) (t : Text) :
    quotedNameRest? (b ++ t) = (quotedNameRest? t).map (· + b.length) := by
  obtain ⟨parts, rfl, hparts⟩ := Language.mem_kstar.mp hb
  clear hb
  induction parts with
  | nil => simp
  | cons part parts ih =>
    have ih := ih fun y hy => hparts y (List.mem_cons_of_mem _ hy)
    rw [List.flatten_cons, List.append_assoc]
    rcases hparts part List.mem_cons_self with hpart | ⟨c, hc, rfl⟩
    · obtain ⟨_, ⟨e, he, rfl⟩, _, ⟨c, hc, rfl⟩, rfl⟩ := Language.mem_mul.mp hpart
      obtain rfl := beq_iff_eq.mp he
      have hc : c ≠ '\n' := by simpa using hc
      simp [quotedNameRest?, hc, ih, Nat.add_assoc]
    · have hc : c ≠ '\x60' ∧ c ≠ '\\' := by simpa using hc
      rw [List.singleton_append, quotedNameRest?_cons hc.1 hc.2, ih]
      simp

theorem quotedNameRest?_greedy :
    Greedy (quotedNamePart∗ * one (· == '\x60')) (fun _ => true) quotedNameRest? where
  sound := by
    intro t n h
    refine ⟨(quotedNameRest?_bounds h).2, ?_⟩
    fun_induction quotedNameRest? t generalizing n with
    | case1 => cases h
    | case2 rest =>
      cases h
      exact Language.mem_mul.mpr ⟨[], Language.nil_mem_kstar _, ['\x60'], ⟨_, rfl, rfl⟩, rfl⟩
    | case3 => cases h
    | case4 c rest hc ih =>
      obtain ⟨m, hm, rfl⟩ := Option.map_eq_some_iff.mp h
      have hpart : ['\\', c] ∈ quotedNamePart :=
        Or.inl (Language.mem_mul.mpr
          ⟨['\\'], ⟨_, rfl, rfl⟩, [c], ⟨c, bne_iff_ne.mpr hc, rfl⟩, rfl⟩)
      exact append_mem_star_mul hpart (ih hm)
    | case5 => cases h
    | case6 c rest hquote hpair hlast ih =>
      obtain ⟨m, hm, rfl⟩ := Option.map_eq_some_iff.mp h
      have hescape := ne_backslash hlast hpair
      have hpart : [c] ∈ quotedNamePart := Or.inr ⟨c, by simpa [hescape] using hquote, rfl⟩
      exact append_mem_star_mul hpart (ih hm)
  covers := by
    intro p hp rest
    obtain ⟨b, hb, _, ⟨c, hc, rfl⟩, rfl⟩ := Language.mem_mul.mp hp
    obtain rfl := beq_iff_eq.mp hc
    refine ⟨(b ++ ['\x60']).length, ?_, Or.inl rfl⟩
    rw [List.append_assoc, quotedNameRest?_append hb]
    simp [quotedNameRest?, Nat.add_comm]

theorem quotedNameLength?_greedy :
    Greedy (language .quotedName) (fun _ => true) quotedNameLength? := by
  have hall := (Greedy.one (· == '\x60')).mul quotedNameRest?_greedy fun _ _ _ _ => rfl
  rw [language, mul_assoc]
  refine (hall.weaken fun _ _ => rfl).congr fun t => ?_
  cases t with
  | nil => rfl
  | cons c rest =>
    by_cases hc : c = '\x60'
    · subst hc
      simp [quotedNameLength?, Nat.add_comm]
    · simp [quotedNameLength?, hc]

/-! ## All rules -/

/-- Every rule reads as much as it can. -/
theorem length?_greedy (rule : Rule) : Greedy rule.language (fun _ => true) rule.length? := by
  cases rule with
  | comment => exact commentLength?_greedy
  | quotedName => exact quotedNameLength?_greedy
  | number => exact numberLength?_greedy
  | name => exact nameLength?_greedy
  | operator => exact operatorLength?_greedy
  | punctuation => exact punctuationLength?_greedy

/-- How many bytes at the start of a text a rule reads. -/
def byteLength? (rule : Rule) (t : Text) : Option Nat :=
  (rule.length? t).map fun n => (Text.bytes (t.take n)).length

/-- Where a rule reads anything, that is in its language, and no start of the text in its language
is longer. -/
theorem length?_longest {rule : Rule} (h : rule.length? t = some n) :
    t.take n ∈ rule.language ∧ t.take n ≠ [] ∧ ∀ p ∈ rule.language, p <+: t → p <+: t.take n := by
  obtain ⟨hpos, hle⟩ := length?_bounds h
  refine ⟨(rule.length?_greedy.sound h).2, ?_, ?_⟩
  · rw [List.ne_nil_iff_length_pos, List.length_take]
    omega
  · rintro p hp ⟨rest, rfl⟩
    obtain ⟨m, hm, hcovers⟩ := rule.length?_greedy.covers hp rest
    obtain rfl : n = m := Option.some.inj (h.symm.trans hm)
    refine List.prefix_of_prefix_length_le (List.prefix_append p rest) (List.take_prefix n _) ?_
    rw [List.length_take_of_le hle]
    exact hcovers.length_le

/-- Where a rule reads nothing, no start of the text is in its language. -/
theorem length?_eq_none_iff {rule : Rule} :
    rule.length? t = none ↔ ∀ p ∈ rule.language, p ≠ [] → ¬ p <+: t := by
  constructor
  · rintro h p hp - ⟨rest, rfl⟩
    obtain ⟨m, hm, -⟩ := rule.length?_greedy.covers hp rest
    rw [h] at hm
    cases hm
  · intro h
    cases hread : rule.length? t with
    | none => rfl
    | some n =>
      obtain ⟨hmem, hne, -⟩ := length?_longest hread
      exact absurd (List.take_prefix n t) (h _ hmem hne)

/-- **Trying alternatives in order finds the longest token.** What a rule reads at the start of a
text has as many bytes as the longest start of it that is not empty and in the language of the rule,
and the rule reads nothing exactly if there is no such start. -/
theorem byteLength?_longest (rule : Rule) (t : Text) :
    (∀ n, rule.byteLength? t = some n ↔
      IsGreatest {k | ∃ p ∈ rule.language, p ≠ [] ∧ p <+: t ∧ (Text.bytes p).length = k} n) ∧
    (rule.byteLength? t = none ↔ ∀ p ∈ rule.language, p ≠ [] → ¬ p <+: t) := by
  have hgreatest {m : Nat} (hm : rule.length? t = some m) :
      IsGreatest {k | ∃ p ∈ rule.language, p ≠ [] ∧ p <+: t ∧ (Text.bytes p).length = k}
        (Text.bytes (t.take m)).length := by
    obtain ⟨hmem, hne, hall⟩ := length?_longest hm
    refine ⟨⟨t.take m, hmem, hne, List.take_prefix m t, rfl⟩, ?_⟩
    rintro k ⟨p, hp, -, hpt, rfl⟩
    exact Text.length_bytes_le (hall p hp hpt)
  refine ⟨fun n => ⟨fun h => ?_, fun h => ?_⟩, ?_⟩
  · obtain ⟨m, hm, rfl⟩ := Option.map_eq_some_iff.mp h
    exact hgreatest hm
  · cases hread : rule.length? t with
    | none =>
      obtain ⟨p, hp, hne, hpt, -⟩ := h.1
      exact absurd hpt (length?_eq_none_iff.mp hread p hp hne)
    | some m =>
      rw [h.unique (hgreatest hread), byteLength?, hread, Option.map_some]
  · rw [byteLength?, Option.map_eq_none_iff, length?_eq_none_iff]

/-- All of an operator is read, and all of a number. -/
example : Rule.operator.byteLength? "<<-x".toList = some 3 ∧
    Rule.number.byteLength? "1.5e-3L+2".toList = some 7 := by
  decide +kernel

end RmdOptions.Rule
