import RmdOptions.Json.Value

/-!
# JSON literals

The parts of a JSON text that hold no further values are read from left to right, and the first
fault met on the way is the one reported. Values that are kept are read in full; a value that is
passed over only has to have the right form, so in it surrogates may stand alone.

Each step gives what it has read together with the text after it, and comes with the fact that it
has used up some of the text.

* `Fault`, `Care` — what can be wrong, and how much is asked;
* `afterWord` — constants;
* `escaped`, `stringRest` — strings;
* `numberLiteral` — numbers.
-/

namespace RmdOptions.Json

/-- What is wrong with a JSON text. -/
inductive Fault where
  /-- it ends inside a value -/
  | unfinished
  /-- it is not well formed -/
  | malformed
  /-- it is well formed so far, but not of the type that is asked for -/
  | unsuitable
  deriving DecidableEq

/-- How a value is read. -/
inductive Care where
  /-- as a value to keep -/
  | full
  /-- as a form to pass over -/
  | form
  deriving DecidableEq

/-- Whether JSON passes over a character between tokens. -/
def isBlank (c : Char) : Bool := c == ' ' || c == '\t' || c == '\n' || c == '\r'

/-- What follows the blanks at the start of a text. -/
def skipBlanks (t : Text) : Text := t.dropWhile isBlank

theorem length_dropWhile_le (p : Char → Bool) (t : Text) : (t.dropWhile p).length ≤ t.length :=
  (List.dropWhile_suffix p).length_le

theorem length_skipBlanks_le (t : Text) : (skipBlanks t).length ≤ t.length :=
  length_dropWhile_le isBlank t

/-! ## Constants -/

/-- What follows a word that must come next. -/
def afterWord : Text → Text → Except Fault Text
  | [], t => .ok t
  | _ :: _, [] => .error .unfinished
  | c :: word, d :: t => if c = d then afterWord word t else .error .malformed

theorem length_of_afterWord {word t rest : Text} (h : afterWord word t = .ok rest) :
    rest.length ≤ t.length := by
  induction word generalizing t with
  | nil =>
    cases h
    exact Nat.le_refl _
  | cons c word ih =>
    cases t with
    | nil => cases h
    | cons d t =>
      rw [afterWord] at h
      split at h
      · exact Nat.le_succ_of_le (ih h)
      · cases h

/-! ## Strings -/

/-- The value of a hexadecimal digit. -/
def hexValue? (c : Char) : Option Nat :=
  if '0' ≤ c ∧ c ≤ '9' then some (c.toNat - 48)
  else if 'a' ≤ c ∧ c ≤ 'f' then some (c.toNat - 87)
  else if 'A' ≤ c ∧ c ≤ 'F' then some (c.toNat - 55)
  else none

/-- The value of four hexadecimal digits. -/
def hexUnit? (a b c d : Char) : Option Nat := do
  let a ← hexValue? a
  let b ← hexValue? b
  let c ← hexValue? c
  let d ← hexValue? d
  return ((a * 16 + b) * 16 + c) * 16 + d

/-- How many bytes a text takes in UTF-8. -/
def utf8Length : Text → Nat
  | [] => 0
  | c :: t => c.utf8Size + utf8Length t

/-- The unit of a Unicode escape after its mark. The text has ended too early when fewer than four
bytes of it are left. -/
def escapedUnit (t : Text) : Except Fault (Nat × Text) :=
  match t with
  | a :: b :: c :: d :: rest =>
    match hexUnit? a b c d with
    | some unit => .ok (unit, rest)
    | none => .error .malformed
  | _ => .error (if 4 ≤ utf8Length t then .malformed else .unfinished)

theorem length_of_escapedUnit {t rest : Text} {unit : Nat}
    (h : escapedUnit t = .ok (unit, rest)) : rest.length < t.length := by
  unfold escapedUnit at h
  split at h
  · split at h
    · cases h
      simp only [List.length_cons]
      omega
    · cases h
  · cases h

/-- Whether a unit is the first of a pair. -/
def isHighSurrogate (unit : Nat) : Bool := 0xD800 ≤ unit && unit ≤ 0xDBFF

/-- Whether a unit is the second of a pair. -/
def isLowSurrogate (unit : Nat) : Bool := 0xDC00 ≤ unit && unit ≤ 0xDFFF

/-- The character of a pair of units. -/
def ofPair (high low : Nat) : Char :=
  Char.ofNat (0x10000 + (high - 0xD800) * 0x400 + (low - 0xDC00))

/-- The unit of a second Unicode escape, which must follow a first one. -/
def secondUnit (t : Text) : Except Fault (Nat × Text) :=
  match afterWord ['\\', 'u'] t with
  | .ok rest => escapedUnit rest
  | .error fault => .error fault

theorem length_of_secondUnit {t rest : Text} {unit : Nat}
    (h : secondUnit t = .ok (unit, rest)) : rest.length < t.length := by
  rw [secondUnit] at h
  split at h
  · next hword => exact Nat.lt_of_lt_of_le (length_of_escapedUnit h) (length_of_afterWord hword)
  · cases h

/-- The character of a Unicode escape after its mark. In a value to keep, surrogates come in pairs;
in a form to pass over, each unit is for itself. -/
def escapedCharacter (care : Care) (t : Text) : Except Fault (Char × Text) :=
  match escapedUnit t with
  | .error fault => .error fault
  | .ok (unit, rest) =>
    if care = .form then .ok (Char.ofNat unit, rest)
    else if isLowSurrogate unit then .error .malformed
    else if isHighSurrogate unit then
      match secondUnit rest with
      | .error fault => .error fault
      | .ok (low, rest) =>
        if isLowSurrogate low then .ok (ofPair unit low, rest) else .error .malformed
    else .ok (Char.ofNat unit, rest)

theorem length_of_escapedCharacter {care : Care} {t rest : Text} {c : Char}
    (h : escapedCharacter care t = .ok (c, rest)) : rest.length < t.length := by
  rw [escapedCharacter] at h
  split at h
  · cases h
  · next unit after hunit =>
    have hlt := length_of_escapedUnit hunit
    split at h
    · cases h
      exact hlt
    · split at h
      · cases h
      · split at h
        · split at h
          · cases h
          · next low last hlow =>
            split at h
            · simp only [Except.ok.injEq, Prod.mk.injEq] at h
              obtain ⟨-, rfl⟩ := h
              exact Nat.lt_trans (length_of_secondUnit hlow) hlt
            · cases h
        · simp only [Except.ok.injEq, Prod.mk.injEq] at h
          obtain ⟨-, rfl⟩ := h
          exact hlt

/-- The character that a letter after a backslash stands for. -/
def shortEscape? (c : Char) : Option Char :=
  if c = '\x22' ∨ c = '\\' ∨ c = '/' then some c
  else if c = 'b' then some '\x08'
  else if c = 'f' then some '\x0c'
  else if c = 'n' then some '\n'
  else if c = 'r' then some '\r'
  else if c = 't' then some '\t'
  else none

/-- The character of an escape after its backslash. -/
def escaped (care : Care) : Text → Except Fault (Char × Text)
  | [] => .error .unfinished
  | c :: rest =>
    if c = 'u' then escapedCharacter care rest
    else
      match shortEscape? c with
      | some d => .ok (d, rest)
      | none => .error .malformed

theorem length_of_escaped {care : Care} {t rest : Text} {c : Char}
    (h : escaped care t = .ok (c, rest)) : rest.length < t.length := by
  cases t with
  | nil => cases h
  | cons d t =>
    rw [escaped] at h
    split at h
    · exact Nat.lt_succ_of_lt (length_of_escapedCharacter h)
    · split at h
      · cases h
        exact Nat.lt_succ_self _
      · cases h

/-- A string after its opening quote, and what follows its closing quote. -/
def stringRest (care : Care) : Text → Except Fault (Text × Text)
  | [] => .error .unfinished
  | c :: t =>
    if c = '\x22' then .ok ([], t)
    else if c = '\\' then
      match h : escaped care t with
      | .error fault => .error fault
      | .ok (d, rest) =>
        have : rest.length < t.length + 1 := Nat.lt_succ_of_lt (length_of_escaped h)
        match stringRest care rest with
        | .error fault => .error fault
        | .ok (content, after) => .ok (d :: content, after)
    else if c.toNat < 32 then .error .malformed
    else
      match stringRest care t with
      | .error fault => .error fault
      | .ok (content, after) => .ok (c :: content, after)
termination_by t => t.length

theorem length_of_stringRest {care : Care} {t content rest : Text}
    (h : stringRest care t = .ok (content, rest)) : rest.length < t.length := by
  fun_induction stringRest care t generalizing content with
  | case1 => cases h
  | case2 t =>
    cases h
    exact Nat.lt_succ_self _
  | case3 => cases h
  | case4 => cases h
  | case5 t d after hescaped hlt content' last hrest _ ih =>
    cases h
    have := ih hrest
    simp only [List.length_cons]
    omega
  | case6 => cases h
  | case7 => cases h
  | case8 c t _ _ _ content' last hrest ih =>
    cases h
    exact Nat.lt_succ_of_lt (ih hrest)

/-- A string goes on behind an escape or a character. -/
theorem stringRest_cons (care : Care) (c : Char) (t : Text) :
    stringRest care (c :: t) =
      if c = '\x22' then .ok ([], t)
      else if c = '\\' then
        match escaped care t with
        | .error fault => .error fault
        | .ok (d, rest) => (stringRest care rest).map fun read => (d :: read.1, read.2)
      else if c.toNat < 32 then .error .malformed
      else (stringRest care t).map fun read => (c :: read.1, read.2) := by
  rw [stringRest]
  split
  · rfl
  · split
    · split
      · next heq => rw [heq]
      · next d rest heq =>
        simp only [heq]
        cases stringRest care rest <;> rfl
    · split
      · rfl
      · cases stringRest care t <;> rfl

/-! ## Numbers -/

/-- The value of a decimal digit. -/
def digitValue? (c : Char) : Option Nat :=
  if '0' ≤ c ∧ c ≤ '9' then some (c.toNat - 48) else none

/-- The digits at the start of a text, and what follows them. -/
def digits : Text → List Nat × Text
  | [] => ([], [])
  | c :: t =>
    match digitValue? c with
    | some d => (d :: (digits t).1, (digits t).2)
    | none => ([], c :: t)

theorem length_digits (t : Text) : (digits t).1.length + (digits t).2.length = t.length := by
  induction t with
  | nil => rfl
  | cons c t ih =>
    rw [digits]
    split
    · simp only [List.length_cons]
      omega
    · simp

/-- Digits of which there must be one; `cut` is the fault of a text that ends before it. -/
def someDigits (cut : Fault) (t : Text) : Except Fault (List Nat × Text) :=
  match digits t with
  | ([], []) => .error cut
  | ([], _ :: _) => .error .malformed
  | (d :: ds, rest) => .ok (d :: ds, rest)

theorem length_of_someDigits {cut : Fault} {t rest : Text} {ds : List Nat}
    (h : someDigits cut t = .ok (ds, rest)) : rest.length < t.length := by
  have hlength := length_digits t
  rw [someDigits] at h
  split at h
  · cases h
  · cases h
  · next heq =>
    cases h
    simp only [heq, List.length_cons] at hlength
    omega

/-- The whole part of a number, in which no digit follows a leading zero. -/
def wholePart (cut : Fault) (t : Text) : Except Fault (List Nat × Text) :=
  match someDigits cut t with
  | .ok (0 :: _ :: _, _) => .error .malformed
  | answer => answer

theorem length_of_wholePart {cut : Fault} {t rest : Text} {ds : List Nat}
    (h : wholePart cut t = .ok (ds, rest)) : rest.length < t.length := by
  rw [wholePart] at h
  split at h
  · cases h
  · exact length_of_someDigits h

/-- The fraction of a number, if there is one. -/
def fractionPart (cut : Fault) : Text → Except Fault (Option (List Nat) × Text)
  | '.' :: t =>
    match someDigits cut t with
    | .ok (ds, rest) => .ok (some ds, rest)
    | .error fault => .error fault
  | t => .ok (none, t)

theorem length_of_fractionPart {cut : Fault} {t rest : Text} {ds : Option (List Nat)}
    (h : fractionPart cut t = .ok (ds, rest)) : rest.length ≤ t.length := by
  unfold fractionPart at h
  split at h
  · split at h
    · next hdigits =>
      cases h
      exact Nat.le_succ_of_le (Nat.le_of_lt (length_of_someDigits hdigits))
    · cases h
  · cases h
    exact Nat.le_refl _

/-- The sign of an exponent, and what follows it. -/
def exponentSign : Text → Bool × Text
  | '+' :: t => (false, t)
  | '-' :: t => (true, t)
  | t => (false, t)

theorem length_exponentSign_le (t : Text) : (exponentSign t).2.length ≤ t.length := by
  unfold exponentSign
  split
  · exact Nat.le_succ _
  · exact Nat.le_succ _
  · exact Nat.le_refl _

/-- The exponent of a number, if there is one. -/
def exponentPart (cut : Fault) : Text → Except Fault (Option (Bool × List Nat) × Text)
  | [] => .ok (none, [])
  | c :: t =>
    if c = 'e' ∨ c = 'E' then
      match someDigits cut (exponentSign t).2 with
      | .ok (ds, rest) => .ok (some ((exponentSign t).1, ds), rest)
      | .error fault => .error fault
    else .ok (none, c :: t)

theorem length_of_exponentPart {cut : Fault} {t rest : Text} {ds : Option (Bool × List Nat)}
    (h : exponentPart cut t = .ok (ds, rest)) : rest.length ≤ t.length := by
  cases t with
  | nil =>
    cases h
    exact Nat.le_refl _
  | cons c t =>
    have hsign := length_exponentSign_le t
    rw [exponentPart] at h
    split at h
    · split at h
      · next hdigits =>
        cases h
        have := length_of_someDigits hdigits
        simp only [List.length_cons]
        omega
      · cases h
    · cases h
      exact Nat.le_refl _

/-- A number literal without its sign. -/
def unsignedLiteral (cut : Fault) (negative : Bool) (t : Text) :
    Except Fault (NumberLiteral × Text) :=
  match wholePart cut t with
  | .error fault => .error fault
  | .ok (whole, t) =>
    match fractionPart cut t with
    | .error fault => .error fault
    | .ok (fraction, t) =>
      match exponentPart cut t with
      | .error fault => .error fault
      | .ok (exponent, t) => .ok (⟨negative, whole, fraction, exponent⟩, t)

theorem length_of_unsignedLiteral {cut : Fault} {negative : Bool} {t rest : Text}
    {literal : NumberLiteral} (h : unsignedLiteral cut negative t = .ok (literal, rest)) :
    rest.length < t.length := by
  rw [unsignedLiteral] at h
  split at h
  · cases h
  · next hwhole =>
    split at h
    · cases h
    · next hfraction =>
      split at h
      · cases h
      · next hexponent =>
        cases h
        exact Nat.lt_of_le_of_lt (length_of_exponentPart hexponent)
          (Nat.lt_of_le_of_lt (length_of_fractionPart hfraction) (length_of_wholePart hwhole))

/-- A number literal. -/
def numberLiteral (cut : Fault) : Text → Except Fault (NumberLiteral × Text)
  | '-' :: t => unsignedLiteral cut true t
  | t => unsignedLiteral cut false t

theorem length_of_numberLiteral {cut : Fault} {t rest : Text} {literal : NumberLiteral}
    (h : numberLiteral cut t = .ok (literal, rest)) : rest.length < t.length := by
  unfold numberLiteral at h
  split at h
  · exact Nat.lt_succ_of_lt (length_of_unsignedLiteral h)
  · exact length_of_unsignedLiteral h

end RmdOptions.Json
