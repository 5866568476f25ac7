import RmdOptions.Options.Edits
import RmdOptions.Options.Render
import RmdOptions.Proofs.Text.Lines
import RmdOptions.Token.Rule

/-!
# Plain options

Options are plain when their names are made of ASCII letters, digits, points and underscores, and
their values are words of these characters, strings that need no escapes, or calls of plain values.
What a form writes is plain, and so is most of what stands in documents.

* `isWordChar`, `isNameStart`, `isQuotable` — the characters of words, names and strings;
* `IsWord`, `IsName`, `PlainValue`, `OptionMap.IsPlain` — plain words, names, values and options.
-/

namespace RmdOptions

/-! ## Characters -/

/-- The characters of a word: ASCII letters and digits, points and underscores. -/
def isWordChar (c : Char) : Bool :=
  ('A' ≤ c && c ≤ 'Z') || ('a' ≤ c && c ≤ 'z') || ('0' ≤ c && c ≤ '9') || c == '.' || c == '_'

/-- The characters that a name may start with: ASCII letters. -/
def isNameStart (c : Char) : Bool := ('A' ≤ c && c ≤ 'Z') || ('a' ≤ c && c ≤ 'z')

/-- The characters of a string: printable ASCII without quote, backslash, percent sign and
backtick. -/
def isQuotable (c : Char) : Bool :=
  ' ' ≤ c && c ≤ '~' && c != '\x22' && c != '\\' && c != '%' && c != '\x60'

/-- What holds of the characters below 128 holds of ASCII. -/
theorem forall_ascii {p : Char → Prop} (h : ∀ n : Fin 128, p (Char.ofNat n)) {c : Char}
    (hc : c.toNat < 128) : p c := by
  have := h ⟨c.toNat, hc⟩
  rwa [Char.ofNat_toNat] at this

theorem toNat_lt_of_le_tilde {c : Char} (h : c ≤ '~') : c.toNat < 128 := by
  have hle : c.val.toNat ≤ 126 := by
    rw [Char.le_def, UInt32.le_iff_toNat_le] at h
    exact h
  exact Nat.lt_of_le_of_lt hle (by decide)

theorem toNat_lt_of_isWordChar {c : Char} (h : isWordChar c = true) : c.toNat < 128 := by
  refine toNat_lt_of_le_tilde ?_
  simp only [isWordChar, Bool.or_eq_true, Bool.and_eq_true, decide_eq_true_eq, beq_iff_eq] at h
  rcases h with (((⟨-, h⟩ | ⟨-, h⟩) | ⟨-, h⟩) | rfl) | rfl
  · exact Char.le_trans h (by decide)
  · exact Char.le_trans h (by decide)
  · exact Char.le_trans h (by decide)
  · decide
  · decide

theorem toNat_lt_of_isQuotable {c : Char} (h : isQuotable c = true) : c.toNat < 128 := by
  simp only [isQuotable, Bool.and_eq_true, decide_eq_true_eq] at h
  exact toNat_lt_of_le_tilde h.1.1.1.1.2

/-! ## Words, names and values -/

/-- A word: one or more word characters. -/
def IsWord (t : Text) : Prop := t ≠ [] ∧ ∀ c ∈ t, isWordChar c = true

instance (t : Text) : Decidable (IsWord t) :=
  inferInstanceAs (Decidable (t ≠ [] ∧ ∀ c ∈ t, isWordChar c = true))

/-- A name: a word that starts with a letter. -/
def IsName (t : Text) : Prop := t.head?.any isNameStart = true ∧ ∀ c ∈ t, isWordChar c = true

instance (t : Text) : Decidable (IsName t) :=
  inferInstanceAs (Decidable (t.head?.any isNameStart = true ∧ ∀ c ∈ t, isWordChar c = true))

/-- Plain values: words, strings, and calls with plain values as arguments. -/
inductive PlainValue : Text → Prop where
  /-- a word -/
  | word {w : Text} (h : IsWord w) : PlainValue w
  /-- a string in double quotes -/
  | quoted {s : Text} (h : ∀ c ∈ s, isQuotable c = true) :
    PlainValue ('\x22' :: s ++ ['\x22'])
  /-- a call of a word -/
  | call {w : Text} (h : IsWord w) {values : List Text} (hvalues : ∀ v ∈ values, PlainValue v) :
    PlainValue (w ++ '(' :: [',', ' '].intercalate values ++ [')'])

/-- Plain options: plain values under plain names. -/
def OptionMap.IsPlain (m : OptionMap) : Prop :=
  ∀ entry ∈ m.entries, IsName entry.1 ∧ PlainValue entry.2

theorem OptionMap.IsPlain.sorted {m : OptionMap} (h : m.IsPlain) : m.sorted.IsPlain :=
  fun entry hentry => h entry ((List.mergeSort_perm _ _).mem_iff.mp hentry)

theorem Keyed.mem_put {key value : Text} {entries : List (Text × Text)} {entry : Text × Text}
    (h : entry ∈ put key value entries) : entry = (key, value) ∨ entry ∈ entries := by
  induction entries with
  | nil => exact Or.inl (List.mem_singleton.mp h)
  | cons first rest ih =>
    obtain ⟨k, v⟩ := first
    rw [put] at h
    split at h
    · next hkey =>
      subst hkey
      rcases List.mem_cons.mp h with rfl | h
      · exact Or.inl rfl
      · exact Or.inr (List.mem_cons_of_mem _ h)
    · rcases List.mem_cons.mp h with rfl | h
      · exact Or.inr List.mem_cons_self
      · exact (ih h).imp_right (List.mem_cons_of_mem _)

/-- Plain options stay plain when a form writes plain values over them. -/
theorem OptionMap.IsPlain.merge {m : OptionMap} (hm : m.IsPlain) {edits : Edits}
    (h : ∀ write ∈ edits.writes, IsName write.1 ∧ PlainValue write.2) :
    (m.merge edits).IsPlain := by
  rw [OptionMap.merge]
  generalize edits.writes = writes at h
  induction writes generalizing m with
  | nil => exact hm
  | cons write more ih =>
    have hinsert : (m.insert write.1 write.2).IsPlain := by
      intro entry hentry
      rcases Keyed.mem_put hentry with rfl | hentry
      · exact h write List.mem_cons_self
      · exact hm entry hentry
    exact ih hinsert fun w hw => h w (List.mem_cons_of_mem _ hw)

theorem OptionMap.isPlain_empty : OptionMap.empty.IsPlain :=
  fun _ hentry => absurd hentry List.not_mem_nil

/-- A form that only turns a checkbox off writes plain options. -/
theorem Edits.isPlain_echoOff : (OptionMap.empty.merge { echo := some falseLiteral }).IsPlain := by
  refine OptionMap.isPlain_empty.merge fun write hwrite => ?_
  obtain rfl := List.mem_singleton.mp hwrite
  exact ⟨by decide +kernel, .word (by decide)⟩

theorem IsName.exists_cons {t : Text} (h : IsName t) :
    ∃ c rest, t = c :: rest ∧ isNameStart c = true := by
  obtain ⟨c, hc, hstart⟩ := (Option.any_eq_true _ _).mp h.1
  obtain ⟨rest, rfl⟩ := List.head?_eq_some_iff.mp hc
  exact ⟨c, rest, rfl, hstart⟩

/-- A name does not start with a colon, whatever follows it. -/
theorem IsName.head?_ne_colon {name : Text} (h : IsName name) (rest : Text) :
    (name ++ rest).head? ≠ some ':' := by
  obtain ⟨c, t, rfl, hstart⟩ := h.exists_cons
  rintro ⟨⟩
  revert hstart
  decide

/-! ## The characters of plain values -/

/-- The characters of calls with plain arguments: those of strings, quotes, and tabs. -/
def isPlainChar (c : Char) : Bool := isQuotable c || c == '\x22' || c == '\t'

theorem isPlainChar_of_isQuotable {c : Char} (h : isQuotable c = true) : isPlainChar c = true := by
  simp [isPlainChar, h]

theorem isPlainChar_of_isWordChar {c : Char} (h : isWordChar c = true) : isPlainChar c = true :=
  forall_ascii (p := fun c => isWordChar c = true → isPlainChar c = true) (by decide +kernel)
    (toNat_lt_of_isWordChar h) h

/-- No character of a plain value breaks a row, or ends an operator or a name. -/
theorem rules_of_isPlainChar {c : Char} (h : isPlainChar c = true) :
    Text.isRowBreak c = false ∧ c ≠ '%' ∧ c ≠ '\x60' := by
  have hascii : c.toNat < 128 := by
    simp only [isPlainChar, Bool.or_eq_true, beq_iff_eq] at h
    rcases h with (h | rfl) | rfl
    · exact toNat_lt_of_isQuotable h
    · decide
    · decide
  exact forall_ascii (p := fun c => isPlainChar c = true →
    Text.isRowBreak c = false ∧ c ≠ '%' ∧ c ≠ '\x60') (by decide +kernel) hascii h

/-- The characters of joined texts are those of the texts and of the separator. -/
theorem forall_mem_intercalate {p : Char → Prop} {separator : Text} {items : List Text}
    (hseparator : ∀ c ∈ separator, p c) (hitems : ∀ item ∈ items, ∀ c ∈ item, p c) :
    ∀ c ∈ separator.intercalate items, p c := by
  induction items with
  | nil => exact fun c hc => absurd hc List.not_mem_nil
  | cons item more ih =>
    intro c hc
    cases more with
    | nil =>
      rw [List.intercalate_singleton] at hc
      exact hitems item List.mem_cons_self c hc
    | cons next more =>
      rw [List.intercalate_cons_cons, List.mem_append, List.mem_append] at hc
      rcases hc with (hc | hc) | hc
      · exact hitems item List.mem_cons_self c hc
      · exact hseparator c hc
      · exact ih (fun i hi => hitems i (List.mem_cons_of_mem _ hi)) c hc

theorem PlainValue.isPlainChar {v : Text} (h : PlainValue v) : ∀ c ∈ v, isPlainChar c = true := by
  induction h with
  | word h => exact fun c hc => isPlainChar_of_isWordChar (h.2 c hc)
  | quoted h =>
    intro c hc
    simp only [List.mem_append, List.mem_cons, List.not_mem_nil, or_false] at hc
    rcases hc with (rfl | hc) | rfl
    · decide
    · exact isPlainChar_of_isQuotable (h c hc)
    · decide
  | call h _ ih =>
    intro c hc
    simp only [List.mem_append, List.mem_cons, List.not_mem_nil, or_false] at hc
    rcases hc with (hc | rfl | hc) | rfl
    · exact isPlainChar_of_isWordChar (h.2 c hc)
    · decide
    · exact forall_mem_intercalate (by decide) ih c hc
    · decide

/-- Plain values stay on their line. -/
theorem PlainValue.unbroken {v : Text} (h : PlainValue v) : v.Unbroken :=
  fun c hc => (rules_of_isPlainChar (h.isPlainChar c hc)).1

theorem IsName.unbroken {name : Text} (h : IsName name) : name.Unbroken :=
  fun c hc => (rules_of_isPlainChar (isPlainChar_of_isWordChar (h.2 c hc))).1

end RmdOptions
