import RmdOptions.Proofs.Token.Code

/-!
# The order of the rules

A text that some rule reads starts with a character at which no other rule reads anything, except
that numbers and bare names may both start with a point. So a list of all rules finds the same
tokens in every order in which numbers are tried before bare names, and in no other order: `.5` is a
number only if it is tried as one first.

* `Rule.number_and_name` — which rules can read the same text;
* `Rule.firstMatch?_eq_some_iff` — what is read, said without the order of the rules;
* `Lexer.tokens_congr` — all that a lexer does with its rules is to look for the first match;
* `Lexer.tokens_eq_iff_number_first` — **the order of the rules matters in one place only**.
-/

namespace RmdOptions

variable {rules others : List Rule} {rule other : Rule} {t : Text} {n : Nat}

namespace Rule

/-! ## First characters -/

/-- The characters at which tokens start that are neither numbers nor bare names. -/
def marks : List Char := '#' :: '\x60' :: '%' :: (shortOperators ++ punctuationMarks)

theorem mem_marks_of_starts {c : Char} (hrule : rule ≠ .number ∧ rule ≠ .name)
    (h : rule.starts c = true) : c ∈ marks := by
  cases rule with
  | number => exact absurd rfl hrule.1
  | name => exact absurd rfl hrule.2
  | comment =>
    obtain rfl : c = '#' := by simpa [starts] using h
    decide
  | quotedName =>
    obtain rfl : c = '\x60' := by simpa [starts] using h
    decide
  | operator =>
    have hc : c = '%' ∨ c ∈ shortOperators := by simpa [starts] using h
    rcases hc with rfl | hc
    · decide
    · simp [marks, hc]
  | punctuation =>
    have hc : c ∈ punctuationMarks := by simpa [starts] using h
    simp [marks, hc]

theorem mem_all (rule : Rule) : rule ∈ Rule.all := by
  cases rule <;> decide

/-- The tokens of different rules start with different characters, unless they are numbers and bare
names. -/
theorem number_or_name_of_starts {c : Char} (h : rule.starts c = true)
    (hother : other.starts c = true) (hne : rule ≠ other) : rule = .number ∨ rule = .name := by
  have hmarks : (marks.all fun d => Rule.all.all fun r => Rule.all.all fun s =>
      !r.starts d || !s.starts d || r == s) = true := by
    decide +kernel
  by_cases hnumber : rule = .number
  · exact Or.inl hnumber
  · by_cases hname : rule = .name
    · exact Or.inr hname
    · have hc := List.all_eq_true.mp hmarks c (mem_marks_of_starts ⟨hnumber, hname⟩ h)
      have hboth := List.all_eq_true.mp (List.all_eq_true.mp hc rule (mem_all rule)) other
        (mem_all other)
      rw [h, hother] at hboth
      exact absurd (beq_iff_eq.mp hboth) hne

/-- What a rule reads starts like its tokens do. -/
theorem exists_starts (h : rule.length? t = some n) :
    ∃ c rest, t = c :: rest ∧ rule.starts c = true := by
  obtain ⟨hpos, hle⟩ := length?_bounds h
  obtain ⟨c, rest, rfl⟩ := List.exists_cons_of_length_pos (Nat.lt_of_lt_of_le hpos hle)
  refine ⟨c, rest, rfl, ?_⟩
  cases hc : rule.starts c with
  | true => rfl
  | false =>
    rw [length?_eq_none hc] at h
    cases h

/-- Of two rules that read the same text, one is for numbers and the other for bare names. -/
theorem number_and_name {m : Nat} (h : rule.length? t = some n) (hother : other.length? t = some m)
    (hne : rule ≠ other) : rule = .number ∧ other = .name ∨ rule = .name ∧ other = .number := by
  obtain ⟨c, rest, rfl, hc⟩ := exists_starts h
  obtain ⟨d, rest', heq, hd⟩ := exists_starts hother
  obtain rfl : c = d := (List.cons.inj heq).1
  rcases number_or_name_of_starts hc hd hne with rfl | rfl
  · rcases number_or_name_of_starts hd hc hne.symm with rfl | rfl
    · exact absurd rfl hne
    · exact Or.inl ⟨rfl, rfl⟩
  · rcases number_or_name_of_starts hd hc hne.symm with rfl | rfl
    · exact Or.inr ⟨rfl, rfl⟩
    · exact absurd rfl hne

/-! ## The first match -/

/-- A rule that is found first has no other in front of it that reads anything. -/
theorem exists_split_of_firstMatch? (h : firstMatch? rules t = some (rule, n)) :
    ∃ before after, rules = before ++ rule :: after ∧ rule.length? t = some n ∧
      ∀ earlier ∈ before, earlier.length? t = none := by
  obtain ⟨before, tried, after, rfl, hmatch, hbefore⟩ := List.findSome?_eq_some_iff.mp h
  obtain ⟨m, hm, heq⟩ := Option.map_eq_some_iff.mp hmatch
  obtain ⟨rfl, rfl⟩ := Prod.mk.inj heq
  exact ⟨before, after, rfl, hm, fun earlier hearlier =>
    Option.map_eq_none_iff.mp (hbefore earlier hearlier)⟩

/-- Where every rule is tried, numbers before bare names, a rule decides exactly if it reads
anything and is not that for names where there is a number. -/
theorem firstMatch?_eq_some_iff (hall : ∀ r, r ∈ rules)
    (hfirst : rules.idxOf .number < rules.idxOf .name) :
    firstMatch? rules t = some (rule, n) ↔
      rule.length? t = some n ∧ (rule = .name → Rule.number.length? t = none) := by
  have hname {before after : List Rule} (hsplit : rules = before ++ .name :: after)
      (hnot : Rule.name ∉ before) : Rule.number ∈ before := by
    by_cases hmem : Rule.number ∈ before
    · exact hmem
    · rw [hsplit, List.idxOf_append, List.idxOf_append, if_neg hmem, if_neg hnot,
        List.idxOf_cons_self] at hfirst
      omega
  have honly {r : Rule} {m : Nat} (h : firstMatch? rules t = some (r, m)) :
      r.length? t = some m ∧ (r = .name → Rule.number.length? t = none) := by
    obtain ⟨before, after, hsplit, hread, hbefore⟩ := exists_split_of_firstMatch? h
    refine ⟨hread, ?_⟩
    rintro rfl
    refine hbefore _ (hname hsplit fun hmem => ?_)
    rw [hbefore _ hmem] at hread
    cases hread
  refine ⟨honly, fun ⟨hread, hnumber⟩ => ?_⟩
  cases h : firstMatch? rules t with
  | none =>
    have hnone := List.findSome?_eq_none_iff.mp h rule (hall rule)
    rw [hread] at hnone
    cases hnone
  | some found =>
    obtain ⟨other, m⟩ := found
    obtain ⟨hother, hnumber'⟩ := honly h
    by_cases hne : rule = other
    · subst hne
      rw [hread] at hother
      rw [Option.some.inj hother]
    · -- one of the two is for names, and then numbers read nothing
      rcases number_and_name hread hother hne with ⟨rfl, rfl⟩ | ⟨rfl, rfl⟩
      · rw [hnumber' rfl] at hread
        cases hread
      · rw [hnumber rfl] at hother
        cases hother

/-- Two such lists of rules decide alike. -/
theorem firstMatch?_congr (hall : ∀ r, r ∈ rules) (hfirst : rules.idxOf .number < rules.idxOf .name)
    (hall' : ∀ r, r ∈ others) (hfirst' : others.idxOf .number < others.idxOf .name) (t : Text) :
    firstMatch? rules t = firstMatch? others t := by
  ext ⟨rule, n⟩
  rw [firstMatch?_eq_some_iff hall hfirst, firstMatch?_eq_some_iff hall' hfirst']

end Rule

/-! ## Lexers -/

section Congr

variable (h : ∀ t, Rule.firstMatch? rules t = Rule.firstMatch? others t)
include h

theorem lexeme?_congr (t : Text) : lexeme? rules t = lexeme? others t := by
  cases t with
  | nil => rfl
  | cons c rest => rw [lexeme?, lexeme?, h]

theorem lexCode_congr (row column : Nat) (t : Text) :
    lexCode rules row column t = lexCode others row column t := by
  induction column, t using lex_induction rules with
  | nil column => rw [lexCode_nil, lexCode_nil]
  | white column c rest hc ih => rw [lexCode_white hc, lexCode_white hc, ih]
  | opened column c rest hc hlexeme =>
    rw [lexCode_open hc hlexeme, lexCode_open hc (by rw [← lexeme?_congr h, hlexeme])]
  | token column c rest kind n hc hlexeme ih =>
    rw [lexCode_token hc hlexeme, lexCode_token hc (by rw [← lexeme?_congr h, hlexeme]), ih]

theorem lexLine_congr (pending : Option OpenString) (row : Nat) (line : Text) :
    lexLine rules pending row line = lexLine others pending row line := by
  unfold lexLine
  simp only [lexCode_congr h]

namespace Lexer

variable (fence : Text)

theorem codeLines_congr (pending : Option OpenString) (row : Nat) (ls : List Text) :
    codeLines ⟨rules, fence⟩ pending row ls = codeLines ⟨others, fence⟩ pending row ls := by
  induction ls generalizing pending row with
  | nil => rfl
  | cons line ls ih =>
    cases ls with
    | nil => simp only [codeLines, lexLine_congr h]
    | cons next more => simp only [codeLines, lexLine_congr h, ih]

theorem read_congr (row : Nat) (line : Text) (region : Region) :
    region.read ⟨rules, fence⟩ row line = region.read ⟨others, fence⟩ row line := by
  cases region with
  | prose => rfl
  | chunk pending => simp only [Region.read, lexLine_congr h]
  | block => rfl

theorem documentLines_congr (region : Region) (row : Nat) (ls : List Text) :
    documentLines ⟨rules, fence⟩ region row ls = documentLines ⟨others, fence⟩ region row ls := by
  induction ls generalizing region row with
  | nil => rfl
  | cons line ls ih =>
    cases ls with
    | nil => simp only [documentLines, read_congr h]
    | cons next more => simp only [documentLines, read_congr h, ih]

/-- Lexers whose rules decide alike read the same tokens. -/
theorem tokens_congr (t : Text) :
    codeTokens ⟨rules, fence⟩ t = codeTokens ⟨others, fence⟩ t ∧
      documentTokens ⟨rules, fence⟩ t = documentTokens ⟨others, fence⟩ t :=
  ⟨codeLines_congr h fence none 0 t.lines, documentLines_congr h fence .prose 0 t.lines⟩

end Lexer

end Congr

namespace Lexer

/-- A point and a digit are one token, of the kind of the rule that is found first. -/
theorem codeTokens_point {fence : Text} (h : Rule.firstMatch? rules ['.', '5'] = some (rule, 2)) :
    codeTokens ⟨rules, fence⟩ ['.', '5'] =
      [⟨rule.kind.ofLexeme ['.', '5'], ['.', '5'], ⟨0, 0⟩, ⟨0, 2⟩⟩] := by
  have hlines : Text.lines ['.', '5'] = [['.', '5']] := rfl
  have hlexeme : lexeme? rules ['.', '5'] = some (rule.kind.ofLexeme ['.', '5'], 2) := by
    rw [lexeme?, if_neg (by decide), h]
    rfl
  have hread : lexCode rules 0 0 ['.', '5'] = _ := lexCode_token (by decide) hlexeme
  rw [codeTokens, hlines, codeLines]
  simp [lexLine, hread]

/-- A number that starts with a point would also be a bare name. -/
theorem number_first_of_codeTokens_eq (hall : ∀ r, r ∈ rules) {fence : Text}
    (h : codeTokens ⟨rules, fence⟩ ['.', '5'] = codeTokens ⟨Rule.all, fence⟩ ['.', '5']) :
    rules.idxOf .number < rules.idxOf .name := by
  have hnumber : Rule.number.length? ['.', '5'] = some 2 := by decide +kernel
  have hname : Rule.name.length? ['.', '5'] = some 2 := by decide +kernel
  cases hmatch : Rule.firstMatch? rules ['.', '5'] with
  | none =>
    have hnone := List.findSome?_eq_none_iff.mp hmatch .number (hall .number)
    rw [hnumber] at hnone
    cases hnone
  | some found =>
    obtain ⟨rule, n⟩ := found
    obtain ⟨before, after, rfl, hread, hbefore⟩ := Rule.exists_split_of_firstMatch? hmatch
    by_cases hne : rule = .number
    · subst hne
      have hnot {r : Rule} (hr : r.length? ['.', '5'] = some 2) : r ∉ before := by
        intro hmem
        rw [hbefore r hmem] at hr
        cases hr
      have hbehind : (Rule.number :: after).idxOf .name = after.idxOf .name + 1 := by
        rw [List.idxOf_cons]
        rfl
      rw [List.idxOf_append, List.idxOf_append, if_neg (hnot hnumber), if_neg (hnot hname),
        List.idxOf_cons_self, hbehind]
      omega
    · obtain ⟨-, hcontra⟩ | ⟨rfl, -⟩ := Rule.number_and_name hread hnumber hne
      · cases hcontra
      · rw [hname] at hread
        obtain rfl := Option.some.inj hread
        have husual : Rule.firstMatch? Rule.all ['.', '5'] = some (.number, 2) := by decide +kernel
        rw [codeTokens_point hmatch, codeTokens_point husual] at h
        exact absurd h (by decide +kernel)

/-- **The order of the rules matters in one place only.** With all rules in any order, code and
documents are read as they are with the rules in their usual order, provided that numbers are tried
before bare names; and only then are all texts read so. -/
theorem tokens_eq_iff_number_first {rules : List Rule} (hperm : rules.Perm Rule.all) :
    rules.idxOf .number < rules.idxOf .name ↔
      ∀ fence t : Text,
        codeTokens ⟨rules, fence⟩ t = (closedBy fence).codeTokens t ∧
        documentTokens ⟨rules, fence⟩ t = (closedBy fence).documentTokens t := by
  have hall : ∀ r, r ∈ rules := fun r => hperm.mem_iff.mpr (Rule.mem_all r)
  constructor
  · intro hfirst fence t
    exact tokens_congr (Rule.firstMatch?_congr hall hfirst Rule.mem_all (by decide)) fence t
  · intro h
    exact number_first_of_codeTokens_eq hall (h [] ['.', '5']).1

/-- The usual order backwards, with numbers before bare names still. -/
theorem tokens_eq_number_first_sample :
    [Rule.punctuation, .operator, .number, .name, .quotedName, .comment].Perm Rule.all ∧
      ∀ fence t : Text,
        codeTokens ⟨[.punctuation, .operator, .number, .name, .quotedName, .comment], fence⟩ t =
            (closedBy fence).codeTokens t ∧
        documentTokens ⟨[.punctuation, .operator, .number, .name, .quotedName, .comment], fence⟩ t =
            (closedBy fence).documentTokens t :=
  ⟨by decide, (tokens_eq_iff_number_first (by decide)).mp (by decide)⟩

end Lexer

end RmdOptions
