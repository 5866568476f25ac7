import Mathlib.Tactic.SplitIfs
import RmdOptions.Json.Reader
import RmdOptions.Proofs.Text.LineEnding

/-!
# Reading JSON with other line ends

To JSON a line feed is a blank, and so is a carriage return; in a literal neither of them may stand.
So a text whose rows end with the pair is read as the same text with line feeds: what is read is the
same, and the pair ends the rows of what is left. A text that cannot be read cannot be read either
way, though the fault need not be the same: the last escape of a text that breaks off may get long
enough by another carriage return to be malformed.

* `Paired`, `Paired.elim` — what is read of a text, and of the same text with pairs;
* `stringRest_paired`, `number_paired`, `scalar_paired` — literals;
* `Reader.Even` — readers that read both alike;
* `nested_even`, `valueReader_even` — values;
* `valueReader_sameUpTo`, `passOver_even` — values that are passed over, to any depth.
-/

namespace RmdOptions

/-! ## Texts with pairs -/

namespace LineEnding

variable {c : Char} {t u : Text}

theorem write_feed (t : Text) : pair.write ('\n' :: t) = '\r' :: '\n' :: pair.write t := by
  rw [write_pair_cons, if_pos rfl]

theorem write_cons (hc : c ≠ '\n') (t : Text) : pair.write (c :: t) = c :: pair.write t := by
  rw [write_pair_cons, if_neg hc]

/-- Only a line feed, or a carriage return that was there, begins with a carriage return. -/
theorem exists_of_write_eq_cons (h : pair.write t = c :: u) (hc : c ≠ '\r') :
    ∃ rest, t = c :: rest ∧ u = pair.write rest := by
  cases t with
  | nil => cases h
  | cons d t =>
    by_cases hd : d = '\n'
    · rw [hd, write_feed] at h
      exact absurd (List.cons.inj h).1.symm hc
    · rw [write_cons hd] at h
      obtain ⟨rfl, rfl⟩ := List.cons.inj h
      exact ⟨t, rfl, rfl⟩

theorem length_le_write (t : Text) : t.length ≤ (pair.write t).length := by
  induction t with
  | nil => exact Nat.le_refl _
  | cons c t ih =>
    rw [write_pair_cons]
    split
    · exact Nat.succ_le_succ (Nat.le_succ_of_le ih)
    · exact Nat.succ_le_succ ih

end LineEnding

namespace Json

open LineEnding

/-- The pair is as blank as the line feed. -/
theorem skipBlanks_write (t : Text) : skipBlanks (pair.write t) = pair.write (skipBlanks t) := by
  induction t with
  | nil => rfl
  | cons c t ih =>
    by_cases hfeed : c = '\n'
    · subst hfeed
      exact ih
    · rw [write_cons hfeed, skipBlanks, skipBlanks, List.dropWhile_cons, List.dropWhile_cons]
      split
      · exact ih
      · rw [write_cons hfeed]

/-- What comes first behind blanks is no line feed, and is the same in both texts. -/
theorem skipBlanks_write_cases (t : Text) :
    (skipBlanks t = [] ∧ skipBlanks (pair.write t) = []) ∨
      ∃ c rest, c ≠ '\n' ∧ skipBlanks t = c :: rest ∧
        skipBlanks (pair.write t) = c :: pair.write rest := by
  rw [skipBlanks_write]
  cases hskip : skipBlanks t with
  | nil => exact Or.inl ⟨rfl, rfl⟩
  | cons c rest =>
    have hblank := List.head?_dropWhile_not isBlank t
    rw [show t.dropWhile isBlank = c :: rest from hskip] at hblank
    have hfeed : c ≠ '\n' := by
      rintro rfl
      exact absurd (show isBlank '\n' = false from hblank) (by decide)
    exact Or.inr ⟨c, rest, hfeed, rfl, write_cons hfeed rest⟩

/-! ## What is read of both texts -/

/-- The same is read of two texts, and the second is left with pairs; or both have a fault. -/
def Paired {α : Type} (x y : Except Fault (α × Text)) : Prop :=
  (∃ a rest, x = .ok (a, rest) ∧ y = .ok (a, pair.write rest)) ∨
    ∃ fault fault', x = .error fault ∧ y = .error fault'

namespace Paired

variable {α β : Type}

theorem ok (a : α) (rest : Text) : Paired (.ok (a, rest)) (.ok (a, pair.write rest)) :=
  Or.inl ⟨a, rest, rfl, rfl⟩

theorem error (fault fault' : Fault) :
    Paired (α := α) (.error fault) (.error fault') :=
  Or.inr ⟨fault, fault', rfl, rfl⟩

/-- Whatever is made of what has been read, there are these two cases. -/
@[elab_as_elim]
theorem elim {motive : Except Fault (α × Text) → Except Fault (α × Text) → Prop}
    {x y : Except Fault (α × Text)} (h : Paired x y)
    (ok : ∀ a rest, motive (.ok (a, rest)) (.ok (a, pair.write rest)))
    (error : ∀ fault fault', motive (.error fault) (.error fault')) : motive x y := by
  rcases h with ⟨a, rest, rfl, rfl⟩ | ⟨fault, fault', rfl, rfl⟩
  · exact ok a rest
  · exact error fault fault'

end Paired

/-- A word without line feeds and carriage returns is found in both texts, or in neither. -/
theorem afterWord_write {word : Text} (hword : ∀ c ∈ word, c ≠ '\n' ∧ c ≠ '\r') (t : Text) :
    (∃ rest, afterWord word t = .ok rest ∧
      afterWord word (pair.write t) = .ok (pair.write rest)) ∨
    ∃ fault fault', afterWord word t = .error fault ∧
      afterWord word (pair.write t) = .error fault' := by
  induction word generalizing t with
  | nil => exact Or.inl ⟨t, rfl, rfl⟩
  | cons c word ih =>
    obtain ⟨hfeed, hreturn⟩ := hword c List.mem_cons_self
    cases t with
    | nil => exact Or.inr ⟨_, _, rfl, rfl⟩
    | cons d t =>
      by_cases hd : d = '\n'
      · subst hd
        refine Or.inr ⟨.malformed, .malformed, ?_, ?_⟩
        · rw [afterWord, if_neg hfeed]
        · rw [write_feed, afterWord, if_neg hreturn]
      · rw [write_cons hd, afterWord, afterWord]
        split
        · exact ih (fun c hc => hword c (List.mem_cons_of_mem _ hc)) t
        · exact Or.inr ⟨_, _, rfl, rfl⟩

theorem constant_paired {word : Text} (hword : ∀ c ∈ word, c ≠ '\n' ∧ c ≠ '\r') (value : Value)
    (t : Text) : Paired (constant word value t) (constant word value (pair.write t)) := by
  rw [constant, constant]
  rcases afterWord_write hword t with ⟨rest, h, h'⟩ | ⟨fault, fault', h, h'⟩
  · rw [h, h']
    exact .ok value rest
  · rw [h, h']
    exact .error fault fault'

/-! ## Strings -/

theorem escapedUnit_eq_ok_iff {t rest : Text} {unit : Nat} :
    escapedUnit t = .ok (unit, rest) ↔
      ∃ a b c d, t = a :: b :: c :: d :: rest ∧ hexUnit? a b c d = some unit := by
  constructor
  · intro h
    unfold escapedUnit at h
    split at h
    · split at h
      · next hunit =>
        cases h
        exact ⟨_, _, _, _, rfl, hunit⟩
      · cases h
    · cases h
  · rintro ⟨a, b, c, d, rfl, hunit⟩
    rw [escapedUnit, hunit]

/-- Four digits have neither a line feed nor a carriage return among them. -/
theorem ne_of_hexUnit? {a b c d e : Char} {unit : Nat} (h : hexUnit? a b c d = some unit)
    (he : hexValue? e = none) : a ≠ e ∧ b ≠ e ∧ c ≠ e ∧ d ≠ e := by
  simp only [hexUnit?, bind, Option.bind_eq_some_iff] at h
  obtain ⟨_, ha, _, hb, _, hc, _, hd, -⟩ := h
  refine ⟨?_, ?_, ?_, ?_⟩ <;> rintro rfl <;> simp_all

theorem escapedUnit_paired (t : Text) : Paired (escapedUnit t) (escapedUnit (pair.write t)) := by
  cases h : escapedUnit t with
  | ok read =>
    obtain ⟨unit, rest⟩ := read
    obtain ⟨a, b, c, d, rfl, hunit⟩ := escapedUnit_eq_ok_iff.mp h
    obtain ⟨ha, hb, hc, hd⟩ := ne_of_hexUnit? hunit (e := '\n') (by decide)
    rw [write_cons ha, write_cons hb, write_cons hc, write_cons hd,
      escapedUnit_eq_ok_iff.mpr ⟨a, b, c, d, rfl, hunit⟩]
    exact .ok unit rest
  | error fault =>
    cases h' : escapedUnit (pair.write t) with
    | error fault' => exact .error fault fault'
    | ok read =>
      -- four digits in the text with pairs are the same digits in the other one
      obtain ⟨unit, rest⟩ := read
      obtain ⟨a, b, c, d, hwrite, hunit⟩ := escapedUnit_eq_ok_iff.mp h'
      obtain ⟨ha, hb, hc, hd⟩ := ne_of_hexUnit? hunit (e := '\r') (by decide)
      obtain ⟨t₁, rfl, h₁⟩ := exists_of_write_eq_cons hwrite ha
      obtain ⟨t₂, rfl, h₂⟩ := exists_of_write_eq_cons h₁.symm hb
      obtain ⟨t₃, rfl, h₃⟩ := exists_of_write_eq_cons h₂.symm hc
      obtain ⟨t₄, rfl, -⟩ := exists_of_write_eq_cons h₃.symm hd
      rw [escapedUnit_eq_ok_iff.mpr ⟨a, b, c, d, rfl, hunit⟩] at h
      cases h

theorem secondUnit_paired (t : Text) : Paired (secondUnit t) (secondUnit (pair.write t)) := by
  have hword : ∀ c ∈ ['\\', 'u'], c ≠ '\n' ∧ c ≠ '\r' := by decide
  rw [secondUnit, secondUnit]
  rcases afterWord_write hword t with ⟨rest, h, h'⟩ | ⟨fault, fault', h, h'⟩
  · rw [h, h']
    exact escapedUnit_paired rest
  · rw [h, h']
    exact .error fault fault'

theorem escapedCharacter_paired (care : Care) (t : Text) :
    Paired (escapedCharacter care t) (escapedCharacter care (pair.write t)) := by
  rw [escapedCharacter, escapedCharacter]
  refine (escapedUnit_paired t).elim (fun unit rest => ?_) fun _ _ => .error _ _
  dsimp only
  split
  · exact .ok _ rest
  · split
    · exact .error _ _
    · split
      · refine (secondUnit_paired rest).elim (fun low rest' => ?_) fun _ _ => .error _ _
        dsimp only
        split
        · exact .ok _ rest'
        · exact .error _ _
      · exact .ok _ rest

theorem escaped_paired (care : Care) (t : Text) :
    Paired (escaped care t) (escaped care (pair.write t)) := by
  cases t with
  | nil => exact .error _ _
  | cons c t =>
    by_cases hfeed : c = '\n'
    · subst hfeed
      exact .error _ _
    · rw [write_cons hfeed, escaped, escaped]
      split
      · exact escapedCharacter_paired care t
      · cases shortEscape? c with
        | none => exact .error _ _
        | some d => exact .ok d t

theorem Paired.map_fst {α β : Type} {x y : Except Fault (α × Text)} (h : Paired x y) (f : α → β) :
    Paired (x.map fun read => (f read.1, read.2)) (y.map fun read => (f read.1, read.2)) := by
  refine h.elim (fun a rest => ?_) fun _ _ => .error _ _
  exact .ok (f a) rest

/-- **A string is read alike.** No line feed is in it, and no carriage return. -/
theorem stringRest_paired (care : Care) (t : Text) :
    Paired (stringRest care t) (stringRest care (pair.write t)) := by
  induction hn : t.length using Nat.strongRecOn generalizing t with
  | ind n ih =>
    cases t with
    | nil =>
      have hnil : pair.write [] = [] := rfl
      rw [hnil, stringRest]
      exact .error _ _
    | cons c t =>
      by_cases hfeed : c = '\n'
      · subst hfeed
        rw [write_feed, stringRest_cons, stringRest_cons]
        exact .error _ _
      · rw [write_cons hfeed, stringRest_cons, stringRest_cons]
        split
        · exact .ok [] t
        · split
          · rcases escaped_paired care t with ⟨d, rest, h, h'⟩ | ⟨fault, fault', h, h'⟩
            · rw [h, h']
              have hlt := length_of_escaped h
              rw [List.length_cons] at hn
              exact (ih rest.length (by omega) rest rfl).map_fst (d :: ·)
            · rw [h, h']
              exact .error fault fault'
          · split
            · exact .error _ _
            · rw [List.length_cons] at hn
              exact (ih t.length (by omega) t rfl).map_fst (c :: ·)

/-! ## Numbers -/

theorem digits_write (t : Text) :
    digits (pair.write t) = ((digits t).1, pair.write (digits t).2) := by
  induction t with
  | nil => rfl
  | cons c t ih =>
    by_cases hfeed : c = '\n'
    · subst hfeed
      rfl
    · rw [write_cons hfeed, digits, digits]
      cases digitValue? c with
      | none => rw [write_cons hfeed]
      | some d => simp only [ih]

theorem someDigits_paired (cut : Fault) (t : Text) :
    Paired (someDigits cut t) (someDigits cut (pair.write t)) := by
  rw [someDigits, someDigits, digits_write]
  obtain ⟨ds, rest⟩ := digits t
  cases ds with
  | nil =>
    cases rest with
    | nil => exact .error _ _
    | cons c rest =>
      by_cases hfeed : c = '\n'
      · subst hfeed
        exact .error _ _
      · rw [write_cons hfeed]
        exact .error _ _
  | cons d ds => exact .ok (d :: ds) rest

theorem wholePart_paired (cut : Fault) (t : Text) :
    Paired (wholePart cut t) (wholePart cut (pair.write t)) := by
  rw [wholePart, wholePart]
  refine (someDigits_paired cut t).elim (fun ds rest => ?_) fun _ _ => .error _ _
  rcases ds with _ | ⟨_ | d, _ | ⟨e, ds⟩⟩
  · exact .ok _ rest
  · exact .ok _ rest
  · exact .error _ _
  · exact .ok _ rest
  · exact .ok _ rest

theorem fractionPart_paired (cut : Fault) (t : Text) :
    Paired (fractionPart cut t) (fractionPart cut (pair.write t)) := by
  by_cases hpoint : ∃ rest, t = '.' :: rest
  · obtain ⟨rest, rfl⟩ := hpoint
    rw [write_cons (by decide), fractionPart, fractionPart]
    refine (someDigits_paired cut rest).elim (fun _ rest => ?_) fun _ _ => .error _ _
    exact .ok _ rest
  · -- where no point is, there is none with pairs either
    rw [fractionPart.eq_2 _ _ fun rest ht => hpoint ⟨rest, ht⟩, fractionPart.eq_2]
    · exact .ok none t
    · intro rest ht
      obtain ⟨rest, rfl, -⟩ := exists_of_write_eq_cons ht (by decide)
      exact hpoint ⟨rest, rfl⟩

theorem exponentSign_write (t : Text) :
    exponentSign (pair.write t) = ((exponentSign t).1, pair.write (exponentSign t).2) := by
  have hnone {u : Text} (hplus : ∀ rest, u = '+' :: rest → False)
      (hminus : ∀ rest, u = '-' :: rest → False) : exponentSign u = (false, u) :=
    exponentSign.eq_3 u hplus hminus
  by_cases hplus : ∃ rest, t = '+' :: rest
  · obtain ⟨rest, rfl⟩ := hplus
    rw [write_cons (by decide)]
    rfl
  · by_cases hminus : ∃ rest, t = '-' :: rest
    · obtain ⟨rest, rfl⟩ := hminus
      rw [write_cons (by decide)]
      rfl
    · rw [hnone (fun rest ht => hplus ⟨rest, ht⟩) fun rest ht => hminus ⟨rest, ht⟩, hnone]
      · intro rest ht
        obtain ⟨rest, rfl, -⟩ := exists_of_write_eq_cons ht (by decide)
        exact hplus ⟨rest, rfl⟩
      · intro rest ht
        obtain ⟨rest, rfl, -⟩ := exists_of_write_eq_cons ht (by decide)
        exact hminus ⟨rest, rfl⟩

theorem exponentPart_paired (cut : Fault) (t : Text) :
    Paired (exponentPart cut t) (exponentPart cut (pair.write t)) := by
  cases t with
  | nil => exact .ok none []
  | cons c t =>
    by_cases hfeed : c = '\n'
    · subst hfeed
      exact .ok none ('\n' :: t)
    · rw [write_cons hfeed, exponentPart, exponentPart, exponentSign_write]
      split
      · refine (someDigits_paired cut (exponentSign t).2).elim (fun _ rest => ?_) fun _ _ =>
          .error _ _
        exact .ok _ rest
      · have hrest := Paired.ok (none : Option (Bool × List Nat)) (c :: t)
        rwa [write_cons hfeed] at hrest

theorem unsignedLiteral_paired (cut : Fault) (negative : Bool) (t : Text) :
    Paired (unsignedLiteral cut negative t) (unsignedLiteral cut negative (pair.write t)) := by
  rw [unsignedLiteral, unsignedLiteral]
  refine (wholePart_paired cut t).elim (fun whole rest => ?_) fun _ _ => .error _ _
  dsimp only
  refine (fractionPart_paired cut rest).elim (fun fraction rest => ?_) fun _ _ => .error _ _
  dsimp only
  refine (exponentPart_paired cut rest).elim (fun _ rest => ?_) fun _ _ => .error _ _
  exact .ok _ rest

theorem numberLiteral_paired (cut : Fault) (t : Text) :
    Paired (numberLiteral cut t) (numberLiteral cut (pair.write t)) := by
  by_cases hminus : ∃ rest, t = '-' :: rest
  · obtain ⟨rest, rfl⟩ := hminus
    rw [write_cons (by decide), numberLiteral, numberLiteral]
    exact unsignedLiteral_paired cut true rest
  · rw [numberLiteral.eq_2 _ _ fun rest ht => hminus ⟨rest, ht⟩, numberLiteral.eq_2]
    · exact unsignedLiteral_paired cut false t
    · intro rest ht
      obtain ⟨rest, rfl, -⟩ := exists_of_write_eq_cons ht (by decide)
      exact hminus ⟨rest, rfl⟩

theorem number_paired (care : Care) (t : Text) :
    Paired (number care t) (number care (pair.write t)) := by
  rw [number, number]
  refine (numberLiteral_paired care.cut t).elim (fun literal rest => ?_) fun _ _ => .error _ _
  dsimp only
  cases literal.value? with
  | some value => exact .ok _ rest
  | none =>
    dsimp only
    split
    · exact .ok _ rest
    · exact .error _ _

/-- **A value without further values is read alike.** -/
theorem scalar_paired (care : Care) (t : Text) :
    Paired (scalar care t) (scalar care (pair.write t)) := by
  cases t with
  | nil => exact .error _ _
  | cons c t =>
    by_cases hfeed : c = '\n'
    · subst hfeed
      exact .error _ _
    · have hnumber := number_paired care (c :: t)
      rw [write_cons hfeed] at hnumber ⊢
      rw [scalar, scalar]
      split_ifs
      · exact constant_paired (by decide) _ t
      · exact constant_paired (by decide) _ t
      · exact constant_paired (by decide) _ t
      · refine (stringRest_paired care t).elim (fun _ rest => ?_) fun _ _ => .error _ _
        exact .ok _ rest
      · exact hnumber
      · exact .error _ _

/-! ## Readers -/

/-- A reader that reads alike with line feeds and with pairs. -/
def Reader.Even {α : Type} (r : Reader α) : Prop :=
  ∀ t, Paired (r.run t) (r.run (pair.write t))

namespace Reader.Even

variable {α β : Type} {r : Reader α}

theorem map (h : r.Even) (f : α → β) : (r.map f).Even := by
  intro t
  have hrun (t : Text) : (r.map f).run t = runMap f r t := rfl
  rw [hrun, hrun, runMap, runMap]
  refine (h t).elim (fun a rest => ?_) fun _ _ => .error _ _
  exact .ok (f a) rest

theorem bind (h : r.Even) {next : α → Reader β} (hnext : ∀ a, (next a).Even) :
    (r.bind next).Even := by
  intro t
  have hrun (t : Text) : (r.bind next).run t = runBind r next t := rfl
  rw [hrun, hrun, runBind, runBind]
  refine (h t).elim (fun a rest => ?_) fun _ _ => .error _ _
  exact hnext a rest

theorem after (h : r.Even) (c : Char) : (r.after c).Even := by
  intro t
  have hrun (t : Text) : (r.after c).run t = runAfter c r t := rfl
  rw [hrun, hrun, runAfter, runAfter]
  rcases skipBlanks_write_cases t with ⟨hskip, hskip'⟩ | ⟨d, rest, -, hskip, hskip'⟩
  · rw [hskip, hskip']
    exact .error _ _
  · rw [hskip, hskip']
    dsimp only
    split
    · exact h rest
    · exact .error _ _

end Reader.Even

theorem stringReader_even (care : Care) : (stringReader care).Even :=
  Reader.Even.after (r := ⟨stringRest care, length_of_stringRest⟩) (stringRest_paired care) '\x22'

/-! ## Values -/

section Items

variable {σ : Type} {close : Char} {item : σ → Reader σ}

/-- Items that are read alike are read alike one after the other. -/
theorem items_paired (h : ∀ acc, (item acc).Even) (acc : σ) (t : Text) :
    Paired (items close item acc t) (items close item acc (pair.write t)) := by
  induction hn : t.length using Nat.strongRecOn generalizing acc t with
  | ind n ih =>
    rw [items_eq, items_eq]
    rcases h acc t with ⟨next, rest, hrun, hrun'⟩ | ⟨fault, fault', hrun, hrun'⟩
    · rw [hrun, hrun']
      dsimp only
      rcases skipBlanks_write_cases rest with ⟨hrest, hrest'⟩ | ⟨c, more, -, hrest, hrest'⟩
      · rw [hrest, hrest']
        exact .error _ _
      · rw [hrest, hrest']
        dsimp only
        split
        · exact .ok next more
        · split
          · have hlt := (item acc).shrinks hrun
            have hle := length_skipBlanks_le rest
            rw [hrest, List.length_cons] at hle
            exact ih more.length (by omega) next more rfl
          · exact .error _ _
    · rw [hrun, hrun']
      exact .error fault fault'

theorem bracketed_even (h : ∀ acc, (item acc).Even) (init : σ) :
    (bracketed close item init).Even := by
  intro t
  have hrun (t : Text) : (bracketed close item init).run t = runBracketed close item init t := rfl
  rw [hrun, hrun, runBracketed, runBracketed]
  rcases skipBlanks_write_cases t with ⟨hskip, hskip'⟩ | ⟨c, rest, hfeed, hskip, hskip'⟩
  · rw [hskip, hskip']
    exact .error _ _
  · rw [hskip, hskip']
    dsimp only
    split
    · exact .ok init rest
    · rw [← write_cons hfeed]
      exact items_paired h init (c :: rest)

end Items

theorem members_even {σ : Type} (care : Care) {member : σ → Text → Reader σ}
    (h : ∀ acc name, (member acc name).Even) (init : σ) : (members care member init).Even :=
  bracketed_even (fun acc => (stringReader_even care).bind (h acc)) init

/-- **A value is read alike**, if its elements or members are. -/
theorem nested_even (care : Care) {inner : Unit → Option (Reader Value)}
    (h : ∀ value, inner () = some value → value.Even) : (nested care inner).Even := by
  intro t
  have hrun (t : Text) : (nested care inner).run t = runNested care inner t := rfl
  rw [hrun, hrun, runNested, runNested]
  rcases skipBlanks_write_cases t with ⟨hskip, hskip'⟩ | ⟨c, rest, hfeed, hskip, hskip'⟩
  · rw [hskip, hskip']
    exact .error _ _
  · rw [hskip, hskip']
    dsimp only
    split
    · cases hinner : inner () with
      | none => exact .error _ _
      | some value =>
        have hvalue := h value hinner
        dsimp only
        split
        · exact (bracketed_even (fun acc => hvalue.map (· :: acc)) []).map _ rest
        · exact (members_even care (fun acc name => (hvalue.map _).after ':') []).map _ rest
    · rw [← write_cons hfeed]
      exact scalar_paired care (c :: rest)

theorem valueReader_even (care : Care) (depth : Nat) : (valueReader care depth).Even := by
  induction depth with
  | zero =>
    rw [valueReader]
    exact nested_even care nofun
  | succ depth ih =>
    rw [valueReader]
    refine nested_even care fun value hvalue => ?_
    obtain rfl := Option.some.inj hvalue
    exact ih

/-! ## Depth -/

/-- Readers that read the same of texts that are no longer than some length. -/
def Reader.SameUpTo {α : Type} (n : Nat) (r r' : Reader α) : Prop :=
  ∀ t : Text, t.length ≤ n → r.run t = r'.run t

namespace Reader.SameUpTo

variable {α β : Type} {n : Nat}

theorem map {r r' : Reader α} (h : SameUpTo n r r') (f : α → β) :
    SameUpTo n (r.map f) (r'.map f) := by
  intro t ht
  have hrun (r : Reader α) : (r.map f).run t = runMap f r t := rfl
  rw [hrun, hrun, runMap, runMap, h t ht]

theorem bind (r : Reader α) {next next' : α → Reader β}
    (h : ∀ a, SameUpTo n (next a) (next' a)) : SameUpTo n (r.bind next) (r.bind next') := by
  intro t ht
  have hrun (next : α → Reader β) : (r.bind next).run t = runBind r next t := rfl
  rw [hrun, hrun, runBind, runBind]
  cases hread : r.run t with
  | error fault => rfl
  | ok read => exact h read.1 read.2 (Nat.le_trans (Nat.le_of_lt (r.shrinks hread)) ht)

theorem after {r r' : Reader α} (h : SameUpTo n r r') (c : Char) :
    SameUpTo n (r.after c) (r'.after c) := by
  intro t ht
  have hrun (r : Reader α) : (r.after c).run t = runAfter c r t := rfl
  have hle := length_skipBlanks_le t
  rw [hrun, hrun, runAfter, runAfter]
  cases hskip : skipBlanks t with
  | nil => rfl
  | cons d rest =>
    rw [hskip, List.length_cons] at hle
    dsimp only
    rw [h rest (by omega)]

variable {σ : Type} {close : Char} {item item' : σ → Reader σ}

theorem items (h : ∀ acc, SameUpTo n (item acc) (item' acc)) (acc : σ) {t : Text}
    (ht : t.length ≤ n) : Json.items close item acc t = Json.items close item' acc t := by
  induction hm : t.length using Nat.strongRecOn generalizing acc t with
  | ind m ih =>
    rw [items_eq, items_eq, ← h acc t ht]
    cases hread : (item acc).run t with
    | error fault => rfl
    | ok read =>
      obtain ⟨next, rest⟩ := read
      dsimp only
      cases hrest : skipBlanks rest with
      | nil => rfl
      | cons c more =>
        have hlt := (item acc).shrinks hread
        have hle := length_skipBlanks_le rest
        rw [hrest, List.length_cons] at hle
        dsimp only
        rw [ih more.length (by omega) next (by omega) rfl]

theorem bracketed (h : ∀ acc, SameUpTo n (item acc) (item' acc)) (init : σ) :
    SameUpTo n (Json.bracketed close item init) (Json.bracketed close item' init) := by
  intro t ht
  have hrun (item : σ → Reader σ) :
      (Json.bracketed close item init).run t = runBracketed close item init t := rfl
  have hle := length_skipBlanks_le t
  rw [hrun, hrun, runBracketed, runBracketed]
  cases hskip : skipBlanks t with
  | nil => rfl
  | cons c rest =>
    rw [hskip] at hle
    dsimp only
    rw [items h init (Nat.le_trans hle ht)]

/-- A bracket takes one character off what is between it and the closing one. -/
theorem nested (care : Care) {value value' : Reader Value} (h : SameUpTo n value value') :
    SameUpTo (n + 1) (Json.nested care fun _ => some value)
      (Json.nested care fun _ => some value') := by
  intro t ht
  have hrun (value : Reader Value) : (Json.nested care fun _ => some value).run t =
      runNested care (fun _ => some value) t := rfl
  have hle := length_skipBlanks_le t
  rw [hrun, hrun, runNested, runNested]
  cases hskip : skipBlanks t with
  | nil => rfl
  | cons c rest =>
    rw [hskip, List.length_cons] at hle
    have harray : SameUpTo n (arrayReader value) (arrayReader value') :=
      (bracketed (fun acc => h.map (· :: acc)) []).map _
    have hobject : SameUpTo n (objectReader care value) (objectReader care value') :=
      (bracketed (fun acc => bind (stringReader care) fun key =>
        (h.map (Keyed.put key · acc)).after ':') []).map _
    dsimp only
    rw [harray rest (by omega), hobject rest (by omega)]

end Reader.SameUpTo

/-- **More depth than there are characters makes no difference.** -/
theorem valueReader_sameUpTo (care : Care) {n depth depth' : Nat} (h : n ≤ depth)
    (h' : n ≤ depth') :
    Reader.SameUpTo n (valueReader care depth) (valueReader care depth') := by
  induction n generalizing depth depth' with
  | zero =>
    intro t ht
    obtain rfl := List.eq_nil_of_length_eq_zero (Nat.le_zero.mp ht)
    have hnil (depth : Nat) : (valueReader care depth).run [] = .error .unfinished := by
      cases depth <;> rw [valueReader] <;> rfl
    rw [hnil, hnil]
  | succ n ih =>
    obtain ⟨depth, rfl⟩ := Nat.exists_eq_add_of_le' (Nat.le_trans (Nat.succ_pos n) h)
    obtain ⟨depth', rfl⟩ := Nat.exists_eq_add_of_le' (Nat.le_trans (Nat.succ_pos n) h')
    rw [valueReader, valueReader]
    exact .nested care (ih (Nat.le_of_succ_le_succ h) (Nat.le_of_succ_le_succ h'))

/-- **What is passed over is passed over alike.** The text with pairs is longer, and so more depth
is allowed to it. -/
theorem passOver_even : passOver.Even := by
  intro t
  have hrun (t : Text) : passOver.run t = runPassOver t := rfl
  rw [hrun, hrun, runPassOver, runPassOver,
    valueReader_sameUpTo .form (Nat.le_refl t.length) (length_le_write t) t (Nat.le_refl _)]
  refine (valueReader_even .form (pair.write t).length t).elim (fun _ rest => ?_) fun _ _ =>
    .error _ _
  exact .ok () rest

end Json

end RmdOptions
