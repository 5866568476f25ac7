import RmdOptions.Proofs.Json.Spelling

/-!
# The grammar of JSON

A value is a literal, or brackets around parts with commas between them. Around every part there may
be blanks. The grammar says what may be written, and not how it is read; that what it allows is read
to its end, and no further, is proved once for parts between brackets and then for all values.

* `Part`, `between` — parts between commas;
* `Member`, `objectText` — members of an object, and an object with blanks around it;
* `IsValue` — all values;
* `bracketed_between` — **parts are read one after the other**;
* `passOver_isValue` — **every value can be passed over**.
-/

namespace RmdOptions.Json

/-! ## Parts -/

/-- One of the parts between two brackets, with the blanks around it. -/
structure Part where
  /-- the blanks before it -/
  before : Gap
  /-- the part -/
  text : Text
  /-- the blanks behind it -/
  behind : Gap

/-- A part with the blanks around it. -/
def Part.written (part : Part) : Text := part.before.text ++ (part.text ++ part.behind.text)

/-- Parts behind commas, and then blanks. -/
def furtherParts (parts : List Part) (gap : Gap) : Text :=
  parts.flatMap (fun part => ',' :: part.written) ++ gap.text

/-- Parts with commas between them, and then blanks. -/
def between (parts : List Part) (gap : Gap) : Text :=
  match parts with
  | [] => gap.text
  | first :: further => first.written ++ furtherParts further gap

/-- A member of an object. -/
structure Member (care : Care) where
  /-- the blanks before it -/
  before : Gap
  /-- its name -/
  name : Text
  /-- the name as it is written -/
  quoted : Text
  /-- what is written says the name -/
  isString : IsString care name quoted
  /-- the blanks before the colon -/
  beforeColon : Gap
  /-- the blanks behind the colon -/
  behindColon : Gap
  /-- its value as it is written -/
  value : Text
  /-- the blanks behind it -/
  behind : Gap

/-- A member as a part of an object. -/
def Member.part {care : Care} (m : Member care) : Part where
  before := m.before
  text := m.quoted ++ (m.beforeColon.text ++ ':' :: (m.behindColon.text ++ m.value))
  behind := m.behind

/-- An object with blanks around it. -/
def objectText (front : Gap) (members : List (Member .full)) (gap behind : Gap) : Text :=
  front.text ++ '{' :: (between (members.map Member.part) gap ++ '}' :: behind.text)

/-- What may be written for a value, if it is only passed over. -/
inductive IsValue : Text → Prop where
  /-- null -/
  | null : IsValue Value.nullText
  /-- a truth value -/
  | bool (value : Bool) : IsValue (Value.boolText value)
  /-- a number -/
  | number {t : Text} (h : NumberForm t) : IsValue t
  /-- a string -/
  | string {content t : Text} (h : IsString .form content t) : IsValue t
  /-- values between brackets -/
  | array {elements : List Part} {gap : Gap} (h : ∀ e ∈ elements, IsValue e.text) :
      IsValue ('[' :: (between elements gap ++ [']']))
  /-- members between braces -/
  | object {members : List (Member .form)} {gap : Gap} (h : ∀ m ∈ members, IsValue m.value) :
      IsValue ('{' :: (between (members.map Member.part) gap ++ ['}']))

/-! ## Reading parts -/

theorem length_le_written (part : Part) : part.text.length ≤ part.written.length := by
  simp only [Part.written, List.length_append]
  omega

/-- No part is longer than all of them together. -/
theorem length_le_between {part : Part} {parts : List Part} (h : part ∈ parts) (gap : Gap) :
    part.text.length ≤ (between parts gap).length := by
  have hle := length_le_written part
  cases parts with
  | nil => cases h
  | cons first further =>
    rw [between, furtherParts, List.length_append, List.length_append]
    rcases List.mem_cons.mp h with rfl | h
    · omega
    · obtain ⟨earlier, later, rfl⟩ := List.append_of_mem h
      rw [List.flatMap_append, List.flatMap_cons, List.length_append, List.length_append,
        List.length_cons]
      omega

/-- What a part may begin with. -/
def StartsPart (t : Text) : Prop :=
  ∃ c more, t = c :: more ∧ isBlank c = false ∧ c ≠ ']' ∧ c ≠ '}'

/-- No number goes on with a blank. -/
theorem ends_of_isBlank {c : Char} (h : isBlank c = true) :
    c.isDigit = false ∧ c ≠ '.' ∧ c ≠ 'e' ∧ c ≠ 'E' := by
  simp only [isBlank, Bool.or_eq_true, beq_iff_eq] at h
  rcases h with ((rfl | rfl) | rfl) | rfl <;> decide

/-- Numbers end at commas and closing brackets, and at blanks before them. -/
theorem endsNumber_gap (gap : Gap) {c : Char} (hc : c = ',' ∨ c = ']' ∨ c = '}') (t : Text) :
    EndsNumber (gap.text ++ c :: t) := by
  obtain ⟨gap, hgap⟩ := gap
  cases gap with
  | nil =>
    rintro d ⟨⟩
    rcases hc with rfl | rfl | rfl <;> decide
  | cons d gap =>
    rintro e ⟨⟩
    exact ends_of_isBlank (hgap d List.mem_cons_self)

section Brackets

variable {σ α : Type} {close : Char} {item : σ → Reader σ} (part : α → Part)

/-- Parts are read one after the other. `P` ties what has been read to the parts that are still to
come; it holds on when one of them is read, whatever blanks precede it. -/
theorem items_between (P : σ → List α → Prop) (hclose : close = ']' ∨ close = '}')
    (hitem : ∀ acc a as, P acc (a :: as) → ∀ (gap : Gap) (rest : Text), EndsNumber rest →
      ∃ next, (item acc).run (gap.text ++ ((part a).text ++ rest)) = .ok (next, rest) ∧ P next as)
    {acc : σ} {a : α} {as : List α} (h : P acc (a :: as)) (front gap : Gap) (rest : Text) :
    ∃ last, items close item acc (front.text ++ ((part a).text ++ ((part a).behind.text ++
        (furtherParts (as.map part) gap ++ close :: rest)))) = .ok (last, rest) ∧ P last [] := by
  have hblank : isBlank close = false ∧ close ≠ ',' := by
    rcases hclose with rfl | rfl <;> decide
  induction as generalizing acc a front with
  | nil =>
    have hends : EndsNumber ((part a).behind.text ++ (gap.text ++ close :: rest)) := by
      rw [← List.append_assoc]
      refine endsNumber_gap ⟨(part a).behind.text ++ gap.text, fun c hc => ?_⟩ (Or.inr hclose) rest
      rcases List.mem_append.mp hc with hc | hc
      · exact (part a).behind.blank c hc
      · exact gap.blank c hc
    obtain ⟨last, hrun, hlast⟩ := hitem acc a [] h front _ hends
    refine ⟨last, ?_, hlast⟩
    rw [List.map_nil, furtherParts, List.flatMap_nil, List.nil_append, items_eq, hrun]
    dsimp only
    rw [skipBlanks_append (part a).behind.blank, skipBlanks_gap gap hblank.1]
    exact if_pos rfl
  | cons b as ih =>
    have htext : furtherParts ((b :: as).map part) gap ++ close :: rest =
        ',' :: ((part b).before.text ++ ((part b).text ++ ((part b).behind.text ++
          (furtherParts (as.map part) gap ++ close :: rest)))) := by
      simp [furtherParts, Part.written]
    obtain ⟨next, hrun, hnext⟩ := hitem acc a (b :: as) h front _
      (endsNumber_gap (part a).behind (Or.inl rfl) ((part b).before.text ++ ((part b).text ++
        ((part b).behind.text ++ (furtherParts (as.map part) gap ++ close :: rest)))))
    obtain ⟨last, hitems, hlast⟩ := ih hnext (part b).before
    refine ⟨last, ?_, hlast⟩
    rw [htext, items_eq, hrun]
    dsimp only
    rw [skipBlanks_gap _ (by decide)]
    dsimp only
    rw [if_neg (Ne.symm hblank.2), if_pos rfl, hitems]

/-- **Parts are read one after the other** behind the bracket that opens them, if there are any. -/
theorem bracketed_between (P : σ → List α → Prop) (hclose : close = ']' ∨ close = '}')
    (hitem : ∀ acc a as, P acc (a :: as) → ∀ (gap : Gap) (rest : Text), EndsNumber rest →
      ∃ next, (item acc).run (gap.text ++ ((part a).text ++ rest)) = .ok (next, rest) ∧ P next as)
    {init : σ} {as : List α} (h : P init as) (hstart : ∀ a ∈ as, StartsPart (part a).text)
    (gap : Gap) (rest : Text) :
    ∃ last, (bracketed close item init).run (between (as.map part) gap ++ close :: rest) =
      .ok (last, rest) ∧ P last [] := by
  have hrun (t : Text) : (bracketed close item init).run t = runBracketed close item init t := rfl
  rw [hrun, runBracketed]
  cases as with
  | nil =>
    have hblank : isBlank close = false := by rcases hclose with rfl | rfl <;> decide
    rw [List.map_nil, between, skipBlanks_gap gap hblank]
    exact ⟨init, if_pos rfl, h⟩
  | cons a as =>
    obtain ⟨last, hitems, hlast⟩ := items_between part P hclose hitem h .none gap rest
    obtain ⟨c, more, htext, hblank, hbracket, hbrace⟩ := hstart a List.mem_cons_self
    have hne : c ≠ close := by rcases hclose with rfl | rfl <;> assumption
    have hfirst : between ((a :: as).map part) gap ++ close :: rest =
        (part a).before.text ++ ((part a).text ++ ((part a).behind.text ++
          (furtherParts (as.map part) gap ++ close :: rest))) := by
      simp [between, Part.written]
    refine ⟨last, ?_, hlast⟩
    -- the blanks before the first part are passed over with the bracket
    rw [hfirst, htext, List.cons_append, skipBlanks_gap _ hblank]
    dsimp only
    rw [if_neg hne]
    rw [htext] at hitems
    exact hitems

/-- Where it does not matter what is read, parts are read that can be read alone. -/
theorem exists_bracketed (hclose : close = ']' ∨ close = '}') {as : List α}
    (hitem : ∀ acc, ∀ a ∈ as, ∀ (gap : Gap) (rest : Text), EndsNumber rest →
      ∃ next, (item acc).run (gap.text ++ ((part a).text ++ rest)) = .ok (next, rest))
    (hstart : ∀ a ∈ as, StartsPart (part a).text) (init : σ) (gap : Gap) (rest : Text) :
    ∃ last, (bracketed close item init).run (between (as.map part) gap ++ close :: rest) =
      .ok (last, rest) := by
  obtain ⟨last, hrun, -⟩ := bracketed_between part (fun _ later => ∀ a ∈ later, a ∈ as) hclose
    (fun acc a later hlater gap rest hrest => by
      obtain ⟨next, hnext⟩ := hitem acc a (hlater a List.mem_cons_self) gap rest hrest
      exact ⟨next, hnext, fun b hb => hlater b (List.mem_cons_of_mem _ hb)⟩)
    (fun a ha => ha) hstart gap rest
  exact ⟨last, hrun⟩

end Brackets

/-- What comes first of a member is its name; then its colon and its value are read. -/
theorem run_memberName {care : Care} {σ : Type} (next : Text → Reader σ) (m : Member care)
    (gap : Gap) (rest : Text) :
    ((stringReader care).bind next).run (gap.text ++ (m.part.text ++ rest)) =
      (next m.name).run
        (m.beforeColon.text ++ ':' :: (m.behindColon.text ++ (m.value ++ rest))) := by
  have htext : m.part.text ++ rest =
      m.quoted ++ (m.beforeColon.text ++ ':' :: (m.behindColon.text ++ (m.value ++ rest))) := by
    simp [Member.part]
  rw [htext]
  exact Reader.run_bind next (stringReader_spells gap m.isString _)

theorem Member.startsPart {care : Care} (m : Member care) : StartsPart m.part.text := by
  obtain ⟨body, -, hquoted⟩ := m.isString
  rw [part, hquoted]
  exact ⟨'\x22', _, rfl, by decide, by decide, by decide⟩

/-! ## Values -/

theorem NumberForm.head {t : Text} (h : NumberForm t) :
    ∃ c more, t = c :: more ∧ isBlank c = false ∧ c ≠ '[' ∧ c ≠ ']' ∧ c ≠ '{' ∧ c ≠ '}' := by
  obtain ⟨c, more, rfl, hfirst⟩ := h.exists_cons
  refine ⟨c, more, rfl, ?_⟩
  rcases hfirst with rfl | hdigit
  · decide
  · have hne {d : Char} (hd : d.isDigit = false) : c ≠ d := by
      rintro rfl
      rw [hdigit] at hd
      cases hd
    simp [isBlank, hne]

theorem IsValue.startsPart {t : Text} (h : IsValue t) : StartsPart t := by
  cases h with
  | null => exact ⟨_, _, rfl, by decide, by decide, by decide⟩
  | bool value => cases value <;> exact ⟨_, _, rfl, by decide, by decide, by decide⟩
  | number h =>
    obtain ⟨c, more, rfl, hblank, -, hbracket, -, hbrace⟩ := h.head
    exact ⟨c, more, rfl, hblank, hbracket, hbrace⟩
  | string h =>
    obtain ⟨body, -, rfl⟩ := h
    exact ⟨_, _, rfl, by decide, by decide, by decide⟩
  | array _ => exact ⟨_, _, rfl, by decide, by decide, by decide⟩
  | object _ => exact ⟨_, _, rfl, by decide, by decide, by decide⟩

/-- Where no bracket comes first, a literal is read. -/
theorem nested_scalar (care : Care) (inner : Unit → Option (Reader Value)) (gap : Gap) {c : Char}
    (hblank : isBlank c = false) (hbracket : c ≠ '[') (hbrace : c ≠ '{') (t : Text) :
    (nested care inner).run (gap.text ++ c :: t) = scalar care (c :: t) := by
  have hrun (t : Text) : (nested care inner).run t = runNested care inner t := rfl
  rw [hrun, runNested, skipBlanks_gap gap hblank]
  exact if_neg (not_or.mpr ⟨hbracket, hbrace⟩)

theorem valueReader_string (care : Care) (depth : Nat) (gap : Gap) {content t : Text}
    (h : IsString care content t) (rest : Text) :
    (valueReader care depth).run (gap.text ++ (t ++ rest)) = .ok (.string content, rest) := by
  have hscalar := scalar_string h rest
  obtain ⟨body, -, rfl⟩ := h
  rw [← hscalar]
  cases depth with
  | zero =>
    rw [valueReader]
    exact nested_scalar care _ gap (by decide) (by decide) (by decide) _
  | succ depth =>
    rw [valueReader]
    exact nested_scalar care _ gap (by decide) (by decide) (by decide) _

/-- What is read behind an opening brace. -/
theorem valueReader_object (care : Care) (depth : Nat) (gap : Gap) (t : Text) :
    (valueReader care (depth + 1)).run (gap.text ++ '{' :: t) =
      (objectReader care (valueReader care depth)).run t := by
  have hrun (t : Text) : (valueReader care (depth + 1)).run t =
      runNested care (fun _ => some (valueReader care depth)) t := by
    rw [valueReader]
    rfl
  rw [hrun, runNested, skipBlanks_gap gap (by decide)]
  rfl

/-- What is read behind an opening bracket. -/
theorem valueReader_array (care : Care) (depth : Nat) (gap : Gap) (t : Text) :
    (valueReader care (depth + 1)).run (gap.text ++ '[' :: t) =
      (arrayReader (valueReader care depth)).run t := by
  have hrun (t : Text) : (valueReader care (depth + 1)).run t =
      runNested care (fun _ => some (valueReader care depth)) t := by
    rw [valueReader]
    rfl
  rw [hrun, runNested, skipBlanks_gap gap (by decide)]
  rfl

/-- Brackets take two characters and one step of depth, so that what is in them is left enough. -/
theorem exists_depth {parts : List Part} {gap : Gap} {opening closing : Char} {depth : Nat}
    (h : (opening :: (between parts gap ++ [closing])).length ≤ depth + 1) :
    ∃ d, depth = d + 1 ∧ ∀ part ∈ parts, part.text.length ≤ d + 1 := by
  rw [List.length_cons, List.length_append, List.length_singleton] at h
  refine ⟨depth - 1, by omega, fun part hpart => ?_⟩
  have hle := length_le_between hpart gap
  omega

/-- **Every value is read to its end** when it is passed over: its brackets nest no deeper than it
is long. -/
theorem valueReader_isValue {t : Text} (h : IsValue t) {depth : Nat} (hdepth : t.length ≤ depth + 1)
    (gap : Gap) {rest : Text} (hrest : EndsNumber rest) :
    ∃ v, (valueReader .form (depth + 1)).run (gap.text ++ (t ++ rest)) = .ok (v, rest) := by
  induction h generalizing depth gap rest with
  | null =>
    refine ⟨.null, ?_⟩
    exact nested_scalar .form _ gap (by decide) (by decide) (by decide) _
  | bool value =>
    refine ⟨.bool value, ?_⟩
    cases value with
    | false => exact nested_scalar .form _ gap (by decide) (by decide) (by decide) _
    | true => exact nested_scalar .form _ gap (by decide) (by decide) (by decide) _
  | number h =>
    obtain ⟨v, hscalar⟩ := exists_scalar_number h hrest
    obtain ⟨c, more, rfl, hblank, hbracket, -, hbrace, -⟩ := h.head
    refine ⟨v, ?_⟩
    rw [← hscalar]
    exact nested_scalar .form _ gap hblank hbracket hbrace _
  | string h => exact ⟨_, valueReader_string .form _ gap h rest⟩
  | @array elements inner h ih =>
    obtain ⟨d, rfl, hlength⟩ := exists_depth hdepth
    have hitem (acc : List Value) (e : Part) (he : e ∈ elements) (gap : Gap) (rest : Text)
        (hrest : EndsNumber rest) : ∃ next,
        ((valueReader .form (d + 1)).map (· :: acc)).run (gap.text ++ ((id e).text ++ rest)) =
          .ok (next, rest) := by
      obtain ⟨v, hv⟩ := ih e he (hlength e he) gap hrest
      exact ⟨v :: acc, Reader.run_map _ hv⟩
    obtain ⟨last, hrun⟩ := exists_bracketed id (Or.inl rfl) hitem (fun e he => (h e he).startsPart)
      [] inner rest
    rw [List.map_id] at hrun
    rw [List.cons_append, List.append_assoc]
    exact ⟨_, (valueReader_array .form _ gap _).trans (Reader.run_map _ hrun)⟩
  | @object members inner h ih =>
    obtain ⟨d, rfl, hlength⟩ := exists_depth hdepth
    have hitem (acc : List (Text × Value)) (m : Member .form) (hm : m ∈ members) (gap : Gap)
        (rest : Text) (hrest : EndsNumber rest) : ∃ next,
        ((stringReader .form).bind fun name =>
          ((valueReader .form (d + 1)).map (Keyed.put name · acc)).after ':').run
            (gap.text ++ (m.part.text ++ rest)) = .ok (next, rest) := by
      have hle : m.value.length ≤ d + 1 := by
        have hpart := hlength m.part (List.mem_map_of_mem hm)
        simp only [Member.part, List.length_append, List.length_cons] at hpart
        omega
      obtain ⟨v, hv⟩ := ih m hm hle m.behindColon hrest
      refine ⟨Keyed.put m.name v acc, ?_⟩
      rw [run_memberName, Reader.run_after _ _ (by decide)]
      exact Reader.run_map _ hv
    obtain ⟨last, hrun⟩ := exists_bracketed Member.part (Or.inr rfl) hitem
      (fun m _ => m.startsPart) [] inner rest
    rw [List.cons_append, List.append_assoc]
    exact ⟨_, (valueReader_object .form _ gap _).trans (Reader.run_map _ hrun)⟩

/-- **Every value can be passed over.** -/
theorem passOver_isValue {t : Text} (h : IsValue t) (gap : Gap) {rest : Text}
    (hrest : EndsNumber rest) : passOver.run (gap.text ++ (t ++ rest)) = .ok ((), rest) := by
  have hrun (t : Text) : passOver.run t = runPassOver t := rfl
  obtain ⟨c, more, hcons, -⟩ := h.startsPart
  have hpos : 0 < t.length := by
    rw [hcons]
    exact Nat.succ_pos _
  obtain ⟨depth, hdepth⟩ : ∃ depth, (gap.text ++ (t ++ rest)).length = depth + 1 := by
    refine Nat.exists_eq_add_one_of_ne_zero ?_
    rw [List.length_append, List.length_append]
    omega
  have hle : t.length ≤ depth + 1 := by
    rw [← hdepth, List.length_append, List.length_append]
    omega
  obtain ⟨v, hv⟩ := valueReader_isValue h hle gap hrest
  rw [hrun, runPassOver, hdepth, hv]

end RmdOptions.Json
