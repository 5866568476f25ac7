import RmdOptions.Options.Json
import RmdOptions.Proofs.Json.Grammar
import RmdOptions.Proofs.Options.Written

/-!
# Reading JSON that was written

An object is written without blanks, or with a member on each line. Either way it is one of the
spellings that the grammar allows. So an object of strings is read as the pairs that were written; a
name that is written again has its last value, at its first place, and that is what becomes of it in
options as well.

* `Value.compact_object`, `Value.pretty_object` — how objects are written;
* `Member.IsPair`, `read_strings` — objects of strings are read as what they say;
* `OptionMap.read_pretty`, `OptionMap.ofJson_toJson` — options that are written;
* `OptionMap.ofJson_read_objectText` — **options survive JSON**.
-/

namespace RmdOptions.Json

/-! ## Objects as they are written -/

/-- A member as it is written, behind some blanks, and with some behind its colon. -/
def Member.ofPair (before behindColon : Gap) (name value : Text) : Member .full where
  before := before
  name := name
  quoted := quote name
  isString := isString_quote .full name
  beforeColon := .none
  behindColon := behindColon
  value := value
  behind := .none

/-- A space. -/
def Gap.space : Gap := ⟨[' '], by decide⟩

/-- A line break and the indentation of a level. -/
def Gap.newLine (level : Nat) : Gap where
  text := Value.newLine level
  blank := by
    intro c hc
    rcases List.mem_cons.mp hc with rfl | hc
    · decide
    · obtain ⟨-, rfl⟩ := List.mem_replicate.mp hc
      decide

/-- Items that are joined stand behind what joins them, the first one apart. -/
theorem intercalate_cons (separator first : Text) (further : List Text) :
    separator.intercalate (first :: further) =
      first ++ further.flatMap (separator ++ ·) := by
  induction further generalizing first with
  | nil => simp [List.intercalate]
  | cons next further ih =>
    have hnext := ih next
    simp only [List.intercalate, List.intersperse_cons_cons, List.flatten_cons,
      List.flatMap_cons] at hnext ⊢
    rw [hnext, List.append_assoc]

/-- Members with the same blanks before each of them are joined by a comma and these blanks. -/
theorem between_ofPair {α : Type} (before behindColon gap : Gap) (name value : α → Text) (a : α)
    (as : List α) :
    between ((a :: as).map fun a => (Member.ofPair before behindColon (name a) (value a)).part)
        gap =
      before.text ++ ((',' :: before.text).intercalate ((a :: as).map fun a =>
        quote (name a) ++ ':' :: (behindColon.text ++ value a)) ++ gap.text) := by
  rw [List.map_cons, List.map_cons, between, furtherParts, intercalate_cons, List.flatMap_map,
    List.flatMap_map]
  simp [Part.written, Member.part, Member.ofPair, Gap.none]

namespace Value

theorem compactMembers_eq (members : List (Text × Value)) :
    compactMembers members = members.map fun m => quote m.1 ++ ':' :: m.2.compact := by
  induction members with
  | nil => rfl
  | cons m members ih =>
    rw [List.map_cons, ← ih]
    rfl

theorem prettyMembers_eq (level : Nat) (members : List (Text × Value)) :
    prettyMembers level members =
      members.map fun m => quote m.1 ++ ':' :: ([' '] ++ prettyAt (level + 1) m.2) := by
  induction members with
  | nil => rfl
  | cons m members ih =>
    rw [List.map_cons, ← ih, prettyMembers]
    simp

/-- A compact object has no blanks. -/
theorem compact_object (members : List (Text × Value)) :
    (object members).compact =
      objectText .none (members.map fun m => .ofPair .none .none m.1 m.2.compact) .none .none := by
  rw [compact, compactMembers_eq, objectText, List.map_map]
  cases members with
  | nil => rfl
  | cons m members =>
    have hbetween := between_ofPair .none .none .none Prod.fst (fun m => compact m.2) m members
    simp only [Function.comp_def, hbetween]
    simp [Gap.none]

/-- A pretty object has a member on each line. -/
theorem pretty_object (members : List (Text × Value)) :
    (object members).pretty =
      objectText .none
        (members.map fun m => .ofPair (.newLine 1) .space m.1 (prettyAt 1 m.2))
        (if members.isEmpty then .none else .newLine 0) .none := by
  rw [pretty, prettyAt, prettyMembers_eq, objectText, List.map_map, block]
  cases members with
  | nil => rfl
  | cons m members =>
    have hbetween := between_ofPair (.newLine 1) .space (.newLine 0) Prod.fst
      (fun m => prettyAt 1 m.2) m members
    simp only [Function.comp_def, List.isEmpty_cons, Bool.false_eq_true, if_false, hbetween]
    simp [Gap.none, Gap.space, Gap.newLine]

end Value

/-! ## Objects of strings -/

/-- A member says a pair of texts when it has the name, and a string as its value. -/
def Member.IsPair (m : Member .full) (pair : Text × Text) : Prop :=
  m.name = pair.1 ∧ IsString .full pair.2 m.value

/-- Puts the pairs of an object of strings in place one after the other. -/
def putStrings (acc : List (Text × Value)) (pairs : List (Text × Text)) : List (Text × Value) :=
  pairs.foldl (fun acc pair => Keyed.put pair.1 (.string pair.2) acc) acc

theorem putStrings_cons (acc : List (Text × Value)) (pair : Text × Text)
    (pairs : List (Text × Text)) :
    putStrings acc (pair :: pairs) =
      putStrings (Keyed.put pair.1 (.string pair.2) acc) pairs := rfl

/-- What has been read, with what is still to come, makes up the whole. -/
def Completes (whole acc : List (Text × Value)) (later : List (Member .full)) : Prop :=
  ∃ pairs, List.Forall₂ Member.IsPair later pairs ∧ putStrings acc pairs = whole

/-- **An object of strings is read as what it says.** -/
theorem read_strings {pairs : List (Text × Text)} {members : List (Member .full)}
    (h : List.Forall₂ Member.IsPair members pairs) (front gap behind : Gap) :
    read (objectText front members gap behind) = .ok (.object (putStrings [] pairs)) := by
  have hitem (acc : List (Text × Value)) (m : Member .full) (later : List (Member .full))
      (hlater : Completes (putStrings [] pairs) acc (m :: later)) (gap : Gap) (rest : Text)
      (_ : EndsNumber rest) : ∃ next,
      ((stringReader .full).bind fun name =>
        ((valueReader .full 126).map (Keyed.put name · acc)).after ':').run
          (gap.text ++ (m.part.text ++ rest)) = .ok (next, rest) ∧
      Completes (putStrings [] pairs) next later := by
    obtain ⟨_, hpairs, hwhole⟩ := hlater
    cases hpairs with
    | cons hpair hpairs =>
      refine ⟨_, ?_, _, hpairs, hwhole⟩
      rw [run_memberName, Reader.run_after _ _ (by decide), hpair.1]
      exact Reader.run_map _ (valueReader_string .full 126 _ hpair.2 _)
  obtain ⟨last, hrun, rest, hnil, hlast⟩ := bracketed_between Member.part
    (Completes (putStrings [] pairs)) (Or.inr rfl) hitem ⟨pairs, h, rfl⟩
    (fun m _ => m.startsPart) gap behind.text
  cases hnil
  have hvalue : (valueReader .full maxDepth).run (objectText front members gap behind) =
      .ok (.object last, behind.text) := by
    rw [objectText, maxDepth, valueReader_object]
    exact Reader.run_map _ hrun
  rw [read, whole, hvalue]
  dsimp only
  rw [skipBlanks_end, ← hlast]
  rfl

/-- Pairs of texts as members of an object. -/
def stringMembers (pairs : List (Text × Text)) : List (Text × Value) :=
  pairs.map fun pair => (pair.1, .string pair.2)

theorem isPair_ofPair (before behindColon : Gap) (pairs : List (Text × Text)) :
    List.Forall₂ Member.IsPair
      (pairs.map fun pair => .ofPair before behindColon pair.1 (quote pair.2)) pairs := by
  induction pairs with
  | nil => exact .nil
  | cons pair pairs ih => exact .cons ⟨rfl, isString_quote .full pair.2⟩ ih

/-- Blanks behind a compact object of strings do not count. -/
theorem read_compact_strings (pairs : List (Text × Text)) (behind : Gap) :
    read ((Value.object (stringMembers pairs)).compact ++ behind.text) =
      .ok (.object (putStrings [] pairs)) := by
  have hread := read_strings (isPair_ofPair .none .none pairs) .none .none behind
  have htext : (Value.object (stringMembers pairs)).compact ++ behind.text =
      objectText .none (pairs.map fun pair => .ofPair .none .none pair.1 (quote pair.2)) .none
        behind := by
    rw [Value.compact_object, stringMembers, List.map_map]
    simp [objectText, Gap.none, Function.comp_def, Value.compact]
  rw [htext, hread]

/-- Nor do they behind a pretty one. -/
theorem read_pretty_strings (pairs : List (Text × Text)) (behind : Gap) :
    read ((Value.object (stringMembers pairs)).pretty ++ behind.text) =
      .ok (.object (putStrings [] pairs)) := by
  have hread := read_strings (isPair_ofPair (.newLine 1) .space pairs) .none
    (if (stringMembers pairs).isEmpty then .none else .newLine 0) behind
  have htext : (Value.object (stringMembers pairs)).pretty ++ behind.text =
      objectText .none (pairs.map fun pair => .ofPair (.newLine 1) .space pair.1 (quote pair.2))
        (if (stringMembers pairs).isEmpty then .none else .newLine 0) behind := by
    rw [Value.pretty_object, stringMembers, List.map_map]
    simp [objectText, Gap.none, Function.comp_def, Value.prettyAt]
  rw [htext, hread]

end RmdOptions.Json

namespace RmdOptions.OptionMap

open Json

/-! ## Options -/

/-- Putting a string in place is setting an option. -/
theorem map_put (key value : Text) (acc : List (Text × Value)) :
    (Keyed.put key (.string value) acc).map (fun member => (member.1, valueText member.2)) =
      Keyed.put key value (acc.map fun member => (member.1, valueText member.2)) := by
  induction acc with
  | nil => rfl
  | cons member acc ih =>
    obtain ⟨k, v⟩ := member
    rw [Keyed.put, List.map_cons, Keyed.put]
    split
    · rfl
    · rw [List.map_cons, ih]

/-- Putting strings in place is setting options, one after the other. -/
theorem map_putStrings {acc : List (Text × Value)} {m : OptionMap} (pairs : List (Text × Text))
    (h : acc.map (fun member => (member.1, valueText member.2)) = m.entries) :
    (putStrings acc pairs).map (fun member => (member.1, valueText member.2)) =
      (m.insertAll pairs).entries := by
  induction pairs generalizing acc m with
  | nil => exact h
  | cons pair pairs ih =>
    have hput := map_put pair.1 pair.2 acc
    rw [h] at hput
    exact ih hput

/-- The object that pairs make gives the options that they set: by both rules a name that comes
again has its last value, at its first place. -/
theorem ofJson_putStrings (pairs : List (Text × Text)) :
    ofJson (.object (putStrings [] pairs)) = .ok (ofList pairs) := by
  have hmap : (putStrings [] pairs).map (fun member => (member.1, valueText member.2)) =
      (ofList pairs).entries := map_putStrings pairs rfl
  rw [ofJson, hmap, ofList_entries]

/-- Pairs go to the end, one after the other, when no name comes again. -/
theorem putStrings_of_nodup {pairs : List (Text × Text)} {acc : List (Text × Value)}
    (h : (acc.map Prod.fst ++ pairs.map Prod.fst).Nodup) :
    putStrings acc pairs = acc ++ stringMembers pairs := by
  induction pairs generalizing acc with
  | nil => rw [putStrings, List.foldl_nil, stringMembers, List.map_nil, List.append_nil]
  | cons pair pairs ih =>
    rw [List.map_cons] at h
    have hnew : pair.1 ∉ acc.map Prod.fst := fun hmem =>
      (List.nodup_append.mp h).2.2 _ hmem _ List.mem_cons_self rfl
    have hrest : ((acc ++ [(pair.1, Value.string pair.2)]).map Prod.fst ++
        pairs.map Prod.fst).Nodup := by
      rwa [List.map_append, List.append_assoc]
    rw [putStrings_cons, Keyed.put_of_not_mem hnew, ih hrest, List.append_assoc]
    rfl

theorem putStrings_entries (m : OptionMap) : putStrings [] m.entries = stringMembers m.entries :=
  putStrings_of_nodup m.nodup

/-- The object of some options gives them back. -/
theorem ofJson_toJson (m : OptionMap) : ofJson m.toJson = .ok m := by
  have hread := ofJson_putStrings m.entries
  rwa [putStrings_entries, ofList_entries] at hread

/-- **Options that are written are read as they are**, in their order. -/
theorem read_pretty (m : OptionMap) {behind : Text} (hbehind : ∀ c ∈ behind, isBlank c = true) :
    Json.read (m.toJson.pretty ++ behind) = .ok m.toJson := by
  have hread := read_pretty_strings m.entries ⟨behind, hbehind⟩
  rwa [putStrings_entries] at hread

theorem read_compact (m : OptionMap) {behind : Text} (hbehind : ∀ c ∈ behind, isBlank c = true) :
    Json.read (m.toJson.compact ++ behind) = .ok m.toJson := by
  have hread := read_compact_strings m.entries ⟨behind, hbehind⟩
  rwa [putStrings_entries] at hread

/-- **Options survive JSON.** However pairs of texts are written as an object of strings, which may
have the same name more than once, reading the object gives the options that the pairs set one after
the other. So options that are written, compact or pretty, are read as they are and in their
order. -/
theorem ofJson_read_objectText :
    (∀ (pairs : List (Text × Text)) (members : List (Member .full)) (front gap behind : Gap),
      List.Forall₂ Member.IsPair members pairs →
        (Json.read (objectText front members gap behind)).map ofJson = .ok (.ok (ofList pairs))) ∧
    ∀ m : OptionMap,
      (Json.read m.toJson.compact).map ofJson = .ok (.ok m) ∧
        (Json.read m.toJson.pretty).map ofJson = .ok (.ok m) := by
  refine ⟨fun pairs members front gap behind h => ?_, fun m => ⟨?_, ?_⟩⟩
  · rw [read_strings h, Except.map, ofJson_putStrings]
  · have hread := m.read_compact Gap.none.blank
    rw [Gap.none, List.append_nil] at hread
    rw [hread, Except.map, ofJson_toJson]
  · have hread := m.read_pretty Gap.none.blank
    rw [Gap.none, List.append_nil] at hread
    rw [hread, Except.map, ofJson_toJson]

/-- Three members, the last of which has the name of the first, written with an escape; the value of
the second is a character of two units. -/
def repeatedNameMembers : List (Member .full) :=
  [.ofPair .none .space ['a'] (quote ['1']),
    .ofPair .space .space ['b'] "\"\\ud83d\\ude00\"".toList,
    { Member.ofPair .space .none ['a'] (quote ['2']) with
      quoted := "\"\\u0061\"".toList
      isString := ⟨_, .cons (.unit (unitEscape_digitChar 0 0 6 1)) .nil, rfl⟩ }]

/-- The last value of a name is at its first place, and two units make one character. -/
theorem ofJson_read_objectText_sample :
    (Json.read "\x7b\"a\": \"1\", \"b\": \"\\ud83d\\ude00\", \"\\u0061\":\"2\"\x7d".toList).map
      ofJson = .ok (.ok (ofList [(['a'], ['2']), (['b'], ['😀'])])) := by
  have hunits : IsString .full ['😀'] "\"\\ud83d\\ude00\"".toList :=
    ⟨_, .cons (.pair (by decide) (unitEscape_digitChar 13 8 3 13) (unitEscape_digitChar 13 14 0 0))
      .nil, rfl⟩
  have hpairs : List.Forall₂ Member.IsPair repeatedNameMembers
      [(['a'], ['1']), (['b'], ['😀']), (['a'], ['2'])] :=
    .cons ⟨rfl, isString_quote .full ['1']⟩ (.cons ⟨rfl, hunits⟩
      (.cons ⟨rfl, isString_quote .full ['2']⟩ .nil))
  have hread := ofJson_read_objectText.1 _ repeatedNameMembers .none .none .none hpairs
  exact hread

end RmdOptions.OptionMap
