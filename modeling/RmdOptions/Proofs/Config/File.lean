import RmdOptions.Config.File
import RmdOptions.Proofs.Json.Written

/-!
# Reading configurations that were saved

A member of a configuration file gives one of the settings, or it has another name and is passed
over. So what a file gives is some of the settings of a configuration, and the defaults for the
others, in whatever order its members come; this is refused for the first setting in it that is
missing.

* `Config.only` — some settings of a configuration;
* `Config.isMissing`, `Config.emptyField?_eq_find?` — what must not be empty;
* `Config.GivesSetting`, `Config.Accounts` — what the members of a file may be;
* `Config.Progress`, `Config.Progress.member` — **members are read one after the other**;
* `Config.fromJson_objectText`, `Config.emptyField?_of_fromJson` — what is loaded, and what is not;
* `Config.load_save` — **configurations survive being saved**.
-/

namespace RmdOptions.Config

open Json

/-! ## Settings -/

/-- A setting of a configuration if it is one of those given, and else the default. -/
def choose {α : Type} (config : Config) (fields : List Field) (field : Field)
    (value : Config → α) : α :=
  if field ∈ fields then value config else value default

/-- Some settings of a configuration, with the defaults for the others. -/
def only (config : Config) (fields : List Field) : Config where
  package := config.choose fields .package Config.package
  object := config.choose fields .object Config.object
  method := config.choose fields .method Config.method
  indent := config.choose fields .indent Config.indent
  singleLineMax := config.choose fields .singleLineMax Config.singleLineMax
  closingFence := config.choose fields .closingFence Config.closingFence

section Choose

variable {α : Type} (config : Config) {fields fields' : List Field} {field field' : Field}
  (value : Config → α)

theorem choose_cons_self : config.choose (field :: fields) field value = value config :=
  if_pos List.mem_cons_self

theorem choose_cons_of_ne (h : field' ≠ field) :
    config.choose (field :: fields) field' value = config.choose fields field' value := by
  simp only [choose, List.mem_cons, h, false_or]

/-- It does not matter in which order settings are given. -/
theorem only_congr (h : ∀ field, field ∈ fields ↔ field ∈ fields') :
    config.only fields = config.only fields' := by
  simp only [only, choose, h]

end Choose

/-- No setting at all is the default configuration. -/
theorem only_nil (config : Config) : config.only [] = {} := rfl

/-- All settings are the whole configuration. -/
theorem only_all (config : Config) : config.only Field.all = config := rfl

/-- Whether a setting must not be empty, but is. -/
def isMissing (config : Config) : Field → Bool
  | .package => config.package.trim.isEmpty
  | .object => config.object.trim.isEmpty
  | .method => config.method.trim.isEmpty
  | .closingFence => config.closingFence.trim.isEmpty
  | .indent => config.indent.isEmpty
  | .singleLineMax => false

/-- The settings that must not be empty, in the order in which they are looked at. -/
def Field.required : List Field := [.package, .object, .method, .closingFence, .indent]

/-- The first of them that is missing is found. -/
theorem emptyField?_eq_find? (config : Config) :
    config.emptyField? = Field.required.find? config.isMissing := by
  simp only [emptyField?, Field.required, List.find?, isMissing]
  split_ifs with hpackage hobject hmethod hfence hindent <;> simp [*]

/-! ## Members -/

/-- How a setting of a configuration may be written. -/
inductive GivesSetting (config : Config) : Field → Text → Prop where
  /-- a text as a string -/
  | text {field : Field} {content t : Text} (hvalue : config.fieldValue field = .string content)
      (ht : IsString .full content t) : GivesSetting config field t
  /-- the line limit by its digits -/
  | limit (h : config.singleLineMax ≤ NumberLiteral.maxUnsigned) :
      GivesSetting config .singleLineMax (digitsOf config.singleLineMax)

/-- A member that has the name of a setting gives this setting. Any other has some value. -/
def Accounts (config : Config) (m : Member .full) : Prop :=
  match Field.ofName? m.name with
  | some field => config.GivesSetting field m.value
  | none => IsValue m.value

theorem accounts_of_name {config : Config} {m : Member .full} {field : Field}
    (hname : Field.ofName? m.name = some field) (h : config.GivesSetting field m.value) :
    config.Accounts m := by
  rwa [Accounts, hname]

theorem accounts_of_other {config : Config} {m : Member .full}
    (hname : Field.ofName? m.name = none) (h : IsValue m.value) : config.Accounts m := by
  rwa [Accounts, hname]

/-- The settings that some members give. -/
def given (members : List (Member .full)) : List Field :=
  members.filterMap fun m => Field.ofName? m.name

theorem run_textSetting {content t : Text} (h : IsString .full content t) (gap : Gap)
    (rest : Text) : textSetting.run (gap.text ++ (t ++ rest)) = .ok (content, rest) := by
  have hrun (t : Text) : textSetting.run t = runText t := rfl
  have hscalar := scalar_string h rest
  have hskip : skipBlanks (gap.text ++ (t ++ rest)) = t ++ rest := by
    obtain ⟨body, -, rfl⟩ := h
    exact skipBlanks_gap gap (by decide) _
  rw [hrun, runText, hskip, hscalar]

theorem run_numberSetting {n : Nat} (h : n ≤ NumberLiteral.maxUnsigned) (gap : Gap) {rest : Text}
    (hrest : EndsNumber rest) :
    numberSetting.run (gap.text ++ (digitsOf n ++ rest)) = .ok (n, rest) := by
  have hrun (t : Text) : numberSetting.run t = runNumber t := rfl
  have hscalar := scalar_digitsOf h hrest
  have hskip : skipBlanks (gap.text ++ (digitsOf n ++ rest)) = digitsOf n ++ rest := by
    obtain ⟨hne, hdigits⟩ := isDigits_digitsOf n
    obtain ⟨c, more, hcons⟩ := List.exists_cons_of_ne_nil hne
    have hblank : isBlank c = false := by
      refine Bool.eq_false_iff.mpr fun hblank => ?_
      have hdigit := hdigits c (hcons ▸ List.mem_cons_self)
      rw [(ends_of_isBlank hblank).1] at hdigit
      cases hdigit
    rw [hcons]
    exact skipBlanks_gap gap hblank _
  rw [hrun, runNumber, hskip, hscalar]

/-- **A setting is read as it was given**, and the others are kept. -/
theorem run_setting {config : Config} {field : Field} {t : Text} (h : config.GivesSetting field t)
    (seen : List Field) (gap : Gap) {rest : Text} (hrest : EndsNumber rest) :
    (setting (config.only seen) field).run (gap.text ++ (t ++ rest)) =
      .ok (config.only (field :: seen), rest) := by
  cases h with
  | text hvalue ht =>
    have hread := run_textSetting ht gap rest
    cases field with
    | singleLineMax => cases hvalue
    | package | object | method | indent | closingFence =>
      cases hvalue
      refine (Reader.run_map _ hread).trans ?_
      simp [only, choose_cons_self, choose_cons_of_ne]
  | limit h =>
    have hread := run_numberSetting h gap hrest
    refine (Reader.run_map _ hread).trans ?_
    simp [only, choose_cons_self, choose_cons_of_ne]

/-! ## Files -/

/-- What has been read is some settings of a configuration. With those that the members still to
come give, it is the settings of the whole file. -/
structure Progress (config : Config) (fields : List Field) (acc : List Field × Config)
    (later : List (Member .full)) : Prop where
  /-- the settings seen so far make up what has been read -/
  made : acc.2 = config.only acc.1
  /-- every member gives a setting or is passed over -/
  accounts : ∀ m ∈ later, config.Accounts m
  /-- no setting is lost -/
  gives : (acc.1 ++ given later).Perm fields

/-- **A member is read**, and there is progress. -/
theorem Progress.member {config : Config} {fields : List Field} (hfields : fields.Nodup)
    {acc : List Field × Config} {m : Member .full} {later : List (Member .full)}
    (h : Progress config fields acc (m :: later)) (gap : Gap) {rest : Text}
    (hrest : EndsNumber rest) : ∃ next,
    ((stringReader .full).bind (member acc)).run (gap.text ++ (m.part.text ++ rest)) =
      .ok (next, rest) ∧ Progress config fields next later := by
  obtain ⟨hmade, haccounts, hgives⟩ := h
  have hm := haccounts m List.mem_cons_self
  have hlater : ∀ m ∈ later, config.Accounts m := fun m hm =>
    haccounts m (List.mem_cons_of_mem _ hm)
  rw [run_memberName, Config.member]
  rw [Accounts] at hm
  cases hname : Field.ofName? m.name with
  | none =>
    rw [hname] at hm
    rw [given, List.filterMap_cons, hname] at hgives
    refine ⟨acc, ?_, hmade, hlater, hgives⟩
    dsimp only
    rw [Reader.run_after _ _ (by decide)]
    exact Reader.run_map _ (passOver_isValue hm m.behindColon hrest)
  | some field =>
    rw [hname] at hm
    rw [given, List.filterMap_cons, hname] at hgives
    have hnew : field ∉ acc.1 := by
      have hnodup := List.perm_middle.nodup_iff.mp (hgives.nodup_iff.mpr hfields)
      exact fun hseen => (List.nodup_cons.mp hnodup).1 (List.mem_append_left _ hseen)
    refine ⟨(field :: acc.1, config.only (field :: acc.1)), ?_, rfl, hlater,
      List.perm_middle.symm.trans hgives⟩
    dsimp only
    rw [if_neg hnew, Reader.run_after _ _ (by decide), hmade]
    exact Reader.run_map _ (run_setting hm acc.1 m.behindColon hrest)

/-- **A file is read as the settings that its members give.** -/
theorem settings_objectText {config : Config} {members : List (Member .full)}
    (haccounts : ∀ m ∈ members, config.Accounts m) (honce : (given members).Nodup)
    (front gap behind : Gap) :
    settings (objectText front members gap behind) =
      .ok (config.only (given members), behind.text) := by
  have hstart : Progress config (given members) ([], {}) members :=
    ⟨(only_nil config).symm, haccounts, .refl _⟩
  obtain ⟨last, hrun, hmade, -, hgives⟩ := bracketed_between Member.part
    (Progress config (given members)) (Or.inr rfl)
    (fun _ _ _ hprogress gap _ hrest => hprogress.member honce gap hrest) hstart
    (fun m _ => m.startsPart) gap behind.text
  have hlast : last.2 = config.only (given members) := by
    rw [given, List.filterMap_nil, List.append_nil] at hgives
    rw [hmade, config.only_congr fun field => hgives.mem_iff]
  rw [settings, objectText, skipBlanks_gap front (by decide)]
  dsimp only
  rw [if_pos rfl, ← hlast]
  exact Reader.run_map _ hrun

/-- What is loaded is accepted if nothing is missing, and refused for what is missing first. -/
theorem fromJson_objectText {config : Config} {members : List (Member .full)}
    (haccounts : ∀ m ∈ members, config.Accounts m) (honce : (given members).Nodup)
    (front gap behind : Gap) :
    fromJson (objectText front members gap behind) =
      match (config.only (given members)).emptyField? with
      | some field => .error (.emptyField field)
      | none => .ok (config.only (given members)) := by
  rw [fromJson, settings_objectText haccounts honce]
  dsimp only
  rw [skipBlanks_end]
  exact if_pos rfl

/-- No text whatever gives a configuration in which something is missing. -/
theorem emptyField?_of_fromJson {t : Text} {config : Config} (h : fromJson t = .ok config) :
    config.emptyField? = none := by
  rw [fromJson] at h
  split at h
  · cases h
  · split_ifs at h
    split at h
    · cases h
    · next hvalid =>
      cases h
      exact hvalid

/-! ## Saving -/

/-- The members that are written for a configuration. -/
def savedMembers (config : Config) : List (Member .full) :=
  Field.all.map fun field =>
    .ofPair .none .none field.name.toList (config.fieldValue field).compact

/-- Every setting has its own name. -/
theorem ofName?_name (field : Field) : Field.ofName? field.name.toList = some field := by
  cases field <;> rfl

theorem given_savedMembers (config : Config) : given config.savedMembers = Field.all := by
  rw [given, savedMembers, List.filterMap_map]
  have hname : (fun m => Field.ofName? m.name) ∘ (fun field : Field => Member.ofPair .none .none
      field.name.toList (config.fieldValue field).compact) = some := funext ofName?_name
  rw [hname, List.filterMap_some]

theorem accounts_savedMembers {config : Config}
    (hlimit : config.singleLineMax ≤ NumberLiteral.maxUnsigned) :
    ∀ m ∈ config.savedMembers, config.Accounts m := by
  intro m hm
  obtain ⟨field, -, rfl⟩ := List.mem_map.mp hm
  have hgives : config.GivesSetting field (config.fieldValue field).compact := by
    cases field with
    | singleLineMax => exact .limit hlimit
    | package | object | method | indent | closingFence =>
      exact .text rfl (isString_quote .full _)
  exact accounts_of_name (ofName?_name field) hgives

/-- Saved settings are an object without blanks. -/
theorem compact_toJson (config : Config) :
    config.toJson.compact = objectText .none config.savedMembers .none .none := by
  rw [toJson, Value.compact_object, savedMembers, List.map_map]
  rfl

/-- **Configurations survive being saved, and only valid ones are loaded.** A valid configuration is
loaded as it was saved. Whatever settings of a configuration are written in an object, in any order
and among whatever other members, they are loaded with the defaults for the others, or else this is
refused for the first setting that is missing. What is loaded is valid in any case. -/
theorem load_save :
    (∀ config : Config, config.emptyField? = none →
      config.singleLineMax ≤ NumberLiteral.maxUnsigned →
        fromJson config.toJson.compact = .ok config) ∧
    (∀ (config : Config) (members : List (Member .full)) (front gap behind : Gap),
      (∀ m ∈ members, config.Accounts m) → (given members).Nodup →
        fromJson (objectText front members gap behind) =
          match Field.required.find? (config.only (given members)).isMissing with
          | some field => .error (.emptyField field)
          | none => .ok (config.only (given members))) ∧
    ∀ (t : Text) (config : Config), fromJson t = .ok config → config.emptyField? = none := by
  refine ⟨fun config hvalid hlimit => ?_, fun config members front gap behind haccounts honce => ?_,
    fun t config => emptyField?_of_fromJson⟩
  · have honce : (given config.savedMembers).Nodup := by
      rw [given_savedMembers]
      decide
    have hload := fromJson_objectText (accounts_savedMembers hlimit) honce .none .none .none
    rw [given_savedMembers, only_all, hvalid] at hload
    rw [compact_toJson]
    exact hload
  · rw [fromJson_objectText haccounts honce, emptyField?_eq_find?]

/-- A file with an indent and a blank name, behind a member with another name. -/
def blankObjectMembers : List (Member .full) :=
  [.ofPair .none .space ['x'] "[null]".toList,
    .ofPair .space .space "indent_unit".toList (quote [' ', ' ']),
    .ofPair .space .space "object".toList (quote [' '])]

/-- An indent may be blank, and a name must not be. -/
theorem load_save_sample :
    fromJson ({ indent := [' ', ' '] } : Config).toJson.compact = .ok { indent := [' ', ' '] } ∧
      fromJson "\x7b\"x\": [null], \"indent_unit\": \"  \", \"object\": \" \"\x7d".toList =
        .error (.emptyField .object) := by
  refine ⟨load_save.1 _ (by decide) (by decide), ?_⟩
  have hnull : IsValue "[null]".toList := by
    refine @IsValue.array [⟨.none, Value.nullText, .none⟩] .none fun e he => ?_
    obtain rfl := List.mem_singleton.mp he
    exact .null
  have haccounts : ∀ m ∈ blankObjectMembers,
      ({ indent := [' ', ' '], object := [' '] } : Config).Accounts m := by
    intro m hm
    simp only [blankObjectMembers, List.mem_cons, List.not_mem_nil, or_false] at hm
    rcases hm with rfl | rfl | rfl
    · exact accounts_of_other rfl hnull
    · exact accounts_of_name (ofName?_name .indent) (.text rfl (isString_quote .full _))
    · exact accounts_of_name (ofName?_name .object) (.text rfl (isString_quote .full _))
  exact load_save.2.1 _ blankObjectMembers .none .none .none haccounts (by decide)

end RmdOptions.Config
