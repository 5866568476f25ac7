import RmdOptions.Config.File
import RmdOptions.Proofs.Json.LineEnding

/-!
# Configurations with other line ends

A configuration is read alike from a text and from the same text with pairs. If it cannot be read,
both are refused, and only the fault that is found in them may differ.

* `Config.member_even`, `Config.positional_paired` — settings by name and by position;
* `Config.fromJson_write` — **configurations**.
-/

namespace RmdOptions.Config

open Json LineEnding

/-! ## Settings -/

theorem textSetting_even : textSetting.Even := by
  intro t
  have hrun (t : Text) : textSetting.run t = runText t := rfl
  rw [hrun, hrun, runText, runText, skipBlanks_write]
  refine (scalar_paired .full (skipBlanks t)).elim (fun v rest => ?_) fun _ _ => .error _ _
  cases v with
  | string content => exact .ok content rest
  | null => exact .error _ _
  | bool value => exact .error _ _
  | number value => exact .error _ _
  | array elements => exact .error _ _
  | object members => exact .error _ _

theorem numberSetting_even : numberSetting.Even := by
  intro t
  have hrun (t : Text) : numberSetting.run t = runNumber t := rfl
  rw [hrun, hrun, runNumber, runNumber, skipBlanks_write]
  refine (scalar_paired .full (skipBlanks t)).elim (fun v rest => ?_) fun _ _ => .error _ _
  split
  · next n _ heq =>
    cases heq
    exact .ok n rest
  · next hother =>
    split
    · next heq =>
      cases heq
      exact absurd rfl (hother _ _)
    · exact .error _ _

theorem setting_even (config : Config) (field : Field) : (setting config field).Even := by
  cases field with
  | singleLineMax => exact numberSetting_even.map _
  | package => exact textSetting_even.map _
  | object => exact textSetting_even.map _
  | method => exact textSetting_even.map _
  | indent => exact textSetting_even.map _
  | closingFence => exact textSetting_even.map _

theorem member_even (acc : List Field × Config) (name : Text) : (member acc name).Even := by
  rw [member]
  split
  · exact (passOver_even.map _).after ':'
  · split
    · exact fun t => .error _ _
    · exact ((setting_even acc.2 _).map _).after ':'

theorem positional_paired (first : Bool) (config : Config) (fields : List Field) (t : Text) :
    Paired (positional first config fields t) (positional first config fields (pair.write t)) := by
  induction fields generalizing first config t with
  | nil =>
    rw [positional, positional]
    rcases skipBlanks_write_cases t with ⟨h, h'⟩ | ⟨c, rest, -, h, h'⟩
    · rw [h, h']
      exact .error _ _
    · rw [h, h']
      dsimp only
      split
      · exact .ok config rest
      · exact .error _ _
  | cons field fields ih =>
    rw [positional, positional]
    rcases skipBlanks_write_cases t with ⟨h, h'⟩ | ⟨c, rest, hfeed, h, h'⟩
    · rw [h, h']
      exact .error _ _
    · rw [h, h']
      dsimp only
      split
      · exact .ok config rest
      · next hclose =>
        cases first with
        | true =>
          have hread := setting_even config field (c :: rest)
          rw [write_cons hfeed] at hread
          rw [if_pos rfl, if_pos rfl]
          dsimp only
          rw [if_neg hclose, if_neg hclose]
          refine hread.elim (fun config rest => ?_) fun _ _ => .error _ _
          exact ih false config rest
        | false =>
          rw [if_neg Bool.false_ne_true, if_neg Bool.false_ne_true]
          by_cases hcomma : c = ','
          · rw [if_pos hcomma, if_pos hcomma]
            rcases skipBlanks_write_cases rest with ⟨h, h'⟩ | ⟨d, more, hd, h, h'⟩
            · rw [h, h']
              exact .error _ _
            · have hread := setting_even config field (d :: more)
              rw [write_cons hd] at hread
              rw [h, h']
              dsimp only
              split
              · exact .error _ _
              · refine hread.elim (fun config rest => ?_) fun _ _ => .error _ _
                exact ih false config rest
          · rw [if_neg hcomma, if_neg hcomma]
            exact .error _ _

/-! ## Files -/

theorem settings_paired (t : Text) : Paired (settings t) (settings (pair.write t)) := by
  rw [settings, settings]
  rcases skipBlanks_write_cases t with ⟨h, h'⟩ | ⟨c, rest, -, h, h'⟩
  · rw [h, h']
    exact .error _ _
  · rw [h, h']
    dsimp only
    split
    · exact (members_even .full member_even ([], {})).map Prod.snd rest
    · split
      · exact positional_paired true {} Field.all rest
      · exact .error _ _

/-- **A configuration is read alike** from a text with line feeds and from the same text with pairs.
Both are refused for the same setting, or else for what may be different faults. -/
theorem fromJson_write (t : Text) :
    fromJson (pair.write t) = fromJson t ∨
      ∃ fault fault', fromJson t = .error (.json fault) ∧
        fromJson (pair.write t) = .error (.json fault') := by
  rw [fromJson, fromJson]
  rcases settings_paired t with ⟨config, rest, h, h'⟩ | ⟨fault, fault', h, h'⟩
  · rw [h, h']
    dsimp only
    have hempty : (skipBlanks (pair.write rest)).isEmpty = (skipBlanks rest).isEmpty := by
      rcases skipBlanks_write_cases rest with ⟨h, h'⟩ | ⟨c, more, -, h, h'⟩
      · rw [h, h']
      · rw [h, h']
        rfl
    rw [hempty]
    exact Or.inl rfl
  · rw [h, h']
    exact Or.inr ⟨fault, fault', rfl, rfl⟩

end RmdOptions.Config
