import Pidrei.Library.OrderedMap
import Pidrei.Values

/-!
Settings objects and their migration. A dict is a map without an order, because two
dicts are equal in Python whatever the order of their keys. What lies below an object
inside a field is kept as it was parsed.
-/
namespace Pidrei.Settings

open Values

/-- An object inside a field. -/
abbrev Fields := Std.ExtTreeMap String Value

inductive Setting
  | null
  | bool (b : Bool)
  | num (n : Number)
  | str (s : String)
  | list (items : List Value)
  | object (fields : Fields)

abbrev Dict := Std.ExtTreeMap String Setting

def Setting.ofValue : Value → Setting
  | .null => .null
  | .bool b => .bool b
  | .num n => .num n
  | .str s => .str s
  | .list items => .list items
  | .dict items | .record items => .object (.ofList items)

def Setting.isNull : Setting → Bool
  | .null => true
  | _ => false

/-- `isinstance(value, dict)`, and the dict. -/
def Setting.object? : Setting → Option Fields
  | .object fields => some fields
  | _ => none

section Lookup

variable {β : Type} (d : Std.ExtTreeMap String β) (k a : String)

theorem get?_insert (v : β) : (d.insert k v)[a]? = if k = a then some v else d[a]? := by
  rw [Std.ExtTreeMap.getElem?_insert]
  exact if_congr Std.LawfulEqOrd.compare_eq_iff_eq rfl rfl

theorem get?_erase : (d.erase k)[a]? = if k = a then none else d[a]? := by
  rw [Std.ExtTreeMap.getElem?_erase]
  exact if_congr Std.LawfulEqOrd.compare_eq_iff_eq rfl rfl

@[simp] theorem get?_empty : (∅ : Std.ExtTreeMap String β)[a]? = none :=
  Std.ExtTreeMap.getElem?_empty

variable {d}

theorem insert_of_get? {k : String} {v : β} (h : d[k]? = some v) : d.insert k v = d := by
  refine Std.ExtTreeMap.ext_getElem? fun a => ?_
  rw [get?_insert]
  split
  · rename_i hk
    rw [← hk, h]
  · rfl

theorem erase_of_get? {k : String} (h : d[k]? = none) : d.erase k = d := by
  refine Std.ExtTreeMap.ext_getElem? fun a => ?_
  rw [get?_erase]
  split
  · rename_i hk
    rw [← hk, h]
  · rfl

end Lookup

def migrateQueueMode (settings : Dict) : Dict :=
  match settings["queueMode"]?, settings["steeringMode"]? with
  | some mode, none => (settings.insert "steeringMode" mode).erase "queueMode"
  | _, _ => settings

/-- enableInstallTelemetry -> enableProviderAttribution -/
def migrateInstallTelemetry (settings : Dict) : Dict :=
  let moved :=
    match settings["enableInstallTelemetry"]?, settings["enableProviderAttribution"]? with
    | some enabled, none => settings.insert "enableProviderAttribution" enabled
    | _, _ => settings
  moved.erase "enableInstallTelemetry"

/-- The legacy websockets boolean -> the transport enum. -/
def migrateWebsockets (settings : Dict) : Dict :=
  match settings["transport"]?, settings["websockets"]? with
  | none, some (.bool websockets) =>
    (settings.insert "transport" (.str (if websockets then "websocket" else "sse"))).erase "websockets"
  | _, _ => settings

/-- The commands switch inside the old skills object moves up when there is none yet. -/
def moveSkillCommands (settings : Dict) (skills : Fields) : Dict :=
  match skills["enableSkillCommands"]? with
  | none | some .null => settings
  | some enabled =>
    if (settings["enableSkillCommands"]?.getD .null).isNull then
      settings.insert "enableSkillCommands" (.ofValue enabled)
    else settings

/-- The old skills object -> the array of directories. -/
def migrateSkills (settings : Dict) : Dict :=
  match settings["skills"]? with
  | some (.object skills) =>
    match skills["customDirectories"]? with
    | some (.list (first :: rest)) =>
      (moveSkillCommands settings skills).insert "skills" (.list (first :: rest))
    | _ => (moveSkillCommands settings skills).erase "skills"
  | _ => settings

def migrateMaxDelay (retry : Fields) : Fields :=
  let provider := match retry["provider"]? with
    | some (.dict items) => items
    | _ => []
  let moved := match retry["maxDelayMs"]? with
    | some (.num delay) =>
      if ((provider.lookup "maxRetryDelayMs").getD Value.null) = Value.null then
        retry.insert "provider" (.dict (OrderedMap.upsert "maxRetryDelayMs" (.num delay) provider))
      else retry
    | _ => retry
  moved.erase "maxDelayMs"

def migrateRetry (settings : Dict) : Dict :=
  match settings["retry"]? with
  | some (.object retry) => settings.insert "retry" (.object (migrateMaxDelay retry))
  | _ => settings

def migrateSettings (settings : Dict) : Dict :=
  migrateRetry (migrateSkills (migrateWebsockets (migrateInstallTelemetry
    (migrateQueueMode settings))))

/-- `_parse_settings` of a file. A missing or empty file is none. -/
def parseSettings (file : Option Dict) : Dict := (file.map migrateSettings).getD ∅

section Migrated

/-- Settings in which the migration finds nothing to do. -/
structure Migrated (settings : Dict) : Prop where
  queueMode : settings["queueMode"]? = none ∨ settings["steeringMode"]? ≠ none
  telemetry : settings["enableInstallTelemetry"]? = none
  websockets : settings["transport"]? ≠ none ∨ ∀ b, settings["websockets"]? ≠ some (.bool b)
  skills : ∀ fields, settings["skills"]? ≠ some (.object fields)
  retry : ∀ fields, settings["retry"]? = some (.object fields) → fields["maxDelayMs"]? = none

variable (d : Dict) {k : String}

theorem get?_migrateInstallTelemetry (hinstall : k ≠ "enableInstallTelemetry")
    (hattribution : k ≠ "enableProviderAttribution") : (migrateInstallTelemetry d)[k]? = d[k]? := by
  unfold migrateInstallTelemetry
  rw [get?_erase, if_neg hinstall.symm]
  split
  · rw [get?_insert, if_neg hattribution.symm]
  · rfl

theorem get?_migrateWebsockets (htransport : k ≠ "transport") (hwebsockets : k ≠ "websockets") :
    (migrateWebsockets d)[k]? = d[k]? := by
  unfold migrateWebsockets
  split
  · rw [get?_erase, if_neg hwebsockets.symm, get?_insert, if_neg htransport.symm]
  · rfl

theorem get?_moveSkillCommands (skills : Fields) (hcommands : k ≠ "enableSkillCommands") :
    (moveSkillCommands d skills)[k]? = d[k]? := by
  unfold moveSkillCommands
  split
  · rfl
  · rfl
  · split
    · rw [get?_insert, if_neg hcommands.symm]
    · rfl

theorem get?_migrateSkills (hskills : k ≠ "skills") (hcommands : k ≠ "enableSkillCommands") :
    (migrateSkills d)[k]? = d[k]? := by
  unfold migrateSkills
  split
  · split
    · rw [get?_insert, if_neg hskills.symm, get?_moveSkillCommands d _ hcommands]
    · rw [get?_erase, if_neg hskills.symm, get?_moveSkillCommands d _ hcommands]
  · rfl

theorem get?_migrateRetry (hretry : k ≠ "retry") : (migrateRetry d)[k]? = d[k]? := by
  unfold migrateRetry
  split
  · rw [get?_insert, if_neg hretry.symm]
  · rfl

theorem queueMode_migrateQueueMode : (migrateQueueMode d)["queueMode"]? = none ∨
    (migrateQueueMode d)["steeringMode"]? ≠ none := by
  unfold migrateQueueMode
  split
  · rw [get?_erase, if_pos rfl]
    exact .inl rfl
  · rename_i hno
    cases hqueue : d["queueMode"]? with
    | none => exact .inl rfl
    | some mode => exact .inr fun hsteering => hno mode hqueue hsteering

theorem telemetry_migrateInstallTelemetry :
    (migrateInstallTelemetry d)["enableInstallTelemetry"]? = none := by
  unfold migrateInstallTelemetry
  rw [get?_erase, if_pos rfl]

theorem websockets_migrateWebsockets : (migrateWebsockets d)["transport"]? ≠ none ∨
    ∀ b, (migrateWebsockets d)["websockets"]? ≠ some (.bool b) := by
  unfold migrateWebsockets
  split
  · rw [get?_erase, get?_erase, if_pos rfl]
    exact .inr nofun
  · rename_i hno
    by_cases htransport : d["transport"]? = none
    · exact .inr fun b hb => hno b htransport hb
    · exact .inl htransport

variable (fields : Fields)

theorem skills_migrateSkills : (migrateSkills d)["skills"]? ≠ some (.object fields) := by
  unfold migrateSkills
  split
  · split
    · rw [get?_insert, if_pos rfl]
      exact nofun
    · rw [get?_erase, if_pos rfl]
      exact nofun
  · rename_i hno
    exact fun h => hno fields h

theorem maxDelay_migrateMaxDelay (retry : Fields) : (migrateMaxDelay retry)["maxDelayMs"]? = none := by
  unfold migrateMaxDelay
  rw [get?_erase, if_pos rfl]

theorem retry_migrateRetry (h : (migrateRetry d)["retry"]? = some (.object fields)) :
    fields["maxDelayMs"]? = none := by
  unfold migrateRetry at h
  split at h
  · rename_i retry _
    rw [get?_insert, if_pos rfl] at h
    cases h
    exact maxDelay_migrateMaxDelay retry
  · rename_i hno
    exact absurd h (hno fields)

theorem migrated_migrateSettings : Migrated (migrateSettings d) := by
  have hlate : ∀ (d : Dict) k, k ≠ "skills" → k ≠ "enableSkillCommands" → k ≠ "retry" →
      (migrateRetry (migrateSkills d))[k]? = d[k]? := fun d k hskills hcommands hretry => by
    rw [get?_migrateRetry _ hretry, get?_migrateSkills d hskills hcommands]
  refine ⟨?_, ?_, ?_, fun fields => ?_, retry_migrateRetry _⟩
  · have hkeep : ∀ k, k = "queueMode" ∨ k = "steeringMode" →
        (migrateSettings d)[k]? = (migrateQueueMode d)[k]? := by
      rintro k (rfl | rfl) <;>
        rw [migrateSettings, hlate _ _ (by decide) (by decide) (by decide),
          get?_migrateWebsockets _ (by decide) (by decide),
          get?_migrateInstallTelemetry _ (by decide) (by decide)]
    rw [hkeep _ (.inl rfl), hkeep _ (.inr rfl)]
    exact queueMode_migrateQueueMode d
  · rw [migrateSettings, hlate _ _ (by decide) (by decide) (by decide),
      get?_migrateWebsockets _ (by decide) (by decide)]
    exact telemetry_migrateInstallTelemetry _
  · rw [migrateSettings, hlate _ _ (by decide) (by decide) (by decide),
      hlate _ _ (by decide) (by decide) (by decide)]
    exact websockets_migrateWebsockets _
  · rw [migrateSettings, get?_migrateRetry _ (by decide)]
    exact skills_migrateSkills _ fields

variable {d}

theorem migrateMaxDelay_of_none {retry : Fields} (h : retry["maxDelayMs"]? = none) :
    migrateMaxDelay retry = retry := by
  unfold migrateMaxDelay
  rw [h]
  exact erase_of_get? h

theorem Migrated.migrateSettings_eq (h : Migrated d) : migrateSettings d = d := by
  have hqueue : migrateQueueMode d = d := by
    unfold migrateQueueMode
    split
    · rename_i hmode hsteering
      rcases h.queueMode with hnone | hsome
      · rw [hnone] at hmode
        cases hmode
      · exact absurd hsteering hsome
    · rfl
  have htelemetry : migrateInstallTelemetry d = d := by
    unfold migrateInstallTelemetry
    rw [h.telemetry]
    exact erase_of_get? h.telemetry
  have hwebsockets : migrateWebsockets d = d := by
    unfold migrateWebsockets
    split
    · rename_i htransport hbool
      rcases h.websockets with hsome | hno
      · exact absurd htransport hsome
      · exact absurd hbool (hno _)
    · rfl
  have hskills : migrateSkills d = d := by
    unfold migrateSkills
    split
    · rename_i hobject
      exact absurd hobject (h.skills _)
    · rfl
  have hretry : migrateRetry d = d := by
    unfold migrateRetry
    split
    · rename_i retry hobject
      rw [migrateMaxDelay_of_none (h.retry retry hobject)]
      exact insert_of_get? hobject
    · rfl
  rw [migrateSettings, hqueue, htelemetry, hwebsockets, hskills, hretry]

theorem migrated_empty : Migrated ∅ := by
  refine ⟨.inl (get?_empty _), get?_empty _, .inr fun _ h => ?_, fun _ h => ?_, fun _ h => ?_⟩ <;>
    rw [get?_empty] at h <;> cases h

theorem migrated_parseSettings (file : Option Dict) : Migrated (parseSettings file) := by
  cases file with
  | none => exact migrated_empty
  | some settings => exact migrated_migrateSettings settings

theorem Migrated.parseSettings_some (h : Migrated d) : parseSettings (some d) = d :=
  h.migrateSettings_eq

/-- What may be written to a field without calling for a migration. -/
structure Modern (field : String) (setting : Setting) : Prop where
  name : field ≠ "queueMode" ∧ field ≠ "enableInstallTelemetry" ∧ field ≠ "websockets"
  skills : field = "skills" → setting.object? = none
  retry : field = "retry" → ∀ fields, setting = .object fields → fields["maxDelayMs"]? = none

theorem Migrated.insert {field : String} {setting : Setting} (h : Migrated d)
    (hmodern : Modern field setting) : Migrated (d.insert field setting) := by
  obtain ⟨hqueue, htelemetry, hwebsockets⟩ := hmodern.name
  have hsome : ∀ k : String, d[k]? ≠ none → (d.insert field setting)[k]? ≠ none := by
    intro k hk
    rw [get?_insert]
    split
    · exact Option.some_ne_none _
    · exact hk
  refine ⟨?_, ?_, ?_, fun fields => ?_, fun fields => ?_⟩
  · rw [get?_insert d field "queueMode", if_neg hqueue]
    exact h.queueMode.imp_right (hsome _)
  · rw [get?_insert, if_neg htelemetry]
    exact h.telemetry
  · rw [get?_insert d field "websockets", if_neg hwebsockets]
    exact h.websockets.imp_left (hsome _)
  · rw [get?_insert]
    split
    · rename_i hfield
      rintro ⟨⟩
      exact Option.some_ne_none _ (hmodern.skills hfield)
    · exact h.skills fields
  · rw [get?_insert]
    split
    · rename_i hfield
      rintro ⟨⟩
      exact hmodern.retry hfield fields rfl
    · exact h.retry fields

theorem Migrated.erase {field : String} (h : Migrated d) (hsteering : field ≠ "steeringMode")
    (htransport : field ≠ "transport") : Migrated (d.erase field) := by
  have hnone : ∀ (k : String) setting, (d.erase field)[k]? = some setting → d[k]? = some setting := by
    intro k setting
    rw [get?_erase]
    split
    · exact nofun
    · exact id
  have hgone : ∀ k : String, d[k]? = none → (d.erase field)[k]? = none := by
    intro k hk
    rw [get?_erase, hk, ite_self]
  refine ⟨?_, hgone _ h.telemetry, ?_, fun fields hobject => h.skills fields (hnone _ _ hobject),
    fun fields hobject => h.retry fields (hnone _ _ hobject)⟩
  · rw [get?_erase d field "steeringMode", if_neg hsteering]
    exact h.queueMode.imp_left (hgone _)
  · rw [get?_erase d field "transport", if_neg htransport]
    exact h.websockets.imp_right fun hno b hb => hno b (hnone _ _ hb)

end Migrated

end Pidrei.Settings
