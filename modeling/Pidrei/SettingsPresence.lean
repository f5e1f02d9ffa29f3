import Pidrei.SettingsSetters

/-!
What setters keep. As long as none takes a field away, a write leaves in the file
exactly the settings in memory; the overrides of thinking levels stay an object.
-/
namespace Pidrei.Settings

open Values

/-- Everything marked is there. -/
structure Marks.Present (marks : Marks) (settings : Dict) : Prop where
  field : ∀ name ∈ marks.fields, settings[name]? ≠ none
  key : ∀ name key, key ∈ marks.keys name →
    ∃ value, settings[name]? = some (.object value) ∧ value[key]? ≠ none

section Present

variable {change : Change} {settings : Dict} {marks : Marks} {name key : String}

theorem get?_apply_ne_none (hname : name ∈ change.names) (hdropped : ∀ field, change ≠ .dropped field) :
    (change.apply settings)[name]? ≠ none := by
  have hkept : ∀ (changes : List (String × Setting)) (d : Dict), d[name]? ≠ none →
      ((Change.fields changes).apply d)[name]? ≠ none := by
    intro changes
    induction changes with
    | nil => exact fun _ h => h
    | cons entry changes ih =>
      intro d hd
      refine ih (d.insert entry.1 entry.2) ?_
      rw [get?_insert]
      split
      · exact Option.some_ne_none _
      · exact hd
  cases change with
  | fields changes =>
    induction changes generalizing settings with
    | nil => cases hname
    | cons entry changes ih =>
      rcases List.mem_cons.mp hname with rfl | hname
      · refine hkept changes _ ?_
        rw [get?_insert, if_pos rfl]
        exact Option.some_ne_none _
      · exact ih hname nofun
  | nested field key value =>
    obtain rfl : name = field := List.mem_singleton.mp hname
    rw [Change.apply, get?_setNested]
    exact Option.some_ne_none _
  | dropped field => exact absurd rfl (hdropped field)

theorem Marks.Present.next (h : marks.Present settings) (hproper : Write.Proper ⟨settings, marks⟩)
    (hvalid : change.Valid) (hdropped : ∀ field, change ≠ .dropped field) :
    (change.mark marks).Present (change.apply settings) := by
  refine ⟨fun name hmarked => ?_, fun name key hmarked => ?_⟩
  · by_cases hname : name ∈ change.names
    · exact get?_apply_ne_none hname hdropped
    · rw [get?_apply hname]
      exact h.field name ((mem_fields_mark_change.mp hmarked).resolve_left hname)
  · rcases mem_keys_mark_change.mp hmarked with hsets | hold
    · cases change with
      | nested field other value =>
        obtain ⟨rfl, rfl⟩ := hsets
        refine ⟨_, get?_setNested value, ?_⟩
        rw [get?_insert, if_pos rfl]
        exact Option.some_ne_none _
      | _ => cases hsets
    · obtain ⟨value, hvalue, hkey⟩ := h.key name key hold
      have hne : marks.keys name ≠ [] := List.ne_nil_of_mem hold
      have hkind := (hproper.marks.kind name (hproper.marks.closed name key hold)).mpr hne
      by_cases hname : name ∈ change.names
      · obtain ⟨other, setting, rfl⟩ := nested_of_keys hvalid hkind hname
        refine ⟨_, get?_setNested setting, ?_⟩
        rw [hvalue, get?_insert]
        split
        · exact Option.some_ne_none _
        · exact hkey
      · exact ⟨value, (get?_apply hname).trans hvalue, hkey⟩

theorem merge_change (hvalid : change.Valid)
    (hproper : Write.Proper ⟨change.apply settings, change.mark marks⟩)
    (hpresent : (change.mark marks).Present (change.apply settings)) :
    (⟨change.apply settings, change.mark marks⟩ : Write).merge settings =
      change.apply settings := by
  refine Std.ExtTreeMap.ext_getElem? fun name => ?_
  rw [get?_merge]
  by_cases hmarked : name ∈ (change.mark marks).fields
  · rw [if_pos hmarked]
    by_cases hkeys : (change.mark marks).keys name = []
    · rw [written_of_keys_nil hkeys]
      obtain ⟨setting, hsetting⟩ := Option.ne_none_iff_exists'.mp (hpresent.field name hmarked)
      rw [hsetting]
      rfl
    · obtain ⟨value, hvalue⟩ := hproper.object name hkeys
      rw [written_of_object hkeys hvalue, hvalue]
      refine congrArg (fun value => some (Setting.object value)) ?_
      refine Std.ExtTreeMap.ext_getElem? fun key => ?_
      rw [get?_mergedNested]
      split
      · rename_i hkey
        obtain ⟨other, hother, hne⟩ := hpresent.key name key hkey
        rw [hvalue] at hother
        cases hother
        obtain ⟨setting, hsetting⟩ := Option.ne_none_iff_exists'.mp hne
        rw [hsetting]
        rfl
      · rename_i hkey
        have hkind := (hproper.marks.kind name hmarked).mpr hkeys
        have hsets : ¬ change.Sets (.key name key) :=
          fun h => hkey (mem_keys_mark_change.mpr (.inl h))
        rw [← get?_object_apply hvalid hkind hsets, show (change.apply settings)[name]? = _ from hvalue]
        rfl
  · rw [if_neg hmarked]
    exact (get?_apply fun h => hmarked (mem_fields_mark_change.mpr (.inl h))).symm

end Present

section Levels

/-- The overrides, if there are any, are an object. -/
def plainLevels (settings : Dict) : Bool :=
  settings["modelThinkingLevels"]?.all fun setting => setting.object?.isSome

namespace Setter

/-- A number that the setter takes. -/
def accepts : Setter → Bool
  | httpIdleTimeoutMs timeout => timeout.any fun timeout => 0 ≤ timeout
  | imageWidthCells floor | editorPaddingX floor | autocompleteMaxVisible floor
  | fullscreenWheelScrollLines (.lines floor) => floor.isSome
  | _ => true

/-- A setter of overrides finds none, or an object. -/
def fits (initial : Dict) : Setter → Bool
  | modelThinkingLevel _ _ _ => plainLevels initial
  | removedModelThinkingLevel _ _ =>
    plainLevels initial || !(initial["modelThinkingLevels"]?.getD .null).truthy
  | _ => true

/-- The call removes the only override there is. -/
def dropsLast (settings : Dict) : Setter → Bool
  | removedModelThinkingLevel provider modelId =>
    match settings["modelThinkingLevels"]? with
    | some (.object overrides) =>
      !overrides.isEmpty && (overrides.erase (levelKey provider modelId)).isEmpty
    | _ => false
  | _ => false

end Setter

/-- The overrides are the ones of the start, or an object as they were then. -/
def LevelsKept (initial settings : Dict) : Prop :=
  settings["modelThinkingLevels"]? = initial["modelThinkingLevels"]? ∨
    plainLevels initial = true ∧ plainLevels settings = true

variable {setter : Setter} {change : Change} {initial settings : Dict} {field : String}

theorem LevelsKept.plain (h : LevelsKept initial settings) (hinitial : plainLevels initial = true) :
    plainLevels settings = true := by
  rcases h with hsame | ⟨-, hplain⟩
  · rw [plainLevels, hsame]
    exact hinitial
  · exact hplain

theorem LevelsKept.plain_initial (h : LevelsKept initial settings) (hplain : plainLevels settings = true) :
    plainLevels initial = true := by
  rcases h with hsame | ⟨hinitial, -⟩
  · rw [plainLevels, ← hsame]
    exact hplain
  · exact hinitial

theorem plainLevels_insert {overrides : Fields} :
    plainLevels (settings.insert "modelThinkingLevels" (.object overrides)) = true := by
  rw [plainLevels, get?_insert, if_pos rfl]
  rfl

variable {floor : Option ℤ} {outcome : ℤ → Outcome} {setting : Setting}
   {provider modelId level : String}

theorem ofFloor_ne_raised (hfloor : floor.isSome) (houtcome : ∀ n, outcome n ≠ .raised) :
    ofFloor floor outcome ≠ .raised := by
  obtain ⟨n, rfl⟩ := Option.isSome_iff_exists.mp hfloor
  exact houtcome n

theorem not_plainLevels (hsetting : settings["modelThinkingLevels"]? = some setting)
    (hobject : ∀ overrides, setting = .object overrides → False) : plainLevels settings ≠ true := by
  rw [plainLevels, hsetting]
  cases setting with
  | object overrides => exact absurd rfl (hobject overrides)
  | _ => exact Bool.false_ne_true

theorem setModelThinkingLevel_ne_raised (hplain : plainLevels settings = true) :
    setModelThinkingLevel settings provider modelId level ≠ .raised := by
  unfold setModelThinkingLevel
  split
  · exact nofun
  · exact nofun
  · rename_i hnot hsetting
    exact absurd hplain (not_plainLevels hsetting hnot)

theorem removeModelThinkingLevel_ne_raised
    (hfits : plainLevels settings = true ∨ (settings["modelThinkingLevels"]?.getD .null).truthy = false) :
    removeModelThinkingLevel settings provider modelId ≠ .raised := by
  unfold removeModelThinkingLevel
  split
  · split
    · exact nofun
    · split <;> exact nofun
  · rename_i setting hnot hsetting
    rcases hfits with hplain | hfalsy
    · exact absurd hplain (not_plainLevels hsetting hnot)
    · rw [hsetting] at hfalsy
      rw [if_neg (Bool.not_eq_true _ ▸ hfalsy)]
      exact nofun
  · exact nofun

theorem setHttpIdleTimeoutMs_ne_raised {timeout : Option ℤ}
    (haccepts : (timeout.any fun timeout => decide (0 ≤ timeout)) = true) :
    setHttpIdleTimeoutMs timeout ≠ .raised := by
  cases timeout with
  | none => cases haccepts
  | some timeout =>
    have hnonneg : 0 ≤ timeout := of_decide_eq_true haccepts
    rw [setHttpIdleTimeoutMs, ofFloor, if_neg hnonneg.not_gt]
    exact nofun

theorem outcome_ne_raised (haccepts : setter.accepts = true) (hfits : setter.fits initial = true)
    (hlevels : LevelsKept initial settings) : setter.outcome settings ≠ .raised := by
  cases setter
  case modelThinkingLevel provider modelId level =>
    exact setModelThinkingLevel_ne_raised (hlevels.plain hfits)
  case removedModelThinkingLevel provider modelId =>
    refine removeModelThinkingLevel_ne_raised ?_
    rcases (Bool.or_eq_true _ _).mp hfits with hplain | hfalsy
    · exact .inl (hlevels.plain hplain)
    · rcases hlevels with hsame | ⟨-, hplain⟩
      · rw [hsame]
        exact .inr ((Bool.not_eq_true' _).mp hfalsy)
      · exact .inl hplain
  case httpIdleTimeoutMs timeout => exact setHttpIdleTimeoutMs_ne_raised haccepts
  case deviceId fresh =>
    rw [Setter.outcome, getOrCreateDeviceId]
    split <;> exact (fun h => by cases h)
  case fullscreenWheelScrollLines lines =>
    cases lines with
    | auto => exact (fun h => by cases h)
    | lines floor => exact ofFloor_ne_raised haccepts (fun _ h => by cases h)
  case quietStartup quiet => cases quiet <;> exact (fun h => by cases h)
  case imageWidthCells width => exact ofFloor_ne_raised haccepts (fun _ h => by cases h)
  case editorPaddingX padding => exact ofFloor_ne_raised haccepts (fun _ h => by cases h)
  case autocompleteMaxVisible maxVisible => exact ofFloor_ne_raised haccepts (fun _ h => by cases h)
  all_goals exact (fun h => by cases h)

theorem Setter.project_ne_raised (hscope : setter.scope = .project) :
    setter.outcome settings ≠ .raised := by
  cases setter <;> cases hscope <;> exact nofun

theorem names_of_ofFloor
    (houtcome : ∀ n, outcome n = .changed change → "modelThinkingLevels" ∉ change.names)
    (h : ofFloor floor outcome = .changed change) : "modelThinkingLevels" ∉ change.names := by
  cases floor with
  | none => cases h
  | some n => exact houtcome n h

theorem names_of_setField (hfield : "modelThinkingLevels" ≠ field)
    (h : setField field setting = .changed change) : "modelThinkingLevels" ∉ change.names := by
  cases h
  exact fun hmem => hfield (List.mem_singleton.mp hmem)

theorem names_of_setNestedField {key : String} {value : Value}
    (hfield : "modelThinkingLevels" ≠ field)
    (h : setNestedField field key value = .changed change) :
    "modelThinkingLevels" ∉ change.names := by
  cases h
  exact fun hmem => hfield (List.mem_singleton.mp hmem)

theorem setter_of_names (h : setter.outcome settings = .changed change)
    (hname : "modelThinkingLevels" ∈ change.names) :
    (∃ provider modelId level, setter = .modelThinkingLevel provider modelId level) ∨
      ∃ provider modelId, setter = .removedModelThinkingLevel provider modelId := by
  cases setter
  case modelThinkingLevel provider modelId level => exact .inl ⟨provider, modelId, level, rfl⟩
  case removedModelThinkingLevel provider modelId => exact .inr ⟨provider, modelId, rfl⟩
  all_goals refine absurd hname ?_
  case defaultModelAndProvider provider modelId =>
    cases h
    exact show "modelThinkingLevels" ∉ ["defaultProvider", "defaultModel"] by decide
  case httpIdleTimeoutMs timeout =>
    refine names_of_ofFloor (fun n hn => ?_) h
    split at hn
    · cases hn
    · exact names_of_setField (by decide) hn
  case quietStartup quiet => cases quiet <;> exact names_of_setField (by decide) h
  case deviceId fresh =>
    rw [Setter.outcome, getOrCreateDeviceId] at h
    split at h
    · cases h
    · exact names_of_setField (by decide) h
  case fullscreenWheelScrollLines lines =>
    cases lines with
    | auto => exact names_of_setField (by decide) h
    | lines floor => exact names_of_ofFloor (fun _ hn => names_of_setField (by decide) hn) h
  case imageWidthCells width =>
    exact names_of_ofFloor (fun _ hn => names_of_setNestedField (by decide) hn) h
  case editorPaddingX padding =>
    exact names_of_ofFloor (fun _ hn => names_of_setField (by decide) hn) h
  case autocompleteMaxVisible maxVisible =>
    exact names_of_ofFloor (fun _ hn => names_of_setField (by decide) hn) h
  case compactionEnabled => exact names_of_setNestedField (by decide) h
  case retryEnabled => exact names_of_setNestedField (by decide) h
  case showImages => exact names_of_setNestedField (by decide) h
  case clearOnShrink => exact names_of_setNestedField (by decide) h
  case showTerminalProgress => exact names_of_setNestedField (by decide) h
  case imageAutoResize => exact names_of_setNestedField (by decide) h
  case blockImages => exact names_of_setNestedField (by decide) h
  all_goals exact names_of_setField (by decide) h

theorem setModelThinkingLevel_eq
    (h : setModelThinkingLevel settings provider modelId level = .changed change) :
    ∃ overrides, change = .fields [("modelThinkingLevels", .object overrides)] := by
  unfold setModelThinkingLevel at h
  split at h <;> cases h <;> exact ⟨_, rfl⟩

theorem removeModelThinkingLevel_eq
    (hdrops : (Setter.removedModelThinkingLevel provider modelId).dropsLast settings = false)
    (h : removeModelThinkingLevel settings provider modelId = .changed change) :
    plainLevels settings = true ∧
      ∃ overrides, change = .fields [("modelThinkingLevels", .object overrides)] := by
  unfold removeModelThinkingLevel at h
  split at h
  · rename_i overrides hsetting
    refine ⟨by rw [plainLevels, hsetting]; rfl, ?_⟩
    split at h
    · cases h
    · rename_i hempty
      split at h
      · rename_i hlast
        rw [Bool.not_eq_true] at hempty
        simp only [Setter.dropsLast, hsetting, hempty, hlast] at hdrops
        cases hdrops
      · cases h
        exact ⟨_, rfl⟩
  · split at h <;> cases h
  · cases h

theorem levels_of_outcome (hdrops : setter.dropsLast settings = false)
    (hfits : setter.fits initial = true) (hlevels : LevelsKept initial settings)
    (h : setter.outcome settings = .changed change) (hname : "modelThinkingLevels" ∈ change.names) :
    plainLevels initial = true ∧
      ∃ overrides, change = .fields [("modelThinkingLevels", .object overrides)] := by
  rcases setter_of_names h hname with ⟨provider, modelId, level, rfl⟩ | ⟨provider, modelId, rfl⟩
  · exact ⟨hfits, setModelThinkingLevel_eq h⟩
  · obtain ⟨hplain, hoverrides⟩ := removeModelThinkingLevel_eq hdrops h
    exact ⟨hlevels.plain_initial hplain, hoverrides⟩

theorem levelsKept_apply (hdrops : setter.dropsLast settings = false)
    (hfits : setter.fits initial = true) (hlevels : LevelsKept initial settings)
    (h : setter.outcome settings = .changed change) :
    LevelsKept initial (change.apply settings) := by
  by_cases hname : "modelThinkingLevels" ∈ change.names
  · obtain ⟨hinitial, overrides, rfl⟩ := levels_of_outcome hdrops hfits hlevels h hname
    exact .inr ⟨hinitial, plainLevels_insert⟩
  · unfold LevelsKept plainLevels
    rw [get?_apply hname]
    exact hlevels

theorem not_dropped (hdrops : setter.dropsLast settings = false)
    (hfits : setter.fits initial = true) (hlevels : LevelsKept initial settings)
    (h : setter.outcome settings = .changed change) : ∀ field, change ≠ .dropped field := by
  rintro field rfl
  have hfield : field = "modelThinkingLevels" := Setter.valid h
  have hname : "modelThinkingLevels" ∈ (Change.dropped field).names := by
    rw [hfield]
    exact List.mem_singleton_self _
  obtain ⟨-, overrides, heq⟩ := levels_of_outcome hdrops hfits hlevels h hname
  cases heq

end Levels

end Pidrei.Settings
