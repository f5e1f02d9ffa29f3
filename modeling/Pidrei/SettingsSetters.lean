import Pidrei.SettingsWrite
import Mathlib.Algebra.Order.Ring.Int

/-!
The setters of the settings manager. A setter looks at the settings of its scope and
raises, does nothing, or changes some fields; a number given to a setter is known by
its floor, and by nothing when it is not finite.
-/
namespace Pidrei.Settings

open Values List

inductive Scope
  | global
  | project
  deriving DecidableEq

/-- The lines of a setter that run on the copy of the settings, and the marks they set. -/
inductive Change
  | fields (changes : List (String × Setting))
  | nested (field key : String) (value : Value)
  | dropped (field : String)

inductive Outcome
  | raised
  | unchanged
  | changed (change : Change)

namespace Change

/-- `settings[field][key] = value`, with an empty dict first where there is none. -/
def setNested (settings : Dict) (field key : String) (value : Value) : Dict :=
  settings.insert field
    (.object (((settings[field]?.bind Setting.object?).getD ∅).insert key value))

def apply (settings : Dict) : Change → Dict
  | .fields changes => changes.foldl (fun settings change => settings.insert change.1 change.2) settings
  | .nested field key value => setNested settings field key value
  | .dropped field => settings.erase field

def mark (marks : Marks) : Change → Marks
  | .fields changes => changes.foldl (fun marks change => marks.mark change.1 none) marks
  | .nested field key _ => marks.mark field (some key)
  | .dropped field => marks.mark field none

end Change

/-- Python's truth of a value. -/
def Setting.truthy : Setting → Bool
  | .null => false
  | .bool b => b
  | .num (.int n) => n ≠ 0
  | .num (.float bits) => bits ≠ 0 && bits ≠ 0x8000000000000000
  | .str s => s ≠ ""
  | .list items => !items.isEmpty
  | .object fields => !fields.isEmpty

/-- `_set_global`, and the updates of the project setters alike. -/
def setField (field : String) (setting : Setting) : Outcome := .changed (.fields [(field, setting)])

/-- `_set_global_nested` -/
def setNestedField (field key : String) (value : Value) : Outcome :=
  .changed (.nested field key value)

/-- A setter of a floored number, which raises for a number that has no floor. -/
def ofFloor (floor : Option ℤ) (outcome : ℤ → Outcome) : Outcome :=
  match floor with
  | some floor => outcome floor
  | none => .raised

def levelKey (provider modelId : String) : String := provider ++ "/" ++ modelId

def setModelThinkingLevel (settings : Dict) (provider modelId level : String) : Outcome :=
  match settings["modelThinkingLevels"]? with
  | none => setField "modelThinkingLevels" (.object ((∅ : Fields).insert (levelKey provider modelId) (.str level)))
  | some (.object overrides) =>
    setField "modelThinkingLevels" (.object (overrides.insert (levelKey provider modelId) (.str level)))
  | some _ => .raised

def removeModelThinkingLevel (settings : Dict) (provider modelId : String) : Outcome :=
  match settings["modelThinkingLevels"]? with
  | some (.object overrides) =>
    if overrides.isEmpty then .unchanged
    else if (overrides.erase (levelKey provider modelId)).isEmpty then
      .changed (.dropped "modelThinkingLevels")
    else setField "modelThinkingLevels" (.object (overrides.erase (levelKey provider modelId)))
  | some setting => if setting.truthy then .raised else .unchanged
  | none => .unchanged

/-- `fresh` is the new `uuid4`. -/
def getOrCreateDeviceId (settings : Dict) (fresh : String) : Outcome :=
  if (settings["deviceId"]?.getD .null).truthy then .unchanged else setField "deviceId" (.str fresh)

def setHttpIdleTimeoutMs (timeout : Option ℤ) : Outcome :=
  ofFloor timeout fun timeout =>
    if timeout < 0 then .raised else setField "httpIdleTimeoutMs" (.num (.int timeout))

def int (n : ℤ) : Setting := .num (.int n)

def strings (items : List String) : Setting := .list (items.map .str)

def optional (value : Option String) : Setting := value.elim .null .str

inductive QuietStartup
  | bool (quiet : Bool)
  | header

inductive WheelScrollLines
  | auto
  | lines (floor : Option ℤ)

inductive Setter
  | lastChangelogVersion (version : String)
  | defaultProvider (provider : String)
  | defaultModel (modelId : String)
  | defaultModelAndProvider (provider modelId : String)
  | steeringMode (mode : String)
  | followUpMode (mode : String)
  | theme (name : String)
  | defaultThinkingLevel (level : String)
  | modelThinkingLevel (provider modelId level : String)
  | removedModelThinkingLevel (provider modelId : String)
  | transport (mode : String)
  | compactionEnabled (enabled : Bool)
  | retryEnabled (enabled : Bool)
  | httpIdleTimeoutMs (timeout : Option ℤ)
  | cacheWarmingMode (mode : String)
  | hideThinkingBlock (hide : Bool)
  | showCacheMissNotices (shown : Bool)
  | shellPath (path : Option String)
  | quietStartup (quiet : QuietStartup)
  | defaultProjectTrust (trust : String)
  | shellCommandPrefix (shellPrefix : Option String)
  | collapseChangelog (collapse : Bool)
  | enableProviderAttribution (enabled : Bool)
  | deviceId (fresh : String)
  | packages (items : List Value)
  | projectPackages (items : List Value)
  | extensionPaths (paths : List String)
  | projectExtensionPaths (paths : List String)
  | skillPaths (paths : List String)
  | projectSkillPaths (paths : List String)
  | promptTemplatePaths (paths : List String)
  | projectPromptTemplatePaths (paths : List String)
  | themePaths (paths : List String)
  | projectThemePaths (paths : List String)
  | enableSkillCommands (enabled : Bool)
  | showImages (shown : Bool)
  | imageWidthCells (width : Option ℤ)
  | clearOnShrink (enabled : Bool)
  | showTerminalProgress (enabled : Bool)
  | fullscreenExitOutput (output : String)
  | fullscreenScrollbar (mode : String)
  | fullscreenCopyOnSelect (enabled : Bool)
  | fullscreenWheelScrollLines (lines : WheelScrollLines)
  | imageAutoResize (enabled : Bool)
  | blockImages (blocked : Bool)
  | enabledModels (patterns : Option (List String))
  | doubleEscapeAction (action : String)
  | treeFilterMode (mode : String)
  | showHardwareCursor (enabled : Bool)
  | tuiMode (mode : String)
  | editorPaddingX (padding : Option ℤ)
  | outputPad (padding : ℤ)
  | autocompleteMaxVisible (maxVisible : Option ℤ)
  | warnings (items : List (String × Value))

namespace Setter

def scope : Setter → Scope
  | projectPackages _ | projectExtensionPaths _ | projectSkillPaths _
  | projectPromptTemplatePaths _ | projectThemePaths _ => .project
  | _ => .global

/-- What the call does to the settings of its scope. -/
def outcome (settings : Dict) : Setter → Outcome
  | lastChangelogVersion version => setField "lastChangelogVersion" (.str version)
  | defaultProvider provider => setField "defaultProvider" (.str provider)
  | defaultModel modelId => setField "defaultModel" (.str modelId)
  | defaultModelAndProvider provider modelId =>
    .changed (.fields [("defaultProvider", .str provider), ("defaultModel", .str modelId)])
  | steeringMode mode => setField "steeringMode" (.str mode)
  | followUpMode mode => setField "followUpMode" (.str mode)
  | theme name => setField "theme" (.str name)
  | defaultThinkingLevel level => setField "defaultThinkingLevel" (.str level)
  | modelThinkingLevel provider modelId level =>
    setModelThinkingLevel settings provider modelId level
  | removedModelThinkingLevel provider modelId => removeModelThinkingLevel settings provider modelId
  | transport mode => setField "transport" (.str mode)
  | compactionEnabled enabled => setNestedField "compaction" "enabled" (.bool enabled)
  | retryEnabled enabled => setNestedField "retry" "enabled" (.bool enabled)
  | httpIdleTimeoutMs timeout => setHttpIdleTimeoutMs timeout
  | cacheWarmingMode mode => setField "cacheWarming" (.str mode)
  | hideThinkingBlock hide => setField "hideThinkingBlock" (.bool hide)
  | showCacheMissNotices shown => setField "showCacheMissNotices" (.bool shown)
  | shellPath path => setField "shellPath" (optional path)
  | quietStartup (.bool quiet) => setField "quietStartup" (.bool quiet)
  | quietStartup .header => setField "quietStartup" (.str "header")
  | defaultProjectTrust trust => setField "defaultProjectTrust" (.str trust)
  | shellCommandPrefix shellPrefix => setField "shellCommandPrefix" (optional shellPrefix)
  | collapseChangelog collapse => setField "collapseChangelog" (.bool collapse)
  | enableProviderAttribution enabled => setField "enableProviderAttribution" (.bool enabled)
  | deviceId fresh => getOrCreateDeviceId settings fresh
  | packages items | projectPackages items => setField "packages" (.list items)
  | extensionPaths paths | projectExtensionPaths paths => setField "extensions" (strings paths)
  | skillPaths paths | projectSkillPaths paths => setField "skills" (strings paths)
  | promptTemplatePaths paths | projectPromptTemplatePaths paths =>
    setField "prompts" (strings paths)
  | themePaths paths | projectThemePaths paths => setField "themes" (strings paths)
  | enableSkillCommands enabled => setField "enableSkillCommands" (.bool enabled)
  | showImages shown => setNestedField "terminal" "showImages" (.bool shown)
  | imageWidthCells width =>
    ofFloor width fun width =>
      setNestedField "terminal" "imageWidthCells" (.num (.int (max 1 width)))
  | clearOnShrink enabled => setNestedField "terminal" "clearOnShrink" (.bool enabled)
  | showTerminalProgress enabled => setNestedField "terminal" "showTerminalProgress" (.bool enabled)
  | fullscreenExitOutput output => setField "fullscreenExitOutput" (.str output)
  | fullscreenScrollbar mode => setField "fullscreenScrollbar" (.str mode)
  | fullscreenCopyOnSelect enabled => setField "fullscreenCopyOnSelect" (.bool enabled)
  | fullscreenWheelScrollLines .auto => setField "fullscreenWheelScrollLines" (.str "auto")
  | fullscreenWheelScrollLines (.lines lines) =>
    ofFloor lines fun lines =>
      setField "fullscreenWheelScrollLines" (int (max 1 (min 100 lines)))
  | imageAutoResize enabled => setNestedField "images" "autoResize" (.bool enabled)
  | blockImages blocked => setNestedField "images" "blockImages" (.bool blocked)
  | enabledModels patterns => setField "enabledModels" (patterns.elim .null strings)
  | doubleEscapeAction action => setField "doubleEscapeAction" (.str action)
  | treeFilterMode mode => setField "treeFilterMode" (.str mode)
  | showHardwareCursor enabled => setField "showHardwareCursor" (.bool enabled)
  | tuiMode mode => setField "tuiMode" (.str mode)
  | editorPaddingX padding =>
    ofFloor padding fun padding => setField "editorPaddingX" (int (max 0 (min 3 padding)))
  | outputPad padding => setField "outputPad" (int padding)
  | autocompleteMaxVisible maxVisible =>
    ofFloor maxVisible fun maxVisible =>
      setField "autocompleteMaxVisible" (int (max 3 (min 20 maxVisible)))
  | warnings items => setField "warnings" (.object (.ofList items))

end Setter

section Changes

namespace Change

def Sets : Change → Slot → Prop
  | .fields changes, .field name => name ∈ changes.map Prod.fst
  | .nested _ _ _, .field _ => False
  | .dropped field, .field name => name = field
  | .nested field key _, .key name other => name = field ∧ other = key
  | .fields _, .key _ _ | .dropped _, .key _ _ => False

instance : (change : Change) → (slot : Slot) → Decidable (change.Sets slot)
  | .fields changes, .field name => inferInstanceAs (Decidable (name ∈ changes.map Prod.fst))
  | .dropped field, .field name => inferInstanceAs (Decidable (name = field))
  | .nested field key _, .key name other =>
    inferInstanceAs (Decidable (name = field ∧ other = key))
  | .nested _ _ _, .field _ | .fields _, .key _ _ | .dropped _, .key _ _ => .isFalse id

/-- A change as the setters make it. -/
def Valid : Change → Prop
  | .fields changes => ∀ change ∈ changes, change.1 ∉ nestedFields ∧ Modern change.1 change.2
  | .nested field key _ => field ∈ nestedFields ∧ key ≠ "maxDelayMs"
  | .dropped field => field = "modelThinkingLevels"

end Change

variable {change : Change} {settings : Dict} {field : String}

theorem modern_of_kind {setting : Setting} (hkind : field ∉ nestedFields)
    (hname : field ≠ "queueMode" ∧ field ≠ "enableInstallTelemetry" ∧ field ≠ "websockets")
    (hskills : field = "skills" → setting.object? = none) :
    field ∉ nestedFields ∧ Modern field setting := by
  refine ⟨hkind, hname, hskills, ?_⟩
  rintro rfl
  exact absurd hkind (by decide)

variable {setting : Setting} {key provider modelId : String} {setter : Setter}

theorem valid_of_setField (hkind : field ∉ nestedFields)
    (hname : field ≠ "queueMode" ∧ field ≠ "enableInstallTelemetry" ∧ field ≠ "websockets")
    (hskills : field = "skills" → setting.object? = none)
    (h : setField field setting = .changed change) : change.Valid := by
  cases h
  intro entry hentry
  rw [mem_singleton.mp hentry]
  exact modern_of_kind hkind hname hskills

theorem valid_of_setNestedField {value : Value} (hkind : field ∈ nestedFields)
    (hkey : key ≠ "maxDelayMs") (h : setNestedField field key value = .changed change) :
    change.Valid := by
  cases h
  exact ⟨hkind, hkey⟩

theorem valid_of_ofFloor {floor : Option ℤ} {outcome : ℤ → Outcome}
    (houtcome : ∀ floor, outcome floor = .changed change → change.Valid)
    (h : ofFloor floor outcome = .changed change) : change.Valid := by
  cases floor with
  | none => cases h
  | some floor => exact houtcome floor h

theorem valid_of_setLevels (h : setField "modelThinkingLevels" setting = .changed change) :
    change.Valid :=
  valid_of_setField (by decide) (by decide) (fun hskills => absurd hskills (by decide)) h

theorem valid_of_setModelThinkingLevel {level : String}
    (h : setModelThinkingLevel settings provider modelId level = .changed change) :
    change.Valid := by
  unfold setModelThinkingLevel at h
  split at h
  · exact valid_of_setLevels h
  · exact valid_of_setLevels h
  · cases h

theorem valid_of_removeModelThinkingLevel
    (h : removeModelThinkingLevel settings provider modelId = .changed change) : change.Valid := by
  unfold removeModelThinkingLevel at h
  split at h
  · split at h
    · cases h
    · split at h
      · cases h
        rfl
      · exact valid_of_setLevels h
  · split at h <;> cases h
  · cases h

theorem Setter.valid (h : setter.outcome settings = .changed change) : change.Valid := by
  cases setter
  case defaultModelAndProvider provider modelId =>
    cases h
    have hprovider := @modern_of_kind "defaultProvider" (.str provider) (by decide) (by decide)
      fun _ => rfl
    have hmodel := @modern_of_kind "defaultModel" (.str modelId) (by decide) (by decide)
      fun _ => rfl
    rintro entry (_ | ⟨_, _ | ⟨_, ⟨⟩⟩⟩)
    · exact hprovider
    · exact hmodel
  case modelThinkingLevel provider modelId level => exact valid_of_setModelThinkingLevel h
  case removedModelThinkingLevel provider modelId => exact valid_of_removeModelThinkingLevel h
  case httpIdleTimeoutMs timeout =>
    refine valid_of_ofFloor (fun floor hfloor => ?_) h
    split at hfloor
    · cases hfloor
    · exact valid_of_setField (by decide) (by decide) (fun _ => rfl) hfloor
  case quietStartup quiet =>
    cases quiet <;> exact valid_of_setField (by decide) (by decide) (fun _ => rfl) h
  case deviceId fresh =>
    rw [Setter.outcome, getOrCreateDeviceId] at h
    split at h
    · cases h
    · exact valid_of_setField (by decide) (by decide) (fun _ => rfl) h
  case fullscreenWheelScrollLines lines =>
    cases lines with
    | auto => exact valid_of_setField (by decide) (by decide) (fun _ => rfl) h
    | lines floor =>
      exact valid_of_ofFloor (fun _ hfloor =>
        valid_of_setField (by decide) (by decide) (fun _ => rfl) hfloor) h
  case imageWidthCells width =>
    exact valid_of_ofFloor (fun _ hfloor =>
      valid_of_setNestedField (by decide) (by decide) hfloor) h
  case editorPaddingX padding =>
    exact valid_of_ofFloor (fun _ hfloor =>
      valid_of_setField (by decide) (by decide) (fun _ => rfl) hfloor) h
  case autocompleteMaxVisible maxVisible =>
    exact valid_of_ofFloor (fun _ hfloor =>
      valid_of_setField (by decide) (by decide) (fun _ => rfl) hfloor) h
  case compactionEnabled => exact valid_of_setNestedField (by decide) (by decide) h
  case retryEnabled => exact valid_of_setNestedField (by decide) (by decide) h
  case showImages => exact valid_of_setNestedField (by decide) (by decide) h
  case clearOnShrink => exact valid_of_setNestedField (by decide) (by decide) h
  case showTerminalProgress => exact valid_of_setNestedField (by decide) (by decide) h
  case imageAutoResize => exact valid_of_setNestedField (by decide) (by decide) h
  case blockImages => exact valid_of_setNestedField (by decide) (by decide) h
  case skillPaths paths => exact valid_of_setField (by decide) (by decide) (fun _ => rfl) h
  case projectSkillPaths paths => exact valid_of_setField (by decide) (by decide) (fun _ => rfl) h
  all_goals
    exact valid_of_setField (by decide) (by decide) (fun hskills => absurd hskills (by decide)) h

theorem Setter.not_sets_key {name : String} (hscope : setter.scope = .project)
    (h : setter.outcome settings = .changed change) : ¬ change.Sets (.key name key) := by
  cases setter <;> cases hscope <;> cases h <;> exact id

end Changes

section Marking

variable {change : Change} {settings : Dict} {marks : Marks} {field name key other : String}
  {slot : Slot}

@[simp] theorem mem_fields_mark {key : Option String} :
    name ∈ (marks.mark field key).fields ↔ name = field ∨ name ∈ marks.fields :=
  mem_insert_iff

@[simp] theorem keys_mark_none : (marks.mark field none).keys = marks.keys := rfl

@[simp] theorem mem_keys_mark_some : other ∈ (marks.mark field (some key)).keys name ↔
    name = field ∧ other = key ∨ other ∈ marks.keys name := by
  rw [Marks.mem_keys, Marks.mem_keys, Marks.mark]
  simp only [mem_insert_iff, Prod.mk.injEq]

theorem get?_setNested (value : Value) : (Change.setNested settings field key value)[field]? =
    some (.object (((settings[field]?.bind Setting.object?).getD ∅).insert key value)) := by
  rw [Change.setNested, get?_insert, if_pos rfl]

/-- The fields a change touches. -/
def Change.names : Change → List String
  | .fields changes => changes.map Prod.fst
  | .nested field _ _ => [field]
  | .dropped field => [field]

theorem get?_apply (hname : name ∉ change.names) : (change.apply settings)[name]? = settings[name]? := by
  cases change with
  | fields changes =>
    rw [Change.apply]
    induction changes generalizing settings with
    | nil => rfl
    | cons entry changes ih =>
      rw [Change.names, map_cons, mem_cons, not_or] at hname
      rw [foldl_cons, ih hname.2, get?_insert, if_neg fun h => hname.1 h.symm]
  | nested field key value =>
    rw [Change.apply, Change.setNested, get?_insert,
      if_neg fun h => hname (mem_singleton.mpr h.symm)]
  | dropped field =>
    rw [Change.apply, get?_erase, if_neg fun h => hname (mem_singleton.mpr h.symm)]

theorem mem_fields_mark_change :
    name ∈ (change.mark marks).fields ↔ name ∈ change.names ∨ name ∈ marks.fields := by
  cases change with
  | fields changes =>
    rw [Change.mark, Change.names]
    induction changes generalizing marks with
    | nil => simp
    | cons entry changes ih =>
      rw [foldl_cons, ih, mem_fields_mark, map_cons, mem_cons]
      tauto
  | nested | dropped => rw [Change.mark, mem_fields_mark, Change.names, mem_singleton]

theorem mem_keys_mark_change : key ∈ (change.mark marks).keys name ↔
    change.Sets (.key name key) ∨ key ∈ marks.keys name := by
  cases change with
  | fields changes =>
    rw [Change.mark, Change.Sets, false_or]
    induction changes generalizing marks with
    | nil => rfl
    | cons entry changes ih => rw [foldl_cons, ih, keys_mark_none]
  | nested field key value => rw [Change.mark, mem_keys_mark_some, Change.Sets]
  | dropped field => rw [Change.mark, keys_mark_none, Change.Sets, false_or]

theorem covers_mark (hvalid : change.Valid) (hslot : slot.Settable) :
    (change.mark marks).Covers slot ↔ change.Sets slot ∨ marks.Covers slot := by
  cases slot with
  | key name key => exact mem_keys_mark_change
  | field name =>
    rw [Marks.Covers, mem_fields_mark_change, Marks.Covers]
    refine or_congr_left ?_
    cases change with
    | fields changes => rfl
    | nested field key value =>
      rw [Change.names, mem_singleton, Change.Sets, iff_false]
      rintro rfl
      exact hslot hvalid.1
    | dropped field => rw [Change.names, mem_singleton, Change.Sets]

theorem held_insert {setting : Setting} :
    held (settings.insert name setting) (.field name) = .setting setting := by
  rw [held, get?_insert, if_pos rfl]
  rfl

theorem nested_of_keys (hvalid : change.Valid) (hkind : name ∈ nestedFields)
    (hname : name ∈ change.names) : ∃ key value, change = .nested name key value := by
  cases change with
  | fields changes =>
    obtain ⟨entry, hentry, rfl⟩ := mem_map.mp hname
    exact absurd hkind (hvalid entry hentry).1
  | nested field key value =>
    obtain rfl : name = field := mem_singleton.mp hname
    exact ⟨key, value, rfl⟩
  | dropped field =>
    obtain rfl : name = field := mem_singleton.mp hname
    rw [show name = "modelThinkingLevels" from hvalid] at hkind
    exact absurd hkind (by decide)

theorem get?_object_apply (hvalid : change.Valid) (hkind : name ∈ nestedFields)
    (hsets : ¬ change.Sets (.key name key)) :
    (((change.apply settings)[name]?.bind Setting.object?).getD ∅)[key]? =
      ((settings[name]?.bind Setting.object?).getD ∅)[key]? := by
  by_cases hname : name ∈ change.names
  · obtain ⟨other, value, rfl⟩ := nested_of_keys hvalid hkind hname
    have hkey : other ≠ key := fun h => hsets ⟨rfl, h.symm⟩
    rw [Change.apply, get?_setNested]
    exact (get?_insert ..).trans (if_neg hkey)
  · rw [get?_apply hname]

theorem held_apply (hslot : slot.Settable) (hsets : ¬ change.Sets slot) (hvalid : change.Valid) :
    held (change.apply settings) slot = held settings slot := by
  cases slot with
  | field name =>
    have hname : name ∉ change.names := by
      cases change with
      | fields changes => exact hsets
      | nested field key value =>
        rintro (_ | ⟨_, ⟨⟩⟩)
        exact hslot hvalid.1
      | dropped field => exact fun h => hsets (mem_singleton.mp h)
    rw [held, held, get?_apply hname]
  | key name key =>
    rw [held, held, get?_object_apply hvalid hslot hsets]

theorem Migrated.fields {changes : List (String × Setting)} (h : Migrated settings)
    (hvalid : (Change.fields changes).Valid) : Migrated ((Change.fields changes).apply settings) := by
  rw [Change.apply]
  induction changes generalizing settings with
  | nil => exact h
  | cons entry changes ih =>
    exact ih (h.insert (hvalid entry mem_cons_self).2)
      fun other hother => hvalid other (mem_cons_of_mem _ hother)

theorem Migrated.modern_setNested {value : Value} (h : Migrated settings)
    (hfield : field ∈ nestedFields) (hkey : key ≠ "maxDelayMs") :
    Modern field (.object (((settings[field]?.bind Setting.object?).getD ∅).insert key value)) := by
  refine ⟨?_, ?_, ?_⟩
  · refine ⟨?_, ?_, ?_⟩ <;> rintro rfl <;> exact absurd hfield (by decide)
  · rintro rfl
    exact absurd hfield (by decide)
  · rintro rfl fields ⟨⟩
    rw [get?_insert, if_neg hkey]
    cases hretry : settings["retry"]? with
    | none => exact get?_empty _
    | some setting =>
      cases setting with
      | object retry => exact h.retry retry hretry
      | _ => exact get?_empty _

theorem Migrated.apply (h : Migrated settings) (hvalid : change.Valid) :
    Migrated (change.apply settings) := by
  cases change with
  | fields changes => exact h.fields hvalid
  | nested field key value => exact h.insert (h.modern_setNested hvalid.1 hvalid.2)
  | dropped field =>
    rw [show field = "modelThinkingLevels" from hvalid]
    exact h.erase (by decide) (by decide)

theorem Marks.proper_empty : Marks.empty.Proper :=
  ⟨fun _ h => (nomatch h), fun _ h => (nomatch h), fun _ _ h => (nomatch h), fun h => (nomatch h)⟩

theorem name_of_valid (hvalid : change.Valid) (hname : name ∈ change.names) :
    name ≠ "queueMode" ∧ name ≠ "enableInstallTelemetry" ∧ name ≠ "websockets" := by
  cases change with
  | fields changes =>
    obtain ⟨entry, hentry, rfl⟩ := mem_map.mp hname
    exact (hvalid entry hentry).2.name
  | nested field key value =>
    obtain rfl : name = field := mem_singleton.mp hname
    have hkind : name ∈ nestedFields := hvalid.1
    refine ⟨?_, ?_, ?_⟩ <;> rintro rfl <;> exact absurd hkind (by decide)
  | dropped field =>
    obtain rfl : name = field := mem_singleton.mp hname
    rw [show name = "modelThinkingLevels" from hvalid]
    decide

theorem kind_of_valid (hvalid : change.Valid) (hname : name ∈ change.names) :
    name ∈ nestedFields ↔ ∃ key, change.Sets (.key name key) := by
  cases change with
  | fields changes =>
    obtain ⟨entry, hentry, rfl⟩ := mem_map.mp hname
    exact ⟨fun hin => absurd hin (hvalid entry hentry).1, fun ⟨_, h⟩ => nomatch h⟩
  | nested field key value =>
    obtain rfl : name = field := mem_singleton.mp hname
    exact ⟨fun _ => ⟨key, rfl, rfl⟩, fun _ => hvalid.1⟩
  | dropped field =>
    obtain rfl : name = field := mem_singleton.mp hname
    rw [show name = "modelThinkingLevels" from hvalid]
    exact ⟨fun hin => absurd hin (by decide), fun ⟨_, h⟩ => nomatch h⟩

theorem names_of_sets_key (hsets : change.Sets (.key name key)) : name ∈ change.names := by
  cases change with
  | nested field _ _ => exact mem_singleton.mpr hsets.1
  | _ => cases hsets

theorem key_of_valid (hvalid : change.Valid) (hsets : change.Sets (.key name key)) :
    name ∈ nestedFields ∧ key ≠ "maxDelayMs" := by
  cases change with
  | nested field _ _ =>
    obtain ⟨rfl, rfl⟩ := hsets
    exact hvalid
  | _ => cases hsets

theorem exists_key_iff : marks.keys name ≠ [] ↔ ∃ key, key ∈ marks.keys name :=
  ⟨exists_mem_of_ne_nil _, fun ⟨_, hkey⟩ => ne_nil_of_mem hkey⟩

theorem keys_ne_nil : (change.mark marks).keys name ≠ [] ↔
    (∃ key, change.Sets (.key name key)) ∨ marks.keys name ≠ [] := by
  rw [exists_key_iff, exists_key_iff, ← exists_or]
  exact exists_congr fun _ => mem_keys_mark_change

theorem Marks.Proper.mark (h : marks.Proper) (hvalid : change.Valid) :
    (change.mark marks).Proper := by
  have hkeys : ∀ name, marks.keys name ≠ [] → name ∈ nestedFields := by
    intro name hne
    obtain ⟨key, hkey⟩ := exists_key_iff.mp hne
    exact (h.kind name (h.closed name key hkey)).mpr hne
  refine ⟨fun name hname => ?_, fun name hname => ?_, fun name key hkey => ?_, fun hkey => ?_⟩
  · rcases mem_fields_mark_change.mp hname with hnew | hold
    · exact name_of_valid hvalid hnew
    · exact h.name name hold
  · rw [keys_ne_nil]
    constructor
    · intro hin
      rcases mem_fields_mark_change.mp hname with hnew | hold
      · exact .inl ((kind_of_valid hvalid hnew).mp hin)
      · exact .inr ((h.kind name hold).mp hin)
    · rintro (⟨key, hsets⟩ | hne)
      · exact (key_of_valid hvalid hsets).1
      · exact hkeys name hne
  · rw [mem_fields_mark_change]
    rcases mem_keys_mark_change.mp hkey with hsets | hold
    · exact .inl (names_of_sets_key hsets)
    · exact .inr (h.closed name key hold)
  · rcases mem_keys_mark_change.mp hkey with hsets | hold
    · exact (key_of_valid hvalid hsets).2 rfl
    · exact h.retry hold

theorem Write.Proper.next (h : Write.Proper ⟨settings, marks⟩) (hvalid : change.Valid) :
    Write.Proper ⟨change.apply settings, change.mark marks⟩ := by
  refine ⟨h.migrated.apply hvalid, h.marks.mark hvalid, fun name hne => ?_⟩
  rcases keys_ne_nil.mp hne with ⟨key, hsets⟩ | hold
  · cases change with
    | nested field other value =>
      obtain ⟨rfl, rfl⟩ := hsets
      exact ⟨_, get?_setNested value⟩
    | _ => cases hsets
  · by_cases hname : name ∈ change.names
    · obtain ⟨key, hkey⟩ := exists_key_iff.mp hold
      have hin := (h.marks.kind name (h.marks.closed name key hkey)).mpr hold
      obtain ⟨other, hsets⟩ := (kind_of_valid hvalid hname).mp hin
      cases change with
      | nested field _ value =>
        obtain ⟨rfl, rfl⟩ := hsets
        exact ⟨_, get?_setNested value⟩
      | _ => cases hsets
    · obtain ⟨value, hvalue⟩ := h.object name hold
      exact ⟨value, (get?_apply hname).trans hvalue⟩

end Marking

end Pidrei.Settings
