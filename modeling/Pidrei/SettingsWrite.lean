import Pidrei.SettingsMigration

/-!
What a write puts into a settings file. A write carries the settings of its scope and
the marks of that moment; a marked field is taken from the settings, as a whole or by
its marked keys, and everything else is what the file holds.
-/
namespace Pidrei.Settings

open Values

/-- `_modified_fields` and `_modified_nested_fields` of a scope. -/
structure Marks where
  fields : List String
  nested : List (String × String)

namespace Marks

def empty : Marks := ⟨[], []⟩

/-- `_mark_modified`, and `_mark_project_modified` alike. -/
def mark (marks : Marks) (field : String) (key : Option String) : Marks where
  fields := marks.fields.insert field
  nested := match key with
    | some key => marks.nested.insert (field, key)
    | none => marks.nested

def keys (marks : Marks) (field : String) : List String :=
  (marks.nested.filter fun entry => entry.1 = field).map Prod.snd

theorem mem_keys {marks : Marks} {field key : String} :
    key ∈ marks.keys field ↔ (field, key) ∈ marks.nested := by
  simp [keys]

end Marks

/-- A write that waits in the queue: what `_persist_fn` closes over. -/
structure Write where
  snapshot : Dict
  marks : Marks

namespace Write

def mergedNested (value : Fields) (keys : List String) (base : Option Setting) : Fields :=
  keys.foldl (fun merged key => merged.insert key (value[key]?.getD .null))
    ((base.bind Setting.object?).getD ∅)

def written (write : Write) (file : Dict) (field : String) : Setting :=
  match write.snapshot[field]?, write.marks.keys field with
  | some (.object value), key :: keys => .object (mergedNested value (key :: keys) file[field]?)
  | setting, _ => setting.getD .null

def merge (write : Write) (file : Dict) : Dict :=
  write.marks.fields.foldl (fun merged field => merged.insert field (write.written file field)) file

/-- `persist` of `_persist_fn`, from the content of the file to its new content. -/
def persist (write : Write) (current : Option Dict) : Dict := write.merge (parseSettings current)

end Write

/-- The fields that setters write by key. -/
def nestedFields : List String := ["compaction", "retry", "terminal", "images"]

/-- The place a setter sets: a field, or a key of a nested field. -/
inductive Slot
  | field (name : String)
  | key (name key : String)

inductive Held
  | setting (setting : Setting)
  | value (value : Value)

/-- `settings.get(field)`, or `get(key)` of the object there. -/
def held (settings : Dict) : Slot → Held
  | .field name => .setting (settings[name]?.getD .null)
  | .key name key => .value (((settings[name]?.bind Setting.object?).getD ∅)[key]?.getD .null)

/-- Nested fields are set by key only, the others as a whole only. -/
def Slot.Settable : Slot → Prop
  | .field name => name ∉ nestedFields
  | .key name _ => name ∈ nestedFields

instance (slot : Slot) : Decidable slot.Settable := by
  cases slot <;> unfold Slot.Settable <;> infer_instance

def Marks.Covers (marks : Marks) : Slot → Prop
  | .field name => name ∈ marks.fields
  | .key name key => key ∈ marks.keys name

instance (marks : Marks) (slot : Slot) : Decidable (marks.Covers slot) := by
  cases slot <;> unfold Marks.Covers <;> infer_instance

def Marks.slots (marks : Marks) : List Slot :=
  marks.fields.map .field ++ marks.nested.map fun entry => .key entry.1 entry.2

theorem mem_slots {marks : Marks} {slot : Slot} : slot ∈ marks.slots ↔ marks.Covers slot := by
  cases slot with
  | field name => simp [Marks.slots, Marks.Covers]
  | key name key => simp [Marks.slots, Marks.Covers, Marks.mem_keys]

section Merge

variable {β : Type}

theorem get?_foldl_insert (f : String → β) (keys : List String) (d : Std.ExtTreeMap String β)
    (a : String) :
    (keys.foldl (fun merged key => merged.insert key (f key)) d)[a]? =
      if a ∈ keys then some (f a) else d[a]? := by
  induction keys generalizing d with
  | nil => simp
  | cons key keys ih =>
    rw [List.foldl_cons, ih, get?_insert]
    by_cases hmem : a ∈ keys
    · rw [if_pos hmem, if_pos (List.mem_cons_of_mem _ hmem)]
    · by_cases heq : key = a
      · rw [if_neg hmem, if_pos heq, if_pos (heq ▸ List.mem_cons_self), heq]
      · have hcons : a ∉ key :: keys := by
          rintro (_ | ⟨_, hin⟩)
          · exact heq rfl
          · exact hmem hin
        rw [if_neg hmem, if_neg heq, if_neg hcons]

/-- Marks as the setters leave them: nested fields are marked by key, the others are not, and
none is one that the migration looks for. -/
structure Marks.Proper (marks : Marks) : Prop where
  name : ∀ field ∈ marks.fields,
    field ≠ "queueMode" ∧ field ≠ "enableInstallTelemetry" ∧ field ≠ "websockets"
  kind : ∀ field ∈ marks.fields, field ∈ nestedFields ↔ marks.keys field ≠ []
  closed : ∀ field key, key ∈ marks.keys field → field ∈ marks.fields
  retry : "maxDelayMs" ∉ marks.keys "retry"

/-- A write as the setters leave it. -/
structure Write.Proper (write : Write) : Prop where
  migrated : Migrated write.snapshot
  marks : write.marks.Proper
  object : ∀ field, write.marks.keys field ≠ [] →
    ∃ value, write.snapshot[field]? = some (.object value)

variable {write : Write} {file : Dict} {field : String} {slot : Slot}

theorem get?_merge (write : Write) (file : Dict) (field : String) :
    (write.merge file)[field]? =
      if field ∈ write.marks.fields then some (write.written file field) else file[field]? :=
  get?_foldl_insert _ _ _ _

theorem written_of_keys_nil (hkeys : write.marks.keys field = []) :
    write.written file field = write.snapshot[field]?.getD .null := by
  unfold Write.written
  rw [hkeys]
  cases write.snapshot[field]? with
  | none => rfl
  | some setting => cases setting <;> rfl

theorem written_of_object {value : Fields} (hkeys : write.marks.keys field ≠ [])
    (hvalue : write.snapshot[field]? = some (.object value)) :
    write.written file field =
      .object (Write.mergedNested value (write.marks.keys field) file[field]?) := by
  unfold Write.written
  rw [hvalue]
  cases hcases : write.marks.keys field with
  | nil => exact absurd hcases hkeys
  | cons key keys => rfl

theorem get?_mergedNested (value : Fields) (keys : List String) (base : Option Setting)
    (key : String) :
    (Write.mergedNested value keys base)[key]? =
      if key ∈ keys then some (value[key]?.getD .null)
      else ((base.bind Setting.object?).getD ∅)[key]? :=
  get?_foldl_insert _ _ _ _

theorem Write.Proper.keys_nil (hwrite : write.Proper) (hfield : field ∈ write.marks.fields)
    (hkind : field ∉ nestedFields) : write.marks.keys field = [] :=
  not_not.mp fun hne => hkind ((hwrite.marks.kind field hfield).mpr hne)

theorem Write.Proper.object_merge (hwrite : write.Proper) (file : Dict)
    (hfield : field ∈ write.marks.fields) (hkind : field ∈ nestedFields) :
    ∃ value, write.snapshot[field]? = some (.object value) ∧
      ((write.merge file)[field]?.bind Setting.object?).getD ∅ =
        Write.mergedNested value (write.marks.keys field) file[field]? := by
  have hkeys := (hwrite.marks.kind field hfield).mp hkind
  obtain ⟨value, hvalue⟩ := hwrite.object field hkeys
  refine ⟨value, hvalue, ?_⟩
  rw [get?_merge, if_pos hfield, written_of_object hkeys hvalue]
  rfl

theorem Write.Proper.modern (hwrite : write.Proper) (hfile : Migrated file)
    (hfield : field ∈ write.marks.fields) : Modern field (write.written file field) := by
  refine ⟨hwrite.marks.name field hfield, ?_, ?_⟩
  · rintro rfl
    have hnot : "skills" ∉ nestedFields := by decide
    rw [written_of_keys_nil (hwrite.keys_nil hfield hnot)]
    cases hsetting : write.snapshot["skills"]? with
    | none => rfl
    | some setting =>
      cases setting with
      | object skills => exact absurd hsetting (hwrite.migrated.skills skills)
      | _ => rfl
  · rintro rfl fields hobject
    have hkeys := (hwrite.marks.kind _ hfield).mp (by decide)
    obtain ⟨value, hvalue⟩ := hwrite.object _ hkeys
    rw [written_of_object hkeys hvalue] at hobject
    cases hobject
    rw [get?_mergedNested, if_neg hwrite.marks.retry]
    cases hbase : file["retry"]? with
    | none => exact get?_empty _
    | some setting =>
      cases setting with
      | object retry => exact hfile.retry retry hbase
      | _ => exact get?_empty _

theorem Write.Proper.migrated_merge (hwrite : write.Proper) (hfile : Migrated file) :
    Migrated (write.merge file) := by
  have hfold : ∀ (fields : List String) (merged : Dict), (∀ field ∈ fields,
      Modern field (write.written file field)) → Migrated merged →
      Migrated (fields.foldl (fun merged field =>
        merged.insert field (write.written file field)) merged) := by
    intro fields
    induction fields with
    | nil => exact fun _ _ hmerged => hmerged
    | cons field fields ih =>
      intro merged hmodern hmerged
      exact ih _ (fun other hother => hmodern other (List.mem_cons_of_mem _ hother))
        (hmerged.insert (hmodern field List.mem_cons_self))
  exact hfold _ file (fun field hfield => hwrite.modern hfile hfield) hfile

theorem Write.Proper.parse_persist (hwrite : write.Proper) (current : Option Dict) :
    parseSettings (some (write.persist current)) = write.persist current :=
  (hwrite.migrated_merge (migrated_parseSettings current)).parseSettings_some

theorem held_merge_of_covers (hwrite : write.Proper) (hslot : slot.Settable)
    (hcovers : write.marks.Covers slot) :
    held (write.merge file) slot = held write.snapshot slot := by
  cases slot with
  | field name =>
    have hfield : name ∈ write.marks.fields := hcovers
    rw [held, held, get?_merge, if_pos hfield, written_of_keys_nil (hwrite.keys_nil hfield hslot)]
    rfl
  | key name key =>
    have hkey : key ∈ write.marks.keys name := hcovers
    have hfield := hwrite.marks.closed name key hkey
    obtain ⟨value, hvalue, hmerged⟩ := hwrite.object_merge file hfield hslot
    rw [held, held, hmerged, hvalue, get?_mergedNested, if_pos hkey]
    rfl

theorem held_merge_of_not_covers (hwrite : write.Proper) (hslot : slot.Settable)
    (hcovers : ¬ write.marks.Covers slot) : held (write.merge file) slot = held file slot := by
  cases slot with
  | field name =>
    have hfield : name ∉ write.marks.fields := hcovers
    rw [held, held, get?_merge, if_neg hfield]
  | key name key =>
    by_cases hfield : name ∈ write.marks.fields
    · have hkey : key ∉ write.marks.keys name := hcovers
      obtain ⟨value, -, hmerged⟩ := hwrite.object_merge file hfield hslot
      rw [held, held, hmerged, get?_mergedNested, if_neg hkey]
    · rw [held, held, get?_merge, if_neg hfield]

end Merge

end Pidrei.Settings
