import Pidrei.Library.Runs
import Pidrei.SettingsSetters

/-!
Processes that write one settings file. `with_lock_async` takes the lock before it
reads when it finds a file, and otherwise only before it writes. Between two calls on
the file system of one process the others make theirs.
-/
namespace Pidrei.SettingsProcesses

open Settings

abbrev SetterWrite := { write : Write // write.Proper }

/-- What a process does next in `with_lock_async`. -/
inductive Phase
  | idle
  /-- `path.exists()` -/
  | checking (write : SetterWrite)
  /-- `lock.acquire()`, before the file is read -/
  | locking (write : SetterWrite)
  /-- `path.read_text()` -/
  | reading (write : SetterWrite)
  /-- `lock.acquire()` with the content made of no file -/
  | lockingLate (write : SetterWrite)
  /-- `path.write_text()` of the content made of `seen` -/
  | writing (write : SetterWrite) (seen : Option Dict)
  | releasing

def Phase.holdsLock : Phase → Bool
  | reading _ | writing _ _ | releasing => true
  | _ => false

/-- About to write what was made of no file. -/
def Phase.sawNoFile : Phase → Bool
  | writing _ none => true
  | _ => false

variable {ι : Type}

/-- `log` has the writes that reached the file, in their order. -/
structure State (ι : Type) where
  phases : ι → Phase
  lock : Option ι
  file : Option Dict
  log : List SetterWrite

def start (ι : Type) (file : Option Dict) : State ι := ⟨fun _ => .idle, none, file, []⟩

inductive Action (ι : Type)
  | begin (process : ι) (write : SetterWrite)
  | advance (process : ι)
  | fail (process : ι)

section Operations

variable [DecidableEq ι]

def State.setPhase (s : State ι) (process : ι) (phase : Phase) : State ι :=
  { s with phases := Function.update s.phases process phase }

/-- The lock is exclusive: it is only taken when nobody has it. -/
def acquire (s : State ι) (process : ι) (next : Phase) : Option (State ι) :=
  match s.lock with
  | none => some ({ s with lock := some process }.setPhase process next)
  | some _ => none

def writeText (s : State ι) (process : ι) (write : SetterWrite) (seen : Option Dict) : State ι :=
  { s with file := some (write.val.persist seen), log := s.log ++ [write] }.setPhase process
    .releasing

def release (s : State ι) (process : ι) : State ι :=
  { s with lock := none }.setPhase process .idle

/-- `with_lock_async`, one call on the file system at a time. -/
def advance (s : State ι) (process : ι) : Option (State ι) :=
  match s.phases process with
  | .idle => none
  | .checking write =>
    some (s.setPhase process (if s.file.isSome then .locking write else .lockingLate write))
  | .locking write => acquire s process (.reading write)
  | .reading write => some (s.setPhase process (.writing write s.file))
  | .lockingLate write => acquire s process (.writing write none)
  | .writing write seen => some (writeText s process write seen)
  | .releasing => some (release s process)

/-- An exception leaves `with_lock_async` through `finally`. -/
def fail (s : State ι) (process : ι) : State ι :=
  if (s.phases process).holdsLock then release s process else s.setPhase process .idle

def step (s : State ι) : Action ι → Option (State ι)
  | .begin process write =>
    match s.phases process with
    | .idle => some (s.setPhase process (.checking write))
    | _ => none
  | .advance process => advance s process
  | .fail process => some (fail s process)

end Operations

/-- A process that found no file writes while there still is none. -/
def WritesFirst (s : State ι) : Action ι → Prop
  | .advance process => (s.phases process).sawNoFile → s.file.isNone
  | _ => True

def lastHeld (initial : Option Dict) (log : List SetterWrite) (slot : Slot) : Held :=
  log.foldl (fun value write =>
    if write.val.marks.Covers slot then held write.val.snapshot slot else value)
    (held (parseSettings initial) slot)

/-- Every slot of the file holds what was last written to it, and no field that was ever
written is gone. -/
def UpToDate (initial : Option Dict) (s : State ι) : Prop :=
  (∀ slot : Slot, slot.Settable →
      held (parseSettings s.file) slot = lastHeld initial s.log slot) ∧
    ∀ write ∈ s.log, ∀ field ∈ write.val.marks.fields, (parseSettings s.file)[field]? ≠ none

section Log

variable {initial : Option Dict} {s t : State ι} {process : ι} {phase : Phase}

/-- The writes so far, one after the other. -/
def replay (initial : Option Dict) (log : List SetterWrite) : Dict :=
  log.foldl (fun file write => write.val.merge file) (parseSettings initial)

theorem held_replay {slot : Slot} (hslot : slot.Settable) (log : List SetterWrite) :
    held (replay initial log) slot = lastHeld initial log slot := by
  induction log using List.reverseRecOn with
  | nil => rfl
  | append_singleton log write ih =>
    rw [replay, lastHeld, List.foldl_append, List.foldl_append, ← replay, ← lastHeld]
    change held (write.val.merge (replay initial log)) slot =
      if write.val.marks.Covers slot then held write.val.snapshot slot else lastHeld initial log slot
    by_cases hcovers : write.val.marks.Covers slot
    · rw [if_pos hcovers, held_merge_of_covers write.property hslot hcovers]
    · rw [if_neg hcovers, held_merge_of_not_covers write.property hslot hcovers, ih]

theorem get?_replay_ne_none (log : List SetterWrite) : ∀ write ∈ log,
    ∀ field ∈ write.val.marks.fields, (replay initial log)[field]? ≠ none := by
  induction log using List.reverseRecOn with
  | nil => exact nofun
  | append_singleton log last ih =>
    intro write hwrite field hfield
    rw [replay, List.foldl_append, ← replay]
    change (last.val.merge (replay initial log))[field]? ≠ none
    rw [get?_merge]
    split
    · exact Option.some_ne_none _
    · rename_i hlast
      rcases List.mem_append.mp hwrite with hbefore | hhere
      · exact ih write hbefore field hfield
      · rw [List.mem_singleton.mp hhere] at hfield
        exact absurd hfield hlast

/-- The lock is held by the process that is in its guarded part, what such a process has read
is still in the file, and the file is what the writes made of the first one. -/
structure Serial (initial : Option Dict) (s : State ι) : Prop where
  lock : ∀ p, (s.phases p).holdsLock → s.lock = some p
  seen : ∀ p write content, s.phases p = .writing write (some content) → s.file = some content
  file : parseSettings s.file = replay initial s.log

theorem Serial.upToDate (hs : Serial initial s) : UpToDate initial s := by
  refine ⟨fun slot hslot => ?_, ?_⟩
  · rw [hs.file]
    exact held_replay hslot s.log
  · rw [hs.file]
    exact get?_replay_ne_none s.log

variable [DecidableEq ι]

theorem phases_setPhase (s : State ι) (process p : ι) (phase : Phase) :
    (s.setPhase process phase).phases p = if p = process then phase else s.phases p :=
  Function.update_apply ..

theorem Serial.setPhase (hs : Serial initial s) (hphase : phase.holdsLock = false) :
    Serial initial (s.setPhase process phase) := by
  refine ⟨fun p hp => ?_, fun p write content hp => ?_, hs.file⟩
  · rw [phases_setPhase] at hp
    split at hp
    · rw [hphase] at hp
      cases hp
    · exact hs.lock p hp
  · rw [phases_setPhase] at hp
    split at hp
    · rw [hp] at hphase
      cases hphase
    · exact hs.seen p write content hp

theorem Serial.setPhase_of_lock (hs : Serial initial s) (hlock : s.lock = some process)
    (hseen : ∀ write content, phase = .writing write (some content) → s.file = some content) :
    Serial initial (s.setPhase process phase) := by
  refine ⟨fun p hp => ?_, fun p write content hp => ?_, hs.file⟩
  · rw [phases_setPhase] at hp
    split at hp
    · rename_i heq
      rw [heq]
      exact hlock
    · exact hs.lock p hp
  · rw [phases_setPhase] at hp
    split at hp
    · exact hseen write content hp
    · exact hs.seen p write content hp

theorem Serial.acquire {next : Phase} (hs : Serial initial s)
    (hnext : ∀ write content, next ≠ .writing write (some content))
    (h : acquire s process next = some t) : Serial initial t := by
  unfold SettingsProcesses.acquire at h
  split at h <;> cases h
  rename_i hfree
  have hnobody : Serial initial { s with lock := some process } := by
    refine ⟨fun p hp => ?_, hs.seen, hs.file⟩
    have hlock := hs.lock p hp
    rw [hfree] at hlock
    cases hlock
  exact hnobody.setPhase_of_lock rfl fun write content hw => absurd hw (hnext write content)

/-- Only one process has the lock, so the others have read nothing yet. -/
theorem Serial.writeText {write : SetterWrite} {seen : Option Dict} (hs : Serial initial s)
    (hphase : s.phases process = .writing write seen) (hseen : seen = s.file) :
    Serial initial (writeText s process write seen) := by
  have hlock : s.lock = some process := hs.lock process (by rw [hphase]; rfl)
  refine ⟨fun p hp => ?_, fun p other content hp => ?_, ?_⟩
  · rw [SettingsProcesses.writeText, phases_setPhase] at hp
    split at hp
    · rename_i heq
      rw [heq]
      exact hlock
    · exact hs.lock p hp
  · rw [SettingsProcesses.writeText, phases_setPhase] at hp
    split at hp
    · cases hp
    · rename_i hne
      have hother := hs.lock p (by rw [show s.phases p = _ from hp]; rfl)
      rw [hlock] at hother
      exact absurd (Option.some.inj hother).symm hne
  · change parseSettings (some (write.val.persist seen)) = replay initial (s.log ++ [write])
    rw [write.property.parse_persist, hseen, Write.persist, hs.file, replay, replay,
      List.foldl_append]
    rfl

theorem Serial.release (hs : Serial initial s) (hlock : s.lock = some process) :
    Serial initial (release s process) := by
  refine ⟨fun p hp => ?_, fun p write content hp => ?_, hs.file⟩
  · rw [SettingsProcesses.release, phases_setPhase] at hp
    split at hp
    · cases hp
    · rename_i hne
      have hother := hs.lock p hp
      rw [hlock] at hother
      exact absurd (Option.some.inj hother).symm hne
  · rw [SettingsProcesses.release, phases_setPhase] at hp
    split at hp
    · cases hp
    · exact hs.seen p write content hp

theorem Serial.advance (hs : Serial initial s) (hfirst : WritesFirst s (.advance process))
    (h : advance s process = some t) : Serial initial t := by
  unfold SettingsProcesses.advance at h
  split at h
  case h_1 => cases h
  case h_2 =>
    cases h
    refine hs.setPhase ?_
    split <;> rfl
  case h_3 => exact hs.acquire (by rintro _ _ ⟨⟩) h
  case h_4 hphase =>
    cases h
    refine hs.setPhase_of_lock (hs.lock process (by rw [hphase]; rfl)) fun write content hw => ?_
    exact (Phase.writing.inj hw).2
  case h_5 => exact hs.acquire (by rintro _ _ ⟨⟩) h
  case h_6 write seen hphase =>
    cases h
    refine hs.writeText hphase ?_
    cases seen with
    | none =>
      have hnone : s.file.isNone := hfirst (by rw [hphase]; rfl)
      exact (Option.isNone_iff_eq_none.mp hnone).symm
    | some content => exact (hs.seen process write content hphase).symm
  case h_7 hphase =>
    cases h
    exact hs.release (hs.lock process (by rw [hphase]; rfl))

theorem Serial.step {action : Action ι} (hs : Serial initial s) (hfirst : WritesFirst s action)
    (h : step s action = some t) : Serial initial t := by
  cases action with
  | begin process write =>
    rw [SettingsProcesses.step] at h
    split at h <;> cases h
    exact hs.setPhase rfl
  | advance process => exact hs.advance hfirst h
  | fail process =>
    cases h
    unfold fail
    split
    · rename_i hlock
      exact hs.release (hs.lock process hlock)
    · exact hs.setPhase rfl

/-- In every run in which a process that found no file writes while there is none, the file
has the last value of everything that was written. -/
theorem upToDate_of_reaches (initial : Option Dict)
    (h : Runs.Reaches step WritesFirst (start ι initial) s) : UpToDate initial s := by
  have hstart : Serial initial (start ι initial) :=
    ⟨fun _ hp => absurd hp Bool.false_ne_true, fun _ _ _ hp => (nomatch hp), rfl⟩
  exact (h.kept hstart fun _ _ _ hs hfirst => hs.step hfirst).upToDate

end Log

def fieldWrite (field value : String) (hkind : field ∉ nestedFields)
    (hname : field ≠ "queueMode" ∧ field ≠ "enableInstallTelemetry" ∧ field ≠ "websockets") :
    SetterWrite where
  val := ⟨(∅ : Dict).insert field (.str value), ⟨[field], []⟩⟩
  property := by
    have hvalid : (Change.fields [(field, .str value)]).Valid := by
      intro entry hentry
      rw [List.mem_singleton.mp hentry]
      exact modern_of_kind hkind hname fun _ => rfl
    have hproper : Write.Proper ⟨∅, Marks.empty⟩ :=
      ⟨migrated_empty, Marks.proper_empty, fun _ hne => absurd rfl hne⟩
    exact hproper.next hvalid

def themeWrite : SetterWrite := fieldWrite "theme" "light" (by decide) (by decide)

def modelWrite : SetterWrite := fieldWrite "defaultModel" "m" (by decide) (by decide)

instance (s : State ι) : (action : Action ι) → Decidable (WritesFirst s action)
  | .advance process =>
    inferInstanceAs (Decidable ((s.phases process).sawNoFile → s.file.isNone))
  | .begin _ _ | .fail _ => .isTrue trivial

/-- The second process reads what the first one wrote. -/
theorem upToDate_in_turn :
    ∃ s : State Bool, Runs.Reaches step WritesFirst (start Bool none) s ∧
      s.log = [themeWrite, modelWrite] ∧ UpToDate none s := by
  have hrun : Runs.run (fun s action => if WritesFirst s action then step s action else none)
      (start Bool none)
      [.begin false themeWrite, .advance false, .advance false, .advance false, .advance false,
        .begin true modelWrite, .advance true, .advance true, .advance true,
        .advance true] = some _ := rfl
  have hreaches := Runs.Reaches.of_run hrun
  exact ⟨_, hreaches, rfl, upToDate_of_reaches none hreaches⟩

/-- Two processes that both found no file: the second write drops the field of the first. -/
theorem first_write_lost :
    ¬ ∀ (ι : Type) [DecidableEq ι] (initial : Option Dict) (s : State ι),
      Runs.Reaches step (fun _ _ => True) (start ι initial) s → UpToDate initial s := by
  intro hall
  have hrun : Runs.run (fun s action => if True then step s action else none) (start Bool none)
      [.begin false themeWrite, .begin true modelWrite, .advance false, .advance true,
        .advance false, .advance false, .advance false, .advance true, .advance true] = some _ := rfl
  have htheme := (hall Bool none _ (Runs.Reaches.of_run hrun)).1 (.field "theme") (by decide)
  have hfile : held (parseSettings (some (modelWrite.val.persist none))) (.field "theme") =
      .setting .null := by
    rw [modelWrite.property.parse_persist, Write.persist,
      held_merge_of_not_covers modelWrite.property (by decide) (by decide)]
    rfl
  have hlast : lastHeld none [themeWrite, modelWrite] (.field "theme") =
      .setting (.str "light") := by
    have hlight : ((∅ : Dict).insert "theme" (.str "light"))["theme"]? = some (.str "light") := by
      rw [get?_insert, if_pos rfl]
    exact congrArg (fun setting => Held.setting (setting.getD .null)) hlight
  have hsame : Held.setting .null = Held.setting (.str "light") := hfile.symm.trans (htheme.trans hlast)
  cases hsame

end Pidrei.SettingsProcesses
