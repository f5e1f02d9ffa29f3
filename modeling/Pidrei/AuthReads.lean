import Pidrei.Library.Runs

/-!
Stores that share one credential file. A read compares the file's revision with a
cached snapshot and else waits for a reload, which the readers of a process share;
a write publishes its result after it has released the file lock. One step is a call
on the file system, a section under the guard or the lock, or a wait that ends.
-/
namespace Pidrei.AuthReads

open Option (some)
open Function (update update_of_ne update_self)

/-- What `stat` tells the contents apart by. `touch` differs after every call that writes to the
file; `version` is how many states the operations have written so far. -/
structure Revision where
  touch : ℕ
  version : ℕ
  deriving DecidableEq

/-- `version` is which of the written states the data is; the snapshot before the first load is
none of them. -/
structure Snapshot (α : Type) where
  data : α
  version : Option ℕ
  revision : Option Revision

/-- Where a call of `with_lock_async` is. -/
inductive Phase (α : Type)
  /-- `_ensure_ready_blocking` is next. -/
  | preparing
  /-- The file was not there. -/
  | missing
  /-- `os.open` has made the file, empty at the revision; its text is written next. -/
  | creating (touch : ℕ)
  | ready
  | locked
  | read (data : α) (version : ℕ)
  | stated (data : α) (version : ℕ) (revision : Option Revision)
  | published (data : α) (version : ℕ)
  | truncated (data : α)
  | written (data : α) (version : ℕ)
  /-- The lock is released; `wrote` says whether a state was written. -/
  | released (data : α) (version : ℕ) (revision : Option Revision) (wrote : Bool)
  | failed
  | done (outcome : Option (α × ℕ))

namespace Phase

variable {α : Type}

def isLocked : Phase α → Bool
  | .locked | .read _ _ | .stated _ _ _ | .published _ _ | .truncated _ | .written _ _ => true
  | _ => false

/-- The version that the call has read. -/
def version? : Phase α → Option ℕ
  | .read _ version | .stated _ version _ | .published _ version | .written _ version
  | .released _ version _ _ => some version
  | .done outcome => outcome.map Prod.snd
  | _ => none

end Phase

/-- A call of `modify` or `delete`, or a reload, in a process. -/
structure Task (α : Type) where
  process : ℕ
  isReload : Bool
  phase : Phase α

/-- Where a call of `_read_latest_data` is. -/
inductive Reading (α : Type)
  | pinned (snapshot : Snapshot α)
  | unmatched (revision : Option Revision)
  | waiting (reload : ℕ)
  | returned (data : α)
  | left

/-- `floor` is the version that the last of the returned operations had written when the read
started. -/
structure Reader (α : Type) where
  process : ℕ
  floor : ℕ
  reading : Reading α

/-- `states` are the initial state and the ones that the operations have written, in their order,
`returned` is the version of the latest operation that has returned. -/
structure World (α : Type) where
  states : List α
  data : α
  touch : ℕ
  present : Bool
  lock : Option ℕ
  snapshots : ℕ → Snapshot α
  slots : ℕ → Option ℕ
  counts : ℕ → ℕ
  tasks : ℕ → Option (Task α)
  readers : ℕ → Option (Reader α)
  returned : ℕ

inductive Action (α : Type)
  /-- A call of `modify` or `delete`, or a load outside a read. -/
  | begin (task process : ℕ) (isReload : Bool)
  | check (task : ℕ)
  | create (task : ℕ)
  | fill (task : ℕ)
  | acquire (task : ℕ)
  | read (task : ℕ)
  | stat (task : ℕ)
  | publish (task : ℕ)
  | truncate (task : ℕ) (data : α)
  | write (task : ℕ)
  | release (task : ℕ)
  | abort (task : ℕ)
  | finish (task : ℕ)
  | pin (reader process : ℕ)
  | compare (reader : ℕ)
  | join (reader fresh : ℕ)
  | wake (reader : ℕ)
  | fallBack (reader : ℕ)
  | leave (reader : ℕ)

section Steps

variable {α : Type} [Inhabited α]

namespace World

def version (w : World α) : ℕ := w.states.length - 1

/-- `get_file_revision_blocking`. -/
def revision (w : World α) : Option Revision := if w.present then some ⟨w.touch, w.version⟩ else none

def setPhase (w : World α) (id : ℕ) (task : Task α) (phase : Phase α) : World α :=
  { w with tasks := update w.tasks id (some { task with phase := phase }) }

def setReading (w : World α) (id : ℕ) (reader : Reader α) (reading : Reading α) : World α :=
  { w with readers := update w.readers id (some { reader with reading := reading }) }

/-- Whatever is put into the file, its revision changes. -/
def put (w : World α) (data : α) : World α :=
  { w with data := data, touch := w.touch + 1, present := true }

def setSnapshot (w : World α) (process : ℕ) (snapshot : Snapshot α) : World α :=
  { w with snapshots := update w.snapshots process snapshot }

def setSlot (w : World α) (process : ℕ) (slot : Option ℕ) : World α :=
  { w with slots := update w.slots process slot }

/-- A reload that is settled leaves the slot, unless another one has taken it. -/
def clearSlot (w : World α) (process id : ℕ) : World α :=
  if w.slots process = some id then w.setSlot process none else w

/-- The reader leaves the reload; the last one gives it up. -/
def depart (w : World α) (process id : ℕ) : World α :=
  let w := { w with counts := update w.counts id (w.counts id - 1) }
  if w.counts id = 0 then w.clearSlot process id else w

end World

/-- A step of the call `id` from its phase; an absent file parses as no credentials. -/
def stepTask (w : World α) (id : ℕ) (task : Task α) : Action α → Option (World α)
  | .check _ =>
    match task.phase with
    | .preparing => some (w.setPhase id task (if w.present then .ready else .missing))
    | _ => none
  | .create _ =>
    match task.phase with
    | .missing => some ((w.put default).setPhase id task (.creating (w.touch + 1)))
    | _ => none
  | .fill _ =>
    match task.phase with
    | .creating _ => some ((w.put default).setPhase id task .ready)
    | _ => none
  | .acquire _ =>
    match task.phase, w.lock with
    | .ready, none => some ({ w with lock := some id }.setPhase id task .locked)
    | _, _ => none
  | .read _ =>
    match task.phase with
    | .locked => some (w.setPhase id task (.read w.data w.version))
    | _ => none
  | .stat _ =>
    match task.phase with
    | .read data version => some (w.setPhase id task (.stated data version w.revision))
    | _ => none
  | .publish _ =>
    match task.phase, task.isReload with
    | .stated data version revision, true =>
      some ((w.setSnapshot task.process ⟨data, some version, revision⟩).setPhase id task
        (.published data version))
    | _, _ => none
  | .truncate _ data =>
    match task.phase, task.isReload with
    | .read _ _, false => some ((w.put default).setPhase id task (.truncated data))
    | _, _ => none
  | .write _ =>
    match task.phase with
    | .truncated data =>
      some ({ w.put data with states := w.states ++ [data] }.setPhase id task
        (.written data (w.version + 1)))
    | _ => none
  | .release _ =>
    let released := { w with lock := none }
    match task.phase, task.isReload with
    | .published data version, _ => some (released.setPhase id task (.released data version none false))
    | .stated data version revision, false =>
      some (released.setPhase id task (.released data version revision false))
    | .written data version, _ => some (released.setPhase id task (.released data version none true))
    | _, _ => none
  | .abort _ =>
    match task.phase with
    | .preparing | .ready => some (w.setPhase id task .failed)
    | .locked | .read _ _ | .stated _ _ _ | .published _ _ =>
      some ({ w with lock := none }.setPhase id task .failed)
    | _ => none
  | .finish _ =>
    match task.phase, task.isReload with
    | .released data version _ _, true =>
      some ((w.clearSlot task.process id).setPhase id task (.done (some (data, version))))
    | .failed, true => some ((w.clearSlot task.process id).setPhase id task (.done none))
    | .released data version revision wrote, false =>
      -- the writer publishes after it has released the lock
      some ({ w.setSnapshot task.process ⟨data, some version, revision⟩ with
        returned := if wrote then max w.returned version else w.returned }.setPhase id task
          (.done (some (data, version))))
    | .failed, false => some (w.setPhase id task (.done none))
    | _, _ => none
  | _ => none

/-- A step of the read `id`. -/
def stepReader (w : World α) (id : ℕ) (reader : Reader α) : Action α → Option (World α)
  | .compare _ =>
    match reader.reading with
    | .pinned snapshot =>
      let matched := w.revision.isSome && w.revision = snapshot.revision
      some (w.setReading id reader (if matched then .returned snapshot.data else .unmatched w.revision))
    | _ => none
  | .join _ fresh =>
    match reader.reading, w.slots reader.process with
    | .unmatched _, some reload =>
      some ({ w with counts := update w.counts reload (w.counts reload + 1) }.setReading id
        reader (.waiting reload))
    | .unmatched revision, none =>
      let published := w.snapshots reader.process
      if revision.isSome && revision = published.revision then
        some (w.setReading id reader (.returned published.data))
      else if (w.tasks fresh).isNone then
        some ({ (w.setSlot reader.process (some fresh)).setPhase fresh
            ⟨reader.process, true, .preparing⟩ .preparing with
          counts := update w.counts fresh 1 }.setReading id reader (.waiting fresh))
      else none
    | _, _ => none
  | .wake _ =>
    match reader.reading with
    | .waiting reload =>
      match (w.tasks reload).map Task.phase with
      | some (.done (some (data, _))) =>
        some ((w.depart reader.process reload).setReading id reader (.returned data))
      | _ => none
    | _ => none
  | .fallBack _ =>
    match reader.reading with
    | .waiting reload =>
      match (w.tasks reload).map Task.phase with
      | some (.done none) =>
        some ((w.depart reader.process reload).setReading id reader
          (.returned (w.snapshots reader.process).data))
      | _ => none
    | _ => none
  | .leave _ =>
    match reader.reading with
    | .waiting reload => some ((w.depart reader.process reload).setReading id reader .left)
    | _ => none
  | _ => none

def Action.task? : Action α → Option ℕ
  | .check id | .create id | .fill id | .acquire id | .read id | .stat id | .publish id
  | .truncate id _ | .write id | .release id | .abort id | .finish id => some id
  | _ => none

def Action.reader? : Action α → Option ℕ
  | .compare id | .join id _ | .wake id | .fallBack id | .leave id => some id
  | _ => none

def step (w : World α) (action : Action α) : Option (World α) :=
  match action with
  | .begin id process isReload =>
    if (w.tasks id).isNone then some (w.setPhase id ⟨process, isReload, .preparing⟩ .preparing)
    else none
  | .pin id process =>
    if (w.readers id).isNone then
      some (w.setReading id ⟨process, w.returned, .left⟩ (.pinned (w.snapshots process)))
    else none
  | action =>
    match action.task?, action.reader? with
    | some id, _ => (w.tasks id).bind fun task => stepTask w id task action
    | none, some id => (w.readers id).bind fun reader => stepReader w id reader action
    | none, none => none

/-- Nobody has called yet; without a file there are no credentials. -/
def start (initial : Option α) : World α where
  states := [initial.getD default]
  data := initial.getD default
  touch := 0
  present := initial.isSome
  lock := none
  snapshots _ := ⟨default, none, none⟩
  slots _ := none
  counts _ := 0
  tasks _ := none
  readers _ := none
  returned := 0

/-- A reader joins a reload that has read nothing yet or no less than the reader has to see; a
file is made only where there is none, and its text is written before anything else; a failed
reload is answered from a snapshot that is no older than what the reader has to see. -/
def meets (w : World α) : Action α → Bool
  | .join id _ =>
    match w.readers id with
    | some reader =>
      match (w.slots reader.process).bind w.tasks with
      | some task => task.phase.version?.all (reader.floor ≤ ·)
      | none => true
    | none => true
  | .create _ => !w.present
  | .fill id =>
    match (w.tasks id).map Task.phase with
    | some (.creating touch) => w.touch = touch
    | _ => true
  | .fallBack id =>
    match w.readers id with
    | some reader => (w.snapshots reader.process).version.any (reader.floor ≤ ·)
    | none => true
  | _ => true

end Steps

section Invariant

variable {α : Type}

def World.Has (w : World α) (data : α) (version : ℕ) : Prop := w.states[version]? = some data

def Snapshot.Sound (w : World α) (snapshot : Snapshot α) : Prop :=
  (∀ version, snapshot.version = some version → w.Has snapshot.data version) ∧
    ∀ revision, snapshot.revision = some revision → snapshot.version = some revision.version

/-- What is known of a call from its phase. -/
def Phase.Sound (w : World α) : Phase α → Prop
  | .creating touch => touch ≤ w.touch
  | .read data version => version = w.version ∧ w.Has data version
  | .stated data version revision => version = w.version ∧ w.Has data version ∧
      ∀ found, revision = some found → found.version = version
  | .published data version | .written data version => w.Has data version
  | .released data version revision _ => w.Has data version ∧
      ∀ found, revision = some found → found.version = version
  | .done outcome => ∀ pair, outcome = some pair → w.Has pair.1 pair.2
  | _ => True

/-- What is known of a read: the data it will return is no older than its floor. -/
def Reading.Sound (w : World α) (floor : ℕ) : Reading α → Prop
  | .pinned snapshot => snapshot.Sound w
  | .waiting reload => ∀ task, w.tasks reload = some task →
      ∀ version, task.phase.version? = some version → floor ≤ version
  | .unmatched revision => ∀ found, revision = some found → floor ≤ found.version
  | .returned data => data ∈ w.states.drop floor
  | .left => True

/-- The file is what the last operation has written. -/
def World.Settled (w : World α) : Prop := w.states.getLast? = some w.data

structure Inv [Inhabited α] (w : World α) : Prop where
  settled : w.Settled ∨ ∃ id task data, w.tasks id = some task ∧ task.phase = .truncated data
  absent : w.present = false → w.data = default
  locked : ∀ id task, w.tasks id = some task → task.phase.isLocked = true → w.lock = some id
  tasks : ∀ id task, w.tasks id = some task → task.phase.Sound w
  creating : ∀ id task, w.tasks id = some task → task.phase = .creating w.touch → w.data = default
  snapshots : ∀ process, (w.snapshots process).Sound w
  readers : ∀ id reader, w.readers id = some reader →
    reader.floor ≤ w.version ∧ reader.reading.Sound w reader.floor
  returned : w.returned ≤ w.version
  nonempty : w.states ≠ []

variable {data : α} {version : ℕ} {action : Action α} {reader : Reader α} {w : World α}
  {floor id : ℕ} {revision : Option Revision} {snapshot : Snapshot α} {phase : Phase α}
  {lock : Option ℕ} {reading : Reading α}

theorem World.Has.mem_drop (h : w.Has data version) (hfloor : floor ≤ version) :
    data ∈ w.states.drop floor := by
  refine List.mem_of_getElem? (i := version - floor) ?_
  rw [List.getElem?_drop, Nat.add_sub_cancel' hfloor]
  exact h

theorem World.Has.le_version (h : w.Has data version) : version ≤ w.version := by
  have hlt := (List.getElem?_eq_some_iff.mp h).1
  unfold World.version
  omega

theorem World.Settled.has (h : w.Settled) : w.Has w.data w.version := by
  unfold World.Settled at h
  rw [List.getLast?_eq_getElem?] at h
  exact h

theorem forall_update {β : Type} {f : ℕ → Option β} {value : β} (holds : ℕ → β → Prop)
    (hnew : holds id value) (hold : ∀ other x, other ≠ id → f other = some x → holds other x) :
    ∀ other x, update f id (some value) other = some x → holds other x := by
  intro other x hx
  by_cases heq : other = id
  · subst heq
    rw [update_self] at hx
    exact some.inj hx ▸ hnew
  · rw [update_of_ne heq] at hx
    exact hold other x heq hx

theorem revision_version {found : Revision} (h : w.revision = some found) :
    found.version = w.version := by
  unfold World.revision at h
  split at h
  · rw [← some.inj h]
  · cases h

theorem sound_of_has (hhas : w.Has data version)
    (hrevision : ∀ found, revision = some found → found.version = version) :
    Snapshot.Sound w ⟨data, some version, revision⟩ := by
  refine ⟨fun other hother => ?_, fun found hfound => ?_⟩
  · cases hother
    exact hhas
  · exact congrArg some (hrevision found hfound).symm

theorem World.Has.sound (h : w.Has data version) (outcome : Option (α × ℕ))
    (houtcome : outcome = some (data, version)) : (Phase.done outcome).Sound w := by
  subst houtcome
  intro pair hpair
  cases hpair
  exact h

theorem World.states_depart (w : World α) (process id : ℕ) :
    (w.depart process id).states = w.states := by
  simp only [World.depart, World.clearSlot]
  split
  · split <;> rfl
  · rfl

theorem World.tasks_clearSlot (w : World α) (process id : ℕ) :
    (w.clearSlot process id).tasks = w.tasks := by
  unfold World.clearSlot
  split <;> rfl

theorem Snapshot.Sound.returned (h : snapshot.Sound w)
    (hmatched : (revision.isSome && decide (revision = snapshot.revision)) = true)
    (hfloor : ∀ found, revision = some found → floor ≤ found.version) :
    (Reading.returned snapshot.data).Sound w floor := by
  obtain ⟨hsome, hrevision⟩ := Bool.and_eq_true_iff.mp hmatched
  obtain ⟨found, rfl⟩ := Option.isSome_iff_exists.mp hsome
  have hversion := h.2 found (of_decide_eq_true hrevision).symm
  exact (h.1 _ hversion).mem_drop (hfloor found rfl)

variable [Inhabited α] {w v : World α}

/-- A call moves to another phase, and the world around it from `w` to `v` without a new state. -/
theorem Inv.setPhase (h : Inv w) {task : Task α}
    (htasks : v.tasks = w.tasks) (hreaders : v.readers = w.readers) (hstates : v.states = w.states)
    (hsnapshots : ∀ process, (v.snapshots process).Sound w) (hreturned : v.returned ≤ w.version)
    (hfile : (v.touch = w.touch ∧ v.data = w.data ∧ v.present = w.present) ∨
      (v.touch = w.touch + 1 ∧ v.data = default ∧ v.present = true))
    (hsettled : v.Settled ∨ (∃ data, phase = .truncated data) ∨
      ∃ other t data, other ≠ id ∧ w.tasks other = some t ∧ t.phase = .truncated data)
    (hothers : ∀ other t, other ≠ id → w.tasks other = some t → t.phase.isLocked = true →
      v.lock = some other)
    (hlocked : phase.isLocked = true → v.lock = some id) (hsound : phase.Sound v)
    (hcreating : phase = .creating v.touch → v.data = default)
    (hversion : ∀ version, phase.version? = some version → version = w.version ∨
      ∃ old, w.tasks id = some old ∧ old.phase.version? = some version) :
    Inv (v.setPhase id task phase) := by
  have hversions : v.version = w.version := by unfold World.version; rw [hstates]
  have hhas : ∀ data version, w.Has data version → (v.setPhase id task phase).Has data version := by
    intro data version hdata
    show v.states[version]? = some data
    rw [hstates]
    exact hdata
  have htouch : w.touch ≤ v.touch := by
    rcases hfile with hfile | hfile <;> omega
  have hphases : ∀ p : Phase α, p.Sound w → p.Sound (v.setPhase id task phase) := by
    intro p hp
    cases p with
    | creating touch => exact Nat.le_trans hp htouch
    | read data version => exact ⟨hp.1.trans hversions.symm, hhas _ _ hp.2⟩
    | stated data version revision => exact ⟨hp.1.trans hversions.symm, hhas _ _ hp.2.1, hp.2.2⟩
    | published | written => exact hhas _ _ hp
    | released data version revision wrote => exact ⟨hhas _ _ hp.1, hp.2⟩
    | done outcome => exact fun pair hpair => hhas _ _ (hp pair hpair)
    | _ => trivial
  have hsnap : ∀ snapshot : Snapshot α, snapshot.Sound w → snapshot.Sound (v.setPhase id task phase) :=
    fun snapshot hs => ⟨fun version hversion => hhas _ _ (hs.1 version hversion), hs.2⟩
  have htasksOf : ∀ other, (v.setPhase id task phase).tasks other =
      update w.tasks id (some { task with phase := phase }) other := by
    intro other
    rw [← htasks]
    rfl
  refine ⟨?_, ?_, ?_, ?_, ?_, fun process => hsnap _ (hsnapshots process), ?_, ?_, ?_⟩
  · rcases hsettled with hsettled | ⟨data, hphase⟩ | ⟨other, t, data, hne, ht, hphase⟩
    · exact .inl hsettled
    · exact .inr ⟨id, _, data, update_self _ _ _, hphase⟩
    · refine .inr ⟨other, t, data, ?_, hphase⟩
      rw [htasksOf, update_of_ne hne, ht]
  · intro habsent
    rcases hfile with ⟨_, hdata, hpresent⟩ | ⟨_, hdata, _⟩
    · exact hdata.trans (h.absent (hpresent.symm.trans habsent))
    · exact hdata
  · intro other t ht
    rw [htasksOf] at ht
    exact forall_update (fun other t => t.phase.isLocked = true → v.lock = some other)
      hlocked (fun other t hne ht => hothers other t hne ht) other t ht
  · intro other t ht
    rw [htasksOf] at ht
    refine forall_update (fun _ t => t.phase.Sound (v.setPhase id task phase)) ?_
      (fun other t _ ht => hphases _ (h.tasks other t ht)) other t ht
    cases phase <;> exact hsound
  · intro other t ht
    rw [htasksOf] at ht
    refine forall_update (fun _ t => t.phase = .creating v.touch → v.data = default)
      hcreating (fun other t _ ht hphase => ?_) other t ht
    rcases hfile with ⟨htouch, hdata, _⟩ | ⟨_, hdata, _⟩
    · rw [hdata]
      exact h.creating other t ht (htouch ▸ hphase)
    · exact hdata
  · intro other reader hreader
    have hreader' : w.readers other = some reader := by
      rw [← hreaders]
      exact hreader
    obtain ⟨hfloor, hreading⟩ := h.readers other reader hreader'
    refine ⟨Nat.le_trans hfloor (Nat.le_of_eq hversions.symm), ?_⟩
    cases hcase : reader.reading with
    | pinned snapshot =>
      rw [hcase] at hreading
      exact hsnap snapshot hreading
    | unmatched revision =>
      rw [hcase] at hreading
      exact hreading
    | waiting reload =>
      rw [hcase] at hreading
      intro t ht version hv
      rw [htasksOf] at ht
      by_cases heq : reload = id
      · subst heq
        rw [update_self] at ht
        rw [← some.inj ht] at hv
        rcases hversion version hv with rfl | ⟨old, hold, hvold⟩
        · exact hfloor
        · exact hreading old hold version hvold
      · rw [update_of_ne heq] at ht
        exact hreading t ht version hv
    | returned data =>
      rw [hcase] at hreading
      show data ∈ v.states.drop reader.floor
      rw [hstates]
      exact hreading
    | left => trivial
  · exact Nat.le_trans hreturned (Nat.le_of_eq hversions.symm)
  · show v.states ≠ []
    rw [hstates]
    exact h.nonempty

variable {id : ℕ} {task : Task α}

theorem Inv.settled_of_locked (h : Inv w) (htask : w.tasks id = some task)
    (hlocked : task.phase.isLocked = true) (hphase : ∀ data, task.phase ≠ .truncated data) :
    w.Settled := by
  rcases h.settled with hsettled | ⟨other, t, data, ht, htruncated⟩
  · exact hsettled
  · have hlock := h.locked other t ht (by rw [htruncated]; rfl)
    obtain rfl := some.inj ((h.locked id task htask hlocked).symm.trans hlock)
    obtain rfl := some.inj (htask.symm.trans ht)
    exact absurd htruncated (hphase data)

/-- A call that is not writing leaves the file to the one that is. -/
theorem Inv.settled_or (h : Inv w) (htask : w.tasks id = some task)
    (hphase : ∀ data, task.phase ≠ .truncated data) :
    w.Settled ∨ ∃ other t data, other ≠ id ∧ w.tasks other = some t ∧ t.phase = .truncated data := by
  rcases h.settled with hsettled | ⟨other, t, data, ht, htruncated⟩
  · exact .inl hsettled
  · refine .inr ⟨other, t, data, fun heq => ?_, ht, htruncated⟩
    obtain rfl := some.inj (htask.symm.trans (heq ▸ ht))
    exact hphase data htruncated

/-- A step that changes nothing around the call but the lock. -/
theorem Inv.setPhase_of_lock (h : Inv w) (htask : w.tasks id = some task ∨ w.tasks id = none) {t : Task α}
    (hphase : ∀ data, task.phase ≠ .truncated data)
    (hothers : ∀ other t, other ≠ id → w.tasks other = some t → t.phase.isLocked = true →
      lock = some other)
    (hlocked : phase.isLocked = true → lock = some id) (hsound : phase.Sound w)
    (hcreating : ∀ touch, phase ≠ .creating touch)
    (hversion : ∀ version, phase.version? = some version → version = w.version ∨
      ∃ old, w.tasks id = some old ∧ old.phase.version? = some version) :
    Inv ({ w with lock := lock }.setPhase id t phase) := by
  refine h.setPhase rfl rfl rfl h.snapshots h.returned (.inl ⟨rfl, rfl, rfl⟩) ?_ hothers hlocked ?_
    (fun hcreate => absurd hcreate (hcreating _)) hversion
  · rcases h.settled with hsettled | ⟨other, old, data, hold, htruncated⟩
    · exact .inl hsettled
    · refine .inr (.inr ⟨other, old, data, ?_, hold, htruncated⟩)
      rintro rfl
      rcases htask with htask | htask
      · obtain rfl := some.inj (htask.symm.trans hold)
        exact hphase data htruncated
      · rw [htask] at hold
        cases hold
  · cases phase <;> exact hsound

theorem Inv.others_of_unlocked (h : Inv w) (other : ℕ) (t : Task α) (_ : other ≠ id)
    (ht : w.tasks other = some t) (hlocked : t.phase.isLocked = true) : w.lock = some other :=
  h.locked other t ht hlocked

theorem Inv.others_of_locked (h : Inv w) (htask : w.tasks id = some task)
    (hlock : task.phase.isLocked = true) (other : ℕ) (t : Task α) (hne : other ≠ id)
    (ht : w.tasks other = some t) (hlocked : t.phase.isLocked = true) : lock = some other := by
  have hboth := (h.locked id task htask hlock).symm.trans (h.locked other t ht hlocked)
  exact absurd (some.inj hboth).symm hne

attribute [local simp] stepTask in
theorem inv_check (h : Inv w) (htask : w.tasks id = some task)
    (hstep : stepTask w id task (.check id) = some v) : Inv v := by
  simp only [stepTask] at hstep
  split at hstep
  · rename_i hphase
    cases hstep
    refine h.setPhase_of_lock (.inl htask) ?_ (fun other t => h.others_of_unlocked other t) ?_ ?_ ?_ ?_
    · rw [hphase]
      rintro data ⟨⟩
    · cases w.present <;> exact nofun
    · cases w.present <;> trivial
    · cases w.present <;> rintro touch ⟨⟩
    · cases w.present <;> rintro version ⟨⟩
  · cases hstep

theorem Inv.settled_put (h : Inv w) (hdata : w.data = default)
    (hphase : ∀ data, task.phase ≠ .truncated data) (htask : w.tasks id = some task) :
    (w.put default).Settled ∨ ∃ other t data, other ≠ id ∧ w.tasks other = some t ∧
      t.phase = .truncated data := by
  refine (h.settled_or htask hphase).imp_left fun hsettled => ?_
  rw [← hdata]
  exact hsettled

theorem inv_create (h : Inv w) (htask : w.tasks id = some task)
    (hmeets : meets w (.create id) = true) (hstep : stepTask w id task (.create id) = some v) :
    Inv v := by
  simp only [stepTask] at hstep
  split at hstep
  · rename_i hphase
    cases hstep
    have habsent : w.present = false := by simpa [meets] using hmeets
    refine h.setPhase rfl rfl rfl h.snapshots h.returned (.inr ⟨rfl, rfl, rfl⟩) ?_
      (fun other t => h.others_of_unlocked other t) nofun (Nat.le_refl _) (fun _ => rfl) nofun
    rcases h.settled_put (h.absent habsent) (hphase ▸ nofun) htask with hsettled | hother
    · exact .inl hsettled
    · exact .inr (.inr hother)
  · cases hstep

theorem inv_fill (h : Inv w) (htask : w.tasks id = some task) (hmeets : meets w (.fill id) = true)
    (hstep : stepTask w id task (.fill id) = some v) : Inv v := by
  simp only [stepTask] at hstep
  split at hstep
  · rename_i touch hphase
    cases hstep
    have htouch : w.touch = touch := by simpa [meets, htask, hphase] using hmeets
    have hdata : w.data = default := h.creating id task htask (by rw [hphase, htouch])
    refine h.setPhase rfl rfl rfl h.snapshots h.returned (.inr ⟨rfl, rfl, rfl⟩) ?_
      (fun other t => h.others_of_unlocked other t) nofun trivial nofun nofun
    rcases h.settled_put hdata (hphase ▸ nofun) htask with hsettled | hother
    · exact .inl hsettled
    · exact .inr (.inr hother)
  · cases hstep

theorem inv_acquire (h : Inv w) (htask : w.tasks id = some task)
    (hstep : stepTask w id task (.acquire id) = some v) : Inv v := by
  simp only [stepTask] at hstep
  split at hstep
  · rename_i hphase hlock
    cases hstep
    refine h.setPhase_of_lock (.inl htask) (hphase ▸ nofun) (fun other t _ ht hlocked => ?_)
      (fun _ => rfl) trivial nofun nofun
    have hother := h.locked other t ht hlocked
    rw [hlock] at hother
    cases hother
  · cases hstep

theorem inv_read (h : Inv w) (htask : w.tasks id = some task)
    (hstep : stepTask w id task (.read id) = some v) : Inv v := by
  simp only [stepTask] at hstep
  split at hstep
  · rename_i hphase
    cases hstep
    have hheld := h.locked id task htask (by rw [hphase]; rfl)
    have hsettled := h.settled_of_locked htask (by rw [hphase]; rfl) (hphase ▸ nofun)
    refine h.setPhase_of_lock (.inl htask) (hphase ▸ nofun)
      (fun other t => h.others_of_unlocked other t) (fun _ => hheld) ⟨rfl, hsettled.has⟩ nofun ?_
    intro version hversion
    exact .inl (some.inj hversion).symm
  · cases hstep

theorem inv_stat (h : Inv w) (htask : w.tasks id = some task)
    (hstep : stepTask w id task (.stat id) = some v) : Inv v := by
  simp only [stepTask] at hstep
  split at hstep
  · rename_i data version hphase
    cases hstep
    have hheld := h.locked id task htask (by rw [hphase]; rfl)
    have hsound := h.tasks id task htask
    rw [hphase] at hsound
    refine h.setPhase_of_lock (.inl htask) (hphase ▸ nofun)
      (fun other t => h.others_of_unlocked other t) (fun _ => hheld)
      ⟨hsound.1, hsound.2, fun found hfound => ?_⟩ nofun fun other hother => ?_
    · rw [revision_version hfound, hsound.1]
    · exact .inl ((some.inj hother).symm.trans hsound.1)
  · cases hstep

theorem sound_update {process : ℕ} (h : Inv w) (hsnapshot : snapshot.Sound w) (other : ℕ) :
    (update w.snapshots process snapshot other).Sound w := by
  by_cases heq : other = process
  · subst heq
    rw [update_self]
    exact hsnapshot
  · rw [update_of_ne heq]
    exact h.snapshots other

theorem inv_publish (h : Inv w) (htask : w.tasks id = some task)
    (hstep : stepTask w id task (.publish id) = some v) : Inv v := by
  simp only [stepTask] at hstep
  split at hstep
  · rename_i data version revision hphase _
    cases hstep
    have hlocked : task.phase.isLocked = true := by rw [hphase]; rfl
    have hsound := h.tasks id task htask
    rw [hphase] at hsound
    have hsettled := h.settled_of_locked htask hlocked (hphase ▸ nofun)
    refine h.setPhase rfl rfl rfl (sound_update h (sound_of_has hsound.2.1 hsound.2.2)) h.returned
      (.inl ⟨rfl, rfl, rfl⟩) (.inl hsettled) (fun other t => h.others_of_unlocked other t)
      (fun _ => h.locked id task htask hlocked) hsound.2.1 nofun fun other hother => ?_
    exact .inl ((some.inj hother).symm.trans hsound.1)
  · cases hstep

theorem inv_truncate (h : Inv w) (htask : w.tasks id = some task)
    (hstep : stepTask w id task (.truncate id data) = some v) : Inv v := by
  simp only [stepTask] at hstep
  split at hstep
  · rename_i hphase _
    cases hstep
    have hheld := h.locked id task htask (by rw [hphase]; rfl)
    exact h.setPhase rfl rfl rfl h.snapshots h.returned (.inr ⟨rfl, rfl, rfl⟩)
      (.inr (.inl ⟨data, rfl⟩)) (fun other t => h.others_of_unlocked other t) (fun _ => hheld)
      trivial nofun nofun
  · cases hstep

theorem inv_release (h : Inv w) (htask : w.tasks id = some task)
    (hstep : stepTask w id task (.release id) = some v) : Inv v := by
  have hsound := h.tasks id task htask
  simp only [stepTask] at hstep
  split at hstep
  · rename_i data version hphase
    cases hstep
    rw [hphase] at hsound
    refine h.setPhase_of_lock (.inl htask) (hphase ▸ nofun)
      (h.others_of_locked htask (by rw [hphase]; rfl)) nofun ⟨hsound, nofun⟩ nofun fun other hother => ?_
    exact .inr ⟨task, htask, by rw [hphase]; exact hother⟩
  · rename_i data version revision hphase _
    cases hstep
    rw [hphase] at hsound
    refine h.setPhase_of_lock (.inl htask) (hphase ▸ nofun)
      (h.others_of_locked htask (by rw [hphase]; rfl)) nofun hsound.2 nofun fun other hother => ?_
    exact .inl ((some.inj hother).symm.trans hsound.1)
  · rename_i data version hphase
    cases hstep
    rw [hphase] at hsound
    refine h.setPhase_of_lock (.inl htask) (hphase ▸ nofun)
      (h.others_of_locked htask (by rw [hphase]; rfl)) nofun ⟨hsound, nofun⟩ nofun fun other hother => ?_
    exact .inr ⟨task, htask, by rw [hphase]; exact hother⟩
  · cases hstep

theorem inv_abort (h : Inv w) (htask : w.tasks id = some task)
    (hstep : stepTask w id task (.abort id) = some v) : Inv v := by
  simp only [stepTask] at hstep
  split at hstep
  case h_7 => cases hstep
  case h_1 | h_2 =>
    rename_i hphase
    cases hstep
    exact h.setPhase_of_lock (.inl htask) (hphase ▸ nofun)
      (fun other t => h.others_of_unlocked other t) nofun trivial nofun nofun
  all_goals
    rename_i hphase
    cases hstep
    exact h.setPhase_of_lock (.inl htask) (hphase ▸ nofun)
      (h.others_of_locked htask (by rw [hphase]; rfl)) nofun trivial nofun nofun

theorem Inv.clearSlot (h : Inv w) (process id : ℕ) : Inv (w.clearSlot process id) := by
  unfold World.clearSlot
  split
  · exact ⟨h.settled, h.absent, h.locked, h.tasks, h.creating, h.snapshots, h.readers,
      h.returned, h.nonempty⟩
  · exact h

theorem inv_finish (h : Inv w) (htask : w.tasks id = some task)
    (hstep : stepTask w id task (.finish id) = some v) : Inv v := by
  have hsound := h.tasks id task htask
  have hcleared := w.tasks_clearSlot task.process id
  have hcall : (w.clearSlot task.process id).tasks id = some task := by rw [hcleared, htask]
  simp only [stepTask] at hstep
  split at hstep
  · rename_i data version revision wrote hphase _
    cases hstep
    have hkept := h.clearSlot task.process id
    refine hkept.setPhase_of_lock (.inl hcall) (hphase ▸ nofun)
      (fun other t => hkept.others_of_unlocked other t) nofun ?_ nofun fun other hother => ?_
    · have hdone := hkept.tasks id task hcall
      rw [hphase] at hdone
      exact hdone.1.sound _ rfl
    · exact .inr ⟨task, hcall, by rw [hphase]; exact hother⟩
  · rename_i hphase _
    cases hstep
    have hkept := h.clearSlot task.process id
    exact hkept.setPhase_of_lock (.inl hcall) (hphase ▸ nofun)
      (fun other t => hkept.others_of_unlocked other t) nofun nofun nofun nofun
  · rename_i data version revision wrote hphase _
    cases hstep
    rw [hphase] at hsound
    have hversion := hsound.1.le_version
    have hreturned := h.returned
    refine h.setPhase rfl rfl rfl (sound_update h (sound_of_has hsound.1 hsound.2)) ?_
      (.inl ⟨rfl, rfl, rfl⟩) ?_ (fun other t => h.others_of_unlocked other t) nofun ?_ nofun
      fun other hother => ?_
    · show (if wrote then max w.returned version else w.returned) ≤ w.version
      split <;> omega
    · exact (h.settled_or htask (hphase ▸ nofun)).imp_right .inr
    · exact hsound.1.sound _ rfl
    · exact .inr ⟨task, htask, by rw [hphase]; exact hother⟩
  · rename_i hphase _
    cases hstep
    exact h.setPhase_of_lock (.inl htask) (hphase ▸ nofun)
      (fun other t => h.others_of_unlocked other t) nofun nofun nofun nofun
  · cases hstep

theorem inv_write (h : Inv w) (htask : w.tasks id = some task)
    (hstep : stepTask w id task (.write id) = some v) : Inv v := by
  have hreturned := h.returned
  simp only [stepTask] at hstep
  split at hstep
  · rename_i data hphase
    cases hstep
    set v : World α := { w.put data with states := w.states ++ [data] }.setPhase id task
      (.written data (w.version + 1)) with hv
    have hheld := h.locked id task htask (by rw [hphase]; rfl)
    have hpos : 0 < w.states.length := List.length_pos_iff.mpr h.nonempty
    have hversion : v.version = w.version + 1 := by
      show (w.states ++ [data]).length - 1 = w.states.length - 1 + 1
      rw [List.length_append, List.length_singleton]
      omega
    have hnew : v.Has data (w.version + 1) := by
      show (w.states ++ [data])[w.states.length - 1 + 1]? = some data
      rw [Nat.sub_add_cancel hpos, List.getElem?_concat_length]
    have hhas : ∀ d version, w.Has d version → v.Has d version := by
      intro d version hd
      show (w.states ++ [data])[version]? = some d
      rw [List.getElem?_append_left (List.getElem?_eq_some_iff.mp hd).1]
      exact hd
    -- nobody else holds the lock, so no other call counts on the last state
    have hunlocked : ∀ other t, other ≠ id → w.tasks other = some t → t.phase.isLocked = false := by
      intro other t hother ht
      by_contra hlocked
      have hlock := h.locked other t ht (by simpa using hlocked)
      exact hother (some.inj (hlock.symm.trans hheld))
    have hsnap : ∀ snapshot : Snapshot α, snapshot.Sound w → snapshot.Sound v :=
      fun snapshot hs => ⟨fun version hversion => hhas _ _ (hs.1 version hversion), hs.2⟩
    refine ⟨.inl ?_, nofun, ?_, ?_, ?_, fun process => hsnap _ (h.snapshots process), ?_, ?_, ?_⟩
    · exact List.getLast?_concat
    · exact forall_update (fun other (t : Task α) => t.phase.isLocked = true → v.lock = some other) (fun _ => hheld)
        (fun other t _ ht => h.locked other t ht)
    · refine forall_update (fun _ (t : Task α) => t.phase.Sound v) hnew fun other t hother ht => ?_
      have hsound := h.tasks other t ht
      have hfree := hunlocked other t hother ht
      cases hcase : t.phase <;> rw [hcase] at hsound hfree
      case creating touch => exact Nat.le_succ_of_le hsound
      case released => exact ⟨hhas _ _ hsound.1, hsound.2⟩
      case done => exact fun pair hpair => hhas _ _ (hsound pair hpair)
      all_goals trivial
    · refine forall_update (fun _ (t : Task α) => t.phase = .creating v.touch → v.data = default) nofun
        fun other t _ ht hphase => ?_
      have hsound := h.tasks other t ht
      rw [hphase] at hsound
      exact absurd hsound (Nat.not_succ_le_self _)
    · intro other reader hreader
      obtain ⟨hfloor, hreading⟩ := h.readers other reader hreader
      refine ⟨by omega, ?_⟩
      cases hcase : reader.reading <;> rw [hcase] at hreading
      case pinned => exact hsnap _ hreading
      case unmatched => exact hreading
      case waiting reload =>
        intro t ht
        refine forall_update (fun other (t : Task α) => other = reload → ∀ version,
          t.phase.version? = some version → reader.floor ≤ version) ?_ ?_ reload t ht rfl
        · intro _ version hwritten
          cases hwritten
          omega
        · rintro other old _ hold rfl
          exact hreading old hold
      case returned d =>
        show d ∈ (w.states ++ [data]).drop reader.floor
        rw [List.drop_append]
        exact List.mem_append_left _ hreading
      case left => trivial
    · show w.returned ≤ v.version
      omega
    · exact List.append_ne_nil_of_right_ne_nil _ (List.cons_ne_nil _ _)
  · cases hstep

theorem inv_task (h : Inv w) (htask : w.tasks id = some task) (hid : action.task? = some id)
    (hmeets : meets w action = true) (hstep : stepTask w id task action = some v) : Inv v := by
  cases action <;> simp only [Action.task?, some.injEq, reduceCtorEq] at hid <;> subst hid
  case check => exact inv_check h htask hstep
  case create => exact inv_create h htask hmeets hstep
  case fill => exact inv_fill h htask hmeets hstep
  case acquire => exact inv_acquire h htask hstep
  case read => exact inv_read h htask hstep
  case stat => exact inv_stat h htask hstep
  case publish => exact inv_publish h htask hstep
  case truncate => exact inv_truncate h htask hstep
  case write => exact inv_write h htask hstep
  case release => exact inv_release h htask hstep
  case abort => exact inv_abort h htask hstep
  case finish => exact inv_finish h htask hstep

/-- A new call has read nothing. -/
theorem Inv.begin (h : Inv w) (hfree : w.tasks id = none) (process : ℕ) (isReload : Bool) :
    Inv (w.setPhase id ⟨process, isReload, .preparing⟩ .preparing) := by
  have hphase : ∀ data, (⟨process, isReload, .preparing⟩ : Task α).phase ≠ .truncated data := nofun
  exact h.setPhase_of_lock (.inr hfree) hphase (fun other t => h.others_of_unlocked other t) nofun
    trivial nofun nofun

theorem Inv.setReading (h : Inv w) (hfloor : reader.floor ≤ w.version)
    (hreading : reading.Sound w reader.floor) : Inv (w.setReading id reader reading) := by
  refine ⟨h.settled, h.absent, h.locked, h.tasks, h.creating, h.snapshots, ?_, h.returned, h.nonempty⟩
  refine forall_update (fun _ (r : Reader α) => r.floor ≤ w.version ∧
    r.reading.Sound (w.setReading id reader reading) r.floor) ⟨hfloor, ?_⟩ fun other r _ hr => ?_
  · cases reading <;> exact hreading
  · obtain ⟨hle, hsound⟩ := h.readers other r hr
    refine ⟨hle, ?_⟩
    cases hcase : r.reading <;> rw [hcase] at hsound <;> exact hsound

/-- How many wait for a reload says nothing of the data. -/
theorem Inv.setCount (h : Inv w) (id count : ℕ) :
    Inv { w with counts := update w.counts id count } :=
  ⟨h.settled, h.absent, h.locked, h.tasks, h.creating, h.snapshots, h.readers, h.returned, h.nonempty⟩

theorem Inv.setSlot (h : Inv w) (process : ℕ) (slot : Option ℕ) : Inv (w.setSlot process slot) :=
  ⟨h.settled, h.absent, h.locked, h.tasks, h.creating, h.snapshots, h.readers, h.returned, h.nonempty⟩

theorem Inv.depart (h : Inv w) (process : ℕ) : Inv (w.depart process id) := by
  simp only [World.depart]
  split
  · exact (h.setCount _ _).clearSlot process id
  · exact h.setCount _ _

attribute [local simp] stepReader in
theorem inv_compare (h : Inv w) (hreader : w.readers id = some reader)
    (hstep : stepReader w id reader (.compare id) = some v) : Inv v := by
  obtain ⟨hfloor, hsound⟩ := h.readers id reader hreader
  simp only [stepReader] at hstep
  split at hstep
  · rename_i snapshot hreading
    cases hstep
    rw [hreading] at hsound
    refine h.setReading hfloor ?_
    split
    · rename_i hmatched
      refine hsound.returned hmatched fun found hfound => ?_
      rw [revision_version hfound]
      exact hfloor
    · intro found hfound
      rw [revision_version hfound]
      exact hfloor
  · cases hstep

theorem Inv.depart_setReading (h : Inv w) (hreader : w.readers id = some reader) {reload : ℕ}
    (hreading : reading.Sound w reader.floor) (hsimple : ∀ other, reading ≠ .waiting other)
    (hpinned : ∀ snapshot, reading ≠ .pinned snapshot) :
    Inv ((w.depart reader.process reload).setReading id reader reading) := by
  obtain ⟨hfloor, _⟩ := h.readers id reader hreader
  have hstates : (w.depart reader.process reload).states = w.states := w.states_depart _ _
  refine (h.depart reader.process).setReading ?_ ?_
  · rw [World.version, hstates]
    exact hfloor
  · cases reading with
    | pinned snapshot => exact absurd rfl (hpinned snapshot)
    | waiting other => exact absurd rfl (hsimple other)
    | unmatched revision => exact hreading
    | returned data =>
      show data ∈ (w.depart reader.process reload).states.drop reader.floor
      rw [hstates]
      exact hreading
    | left => trivial

theorem inv_wake (h : Inv w) (hreader : w.readers id = some reader)
    (hstep : stepReader w id reader (.wake id) = some v) : Inv v := by
  obtain ⟨hfloor, hsound⟩ := h.readers id reader hreader
  simp only [stepReader] at hstep
  split at hstep
  · rename_i reload hreading
    rw [hreading] at hsound
    split at hstep
    · rename_i data version hdone
      cases hstep
      obtain ⟨task, htask, hphase⟩ := Option.map_eq_some_iff.mp hdone
      have hhas := h.tasks reload task htask
      rw [hphase] at hhas
      have hle := hsound task htask version (by rw [hphase]; rfl)
      exact h.depart_setReading hreader ((hhas _ rfl).mem_drop hle) nofun nofun
    · cases hstep
  · cases hstep

theorem inv_fallBack (h : Inv w) (hreader : w.readers id = some reader)
    (hmeets : meets w (.fallBack id) = true)
    (hstep : stepReader w id reader (.fallBack id) = some v) : Inv v := by
  simp only [stepReader] at hstep
  split at hstep
  · split at hstep
    · cases hstep
      have hany : (w.snapshots reader.process).version.any (reader.floor ≤ ·) = true := by
        simpa [meets, hreader] using hmeets
      obtain ⟨version, hversion, hle⟩ := (Option.any_eq_true _ _).mp hany
      exact h.depart_setReading hreader
        (((h.snapshots reader.process).1 version hversion).mem_drop (of_decide_eq_true hle)) nofun nofun
    · cases hstep
  · cases hstep

theorem inv_leave (h : Inv w) (hreader : w.readers id = some reader)
    (hstep : stepReader w id reader (.leave id) = some v) : Inv v := by
  simp only [stepReader] at hstep
  split at hstep
  · cases hstep
    exact h.depart_setReading hreader trivial nofun nofun
  · cases hstep

theorem inv_join (h : Inv w) (hreader : w.readers id = some reader) {fresh : ℕ}
    (hmeets : meets w (.join id fresh) = true)
    (hstep : stepReader w id reader (.join id fresh) = some v) : Inv v := by
  obtain ⟨hfloor, hsound⟩ := h.readers id reader hreader
  simp only [stepReader] at hstep
  split at hstep
  · rename_i revision reload hreading hslot
    cases hstep
    refine (h.setCount _ _).setReading hfloor fun task htask version hversion => ?_
    have hall : task.phase.version?.all (reader.floor ≤ ·) = true := by
      simpa [meets, hreader, hslot, show w.tasks reload = some task from htask] using hmeets
    rw [hversion] at hall
    exact of_decide_eq_true hall
  · rename_i revision hreading hslot
    rw [hreading] at hsound
    split at hstep
    · rename_i hmatched
      cases hstep
      exact h.setReading hfloor ((h.snapshots reader.process).returned (by simpa using hmatched) hsound)
    · split at hstep
      · rename_i hfree
        cases hstep
        have hnew := (h.setSlot reader.process (some fresh)).begin
          (Option.isNone_iff_eq_none.mp hfree) reader.process true
        refine (hnew.setCount fresh 1).setReading hfloor fun task htask version hversion => ?_
        have hcall : update w.tasks fresh
            (some (⟨reader.process, true, .preparing⟩ : Task α)) fresh = some task := htask
        rw [update_self] at hcall
        rw [← some.inj hcall] at hversion
        cases hversion
      · cases hstep
  · cases hstep

theorem inv_reader (h : Inv w) (hreader : w.readers id = some reader)
    (hid : action.reader? = some id) (hmeets : meets w action = true)
    (hstep : stepReader w id reader action = some v) : Inv v := by
  cases action <;> simp only [Action.reader?, some.injEq, reduceCtorEq] at hid <;> subst hid
  case compare => exact inv_compare h hreader hstep
  case join => exact inv_join h hreader hmeets hstep
  case wake => exact inv_wake h hreader hstep
  case fallBack => exact inv_fallBack h hreader hmeets hstep
  case leave => exact inv_leave h hreader hstep

theorem inv_step (h : Inv w) (hmeets : meets w action = true) (hstep : step w action = some v) :
    Inv v := by
  unfold step at hstep
  split at hstep
  · rename_i id process isReload
    split at hstep
    · rename_i hfree
      cases hstep
      exact h.begin (Option.isNone_iff_eq_none.mp hfree) process isReload
    · cases hstep
  · rename_i id process
    split at hstep
    · cases hstep
      have hfloor : Reader.floor (⟨process, w.returned, .left⟩ : Reader α) ≤ w.version := h.returned
      exact h.setReading hfloor (h.snapshots process)
    · cases hstep
  · split at hstep
    · rename_i id _ hid
      obtain ⟨task, htask, hcall⟩ := Option.bind_eq_some_iff.mp hstep
      exact inv_task h htask hid hmeets hcall
    · rename_i id _ hid
      obtain ⟨reader, hreader, hread⟩ := Option.bind_eq_some_iff.mp hstep
      exact inv_reader h hreader hid hmeets hread
    · cases hstep

theorem inv_start (initial : Option α) : Inv (start initial) where
  settled := .inl rfl
  absent h := by
    cases initial with
    | none => rfl
    | some data => cases h
  locked _ _ h := nomatch h
  tasks _ _ h := nomatch h
  creating _ _ h := nomatch h
  snapshots _ := ⟨nofun, nofun⟩
  readers _ _ h := nomatch h
  returned := Nat.le_refl _
  nonempty := List.cons_ne_nil _ _

/-- In every run whose steps meet the condition, a read returns a state that is no older than
what the operations that had returned when it started had written. -/
theorem reads_own_writes {initial : Option α}
    (h : Runs.Reaches step (fun w action => meets w action = true) (start initial) w) {id : ℕ}
    {reader : Reader α} (hreader : w.readers id = some reader) {data : α}
    (hreturned : reader.reading = .returned data) : data ∈ w.states.drop reader.floor := by
  have hinv : Inv w := h.kept (inv_start initial)
    fun _ _ _ hinv hmeets hstep => inv_step hinv hmeets hstep
  have hsound := (hinv.readers id reader hreader).2
  rw [hreturned] at hsound
  exact hsound

end Invariant

/-- Call `id` changes the credentials to `data`. -/
def writing (id : ℕ) (data : ℕ) : List (Action ℕ) :=
  [.begin id 0 false, .check id, .acquire id, .read id, .truncate id data, .write id, .release id,
    .finish id]

/-- Reload `id` reads the credentials, up to where it has released the lock. -/
def loading (id : ℕ) : List (Action ℕ) :=
  [.check id, .acquire id, .read id, .stat id, .publish id, .release id]

/-- A read after a change loads the file and returns what was written. -/
theorem reads_own_writes_after_change :
    ∃ w : World ℕ, Runs.Reaches step (fun w action => meets w action = true) (start (some 5)) w ∧
      ∃ reader, w.readers 0 = some reader ∧ reader.floor = 1 ∧ reader.reading = .returned 7 ∧
        7 ∈ w.states.drop reader.floor := by
  obtain ⟨w, hrun, hreader⟩ : ∃ w, Runs.run
      (fun w action => if meets w action = true then step w action else none) (start (some 5))
      (writing 0 7 ++ [Action.pin 0 0, Action.compare 0, Action.join 0 1] ++ loading 1 ++ [Action.finish 1, Action.wake 0]) = some w ∧
      w.readers 0 = some ⟨0, 1, .returned 7⟩ := ⟨_, rfl, rfl⟩
  have hreaches := Runs.Reaches.of_run hrun
  exact ⟨w, hreaches, _, hreader, rfl, rfl, reads_own_writes hreaches hreader rfl⟩

/-- The reload for the first read has released the lock when a change comes in between; the second
read starts after it, and joins the reload that has not cleared its slot. -/
theorem joined_reload_stale :
    ¬ ∀ (initial : Option ℕ) (w : World ℕ),
      Runs.Reaches step (fun _ _ => True) (start initial) w →
      ∀ (id : ℕ) (reader : Reader ℕ), w.readers id = some reader →
        ∀ data, reader.reading = .returned data → data ∈ w.states.drop reader.floor := by
  intro hall
  have hrun : Runs.run (fun w action => if True then step w action else none) (start (some 5))
      ([Action.pin 0 0, Action.compare 0, Action.join 0 0] ++ loading 0 ++ writing 1 7 ++
        [Action.pin 1 0, Action.compare 1, Action.join 1 2, Action.finish 0, Action.wake 1]) = some _ := rfl
  have hfresh := hall (some 5) _ (Runs.Reaches.of_run hrun) 1 ⟨0, 1, .returned 5⟩ rfl 5 rfl
  exact absurd hfresh (by decide)

end Pidrei.AuthReads
