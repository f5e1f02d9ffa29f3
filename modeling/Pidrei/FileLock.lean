import Pidrei.Library.Runs
import Mathlib.Data.Int.Notation

/-!
The lock directory that processes share. One step of a process is one call on the
file system: `mkdir`, `stat`, `utime` or `rmdir`. Between its steps the others
take theirs, and the clock moves.
-/
namespace Pidrei.FileLock

/-- What a process does next. The lock is kept with the mtime its holder last set when it
renews the lock, and without one otherwise. -/
inductive Phase
  | idle
  /-- `mkdir` raised `FileExistsError`; `stat` is next. -/
  | refused
  | observed (mtime : ℤ)
  /-- The directory was found older than the limit; `utime` is next. -/
  | stealing
  /-- `_create_blocking` after its `mkdir`. -/
  | created
  /-- `_touch_blocking` of `try_acquire` after its `utime`. -/
  | touched
  | held (mtime : Option ℤ)
  /-- `_renew_blocking` found its own mtime; `utime` is next. -/
  | renewing
  | renewed
  /-- `_held` is cleared; `rmdir` is next. -/
  | releasing
  | dead
  deriving DecidableEq, Repr

/-- The lock is taken and not given up. -/
def Phase.holds : Phase → Bool
  | created | touched | held _ | renewing | renewed => true
  | _ => false

/-- The directory still stands for this process. -/
def Phase.owns (phase : Phase) : Bool := phase.holds || phase == releasing

variable {ι : Type}

/-- `directory` is the mtime of the lock directory while there is one. -/
structure State (ι : Type) where
  phases : ι → Phase
  directory : Option ℤ
  now : ℤ

/-- Nobody runs yet. A directory is one that a dead process left behind. -/
def start (ι : Type) (directory : Option ℤ) (now : ℤ) : State ι := ⟨fun _ => .idle, directory, now⟩

inductive Action (ι : Type)
  | clock (now : ℤ)
  | tryAcquire (process : ι)
  | advance (process : ι)
  | renew (process : ι)
  | release (process : ι)
  | die (process : ι)
  deriving DecidableEq

section Operations

variable [DecidableEq ι]

def State.setPhase (s : State ι) (process : ι) (phase : Phase) : State ι :=
  { s with phases := Function.update s.phases process phase }

/-- `try_acquire` up to the result of `mkdir`. -/
def tryAcquire (renews : Bool) (s : State ι) (process : ι) : State ι :=
  match s.directory with
  | none =>
    { s with directory := some s.now }.setPhase process (if renews then .created else .held none)
  | some _ => s.setPhase process .refused

/-- `stat` after `FileExistsError`; without an mtime it is `LockedError`. -/
def statForeign (s : State ι) (process : ι) : State ι :=
  match s.directory with
  | none => s.setPhase process .idle
  | some mtime => s.setPhase process (.observed mtime)

/-- The age is read off the clock. A lock that is not over the limit is `LockedError`. -/
def judge (stale : ℤ) (s : State ι) (process : ι) (mtime : ℤ) : State ι :=
  s.setPhase process (if s.now - mtime ≤ stale then .idle else .stealing)

/-- `utime`. Without a directory it is `LockedError`, or a lost lock when renewing. -/
def touch (s : State ι) (process : ι) (next : Phase) : State ι :=
  match s.directory with
  | none => s.setPhase process .idle
  | some _ => { s with directory := some s.now }.setPhase process next

/-- `stat` for the mtime that was just set. -/
def statOwn (s : State ι) (process : ι) : State ι :=
  match s.directory with
  | none => s.setPhase process .idle
  | some mtime => s.setPhase process (.held (some mtime))

/-- `_remove`: a failed `rmdir` is passed over. -/
def remove (s : State ι) (process : ι) : State ι :=
  { s with directory := none }.setPhase process .idle

/-- The next call on the file system of a process that has one to make. -/
def advance (stale : ℤ) (renews : Bool) (s : State ι) (process : ι) : Option (State ι) :=
  match s.phases process with
  | .refused => some (statForeign s process)
  | .observed mtime => some (judge stale s process mtime)
  | .stealing => some (touch s process (if renews then .touched else .held none))
  | .renewing => some (touch s process .renewed)
  | .created | .touched | .renewed => some (statOwn s process)
  | .releasing => some (remove s process)
  | .idle | .held _ | .dead => none

/-- `_renew_blocking` up to its comparison. Another mtime, or none, and the lock is given up
without touching the directory. -/
def renew (s : State ι) (process : ι) : Option (State ι) :=
  match s.phases process with
  | .held (some expected) =>
    some (s.setPhase process (if s.directory = some expected then .renewing else .idle))
  | _ => none

/-- `release`, which waits for a renewal that is under way. -/
def release (s : State ι) (process : ι) : Option (State ι) :=
  match s.phases process with
  | .held _ => some (s.setPhase process .releasing)
  | _ => none

def step (stale : ℤ) (renews : ι → Bool) (s : State ι) : Action ι → Option (State ι)
  | .clock now => some { s with now }
  | .tryAcquire process =>
    if s.phases process = .idle then some (tryAcquire (renews process) s process) else none
  | .advance process => advance stale (renews process) s process
  | .renew process => renew s process
  | .release process => release s process
  | .die process => some (s.setPhase process .dead)

end Operations

/-- No lock whose process lives is over the limit. -/
def Timely (stale : ℤ) (s : State ι) : Prop :=
  ∀ process, (s.phases process).owns → ∀ mtime ∈ s.directory, s.now - mtime ≤ stale

/-- A process that takes over a lock touches a directory that is over the limit at that moment. -/
def StealsStale (stale : ℤ) (s : State ι) (action : Action ι) : Prop :=
  ∀ process, action = .advance process → s.phases process = .stealing →
    ∀ mtime ∈ s.directory, stale < s.now - mtime

/-- At most one process holds the lock. -/
def Exclusive (s : State ι) : Prop :=
  ∀ p q, (s.phases p).holds → (s.phases q).holds → p = q

section Exclusion

variable {stale : ℤ} {renews : ι → Bool} {s t : State ι} {process : ι} {phase : Phase}

/-- The directory stands for one process at most, and is there while it does. -/
structure Owned (s : State ι) : Prop where
  unique : ∀ p q, (s.phases p).owns → (s.phases q).owns → p = q
  present : ∀ p, (s.phases p).owns → s.directory.isSome

theorem Owned.stamp (hs : Owned s) (mtime : ℤ) : Owned { s with directory := some mtime } :=
  ⟨hs.unique, fun _ _ => rfl⟩

theorem Owned.exclusive (hs : Owned s) : Exclusive s := by
  intro p q hp hq
  exact hs.unique p q (by rw [Phase.owns, hp]; rfl) (by rw [Phase.owns, hq]; rfl)

variable [DecidableEq ι]

theorem owns_setPhase {p : ι} (h : ((s.setPhase process phase).phases p).owns) :
    p = process ∧ phase.owns ∨ p ≠ process ∧ (s.phases p).owns := by
  by_cases hp : p = process
  · subst hp
    have hself : (s.setPhase p phase).phases p = phase := Function.update_self ..
    rw [hself] at h
    exact .inl ⟨rfl, h⟩
  · have hother : (s.setPhase process phase).phases p = s.phases p := Function.update_of_ne hp ..
    rw [hother] at h
    exact .inr ⟨hp, h⟩

theorem Owned.setPhase (hs : Owned s) (hphase : phase.owns → (s.phases process).owns) :
    Owned (s.setPhase process phase) := by
  have hbefore : ∀ p, ((s.setPhase process phase).phases p).owns → (s.phases p).owns := by
    intro p hp
    rcases owns_setPhase hp with ⟨rfl, hown⟩ | ⟨-, hown⟩
    · exact hphase hown
    · exact hown
  exact ⟨fun p q hp hq => hs.unique p q (hbefore p hp) (hbefore q hq),
    fun p hp => hs.present p (hbefore p hp)⟩

theorem Owned.take (hfree : ∀ p, ¬ (s.phases p).owns) (hdirectory : s.directory.isSome) :
    Owned (s.setPhase process phase) := by
  have hself : ∀ p, ((s.setPhase process phase).phases p).owns → p = process := by
    intro p hp
    rcases owns_setPhase hp with ⟨rfl, -⟩ | ⟨-, hown⟩
    · rfl
    · exact absurd hown (hfree p)
  exact ⟨fun p q hp hq => (hself p hp).trans (hself q hq).symm, fun _ _ => hdirectory⟩

theorem Owned.touch {next : Phase} (hs : Owned s) (hnext : (s.phases process).owns) :
    Owned (touch s process next) := by
  unfold FileLock.touch
  split
  · exact hs.setPhase fun h => absurd h Bool.false_ne_true
  · exact (hs.stamp s.now).setPhase fun _ => hnext

theorem Owned.statOwn (hs : Owned s) (hown : (s.phases process).owns) :
    Owned (statOwn s process) := by
  unfold FileLock.statOwn
  split
  · exact hs.setPhase fun h => absurd h Bool.false_ne_true
  · exact hs.setPhase fun _ => hown

theorem Owned.steal {next : Phase} (hs : Owned s) (htimely : Timely stale s)
    (hold : ∀ mtime ∈ s.directory, stale < s.now - mtime) :
    Owned (FileLock.touch s process next) := by
  unfold FileLock.touch
  split
  · exact hs.setPhase fun h => absurd h Bool.false_ne_true
  · rename_i mtime hmtime
    have hfree : ∀ p, ¬ (s.phases p).owns := by
      intro p hp
      have hin := htimely p hp mtime hmtime
      have hout := hold mtime hmtime
      omega
    exact Owned.take hfree rfl

theorem Owned.remove (hs : Owned s) (hown : (s.phases process).owns) :
    Owned (FileLock.remove s process) := by
  have hfree : ∀ p, ¬ ((FileLock.remove s process).phases p).owns := by
    intro p hp
    rcases owns_setPhase hp with ⟨-, hidle⟩ | ⟨hne, hother⟩
    · exact absurd hidle Bool.false_ne_true
    · exact hne (hs.unique p process hother hown)
  exact ⟨fun p _ hp _ => absurd hp (hfree p), fun p hp => absurd hp (hfree p)⟩

theorem Owned.tryAcquire {renewing : Bool} (hs : Owned s) :
    Owned (tryAcquire renewing s process) := by
  unfold FileLock.tryAcquire
  split
  · rename_i hnone
    have hfree : ∀ p, ¬ (s.phases p).owns := by
      intro p hp
      have hsome := hs.present p hp
      rw [hnone] at hsome
      exact absurd hsome Bool.false_ne_true
    exact Owned.take hfree rfl
  · exact hs.setPhase fun h => absurd h Bool.false_ne_true

theorem Owned.advance {renewing : Bool} (hs : Owned s) (htimely : Timely stale s)
    (hsteals : StealsStale stale s (.advance process))
    (h : advance stale renewing s process = some t) : Owned t := by
  unfold FileLock.advance at h
  split at h <;> cases h
  case h_1 =>
    unfold statForeign
    split <;> exact hs.setPhase fun h => absurd h Bool.false_ne_true
  case h_2 =>
    unfold judge
    refine hs.setPhase fun h => ?_
    split at h <;> exact absurd h Bool.false_ne_true
  case h_3 hphase => exact hs.steal htimely (hsteals process rfl hphase)
  case h_4 hphase => exact hs.touch (by rw [hphase]; rfl)
  case h_5 hphase => exact hs.statOwn (by rw [hphase]; rfl)
  case h_6 hphase => exact hs.statOwn (by rw [hphase]; rfl)
  case h_7 hphase => exact hs.statOwn (by rw [hphase]; rfl)
  case h_8 hphase => exact hs.remove (by rw [hphase]; rfl)

theorem Owned.step {action : Action ι} (hs : Owned s) (htimely : Timely stale s)
    (hsteals : StealsStale stale s action) (h : step stale renews s action = some t) : Owned t := by
  cases action with
  | clock now =>
    cases h
    exact ⟨hs.unique, hs.present⟩
  | tryAcquire process =>
    rw [FileLock.step] at h
    split at h <;> cases h
    exact hs.tryAcquire
  | advance process => exact hs.advance htimely hsteals h
  | renew process =>
    rw [FileLock.step, renew] at h
    split at h <;> cases h
    rename_i hphase
    exact hs.setPhase fun _ => by rw [hphase]; rfl
  | release process =>
    rw [FileLock.step, release] at h
    split at h <;> cases h
    rename_i hphase
    exact hs.setPhase fun _ => by rw [hphase]; rfl
  | die process =>
    cases h
    exact hs.setPhase fun h => absurd h Bool.false_ne_true

/-- In every run in which live holders keep in time and no process takes over a directory that
is no longer over the limit, one process at most holds the lock. -/
theorem exclusive_of_reaches (directory : Option ℤ) (now : ℤ)
    (h : Runs.Reaches (step stale renews)
      (fun s action => Timely stale s ∧ StealsStale stale s action) (start ι directory now) s) :
    Exclusive s := by
  have hstart : Owned (start ι directory now) :=
    ⟨fun _ _ hp _ => absurd hp Bool.false_ne_true, fun _ hp => absurd hp Bool.false_ne_true⟩
  exact (h.kept hstart fun _ _ _ hs hmeets => hs.step hmeets.1 hmeets.2).exclusive

end Exclusion

instance (stale : ℤ) (s : State Bool) : Decidable (Timely stale s) := by
  unfold Timely
  infer_instance

instance (stale : ℤ) (s : State Bool) (action : Action Bool) :
    Decidable (StealsStale stale s action) := by
  unfold StealsStale
  infer_instance

/-- One process takes over what a dead one left, while another is refused. -/
theorem exclusive_after_takeover :
    ∃ s : State Bool,
      Runs.Reaches (step 10 fun _ => false)
        (fun s action => Timely 10 s ∧ StealsStale 10 s action) (start Bool (some 0) 20) s ∧
      s.phases false = .held none ∧ s.phases true = .observed 20 ∧ Exclusive s := by
  have hrun : Runs.run (fun s action => if Timely 10 s ∧ StealsStale 10 s action then
      step 10 (fun _ => false) s action else none) (start Bool (some 0) 20)
      [.tryAcquire false, .advance false, .advance false, .advance false, .tryAcquire true,
        .advance true] = some _ := rfl
  have hreaches := Runs.Reaches.of_run hrun
  exact ⟨_, hreaches, rfl, rfl, exclusive_of_reaches (some 0) 20 hreaches⟩

/-- Two processes find the directory of a dead one over the limit before either touches it, and
both take it over. -/
theorem takeovers_share_lock :
    ¬ ∀ (ι : Type) [DecidableEq ι] (stale : ℤ) (renews : ι → Bool) (directory : Option ℤ) (now : ℤ)
      (s : State ι), Runs.Reaches (step stale renews) (fun s _ => Timely stale s)
        (start ι directory now) s → Timely stale s → Exclusive s := by
  intro hall
  have hrun : Runs.run (fun s action => if Timely 10 s then
      step 10 (fun _ => false) s action else none) (start Bool (some 0) 20)
      [.tryAcquire false, .tryAcquire true, .advance false, .advance true, .advance false,
        .advance true, .advance false, .advance true] = some _ := rfl
  have hexclusive := hall Bool 10 _ (some 0) 20 _ (Runs.Reaches.of_run hrun) (by decide)
  exact nomatch hexclusive false true rfl rfl

end Pidrei.FileLock
