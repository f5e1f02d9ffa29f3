import Pidrei.SessionClaims
import Pidrei.Library.Chronicle
import Pidrei.Library.Runs

/-!
The messages that calls post to the active run. A run that ends has closed its input, and looked
into the queues after that; what was posted before is in the mailbox ahead of the look. So no
message stays behind, unless the run has settled beforehand that it cannot go on.
-/
namespace Pidrei.AgentSession

open AgentLoop (Queue)
open Chronicle List
open MessageQueues (PendingMessages QueueMode Ticket)
open Messages (Message)
open Function (update update_of_ne update_self)

def postedCalls (log : List Entry) : List ℕ :=
  log.filterMap fun entry => match entry with
    | .posted c => some c
    | _ => none

def takenCalls (log : List Entry) : List ℕ :=
  log.flatMap fun entry => match entry with
    | .drained _ calls => calls
    | _ => []

def Justifies (before : List Entry) : Entry → Prop
  | .claimed r => (∀ other, ¬ ActiveIn before other) ∧ .claimed r ∉ before ∧ .posted r ∉ before
  | .posted c => (∃ r, ActiveIn before r ∧ .decided r false ∉ before) ∧
    .posted c ∉ before ∧ .claimed c ∉ before
  | .drained r calls => ActiveIn before r ∧ .decided r false ∉ before ∧
    (takenCalls before ++ calls).Subperm (postedCalls before)
  | .decided r continues => ActiveIn before r ∧ .decided r false ∉ before ∧
    (continues = false → (takenCalls before).Perm (postedCalls before))
  | .released r => ActiveIn before r ∧ .decided r false ∈ before
  | .settled r => .released r ∈ before ∧ (takenCalls before).Perm (postedCalls before)
  | .compacted _ | .leafMoved _ => True

/-- The calls that the run has still to start over. -/
def RunPhase.restarts : RunPhase → List ℕ
  | .restarting deferred | .awaiting _ deferred => deferred
  | _ => []

/-- Every accepted message is posted to an active run, which does not end before it has it, or starts
a run of its own; and whoever waits for a closed run, or for its settlement, is not forgotten. -/
structure InputKept (s : Session) : Prop where
  justified : Justified Justifies s.log
  quiet : (∀ r, ¬ ActiveIn s.log r) → s.jobs = [] ∧ ∀ queue, (s.queues queue).messages = []
  queued : ∀ c, (s.call c).standing = .queued → .posted c ∈ s.log
  started : ∀ c, (s.call c).standing = .started → .claimed c ∈ s.log
  waits : ∀ c event, (s.call c).standing = .waiting event →
    s.inputClosed = some event ∨ event ∈ s.inputSet
  deferred : ∀ c, (s.call c).standing = .deferred →
    (s.isEmittingSettled = true ∧ c ∈ s.deferredActions) ∨ ∃ r, c ∈ (s.run r).restarts

/-- The answer that the next look into the queues gets. -/
def Session.ahead (s : Session) : Bool :=
  s.hasItems || match s.jobs with
    | .enqueue _ :: _ => true
    | _ => false

def posts (s : Session) : Action → Bool
  | .admission c => match s.call c with
    | .prompt (some _) (.admitting _ _) => s.active && s.inputClosed.isNone
    | _ => false
  | .enter c => match s.call c with
    | .custom _ _ .called => s.active && s.inputClosed.isNone
    | _ => false
  | _ => false

/-- The run takes input and has settled that it does not go on. -/
def RunPhase.turnsAway (queued : Bool) : RunPhase → Bool
  | .snapshot _ context => !context.canContinue queued
  | .ready _ canContinue => !canContinue
  | _ => false

/-- Nothing aborts a run, and no deferred action raises. -/
def Regular (s : Session) : Action → Prop
  | .enter c => match s.call c with
    | .compact _ => False
    | _ => True
  | .restart r => match s.run r with
    | .awaiting c _ => (s.call c).hasRaised = false
    | _ => True
  | _ => True

/-- Nothing is posted to a run whose last context cannot go on; and a context that cannot go on even
with something queued finds nothing queued. -/
def Heard (s : Session) (action : Action) : Prop :=
  (posts s action = true → ∀ r < s.calls.length, (s.run r).turnsAway s.ahead = false) ∧
    match action with
    | .project _ _ context => s.ahead = true → context.canContinue true = true
    | _ => True

def Meets (s : Session) (action : Action) : Prop := Regular s action ∧ Heard s action

instance (s : Session) (action : Action) : Decidable (Regular s action) := by
  unfold Regular
  split
  · split <;> infer_instance
  · split <;> infer_instance
  · infer_instance

instance (s : Session) (action : Action) : Decidable (Heard s action) := by
  unfold Heard
  have : Decidable (match action with
      | .project _ _ context => s.ahead = true → context.canContinue true = true
      | _ => True) := by
    split <;> infer_instance
  infer_instance

instance (s : Session) (action : Action) : Decidable (Meets s action) := by
  unfold Meets
  infer_instance

/-! What stands in the mailbox. -/

def Job.isRequest : Job → Bool
  | .enqueue _ => false
  | .drain _ _ | .hasQueued _ => true

def Job.ticket? : Job → Option Ticket
  | .enqueue ticket => some ticket
  | .drain _ _ | .hasQueued _ => none

/-- The messages that are posted and not drained yet. -/
def Session.pendingTickets (s : Session) : List Ticket :=
  (s.queues .steering).messages ++ (s.queues .followUp).messages ++ s.jobs.filterMap Job.ticket?

def Session.pending (s : Session) : List ℕ := s.pendingTickets.map Ticket.id

/-- What a run at this place waits for. -/
def RunPhase.request (r : ℕ) : RunPhase → Option Job
  | .polling queue => some (.drain r queue)
  | .postCheck | .snapshot _ _ | .finalCheck _ => some (.hasQueued r)
  | _ => none

def RunPhase.isActive (phase : RunPhase) : Bool := phase.stage = .active

def RunPhase.isClosed : RunPhase → Bool
  | .closing _ _ | .finalCheck _ | .decided _ | .ending | .released | .emitting => true
  | _ => false

def RunPhase.isEmitting : RunPhase → Bool
  | .emitting => true
  | _ => false

/-- The run has no part in what goes on: it has not begun, or has settled. -/
def RunPhase.isQuiet : RunPhase → Bool
  | .unclaimed | .restarting _ | .awaiting _ _ | .over => true
  | _ => false

/-- The boundary has answered that the run ends. -/
def RunPhase.isDecided : RunPhase → Bool
  | .ending | .released | .emitting | .restarting _ | .awaiting _ _ | .over => true
  | _ => false

def RunPhase.isDeaf (queued : Bool) : RunPhase → Bool
  | .snapshot _ context => !context.canContinue queued
  | .ready _ canContinue | .closing _ canContinue | .finalCheck canContinue => !canContinue
  | .decided continues => !continues
  | .unclaimed | .ending | .released | .emitting | .restarting _ | .awaiting _ _ | .over => true
  | _ => false

/-- The run that the flags and the mailbox are about. -/
structure Serves (s : Session) (r : ℕ) (phase : RunPhase) : Prop where
  run : s.run r = phase
  alone : ∀ other, other ≠ r → (s.run other).isQuiet = true
  active : s.active = phase.isActive
  closed : s.inputClosed.isSome = phase.isClosed
  emitting : s.isEmittingSettled = phase.isEmitting
  deferred : s.isEmittingSettled = false → s.deferredActions = []
  requests : s.jobs.filter Job.isRequest = (phase.request r).toList
  last : ∀ canContinue, phase = .finalCheck canContinue →
    ∃ tickets : List Ticket, s.jobs = tickets.map Job.enqueue ++ [Job.hasQueued r]
  deaf : phase.isDeaf s.ahead = true → s.pending = []
  unaborted : s.abortRequested = false ∧ s.abortDuringBeforeSettle = false

/-- Every posted message is drained once or pending. -/
structure Ledger (s : Session) : Prop where
  messages : (takenCalls s.log ++ s.pending).Perm (postedCalls s.log)
  queued : ∀ c, c ∈ postedCalls s.log ↔ (s.call c).standing = .queued

structure Told (s : Session) : Prop where
  justified : Justified Justifies s.log
  claimed : ∀ r, .claimed r ∈ s.log ↔ (s.run r).stage ≠ .unclaimed
  released : ∀ r, .released r ∈ s.log ↔ (s.run r).stage = .released
  decided : ∀ r, .decided r false ∈ s.log ↔ (s.run r).isDecided = true

structure Waiting (s : Session) : Prop where
  waits : ∀ c event, (s.call c).standing = .waiting event →
    s.inputClosed = some event ∨ event ∈ s.inputSet
  deferred : ∀ c, (s.call c).standing = .deferred →
    (s.isEmittingSettled = true ∧ c ∈ s.deferredActions) ∨ ∃ r, c ∈ (s.run r).restarts

structure Invariant (s : Session) : Prop where
  custody : Custody s
  ledger : Ledger s
  told : Told s
  waiting : Waiting s
  serves : ∃ r phase, Serves s r phase

section Log

variable (log : List Entry)

theorem mem_postedCalls {c : ℕ} : c ∈ postedCalls log ↔ .posted c ∈ log := by
  unfold postedCalls
  rw [mem_filterMap]
  constructor
  · rintro ⟨entry, hmem, hentry⟩
    cases entry <;> cases hentry
    exact hmem
  · exact fun hmem => ⟨.posted c, hmem, rfl⟩

theorem postedCalls_concat (entry : Entry) :
    postedCalls (log ++ [entry]) = postedCalls log ++ match entry with
      | .posted c => [c]
      | _ => [] := by
  unfold postedCalls
  rw [filterMap_append]
  cases entry <;> rfl

theorem takenCalls_concat (entry : Entry) :
    takenCalls (log ++ [entry]) = takenCalls log ++ match entry with
      | .drained _ calls => calls
      | _ => [] := by
  unfold takenCalls
  rw [flatMap_append, flatMap_singleton]

theorem mem_concat_of_ne {entry other : Entry} (h : other ≠ entry) :
    other ∈ log ++ [entry] ↔ other ∈ log := by
  rw [mem_append, mem_singleton]
  exact or_iff_left h

end Log

section Kept

open Session

variable {s t : Session} {r c : ℕ}

/-- A step that records at most an entry about nothing of interest here. -/
theorem Told.same (h : Told s) (hstage : ∀ r, (t.run r).stage = (s.run r).stage)
    (hdecided : ∀ r, (t.run r).isDecided = (s.run r).isDecided) (hlog : t.log = s.log) : Told t where
  justified := by
    rw [hlog]
    exact h.justified
  claimed := fun r => by rw [hlog, hstage, h.claimed]
  released := fun r => by rw [hlog, hstage, h.released]
  decided := fun r => by rw [hlog, hdecided, h.decided]

theorem Told.record (h : Told s) {entry : Entry} (hjustified : Justifies s.log entry)
    (hneutral : entry.isNeutral = true) (hdecided : ∀ r, entry ≠ .decided r false) :
    Told (s.record entry) where
  justified := h.justified.concat hjustified
  claimed := by
    intro r
    have hne : Entry.claimed r ≠ entry := by
      rintro rfl
      cases hneutral
    exact (mem_concat_of_ne s.log hne).trans (h.claimed r)
  released := by
    intro r
    have hne : Entry.released r ≠ entry := by
      rintro rfl
      cases hneutral
    exact (mem_concat_of_ne s.log hne).trans (h.released r)
  decided := fun r => (mem_concat_of_ne s.log (hdecided r).symm).trans (h.decided r)

theorem Ledger.same (h : Ledger s) (hpending : t.pending = s.pending)
    (hposted : postedCalls t.log = postedCalls s.log) (htaken : takenCalls t.log = takenCalls s.log)
    (hcall : ∀ c, (t.call c).standing = .queued ↔ (s.call c).standing = .queued) : Ledger t where
  messages := by
    rw [hpending, hposted, htaken]
    exact h.messages
  queued := fun c => by rw [hposted, hcall, h.queued]

theorem Serves.same {phase : RunPhase} (h : Serves s r phase) (hrun : t.run = s.run)
    (hactive : t.active = s.active) (hclosed : t.inputClosed = s.inputClosed)
    (hemitting : t.isEmittingSettled = s.isEmittingSettled)
    (hdeferred : t.deferredActions = s.deferredActions) (hqueues : t.queues = s.queues)
    (hjobs : t.jobs = s.jobs) (habort : t.abortRequested = s.abortRequested)
    (hduring : t.abortDuringBeforeSettle = s.abortDuringBeforeSettle) : Serves t r phase := by
  obtain ⟨run, alone, active, closed, emitting, deferred, requests, last, deaf, unaborted⟩ := h
  constructor
  · rw [hrun, run]
  · rw [hrun]
    exact alone
  · rw [hactive, active]
  · rw [hclosed, closed]
  · rw [hemitting, emitting]
  · rw [hemitting, hdeferred]
    exact deferred
  · rw [hjobs, requests]
  · rw [hjobs]
    exact last
  · unfold Session.pending Session.pendingTickets Session.ahead Session.hasItems
    rw [hqueues, hjobs]
    exact deaf
  · rw [habort, hduring]
    exact unaborted

theorem queued_of_loose {before after : Call} (h : after.standing = before.standing ∨
    before.standing.isLoose = true ∧ after.standing = .open) :
    after.standing = .queued ↔ before.standing = .queued := by
  obtain hsame | ⟨hloose, hopen⟩ := h
  · rw [hsame]
  · apply iff_of_false
    · rw [hopen]
      decide
    · intro hqueued
      rw [hqueued] at hloose
      cases hloose

theorem Invariant.onlyCalls (h : Invariant s) (hcalls : OnlyCalls s t) : Invariant t where
  custody := h.custody.steady hcalls.steady
  ledger := by
    apply h.ledger.same
    · unfold Session.pending Session.pendingTickets
      rw [hcalls.queues, hcalls.jobs]
    · obtain hlog | ⟨entry, hentry, hlog⟩ := hcalls.log
      · rw [hlog]
      · rw [hlog, postedCalls_concat]
        cases entry <;> first | exact append_nil _ | cases hentry
    · obtain hlog | ⟨entry, hentry, hlog⟩ := hcalls.log
      · rw [hlog]
      · rw [hlog, takenCalls_concat]
        cases entry <;> first | exact append_nil _ | cases hentry
    · exact fun c => queued_of_loose (hcalls.call c)
  told := by
    obtain hlog | ⟨entry, hentry, hlog⟩ := hcalls.log
    · exact h.told.same (fun r => by rw [hcalls.run]) (fun r => by rw [hcalls.run]) hlog
    · have hrecorded : Told (s.record entry) := by
        cases entry <;> first | exact h.told.record trivial rfl (fun _ => Entry.noConfusion) |
          cases hentry
      exact hrecorded.same (fun r => by rw [hcalls.run]; rfl) (fun r => by rw [hcalls.run]; rfl) hlog
  waiting := by
    constructor
    · intro c event hwaiting
      rw [hcalls.inputClosed, hcalls.inputSet]
      obtain hsame | ⟨_, hopen⟩ := hcalls.call c
      · exact h.waiting.waits c event (hsame.symm.trans hwaiting)
      · rw [hopen] at hwaiting
        cases hwaiting
    · intro c hdeferred
      rw [hcalls.emitting, hcalls.deferred, hcalls.run]
      obtain hsame | ⟨_, hopen⟩ := hcalls.call c
      · exact h.waiting.deferred c (hsame.symm.trans hdeferred)
      · rw [hopen] at hdeferred
        cases hdeferred
  serves := by
    obtain ⟨r, phase, hserves⟩ := h.serves
    exact ⟨r, phase, hserves.same hcalls.run hcalls.active hcalls.inputClosed hcalls.emitting
      hcalls.deferred hcalls.queues hcalls.jobs hcalls.abortRequested hcalls.abortDuring⟩

end Kept

section Mailbox

open Session

variable {s t : Session} {r : ℕ} {p : RunPhase}

theorem tickets_of_no_requests {jobs : List Job} (h : jobs.filter Job.isRequest = []) :
    ∃ tickets : List Ticket, jobs = tickets.map Job.enqueue := by
  induction jobs with
  | nil => exact ⟨[], rfl⟩
  | cons job jobs ih =>
    cases job with
    | enqueue ticket =>
      obtain ⟨tickets, rfl⟩ := ih h
      exact ⟨ticket :: tickets, rfl⟩
    | drain | hasQueued => cases h

variable {job : Job}

theorem pending_send (h : job.isRequest = true) : (s.send job).pending = s.pending := by
  unfold Session.pending Session.pendingTickets
  have hjobs : (s.send job).jobs.filterMap Job.ticket? = s.jobs.filterMap Job.ticket? := by
    change (s.jobs ++ [job]).filterMap Job.ticket? = _
    rw [filterMap_append]
    cases job <;> first | exact append_nil _ | cases h
  rw [hjobs]
  rfl

theorem ahead_send (h : job.isRequest = true ∨ s.jobs ≠ []) : (s.send job).ahead = s.ahead := by
  have hhead : ∀ jobs : List Job, job.isRequest = true ∨ jobs ≠ [] →
      (match jobs ++ [job] with | .enqueue _ :: _ => true | _ => false) =
        (match jobs with | .enqueue _ :: _ => true | _ => false) := by
    intro jobs hjobs
    cases jobs with
    | nil =>
      obtain hjob | hne := hjobs
      · cases job <;> first | rfl | cases hjob
      · exact absurd rfl hne
    | cons first rest => cases first <;> rfl
  exact congrArg (s.hasItems || ·) (hhead s.jobs h)

theorem queues_of_hasItems (h : s.hasItems = false) (queue : Queue) :
    (s.queues queue).messages = [] := by
  rw [hasItems, Bool.or_eq_false_iff] at h
  cases queue with
  | steering => simpa using h.1
  | followUp => simpa using h.2

theorem pending_eq_nil (hitems : s.hasItems = false) (hjobs : s.jobs.filterMap Job.ticket? = []) :
    s.pending = [] := by
  unfold Session.pending Session.pendingTickets
  rw [queues_of_hasItems hitems, queues_of_hasItems hitems, hjobs]
  rfl

theorem pending_of_not_ahead (hrequests : s.jobs.filter Job.isRequest = []) (h : s.ahead = false) :
    s.pending = [] := by
  obtain ⟨tickets, htickets⟩ := tickets_of_no_requests hrequests
  rw [ahead, Bool.or_eq_false_iff, htickets] at h
  cases tickets with
  | nil =>
    apply pending_eq_nil h.1
    rw [htickets]
    rfl
  | cons => cases h.2

theorem quiet_of_pending (h : s.pending = []) (hrequests : s.jobs.filter Job.isRequest = []) :
    s.jobs = [] ∧ ∀ queue, (s.queues queue).messages = [] := by
  have htickets := map_eq_nil_iff.mp h
  obtain ⟨hqueues, hjobs⟩ := append_eq_nil_iff.mp htickets
  obtain ⟨hsteering, hfollowUp⟩ := append_eq_nil_iff.mp hqueues
  obtain ⟨tickets, heq⟩ := tickets_of_no_requests hrequests
  constructor
  · rw [heq] at hjobs ⊢
    cases tickets with
    | nil => rfl
    | cons => cases hjobs
  · intro queue
    cases queue with
    | steering => exact hsteering
    | followUp => exact hfollowUp

end Mailbox

section Moves

open Session

variable {s t : Session} {r : ℕ} {p : RunPhase} {x : ℕ} {q : RunPhase}

theorem Serves.place (h : Serves s r p) (hrun : s.run x = q) (hq : q.isQuiet = false) :
    Serves s x q := by
  have heq : x = r := by
    by_contra hne
    have hquiet := h.alone x hne
    rw [hrun] at hquiet
    exact nomatch hq.symm.trans hquiet
  subst heq
  have hp : p = q := h.run.symm.trans hrun
  rwa [hp] at h

theorem alone_setRun (h : ∀ other, other ≠ r → (s.run other).isQuiet = true) (q : RunPhase) :
    ∀ other, other ≠ r → ((s.setRun r q).run other).isQuiet = true := by
  intro other hother
  rw [setRun_run_of_ne s q hother]
  exact h other hother

/-- The run moves on, with the same flags and nothing new to wait for. -/
theorem Serves.setRun (h : Serves s r p) (q : RunPhase) (hactive : q.isActive = p.isActive)
    (hclosed : q.isClosed = p.isClosed) (hemitting : q.isEmitting = p.isEmitting)
    (hrequest : q.request r = p.request r) (hlast : ∀ canContinue, q ≠ .finalCheck canContinue)
    (hdeaf : q.isDeaf s.ahead = true → s.pending = []) : Serves (s.setRun r q) r q where
  run := setRun_run_self s r q
  alone := alone_setRun h.alone q
  active := h.active.trans hactive.symm
  closed := h.closed.trans hclosed.symm
  emitting := h.emitting.trans hemitting.symm
  deferred := h.deferred
  requests := by
    rw [hrequest]
    exact h.requests
  last := fun canContinue hq => absurd hq (hlast canContinue)
  deaf := hdeaf
  unaborted := h.unaborted

variable {job : Job} {continues : Bool}

theorem Serves.ask (h : Serves s r p) (q : RunPhase) (hactive : q.isActive = p.isActive)
    (hclosed : q.isClosed = p.isClosed) (hemitting : q.isEmitting = p.isEmitting)
    (hnone : p.request r = none) (hrequest : q.request r = some job) (hjob : job.isRequest = true)
    (hdeaf : q.isDeaf s.ahead = true → s.pending = []) : Serves ((s.setRun r q).send job) r q where
  run := setRun_run_self s r q
  alone := alone_setRun h.alone q
  active := h.active.trans hactive.symm
  closed := h.closed.trans hclosed.symm
  emitting := h.emitting.trans hemitting.symm
  deferred := h.deferred
  requests := by
    have hold := h.requests
    rw [hnone] at hold
    change (s.jobs ++ [job]).filter Job.isRequest = _
    rw [filter_append, hold, hrequest]
    exact filter_cons_of_pos hjob
  last := by
    rintro canContinue rfl
    have hold := h.requests
    rw [hnone] at hold
    obtain ⟨tickets, htickets⟩ := tickets_of_no_requests hold
    refine ⟨tickets, ?_⟩
    change s.jobs ++ [job] = _
    rw [htickets, ← Option.some.inj hrequest]
  deaf := by
    intro hq
    have hahead : ((s.setRun r q).send job).ahead = s.ahead :=
      (ahead_send (.inl hjob)).trans rfl
    have hpending : ((s.setRun r q).send job).pending = s.pending := (pending_send hjob).trans rfl
    rw [hahead] at hq
    rw [hpending]
    exact hdeaf hq
  unaborted := h.unaborted

theorem Serves.closeInput (h : Serves s r p) (q : RunPhase) (hactive : q.isActive = p.isActive)
    (hopen : p.isClosed = false) (hclosed : q.isClosed = true)
    (hemitting : q.isEmitting = p.isEmitting) (hrequest : q.request r = p.request r)
    (hlast : ∀ canContinue, q ≠ .finalCheck canContinue)
    (hdeaf : q.isDeaf s.ahead = true → s.pending = []) : Serves (s.setRun r q).closeInput r q := by
  have hnone : s.inputClosed = none := by
    rw [← Option.not_isSome_iff_eq_none, h.closed, hopen]
    exact Bool.false_ne_true
  have heq : (s.setRun r q).closeInput =
      { s.setRun r q with inputClosed := some s.inputEvents, inputEvents := s.inputEvents + 1 } := by
    unfold Session.closeInput
    split
    · rfl
    · rename_i event hsome
      exact absurd (hnone.symm.trans hsome) (by simp)
  rw [heq]
  exact {
    run := setRun_run_self s r q
    alone := alone_setRun h.alone q
    active := h.active.trans hactive.symm
    closed := hclosed.symm
    emitting := h.emitting.trans hemitting.symm
    deferred := h.deferred
    requests := by
      rw [hrequest]
      exact h.requests
    last := fun canContinue hq => absurd hq (hlast canContinue)
    deaf := hdeaf
    unaborted := h.unaborted }

theorem Waiting.move (h : Waiting s) (honly : OnlyRun r s t) (hnone : (s.run r).restarts = [])
    (hclosed : ∀ event, s.inputClosed = some event →
      t.inputClosed = some event ∨ event ∈ t.inputSet)
    (hset : s.inputSet ⊆ t.inputSet) (hdeferred : ∀ c, s.isEmittingSettled = true →
      c ∈ s.deferredActions → (t.isEmittingSettled = true ∧ c ∈ t.deferredActions) ∨
        c ∈ (t.run r).restarts) : Waiting t := by
  have hcall : ∀ c, t.call c = s.call c := fun c => by rw [Session.call, honly.calls, Session.call]
  constructor
  · intro c event hwaiting
    rw [hcall] at hwaiting
    obtain hevent | hmem := h.waits c event hwaiting
    · exact hclosed event hevent
    · exact .inr (hset hmem)
  · intro c hc
    rw [hcall] at hc
    obtain ⟨hemitting, hmem⟩ | ⟨other, hmem⟩ := h.deferred c hc
    · obtain hkept | hmoved := hdeferred c hemitting hmem
      · exact .inl hkept
      · exact .inr ⟨r, hmoved⟩
    · have hne : other ≠ r := by
        rintro rfl
        rw [hnone] at hmem
        cases hmem
      right
      use other
      rw [honly.run other hne]
      exact hmem

theorem Told.move (h : Told s) (honly : OnlyRun r s t) (hlog : t.log = s.log)
    (hdecided : (t.run r).isDecided = (s.run r).isDecided) : Told t := by
  refine h.same honly.steady.stage ?_ hlog
  intro other
  by_cases hne : other = r
  · rw [hne, hdecided]
  · rw [honly.run other hne]

theorem Invariant.move (h : Invariant s) (honly : OnlyRun r s t)
    (hrun : s.run r = p) (hlog : t.log = s.log) (hpending : t.pending = s.pending)
    (hdecided : q.isDecided = p.isDecided) (hnone : p.restarts = [])
    (hclosed : ∀ event, s.inputClosed = some event →
      t.inputClosed = some event ∨ event ∈ t.inputSet)
    (hset : s.inputSet ⊆ t.inputSet) (hdeferred : ∀ c, s.isEmittingSettled = true →
      c ∈ s.deferredActions → t.isEmittingSettled = true ∧ c ∈ t.deferredActions)
    (hserves : Serves t r q) : Invariant t where
  custody := h.custody.steady honly.steady
  ledger := h.ledger.same hpending (by rw [hlog]) (by rw [hlog])
    fun c => by rw [Session.call, honly.calls, Session.call]
  told := h.told.move honly hlog (by rw [hserves.run, hrun, hdecided])
  waiting := h.waiting.move honly (by rw [hrun, hnone]) hclosed hset
    fun c hemitting hmem => .inl (hdeferred c hemitting hmem)
  serves := ⟨r, q, hserves⟩

/-- Two places with the same flags. -/
structure Alike (p q : RunPhase) : Prop where
  stage : q.stage = p.stage
  closed : q.isClosed = p.isClosed
  emitting : q.isEmitting = p.isEmitting
  decided : q.isDecided = p.isDecided
  restarts : p.restarts = []

theorem Alike.active (h : Alike p q) : q.isActive = p.isActive := by
  unfold RunPhase.isActive
  rw [h.stage]

theorem Invariant.served (h : Invariant s) (hrun : s.run r = p) (hp : p.isQuiet = false) :
    Serves s r p := by
  obtain ⟨x, phase, hserves⟩ := h.serves
  exact hserves.place hrun hp

theorem Invariant.setRun (h : Invariant s) (hrun : s.run r = p) (hp : p.isQuiet = false)
    (halike : Alike p q) (hrequest : q.request r = p.request r)
    (hlast : ∀ canContinue, q ≠ .finalCheck canContinue)
    (hdeaf : q.isDeaf s.ahead = true → s.pending = []) : Invariant (s.setRun r q) :=
  h.move ((OnlyRun.refl r s).setRun q hrun halike.stage) hrun rfl rfl halike.decided halike.restarts
    (fun _ hevent => .inl hevent) (fun _ hmem => hmem) (fun _ hemitting hmem => ⟨hemitting, hmem⟩)
    ((h.served hrun hp).setRun q halike.active halike.closed halike.emitting hrequest hlast hdeaf)

theorem Invariant.ask (h : Invariant s) (hrun : s.run r = p) (hp : p.isQuiet = false)
    (halike : Alike p q) (hnone : p.request r = none) (hrequest : q.request r = some job)
    (hjob : job.isRequest = true) (hdeaf : q.isDeaf s.ahead = true → s.pending = []) :
    Invariant ((s.setRun r q).send job) :=
  h.move (((OnlyRun.refl r s).setRun q hrun halike.stage).send job) hrun rfl
    ((pending_send hjob).trans rfl) halike.decided halike.restarts
    (fun _ hevent => .inl hevent) (fun _ hmem => hmem) (fun _ hemitting hmem => ⟨hemitting, hmem⟩)
    ((h.served hrun hp).ask q halike.active halike.closed halike.emitting hnone hrequest hjob hdeaf)

theorem closeInput_eq (hnone : s.inputClosed = none) :
    s.closeInput = { s with
      inputClosed := some s.inputEvents, inputEvents := s.inputEvents + 1 } := by
  unfold Session.closeInput
  rw [hnone]

theorem Serves.open (h : Serves s r p) (hopen : p.isClosed = false) : s.inputClosed = none := by
  rw [← Option.not_isSome_iff_eq_none, h.closed, hopen]
  exact Bool.false_ne_true

theorem Invariant.closeInput (h : Invariant s) (hrun : s.run r = p) (hp : p.isQuiet = false)
    (hstage : q.stage = p.stage) (hopen : p.isClosed = false) (hclosed : q.isClosed = true)
    (hemitting : q.isEmitting = p.isEmitting) (hdecided : q.isDecided = p.isDecided)
    (hnone : p.restarts = []) (hrequest : q.request r = p.request r)
    (hlast : ∀ canContinue, q ≠ .finalCheck canContinue)
    (hdeaf : q.isDeaf s.ahead = true → s.pending = []) : Invariant (s.setRun r q).closeInput := by
  have hserves := h.served hrun hp
  have hactive : q.isActive = p.isActive := by
    unfold RunPhase.isActive
    rw [hstage]
  have honly := ((OnlyRun.refl r s).setRun q hrun hstage).closeInput
  have hnew := hserves.closeInput q hactive hopen hclosed hemitting hrequest hlast hdeaf
  have heq := closeInput_eq (s := s.setRun r q) (hserves.open hopen)
  rw [heq] at honly hnew ⊢
  refine h.move honly hrun rfl rfl hdecided hnone ?_ (fun _ hmem => hmem)
    (fun _ hemitting hmem => ⟨hemitting, hmem⟩) hnew
  intro event hevent
  rw [hserves.open hopen] at hevent
  cases hevent

theorem Invariant.begin (h : Invariant s) (hstep : s.begin r = some t) : Invariant t := by
  unfold Session.begin at hstep
  split at hstep <;> rename_i hrun <;> cases hstep
  exact h.setRun hrun rfl ⟨rfl, rfl, rfl, rfl, rfl⟩ rfl nofun nofun

theorem Invariant.poll (h : Invariant s) {queue : Queue} (hstep : s.poll r queue = some t) :
    Invariant t := by
  unfold Session.poll at hstep
  split at hstep <;> rename_i hrun <;> cases hstep
  exact h.ask hrun rfl ⟨rfl, rfl, rfl, rfl, rfl⟩ rfl rfl rfl nofun

theorem Invariant.finish (h : Invariant s) (hstep : s.finish r = some t) : Invariant t := by
  unfold Session.finish at hstep
  split at hstep <;> rename_i hrun <;> cases hstep
  exact h.setRun hrun rfl ⟨rfl, rfl, rfl, rfl, rfl⟩ rfl nofun nofun

theorem Invariant.postRun (h : Invariant s) {recovers : Bool}
    (hstep : s.postRun r recovers = some t) : Invariant t := by
  unfold Session.postRun at hstep
  split at hstep <;> rename_i hrun <;> cases hstep
  · rw [if_neg (by rw [(h.served hrun rfl).unaborted.1]; exact Bool.false_ne_true)]
    split
    · exact h.setRun hrun rfl ⟨rfl, rfl, rfl, rfl, rfl⟩ rfl nofun nofun
    · exact h.ask hrun rfl ⟨rfl, rfl, rfl, rfl, rfl⟩ rfl rfl rfl nofun
  · rw [if_neg (by rw [(h.served hrun rfl).unaborted.1]; exact Bool.false_ne_true)]
    split
    · exact h.setRun hrun rfl ⟨rfl, rfl, rfl, rfl, rfl⟩ rfl nofun nofun
    · exact h.setRun hrun rfl ⟨rfl, rfl, rfl, rfl, rfl⟩ rfl nofun nofun

theorem Invariant.enterBoundary (h : Invariant s) {hasHandlers : Bool}
    (hstep : s.enterBoundary r hasHandlers = some t) : Invariant t := by
  unfold Session.enterBoundary at hstep
  split at hstep <;> rename_i hrun <;> cases hstep
  split
  · have hhooks : Invariant (s.setRun r .hooks) :=
      h.setRun hrun rfl ⟨rfl, rfl, rfl, rfl, rfl⟩ rfl nofun nofun
    have hserves := hhooks.served (setRun_run_self s r .hooks) rfl
    have honly : OnlyRun r (s.setRun r .hooks)
        { s.setRun r .hooks with isBeforeSettle := true, abortDuringBeforeSettle := false } :=
      { OnlyRun.refl r _ with }
    exact hhooks.move honly (setRun_run_self s r .hooks) rfl rfl rfl rfl
      (fun _ hevent => .inl hevent) (fun _ hmem => hmem) (fun _ hemitting hmem => ⟨hemitting, hmem⟩)
      { hserves with unaborted := ⟨hserves.unaborted.1, rfl⟩ }
  · exact h.closeInput hrun rfl rfl rfl rfl rfl rfl rfl rfl nofun nofun

/-- A context that cannot go on has found nothing queued. -/
theorem Invariant.project (h : Invariant s) {context : BoundaryContext}
    (hheard : s.ahead = true → context.canContinue true = true)
    (hstep : s.project r continues context = some t) : Invariant t := by
  unfold Session.project at hstep
  split at hstep <;> rename_i hrun <;> cases hstep
  have hdeaf : (RunPhase.snapshot continues context).isDeaf s.ahead = true → s.pending = [] := by
    intro hdeaf
    apply pending_of_not_ahead (h.served hrun rfl).requests
    by_contra hahead
    rw [Bool.not_eq_false] at hahead
    change (!context.canContinue s.ahead) = true at hdeaf
    rw [hahead, hheard hahead] at hdeaf
    cases hdeaf
  exact h.ask hrun rfl ⟨rfl, rfl, rfl, rfl, rfl⟩ rfl rfl rfl hdeaf

theorem Invariant.close (h : Invariant s) (hstep : s.close r = some t) : Invariant t := by
  unfold Session.close at hstep
  split at hstep <;> rename_i hrun <;> cases hstep
  have hserves := h.served hrun rfl
  rw [if_neg (by rw [hserves.unaborted.2]; exact Bool.false_ne_true)]
  exact h.closeInput hrun rfl rfl rfl rfl rfl rfl rfl rfl nofun hserves.deaf

theorem Invariant.check (h : Invariant s) (hstep : s.check r = some t) : Invariant t := by
  unfold Session.check at hstep
  split at hstep <;> rename_i hrun <;> cases hstep
  · exact h.setRun hrun rfl ⟨rfl, rfl, rfl, rfl, rfl⟩ rfl nofun (h.served hrun rfl).deaf
  · exact h.ask hrun rfl ⟨rfl, rfl, rfl, rfl, rfl⟩ rfl rfl rfl (h.served hrun rfl).deaf

theorem Ledger.settled (h : Ledger s) (hpending : s.pending = []) :
    (takenCalls s.log).Perm (postedCalls s.log) := by
  have hmessages := h.messages
  rwa [hpending, append_nil] at hmessages

theorem Told.decide (h : Told s) (hcustody : Custody s) (hrun : s.run r = p)
    (hactive : p.stage = .active) (hundecided : p.isDecided = false) (hstage : q.stage = p.stage)
    (hdecided : q.isDecided = !continues)
    (hperm : continues = false → (takenCalls s.log).Perm (postedCalls s.log)) :
    Told ((s.setRun r q).record (.decided r continues)) := by
  have hnew : Entry.decided r false ∉ s.log := by
    rw [h.decided, hrun, hundecided]
    exact Bool.false_ne_true
  have hsteady := (Steady.refl s).setRun q hrun hstage
  constructor
  · refine h.justified.concat ⟨?_, hnew, hperm⟩
    exact (hcustody.told r).trans (by rw [hrun, hactive])
  · intro other
    have hne : Entry.claimed other ≠ .decided r continues := nofun
    refine (mem_concat_of_ne s.log hne).trans ((h.claimed other).trans ?_)
    exact not_congr (by rw [← hsteady.stage other]; rfl)
  · intro other
    have hne : Entry.released other ≠ .decided r continues := nofun
    refine (mem_concat_of_ne s.log hne).trans ((h.released other).trans ?_)
    rw [← hsteady.stage other]
    rfl
  · intro other
    change Entry.decided other false ∈ s.log ++ [Entry.decided r continues] ↔
      ((s.setRun r q).run other).isDecided = true
    by_cases hother : other = r
    · rw [hother, setRun_run_self, hdecided, mem_append, mem_singleton]
      cases continues with
      | true => exact iff_of_false (fun hmem => hmem.elim hnew nofun) Bool.false_ne_true
      | false => exact iff_of_true (.inr rfl) rfl
    · rw [setRun_run_of_ne s q hother, ← h.decided other]
      exact mem_concat_of_ne s.log fun heq => hother (Entry.decided.inj heq).1

theorem ledger_record (h : Ledger s) {entry : Entry} (hposted : ∀ c, entry ≠ .posted c)
    (hdrained : ∀ r calls, entry ≠ .drained r calls) : Ledger (s.record entry) := by
  refine Ledger.same (t := s.record entry) h rfl ?_ ?_ fun _ => .rfl
  · change postedCalls (s.log ++ [entry]) = _
    rw [postedCalls_concat]
    cases entry with
    | posted c => exact absurd rfl (hposted c)
    | claimed | drained | decided | released | settled | compacted | leafMoved =>
      exact append_nil _
  · change takenCalls (s.log ++ [entry]) = _
    rw [takenCalls_concat]
    cases entry with
    | drained r calls => exact absurd rfl (hdrained r calls)
    | claimed | posted | decided | released | settled | compacted | leafMoved =>
      exact append_nil _

theorem Invariant.decide (h : Invariant s) (hstep : s.decide r = some t) : Invariant t := by
  have honly := onlyRun_decide hstep
  unfold Session.decide at hstep
  split at hstep <;> rename_i hrun <;> cases hstep
  all_goals have hserves := h.served hrun rfl
  · have hphase : (if s.abortRequested then RunPhase.ending else .looping) = .looping :=
      if_neg (by rw [hserves.unaborted.1]; exact Bool.false_ne_true)
    rw [hphase] at honly ⊢
    have htold : Told ((s.setRun r .looping).record (.decided r true)) :=
      h.told.decide h.custody hrun rfl rfl rfl rfl nofun
    have hmoved : Ledger (s.setRun r .looping) := h.ledger.same rfl rfl rfl fun _ => .rfl
    have hledger : Ledger ((s.setRun r .looping).record (.decided r true)) :=
      ledger_record hmoved nofun nofun
    constructor
    · exact h.custody.steady honly.steady
    · exact hledger.same rfl rfl rfl fun _ => .rfl
    · exact htold.same (fun _ => rfl) (fun _ => rfl) rfl
    · refine h.waiting.move honly (by rw [hrun]; rfl) ?_ (fun _ hmem => mem_append_left _ hmem)
        fun c hemitting hmem => .inl ⟨hemitting, hmem⟩
      intro event hevent
      right
      apply mem_append_right
      change event ∈ s.inputClosed.toList
      rw [hevent]
      exact mem_singleton_self _
    · refine ⟨r, .looping, ?_⟩
      exact {
        run := setRun_run_self s r .looping
        alone := alone_setRun hserves.alone .looping
        active := hserves.active
        closed := rfl
        emitting := hserves.emitting
        deferred := hserves.deferred
        requests := hserves.requests
        last := nofun
        deaf := nofun
        unaborted := hserves.unaborted }
  · have hperm := h.ledger.settled (hserves.deaf rfl)
    have htold : Told ((s.setRun r .ending).record (.decided r false)) :=
      h.told.decide h.custody hrun rfl rfl rfl rfl fun _ => hperm
    have hmoved : Ledger (s.setRun r .ending) := h.ledger.same rfl rfl rfl fun _ => .rfl
    have hledger : Ledger ((s.setRun r .ending).record (.decided r false)) :=
      ledger_record hmoved nofun nofun
    constructor
    · exact h.custody.steady honly.steady
    · exact hledger.same rfl rfl rfl fun _ => .rfl
    · exact htold.same (fun _ => rfl) (fun _ => rfl) rfl
    · exact h.waiting.move honly (by rw [hrun]; rfl) (fun _ hevent => .inl hevent)
        (fun _ hmem => hmem) fun c hemitting hmem => .inl ⟨hemitting, hmem⟩
    · have hending : Serves (s.setRun r .ending) r .ending :=
        hserves.setRun .ending rfl rfl rfl rfl nofun hserves.deaf
      exact ⟨r, .ending, hending.same rfl rfl rfl rfl rfl rfl rfl rfl rfl⟩

theorem Invariant.release (h : Invariant s) (hstep : s.release r = some t) : Invariant t := by
  have hcustody := h.custody.releases hstep
  unfold Session.release at hstep
  split at hstep <;> rename_i hrun <;> cases hstep
  have hserves := h.served hrun rfl
  have hself : (s.setRun r .released).run r = .released := setRun_run_self s r .released
  have hother : ∀ other, other ≠ r → (s.setRun r .released).run other = s.run other :=
    fun other hne => setRun_run_of_ne s _ hne
  have hmoved : Ledger (s.setRun r .released) := h.ledger.same rfl rfl rfl fun _ => .rfl
  have hledger : Ledger ((s.setRun r .released).record (.released r)) :=
    ledger_record hmoved nofun nofun
  refine ⟨hcustody, hledger.same rfl rfl rfl fun _ => .rfl, ?_, ?_, r, .released, ?_⟩
  · constructor
    · refine h.told.justified.concat ⟨(h.custody.told r).trans (by rw [hrun]; rfl), ?_⟩
      rw [h.told.decided, hrun]
      rfl
    · intro other
      have hne : Entry.claimed other ≠ .released r := nofun
      refine (mem_concat_of_ne s.log hne).trans ((h.told.claimed other).trans ?_)
      change _ ↔ ((s.setRun r .released).run other).stage ≠ .unclaimed
      by_cases heq : other = r
      · rw [heq, hself, hrun]
        decide
      · rw [hother other heq]
    · intro other
      change _ ∈ s.log ++ [Entry.released r] ↔ ((s.setRun r .released).run other).stage = .released
      by_cases heq : other = r
      · rw [heq, hself]
        exact iff_of_true (mem_append_right _ (mem_singleton_self _)) rfl
      · rw [hother other heq, ← h.told.released other]
        exact mem_concat_of_ne s.log fun hreleased => heq (Entry.released.inj hreleased)
    · intro other
      have hne : Entry.decided other false ≠ .released r := nofun
      refine (mem_concat_of_ne s.log hne).trans ((h.told.decided other).trans ?_)
      change _ ↔ ((s.setRun r .released).run other).isDecided = true
      by_cases heq : other = r
      · rw [heq, hself, hrun]
        decide
      · rw [hother other heq]
  · constructor
    · exact h.waiting.waits
    · intro c hdeferred
      obtain hemitting | ⟨other, hmem⟩ := h.waiting.deferred c hdeferred
      · exact .inl hemitting
      · right
        use other
        have hne : other ≠ r := by
          rintro rfl
          rw [hrun] at hmem
          cases hmem
        change c ∈ ((s.setRun r .released).run other).restarts
        rw [hother other hne]
        exact hmem
  · exact {
      run := hself
      alone := alone_setRun hserves.alone .released
      active := rfl
      closed := hserves.closed
      emitting := hserves.emitting
      deferred := hserves.deferred
      requests := hserves.requests
      last := nofun
      deaf := hserves.deaf
      unaborted := hserves.unaborted }

theorem Invariant.emitSettled (h : Invariant s) (hstep : s.emitSettled r = some t) :
    Invariant t := by
  have honly := onlyRun_emitSettled hstep
  unfold Session.emitSettled at hstep
  split at hstep <;> rename_i hrun <;> cases hstep
  have hserves := h.served hrun rfl
  refine h.move (q := .emitting) honly hrun rfl rfl rfl rfl (fun _ hevent => .inl hevent)
    (fun _ hmem => hmem) (fun _ _ hmem => ⟨rfl, hmem⟩) ?_
  exact {
    run := setRun_run_self s r .emitting
    alone := alone_setRun hserves.alone .emitting
    active := hserves.active
    closed := hserves.closed
    emitting := rfl
    deferred := nofun
    requests := hserves.requests
    last := nofun
    deaf := hserves.deaf
    unaborted := hserves.unaborted }

/-- The run settles, and has to start over whatever was deferred meanwhile. -/
theorem Invariant.settle (h : Invariant s) (hstep : s.settle r = some t) : Invariant t := by
  have honly := onlyRun_settle hstep
  unfold Session.settle at hstep
  split at hstep <;> rename_i hrun <;> cases hstep
  have hserves := h.served hrun rfl
  have hself := setRun_run_self s r (.restarting s.deferredActions)
  have hmoved : Ledger (s.setRun r (.restarting s.deferredActions)) :=
    h.ledger.same rfl rfl rfl fun _ => .rfl
  have hledger : Ledger ((s.setRun r (.restarting s.deferredActions)).record (.settled r)) :=
    ledger_record hmoved nofun nofun
  have hstage := ((Steady.refl s).setRun (.restarting s.deferredActions) hrun rfl).stage
  have htold : Told (s.setRun r (.restarting s.deferredActions)) := by
    refine h.told.same hstage ?_ rfl
    intro other
    by_cases heq : other = r
    · rw [heq, hself, hrun]
      rfl
    · rw [setRun_run_of_ne s _ heq]
  have hreleased : Entry.released r ∈ s.log := by
    rw [h.told.released, hrun]
    rfl
  have hsettled : Told ((s.setRun r (.restarting s.deferredActions)).record (.settled r)) :=
    htold.record ⟨hreleased, h.ledger.settled (hserves.deaf rfl)⟩ rfl nofun
  refine ⟨h.custody.steady honly.steady, hledger.same rfl rfl rfl fun _ => .rfl,
    hsettled.same (fun _ => rfl) (fun _ => rfl) rfl, ?_, r, .restarting s.deferredActions, ?_⟩
  · refine h.waiting.move honly (by rw [hrun]; rfl) ?_ (fun _ hmem => mem_append_left _ hmem) ?_
    · intro event hevent
      right
      apply mem_append_right
      change event ∈ s.inputClosed.toList
      rw [hevent]
      exact mem_singleton_self _
    · intro c _ hmem
      right
      change c ∈ ((s.setRun r (.restarting s.deferredActions)).run r).restarts
      rw [hself]
      exact hmem
  · exact {
      run := hself
      alone := alone_setRun hserves.alone _
      active := hserves.active
      closed := rfl
      emitting := rfl
      deferred := fun _ => rfl
      requests := hserves.requests
      last := nofun
      deaf := hserves.deaf
      unaborted := hserves.unaborted }

theorem Invariant.resolveIdle (h : Invariant s) : Invariant s.resolveIdle := by
  have hcustody := h.custody.steady (Steady.refl s).resolveIdle
  unfold Session.resolveIdle at hcustody ⊢
  split
  · rename_i hidle
    rw [if_pos hidle] at hcustody
    obtain ⟨r, phase, hserves⟩ := h.serves
    exact ⟨hcustody, h.ledger.same rfl rfl rfl fun _ => .rfl,
      h.told.same (fun _ => rfl) (fun _ => rfl) rfl, ⟨h.waiting.waits, h.waiting.deferred⟩,
      r, phase, hserves.same rfl rfl rfl rfl rfl rfl rfl rfl rfl⟩
  · exact h

/-- Nothing is asked, open or left behind by a run that has settled. -/
theorem isDeaf_of_isQuiet (h : p.isQuiet = true) (queued : Bool) :
    p.isActive = false ∧ p.isClosed = false ∧ p.isEmitting = false ∧ p.request r = none ∧
      p.isDeaf queued = true := by
  cases p <;> first | exact ⟨rfl, rfl, rfl, rfl, rfl⟩ | cases h

/-- A run that has settled goes through its deferred actions. -/
theorem Serves.setQuiet (h : Serves s r p) (hold : (s.run x).isQuiet = true)
    (hnew : q.isQuiet = true) : ∃ y phase, Serves (s.setRun x q) y phase := by
  by_cases hx : x = r
  · subst hx
    rw [h.run] at hold
    obtain ⟨hactive, hclosed, hemitting, hrequest, hdeaf⟩ := isDeaf_of_isQuiet (r := x) hold s.ahead
    obtain ⟨hactive', hclosed', hemitting', hrequest', _⟩ :=
      isDeaf_of_isQuiet (r := x) hnew s.ahead
    refine ⟨x, q, h.setRun q (hactive'.trans hactive.symm) (hclosed'.trans hclosed.symm)
      (hemitting'.trans hemitting.symm) (hrequest'.trans hrequest.symm) ?_ fun _ => h.deaf hdeaf⟩
    rintro canContinue rfl
    cases hnew
  · refine ⟨r, p, ?_⟩
    have hne : r ≠ x := fun heq => hx heq.symm
    exact { h with
      run := (setRun_run_of_ne s q hne).trans h.run
      alone := by
        intro other hother
        by_cases heq : other = x
        · rw [heq, setRun_run_self]
          exact hnew
        · rw [setRun_run_of_ne s q heq]
          exact h.alone other hother }

theorem Invariant.setQuiet (h : Invariant s) (hrun : s.run x = p) (hold : p.isQuiet = true)
    (hnew : q.isQuiet = true) (hstage : q.stage = p.stage) (hdecided : q.isDecided = p.isDecided)
    (hrestarts : ∀ c, (s.call c).standing = .deferred → c ∈ p.restarts → c ∈ q.restarts) :
    Invariant (s.setRun x q) := by
  have honly := (OnlyRun.refl x s).setRun q hrun hstage
  obtain ⟨r, phase, hserves⟩ := h.serves
  have hquiet : (s.run x).isQuiet = true := by rw [hrun, hold]
  refine ⟨h.custody.steady honly.steady, h.ledger.same rfl rfl rfl fun _ => .rfl,
    h.told.move honly rfl ?_, ⟨h.waiting.waits, ?_⟩, hserves.setQuiet hquiet hnew⟩
  · rw [setRun_run_self, hrun, hdecided]
  · intro c hdeferred
    obtain hemitting | ⟨other, hmem⟩ := h.waiting.deferred c hdeferred
    · exact .inl hemitting
    · right
      use other
      by_cases heq : other = x
      · rw [heq, hrun] at hmem
        rw [heq, setRun_run_self]
        exact hrestarts c hdeferred hmem
      · rw [setRun_run_of_ne s q heq]
        exact hmem

/-- A call whose message is not accepted has nothing more to wait for. -/
theorem Invariant.setOpen (h : Invariant s) {c : ℕ} {call : Call}
    (hqueued : (s.call c).standing ≠ .queued) (hstarted : (s.call c).standing ≠ .started)
    (hopen : call.standing = .open) : Invariant (s.setCall c call) := by
  have hcalls : ∀ other, ((s.setCall c call).call other).standing = .open ∨
      (s.setCall c call).call other = s.call other := by
    intro other
    by_cases hother : other = c
    · rw [hother]
      obtain hnew | hsame := setCall_call s c call
      · exact .inl (by rw [hnew, hopen])
      · exact .inr hsame
    · exact .inr (setCall_call_of_ne s call hother)
  have hkept : ∀ (other : ℕ) (standing : Standing), standing ≠ .open →
      ((s.setCall c call).call other).standing = standing → (s.call other).standing = standing := by
    intro other standing hne hstanding
    obtain hnew | hsame := hcalls other
    · exact absurd (hstanding.symm.trans hnew) hne
    · rwa [hsame] at hstanding
  obtain ⟨r, phase, hserves⟩ := h.serves
  refine ⟨h.custody.steady ((Steady.refl s).setLoose hstarted (by rw [hopen]; decide)), ?_,
    h.told.same (fun _ => rfl) (fun _ => rfl) rfl, ⟨?_, ?_⟩, r, phase,
    hserves.same rfl rfl rfl rfl rfl rfl rfl rfl rfl⟩
  · refine h.ledger.same rfl rfl rfl fun other => ⟨hkept other .queued (by decide), ?_⟩
    intro hother
    have hne : other ≠ c := by
      rintro rfl
      exact hqueued hother
    rw [setCall_call_of_ne s call hne]
    exact hother
  · exact fun other event hother =>
      h.waiting.waits other event (hkept other (.waiting event) (by simp) hother)
  · exact fun other hother => h.waiting.deferred other (hkept other .deferred (by decide) hother)

theorem Invariant.restart (h : Invariant s) (hregular : Regular s (.restart r))
    (hstep : s.restart r = some t) : Invariant t := by
  unfold Session.restart at hstep
  split at hstep <;> rename_i hrun
  · rename_i c rest
    obtain ⟨call, hcall, rfl⟩ := Option.map_eq_some_iff.mp hstep
    obtain ⟨hdeferred, hopen⟩ := standing_again hcall
    have hagain : Invariant (s.setCall c call) :=
      h.setOpen (by rw [hdeferred]; decide) (by rw [hdeferred]; decide) hopen
    refine hagain.setQuiet hrun rfl rfl rfl rfl ?_
    intro other hother hmem
    obtain rfl | hrest := mem_cons.mp hmem
    · have hmade : s.call other ≠ .absent := by
        intro habsent
        rw [habsent] at hdeferred
        cases hdeferred
      rw [setCall_call_self (lt_of_call_ne hmade), hopen] at hother
      cases hother
    · exact hrest
  · rename_i c rest
    split at hstep
    · rename_i hraised
      unfold Regular at hregular
      dsimp only at hregular
      rw [hrun] at hregular
      exact nomatch hregular.symm.trans hraised
    · split at hstep <;> cases hstep
      exact h.setQuiet hrun rfl rfl rfl rfl fun _ _ hmem => hmem
  · cases hstep
    exact (h.setQuiet (q := .over) hrun rfl rfl rfl rfl nofun).resolveIdle
  · cases hstep

end Moves

section Work

open Session

variable {s t : Session} {r c : ℕ} {p : RunPhase}

def otherQueue : Queue → Queue
  | .steering => .followUp
  | .followUp => .steering

theorem pendingTickets_perm (s : Session) (queue : Queue) :
    s.pendingTickets.Perm ((s.queues queue).messages ++ ((s.queues (otherQueue queue)).messages ++
      s.jobs.filterMap Job.ticket?)) := by
  unfold Session.pendingTickets
  rw [append_assoc]
  cases queue with
  | steering => exact .refl _
  | followUp => exact perm_append_comm_assoc _ _ _

theorem setQueue_queues_self (s : Session) (queue : Queue) (pending : PendingMessages) :
    (s.setQueue queue pending).queues queue = pending := by
  simp only [setQueue, update_self]

theorem setQueue_queues_other (s : Session) (queue : Queue) (pending : PendingMessages) :
    (s.setQueue queue pending).queues (otherQueue queue) = s.queues (otherQueue queue) := by
  have hne : otherQueue queue ≠ queue := by
    cases queue <;> decide
  simp only [setQueue, update_of_ne hne]

variable {queue : Queue} {jobs : List Job}

theorem hasItems_of_mem (h : (s.queues queue).messages ≠ []) : s.hasItems = true := by
  unfold hasItems
  cases queue with
  | steering => simp [h]
  | followUp => simp [h]

/-- The state after the mailbox has moved a message to its queue. -/
def enqueued (s : Session) (ticket : Ticket) (jobs : List Job) : Session :=
  { s with jobs }.setQueue ticket.queue ((s.queues ticket.queue).enqueue ticket)

variable {ticket : Ticket} {calls : List ℕ}

theorem enqueued_pending (hjobs : s.jobs = .enqueue ticket :: jobs) :
    (enqueued s ticket jobs).pending.Perm s.pending := by
  apply List.Perm.map
  have hnew := pendingTickets_perm (enqueued s ticket jobs) ticket.queue
  have hold := pendingTickets_perm s ticket.queue
  unfold enqueued at hnew ⊢
  rw [setQueue_queues_self, setQueue_queues_other] at hnew
  refine hnew.trans (.trans ?_ hold.symm)
  change ((s.queues ticket.queue).messages ++ [ticket] ++ ((s.queues (otherQueue ticket.queue)).messages ++
    jobs.filterMap Job.ticket?)).Perm _
  rw [hjobs, filterMap_cons_some (show Job.ticket? (.enqueue ticket) = some ticket from rfl),
    append_assoc]
  apply List.Perm.append_left
  rw [singleton_append]
  exact perm_middle.symm

theorem Invariant.enqueue (h : Invariant s) (hjobs : s.jobs = .enqueue ticket :: jobs) :
    Invariant (enqueued s ticket jobs) := by
  have hpending := enqueued_pending hjobs
  obtain ⟨r, p, hserves⟩ := h.serves
  have honly : OnlyRun r s (enqueued s ticket jobs) := { OnlyRun.refl r s with }
  have hahead : s.ahead = true := by
    unfold ahead
    rw [hjobs, Bool.or_true]
  refine ⟨h.custody.steady honly.steady, ⟨?_, h.ledger.queued⟩,
    h.told.same (fun _ => rfl) (fun _ => rfl) rfl, ⟨h.waiting.waits, h.waiting.deferred⟩, r, p, ?_⟩
  · exact (List.Perm.append_left _ hpending).trans h.ledger.messages
  · have hrequests := hserves.requests
    rw [hjobs] at hrequests
    refine ⟨hserves.run, hserves.alone, hserves.active, hserves.closed, hserves.emitting,
      hserves.deferred, hrequests, ?_, ?_, hserves.unaborted⟩
    · intro canContinue hp
      obtain ⟨tickets, htickets⟩ := hserves.last canContinue hp
      rw [hjobs] at htickets
      cases tickets with
      | nil => cases htickets
      | cons first rest => exact ⟨rest, (cons.inj htickets).2⟩
    · intro hdeaf
      have hnew : (enqueued s ticket jobs).ahead = true := by
        have hitems : (enqueued s ticket jobs).hasItems = true := by
          have hqueue : (enqueued s ticket jobs).queues ticket.queue =
              (s.queues ticket.queue).enqueue ticket := setQueue_queues_self _ _ _
          apply hasItems_of_mem
          rw [hqueue]
          exact append_ne_nil_of_right_ne_nil _ (cons_ne_nil _ _)
        unfold ahead
        rw [hitems, Bool.true_or]
      rw [hnew] at hdeaf
      rw [hserves.deaf (by rw [hahead, hdeaf])] at hpending
      exact hpending.eq_nil

/-- The state after the mailbox has drained a queue for a run. -/
def drained (s : Session) (queue : Queue) (jobs : List Job) : Session :=
  { s with jobs }.setQueue queue (s.queues queue).drain

def drainedCalls (s : Session) (queue : Queue) : List ℕ := (s.queues queue).peek.map Ticket.id

theorem drained_pending (hjobs : s.jobs = .drain r queue :: jobs) :
    (drainedCalls s queue ++ (drained s queue jobs).pending).Perm s.pending := by
  unfold drainedCalls Session.pending
  rw [← map_append]
  apply List.Perm.map
  have hnew := pendingTickets_perm (drained s queue jobs) queue
  have hold := pendingTickets_perm s queue
  unfold drained at hnew ⊢
  rw [setQueue_queues_self, setQueue_queues_other] at hnew
  refine (List.Perm.append_left _ hnew).trans (.trans ?_ hold.symm)
  rw [← append_assoc, (s.queues queue).peek_append_drain, hjobs]
  exact .refl _

theorem Serves.request_of_head (h : Serves s r p) {job : Job} (hjobs : s.jobs = job :: jobs)
    (hjob : job.isRequest = true) : p.request r = some job ∧ jobs.filter Job.isRequest = [] := by
  have hrequests := h.requests
  rw [hjobs, filter_cons_of_pos hjob] at hrequests
  cases hrequest : p.request r with
  | none =>
    rw [hrequest] at hrequests
    cases hrequests
  | some other =>
    rw [hrequest] at hrequests
    obtain ⟨rfl, hrest⟩ := cons.inj hrequests
    exact ⟨rfl, hrest⟩

theorem Ledger.drain (h : Ledger s) (hlog : t.log = s.log ++ [Entry.drained r calls])
    (hpending : (calls ++ t.pending).Perm s.pending) (hcalls : t.calls = s.calls) : Ledger t where
  messages := by
    rw [hlog, takenCalls_concat, postedCalls_concat, append_nil, append_assoc]
    exact (List.Perm.append_left _ hpending).trans h.messages
  queued := by
    intro c
    rw [hlog, postedCalls_concat, append_nil, Session.call, hcalls]
    exact h.queued c

theorem Ledger.drains (h : Ledger s) {pending : List ℕ}
    (hpending : (calls ++ pending).Perm s.pending) :
    (takenCalls s.log ++ calls).Subperm (postedCalls s.log) := by
  have hmessages : (takenCalls s.log ++ calls ++ pending).Perm (postedCalls s.log) := by
    rw [append_assoc]
    exact (List.Perm.append_left _ hpending).trans h.messages
  exact (sublist_append_left _ _).subperm.trans hmessages.subperm

theorem Serves.drained (h : Serves s r p) (halike : Alike p .looping)
    (hrun : t.run = update s.run r .looping) (hactive : t.active = s.active)
    (hclosed : t.inputClosed = s.inputClosed) (hemitting : t.isEmittingSettled = s.isEmittingSettled)
    (hdeferred : t.deferredActions = s.deferredActions)
    (hrequests : t.jobs.filter Job.isRequest = []) (habort : t.abortRequested = s.abortRequested)
    (hduring : t.abortDuringBeforeSettle = s.abortDuringBeforeSettle) : Serves t r .looping where
  run := by rw [hrun, update_self]
  alone := by
    intro other hother
    rw [hrun, update_of_ne hother]
    exact h.alone other hother
  active := hactive.trans (h.active.trans halike.active.symm)
  closed := by rw [hclosed, h.closed, halike.closed]
  emitting := by rw [hemitting, h.emitting, halike.emitting]
  deferred := by
    rw [hemitting, hdeferred]
    exact h.deferred
  requests := hrequests
  last := nofun
  deaf := nofun
  unaborted := by
    rw [habort, hduring]
    exact h.unaborted

theorem Invariant.drain (h : Invariant s) (hjobs : s.jobs = .drain r queue :: jobs) :
    Invariant (((drained s queue jobs).setRun r (s.run r).polled).record
      (.drained r (drainedCalls s queue))) := by
  obtain ⟨x, p, hserves⟩ := h.serves
  obtain ⟨hrequest, hrest⟩ := hserves.request_of_head hjobs rfl
  have hpolling : x = r ∧ p = .polling queue := by
    cases p <;> cases hrequest
    exact ⟨rfl, rfl⟩
  obtain ⟨rfl, rfl⟩ := hpolling
  have hrun := hserves.run
  have hpending := drained_pending hjobs
  have hactive : ActiveIn s.log x := (h.custody.told x).trans (by rw [hrun]; rfl)
  have hundecided : Entry.decided x false ∉ s.log := by
    rw [h.told.decided, hrun]
    exact Bool.false_ne_true
  have hmoved : OnlyRun x s (s.setRun x .looping) := (OnlyRun.refl x s).setRun .looping hrun rfl
  have htold : Told ((s.setRun x .looping).record (.drained x (drainedCalls s queue))) :=
    (h.told.move hmoved rfl (by rw [setRun_run_self, hrun]; rfl)).record
      ⟨hactive, hundecided, h.ledger.drains hpending⟩ rfl nofun
  rw [hrun]
  change Invariant { s with
    jobs
    queues := update s.queues queue (s.queues queue).drain
    run := update s.run x .looping
    log := s.log ++ [Entry.drained x (drainedCalls s queue)] }
  have honly : OnlyRun x s { s with
      jobs
      queues := update s.queues queue (s.queues queue).drain
      run := update s.run x .looping
      log := s.log ++ [Entry.drained x (drainedCalls s queue)] } :=
    { hmoved with log := .inr ⟨.drained x (drainedCalls s queue), rfl, rfl⟩ }
  exact {
    custody := h.custody.steady honly.steady
    ledger := h.ledger.drain rfl hpending rfl
    told := htold.same (fun _ => rfl) (fun _ => rfl) rfl
    waiting := h.waiting.move honly (by rw [hrun]; rfl) (fun _ hevent => .inl hevent)
      (fun _ hmem => hmem) fun c hemitting hmem => .inl ⟨hemitting, hmem⟩
    serves := ⟨x, .looping, hserves.drained ⟨rfl, rfl, rfl, rfl, rfl⟩ rfl rfl rfl rfl rfl hrest rfl
      rfl⟩ }

theorem Invariant.answer (h : Invariant s) (hjobs : s.jobs = .hasQueued r :: jobs) :
    Invariant ({ s with jobs }.setRun r ((s.run r).answered s.hasItems)) := by
  obtain ⟨x, p, hserves⟩ := h.serves
  obtain ⟨hrequest, hrest⟩ := hserves.request_of_head hjobs rfl
  have hx : x = r := by
    cases p <;> cases hrequest <;> rfl
  subst hx
  have hpending : Session.pending { s with jobs } = s.pending := by
    unfold Session.pending Session.pendingTickets
    rw [hjobs]
    rfl
  have hahead : s.ahead = s.hasItems := by
    unfold ahead
    rw [hjobs, Bool.or_false]
  have hstate : OnlyRun x s { s with jobs } := { OnlyRun.refl x s with }
  have hmove : ∀ {q : RunPhase}, Alike p q → q.request x = none →
      (∀ canContinue, q ≠ .finalCheck canContinue) → (q.isDeaf s.hasItems = true → s.pending = []) →
      (∀ queued, q.isDeaf queued = q.isDeaf s.hasItems) → Invariant ({ s with jobs }.setRun x q) := by
    intro q halike hnone hlast hdeaf hsame
    refine h.move (hstate.setRun q hserves.run halike.stage) hserves.run rfl hpending halike.decided
      halike.restarts (fun _ hevent => .inl hevent) (fun _ hmem => hmem)
      (fun _ hemitting hmem => ⟨hemitting, hmem⟩) ?_
    exact {
      run := setRun_run_self _ x q
      alone := by
        intro other hother
        rw [setRun_run_of_ne _ _ hother]
        exact hserves.alone other hother
      active := hserves.active.trans halike.active.symm
      closed := hserves.closed.trans halike.closed.symm
      emitting := hserves.emitting.trans halike.emitting.symm
      deferred := hserves.deferred
      requests := by
        rw [hnone]
        exact hrest
      last := fun canContinue hq => absurd hq (hlast canContinue)
      deaf := by
        intro hq
        rw [hsame] at hq
        exact hpending.trans (hdeaf hq)
      unaborted := hserves.unaborted }
  rw [hserves.run]
  cases hp : p with
  | postCheck =>
    subst hp
    exact hmove ⟨rfl, rfl, rfl, rfl, rfl⟩ rfl nofun nofun fun _ => rfl
  | snapshot continues context =>
    subst hp
    have hdeaf := hserves.deaf
    rw [hahead] at hdeaf
    exact hmove ⟨rfl, rfl, rfl, rfl, rfl⟩ rfl nofun hdeaf fun _ => rfl
  | finalCheck canContinue =>
    subst hp
    have hdeaf : (RunPhase.decided (s.hasItems && canContinue)).isDeaf s.hasItems = true →
        s.pending = [] := by
      intro hfalse
      cases hcan : canContinue with
      | false =>
        rw [hcan] at hserves
        exact hserves.deaf rfl
      | true =>
        -- the question is the last job, so nothing can be on its way to an empty queue
        obtain ⟨tickets, htickets⟩ := hserves.last canContinue rfl
        rw [hjobs] at htickets
        have hnone : jobs = [] := by
          cases tickets with
          | nil => exact (cons.inj htickets).2
          | cons => cases htickets
        rw [hcan, Bool.and_true] at hfalse
        apply pending_eq_nil (Bool.not_eq_true' _ ▸ hfalse)
        rw [hjobs, hnone]
        rfl
    exact hmove ⟨rfl, rfl, rfl, rfl, rfl⟩ rfl nofun hdeaf fun _ => rfl
  | _ =>
    subst hp
    cases hrequest

theorem Invariant.work (h : Invariant s) (hstep : s.work = some t) : Invariant t := by
  unfold Session.work at hstep
  split at hstep
  · cases hstep
  · rename_i hjobs
    cases hstep
    exact h.enqueue hjobs
  · rename_i hjobs
    cases hstep
    exact h.drain hjobs
  · rename_i hjobs
    cases hstep
    exact h.answer hjobs

end Work

section Admission

open Session

variable {s t : Session} {r c : ℕ} {p : RunPhase}

theorem lt_of_standing {standing : Standing} (h : (s.call c).standing = standing)
    (hne : standing ≠ .open) : c < s.calls.length := by
  apply lt_of_call_ne
  intro habsent
  rw [habsent] at h
  exact hne h.symm

theorem ne_of_loose (hloose : (s.call c).standing.isLoose = true) :
    (s.call c).standing ≠ .queued ∧ (s.call c).standing ≠ .started := by
  constructor <;> intro hstanding <;> rw [hstanding] at hloose <;> cases hloose

theorem Custody.lt_of_active (h : Custody s) (hactive : (s.run r).stage = .active) :
    r < s.calls.length := by
  have hstarted : (s.call r).standing = .started := by
    by_contra hne
    rw [(h.claims r).mpr hne] at hactive
    cases hactive
  exact lt_of_standing hstarted (by decide)

theorem Serves.hears (h : Serves s r p) (job : Job) (hactive : s.active = true)
    (hopen : s.inputClosed = none) (hheard : p.turnsAway s.ahead = false) :
    p.isDeaf (s.send job).ahead = false := by
  have hflag : p.isActive = true := h.active.symm.trans hactive
  have hclosed : p.isClosed = false := by
    rw [← h.closed, hopen]
    rfl
  cases p with
  | snapshot continues context =>
    have hjobs : s.jobs ≠ [] := by
      intro hnil
      have hrequests := h.requests
      rw [hnil] at hrequests
      cases hrequests
    rw [ahead_send (.inr hjobs)]
    exact hheard
  | ready => exact hheard
  | preparing | looping | polling | finished | postCheck | checked | boundary | hooks => rfl
  | closing | finalCheck | decided => cases hclosed
  | unclaimed | ending | released | emitting | restarting | awaiting | «over» =>
    first | exact Bool.noConfusion hclosed | exact Bool.noConfusion hflag

theorem pending_post (s : Session) (c : ℕ) (queue : Queue) (message : Message) :
    (s.post c queue message).pending = s.pending ++ [c] := by
  unfold Session.pending Session.pendingTickets
  change map _ (_ ++ (s.jobs ++ [Job.enqueue ⟨c, queue, message⟩]).filterMap _) = _
  rw [filterMap_append, ← append_assoc, map_append]
  rfl

variable {call : Call}

theorem Waiting.setCall (h : Waiting s)
    (hwaits : ∀ event, call.standing = .waiting event → s.inputClosed = some event)
    (hdeferred : call.standing ≠ .deferred) : Waiting (s.setCall c call) := by
  have hcall : ∀ other, (s.setCall c call).call other = call ∨
      (s.setCall c call).call other = s.call other := by
    intro other
    by_cases hother : other = c
    · rw [hother]
      exact setCall_call s c call
    · exact .inr (setCall_call_of_ne s call hother)
  constructor
  · intro other event hother
    obtain hnew | hsame := hcall other
    · rw [hnew] at hother
      exact .inl (hwaits event hother)
    · rw [hsame] at hother
      exact h.waits other event hother
  · intro other hother
    obtain hnew | hsame := hcall other
    · rw [hnew] at hother
      exact absurd hother hdeferred
    · rw [hsame] at hother
      exact h.deferred other hother

variable {queue : Queue} {message : Message}

theorem Invariant.post (h : Invariant s) (hactive : s.active = true) (hopen : s.inputClosed = none)
    (hheard : ∀ r < s.calls.length, (s.run r).turnsAway s.ahead = false)
    (hmade : s.call c ≠ .absent) (hloose : (s.call c).standing.isLoose = true)
    (hqueued : call.standing = .queued) : Invariant ((s.post c queue message).setCall c call) := by
  have hopenCall := ne_of_loose hloose
  have hself : ((s.post c queue message).setCall c call).call c = call :=
    setCall_call_self (lt_of_call_ne hmade) call
  obtain ⟨r, p, hserves⟩ := h.serves
  have hstage : (s.run r).stage = .active := by
    rw [hserves.run]
    exact of_decide_eq_true (hserves.active.symm.trans hactive)
  have hhears := hserves.hears (.enqueue ⟨c, queue, message⟩) hactive hopen
    (hserves.run ▸ hheard r (h.custody.lt_of_active hstage))
  have hclosed : p.isClosed = false := by
    rw [← hserves.closed, hopen]
    rfl
  have hposted : Entry.posted c ∉ s.log := by
    rw [← mem_postedCalls, h.ledger.queued]
    exact hopenCall.1
  have hclaimed : Entry.claimed c ∉ s.log := by
    rw [h.told.claimed, not_not, h.custody.claims]
    exact hopenCall.2
  have hundecided : Entry.decided r false ∉ s.log := by
    rw [h.told.decided, hserves.run]
    intro hdecided
    have hflag : p.isActive = true := hserves.active.symm.trans hactive
    cases p <;> first | exact Bool.noConfusion hdecided | exact Bool.noConfusion hclosed |
      exact Bool.noConfusion hflag
  have hjustified : Justifies s.log (.posted c) :=
    ⟨⟨r, (h.custody.told r).trans hstage, hundecided⟩, hposted, hclaimed⟩
  have htold : Told (s.record (.posted c)) := h.told.record hjustified rfl nofun
  have hsteady : Steady s ((s.post c queue message).setCall c call) :=
    (steady_post s c queue message).setLoose hopenCall.2 (by rw [hqueued]; decide)
  refine ⟨h.custody.steady hsteady, ⟨?_, ?_⟩, htold.same (fun _ => rfl) (fun _ => rfl) rfl, ?_,
    r, p, ?_⟩
  · change (takenCalls (s.log ++ [Entry.posted c]) ++ (s.post c queue message).pending).Perm
      (postedCalls (s.log ++ [Entry.posted c]))
    rw [takenCalls_concat, postedCalls_concat, pending_post, append_nil, ← append_assoc]
    exact List.Perm.append_right _ h.ledger.messages
  · intro other
    change other ∈ postedCalls (s.log ++ [Entry.posted c]) ↔ _
    rw [postedCalls_concat, mem_append, mem_singleton]
    by_cases hother : other = c
    · rw [hother, hself]
      exact iff_of_true (.inr rfl) hqueued
    · rw [setCall_call_of_ne _ call hother, or_iff_left hother]
      exact h.ledger.queued other
  · have hposted : Waiting (s.post c queue message) := ⟨h.waiting.waits, h.waiting.deferred⟩
    apply hposted.setCall
    · intro event hevent
      rw [hqueued] at hevent
      cases hevent
    · rw [hqueued]
      decide
  · refine ⟨hserves.run, hserves.alone, hserves.active, hserves.closed, hserves.emitting,
      hserves.deferred, ?_, ?_, ?_, hserves.unaborted⟩
    · change (s.jobs ++ [Job.enqueue ⟨c, queue, message⟩]).filter Job.isRequest = _
      rw [filter_append, hserves.requests]
      exact append_nil _
    · rintro canContinue rfl
      cases hclosed
    · intro hdeaf
      exact nomatch hhears.symm.trans hdeaf

theorem eq_unclaimed (h : p.stage = .unclaimed) : p = .unclaimed := by
  cases p <;> first | rfl | cases h

theorem Invariant.claim (h : Invariant s) (hactive : s.active = false)
    (hopen : s.inputClosed = none) (hmade : s.call c ≠ .absent)
    (hloose : (s.call c).standing.isLoose = true) (hstarted : call.standing = .started) :
    Invariant ((s.claim c).setCall c call) := by
  have hopenCall := ne_of_loose hloose
  have hself : ((s.claim c).setCall c call).call c = call :=
    setCall_call_self (lt_of_call_ne hmade) call
  have hrun : (s.claim c).run c = .preparing := setRun_run_self s c .preparing
  have hother : ∀ other, other ≠ c → (s.claim c).run other = s.run other :=
    fun other hne => setRun_run_of_ne s _ hne
  have hunclaimed : s.run c = .unclaimed :=
    eq_unclaimed ((h.custody.claims c).mpr hopenCall.2)
  obtain ⟨r, p, hserves⟩ := h.serves
  have hquiet : p.isQuiet = true := by
    have hflag : p.isActive = false := hserves.active.symm.trans hactive
    have hclosed : p.isClosed = false := by
      rw [← hserves.closed, hopen]
      rfl
    cases p <;> first | rfl | exact Bool.noConfusion hflag | exact Bool.noConfusion hclosed
  obtain ⟨_, _, hemitting, hrequest, _⟩ := isDeaf_of_isQuiet (r := r) hquiet s.ahead
  have hnone : ∀ other, ¬ ActiveIn s.log other := by
    intro other hstage
    have htrue := h.custody.active.mpr ⟨other, (h.custody.told other).symm.trans hstage⟩
    exact nomatch hactive.symm.trans htrue
  have hposted : Entry.posted c ∉ s.log := by
    rw [← mem_postedCalls, h.ledger.queued]
    exact hopenCall.1
  have hclaimed : Entry.claimed c ∉ s.log := by
    rw [h.told.claimed, not_not, hunclaimed]
    rfl
  have hledger : Ledger (s.record (.claimed c)) := ledger_record h.ledger nofun nofun
  refine ⟨h.custody.claim hactive hmade hstarted, hledger.same rfl rfl rfl ?_, ⟨?_, ?_, ?_, ?_⟩, ?_,
    c, .preparing, ?_⟩
  · intro other
    by_cases hne : other = c
    · rw [hne, hself, hstarted]
      exact iff_of_false (by decide) hopenCall.1
    · rw [setCall_call_of_ne _ call hne]
      rfl
  · exact h.told.justified.concat ⟨hnone, hclaimed, hposted⟩
  · intro other
    change _ ∈ s.log ++ [Entry.claimed c] ↔ ((s.claim c).run other).stage ≠ .unclaimed
    by_cases hne : other = c
    · rw [hne, hrun]
      exact iff_of_true (mem_append_right _ (mem_singleton_self _)) (by decide)
    · rw [hother other hne, ← h.told.claimed other]
      exact mem_concat_of_ne s.log fun heq => hne (Entry.claimed.inj heq)
  · intro other
    have hentry : Entry.released other ≠ .claimed c := nofun
    refine (mem_concat_of_ne s.log hentry).trans ((h.told.released other).trans ?_)
    change _ ↔ ((s.claim c).run other).stage = .released
    by_cases hne : other = c
    · rw [hne, hrun, hunclaimed]
      decide
    · rw [hother other hne]
  · intro other
    have hentry : Entry.decided other false ≠ .claimed c := nofun
    refine (mem_concat_of_ne s.log hentry).trans ((h.told.decided other).trans ?_)
    change _ ↔ ((s.claim c).run other).isDecided = true
    by_cases hne : other = c
    · rw [hne, hrun, hunclaimed]
      decide
    · rw [hother other hne]
  · have hclaim : Waiting (s.claim c) := by
      refine ⟨h.waiting.waits, ?_⟩
      intro other hdeferred
      obtain hemit | ⟨x, hmem⟩ := h.waiting.deferred other hdeferred
      · exact .inl hemit
      · right
        use x
        have hne : x ≠ c := by
          rintro rfl
          rw [hunclaimed] at hmem
          cases hmem
        rw [hother x hne]
        exact hmem
    apply hclaim.setCall
    · intro event hevent
      rw [hstarted] at hevent
      cases hevent
    · rw [hstarted]
      decide
  · exact {
      run := hrun
      alone := by
        intro other hne
        change ((s.claim c).run other).isQuiet = true
        rw [hother other hne]
        by_cases hplace : other = r
        · rw [hplace, hserves.run]
          exact hquiet
        · exact hserves.alone other hplace
      active := rfl
      closed := by
        change s.inputClosed.isSome = false
        rw [hopen]
        rfl
      emitting := hserves.emitting.trans hemitting
      deferred := hserves.deferred
      requests := by
        have hrequests := hserves.requests
        rw [hrequest] at hrequests
        exact hrequests
      last := nofun
      deaf := nofun
      unaborted := ⟨rfl, hserves.unaborted.2⟩ }

theorem Invariant.defer (h : Invariant s) (hemitting : s.isEmittingSettled = true)
    (hloose : (s.call c).standing.isLoose = true) (hdeferred : call.standing = .deferred) :
    Invariant { s.setCall c call with deferredActions := s.deferredActions ++ [c] } := by
  have hopenCall := ne_of_loose hloose
  have hsteady : Steady s (s.setCall c call) :=
    (Steady.refl s).setLoose hopenCall.2 (by rw [hdeferred]; decide)
  obtain ⟨r, p, hserves⟩ := h.serves
  refine ⟨h.custody.steady { hsteady with }, h.ledger.same rfl rfl rfl ?_,
    h.told.same (fun _ => rfl) (fun _ => rfl) rfl, ⟨?_, ?_⟩, r, p, ?_⟩
  · intro other
    change ((s.setCall c call).call other).standing = .queued ↔ _
    by_cases hother : other = c
    · rw [hother]
      obtain hnew | hsame := setCall_call s c call
      · rw [hnew, hdeferred]
        exact iff_of_false (by decide) hopenCall.1
      · rw [hsame]
    · rw [setCall_call_of_ne s call hother]
  · intro other event hother
    change ((s.setCall c call).call other).standing = .waiting event at hother
    by_cases heq : other = c
    · rw [heq] at hother
      obtain hnew | hsame := setCall_call s c call
      · rw [hnew, hdeferred] at hother
        cases hother
      · rw [hsame] at hother
        exact h.waiting.waits c event hother
    · rw [setCall_call_of_ne s call heq] at hother
      exact h.waiting.waits other event hother
  · intro other hother
    change ((s.setCall c call).call other).standing = .deferred at hother
    by_cases heq : other = c
    · rw [heq]
      exact .inl ⟨hemitting, mem_append_right _ (mem_singleton_self c)⟩
    · rw [setCall_call_of_ne s call heq] at hother
      obtain ⟨_, hmem⟩ | hrun := h.waiting.deferred other hother
      · exact .inl ⟨hemitting, mem_append_left _ hmem⟩
      · exact .inr hrun
  · exact { hserves.same rfl rfl rfl rfl rfl rfl rfl rfl rfl with
      deferred := fun hfalse => absurd (hfalse.symm.trans hemitting) Bool.false_ne_true }

theorem Invariant.wait (h : Invariant s) {event : ℕ} (hclosed : s.inputClosed = some event)
    (hloose : (s.call c).standing.isLoose = true) (hwaiting : call.standing = .waiting event) :
    Invariant (s.setCall c call) := by
  have hopenCall := ne_of_loose hloose
  have hsteady : Steady s (s.setCall c call) :=
    (Steady.refl s).setLoose hopenCall.2 (by rw [hwaiting]; simp)
  obtain ⟨r, p, hserves⟩ := h.serves
  refine ⟨h.custody.steady hsteady, h.ledger.same rfl rfl rfl ?_,
    h.told.same (fun _ => rfl) (fun _ => rfl) rfl, ?_, r, p,
    hserves.same rfl rfl rfl rfl rfl rfl rfl rfl rfl⟩
  · intro other
    by_cases hother : other = c
    · rw [hother]
      obtain hnew | hsame := setCall_call s c call
      · rw [hnew, hwaiting]
        exact iff_of_false (by simp) hopenCall.1
      · rw [hsame]
    · rw [setCall_call_of_ne s call hother]
  · apply h.waiting.setCall
    · intro other hother
      rw [hwaiting] at hother
      rw [hclosed, Standing.waiting.inj hother]
    · rw [hwaiting]
      simp

theorem Invariant.admission (h : Invariant s) (hheard : Heard s (.admission c))
    (hstep : s.admission c = some t) : Invariant t := by
  unfold Session.admission at hstep
  split at hstep <;> rename_i hcall <;> cases hstep
  rename_i behavior message claims
  have hloose : (s.call c).standing.isLoose = true := by rw [hcall]; rfl
  have hmade : s.call c ≠ .absent := by rw [hcall]; exact nofun
  obtain ⟨hqueued, hstarted⟩ := ne_of_loose hloose
  unfold Session.admitPrompt
  split
  · rename_i event hclosed
    exact h.wait hclosed hloose rfl
  · rename_i hopen
    split
    · rename_i hactive
      split
      · rename_i queue
        have hposts : posts s (.admission c) = true := by
          simp [posts, hcall, hactive, hopen]
        exact h.post hactive hopen (hheard.1 hposts) hmade hloose rfl
      · exact h.setOpen hqueued hstarted rfl
    · rename_i hactive
      split
      · exact h.claim (Bool.eq_false_iff.mpr hactive) hopen hmade hloose rfl
      · exact h.setOpen hqueued hstarted rfl

theorem Invariant.dispatchCustom (h : Invariant s) (hheard : Heard s (.enter c))
    (hcall : s.call c = .custom queue message .called) :
    Invariant (s.dispatchCustom c queue message) := by
  have hloose : (s.call c).standing.isLoose = true := by rw [hcall]; rfl
  have hmade : s.call c ≠ .absent := by rw [hcall]; exact nofun
  unfold Session.dispatchCustom
  split
  · rename_i hactive hopen
    have hposts : posts s (.enter c) = true := by
      simp [posts, hcall, hactive, hopen]
    exact h.post hactive hopen (hheard.1 hposts) hmade hloose rfl
  · rename_i hclosed
    exact h.wait hclosed hloose rfl
  · rename_i hemitting _
    exact h.defer hemitting hloose rfl
  · rename_i hactive _ hopen
    exact h.claim hactive hopen hmade hloose rfl

theorem Invariant.enter (h : Invariant s) (hmeets : Meets s (.enter c))
    (hstep : s.enter c = some t) : Invariant t := by
  unfold Session.enter at hstep
  split at hstep <;> rename_i hcall <;> cases hstep
  all_goals have hloose : (s.call c).standing.isLoose = true := by rw [hcall]; rfl
  · split
    · rename_i hemitting
      exact h.defer hemitting hloose rfl
    · exact h.setOpen (ne_of_loose hloose).1 (ne_of_loose hloose).2 rfl
  · exact h.dispatchCustom hmeets.2 hcall
  · have hregular := hmeets.1
    unfold Regular at hregular
    dsimp only at hregular
    rw [hcall] at hregular
    exact hregular.elim
  · exact h.setOpen (ne_of_loose hloose).1 (ne_of_loose hloose).2 rfl

theorem Invariant.step (h : Invariant s) {action : Action} (hmeets : Meets s action)
    (hstep : step s action = some t) : Invariant t := by
  cases action with
  | submit | wake | command | expand | validate | compactNext | navigateNext =>
    exact h.onlyCalls (onlyCalls_of_step rfl hstep)
  | enter => exact h.enter hmeets hstep
  | admission => exact h.admission hmeets.2 hstep
  | work => exact h.work hstep
  | begin => exact h.begin hstep
  | poll => exact h.poll hstep
  | finish => exact h.finish hstep
  | postRun => exact h.postRun hstep
  | enterBoundary => exact h.enterBoundary hstep
  | project => exact h.project hmeets.2.2 hstep
  | close => exact h.close hstep
  | check => exact h.check hstep
  | decide => exact h.decide hstep
  | release => exact h.release hstep
  | emitSettled => exact h.emitSettled hstep
  | settle => exact h.settle hstep
  | restart => exact h.restart hmeets.1 hstep

end Admission

theorem invariant_start (steeringMode followUpMode : QueueMode) :
    Invariant (start steeringMode followUpMode) where
  custody := Custody.start steeringMode followUpMode
  ledger := ⟨.refl [], fun _ => iff_of_false not_mem_nil nofun⟩
  told := ⟨justified_nil, fun _ => iff_of_false not_mem_nil (fun hne => hne rfl),
    fun _ => iff_of_false not_mem_nil nofun, fun _ => iff_of_false not_mem_nil nofun⟩
  waiting := ⟨nofun, nofun⟩
  serves := ⟨0, .unclaimed, rfl, fun _ _ => rfl, rfl, rfl, rfl, fun _ => rfl, rfl, nofun,
    fun _ => rfl, rfl, rfl⟩

theorem Invariant.inputKept {s : Session} (h : Invariant s) : InputKept s where
  justified := h.told.justified
  quiet := by
    intro hnone
    obtain ⟨r, p, hserves⟩ := h.serves
    have hstage : p.stage ≠ .active := by
      intro hactive
      apply hnone r
      exact (h.custody.told r).trans (by rw [hserves.run, hactive])
    have hdone : p.request r = none ∧ p.isDeaf s.ahead = true := by
      cases p <;> first | exact ⟨rfl, rfl⟩ | exact absurd rfl hstage
    have hrequests := hserves.requests
    rw [hdone.1] at hrequests
    exact quiet_of_pending (hserves.deaf hdone.2) hrequests
  queued := fun c hqueued => (mem_postedCalls s.log).mp ((h.ledger.queued c).mpr hqueued)
  started := by
    intro c hstarted
    rw [h.told.claimed, ne_eq, h.custody.claims, not_not]
    exact hstarted
  waits := h.waiting.waits
  deferred := h.waiting.deferred

/-- In every run without aborts in which nothing is posted to a run that has settled not to go on,
accepted input is never left behind. -/
theorem accepted_input_kept (steeringMode followUpMode : QueueMode) {s : Session}
    (h : Runs.Reaches step Meets (start steeringMode followUpMode) s) : InputKept s := by
  have hinvariant : Invariant s := by
    apply h.kept (invariant_start steeringMode followUpMode)
    exact fun s action t hs hmeets hstep => hs.step hmeets hstep
  exact hinvariant.inputKept

def promptAdmits (c : ℕ) : List Action :=
  [.enter c, .command c false, .expand c (some (.user ⟨.text "go on", 0⟩)), .admission c]

/-- The agent has answered. -/
def answeredContext : BoundaryContext := ⟨[.system, .user, .assistant], false⟩

/-- Messages posted during a run, from a hook of its boundary, and while its input is closed; and one
that is sent while the run settles. -/
def fedRun : List Action :=
  List.flatten [[.submit (.prompt (some .steering))], promptAdmits 0,
    [.validate 0 true, .admission 0, .begin 0, .submit (.prompt (some .followUp))], promptAdmits 1,
    [.work, .finish 0, .postRun 0 false, .work, .postRun 0 false, .poll 0 .followUp, .work, .finish 0,
      .postRun 0 false, .work, .postRun 0 false, .enterBoundary 0 true,
      .submit (.custom .steering (.user ⟨.text "hook", 0⟩)), .enter 2, .work,
      .project 0 false answeredContext, .work, .close 0, .submit (.prompt (some .steering))],
    promptAdmits 3,
    [.check 0, .work, .decide 0, .wake 3, .admission 3, .work, .poll 0 .steering, .work, .finish 0,
      .postRun 0 false, .work, .postRun 0 false, .enterBoundary 0 false, .check 0, .work, .decide 0,
      .release 0, .emitSettled 0, .submit (.custom .steering (.user ⟨.text "again", 0⟩)), .enter 4,
      .settle 0, .restart 0, .enter 4]]

def fedLog : List Entry :=
  [.claimed 0, .posted 1, .drained 0 [1], .posted 2, .decided 0 true, .posted 3, .drained 0 [2, 3],
    .decided 0 false, .released 0, .settled 0, .claimed 4]

theorem accepted_input_kept_fed : ∃ s : Session, s.log = fedLog ∧ InputKept s := by
  have hrun : (Runs.run (fun s action => if Meets s action then step s action else none)
      (start .all .all) fedRun).map Session.log = some fedLog := by
    decide
  obtain ⟨s, hs, hlog⟩ := Option.map_eq_some_iff.mp hrun
  have hreaches : Runs.Reaches step Meets (start .all .all) s := .of_run hs
  exact ⟨s, hlog, accepted_input_kept .all .all hreaches⟩

/-- A prompt is posted after the last context has asked for queued messages. -/
def strandedPrompt : List Action :=
  List.flatten [[.submit (.prompt (some .steering))], promptAdmits 0,
    [.validate 0 true, .admission 0, .begin 0, .finish 0, .postRun 0 false, .work, .postRun 0 false,
      .enterBoundary 0 true, .project 0 false answeredContext, .work,
      .submit (.prompt (some .steering))], promptAdmits 1,
    [.close 0, .check 0, .work, .work, .decide 0, .release 0, .emitSettled 0, .settle 0]]

/-- The run settles, without an abort, and its final look has found the prompt, which stays behind. -/
theorem prompt_left_behind : ∃ s : Session, Runs.Reaches step Regular (start .all .all) s ∧
    s.log = [.claimed 0, .posted 1, .decided 0 false, .released 0, .settled 0] ∧ s.pending = [1] ∧
      ¬ InputKept s := by
  have hrun : (Runs.run (fun s action => if Regular s action then step s action else none)
      (start .all .all) strandedPrompt).map (fun s => (s.log, s.pending)) =
      some ([.claimed 0, .posted 1, .decided 0 false, .released 0, .settled 0], [1]) := by
    decide
  obtain ⟨s, hs, hfacts⟩ := Option.map_eq_some_iff.mp hrun
  obtain ⟨hlog, hpending⟩ := Prod.mk.inj hfacts
  refine ⟨s, .of_run hs, hlog, hpending, ?_⟩
  intro hkept
  have hnone : ∀ r, ¬ ActiveIn s.log r := by
    intro r hr
    rw [hlog] at hr
    by_cases hzero : r = 0
    · subst hzero
      cases hr
    · simp [ActiveIn, stageIn, update_of_ne hzero] at hr
  obtain ⟨hjobs, hqueues⟩ := hkept.quiet hnone
  have hnil : s.pending = [] := by
    unfold Session.pending Session.pendingTickets
    rw [hqueues, hqueues, hjobs]
    rfl
  rw [hpending] at hnil
  cases hnil

end Pidrei.AgentSession
