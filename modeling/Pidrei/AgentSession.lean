import Pidrei.MessageQueues

/-!
The runs of a session and the calls that feed them or rewrite the session. A call posts its
message to the active run or claims a run of its own, decided in one critical section. A run
closes its input before it looks into the queues for the last time; the queues are behind the
agent's mailbox, which takes one job after another.
-/
namespace Pidrei.AgentSession

open AgentLoop (Queue)
open MessageQueues (PendingMessages QueueMode Ticket)
open Messages (Message)

inductive Role
  | system
  | user
  | assistant
  | toolResult
  deriving DecidableEq

/-- What `_build_boundary_context` finds next to the queues: the messages for the model by their
roles, and whether custom messages are held back. -/
structure BoundaryContext where
  roles : List Role
  pendingCustom : Bool
  deriving DecidableEq

/-- `can_continue` of an `agent_before_settle` context. -/
def BoundaryContext.canContinue (context : BoundaryContext) (hasQueued : Bool) : Bool :=
  let finalRole := context.roles.getLast?
  let contextCanContinue := context.roles.any (· ≠ .system) && finalRole ≠ some .assistant
  contextCanContinue || context.pendingCustom || (finalRole = some .assistant && hasQueued)

/-- Where a run is, from `_claim_run_locked` to the end of `_start_run`. A run is named by the call
that claims it. -/
inductive RunPhase
  | unclaimed
  | preparing
  /-- The agent runs; it drains a queue when it polls, and when it continues. -/
  | looping
  | polling (queue : Queue)
  /-- `_handle_post_agent_run` is next. -/
  | finished
  | postCheck
  | checked (queued : Bool)
  | boundary
  | hooks
  /-- The context after the hooks asks whether anything is queued. -/
  | snapshot (continues : Bool) (context : BoundaryContext)
  | ready (continues canContinue : Bool)
  /-- The input is closed, and the final check not posted yet. -/
  | closing (continues canContinue : Bool)
  | finalCheck (canContinue : Bool)
  | decided (continues : Bool)
  | ending
  | released
  | emitting
  /-- The run has settled, and its deferred actions are carried out one after another. -/
  | restarting (deferred : List ℕ)
  | awaiting (call : ℕ) (deferred : List ℕ)
  | over
  deriving DecidableEq

/-- What a run makes of the answer to `has_queued_messages`. -/
def RunPhase.answered (queued : Bool) : RunPhase → RunPhase
  | .postCheck => .checked queued
  | .snapshot continues context => .ready continues (context.canContinue queued)
  | .finalCheck canContinue => .decided (queued && canContinue)
  | phase => phase

def RunPhase.polled : RunPhase → RunPhase
  | .polling _ => .looping
  | phase => phase

/-- A prompt; its message is known once handlers and templates are through with its text. A `tonio`
event is named by a number, those of the closed input and those of idle waits apart. -/
inductive PromptPhase
  | called
  | deferred
  | commands
  | expanding
  | admitting (message : Message) (claim : Bool)
  | waiting (event : ℕ) (message : Message) (claim : Bool)
  | validating (message : Message)
  | queued
  | started
  | handled
  | raised

/-- A custom message that triggers a turn. -/
inductive CustomPhase
  | called
  | deferred
  | waiting (event : ℕ)
  | queued
  | started

inductive CompactPhase
  | called
  | aborting
  | notIdle
  | waiting (event : ℕ)
  /-- `abort` has returned. -/
  | idle
  | compacting
  | summarized
  | appending
  /-- `_clear_manual_compaction_state` is called twice on every path. -/
  | clearing (again : Bool)
  | over

inductive NavigatePhase
  | called
  | collecting
  | collected
  /-- The navigation is claimed: hooks, and the summary. -/
  | navigating
  | switching (label : Bool)
  | labelling
  | leaving
  | over

/-- `behavior` is the queue of a prompt's `streaming_behavior`, `queue` that of a custom message's
`deliver_as`. -/
inductive Call
  | absent
  | prompt (behavior : Option Queue) (phase : PromptPhase)
  | custom (queue : Queue) (message : Message) (phase : CustomPhase)
  | compact (phase : CompactPhase)
  | navigate (phase : NavigatePhase)

/-- A deferred action starts over. -/
def Call.again : Call → Option Call
  | .prompt behavior .deferred => some (.prompt behavior .called)
  | .custom queue message .deferred => some (.custom queue message .called)
  | _ => none

def Call.hasRaised : Call → Bool
  | .prompt _ .raised => true
  | _ => false

inductive Request
  | prompt (behavior : Option Queue)
  | custom (queue : Queue) (message : Message)
  | compact
  | navigate

def Request.call : Request → Call
  | .prompt behavior => .prompt behavior .called
  | .custom queue message => .custom queue message .called
  | .compact => .compact .called
  | .navigate => .navigate .called

/-- A ticket's number is its call. -/
inductive Job
  | enqueue (ticket : Ticket)
  | drain (run : ℕ) (queue : Queue)
  | hasQueued (run : ℕ)

/-- What is seen of a session. -/
inductive Entry
  | claimed (run : ℕ)
  | posted (call : ℕ)
  /-- The messages of these calls are handed to the run. -/
  | drained (run : ℕ) (calls : List ℕ)
  /-- The boundary's answer: whether the run goes on. -/
  | decided (run : ℕ) (continues : Bool)
  | released (run : ℕ)
  | settled (run : ℕ)
  | compacted (call : ℕ)
  | leafMoved (call : ℕ)
  deriving DecidableEq

structure Session where
  active : Bool := false
  abortRequested : Bool := false
  isBeforeSettle : Bool := false
  abortDuringBeforeSettle : Bool := false
  inputClosed : Option ℕ := none
  isEmittingSettled : Bool := false
  deferredActions : List ℕ := []
  compactionCancel : Option ℕ := none
  branchSummaryCancel : Option ℕ := none
  idleEvent : Option ℕ := none
  /-- The calls whose token is cancelled. -/
  cancelled : List ℕ := []
  /-- How many events of the closed input there are, and which of them are set. -/
  inputEvents : ℕ := 0
  inputSet : List ℕ := []
  idleEvents : ℕ := 0
  idleSet : List ℕ := []
  queues : Queue → PendingMessages
  jobs : List Job := []
  run : ℕ → RunPhase := fun _ => .unclaimed
  calls : List Call := []
  log : List Entry := []

def start (steeringMode followUpMode : QueueMode) : Session where
  queues
    | .steering => ⟨[], steeringMode⟩
    | .followUp => ⟨[], followUpMode⟩

namespace Session

def call (s : Session) (c : ℕ) : Call := s.calls.getD c .absent

def setCall (s : Session) (c : ℕ) (call : Call) : Session := { s with calls := s.calls.set c call }

def setRun (s : Session) (r : ℕ) (phase : RunPhase) : Session :=
  { s with run := Function.update s.run r phase }

variable {s : Session} {c other : ℕ}

theorem lt_of_call_ne (h : s.call c ≠ .absent) : c < s.calls.length := by
  by_contra hle
  apply h
  rw [call, List.getD, List.getElem?_eq_none (Nat.le_of_not_lt hle), Option.getD_none]

theorem call_mem (h : s.call c ≠ .absent) : s.call c ∈ s.calls := by
  have hlt := lt_of_call_ne h
  rw [call, List.getD, List.getElem?_eq_getElem hlt]
  exact List.getElem_mem hlt

theorem setCall_call_self (h : c < s.calls.length) (call : Call) :
    (s.setCall c call).call c = call := by
  simp [setCall, Session.call, h]

theorem setCall_call_of_ne (s : Session) (call : Call) (h : other ≠ c) :
    (s.setCall c call).call other = s.call other := by
  simp [setCall, Session.call, h.symm]

theorem setCall_call (s : Session) (c : ℕ) (call : Call) :
    (s.setCall c call).call c = call ∨ (s.setCall c call).call c = s.call c := by
  by_cases h : c < s.calls.length
  · exact .inl (setCall_call_self h call)
  · right
    rw [setCall, List.set_eq_of_length_le (Nat.le_of_not_lt h)]

@[simp]
theorem setRun_run_self (s : Session) (r : ℕ) (phase : RunPhase) :
    (s.setRun r phase).run r = phase := by
  simp only [setRun, Function.update_self]

theorem setRun_run_of_ne (s : Session) (phase : RunPhase) {r : ℕ} (h : other ≠ r) :
    (s.setRun r phase).run other = s.run other := by
  simp only [setRun, Function.update_of_ne h]

def record (s : Session) (entry : Entry) : Session := { s with log := s.log ++ [entry] }

def send (s : Session) (job : Job) : Session := { s with jobs := s.jobs ++ [job] }

def isCompacting (s : Session) : Bool := s.compactionCancel.isSome || s.branchSummaryCancel.isSome

def isIdle (s : Session) : Bool := !s.active && !s.isCompacting

/-- `_resolve_idle_wait_if_idle`. -/
def resolveIdle (s : Session) : Session :=
  if s.isIdle then { s with idleSet := s.idleSet ++ s.idleEvent.toList, idleEvent := none } else s

/-- `_close_run_input`. -/
def closeInput (s : Session) : Session :=
  match s.inputClosed with
  | none => { s with inputClosed := some s.inputEvents, inputEvents := s.inputEvents + 1 }
  | some _ => s

/-- `_reopen_run_input`. -/
def reopenInput (s : Session) : Session :=
  { s with inputClosed := none, inputSet := s.inputSet ++ s.inputClosed.toList }

/-- `agent.steer` or `agent.follow_up`. -/
def post (s : Session) (c : ℕ) (queue : Queue) (message : Message) : Session :=
  (s.send (.enqueue ⟨c, queue, message⟩)).record (.posted c)

/-- `_claim_run_locked`. -/
def claim (s : Session) (c : ℕ) : Session :=
  { (s.setRun c .preparing).record (.claimed c) with active := true, abortRequested := false }

/-- `_request_abort`. -/
def requestAbort (s : Session) : Session :=
  { s with
    abortRequested := s.abortRequested || s.active
    abortDuringBeforeSettle := s.abortDuringBeforeSettle || s.isBeforeSettle
    cancelled := s.cancelled ++ s.compactionCancel.toList ++ s.branchSummaryCancel.toList }

/-- `_raise_if_tree_navigation_blocked`. -/
def navigationBlocked (s : Session) : Bool := s.active || s.isCompacting

/-- `_admit_prompt`, up to its next wait. -/
def admitPrompt (s : Session) (c : ℕ) (behavior : Option Queue) (message : Message) (claims : Bool) :
    Session :=
  match s.inputClosed with
  | some event => s.setCall c (.prompt behavior (.waiting event message claims))
  | none =>
    if s.active then
      match behavior with
      | some queue => (s.post c queue message).setCall c (.prompt behavior .queued)
      | none => s.setCall c (.prompt behavior .raised)
    else if claims then (s.claim c).setCall c (.prompt behavior .started)
    else s.setCall c (.prompt behavior (.validating message))

/-- `_dispatch_custom_message` with `trigger_turn`. -/
def dispatchCustom (s : Session) (c : ℕ) (queue : Queue) (message : Message) : Session :=
  match s.active, s.isEmittingSettled, s.inputClosed with
  | true, _, none => (s.post c queue message).setCall c (.custom queue message .queued)
  | _, false, some event => s.setCall c (.custom queue message (.waiting event))
  | _, true, _ =>
    { s.setCall c (.custom queue message .deferred) with deferredActions := s.deferredActions ++ [c] }
  | false, false, none => (s.claim c).setCall c (.custom queue message .started)

/-- The first step of a call. -/
def enter (s : Session) (c : ℕ) : Option Session :=
  match s.call c with
  | .prompt behavior .called =>
    some (if s.isEmittingSettled then
        { s.setCall c (.prompt behavior .deferred) with deferredActions := s.deferredActions ++ [c] }
      else s.setCall c (.prompt behavior .commands))
  | .custom queue message .called => some (s.dispatchCustom c queue message)
  | .compact .called => some (s.requestAbort.setCall c (.compact .aborting))
  | .navigate .called =>
    some (s.setCall c (.navigate (if s.navigationBlocked then .over else .collecting)))
  | _ => none

/-- The event a call waits for is set. -/
def wake (s : Session) (c : ℕ) : Option Session :=
  match s.call c with
  | .prompt behavior (.waiting event message claims) =>
    if event ∈ s.inputSet then some (s.setCall c (.prompt behavior (.admitting message claims)))
    else none
  | .custom queue message (.waiting event) =>
    if event ∈ s.inputSet then some (s.setCall c (.custom queue message .called)) else none
  | .compact (.waiting event) =>
    if event ∈ s.idleSet then some (s.setCall c (.compact .idle)) else none
  | _ => none

/-- Extension commands come before the look for a compaction. -/
def command (s : Session) (c : ℕ) (handled : Bool) : Option Session :=
  match s.call c with
  | .prompt behavior .commands =>
    some (s.setCall c (.prompt behavior
      (if handled then .handled else if s.compactionCancel.isSome then .raised else .expanding)))
  | _ => none

/-- Input handlers, skills and templates; `none` when a handler handled the input. -/
def expand (s : Session) (c : ℕ) (message : Option Message) : Option Session :=
  match s.call c with
  | .prompt behavior .expanding =>
    some (s.setCall c (.prompt behavior (match message with
      | some message => .admitting message false
      | none => .handled)))
  | _ => none

def admission (s : Session) (c : ℕ) : Option Session :=
  match s.call c with
  | .prompt behavior (.admitting message claims) => some (s.admitPrompt c behavior message claims)
  | _ => none

/-- The model and its credentials. -/
def validate (s : Session) (c : ℕ) (ok : Bool) : Option Session :=
  match s.call c with
  | .prompt behavior (.validating message) =>
    some (s.setCall c (.prompt behavior (if ok then .admitting message true else .raised)))
  | _ => none

/-- What `compact` does next; `ok` is the outcome of its hooks and of the model's summary. -/
def compactNext (s : Session) (c : ℕ) (ok : Bool) : Option Session :=
  match s.call c with
  | .compact .aborting => some (s.setCall c (.compact (if s.isIdle then .idle else .notIdle)))
  | .compact .notIdle =>
    some (match s.idleEvent with
      | some event => s.setCall c (.compact (.waiting event))
      | none =>
        { s.setCall c (.compact (.waiting s.idleEvents)) with
          idleEvent := some s.idleEvents
          idleEvents := s.idleEvents + 1 })
  | .compact .idle =>
    some { s.setCall c (.compact .compacting) with compactionCancel := some c }
  | .compact .compacting =>
    some (s.setCall c (.compact (if ok then .summarized else .clearing false)))
  | .compact .summarized =>
    some (s.setCall c (.compact (match s.compactionCancel with
      | some owner => if owner ∈ s.cancelled then .clearing false else .appending
      | none => .clearing false)))
  | .compact .appending => some ((s.record (.compacted c)).setCall c (.compact (.clearing false)))
  | .compact (.clearing again) =>
    some (resolveIdle { s.setCall c (.compact (if again then .over else .clearing true)) with
      compactionCancel := none })
  | _ => none

/-- What `navigate_tree` does next; `ok` says that nothing ends it here, `label` that there is one. -/
def navigateNext (s : Session) (c : ℕ) (ok label : Bool) : Option Session :=
  match s.call c with
  | .navigate .collecting => some (s.setCall c (.navigate (if ok then .collected else .over)))
  | .navigate .collected =>
    some (if s.navigationBlocked then s.setCall c (.navigate .over)
      else { s.setCall c (.navigate .navigating) with branchSummaryCancel := some c })
  | .navigate .navigating =>
    some (s.setCall c (.navigate (if ok then .switching label else .leaving)))
  | .navigate (.switching label) =>
    some ((s.record (.leafMoved c)).setCall c (.navigate (if label then .labelling else .leaving)))
  | .navigate .labelling => some ((s.record (.leafMoved c)).setCall c (.navigate .leaving))
  | .navigate .leaving =>
    some (resolveIdle { s.setCall c (.navigate .over) with branchSummaryCancel := none })
  | _ => none

def hasItems (s : Session) : Bool :=
  !(s.queues .steering).messages.isEmpty || !(s.queues .followUp).messages.isEmpty

def setQueue (s : Session) (queue : Queue) (pending : PendingMessages) : Session :=
  { s with queues := Function.update s.queues queue pending }

/-- The mailbox takes its next job. -/
def work (s : Session) : Option Session :=
  match s.jobs with
  | [] => none
  | .enqueue ticket :: jobs =>
    some ({ s with jobs }.setQueue ticket.queue ((s.queues ticket.queue).enqueue ticket))
  | .drain r queue :: jobs =>
    let pending := s.queues queue
    some ((({ s with jobs }.setQueue queue pending.drain).setRun r (s.run r).polled).record
      (.drained r (pending.peek.map Ticket.id)))
  | .hasQueued r :: jobs => some ({ s with jobs }.setRun r ((s.run r).answered s.hasItems))

/-- The messages are prepared, and the agent is prompted. -/
def begin (s : Session) (r : ℕ) : Option Session :=
  match s.run r with
  | .preparing => some (s.setRun r .looping)
  | _ => none

def poll (s : Session) (r : ℕ) (queue : Queue) : Option Session :=
  match s.run r with
  | .looping => some ((s.setRun r (.polling queue)).send (.drain r queue))
  | _ => none

def finish (s : Session) (r : ℕ) : Option Session :=
  match s.run r with
  | .looping => some (s.setRun r .finished)
  | _ => none

/-- `_handle_post_agent_run`; `recovers` says that a retry or a compaction asks to go on. -/
def postRun (s : Session) (r : ℕ) (recovers : Bool) : Option Session :=
  match s.run r with
  | .finished =>
    some (if s.abortRequested then s.setRun r .ending
      else if recovers then s.setRun r .looping
      else (s.setRun r .postCheck).send (.hasQueued r))
  | .checked queued =>
    some (s.setRun r (if s.abortRequested then .ending else if queued then .looping else .boundary))
  | _ => none

/-- `_run_before_settle_boundary` up to its hooks, or without handlers to the closed input. -/
def enterBoundary (s : Session) (r : ℕ) (hasHandlers : Bool) : Option Session :=
  match s.run r with
  | .boundary =>
    some (if hasHandlers then
        { s.setRun r .hooks with isBeforeSettle := true, abortDuringBeforeSettle := false }
      else (s.setRun r (.closing false true)).closeInput)
  | _ => none

/-- The hooks are through; `continues` is what they ask for. -/
def project (s : Session) (r : ℕ) (continues : Bool) (context : BoundaryContext) : Option Session :=
  match s.run r with
  | .hooks => some ((s.setRun r (.snapshot continues context)).send (.hasQueued r))
  | _ => none

def close (s : Session) (r : ℕ) : Option Session :=
  match s.run r with
  | .ready continues canContinue =>
    some (if s.abortDuringBeforeSettle then { s.setRun r .ending with isBeforeSettle := false }
      else (s.setRun r (.closing continues canContinue)).closeInput)
  | _ => none

/-- `should_continue`: the queues are not looked at when the hooks ask to go on. -/
def check (s : Session) (r : ℕ) : Option Session :=
  match s.run r with
  | .closing true canContinue => some (s.setRun r (.decided canContinue))
  | .closing false canContinue => some ((s.setRun r (.finalCheck canContinue)).send (.hasQueued r))
  | _ => none

/-- The boundary returns. -/
def decide (s : Session) (r : ℕ) : Option Session :=
  match s.run r with
  | .decided true =>
    some { ((s.setRun r (if s.abortRequested then .ending else .looping)).record
      (.decided r true)).reopenInput with isBeforeSettle := false }
  | .decided false =>
    some { (s.setRun r .ending).record (.decided r false) with isBeforeSettle := false }
  | _ => none

/-- `_release_run` hands the claim back. -/
def release (s : Session) (r : ℕ) : Option Session :=
  match s.run r with
  | .ending => some { (s.setRun r .released).record (.released r) with active := false }
  | _ => none

def emitSettled (s : Session) (r : ℕ) : Option Session :=
  match s.run r with
  | .released => some { s.setRun r .emitting with isEmittingSettled := true }
  | _ => none

/-- The end of `_emit_agent_settled`'s critical section. -/
def settle (s : Session) (r : ℕ) : Option Session :=
  match s.run r with
  | .emitting =>
    some ({ (s.setRun r (.restarting s.deferredActions)).reopenInput with
      isEmittingSettled := false
      deferredActions := [] }.record (.settled r))
  | _ => none

/-- A call that is over and has not raised. -/
def returned (s : Session) (c : ℕ) : Bool :=
  match s.call c with
  | .prompt _ .queued | .prompt _ .handled | .custom _ _ .queued => true
  | .prompt _ .started | .custom _ _ .started => s.run c = .over
  | _ => false

/-- The deferred actions, each awaited before the next. -/
def restart (s : Session) (r : ℕ) : Option Session :=
  match s.run r with
  | .restarting (c :: rest) =>
    (s.call c).again.map fun call => (s.setRun r (.awaiting c rest)).setCall c call
  | .awaiting c rest =>
    if (s.call c).hasRaised then some (s.setRun r .over).resolveIdle
    else if s.returned c then some (s.setRun r (.restarting rest))
    else none
  | .restarting [] => some (s.setRun r .over).resolveIdle
  | _ => none

end Session

inductive Action
  | submit (request : Request)
  | enter (call : ℕ)
  | wake (call : ℕ)
  | command (call : ℕ) (handled : Bool)
  | expand (call : ℕ) (message : Option Message)
  | admission (call : ℕ)
  | validate (call : ℕ) (ok : Bool)
  | compactNext (call : ℕ) (ok : Bool)
  | navigateNext (call : ℕ) (ok label : Bool)
  | work
  | begin (run : ℕ)
  | poll (run : ℕ) (queue : Queue)
  | finish (run : ℕ)
  | postRun (run : ℕ) (recovers : Bool)
  | enterBoundary (run : ℕ) (hasHandlers : Bool)
  | project (run : ℕ) (continues : Bool) (context : BoundaryContext)
  | close (run : ℕ)
  | check (run : ℕ)
  | decide (run : ℕ)
  | release (run : ℕ)
  | emitSettled (run : ℕ)
  | settle (run : ℕ)
  | restart (run : ℕ)

def step (s : Session) : Action → Option Session
  | .submit request => some { s with calls := s.calls ++ [request.call] }
  | .enter c => s.enter c
  | .wake c => s.wake c
  | .command c handled => s.command c handled
  | .expand c message => s.expand c message
  | .admission c => s.admission c
  | .validate c ok => s.validate c ok
  | .compactNext c ok => s.compactNext c ok
  | .navigateNext c ok label => s.navigateNext c ok label
  | .work => s.work
  | .begin r => s.begin r
  | .poll r queue => s.poll r queue
  | .finish r => s.finish r
  | .postRun r recovers => s.postRun r recovers
  | .enterBoundary r hasHandlers => s.enterBoundary r hasHandlers
  | .project r continues context => s.project r continues context
  | .close r => s.close r
  | .check r => s.check r
  | .decide r => s.decide r
  | .release r => s.release r
  | .emitSettled r => s.emitSettled r
  | .settle r => s.settle r
  | .restart r => s.restart r

end Pidrei.AgentSession
