import Pidrei.AgentTypes

/-!
Where a session puts the messages that only add context: custom messages sent with trigger_turn
False and bash results. While a run is active they are deferred, and the flushes at its start, at
the end of a turn, at the before-settle boundary and at its release append them. While the session
is idle the writer appends them itself, under the lock that a run waits for before it starts.
-/
namespace Pidrei.DeferredContext

open Messages AgentTypes

inductive Kind where
  | custom
  | bash
  deriving DecidableEq

inductive ContextMessage where
  | custom (m : CustomMessage)
  | bash (m : BashExecutionMessage)
  deriving DecidableEq

/-- A context message, numbered in the order of the calls. -/
structure Note where
  number : Nat
  message : ContextMessage
  deriving DecidableEq

def Note.kind (note : Note) : Kind :=
  match note.message with
  | .custom _ => .custom
  | .bash _ => .bash

/-- An entry that the session appends to its branch. `turn` counts the assistant messages up to
it, and `late` tells whether the note had been deferred. -/
inductive Entry where
  | message (turn : Nat) (message : Message)
  | context (note : Note) (late : Bool)

/-- The places of a run that flush. -/
inductive Point where
  | startBash
  | startCustom
  | turnEnd
  | boundary
  deriving DecidableEq

def Point.kind : Point → Kind
  | .startBash => .bash
  | _ => .custom

inductive Phase where
  | idle
  /-- The run is claimed and waits until the writers are done. -/
  | claimed
  | preparing
  /-- A flush holds the messages that it took from the list. -/
  | flushing (point : Point) (hand : List Note)
  /-- The starting messages are ready and the agent has not been prompted. -/
  | ready
  /-- The agent runs. -/
  | running
  /-- The agent's run is over and what follows is undecided. -/
  | between
  /-- The run hands its claim back. -/
  | ending
  deriving DecidableEq

/-- Where a flush goes on when its list is empty. -/
def Point.next : Point → Phase
  | .startBash => .flushing .startCustom []
  | .startCustom => .ready
  | .turnEnd => .running
  | .boundary => .between

/-- What the holder of `_run_admission` is doing. -/
inductive Holder where
  | deciding (note : Note)
  | appending (note : Note)
  /-- `_release_run` before it clears the flag. -/
  | clearing
  | releasing (kind : Kind) (hand : List Note)
  deriving DecidableEq

structure State where
  isAgentRunActive : Bool
  /-- `_pending_custom_messages` and `_pending_bash_messages`. -/
  pending : Kind → List Note
  admission : Option Holder
  phase : Phase
  /-- The writers that wait for the lock. -/
  waiting : List Note
  log : List Entry
  turn : Nat
  /-- The agent's turn has its response and may still add tool results. -/
  answering : Bool
  sent : List Note
  deferred : List Note

def start : State where
  isAgentRunActive := false
  pending := fun _ => []
  admission := none
  phase := .idle
  waiting := []
  log := []
  turn := 0
  answering := false
  sent := []
  deferred := []

/-- The agent's events come in this order: tool results are added between a response and the end
of its turn. -/
def nextAnswering : Bool → AgentEvent → Option Bool
  | _, .messageEnd (.assistant _) => some true
  | answering, .messageEnd (.toolResult _) => if answering then some true else none
  | _, .turnEnd .. => some false
  | answering, _ => some answering

/-- The roles that `_handle_agent_event` persists. -/
def persists : Message → Bool
  | .custom _ | .system _ | .user _ | .assistant _ | .toolResult _ => true
  | _ => false

section Operations

variable (s : State)

def defer (note : Note) : State :=
  { s with
    pending := Function.update s.pending note.kind (s.pending note.kind ++ [note])
    deferred := s.deferred ++ [note] }

def record (note : Note) (late : Bool) : State := { s with log := s.log ++ [Entry.context note late] }

/-- `_dispatch_custom_message` with trigger_turn False, to the end of its synchronous part. -/
def dispatchCustomMessage (m : CustomMessage) : State :=
  let note : Note := ⟨s.sent.length, .custom m⟩
  let t := { s with sent := s.sent ++ [note] }
  if s.isAgentRunActive then defer t note else { t with waiting := s.waiting ++ [note] }

def recordBashResult (m : BashExecutionMessage) : State :=
  let note : Note := ⟨s.sent.length, .bash m⟩
  { s with sent := s.sent ++ [note], waiting := s.waiting ++ [note] }

/-- The writer decides under the guard, with the lock in its hands. -/
def decideWrite (note : Note) : State :=
  if s.isAgentRunActive then { defer s note with admission := none }
  else { s with admission := some (.appending note) }

/-- One step of a flush: the next message in hand is appended, or the list is taken over. The
flush is done when the list is empty. -/
def flush (kind : Kind) : List Note → State × Option (List Note)
  | note :: rest => (record s note true, some rest)
  | [] =>
    if s.pending kind = [] then (s, none)
    else ({ s with pending := Function.update s.pending kind [] }, some (s.pending kind))

def flushRun (point : Point) (hand : List Note) : State :=
  let (t, left) := flush s point.kind hand
  { t with phase := left.elim point.next (.flushing point) }

/-- Where the release goes on when a list is empty. -/
def releaseNext : Kind → Option Holder
  | .bash => some (.releasing .custom [])
  | .custom => none

def flushRelease (kind : Kind) (hand : List Note) : State :=
  let (t, left) := flush s kind hand
  { t with admission := left.elim (releaseNext kind) fun hand => some (.releasing kind hand) }

def turnOf (event : AgentEvent) : Nat :=
  match event with
  | .messageEnd (.assistant _) => s.turn + 1
  | _ => s.turn

/-- `_handle_agent_event`: a message that ended is persisted, and the end of a turn flushes. -/
def handleAgentEvent (event : AgentEvent) (answering : Bool) : State :=
  let t := { s with turn := turnOf s event, answering := answering }
  match event with
  | .messageEnd message =>
    if persists message then { t with log := s.log ++ [Entry.message t.turn message] } else t
  | .turnEnd .. => { t with phase := .flushing .turnEnd [] }
  | _ => t

end Operations

inductive Action where
  | dispatchCustomMessage (m : CustomMessage)
  | recordBashResult (m : BashExecutionMessage)
  /-- A waiting writer gets the lock. -/
  | acquire (note : Note)
  | decide
  | append
  /-- `_claim_run_locked`, from whichever caller. -/
  | claim
  /-- The claimed run passes the lock. -/
  | admitRun
  | prepared
  /-- The preparation, `on_started` or what precedes the prompt raises. -/
  | fail
  | flush
  | prompt
  | agentEvent (event : AgentEvent)
  | agentReturn
  | continue
  | beforeSettle
  | endRun
  /-- `_release_run` gets the lock. -/
  | release
  | clear
  | flushRelease

def step (s : State) : Action → Option State
  | .dispatchCustomMessage m => some (dispatchCustomMessage s m)
  | .recordBashResult m => some (recordBashResult s m)
  | .acquire note =>
    if s.admission = none ∧ note ∈ s.waiting then
      some { s with admission := some (.deciding note), waiting := s.waiting.erase note }
    else none
  | .decide =>
    match s.admission with
    | some (.deciding note) => some (decideWrite s note)
    | _ => none
  | .append =>
    match s.admission with
    | some (.appending note) => some { record s note false with admission := none }
    | _ => none
  | .claim =>
    if s.isAgentRunActive = false then some { s with isAgentRunActive := true, phase := .claimed }
    else none
  | .admitRun =>
    if s.phase = .claimed ∧ s.admission = none then some { s with phase := .preparing } else none
  | .prepared =>
    if s.phase = .preparing then some { s with phase := .flushing .startBash [] } else none
  | .fail =>
    if s.phase = .preparing ∨ s.phase = .ready then some { s with phase := .ending } else none
  | .flush =>
    match s.phase with
    | .flushing point hand => some (flushRun s point hand)
    | _ => none
  | .prompt =>
    if s.phase = .ready then some { s with phase := .running } else none
  | .agentEvent event =>
    if s.phase = .running then (nextAnswering s.answering event).map (handleAgentEvent s event)
    else none
  | .agentReturn =>
    if s.phase = .running then some { s with phase := .between, answering := false } else none
  | .continue =>
    if s.phase = .between then some { s with phase := .running } else none
  | .beforeSettle =>
    if s.phase = .between then some { s with phase := .flushing .boundary [] } else none
  | .endRun =>
    if s.phase = .between then some { s with phase := .ending } else none
  | .release =>
    if s.phase = .ending ∧ s.admission = none then some { s with admission := some .clearing }
    else none
  | .clear =>
    if s.admission = some .clearing then
      some { s with
        isAgentRunActive := false, phase := .idle, admission := some (.releasing .bash []) }
    else none
  | .flushRelease =>
    match s.admission with
    | some (.releasing kind hand) => some (flushRelease s kind hand)
    | _ => none

def Entry.note? : Entry → Option Note
  | .context note _ => some note
  | .message .. => none

def Entry.flushed? : Entry → Option Note
  | .context note true => some note
  | _ => none

/-- The context messages on the branch. -/
def recorded (log : List Entry) : List Note := log.filterMap Entry.note?

def flushed (log : List Entry) : List Note := log.filterMap Entry.flushed?

def Entry.isContext (entry : Entry) : Bool := entry.note?.isSome

/-- No context message stands between a response and a tool result of its turn. -/
def Unsplit (log : List Entry) : Prop :=
  ∀ before turn response between result after,
    log = before ++ .message turn (.assistant response) :: between ++
      .message turn (.toolResult result) :: after →
    ∀ entry ∈ between, entry.isContext = false

/-- No call, no run and no release is under way. -/
def AtRest (s : State) : Prop :=
  s.isAgentRunActive = false ∧ s.admission = none ∧ s.waiting = []

/-- What the session does by itself, once nothing more is sent and no run is claimed. -/
def Action.isOwn : Action → Bool
  | .dispatchCustomMessage _ | .recordBashResult _ | .claim => false
  | _ => true

end Pidrei.DeferredContext
