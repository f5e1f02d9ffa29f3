import Mathlib.Data.Finset.Basic
import Pidrei.LoopProtocol

/-!
A run of the agent: the loop that an entry point asks for, the reduction of its
events to the agent's state, and the events that the agent adds when an exception
leaves the loop.
-/
namespace Pidrei.AgentRun

open Values Messages AgentTypes AgentLoop LoopProtocol Traced

/-- What an entry point of the agent asks of the loop. -/
inductive RunRequest where
  | prompts (messages : List Message)
  | continuation

def RunRequest.messages : RunRequest → List Message
  | .prompts messages => messages
  | .continuation => []

def executor (host : Host) (turns : Nat) (context : AgentContext) (config : AgentLoopConfig) :
    RunRequest → Loop (List Message)
  | .prompts messages => runAgentLoop host turns messages context config
  | .continuation => runAgentLoopContinue host turns context config

theorem executor_follows (host : Host) {horizon : Nat} (turns : Nat) (context : AgentContext)
    (config : AgentLoopConfig) (request : RunRequest) :
    Follows (Step host horizon) horizon ⟨.fresh request.messages, []⟩
      (executor host turns context config request) (fun t result => t = ⟨.over, result⟩)
      (Halted host horizon) := by
  cases request with
  | prompts messages => exact runAgentLoop_follows host turns messages context config
  | continuation => exact runAgentLoopContinue_follows host turns context config

theorem executor_reaches (host : Host) (turns : Nat) (context : AgentContext)
    (config : AgentLoopConfig) (request : RunRequest) (tick : Nat) :
    let run := executor host turns context config request tick
    ∃ position,
      Steps (Step host (tick + run.ticks)) ⟨.fresh request.messages, []⟩ run.actions position ∧
      (∀ result, run.ending = .ok result → position = ⟨.over, result⟩) ∧
      ∀ reason, run.ending = .error reason →
        Halted host (tick + run.ticks) position reason := by
  intro run
  exact (executor_follows host turns context config request).reaches tick le_rfl

/-- The state that the events of a run are reduced to. -/
structure AgentState where
  messages : List Message
  isStreaming : Bool
  streamingMessage : Option Message
  pendingToolCalls : Finset String
  errorMessage : Option String

/-- Between runs no tool call is pending. -/
structure IdleState extends AgentState where
  no_pending : pendingToolCalls = ∅

def initialState (messages : List Message) : IdleState where
  messages := messages
  isStreaming := false
  streamingMessage := none
  pendingToolCalls := ∅
  errorMessage := none
  no_pending := rfl

def admitted (state : IdleState) : AgentState :=
  { state.toAgentState with isStreaming := true, streamingMessage := none, errorMessage := none }

def reduce (state : AgentState) : AgentEvent → AgentState
  | .messageStart message | .messageUpdate message =>
    { state with streamingMessage := some message }
  | .messageEnd message =>
    { state with streamingMessage := none, messages := state.messages ++ [message] }
  | .toolExecutionStart toolCallId .. =>
    { state with pendingToolCalls := insert toolCallId state.pendingToolCalls }
  | .toolExecutionEnd toolCallId .. =>
    { state with pendingToolCalls := state.pendingToolCalls.erase toolCallId }
  | .turnEnd message _ =>
    match message.errorMessage with
    | none | some "" => state
    | some error => { state with errorMessage := some error }
  | .agentEnd _ => { state with streamingMessage := none }
  | .agentStart | .turnStart | .toolExecutionUpdate .. => state

def failureMessage (model : Model) (error : String) (aborted : Bool) (timestamp : Int) :
    AssistantMessage :=
  { content := .blocks [.text "" none]
    api := model.api
    provider := model.provider
    model := model.id
    usage := zeroUsage
    stopReason := if aborted then .aborted else .error
    errorMessage := some error
    timestamp := timestamp }

def failureEvents (message : AssistantMessage) : List AgentEvent :=
  [.messageStart (.assistant message), .messageEnd (.assistant message), .turnEnd message [],
    .agentEnd [.assistant message]]

def emitAll (host : Host) : List AgentEvent → Loop Unit
  | [] => pure ()
  | event :: rest => do
    emit host event
    emitAll host rest

def handleRunFailure (host : Host) (model : Model) (error : String) (aborted : Bool) :
    Loop Unit := do
  let timestamp ← ask host.now
  emitAll host (failureEvents (failureMessage model error aborted timestamp))

/-- The lifecycle of an admitted run. What `handleRunFailure` raises is raised by the run. -/
def runLifecycle (host : Host) (turns : Nat) (model : Model) (context : AgentContext)
    (config : AgentLoopConfig) (request : RunRequest) : Loop Unit := do
  match ← attempt (executor host turns context config request) with
  | .ok _ => pure ()
  | .error error => do
    let aborted ← ask host.cancelled
    handleRunFailure host model error aborted

def sampleMessage (blocks : List ContentBlock) (stopReason : StopReason) : AssistantMessage :=
  { content := .blocks blocks
    api := "api"
    provider := "provider"
    model := "model"
    usage := zeroUsage
    stopReason := stopReason
    timestamp := 0 }

def sampleCall (id : String) : ContentBlock :=
  .toolCall { id := id, name := "read", arguments := [] }

/-- Surroundings that answer the first request with two calls of an unknown tool and the next
one with an empty message. -/
def sampleHost : Host where
  now := fun _ => 0
  elapsed := fun _ => 0
  cancelled := fun _ => false
  cancelled_mono := fun _ _ _ h => h
  sink := fun _ _ => none
  getSteeringMessages := fun _ => []
  getFollowUpMessages := fun _ => []
  prepareNextTurn := fun _ _ => .ok none
  prepareRequest := fun _ _ _ => .ok none
  finishTurn := fun _ _ => .ok none
  request := fun _ messages _ => .ok ⟨[.finished], none, .ok (
    if messages.isEmpty then
      sampleMessage [sampleCall "a", sampleCall "b"] .toolUse
    else sampleMessage [] .stop)⟩
  validateToolArguments := fun _ _ call => .ok call.arguments
  beforeToolCall := fun _ _ _ => .ok none
  execute := fun _ _ _ _ => ⟨[], .ok (createErrorToolResult "")⟩
  afterToolCall := fun _ _ _ _ => .ok none
  schedule := fun _ => 0
  abandons := fun _ => false
  addCosts := fun cost _ => cost

def sampleConfig : AgentLoopConfig := ⟨⟨"model", "api", "provider"⟩, none, some .parallel⟩

end Pidrei.AgentRun
