import Mathlib.Algebra.GroupWithZero.Nat
import Pidrei.Library.Traced
import Pidrei.ToolChanges

/-!
The agent loop. A run asks its surroundings for everything that is not its own:
the provider's stream, the hooks, the tools, the cancel token, the queues, the
clock, the scheduler of the parallel tool tasks, and the event sink, which may
raise. Its actions are the events it emits, the queues it polls, and what it adds
to its context and to the new messages it returns.
-/
namespace Pidrei.AgentLoop

open Values Messages AgentTypes ToolChanges Traced

inductive Queue where
  | steering
  | followUp
  deriving DecidableEq

inductive Action where
  | emitted (event : AgentEvent)
  /-- The event sink raised on the event before. -/
  | refused (error : String)
  /-- The messages that the new messages and the context start with. -/
  | seeded (messages : List Message)
  | polled (queue : Queue) (messages : List Message)
  /-- The messages that are due before the next request: hook messages and queued ones. -/
  | declared (prepared queued messages : List Message)
  /-- Appended to the context and to the new messages. -/
  | added (message : Message)
  /-- Appended to the context while it streams, or when it is complete. -/
  | streamed (message : AssistantMessage)
  | replaced (message : AssistantMessage)
  | responded (message : AssistantMessage)
  | resulted (message : ToolResultMessage)
  deriving DecidableEq

/-- The provider events the loop tells apart. -/
inductive StreamEvent where
  | start (partialMessage : AssistantMessage)
  | update (partialMessage : AssistantMessage)
  | finished
  | other

/-- `broken` is what reading the stream raises after its events. -/
structure Response where
  events : List StreamEvent
  broken : Option String
  result : Except String AssistantMessage

/-- The partial results a tool reports and how it ends. -/
structure ToolRun where
  updates : List AgentToolResult
  result : Except String AgentToolResult

/-- The answers of the surroundings at each tick. A hook that is not configured is one that
answers nothing. -/
structure Host where
  now : Nat → Int
  elapsed : Nat → Int
  cancelled : Nat → Bool
  /-- A cancel token is never reset. -/
  cancelled_mono : ∀ s t, s ≤ t → cancelled s = true → cancelled t = true
  sink : Nat → AgentEvent → Option String
  getSteeringMessages : Nat → List Message
  getFollowUpMessages : Nat → List Message
  prepareNextTurn : Nat → AgentTurnContext → Except String (Option AgentLoopTurnUpdate)
  prepareRequest : Nat → AgentContext → AgentLoopConfig → Except String (Option AgentRequestUpdate)
  finishTurn : Nat → AgentTurnContext → Except String (Option AgentTurnDecision)
  /-- Transforming and converting the context, the API key, and the stream function. -/
  request : Nat → List Message → AgentLoopConfig → Except String Response
  validateToolArguments : Nat → AgentTool → ToolCall → Except String Items
  beforeToolCall : Nat → ToolCall → Items → Except String (Option BeforeToolCallResult)
  execute : Nat → AgentTool → ToolCall → Items → ToolRun
  afterToolCall : Nat → ToolCall → AgentToolResult → Bool → Except String (Option AfterToolCallResult)
  /-- Which of the live tool tasks goes on. -/
  schedule : Nat → Nat
  /-- Whether the loop goes on while tool tasks are live after one of them has failed. -/
  abandons : Nat → Bool
  addCosts : Number → Number → Number

abbrev Loop := Traced Action

/-! Events. -/

def emit (host : Host) (event : AgentEvent) : Loop Unit := do
  act (.emitted event)
  match ← ask (fun tick => host.sink tick event) with
  | none => pure ()
  | some error => do
    act (.refused error)
    stop (.raised error)

def emitMessage (host : Host) (message : Message) : Loop Unit := do
  emit host (.messageStart message)
  emit host (.messageEnd message)

def emitMessages (host : Host) : List Message → Loop Unit
  | [] => pure ()
  | message :: rest => do
    emitMessage host message
    emitMessages host rest

def addMessages (host : Host) : List Message → Loop Unit
  | [] => pure ()
  | message :: rest => do
    emitMessage host message
    act (.added message)
    addMessages host rest

/-! The response. -/

/-- `config.reasoning or "off"`. -/
def requestedLevel (config : AgentLoopConfig) : String :=
  match config.reasoning with
  | none | some "" => "off"
  | some level => level

/-- The final message takes the place of the partial one, or is appended. -/
def finishResponse (host : Host) (config : AgentLoopConfig) (response : Response)
    (addedPartial : Bool) : Loop AssistantMessage := do
  let message ← call (fun _ => response.result)
  let final := { message with thinkingLevel := some (requestedLevel config) }
  if addedPartial then
    act (.replaced final)
    emit host (.messageEnd (.assistant final))
    pure final
  else
    act (.streamed final)
    emit host (.messageStart (.assistant final))
    emit host (.messageEnd (.assistant final))
    pure final

def streamEvents (host : Host) (config : AgentLoopConfig) (response : Response) :
    List StreamEvent → Bool → Loop AssistantMessage
  | [], addedPartial =>
    match response.broken with
    | some error => stop (.raised error)
    | none => finishResponse host config response addedPartial
  | .start partialMessage :: rest, _ => do
    act (.streamed partialMessage)
    emit host (.messageStart (.assistant partialMessage))
    streamEvents host config response rest true
  | .update partialMessage :: rest, addedPartial =>
    -- An update before the start of the message is passed over.
    if addedPartial then do
      act (.replaced partialMessage)
      emit host (.messageUpdate (.assistant partialMessage))
      streamEvents host config response rest true
    else streamEvents host config response rest false
  | .finished :: _, addedPartial => finishResponse host config response addedPartial
  | .other :: rest, addedPartial => streamEvents host config response rest addedPartial

def streamAssistantResponse (host : Host) (context : AgentContext) (config : AgentLoopConfig) :
    Loop AssistantMessage := do
  let response ← call (fun tick => host.request tick context.messages config)
  streamEvents host config response response.events false

/-! Tool calls. -/

def toolCallOf : ContentBlock → Option ToolCall
  | .toolCall call => some call
  | _ => none

def toolCalls (message : AssistantMessage) : List ToolCall :=
  match message.content with
  | .blocks blocks => blocks.filterMap toolCallOf
  | _ => []

def createErrorToolResult (message : String) : AgentToolResult :=
  { content := some [.text message none], details := .dict [] }

inductive Preparation where
  | immediate (result : AgentToolResult) (isError : Bool)
  | prepared (tool : AgentTool) (args : Items)

def operationAborted : Preparation :=
  .immediate (createErrorToolResult "Operation aborted") true

def blockedReason (before : BeforeToolCallResult) : String :=
  match before.reason with
  | none | some "" => "Tool execution was blocked"
  | some reason => reason

def blockedResult (before : BeforeToolCallResult) : AgentToolResult :=
  let result := createErrorToolResult (blockedReason before)
  if before.terminate = some true then { result with terminate := some true } else result

def prepareToolCall (host : Host) (context : AgentContext) (toolCall : ToolCall) :
    Loop Preparation :=
  match context.tools.find? (fun tool => tool.name = toolCall.name) with
  | none => pure (.immediate (createErrorToolResult s!"Tool {toolCall.name} not found") true)
  | some tool => do
    match ← ask (fun tick => host.validateToolArguments tick tool toolCall) with
    | .error error => pure (.immediate (createErrorToolResult error) true)
    | .ok args =>
      match ← ask (fun tick => host.beforeToolCall tick toolCall args) with
      | .error error => pure (.immediate (createErrorToolResult error) true)
      | .ok before =>
        if ← ask host.cancelled then pure operationAborted
        else match before with
          | some { block := some true, reason := reason, terminate := terminate } =>
            pure (.immediate (blockedResult ⟨some true, reason, terminate⟩) true)
          | _ =>
            if ← ask host.cancelled then pure operationAborted else pure (.prepared tool args)

structure NestedCallsRecord where
  calls : Option NestedToolCalls
  usage : Option Usage

def noNestedCalls : NestedCallsRecord := ⟨none, none⟩

structure ExecutedToolCallOutcome where
  result : AgentToolResult
  isError : Bool
  durationMs : Int
  nested : NestedCallsRecord

structure FinalizedToolCallOutcome where
  toolCall : ToolCall
  result : AgentToolResult
  isError : Bool
  nested : NestedCallsRecord := noNestedCalls
  durationMs : Option Int := none

/-- The forwarder of a tool's updates: it ends at the first event that the sink refuses. -/
def forwardUpdates (host : Host) (toolCall : ToolCall) : List AgentToolResult → Loop (Option String)
  | [] => pure none
  | update :: rest => do
    match ← attempt (emit host
      (.toolExecutionUpdate toolCall.id toolCall.name toolCall.arguments update)) with
    | .ok () => forwardUpdates host toolCall rest
    | .error error => pure (some error)

/-- What a tool's end and its forwarder's end make of the call. The forwarder is joined inside
the `try` when the tool returned and inside the `except` when it raised. -/
def executedOutcome (result : Except String AgentToolResult) (forwarder : Option String)
    (durationMs : Int) : Except String ExecutedToolCallOutcome :=
  match result, forwarder with
  | .ok result, none =>
    .ok ⟨{ result with nestedCalls := none, nestedUsage := none }, result.isError = some true,
      durationMs, ⟨result.nestedCalls, result.nestedUsage⟩⟩
  | .ok _, some error | .error error, none =>
    .ok ⟨createErrorToolResult error, true, durationMs, noNestedCalls⟩
  | .error _, some error => .error error

def mergeAfterResult (result : AgentToolResult) (after : AfterToolCallResult) : AgentToolResult :=
  { result with
    content := after.content.or result.content
    details := if after.details = .null then result.details else after.details
    usage := after.usage.or result.usage
    terminate := after.terminate.or result.terminate
    -- Structured content that was not given along with new content is dropped.
    structuredContent := if after.structuredContent = .null && after.content.isNone then
      result.structuredContent else after.structuredContent }

def finalizeExecutedToolCall (host : Host) (toolCall : ToolCall)
    (executed : ExecutedToolCallOutcome) : Loop FinalizedToolCallOutcome := do
  let outcome := fun result isError => (⟨toolCall, result, isError, executed.nested,
    some executed.durationMs⟩ : FinalizedToolCallOutcome)
  match ← ask (fun tick => host.afterToolCall tick toolCall executed.result executed.isError) with
  | .error error => pure (outcome (createErrorToolResult error) true)
  | .ok none => pure (outcome executed.result executed.isError)
  | .ok (some after) =>
    pure (outcome (mergeAfterResult executed.result after) (after.isError.getD executed.isError))

/-- The end of `_execute_prepared_tool_call`, and `_finalize_executed_tool_call`. -/
def settleToolCall (host : Host) (toolCall : ToolCall) (result : Except String AgentToolResult)
    (forwarder : Option String) : Loop FinalizedToolCallOutcome := do
  let durationMs ← ask host.elapsed
  match executedOutcome result forwarder durationMs with
  | .error error => stop (.raised error)
  | .ok executed => finalizeExecutedToolCall host toolCall executed

def emitToolExecutionStart (host : Host) (toolCall : ToolCall) : Loop Unit :=
  emit host (.toolExecutionStart toolCall.id toolCall.name toolCall.arguments)

def emitToolExecutionEnd (host : Host) (finalized : FinalizedToolCallOutcome) : Loop Unit :=
  emit host (.toolExecutionEnd finalized.toolCall.id finalized.toolCall.name finalized.result
    finalized.isError finalized.durationMs)

/-- The sum of an optional split, kept when either side has it. -/
def addSplit (first second : Option Int) : Option Int :=
  if first.isSome || second.isSome then some (first.getD 0 + second.getD 0) else none

def combineUsage (host : Host) (first second : Usage) : Usage :=
  { input := first.input + second.input
    output := first.output + second.output
    cacheRead := first.cacheRead + second.cacheRead
    cacheWrite := first.cacheWrite + second.cacheWrite
    cacheWrite1h := addSplit first.cacheWrite1h second.cacheWrite1h
    reasoning := addSplit first.reasoning second.reasoning
    totalTokens := first.totalTokens + second.totalTokens
    cost := {
      input := host.addCosts first.cost.input second.cost.input
      output := host.addCosts first.cost.output second.cost.output
      cacheRead := host.addCosts first.cost.cacheRead second.cost.cacheRead
      cacheWrite := host.addCosts first.cost.cacheWrite second.cost.cacheWrite
      total := host.addCosts first.cost.total second.cost.total } }

/-- Nested results are not persisted, so their usage counts through the parent's. -/
def resultUsage (host : Host) (finalized : FinalizedToolCallOutcome) : Option Usage :=
  match finalized.nested.usage, finalized.result.usage with
  | none, usage => usage
  | some nested, none => some nested
  | some nested, some usage => some (combineUsage host usage nested)

def createToolResultMessage (host : Host) (finalized : FinalizedToolCallOutcome)
    (timestamp : Int) : ToolResultMessage :=
  { toolCallId := finalized.toolCall.id
    toolName := finalized.toolCall.name
    content := .blocks (finalized.result.content.getD [])
    isError := finalized.isError
    timestamp := timestamp
    details := finalized.result.details
    usage := resultUsage host finalized
    nestedCalls := finalized.nested.calls
    durationMs := finalized.durationMs }

def emitToolResult (host : Host) (finalized : FinalizedToolCallOutcome) :
    Loop ToolResultMessage := do
  let timestamp ← ask host.now
  emitMessage host (.toolResult (createToolResultMessage host finalized timestamp))
  pure (createToolResultMessage host finalized timestamp)

structure ExecutedToolCallBatch where
  messages : List ToolResultMessage
  terminate : Bool

def shouldTerminateToolBatch (finalizedCalls : List FinalizedToolCallOutcome) : Bool :=
  0 < finalizedCalls.length && finalizedCalls.all (fun f => f.result.terminate = some true)

def truncatedOutcome (toolCall : ToolCall) : FinalizedToolCallOutcome :=
  { toolCall := toolCall
    result := createErrorToolResult
      (s!"Tool call \"{toolCall.name}\" was not executed: the response hit the output token limit, " ++
        "so its arguments may be truncated. Re-issue the tool call with complete arguments.")
    isError := true }

def failTruncatedCalls (host : Host) : List ToolCall → Loop (List ToolResultMessage)
  | [] => pure []
  | toolCall :: rest => do
    emitToolExecutionStart host toolCall
    emitToolExecutionEnd host (truncatedOutcome toolCall)
    let message ← emitToolResult host (truncatedOutcome toolCall)
    let messages ← failTruncatedCalls host rest
    pure (message :: messages)

def failToolCallsFromTruncatedMessage (host : Host) (calls : List ToolCall) :
    Loop ExecutedToolCallBatch := do
  let messages ← failTruncatedCalls host calls
  pure ⟨messages, false⟩

def runSequentialCall (host : Host) (context : AgentContext) (toolCall : ToolCall) :
    Loop FinalizedToolCallOutcome := do
  match ← prepareToolCall host context toolCall with
  | .immediate result isError => pure { toolCall := toolCall, result := result, isError := isError }
  | .prepared tool args => do
    let toolRun ← ask (fun tick => host.execute tick tool toolCall args)
    let forwarder ← forwardUpdates host toolCall toolRun.updates
    settleToolCall host toolCall toolRun.result forwarder

def runSequentialCalls (host : Host) (context : AgentContext) :
    List ToolCall → Loop (List (FinalizedToolCallOutcome × ToolResultMessage))
  | [] => pure []
  | toolCall :: rest => do
    emitToolExecutionStart host toolCall
    let finalized ← runSequentialCall host context toolCall
    emitToolExecutionEnd host finalized
    let message ← emitToolResult host finalized
    if ← ask host.cancelled then pure [(finalized, message)]
    else
      let others ← runSequentialCalls host context rest
      pure ((finalized, message) :: others)

def executeToolCallsSequential (host : Host) (context : AgentContext) (calls : List ToolCall) :
    Loop ExecutedToolCallBatch := do
  let finalizedCalls ← runSequentialCalls host context calls
  pure ⟨finalizedCalls.map Prod.snd, shouldTerminateToolBatch (finalizedCalls.map Prod.fst)⟩

/-- A tool task between two of its events. -/
inductive ToolTask where
  | waiting (toolCall : ToolCall) (toolRun : ToolRun)
  | running (toolCall : ToolCall) (updates : List AgentToolResult) (forwarder : Option String)
      (result : Except String AgentToolResult)
  | finishing (finalized : FinalizedToolCallOutcome)
  | done (finalized : FinalizedToolCallOutcome)
  | failed (toolCall : ToolCall) (error : String)

namespace ToolTask

def isLive : ToolTask → Bool
  | .done _ | .failed .. => false
  | _ => true

def isFailed : ToolTask → Bool
  | .failed .. => true
  | _ => false

/-- How many steps a task has left at most. -/
def remaining : ToolTask → Nat
  | .waiting _ toolRun => toolRun.updates.length + 3
  | .running _ updates _ _ => updates.length + 2
  | .finishing _ => 1
  | .done _ | .failed .. => 0

end ToolTask

/-- The first part of the parallel mode: calls are prepared one after another, and a call with
an immediate outcome ends at once. -/
def startParallelCalls (host : Host) (context : AgentContext) : List ToolCall → Loop (List ToolTask)
  | [] => pure []
  | toolCall :: rest => do
    emitToolExecutionStart host toolCall
    let task ← (do
      match ← prepareToolCall host context toolCall with
      | .immediate result isError => do
        let finalized : FinalizedToolCallOutcome :=
          { toolCall := toolCall, result := result, isError := isError }
        emitToolExecutionEnd host finalized
        pure (ToolTask.done finalized)
      | .prepared tool args => do
        let toolRun ← ask (fun tick => host.execute tick tool toolCall args)
        pure (ToolTask.waiting toolCall toolRun))
    if ← ask host.cancelled then pure [task]
    else
      let tasks ← startParallelCalls host context rest
      pure (task :: tasks)

/-- A task goes on to its next event. An error of the task is kept in it. -/
def stepTask (host : Host) : ToolTask → Loop ToolTask
  | .waiting toolCall toolRun => do
    if ← ask host.cancelled then
      pure (.finishing
        { toolCall := toolCall, result := createErrorToolResult "Operation aborted", isError := true })
    else pure (.running toolCall toolRun.updates none toolRun.result)
  | .running toolCall (update :: rest) forwarder result => do
    match ← attempt (emit host
      (.toolExecutionUpdate toolCall.id toolCall.name toolCall.arguments update)) with
    | .ok () => pure (.running toolCall rest forwarder result)
    | .error error => pure (.running toolCall [] (some error) result)
  | .running toolCall [] forwarder result => do
    match ← attempt (settleToolCall host toolCall result forwarder) with
    | .ok finalized => pure (.finishing finalized)
    | .error error => pure (.failed toolCall error)
  | .finishing finalized => do
    match ← attempt (emitToolExecutionEnd host finalized) with
    | .ok () => pure (.done finalized)
    | .error error => pure (.failed finalized.toolCall error)
  | task => pure task

/-- The results of the tasks in source order, or the first error among them. -/
def collectTasks : List ToolTask → Loop (List FinalizedToolCallOutcome)
  | [] => pure []
  | .done finalized :: rest => do
    let others ← collectTasks rest
    pure (finalized :: others)
  | .failed _ error :: _ => stop (.raised error)
  | _ :: _ => stop .cut

def liveTasks (tasks : List ToolTask) : List Nat :=
  (List.range tasks.length).filter (fun i => (tasks[i]?).any ToolTask.isLive)

/-- The tasks run concurrently: the scheduler picks a live task and it takes its next step. -/
def runTasks (host : Host) : Nat → List ToolTask → Loop (List FinalizedToolCallOutcome)
  | 0, tasks => collectTasks tasks
  | fuel + 1, tasks => do
    let abandons ← ask host.abandons
    if tasks.any ToolTask.isFailed && abandons then
      collectTasks (tasks.filter (fun task => !task.isLive))
    else
      let choice ← ask host.schedule
      match (liveTasks tasks)[choice % (liveTasks tasks).length]? with
      | none => collectTasks tasks
      | some i =>
        match tasks[i]? with
        | none => collectTasks tasks
        | some task => do
          let next ← stepTask host task
          runTasks host fuel (tasks.set i next)

def emitToolResults (host : Host) :
    List FinalizedToolCallOutcome → Loop (List ToolResultMessage)
  | [] => pure []
  | finalized :: rest => do
    let message ← emitToolResult host finalized
    let messages ← emitToolResults host rest
    pure (message :: messages)

def executeToolCallsParallel (host : Host) (context : AgentContext) (calls : List ToolCall) :
    Loop ExecutedToolCallBatch := do
  let tasks ← startParallelCalls host context calls
  let finalizedCalls ← runTasks host (tasks.map ToolTask.remaining).sum tasks
  let messages ← emitToolResults host finalizedCalls
  pure ⟨messages, shouldTerminateToolBatch finalizedCalls⟩

def executionModeOf (tools : List AgentTool) (toolCall : ToolCall) : Option ToolExecutionMode :=
  (tools.find? (fun tool => tool.name = toolCall.name)).bind AgentTool.executionMode

def executeToolCalls (host : Host) (context : AgentContext) (message : AssistantMessage)
    (config : AgentLoopConfig) : Loop ExecutedToolCallBatch :=
  if config.toolExecution = some .sequential ||
      (toolCalls message).any (fun c => executionModeOf context.tools c = some .sequential) then
    executeToolCallsSequential host context (toolCalls message)
  else executeToolCallsParallel host context (toolCalls message)

/-! Turns. -/

structure LoopState where
  context : AgentContext
  config : AgentLoopConfig
  lastCompletedTurn : Option AgentTurnContext
  pendingMessages : List Message
  newMessages : List Message
  hasMoreToolCalls : Bool
  explicitContinuation : Bool

/-- A thinking level of an update; `off` is no reasoning. -/
def updateReasoning (reasoning thinkingLevel : Option String) : Option String :=
  match thinkingLevel with
  | none => reasoning
  | some "off" => none
  | some level => some level

def updateConfig (config : AgentLoopConfig) (model : Option Model)
    (thinkingLevel : Option String) : AgentLoopConfig :=
  { config with
    model := model.getD config.model
    reasoning := updateReasoning config.reasoning thinkingLevel }

def pollSteering (host : Host) : Loop (List Message) := do
  let messages ← ask host.getSteeringMessages
  act (.polled .steering messages)
  pure messages

def pollFollowUp (host : Host) : Loop (List Message) := do
  let messages ← ask host.getFollowUpMessages
  act (.polled .followUp messages)
  pure messages

/-- What comes before a turn that is not the first: the hook, the steering messages that came
in the meantime, and the start of the turn. The second value is the hook's messages. -/
def beginTurn (host : Host) (state : LoopState) : Loop (LoopState × List Message) :=
  match state.lastCompletedTurn with
  | none => pure (state, [])
  | some turn => do
    let update ← call (fun tick => host.prepareNextTurn tick turn)
    let update := update.getD {}
    let state := { state with
      context := update.context.getD state.context
      config := updateConfig state.config update.model update.thinkingLevel }
    -- Messages that were polled before count as this turn's.
    if state.pendingMessages = [] then do
      let messages ← pollSteering host
      emit host .turnStart
      pure ({ state with pendingMessages := messages }, update.messages.getD [])
    else do
      emit host .turnStart
      pure (state, update.messages.getD [])

def prepareRequest (host : Host) (state : LoopState) (prepared : List Message) :
    Loop LoopState := do
  let now ← ask host.now
  let messages := declareToolChanges state.context (prepared ++ state.pendingMessages) now
  act (.declared prepared state.pendingMessages messages)
  addMessages host messages
  let context := { state.context with messages := state.context.messages ++ messages }
  let update ← call (fun tick => host.prepareRequest tick context state.config)
  let update := update.getD {}
  pure { state with
    context := update.context.getD context
    config := updateConfig state.config update.model update.thinkingLevel
    newMessages := state.newMessages ++ messages
    pendingMessages := [] }

def addToolResults : List ToolResultMessage → Loop Unit
  | [] => pure ()
  | result :: rest => do
    act (.resulted result)
    addToolResults rest

/-- The tool calls of a response, and whether they ask for another request. -/
def answerToolCalls (host : Host) (context : AgentContext) (config : AgentLoopConfig)
    (message : AssistantMessage) : Loop (List ToolResultMessage × Bool) :=
  if (toolCalls message).isEmpty then pure ([], false)
  else do
    let batch ← (if message.stopReason = .length then
      failToolCallsFromTruncatedMessage host (toolCalls message)
    else executeToolCalls host context message config)
    addToolResults batch.messages
    pure (batch.messages, !batch.terminate)

/-- How one pass of the inner loop ends: the run is over, or it goes on. -/
inductive TurnOutcome where
  | ended (newMessages : List Message)
  | next (state : LoopState)

def endRun (host : Host) (newMessages : List Message) : Loop TurnOutcome := do
  emit host (.agentEnd newMessages)
  pure (.ended newMessages)

/-- The end of a turn whose response is an error or was aborted. -/
def endFailedTurn (host : Host) (state : LoopState) (message : AssistantMessage) :
    Loop TurnOutcome := do
  let _ ← call (fun tick => host.finishTurn tick ⟨message, [], state.context, state.newMessages⟩)
  emit host (.turnEnd message [])
  endRun host state.newMessages

/-- The rest of a turn after its response was added. -/
def completeTurn (host : Host) (state : LoopState) (message : AssistantMessage) :
    Loop TurnOutcome := do
  let (results, hasMoreToolCalls) ← answerToolCalls host state.context state.config message
  let context := { state.context with
    messages := state.context.messages ++ results.map .toolResult }
  let newMessages := state.newMessages ++ results.map .toolResult
  let turn : AgentTurnContext := ⟨message, results, context, newMessages⟩
  let decision ← call (fun tick => host.finishTurn tick turn)
  emit host (.turnEnd message results)
  if decision = some .end then endRun host newMessages
  else
    let messages ← pollSteering host
    pure (.next {
      context := context
      config := state.config
      lastCompletedTurn := some turn
      pendingMessages := messages
      newMessages := newMessages
      hasMoreToolCalls := hasMoreToolCalls
      explicitContinuation := decision = some .continue && !(hasMoreToolCalls || messages ≠ []) })

/-- One pass of the inner loop. -/
def runTurn (host : Host) (state : LoopState) : Loop TurnOutcome := do
  let (state, prepared) ← beginTurn host state
  let state ← prepareRequest host state prepared
  let message ← streamAssistantResponse host state.context state.config
  act (.responded message)
  let state := { state with
    context := { state.context with messages := state.context.messages ++ [Message.assistant message] }
    newMessages := state.newMessages ++ [Message.assistant message] }
  if message.stopReason = .error || message.stopReason = .aborted then
    endFailedTurn host state message
  else completeTurn host state message

/-- Both loops, cut off after a number of turns. -/
def runLoop (host : Host) : Nat → LoopState → Loop (List Message)
  | 0, _ => stop .cut
  | turns + 1, state => do
    match ← runTurn host state with
    | .ended newMessages => pure newMessages
    | .next state =>
      if state.hasMoreToolCalls || state.pendingMessages ≠ [] then runLoop host turns state
      else do
        let followUps ← pollFollowUp host
        if followUps ≠ [] then
          runLoop host turns { state with
            pendingMessages := followUps, explicitContinuation := false }
        else if state.explicitContinuation then
          runLoop host turns { state with explicitContinuation := false }
        else do
          emit host (.agentEnd state.newMessages)
          pure state.newMessages

def startLoop (host : Host) (turns : Nat) (context : AgentContext) (config : AgentLoopConfig)
    (newMessages : List Message) : Loop (List Message) := do
  let messages ← pollSteering host
  runLoop host turns {
    context := context
    config := config
    lastCompletedTurn := none
    pendingMessages := messages
    newMessages := newMessages
    hasMoreToolCalls := true
    explicitContinuation := false }

def runAgentLoop (host : Host) (turns : Nat) (prompts : List Message) (context : AgentContext)
    (config : AgentLoopConfig) : Loop (List Message) := do
  let now ← ask host.now
  let initialMessages := declareToolChanges context prompts now
  act (.seeded initialMessages)
  emit host .agentStart
  emit host .turnStart
  emitMessages host initialMessages
  startLoop host turns { context with messages := context.messages ++ initialMessages } config
    initialMessages

def runAgentLoopContinue (host : Host) (turns : Nat) (context : AgentContext)
    (config : AgentLoopConfig) : Loop (List Message) :=
  match context.messages.getLast? with
  | none => stop (.raised "Cannot continue: no messages in context")
  | some (.assistant _) => stop (.raised "Cannot continue from message role: assistant")
  | some _ => do
    act (.seeded [])
    emit host .agentStart
    emit host .turnStart
    startLoop host turns context config []

end Pidrei.AgentLoop
