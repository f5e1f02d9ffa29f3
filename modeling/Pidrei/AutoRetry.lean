import Mathlib.Algebra.Order.Ring.Rat
import Pidrei.Messages
import Pidrei.Library.Chronicle
import Pidrei.Library.Runs

/-!
Automatic retries of failed responses. A run of the session asks the agent for responses
until nothing is left to do; a response that failed for a passing reason is omitted from the
context and asked for again after a pause, and listeners are told of the series of attempts.
-/
namespace Pidrei.AutoRetry

open Chronicle Messages

/-! ### Errors -/

/-- The searches for the tables of error patterns. -/
structure Patterns where
  overflow : String → Bool
  nonOverflow : String → Bool
  cerebrasBodylessOverflow : String → Bool
  nonRetryableProviderLimitError : String → Bool
  retryableProviderError : String → Bool

section Errors

variable (patterns : Patterns)

def isErrorOverflow (message : AssistantMessage) : Bool :=
  match message.stopReason, message.errorMessage with
  | .error, some errorMessage =>
    errorMessage ≠ "" && !patterns.nonOverflow errorMessage &&
      (patterns.overflow errorMessage ||
        message.provider == "cerebras" && patterns.cerebrasBodylessOverflow errorMessage)
  | _, _ => false

def isContextOverflow (message : AssistantMessage) (contextWindow : ℤ) : Bool :=
  let inputTokens := message.usage.input + message.usage.cacheRead
  isErrorOverflow patterns message ||
    contextWindow ≠ 0 && message.stopReason = .stop && contextWindow < inputTokens ||
    contextWindow ≠ 0 && message.stopReason = .length && message.usage.output = 0 &&
      contextWindow * 99 ≤ inputTokens * 100

def isRetryableAssistantError (message : AssistantMessage) : Bool :=
  match message.stopReason, message.errorMessage with
  | .error, some errorMessage =>
    errorMessage ≠ "" && !patterns.nonRetryableProviderLimitError errorMessage &&
      patterns.retryableProviderError errorMessage
  | _, _ => false

/-- An overflow of the context is left to compaction. -/
def isRetryableError (message : AssistantMessage) (contextWindow : ℤ) : Bool :=
  !isContextOverflow patterns message contextWindow && isRetryableAssistantError patterns message

end Errors

structure RetrySettings where
  enabled : Bool
  maxRetries : ℤ
  baseDelayMs : ℚ
  maxAgentDelayMs : ℚ

def retryDelayMs (settings : RetrySettings) (attempt : ℕ) : ℚ :=
  min (settings.baseDelayMs * 2 ^ (attempt - 1)) settings.maxAgentDelayMs

/-! ### The session -/

inductive Event
  /-- The agent is asked, again after a failed response or for another reason. -/
  | requested (retry : Bool)
  | response (message : AssistantMessage)
  | autoRetryStart (attempt : ℕ) (maxAttempts : ℤ) (delayMs : ℚ) (errorMessage : String)
  | autoRetryEnd (success : Bool) (attempt : ℕ) (finalError : Option String)
  deriving DecidableEq

inductive Phase
  | idle
  /-- Claimed; the starting messages are prepared. -/
  | starting
  /-- `prompt` or `continue_` of the agent. `answered`: a response has ended. `announcing`: the
  listeners hear that a retry succeeded. -/
  | requesting (answered announcing : Bool)
  /-- The agent's run is over, at the head of the loop. -/
  | returned
  /-- In `_handle_post_agent_run`. -/
  | handling
  /-- In `_prepare_retry`: the failed response is being omitted. -/
  | omitting
  /-- In `_prepare_retry`: the pause before the next attempt. -/
  | waiting
  /-- In `_check_compaction` or the look at the queues after it. -/
  | recovering
  /-- In `_run_before_settle_boundary`. -/
  | settling
  /-- About to call `continue_`. -/
  | resuming (retry : Bool)
  /-- The caller is gone, the agent winds down. -/
  | abandoned (announcing : Bool)
  deriving DecidableEq

structure Session where
  phase : Phase
  retryAttempt : ℕ
  /-- The token of the retry being prepared, and whether it is cancelled. -/
  retryCancel : Option Bool
  abortRequested : Bool
  lastAssistantMessage : Option AssistantMessage
  log : List Event

def start : Session := ⟨.idle, 0, none, false, none, []⟩

namespace Session

variable (s : Session)

def enter (phase : Phase) : Session := { s with phase := phase }

def emit (event : Event) : Session := { s with log := s.log ++ [event] }

/-- Both the end of a series and the counter's reset. -/
def endRetry (success : Bool) (finalError : Option String) : Session :=
  { s with
    retryAttempt := 0
    log := s.log ++ [Event.autoRetryEnd success s.retryAttempt finalError] }

def finishCancelledRetry : Session :=
  if s.retryAttempt = 0 then s else s.endRetry false (some "Retry cancelled")

def clearRunState : Session := if s.abortRequested then s.finishCancelledRetry else s

def endRun : Session := { s.clearRunState with phase := .idle, retryCancel := none }

def messageEnd (message : AssistantMessage) : Session :=
  let s := { s with
    lastAssistantMessage := some message
    log := s.log ++ [Event.response message] }
  if message.stopReason ≠ .error ∧ 0 < s.retryAttempt then
    s.emit (.autoRetryEnd true s.retryAttempt none)
  else s

def announces (message : AssistantMessage) : Bool :=
  message.stopReason ≠ .error ∧ 0 < s.retryAttempt

/-- The start of `_prepare_retry`, when a retry is due. -/
def prepareRetry (settings : RetrySettings) (message : AssistantMessage) : Session :=
  let attempt := s.retryAttempt + 1
  { s with
    phase := .omitting
    retryAttempt := attempt
    retryCancel := some s.abortRequested
    log := s.log ++ [Event.autoRetryStart attempt settings.maxRetries (retryDelayMs settings attempt)
      (match message.errorMessage with
        | none | some "" => "Unknown error"
        | some errorMessage => errorMessage)] }

/-- No retry is due, or no more. -/
def giveUp (message : AssistantMessage) : Session :=
  if message.stopReason = .error ∧ 0 < s.retryAttempt then s.endRetry false message.errorMessage
  else s

end Session

def RetrySettings.allow (settings : RetrySettings) (attempt : ℕ) : Bool :=
  settings.enabled && attempt + 1 ≤ settings.maxRetries

section Step

variable (patterns : Patterns)

/-- `_handle_post_agent_run` until it first waits. -/
def handlePostAgentRun (settings : RetrySettings) (contextWindow : ℤ) (s : Session) : Session :=
  let message := s.lastAssistantMessage
  let s := { s with lastAssistantMessage := none }
  if s.abortRequested then s.finishCancelledRetry.endRun
  else
    match message with
    | none => s.enter .recovering
    | some message =>
      if isRetryableError patterns message contextWindow && settings.allow s.retryAttempt then
        s.prepareRetry settings message
      else (s.giveUp message).enter .recovering

/-- The rest of `_handle_post_agent_run` once a retry was prepared or cancelled in its pause. -/
def retryPrepared (prepared : Bool) (s : Session) : Session :=
  let s := { s with retryCancel := none }
  let s := if prepared then s else s.finishCancelledRetry
  if s.abortRequested then s.finishCancelledRetry.endRun
  else s.enter (if prepared then .resuming true else .recovering)

inductive Action
  | claim
  /-- Preparing the starting messages or recording the selection raises. -/
  | startFails
  | prompt
  | messageEnd (message : AssistantMessage)
  /-- The listeners of a success have returned, the counter is reset. -/
  | announced
  | agentReturns
  | agentRaises
  /-- The agent's run that the caller left has wound down. -/
  | agentStops
  | loop
  | postRun (settings : RetrySettings) (contextWindow : ℤ)
  | omitted
  | omissionFails
  | waited
  | recovered (again : Bool)
  | recoveryFails
  | settled (again : Bool)
  | settlingFails
  | resume
  | requestAbort
  | abortRetry
  | cancelCaller

/-- Between two waits the loop of `_start_run` goes on or ends the run. -/
def goOn (s : Session) (phase : Phase) : Session :=
  if s.abortRequested then s.endRun else s.enter phase

def step (s : Session) : Action → Option Session
  | .claim =>
    if s.phase = .idle then some { s with phase := .starting, abortRequested := false } else none
  | .startFails => if s.phase = .starting then some s.endRun else none
  | .prompt =>
    if s.phase = .starting then some ((s.emit (.requested false)).enter (.requesting false false))
    else none
  | .messageEnd message =>
    match s.phase with
    | .requesting _ false => some ((s.messageEnd message).enter (.requesting true (s.announces message)))
    | .abandoned false => some ((s.messageEnd message).enter (.abandoned (s.announces message)))
    | _ => none
  | .announced =>
    match s.phase with
    | .requesting answered true =>
      some { s with retryAttempt := 0, phase := .requesting answered false }
    | .abandoned true => some { s with retryAttempt := 0, phase := .abandoned false }
    | _ => none
  | .agentReturns => if s.phase = .requesting true false then some (s.enter .returned) else none
  | .agentRaises =>
    match s.phase with
    | .requesting _ false => some s.endRun
    | _ => none
  | .agentStops => if s.phase = .abandoned false then some (s.enter .idle) else none
  | .loop => if s.phase = .returned then some (goOn s .handling) else none
  | .postRun settings contextWindow =>
    if s.phase = .handling then some (handlePostAgentRun patterns settings contextWindow s) else none
  | .omitted => if s.phase = .omitting then some (s.enter .waiting) else none
  | .omissionFails => if s.phase = .omitting then some s.endRun else none
  | .waited =>
    if s.phase = .waiting then some (retryPrepared (s.retryCancel ≠ some true) s) else none
  | .recovered again =>
    if s.phase = .recovering then some (goOn s (if again then .resuming false else .settling))
    else none
  | .recoveryFails => if s.phase = .recovering then some s.endRun else none
  | .settled again =>
    if s.phase = .settling then some (if again then goOn s (.resuming false) else s.endRun) else none
  | .settlingFails => if s.phase = .settling then some s.endRun else none
  | .resume =>
    match s.phase with
    | .resuming retry =>
      some (if s.abortRequested then s.endRun
        else (s.emit (.requested retry)).enter (.requesting false false))
    | _ => none
  | .requestAbort => if s.phase = .idle then some s else some { s with abortRequested := true }
  | .abortRetry => some { s with retryCancel := s.retryCancel.map fun _ => true }
  | .cancelCaller =>
    match s.phase with
    | .idle | .abandoned _ => none
    -- No agent run exists yet, and the flag is left alone.
    | .starting => some s.endRun
    | .requesting _ announcing =>
      some { { s with abortRequested := true }.endRun with phase := .abandoned announcing }
    | _ => some { s with abortRequested := true }.endRun

end Step

end Pidrei.AutoRetry
