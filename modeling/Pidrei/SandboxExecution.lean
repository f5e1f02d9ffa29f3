import Pidrei.Values
import Pidrei.Library.PythonText
import Mathlib.Data.List.Infix

/-!
One codemode script on one session of the worker pool. Blocking calls into the worker run
as jobs of their own, so that a cancelled owner never interrupts one; a script is stopped
early by killing its worker, which must not be back in the pool by then.
-/
namespace Pidrei.Codemode

open Values

inductive ErrorKind
  | script
  | timeout
  | aborted
  | sandbox
  deriving DecidableEq

structure CodemodeError where
  kind : ErrorKind
  message : String
  name : Option String := none
  stack : Option String := none
  deriving DecidableEq

inductive CallStatus
  | ok
  | error
  | cancelled
  deriving DecidableEq

inductive OutputItem
  | text (text : String) (console : Bool)
  | image (data mimeType : String)

/-- `index` is the place of the call in `_pending`. -/
structure CallRecord where
  index : ℕ
  name : String
  status : CallStatus := .cancelled

structure CodemodeResult where
  value : Option Value
  error : Option CodemodeError
  output : List OutputItem
  calls : List CallRecord

/-- `(kind, message, name)` of an early end. -/
structure Stop where
  kind : ErrorKind
  message : String
  name : Option String := none

def Stop.error (stop : Stop) : CodemodeError :=
  { kind := stop.kind, message := stop.message, name := stop.name }

/-- What a call into Monty raises. -/
inductive Failure
  | typing (diagnostics : String)
  | invalidSyntax (message display : String)
  | runtime (name message display : String)
  | crashed (text : String)
  | monty (text : String)
  | other (text : String)

def Failure.text : Failure → String
  | .typing text | .invalidSyntax text _ | .runtime _ text _ | .crashed text | .monty text
  | .other text => text

/-- A `MontyError` other than a crash. -/
def Failure.isScripts : Failure → Bool
  | .crashed _ | .other _ => false
  | _ => true

inductive HostCall
  | exit
  | emit (item : OutputItem)
  /-- A tool, whose calls are recorded under its name, or a global. -/
  | spawn (callId : ℕ) (tool : Option String)
  | answer

/-- `complete` has the script's value as JSON carries it, or what `json_round_trip` raises. -/
inductive Snapshot
  | complete (value : Except String Value)
  | osFunction
  | function (call : HostCall)
  | nameLookup
  | future
  | unexpected (text : String)

/-- What a blocking job ended with. -/
inductive JobOutcome
  | opened
  | fed (snapshot : Snapshot)
  | raised (failure : Failure)
  | exited

/-- The step in flight, or the last one: where its job is. A session is named by the pid of its
worker. -/
inductive Job
  | opening
  /-- The session is entered; it is not handed over yet. -/
  | entered (pid : ℕ)
  /-- The script was abandoned meanwhile. -/
  | returning (pid : ℕ)
  | prelude
  | feeding
  | exiting
  | done (outcome : JobOutcome)

/-- Where a call's coroutine is. -/
inductive CallPhase
  | invoking
  | answered (status : CallStatus)
  | over
  deriving DecidableEq

structure PendingCall where
  callId : ℕ
  record : Option CallRecord
  phase : CallPhase

inductive Message
  | stop
  | settled (callId : ℕ)
  deriving DecidableEq

/-- Where `run` is. -/
inductive Owner
  | starting
  | opening
  | stepping
  /-- A call of the script is answered; `exit` says that it was `exit()`. -/
  | answered (exit : Bool)
  | receiving
  /-- The outcome is settled, and the scope of the calls is being left. -/
  | leaving (result : CodemodeResult) (session : Option ℕ)
  | releasing (result : CodemodeResult)
  | returned (result : CodemodeResult)
  | raised

/-- Where `_release_detached` is. -/
inductive Detached
  | none
  | waiting
  | releasing (pid : ℕ)
  | over

/-- What is seen of an execution. -/
inductive Event
  | checkedOut (pid : ℕ)
  | killed (pid : ℕ)
  /-- The session's `__exit__` is called. -/
  | released (pid : ℕ)
  | stopped (stop : Stop)
  | settled (result : CodemodeResult)
  /-- The call at this place of `_pending` has returned or raised. -/
  | answered (index : ℕ) (status : CallStatus)

structure Setup where
  timeoutMs : String
  maxFeedDurationSecs : String

structure Execution where
  finished : Bool := false
  stop : Option Stop := none
  session : Option ℕ := none
  pid : Option ℕ := none
  pending : List PendingCall := []
  output : List OutputItem := []
  printed : List String := []
  outputChars : ℕ := 0
  outputItems : ℕ := 0
  channel : List Message := []
  step : Option Job := none
  owner : Owner := .starting
  detached : Detached := .none
  log : List Event := []

def maxOutputChars : ℕ := 16 * 1024 * 1024

def maxOutputItems : ℕ := 100000

def outputLimit : Stop where
  kind := .script
  message := s!"script output exceeded the limit of {maxOutputChars} characters or {maxOutputItems}" ++
    " text() and image() calls. Print a summary instead, or write large data to a file with a tool."
  name := some "RuntimeError"

namespace Execution

def record (event : Event) (e : Execution) : Execution := { e with log := e.log ++ [event] }

/-- `_kill_locked`; there is nothing to kill before the session is handed over. -/
def kill (e : Execution) : Execution := { e with log := e.log ++ (e.pid.map Event.killed).toList }

/-- `_stop_locked`. -/
def stopLocked (stop : Stop) (e : Execution) : Execution :=
  let e := record (.stopped stop) e
  if e.finished || e.stop.isSome then e
  else
    let e := kill { e with stop := some stop }
    { e with channel := e.channel ++ [Message.stop] }

/-- `_count_output_locked`. -/
def countOutput (chars items : ℕ) (e : Execution) : Bool × Execution :=
  if e.finished || e.stop.isSome then (false, e)
  else
    let e := { e with outputChars := e.outputChars + chars, outputItems := e.outputItems + items }
    if maxOutputChars < e.outputChars ∨ maxOutputItems < e.outputItems then
      (false, stopLocked outputLimit e)
    else (true, e)

/-- `_on_print`. -/
def onPrint (text : String) (e : Execution) : Execution :=
  match countOutput text.length 0 e with
  | (true, e) => { e with printed := e.printed ++ [text] }
  | (false, e) => e

/-- `text.removesuffix("\n")`. -/
def removeNewline (text : String) : String :=
  match text.toList.getLast? with
  | some '\n' => String.ofList text.toList.dropLast
  | _ => text

/-- `_flush_prints_locked`. -/
def flushPrints (e : Execution) : Execution :=
  if e.printed = [] then e
  else { e with
    printed := []
    output := e.output ++ [OutputItem.text (removeNewline (String.join e.printed)) true] }

def itemLength : OutputItem → ℕ
  | .text text _ => text.length
  | .image data _ => data.length

/-- `_emit`. -/
def emit (item : OutputItem) (e : Execution) : Execution :=
  match countOutput (itemLength item) 1 e with
  | (true, e) => { flushPrints e with output := (flushPrints e).output ++ [item] }
  | (false, e) => e

/-- `_spawn`. -/
def spawn (callId : ℕ) (tool : Option String) (e : Execution) : Execution :=
  let record := tool.map fun name => { index := e.pending.length, name }
  { e with pending := e.pending ++ [{ callId, record, phase := .invoking }] }

/-- The outcome, in which a stop that came first wins. -/
def outcome (value : Option Value) (error : Option CodemodeError) (e : Execution) : CodemodeResult :=
  let error := match e.stop with
    | some stop => some stop.error
    | none => error
  { value := if error.isSome then none else value
    error
    output := e.output
    calls := e.pending.filterMap PendingCall.record }

/-- `_finish`: the outcome is settled, and the session is taken for its release. -/
def finish (value : Option Value) (error : Option CodemodeError) (e : Execution) : Execution :=
  let e := flushPrints { e with finished := true }
  let result := outcome value error e
  record (.settled result) { e with session := none, owner := .leaving result e.session }

def typeCheckFailed : String := "The script did not run: type checking failed."

def feedTimeLimitPrefix : String := "feed time limit exceeded"

def gatherHint : String :=
  "Hint: asyncio.gather() does not support return_exceptions here. Use await all_settled(...) to keep " ++
    "the results of the calls that succeed."

/-- What `_failure` reports. -/
def describe (setup : Setup) : Failure → CodemodeError
  | .typing diagnostics =>
    let diagnostics := PythonText.strip diagnostics
    { kind := .script, message := diagnostics, stack := some s!"{typeCheckFailed}\n{diagnostics}" }
  | .invalidSyntax message display =>
    { kind := .script, message, name := some "SyntaxError", stack := some display }
  | .runtime name message display =>
    if name = "TimeoutError" ∧ feedTimeLimitPrefix.toList <+: message.toList then
      { kind := .timeout
        message := s!"Execution timed out after {setup.maxFeedDurationSecs} seconds of script" ++
          " execution (time spent waiting on tools does not count)" }
    else
      let stack := if name = "NotImplementedError" ∧ "gather()".toList <:+: message.toList then
          s!"{display}\n\n{gatherHint}"
        else display
      { kind := .script, message, name := some name, stack := some stack }
  | .crashed _ => { kind := .sandbox, message := "The sandbox worker exited before the script settled" }
  | .monty text | .other text => { kind := .sandbox, message := text }

/-- What `_complete` settles. -/
def complete (value : Except String Value) (e : Execution) : Execution :=
  match value with
  | .ok value => finish (some value) none e
  | .error text =>
    finish none (some { kind := .script, message := text, name := some "TypeError" }) e

/-- `_step` with a call of the session. -/
def feed (e : Execution) : Execution := { e with step := some .feeding, owner := .stepping }

/-- One turn of the loop of `_drive`, up to its next wait. -/
def handle (snapshot : Snapshot) (e : Execution) : Execution :=
  match snapshot with
  | .complete value => complete value e
  | .osFunction | .nameLookup => feed e
  | .function .exit => { e with owner := .answered true }
  | .function (.emit item) => emit item { e with owner := .answered false }
  | .function (.spawn callId tool) => spawn callId tool { e with owner := .answered false }
  | .function .answer => { e with owner := .answered false }
  | .future => { e with owner := .receiving }
  | .unexpected text =>
    finish none (some { kind := .sandbox, message := s!"Unexpected sandbox state: {text}" }) e

/-- `_drive` after `_open_blocking`. -/
def afterOpening (setup : Setup) (outcome : JobOutcome) (e : Execution) : Execution :=
  match outcome with
  | .raised failure =>
    if failure.isScripts then finish none (some (describe setup failure)) e
    else finish none (some {
      kind := .sandbox, message := s!"Failed to start the sandbox worker: {failure.text}" }) e
  | _ => if e.stop.isSome || e.session.isNone then finish none none e else feed e

/-- The owner goes on when the job of its step is done. -/
def resume (setup : Setup) (e : Execution) : Option Execution :=
  match e.step, e.owner with
  | some (.done outcome), .opening => some (afterOpening setup outcome e)
  | some (.done (.fed snapshot)), .stepping => some (handle snapshot e)
  | some (.done (.raised failure)), .stepping => some (finish none (some (describe setup failure)) e)
  | some (.done _), .releasing result => some { e with owner := .returned result }
  | _, _ => none

/-- A stop during the answer killed the worker already. -/
def check (e : Execution) : Option Execution :=
  match e.owner with
  | .answered exit => some (if exit || e.stop.isSome then finish none none e else feed e)
  | _ => none

/-- `_settled_calls` takes everything there is. -/
def receive (e : Execution) : Option Execution :=
  match e.owner, e.channel with
  | .receiving, message :: messages =>
    let e := { e with channel := [] }
    some (if .stop ∈ message :: messages then finish none none e else feed e)
  | _, _ => none

/-- `_release`, after the scope is left. -/
def leaveScope (e : Execution) : Option Execution :=
  match e.owner with
  | .leaving result none => some { e with owner := .returned result }
  | .leaving result (some pid) =>
    some (record (.released pid) { e with step := some .exiting, owner := .releasing result })
  | _ => none

/-- `_abandon`. -/
def abandon (e : Execution) : Execution :=
  if e.finished then e
  else
    let e := kill { e with finished := true }
    { e with detached := .waiting }

/-- The owner is cancelled at the wait where it is. -/
def cancelOwner (e : Execution) : Option Execution :=
  match e.owner with
  | .opening | .stepping | .receiving => some { abandon e with owner := .raised }
  | .leaving _ _ | .releasing _ => some { e with owner := .raised }
  | .starting | .answered _ | .returned _ | .raised => none

/-- The session's `__enter__` has returned, or something before it raised. -/
def enter (entered : Except Failure ℕ) (e : Execution) : Option Execution :=
  match e.step with
  | some .opening =>
    some (match entered with
      | .ok pid => record (.checkedOut pid) { e with step := some (.entered pid) }
      | .error failure => { e with step := some (.done (.raised failure)) })
  | _ => none

/-- `_open_blocking` hands the session over. -/
def handOver (e : Execution) : Option Execution :=
  match e.step with
  | some (.entered pid) =>
    some (if e.finished then { e with step := some (.returning pid) }
      else { e with session := some pid, pid := some pid, step := some .prelude })
  | _ => none

/-- An abandoned session is exited by the job that opened it. -/
def exitAbandoned (e : Execution) : Option Execution :=
  match e.step with
  | some (.returning pid) => some (record (.released pid) { e with step := some (.done .opened) })
  | _ => none

/-- The job in flight is done; a failing `__exit__` is passed over. -/
def endJob (outcome : Except Failure Snapshot) (e : Execution) : Option Execution :=
  match e.step with
  | some .prelude =>
    some (match outcome with
      | .ok _ => { e with step := some (.done .opened) }
      | .error failure => { e with step := some (.done (.raised failure)) })
  | some .feeding =>
    some (match outcome with
      | .ok snapshot => { e with step := some (.done (.fed snapshot)) }
      | .error failure => { e with step := some (.done (.raised failure)) })
  | some .exiting => some { e with step := some (.done .exited) }
  | _ => none

/-- The step is over: its event is set. -/
def stepDone : Option Job → Bool
  | none | some (.done _) => true
  | some _ => false

/-- `_release_detached` after its wait. -/
def takeSession (e : Execution) : Option Execution :=
  match e.detached with
  | .waiting =>
    if stepDone e.step then
      some (match e.session with
        | none => { e with detached := .over }
        | some pid => record (.released pid) { e with session := none, detached := .releasing pid })
    else none
  | _ => none

def endRelease (e : Execution) : Option Execution :=
  match e.detached with
  | .releasing _ => some { e with detached := .over }
  | _ => none

/-- `run` up to its first wait. -/
def beginRun (e : Execution) : Option Execution :=
  match e.owner with
  | .starting =>
    some (if e.stop.isSome then finish none none e
      else { e with step := some .opening, owner := .opening })
  | _ => none

/-- The script prints while a feed runs. -/
def printText (text : String) (e : Execution) : Option Execution :=
  match e.step with
  | some .feeding => some (onPrint text e)
  | _ => none

def modifyCall (index : ℕ) (change : PendingCall → PendingCall) (e : Execution) : Execution :=
  { e with pending := e.pending.modify index change }

/-- The call has returned or raised. -/
def answerCall (index : ℕ) (status : CallStatus) (e : Execution) : Option Execution :=
  (e.pending[index]?).bind fun call =>
    if call.phase = .invoking ∧ status ≠ .cancelled then
      some (record (.answered index status)
        (modifyCall index (fun call => { call with phase := .answered status }) e))
    else none

/-- The end of `_run_call`; after the script ended the record keeps "cancelled". -/
def recordCall (index : ℕ) (e : Execution) : Option Execution :=
  (e.pending[index]?).bind fun call =>
    match call.phase with
    | .answered status =>
      some (
        if e.finished then modifyCall index (fun call => { call with phase := .over }) e
        else
          let e := modifyCall index (fun call => { call with
            phase := .over, record := call.record.map ({ · with status }) }) e
          { e with channel := e.channel ++ [Message.settled call.callId] })
    | _ => none

/-- The scope cancels the call. -/
def dropCall (index : ℕ) (e : Execution) : Option Execution :=
  (e.pending[index]?).bind fun call =>
    if e.finished ∧ call.phase = .invoking then
      some (modifyCall index (fun call => { call with phase := .over }) e)
    else none

end Execution

/-- Everything that can happen next. -/
inductive Action
  | begin
  | enter (entered : Except Failure ℕ)
  | handOver
  | exitAbandoned
  | endJob (outcome : Except Failure Snapshot)
  | print (text : String)
  | resume
  | check
  | receive
  | leaveScope
  | answerCall (index : ℕ) (status : CallStatus)
  | recordCall (index : ℕ)
  | dropCall (index : ℕ)
  /-- The caller's token fires, with this reason. -/
  | cancel (reason : String)
  | deadline
  | close
  | cancelOwner
  | takeSession
  | endRelease

namespace Execution

/-- `none` where the action cannot be next. -/
def next (setup : Setup) (e : Execution) : Action → Option Execution
  | .begin => beginRun e
  | .enter entered => enter entered e
  | .handOver => handOver e
  | .exitAbandoned => exitAbandoned e
  | .endJob outcome => endJob outcome e
  | .print text => printText text e
  | .resume => resume setup e
  | .check => check e
  | .receive => receive e
  | .leaveScope => leaveScope e
  | .answerCall index status => answerCall index status e
  | .recordCall index => recordCall index e
  | .dropCall index => dropCall index e
  | .cancel reason =>
    some (stopLocked {
      kind := .aborted, message := if reason = "" then "Execution aborted" else reason } e)
  | .deadline =>
    some (stopLocked {
      kind := .timeout, message := s!"Execution timed out after {setup.timeoutMs} ms" } e)
  | .close => some (stopLocked { kind := .aborted, message := "Sandbox closed" } e)
  | .cancelOwner => cancelOwner e
  | .takeSession => takeSession e
  | .endRelease => endRelease e

end Execution

end Pidrei.Codemode
