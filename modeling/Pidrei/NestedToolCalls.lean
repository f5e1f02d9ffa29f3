import Pidrei.Library.Chronicle
import Pidrei.Library.PythonText
import Pidrei.Library.Runs

/-!
Tool calls that running tools make. Each gets an id below its caller's, is announced, and runs
through the tool pipeline; a call that must not run beside others takes the queue first, unless
it is made below a call that has taken it. Calls are named by their place in the list of all
calls, those the model issued included.
-/
namespace Pidrei.NestedToolCalls

open PythonText

inductive ExecutionMode
  | sequential
  | parallel
  deriving DecidableEq

structure Tool where
  name : String
  executionMode : Option ExecutionMode

inductive Stage
  /-- The id is taken. -/
  | numbered
  /-- `tool_execution_start` is handed to the host. -/
  | started
  | queued
  /-- In `run_tool_call`. -/
  | inside
  | returned
  /-- `tool_execution_end` is handed to the host. -/
  | ended
  /-- Cancelled, or ended by an exception of the host. -/
  | left (entered : Bool)
  deriving DecidableEq

/-- The call's tool has been running. -/
def Stage.entered : Stage → Bool
  | .inside | .returned | .ended => true
  | .left entered => entered
  | _ => false

def Stage.decided (stage : Stage) : Bool := stage = .queued || stage.entered

def Stage.inProgress : Stage → Bool
  | .ended | .left _ => false
  | _ => true

/-- A call with the scope its tool gets. -/
structure Call where
  /-- `none` for a call the model issued. -/
  parent : Option ℕ
  id : List Char
  name : String
  /-- The number its id ends in. -/
  number : ℕ := 0
  nextId : ℕ := 1
  holdsQueue : Bool := false
  /-- It must not run beside others. -/
  alone : Bool := false
  /-- It takes the queue. -/
  exclusive : Bool := false
  stage : Stage

inductive EventType
  | toolExecutionStart
  | toolExecutionEnd
  deriving DecidableEq

structure Event where
  type : EventType
  toolCallId : List Char
  toolName : String
  /-- The call it is about. -/
  call : ℕ

structure State where
  calls : List Call
  /-- The call that holds `_queue_lock`. -/
  holder : Option ℕ
  /-- The events handed to the host. One that comes after its run's events are closed, from a
  call left running, it drops. -/
  log : List Event

def start : State := ⟨[], none, []⟩

namespace State

variable (s : State)

def call? (c : ℕ) : Option Call := s.calls[c]?

def setCall (c : ℕ) (call : Call) : State := { s with calls := s.calls.set c call }

/-- `host.emit(event)`. -/
def emit (c : ℕ) (call : Call) (type : EventType) : State :=
  { s with log := s.log ++ [⟨type, call.id, call.name, c⟩] }

/-- Leaving the `async with` of the queue. -/
def release (c : ℕ) : State := if s.holder = some c then { s with holder := none } else s

end State

/-- Whether a nested call of this name must not run beside others. -/
def runsAlone (isSequential : Bool) (tools : List Tool) (name : String) : Bool :=
  isSequential || match tools.find? (·.name == name) with
    | some tool => tool.executionMode = some .sequential
    | none => false

def nextCallId (parent : Call) : List Char := parent.id ++ '/' :: str parent.nextId

inductive Action
  /-- The model issues a call and its tool runs. -/
  | issue (id : List Char) (name : String)
  | execute (parent : ℕ) (name : String)
  | announce (c : ℕ)
  | decide (c : ℕ) (isSequential : Bool) (tools : List Tool)
  | acquire (c : ℕ)
  /-- `run_tool_call` returns, or the tool of a call the model issued. -/
  | finish (c : ℕ)
  | conclude (c : ℕ)
  | leave (c : ℕ)

section Step

variable (s : State)

def stepExecute (p : ℕ) (parent : Call) (name : String) : State :=
  { s with calls := s.calls.set p { parent with nextId := parent.nextId + 1 } ++
      [{ parent := some p, id := nextCallId parent, name, number := parent.nextId,
         stage := .numbered }] }

/-- The call once it is known whether it takes the queue. -/
def Call.decide (call : Call) (scopeHoldsQueue alone : Bool) : Call :=
  let exclusive := !scopeHoldsQueue && alone
  { call with
    alone := alone
    exclusive := exclusive
    holdsQueue := scopeHoldsQueue || exclusive
    stage := if exclusive then .queued else .inside }

def step : Action → Option State
  | .issue id name =>
    some { s with calls := s.calls ++ [{ parent := none, id, name, stage := .inside }] }
  | .execute p name => (s.call? p).bind fun parent =>
    if parent.stage.entered then some (stepExecute s p parent name) else none
  | .announce c => (s.call? c).bind fun call =>
    if call.stage = .numbered then
      some ((s.setCall c { call with stage := .started }).emit c call .toolExecutionStart)
    else none
  | .decide c isSequential tools => (s.call? c).bind fun call =>
    (call.parent.bind s.call?).bind fun parent =>
      if call.stage = .started then
        some (s.setCall c (call.decide parent.holdsQueue (runsAlone isSequential tools call.name)))
      else none
  | .acquire c => (s.call? c).bind fun call =>
    if call.stage = .queued ∧ s.holder = none then
      some { s.setCall c { call with stage := .inside } with holder := some c }
    else none
  | .finish c => (s.call? c).bind fun call =>
    if call.stage = .inside then
      some ((s.setCall c { call with
        stage := if call.parent.isSome then .returned else .ended }).release c)
    else none
  | .conclude c => (s.call? c).bind fun call =>
    if call.stage = .returned then
      some ((s.setCall c { call with stage := .ended }).emit c call .toolExecutionEnd)
    else none
  | .leave c => (s.call? c).bind fun call =>
    if call.parent.isSome ∧ call.stage ≠ .numbered ∧ call.stage.inProgress then
      some ((s.setCall c { call with stage := .left call.stage.entered }).release c)
    else none

end Step

end Pidrei.NestedToolCalls
