import Pidrei.DeferredContext
import Pidrei.EventProtocol

/-!
The loop adds tool results only between a response and the end of its turn, which is what a
session relies on when it appends context messages at the end of a turn. The events of every run
of the loop come in this order, provided that what the run is given holds no response and no tool
result.
-/
namespace Pidrei.TurnEvents

open Messages AgentTypes AgentLoop ToolBatch LoopProtocol AgentRun EventProtocol Traced
open DeferredContext (nextAnswering)

/-- Whether a turn is open after the events, when they come in order. -/
def answers (events : List AgentEvent) : Option Bool :=
  events.foldl (fun answering event => answering.bind (nextAnswering · event)) (some false)

theorem answers_concat (events : List AgentEvent) (event : AgentEvent) :
    answers (events ++ [event]) = (answers events).bind (nextAnswering · event) := by
  simp [answers]

/-- The messages that only a turn brings forth. -/
def isOfTurn : Message → Bool
  | .assistant _ | .toolResult _ => true
  | _ => false

/-- What an action brings into the run from outside. -/
def given : Action → List Message
  | .seeded messages | .polled _ messages | .declared _ _ messages => messages
  | _ => []

def answeringOf : Stage → Bool
  | .complete _ | .calling .. | .failing _ => true
  | _ => false

/-- The messages that the run has been given and not yet added. -/
def held : Stage → List Message
  | .fresh due | .seeded due | .entering due | .prompting due | .holding due | .preparing due
  | .between due => due
  | .prompted message due | .announced message due | .ended message due => message :: due
  | _ => []

structure InOrder (actions : List Action) (stage : Stage) : Prop where
  answers : answers (events actions) = some (answeringOf stage)
  held : ∀ message ∈ held stage, isOfTurn message = false

theorem nextAnswering_given {message : Message} (h : isOfTurn message = false) (answering : Bool) :
    nextAnswering answering (.messageEnd message) = some answering := by
  cases message <;> first | rfl | cases h

section Steps

variable {actions : List Action} {stage next : Stage} (h : InOrder actions stage)

include h

theorem InOrder.silent {action : Action} (hsilent : eventOf action = none)
    (hsame : answeringOf next = answeringOf stage)
    (hheld : ∀ message ∈ TurnEvents.held next, isOfTurn message = false) :
    InOrder (actions ++ [action]) next := by
  refine ⟨?_, hheld⟩
  rw [events, List.filterMap_append, List.filterMap_cons_none hsilent, List.filterMap_nil,
    List.append_nil, hsame]
  exact h.answers

theorem InOrder.emit {event : AgentEvent}
    (hnext : nextAnswering (answeringOf stage) event = some (answeringOf next))
    (hheld : ∀ message ∈ TurnEvents.held next, isOfTurn message = false) :
    InOrder (actions ++ [Action.emitted event]) next := by
  refine ⟨?_, hheld⟩
  rw [events_concat, answers_concat, h.answers]
  exact hnext

/-- While the calls of a response are answered its turn stays open. -/
theorem InOrder.batch {message : AssistantMessage} {batch after : Batch} {action : Action}
    {added : List ToolResultMessage} (hstage : stage = .calling message batch added)
    (hstep : BatchStep (toolCalls message) batch action after) :
    InOrder (actions ++ [action]) (.calling message after added) := by
  subst hstage
  cases hstep with
  | refuse error => exact h.silent rfl rfl h.held
  | _ => exact h.emit rfl h.held

end Steps

theorem InOrder.step {host : Host} {horizon : Nat} {actions : List Action} {p q : Position}
    {action : Action} (h : InOrder actions p.stage) (hstep : Step host horizon p action q)
    (hgiven : ∀ message ∈ given action, isOfTurn message = false) :
    InOrder (actions ++ [action]) q.stage := by
  have hheld := h.held
  cases hstep with
  | promptEnd message due new =>
    obtain ⟨hmessage, hdue⟩ := List.forall_mem_cons.mp hheld
    exact h.emit (nextAnswering_given hmessage _) hdue
  | messageEnd message due new =>
    exact h.emit (nextAnswering_given (hheld message List.mem_cons_self) _) hheld
  | add message due new =>
    exact h.silent rfl rfl (List.forall_mem_cons.mp hheld).2
  | batch message batch after action new hbatch => exact h.batch rfl hbatch
  | seed | firstPoll | declare | poll | pollAgain => exact h.silent rfl rfl hgiven
  | append | restart | replace | respond | fail | result =>
    exact h.silent rfl rfl fun _ hmem => absurd hmem List.not_mem_nil
  | refuse => exact h.silent rfl rfl hheld
  | announce | update | finish | close | closeFailed | endEarly | finishRun =>
    exact h.emit rfl fun _ hmem => absurd hmem List.not_mem_nil
  | _ => exact h.emit rfl hheld

theorem InOrder.steps {host : Host} {horizon : Nat} {actions more : List Action} {p q : Position}
    (hsteps : Steps (Step host horizon) p more q) (h : InOrder actions p.stage)
    (hgiven : ∀ action ∈ more, ∀ message ∈ given action, isOfTurn message = false) :
    InOrder (actions ++ more) q.stage := by
  induction hsteps generalizing actions with
  | nil => rwa [List.append_nil]
  | cons first rest ih =>
    obtain ⟨hfirst, hrest⟩ := List.forall_mem_cons.mp hgiven
    have hlater := ih (h.step first hfirst) hrest
    rwa [List.append_assoc] at hlater

theorem executor_inOrder (host : Host) (turns : Nat) (context : AgentContext)
    (config : AgentLoopConfig) (request : RunRequest) (tick : Nat)
    (hprompts : ∀ message ∈ request.messages, isOfTurn message = false)
    (hgiven : ∀ action ∈ (executor host turns context config request tick).actions,
      ∀ message ∈ given action, isOfTurn message = false) :
    (answers (events (executor host turns context config request tick).actions)).isSome = true := by
  obtain ⟨position, hsteps, -, -⟩ := executor_reaches host turns context config request tick
  have hstart : InOrder [] (.fresh request.messages) := ⟨rfl, hprompts⟩
  have hend := hstart.steps hsteps hgiven
  rw [List.nil_append] at hend
  rw [hend.answers]
  rfl

theorem executor_inOrder_twoCalls :
    (answers (events (executor sampleHost 2 ⟨[], []⟩ sampleConfig (.prompts []) 0).actions)).isSome =
      true := by
  have hgiven : ∀ action ∈ (executor sampleHost 2 ⟨[], []⟩ sampleConfig (.prompts []) 0).actions,
      ∀ message ∈ given action, isOfTurn message = false := by
    decide +kernel
  exact executor_inOrder sampleHost 2 ⟨[], []⟩ sampleConfig (.prompts []) 0
    (fun _ hmem => absurd hmem List.not_mem_nil) hgiven

end Pidrei.TurnEvents
