import Pidrei.MessageQueues
import Pidrei.Library.Runs

/-!
The two lists in which a session mirrors the queues of its agent. A queued message is entered in
the list of its queue and sent to the mailbox; the loop drains a queue through the mailbox, and
when a drained message starts, the first equal text leaves the lists. `clear_queue` takes both
lists and sends the clearing of both queues.
-/
namespace Pidrei.QueueMirror

open AgentLoop (Queue)
open MessageQueues (PendingMessages QueueMode Ticket)
open Messages (ContentBlock Message)
open Transcript (contentText)

/-- What the mailbox owns, and the drained messages that the loop has not started. -/
structure Agent where
  queues : Queue → PendingMessages
  inHand : List Ticket

inductive Job
  | enqueue (ticket : Ticket)
  | clear (queue : Queue)
  | drain (queue : Queue)

def Agent.setQueue (agent : Agent) (queue : Queue) (pending : PendingMessages) : Agent :=
  { agent with queues := Function.update agent.queues queue pending }

def Job.run (agent : Agent) : Job → Agent
  | .enqueue ticket =>
    agent.setQueue ticket.queue ((agent.queues ticket.queue).enqueue ticket)
  | .clear queue => agent.setQueue queue (agent.queues queue).clear
  | .drain queue =>
    { agent.setQueue queue (agent.queues queue).drain with inHand := (agent.queues queue).peek }

def Job.isDrain : Job → Bool
  | .drain _ => true
  | _ => false

structure Session where
  /-- `_steering_messages` and `_follow_up_messages`. -/
  lists : Queue → List String
  agent : Agent
  jobs : List Job
  /-- A drain was sent and has not answered. -/
  polling : Bool
  posted : List Ticket
  delivered : List Ticket
  /-- What the calls of `clear_queue` returned. -/
  returned : List (List String × List String)

def emptyQueues (steeringMode followUpMode : QueueMode) : Queue → PendingMessages
  | .steering => ⟨[], steeringMode⟩
  | .followUp => ⟨[], followUpMode⟩

def start (steeringMode followUpMode : QueueMode) : Session where
  lists := fun _ => []
  agent := ⟨emptyQueues steeringMode followUpMode, []⟩
  jobs := []
  polling := false
  posted := []
  delivered := []
  returned := []

def userMessage (text : String) (images : List (String × String)) (timestamp : Int) : Message :=
  .user ⟨.blocks (.text text none :: images.map fun image => .image image.1 image.2), timestamp⟩

/-- `message_text` of a user message. -/
def messageText : Message → String
  | .user m => contentText m.content ""
  | _ => ""

def text (ticket : Ticket) : String := messageText ticket.message

section Operations

variable (s : Session)

def setList (queue : Queue) (texts : List String) : Session :=
  { s with lists := Function.update s.lists queue texts }

def postQueuedInput (queue : Queue) (text : String) (images : List (String × String))
    (timestamp : Int) : Session :=
  let ticket : Ticket := ⟨s.posted.length, queue, userMessage text images timestamp⟩
  { setList s queue (s.lists queue ++ [text]) with
    jobs := s.jobs ++ [Job.enqueue ticket]
    posted := s.posted ++ [ticket] }

/-- A user message starts: the first equal text of the steering list, or else of the other one,
is removed. -/
def userMessageStart (text : String) : Session :=
  if text = "" then s
  else if text ∈ s.lists .steering then setList s .steering ((s.lists .steering).erase text)
  else if text ∈ s.lists .followUp then setList s .followUp ((s.lists .followUp).erase text)
  else s

def clearQueue : Session :=
  { s with
    lists := fun _ => []
    jobs := s.jobs ++ [Job.clear .steering, Job.clear .followUp]
    returned := s.returned ++ [(s.lists .steering, s.lists .followUp)] }

/-- The agent once the mailbox has done all that was sent, which is what every observer sees. -/
def caughtUp : Agent := s.jobs.foldl Job.run s.agent

end Operations

inductive Action
  | postQueuedInput (queue : Queue) (text : String) (images : List (String × String))
      (timestamp : Int)
  /-- The loop asks for the messages of a queue. -/
  | poll (queue : Queue)
  /-- The mailbox does its next job. -/
  | work
  /-- The loop starts the next message in hand. -/
  | start
  /-- A user message that was not queued starts. -/
  | startDirect (text : String)
  | clearQueue

def step (s : Session) : Action → Option Session
  | .postQueuedInput queue text images timestamp =>
    some (postQueuedInput s queue text images timestamp)
  | .poll queue =>
    if s.agent.inHand = [] ∧ s.polling = false then
      some { s with jobs := s.jobs ++ [Job.drain queue], polling := true }
    else none
  | .work =>
    match s.jobs with
    | [] => none
    | job :: jobs =>
      some { s with
        agent := job.run s.agent
        jobs := jobs
        polling := s.polling && !job.isDrain }
  | .start =>
    match s.agent.inHand with
    | [] => none
    | ticket :: rest =>
      some { userMessageStart s (text ticket) with
        agent := { s.agent with inHand := rest }
        delivered := s.delivered ++ [ticket] }
  | .startDirect text => some (userMessageStart s text)
  | .clearQueue => some (clearQueue s)

theorem text_userMessage (id : ℕ) (queue : Queue) (content : String) (images : List (String × String))
    (timestamp : Int) : text ⟨id, queue, userMessage content images timestamp⟩ = content := by
  have himages : (images.map fun image => ContentBlock.image image.1 image.2).filterMap
      Transcript.blockText = [] := by
    rw [List.filterMap_map]
    exact List.filterMap_eq_nil_iff.mpr fun _ _ => rfl
  have hblocks : ((.text content none :: images.map fun image =>
      ContentBlock.image image.1 image.2 : List ContentBlock)).filterMap Transcript.blockText =
      [content] := by
    rw [List.filterMap_cons, himages]
    rfl
  exact congrArg (Transcript.joinText "") hblocks

end Pidrei.QueueMirror
