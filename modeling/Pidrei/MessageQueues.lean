import Pidrei.AgentRun

/-!
The steering and follow-up queues of an agent. The mailbox executes one job after
another: messages are accepted and cleared, runs are admitted, a run of the loop
drains a queue when it polls, and `continue_` drains one before it asks for its
run to be admitted. Every accepted message is waiting, cleared, in the hands of a
call or of the admitted run, or delivered, as long as no call is refused and no run
fails with messages in hand.
-/
namespace Pidrei.MessageQueues

open Values Messages AgentTypes ToolChanges AgentLoop LoopProtocol AgentRun Traced List
open Function (update update_of_ne update_self)
open Multiset (card coe_add coe_nil coe_singleton mem_add mem_coe)

inductive QueueMode where
  | all
  | oneAtATime

/-- A message that was accepted, with its place in the order of acceptance. -/
structure Ticket where
  id : Nat
  queue : Queue
  message : Message

structure PendingMessages where
  messages : List Ticket
  mode : QueueMode

namespace PendingMessages

def enqueue (pending : PendingMessages) (ticket : Ticket) : PendingMessages :=
  { pending with messages := pending.messages ++ [ticket] }

def peek (pending : PendingMessages) : List Ticket :=
  match pending.mode with
  | .all => pending.messages
  | .oneAtATime => pending.messages.take 1

/-- What is left after a drain; the drained messages are those of `peek`. -/
def drain (pending : PendingMessages) : PendingMessages :=
  { pending with messages := pending.messages.drop pending.peek.length }

def clear (pending : PendingMessages) : PendingMessages := { pending with messages := [] }

theorem peek_append_drain (pending : PendingMessages) :
    pending.peek ++ pending.drain.messages = pending.messages := by
  unfold drain peek
  cases pending.mode with
  | all => simp
  | oneAtATime => cases pending.messages <;> simp

end PendingMessages

/-- A `continue_` call between two of its jobs. -/
inductive Call where
  | started
  | noSteering
  | holding (queue : Queue) (tickets : List Ticket)

def Call.tickets : Call → List Ticket
  | .holding _ tickets => tickets
  | _ => []

/-- The messages a run has in hand: drained or prompted, and not yet ended. -/
def inHand : Stage → List Message
  | .fresh due | .seeded due | .entering due | .prompting due | .holding due | .preparing due
  | .ended _ due | .between due => due
  | .prompted message due | .announced message due => message :: due
  | _ => []

/-- An admitted run. The tags say which messages in hand come from a queue. -/
structure Run where
  position : Position
  tags : List (Option Ticket)
  skipInitialSteeringPoll : Bool

def Run.tickets (run : Run) : List Ticket := run.tags.filterMap id

structure Delivery where
  ticket : Ticket
  message : Message

/-- The mailbox and what became of the accepted messages. The transcript is what the admitted
runs have added to the agent's messages. -/
structure Mailbox where
  queues : Queue → PendingMessages
  accepted : List Ticket
  cleared : List Ticket
  delivered : List Delivery
  transcript : List Message
  calls : List Call
  current : Option Run

def emptyMailbox (steeringMode followUpMode : QueueMode) : Mailbox where
  queues := fun queue => match queue with
    | .steering => ⟨[], steeringMode⟩
    | .followUp => ⟨[], followUpMode⟩
  accepted := []
  cleared := []
  delivered := []
  transcript := []
  calls := []
  current := none

/-- A message in hand carries its ticket's message, up to the tools a system message declares. -/
def Carries (tag : Option Ticket) (message : Message) : Prop :=
  ∀ ticket, tag = some ticket → SameButTools ticket.message message

def Mailbox.setQueue (s : Mailbox) (queue : Queue) (pending : PendingMessages) : Mailbox :=
  { s with queues := update s.queues queue pending }

def Mailbox.accept (s : Mailbox) (queue : Queue) (message : Message) : Mailbox :=
  let ticket : Ticket := ⟨s.accepted.length, queue, message⟩
  { s.setQueue queue ((s.queues queue).enqueue ticket) with accepted := s.accepted ++ [ticket] }

/-- The job of admission: the slot is free, or the call raises. -/
def Mailbox.claim (s : Mailbox) (run : Run) : Mailbox :=
  match s.current with
  | none => { s with current := some run }
  | some _ => s

def promptRun (messages : List Message) : Run :=
  ⟨⟨.fresh messages, []⟩, messages.map (fun _ => none), false⟩

def queuedRun (queue : Queue) (tickets : List Ticket) : Run :=
  ⟨⟨.fresh (tickets.map Ticket.message), []⟩, tickets.map some, queue = .steering⟩

inductive Job where
  | accept (queue : Queue) (message : Message)
  | clear (queue : Queue)
  | setMode (queue : Queue) (mode : QueueMode)
  | prompt (messages : List Message)
  | continuation
  | continueStart
  | continueDrain (queue : Queue)
  | continueAdmission (queue : Queue) (tickets : List Ticket)
  | loop (action : Action)
  | finish
  | abort

/-- What a drain leaves of a call: it goes on with what it drained, looks into the other queue,
or raises. -/
def callsAfterDrain (queue : Queue) (drained : List Ticket) : List Call :=
  match drained, queue with
  | [], .steering => [.noSteering]
  | [], .followUp => []
  | _, _ => [.holding queue drained]

inductive JobStep : Mailbox → Job → Mailbox → Prop
  | accept (s : Mailbox) (queue : Queue) (message : Message) :
    JobStep s (.accept queue message) (s.accept queue message)
  | clear (s : Mailbox) (queue : Queue) :
    JobStep s (.clear queue)
      { s.setQueue queue (s.queues queue).clear with
        cleared := s.cleared ++ (s.queues queue).messages }
  | setMode (s : Mailbox) (queue : Queue) (mode : QueueMode) :
    JobStep s (.setMode queue mode) (s.setQueue queue { s.queues queue with mode := mode })
  | prompt (s : Mailbox) (messages : List Message) :
    JobStep s (.prompt messages) (s.claim (promptRun messages))
  | continuation (s : Mailbox) : JobStep s .continuation (s.claim (promptRun []))
  | continueStart (s : Mailbox) (hidle : s.current = none) :
    JobStep s .continueStart { s with calls := s.calls ++ [Call.started] }
  | continueDrain (s : Mailbox) (queue : Queue) (before after : List Call)
      (hcalls : s.calls = before ++
        (match queue with | .steering => .started | .followUp => .noSteering) :: after) :
    JobStep s (.continueDrain queue)
      { s.setQueue queue (s.queues queue).drain with
        calls := before ++ callsAfterDrain queue (s.queues queue).peek ++ after }
  | continueAdmission (s : Mailbox) (queue : Queue) (tickets : List Ticket)
      (before after : List Call) (hcalls : s.calls = before ++ .holding queue tickets :: after) :
    JobStep s (.continueAdmission queue tickets)
      ({ s with calls := before ++ after }.claim (queuedRun queue tickets))
  | skipPoll (s : Mailbox) (host : Host) (horizon : Nat) (run : Run) (next : Position)
      (hcurrent : s.current = some run) (hskip : run.skipInitialSteeringPoll = true)
      (hstep : Step host horizon run.position (.polled .steering []) next) :
    JobStep s (.loop (.polled .steering []))
      { s with current := some ⟨next, run.tags, false⟩ }
  | poll (s : Mailbox) (host : Host) (horizon : Nat) (run : Run) (queue : Queue)
      (next : Position) (hcurrent : s.current = some run)
      (hskip : queue = .steering → run.skipInitialSteeringPoll = false)
      (hstep : Step host horizon run.position
        (.polled queue ((s.queues queue).peek.map Ticket.message)) next) :
    JobStep s (.loop (.polled queue ((s.queues queue).peek.map Ticket.message)))
      { s.setQueue queue (s.queues queue).drain with
        current := some ⟨next, (s.queues queue).peek.map some, run.skipInitialSteeringPoll⟩ }
  | messageEnd (s : Mailbox) (host : Host) (horizon : Nat) (run : Run) (message : Message)
      (next : Position) (hcurrent : s.current = some run)
      (hstep : Step host horizon run.position (.emitted (.messageEnd message)) next) :
    JobStep s (.loop (.emitted (.messageEnd message)))
      { s with
        delivered := s.delivered ++
          (run.tags.head?.join.map (fun ticket => ⟨ticket, message⟩)).toList
        transcript := s.transcript ++ [message]
        current := some ⟨next, run.tags.tail, run.skipInitialSteeringPoll⟩ }
  /-- Any other action keeps the messages in hand; the loop may put messages of its own between
  them. -/
  | loop (s : Mailbox) (host : Host) (horizon : Nat) (run : Run) (action : Action)
      (next : Position) (tags : List (Option Ticket)) (hcurrent : s.current = some run)
      (hpoll : ∀ queue messages, action ≠ .polled queue messages)
      (hend : ∀ message, action ≠ .emitted (.messageEnd message))
      (hstep : Step host horizon run.position action next)
      (htags : tags.filterMap id = run.tags.filterMap id)
      (hcarries : List.Forall₂ Carries tags (inHand next.stage)) :
    JobStep s (.loop action) { s with current := some ⟨next, tags, run.skipInitialSteeringPoll⟩ }
  | finish (s : Mailbox) : JobStep s .finish { s with current := none }
  | abort (s : Mailbox) : JobStep s .abort s

/-! Where the accepted messages are. -/

def Mailbox.waiting (s : Mailbox) : Multiset Ticket :=
  ↑(s.queues .steering).messages + ↑(s.queues .followUp).messages

def Mailbox.deliveredTickets (s : Mailbox) : List Ticket := s.delivered.map Delivery.ticket

def ticketsOfCalls (calls : List Call) : List Ticket := calls.flatMap Call.tickets

def ticketsOfRun : Option Run → List Ticket
  | none => []
  | some run => run.tickets

def Mailbox.callTickets (s : Mailbox) : List Ticket := ticketsOfCalls s.calls

def Mailbox.runTickets (s : Mailbox) : List Ticket := ticketsOfRun s.current

/-- Every place an accepted message can be in. -/
def Mailbox.places (s : Mailbox) : Multiset Ticket :=
  s.waiting + ↑s.cleared + ↑s.deliveredTickets + ↑s.callTickets + ↑s.runTickets

/-- The order of acceptance within a queue. -/
def Earlier (ticket other : Ticket) : Prop := ticket.queue = other.queue → ticket.id < other.id

/-- Each accepted message is in exactly one place; those of a queue are delivered in the order of
acceptance, and each as a message of the agent's transcript. -/
structure Conserved (s : Mailbox) : Prop where
  places : s.places = ↑s.accepted
  distinct : (s.accepted.map Ticket.id).Nodup
  order : s.deliveredTickets.Pairwise Earlier
  transcript : (s.delivered.map Delivery.message).Sublist s.transcript
  content : ∀ delivery ∈ s.delivered, SameButTools delivery.ticket.message delivery.message

/-- The messages waiting in a queue: in the order of acceptance, and after the ones that left. -/
structure Fits (left : List Ticket) (queue : Queue) (messages : List Ticket) : Prop where
  own : ∀ ticket ∈ messages, ticket.queue = queue
  order : messages.Pairwise Earlier
  after : ∀ ticket ∈ left, ∀ other ∈ messages, Earlier ticket other

/-- The messages that left their queue and were not cleared. -/
def Mailbox.left (s : Mailbox) : List Ticket := s.deliveredTickets ++ s.callTickets ++ s.runTickets

/-- What carries the conservation over the jobs. -/
structure Sound (s : Mailbox) : Prop where
  places : s.places = ↑s.accepted
  ids : s.accepted.map Ticket.id = List.range s.accepted.length
  fits : ∀ queue, Fits s.left queue (s.queues queue).messages
  order : s.deliveredTickets.Pairwise Earlier
  call_order : ∀ call ∈ s.calls, call.tickets.Pairwise Earlier
  run_order : s.runTickets.Pairwise Earlier
  before_transit : ∀ ticket ∈ s.deliveredTickets, ∀ other ∈ s.callTickets ++ s.runTickets,
    Earlier ticket other
  transcript : (s.delivered.map Delivery.message).Sublist s.transcript
  content : ∀ delivery ∈ s.delivered, SameButTools delivery.ticket.message delivery.message
  carries : ∀ run, s.current = some run →
    List.Forall₂ Carries run.tags (inHand run.position.stage)

variable {s : Mailbox} {queue : Queue} {pending : PendingMessages} {ticket other : Ticket}
   {host : Host} {horizon : Nat} {p q next : Position} {run : Run} {skip : Bool} {message : Message}

theorem Sound.conserved (h : Sound s) : Conserved s where
  places := h.places
  distinct := by
    rw [h.ids]
    exact nodup_range
  order := h.order
  transcript := h.transcript
  content := h.content

theorem sound_empty (steeringMode followUpMode : QueueMode) :
    Sound (emptyMailbox steeringMode followUpMode) where
  places := rfl
  ids := rfl
  fits := by
    intro queue
    cases queue <;> exact ⟨by simp [emptyMailbox], .nil, by simp [emptyMailbox]⟩
  order := .nil
  call_order := by simp [emptyMailbox]
  run_order := .nil
  before_transit := by simp [Mailbox.deliveredTickets, emptyMailbox]
  transcript := List.Sublist.refl _
  content := by simp [emptyMailbox]
  carries := by simp [emptyMailbox]

theorem waiting_setQueue (s : Mailbox) (queue : Queue) (pending : PendingMessages) :
    (s.setQueue queue pending).waiting + ↑(s.queues queue).messages =
      s.waiting + ↑pending.messages := by
  cases queue with
  | steering =>
    simp only [Mailbox.waiting, Mailbox.setQueue, update_self,
      update_of_ne (show Queue.followUp ≠ Queue.steering by decide)]
    abel
  | followUp =>
    simp only [Mailbox.waiting, Mailbox.setQueue, update_self,
      update_of_ne (show Queue.steering ≠ Queue.followUp by decide)]
    abel

theorem fits_setQueue {left : List Ticket} (hqueue : Fits left queue pending.messages)
    (hother : ∀ other, Fits left other (s.queues other).messages) :
    ∀ other, Fits left other ((s.setQueue queue pending).queues other).messages := by
  intro other
  by_cases h : other = queue
  · subst h
    simpa [Mailbox.setQueue] using hqueue
  · simpa [Mailbox.setQueue, update_of_ne h] using hother other

/-- The condition on the jobs: an admission with messages in hand finds the slot free, no run ends
with messages in hand, and no run delivers a message while a call holds an earlier one of its
queue. -/
def Meets (s : Mailbox) : Job → Prop
  | .continueAdmission .. => s.current = none
  | .finish => s.runTickets = []
  | .loop (.emitted (.messageEnd _)) => ∀ run ticket, s.current = some run →
      run.tags.head? = some (some ticket) →
      ∀ other ∈ s.callTickets, other.queue = ticket.queue → ¬ other.id < ticket.id
  | _ => True

theorem Sound.id_lt (h : Sound s) (hticket : ticket ∈ s.places) :
    ticket.id < s.accepted.length := by
  rw [h.places, mem_coe] at hticket
  have hid := mem_map_of_mem (f := Ticket.id) hticket
  rw [h.ids] at hid
  exact mem_range.mp hid

theorem mem_waiting (h : ticket ∈ (s.queues queue).messages) : ticket ∈ s.waiting := by
  unfold Mailbox.waiting
  rw [mem_add, mem_coe, mem_coe]
  cases queue with
  | steering => exact .inl h
  | followUp => exact .inr h

theorem mem_places : ticket ∈ s.places ↔
    ticket ∈ s.waiting ∨ ticket ∈ s.cleared ∨
      ticket ∈ s.left := by
  simp only [Mailbox.left, Mailbox.places, mem_add, mem_coe, mem_append]
  tauto

theorem Sound.accept (h : Sound s) (queue : Queue) (message : Message) :
    Sound (s.accept queue message) where
  places := by
    have hwaiting := waiting_setQueue s queue
      ((s.queues queue).enqueue ⟨s.accepted.length, queue, message⟩)
    have hplaces := h.places
    have hnew : (s.accept queue message).waiting =
        s.waiting + {⟨s.accepted.length, queue, message⟩} := by
      refine add_right_cancel (b := ↑(s.queues queue).messages) (hwaiting.trans ?_)
      rw [PendingMessages.enqueue, ← coe_add, coe_singleton]
      abel
    simp only [Mailbox.places] at hplaces ⊢
    rw [hnew, Mailbox.accept, ← coe_add, ← hplaces, coe_singleton]
    abel
  ids := by
    simp [Mailbox.accept, h.ids, range_succ]
  fits := by
    refine fits_setQueue ⟨?_, ?_, ?_⟩ h.fits
    · intro ticket hticket
      rcases mem_append.mp hticket with hold | hnew
      · exact (h.fits queue).own ticket hold
      · rw [mem_singleton.mp hnew]
    · refine pairwise_append.mpr
        ⟨(h.fits queue).order, pairwise_singleton _ _, ?_⟩
      intro ticket hticket other hother _
      rw [mem_singleton.mp hother]
      exact h.id_lt (mem_places.mpr (.inl (mem_waiting hticket)))
    · intro ticket hticket other hother
      rcases mem_append.mp hother with hold | hnew
      · exact (h.fits queue).after ticket hticket other hold
      · rw [mem_singleton.mp hnew]
        exact fun _ => h.id_lt (mem_places.mpr (.inr (.inr hticket)))
  order := h.order
  call_order := h.call_order
  run_order := h.run_order
  before_transit := h.before_transit
  transcript := h.transcript
  content := h.content
  carries := h.carries

theorem waiting_drain (s : Mailbox) (queue : Queue) :
    (s.setQueue queue (s.queues queue).drain).waiting + ↑(s.queues queue).peek = s.waiting := by
  have hwaiting := waiting_setQueue s queue (s.queues queue).drain
  rw [← (s.queues queue).peek_append_drain, ← coe_add, ← add_assoc] at hwaiting
  exact add_right_cancel hwaiting

theorem fits_drain {left : List Ticket} (h : ∀ queue, Fits left queue (s.queues queue).messages)
    (queue : Queue) : ∀ other, Fits (left ++ (s.queues queue).peek) other
      ((s.setQueue queue (s.queues queue).drain).queues other).messages := by
  have hsplit := (s.queues queue).peek_append_drain
  have hpeek : ∀ ticket ∈ (s.queues queue).peek, ticket ∈ (s.queues queue).messages := by
    intro ticket hticket
    rw [← hsplit]
    exact mem_append_left _ hticket
  have hdrain : ∀ ticket ∈ (s.queues queue).drain.messages,
      ticket ∈ (s.queues queue).messages := by
    intro ticket hticket
    rw [← hsplit]
    exact mem_append_right _ hticket
  have horder := (h queue).order
  rw [← hsplit, pairwise_append] at horder
  intro other
  by_cases hother : other = queue
  · subst hother
    simp only [Mailbox.setQueue, update_self]
    refine ⟨fun ticket hticket => (h other).own ticket (hdrain ticket hticket), horder.2.1, ?_⟩
    intro ticket hticket later hlater
    rcases mem_append.mp hticket with hleft | hdrained
    · exact (h other).after ticket hleft later (hdrain later hlater)
    · exact horder.2.2 ticket hdrained later hlater
  · simp only [Mailbox.setQueue, update_of_ne hother]
    refine ⟨(h other).own, (h other).order, ?_⟩
    intro ticket hticket later hlater
    rcases mem_append.mp hticket with hleft | hdrained
    · exact (h other).after ticket hleft later hlater
    · intro hqueue
      rw [(h queue).own ticket (hpeek ticket hdrained), (h other).own later hlater] at hqueue
      exact absurd hqueue.symm hother

theorem Fits.mono {left more : List Ticket} {messages : List Ticket} (h : Fits left queue messages)
    (hsub : ∀ ticket ∈ more, ticket ∈ left) : Fits more queue messages :=
  ⟨h.own, h.order, fun ticket hticket => h.after ticket (hsub ticket hticket)⟩

theorem peek_order {left : List Ticket} (h : Fits left queue pending.messages) :
    pending.peek.Pairwise Earlier := by
  have horder := h.order
  rw [← pending.peek_append_drain, pairwise_append] at horder
  exact horder.1

theorem after_peek {left : List Ticket} (h : Fits left queue pending.messages)
    (hticket : ticket ∈ left) (hother : other ∈ pending.peek) : Earlier ticket other := by
  refine h.after ticket hticket other ?_
  rw [← pending.peek_append_drain]
  exact mem_append_left _ hother

theorem inHand_of_polled {messages : List Message}
    (h : Step host horizon p (.polled queue messages) q) :
    inHand p.stage = [] ∧ inHand q.stage = messages := by
  cases h with
  | batch _ _ _ _ _ hstep => exact nomatch hstep
  | firstPoll | poll | pollAgain => exact ⟨rfl, rfl⟩

theorem filterMap_some (tickets : List Ticket) : (tickets.map some).filterMap id = tickets := by
  simp

theorem carries_tickets (tickets : List Ticket) :
    List.Forall₂ Carries (tickets.map some) (tickets.map Ticket.message) := by
  induction tickets with
  | nil => exact .nil
  | cons ticket rest ih =>
    refine .cons ?_ ih
    intro other hother
    rw [← Option.some.inj hother]
    exact SameButTools.refl ticket.message

theorem mem_transit {calls : List Call} {current : Option Run}
    {drained : List Ticket}
    (htransit : (↑(ticketsOfCalls calls) + ↑(ticketsOfRun current) : Multiset Ticket) =
      ↑s.callTickets + ↑s.runTickets + ↑drained)
    (h : ticket ∈ ticketsOfCalls calls ++ ticketsOfRun current) :
    ticket ∈ s.callTickets ++ s.runTickets ∨ ticket ∈ drained := by
  rw [mem_append] at h
  have hmem : ticket ∈ (↑(ticketsOfCalls calls) + ↑(ticketsOfRun current) : Multiset Ticket) := by
    rwa [mem_add, mem_coe, mem_coe]
  rw [htransit, mem_add, mem_add] at hmem
  simpa only [mem_coe, mem_append] using hmem

theorem Sound.drained (h : Sound s) (queue : Queue) (calls : List Call)
    (current : Option Run)
    (htransit : (↑(ticketsOfCalls calls) + ↑(ticketsOfRun current) : Multiset Ticket) =
      ↑s.callTickets + ↑s.runTickets + ↑(s.queues queue).peek)
    (hcalls : ∀ call ∈ calls, call.tickets.Pairwise Earlier)
    (hrun : (ticketsOfRun current).Pairwise Earlier)
    (hcarries : ∀ run, current = some run →
      List.Forall₂ Carries run.tags (inHand run.position.stage)) :
    Sound { s.setQueue queue (s.queues queue).drain with calls := calls, current := current } where
  places := by
    have hplaces := h.places
    rw [Mailbox.places, ← waiting_drain s queue] at hplaces
    change (s.setQueue queue (s.queues queue).drain).waiting + ↑s.cleared +
      ↑s.deliveredTickets + ↑(ticketsOfCalls calls) + ↑(ticketsOfRun current) = ↑s.accepted
    rw [add_assoc _ (_ : Multiset Ticket) (↑(ticketsOfRun current) : Multiset Ticket), htransit,
      ← hplaces]
    abel
  ids := h.ids
  fits := by
    intro other
    refine (fits_drain h.fits queue other).mono ?_
    intro ticket hticket
    change ticket ∈ s.deliveredTickets ++ ticketsOfCalls calls ++ ticketsOfRun current at hticket
    rw [append_assoc, mem_append] at hticket
    rw [mem_append, Mailbox.left, append_assoc, mem_append]
    rcases hticket with hdelivered | hmoved
    · exact .inl (.inl hdelivered)
    · rcases mem_transit htransit hmoved with hold | hnew
      · exact .inl (.inr hold)
      · exact .inr hnew
  order := h.order
  call_order := hcalls
  run_order := hrun
  before_transit := by
    intro ticket hticket other hother
    rcases mem_transit htransit hother with hold | hnew
    · exact h.before_transit ticket hticket other hold
    · refine after_peek (h.fits queue) ?_ hnew
      rw [Mailbox.left, append_assoc]
      exact mem_append_left _ hticket
  transcript := h.transcript
  content := h.content
  carries := hcarries

theorem Sound.passed (h : Sound s) (calls : List Call) (current : Option Run)
    (htransit : (↑(ticketsOfCalls calls) + ↑(ticketsOfRun current) : Multiset Ticket) =
      ↑s.callTickets + ↑s.runTickets)
    (hcalls : ∀ call ∈ calls, call.tickets.Pairwise Earlier)
    (hrun : (ticketsOfRun current).Pairwise Earlier)
    (hcarries : ∀ run, current = some run →
      List.Forall₂ Carries run.tags (inHand run.position.stage)) :
    Sound { s with calls := calls, current := current } := by
  have hmem : ∀ ticket ∈ ticketsOfCalls calls ++ ticketsOfRun current,
      ticket ∈ s.callTickets ++ s.runTickets := by
    intro ticket hticket
    have hsum : (↑(ticketsOfCalls calls) + ↑(ticketsOfRun current) : Multiset Ticket) =
        ↑s.callTickets + ↑s.runTickets + ↑([] : List Ticket) := by
      rw [htransit, coe_nil, add_zero]
    rcases mem_transit hsum hticket with hold | hnone
    · exact hold
    · exact absurd hnone not_mem_nil
  refine ⟨?_, h.ids, ?_, h.order, hcalls, hrun, ?_, h.transcript, h.content, hcarries⟩
  · have hplaces := h.places
    change s.waiting + ↑s.cleared + ↑s.deliveredTickets + ↑(ticketsOfCalls calls) +
      ↑(ticketsOfRun current) = ↑s.accepted
    rw [add_assoc _ (_ : Multiset Ticket) (↑(ticketsOfRun current) : Multiset Ticket), htransit,
      ← hplaces, Mailbox.places]
    abel
  · intro queue
    refine (h.fits queue).mono ?_
    intro ticket hticket
    change ticket ∈ s.deliveredTickets ++ ticketsOfCalls calls ++ ticketsOfRun current at hticket
    rw [append_assoc, mem_append] at hticket
    rw [Mailbox.left, append_assoc, mem_append]
    exact hticket.imp_right (hmem ticket)
  · intro ticket hticket other hother
    exact h.before_transit ticket hticket other (hmem other hother)

theorem Sound.poll (h : Sound s) (hcurrent : s.current = some run)
    (hstep : Step host horizon run.position
      (.polled queue ((s.queues queue).peek.map Ticket.message)) next) :
    Sound { s.setQueue queue (s.queues queue).drain with
      current := some ⟨next, (s.queues queue).peek.map some, run.skipInitialSteeringPoll⟩ } := by
  obtain ⟨hempty, hhand⟩ := inHand_of_polled hstep
  have hcarries := h.carries run hcurrent
  rw [hempty] at hcarries
  have htags := forall₂_nil_right_iff.mp hcarries
  have hnone : s.runTickets = [] := by
    simp [Mailbox.runTickets, ticketsOfRun, hcurrent, Run.tickets, htags]
  have hrun : ticketsOfRun (some ⟨next, (s.queues queue).peek.map some,
      run.skipInitialSteeringPoll⟩) = (s.queues queue).peek := filterMap_some _
  refine h.drained queue s.calls _ ?_ h.call_order ?_ ?_
  · rw [hrun, hnone, coe_nil, add_zero]
    rfl
  · rw [hrun]
    exact peek_order (h.fits queue)
  · rintro _ ⟨⟩
    rw [hhand]
    exact carries_tickets _

theorem Sound.loop (h : Sound s) {tags : List (Option Ticket)} (hcurrent : s.current = some run)
    (htags : tags.filterMap id = run.tags.filterMap id)
    (hcarries : List.Forall₂ Carries tags (inHand next.stage)) :
    Sound { s with current := some ⟨next, tags, skip⟩ } := by
  have hrun : ticketsOfRun (some ⟨next, tags, skip⟩) = s.runTickets := by
    rw [Mailbox.runTickets, hcurrent]
    exact htags
  refine h.passed s.calls _ ?_ h.call_order ?_ ?_
  · rw [hrun]
    rfl
  · rw [hrun]
    exact h.run_order
  · rintro _ ⟨⟩
    exact hcarries

theorem inHand_of_messageEnd (h : Step host horizon p (.emitted (.messageEnd message)) q) :
    inHand p.stage = message :: inHand q.stage ∨ inHand p.stage = [] ∧ inHand q.stage = [] := by
  cases h with
  | batch | finish => exact .inr ⟨rfl, rfl⟩
  | promptEnd => exact .inl rfl
  | messageEnd => exact .inl rfl

theorem Sound.ended {s : Mailbox} (h : Sound s) (message : Message) :
    Sound { s with transcript := s.transcript ++ [message] } :=
  ⟨h.places, h.ids, h.fits, h.order, h.call_order, h.run_order, h.before_transit,
    h.transcript.trans (sublist_append_left _ _), h.content, h.carries⟩

theorem Sound.apart (h : Sound s) (hticket : ticket ∈ s.runTickets)
    (hother : other ∈ s.callTickets) : ticket.id ≠ other.id := by
  have hids : (s.accepted.map Ticket.id).Nodup := h.conserved.distinct
  have hnodup : s.places.Nodup := by
    rw [h.places]
    exact Multiset.coe_nodup.mpr (List.Nodup.of_map Ticket.id hids)
  have hmem : ∀ moved ∈ s.left, moved ∈ s.accepted := by
    intro moved hmoved
    rw [← mem_coe, ← h.places]
    exact mem_places.mpr (.inr (.inr hmoved))
  intro heq
  have hsame : ticket = other := by
    refine inj_on_of_nodup_map hids (hmem ticket ?_) (hmem other ?_) heq
    · exact mem_append_right _ hticket
    · exact mem_append_left _ (mem_append_right _ hother)
  subst hsame
  rw [Mailbox.places, Multiset.nodup_add] at hnodup
  refine Multiset.disjoint_left.mp hnodup.2.2 ?_ (mem_coe.mpr hticket)
  rw [mem_add]
  exact .inr (mem_coe.mpr hother)

theorem Sound.deliver (h : Sound s) {rest : List (Option Ticket)} (hcurrent : s.current = some run)
    (htags : run.tags = some ticket :: rest) (hmessage : SameButTools ticket.message message)
    (hrest : List.Forall₂ Carries rest (inHand next.stage))
    (hfirst : ∀ other ∈ s.callTickets, other.queue = ticket.queue → ¬ other.id < ticket.id) :
    Sound { s with
      delivered := s.delivered ++ [⟨ticket, message⟩]
      transcript := s.transcript ++ [message]
      current := some ⟨next, rest, skip⟩ } := by
  have hrun : s.runTickets = ticket :: rest.filterMap id := by
    simp [Mailbox.runTickets, ticketsOfRun, hcurrent, Run.tickets, htags]
  have hdelivered : ({ s with
      delivered := s.delivered ++ [⟨ticket, message⟩]
      transcript := s.transcript ++ [message]
      current := some ⟨next, rest, skip⟩ } : Mailbox).deliveredTickets =
        s.deliveredTickets ++ [ticket] := map_append
  have horder := h.run_order
  rw [hrun, pairwise_cons] at horder
  have hother : ∀ other ∈ s.callTickets, Earlier ticket other := by
    intro other hother hqueue
    have hle := hfirst other hother hqueue.symm
    have hne := h.apart (hrun ▸ mem_cons_self) hother
    omega
  refine ⟨?_, h.ids, ?_, ?_, h.call_order, ?_, ?_, ?_, ?_, ?_⟩
  · have hplaces := h.places
    rw [Mailbox.places, hrun, ← Multiset.cons_coe, ← Multiset.singleton_add] at hplaces
    rw [Mailbox.places, hdelivered, ← coe_add, coe_singleton]
    change s.waiting + ↑s.cleared + (↑s.deliveredTickets + {ticket}) + ↑s.callTickets +
      ↑(rest.filterMap id) = ↑s.accepted
    rw [← hplaces]
    abel
  · intro queue
    refine (h.fits queue).mono ?_
    intro moved hmoved
    rw [Mailbox.left, hdelivered] at hmoved
    rw [Mailbox.left, hrun]
    simp only [mem_append, mem_cons, not_mem_nil, or_false] at hmoved ⊢
    tauto
  · rw [hdelivered]
    refine pairwise_append.mpr ⟨h.order, pairwise_singleton _ _, ?_⟩
    intro earlier hearlier later hlater
    rw [mem_singleton.mp hlater]
    refine h.before_transit earlier hearlier ticket (mem_append_right _ ?_)
    rw [hrun]
    exact mem_cons_self
  · exact horder.2
  · rw [hdelivered]
    intro earlier hearlier later hlater
    rcases mem_append.mp hearlier with hold | hnew
    · refine h.before_transit earlier hold later ?_
      rw [hrun]
      rcases mem_append.mp hlater with hcall | hlater
      · exact mem_append_left _ hcall
      · exact mem_append_right _ (mem_cons_of_mem _ hlater)
    · rw [mem_singleton.mp hnew]
      rcases mem_append.mp hlater with hcall | hlater
      · exact hother later hcall
      · exact horder.1 later hlater
  · rw [map_append]
    exact h.transcript.append (List.Sublist.refl _)
  · intro delivery hdelivery
    rcases mem_append.mp hdelivery with hold | hnew
    · exact h.content delivery hold
    · rw [mem_singleton.mp hnew]
      exact hmessage
  · rintro _ ⟨⟩
    exact hrest

theorem Sound.messageEnd (h : Sound s) (hcurrent : s.current = some run)
    (hstep : Step host horizon run.position (.emitted (.messageEnd message)) next)
    (hmeets : Meets s (.loop (.emitted (.messageEnd message)))) : Sound { s with
      delivered := s.delivered ++
        (run.tags.head?.join.map (fun ticket => ⟨ticket, message⟩)).toList
      transcript := s.transcript ++ [message]
      current := some ⟨next, run.tags.tail, run.skipInitialSteeringPoll⟩ } := by
  have hcarries := h.carries run hcurrent
  rcases inHand_of_messageEnd hstep with hfirst | ⟨hnone, hafter⟩
  · rw [hfirst] at hcarries
    obtain ⟨tag, rest, hhead, hrest, htags⟩ := forall₂_cons_right_iff.mp hcarries
    rw [htags]
    cases tag with
    | none =>
      have hloop : Sound { s with current := some ⟨next, rest, run.skipInitialSteeringPoll⟩ } :=
        h.loop hcurrent (by rw [htags]; rfl) hrest
      simpa using hloop.ended message
    | some ticket =>
      exact h.deliver hcurrent htags (hhead ticket rfl) hrest
        (hmeets run ticket hcurrent (by rw [htags]; rfl))
  · rw [hnone] at hcarries
    have htags := forall₂_nil_right_iff.mp hcarries
    have hloop : Sound { s with current := some ⟨next, [], run.skipInitialSteeringPoll⟩ } :=
      h.loop hcurrent (by rw [htags]) (by rw [hafter]; exact .nil)
    rw [htags]
    simpa using hloop.ended message

theorem Sound.claim (h : Sound s) (run : Run) (hidle : s.current = none) (calls : List Call)
    (htransit : (↑(ticketsOfCalls calls) + ↑run.tickets : Multiset Ticket) = ↑s.callTickets)
    (hcalls : ∀ call ∈ calls, call.tickets.Pairwise Earlier) (hrun : run.tickets.Pairwise Earlier)
    (hcarries : List.Forall₂ Carries run.tags (inHand run.position.stage)) :
    Sound ({ s with calls := calls }.claim run) := by
  have hnone : s.runTickets = [] := by
    rw [Mailbox.runTickets, hidle]
    rfl
  have hclaim : ({ s with calls := calls } : Mailbox).claim run =
      { s with calls := calls, current := some run } := by
    rw [Mailbox.claim]
    simp [hidle]
  rw [hclaim]
  refine h.passed calls (some run) ?_ hcalls hrun ?_
  · rw [hnone, coe_nil, add_zero]
    exact htransit
  · rintro _ ⟨⟩
    exact hcarries

/-- A refused admission without messages in hand changes nothing. -/
theorem claim_refused {other : Run} (h : s.current = some other) : s.claim run = s := by
  rw [Mailbox.claim, h]

theorem carries_own (messages : List Message) :
    List.Forall₂ Carries (messages.map (fun _ => none)) messages := by
  induction messages with
  | nil => exact .nil
  | cons message rest ih => exact .cons (fun ticket h => nomatch h) ih

theorem promptRun_tickets (messages : List Message) : (promptRun messages).tickets = [] := by
  simp [promptRun, Run.tickets]

theorem Sound.prompt (h : Sound s) (messages : List Message) :
    Sound (s.claim (promptRun messages)) := by
  cases hcurrent : s.current with
  | none =>
    refine h.claim (promptRun messages) hcurrent s.calls ?_ h.call_order ?_ (carries_own messages)
    · rw [promptRun_tickets, coe_nil, add_zero]
      rfl
    · rw [promptRun_tickets]
      exact .nil
  | some other =>
    rw [claim_refused hcurrent]
    exact h

theorem ticketsOfCalls_append (before after : List Call) :
    ticketsOfCalls (before ++ after) = ticketsOfCalls before ++ ticketsOfCalls after :=
  flatMap_append

theorem ticketsOfCalls_cons (call : Call) (rest : List Call) :
    ticketsOfCalls (call :: rest) = call.tickets ++ ticketsOfCalls rest := rfl

theorem callsAfterDrain_tickets (queue : Queue) (drained : List Ticket) :
    ticketsOfCalls (callsAfterDrain queue drained) = drained := by
  cases drained <;> cases queue <;> simp [callsAfterDrain, ticketsOfCalls, Call.tickets]

theorem callsAfterDrain_order {drained : List Ticket} (h : drained.Pairwise Earlier) :
    ∀ call ∈ callsAfterDrain queue drained, call.tickets.Pairwise Earlier := by
  cases drained <;> cases queue <;> simp [callsAfterDrain, Call.tickets] at h ⊢ <;> exact h

theorem Sound.continueDrain (h : Sound s) (queue : Queue) (before after : List Call) (call : Call)
    (hcall : call.tickets = []) (hcalls : s.calls = before ++ call :: after) :
    Sound { s.setQueue queue (s.queues queue).drain with
      calls := before ++ callsAfterDrain queue (s.queues queue).peek ++ after } := by
  have hold : s.callTickets = ticketsOfCalls before ++ ticketsOfCalls after := by
    rw [Mailbox.callTickets, hcalls, ticketsOfCalls_append, ticketsOfCalls_cons, hcall, nil_append]
  refine h.drained queue _ s.current ?_ ?_ h.run_order h.carries
  · rw [ticketsOfCalls_append, ticketsOfCalls_append, callsAfterDrain_tickets, hold,
      Mailbox.runTickets, ← coe_add, ← coe_add, ← coe_add]
    abel
  · intro other hother
    rcases mem_append.mp hother with hfirst | hafter
    · rcases mem_append.mp hfirst with hbefore | hnew
      · exact h.call_order other (by simp [hcalls, hbefore])
      · exact callsAfterDrain_order (peek_order (h.fits queue)) other hnew
    · exact h.call_order other (by simp [hcalls, hafter])

theorem Sound.continueAdmission (h : Sound s) (queue : Queue) (tickets : List Ticket)
    (before after : List Call) (hcalls : s.calls = before ++ .holding queue tickets :: after)
    (hidle : s.current = none) :
    Sound ({ s with calls := before ++ after }.claim (queuedRun queue tickets)) := by
  have hrun : (queuedRun queue tickets).tickets = tickets := filterMap_some tickets
  refine h.claim (queuedRun queue tickets) hidle (before ++ after) ?_ ?_ ?_
    (carries_tickets tickets)
  · rw [hrun, Mailbox.callTickets, hcalls, ticketsOfCalls_append, ticketsOfCalls_append,
      ticketsOfCalls_cons, ← coe_add, ← coe_add]
    rw [← coe_add]
    abel
  · intro other hother
    refine h.call_order other ?_
    rw [hcalls]
    rcases mem_append.mp hother with hbefore | hafter
    · exact mem_append_left _ hbefore
    · exact mem_append_right _ (mem_cons_of_mem _ hafter)
  · rw [hrun]
    exact h.call_order (.holding queue tickets) (by simp [hcalls])

theorem Sound.clear (h : Sound s) (queue : Queue) :
    Sound { s.setQueue queue (s.queues queue).clear with
      cleared := s.cleared ++ (s.queues queue).messages } where
  places := by
    have hwaiting := waiting_setQueue s queue (s.queues queue).clear
    rw [PendingMessages.clear, coe_nil, add_zero] at hwaiting
    have hplaces := h.places
    rw [Mailbox.places, ← hwaiting] at hplaces
    change (s.setQueue queue (s.queues queue).clear).waiting +
      ↑(s.cleared ++ (s.queues queue).messages) + ↑s.deliveredTickets + ↑s.callTickets +
      ↑s.runTickets = ↑s.accepted
    rw [← hplaces, ← coe_add, PendingMessages.clear]
    abel
  ids := h.ids
  fits := fits_setQueue ⟨by simp [PendingMessages.clear], .nil, by simp [PendingMessages.clear]⟩
    h.fits
  order := h.order
  call_order := h.call_order
  run_order := h.run_order
  before_transit := h.before_transit
  transcript := h.transcript
  content := h.content
  carries := h.carries

theorem Sound.setMode (h : Sound s) (queue : Queue) (mode : QueueMode) :
    Sound (s.setQueue queue { s.queues queue with mode := mode }) where
  places := by
    have hwaiting := add_right_cancel
      (waiting_setQueue s queue { s.queues queue with mode := mode })
    have hplaces := h.places
    rw [Mailbox.places, ← hwaiting] at hplaces
    exact hplaces
  ids := h.ids
  fits := fits_setQueue (h.fits queue) h.fits
  order := h.order
  call_order := h.call_order
  run_order := h.run_order
  before_transit := h.before_transit
  transcript := h.transcript
  content := h.content
  carries := h.carries

theorem Sound.step {s t : Mailbox} {job : Job} (h : Sound s) (hstep : JobStep s job t)
    (hmeets : Meets s job) : Sound t := by
  cases hstep with
  | accept queue message => exact h.accept queue message
  | clear queue => exact h.clear queue
  | setMode queue mode => exact h.setMode queue mode
  | prompt messages => exact h.prompt messages
  | continuation => exact h.prompt []
  | continueStart hidle =>
    refine h.passed (s.calls ++ [Call.started]) s.current ?_ ?_ h.run_order h.carries
    · simp [ticketsOfCalls, Call.tickets, Mailbox.callTickets, Mailbox.runTickets]
    · intro call hcall
      rcases mem_append.mp hcall with hold | hnew
      · exact h.call_order call hold
      · rw [mem_singleton.mp hnew]
        exact .nil
  | continueDrain queue before after hcalls =>
    exact h.continueDrain queue before after _ (by cases queue <;> rfl) hcalls
  | continueAdmission queue tickets before after hcalls =>
    exact h.continueAdmission queue tickets before after hcalls hmeets
  | skipPoll host horizon run next hcurrent hskip hstep =>
    have hcarries := h.carries run hcurrent
    obtain ⟨hbefore, hafter⟩ := inHand_of_polled hstep
    rw [hbefore] at hcarries
    refine h.loop hcurrent rfl ?_
    rw [hafter]
    exact hcarries
  | poll host horizon run queue next hcurrent hskip hstep => exact h.poll hcurrent hstep
  | messageEnd host horizon run message next hcurrent hstep =>
    exact h.messageEnd hcurrent hstep hmeets
  | loop host horizon run action next tags hcurrent hpoll hend hstep htags hcarries =>
    exact h.loop hcurrent htags hcarries
  | finish =>
    have hnone : s.runTickets = [] := hmeets
    refine h.passed s.calls none ?_ h.call_order .nil ?_
    · rw [hnone]
      rfl
    · rintro run ⟨⟩
  | abort => exact h

def GoodStep (s : Mailbox) (job : Job) (t : Mailbox) : Prop := JobStep s job t ∧ Meets s job

/-- In every interleaving of the jobs, each accepted message is in exactly one place and the
messages of a queue are delivered in order, as long as each job meets the condition. -/
theorem messages_conserved (steeringMode followUpMode : QueueMode) (jobs : List Job) (s : Mailbox)
    (h : Steps GoodStep (emptyMailbox steeringMode followUpMode) jobs s) : Conserved s := by
  have hstep : ∀ s job t, GoodStep s job t → Sound s → Sound t := by
    intro s job t hgood hsound
    exact hsound.step hgood.1 hgood.2
  exact (h.invariant hstep (sound_empty steeringMode followUpMode)).conserved

def sampleUser (text : String) : Message := .user ⟨.text text, 0⟩

def sampleTicket : Ticket := ⟨0, .steering, sampleUser "wait"⟩

/-- A steering message that `continue_` drains and its run delivers. -/
def deliveringJobs : List Job :=
  [.accept .steering (sampleUser "wait"), .continueStart, .continueDrain .steering,
    .continueAdmission .steering [sampleTicket], .loop (.seeded [sampleUser "wait"]),
    .loop (.emitted .agentStart), .loop (.emitted .turnStart),
    .loop (.emitted (.messageStart (sampleUser "wait"))),
    .loop (.emitted (.messageEnd (sampleUser "wait")))]

theorem steps_delivering : ∃ s,
    Steps GoodStep (emptyMailbox .oneAtATime .oneAtATime) deliveringJobs s ∧
      s.deliveredTickets = [sampleTicket] := by
  have hcarries : List.Forall₂ Carries [some sampleTicket] [sampleUser "wait"] :=
    carries_tickets [sampleTicket]
  have hloop : ∀ (s : Mailbox) (run : Run) (action : Action) (next : Position),
      s.current = some run → run.tags = [some sampleTicket] →
      (∀ queue messages, action ≠ .polled queue messages) →
      (∀ message, action ≠ .emitted (.messageEnd message)) →
      Step sampleHost 0 run.position action next → inHand next.stage = [sampleUser "wait"] →
      Meets s (.loop action) →
      GoodStep s (.loop action) { s with
        current := some ⟨next, [some sampleTicket], run.skipInitialSteeringPoll⟩ } := by
    intro s run action next hcurrent htags hpoll hend hstep hhand hmeets
    refine ⟨.loop s sampleHost 0 run action next _ hcurrent hpoll hend hstep ?_ ?_, hmeets⟩
    · rw [htags]
    · rw [hhand]
      exact hcarries
  have hseeded : KeepsPending [sampleUser "wait"] [sampleUser "wait"] :=
    ⟨[sampleUser "wait"], [], forall₂_sameButTools_refl _, .inl rfl⟩
  exact ⟨_,
    .cons ⟨.accept _ _ _, trivial⟩ <|
    .cons ⟨.continueStart _ rfl, trivial⟩ <|
    .cons ⟨.continueDrain _ .steering [] [] rfl, trivial⟩ <|
    .cons ⟨.continueAdmission _ .steering [sampleTicket] [] [] rfl, rfl⟩ <|
    .cons (hloop _ _ _ _ rfl rfl (by simp) (by simp) (.seed _ _ hseeded) rfl trivial) <|
    .cons (hloop _ _ _ _ rfl rfl (by simp) (by simp) (.agentStart _ _) rfl trivial) <|
    .cons (hloop _ _ _ _ rfl rfl (by simp) (by simp) (.firstTurn _ _) rfl trivial) <|
    .cons (hloop _ _ _ _ rfl rfl (by simp) (by simp) (.promptStart _ _ _) rfl trivial) <|
    .cons ⟨.messageEnd _ sampleHost 0 _ _ _ rfl (.promptEnd _ _ _),
      fun _ _ _ _ _ hother => absurd hother not_mem_nil⟩ <|
    .nil _, rfl⟩

theorem messages_conserved_delivered : ∃ s, Conserved s ∧ s.deliveredTickets = [sampleTicket] := by
  obtain ⟨s, hsteps, hdelivered⟩ := steps_delivering
  exact ⟨s, messages_conserved .oneAtATime .oneAtATime deliveringJobs s hsteps, hdelivered⟩

/-- A message that `continue_` drained is lost when another run is admitted first. -/
theorem refused_continue_loses : ¬ ∀ jobs s,
    Steps JobStep (emptyMailbox .oneAtATime .oneAtATime) jobs s → Conserved s := by
  intro h
  have hlost := h [.accept .steering (sampleUser "wait"), .continueStart,
    .continueDrain .steering, .prompt [sampleUser "go on"],
    .continueAdmission .steering [sampleTicket]] _
    (.cons (.accept _ _ _) (.cons (.continueStart _ rfl)
      (.cons (.continueDrain _ .steering [] [] rfl) (.cons (.prompt _ _)
        (.cons (.continueAdmission _ .steering [sampleTicket] [] [] rfl) (.nil _))))))
  have hcard := congrArg card hlost.places
  revert hcard
  decide

end Pidrei.MessageQueues
