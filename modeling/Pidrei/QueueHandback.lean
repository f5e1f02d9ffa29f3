import Pidrei.QueueMirror

/-!
The lists of a session say what the agent's queues hold, and each queued message is pending,
delivered or returned.
-/
namespace Pidrei.QueueMirror

open List
open Function (update update_of_ne update_self)
open Multiset (card card_add coe_add coe_nil coe_singleton)

open AgentLoop (Queue)
open MessageQueues (PendingMessages QueueMode Ticket)

/-! ### What the agent holds -/

/-- The messages of a queue that have not started, the drained ones first. -/
def Agent.holds (agent : Agent) (queue : Queue) : List Ticket :=
  agent.inHand.filter (·.queue = queue) ++ (agent.queues queue).messages

def Agent.pending (agent : Agent) : Multiset Ticket :=
  ↑(agent.holds .steering) + ↑(agent.holds .followUp)

/-- A queue holds its own messages. -/
def Agent.Sorted (agent : Agent) : Prop :=
  ∀ queue, ∀ ticket ∈ (agent.queues queue).messages, ticket.queue = queue

variable {agent : Agent} {ticket : Ticket} {queue other : Queue}

@[simp]
theorem setQueue_self (agent : Agent) (queue : Queue) (pending : PendingMessages) :
    (agent.setQueue queue pending).queues queue = pending :=
  update_self ..

theorem setQueue_ne (pending : PendingMessages) (h : other ≠ queue) :
    (agent.setQueue queue pending).queues other = agent.queues other :=
  update_of_ne h ..

variable {pending : PendingMessages} {jobs : List Job} {rest : List Ticket}

theorem Agent.Sorted.setQueue (h : agent.Sorted)
    (hpending : ∀ ticket ∈ pending.messages, ticket.queue = queue) :
    (agent.setQueue queue pending).Sorted := by
  intro other ticket hticket
  by_cases hother : other = queue
  · subst hother
    rw [setQueue_self] at hticket
    exact hpending ticket hticket
  · rw [setQueue_ne pending hother] at hticket
    exact h other ticket hticket

theorem mem_of_mem_peek (h : ticket ∈ pending.peek) : ticket ∈ pending.messages := by
  rw [← pending.peek_append_drain]
  exact mem_append_left _ h

theorem mem_of_mem_drain (h : ticket ∈ pending.drain.messages) : ticket ∈ pending.messages := by
  rw [← pending.peek_append_drain]
  exact mem_append_right _ h

theorem Agent.Sorted.run (h : agent.Sorted) (job : Job) : (job.run agent).Sorted := by
  cases job with
  | enqueue ticket =>
    apply h.setQueue
    intro found hfound
    obtain hold | hnew := mem_append.mp hfound
    · exact h ticket.queue found hold
    · rw [mem_singleton.mp hnew]
  | clear queue => exact h.setQueue fun _ hmem => absurd hmem not_mem_nil
  | drain queue => exact h.setQueue fun found hfound => h queue found (mem_of_mem_drain hfound)

theorem holds_enqueue (agent : Agent) (ticket : Ticket) (queue : Queue) :
    ((Job.enqueue ticket).run agent).holds queue =
      agent.holds queue ++ if ticket.queue = queue then [ticket] else [] := by
  change agent.inHand.filter (·.queue = queue) ++ ((agent.setQueue ticket.queue
    ((agent.queues ticket.queue).enqueue ticket)).queues queue).messages = _
  unfold Agent.holds
  split
  · next h =>
    subst h
    rw [setQueue_self, append_assoc]
    rfl
  · next h => rw [setQueue_ne _ (Ne.symm h), append_nil]

theorem pending_enqueue (agent : Agent) (ticket : Ticket) :
    ((Job.enqueue ticket).run agent).pending = agent.pending + {ticket} := by
  unfold Agent.pending
  rw [holds_enqueue, holds_enqueue]
  cases ticket.queue with
  | steering =>
    rw [if_pos rfl, if_neg nofun, append_nil, ← coe_add, coe_singleton]
    abel
  | followUp =>
    rw [if_neg nofun, if_pos rfl, append_nil, ← coe_add, coe_singleton]
    abel

theorem holds_drain (h : agent.Sorted) (hempty : agent.inHand = []) (queue other : Queue) :
    ((Job.drain queue).run agent).holds other = agent.holds other := by
  have hpeek : ∀ other, (agent.queues queue).peek.filter (·.queue = other) =
      if other = queue then (agent.queues queue).peek else [] := by
    intro other
    split
    · next heq =>
      subst heq
      apply filter_eq_self.mpr
      intro ticket hticket
      exact decide_eq_true (h other ticket (mem_of_mem_peek hticket))
    · next hne =>
      apply filter_eq_nil_iff.mpr
      intro ticket hticket heq
      rw [← of_decide_eq_true heq] at hne
      exact hne (h queue ticket (mem_of_mem_peek hticket))
  unfold Agent.holds
  rw [hempty]
  change (agent.queues queue).peek.filter (·.queue = other) ++
    ((agent.setQueue queue (agent.queues queue).drain).queues other).messages = _
  rw [hpeek other]
  split
  · next heq =>
    subst heq
    rw [setQueue_self]
    exact PendingMessages.peek_append_drain _
  · next hne =>
    rw [setQueue_ne _ hne]
    rfl

theorem holds_clear (hempty : agent.inHand = []) (queue other : Queue) :
    ((Job.clear queue).run agent).holds other = if other = queue then [] else agent.holds other := by
  change agent.inHand.filter (·.queue = other) ++
    ((agent.setQueue queue (agent.queues queue).clear).queues other).messages = _
  unfold Agent.holds
  split
  · next heq =>
    subst heq
    rw [setQueue_self, hempty]
    rfl
  · next hne => rw [setQueue_ne _ hne]

/-! ### What was sent and what is to come -/

theorem foldl_inHand (h : ∀ job ∈ jobs, job.isDrain = false) (agent : Agent)
    (inHand : List Ticket) : jobs.foldl Job.run { agent with inHand := inHand } =
      { jobs.foldl Job.run agent with inHand := inHand } := by
  induction jobs generalizing agent with
  | nil => rfl
  | cons job jobs ih =>
    have hjob := h job mem_cons_self
    have hrest := ih fun other hother => h other (mem_cons_of_mem _ hother)
    cases job with
    | enqueue ticket => exact hrest ((Job.enqueue ticket).run agent)
    | clear queue => exact hrest ((Job.clear queue).run agent)
    | drain => cases hjob

theorem inHand_foldl (h : ∀ job ∈ jobs, job.isDrain = false) (agent : Agent) :
    (jobs.foldl Job.run agent).inHand = agent.inHand := by
  have hsame : jobs.foldl Job.run agent =
      { jobs.foldl Job.run agent with inHand := agent.inHand } :=
    foldl_inHand h agent agent.inHand
  rw [hsame]

/-- At most one drain is under way, and none while messages are in hand. -/
structure Polls (s : Session) : Prop where
  idle : s.polling = false → ∀ job ∈ s.jobs, job.isDrain = false
  single : s.jobs.countP Job.isDrain ≤ 1
  empty : s.polling = true → s.agent.inHand = []

/-- The lists agree with the agent, once the mailbox has caught up. -/
structure Mirrored (s : Session) : Prop where
  sorted : (caughtUp s).Sorted
  lists : ∀ queue, s.lists queue = ((caughtUp s).holds queue).map text

/-- Each posted message is pending, delivered, or in what one call of `clear_queue` returned. -/
def Partitioned (s : Session) : Prop :=
  ∃ cleared : List (List Ticket × List Ticket),
    s.returned = cleared.map (fun call => (call.1.map text, call.2.map text)) ∧
    (∀ call ∈ cleared, (∀ ticket ∈ call.1, ticket.queue = .steering) ∧
      ∀ ticket ∈ call.2, ticket.queue = .followUp) ∧
    (s.posted : Multiset Ticket) = (caughtUp s).pending + ↑s.delivered +
      ↑(cleared.flatMap fun call => call.1 ++ call.2)

/-- No message is drained and not started, and no drain is under way. -/
def Session.isQuiet (s : Session) : Bool := !s.polling && s.agent.inHand.isEmpty

/-- What is promised of queued input. -/
structure Accounted (s : Session) : Prop where
  partitioned : Partitioned s
  distinct : s.posted.Nodup
  lists : s.isQuiet = true →
    ∀ queue, s.lists queue = ((caughtUp s).queues queue).messages.map text

/-- The lists are taken while nothing is drained and not started; a queued message starts with a text
that the lists find in its own list first; another user message starts with a text of neither. -/
def Meets (s : Session) : Action → Prop
  | .clearQueue => (caughtUp s).inHand = []
  | .start => ∀ ticket ∈ s.agent.inHand.head?, text ticket ≠ "" ∧
      (ticket.queue = .followUp → text ticket ∉ s.lists .steering)
  | .startDirect text => text = "" ∨ text ∉ s.lists .steering ∧ text ∉ s.lists .followUp
  | _ => True

instance (s : Session) (action : Action) : Decidable (Meets s action) := by
  cases action <;> unfold Meets <;> infer_instance

structure Invariant (s : Session) : Prop where
  polls : Polls s
  mirrored : Mirrored s
  partitioned : Partitioned s
  ids : s.posted.map Ticket.id = List.range s.posted.length

variable {s t : Session}

theorem Invariant.accounted (h : Invariant s) : Accounted s where
  partitioned := h.partitioned
  distinct := by
    apply List.Nodup.of_map Ticket.id
    rw [h.ids]
    exact nodup_range
  lists := by
    intro hquiet queue
    have hboth : s.polling = false ∧ s.agent.inHand = [] := by
      simpa [Session.isQuiet] using hquiet
    have hempty : (caughtUp s).inHand = [] := by
      rw [← hboth.2]
      exact inHand_foldl (h.polls.idle hboth.1) s.agent
    rw [h.mirrored.lists queue, Agent.holds, hempty]
    rfl

theorem caughtUp_send (s : Session) (jobs : List Job) :
    (s.jobs ++ jobs).foldl Job.run s.agent = jobs.foldl Job.run (caughtUp s) :=
  foldl_append

/-! ### Steps -/

theorem Invariant.post (h : Invariant s) (queue : Queue) (content : String)
    (images : List (String × String)) (timestamp : Int) :
    Invariant (postQueuedInput s queue content images timestamp) := by
  have hcaught : caughtUp (postQueuedInput s queue content images timestamp) =
      (Job.enqueue ⟨s.posted.length, queue, userMessage content images timestamp⟩).run (caughtUp s) :=
    caughtUp_send s _
  generalize hticket : (⟨s.posted.length, queue, userMessage content images timestamp⟩ : Ticket) =
    ticket at hcaught
  have hqueue : ticket.queue = queue := by rw [← hticket]
  have htext : text ticket = content := by
    rw [← hticket]
    exact text_userMessage _ _ _ _ _
  refine ⟨⟨?_, ?_, h.polls.empty⟩, ⟨?_, ?_⟩, ?_, ?_⟩
  · intro hidle job hjob
    obtain hold | hnew := mem_append.mp hjob
    · exact h.polls.idle hidle job hold
    · rw [mem_singleton.mp hnew]
      rfl
  · change (s.jobs ++ [_]).countP Job.isDrain ≤ 1
    rw [countP_append]
    exact h.polls.single
  · rw [hcaught]
    exact h.mirrored.sorted.run _
  · intro other
    rw [hcaught, holds_enqueue, hqueue, map_append, ← h.mirrored.lists other]
    change update s.lists queue _ other = _
    by_cases hother : other = queue
    · subst hother
      rw [update_self, if_pos rfl, map_singleton, htext]
    · rw [update_of_ne hother, if_neg (Ne.symm hother)]
      exact (append_nil _).symm
  · obtain ⟨cleared, hreturned, hown, hposted⟩ := h.partitioned
    refine ⟨cleared, hreturned, hown, ?_⟩
    rw [hcaught]
    change ((s.posted ++ [_] : List Ticket) : Multiset Ticket) = _ + ↑s.delivered + _
    rw [hticket, ← coe_add, hposted, pending_enqueue, coe_singleton]
    abel
  · change (s.posted ++ [_]).map Ticket.id = range (s.posted ++ [_]).length
    rw [map_append, h.ids, length_append, length_singleton, range_succ]
    rfl

theorem Invariant.poll (h : Invariant s) (hempty : s.agent.inHand = []) (hidle : s.polling = false)
    (queue : Queue) : Invariant { s with jobs := s.jobs ++ [Job.drain queue], polling := true } := by
  have hcaught : caughtUp { s with jobs := s.jobs ++ [Job.drain queue], polling := true } =
      (Job.drain queue).run (caughtUp s) := caughtUp_send s _
  have hnone : (caughtUp s).inHand = [] := by
    rw [← hempty]
    exact inHand_foldl (h.polls.idle hidle) s.agent
  have hholds := holds_drain h.mirrored.sorted hnone queue
  have hcount : s.jobs.countP Job.isDrain = 0 := by
    apply countP_eq_zero.mpr
    intro job hjob hdrain
    rw [h.polls.idle hidle job hjob] at hdrain
    cases hdrain
  refine ⟨⟨nofun, ?_, fun _ => hempty⟩, ⟨?_, ?_⟩, ?_, h.ids⟩
  · change (s.jobs ++ [_]).countP Job.isDrain ≤ 1
    rw [countP_append, hcount]
    exact le_rfl
  · rw [hcaught]
    exact h.mirrored.sorted.run _
  · intro other
    rw [hcaught, hholds other]
    exact h.mirrored.lists other
  · obtain ⟨cleared, hreturned, hown, hposted⟩ := h.partitioned
    refine ⟨cleared, hreturned, hown, ?_⟩
    rw [hcaught, Agent.pending, hholds, hholds]
    exact hposted

theorem Invariant.work (h : Invariant s) {job : Job} (hjobs : s.jobs = job :: jobs) :
    Invariant { s with
      agent := job.run s.agent
      jobs := jobs
      polling := s.polling && !job.isDrain } := by
  have hcaught : jobs.foldl Job.run (job.run s.agent) = caughtUp s := by
    rw [caughtUp, hjobs, foldl_cons]
  have hidle := h.polls.idle
  have hsingle := h.polls.single
  rw [hjobs] at hidle hsingle
  rw [countP_cons] at hsingle
  refine ⟨⟨?_, ?_, ?_⟩, ⟨?_, ?_⟩, ?_, h.ids⟩
  · cases job with
    | enqueue | clear =>
      intro hpolling other hother
      exact hidle (by simpa [Job.isDrain] using hpolling) other (.tail _ hother)
    | drain queue =>
      intro _ other hother
      have hzero : jobs.countP Job.isDrain = 0 := by
        have hone : jobs.countP Job.isDrain + 1 ≤ 1 := hsingle
        omega
      exact Bool.eq_false_iff.mpr (countP_eq_zero.mp hzero other hother)
  · change jobs.countP Job.isDrain ≤ 1
    omega
  · cases job with
    | enqueue | clear => exact fun hpolling => h.polls.empty (by simpa [Job.isDrain] using hpolling)
    | drain => exact fun hpolling => absurd hpolling (by simp [Job.isDrain])
  · change (jobs.foldl Job.run (job.run s.agent)).Sorted
    rw [hcaught]
    exact h.mirrored.sorted
  · intro queue
    change _ = ((jobs.foldl Job.run (job.run s.agent)).holds queue).map text
    rw [hcaught]
    exact h.mirrored.lists queue
  · obtain ⟨cleared, hreturned, hown, hposted⟩ := h.partitioned
    refine ⟨cleared, hreturned, hown, ?_⟩
    change _ = (jobs.foldl Job.run (job.run s.agent)).pending + _ + _
    rw [hcaught]
    exact hposted

theorem userMessageStart_of_meets {content : String}
    (h : content = "" ∨ content ∉ s.lists .steering ∧ content ∉ s.lists .followUp) :
    userMessageStart s content = s := by
  unfold userMessageStart
  obtain hempty | ⟨hsteering, hfollowUp⟩ := h
  · rw [if_pos hempty]
  · rw [if_neg hsteering, if_neg hfollowUp, ite_self]

theorem holds_start (hinHand : agent.inHand = ticket :: rest) (queue : Queue) : agent.holds queue =
      (if ticket.queue = queue then [ticket] else []) ++
        ({ agent with inHand := rest } : Agent).holds queue := by
  unfold Agent.holds
  rw [hinHand]
  rw [filter_cons]
  by_cases hqueue : ticket.queue = queue
  · rw [if_pos hqueue, if_pos (decide_eq_true hqueue)]
    rfl
  · rw [if_neg hqueue, if_neg (by simpa using hqueue)]
    rfl

theorem userMessageStart_of_head (h : Mirrored s) (hinHand : (caughtUp s).inHand = ticket :: rest)
    (hne : text ticket ≠ "") (hapart : ticket.queue = .followUp → text ticket ∉ s.lists .steering) :
    userMessageStart s (text ticket) = setList s ticket.queue (s.lists ticket.queue).tail := by
  have hlist : s.lists ticket.queue = text ticket :: (s.lists ticket.queue).tail := by
    rw [h.lists, holds_start hinHand, if_pos rfl]
    rfl
  have herase : (s.lists ticket.queue).erase (text ticket) = (s.lists ticket.queue).tail := by
    rw [hlist]
    exact erase_cons_head ..
  have hmem : text ticket ∈ s.lists ticket.queue := by
    rw [hlist]
    exact mem_cons_self
  unfold userMessageStart
  rw [if_neg hne]
  cases hqueue : ticket.queue with
  | steering =>
    rw [hqueue] at herase hmem
    rw [if_pos hmem, herase]
  | followUp =>
    have hnot := hapart hqueue
    rw [hqueue] at herase hmem
    rw [if_neg hnot, if_pos hmem, herase]

theorem pending_start (hinHand : agent.inHand = ticket :: rest) :
    agent.pending = {ticket} + ({ agent with inHand := rest } : Agent).pending := by
  unfold Agent.pending
  rw [holds_start hinHand, holds_start hinHand]
  cases ticket.queue with
  | steering =>
    rw [if_pos rfl, if_neg nofun, nil_append, ← coe_add, coe_singleton]
    abel
  | followUp =>
    rw [if_neg nofun, if_pos rfl, nil_append, ← coe_add, coe_singleton]
    abel

theorem Invariant.start (h : Invariant s) (hinHand : s.agent.inHand = ticket :: rest)
    (hne : text ticket ≠ "") (hapart : ticket.queue = .followUp → text ticket ∉ s.lists .steering) :
    Invariant { userMessageStart s (text ticket) with
      agent := { s.agent with inHand := rest }
      delivered := s.delivered ++ [ticket] } := by
  have hidle : s.polling = false := by
    by_contra hpolling
    rw [h.polls.empty (by simpa using hpolling)] at hinHand
    cases hinHand
  have hjobs := h.polls.idle hidle
  have hcaughtInHand : (caughtUp s).inHand = ticket :: rest := by
    rw [← hinHand]
    exact inHand_foldl hjobs s.agent
  have hcaught : s.jobs.foldl Job.run { s.agent with inHand := rest } =
      { caughtUp s with inHand := rest } := foldl_inHand hjobs s.agent rest
  rw [userMessageStart_of_head h.mirrored hcaughtInHand hne hapart]
  refine ⟨⟨h.polls.idle, h.polls.single, ?_⟩, ⟨?_, ?_⟩, ?_, h.ids⟩
  · intro hpolling
    exact absurd (hidle.symm.trans hpolling) nofun
  · change (s.jobs.foldl Job.run { s.agent with inHand := rest }).Sorted
    rw [hcaught]
    exact h.mirrored.sorted
  · intro queue
    change update s.lists ticket.queue _ queue =
      ((s.jobs.foldl Job.run { s.agent with inHand := rest }).holds queue).map text
    rw [hcaught]
    have hlist := h.mirrored.lists queue
    rw [holds_start hcaughtInHand queue] at hlist
    by_cases hqueue : queue = ticket.queue
    · subst hqueue
      rw [update_self, hlist, if_pos rfl]
      rfl
    · rw [update_of_ne hqueue, hlist, if_neg (Ne.symm hqueue)]
      rfl
  · obtain ⟨cleared, hreturned, hown, hposted⟩ := h.partitioned
    refine ⟨cleared, hreturned, hown, ?_⟩
    change (s.posted : Multiset Ticket) =
      (s.jobs.foldl Job.run { s.agent with inHand := rest }).pending + ↑(s.delivered ++ [ticket]) + _
    rw [hcaught, hposted, pending_start hcaughtInHand, ← coe_add, coe_singleton]
    abel

theorem holds_sorted (h : agent.Sorted) (hempty : agent.inHand = []) :
    ∀ ticket ∈ agent.holds queue, ticket.queue = queue := by
  unfold Agent.holds
  rw [hempty]
  exact h queue

theorem Invariant.clear (h : Invariant s) (hnone : (caughtUp s).inHand = []) :
    Invariant (clearQueue s) := by
  have hcaught : caughtUp (clearQueue s) =
      (Job.clear .followUp).run ((Job.clear .steering).run (caughtUp s)) := caughtUp_send s _
  have hempty : ∀ queue, (caughtUp (clearQueue s)).holds queue = [] := by
    intro queue
    have hcleared : ((Job.clear .steering).run (caughtUp s)).inHand = [] := hnone
    rw [hcaught, holds_clear hcleared, holds_clear hnone]
    cases queue <;> rfl
  refine ⟨⟨?_, ?_, h.polls.empty⟩, ⟨?_, ?_⟩, ?_, h.ids⟩
  · intro hidle job hjob
    obtain hold | hnew := mem_append.mp hjob
    · exact h.polls.idle hidle job hold
    · obtain rfl | hlast := mem_cons.mp hnew
      · rfl
      · rw [mem_singleton.mp hlast]
        rfl
  · change (s.jobs ++ [_, _]).countP Job.isDrain ≤ 1
    rw [countP_append]
    exact h.polls.single
  · rw [hcaught]
    exact (h.mirrored.sorted.run _).run _
  · intro queue
    rw [hempty queue]
    rfl
  · obtain ⟨cleared, hreturned, hown, hposted⟩ := h.partitioned
    refine ⟨cleared ++ [((caughtUp s).holds .steering, (caughtUp s).holds .followUp)], ?_, ?_, ?_⟩
    · change s.returned ++ [(s.lists .steering, s.lists .followUp)] = _
      rw [hreturned, map_append, h.mirrored.lists, h.mirrored.lists]
      rfl
    · intro call hcall
      obtain hold | hnew := mem_append.mp hcall
      · exact hown call hold
      · rw [mem_singleton.mp hnew]
        exact ⟨holds_sorted h.mirrored.sorted hnone, holds_sorted h.mirrored.sorted hnone⟩
    · rw [Agent.pending, hempty, hempty, flatMap_append]
      change (s.posted : Multiset Ticket) = _ + ↑s.delivered + _
      rw [hposted, Agent.pending, ← coe_add, flatMap_singleton, ← coe_add,
        coe_nil]
      abel

theorem Invariant.step (h : Invariant s) {action : Action} (hmeets : Meets s action)
    (hstep : step s action = some t) : Invariant t := by
  cases action with
  | postQueuedInput queue content images timestamp =>
    cases hstep
    exact h.post queue content images timestamp
  | poll queue =>
    obtain ⟨⟨hempty, hidle⟩, ht⟩ := Option.ite_none_right_eq_some.mp hstep
    cases ht
    exact h.poll hempty hidle queue
  | work =>
    cases hjobs : s.jobs with
    | nil =>
      rw [QueueMirror.step, hjobs] at hstep
      cases hstep
    | cons job jobs =>
      rw [QueueMirror.step, hjobs] at hstep
      cases hstep
      exact h.work hjobs
  | start =>
    cases hinHand : s.agent.inHand with
    | nil =>
      rw [QueueMirror.step, hinHand] at hstep
      cases hstep
    | cons ticket rest =>
      rw [QueueMirror.step, hinHand] at hstep
      cases hstep
      obtain ⟨hne, hapart⟩ := hmeets ticket (by rw [hinHand]; rfl)
      exact h.start hinHand hne hapart
  | startDirect content =>
    cases hstep
    rw [userMessageStart_of_meets hmeets]
    exact h
  | clearQueue =>
    cases hstep
    exact h.clear hmeets

theorem invariant_start (steeringMode followUpMode : QueueMode) :
    Invariant (start steeringMode followUpMode) := by
  have hempty : ∀ queue, (emptyQueues steeringMode followUpMode queue).messages = [] := by
    intro queue
    cases queue <;> rfl
  refine ⟨⟨fun _ _ hjob => absurd hjob not_mem_nil, Nat.zero_le _, fun _ => rfl⟩, ⟨?_, ?_⟩,
    ⟨[], rfl, fun _ hcall => absurd hcall not_mem_nil, rfl⟩, rfl⟩
  · intro queue ticket hticket
    rw [caughtUp] at hticket
    change ticket ∈ (emptyQueues steeringMode followUpMode queue).messages at hticket
    rw [hempty] at hticket
    cases hticket
  · intro queue
    change [] = map text ([] ++ (emptyQueues steeringMode followUpMode queue).messages)
    rw [hempty]
    rfl

/-- In every run whose steps meet the condition, queued input is pending, delivered or handed back,
and the lists say what is pending. -/
theorem queued_input_accounted (steeringMode followUpMode : QueueMode)
    (h : Runs.Reaches step Meets (start steeringMode followUpMode) s) : Accounted s :=
  (h.kept (invariant_start steeringMode followUpMode)
    fun _ _ _ hs hmeets hstep => hs.step hmeets hstep).accounted

/-! ### Five runs -/

/-- One message is queued, drained and started; another is queued and taken back. -/
def deliveredAndReturned : List Action :=
  [.postQueuedInput .steering "go left" [] 0, .work, .poll .steering, .work, .start,
    .postQueuedInput .followUp "then right" [] 1, .clearQueue]

theorem queued_input_accounted_run :
    ∃ s, s.delivered.map text = ["go left"] ∧ s.returned = [([], ["then right"])] ∧
      Accounted s := by
  have hrun : (Runs.run (fun s action => if Meets s action then step s action else none)
      (start .all .all) deliveredAndReturned).map (fun s => (s.delivered.map text, s.returned)) =
      some (["go left"], [([], ["then right"])]) := by
    decide
  obtain ⟨s, hs, hfacts⟩ := Option.map_eq_some_iff.mp hrun
  obtain ⟨hdelivered, hreturned⟩ := Prod.mk.inj hfacts
  have hreaches : Runs.Reaches step Meets (start .all .all) s := .of_run hs
  exact ⟨s, hdelivered, hreturned, queued_input_accounted .all .all hreaches⟩

/-- The lists are taken between the drain and the start of a message. -/
def clearedInHand : List Action :=
  [.postQueuedInput .steering "go" [] 0, .work, .poll .steering, .work, .clearQueue, .start]

/-- A prompt with the text of a queued message starts before the lists are taken. -/
def sameAsPrompt : List Action :=
  [.postQueuedInput .steering "go" [] 0, .work, .startDirect "go", .clearQueue, .work, .work]

/-- A follow-up with the text of a pending steering message starts. -/
def sameInBoth : List Action :=
  [.postQueuedInput .followUp "go" [] 0, .work, .poll .followUp, .work,
    .postQueuedInput .steering "go" [] 1, .work, .start]

/-- A message without text starts. -/
def imageOnly : List Action :=
  [.postQueuedInput .steering "" [("aGk=", "image/png")] 0, .work, .poll .steering, .work, .start]

/-- The numbers of posted, pending, delivered and returned messages. -/
def counts (s : Session) : ℕ × ℕ × ℕ × ℕ :=
  (s.posted.length,
    ((caughtUp s).holds .steering).length + ((caughtUp s).holds .followUp).length,
    s.delivered.length, (s.returned.map fun call => call.1.length + call.2.length).sum)

theorem Partitioned.counts (h : Partitioned s) :
    (counts s).1 = (counts s).2.1 + (counts s).2.2.1 + (counts s).2.2.2 := by
  obtain ⟨cleared, hreturned, _, hposted⟩ := h
  have hcard := congrArg card hposted
  rw [card_add, card_add, Agent.pending, card_add] at hcard
  simp only [Multiset.coe_card] at hcard
  have hcleared : (cleared.flatMap fun call => call.1 ++ call.2).length =
      (s.returned.map fun call => call.1.length + call.2.length).sum := by
    rw [hreturned, length_flatMap, map_map]
    congr 1
    apply map_congr_left
    intro call _
    simp
  rw [hcleared] at hcard
  exact hcard

/-- What the lists and the queues hold in the end. -/
def listed (s : Session) : Bool × List (List String × List String) :=
  (s.isQuiet, [Queue.steering, Queue.followUp].map fun queue =>
    (s.lists queue, ((caughtUp s).queues queue).messages.map text))

theorem Accounted.listed (h : Accounted s) (hquiet : (listed s).1 = true) :
    ∀ pair ∈ (listed s).2, pair.1 = pair.2 := by
  intro pair hpair
  obtain ⟨queue, _, rfl⟩ := mem_map.mp hpair
  exact h.lists hquiet queue

theorem queued_input_lost :
    (∃ s, Runs.run step (start .all .all) clearedInHand = some s ∧ counts s = (1, 0, 1, 1) ∧
      ¬ Accounted s) ∧
    (∃ s, Runs.run step (start .all .all) sameAsPrompt = some s ∧ counts s = (1, 0, 0, 0) ∧
      ¬ Accounted s) ∧
    (∃ s, Runs.run step (start .all .all) sameInBoth = some s ∧
      listed s = (true, [([], ["go"]), (["go"], [])]) ∧ ¬ Accounted s) ∧
    ∃ s, Runs.run step (start .all .all) imageOnly = some s ∧
      listed s = (true, [([""], []), ([], [])]) ∧ ¬ Accounted s := by
  have hcounts : ∀ {actions : List Action} {numbers : ℕ × ℕ × ℕ × ℕ},
      (Runs.run step (start .all .all) actions).map counts = some numbers →
      numbers.1 ≠ numbers.2.1 + numbers.2.2.1 + numbers.2.2.2 →
      ∃ s, Runs.run step (start .all .all) actions = some s ∧ counts s = numbers ∧
        ¬ Accounted s := by
    intro actions numbers hrun hne
    obtain ⟨s, hs, rfl⟩ := Option.map_eq_some_iff.mp hrun
    exact ⟨s, hs, rfl, fun h => hne h.partitioned.counts⟩
  have hlisted : ∀ {actions : List Action} {pairs : List (List String × List String)},
      (Runs.run step (start .all .all) actions).map listed = some (true, pairs) →
      (∃ pair ∈ pairs, pair.1 ≠ pair.2) →
      ∃ s, Runs.run step (start .all .all) actions = some s ∧ listed s = (true, pairs) ∧
        ¬ Accounted s := by
    rintro actions pairs hrun ⟨pair, hpair, hne⟩
    obtain ⟨s, hs, heq⟩ := Option.map_eq_some_iff.mp hrun
    refine ⟨s, hs, heq, fun h => hne (h.listed (by rw [heq]) pair ?_)⟩
    rw [heq]
    exact hpair
  refine ⟨hcounts ?_ (by decide), hcounts ?_ (by decide), hlisted ?_ ?_, hlisted ?_ ?_⟩
  · decide
  · decide
  · decide
  · exact ⟨([], ["go"]), mem_cons_self, nofun⟩
  · decide
  · exact ⟨([""], []), mem_cons_self, nofun⟩

end Pidrei.QueueMirror
