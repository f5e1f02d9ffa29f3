import Pidrei.AgentRun

/-!
The events of a run are well bracketed, and the copies of the transcript agree:
the messages that ended, the new messages, the messages appended to the loop's
context and the ones the agent appends to its state. A run that an exception
leaves is closed by the agent's failure events, which fit where a turn is open
and no message is.
-/
namespace Pidrei.EventProtocol

open Values Messages AgentTypes AgentLoop ToolBatch LoopProtocol AgentRun Traced List
open Multiset (coe_add coe_singleton map_coe singleton_add)

/-- The innermost bracket that is open. -/
inductive Bracket where
  | outside
  | run
  | turn
  | message
  | ended
  deriving DecidableEq

def Bracket.next : Bracket → AgentEvent → Option Bracket
  | .outside, .agentStart => some .run
  | .run, .turnStart => some .turn
  | .run, .agentEnd _ => some .ended
  | .turn, .turnEnd .. => some .run
  | .turn, .messageStart _ => some .message
  | .turn, .toolExecutionStart .. | .turn, .toolExecutionUpdate ..
  | .turn, .toolExecutionEnd .. => some .turn
  | .message, .messageUpdate _ => some .message
  | .message, .messageEnd _ => some .turn
  | _, _ => none

def scan (events : List AgentEvent) : Option Bracket :=
  events.foldl (fun bracket event => bracket.bind (·.next event)) (some .outside)

/-- The run starts first and ends last and once, turns and messages are paired, messages and
tool executions stand inside a turn. -/
def WellBracketed (events : List AgentEvent) : Prop := scan events = some .ended

instance (events : List AgentEvent) : Decidable (WellBracketed events) := by
  unfold WellBracketed
  infer_instance

theorem scan_append (events more : List AgentEvent) :
    scan (events ++ more) = more.foldl (fun bracket event => bracket.bind (·.next event))
      (scan events) := by
  unfold scan
  rw [foldl_append]

def eventOf : Action → Option AgentEvent
  | .emitted event => some event
  | _ => none

def events (actions : List Action) : List AgentEvent := actions.filterMap eventOf

def endedMessage : AgentEvent → Option Message
  | .messageEnd message => some message
  | _ => none

def messageEnds (events : List AgentEvent) : List Message := events.filterMap endedMessage

def newMessage : Action → List Message
  | .seeded messages => messages
  | .added message => [message]
  | .responded message => [.assistant message]
  | .resulted result => [.toolResult result]
  | _ => []

def appendToContext (context : List Message) : Action → List Message
  | .seeded messages => context ++ messages
  | .added message => context ++ [message]
  | .streamed message => context ++ [Message.assistant message]
  | .replaced message => context.dropLast ++ [Message.assistant message]
  | .resulted result => context ++ [Message.toolResult result]
  | _ => context

def appended (actions : List Action) : List Message := actions.foldl appendToContext []

def bracketOf : Stage → Bracket
  | .fresh _ | .seeded _ => .outside
  | .entering _ | .closed | .between _ => .run
  | .prompted .. | .announced .. | .streaming _ => .message
  | .calling _ batch _ => if batch.opened.isSome then .message else .turn
  | .over => .ended
  | _ => .turn

/-- New messages whose events are still to come. -/
def dueEvents : Stage → List Message
  | .seeded due | .entering due | .prompting due => due
  | .prompted message due => message :: due
  | _ => []

/-- Messages whose events are over and which are not yet new messages. -/
def shownEarly : Stage → List Message
  | .ended message _ => [message]
  | .complete message => [.assistant message]
  | .calling _ batch added => (batch.shown.drop added.length).map .toolResult
  | _ => []

/-- The response that stands in the context and is not yet a new message. -/
def partialMessages : Stage → List Message
  | .appended message | .streaming message | .complete message => [.assistant message]
  | _ => []

/-- How far the copies of the transcript have come. -/
structure Agrees (actions : List Action) (position : Position) : Prop where
  brackets : scan (events actions) = some (bracketOf position.stage)
  ends : messageEnds (events actions) ++ dueEvents position.stage =
    position.new ++ shownEarly position.stage
  context : appended actions = position.new ++ partialMessages position.stage
  new : actions.flatMap newMessage = position.new
  idle : ∀ message batch added, position.stage = .calling message batch added →
    batch.opened.isSome = true → batch.live = 0

theorem agrees_start (prompts : List Message) : Agrees [] ⟨.fresh prompts, []⟩ where
  brackets := rfl
  ends := rfl
  context := rfl
  new := rfl
  idle := by
    intro message batch added h
    simp at h

theorem events_concat (actions : List Action) (event : AgentEvent) :
    events (actions ++ [Action.emitted event]) = events actions ++ [event] := by
  simp [events, eventOf]

def endsOf (action : Action) : List Message := ((eventOf action).bind endedMessage).toList

theorem messageEnds_concat (actions : List Action) (action : Action) :
    messageEnds (events (actions ++ [action])) =
      messageEnds (events actions) ++ endsOf action := by
  unfold events messageEnds endsOf
  rw [filterMap_append, filterMap_append]
  cases h : eventOf action with
  | none => simp [h]
  | some event => cases hended : endedMessage event <;> simp [h, hended]

def bracketAfter (bracket : Bracket) (action : Action) : Option Bracket :=
  match eventOf action with
  | none => some bracket
  | some event => bracket.next event

variable {actions more : List Action} {bracket : Bracket} {p q : Position} {action : Action}
   {message : AssistantMessage} {new : List Message} {host : Host} {horizon : Nat}
   {state : IdleState}

theorem scan_concat (action : Action) (h : scan (events actions) = some bracket) :
    scan (events (actions ++ [action])) = bracketAfter bracket action := by
  unfold events bracketAfter
  rw [filterMap_append, scan_append]
  change foldl _ (scan (events actions)) _ = _
  rw [h]
  cases haction : eventOf action <;> simp [haction]

theorem Agrees.next
    (h : Agrees actions p)
    (hbracket : bracketAfter (bracketOf p.stage) action = some (bracketOf q.stage))
    (hends : ∀ ends, ends ++ dueEvents p.stage = p.new ++ shownEarly p.stage →
      ends ++ endsOf action ++ dueEvents q.stage = q.new ++ shownEarly q.stage)
    (hcontext : appendToContext (p.new ++ partialMessages p.stage) action =
      q.new ++ partialMessages q.stage)
    (hnew : p.new ++ newMessage action = q.new)
    (hidle : ∀ message batch added, q.stage = .calling message batch added →
      batch.opened.isSome = true → batch.live = 0) : Agrees (actions ++ [action]) q where
  brackets := by rw [scan_concat action h.brackets, hbracket]
  ends := by
    rw [messageEnds_concat]
    exact hends _ h.ends
  context := by
    have happended : appended (actions ++ [action]) = appendToContext (appended actions) action := by
      unfold appended
      rw [foldl_append]
      rfl
    rw [happended, h.context, hcontext]
  new := by
    rw [flatMap_append, h.new, ← hnew]
    simp
  idle := hidle

theorem Agrees.outside
    (h : Agrees actions p) (hq : q.stage.isCalling = false)
    (hbracket : bracketAfter (bracketOf p.stage) action = some (bracketOf q.stage))
    (hends : ∀ ends, ends ++ dueEvents p.stage = p.new ++ shownEarly p.stage →
      ends ++ endsOf action ++ dueEvents q.stage = q.new ++ shownEarly q.stage)
    (hcontext : appendToContext (p.new ++ partialMessages p.stage) action =
      q.new ++ partialMessages q.stage)
    (hnew : p.new ++ newMessage action = q.new) : Agrees (actions ++ [action]) q := by
  refine h.next hbracket hends hcontext hnew ?_
  intro message batch added hcalling
  rw [hcalling] at hq
  exact Bool.noConfusion hq

theorem Agrees.batch {batch next : Batch} (h : Agrees actions ⟨.calling message batch [], new⟩)
    (hstep : BatchStep (toolCalls message) batch action next) :
    Agrees (actions ++ [action]) ⟨.calling message next [], new⟩ := by
  have hlive := h.idle message batch [] rfl
  have hnone : batch.live ≠ 0 → batch.opened = none := by
    intro hne
    cases hopened : batch.opened with
    | none => rfl
    | some result => exact absurd (hlive (by rw [hopened]; rfl)) hne
  cases hstep with
  | start call rest hopened hnext =>
    refine h.next ?_ ?_ rfl (append_nil new) ?_
    · simp [bracketOf, hopened, bracketAfter, eventOf, Bracket.next]
    · simp [dueEvents, shownEarly, endsOf, eventOf, endedMessage]
    · rintro _ _ _ ⟨⟩ hsome
      rw [hopened] at hsome
      exact Bool.noConfusion hsome
  | update call partialResult hmem =>
    have hopened := hnone (by rintro hzero; simp [hzero] at hmem)
    refine h.next ?_ ?_ rfl (append_nil new) h.idle
    · simp [bracketOf, hopened, bracketAfter, eventOf, Bracket.next]
    · simp [endsOf, eventOf, endedMessage]
  | finish call result isError durationMs hmem =>
    have hopened := hnone (by rintro hzero; simp [hzero] at hmem)
    refine h.next ?_ ?_ rfl (append_nil new) ?_
    · simp [bracketOf, hopened, bracketAfter, eventOf, Bracket.next]
    · simp [dueEvents, shownEarly, endsOf, eventOf, endedMessage]
    · rintro _ _ _ ⟨⟩ hsome
      rw [hopened] at hsome
      exact Bool.noConfusion hsome
  | «show» call rest result hzero hopened hnext hid hname =>
    refine h.next ?_ ?_ rfl (append_nil new) ?_
    · simp [bracketOf, hopened, bracketAfter, eventOf, Bracket.next]
    · simp [dueEvents, shownEarly, endsOf, eventOf, endedMessage]
    · rintro _ _ _ ⟨⟩ -
      exact hzero
  | shown result hopened =>
    refine h.next ?_ ?_ rfl (append_nil new) ?_
    · simp [bracketOf, hopened, bracketAfter, eventOf, Bracket.next]
    · intro ends hends
      simp [dueEvents, shownEarly] at hends
      simp [dueEvents, shownEarly, endsOf, eventOf, endedMessage, hends]
    · rintro _ _ _ ⟨⟩ hsome
      exact Bool.noConfusion hsome
  | refuse error =>
    refine h.next rfl ?_ rfl (append_nil new) ?_
    · simp [dueEvents, shownEarly, endsOf, eventOf]
    · rintro _ _ _ ⟨⟩ hsome
      exact hlive hsome

theorem Agrees.step {host : Host} {horizon : Nat} (hstream : ¬ RestartsStream host)
    {actions : List Action} {p q : Position} {action : Action} (h : Agrees actions p)
    (hstep : Step host horizon p action q) : Agrees (actions ++ [action]) q := by
  cases hstep with
  | batch _ _ _ _ _ hbatch => exact h.batch hbatch
  | result message batch added rest result new hcomplete hshown =>
    refine h.next rfl ?_ ?_ ?_ ?_
    · simp [dueEvents, shownEarly, endsOf, eventOf, hshown]
    · simp [appendToContext, partialMessages]
    · simp [newMessage]
    · rintro _ _ _ ⟨⟩ _
      exact hcomplete.live
  | close message batch new hcomplete =>
    refine h.outside rfl ?_ ?_ ?_ ?_
    · simp [bracketOf, hcomplete.opened, bracketAfter, eventOf, Bracket.next]
    · simp [dueEvents, shownEarly, endsOf, eventOf, endedMessage]
    · simp [appendToContext, partialMessages]
    · simp [newMessage]
  | restart _ _ _ hrestart => exact absurd hrestart hstream
  | refuse stage error new hstage =>
    refine h.outside hstage rfl ?_ rfl ?_
    · simp [endsOf, eventOf]
    · simp [newMessage]
  | respond message new hmessage =>
    refine h.next rfl ?_ ?_ ?_ ?_
    · simp [dueEvents, shownEarly, endsOf, eventOf]
    · simp [appendToContext, partialMessages]
    · simp [newMessage]
    · rintro _ _ _ ⟨⟩ _
      rfl
  | seed prompts messages hkeeps =>
    refine h.outside rfl rfl ?_ ?_ ?_
    · simp [dueEvents, shownEarly, endsOf, eventOf]
    · simp [appendToContext, partialMessages]
    · simp [newMessage]
  | _ =>
    refine h.outside rfl rfl ?_ ?_ ?_
    · intro ends hends
      simp [dueEvents, shownEarly] at hends
      simp [dueEvents, shownEarly, endsOf, eventOf, endedMessage, hends]
    · simp [appendToContext, partialMessages]
    · simp [newMessage]

theorem Agrees.steps (hstream : ¬ RestartsStream host) (h : Agrees actions p)
    (hsteps : Steps (Step host horizon) p more q) : Agrees (actions ++ more) q := by
  induction hsteps generalizing actions with
  | nil =>
    rw [append_nil]
    exact h
  | cons first _ ih =>
    have hrest := ih (h.step hstream first)
    rwa [append_assoc] at hrest

/-! The reduction of the events. -/

def startedId : AgentEvent → Option String
  | .toolExecutionStart toolCallId .. => some toolCallId
  | _ => none

def endedId : AgentEvent → Option String
  | .toolExecutionEnd toolCallId .. => some toolCallId
  | _ => none

/-- The tool calls that have started and not ended. -/
def openCalls (events : List AgentEvent) : Multiset String :=
  (events.filterMap startedId : Multiset String) - (events.filterMap endedId : Multiset String)

def reduceAll (state : IdleState) (events : List AgentEvent) : AgentState :=
  events.foldl reduce (admitted state)

theorem reduceAll_concat (state : IdleState) (events : List AgentEvent) (event : AgentEvent) :
    reduceAll state (events ++ [event]) = reduce (reduceAll state events) event := by
  unfold reduceAll
  rw [foldl_append]
  rfl

theorem reduce_messages (state : AgentState) (event : AgentEvent) :
    (reduce state event).messages = state.messages ++ (endedMessage event).toList := by
  cases event with
  | turnEnd message results =>
    simp only [reduce]
    split <;> simp [endedMessage]
  | _ => simp [reduce, endedMessage]

theorem reduceAll_messages (state : IdleState) (events : List AgentEvent) :
    (reduceAll state events).messages = state.messages ++ messageEnds events := by
  induction events using reverseRecOn with
  | nil => simp [reduceAll, admitted, messageEnds]
  | append_singleton events event ih =>
    rw [reduceAll_concat, reduce_messages, ih, append_assoc]
    unfold messageEnds
    rw [filterMap_append]
    cases h : endedMessage event <;> simp [h]

theorem reduce_pending (state : AgentState) (event : AgentEvent) (hstarted : startedId event = none)
    (hended : endedId event = none) :
    (reduce state event).pendingToolCalls = state.pendingToolCalls := by
  cases event with
  | toolExecutionStart => exact nomatch hstarted
  | toolExecutionEnd => exact nomatch hended
  | turnEnd message results =>
    simp only [reduce]
    split <;> rfl
  | _ => rfl

def liveIds : Stage → Multiset String
  | .calling _ batch _ => batch.live.map ToolCall.id
  | _ => 0

def CallsDistinct (message : AssistantMessage) : Prop :=
  ((toolCalls message).map ToolCall.id).Nodup

/-- The pending tool calls are the live ones. -/
structure Pends (state : IdleState) (actions : List Action) (position : Position) : Prop where
  pending : (reduceAll state (events actions)).pendingToolCalls =
    (liveIds position.stage).toFinset
  ids : ((events actions).filterMap startedId : Multiset String) =
    ↑((events actions).filterMap endedId) + liveIds position.stage
  distinct : ∀ message batch added, position.stage = .calling message batch added →
    CallsDistinct message ∧ batch.live ≤ ↑batch.started ∧ batch.started <+: toolCalls message

theorem pends_start (state : IdleState) (prompts : List Message) :
    Pends state [] ⟨.fresh prompts, []⟩ where
  pending := by simp [reduceAll, events, admitted, state.no_pending, liveIds]
  ids := rfl
  distinct := by
    intro message batch added h
    simp at h

def startedIn (action : Action) : Option String := (eventOf action).bind startedId

def endedIn (action : Action) : Option String := (eventOf action).bind endedId

theorem Pends.quiet (h : Pends state actions p) (hstarted : startedIn action = none)
    (hended : endedIn action = none) (hlive : liveIds q.stage = liveIds p.stage)
    (hdistinct : ∀ message batch added, q.stage = .calling message batch added →
      CallsDistinct message ∧ batch.live ≤ ↑batch.started ∧ batch.started <+: toolCalls message) :
    Pends state (actions ++ [action]) q := by
  cases haction : eventOf action with
  | none =>
    have hevents : events (actions ++ [action]) = events actions := by
      simp [events, haction]
    refine ⟨?_, ?_, hdistinct⟩
    · rw [hevents, hlive, h.pending]
    · rw [hevents, hlive, h.ids]
  | some event =>
    have hevents : events (actions ++ [action]) = events actions ++ [event] := by
      simp [events, haction]
    simp only [startedIn, endedIn, haction, Option.bind_some] at hstarted hended
    refine ⟨?_, ?_, hdistinct⟩
    · rw [hevents, reduceAll_concat, reduce_pending _ _ hstarted hended, hlive, h.pending]
    · rw [hevents, filterMap_append, filterMap_append, hlive]
      simpa [hstarted, hended] using h.ids

theorem erase_toFinset {ids : Multiset String} (h : ids.Nodup) (id : String) :
    (ids.erase id).toFinset = ids.toFinset.erase id := by
  ext other
  rw [Multiset.mem_toFinset, h.mem_erase_iff, Finset.mem_erase, Multiset.mem_toFinset]

theorem Pends.batch {batch next : Batch} (h : Pends state actions ⟨.calling message batch [], new⟩)
    (hstep : BatchStep (toolCalls message) batch action next) :
    Pends state (actions ++ [action]) ⟨.calling message next [], new⟩ := by
  obtain ⟨hdistinct, hlive, hstarted⟩ := h.distinct message batch [] rfl
  have hpending := h.pending
  have hids := h.ids
  cases hstep with
  | start call rest hopened hnext =>
    refine ⟨?_, ?_, ?_⟩
    · rw [events_concat, reduceAll_concat]
      simp only [reduce, hpending, liveIds, Multiset.map_cons, Multiset.toFinset_cons]
    · rw [events_concat, filterMap_append, filterMap_append]
      simp only [liveIds, startedId, endedId, filterMap_cons, filterMap_nil,
        append_nil, Multiset.map_cons, ← coe_add] at hids ⊢
      rw [hids, coe_singleton, ← singleton_add]
      abel
    · rintro _ _ _ ⟨⟩
      refine ⟨hdistinct, ?_, ⟨rest, by rw [hnext, append_assoc]; rfl⟩⟩
      rw [← coe_add, add_comm, coe_singleton, singleton_add]
      exact Multiset.cons_le_cons call hlive
  | finish call result isError durationMs hmem =>
    have hmap : (batch.live.erase call).map ToolCall.id =
        (batch.live.map ToolCall.id).erase call.id := Multiset.map_erase_of_mem _ _ hmem
    have hnodup : (batch.live.map ToolCall.id).Nodup := by
      refine Multiset.nodup_of_le (Multiset.map_le_map hlive) ?_
      rw [map_coe, Multiset.coe_nodup]
      exact List.Nodup.sublist (hstarted.sublist.map ToolCall.id) hdistinct
    refine ⟨?_, ?_, ?_⟩
    · rw [events_concat, reduceAll_concat]
      simp only [reduce, hpending, liveIds]
      rw [hmap, erase_toFinset hnodup]
    · rw [events_concat, filterMap_append, filterMap_append]
      simp only [liveIds, startedId, endedId, filterMap_cons, filterMap_nil,
        append_nil, ← coe_add] at hids ⊢
      rw [hids, coe_singleton, add_assoc, singleton_add, hmap,
        Multiset.cons_erase (Multiset.mem_map_of_mem ToolCall.id hmem)]
    · rintro _ _ _ ⟨⟩
      exact ⟨hdistinct, (Multiset.erase_le call batch.live).trans hlive, hstarted⟩
  | _ =>
    refine h.quiet rfl rfl rfl ?_
    rintro _ _ _ ⟨⟩
    exact ⟨hdistinct, hlive, hstarted⟩

theorem Pends.step {host : Host} {horizon : Nat} {state : IdleState} {actions : List Action}
    {p q : Position} {action : Action} (h : Pends state actions p)
    (hstep : Step host horizon p action q)
    (hcalls : ∀ message, action = .responded message → CallsDistinct message) :
    Pends state (actions ++ [action]) q := by
  have houtside : ∀ stage : Stage, stage.isCalling = false → ∀ message batch added,
      stage = .calling message batch added →
      CallsDistinct message ∧ batch.live ≤ ↑batch.started ∧ batch.started <+: toolCalls message := by
    rintro stage hstage message batch added rfl
    exact Bool.noConfusion hstage
  cases hstep with
  | batch _ _ _ _ _ hbatch => exact h.batch hbatch
  | result message batch added rest result new hcomplete hshown =>
    refine h.quiet rfl rfl rfl ?_
    rintro _ _ _ ⟨⟩
    exact h.distinct message batch added rfl
  | close message batch new hcomplete =>
    refine h.quiet rfl rfl ?_ (houtside _ rfl)
    simp [liveIds, hcomplete.live]
  | respond message new hmessage =>
    refine h.quiet rfl rfl rfl ?_
    rintro _ _ _ ⟨⟩
    exact ⟨hcalls message rfl, le_rfl, nil_prefix⟩
  | refuse stage error new hstage => exact h.quiet rfl rfl rfl (houtside stage hstage)
  | _ => exact h.quiet rfl rfl rfl (houtside _ rfl)

theorem Pends.steps (h : Pends state actions p) (hsteps : Steps (Step host horizon) p more q)
    (hcalls : ∀ message, .responded message ∈ more → CallsDistinct message) :
    Pends state (actions ++ more) q := by
  induction hsteps generalizing actions with
  | nil =>
    rw [append_nil]
    exact h
  | cons first _ ih =>
    have hnext := h.step first fun message hmessage => by
      refine hcalls message ?_
      rw [hmessage]
      exact mem_cons_self
    have hrest := ih hnext fun message hmem => hcalls message (mem_cons_of_mem _ hmem)
    rwa [append_assoc] at hrest

/-- The pending tool calls are those that have started and not ended. -/
def PendingExact (state : IdleState) (events : List AgentEvent) : Prop :=
  (reduceAll state events).pendingToolCalls = (openCalls events).toFinset

theorem Pends.exact (h : Pends state actions p) : PendingExact state (events actions) := by
  unfold PendingExact openCalls
  rw [h.ids, add_tsub_cancel_left, h.pending]

/-! The events that the agent adds to a run that failed. -/

/-- Events are emitted in order, and the sink may refuse one. -/
inductive Emits : List AgentEvent → Action → List AgentEvent → Prop
  | emit (event : AgentEvent) (rest : List AgentEvent) : Emits (event :: rest) (.emitted event) rest
  | refuse (rest : List AgentEvent) (error : String) : Emits rest (.refused error) rest

theorem emitAll_follows (host : Host) (due : List AgentEvent) :
    Follows Emits horizon due (emitAll host due) (fun t _ => t = [])
      (fun t _ => t.length < due.length) := by
  induction due with
  | nil => exact Follows.pure rfl
  | cons event rest ih =>
    have hrest : Follows Emits horizon rest (emitAll host rest) (fun t _ => t = [])
        (fun t _ => t.length < (event :: rest).length) := by
      refine ih.mono (fun _ _ h => h) ?_
      intro t reason h
      exact Nat.lt_succ_of_lt h
    unfold emitAll
    exact ToolBatch.emit_bind (.emit event rest)
      (fun error => ⟨rest, .refuse rest error, Nat.lt_succ_self _⟩) hrest

theorem events_of_emits {due rest : List AgentEvent} (h : Steps Emits due actions rest) :
    events actions ++ rest = due := by
  induction h with
  | nil => rfl
  | cons first _ ih =>
    cases first with
    | emit event tail =>
      rw [← ih]
      rfl
    | refuse tail error => exact ih

theorem handleRunFailure_events (host : Host) (model : Model) (error : String) (aborted : Bool)
    (tick : Nat) :
    ∃ timestamp, events (handleRunFailure host model error aborted tick).actions ≠ [] ∧
      events (handleRunFailure host model error aborted tick).actions <+:
        failureEvents (failureMessage model error aborted timestamp) := by
  refine ⟨host.now tick, ?_⟩
  generalize hdue : failureEvents (failureMessage model error aborted (host.now tick)) = due
  have hactions : (handleRunFailure host model error aborted tick).actions =
      (emitAll host due (tick + 1)).actions := by
    rw [← hdue]
    rfl
  rw [hactions]
  obtain ⟨rest, hsteps, hdone, hstopped⟩ :=
    (emitAll_follows host due).reaches (tick + 1) le_rfl
  have hevents := events_of_emits hsteps
  refine ⟨?_, ⟨rest, hevents⟩⟩
  intro hnone
  rw [hnone, nil_append] at hevents
  subst hevents
  cases hending : (emitAll host rest (tick + 1)).ending with
  | ok a =>
    have hnil := hdone a hending
    rw [hnil] at hdue
    exact nomatch hdue
  | error reason => exact Nat.lt_irrefl _ (hstopped reason hending)

theorem wellBracketed_failure {events emitted : List AgentEvent}
    (hscan : scan events = some bracket) (hne : emitted ≠ [])
    (hinitial : emitted <+: failureEvents message) :
    WellBracketed (events ++ emitted) ↔ bracket = .turn ∧ emitted = failureEvents message := by
  unfold WellBracketed
  rw [scan_append, hscan]
  rw [prefix_iff_eq_take] at hinitial
  generalize emitted.length = count at hinitial
  subst hinitial
  match count with
  | 0 => exact absurd rfl hne
  | 1 | 2 | 3 => cases bracket <;> simp [failureEvents, Bracket.next]
  | count + 4 => cases bracket <;> simp [failureEvents, Bracket.next]

section Lifecycle

variable (host : Host) (turns : Nat) (model : Model) (context : AgentContext)
  (config : AgentLoopConfig) (request : RunRequest) (tick : Nat)

theorem runLifecycle_returned
    (h : ∀ error, (executor host turns context config request tick).ending ≠
      .error (.raised error)) :
    (runLifecycle host turns model context config request tick).actions =
      (executor host turns context config request tick).actions := by
  change (andThen (attempt (executor host turns context config request)) _ tick).actions = _
  cases hending : (executor host turns context config request tick).ending with
  | ok new =>
    simp only [andThen, attempt, hending]
    exact append_nil _
  | error reason =>
    cases reason with
    | raised error => exact absurd hending (h error)
    | cut => simp only [andThen, attempt, hending]

theorem runLifecycle_raised (error : String)
    (h : (executor host turns context config request tick).ending = .error (.raised error)) :
    ∃ aborted later, (runLifecycle host turns model context config request tick).actions =
      (executor host turns context config request tick).actions ++
        (handleRunFailure host model error aborted later).actions := by
  change ∃ aborted later, (andThen (attempt (executor host turns context config request)) _
    tick).actions = _
  simp only [andThen, attempt, h]
  exact ⟨_, _, rfl⟩

theorem executor_agrees (hstream : ¬ RestartsStream host) :
    ∃ position, Agrees (executor host turns context config request tick).actions position ∧
      (∀ new, (executor host turns context config request tick).ending = .ok new →
        position = ⟨.over, new⟩) ∧
      ∀ reason, (executor host turns context config request tick).ending = .error reason →
        Halted host (tick + (executor host turns context config request tick).ticks) position
          reason := by
  obtain ⟨position, hsteps, hdone, hstopped⟩ :=
    executor_reaches host turns context config request tick
  exact ⟨position, (agrees_start _).steps hstream hsteps, hdone, hstopped⟩

theorem executor_pending (state : IdleState)
    (hcalls : ∀ message,
      .responded message ∈ (executor host turns context config request tick).actions →
      CallsDistinct message)
    (front : List AgentEvent)
    (hfront : front <+: events (executor host turns context config request tick).actions) :
    PendingExact state front := by
  obtain ⟨position, hsteps, -, -⟩ := executor_reaches host turns context config request tick
  obtain ⟨rest, hrest⟩ := hfront
  obtain ⟨first, later, hsplit, rfl, -⟩ := filterMap_eq_append_iff.mp hrest.symm
  rw [hsplit] at hsteps hcalls
  obtain ⟨middle, hfirst, -⟩ := hsteps.split
  exact ((pends_start state _).steps hfirst
    fun message hmessage => hcalls message (mem_append_left _ hmessage)).exact

end Lifecycle

theorem pendingExact_append {xs ys : List AgentEvent} (h : PendingExact state xs)
    (hstarted : ∀ event ∈ ys, startedId event = none)
    (hended : ∀ event ∈ ys, endedId event = none) : PendingExact state (xs ++ ys) := by
  induction ys using reverseRecOn with
  | nil => rwa [append_nil]
  | append_singleton ys event ih =>
    have hbefore := ih (fun other hother => hstarted other (mem_append_left _ hother))
      (fun other hother => hended other (mem_append_left _ hother))
    have hstart := hstarted event (mem_append_right _ (mem_singleton_self event))
    have hend := hended event (mem_append_right _ (mem_singleton_self event))
    unfold PendingExact openCalls at hbefore ⊢
    rw [← append_assoc, reduceAll_concat, reduce_pending _ _ hstart hend, hbefore]
    simp [hstart, hend]

theorem halted_cut {position : Position} (h : Halted host horizon position .cut) :
    ∃ queued, position.stage = .holding queued ∨ position.stage = .between queued := by
  obtain ⟨stage, new⟩ := position
  cases stage with
  | holding queued => exact ⟨queued, .inl rfl⟩
  | between queued => exact ⟨queued, .inr rfl⟩
  | calling message batch added =>
    obtain ⟨⟨error, herror⟩, -⟩ := h
    exact nomatch herror
  | _ =>
    obtain ⟨error, herror⟩ := h
    exact nomatch herror

/-- A run that returned: its events are well bracketed, and the copies of the transcript are
the new messages. -/
structure ReturnedAgrees (state : IdleState) (actions : List Action) (new : List Message) :
    Prop where
  brackets : WellBracketed (events actions)
  ends : messageEnds (events actions) = new
  context : appended actions = new
  reduced : (reduceAll state (events actions)).messages = state.messages ++ new

def FailedAgrees (error : String) (run whole : List AgentEvent) : Prop :=
  ∃ bracket failure closing, scan run = some bracket ∧ failure.errorMessage = some error ∧
    whole = run ++ closing ∧ closing <+: failureEvents failure ∧
    (WellBracketed whole ↔ bracket = .turn ∧ closing = failureEvents failure)

theorem mem_failureEvents {event : AgentEvent} (h : event ∈ failureEvents message) :
    startedId event = none ∧ endedId event = none := by
  simp only [failureEvents, mem_cons, not_mem_nil, or_false] at h
  rcases h with rfl | rfl | rfl | rfl <;> exact ⟨rfl, rfl⟩

theorem lifecycle_closing (host : Host) (turns : Nat) (model : Model) (context : AgentContext)
    (config : AgentLoopConfig) (request : RunRequest) (tick : Nat) :
    ∃ closing, events (runLifecycle host turns model context config request tick).actions =
        events (executor host turns context config request tick).actions ++ closing ∧
      ∀ event ∈ closing, startedId event = none ∧ endedId event = none := by
  by_cases hraised : ∃ error,
      (executor host turns context config request tick).ending = .error (.raised error)
  · obtain ⟨error, herror⟩ := hraised
    obtain ⟨aborted, later, hwhole⟩ := runLifecycle_raised host turns model context config request
      tick error herror
    obtain ⟨timestamp, -, hinitial⟩ := handleRunFailure_events host model error aborted later
    refine ⟨events (handleRunFailure host model error aborted later).actions, ?_, ?_⟩
    · rw [hwhole]
      exact filterMap_append
    · exact fun event hevent => mem_failureEvents (hinitial.subset hevent)
  · refine ⟨[], ?_, by simp⟩
    rw [append_nil, runLifecycle_returned host turns model context config request tick
      (fun error herror => hraised ⟨error, herror⟩)]

/-- The events of a run of the agent and the copies of its transcript. -/
theorem event_protocol (host : Host) (turns : Nat) (model : Model) (context : AgentContext)
    (config : AgentLoopConfig) (request : RunRequest) (tick : Nat) (state : IdleState)
    (hstream : ¬ RestartsStream host) :
    let run := executor host turns context config request tick
    let whole := (runLifecycle host turns model context config request tick).actions
    (∀ new, run.ending = .ok new → ReturnedAgrees state whole new) ∧
      (∀ error, run.ending = .error (.raised error) →
        FailedAgrees error (events run.actions) (events whole)) ∧
      (run.ending = .error .cut → messageEnds (events whole) = whole.flatMap newMessage ∧
        appended whole = whole.flatMap newMessage) ∧
      (∀ front, front <+: events whole →
        (reduceAll state front).messages = state.messages ++ messageEnds front) ∧
      ((∀ message, .responded message ∈ run.actions → CallsDistinct message) →
        ∀ front, front <+: events whole → PendingExact state front) := by
  intro run whole
  obtain ⟨position, hagrees, hdone, hstopped⟩ :=
    executor_agrees host turns context config request tick hstream
  refine ⟨?_, ?_, ?_, fun front _ => reduceAll_messages state front, ?_⟩
  · intro new hnew
    have hwhole : whole = run.actions := runLifecycle_returned host turns model context config
      request tick fun error herror => by
        rw [show (executor host turns context config request tick).ending = .ok new from hnew]
          at herror
        exact nomatch herror
    obtain rfl := hdone new hnew
    have hends : messageEnds (events run.actions) = new := by
      simpa [dueEvents, shownEarly] using hagrees.ends
    rw [hwhole]
    refine ⟨hagrees.brackets, hends, ?_, ?_⟩
    · simpa [partialMessages] using hagrees.context
    · rw [reduceAll_messages, hends]
  · intro error herror
    obtain ⟨aborted, later, hwhole⟩ := runLifecycle_raised host turns model context config request
      tick error herror
    obtain ⟨timestamp, hne, hinitial⟩ := handleRunFailure_events host model error aborted later
    have hevents : events whole = events run.actions ++
        events (handleRunFailure host model error aborted later).actions := by
      change events (runLifecycle host turns model context config request tick).actions = _
      rw [hwhole]
      exact filterMap_append
    refine ⟨_, _, _, hagrees.brackets, rfl, hevents, hinitial, ?_⟩
    rw [hevents]
    exact wellBracketed_failure hagrees.brackets hne hinitial
  · intro hcut
    have hwhole : whole = run.actions := runLifecycle_returned host turns model context config
      request tick fun error herror => by
        rw [show (executor host turns context config request tick).ending = .error .cut from hcut]
          at herror
        exact nomatch herror
    have hends := hagrees.ends
    have hcontext := hagrees.context
    rw [hwhole, hagrees.new]
    obtain ⟨queued, hstage | hstage⟩ := halted_cut (hstopped .cut hcut)
    · rw [hstage] at hends hcontext
      exact ⟨by simpa [dueEvents, shownEarly] using hends,
        by simpa [partialMessages] using hcontext⟩
    · rw [hstage] at hends hcontext
      exact ⟨by simpa [dueEvents, shownEarly] using hends,
        by simpa [partialMessages] using hcontext⟩
  · intro hcalls front hfront
    have hinside := executor_pending host turns context config request tick state hcalls
    obtain ⟨closing, hwhole, hquiet⟩ := lifecycle_closing host turns model context config
      request tick
    change front <+: events (runLifecycle host turns model context config request tick).actions
      at hfront
    rw [hwhole] at hfront
    rcases prefix_or_prefix_of_prefix hfront (prefix_append _ closing) with
      hbefore | ⟨later, rfl⟩
    · exact hinside front hbefore
    · have hlater := (prefix_append_right_inj _).mp hfront
      exact pendingExact_append (hinside _ (prefix_refl _))
        (fun event hevent => (hquiet event (hlater.subset hevent)).1)
        (fun event hevent => (hquiet event (hlater.subset hevent)).2)

theorem sampleHost_streams : ¬ RestartsStream sampleHost := by
  rintro ⟨tick, messages, config, response, hresponse, hcount⟩
  cases hresponse
  simp [startCount] at hcount

theorem event_protocol_twoCalls :
    ReturnedAgrees (initialState [])
      (runLifecycle sampleHost 2 sampleConfig.model ⟨[], []⟩ sampleConfig (.prompts []) 0).actions
      ((executor sampleHost 2 ⟨[], []⟩ sampleConfig (.prompts []) 0).ending.toOption.getD []) :=
  (event_protocol sampleHost 2 sampleConfig.model ⟨[], []⟩ sampleConfig (.prompts []) 0
    (initialState []) sampleHost_streams).1 _ (by decide +kernel)

/-- Every run is well bracketed, also one that fails. -/
def AlwaysBracketed (host : Host) (turns : Nat) (model : Model) (context : AgentContext)
    (config : AgentLoopConfig) (request : RunRequest) (tick : Nat) : Prop :=
  WellBracketed (events (runLifecycle host turns model context config request tick).actions)

/-- A hook that raises between two turns: the failure events close a turn that is not open. -/
theorem raising_hook_unbracketed :
    ¬ AlwaysBracketed { sampleHost with prepareNextTurn := fun _ _ => .error "hook failed" } 2
      sampleConfig.model ⟨[], []⟩ sampleConfig (.prompts []) 0 := by
  unfold AlwaysBracketed
  decide +kernel

end Pidrei.EventProtocol
