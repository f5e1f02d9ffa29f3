import Pidrei.ToolBatch

/-!
The protocol of a run: which events, polls and additions may come in which stage.
A stage says what the run holds in hand, and the position keeps the new messages
beside it. The loop follows this protocol whatever its surroundings answer, so
that what holds along the protocol holds in every run of the loop.
-/
namespace Pidrei.LoopProtocol

open Values Messages AgentTypes ToolChanges AgentLoop ToolBatch Traced

inductive Stage where
  | fresh (prompts : List Message)
  /-- The prompts are in the context; the run and its first turn have not started. -/
  | seeded (due : List Message)
  | entering (due : List Message)
  | prompting (due : List Message)
  | prompted (message : Message) (due : List Message)
  /-- The turn is open, with the queued messages it will add. -/
  | holding (queued : List Message)
  | preparing (due : List Message)
  | announced (message : Message) (due : List Message)
  | ended (message : Message) (due : List Message)
  /-- The response is in the context and its start is due. -/
  | appended (message : AssistantMessage)
  | streaming (message : AssistantMessage)
  | complete (message : AssistantMessage)
  | calling (message : AssistantMessage) (batch : Batch) (added : List ToolResultMessage)
  | failing (message : AssistantMessage)
  /-- The turn is closed and nothing was polled. -/
  | closed
  | between (queued : List Message)
  | over

def Stage.isCalling : Stage → Bool
  | .calling .. => true
  | _ => false

/-- The stage of a run and its new messages. -/
structure Position where
  stage : Stage
  new : List Message

/-- A response that ends the run. -/
def Failed (message : AssistantMessage) : Prop :=
  message.stopReason = .error ∨ message.stopReason = .aborted

instance (message : AssistantMessage) : Decidable (Failed message) := by
  unfold Failed
  infer_instance

theorem failed_iff {message : AssistantMessage} :
    Failed message ↔
      (message.stopReason = .error || message.stopReason = .aborted) = true := by
  simp [Failed]

def startCount : List StreamEvent → Nat
  | [] | .finished :: _ => 0
  | .start _ :: rest => startCount rest + 1
  | .update _ :: rest | .other :: rest => startCount rest

/-- Some response starts its message twice. -/
def RestartsStream (host : Host) : Prop :=
  ∃ tick messages config response, host.request tick messages config = .ok response ∧
    1 < startCount response.events

inductive Step (host : Host) (horizon : Nat) : Position → Action → Position → Prop
  | seed (prompts messages : List Message) (hkeeps : KeepsPending prompts messages) :
    Step host horizon ⟨.fresh prompts, []⟩ (.seeded messages) ⟨.seeded messages, messages⟩
  | agentStart (due new : List Message) :
    Step host horizon ⟨.seeded due, new⟩ (.emitted .agentStart) ⟨.entering due, new⟩
  | firstTurn (due new : List Message) :
    Step host horizon ⟨.entering due, new⟩ (.emitted .turnStart) ⟨.prompting due, new⟩
  | promptStart (message : Message) (due new : List Message) :
    Step host horizon ⟨.prompting (message :: due), new⟩ (.emitted (.messageStart message))
      ⟨.prompted message due, new⟩
  | promptEnd (message : Message) (due new : List Message) :
    Step host horizon ⟨.prompted message due, new⟩ (.emitted (.messageEnd message))
      ⟨.prompting due, new⟩
  | firstPoll (queued new : List Message) :
    Step host horizon ⟨.prompting [], new⟩ (.polled .steering queued) ⟨.holding queued, new⟩
  | declare (prepared queued messages new : List Message)
      (hkeeps : KeepsPending (prepared ++ queued) messages) :
    Step host horizon ⟨.holding queued, new⟩ (.declared prepared queued messages)
      ⟨.preparing messages, new⟩
  | messageStart (message : Message) (due new : List Message) :
    Step host horizon ⟨.preparing (message :: due), new⟩ (.emitted (.messageStart message))
      ⟨.announced message due, new⟩
  | messageEnd (message : Message) (due new : List Message) :
    Step host horizon ⟨.announced message due, new⟩ (.emitted (.messageEnd message))
      ⟨.ended message due, new⟩
  | add (message : Message) (due new : List Message) :
    Step host horizon ⟨.ended message due, new⟩ (.added message) ⟨.preparing due, new ++ [message]⟩
  | append (message : AssistantMessage) (new : List Message) :
    Step host horizon ⟨.preparing [], new⟩ (.streamed message) ⟨.appended message, new⟩
  | announce (message : AssistantMessage) (new : List Message) :
    Step host horizon ⟨.appended message, new⟩ (.emitted (.messageStart (.assistant message)))
      ⟨.streaming message, new⟩
  | restart (message next : AssistantMessage) (new : List Message)
      (hrestart : RestartsStream host) :
    Step host horizon ⟨.streaming message, new⟩ (.streamed next) ⟨.appended next, new⟩
  | replace (message next : AssistantMessage) (new : List Message) :
    Step host horizon ⟨.streaming message, new⟩ (.replaced next) ⟨.streaming next, new⟩
  | update (message : AssistantMessage) (new : List Message) :
    Step host horizon ⟨.streaming message, new⟩ (.emitted (.messageUpdate (.assistant message)))
      ⟨.streaming message, new⟩
  | finish (message : AssistantMessage) (new : List Message) :
    Step host horizon ⟨.streaming message, new⟩ (.emitted (.messageEnd (.assistant message)))
      ⟨.complete message, new⟩
  | respond (message : AssistantMessage) (new : List Message) (hmessage : ¬ Failed message) :
    Step host horizon ⟨.complete message, new⟩ (.responded message)
      ⟨.calling message {} [], new ++ [Message.assistant message]⟩
  | fail (message : AssistantMessage) (new : List Message) (hmessage : Failed message) :
    Step host horizon ⟨.complete message, new⟩ (.responded message)
      ⟨.failing message, new ++ [Message.assistant message]⟩
  | batch (message : AssistantMessage) (batch next : Batch) (action : Action) (new : List Message)
      (hstep : BatchStep (toolCalls message) batch action next) :
    Step host horizon ⟨.calling message batch [], new⟩ action ⟨.calling message next [], new⟩
  | result (message : AssistantMessage) (batch : Batch) (added rest : List ToolResultMessage)
      (result : ToolResultMessage) (new : List Message)
      (hcomplete : Complete (toolCalls message) (host.cancelled horizon) batch)
      (hshown : batch.shown = added ++ result :: rest) :
    Step host horizon ⟨.calling message batch added, new⟩ (.resulted result)
      ⟨.calling message batch (added ++ [result]), new ++ [Message.toolResult result]⟩
  | close (message : AssistantMessage) (batch : Batch) (new : List Message)
      (hcomplete : Complete (toolCalls message) (host.cancelled horizon) batch) :
    Step host horizon ⟨.calling message batch batch.shown, new⟩
      (.emitted (.turnEnd message batch.shown)) ⟨.closed, new⟩
  | closeFailed (message : AssistantMessage) (new : List Message) :
    Step host horizon ⟨.failing message, new⟩ (.emitted (.turnEnd message [])) ⟨.closed, new⟩
  | endEarly (new : List Message) :
    Step host horizon ⟨.closed, new⟩ (.emitted (.agentEnd new)) ⟨.over, new⟩
  | poll (queued new : List Message) :
    Step host horizon ⟨.closed, new⟩ (.polled .steering queued) ⟨.between queued, new⟩
  | pollAgain (queue : Queue) (queued new : List Message) :
    Step host horizon ⟨.between [], new⟩ (.polled queue queued) ⟨.between queued, new⟩
  | nextTurn (queued new : List Message) :
    Step host horizon ⟨.between queued, new⟩ (.emitted .turnStart) ⟨.holding queued, new⟩
  | finishRun (new : List Message) :
    Step host horizon ⟨.between [], new⟩ (.emitted (.agentEnd new)) ⟨.over, new⟩
  | refuse (stage : Stage) (error : String) (new : List Message)
      (hstage : stage.isCalling = false) :
    Step host horizon ⟨stage, new⟩ (.refused error) ⟨stage, new⟩

/-- How a run stops without a value: it is cut off only where a turn begins, and while tool
calls are answered only the sink stops it before all results are added. -/
def Halted (host : Host) (horizon : Nat) (position : Position) (reason : Stop) : Prop :=
  match position.stage with
  | .calling message batch added =>
    (∃ error, reason = .raised error) ∧
      (Complete (toolCalls message) (host.cancelled horizon) batch ∧ added = batch.shown ∨
        added = [] ∧ Interrupted batch reason)
  | .holding _ | .between _ => True
  | _ => ∃ error, reason = .raised error

section Specs

variable (host : Host) {horizon : Nat} {α : Type} {position p q : Position} {f : Unit → Loop α}

theorem halted_raised (h : position.stage.isCalling = false) (error : String) :
    Halted host horizon position (.raised error) := by
  obtain ⟨stage, new⟩ := position
  cases stage with
  | calling message batch added => exact nomatch h
  | holding | between => trivial
  | _ => exact ⟨error, rfl⟩

theorem refuse_halted (h : position.stage.isCalling = false) (error : String) :
    ∃ next, Step host horizon position (.refused error) next ∧
      Halted host horizon next (.raised error) :=
  ⟨position, .refuse position.stage error position.new h, halted_raised host h error⟩

theorem loop_emit_bind {event : AgentEvent} {later : Position → α → Prop}
    (hemit : Step host horizon p (.emitted event) q) (hq : q.stage.isCalling = false)
    (hf : Follows (Step host horizon) horizon q (f ()) later (Halted host horizon)) :
    Follows (Step host horizon) horizon p (emit host event >>= f) later (Halted host horizon) :=
  emit_bind hemit (refuse_halted host hq) hf

theorem loop_emitMessage_bind {r : Position} {message : Message} {later : Position → α → Prop}
    (hstart : Step host horizon p (.emitted (.messageStart message)) q)
    (hend : Step host horizon q (.emitted (.messageEnd message)) r) (hq : q.stage.isCalling = false)
    (hr : r.stage.isCalling = false)
    (hf : Follows (Step host horizon) horizon r (f ()) later (Halted host horizon)) :
    Follows (Step host horizon) horizon p (emitMessage host message >>= f) later
      (Halted host horizon) := by
  refine emitMessage_bind hstart hend ?_ hf
  intro v hv error
  rcases List.mem_cons.mp hv with rfl | hv
  · exact refuse_halted host hq error
  · rw [List.mem_singleton.mp hv]
    exact refuse_halted host hr error

variable (due new : List Message) (config : AgentLoopConfig) (context : AgentContext)
   (next : List Message → Position) (state : LoopState) (turns : Nat)

theorem emitMessages_follows :
    Follows (Step host horizon) horizon ⟨.prompting due, new⟩ (emitMessages host due)
      (fun t _ => t = ⟨.prompting [], new⟩) (Halted host horizon) := by
  induction due with
  | nil => exact Follows.pure rfl
  | cons message rest ih =>
    unfold emitMessages
    exact loop_emitMessage_bind host (.promptStart message rest new) (.promptEnd message rest new)
      rfl rfl ih

theorem addMessages_follows :
    Follows (Step host horizon) horizon ⟨.preparing due, new⟩ (addMessages host due)
      (fun t _ => t = ⟨.preparing [], new ++ due⟩) (Halted host horizon) := by
  induction due generalizing new with
  | nil => exact Follows.pure (by rw [List.append_nil])
  | cons message rest ih =>
    unfold addMessages
    refine loop_emitMessage_bind host (.messageStart message rest new)
      (.messageEnd message rest new) rfl rfl ?_
    refine Follows.actBind (.add message rest new) ((ih (new ++ [message])).mono ?_ ?_)
    · rintro t _ rfl
      rw [List.append_assoc]
      rfl
    · intro t reason h
      exact h

/-- Where the response stands: not begun, or with the partial message in the context. -/
def streamStage : Option AssistantMessage → Stage
  | none => .preparing []
  | some message => .streaming message

theorem finishResponse_follows (response : Response) (opened : Option AssistantMessage)
    (new : List Message) : Follows (Step host horizon) horizon ⟨streamStage opened, new⟩
      (finishResponse host config response opened.isSome)
      (fun t message => t = ⟨.complete message, new⟩) (Halted host horizon) := by
  unfold finishResponse
  refine Follows.callBind ?_ ?_
  · intro error
    cases opened with
    | none | some => exact ⟨error, rfl⟩
  intro _ message _
  cases opened with
  | none =>
    refine Follows.actBind (.append _ new) ?_
    refine loop_emit_bind host (.announce _ new) rfl ?_
    exact loop_emit_bind host (.finish _ new) rfl (Follows.pure rfl)
  | some partialMessage =>
    refine Follows.actBind (.replace partialMessage _ new) ?_
    exact loop_emit_bind host (.finish _ new) rfl (Follows.pure rfl)

theorem streamEvents_follows (response : Response) (events : List StreamEvent)
    (opened : Option AssistantMessage) (new : List Message)
    (hrestart : 1 < startCount events + opened.toList.length → RestartsStream host) :
    Follows (Step host horizon) horizon ⟨streamStage opened, new⟩
      (streamEvents host config response events opened.isSome)
      (fun t message => t = ⟨.complete message, new⟩) (Halted host horizon) := by
  induction events generalizing opened with
  | nil =>
    unfold streamEvents
    split
    · rename_i error _
      refine Follows.stop ?_
      cases opened with
      | none | some => exact ⟨error, rfl⟩
    · exact finishResponse_follows host config response opened new
  | cons event rest ih =>
    cases event with
    | start message =>
      have hstart : Step host horizon ⟨streamStage opened, new⟩ (.streamed message)
          ⟨.appended message, new⟩ := by
        cases opened with
        | none => exact .append message new
        | some other =>
          refine .restart other message new (hrestart ?_)
          simp [startCount]
      refine Follows.actBind hstart ?_
      · refine loop_emit_bind host (.announce message new) rfl ?_
        refine ih (some message) ?_
        intro hcount
        refine hrestart ?_
        simp [startCount] at hcount ⊢
        omega
    | update message =>
      cases opened with
      | none => exact ih none hrestart
      | some other =>
        refine Follows.actBind (.replace other message new) ?_
        refine loop_emit_bind host (.update message new) rfl ?_
        exact ih (some message) hrestart
    | finished => exact finishResponse_follows host config response opened new
    | other =>
      unfold streamEvents
      exact ih opened hrestart

theorem streamAssistantResponse_follows (config : AgentLoopConfig) (new : List Message) :
    Follows (Step host horizon) horizon ⟨.preparing [], new⟩
      (streamAssistantResponse host context config)
      (fun t message => t = ⟨.complete message, new⟩) (Halted host horizon) := by
  unfold streamAssistantResponse
  refine Follows.callBind (fun error => ⟨error, rfl⟩) ?_
  intro tick response hresponse
  refine streamEvents_follows host config response response.events none new ?_
  intro hcount
  exact ⟨tick, _, config, response, hresponse, by simpa using hcount⟩

theorem addToolResults_follows (message : AssistantMessage) (batch : Batch)
    (hcomplete : Complete (toolCalls message) (host.cancelled horizon) batch)
    (results added : List ToolResultMessage) (hshown : batch.shown = added ++ results)
    (new : List Message) :
    Follows (Step host horizon) horizon ⟨.calling message batch added, new⟩
      (addToolResults results)
      (fun t _ => t = ⟨.calling message batch batch.shown, new ++ results.map .toolResult⟩)
      (Halted host horizon) := by
  induction results generalizing added new with
  | nil =>
    refine Follows.pure ?_
    rw [hshown, List.append_nil, List.map_nil, List.append_nil]
  | cons result rest ih =>
    unfold addToolResults
    refine Follows.actBind (.result message batch added rest result new hcomplete hshown) ?_
    have hrest : batch.shown = (added ++ [result]) ++ rest := by
      rw [hshown, List.append_assoc]
      rfl
    refine (ih (added ++ [result]) hrest (new ++ [Message.toolResult result])).mono ?_ ?_
    · rintro t _ rfl
      rw [List.append_assoc]
      rfl
    · intro t reason h
      exact h

theorem answerToolCalls_follows (config : AgentLoopConfig) (message : AssistantMessage)
    (new : List Message) : Follows (Step host horizon) horizon ⟨.calling message {} [], new⟩
      (answerToolCalls host context config message)
      (fun t answer => ∃ batch, Complete (toolCalls message) (host.cancelled horizon) batch ∧
        batch.shown = answer.1 ∧
        t = ⟨.calling message batch batch.shown, new ++ answer.1.map .toolResult⟩)
      (Halted host horizon) := by
  unfold answerToolCalls
  split
  · rename_i hempty
    refine Follows.pure ⟨{}, ⟨⟨rfl, rfl, rfl⟩, .inl ?_⟩, rfl, ?_⟩
    · exact (List.isEmpty_iff.mp hempty).symm
    · rw [List.map_nil, List.append_nil]
  · have hbatch : Follows (BatchStep (toolCalls message)) horizon {}
        (if message.stopReason = .length then
          failToolCallsFromTruncatedMessage host (toolCalls message)
        else executeToolCalls host context message config)
        (fun t batch => Complete (toolCalls message) (host.cancelled horizon) t ∧
          t.shown = batch.messages) Interrupted := by
      split
      · exact failToolCallsFromTruncatedMessage_follows host
      · exact executeToolCalls_follows host context message config
    have hembed : ∀ batch action next, BatchStep (toolCalls message) batch action next →
        Step host horizon ⟨.calling message batch [], new⟩ action ⟨.calling message next [], new⟩ :=
      fun batch action next => .batch message batch next action new
    refine ((hbatch.lift hembed).mono (fun _ _ h => h) ?_).bind ?_
    · rintro t reason ⟨batch, rfl, error, herror, rfl⟩
      exact ⟨⟨error, rfl⟩, .inr ⟨rfl, error, herror, rfl⟩⟩
    rintro t executed ⟨batch, rfl, hcomplete, hshown⟩
    refine (addToolResults_follows host message batch hcomplete executed.messages [] hshown
      new).bind ?_
    rintro u ⟨⟩ rfl
    exact Follows.pure ⟨batch, hcomplete, hshown, rfl⟩

/-- Where a pass of the inner loop begins. -/
def entryStage (state : LoopState) : Stage :=
  match state.lastCompletedTurn with
  | none => .holding state.pendingMessages
  | some _ => .between state.pendingMessages

theorem entryStage_of_isSome {state : LoopState} (h : state.lastCompletedTurn.isSome = true) :
    entryStage state = .between state.pendingMessages := by
  obtain ⟨turn, hturn⟩ := Option.isSome_iff_exists.mp h
  unfold entryStage
  rw [hturn]

theorem pollSteering_follows
    (hpoll : ∀ queued, Step host horizon position (.polled .steering queued) (next queued))
    (stopped : Position → Stop → Prop) :
    Follows (Step host horizon) horizon position (pollSteering host)
      (fun t queued => t = next queued) stopped := by
  unfold pollSteering
  exact Follows.askBind fun tick _ => Follows.actBind (hpoll _) (Follows.pure rfl)

theorem pollFollowUp_follows
    (hpoll : ∀ queued, Step host horizon position (.polled .followUp queued) (next queued))
    (stopped : Position → Stop → Prop) :
    Follows (Step host horizon) horizon position (pollFollowUp host)
      (fun t queued => t = next queued) stopped := by
  unfold pollFollowUp
  exact Follows.askBind fun tick _ => Follows.actBind (hpoll _) (Follows.pure rfl)

theorem beginTurn_follows :
    Follows (Step host horizon) horizon ⟨entryStage state, state.newMessages⟩
      (beginTurn host state)
      (fun t begun => begun.1.newMessages = state.newMessages ∧
        t = ⟨.holding begun.1.pendingMessages, state.newMessages⟩)
      (Halted host horizon) := by
  unfold beginTurn entryStage
  cases state.lastCompletedTurn with
  | none => exact Follows.pure ⟨rfl, rfl⟩
  | some turn =>
    refine Follows.callBind (fun _ => trivial) ?_
    intro _ update _
    dsimp only
    split
    · rename_i hpending
      rw [hpending]
      refine (pollSteering_follows host _ (fun queued => .pollAgain .steering queued _)
        (Halted host horizon)).bind ?_
      rintro t queued rfl
      exact loop_emit_bind host (.nextTurn queued _) rfl (Follows.pure ⟨rfl, rfl⟩)
    · refine loop_emit_bind host (.nextTurn _ _) rfl (Follows.pure ⟨rfl, rfl⟩)

theorem prepareRequest_follows (prepared : List Message) :
    Follows (Step host horizon) horizon ⟨.holding state.pendingMessages, state.newMessages⟩
      (prepareRequest host state prepared)
      (fun t next => t = ⟨.preparing [], next.newMessages⟩) (Halted host horizon) := by
  unfold prepareRequest
  refine Follows.askBind fun tick _ => ?_
  refine Follows.actBind (.declare prepared state.pendingMessages _ state.newMessages
    (declareToolChanges_keeps state.context _ _)) ?_
  refine (addMessages_follows host _ state.newMessages).bind ?_
  rintro t _ rfl
  refine Follows.callBind (fun error => ⟨error, rfl⟩) ?_
  intro _ update _
  exact Follows.pure rfl

/-- Where a pass of the inner loop ends. -/
def Concludes (position : Position) : TurnOutcome → Prop
  | .ended newMessages => position = ⟨.over, newMessages⟩
  | .next state => state.lastCompletedTurn.isSome = true ∧
      position = ⟨.between state.pendingMessages, state.newMessages⟩

theorem endRun_follows :
    Follows (Step host horizon) horizon ⟨.closed, new⟩ (endRun host new) Concludes
      (Halted host horizon) := by
  unfold endRun
  exact loop_emit_bind host (.endEarly new) rfl (Follows.pure rfl)

theorem endFailedTurn_follows (message : AssistantMessage) :
    Follows (Step host horizon) horizon ⟨.failing message, state.newMessages⟩
      (endFailedTurn host state message) Concludes (Halted host horizon) := by
  unfold endFailedTurn
  refine Follows.callBind (fun error => ⟨error, rfl⟩) ?_
  intro _ _ _
  exact loop_emit_bind host (.closeFailed message _) rfl (endRun_follows host _)

theorem completeTurn_follows (message : AssistantMessage) :
    Follows (Step host horizon) horizon ⟨.calling message {} [], state.newMessages⟩
      (completeTurn host state message) Concludes (Halted host horizon) := by
  unfold completeTurn
  refine (answerToolCalls_follows host state.context state.config message _).bind ?_
  rintro t ⟨results, hasMoreToolCalls⟩ ⟨batch, hcomplete, hresults, rfl⟩
  obtain rfl : batch.shown = results := hresults
  refine Follows.callBind ?_ ?_
  · intro error
    exact ⟨⟨error, rfl⟩, .inl ⟨hcomplete, rfl⟩⟩
  intro _ decision _
  refine loop_emit_bind host (.close message batch _ hcomplete) rfl ?_
  split
  · exact endRun_follows host _
  · refine (pollSteering_follows host _ (fun queued => .poll queued _)
      (Halted host horizon)).bind ?_
    rintro t queued rfl
    exact Follows.pure ⟨rfl, rfl⟩

theorem runTurn_follows : Follows (Step host horizon) horizon ⟨entryStage state, state.newMessages⟩
      (runTurn host state) Concludes (Halted host horizon) := by
  unfold runTurn
  refine (beginTurn_follows host state).bind ?_
  rintro t ⟨begun, prepared⟩ ⟨hnew, rfl⟩
  rw [← hnew]
  refine (prepareRequest_follows host begun prepared).bind ?_
  rintro t ready rfl
  refine (streamAssistantResponse_follows host ready.context ready.config _).bind ?_
  rintro t message rfl
  by_cases hmessage : Failed message
  · refine Follows.actBind (.fail message _ hmessage) ?_
    rw [if_pos (failed_iff.mp hmessage)]
    exact endFailedTurn_follows host _ message
  · refine Follows.actBind (.respond message _ hmessage) ?_
    rw [if_neg (fun h => hmessage (failed_iff.mpr h))]
    exact completeTurn_follows host _ message

theorem runLoop_follows (state : LoopState) :
    Follows (Step host horizon) horizon ⟨entryStage state, state.newMessages⟩
      (runLoop host turns state) (fun t new => t = ⟨.over, new⟩) (Halted host horizon) := by
  induction turns generalizing state with
  | zero =>
    refine Follows.stop ?_
    unfold entryStage
    cases state.lastCompletedTurn with
    | none => trivial
    | some turn => trivial
  | succ turns ih =>
    have hagain : ∀ next : LoopState, next.lastCompletedTurn.isSome = true →
        Follows (Step host horizon) horizon ⟨.between next.pendingMessages, next.newMessages⟩
          (runLoop host turns next) (fun t new => t = ⟨.over, new⟩) (Halted host horizon) := by
      intro next hturn
      rw [← entryStage_of_isSome hturn]
      exact ih next
    unfold runLoop
    refine (runTurn_follows host state).bind ?_
    rintro t outcome houtcome
    cases outcome with
    | ended newMessages =>
      obtain rfl := houtcome
      exact Follows.pure rfl
    | next next =>
      obtain ⟨hturn, rfl⟩ := houtcome
      dsimp only
      split
      · exact hagain next hturn
      · rename_i hmore
        have hpending : next.pendingMessages = [] := by
          by_contra hne
          exact hmore (by simp [hne])
        rw [hpending]
        refine (pollFollowUp_follows host _ (fun queued => .pollAgain .followUp queued _)
          (Halted host horizon)).bind ?_
        rintro t followUps rfl
        split
        · exact hagain
            { next with pendingMessages := followUps, explicitContinuation := false } hturn
        · rename_i hnone
          obtain rfl : followUps = [] := by simpa using hnone
          split
          · exact hagain { next with pendingMessages := [], explicitContinuation := false } hturn
          · exact loop_emit_bind host (.finishRun _) rfl (Follows.pure rfl)

theorem startLoop_follows (context : AgentContext) (config : AgentLoopConfig) (new : List Message) :
    Follows (Step host horizon) horizon ⟨.prompting [], new⟩
      (startLoop host turns context config new) (fun t result => t = ⟨.over, result⟩)
      (Halted host horizon) := by
  unfold startLoop
  refine (pollSteering_follows host _ (fun queued => .firstPoll queued new)
    (Halted host horizon)).bind ?_
  rintro t queued rfl
  exact runLoop_follows host turns _

theorem runAgentLoop_follows (prompts : List Message) (context : AgentContext)
    (config : AgentLoopConfig) : Follows (Step host horizon) horizon ⟨.fresh prompts, []⟩
      (runAgentLoop host turns prompts context config) (fun t result => t = ⟨.over, result⟩)
      (Halted host horizon) := by
  unfold runAgentLoop
  refine Follows.askBind fun tick _ => ?_
  refine Follows.actBind (.seed prompts _ (declareToolChanges_keeps context prompts _)) ?_
  refine loop_emit_bind host (.agentStart _ _) rfl ?_
  refine loop_emit_bind host (.firstTurn _ _) rfl ?_
  refine (emitMessages_follows host _ _).bind ?_
  rintro t _ rfl
  exact startLoop_follows host turns _ config _

theorem runAgentLoopContinue_follows (context : AgentContext) (config : AgentLoopConfig) :
    Follows (Step host horizon) horizon ⟨.fresh [], []⟩
      (runAgentLoopContinue host turns context config) (fun t result => t = ⟨.over, result⟩)
      (Halted host horizon) := by
  unfold runAgentLoopContinue
  split
  · exact Follows.stop ⟨_, rfl⟩
  · exact Follows.stop ⟨_, rfl⟩
  · refine Follows.actBind (.seed [] [] ⟨[], [], .nil, .inl rfl⟩) ?_
    refine loop_emit_bind host (.agentStart _ _) rfl ?_
    refine loop_emit_bind host (.firstTurn _ _) rfl ?_
    exact startLoop_follows host turns context config []

end Specs

end Pidrei.LoopProtocol
