import Mathlib.Algebra.Order.Group.Multiset
import Mathlib.Tactic.Abel
import Pidrei.AgentLoop

/-!
The tool calls of one response. The batch says which calls have started, which of
them have not ended, and which results were shown; its protocol is the same for
the truncated response, the sequential mode and the parallel mode with its
scheduler. Only the event sink can break a batch off.
-/
namespace Pidrei.ToolBatch

open Values Messages AgentTypes AgentLoop Traced List

section Emit

variable {σ α : Type} {step : σ → Action → σ → Prop} {horizon : Nat} {s t : σ}

theorem emit_follows {host : Host} {event : AgentEvent} {done : σ → Unit → Prop}
    {stopped : σ → Stop → Prop} (hemit : step s (.emitted event) t) (hdone : done t ())
    (hrefuse : ∀ error, ∃ u, step t (.refused error) u ∧ stopped u (.raised error)) :
    Follows step horizon s (emit host event) done stopped := by
  unfold emit
  refine Follows.actBind hemit (Follows.askBind fun tick _ => ?_)
  cases host.sink tick event with
  | none => exact Follows.pure hdone
  | some error =>
    obtain ⟨u, hstep, hstopped⟩ := hrefuse error
    exact Follows.actBind hstep (Follows.stop hstopped)

theorem emit_bind {host : Host} {event : AgentEvent} {f : Unit → Loop α} {later : σ → α → Prop}
    {stopped : σ → Stop → Prop} (hemit : step s (.emitted event) t)
    (hrefuse : ∀ error, ∃ u, step t (.refused error) u ∧ stopped u (.raised error))
    (hf : Follows step horizon t (f ()) later stopped) :
    Follows step horizon s (emit host event >>= f) later stopped := by
  have h : Follows step horizon s (emit host event) (fun u _ => u = t) stopped :=
    emit_follows hemit rfl hrefuse
  refine h.bind ?_
  rintro u ⟨⟩ rfl
  exact hf

theorem emitMessage_bind {u : σ} {host : Host} {message : Message} {f : Unit → Loop α}
    {later : σ → α → Prop} {stopped : σ → Stop → Prop}
    (hstart : step s (.emitted (.messageStart message)) t)
    (hend : step t (.emitted (.messageEnd message)) u)
    (hrefuse : ∀ v ∈ [t, u], ∀ error, ∃ w, step v (.refused error) w ∧ stopped w (.raised error))
    (hf : Follows step horizon u (f ()) later stopped) :
    Follows step horizon s (emitMessage host message >>= f) later stopped := by
  have h : Follows step horizon s (emitMessage host message) (fun v _ => v = u) stopped := by
    refine emit_bind hstart (hrefuse t mem_cons_self) ?_
    exact emit_follows hend rfl (hrefuse u (mem_cons_of_mem _ (mem_singleton_self u)))
  refine h.bind ?_
  rintro v ⟨⟩ rfl
  exact hf

end Emit

/-- Which calls have started, which of them have not ended, the results shown, a result that
is being shown, and what the sink refused. -/
structure Batch where
  started : List ToolCall := []
  live : Multiset ToolCall := 0
  shown : List ToolResultMessage := []
  opened : Option ToolResultMessage := none
  refusals : List String := []

inductive BatchStep (calls : List ToolCall) : Batch → Action → Batch → Prop
  | start (b : Batch) (call : ToolCall) (rest : List ToolCall) (hopened : b.opened = none)
      (hnext : calls = b.started ++ call :: rest) :
    BatchStep calls b (.emitted (.toolExecutionStart call.id call.name call.arguments))
      { b with started := b.started ++ [call], live := call ::ₘ b.live }
  | update (b : Batch) (call : ToolCall) (partialResult : AgentToolResult)
      (hlive : call ∈ b.live) :
    BatchStep calls b
      (.emitted (.toolExecutionUpdate call.id call.name call.arguments partialResult)) b
  | finish (b : Batch) (call : ToolCall) (result : AgentToolResult) (isError : Bool)
      (durationMs : Option Int) (hlive : call ∈ b.live) :
    BatchStep calls b
      (.emitted (.toolExecutionEnd call.id call.name result isError durationMs))
      { b with live := b.live.erase call }
  | show (b : Batch) (call : ToolCall) (rest : List ToolCall) (result : ToolResultMessage)
      (hlive : b.live = 0) (hopened : b.opened = none)
      (hnext : b.started.drop b.shown.length = call :: rest)
      (hid : result.toolCallId = call.id) (hname : result.toolName = call.name) :
    BatchStep calls b (.emitted (.messageStart (.toolResult result)))
      { b with opened := some result }
  | shown (b : Batch) (result : ToolResultMessage) (hopened : b.opened = some result) :
    BatchStep calls b (.emitted (.messageEnd (.toolResult result)))
      { b with opened := none, shown := b.shown ++ [result] }
  | refuse (b : Batch) (error : String) :
    BatchStep calls b (.refused error) { b with refusals := b.refusals ++ [error] }

/-- The sink broke the batch off. -/
def Interrupted (b : Batch) (reason : Stop) : Prop := ∃ error ∈ b.refusals, reason = .raised error

/-- Every started call has ended and its result was shown. -/
structure Settled (b : Batch) : Prop where
  live : b.live = 0
  opened : b.opened = none
  shown : b.shown.length = b.started.length

structure Complete (calls : List ToolCall) (cancelled : Bool) (b : Batch) : Prop
    extends Settled b where
  started : b.started = calls ∨ cancelled = true

theorem refused_interrupted (b : Batch) (error : String) :
    Interrupted { b with refusals := b.refusals ++ [error] } (.raised error) :=
  ⟨error, mem_append_right _ (mem_singleton_self error), rfl⟩

section Specs

variable {calls : List ToolCall} {horizon : Nat} (host : Host) {b : Batch} {task : ToolTask}
  {tasks : List ToolTask}

theorem batch_emit_bind {c : Batch} {event : AgentEvent} {α : Type} {f : Unit → Loop α}
    {later : Batch → α → Prop} (hemit : BatchStep calls b (.emitted event) c)
    (hf : Follows (BatchStep calls) horizon c (f ()) later Interrupted) :
    Follows (BatchStep calls) horizon b (emit host event >>= f) later Interrupted := by
  exact emit_bind hemit (fun error => ⟨_, .refuse c error, refused_interrupted c error⟩) hf

theorem emit_attempt {c : Batch} {event : AgentEvent} {α : Type}
    {f : Except String Unit → Loop α} {later : Batch → α → Prop} {stopped : Batch → Stop → Prop}
    (hemit : BatchStep calls b (.emitted event) c)
    (hvalue : Follows (BatchStep calls) horizon c (f (.ok ())) later stopped)
    (herror : ∀ error, Follows (BatchStep calls) horizon
      { c with refusals := c.refusals ++ [error] } (f (.error error)) later stopped) :
    Follows (BatchStep calls) horizon b (attempt (emit host event) >>= f) later stopped := by
  have h : Follows (BatchStep calls) horizon b (emit host event) (fun t _ => t = c)
      (fun t reason => ∃ error, t = { c with refusals := c.refusals ++ [error] } ∧
        reason = .raised error) :=
    emit_follows hemit rfl (fun error => ⟨_, .refuse c error, error, rfl, rfl⟩)
  refine h.attemptBind ?_ ?_ ?_
  · rintro t ⟨error, -, hcut⟩
    exact nomatch hcut
  · rintro t ⟨⟩ rfl
    exact hvalue
  · rintro t error ⟨error', rfl, heq⟩
    obtain rfl := Stop.raised.inj heq
    exact herror error

variable (context : AgentContext) (toolCall : ToolCall) (finalized : FinalizedToolCallOutcome)

theorem prepareToolCall_follows (toolCall : ToolCall) (b : Batch) (stopped : Batch → Stop → Prop) :
    Follows (BatchStep calls) horizon b (prepareToolCall host context toolCall)
      (fun t _ => t = b) stopped := by
  unfold prepareToolCall
  split
  · exact Follows.pure rfl
  · refine Follows.askBind fun tick _ => ?_
    split
    · exact Follows.pure rfl
    · refine Follows.askBind fun tick _ => ?_
      split
      · exact Follows.pure rfl
      · refine Follows.askBind fun tick _ => ?_
        split
        · exact Follows.pure rfl
        · split
          · exact Follows.pure rfl
          · refine Follows.askBind fun tick _ => ?_
            split
            · exact Follows.pure rfl
            · exact Follows.pure rfl

theorem finalizeExecutedToolCall_follows (executed : ExecutedToolCallOutcome) (b : Batch)
    (stopped : Batch → Stop → Prop) :
    Follows (BatchStep calls) horizon b (finalizeExecutedToolCall host toolCall executed)
      (fun t finalized => t = b ∧ finalized.toolCall = toolCall) stopped := by
  unfold finalizeExecutedToolCall
  refine Follows.askBind fun tick _ => ?_
  split
  · exact Follows.pure ⟨rfl, rfl⟩
  · exact Follows.pure ⟨rfl, rfl⟩
  · exact Follows.pure ⟨rfl, rfl⟩

/-- Only an update that the sink refused is raised, and only when the tool raised too. -/
theorem executedOutcome_error {result : Except String AgentToolResult} {forwarder : Option String}
    {durationMs : Int} {error : String}
    (h : executedOutcome result forwarder durationMs = .error error) : forwarder = some error := by
  unfold executedOutcome at h
  split at h
  · exact nomatch h
  · exact nomatch h
  · exact nomatch h
  · exact congrArg some (Except.error.inj h)

theorem settleToolCall_follows (result : Except String AgentToolResult)
    (forwarder : Option String) (b : Batch) :
    Follows (BatchStep calls) horizon b (settleToolCall host toolCall result forwarder)
      (fun t finalized => t = b ∧ finalized.toolCall = toolCall)
      (fun t reason => t = b ∧ ∃ error, forwarder = some error ∧ reason = .raised error) := by
  unfold settleToolCall
  refine Follows.askBind fun tick _ => ?_
  split
  · rename_i error herror
    exact Follows.stop ⟨rfl, error, executedOutcome_error herror, rfl⟩
  · exact finalizeExecutedToolCall_follows host toolCall _ b _

/-- The batch is as before, but for refusals that were caught. -/
def OnlyRefused (b t : Batch) : Prop := ∃ more, t = { b with refusals := b.refusals ++ more }

theorem forwardUpdates_follows (updates : List AgentToolResult) (b : Batch)
    (hlive : toolCall ∈ b.live) (stopped : Batch → Stop → Prop) :
    Follows (BatchStep calls) horizon b (forwardUpdates host toolCall updates)
      (fun t forwarder => OnlyRefused b t ∧ ∀ error, forwarder = some error → error ∈ t.refusals)
      stopped := by
  induction updates with
  | nil =>
    refine Follows.pure ⟨⟨[], by rw [append_nil]⟩, ?_⟩
    intro error h
    exact nomatch h
  | cons update rest ih =>
    unfold forwardUpdates
    refine emit_attempt host (.update b toolCall update hlive) ih ?_
    intro error
    refine Follows.pure ⟨⟨[error], rfl⟩, ?_⟩
    intro other h
    cases h
    exact mem_append_right _ (mem_singleton_self error)

theorem runSequentialCall_follows (toolCall : ToolCall) (b : Batch) (hlive : toolCall ∈ b.live) :
    Follows (BatchStep calls) horizon b (runSequentialCall host context toolCall)
      (fun t finalized => OnlyRefused b t ∧ finalized.toolCall = toolCall) Interrupted := by
  unfold runSequentialCall
  refine (prepareToolCall_follows host context toolCall b Interrupted).bind ?_
  rintro t preparation rfl
  split
  · exact Follows.pure ⟨⟨[], by rw [append_nil]⟩, rfl⟩
  · refine Follows.askBind fun tick _ => ?_
    refine (forwardUpdates_follows host toolCall _ t hlive Interrupted).bind ?_
    rintro u forwarder ⟨hrefused, hforwarder⟩
    refine (settleToolCall_follows host toolCall _ forwarder u).mono ?_ ?_
    · rintro v finalized ⟨rfl, hcall⟩
      exact ⟨hrefused, hcall⟩
    · rintro v reason ⟨rfl, error, herror, rfl⟩
      exact ⟨error, hforwarder error herror, rfl⟩

theorem emitToolResult_follows (rest : List ToolCall) (b : Batch) (hlive : b.live = 0)
    (hopened : b.opened = none)
    (hnext : b.started.drop b.shown.length = finalized.toolCall :: rest) :
    Follows (BatchStep calls) horizon b (emitToolResult host finalized)
      (fun t message => t = { b with shown := b.shown ++ [message] }) Interrupted := by
  unfold emitToolResult
  refine Follows.askBind fun tick _ => ?_
  refine emitMessage_bind (.show b finalized.toolCall rest _ hlive hopened hnext rfl rfl)
    (.shown _ _ rfl) ?_ (Follows.pure ?_)
  · intro v _ error
    exact ⟨_, .refuse v error, refused_interrupted v error⟩
  · rw [← hopened]

theorem answerCall_follows {α : Type} (b : Batch)
    {f : ToolResultMessage → Loop α} {later : Batch → α → Prop}
    (hlive : b.live = {finalized.toolCall}) (hopened : b.opened = none)
    (hnext : b.started.drop b.shown.length = [finalized.toolCall])
    (hf : ∀ message, Follows (BatchStep calls) horizon
      { b with live := 0, shown := b.shown ++ [message] } (f message) later Interrupted) :
    Follows (BatchStep calls) horizon b
      (emitToolExecutionEnd host finalized >>= fun _ => emitToolResult host finalized >>= f) later
      Interrupted := by
  have hmem : finalized.toolCall ∈ b.live := by
    rw [hlive]
    exact Multiset.mem_singleton_self _
  have hnone : b.live.erase finalized.toolCall = 0 := by
    rw [hlive]
    exact Multiset.erase_singleton _
  have hend : BatchStep calls b (.emitted (.toolExecutionEnd finalized.toolCall.id
      finalized.toolCall.name finalized.result finalized.isError finalized.durationMs))
      { b with live := 0 } := by
    rw [← hnone]
    exact .finish b finalized.toolCall finalized.result finalized.isError finalized.durationMs hmem
  unfold emitToolExecutionEnd
  refine batch_emit_bind host hend ?_
  refine (emitToolResult_follows host finalized [] { b with live := 0 } rfl hopened hnext).bind ?_
  rintro t message rfl
  exact hf message

theorem Settled.next (h : Settled b) (call : ToolCall) (message : ToolResultMessage)
    (refusals : List String) :
    Settled ⟨b.started ++ [call], 0, b.shown ++ [message], b.opened, refusals⟩ where
  live := rfl
  opened := h.opened
  shown := by simp [h.shown]

theorem Settled.drop_started (h : Settled b) (rest : List ToolCall) :
    (b.started ++ rest).drop b.shown.length = rest := by
  rw [h.shown, drop_left]

theorem failTruncatedCalls_follows (rest : List ToolCall) (b : Batch) (hb : Settled b)
    (hcalls : calls = b.started ++ rest) :
    Follows (BatchStep calls) horizon b (failTruncatedCalls host rest)
      (fun t messages => Settled t ∧ t.started = calls ∧ t.shown = b.shown ++ messages)
      Interrupted := by
  induction rest generalizing b with
  | nil => exact Follows.pure ⟨hb, by rw [hcalls, append_nil], by rw [append_nil]⟩
  | cons call rest ih =>
    unfold failTruncatedCalls emitToolExecutionStart
    refine batch_emit_bind host (.start b call rest hb.opened hcalls) ?_
    refine answerCall_follows host (truncatedOutcome call) _ ?_ hb.opened
      (hb.drop_started [call]) ?_
    · simp [hb.live, truncatedOutcome]
    intro message
    refine (ih _ (hb.next call message _) (by simp [hcalls])).bind ?_
    rintro t messages ⟨hsettled, hstarted, hshown⟩
    exact Follows.pure ⟨hsettled, hstarted, by simp [hshown]⟩

theorem runSequentialCalls_follows (rest : List ToolCall) (b : Batch) (hb : Settled b)
    (hcalls : calls = b.started ++ rest) :
    Follows (BatchStep calls) horizon b (runSequentialCalls host context rest)
      (fun t pairs => Complete calls (host.cancelled horizon) t ∧
        t.shown = b.shown ++ pairs.map Prod.snd) Interrupted := by
  induction rest generalizing b with
  | nil =>
    refine Follows.pure ⟨⟨hb, .inl ?_⟩, ?_⟩
    · rw [hcalls, append_nil]
    · rw [map_nil, append_nil]
  | cons call rest ih =>
    unfold runSequentialCalls emitToolExecutionStart
    refine batch_emit_bind host (.start b call rest hb.opened hcalls) ?_
    refine (runSequentialCall_follows host context call _ (Multiset.mem_cons_self call _)).bind ?_
    rintro t finalized ⟨⟨more, rfl⟩, rfl⟩
    refine answerCall_follows host finalized _ ?_ hb.opened
      (hb.drop_started [finalized.toolCall]) ?_
    · simp [hb.live]
    intro message
    have hnext := hb.next finalized.toolCall message (b.refusals ++ more)
    refine Follows.askBind fun tick htick => ?_
    split
    · rename_i hcancelled
      have hlater := host.cancelled_mono tick horizon htick.le hcancelled
      exact Follows.pure ⟨⟨hnext, .inr hlater⟩, rfl⟩
    · refine (ih _ hnext (by simp [hcalls])).bind ?_
      rintro u others ⟨hcomplete, hshown⟩
      exact Follows.pure ⟨hcomplete, by simp [hshown]⟩

/-! The parallel mode. -/

def taskCall : ToolTask → ToolCall
  | .waiting toolCall _ | .running toolCall .. | .failed toolCall _ => toolCall
  | .finishing finalized | .done finalized => finalized.toolCall

/-- The refusal that a task remembers. -/
def taskError : ToolTask → Option String
  | .running _ _ forwarder _ => forwarder
  | .failed _ error => some error
  | _ => none

def liveCall (task : ToolTask) : Multiset ToolCall := if task.isLive then {taskCall task} else 0

def liveCalls (tasks : List ToolTask) : Multiset ToolCall := (tasks.map liveCall).sum

/-- The tasks stand for the started calls. A call without a live task that has not ended is one
that failed. -/
structure Tracks (b : Batch) (tasks : List ToolTask) : Prop where
  started : b.started = tasks.map taskCall
  live : ∃ lost, b.live = liveCalls tasks + lost ∧
    (lost ≠ 0 → ∃ task ∈ tasks, task.isFailed = true)
  refused : ∀ task ∈ tasks, ∀ error, taskError task = some error → error ∈ b.refusals

theorem isLive_not_failed (h : task.isLive = true) : task.isFailed = false := by
  cases task <;> first | rfl | exact nomatch h

/-- A live task took a step: its call is live until it ends, or the task fails. -/
structure Moved (b : Batch) (task : ToolTask) (other : Multiset ToolCall) (t : Batch)
    (next : ToolTask) : Prop where
  call : taskCall next = taskCall task
  remaining : next.remaining < task.remaining
  started : t.started = b.started
  shown : t.shown = b.shown
  opened : t.opened = b.opened
  live : ∃ lost, t.live = liveCall next + other + lost ∧ (lost ≠ 0 → next.isFailed = true)
  refusals : ∀ error ∈ b.refusals, error ∈ t.refusals
  refused : ∀ error, taskError next = some error → error ∈ t.refusals

theorem moved_of_same {next : ToolTask} {other : Multiset ToolCall}
    (hcall : b.live = taskCall task ::ₘ other) (hsame : taskCall next = taskCall task)
    (hlive : next.isLive = true) (hremaining : next.remaining < task.remaining)
    (hrefused : ∀ error, taskError next = some error → error ∈ b.refusals) :
    Moved b task other b next where
  call := hsame
  remaining := hremaining
  started := rfl
  shown := rfl
  opened := rfl
  live := ⟨0, by rw [hcall, liveCall, if_pos hlive, hsame, Multiset.add_zero]; rfl, nofun⟩
  refusals := fun _ h => h
  refused := hrefused

theorem stepTask_follows (task : ToolTask) (b : Batch) (other : Multiset ToolCall)
    (hlive : task.isLive = true) (hcall : b.live = taskCall task ::ₘ other)
    (hrefused : ∀ error, taskError task = some error → error ∈ b.refusals)
    (stopped : Batch → Stop → Prop) :
    Follows (BatchStep calls) horizon b (stepTask host task) (Moved b task other) stopped := by
  have hmem : taskCall task ∈ b.live := by
    rw [hcall]
    exact Multiset.mem_cons_self _ _
  cases task with
  | waiting toolCall toolRun =>
    refine Follows.askBind fun tick _ => ?_
    split
    · refine Follows.pure (moved_of_same hcall rfl rfl ?_ nofun)
      simp [ToolTask.remaining]
    · refine Follows.pure (moved_of_same hcall rfl rfl ?_ nofun)
      simp [ToolTask.remaining]
  | running toolCall updates forwarder result =>
    cases updates with
    | cons update rest =>
      refine emit_attempt host (.update b toolCall update hmem) ?_ ?_
      · refine Follows.pure (moved_of_same hcall rfl rfl ?_ hrefused)
        simp [ToolTask.remaining]
      · intro error
        refine Follows.pure ⟨rfl, by simp [ToolTask.remaining], rfl, rfl, rfl, ⟨0, ?_, nofun⟩,
          fun _ h => mem_append_left _ h, ?_⟩
        · rw [Multiset.add_zero]
          exact hcall
        · intro other hother
          cases hother
          exact mem_append_right _ (mem_singleton_self _)
    | nil =>
      refine (settleToolCall_follows host toolCall result forwarder b).attemptBind ?_ ?_ ?_
      · rintro t ⟨-, error, -, hcut⟩
        exact nomatch hcut
      · rintro t finalized ⟨rfl, rfl⟩
        refine Follows.pure (moved_of_same hcall rfl rfl ?_ nofun)
        simp [ToolTask.remaining]
      · rintro t error ⟨rfl, error', hforwarder, heq⟩
        obtain rfl := Stop.raised.inj heq
        refine Follows.pure ⟨rfl, by simp [ToolTask.remaining], rfl, rfl, rfl,
          ⟨{toolCall}, ?_, fun _ => rfl⟩, fun _ h => h, ?_⟩
        · rw [Multiset.add_comm]
          simpa [liveCall, ToolTask.isLive, taskCall] using hcall
        · intro other hother
          cases hother
          exact hrefused error hforwarder
  | finishing finalized =>
    have herase : b.live.erase finalized.toolCall = other := by
      rw [hcall]
      exact Multiset.erase_cons_head _ _
    have hend : BatchStep calls b (.emitted (.toolExecutionEnd finalized.toolCall.id
        finalized.toolCall.name finalized.result finalized.isError finalized.durationMs))
        { b with live := other } := by
      rw [← herase]
      exact .finish b finalized.toolCall finalized.result finalized.isError finalized.durationMs hmem
    refine emit_attempt host hend ?_ ?_
    · refine Follows.pure ⟨rfl, by simp [ToolTask.remaining], rfl, rfl, rfl, ⟨0, ?_, nofun⟩,
        fun _ h => h, nofun⟩
      simp [liveCall, ToolTask.isLive]
    · intro error
      refine Follows.pure ⟨rfl, by simp [ToolTask.remaining], rfl, rfl, rfl, ⟨0, ?_, nofun⟩,
        fun _ h => mem_append_left _ h, ?_⟩
      · simp [liveCall, ToolTask.isLive]
      · intro other hother
        cases hother
        exact mem_append_right _ (mem_singleton_self _)
  | done | failed => exact nomatch hlive

theorem liveCalls_append (before after : List ToolTask) :
    liveCalls (before ++ after) = liveCalls before + liveCalls after := by
  simp [liveCalls]

theorem liveCalls_cons (task : ToolTask) (rest : List ToolTask) :
    liveCalls (task :: rest) = liveCall task + liveCalls rest := by
  simp [liveCalls]

theorem liveCalls_eq_zero (h : ∀ task ∈ tasks, task.isLive = false) : liveCalls tasks = 0 := by
  induction tasks with
  | nil => rfl
  | cons task rest ih =>
    rw [liveCalls_cons, ih (fun other hother => h other (mem_cons_of_mem _ hother)), liveCall,
      h task mem_cons_self]
    rfl

theorem Tracks.split {before after : List ToolTask} (h : Tracks b (before ++ task :: after))
    (hlive : task.isLive = true) :
    ∃ lost, b.live = taskCall task ::ₘ (liveCalls before + liveCalls after + lost) ∧
      (lost ≠ 0 → ∃ other ∈ before ++ after, other.isFailed = true) := by
  obtain ⟨lost, hcalls, hfailed⟩ := h.live
  refine ⟨lost, ?_, ?_⟩
  · rw [hcalls, liveCalls_append, liveCalls_cons, liveCall, if_pos hlive, ← Multiset.singleton_add]
    abel
  · intro hlost
    obtain ⟨other, hother, hfail⟩ := hfailed hlost
    refine ⟨other, ?_, hfail⟩
    rcases mem_append.mp hother with hbefore | hrest
    · exact mem_append_left _ hbefore
    · rcases mem_cons.mp hrest with rfl | hafter
      · rw [isLive_not_failed hlive] at hfail
        exact nomatch hfail
      · exact mem_append_right _ hafter

theorem Tracks.moved {t : Batch} {before after : List ToolTask} {next : ToolTask}
    {lost : Multiset ToolCall} (h : Tracks b (before ++ task :: after))
    (hlost : lost ≠ 0 → ∃ other ∈ before ++ after, other.isFailed = true)
    (hmoved : Moved b task (liveCalls before + liveCalls after + lost) t next) :
    Tracks t (before ++ next :: after) where
  started := by
    rw [hmoved.started, h.started, map_append, map_append, map_cons, map_cons, hmoved.call]
  live := by
    obtain ⟨more, hlive, hfailed⟩ := hmoved.live
    refine ⟨lost + more, ?_, ?_⟩
    · rw [hlive, liveCalls_append, liveCalls_cons]
      abel
    · intro hsum
      by_cases hmore : more = 0
      · rw [hmore, Multiset.add_zero] at hsum
        obtain ⟨other, hother, hfail⟩ := hlost hsum
        refine ⟨other, ?_, hfail⟩
        rcases mem_append.mp hother with hbefore | hafter
        · exact mem_append_left _ hbefore
        · exact mem_append_right _ (mem_cons_of_mem _ hafter)
      · exact ⟨next, mem_append_right _ mem_cons_self, hfailed hmore⟩
  refused := by
    intro other hother error herror
    rcases mem_append.mp hother with hbefore | hrest
    · exact hmoved.refusals error
        (h.refused other (mem_append_left _ hbefore) error herror)
    · rcases mem_cons.mp hrest with rfl | hafter
      · exact hmoved.refused error herror
      · exact hmoved.refusals error (h.refused other
          (mem_append_right _ (mem_cons_of_mem _ hafter)) error herror)

theorem mem_liveTasks {i : Nat} (h : i ∈ liveTasks tasks) :
    ∃ before task after, tasks = before ++ task :: after ∧ before.length = i ∧
      task.isLive = true := by
  unfold liveTasks at h
  rw [mem_filter, mem_range] at h
  obtain ⟨hlength, hlive⟩ := h
  rw [getElem?_eq_getElem hlength] at hlive
  refine ⟨tasks.take i, tasks[i], tasks.drop (i + 1), ?_, by simp [hlength.le], hlive⟩
  rw [cons_getElem_drop_succ, take_append_drop]

theorem liveTasks_eq_nil (h : liveTasks tasks = []) : ∀ task ∈ tasks, task.isLive = false := by
  intro task htask
  obtain ⟨i, hi, rfl⟩ := mem_iff_getElem.mp htask
  by_contra hlive
  have hmem : i ∈ liveTasks tasks := by
    unfold liveTasks
    rw [mem_filter, mem_range]
    refine ⟨hi, ?_⟩
    rw [getElem?_eq_getElem hi]
    simpa using hlive
  rw [h] at hmem
  exact not_mem_nil hmem

theorem not_live_of_remaining (h : task.remaining = 0) : task.isLive = false := by
  cases task <;> first | rfl | simp [ToolTask.remaining] at h

theorem collectTasks_follows (tasks : List ToolTask) (b : Batch)
    (hdone : ∀ task ∈ tasks, task.isLive = false)
    (hrefused : ∀ task ∈ tasks, ∀ error, taskError task = some error → error ∈ b.refusals) :
    Follows (BatchStep calls) horizon b (collectTasks tasks)
      (fun t finalizedCalls => t = b ∧ finalizedCalls.map FinalizedToolCallOutcome.toolCall =
        tasks.map taskCall ∧ ∀ task ∈ tasks, task.isFailed = false) Interrupted := by
  induction tasks with
  | nil => exact Follows.pure ⟨rfl, rfl, fun task htask => absurd htask not_mem_nil⟩
  | cons task rest ih =>
    have hlive := hdone task mem_cons_self
    cases task with
    | waiting | running | finishing => exact nomatch hlive
    | failed toolCall error =>
      exact Follows.stop ⟨error, hrefused _ mem_cons_self error rfl, rfl⟩
    | done finalized =>
      have hrest := ih (fun task h => hdone task (mem_cons_of_mem _ h))
        (fun task h => hrefused task (mem_cons_of_mem _ h))
      refine hrest.bind ?_
      rintro t others ⟨rfl, hcalls, hfailed⟩
      refine Follows.pure ⟨rfl, by simp [hcalls, taskCall], ?_⟩
      intro other hother
      rcases mem_cons.mp hother with rfl | hother
      · rfl
      · exact hfailed other hother

theorem collectTasks_ended (tasks : List ToolTask) (b : Batch) (h : Tracks b tasks)
    (hdone : ∀ task ∈ tasks, task.isLive = false) :
    Follows (BatchStep calls) horizon b (collectTasks tasks)
      (fun t finalizedCalls => t = b ∧ b.live = 0 ∧
        finalizedCalls.map FinalizedToolCallOutcome.toolCall = b.started) Interrupted := by
  refine (collectTasks_follows tasks b hdone h.refused).mono ?_ (fun _ _ h => h)
  rintro t finalizedCalls ⟨rfl, hcalls, hfailed⟩
  refine ⟨rfl, ?_, by rw [hcalls, h.started]⟩
  obtain ⟨lost, hlive, hlost⟩ := h.live
  have hzero : lost = 0 := by
    by_contra hne
    obtain ⟨task, htask, hfail⟩ := hlost hne
    rw [hfailed task htask] at hfail
    exact nomatch hfail
  rw [hlive, hzero, liveCalls_eq_zero hdone, add_zero]

theorem runTasks_follows (fuel : Nat) (tasks : List ToolTask) (b : Batch) (h : Tracks b tasks)
    (hfuel : (tasks.map ToolTask.remaining).sum ≤ fuel) :
    Follows (BatchStep calls) horizon b (runTasks host fuel tasks)
      (fun t finalizedCalls => t.live = 0 ∧ t.started = b.started ∧ t.shown = b.shown ∧
        t.opened = b.opened ∧
        finalizedCalls.map FinalizedToolCallOutcome.toolCall = b.started) Interrupted := by
  have hended : ∀ b tasks, Tracks b tasks → (∀ task ∈ tasks, task.isLive = false) →
      Follows (BatchStep calls) horizon b (collectTasks tasks)
        (fun t finalizedCalls => t.live = 0 ∧ t.started = b.started ∧ t.shown = b.shown ∧
          t.opened = b.opened ∧
          finalizedCalls.map FinalizedToolCallOutcome.toolCall = b.started) Interrupted := by
    intro b tasks h hdone
    refine (collectTasks_ended tasks b h hdone).mono ?_ (fun _ _ h => h)
    rintro t finalizedCalls ⟨rfl, hlive, hcalls⟩
    exact ⟨hlive, rfl, rfl, rfl, hcalls⟩
  induction fuel generalizing tasks b with
  | zero =>
    refine hended b tasks h fun task htask => not_live_of_remaining ?_
    have hsum : (tasks.map ToolTask.remaining).sum = 0 := by omega
    exact List.sum_eq_zero_iff_forall_eq_nat.mp hsum _ (mem_map_of_mem htask)
  | succ fuel ih =>
    refine Follows.askBind fun tick _ => ?_
    split
    · -- The loop goes on without the live tasks, and stops at the one that failed.
      rename_i habandons
      rw [Bool.and_eq_true] at habandons
      obtain ⟨failed, hfailed, hfail⟩ := any_eq_true.mp habandons.1
      have hmem : ∀ task ∈ tasks.filter (fun task => !task.isLive),
          task ∈ tasks ∧ task.isLive = false := by
        intro task htask
        obtain ⟨htask, hlive⟩ := mem_filter.mp htask
        exact ⟨htask, by simpa using hlive⟩
      refine (collectTasks_follows _ b (fun task htask => (hmem task htask).2)
        (fun task htask => h.refused task (hmem task htask).1)).mono ?_ (fun _ _ h => h)
      rintro t finalizedCalls ⟨-, -, hnone⟩
      have hlive : failed.isLive = false := by
        by_contra hlive
        rw [isLive_not_failed (by simpa using hlive)] at hfail
        exact nomatch hfail
      have hkept := hnone failed (mem_filter.mpr ⟨hfailed, by simp [hlive]⟩)
      rw [hfail] at hkept
      exact nomatch hkept
    · refine Follows.askBind fun tick _ => ?_
      split
      · rename_i hchoice
        refine hended b tasks h (liveTasks_eq_nil ?_)
        by_contra hne
        have hpos := length_pos_of_ne_nil hne
        have hbound := Nat.mod_lt (host.schedule tick) hpos
        rw [List.getElem?_eq_none_iff] at hchoice
        omega
      · rename_i i hchoice
        obtain ⟨before, task, after, rfl, rfl, hlive⟩ :=
          mem_liveTasks (mem_of_getElem? hchoice)
        obtain ⟨lost, hcall, hlost⟩ := h.split hlive
        rw [getElem?_append_right le_rfl, Nat.sub_self, getElem?_cons_zero]
        refine (stepTask_follows host task b _ hlive hcall
          (h.refused task (by simp)) Interrupted).bind ?_
        intro t next hmoved
        rw [set_append_right _ _ le_rfl, Nat.sub_self, set_cons_zero]
        have hremaining := hmoved.remaining
        have hless : ((before ++ next :: after).map ToolTask.remaining).sum ≤ fuel := by
          simp only [map_append, map_cons, sum_append_nat, sum_cons]
            at hfuel ⊢
          omega
        refine (ih _ t (h.moved hlost hmoved) hless).mono ?_ (fun _ _ h => h)
        rintro u finalizedCalls ⟨hnone, hstarted, hshown, hopened, hcalls⟩
        exact ⟨hnone, hstarted.trans hmoved.started, hshown.trans hmoved.shown,
          hopened.trans hmoved.opened, hcalls.trans hmoved.started⟩

theorem startParallelCalls_follows (rest : List ToolCall) (b : Batch) (hopened : b.opened = none)
    (hcalls : calls = b.started ++ rest) :
    Follows (BatchStep calls) horizon b (startParallelCalls host context rest)
      (fun t tasks => t.started = b.started ++ tasks.map taskCall ∧
        t.live = b.live + liveCalls tasks ∧ t.shown = b.shown ∧ t.opened = none ∧
        (∀ task ∈ tasks, taskError task = none) ∧
        (t.started = calls ∨ host.cancelled horizon = true)) Interrupted := by
  induction rest generalizing b with
  | nil =>
    refine Follows.pure ⟨by simp, by simp [liveCalls], rfl, hopened, by simp, .inl ?_⟩
    rw [hcalls, append_nil]
  | cons call rest ih =>
    unfold startParallelCalls emitToolExecutionStart
    refine batch_emit_bind host (.start b call rest hopened hcalls) ?_
    refine Follows.bind (?_ : Follows (BatchStep calls) horizon
        ⟨b.started ++ [call], call ::ₘ b.live, b.shown, b.opened, b.refusals⟩ _
        (fun t task => taskCall task = call ∧ taskError task = none ∧
          t = ⟨b.started ++ [call], b.live + liveCall task, b.shown, b.opened, b.refusals⟩)
        Interrupted) ?_
    · refine (prepareToolCall_follows host context call _ Interrupted).bind ?_
      rintro t preparation rfl
      split
      · have herase : (call ::ₘ b.live).erase call = b.live + 0 := by
          rw [add_zero]
          exact Multiset.erase_cons_head _ _
        refine batch_emit_bind host (.finish _ call _ _ none (Multiset.mem_cons_self call _)) ?_
        refine Follows.pure ⟨rfl, rfl, ?_⟩
        rw [herase]
        rfl
      · refine Follows.askBind fun tick _ => Follows.pure ⟨rfl, rfl, ?_⟩
        rw [← Multiset.singleton_add, add_comm]
        rfl
    · rintro t task ⟨rfl, herror, rfl⟩
      refine Follows.askBind fun tick htick => ?_
      split
      · rename_i hcancelled
        have hlater := host.cancelled_mono tick horizon htick.le hcancelled
        refine Follows.pure ⟨by simp, by simp [liveCalls], rfl, hopened, by simpa using herror,
          .inr hlater⟩
      · refine (ih _ ?_ ?_).bind ?_
        · exact hopened
        · rw [hcalls, append_assoc]
          rfl
        rintro u tasks ⟨hstarted, hlive, hshown, hnone, herrors, hall⟩
        refine Follows.pure ⟨by simp [hstarted], ?_, hshown, hnone, ?_, hall⟩
        · rw [hlive, liveCalls_cons, add_assoc]
        · intro other hother
          rcases mem_cons.mp hother with rfl | hother
          · exact herror
          · exact herrors other hother

theorem emitToolResults_follows (finalizedCalls : List FinalizedToolCallOutcome) (b : Batch)
    (hlive : b.live = 0) (hopened : b.opened = none) (hle : b.shown.length ≤ b.started.length)
    (hnext : b.started.drop b.shown.length = finalizedCalls.map FinalizedToolCallOutcome.toolCall) :
    Follows (BatchStep calls) horizon b (emitToolResults host finalizedCalls)
      (fun t messages => Settled t ∧ t.started = b.started ∧ t.shown = b.shown ++ messages)
      Interrupted := by
  induction finalizedCalls generalizing b with
  | nil =>
    refine Follows.pure ⟨⟨hlive, hopened, ?_⟩, rfl, by rw [append_nil]⟩
    exact hle.antisymm (drop_eq_nil_iff.mp hnext)
  | cons finalized rest ih =>
    unfold emitToolResults
    refine (emitToolResult_follows host finalized _ b hlive hopened hnext).bind ?_
    rintro t message rfl
    have hlength := congrArg length hnext
    rw [length_drop, map_cons, length_cons] at hlength
    refine (ih _ ?_ ?_ ?_ ?_).bind ?_
    · exact hlive
    · exact hopened
    · change (b.shown ++ [message]).length ≤ b.started.length
      rw [length_append, length_singleton]
      omega
    · rw [length_append, ← drop_drop, hnext]
      rfl
    rintro u messages ⟨hsettled, hstarted, hshown⟩
    refine Follows.pure ⟨hsettled, hstarted, ?_⟩
    rw [hshown, append_assoc]
    rfl

theorem executeToolCallsParallel_follows :
    Follows (BatchStep calls) horizon {} (executeToolCallsParallel host context calls)
      (fun t batch => Complete calls (host.cancelled horizon) t ∧ t.shown = batch.messages)
      Interrupted := by
  unfold executeToolCallsParallel
  refine (startParallelCalls_follows host context calls {} rfl rfl).bind ?_
  rintro t tasks ⟨hstarted, hlive, hshown, hopened, herrors, hall⟩
  have htracks : Tracks t tasks := by
    refine ⟨hstarted, ⟨0, by simpa using hlive, nofun⟩, ?_⟩
    intro task htask error herror
    rw [herrors task htask] at herror
    exact nomatch herror
  refine (runTasks_follows host _ tasks t htracks le_rfl).bind ?_
  rintro u finalizedCalls ⟨hnone, hstarted', hshown', hopened', hcalls⟩
  have hnext : u.started.drop u.shown.length =
      finalizedCalls.map FinalizedToolCallOutcome.toolCall := by
    rw [hcalls, hstarted', hshown', hshown]
    rfl
  refine (emitToolResults_follows host finalizedCalls u hnone (hopened'.trans hopened) ?_ hnext).bind ?_
  · rw [hshown', hshown]
    exact Nat.zero_le _
  rintro v messages ⟨hsettled, hstarted'', hshown''⟩
  refine Follows.pure ⟨⟨hsettled, ?_⟩, ?_⟩
  · rw [hstarted'', hstarted']
    exact hall
  · rw [hshown'', hshown', hshown]
    rfl

theorem executeToolCallsSequential_follows :
    Follows (BatchStep calls) horizon {} (executeToolCallsSequential host context calls)
      (fun t batch => Complete calls (host.cancelled horizon) t ∧ t.shown = batch.messages)
      Interrupted := by
  unfold executeToolCallsSequential
  refine (runSequentialCalls_follows host context calls {} ⟨rfl, rfl, rfl⟩ rfl).bind ?_
  rintro t pairs ⟨hcomplete, hshown⟩
  exact Follows.pure ⟨hcomplete, hshown⟩

theorem failToolCallsFromTruncatedMessage_follows :
    Follows (BatchStep calls) horizon {} (failToolCallsFromTruncatedMessage host calls)
      (fun t batch => Complete calls (host.cancelled horizon) t ∧ t.shown = batch.messages)
      Interrupted := by
  unfold failToolCallsFromTruncatedMessage
  refine (failTruncatedCalls_follows host calls {} ⟨rfl, rfl, rfl⟩ rfl).bind ?_
  rintro t messages ⟨hsettled, hstarted, hshown⟩
  exact Follows.pure ⟨⟨hsettled, .inl hstarted⟩, hshown⟩

theorem executeToolCalls_follows (message : AssistantMessage) (config : AgentLoopConfig) :
    Follows (BatchStep (toolCalls message)) horizon {}
      (executeToolCalls host context message config)
      (fun t batch => Complete (toolCalls message) (host.cancelled horizon) t ∧
        t.shown = batch.messages) Interrupted := by
  unfold executeToolCalls
  split
  · exact executeToolCallsSequential_follows host context
  · exact executeToolCallsParallel_follows host context

end Specs

end Pidrei.ToolBatch
