import Mathlib.Data.List.TakeWhile
import Pidrei.AgentRun

/-!
Every tool call of a response gets one result, in source order, before the next
response, and every started tool execution ends. The calls of a response are
answered in one batch, which the sink alone can break off: the run then ends with
its exception.
-/
namespace Pidrei.ToolPairing

open Values Messages AgentTypes AgentLoop ToolBatch LoopProtocol AgentRun Traced List

def callKey (call : ToolCall) : String × String := (call.id, call.name)

def answerKey (result : ToolResultMessage) : String × String := (result.toolCallId, result.toolName)

def startKey : Action → Option (String × String)
  | .emitted (.toolExecutionStart toolCallId toolName _) => some (toolCallId, toolName)
  | _ => none

def endKey : Action → Option (String × String)
  | .emitted (.toolExecutionEnd toolCallId toolName ..) => some (toolCallId, toolName)
  | _ => none

def resultKey : Action → Option (String × String)
  | .resulted result => some (answerKey result)
  | _ => none

def isResponse : Action → Bool
  | .responded _ => true
  | _ => false

def segment (actions : List Action) : List Action := actions.takeWhile (fun a => !isResponse a)

/-- Nothing starts, ends or answers a tool call. -/
def Quiet (action : Action) : Prop :=
  startKey action = none ∧ endKey action = none ∧ resultKey action = none

/-- The actions of a batch: tool events, the events of results and what the sink refuses, and
the results that are added. -/
def InBatch : Action → Prop
  | .emitted (.toolExecutionStart ..) | .emitted (.toolExecutionUpdate ..)
  | .emitted (.toolExecutionEnd ..) | .emitted (.messageStart (.toolResult _))
  | .emitted (.messageEnd (.toolResult _)) | .refused _ | .resulted _ => True
  | _ => False

/-- What a batch has done since another one, and what was added of its results. -/
structure Tally (b c : Batch) (before after : List ToolResultMessage) (actions : List Action) :
    Prop where
  starts : c.started.map callKey = b.started.map callKey ++ actions.filterMap startKey
  ends : c.live.map callKey + ↑(actions.filterMap endKey) =
    b.live.map callKey + (↑(actions.filterMap startKey) : Multiset (String × String))
  results : after.map answerKey = before.map answerKey ++ actions.filterMap resultKey
  refusals : ∀ error ∈ c.refusals, error ∈ b.refusals ∨ .refused error ∈ actions
  inBatch : ∀ action ∈ actions, InBatch action

theorem Tally.refl (b : Batch) (added : List ToolResultMessage) : Tally b b added added [] where
  starts := by simp
  ends := by simp
  results := by simp
  refusals := fun _ h => .inl h
  inBatch := by simp

variable {b c : Batch} {action : Action} {calls : List ToolCall}

theorem Tally.trans {d : Batch} {before middle after : List ToolResultMessage}
    {xs ys : List Action} (h : Tally b c before middle xs) (hmore : Tally c d middle after ys) :
    Tally b d before after (xs ++ ys) where
  starts := by rw [hmore.starts, h.starts, filterMap_append, append_assoc]
  ends := by
    have hfirst := h.ends
    have hnext := hmore.ends
    rw [filterMap_append, filterMap_append, ← Multiset.coe_add, ← Multiset.coe_add]
    calc
      d.live.map callKey + (↑(xs.filterMap endKey) + ↑(ys.filterMap endKey))
          = (d.live.map callKey + ↑(ys.filterMap endKey)) + ↑(xs.filterMap endKey) := by abel
      _ = (c.live.map callKey + ↑(xs.filterMap endKey)) + ↑(ys.filterMap startKey) := by
        rw [hnext]
        abel
      _ = _ := by
        rw [hfirst]
        abel
  results := by rw [hmore.results, h.results, filterMap_append, append_assoc]
  refusals := by
    intro error herror
    rcases hmore.refusals error herror with hold | hnew
    · rcases h.refusals error hold with holder | hfirst
      · exact .inl holder
      · exact .inr (mem_append_left _ hfirst)
    · exact .inr (mem_append_right _ hnew)
  inBatch := by
    intro action haction
    rcases mem_append.mp haction with hfirst | hlater
    · exact h.inBatch action hfirst
    · exact hmore.inBatch action hlater

theorem tally_quiet (added : List ToolResultMessage) (hstarted : c.started = b.started)
    (hlive : c.live = b.live) (hquiet : Quiet action) (hinBatch : InBatch action)
    (hrefusals : ∀ error ∈ c.refusals, error ∈ b.refusals ∨ .refused error ∈ [action]) :
    Tally b c added added [action] where
  starts := by simp [hstarted, hquiet.1]
  ends := by simp [hlive, hquiet.1, hquiet.2.1]
  results := by simp [hquiet.2.2]
  refusals := hrefusals
  inBatch := by simpa using hinBatch

theorem tally_batchStep (h : BatchStep calls b action c) : Tally b c [] [] [action] := by
  cases h with
  | start call rest hopened hnext =>
    refine ⟨by simp [startKey, callKey], ?_, by simp [resultKey], fun _ h => .inl h, ?_⟩
    · simp [startKey, endKey, callKey, ← Multiset.singleton_add, add_comm]
    · simp [InBatch]
  | update | «show» | shown =>
    exact tally_quiet [] rfl rfl ⟨rfl, rfl, rfl⟩ trivial fun _ h => .inl h
  | finish call result isError durationMs hlive =>
    refine ⟨by simp [startKey], ?_, by simp [resultKey], fun _ h => .inl h, by simp [InBatch]⟩
    have hcons := congrArg (Multiset.map callKey) (Multiset.cons_erase hlive)
    rw [Multiset.map_cons, ← Multiset.singleton_add, add_comm] at hcons
    exact hcons.trans (add_zero _).symm
  | refuse error =>
    refine tally_quiet [] rfl rfl ⟨rfl, rfl, rfl⟩ trivial ?_
    intro other hother
    rcases mem_append.mp hother with hold | hnew
    · exact .inl hold
    · rw [mem_singleton.mp hnew]
      exact .inr (mem_singleton_self _)

/-- Starting in source order, and showing the results of started calls in their order. -/
structure Sound (calls : List ToolCall) (b : Batch) : Prop where
  started : b.started <+: calls
  shown : b.shown.map answerKey <+: b.started.map callKey
  opened : ∀ result, b.opened = some result →
    ∃ rest, b.started.map callKey = b.shown.map answerKey ++ answerKey result :: rest

theorem sound_start (calls : List ToolCall) : Sound calls {} where
  started := nil_prefix
  shown := nil_prefix
  opened := by
    intro result h
    simp at h

theorem Sound.next (h : Sound calls b) (hstep : BatchStep calls b action c) : Sound calls c := by
  cases hstep with
  | start call rest hopened hnext =>
    refine ⟨⟨rest, by simp [hnext]⟩, ?_, ?_⟩
    · rw [map_append]
      exact h.shown.trans (prefix_append _ _)
    · intro result hresult
      rw [hopened] at hresult
      simp at hresult
  | update call partialResult hlive => exact h
  | finish | refuse => exact ⟨h.started, h.shown, h.opened⟩
  | «show» call rest result hlive hopened hnext hid hname =>
    refine ⟨h.started, h.shown, ?_⟩
    intro other hother
    cases hother
    obtain ⟨tail, htail⟩ := h.shown
    have hdrop := congrArg (drop b.shown.length) htail
    rw [← map_drop, hnext, drop_left' (by simp)] at hdrop
    refine ⟨rest.map callKey, ?_⟩
    rw [← htail, hdrop]
    simp [callKey, answerKey, hid, hname]
  | shown result hopened =>
    obtain ⟨rest, hrest⟩ := h.opened result hopened
    refine ⟨h.started, ⟨rest, by simp [hrest]⟩, ?_⟩
    intro other hother
    simp at hother

section Runs

variable {host : Host} {horizon : Nat} {q : Position} {message : AssistantMessage}
  {added : List ToolResultMessage} {new : List Message} {actions : List Action} {p : Position}

theorem calling_step (h : Step host horizon ⟨.calling message b added, new⟩ action q)
    (hsound : Sound (toolCalls message) b) :
    (∃ c later more, q = ⟨.calling message c later, more⟩ ∧ Sound (toolCalls message) c ∧
      Tally b c added later [action]) ∨
    (action = .emitted (.turnEnd message b.shown) ∧ added = b.shown ∧ q = ⟨.closed, new⟩ ∧
      Complete (toolCalls message) (host.cancelled horizon) b) := by
  cases h with
  | batch _ _ next _ _ hstep =>
    exact .inl ⟨next, [], new, rfl, hsound.next hstep, tally_batchStep hstep⟩
  | result _ _ _ rest result _ hcomplete hshown =>
    refine .inl ⟨b, added ++ [result], _, rfl, hsound, ?_⟩
    exact ⟨by simp [startKey], rfl, by simp [resultKey], fun _ h => .inl h, by simp [InBatch]⟩
  | close _ _ _ hcomplete => exact .inr ⟨rfl, rfl, rfl, hcomplete⟩
  | refuse _ _ _ hstage => exact Bool.noConfusion hstage

theorem calling_run (h : Steps (Step host horizon) ⟨.calling message b added, new⟩ actions q)
    (hsound : Sound (toolCalls message) b) :
    (∃ c later more, q = ⟨.calling message c later, more⟩ ∧ Sound (toolCalls message) c ∧
      Tally b c added later actions) ∨
    (∃ batch after c more, actions = batch ++ .emitted (.turnEnd message c.shown) :: after ∧
      Sound (toolCalls message) c ∧
      Complete (toolCalls message) (host.cancelled horizon) c ∧ Tally b c added c.shown batch ∧
      Steps (Step host horizon) ⟨.closed, more⟩ after q) := by
  induction actions generalizing b added new with
  | nil =>
    cases h
    exact .inl ⟨b, added, new, rfl, hsound, Tally.refl b added⟩
  | cons action rest ih =>
    cases h with
    | cons first more =>
      rcases calling_step first hsound with
        ⟨c, later, new', rfl, hnext, htally⟩ | ⟨rfl, rfl, rfl, hcomplete⟩
      · rcases ih more hnext with
          ⟨d, last, new'', rfl, hlast, htail⟩ | ⟨batch, after, d, new'', rfl, hlast, hc, htail, hrun⟩
        · exact .inl ⟨d, last, new'', rfl, hlast, htally.trans htail⟩
        · exact .inr ⟨action :: batch, after, d, new'', rfl, hlast, hc, htally.trans htail, hrun⟩
      · exact .inr ⟨[], rest, b, new, rfl, hsound, hcomplete, Tally.refl b b.shown, more⟩

theorem quiet_step (h : Step host horizon p action q) (hp : p.stage.isCalling = false)
    (haction : isResponse action = false) : Quiet action ∧ q.stage.isCalling = false := by
  cases h with
  | batch | result | close => exact Bool.noConfusion hp
  | respond | fail => exact Bool.noConfusion haction
  | refuse _ _ _ hstage => exact ⟨⟨rfl, rfl, rfl⟩, hstage⟩
  | _ => exact ⟨⟨rfl, rfl, rfl⟩, rfl⟩

theorem quiet_run (h : Steps (Step host horizon) p actions q) (hp : p.stage.isCalling = false)
    (hactions : ∀ action ∈ actions, isResponse action = false) :
    ∀ action ∈ actions, Quiet action := by
  induction h with
  | nil => simp
  | cons first _ ih =>
    obtain ⟨hquiet, hq⟩ := quiet_step first hp (hactions _ mem_cons_self)
    intro action haction
    rcases mem_cons.mp haction with rfl | hrest
    · exact hquiet
    · exact ih hq (fun other hother => hactions other (mem_cons_of_mem _ hother)) action hrest

end Runs

/-- The calls of a response are answered: their results are added in source order, all of them
unless the run is cancelled, and each started execution ends after it started. -/
structure Answered (calls : List ToolCall) (cancelled : Bool) (batch : List Action) : Prop where
  results : batch.filterMap resultKey <+: calls.map callKey
  all_results : cancelled = false → batch.filterMap resultKey = calls.map callKey
  starts : batch.filterMap startKey = batch.filterMap resultKey
  ends : (batch.filterMap endKey).Perm (batch.filterMap startKey)
  ends_after_starts : ∀ front, front <+: batch →
    (front.filterMap endKey).Subperm (front.filterMap startKey)
  inBatch : ∀ action ∈ batch, InBatch action

/-- The actions up to the next response are an answered batch and then nothing about tool
calls. -/
def Paired (calls : List ToolCall) (cancelled : Bool) (actions : List Action) : Prop :=
  ∃ batch after, actions = batch ++ after ∧ Answered calls cancelled batch ∧
    ∀ action ∈ after, Quiet action

/-- The sink raised while the calls were answered: no result is added and no response follows. -/
structure BrokenOff (calls : List ToolCall) (error : String) (rest : List Action) : Prop where
  refused : .refused error ∈ rest
  starts : rest.filterMap startKey <+: calls.map callKey
  ends : (rest.filterMap endKey).Subperm (rest.filterMap startKey)
  no_results : rest.filterMap resultKey = []
  inBatch : ∀ action ∈ rest, InBatch action

variable {actions : List Action}

theorem Tally.subperm {later : List ToolResultMessage} (h : Tally {} c [] later actions) :
    (actions.filterMap endKey).Subperm (actions.filterMap startKey) := by
  have hends := h.ends
  rw [Multiset.map_zero, zero_add] at hends
  rw [← Multiset.coe_le, ← hends]
  exact Multiset.le_add_left _ _

theorem not_response_of_inBatch (h : InBatch action) : isResponse action = false := by
  cases action with
  | responded message => exact False.elim h
  | _ => rfl

section Claim

variable {host : Host} {horizon : Nat} {message : AssistantMessage} {new : List Message}
  {rest : List Action} {q : Position}

theorem ends_after_starts {front : List Action}
    (h : Steps (Step host horizon) ⟨.calling message {} [], new⟩ (front ++ rest) q)
    (hfront : ∀ action ∈ front, InBatch action) :
    (front.filterMap endKey).Subperm (front.filterMap startKey) := by
  obtain ⟨t, hsteps, -⟩ := h.split
  rcases calling_run hsteps (sound_start _) with
    ⟨c, later, more, -, -, htally⟩ | ⟨batch, after, c, more, rfl, -, -, -, -⟩
  · exact htally.subperm
  · have hclosed := hfront (.emitted (.turnEnd message c.shown)) (by simp)
    exact False.elim hclosed

variable {batch : List Action}

theorem answered_of_complete
    (h : Steps (Step host horizon) ⟨.calling message {} [], new⟩ (batch ++ rest) q)
    (hsound : Sound (toolCalls message) c)
    (hcomplete : Complete (toolCalls message) (host.cancelled horizon) c)
    (htally : Tally {} c [] c.shown batch) :
    Answered (toolCalls message) (host.cancelled horizon) batch := by
  have hresults : batch.filterMap resultKey = c.shown.map answerKey := htally.results.symm
  have hstarts : batch.filterMap startKey = c.started.map callKey := htally.starts.symm
  have hshown : c.shown.map answerKey = c.started.map callKey :=
    hsound.shown.eq_of_length (by simp [hcomplete.shown])
  refine ⟨?_, ?_, ?_, ?_, ?_, htally.inBatch⟩
  · rw [hresults, hshown]
    exact hsound.started.map callKey
  · intro hnot
    rcases hcomplete.started with hall | hcancelled
    · rw [hresults, hshown, hall]
    · rw [hnot] at hcancelled
      exact Bool.noConfusion hcancelled
  · rw [hstarts, hresults, hshown]
  · have hends := htally.ends
    rw [hcomplete.live, Multiset.map_zero, zero_add, zero_add] at hends
    exact Multiset.coe_eq_coe.mp hends
  · rintro front ⟨tail, rfl⟩
    rw [append_assoc] at h
    refine ends_after_starts h fun action haction => htally.inBatch action ?_
    exact mem_append_left _ haction

theorem segment_append_cons {after : List Action}
    (hbatch : ∀ other ∈ batch, isResponse other = false) (haction : isResponse action = false) :
    segment (batch ++ action :: after) = batch ++ action :: segment after := by
  unfold segment
  rw [takeWhile_append_of_pos (fun other hother => by simp [hbatch other hother]),
    takeWhile_cons_of_pos (by simp [haction])]

theorem segment_eq_self {actions : List Action}
    (h : ∀ action ∈ actions, isResponse action = false) : segment actions = actions := by
  unfold segment
  exact takeWhile_eq_self_iff.mpr fun action haction => by simp [h action haction]

/-- The actions after a response that did not fail: the batch is answered and the turn closed,
or the run is still in the batch. -/
theorem paired_or_calling (h : Steps (Step host horizon) ⟨.calling message {} [], new⟩ rest q) :
    Paired (toolCalls message) (host.cancelled horizon) (segment rest) ∨
    ∃ c later more, q = ⟨.calling message c later, more⟩ ∧ Sound (toolCalls message) c ∧
      Tally {} c [] later rest := by
  rcases calling_run h (sound_start _) with
    hcalling | ⟨batch, after, c, more, rfl, hsound, hcomplete, htally, hafter⟩
  · exact .inr hcalling
  · have hbatch : ∀ action ∈ batch, isResponse action = false := fun action haction =>
      not_response_of_inBatch (htally.inBatch action haction)
    rw [segment_append_cons hbatch rfl]
    refine .inl ⟨batch, _, rfl, answered_of_complete h hsound hcomplete htally, ?_⟩
    have hsplit : segment after ++ after.dropWhile (fun a => !isResponse a) = after :=
      takeWhile_append_dropWhile
    rw [← hsplit] at hafter
    obtain ⟨t, hsegment, -⟩ := hafter.split
    have hquiet := quiet_run hsegment rfl fun action haction => by
      simpa using mem_takeWhile_imp haction
    intro action haction
    rcases mem_cons.mp haction with rfl | haction
    · exact ⟨rfl, rfl, rfl⟩
    · exact hquiet action haction

theorem brokenOff_of_interrupted {error : String} (hsound : Sound (toolCalls message) c)
    (htally : Tally {} c [] [] rest) (herror : error ∈ c.refusals) :
    BrokenOff (toolCalls message) error rest where
  refused := by
    rcases htally.refusals error herror with hnone | hrefused
    · exact absurd hnone not_mem_nil
    · exact hrefused
  starts := by
    have hstarts : rest.filterMap startKey = c.started.map callKey := htally.starts.symm
    rw [hstarts]
    exact hsound.started.map callKey
  ends := htally.subperm
  no_results := htally.results.symm
  inBatch := htally.inBatch

end Claim

/-- Each response of a run that is not an error or aborted has its tool calls answered before
the next response, unless the sink breaks the run off with an exception. -/
theorem tool_calls_paired (host : Host) (turns : Nat) (context : AgentContext)
    (config : AgentLoopConfig) (request : RunRequest) (tick : Nat) (before rest : List Action)
    (message : AssistantMessage)
    (hresponse : (executor host turns context config request tick).actions =
      before ++ .responded message :: rest)
    (hmessage : ¬ Failed message) :
    let run := executor host turns context config request tick
    Paired (toolCalls message) (host.cancelled (tick + run.ticks)) (segment rest) ∨
      ∃ error, run.ending = .error (.raised error) ∧
        BrokenOff (toolCalls message) error rest := by
  intro run
  obtain ⟨q, hsteps, hdone, hstopped⟩ := executor_reaches host turns context config request tick
  rw [hresponse] at hsteps
  obtain ⟨p, -, hafter⟩ := hsteps.split
  obtain ⟨new, hrest⟩ : ∃ new, Steps (Step host (tick + run.ticks))
      ⟨.calling message {} [], new⟩ rest q := by
    cases hafter with
    | cons first more =>
      cases first with
      | respond _ new _ => exact ⟨_, more⟩
      | fail _ _ hfailed => exact absurd hfailed hmessage
      | batch _ _ _ _ _ hstep => exact nomatch hstep
  rcases paired_or_calling hrest with hpaired | ⟨c, later, more, rfl, hsound, htally⟩
  · exact .inl hpaired
  · cases hending : run.ending with
    | ok result => exact absurd (hdone result hending) (by simp)
    | error reason =>
      obtain ⟨-, ⟨hcomplete, rfl⟩ | ⟨rfl, error, herror, rfl⟩⟩ := hstopped reason hending
      · have hinBatch : ∀ action ∈ rest, isResponse action = false := fun action haction =>
          not_response_of_inBatch (htally.inBatch action haction)
        rw [segment_eq_self hinBatch]
        have hwhole : Steps (Step host (tick + run.ticks)) ⟨.calling message {} [], new⟩
            (rest ++ []) ⟨.calling message c c.shown, more⟩ := by
          rwa [append_nil]
        exact .inl ⟨rest, [], (append_nil rest).symm,
          answered_of_complete hwhole hsound hcomplete htally, by simp⟩
      · exact .inr ⟨error, rfl, brokenOff_of_interrupted hsound htally herror⟩

def sampleActions (host : Host) : List Action :=
  (executor host 2 ⟨[], []⟩ sampleConfig (.prompts []) 0).actions

def afterResponse (actions : List Action) : List Action :=
  (actions.dropWhile (fun a => !isResponse a)).drop 1

def askingMessage : AssistantMessage :=
  { sampleMessage [sampleCall "a", sampleCall "b"] .toolUse
    with thinkingLevel := some "off" }

theorem tool_calls_paired_twoCalls :
    Paired (toolCalls askingMessage) false (segment (afterResponse (sampleActions sampleHost))) ∨
      ∃ error, (executor sampleHost 2 ⟨[], []⟩ sampleConfig (.prompts []) 0).ending =
          .error (.raised error) ∧
        BrokenOff (toolCalls askingMessage) error (afterResponse (sampleActions sampleHost)) :=
  tool_calls_paired sampleHost 2 ⟨[], []⟩ sampleConfig (.prompts []) 0
    ((sampleActions sampleHost).takeWhile (fun a => !isResponse a))
    (afterResponse (sampleActions sampleHost)) askingMessage (by decide +kernel) (by decide)

/-- Every response of the run that does not fail has its calls answered. -/
def PairsToolCalls (host : Host) (turns : Nat) (context : AgentContext)
    (config : AgentLoopConfig) (request : RunRequest) (tick : Nat) : Prop :=
  ∀ before rest message, (executor host turns context config request tick).actions =
      before ++ .responded message :: rest → ¬ Failed message →
    Paired (toolCalls message)
      (host.cancelled (tick + (executor host turns context config request tick).ticks))
      (segment rest)

theorem Paired.starts_eq_results {cancelled : Bool} (h : Paired calls cancelled actions) :
    actions.filterMap startKey = actions.filterMap resultKey := by
  obtain ⟨batch, after, rfl, hanswered, hquiet⟩ := h
  have hstarts : after.filterMap startKey = [] :=
    filterMap_eq_nil_iff.mpr fun action haction => (hquiet action haction).1
  have hresults : after.filterMap resultKey = [] :=
    filterMap_eq_nil_iff.mpr fun action haction => (hquiet action haction).2.2
  rw [filterMap_append, filterMap_append, hstarts, hresults, hanswered.starts]

/-- A listener that raises when a tool execution starts. -/
def raisingHost : Host :=
  { sampleHost with
    sink := fun _ event =>
      match event with
      | .toolExecutionStart .. => some "listener failed"
      | _ => none }

/-- A run whose sink raises leaves a started execution without an end and a call without a
result. -/
theorem raising_sink_unpaired :
    ¬ PairsToolCalls raisingHost 2 ⟨[], []⟩ sampleConfig (.prompts []) 0 := by
  intro h
  have hpaired := h ((sampleActions raisingHost).takeWhile (fun a => !isResponse a))
    (afterResponse (sampleActions raisingHost)) askingMessage (by decide) (by decide)
  have hstarts := hpaired.starts_eq_results
  revert hstarts
  decide

end Pidrei.ToolPairing
