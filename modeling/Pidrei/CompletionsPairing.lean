import Pidrei.OpenaiCompletions
import Pidrei.WireHistory

/-!
Tool calls and tool messages in the Chat Completions adapter's request. The conversion
writes an exchange as an assistant message and one tool message for each result; the images
of the results come behind them.
-/
namespace Pidrei.CompletionsPairing

open List
open Option (bind_eq_bind bind_eq_some_iff bind_some)

open Values Messages AgentTypes Transcript TransformMessages ReplayPairing RequestTranscript
open ReplaySteps WireHistory Exchange OpenaiCompletions

def wireCallIds : WireMessage → List String
  | .assistant m => (m.toolCalls.getD []).map WireCall.id
  | _ => []

def toolCallId? : WireMessage → Option String
  | .tool _ id _ => some id
  | _ => none

/-- Each assistant message with tool calls is followed by exactly one tool message for each of
them, and no tool message stands elsewhere. -/
def ToolCallsAnswered (wire : List WireMessage) : Prop :=
  AnsweredInRun wireCallIds toolCallId? [] [] wire

/-- A message without calls that is no result. -/
def Silent (m : WireMessage) : Prop := wireCallIds m = [] ∧ toolCallId? m = none

theorem bridge_silent : Silent bridge := ⟨rfl, rfl⟩

section Conversion

variable {setup : Setup}

/-- What is written from one state to another, with the exchanges in it complete when `P`. -/
structure Writes (s t : Converting) (added : List WireMessage) (P : Prop) : Prop where
  params : t.params = s.params ++ added
  starts : StartsPlain toolCallId? added
  answered : ∀ rest, StartsPlain toolCallId? rest →
    (AnsweredInRun wireCallIds toolCallId? [] [] (added ++ rest) ↔
      P ∧ AnsweredInRun wireCallIds toolCallId? [] [] rest)

variable {first second added : List WireMessage} {u : Converting} {m : AssistantMessage}

theorem startsPlain_append (h : StartsPlain toolCallId? first)
    (h' : StartsPlain toolCallId? second) : StartsPlain toolCallId? (first ++ second) := by
  cases first with
  | nil => exact h'
  | cons m rest => exact h

theorem startsPlain_of_silent (h : ∀ w ∈ added, Silent w) : StartsPlain toolCallId? added := by
  intro w hw
  exact (h w (mem_of_mem_head? hw)).2

variable {s t : Converting} {folded : ℕ}

theorem writes_silent (hparams : t.params = s.params ++ added) (hsilent : ∀ w ∈ added, Silent w) :
    Writes s t added True where
  params := hparams
  starts := startsPlain_of_silent hsilent
  answered rest _ := by
    rw [answeredInRun_plain hsilent, true_and]

theorem Writes.trans {P Q : Prop} (h : Writes s t first P) (h' : Writes t u second Q) :
    Writes s u (first ++ second) (P ∧ Q) where
  params := by rw [h'.params, h.params, append_assoc]
  starts := startsPlain_append h.starts h'.starts
  answered rest hrest := by
    rw [append_assoc, h.answered _ (startsPlain_append h'.starts hrest),
      h'.answered rest hrest, and_assoc]

/-! ### One entry -/

theorem toolMessages_silent {tools : List Tool} {out : List WireMessage}
    (h : toolMessages setup tools = some out) : ∀ w ∈ out, Silent w := by
  unfold toolMessages at h
  split at h
  · cases h
    exact fun _ hw => absurd hw not_mem_nil
  · simp only [bind_eq_bind, bind_eq_some_iff] at h
    obtain ⟨converted, -, hout⟩ := h
    cases hout
    simpa using ⟨rfl, rfl⟩

theorem convertSystem_spec {m : SystemMessage} (h : convertSystem setup folded s m = some t) :
    ∃ added, t.params = s.params ++ added ∧ ∀ w ∈ added, Silent w := by
  simp only [convertSystem, bind_eq_bind, bind_eq_some_iff] at h
  obtain ⟨tools, htools, hrest⟩ := h
  cases hrest
  refine ⟨_, rfl, fun w hw => ?_⟩
  rcases mem_append.mp hw with hw | hw
  · exact toolMessages_silent htools w hw
  · split at hw <;> split at hw <;> first
      | exact absurd hw not_mem_nil
      | (rw [mem_singleton.mp hw]; exact ⟨rfl, rfl⟩)

theorem bridgeToUser_spec (setup : Setup) (s : Converting) :
    ∃ added, (bridgeToUser setup s).params = s.params ++ added ∧ ∀ w ∈ added, Silent w := by
  unfold bridgeToUser
  split
  · exact ⟨[bridge], rfl, by simpa using bridge_silent⟩
  · exact ⟨[], by simp, by simp⟩

theorem convertUser_spec {m : Messages.UserMessage} (h : convertUser setup s m = some t) :
    ∃ added, t.params = s.params ++ added ∧ ∀ w ∈ added, Silent w := by
  obtain ⟨bridges, hbridges, hsilent⟩ := bridgeToUser_spec setup s
  have hpush : ∀ content, ∃ added, (bridgeToUser setup s).params ++ [WireMessage.user content] =
      s.params ++ added ∧ ∀ w ∈ added, Silent w := by
    intro content
    refine ⟨bridges ++ [WireMessage.user content], by rw [hbridges, append_assoc], fun w hw => ?_⟩
    rcases mem_append.mp hw with hw | hw
    · exact hsilent w hw
    · rw [mem_singleton.mp hw]
      exact ⟨rfl, rfl⟩
  unfold convertUser at h
  cases hcontent : m.content with
  | text text =>
    rw [hcontent] at h
    cases h
    exact hpush _
  | missing =>
    rw [hcontent] at h
    cases h
  | blocks items =>
    rw [hcontent] at h
    simp only [iterBlocks, bind_eq_bind, bind_some, bind_eq_some_iff] at h
    obtain ⟨parts, -, hrest⟩ := h
    split at hrest
    · cases hrest
      exact ⟨bridges, hbridges, hsilent⟩
    · cases hrest
      exact hpush _

theorem convertCall_id {call : ToolCall} {out : WireCall} (h : convertCall setup call = some out) :
    out.id = call.id := by
  unfold convertCall at h
  split at h
  · split at h <;> cases h
    rfl
  · cases h
    rfl

theorem convertCalls_ids {calls : List ToolCall} {out : List WireCall}
    (h : calls.mapM (convertCall setup) = some out) :
    out.map WireCall.id = calls.map ToolCall.id := by
  have hall := forall₂_of_mapM h
  clear h
  induction hall with
  | nil => rfl
  | cons hcall _ ih => rw [map_cons, map_cons, convertCall_id hcall, ih]

theorem assistantParam_calls {items : List ContentBlock} {param : AssistantParam}
    (h : assistantParam setup items = some param) :
    wireCallIds (.assistant param) = blockIds items ∧
      (param.toolCalls = none ↔ contentCalls (.blocks items) = []) := by
  simp only [assistantParam, bind_eq_bind, bind_eq_some_iff] at h
  obtain ⟨converted, hconverted, hrest⟩ := h
  cases hrest
  have hids : converted.map WireCall.id = blockIds items := convertCalls_ids hconverted
  by_cases hcalls : contentCalls (.blocks items) = []
  · have hnone : blockIds items = [] := by simp [blockIds, hcalls]
    simp [wireCallIds, hcalls, hnone]
  · simp [wireCallIds, hcalls, hids]

theorem convertAssistant_spec (h : convertAssistant setup s m = some t) :
    ∃ param, wireCallIds (.assistant param) = callIds m ∧
      (t.params = s.params ++ [WireMessage.assistant param] ∧ t.lastRole = some .assistant ∨
        toolCalls m = [] ∧ t.params = s.params ∧ t.lastRole = s.lastRole) := by
  simp only [convertAssistant, bind_eq_bind, bind_eq_some_iff] at h
  obtain ⟨items, hitems, param, hparam, hrest⟩ := h
  obtain ⟨hids, hnone⟩ := assistantParam_calls hparam
  have hcalls : callIds m = blockIds items := callIds_of_iterBlocks hitems
  refine ⟨param, hids.trans hcalls.symm, ?_⟩
  split at hrest
  · rename_i hskip
    cases hrest
    rw [Bool.and_eq_true, Option.isNone_iff_eq_none, hnone] at hskip
    refine .inr ⟨?_, rfl, rfl⟩
    simpa [callIds, blockIds, hskip.2] using hcalls
  · cases hrest
    exact .inl ⟨rfl, rfl⟩

theorem convertResult_id {msg : ToolResultMessage} {out : WireMessage × List Part}
    (h : convertResult setup msg = some out) :
    toolCallId? out.1 = some msg.toolCallId ∧ wireCallIds out.1 = [] := by
  simp only [convertResult, bind_eq_bind, bind_eq_some_iff] at h
  obtain ⟨blocks, -, hrest⟩ := h
  cases hrest
  exact ⟨rfl, rfl⟩

theorem convertResults_spec {msgs : List ToolResultMessage}
    (h : convertResults setup s msgs = some t) :
    ∃ tools others, t.params = s.params ++ (tools ++ others) ∧
      tools.map toolCallId? = (msgs.map ToolResultMessage.toolCallId).map some ∧
        ∀ w ∈ others, Silent w := by
  simp only [convertResults, bind_eq_bind, bind_eq_some_iff] at h
  obtain ⟨converted, hconverted, hrest⟩ := h
  have hids : (converted.map Prod.fst).map toolCallId? =
      (msgs.map ToolResultMessage.toolCallId).map some := by
    have hall := forall₂_of_mapM hconverted
    clear hconverted hrest
    induction hall with
    | nil => rfl
    | cons hmsg _ ih => simp only [map_cons, (convertResult_id hmsg).1, ih]
  split at hrest
  · cases hrest
    exact ⟨converted.map Prod.fst, [], by simp [Converting.push], hids, by simp⟩
  · cases hrest
    refine ⟨converted.map Prod.fst, _, append_assoc _ _ _, hids, fun w hw => ?_⟩
    rcases mem_append.mp hw with hw | hw
    · split at hw
      · rw [mem_singleton.mp hw]
        exact bridge_silent
      · exact absurd hw not_mem_nil
    · rw [mem_singleton.mp hw]
      exact ⟨rfl, rfl⟩

/-! ### The conversion loop -/

theorem convertEntry_plain {m : Message} (hproper : (Step.plain m).Proper)
    (h : convertEntry setup folded s (.message m) = some t) : ∃ added, Writes s t added True := by
  cases m with
  | system m =>
    obtain ⟨added, hparams, hsilent⟩ := convertSystem_spec h
    exact ⟨added, writes_silent hparams hsilent⟩
  | user m =>
    obtain ⟨added, hparams, hsilent⟩ := convertUser_spec h
    exact ⟨added, writes_silent hparams hsilent⟩
  | assistant m =>
    obtain ⟨param, hids, ⟨hparams, -⟩ | ⟨-, hparams, -⟩⟩ := convertAssistant_spec h
    · refine ⟨_, writes_silent hparams fun w hw => ?_⟩
      have hnone : toolCalls m = [] := hproper
      rw [mem_singleton.mp hw]
      exact ⟨by rw [hids, callIds, hnone]; rfl, rfl⟩
    · exact ⟨[], writes_silent (by rw [hparams, append_nil]) (by simp)⟩
  | _ => exact absurd hproper id

theorem convertEntry_exchange {answers : List ToolResultMessage}
    (hproper : (Step.exchange m answers).Proper)
    (hcall : convertEntry setup folded s (.message (.assistant m)) = some t)
    (hreply : convertEntry setup folded t (.results answers) = some u) :
    ∃ added, Writes s u added (Step.exchange m answers).Answered := by
  obtain ⟨param, hids, hwritten⟩ := convertAssistant_spec hcall
  have hparams : t.params = s.params ++ [WireMessage.assistant param] := by
    rcases hwritten with ⟨hparams, -⟩ | ⟨hnone, -⟩
    · exact hparams
    · exact absurd hnone hproper.1
  obtain ⟨tools, others, hout, htools, hsilent⟩ := convertResults_spec hreply
  refine ⟨.assistant param :: (tools ++ others), by simp [hout, hparams], ?_, ?_⟩
  · intro w hw
    cases hw
    rfl
  · intro rest hrest
    have hstarts : StartsPlain toolCallId? (others ++ rest) :=
      startsPlain_append (startsPlain_of_silent hsilent) hrest
    have hcallPlain : toolCallId? (.assistant param) = none := rfl
    rw [cons_append, append_assoc, answeredInRun_exchange hcallPlain htools hstarts,
      answeredInRun_plain hsilent, hids, Step.Answered]

theorem convertSteps {steps : List Step} (hproper : ∀ step ∈ steps, step.Proper)
    (h : (steps.flatMap Step.entries).foldlM (convertEntry setup folded) s = some t) :
    ∃ added, Writes s t added (∀ step ∈ steps, step.Answered) := by
  induction steps generalizing s with
  | nil =>
    cases h
    exact ⟨[], by simp, fun _ hw => absurd hw (by simp), by simp⟩
  | cons step rest ih =>
    have hstep := hproper step mem_cons_self
    have hrest := fun other hother => hproper other (mem_cons_of_mem _ hother)
    have hmid : ∃ u, (rest.flatMap Step.entries).foldlM (convertEntry setup folded) u = some t ∧
        ∃ added, Writes s u added step.Answered := by
      cases step with
      | plain m =>
        simp only [flatMap_cons, Step.entries, cons_append, nil_append,
          foldlM_cons, bind_eq_bind, bind_eq_some_iff] at h
        obtain ⟨u, hu, hrest⟩ := h
        exact ⟨u, hrest, convertEntry_plain hstep hu⟩
      | exchange m answers =>
        simp only [flatMap_cons, Step.entries, cons_append, nil_append,
          foldlM_cons, bind_eq_bind, bind_eq_some_iff] at h
        obtain ⟨v, hv, u, hu, hrest⟩ := h
        exact ⟨u, hrest, convertEntry_exchange hstep hv hu⟩
    obtain ⟨u, hu, first, hfirst⟩ := hmid
    obtain ⟨second, hsecond⟩ := ih hrest hu
    refine ⟨first ++ second, ?_⟩
    simp only [forall_mem_cons]
    exact hfirst.trans hsecond

theorem convertMessages_answered_iff {messages : List Message} {wire : List WireMessage}
    (hconversation : Conversation messages)
    (hdistinct : StayDistinct setup.model (some (normalizeToolCallId setup)) messages)
    (h : convertMessages setup messages = some wire) :
    ToolCallsAnswered wire ↔
      ResultsReachCalls setup.model (some (normalizeToolCallId setup)) messages := by
  have hresolved := conversation_resolve hconversation setup.supportsMidConvoSystemMessages
  obtain ⟨rewritten, output, steps, houtput, htransformed⟩ := transform_spec setup.model
    (some (normalizeToolCallId setup)) setup.now hresolved.typed
  obtain ⟨hsteps, hproper⟩ := transformed_proper hresolved htransformed
  have hreach :=
    transformed_answered hresolved (stayDistinct_resolve _ _ hdistinct _) htransformed
  simp only [convertMessages, houtput, hsteps, entries_steps hproper, bind_eq_bind,
    bind_some, bind_eq_some_iff] at h
  obtain ⟨s, hs, hwire⟩ := h
  cases hwire
  obtain ⟨added, hwrites⟩ := convertSteps hproper hs
  have hparams : s.params = added := by simpa using hwrites.params
  have hanswered := hwrites.answered [] (fun _ hw => absurd hw (by simp))
  rw [append_nil] at hanswered
  rw [ToolCallsAnswered, hparams, hanswered,
    ← resultsReachCalls_resolve _ _ messages setup.supportsMidConvoSystemMessages, ← hreach]
  simp [AnsweredInRun]

end Conversion

end Pidrei.CompletionsPairing
