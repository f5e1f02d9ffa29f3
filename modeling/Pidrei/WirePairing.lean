import Pidrei.AnthropicPairing
import Pidrei.BridgedMessages

/-!
Tool calls on the wire: in the requests of both adapters a call is answered at once, and a
bridge stands between tool results and a user message, up to two defects. An id that was
renamed for an earlier message renames the results of later messages, and a system message
that sends nothing hides the tool results from the bridge.
-/
namespace Pidrei.WirePairing

open Values Messages AgentTypes TransformMessages ReplayPairing RequestTranscript ReplaySteps
open WireHistory Exchange AnthropicPairing CompletionsPairing ToolResultBridge BridgedMessages

/-- The transcript that the Chat Completions adapter converts, without failed messages. -/
def keptTranscript (setup : OpenaiCompletions.Setup) (messages : List Message) : List Message :=
  (resolveTranscript messages setup.supportsMidConvoSystemMessages).filter (!isSkipped ·)

/-- The number of its system messages whose tools are in the request's tool list. -/
def foldedMessages (setup : OpenaiCompletions.Setup) (messages : List Message) : ℕ :=
  (resolveTranscriptTools (resolveTranscript messages setup.supportsMidConvoSystemMessages)
    (OpenaiCompletions.toolSupport setup)).foldedSystemMessages

/-- In each adapter's request every call is answered at once exactly when the results reach
their calls under the ids of the request, and a required bridge is missing exactly when a
system message mutes the tool results before a user message. -/
theorem calls_answered_on_wire_iff (messages : List Message)
    (hconversation : Conversation messages) :
    (∀ (setup : AnthropicMessages.Setup) (params : AnthropicMessages.Params),
      StayDistinct setup.model (some AnthropicMessages.normalizeToolCallId) messages →
        AnthropicMessages.request setup messages = some params →
          (ToolUsesAnswered params.messages ↔
            ResultsReachCalls setup.model (some AnthropicMessages.normalizeToolCallId) messages)) ∧
    ∀ (setup : OpenaiCompletions.Setup) (wire : List OpenaiCompletions.WireMessage),
      StayDistinct setup.model (some (OpenaiCompletions.normalizeToolCallId setup)) messages →
        OpenaiCompletions.convertMessages setup messages = some wire →
          (ToolCallsAnswered wire ↔ ResultsReachCalls setup.model
            (some (OpenaiCompletions.normalizeToolCallId setup)) messages) ∧
          (setup.requiresAssistantAfterToolResult = true →
            (NoUserAfterTool wire ↔
              ¬ UserSlips setup (foldedMessages setup messages)
                (keptTranscript setup messages))) := by
  constructor
  · intro setup params hdistinct hrequest
    exact request_answered_iff hconversation hdistinct hrequest
  · intro setup wire hdistinct hwire
    refine ⟨convertMessages_answered_iff hconversation hdistinct hwire, fun hbridge => ?_⟩
    exact noUserAfterTool_iff hbridge hconversation hwire

def sampleAnthropic : AnthropicMessages.Setup where
  model := sampleTarget
  isOauthToken := false
  cacheControl := some (.dict [("type", .str "ephemeral")])
  allowEmptySignature := false
  supportsCacheControlOnTools := true
  supportsEagerToolInputStreaming := false
  supportsMidConvoSystemMessages := true
  supportsMidConvoToolChanges := true
  effortMessages := true
  effort := none
  lower := id
  inputSchema tool := some (false, .dict tool.parameters)
  now _ := 0

def sampleCompletions : OpenaiCompletions.Setup where
  model := sampleTarget
  reasoning := false
  supportsDeveloperRole := false
  supportsMidConvoSystemMessages := true
  supportsMidConvoToolAdditions := false
  requiresToolResultName := false
  requiresAssistantAfterToolResult := true
  requiresThinkingAsText := false
  requiresReasoningContentOnAssistantMessages := false
  grammarToolInputProperties := .empty
  convertTools tools := some (tools.map fun tool => .str tool.name)
  parseJson _ := none
  dumps _ := "{}"
  now _ := 0

/-- A call of another model and a call of the target with the ids given, each answered, and
messages behind them. -/
def twoCalls (first second : String) (later : List Message) : List Message :=
  [.assistant (oneCall "other" .toolUse first), .toolResult (oneResult first),
    .assistant (oneCall "target" .toolUse second), .toolResult (oneResult second)] ++ later

def removalAndUser : List Message :=
  [.system { content := .text "", timestamp := 0, toolsRemoved := some [⟨"write"⟩] },
    .user ⟨.text "go on", 0⟩]

theorem twoCalls_conversation (first second : String) {later : List Message}
    (h : later = [] ∨ later = removalAndUser) : Conversation (twoCalls first second later) := by
  rcases h with rfl | rfl
  · refine ⟨?_, ⟨rfl, ?_⟩, ?_⟩
    · simp [twoCalls, TypedMessage, oneCall, oneResult, isDecoded, isTextOrImage]
    · simp [twoCalls, splitTurns, opensTurn, TurnFormed, callIds, toolCalls, contentCalls, oneCall,
        oneResult, resultIds_cons, resultId?]
    · simp [SkippedUnanswered, twoCalls, splitTurns, opensTurn, isSkipped, skipped, oneCall]
  · refine ⟨?_, ⟨rfl, ?_⟩, ?_⟩
    · simp [twoCalls, removalAndUser, TypedMessage, oneCall, oneResult, isDecoded, isTextOrImage]
    · simp [twoCalls, removalAndUser, splitTurns, opensTurn, TurnFormed, callIds, toolCalls,
        contentCalls, oneCall, oneResult, resultIds_cons, resultId?]
    · simp [SkippedUnanswered, twoCalls, removalAndUser, splitTurns, opensTurn, isSkipped, skipped,
        oneCall]

theorem twoCalls_distinct (model : TargetModel) (normalize : Option IdNormalizer)
    (first second : String) {later : List Message} (h : later = [] ∨ later = removalAndUser) :
    StayDistinct model normalize (twoCalls first second later) := by
  intro m hm
  rcases h with rfl | rfl <;>
    simp only [twoCalls, removalAndUser, List.cons_append, List.nil_append, List.mem_cons,
      Message.assistant.injEq, reduceCtorEq, List.not_mem_nil, or_false, false_or] at hm <;>
    rcases hm with rfl | rfl <;>
    exact List.nodup_singleton _

theorem twoCalls_reach (normalize : IdNormalizer) :
    ResultsReachCalls sampleTarget (some normalize) (twoCalls "a.b" "c.d" []) := by
  have hturns : (splitTurns (twoCalls "a.b" "c.d" [])).2 =
      [⟨.assistant (oneCall "other" .toolUse "a.b"), [.toolResult (oneResult "a.b")]⟩,
        ⟨.assistant (oneCall "target" .toolUse "c.d"), [.toolResult (oneResult "c.d")]⟩] := rfl
  have hids : ∀ id, resultIds [.toolResult (oneResult id)] = [id] := fun _ => rfl
  have hcalls : ∀ model id, callIds (oneCall model .toolUse id) = [id] := fun _ _ => rfl
  rw [ResultsReachCalls, hturns]
  simp only [ResultsReach, hids, hcalls, List.map_cons, List.map_nil, List.nodup_singleton,
    List.mem_singleton, forall_eq, true_and, and_true, List.nil_append, List.cons_append]
  refine ⟨fun _ => ?_, fun _ => ?_⟩
  · by_cases hsame : outputId sampleTarget (some normalize) (oneCall "other" .toolUse "a.b") "a.b" =
        "a.b"
    · simp [renamed, hcalls, hsame]
    · simp [renamed, hcalls, hsame]
  · have hkeeps : outputId sampleTarget (some normalize) (oneCall "target" .toolUse "c.d") "c.d" =
        "c.d" := rfl
    simp [renamed, hcalls, hkeeps]

theorem calls_answered_on_wire_sample :
    (∃ params, AnthropicMessages.request sampleAnthropic (twoCalls "a.b" "c.d" []) = some params ∧
      ToolUsesAnswered params.messages) ∧
    ∃ wire, OpenaiCompletions.convertMessages sampleCompletions (twoCalls "a.b" "c.d" []) =
      some wire ∧ ToolCallsAnswered wire ∧ NoUserAfterTool wire := by
  obtain ⟨hanthropic, hcompletions⟩ := calls_answered_on_wire_iff (twoCalls "a.b" "c.d" [])
    (twoCalls_conversation _ _ (.inl rfl))
  constructor
  · have hsome : (AnthropicMessages.request sampleAnthropic (twoCalls "a.b" "c.d" [])).isSome =
        true := by decide
    obtain ⟨params, hparams⟩ := Option.isSome_iff_exists.mp hsome
    exact ⟨params, hparams, (hanthropic sampleAnthropic params
      (twoCalls_distinct _ _ _ _ (.inl rfl)) hparams).mpr (twoCalls_reach _)⟩
  · have hsome : (OpenaiCompletions.convertMessages sampleCompletions
        (twoCalls "a.b" "c.d" [])).isSome = true := by decide
    obtain ⟨wire, hwire⟩ := Option.isSome_iff_exists.mp hsome
    obtain ⟨hanswered, hbridged⟩ := hcompletions sampleCompletions wire
      (twoCalls_distinct _ _ _ _ (.inl rfl)) hwire
    refine ⟨wire, hwire, hanswered.mpr (twoCalls_reach _), (hbridged rfl).mpr ?_⟩
    rw [← slipped_scanAll_iff]
    decide

/-- A call of the target loses its result to the new name that its id got for an earlier
message, and a user message behind a removal directly follows a tool message. -/
theorem calls_unanswered_on_wire :
    (Conversation (twoCalls "a.b" "a.b" []) ∧
      StayDistinct sampleTarget (some AnthropicMessages.normalizeToolCallId)
        (twoCalls "a.b" "a.b" []) ∧
      ∃ params, AnthropicMessages.request sampleAnthropic (twoCalls "a.b" "a.b" []) = some params ∧
        ¬ ToolUsesAnswered params.messages) ∧
    Conversation (twoCalls "a.b" "c.d" removalAndUser) ∧
      StayDistinct sampleTarget (some (OpenaiCompletions.normalizeToolCallId sampleCompletions))
        (twoCalls "a.b" "c.d" removalAndUser) ∧
      ∃ wire, OpenaiCompletions.convertMessages sampleCompletions
          (twoCalls "a.b" "c.d" removalAndUser) = some wire ∧ ¬ NoUserAfterTool wire := by
  refine ⟨⟨twoCalls_conversation _ _ (.inl rfl), twoCalls_distinct _ _ _ _ (.inl rfl), ?_⟩,
    twoCalls_conversation _ _ (.inr rfl), twoCalls_distinct _ _ _ _ (.inr rfl), ?_⟩
  · have hrun : ((AnthropicMessages.request sampleAnthropic (twoCalls "a.b" "a.b" [])).map
        fun params => decide (AnsweredNext toolUseIds toolResultIds [] params.messages)) =
          some false := by decide
    obtain ⟨params, hparams, hfails⟩ := Option.map_eq_some_iff.mp hrun
    exact ⟨params, hparams, fun h => of_decide_eq_false hfails h.answered⟩
  · have hrun : ((OpenaiCompletions.convertMessages sampleCompletions
        (twoCalls "a.b" "c.d" removalAndUser)).map fun wire =>
          (wire.map isToolMessage, wire.map isUserMessage)) =
        some ([false, true, false, true, false], [false, false, false, false, true]) := by
      decide
    obtain ⟨wire, hwire, hshape⟩ := Option.map_eq_some_iff.mp hrun
    refine ⟨wire, hwire, fun h => ?_⟩
    obtain ⟨htools, husers⟩ := Prod.mk.inj hshape
    match wire, htools, husers with
    | [_, _, _, tool, user], htools, husers =>
      simp only [List.map_cons, List.map_nil, List.cons.injEq] at htools husers
      have hnext := (List.isChain_cons_cons.mp (h.drop 3)).1 htools.2.2.2.1
      rw [husers.2.2.2.2.1] at hnext
      cases hnext

end Pidrei.WirePairing
