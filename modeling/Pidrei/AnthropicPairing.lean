import Pidrei.AnthropicMessages
import Pidrei.WireHistory

/-!
Tool uses and tool results in the Anthropic adapter's request. The conversion writes an
exchange as an assistant message and the user message with its results; what is held back,
marked or put in between the others touches no exchange.
-/
namespace Pidrei.AnthropicPairing

open List
open Option (bind_eq_bind bind_eq_some_iff bind_some)

open Values Messages AgentTypes Transcript TransformMessages ReplayPairing RequestTranscript
open ReplaySteps WireHistory Exchange AnthropicMessages

def blocks : WireMessage → List Block
  | .user (.text _) => []
  | .user (.blocks blocks) => blocks
  | .assistant blocks => blocks
  | .system blocks _ => blocks

def bodies (m : WireMessage) : List BlockBody := (blocks m).map Block.body

def toolUseId? : BlockBody → Option String
  | .toolUse id _ _ => some id
  | _ => none

def toolResultId? : BlockBody → Option String
  | .toolResult id _ _ => some id
  | _ => none

def toolUseIds (m : WireMessage) : List String := (bodies m).filterMap toolUseId?

def toolResultIds (m : WireMessage) : List String := (bodies m).filterMap toolResultId?

/-- A user message that begins with its tool results. -/
def IsReply (m : WireMessage) : Prop :=
  ∃ blocks results others, m = .user (.blocks blocks) ∧ blocks.map Block.body = results ++ others ∧
    (∀ body ∈ results, (toolResultId? body).isSome) ∧ ∀ body ∈ others, toolResultId? body = none

/-- Each message with tool uses is followed by one user message that begins with exactly one
result for each of them, and no result stands elsewhere. -/
structure ToolUsesAnswered (wire : List WireMessage) : Prop where
  answered : AnsweredNext toolUseIds toolResultIds [] wire
  leading : ∀ m ∈ wire, toolResultIds m ≠ [] → IsReply m

def Silent (m : WireMessage) : Prop := toolUseIds m = [] ∧ toolResultIds m = []

theorem silent_iff {m : WireMessage} :
    Silent m ↔ ∀ body ∈ bodies m, toolUseId? body = none ∧ toolResultId? body = none := by
  simp only [Silent, toolUseIds, toolResultIds, filterMap_eq_nil_iff, ← forall_and]

section Conversion

variable {setup : Setup} {native : Bool}

/-! ### The blocks of one message -/

variable {out : List Block} {s t : Converting}

theorem systemBlocks_silent {m : SystemMessage} (h : systemBlocks setup native m = some out) :
    Silent (.system out none) := by
  rw [silent_iff]
  intro body hbody
  obtain ⟨block, hblock, rfl⟩ := mem_map.mp hbody
  have htext : block ∈ (if renderSystemMessageUpdate m = "" then []
      else [Block.text (renderSystemMessageUpdate m)]) →
        toolUseId? block.body = none ∧ toolResultId? block.body = none := by
    intro hmem
    split at hmem
    · exact absurd hmem not_mem_nil
    · rw [mem_singleton.mp hmem]
      exact ⟨rfl, rfl⟩
  unfold systemBlocks at h
  cases native with
  | false =>
    cases h
    exact htext hblock
  | true =>
    simp only [Bool.not_true, Bool.false_eq_true, if_false, bind_eq_bind,
      bind_eq_some_iff] at h
    obtain ⟨definitions, -, hout⟩ := h
    cases hout
    simp only [blocks, mem_append, mem_map] at hblock
    rcases hblock with (hblock | ⟨name, -, rfl⟩) | ⟨definition, -, rfl⟩
    · exact htext hblock
    · exact ⟨rfl, rfl⟩
    · exact ⟨rfl, rfl⟩

theorem convertUserItem_silent {item : ContentBlock} (h : convertUserItem item = some out) :
    ∀ block ∈ out, toolUseId? block.body = none ∧ toolResultId? block.body = none := by
  cases item with
  | text text signature =>
    simp only [convertUserItem, convertPart, bind_eq_bind, bind_some] at h
    split at h <;> cases h
    · intro block hblock
      rw [mem_singleton.mp hblock]
      exact ⟨rfl, rfl⟩
    · exact fun _ hblock => absurd hblock not_mem_nil
  | image data mimeType =>
    cases h
    intro block hblock
    rw [mem_singleton.mp hblock]
    exact ⟨rfl, rfl⟩
  | _ => cases h

variable {items : List ContentBlock} {u : Converting} {m : AssistantMessage}

theorem convertUser_silent {out : List (List Block)} (h : items.mapM convertUserItem = some out) :
    Silent (.user (.blocks out.flatten)) := by
  rw [silent_iff]
  intro body hbody
  obtain ⟨block, hblock, rfl⟩ := mem_map.mp hbody
  obtain ⟨converted, hconverted, hmem⟩ := mem_flatten.mp hblock
  obtain ⟨item, -, hitem⟩ := mem_of_mapM h hconverted
  exact convertUserItem_silent hitem block hmem

theorem convertAssistantBlock_ids {block : ContentBlock}
    (h : convertAssistantBlock setup block = some out) :
    (out.map Block.body).filterMap toolUseId? = blockIds [block] ∧
      (out.map Block.body).filterMap toolResultId? = [] := by
  unfold convertAssistantBlock at h
  split at h
  · cases h
    split <;> exact ⟨rfl, rfl⟩
  · cases h
    exact ⟨rfl, rfl⟩
  · cases h
    unfold convertThinking
    split_ifs <;> exact ⟨rfl, rfl⟩
  · cases h
    exact ⟨rfl, rfl⟩
  · cases h
    exact ⟨rfl, rfl⟩
  · cases h

theorem convertAssistant_ids {out : List (List Block)}
    (h : items.mapM (convertAssistantBlock setup) = some out) :
    toolUseIds (.assistant out.flatten) = blockIds items ∧
      toolResultIds (.assistant out.flatten) = [] := by
  have hall := forall₂_of_mapM h
  clear h
  induction hall with
  | nil => exact ⟨rfl, rfl⟩
  | @cons item converted items out hitem _ ih =>
    obtain ⟨huses, hresults⟩ := convertAssistantBlock_ids hitem
    have hsplit : blockIds (item :: items) = blockIds [item] ++ blockIds items :=
      blockIds_append [item] items
    simp only [toolUseIds, toolResultIds, bodies, blocks, flatten_cons, map_append,
      filterMap_append] at ih ⊢
    rw [huses, hresults, hsplit, ih.1, ih.2]
    exact ⟨rfl, rfl⟩

theorem convertResult_spec {msg : ToolResultMessage} {result : Block} {others : List Block}
    (h : convertResult msg = some (result, others)) :
    (∃ content, result.body = .toolResult msg.toolCallId content msg.isError) ∧
      ∀ block ∈ others, toolUseId? block.body = none ∧ toolResultId? block.body = none := by
  simp only [convertResult, bind_eq_bind, bind_eq_some_iff] at h
  obtain ⟨split, -, converted, hconverted, hrest⟩ := h
  have hbody : ∃ content, converted.body = .toolResult msg.toolCallId content msg.isError := by
    simp only [convertToolResult, bind_eq_bind, bind_eq_some_iff] at hconverted
    obtain ⟨content, -, hout⟩ := hconverted
    cases hout
    exact ⟨content, rfl⟩
  cases split with
  | none =>
    cases hrest
    exact ⟨hbody, fun _ hblock => absurd hblock not_mem_nil⟩
  | some split =>
    simp only [bind_eq_some_iff] at hrest
    obtain ⟨images, -, hout⟩ := hrest
    cases hout
    refine ⟨hbody, fun block hblock => ?_⟩
    rcases mem_cons.mp hblock with rfl | himage
    · exact ⟨rfl, rfl⟩
    · obtain ⟨image, -, rfl⟩ := mem_map.mp himage
      exact ⟨rfl, rfl⟩

/-- The user message of a run of results. -/
def replyOf (converted : List (Block × List Block)) : WireMessage :=
  .user (.blocks (converted.map Prod.fst ++ converted.flatMap Prod.snd))

theorem replyOf_spec {msgs : List ToolResultMessage} {converted : List (Block × List Block)}
    (h : msgs.mapM convertResult = some converted) :
    toolResultIds (replyOf converted) = msgs.map ToolResultMessage.toolCallId ∧
      toolUseIds (replyOf converted) = [] ∧ IsReply (replyOf converted) := by
  have hresults : (converted.map fun pair => pair.1.body).map toolResultId? =
      (msgs.map ToolResultMessage.toolCallId).map some := by
    have hall := forall₂_of_mapM h
    clear h
    induction hall with
    | nil => rfl
    | @cons msg pair msgs converted hmsg _ ih =>
      obtain ⟨content, hbody⟩ := (convertResult_spec hmsg).1
      simp only [map_cons, hbody, toolResultId?, ih]
  have hothers : ∀ body ∈ (converted.flatMap Prod.snd).map Block.body,
      toolUseId? body = none ∧ toolResultId? body = none := by
    intro body hbody
    obtain ⟨block, hblock, rfl⟩ := mem_map.mp hbody
    obtain ⟨pair, hpair, hmem⟩ := mem_flatMap.mp hblock
    obtain ⟨msg, -, hmsg⟩ := mem_of_mapM h hpair
    exact (convertResult_spec hmsg).2 block hmem
  have hbodies : bodies (replyOf converted) = (converted.map fun pair => pair.1.body) ++
      (converted.flatMap Prod.snd).map Block.body := by
    simp [bodies, blocks, replyOf]
  have hisResult : ∀ body ∈ converted.map (fun pair => pair.1.body),
      (toolResultId? body).isSome := by
    intro body hbody
    have hmem : toolResultId? body ∈ (msgs.map ToolResultMessage.toolCallId).map some := by
      rw [← hresults]
      exact mem_map_of_mem hbody
    obtain ⟨id, -, hid⟩ := mem_map.mp hmem
    rw [← hid]
    rfl
  refine ⟨?_, ?_, _, _, _, rfl, hbodies, hisResult,
    fun body hbody => (hothers body hbody).2⟩
  · have hnone : ((converted.flatMap Prod.snd).map Block.body).filterMap toolResultId? = [] :=
      filterMap_eq_nil_iff.mpr fun body hbody => (hothers body hbody).2
    rw [toolResultIds, hbodies, filterMap_append, hnone, append_nil]
    exact filterMap_eq_of_map_eq hresults
  · rw [toolUseIds, hbodies, filterMap_eq_nil_iff]
    intro body hbody
    rcases mem_append.mp hbody with hbody | hbody
    · have hresult := hisResult body hbody
      cases body <;> first | rfl | simp [toolResultId?] at hresult
    · exact (hothers body hbody).1

/-! ### The conversion loop -/

/-- What is held back touches no exchange, and effort levels belong to assistant messages. -/
structure Invariant (s : Converting) : Prop where
  held : ∀ w ∈ s.pendingSystemMessages, Silent w
  levels : ∀ item ∈ s.assistantLevels, ∃ w, s.params[item.1]? = some w ∧ toolResultIds w = []

/-- What is written from one state to another, with the exchanges in it complete when `P`. -/
structure Writes (s t : Converting) (added : List WireMessage) (P : Prop) : Prop where
  params : t.params = s.params ++ added
  leading : ∀ w ∈ added, toolResultIds w ≠ [] → IsReply w
  answered : ∀ rest, AnsweredNext toolUseIds toolResultIds [] (added ++ rest) ↔
    P ∧ AnsweredNext toolUseIds toolResultIds [] rest

theorem writes_silent {added : List WireMessage} (hparams : t.params = s.params ++ added)
    (hsilent : ∀ w ∈ added, Silent w) : Writes s t added True where
  params := hparams
  leading w hw hresults := absurd (hsilent w hw).2 hresults
  answered rest := by
    rw [answeredNext_plain hsilent, true_and]

theorem Writes.trans {first second : List WireMessage} {P Q : Prop} (h : Writes s t first P)
    (h' : Writes t u second Q) : Writes s u (first ++ second) (P ∧ Q) where
  params := by rw [h'.params, h.params, append_assoc]
  leading w hw := by
    rcases mem_append.mp hw with hw | hw
    · exact h.leading w hw
    · exact h'.leading w hw
  answered rest := by
    rw [append_assoc, h.answered, h'.answered, and_assoc]

theorem levels_append (h : Invariant s) (added : List WireMessage) :
    ∀ item ∈ s.assistantLevels, ∃ w, (s.params ++ added)[item.1]? = some w ∧
      toolResultIds w = [] := by
  intro item hitem
  obtain ⟨w, hw, hresults⟩ := h.levels item hitem
  exact ⟨w, getElem?_append_left (List.getElem?_eq_some_iff.mp hw).1 ▸ hw, hresults⟩

theorem invariant_push (h : Invariant s) (w : WireMessage) : Invariant (s.push w) :=
  ⟨h.held, levels_append h [w]⟩

theorem invariant_flush (h : Invariant s) : Invariant (flushPendingSystemMessages s) :=
  ⟨fun _ hw => absurd hw not_mem_nil, levels_append h s.pendingSystemMessages⟩

theorem writes_flush (h : Invariant s) :
    Writes s (flushPendingSystemMessages s) s.pendingSystemMessages True :=
  writes_silent rfl h.held

theorem convertAssistant_spec (hs : Invariant s) (h : convertAssistant setup s m = some t) :
    ∃ out, toolUseIds (.assistant out) = callIds m ∧ toolResultIds (.assistant out) = [] ∧
      t.params = s.params ++ (s.pendingSystemMessages ++
        if out.isEmpty then [] else [.assistant out]) ∧ Invariant t := by
  simp only [convertAssistant, bind_eq_bind, bind_eq_some_iff] at h
  obtain ⟨items, hitems, converted, hconverted, hrest⟩ := h
  obtain ⟨huses, hresults⟩ := convertAssistant_ids hconverted
  refine ⟨converted.flatten, huses.trans (callIds_of_iterBlocks hitems).symm, hresults, ?_⟩
  have hflush := invariant_flush hs
  by_cases hempty : converted.flatten.isEmpty = true
  · rw [if_pos hempty] at hrest
    cases hrest
    rw [if_pos hempty, append_nil]
    exact ⟨rfl, hflush⟩
  · rw [if_neg hempty] at hrest
    cases hrest
    rw [if_neg hempty]
    refine ⟨by simp [Converting.push, flushPendingSystemMessages], hflush.held, ?_⟩
    intro item hitem
    rcases mem_append.mp hitem with hitem | hitem
    · exact levels_append hflush _ item hitem
    · refine ⟨.assistant converted.flatten, ?_, hresults⟩
      split at hitem
      · rw [mem_singleton.mp hitem]
        simp [Converting.push]
      · exact absurd hitem not_mem_nil

theorem convertEntry_plain {m : Message} (hs : Invariant s) (hproper : (Step.plain m).Proper)
    (h : convertEntry setup native s (.message m) = some t) :
    Invariant t ∧ ∃ added, Writes s t added True := by
  cases m with
  | system m =>
    simp only [convertEntry, bind_eq_bind, bind_eq_some_iff] at h
    obtain ⟨out, hout, hrest⟩ := h
    by_cases hempty : out.isEmpty = true
    · rw [if_pos hempty] at hrest
      cases hrest
      exact ⟨hs, [], writes_silent (by simp) (by simp)⟩
    · rw [if_neg hempty] at hrest
      cases hrest
      refine ⟨⟨fun w hw => ?_, hs.levels⟩, [], writes_silent (by simp) (by simp)⟩
      rcases mem_append.mp hw with hw | hw
      · exact hs.held w hw
      · rw [mem_singleton.mp hw]
        exact systemBlocks_silent hout
  | user m =>
    have hsame : Writes s s [] True := writes_silent (by simp) (by simp)
    have hpush : ∀ w, Silent w → Writes s (s.push w) [w] True := fun w hw =>
      writes_silent rfl (by simpa using hw)
    change convertUser s m = some t at h
    unfold convertUser at h
    cases hcontent : m.content with
    | text text =>
      rw [hcontent] at h
      dsimp only at h
      split at h
      · cases h
        exact ⟨invariant_push hs _, _, hpush _ ⟨rfl, rfl⟩⟩
      · cases h
        exact ⟨hs, [], hsame⟩
    | missing =>
      rw [hcontent] at h
      cases h
    | blocks items =>
      rw [hcontent] at h
      simp only [iterBlocks, bind_eq_bind, bind_some, bind_eq_some_iff] at h
      obtain ⟨out, hout, hrest⟩ := h
      split at hrest
      · cases hrest
        exact ⟨hs, [], hsame⟩
      · cases hrest
        exact ⟨invariant_push hs _, _, hpush _ (convertUser_silent hout)⟩
  | assistant m =>
    obtain ⟨out, huses, hresults, hparams, ht⟩ := convertAssistant_spec hs h
    refine ⟨ht, _, writes_silent hparams fun w hw => ?_⟩
    rcases mem_append.mp hw with hw | hw
    · exact hs.held w hw
    · split at hw
      · exact absurd hw not_mem_nil
      · have hcalls : callIds m = [] := by
          have hnone : toolCalls m = [] := hproper
          simp [callIds, hnone]
        rw [mem_singleton.mp hw]
        exact ⟨huses.trans hcalls, hresults⟩
  | _ => exact absurd hproper id

theorem convertEntry_exchange {answers : List ToolResultMessage} (hs : Invariant s)
    (hproper : (Step.exchange m answers).Proper)
    (hcall : convertEntry setup native s (.message (.assistant m)) = some t)
    (hreply : convertEntry setup native t (.results answers) = some u) :
    Invariant u ∧ ∃ added, Writes s u added (Step.exchange m answers).Answered := by
  obtain ⟨out, huses, hresults, hparams, ht⟩ := convertAssistant_spec hs hcall
  simp only [convertEntry, bind_eq_bind, bind_eq_some_iff] at hreply
  obtain ⟨converted, hconverted, hrest⟩ := hreply
  cases hrest
  obtain ⟨hids, hnone, hisReply⟩ := replyOf_spec hconverted
  have hne : out.isEmpty = false := by
    cases out with
    | nil =>
      have hcalls : callIds m = [] := huses.symm
      exact absurd (map_eq_nil_iff.mp hcalls) hproper.1
    | cons block rest => rfl
  rw [hne, if_neg (by simp)] at hparams
  refine ⟨invariant_push ht _, s.pendingSystemMessages ++ [WireMessage.assistant out, replyOf converted],
    ?_, ?_, ?_⟩
  · simp [Converting.push, hparams, replyOf]
  · intro w hw hwresults
    simp only [mem_append, mem_cons, not_mem_nil, or_false] at hw
    rcases hw with hw | rfl | rfl
    · exact absurd (hs.held w hw).2 hwresults
    · exact absurd hresults hwresults
    · exact hisReply
  · intro rest
    rw [append_assoc, answeredNext_plain hs.held]
    change AnsweredNext toolUseIds toolResultIds [] (.assistant out :: replyOf converted :: rest) ↔ _
    rw [answeredNext_exchange hresults hnone, huses, hids, Step.Answered]

theorem convertSteps {steps : List Step} (hs : Invariant s) (hproper : ∀ step ∈ steps, step.Proper)
    (h : (steps.flatMap Step.entries).foldlM (convertEntry setup native) s = some t) :
    Invariant t ∧ ∃ added, Writes s t added (∀ step ∈ steps, step.Answered) := by
  induction steps generalizing s with
  | nil =>
    cases h
    exact ⟨hs, [], by simp, by simp, by simp⟩
  | cons step rest ih =>
    have hstep := hproper step mem_cons_self
    have hrest := fun other hother => hproper other (mem_cons_of_mem _ hother)
    have hmid : ∃ u, (rest.flatMap Step.entries).foldlM (convertEntry setup native) u = some t ∧
        Invariant u ∧ ∃ added, Writes s u added step.Answered := by
      cases step with
      | plain m =>
        simp only [flatMap_cons, Step.entries, cons_append, nil_append,
          foldlM_cons, bind_eq_bind, bind_eq_some_iff] at h
        obtain ⟨u, hu, hrest⟩ := h
        exact ⟨u, hrest, convertEntry_plain hs hstep hu⟩
      | exchange m answers =>
        simp only [flatMap_cons, Step.entries, cons_append, nil_append,
          foldlM_cons, bind_eq_bind, bind_eq_some_iff] at h
        obtain ⟨v, hv, u, hu, hrest⟩ := h
        exact ⟨u, hrest, convertEntry_exchange hs hstep hv hu⟩
    obtain ⟨u, hu, hinvariant, first, hfirst⟩ := hmid
    obtain ⟨ht, second, hsecond⟩ := ih hinvariant hrest hu
    refine ⟨ht, first ++ second, ?_⟩
    simp only [forall_mem_cons]
    exact hfirst.trans hsecond

end Conversion

/-! ### Cache marks and effort markers -/

/-- The same tool uses and results, and still a reply. -/
structure SameTools (m n : WireMessage) : Prop where
  uses : toolUseIds m = toolUseIds n
  results : toolResultIds m = toolResultIds n
  reply : IsReply m → IsReply n

theorem SameTools.refl (m : WireMessage) : SameTools m m := ⟨rfl, rfl, id⟩

variable (cacheControl : Value)

theorem cacheLastBlock_bodies (blocks : List Block) :
    (cacheLastBlock cacheControl blocks).map Block.body = blocks.map Block.body := by
  fun_induction cacheLastBlock cacheControl blocks with
  | case1 => rfl
  | case2 block => split <;> rfl
  | case3 block rest _ ih => rw [map_cons, ih, map_cons]

theorem cacheMessage_same (m : WireMessage) : SameTools m (cacheMessage cacheControl m) := by
  match m with
  | .user (.text text) =>
    refine ⟨rfl, rfl, ?_⟩
    rintro ⟨blocks, results, others, hm, -⟩
    cases hm
  | .user (.blocks blocks) =>
    have hbodies := cacheLastBlock_bodies cacheControl blocks
    refine ⟨?_, ?_, ?_⟩
    · simp only [toolUseIds, bodies, AnthropicPairing.blocks, cacheMessage, hbodies]
    · simp only [toolResultIds, bodies, AnthropicPairing.blocks, cacheMessage, hbodies]
    · rintro ⟨_, results, others, hm, hsplit, hfirst, hlast⟩
      cases hm
      exact ⟨_, results, others, rfl, hbodies.trans hsplit, hfirst, hlast⟩
  | .system blocks effort =>
    have hbodies := cacheLastBlock_bodies cacheControl blocks
    refine ⟨?_, ?_, ?_⟩
    · simp only [toolUseIds, bodies, AnthropicPairing.blocks, cacheMessage, hbodies]
    · simp only [toolResultIds, bodies, AnthropicPairing.blocks, cacheMessage, hbodies]
    · rintro ⟨_, _, _, hm, -⟩
      cases hm
  | .assistant blocks => exact SameTools.refl _

theorem cacheLastMessage_same (messages : List WireMessage) :
    List.Forall₂ SameTools messages (cacheLastMessage cacheControl messages) := by
  fun_induction cacheLastMessage cacheControl messages with
  | case1 => exact .nil
  | case2 message => exact .cons (cacheMessage_same cacheControl message) .nil
  | case3 message rest _ ih => exact .cons (SameTools.refl message) ih

variable {messages : List WireMessage} {steps : List Step} {converted : ConvertedMessages}
  {others : List WireMessage} {levels : List (ℕ × String)} {index : ℕ} {params : Params}

theorem leading_of_same (h : List.Forall₂ SameTools messages others)
    (hleading : ∀ w ∈ messages, toolResultIds w ≠ [] → IsReply w) :
    ∀ w ∈ others, toolResultIds w ≠ [] → IsReply w := by
  induction h with
  | nil => exact hleading
  | cons hhead _ ih =>
    rw [forall_mem_cons] at hleading ⊢
    refine ⟨fun hresults => hhead.reply (hleading.1 ?_), ih hleading.2⟩
    rw [hhead.results]
    exact hresults

theorem effortMarker_silent (effort : String) : Silent (effortMarker effort) := ⟨rfl, rfl⟩

theorem insertEfforts_answered
    (h : ∀ i w, messages[i]? = some w → (levels.lookup (index + i)).isSome → toolResultIds w = [])
    (pending : List String) :
    AnsweredNext toolUseIds toolResultIds pending (insertEfforts levels index messages) ↔
      AnsweredNext toolUseIds toolResultIds pending messages := by
  induction messages generalizing index pending with
  | nil => exact .rfl
  | cons m rest ih =>
    have hlater : ∀ i w, rest[i]? = some w → (levels.lookup (index + 1 + i)).isSome →
        toolResultIds w = [] := by
      intro i w hw hlevel
      refine h (i + 1) w (by simpa using hw) ?_
      rw [show index + (i + 1) = index + 1 + i by omega]
      exact hlevel
    have hrest := fun pending => ih hlater pending
    rw [insertEfforts]
    cases hlevel : levels.lookup index with
    | none =>
      simp only [Option.map_none, Option.toList_none, nil_append, AnsweredNext, hrest]
    | some effort =>
      have hm := h 0 m rfl (by rw [Nat.add_zero, hlevel]; rfl)
      simp only [Option.map_some, Option.toList_some, cons_append, nil_append]
      rw [answeredNext_silent_before (effortMarker_silent effort).1
        (effortMarker_silent effort).2 hm, AnsweredNext, AnsweredNext, hrest]

theorem mem_insertEfforts {w : WireMessage} (h : w ∈ insertEfforts levels index messages) :
    w ∈ messages ∨ ∃ effort, w = effortMarker effort := by
  induction messages generalizing index with
  | nil => exact .inl h
  | cons m rest ih =>
    rw [insertEfforts, mem_append, mem_cons] at h
    rcases h with h | rfl | h
    · obtain ⟨effort, -, hw⟩ := Option.mem_map.mp (Option.mem_toList.mp h)
      exact .inr ⟨effort, hw.symm⟩
    · exact .inl mem_cons_self
    · rcases ih h with h | h
      · exact .inl (mem_cons_of_mem _ h)
      · exact .inr h

/-! ### The request -/

structure Converts (steps : List Step) (converted : ConvertedMessages) : Prop where
  leading : ∀ w ∈ converted.messages, toolResultIds w ≠ [] → IsReply w
  answered : AnsweredNext toolUseIds toolResultIds [] converted.messages ↔
    ∀ step ∈ steps, step.Answered
  levels : ∀ item ∈ converted.assistantLevels,
    ∃ w, converted.messages[item.1]? = some w ∧ toolResultIds w = []

theorem Converts.of_same (h : Converts steps converted)
    (hsame : List.Forall₂ SameTools converted.messages others) :
    Converts steps ⟨others, converted.assistantLevels⟩ where
  leading := leading_of_same hsame h.leading
  answered := by
    rw [← h.answered]
    exact (answeredNext_congr (hsame.imp fun _ _ hs => ⟨hs.uses, hs.results⟩) []).symm
  levels item hitem := by
    obtain ⟨w, hw, hresults⟩ := h.levels item hitem
    obtain ⟨hindex, hget⟩ := List.getElem?_eq_some_iff.mp hw
    have hlength := hsame.length_eq
    have hindex' : item.1 < others.length := by omega
    have hpair := (forall₂_iff_get.mp hsame).2 item.1 hindex hindex'
    refine ⟨others.get ⟨item.1, hindex'⟩, getElem?_eq_getElem hindex', ?_⟩
    rw [← hpair.results, get_eq_getElem, hget]
    exact hresults

variable {setup : Setup} {native : Bool}

theorem convertMessages_spec (hproper : ∀ step ∈ steps, step.Proper)
    (h : convertMessages setup native (steps.flatMap Step.messages) = some converted) :
    Converts steps converted := by
  simp only [convertMessages, entries_steps hproper, bind_eq_bind,
    bind_eq_some_iff] at h
  obtain ⟨s, hs, hrest⟩ := h
  have hstart : Invariant {} := ⟨by simp, by simp⟩
  obtain ⟨hinvariant, added, hwrites⟩ := convertSteps hstart hproper hs
  have hflush := hwrites.trans (writes_flush hinvariant)
  have hparams : (flushPendingSystemMessages s).params = added ++ s.pendingSystemMessages := by
    simpa using hflush.params
  have hbase : Converts steps ⟨(flushPendingSystemMessages s).params, s.assistantLevels⟩ := by
    refine ⟨?_, ?_, (invariant_flush hinvariant).levels⟩
    · rw [hparams]
      exact hflush.leading
    · have hanswered := hflush.answered []
      rw [append_nil] at hanswered
      dsimp only
      rw [hparams, hanswered]
      simp [AnsweredNext]
  cases hrest
  cases setup.cacheControl with
  | none => exact hbase
  | some cacheControl =>
    exact hbase.of_same (cacheLastMessage_same cacheControl _)

theorem insertThinkingLevelMessages_spec (h : Converts steps converted) (activeEffort : String) :
    ToolUsesAnswered (insertThinkingLevelMessages converted activeEffort) ↔
      ∀ step ∈ steps, step.Answered := by
  have hlevels : ∀ i w, converted.messages[i]? = some w →
      (converted.assistantLevels.lookup (0 + i)).isSome → toolResultIds w = [] := by
    intro i w hw hlevel
    obtain ⟨level, hlevel⟩ := Option.isSome_iff_exists.mp hlevel
    rw [Nat.zero_add] at hlevel
    obtain ⟨before, after, hsplit, -⟩ := lookup_eq_some_iff.mp hlevel
    obtain ⟨v, hv, hresults⟩ := h.levels (i, level) (by rw [hsplit]; simp)
    rw [hw] at hv
    rw [Option.some.inj hv]
    exact hresults
  have hanswered := insertEfforts_answered hlevels []
  have hlast := answeredNext_silent_last (effortMarker_silent activeEffort).1
    (effortMarker_silent activeEffort).2 []
    (insertEfforts converted.assistantLevels 0 converted.messages)
  have hleading : ∀ w ∈ insertThinkingLevelMessages converted activeEffort,
      toolResultIds w ≠ [] → IsReply w := by
    intro w hw hresults
    rcases mem_append.mp hw with hw | hw
    · rcases mem_insertEfforts hw with hw | ⟨effort, rfl⟩
      · exact h.leading w hw hresults
      · exact absurd (effortMarker_silent effort).2 hresults
    · rw [mem_singleton.mp hw] at hresults
      exact absurd (effortMarker_silent activeEffort).2 hresults
  rw [← h.answered, ← hanswered, ← hlast]
  exact ⟨fun hall => hall.answered, fun hall => ⟨hall, hleading⟩⟩

theorem buildParams_answered {context : List Message} (hconversation : Conversation context)
    (hdistinct : StayDistinct setup.model (some normalizeToolCallId) context)
    (h : buildParams setup context = some params) : ToolUsesAnswered params.messages ↔
      ResultsReachCalls setup.model (some normalizeToolCallId) context := by
  obtain ⟨rewritten, output, steps, houtput, htransformed⟩ :=
    transform_spec setup.model (some normalizeToolCallId) setup.now hconversation.typed
  obtain ⟨hsteps, hproper⟩ := transformed_proper hconversation htransformed
  have hreach := transformed_answered hconversation hdistinct htransformed
  -- The leading system message goes into the request's prompt.
  have hrest : ∃ later : List Step, (if (getInitialSystemMessage context).isSome then output.drop 1
        else output) = later.flatMap Step.messages ∧ (∀ step ∈ later, step.Proper) ∧
      ((∀ step ∈ later, step.Answered) ↔ ∀ step ∈ allSteps rewritten steps, step.Answered) := by
    by_cases hinitial : (getInitialSystemMessage context).isSome = true
    · obtain ⟨m, rest, rfl⟩ : ∃ m rest, context = .system m :: rest := by
        cases context with
        | nil => simp [getInitialSystemMessage] at hinitial
        | cons first rest =>
          cases first with
          | system m => exact ⟨m, rest, rfl⟩
          | _ => simp [getInitialSystemMessage] at hinitial
      obtain ⟨n, more, rfl⟩ : ∃ n more, rewritten = .system n :: more := by
        have hrewrites := htransformed.rewrites
        cases hrewrites with
        | cons hhead _ =>
          obtain ⟨n, rfl⟩ := hhead
          exact ⟨n, _, rfl⟩
      have hall : allSteps (.system n :: more) steps =
          .plain (.system n) :: allSteps more steps := rfl
      rw [hall, forall_mem_cons] at hproper
      refine ⟨allSteps more steps, ?_, hproper.2, ?_⟩
      · rw [if_pos hinitial, hsteps, hall]
        rfl
      · rw [hall, forall_mem_cons]
        exact ⟨fun hlater => ⟨trivial, hlater⟩, fun hboth => hboth.2⟩
    · refine ⟨allSteps rewritten steps, ?_, hproper, .rfl⟩
      rw [if_neg hinitial, hsteps]
  obtain ⟨later, hlater, hlaterProper, hlaterAnswered⟩ := hrest
  simp only [buildParams, houtput, bind_eq_bind, bind_some, hlater,
    bind_eq_some_iff] at h
  obtain ⟨converted, hconverted, tools, -, hparams⟩ := h
  cases hparams
  have hspec := convertMessages_spec hlaterProper hconverted
  rw [← hreach, ← hlaterAnswered]
  by_cases hefforts : setup.effortMessages = true
  · simp only [hefforts, if_true]
    exact insertThinkingLevelMessages_spec hspec _
  · simp only [hefforts, if_false, Bool.false_eq_true]
    rw [← hspec.answered]
    exact ⟨fun hall => hall.answered, fun hall => ⟨hall, hspec.leading⟩⟩

theorem request_answered_iff {messages : List Message} (hconversation : Conversation messages)
    (hdistinct : StayDistinct setup.model (some normalizeToolCallId) messages)
    (h : request setup messages = some params) : ToolUsesAnswered params.messages ↔
      ResultsReachCalls setup.model (some normalizeToolCallId) messages := by
  rw [← resultsReachCalls_resolve _ _ _ setup.supportsMidConvoSystemMessages]
  exact buildParams_answered (conversation_resolve hconversation _)
    (stayDistinct_resolve _ _ hdistinct _) h

end Pidrei.AnthropicPairing
