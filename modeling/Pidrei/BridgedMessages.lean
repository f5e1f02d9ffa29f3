import Pidrei.ToolResultBridge

/-!
The scan of a transcript against the conversion: the phase of the scan is read off the last
message on the wire and the role that the conversion remembers. The scan comes out the same
over the history, over what the first pass makes of it, and over the steps that the second
pass writes.
-/
namespace Pidrei.BridgedMessages

open List
open Option (bind_eq_bind bind_eq_some_iff bind_some)

open Values Messages AgentTypes Transcript TransformMessages ReplayPairing RequestTranscript
open ReplaySteps WireHistory OpenaiCompletions CompletionsPairing ToolResultBridge

def isToolMessage : WireMessage → Bool
  | .tool _ _ _ => true
  | _ => false

def isUserMessage : WireMessage → Bool
  | .user _ => true
  | _ => false

def NoUserAfterTool (wire : List WireMessage) : Prop :=
  wire.IsChain fun m n => isToolMessage m = true → isUserMessage n = false

def endsWithTool (wire : List WireMessage) : Bool := wire.getLast?.any isToolMessage

theorem noUserAfterTool_append (first second : List WireMessage) :
    NoUserAfterTool (first ++ second) ↔ NoUserAfterTool first ∧ NoUserAfterTool second ∧
      (endsWithTool first = true → ∀ n ∈ second.head?, isUserMessage n = false) := by
  unfold NoUserAfterTool endsWithTool
  rw [isChain_append]
  refine and_congr_right fun _ => and_congr_right fun _ => ?_
  cases first.getLast? with
  | none => simp
  | some m =>
    simp only [Option.mem_some_iff, forall_eq', Option.any_some]
    exact ⟨fun h htool n hn => h n hn htool, fun h n hn htool => h htool n hn⟩

theorem endsWithTool_append {first second : List WireMessage} (h : second ≠ []) :
    endsWithTool (first ++ second) = endsWithTool second := by
  unfold endsWithTool
  rw [getLast?_append_of_ne_nil _ h]

section Simulation

variable {setup : Setup} {folded : ℕ}

def writesContent (setup : Setup) (m : AssistantMessage) : Bool :=
  hasText m.content || (setup.requiresThinkingAsText && hasThinking m.content)

/-- The phase that the last message on the wire and the last role stand for. -/
def PhaseOf (s : Converting) : Phase → Prop
  | .clear => endsWithTool s.params = false
  | .results => endsWithTool s.params = true ∧ s.lastRole = some .toolResult
  | .muted => endsWithTool s.params = true ∧ s.lastRole ≠ some .toolResult

structure Simulates (s : Converting) (c : Scan) : Prop where
  index : s.systemIndex = c.systemIndex
  leading : s.leading = true → s.params = []
  chain : NoUserAfterTool s.params ↔ c.slipped = false
  phase : PhaseOf s c.phase

variable {s t : Converting} {c : Scan} {m : AssistantMessage}

theorem simulates_clear {d : Scan} {added : List WireMessage} (h : Simulates s c)
    (hparams : t.params = s.params ++ added) (hne : added ≠ [])
    (hplain : ∀ w ∈ added, isToolMessage w = false ∧ isUserMessage w = false)
    (hindex : t.systemIndex = d.systemIndex) (hleading : t.leading = false)
    (hslipped : d.slipped = c.slipped) (hphase : d.phase = .clear) : Simulates t d where
  index := hindex
  leading hl := by
    rw [hleading] at hl
    cases hl
  chain := by
    have hadded : NoUserAfterTool added := by
      apply List.Pairwise.isChain
      exact pairwise_of_forall_mem_list fun m hm n hn _ => (hplain n hn).2
    rw [hparams, noUserAfterTool_append, hslipped, ← h.chain]
    refine ⟨fun hall => hall.1, fun hs => ⟨hs, hadded, fun _ n hn => ?_⟩⟩
    exact (hplain n (mem_of_mem_head? hn)).2
  phase := by
    rw [hphase]
    change endsWithTool t.params = false
    rw [hparams, endsWithTool_append hne, endsWithTool]
    cases hlast : added.getLast? with
    | none => rfl
    | some w => exact (hplain w (mem_of_mem_getLast? hlast)).1

theorem toolMessages_plain {tools : List Tool} {out : List WireMessage}
    (h : toolMessages setup tools = some out) :
    (out = [] ↔ tools = []) ∧
      ∀ w ∈ out, isToolMessage w = false ∧ isUserMessage w = false := by
  unfold toolMessages at h
  split at h
  · rename_i hnone
    cases h
    simp [hnone]
  · rename_i hsome
    simp only [bind_eq_bind, bind_eq_some_iff] at h
    obtain ⟨converted, -, hout⟩ := h
    cases hout
    refine ⟨by simp [hsome], ?_⟩
    simp [isToolMessage, isUserMessage]

/-- Before the first message nothing is on the wire. -/
theorem Simulates.phase_of_leading (h : Simulates s c) (hl : s.leading = true) :
    c.phase = .clear := by
  have hphase := h.phase
  cases hc : c.phase with
  | clear => rfl
  | _ =>
    rw [hc, PhaseOf, h.leading hl] at hphase
    exact absurd hphase.1 (by simp [endsWithTool])

theorem convertSystem_writes {m : SystemMessage} (h : convertSystem setup folded s m = some t) :
    ∃ added, t.params = s.params ++ added ∧ t.lastRole = some .system ∧
      t.systemIndex = s.systemIndex + 1 ∧ t.leading = false ∧
      (∀ w ∈ added, isToolMessage w = false ∧ isUserMessage w = false) ∧
      (s.leading = false → (added = [] ↔ systemSends folded s.systemIndex m = false)) := by
  simp only [convertSystem, bind_eq_bind, bind_eq_some_iff] at h
  obtain ⟨tools, htools, hrest⟩ := h
  obtain ⟨hnone, hplain⟩ := toolMessages_plain htools
  cases hrest
  refine ⟨_, rfl, rfl, rfl, rfl, ?_, ?_⟩
  · intro w hw
    rcases mem_append.mp hw with hw | hw
    · exact hplain w hw
    · by_cases htext : (if s.leading = true then getSystemMessageText m
        else renderSystemMessageUpdate m) = ""
      · rw [if_pos htext] at hw
        exact absurd hw not_mem_nil
      · rw [if_neg htext] at hw
        rw [mem_singleton.mp hw]
        exact ⟨rfl, rfl⟩
  · intro hl
    rw [append_eq_nil_iff, hnone, hl]
    simp only [Bool.false_eq_true, if_false, systemSends]
    by_cases htext : renderSystemMessageUpdate m = ""
    · by_cases hle : folded ≤ s.systemIndex <;> simp [htext, hle]
    · simp [htext]

variable (sends : AssistantMessage → Bool) (params : List WireMessage)

theorem simulates_system {m : SystemMessage} (h : Simulates s c)
    (hstep : convertSystem setup folded s m = some t) :
    Simulates t (scan setup sends folded c (.system m)) := by
  obtain ⟨added, hparams, hrole, hindex, hleading, hplain, hsends⟩ := convertSystem_writes hstep
  have hindex' : t.systemIndex = (scan setup sends folded c (.system m)).systemIndex := by
    rw [hindex, h.index]
    rfl
  have hslipped : (scan setup sends folded c (.system m)).slipped = c.slipped := rfl
  by_cases hempty : added = []
  · rw [hempty, append_nil] at hparams
    refine ⟨hindex', (fun hl => by rw [hleading] at hl; cases hl), by rw [hparams]; exact h.chain, ?_⟩
    have hphase := h.phase
    cases hc : c.phase with
    | clear =>
      rw [hc, PhaseOf] at hphase
      have hd : (scan setup sends folded c (.system m)).phase = .clear := by simp [scan, hc]
      rw [hd, PhaseOf, hparams]
      exact hphase
    | results | muted =>
      rw [hc, PhaseOf] at hphase
      have hl : s.leading = false := by
        rw [← Bool.not_eq_true]
        intro hl
        rw [h.phase_of_leading hl] at hc
        cases hc
      have hquiet := (hsends hl).mp hempty
      rw [h.index] at hquiet
      have hd : (scan setup sends folded c (.system m)).phase = .muted := by
        simp [scan, hquiet, hc]
      rw [hd, PhaseOf, hparams, hrole]
      exact ⟨hphase.1, by simp⟩
  · refine simulates_clear h hparams hempty hplain hindex' hleading hslipped ?_
    cases hl : s.leading with
    | true => simp [scan, h.phase_of_leading hl]
    | false =>
      have hsent : systemSends folded c.systemIndex m = true := by
        rw [← h.index, ← Bool.not_eq_false]
        exact fun hquiet => hempty ((hsends hl).mpr hquiet)
      simp [scan, hsent]

/-! ### User messages -/

theorem convertUserItem_sends {item : ContentBlock} {out : List Part}
    (h : convertUserItem item = some out) : out = [] ↔ itemSends item = false := by
  cases item with
  | text text signature =>
    cases h
    by_cases htext : text = "" <;> simp [htext, itemSends]
  | image data mimeType =>
    cases h
    simp [itemSends]
  | _ => cases h

variable {items : List ContentBlock} {tools : List WireMessage}

theorem convertUserItems_sends {parts : List (List Part)}
    (h : items.mapM convertUserItem = some parts) :
    parts.flatten = [] ↔ items.any itemSends = false := by
  have hall := forall₂_of_mapM h
  clear h
  induction hall with
  | nil => simp
  | cons hitem _ ih =>
    rw [flatten_cons, append_eq_nil_iff, convertUserItem_sends hitem, any_cons,
      Bool.or_eq_false_iff]
    exact and_congr_right fun _ => ih

/-- The bridge that is written before a user message. -/
def bridges (s : Converting) : List WireMessage :=
  if s.lastRole = some .toolResult then [bridge] else []

theorem bridgeToUser_eq (hbridge : setup.requiresAssistantAfterToolResult = true)
    (s : Converting) : bridgeToUser setup s = s.push (bridges s) := by
  unfold bridgeToUser bridges
  by_cases h : s.lastRole = some .toolResult
  · rw [if_pos ⟨hbridge, h⟩, if_pos h]
  · rw [if_neg fun hboth => h hboth.2, if_neg h]
    simp [Converting.push]

theorem convertUser_writes (hbridge : setup.requiresAssistantAfterToolResult = true)
    {m : Messages.UserMessage} (h : convertUser setup s m = some t) :
    t.systemIndex = s.systemIndex ∧ t.leading = false ∧
      ((userSends m.content = true ∧ t.lastRole = some .user ∧
          ∃ content, t.params = s.params ++ (bridges s ++ [WireMessage.user content])) ∨
        (userSends m.content = false ∧ t.lastRole = s.lastRole ∧
          t.params = s.params ++ bridges s)) := by
  unfold convertUser at h
  rw [bridgeToUser_eq hbridge] at h
  cases hcontent : m.content with
  | text text =>
    rw [hcontent] at h
    cases h
    exact ⟨rfl, rfl, .inl ⟨rfl, rfl, .text text, append_assoc _ _ _⟩⟩
  | missing =>
    rw [hcontent] at h
    cases h
  | blocks items =>
    rw [hcontent] at h
    simp only [iterBlocks, bind_eq_bind, bind_some, bind_eq_some_iff] at h
    obtain ⟨parts, hparts, hrest⟩ := h
    have hsends := convertUserItems_sends hparts
    simp only [List.isEmpty_iff] at hrest
    by_cases hempty : parts.flatten = []
    · rw [if_pos hempty] at hrest
      cases hrest
      exact ⟨rfl, rfl, .inr ⟨hsends.mp hempty, rfl, rfl⟩⟩
    · rw [if_neg hempty] at hrest
      cases hrest
      rw [hsends, Bool.not_eq_false] at hempty
      exact ⟨rfl, rfl, .inl ⟨hempty, rfl, .parts parts.flatten, append_assoc _ _ _⟩⟩

theorem noUserAfterTool_user (content : WireContent) : NoUserAfterTool (params ++ [WireMessage.user content]) ↔
      NoUserAfterTool params ∧ endsWithTool params = false := by
  rw [noUserAfterTool_append]
  simp [NoUserAfterTool, isUserMessage]

theorem noUserAfterTool_bridge : NoUserAfterTool (params ++ [bridge]) ↔ NoUserAfterTool params := by
  rw [noUserAfterTool_append]
  simp [NoUserAfterTool, isUserMessage, bridge]

theorem endsWithTool_bridge : endsWithTool (params ++ [bridge]) = false := by
  rw [endsWithTool_append (by simp)]
  rfl

theorem simulates_user (hbridge : setup.requiresAssistantAfterToolResult = true)
    {m : Messages.UserMessage} (sends : AssistantMessage → Bool) (h : Simulates s c)
    (hstep : convertUser setup s m = some t) :
    Simulates t (scan setup sends folded c (.user m)) := by
  obtain ⟨hindex, hleading, hwritten⟩ := convertUser_writes hbridge hstep
  -- Behind the bridge, if there is one, a tool message stands last only when muted.
  have hbridged : (NoUserAfterTool (s.params ++ bridges s) ↔ c.slipped = false) ∧
      endsWithTool (s.params ++ bridges s) = decide (c.phase = .muted) := by
    have hphase := h.phase
    unfold bridges
    cases hc : c.phase with
    | clear =>
      rw [hc, PhaseOf] at hphase
      split
      · rw [noUserAfterTool_bridge, endsWithTool_bridge]
        exact ⟨h.chain, rfl⟩
      · rw [append_nil, hphase]
        exact ⟨h.chain, rfl⟩
    | results =>
      rw [hc, PhaseOf] at hphase
      rw [if_pos hphase.2, noUserAfterTool_bridge, endsWithTool_bridge]
      exact ⟨h.chain, rfl⟩
    | muted =>
      rw [hc, PhaseOf] at hphase
      rw [if_neg hphase.2, append_nil, hphase.1]
      exact ⟨h.chain, rfl⟩
  rcases hwritten with ⟨hsends, hrole, content, hparams⟩ | ⟨hsends, hrole, hparams⟩
  · rw [← append_assoc] at hparams
    have hd : scan setup sends folded c (.user m) =
        { c with phase := .clear, slipped := c.slipped || c.phase == .muted } := by
      simp [scan, hsends]
    rw [hd]
    refine ⟨hindex.trans h.index, (fun hl => by rw [hleading] at hl; cases hl), ?_, ?_⟩
    · rw [hparams, noUserAfterTool_user, hbridged.1, hbridged.2]
      simp
    · rw [PhaseOf, hparams, endsWithTool_append (by simp)]
      rfl
  · have hd : scan setup sends folded c (.user m) =
        { c with phase := if c.phase = .results then .clear else c.phase } := by
      simp [scan, hsends]
    rw [hd]
    refine ⟨hindex.trans h.index, (fun hl => by rw [hleading] at hl; cases hl), ?_, ?_⟩
    · rw [hparams]
      exact hbridged.1
    · have hends := hbridged.2
      rw [← hparams] at hends
      have hphase := h.phase
      cases hc : c.phase with
      | clear | results =>
        rw [hc] at hends
        exact hends
      | muted =>
        rw [hc] at hends hphase
        exact ⟨hends, by rw [hrole]; exact hphase.2⟩

/-! ### Assistant messages and tool results -/

theorem contentBlocks_of_iterBlocks {content : Content} (h : iterBlocks content = some items) :
    contentBlocks content = items := by
  cases content with
  | missing => cases h
  | text s =>
    rw [iterBlocks] at h
    split at h <;> cases h
    rfl
  | blocks blocks =>
    cases h
    rfl

theorem nonblank_length {text : String} (h : nonblank text = true) : 0 < text.length := by
  by_contra hzero
  have hempty : text = "" := String.length_eq_zero_iff.mp (by omega)
  rw [hempty] at h
  exact absurd h (by decide)

theorem hasContent_assistantContent (hbridge : setup.requiresAssistantAfterToolResult = true)
    {texts thinkings : List String} (h : ∀ text ∈ texts, nonblank text = true) :
    (assistantContent setup texts thinkings).hasContent =
      (!texts.isEmpty || (setup.requiresThinkingAsText && !thinkings.isEmpty)) := by
  unfold assistantContent
  by_cases hthinking : thinkings ≠ [] ∧ setup.requiresThinkingAsText = true
  · simp [WireContent.hasContent, hthinking.1, hthinking.2]
  · have hno : (setup.requiresThinkingAsText && !thinkings.isEmpty) = false := by
      simpa [and_comm] using hthinking
    rw [if_neg hthinking, hno, Bool.or_false]
    by_cases htexts : texts = []
    · simp [htexts, emptyContent, hbridge, WireContent.hasContent]
    · have hpos := (joinText_length_pos "" texts fun text ht => nonblank_length (h text ht)).mpr
        htexts
      simp [htexts, WireContent.hasContent, hpos]

theorem convertAssistant_writes (hbridge : setup.requiresAssistantAfterToolResult = true)
    (h : convertAssistant setup s m = some t) : t.systemIndex = s.systemIndex ∧ t.leading = false ∧
      (((toolCalls m ≠ [] ∨ writesContent setup m = true) ∧
          ∃ param, t.params = s.params ++ [WireMessage.assistant param]) ∨
        (toolCalls m = [] ∧ writesContent setup m = false ∧ t.lastRole = s.lastRole ∧
          t.params = s.params)) := by
  simp only [convertAssistant, bind_eq_bind, bind_eq_some_iff] at h
  obtain ⟨items, hitems, param, hparam, hrest⟩ := h
  obtain ⟨-, hnone⟩ := assistantParam_calls hparam
  have hcalls : toolCalls m = [] ↔ param.toolCalls = none := by
    have hids : callIds m = blockIds items := callIds_of_iterBlocks hitems
    rw [hnone, ← map_eq_nil_iff (f := ToolCall.id)]
    change callIds m = [] ↔ _
    rw [hids, blockIds, map_eq_nil_iff]
  have hcontent : param.content.hasContent = writesContent setup m := by
    simp only [assistantParam, bind_eq_bind, bind_eq_some_iff] at hparam
    obtain ⟨converted, -, hout⟩ := hparam
    cases hout
    rw [hasContent_assistantContent hbridge]
    · have htexts : (items.filterMap nonblankText).isEmpty =
          !items.any fun block => (nonblankText block).isSome := by
        rw [Bool.eq_iff_iff]
        simp [filterMap_eq_nil_iff]
      have hthinkings : (((items.filterMap thinkingBlock).filter fun block =>
          nonblank block.1).map Prod.fst).isEmpty =
            !items.any fun block => (thinkingBlock block).any fun item => nonblank item.1 := by
        rw [Bool.eq_iff_iff]
        simp only [List.isEmpty_iff, map_eq_nil_iff, filter_eq_nil_iff,
          mem_filterMap, Bool.not_eq_true', any_eq_false]
        constructor
        · intro hall block hblock hany
          cases hitem : thinkingBlock block with
          | none => simp [hitem] at hany
          | some item =>
            rw [hitem] at hany
            exact hall item ⟨block, hblock, hitem⟩ hany
        · rintro hall item ⟨block, hblock, hitem⟩ hblank
          exact hall block hblock (by rw [hitem]; exact hblank)
      rw [htexts, hthinkings, writesContent, hasText, hasThinking,
        contentBlocks_of_iterBlocks hitems]
      simp
    · intro text htext
      obtain ⟨block, -, hblock⟩ := mem_filterMap.mp htext
      unfold nonblankText at hblock
      split at hblock
      · split at hblock
        · rename_i hblank
          cases hblock
          exact hblank
        · cases hblock
      · cases hblock
  by_cases hskip : (!param.content.hasContent && param.toolCalls.isNone) = true
  · rw [if_pos hskip] at hrest
    cases hrest
    rw [Bool.and_eq_true, Option.isNone_iff_eq_none, hcontent, ← hcalls] at hskip
    exact ⟨rfl, rfl, .inr ⟨hskip.2, by simpa using hskip.1, rfl, rfl⟩⟩
  · rw [if_neg hskip] at hrest
    cases hrest
    rw [Bool.and_eq_true, Option.isNone_iff_eq_none, hcontent, ← hcalls] at hskip
    refine ⟨rfl, rfl, .inl ⟨?_, param, rfl⟩⟩
    by_cases hnil : toolCalls m = []
    · right
      simpa [hnil] using hskip
    · exact .inl hnil

theorem simulates_assistant (hbridge : setup.requiresAssistantAfterToolResult = true)
    (h : Simulates s c) (hcalls : toolCalls m = []) (hstep : convertAssistant setup s m = some t) :
    Simulates t (scan setup (writesContent setup) folded c (.assistant m)) := by
  obtain ⟨hindex, hleading, ⟨hwrites, param, hparams⟩ | ⟨-, hsilent, hrole, hparams⟩⟩ :=
    convertAssistant_writes hbridge hstep
  · have hcontent : writesContent setup m = true := by simpa [hcalls] using hwrites
    refine simulates_clear h hparams (by simp) ?_ ?_ hleading ?_ ?_
    · simp [isToolMessage, isUserMessage]
    · simpa [scan, hcalls, hcontent] using hindex.trans h.index
    · simp [scan, hcalls, hcontent]
    · simp [scan, hcalls, hcontent]
  · have hd : scan setup (writesContent setup) folded c (.assistant m) = c := by
      simp [scan, hcalls, hsilent]
    rw [hd]
    refine ⟨hindex.trans h.index, (fun hl => by rw [hleading] at hl; cases hl),
      by rw [hparams]; exact h.chain, ?_⟩
    have hphase := h.phase
    cases hc : c.phase with
    | clear =>
      rw [hc, PhaseOf] at hphase
      rw [PhaseOf, hparams]
      exact hphase
    | results | muted =>
      rw [hc, PhaseOf] at hphase
      rw [PhaseOf, hparams, hrole]
      exact hphase

theorem scan_results (c : Scan) (answers : List ToolResultMessage) :
    (answers.map Message.toolResult).foldl (scan setup sends folded) c =
      if answers.any (resultSendsImages setup) then { c with phase := .clear } else c := by
  induction answers generalizing c with
  | nil => rfl
  | cons answer rest ih =>
    rw [map_cons, foldl_cons, ih, any_cons]
    by_cases hsends : resultSendsImages setup answer = true <;>
      by_cases hrest : rest.any (resultSendsImages setup) = true <;>
      simp [scan, hsends, hrest]

theorem convertResult_images {msg : ToolResultMessage} {out : WireMessage × List Part}
    (h : convertResult setup msg = some out) :
    isToolMessage out.1 = true ∧ (out.2 = [] ↔ resultSendsImages setup msg = false) := by
  simp only [convertResult, bind_eq_bind, bind_eq_some_iff] at h
  obtain ⟨blocks, hblocks, hrest⟩ := h
  cases hrest
  refine ⟨rfl, ?_⟩
  have himages : blocks.filterMap imagePart = [] ↔ blocks.any isImage = false := by
    rw [filterMap_eq_nil_iff, any_eq_false]
    refine forall₂_congr fun block _ => ?_
    cases block <;> simp [imagePart, isImage]
  rw [resultSendsImages, contentBlocks_of_iterBlocks hblocks]
  by_cases hvision : "image" ∈ setup.model.input
  · simp [hvision, himages]
  · simp [hvision]

theorem convertResults_writes (hbridge : setup.requiresAssistantAfterToolResult = true)
    {msgs : List ToolResultMessage} (hne : msgs ≠ []) (h : convertResults setup s msgs = some t) :
    ∃ tools, tools ≠ [] ∧ (∀ w ∈ tools, isToolMessage w = true) ∧
      t.systemIndex = s.systemIndex ∧ t.leading = false ∧
        ((msgs.any (resultSendsImages setup) = false ∧ t.lastRole = some .toolResult ∧
            t.params = s.params ++ tools) ∨
          (msgs.any (resultSendsImages setup) = true ∧
            ∃ content, t.params = s.params ++ tools ++ [bridge, .user content])) := by
  simp only [convertResults, bind_eq_bind, bind_eq_some_iff] at h
  obtain ⟨converted, hconverted, hrest⟩ := h
  have hall := forall₂_of_mapM hconverted
  have htools : ∀ w ∈ converted.map Prod.fst, isToolMessage w = true := by
    intro w hw
    obtain ⟨pair, hpair, rfl⟩ := mem_map.mp hw
    obtain ⟨msg, -, hmsg⟩ := mem_of_mapM hconverted hpair
    exact (convertResult_images hmsg).1
  have himages : converted.flatMap Prod.snd = [] ↔ msgs.any (resultSendsImages setup) = false := by
    clear hrest htools hconverted hne
    induction hall with
    | nil => simp
    | cons hmsg _ ih =>
      rw [flatMap_cons, append_eq_nil_iff, (convertResult_images hmsg).2, any_cons,
        Bool.or_eq_false_iff]
      exact and_congr_right fun _ => ih
  have hnonempty : converted.map Prod.fst ≠ [] := by
    intro hnil
    have hlength := hall.length_eq
    rw [map_eq_nil_iff] at hnil
    rw [hnil, length_nil] at hlength
    exact hne (length_eq_zero_iff.mp hlength)
  by_cases hnone : converted.flatMap Prod.snd = []
  · rw [if_pos hnone] at hrest
    cases hrest
    exact ⟨_, hnonempty, htools, rfl, rfl, .inl ⟨himages.mp hnone, rfl, rfl⟩⟩
  · rw [if_neg hnone] at hrest
    simp only [hbridge, if_true] at hrest
    cases hrest
    rw [himages, Bool.not_eq_false] at hnone
    exact ⟨_, hnonempty, htools, rfl, rfl, .inr ⟨hnone, _, rfl⟩⟩

theorem noUserAfterTool_tools (h : ∀ w ∈ tools, isToolMessage w = true) :
    NoUserAfterTool tools := by
  apply List.Pairwise.isChain
  refine pairwise_of_forall_mem_list fun m _ n hn _ => ?_
  have htool := h n hn
  cases n <;> first | rfl | simp [isToolMessage] at htool

theorem endsWithTool_tools (hne : tools ≠ []) (h : ∀ w ∈ tools, isToolMessage w = true)
    (params : List WireMessage) : endsWithTool (params ++ tools) = true := by
  rw [endsWithTool_append hne, endsWithTool, getLast?_eq_some_getLast hne]
  exact h _ (getLast_mem hne)

theorem simulates_exchange (hbridge : setup.requiresAssistantAfterToolResult = true)
    {u : Converting} {answers : List ToolResultMessage} (sends : AssistantMessage → Bool)
    (h : Simulates s c) (hproper : (Step.exchange m answers).Proper)
    (hcall : convertAssistant setup s m = some t)
    (hreply : convertResults setup t answers = some u) :
    Simulates u ((Step.exchange m answers).messages.foldl (scan setup sends folded) c) := by
  obtain ⟨hcalls, hanswers⟩ := hproper
  obtain ⟨hindex, -, ⟨-, param, hparams⟩ | ⟨hnone, -⟩⟩ := convertAssistant_writes hbridge hcall
  swap
  · exact absurd hnone hcalls
  obtain ⟨tools, hne, htools, hindex', hleading, hwritten⟩ :=
    convertResults_writes hbridge hanswers hreply
  have hscan : (Step.exchange m answers).messages.foldl (scan setup sends folded) c =
      { c with phase := if answers.any (resultSendsImages setup) then .clear else .results } := by
    rw [Step.messages, foldl_cons, scan_results]
    by_cases himages : answers.any (resultSendsImages setup) = true <;>
      simp [scan, hcalls, himages]
  have hchain : NoUserAfterTool (t.params ++ tools) ↔ c.slipped = false := by
    rw [hparams, append_assoc, noUserAfterTool_append, ← h.chain]
    refine ⟨fun hall => hall.1, fun hs => ⟨hs, ?_, fun _ n hn => by cases hn; rfl⟩⟩
    change NoUserAfterTool (.assistant param :: tools)
    rw [NoUserAfterTool, isChain_cons]
    exact ⟨fun n hn => (fun h => by cases h), noUserAfterTool_tools htools⟩
  rw [hscan]
  refine ⟨hindex'.trans (hindex.trans h.index), (fun hl => by rw [hleading] at hl; cases hl), ?_, ?_⟩
  · rcases hwritten with ⟨-, -, hout⟩ | ⟨-, content, hout⟩
    · rw [hout]
      exact hchain
    · have hsplit : t.params ++ tools ++ [bridge, .user content] =
          t.params ++ tools ++ [bridge] ++ [WireMessage.user content] := by simp
      rw [hout, hsplit, noUserAfterTool_user, noUserAfterTool_bridge, endsWithTool_bridge]
      simpa using hchain
  · rcases hwritten with ⟨himages, hrole, hout⟩ | ⟨himages, content, hout⟩
    · simp only [himages, Bool.false_eq_true, if_false]
      exact ⟨by rw [hout]; exact endsWithTool_tools hne htools t.params, hrole⟩
    · simp only [himages, if_true]
      rw [PhaseOf, hout, endsWithTool_append (by simp)]
      rfl

theorem simulates_steps (hbridge : setup.requiresAssistantAfterToolResult = true)
    {steps : List Step} (h : Simulates s c) (hproper : ∀ step ∈ steps, step.Proper)
    (hrun : (steps.flatMap Step.entries).foldlM (convertEntry setup folded) s = some t) :
    Simulates t ((steps.flatMap Step.messages).foldl
      (scan setup (writesContent setup) folded) c) := by
  induction steps generalizing s c with
  | nil =>
    cases hrun
    exact h
  | cons step rest ih =>
    have hstep := hproper step mem_cons_self
    have hrest := fun other hother => hproper other (mem_cons_of_mem _ hother)
    rw [flatMap_cons, foldl_append]
    cases step with
    | plain m =>
      simp only [flatMap_cons, Step.entries, cons_append, nil_append,
        foldlM_cons, bind_eq_bind, bind_eq_some_iff] at hrun
      obtain ⟨u, hu, hrun⟩ := hrun
      refine ih ?_ hrest hrun
      change Simulates u (scan setup (writesContent setup) folded c m)
      cases m with
      | system m => exact simulates_system (writesContent setup) h hu
      | user m => exact simulates_user hbridge (writesContent setup) h hu
      | assistant m => exact simulates_assistant hbridge h hstep hu
      | _ => exact absurd hstep id
    | exchange m answers =>
      simp only [flatMap_cons, Step.entries, cons_append, nil_append,
        foldlM_cons, bind_eq_bind, bind_eq_some_iff] at hrun
      obtain ⟨v, hv, u, hu, hrun⟩ := hrun
      exact ih (simulates_exchange hbridge _ h hstep hv hu) hrest hrun

end Simulation

/-! ### The scan over the steps and over the messages -/

section Reordering

variable (setup : Setup) (sends : AssistantMessage → Bool) (folded : ℕ)

/-- Whether something is sent behind the results of a turn, from a system message's index on. -/
def tailSends : ℕ → List Message → Bool
  | _, [] => false
  | index, .system m :: rest => systemSends folded index m || tailSends (index + 1) rest
  | index, .toolResult m :: rest => resultSendsImages setup m || tailSends index rest
  | index, _ :: rest => tailSends index rest

def tailPhase (phase : Phase) (sent hasSystem : Bool) : Phase :=
  if sent then .clear else if phase = .results ∧ hasSystem then .muted else phase

variable {tail : List Message} (c : Scan) (answers : List ToolResultMessage)

theorem scan_tail (h : ∀ m ∈ tail, IsTail m) : tail.foldl (scan setup sends folded) c =
      { phase := tailPhase c.phase (tailSends setup folded c.systemIndex tail)
          (tail.any Message.isSystem)
        systemIndex := c.systemIndex + systemCount tail
        slipped := c.slipped } := by
  induction tail generalizing c with
  | nil => simp [tailPhase, tailSends, systemCount]
  | cons m rest ih =>
    have hm := h m mem_cons_self
    rw [foldl_cons, ih _ fun other hother => h other (mem_cons_of_mem _ hother)]
    cases m with
    | system m =>
      have hcount : systemCount (.system m :: rest) = systemCount rest + 1 := rfl
      have hindex : (scan setup sends folded c (.system m)).systemIndex = c.systemIndex + 1 := rfl
      rw [hindex, hcount, show c.systemIndex + 1 + systemCount rest =
        c.systemIndex + (systemCount rest + 1) by omega]
      congr 1
      by_cases hsends : systemSends folded c.systemIndex m = true
      · simp [scan, hsends, tailSends, tailPhase]
      · cases hphase : c.phase <;> cases hrest : tailSends setup folded (c.systemIndex + 1) rest <;>
          simp [scan, hsends, tailSends, tailPhase, hphase, hrest, Message.isSystem]
    | toolResult r =>
      have hcount : systemCount (.toolResult r :: rest) = systemCount rest := rfl
      have hindex : (scan setup sends folded c (.toolResult r)).systemIndex = c.systemIndex := by
        simp only [scan]
        split <;> rfl
      have hslipped : (scan setup sends folded c (.toolResult r)).slipped = c.slipped := by
        simp only [scan]
        split <;> rfl
      rw [hindex, hcount, hslipped]
      congr 1
      by_cases hsends : resultSendsImages setup r = true
      · simp [scan, hsends, tailSends, tailPhase]
      · simp [scan, hsends, tailSends, Message.isSystem]
    | _ => exact absurd hm id

theorem tailSends_split (index : ℕ) (h : ∀ m ∈ tail, IsTail m) : tailSends setup folded index tail =
      ((turnResults tail).any (resultSendsImages setup) ||
        tailSends setup folded index (tail.filter Message.isSystem)) := by
  induction tail generalizing index with
  | nil => rfl
  | cons m rest ih =>
    have hm := h m mem_cons_self
    have hrest := fun index => ih index fun other hother => h other (mem_cons_of_mem _ hother)
    cases m with
    | system m =>
      have hfilter : (Message.system m :: rest).filter Message.isSystem =
          .system m :: rest.filter Message.isSystem := rfl
      have hresults : turnResults (.system m :: rest) = turnResults rest := rfl
      rw [hfilter, hresults, tailSends, tailSends, hrest, ← Bool.or_assoc, ← Bool.or_assoc,
        Bool.or_comm (systemSends folded index m)]
    | toolResult r =>
      have hfilter : (Message.toolResult r :: rest).filter Message.isSystem =
          rest.filter Message.isSystem := rfl
      have hresults : turnResults (.toolResult r :: rest) = r :: turnResults rest := rfl
      rw [hfilter, hresults, tailSends, hrest, any_cons, Bool.or_assoc]
    | _ => exact absurd hm id

theorem isTail_results : ∀ m ∈ answers.map Message.toolResult, IsTail m := by
  intro m hm
  obtain ⟨r, -, rfl⟩ := mem_map.mp hm
  exact trivial

theorem turnResults_map : turnResults (answers.map Message.toolResult) = answers := by
  induction answers with
  | nil => rfl
  | cons answer rest ih =>
    have hcons : turnResults (.toolResult answer :: rest.map Message.toolResult) =
        answer :: turnResults (rest.map Message.toolResult) := rfl
    rw [map_cons, hcons, ih]

theorem turnResults_systems (tail : List Message) :
    turnResults (tail.filter Message.isSystem) = [] := by
  rw [turnResults, filterMap_eq_nil_iff]
  intro m hm
  have hsystem := (mem_filter.mp hm).2
  cases m <;> first | rfl | simp [Message.isSystem] at hsystem

theorem filter_system_results : (answers.map Message.toolResult).filter Message.isSystem = [] := by
  simp [filter_eq_nil_iff, Message.isSystem]

theorem resultSendsImages_of_isNoResult {r : ToolResultMessage} (h : IsNoResult r) :
    resultSendsImages setup r = false := by
  obtain ⟨call, timestamp, rfl⟩ := h
  simp [resultSendsImages, contentBlocks, unansweredResult, isImage]

theorem scan_exchange {m : AssistantMessage} {answers : List ToolResultMessage}
    (h : ∀ m ∈ tail, IsTail m) (hanswers : ∀ r ∈ answers, IsNoResult r) :
    ((Step.exchange m (turnResults tail ++ answers)).messages ++
        tail.filter Message.isSystem).foldl (scan setup sends folded) c =
      (Message.assistant m :: tail).foldl (scan setup sends folded) c := by
  have hreordered : ∀ x ∈ (turnResults tail ++ answers).map Message.toolResult ++
      tail.filter Message.isSystem, IsTail x := by
    intro x hx
    rcases mem_append.mp hx with hx | hx
    · exact isTail_results _ x hx
    · exact h x (mem_filter.mp hx).1
  have hsystems : ((turnResults tail ++ answers).map Message.toolResult ++
      tail.filter Message.isSystem).filter Message.isSystem = tail.filter Message.isSystem := by
    rw [filter_append, filter_system_results, filter_filter]
    simp
  have hresults : turnResults ((turnResults tail ++ answers).map Message.toolResult ++
      tail.filter Message.isSystem) = turnResults tail ++ answers := by
    have hsplit : ∀ xs ys, turnResults (xs ++ ys) = turnResults xs ++ turnResults ys :=
      fun _ _ => filterMap_append
    rw [hsplit, turnResults_map, turnResults_systems, append_nil]
  have hnone : answers.any (resultSendsImages setup) = false := by
    rw [any_eq_false]
    intro r hr
    simp [resultSendsImages_of_isNoResult setup (hanswers r hr)]
  have hany : ∀ messages : List Message, messages.any Message.isSystem =
      (messages.filter Message.isSystem).any Message.isSystem := by
    intro messages
    simp
  rw [Step.messages, cons_append, foldl_cons, foldl_cons, scan_tail setup sends folded _ hreordered,
    scan_tail setup sends folded _ h, tailSends_split setup folded _ hreordered,
    tailSends_split setup folded _ h, hsystems, hresults, any_append, hnone, Bool.or_false,
    systemCount, systemCount, hsystems, hany (_ ++ _), hsystems, ← hany]

theorem scan_writes {turns : List Turn} {steps : List Step} (h : ReplaySteps.Writes turns steps)
    (htail : ∀ turn ∈ turns, ∀ m ∈ turn.tail, IsTail m) (c : Scan) :
    (steps.flatMap Step.messages).foldl (scan setup sends folded) c =
      ((joinTurns turns).filter (!isSkipped ·)).foldl (scan setup sends folded) c := by
  have hkept : ∀ tail : List Message, (∀ m ∈ tail, IsTail m) → tail.filter (!isSkipped ·) = tail :=
    fun tail h => filter_of_not_opensTurn fun m hm => opensTurn_of_isTail (h m hm)
  induction h generalizing c with
  | nil => rfl
  | @skip t ts steps hskip _ ih =>
    have ht := htail t mem_cons_self
    have hrest := ih fun turn hturn => htail turn (mem_cons_of_mem _ hturn)
    rw [flatMap_append, flatMap_plain, foldl_append, hrest, joinTurns_cons,
      filter_cons_of_neg (by simp [hskip]), filter_append, hkept _ ht, foldl_append]
  | @plain t ts steps hskip _ _ ih =>
    have ht := htail t mem_cons_self
    have hrest := ih fun turn hturn => htail turn (mem_cons_of_mem _ hturn)
    rw [flatMap_cons, flatMap_append, flatMap_plain, joinTurns_cons,
      filter_cons_of_pos (by simp [hskip]), filter_append, hkept _ ht]
    simp only [Step.messages, cons_append, nil_append, foldl_cons, foldl_append, hrest]
  | @exchange m tail answers ts steps hskip _ _ hanswers _ ih =>
    have ht := htail ⟨.assistant m, tail⟩ mem_cons_self
    have hrest := ih fun turn hturn => htail turn (mem_cons_of_mem _ hturn)
    have hpos : (!isSkipped (.assistant m)) = true := by simp [isSkipped, hskip]
    have hturn := scan_exchange setup sends folded c (m := m) ht hanswers
    rw [foldl_append] at hturn
    rw [flatMap_cons, flatMap_append, flatMap_plain, foldl_append,
      foldl_append, hturn, hrest, joinTurns_cons,
      filter_cons_of_pos (p := fun x => !isSkipped x) hpos, filter_append, hkept _ ht, ← cons_append, foldl_append]

end Reordering

/-! ### The scan over the first pass -/

section Carrying

variable (setup : Setup)

/-- A message counts in the scan as what the first pass makes of it. -/
structure Carries (m n : Message) : Prop where
  scanned : ∀ folded c, scan setup (writesContent setup) folded c n =
    scan setup (assistantSends setup) folded c m
  skipped : isSkipped n = isSkipped m

variable {setup} {blocks out : List ContentBlock} {model : TargetModel} {m : AssistantMessage}
  {prepared : List Message}

theorem replaceImages_sends {placeholder : String} (hplaceholder : placeholder ≠ "")
    {previous : Bool} (h : replaceImages placeholder previous blocks = some out) :
    (previous || out.any itemSends) = (previous || blocks.any itemSends) := by
  induction blocks generalizing previous out with
  | nil =>
    cases previous <;> (cases h; rfl)
  | cons block rest ih =>
    cases block with
    | image data mimeType =>
      simp only [replaceImages, bind_eq_bind, bind_eq_some_iff] at h
      obtain ⟨result, hresult, hout⟩ := h
      cases previous with
      | true => rfl
      | false =>
        cases hout
        simp [itemSends, hplaceholder]
    | text text signature =>
      simp only [replaceImages, bind_eq_bind, bind_eq_some_iff] at h
      obtain ⟨result, hresult, hout⟩ := h
      cases hout
      have hrest := ih hresult
      by_cases hsame : text = placeholder
      · have hne : (placeholder != "") = true := by simpa using hplaceholder
        simp [itemSends, hsame, hne]
      · have hbeq : (text == placeholder) = false := by simpa using hsame
        rw [hbeq, Bool.false_or, Bool.false_or] at hrest
        simp only [any_cons, hrest]
    | _ => cases previous <;> cases h

theorem userSends_replaced {content out : Content}
    (h : replaceImagesWithPlaceholder content nonVisionUserImagePlaceholder = some out)
    (hblocks : ∃ blocks, content = .blocks blocks) : userSends out = userSends content := by
  obtain ⟨blocks, rfl⟩ := hblocks
  simp only [replaceImagesWithPlaceholder, iterBlocks, bind_eq_bind, bind_some,
    bind_eq_some_iff] at h
  obtain ⟨result, hresult, hout⟩ := h
  cases hout
  have hsends := replaceImages_sends (by decide) hresult
  simpa [userSends, contentBlocks] using hsends

variable (content : Content)

theorem contentBlocks_emptyIfMissing :
    contentBlocks (emptyIfMissing content) = contentBlocks content := by
  cases content <;> rfl

theorem userSends_emptyIfMissing : userSends (emptyIfMissing content) = userSends content := by
  cases content <;> rfl

theorem contentText_emptyIfMissing :
    contentText (emptyIfMissing content) = contentText content := by
  cases content <;> rfl

variable {normalize : Option IdNormalizer} {idMap next : IdMap} {a p n : Message}
   {messages rewritten : List Message}

theorem transformBlocks_sends
    (h : transformBlocks model normalize m blocks idMap = some (out, next)) :
    (out.any fun block => (nonblankText block).isSome) =
        (blocks.any fun block => (nonblankText block).isSome) ∧
      (out.any fun block => (thinkingBlock block).any fun item => nonblank item.1) =
        (isSameModel m model &&
          blocks.any fun block => (thinkingBlock block).any fun item => nonblank item.1) ∧
      (contentCalls (.blocks out) = [] ↔ contentCalls (.blocks blocks) = []) := by
  induction blocks generalizing out idMap with
  | nil =>
    cases h
    simp
  | cons block rest ih =>
    simp only [transformBlocks, bind_eq_bind, bind_eq_some_iff] at h
    obtain ⟨⟨first, mid⟩, hfirst, ⟨others, last⟩, hothers, hout⟩ := h
    cases hout
    obtain ⟨htexts, hthinkings, hcalls⟩ := ih hothers
    have hsplit : contentCalls (.blocks (first ++ others)) =
        contentCalls (.blocks first) ++ contentCalls (.blocks others) := by
      simp [contentCalls]
    have hcons : contentCalls (.blocks (block :: rest)) =
        contentCalls (.blocks [block]) ++ contentCalls (.blocks rest) := by
      cases block <;> rfl
    rw [any_append, any_append, htexts, hthinkings, hsplit, hcons, append_eq_nil_iff,
      append_eq_nil_iff, hcalls, any_cons, any_cons, Bool.and_or_distrib_left]
    cases block with
    | raw data => cases hfirst
    | image | toolCall =>
      cases hfirst
      simp [nonblankText, thinkingBlock, contentCalls]
    | text text signature =>
      cases hfirst
      cases isSameModel m model <;> simp [nonblankText, thinkingBlock, contentCalls]
    | thinking thinking signature redacted =>
      cases hfirst
      cases hsame : isSameModel m model with
      | false => simp [keepsThinking, nonblankText, thinkingBlock, contentCalls]
      | true =>
        by_cases hblank : nonblank thinking = true
        · have hkeep : keepsThinking true thinking signature redacted = true := by
            have hstrip : PythonText.strip thinking ≠ "" := by simpa [nonblank] using hblank
            simp [keepsThinking, hstrip]
          simp [hkeep, nonblankText, thinkingBlock, contentCalls]
        · cases keepsThinking true thinking signature redacted <;>
            simp [nonblankText, thinkingBlock, contentCalls, hblank]

/-- How a message is prepared for the first pass. -/
def Prepared (setup : Setup) (m p : Message) : Prop :=
  ("image" ∈ setup.model.input ∧ p = m) ∨
    ("image" ∉ setup.model.input ∧ downgradeMessage m = some p)

theorem carries_system {s : SystemMessage} (ha : normalizeContent (.system s) = some a)
    (hp : Prepared setup a p)
    (hn : transformMessage setup.model normalize p idMap = some (n, next)) :
    Carries setup (.system s) n := by
  cases ha
  have hsame : p = .system { s with content := emptyIfMissing s.content } := by
    rcases hp with ⟨-, rfl⟩ | ⟨-, hp⟩
    · rfl
    · cases hp
      rfl
  subst hsame
  cases hn
  refine ⟨fun folded c => ?_, rfl⟩
  have hsends : systemSends folded c.systemIndex { s with content := emptyIfMissing s.content } =
      systemSends folded c.systemIndex s := by
    simp only [systemSends, renderSystemMessageUpdate, contentText_emptyIfMissing]
    rfl
  simp only [scan, hsends]

theorem carries_user {u : Messages.UserMessage} (ha : normalizeContent (.user u) = some a)
    (hp : Prepared setup a p)
    (hn : transformMessage setup.model normalize p idMap = some (n, next)) :
    Carries setup (.user u) n := by
  cases ha
  have hsends : ∃ v : Messages.UserMessage, p = .user v ∧
      userSends v.content = userSends u.content := by
    rcases hp with ⟨-, rfl⟩ | ⟨-, hp⟩
    · exact ⟨_, rfl, userSends_emptyIfMissing u.content⟩
    · unfold downgradeMessage at hp
      dsimp only at hp
      split at hp
      · rename_i blocks hblocks
        simp only [bind_eq_bind, bind_eq_some_iff] at hp
        obtain ⟨content, hcontent, hout⟩ := hp
        cases hout
        refine ⟨_, rfl, ?_⟩
        rw [← userSends_emptyIfMissing u.content]
        exact userSends_replaced hcontent ⟨blocks, hblocks⟩
      · cases hp
        exact ⟨_, rfl, userSends_emptyIfMissing u.content⟩
  obtain ⟨v, rfl, hsends⟩ := hsends
  cases hn
  refine ⟨fun folded c => ?_, rfl⟩
  simp only [scan, hsends]

theorem carries_toolResult {r : ToolResultMessage}
    (ha : normalizeContent (.toolResult r) = some a) (hp : Prepared setup a p)
    (hn : transformMessage setup.model normalize p idMap = some (n, next)) :
    Carries setup (.toolResult r) n := by
  cases ha
  have hsends : ∃ v, p = .toolResult v ∧
      resultSendsImages setup v = resultSendsImages setup r := by
    rcases hp with ⟨-, rfl⟩ | ⟨hvision, hp⟩
    · refine ⟨_, rfl, ?_⟩
      simp only [resultSendsImages, contentBlocks_emptyIfMissing]
    · simp only [downgradeMessage, bind_eq_bind, bind_eq_some_iff] at hp
      obtain ⟨content, -, hout⟩ := hp
      cases hout
      exact ⟨_, rfl, by simp [resultSendsImages, hvision]⟩
  obtain ⟨v, rfl, hsends⟩ := hsends
  have hrenamed : ∃ id, n = .toolResult { v with toolCallId := id } := by
    unfold transformMessage at hn
    dsimp only at hn
    split at hn
    · split at hn <;> cases hn
      · exact ⟨v.toolCallId, rfl⟩
      · exact ⟨_, rfl⟩
    · cases hn
      exact ⟨v.toolCallId, rfl⟩
  obtain ⟨id, rfl⟩ := hrenamed
  refine ⟨fun folded c => ?_, rfl⟩
  have hcontent : resultSendsImages setup { v with toolCallId := id } =
      resultSendsImages setup r := hsends
  simp only [scan, hcontent]

theorem carries_assistant (ha : normalizeContent (.assistant m) = some a) (hp : Prepared setup a p)
    (hn : transformMessage setup.model normalize p idMap = some (n, next)) :
    Carries setup (.assistant m) n := by
  cases ha
  have hsame : p = .assistant { m with content := emptyIfMissing m.content } := by
    rcases hp with ⟨-, rfl⟩ | ⟨-, hp⟩
    · rfl
    · cases hp
      rfl
  subst hsame
  simp only [transformMessage, bind_eq_bind, bind_eq_some_iff] at hn
  obtain ⟨blocks, hblocks, ⟨out, last⟩, hout, hn⟩ := hn
  cases hn
  obtain ⟨htexts, hthinkings, hcalls⟩ := transformBlocks_sends hout
  have hcontent : contentBlocks m.content = blocks := by
    rw [← contentBlocks_emptyIfMissing]
    exact contentBlocks_of_iterBlocks hblocks
  have hcallsEq : ∀ content,
      contentCalls content = contentCalls (.blocks (contentBlocks content)) := by
    intro content
    cases content <;> rfl
  refine ⟨fun folded c => ?_, rfl⟩
  have hsameModel : isSameModel { m with content := emptyIfMissing m.content } setup.model =
      isSameModel m setup.model := rfl
  have hwrites : writesContent setup { m with content := .blocks out } = assistantSends setup m := by
    rw [hsameModel] at hthinkings
    rw [assistantSends, hasText, hasThinking, hcontent, ← htexts, Bool.and_assoc, ← hthinkings]
    rfl
  have hnone : toolCalls { m with content := .blocks out } = [] ↔ toolCalls m = [] := by
    rw [toolCalls, toolCalls, hcalls, hcallsEq m.content, hcontent]
  simp only [scan, ne_eq, hnone, hwrites]

theorem carries_of_passes {m : Message} (htyped : TypedMessage m)
    (ha : normalizeContent m = some a) (hp : Prepared setup a p)
    (hn : transformMessage setup.model normalize p idMap = some (n, next)) : Carries setup m n := by
  cases m with
  | system s => exact carries_system ha hp hn
  | user u => exact carries_user ha hp hn
  | assistant m => exact carries_assistant ha hp hn
  | toolResult r => exact carries_toolResult ha hp hn
  | _ => exact absurd htyped id

theorem prepared_of_downgrade
    (h : downgradeUnsupportedImages setup.model messages = some prepared) :
    List.Forall₂ (Prepared setup) messages prepared := by
  unfold downgradeUnsupportedImages at h
  split at h
  · rename_i hvision
    cases h
    exact forall₂_same.mpr fun m _ => .inl ⟨hvision, rfl⟩
  · rename_i hvision
    exact (forall₂_of_mapM h).imp fun _ _ hdowngrade => .inr ⟨hvision, hdowngrade⟩

theorem rewriteMessages_each (h : rewriteMessages model normalize prepared idMap = some rewritten) :
    List.Forall₂ (fun p n => ∃ idMap next, transformMessage model normalize p idMap =
      some (n, next)) prepared rewritten := by
  induction prepared generalizing idMap rewritten with
  | nil =>
    cases h
    exact .nil
  | cons p rest ih =>
    simp only [rewriteMessages, bind_eq_bind, bind_eq_some_iff] at h
    obtain ⟨⟨n, next⟩, hfirst, others, hothers, hout⟩ := h
    cases hout
    exact .cons ⟨idMap, next, hfirst⟩ (ih hothers)

theorem forall₂_trans {α β γ : Type} {R : α → β → Prop} {S : β → γ → Prop} {xs : List α}
    {ys : List β} {zs : List γ} (h : List.Forall₂ R xs ys) (h' : List.Forall₂ S ys zs) :
    List.Forall₂ (fun x z => ∃ y, R x y ∧ S y z) xs zs := by
  induction h generalizing zs with
  | nil =>
    cases h'
    exact .nil
  | cons hhead _ ih =>
    cases h' with
    | cons hhead' hrest' => exact .cons ⟨_, hhead, hhead'⟩ (ih hrest')

theorem carries_all {output : List Message} {steps : List Step}
    (htyped : ∀ m ∈ messages, TypedMessage m)
    (h : Transformed setup.model normalize messages rewritten output steps) :
    List.Forall₂ (Carries setup) messages rewritten := by
  obtain ⟨normalized, prepared, hnormalized, hprepared, hrewritten⟩ := h.passes
  have hchain := forall₂_trans (forall₂_of_mapM hnormalized)
    (forall₂_trans (prepared_of_downgrade hprepared) (rewriteMessages_each hrewritten))
  clear hnormalized hprepared hrewritten h
  induction hchain with
  | nil => exact .nil
  | cons hhead _ ih =>
    obtain ⟨a, ha, p, hp, idMap, next, hn⟩ := hhead
    exact .cons (carries_of_passes (htyped _ mem_cons_self) ha hp hn)
      (ih fun m hm => htyped m (mem_cons_of_mem _ hm))

theorem scan_carries (h : List.Forall₂ (Carries setup) messages rewritten) (folded : ℕ) (c : Scan) :
    (rewritten.filter (!isSkipped ·)).foldl (scan setup (writesContent setup) folded) c =
      (messages.filter (!isSkipped ·)).foldl (scan setup (assistantSends setup) folded) c := by
  induction h generalizing c with
  | nil => rfl
  | @cons m n ms ns hhead _ ih =>
    by_cases hskip : isSkipped m = true
    · have hskip' : isSkipped n = true := hhead.skipped.trans hskip
      rw [filter_cons_of_neg (by simp [hskip']), filter_cons_of_neg (by simp [hskip]), ih]
    · have hskip' : ¬ isSkipped n = true := by rwa [hhead.skipped]
      rw [filter_cons_of_pos (by simp [hskip']), filter_cons_of_pos (by simp [hskip]),
        foldl_cons, foldl_cons, hhead.scanned, ih]

end Carrying

theorem noUserAfterTool_iff {setup : Setup} {messages : List Message} {wire : List WireMessage}
    (hbridge : setup.requiresAssistantAfterToolResult = true)
    (hconversation : Conversation messages) (h : convertMessages setup messages = some wire) :
    NoUserAfterTool wire ↔
      let resolved := resolveTranscript messages setup.supportsMidConvoSystemMessages
      ¬ UserSlips setup (resolveTranscriptTools resolved (toolSupport setup)).foldedSystemMessages
        (resolved.filter (!isSkipped ·)) := by
  have hresolved := conversation_resolve hconversation setup.supportsMidConvoSystemMessages
  obtain ⟨rewritten, output, steps, houtput, htransformed⟩ := transform_spec setup.model
    (some (normalizeToolCallId setup)) setup.now hresolved.typed
  have hcarries := carries_all hresolved.typed htransformed
  obtain ⟨hsteps, hproper⟩ := transformed_proper hresolved htransformed
  simp only [convertMessages, houtput, hsteps, entries_steps hproper, bind_eq_bind,
    bind_some, bind_eq_some_iff] at h
  obtain ⟨s, hs, hwire⟩ := h
  cases hwire
  have hstart : Simulates {} {} := ⟨rfl, fun _ => rfl, by simp [NoUserAfterTool], rfl⟩
  have hend := simulates_steps hbridge hstart hproper hs
  -- The scan of the steps is the scan of the kept messages of the transcript.
  have hscan := scan_writes setup (writesContent setup)
    (resolveTranscriptTools (resolveTranscript messages setup.supportsMidConvoSystemMessages)
      (toolSupport setup)).foldedSystemMessages htransformed.writes
    (isTail_of_transformed htransformed.rewrites)
  have hlead := filter_of_not_opensTurn (splitTurns_shaped rewritten).1
  have hjoin := congrArg (filter (!isSkipped ·)) (joinTurns_splitTurns rewritten)
  rw [filter_append, hlead] at hjoin
  dsimp only
  rw [hend.chain, allSteps, flatMap_append, flatMap_plain, foldl_append, hscan,
    ← foldl_append, hjoin, scan_carries hcarries, ← slipped_scanAll_iff, ← Bool.not_eq_true]
  rfl

end Pidrei.BridgedMessages
