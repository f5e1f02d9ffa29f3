import Mathlib.Data.List.Induction
import Pidrei.TransformMessages

/-!
Tool pairing of a replayed history: after each assistant message that is kept
stands one result for each of its calls. The history is cut into turns, each an
assistant or user message with what follows it; the first pass renames the ids
turn by turn and the second pass answers each turn.
-/
namespace Pidrei.ReplayPairing

open Messages AgentTypes TransformMessages List

def callIds (m : AssistantMessage) : List String := (toolCalls m).map ToolCall.id

def resultId? : Message → Option String
  | .toolResult m => some m.toolCallId
  | _ => none

def resultIds (messages : List Message) : List String := messages.filterMap resultId?

def opensTurn : Message → Bool
  | .user _ | .assistant _ => true
  | _ => false

/-- A user or assistant message and the messages before the next one. -/
structure Turn where
  head : Message
  tail : List Message

def splitTurns : List Message → List Message × List Turn
  | [] => ([], [])
  | message :: rest =>
    let split := splitTurns rest
    if opensTurn message then ([], ⟨message, split.1⟩ :: split.2)
    else (message :: split.1, split.2)

/-- The tool results of each assistant message stand in its turn, at most one for each call. -/
def TurnFormed (turn : Turn) : Prop :=
  match turn.head with
  | .assistant m => (callIds m).Nodup ∧ (resultIds turn.tail).Nodup ∧
      ∀ id ∈ resultIds turn.tail, id ∈ callIds m
  | _ => resultIds turn.tail = []

structure HistoryFormed (messages : List Message) : Prop where
  lead : resultIds (splitTurns messages).1 = []
  turns : ∀ turn ∈ (splitTurns messages).2, TurnFormed turn

def isTextOrImage : ContentBlock → Bool
  | .text _ _ | .image _ _ => true
  | _ => false

def isDecoded : ContentBlock → Bool
  | .raw _ => false
  | _ => true

/-- The message types of a history, with content that may be None. -/
def TypedMessage : Message → Prop
  | .system _ => True
  | .user m => ∀ blocks, m.content = .blocks blocks → ∀ block ∈ blocks, isTextOrImage block
  | .toolResult m => m.content = .missing ∨
      ∃ blocks, m.content = .blocks blocks ∧ ∀ block ∈ blocks, isTextOrImage block
  | .assistant m => m.content = .missing ∨
      ∃ blocks, m.content = .blocks blocks ∧ ∀ block ∈ blocks, isDecoded block
  | _ => False

def isSkipped : Message → Bool
  | .assistant m => skipped m
  | _ => false

section Ids

variable (model : TargetModel) (normalize : Option IdNormalizer)

def outputId (m : AssistantMessage) (id : String) : String :=
  if isSameModel m model then id
  else match normalize with
    | none => id
    | some f => f id model m

def TurnPaired (given output : Turn) : Prop :=
  match given.head, output.head with
  | .assistant m, .assistant n =>
    callIds n = (callIds m).map (outputId model normalize m) ∧
      (∀ id ∈ callIds n, (resultIds output.tail).count id = 1) ∧
      (∀ id ∈ resultIds output.tail, id ∈ callIds n) ∧
      ∃ synthesized, resultIds output.tail =
        (resultIds given.tail).map (outputId model normalize m) ++ synthesized
  | .user _, .user _ => resultIds output.tail = []
  | _, _ => False

/-- The turns of the output are those of the kept messages, each with its results. -/
structure Paired (messages output : List Message) : Prop where
  lead : resultIds (splitTurns output).1 = []
  turns : List.Forall₂ (TurnPaired model normalize)
    (splitTurns (messages.filter (!isSkipped ·))).2 (splitTurns output).2

/-- No tool result stands in the turn of an assistant message that is dropped. -/
def SkippedUnanswered (messages : List Message) : Prop :=
  ∀ turn ∈ (splitTurns messages).2, isSkipped turn.head → resultIds turn.tail = []

/-- When a call that keeps its id is answered, no earlier call with that id got another id. -/
def IdsUnshadowed (messages : List Message) : Prop :=
  ∀ earlier m tail later, (splitTurns messages).2 = earlier ++ ⟨.assistant m, tail⟩ :: later →
    skipped m = false → ∀ id ∈ resultIds tail, outputId model normalize m id = id →
      ∀ turn ∈ earlier, ∀ n, turn.head = .assistant n → id ∈ callIds n →
        outputId model normalize n id = id

end Ids

/-! ### Turns -/

@[simp] theorem resultIds_append (xs ys : List Message) :
    resultIds (xs ++ ys) = resultIds xs ++ resultIds ys := filterMap_append

@[simp] theorem resultIds_nil : resultIds [] = [] := rfl

theorem resultIds_cons (m : Message) (ms : List Message) :
    resultIds (m :: ms) = (resultId? m).toList ++ resultIds ms := by
  unfold resultIds
  rw [filterMap_cons]
  cases resultId? m <;> rfl

def joinTurns (turns : List Turn) : List Message :=
  turns.flatMap fun turn => turn.head :: turn.tail

@[simp] theorem joinTurns_nil : joinTurns [] = [] := rfl

@[simp] theorem joinTurns_cons (turn : Turn) (turns : List Turn) :
    joinTurns (turn :: turns) = turn.head :: (turn.tail ++ joinTurns turns) := by
  simp [joinTurns]

/-- A turn opened by its head only. -/
def TurnShaped (turn : Turn) : Prop :=
  opensTurn turn.head = true ∧ ∀ m ∈ turn.tail, opensTurn m = false

variable (messages : List Message) (id : String)

attribute [local simp] splitTurns in
theorem joinTurns_splitTurns :
    (splitTurns messages).1 ++ joinTurns (splitTurns messages).2 = messages := by
  induction messages with
  | nil => rfl
  | cons m rest ih =>
    by_cases h : opensTurn m = true
    · simp [splitTurns, h, ih]
    · simp only [splitTurns, h]
      simpa using ih

theorem splitTurns_shaped : (∀ m ∈ (splitTurns messages).1, opensTurn m = false) ∧
      ∀ turn ∈ (splitTurns messages).2, TurnShaped turn := by
  induction messages with
  | nil => simp [splitTurns]
  | cons m rest ih =>
    by_cases h : opensTurn m = true
    · simp only [splitTurns, h, if_true, not_mem_nil, false_implies, implies_true,
        mem_cons, forall_eq_or_imp, true_and]
      exact ⟨⟨h, ih.1⟩, ih.2⟩
    · simp only [splitTurns, h]
      refine ⟨?_, ih.2⟩
      intro other hother
      rcases mem_cons.mp hother with rfl | hrest
      · simpa using h
      · exact ih.1 other hrest

theorem splitTurns_append {lead : List Message} (h : ∀ m ∈ lead, opensTurn m = false)
    (rest : List Message) :
    splitTurns (lead ++ rest) = (lead ++ (splitTurns rest).1, (splitTurns rest).2) := by
  induction lead with
  | nil => rfl
  | cons m lead ih =>
    have hm := h m mem_cons_self
    have hrest := ih fun other hother => h other (mem_cons_of_mem _ hother)
    simp [splitTurns, hm, hrest]

theorem splitTurns_turn {turn : Turn} (h : TurnShaped turn) (rest : List Message) :
    splitTurns (turn.head :: (turn.tail ++ rest)) =
      ([], ⟨turn.head, turn.tail ++ (splitTurns rest).1⟩ :: (splitTurns rest).2) := by
  simp [splitTurns, h.1, splitTurns_append h.2]

/-- The turns that remain when the messages that are dropped are filtered out. -/
def mergeSkipped : List Turn → List Message × List Turn
  | [] => ([], [])
  | turn :: rest =>
    let merged := mergeSkipped rest
    if isSkipped turn.head then (turn.tail ++ merged.1, merged.2)
    else ([], ⟨turn.head, turn.tail ++ merged.1⟩ :: merged.2)

theorem not_isSkipped_of_not_opensTurn {m : Message} (h : opensTurn m = false) :
    isSkipped m = false := by
  cases m <;> first | rfl | simp [opensTurn] at h

theorem filter_of_not_opensTurn {messages : List Message}
    (h : ∀ m ∈ messages, opensTurn m = false) :
    messages.filter (!isSkipped ·) = messages := by
  rw [filter_eq_self]
  intro m hm
  simp [not_isSkipped_of_not_opensTurn (h m hm)]

theorem splitTurns_filter {turns : List Turn} (h : ∀ turn ∈ turns, TurnShaped turn) :
    splitTurns ((joinTurns turns).filter (!isSkipped ·)) = mergeSkipped turns := by
  induction turns with
  | nil => rfl
  | cons turn rest ih =>
    have hturn := h turn mem_cons_self
    have hrest := ih fun other hother => h other (mem_cons_of_mem _ hother)
    have htail := filter_of_not_opensTurn hturn.2
    by_cases hskip : isSkipped turn.head = true
    · simp [hskip, htail, splitTurns_append hturn.2, hrest, mergeSkipped]
    · simp [hskip, htail, splitTurns_turn hturn, hrest, mergeSkipped]

/-! ### The first pass -/

section Rewriting

variable (model : TargetModel) (normalize : Option IdNormalizer)

/-- The id of a result behind the assistant messages `before`: the last changed id wins. -/
def renamed (before : List AssistantMessage) (id : String) : String :=
  before.foldl (fun new m =>
    if id ∈ callIds m ∧ outputId model normalize m id ≠ id then outputId model normalize m id
    else new) id

theorem renamed_snoc (before : List AssistantMessage) (m : AssistantMessage) (id : String) :
    renamed model normalize (before ++ [m]) id =
      if id ∈ callIds m ∧ outputId model normalize m id ≠ id then outputId model normalize m id
      else renamed model normalize before id := by
  simp [renamed]

theorem renamed_eq_self_iff (before : List AssistantMessage) (id : String) :
    renamed model normalize before id = id ↔
      ∀ m ∈ before, id ∈ callIds m → outputId model normalize m id = id := by
  induction before using reverseRecOn with
  | nil => simp [renamed]
  | append_singleton before m ih =>
    rw [renamed_snoc]
    by_cases h : id ∈ callIds m ∧ outputId model normalize m id ≠ id
    · rw [if_pos h]
      simp only [mem_append, mem_singleton]
      exact ⟨fun heq => absurd heq h.2, fun hall => hall m (.inr rfl) h.1⟩
    · rw [if_neg h, ih]
      rw [not_and, not_not] at h
      simp only [mem_append, mem_singleton]
      refine ⟨fun hall n hn hid => ?_, fun hall n hn => hall n (.inl hn)⟩
      rcases hn with hn | rfl
      · exact hall n hn hid
      · exact h hid

def assistants : Message → List AssistantMessage
  | .assistant m => [m]
  | _ => []

/-- A message against what the first pass makes of it behind the messages `before`. -/
def Rewrites (before : List AssistantMessage) : Message → Message → Prop
  | .assistant m, n => ∃ content, n = .assistant { m with content } ∧
      (contentCalls content).map ToolCall.id = (callIds m).map (outputId model normalize m)
  | .toolResult m, n => ∃ r, n = .toolResult r ∧
      r.toolCallId = renamed model normalize before m.toolCallId
  | .user _, n => ∃ u, n = .user u
  | .system _, n => ∃ s, n = .system s
  | _, _ => False

inductive RewritesAll : List AssistantMessage → List Message → List Message → Prop
  | nil (before : List AssistantMessage) : RewritesAll before [] []
  | cons {before : List AssistantMessage} {m n : Message} {ms ns : List Message}
      (hhead : Rewrites model normalize before m n)
      (htail : RewritesAll (before ++ assistants m) ms ns) :
    RewritesAll before (m :: ms) (n :: ns)

/-- A message with its content prepared for the first pass. -/
def Prepares : Message → Message → Prop
  | .assistant m, n => n = .assistant { m with content := emptyIfMissing m.content }
  | .toolResult m, n => ∃ r, n = .toolResult r ∧ r.toolCallId = m.toolCallId
  | .user _, n => ∃ u, n = .user u
  | .system _, n => ∃ s, n = .system s
  | _, _ => False

variable {blocks : List ContentBlock} {messages ms ns : List Message} {idMap : IdMap}

theorem replaceImages_isSome (placeholder : String)
    (h : ∀ block ∈ blocks, isTextOrImage block = true) (previous : Bool) :
    ∃ result, replaceImages placeholder previous blocks = some result := by
  induction blocks generalizing previous with
  | nil => exact ⟨[], rfl⟩
  | cons block rest ih =>
    have hblock := h block mem_cons_self
    have hrest := fun other hother => h other (mem_cons_of_mem _ hother)
    cases block with
    | image data mimeType =>
      obtain ⟨result, hresult⟩ := ih hrest true
      exact ⟨_, by rw [replaceImages, hresult]; rfl⟩
    | text text signature =>
      obtain ⟨result, hresult⟩ := ih hrest (text == placeholder)
      exact ⟨_, by rw [replaceImages, hresult]; rfl⟩
    | _ => simp [isTextOrImage] at hblock

theorem mapM_of_forall₂ {α β γ : Type} {f : β → Option γ} {R : α → γ → Prop} {xs : List α}
    {ys : List β} (h : List.Forall₂ (fun x y => ∃ z, f y = some z ∧ R x z) xs ys) :
    ∃ zs, ys.mapM f = some zs ∧ List.Forall₂ R xs zs := by
  induction h with
  | nil => exact ⟨[], rfl, .nil⟩
  | cons hhead _ ih =>
    obtain ⟨z, hz, hR⟩ := hhead
    obtain ⟨zs, hzs, hall⟩ := ih
    exact ⟨z :: zs, by simp [hz, hzs], .cons hR hall⟩

variable {m : Message} {before : List AssistantMessage}

theorem prepare_message (h : TypedMessage m) : ∃ n, normalizeContent m = some n ∧ Prepares m n ∧
      ∃ p, downgradeMessage n = some p ∧ Prepares m p := by
  cases m with
  | system m => exact ⟨_, rfl, ⟨_, rfl⟩, _, rfl, ⟨_, rfl⟩⟩
  | assistant m => exact ⟨_, rfl, rfl, _, rfl, rfl⟩
  | user m =>
    obtain ⟨content, timestamp⟩ := m
    cases content with
    | text | missing => exact ⟨_, rfl, ⟨_, rfl⟩, _, rfl, ⟨_, rfl⟩⟩
    | blocks blocks =>
      obtain ⟨result, hresult⟩ :=
        replaceImages_isSome nonVisionUserImagePlaceholder (h blocks rfl) false
      exact ⟨_, rfl, ⟨_, rfl⟩, .user ⟨.blocks result, timestamp⟩,
        by simp [downgradeMessage, emptyIfMissing, replaceImagesWithPlaceholder, iterBlocks,
          hresult], ⟨_, rfl⟩⟩
  | toolResult m =>
    have hblocks : ∃ blocks, emptyIfMissing m.content = .blocks blocks ∧
        ∀ block ∈ blocks, isTextOrImage block = true := by
      rcases h with h | ⟨blocks, h, htyped⟩
      · exact ⟨[], by rw [h]; rfl, by simp⟩
      · exact ⟨blocks, by rw [h]; rfl, htyped⟩
    obtain ⟨blocks, hcontent, htyped⟩ := hblocks
    obtain ⟨result, hresult⟩ := replaceImages_isSome nonVisionToolImagePlaceholder htyped false
    exact ⟨_, rfl, ⟨_, rfl, rfl⟩, .toolResult { m with content := .blocks result },
      by simp [downgradeMessage, replaceImagesWithPlaceholder, hcontent, iterBlocks, hresult],
      ⟨_, rfl, rfl⟩⟩
  | _ => exact absurd h id

theorem prepare_messages (h : ∀ m ∈ messages, TypedMessage m) :
    ∃ normalized prepared, messages.mapM normalizeContent = some normalized ∧
      downgradeUnsupportedImages model normalized = some prepared ∧
      List.Forall₂ Prepares messages prepared := by
  have hself : List.Forall₂ (fun m n => ∃ z, normalizeContent n = some z ∧ Prepares m z ∧
      ∃ p, downgradeMessage z = some p ∧ Prepares m p) messages messages :=
    forall₂_same.mpr fun m hm => prepare_message (h m hm)
  obtain ⟨normalized, hnormalized, hall⟩ := mapM_of_forall₂ hself
  refine ⟨normalized, ?_⟩
  unfold downgradeUnsupportedImages
  split
  · exact ⟨normalized, hnormalized, rfl, hall.imp fun _ _ hm => hm.1⟩
  · obtain ⟨prepared, hprepared, hprepares⟩ := mapM_of_forall₂ (hall.imp fun _ _ hm => hm.2)
    exact ⟨prepared, hnormalized, hprepared, hprepares⟩

def lookupId (idMap : IdMap) (id : String) : String := (idMap.get? id).getD id

theorem lookupId_set (idMap : IdMap) (id new other : String) :
    lookupId (idMap.set id new) other = if other = id then new else lookupId idMap other := by
  unfold lookupId
  rw [OrderedMap.get?_set]
  split <;> rfl

theorem transformToolCall_id (m : AssistantMessage) (call : ToolCall) (idMap : IdMap) :
    (transformToolCall model normalize m call idMap).1.id = outputId model normalize m call.id := by
  unfold transformToolCall outputId
  split
  · rfl
  · cases normalize with
    | none => rfl
    | some f =>
      dsimp only
      split
      · rename_i hsame
        exact hsame.symm
      · rfl

theorem transformToolCall_map (m : AssistantMessage) (call : ToolCall) (idMap : IdMap)
    (id : String) :
    lookupId (transformToolCall model normalize m call idMap).2 id =
      if id = call.id ∧ outputId model normalize m id ≠ id then outputId model normalize m id
      else lookupId idMap id := by
  unfold transformToolCall outputId
  split
  · simp
  · cases normalize with
    | none => simp
    | some f =>
      dsimp only
      split
      · rename_i hsame
        rw [if_neg]
        rintro ⟨rfl, hne⟩
        exact hne hsame
      · rename_i hne
        rw [lookupId_set]
        by_cases hid : id = call.id
        · subst hid
          simp [hne]
        · simp [hid]

def blockIds (blocks : List ContentBlock) : List String :=
  (contentCalls (.blocks blocks)).map ToolCall.id

attribute [local simp] contentCalls in
theorem transformBlock_spec (m : AssistantMessage) {block : ContentBlock}
    (h : isDecoded block = true) (idMap : IdMap) :
    ∃ out next, transformBlock model normalize m block idMap = some (out, next) ∧
      blockIds out = (blockIds [block]).map (outputId model normalize m) ∧
      ∀ id, lookupId next id =
        if id ∈ blockIds [block] ∧ outputId model normalize m id ≠ id then
          outputId model normalize m id
        else lookupId idMap id := by
  cases block with
  | raw data => simp [isDecoded] at h
  | toolCall call =>
    refine ⟨_, _, rfl, ?_, fun id => ?_⟩
    · simp [blockIds, contentCalls, transformToolCall_id]
    · simpa [blockIds, contentCalls] using transformToolCall_map model normalize m call idMap id
  | thinking | text =>
    refine ⟨_, _, rfl, ?_, fun id => by simp [blockIds, contentCalls]⟩
    split <;> rfl
  | image data mimeType =>
    exact ⟨_, _, rfl, rfl, fun id => by simp [blockIds, contentCalls]⟩

theorem blockIds_append (xs ys : List ContentBlock) :
    blockIds (xs ++ ys) = blockIds xs ++ blockIds ys := by
  simp [blockIds, contentCalls]

theorem transformBlocks_spec (m : AssistantMessage) (h : ∀ block ∈ blocks, isDecoded block = true)
    (idMap : IdMap) :
    ∃ out next, transformBlocks model normalize m blocks idMap = some (out, next) ∧
      blockIds out = (blockIds blocks).map (outputId model normalize m) ∧
      ∀ id, lookupId next id =
        if id ∈ blockIds blocks ∧ outputId model normalize m id ≠ id then
          outputId model normalize m id
        else lookupId idMap id := by
  induction blocks generalizing idMap with
  | nil => exact ⟨[], idMap, rfl, rfl, fun id => by simp [blockIds, contentCalls]⟩
  | cons block rest ih =>
    obtain ⟨first, mid, hfirst, hids, hmap⟩ :=
      transformBlock_spec model normalize m (h block mem_cons_self) idMap
    obtain ⟨others, next, hothers, hids', hmap'⟩ :=
      ih (fun other hother => h other (mem_cons_of_mem _ hother)) mid
    have hsplit : blockIds (block :: rest) = blockIds [block] ++ blockIds rest :=
      blockIds_append [block] rest
    refine ⟨first ++ others, next, by simp [transformBlocks, hfirst, hothers], ?_, fun id => ?_⟩
    · rw [blockIds_append, hids, hids', hsplit, map_append]
    · rw [hmap', hmap, hsplit]
      by_cases hout : outputId model normalize m id = id
      · simp [hout]
      · by_cases hmem : id ∈ blockIds rest <;> simp [hout, hmem]

def Records (before : List AssistantMessage) (idMap : IdMap) : Prop :=
  ∀ id, lookupId idMap id = renamed model normalize before id

theorem transformMessage_spec (hrecords : Records model normalize before idMap) {p : Message}
    (htyped : TypedMessage m) (hprepares : Prepares m p) :
    ∃ n next, transformMessage model normalize p idMap = some (n, next) ∧
      Rewrites model normalize before m n ∧
      Records model normalize (before ++ assistants m) next := by
  cases m with
  | system m =>
    obtain ⟨s, rfl⟩ := hprepares
    exact ⟨_, _, rfl, ⟨s, rfl⟩, by simpa [assistants] using hrecords⟩
  | user m =>
    obtain ⟨u, rfl⟩ := hprepares
    exact ⟨_, _, rfl, ⟨u, rfl⟩, by simpa [assistants] using hrecords⟩
  | toolResult m =>
    obtain ⟨r, rfl, hid⟩ := hprepares
    have hlookup := hrecords m.toolCallId
    rw [← hid] at hlookup
    refine ⟨.toolResult { r with toolCallId := (idMap.get? r.toolCallId).getD r.toolCallId },
      idMap, ?_, ⟨_, rfl, by rw [← hid]; exact hlookup⟩, by simpa [assistants] using hrecords⟩
    cases hget : idMap.get? r.toolCallId with
    | none => simp [transformMessage, hget]
    | some new => by_cases hsame : new = r.toolCallId <;> simp [transformMessage, hget, hsame]
  | assistant m =>
    cases hprepares
    rcases htyped with hmissing | ⟨blocks, hblocks, hdecoded⟩
    · have hcalls : callIds m = [] := by simp [callIds, toolCalls, hmissing, contentCalls]
      refine ⟨.assistant { m with content := .blocks [] }, idMap, ?_, ⟨_, rfl, ?_⟩, fun id => ?_⟩
      · simp [transformMessage, hmissing, emptyIfMissing, iterBlocks, transformBlocks]
      · rw [hcalls]
        rfl
      · rw [assistants, renamed_snoc, hcalls]
        simpa using hrecords id
    · have hsame : ({ m with content := emptyIfMissing m.content } : AssistantMessage) = m := by
        rw [hblocks]
        exact congrArg (fun content => ({ m with content } : AssistantMessage)) hblocks.symm
      have hcalls : callIds m = blockIds blocks := by
        simp [callIds, toolCalls, hblocks, blockIds]
      obtain ⟨out, next, hout, hids, hmap⟩ :=
        transformBlocks_spec model normalize m hdecoded idMap
      rw [hsame]
      refine ⟨.assistant { m with content := .blocks out }, next, ?_, ⟨_, rfl, ?_⟩, fun id => ?_⟩
      · simp [transformMessage, hblocks, iterBlocks, hout]
      · rw [hcalls, ← hids]
        rfl
      · rw [assistants, renamed_snoc, hmap, hcalls, hrecords id]
  | _ => exact absurd htyped id

theorem rewriteMessages_spec (hrecords : Records model normalize before idMap)
    {prepared : List Message} (hprepares : List.Forall₂ Prepares messages prepared)
    (htyped : ∀ m ∈ messages, TypedMessage m) :
    ∃ out, rewriteMessages model normalize prepared idMap = some out ∧
      RewritesAll model normalize before messages out := by
  induction hprepares generalizing before idMap with
  | nil => exact ⟨[], rfl, .nil before⟩
  | cons hhead _ ih =>
    obtain ⟨n, next, hn, hrewrites, hnext⟩ :=
      transformMessage_spec model normalize hrecords (htyped _ mem_cons_self) hhead
    obtain ⟨out, hout, hall⟩ := ih hnext fun m hm => htyped m (mem_cons_of_mem _ hm)
    exact ⟨n :: out, by simp [rewriteMessages, hn, hout], .cons hrewrites hall⟩

theorem opensTurn_of_rewrites {n : Message} (h : Rewrites model normalize before m n) :
    opensTurn n = opensTurn m := by
  cases m with
  | assistant m =>
    obtain ⟨content, rfl, -⟩ := h
    rfl
  | toolResult m =>
    obtain ⟨r, rfl, -⟩ := h
    rfl
  | user m =>
    obtain ⟨u, rfl⟩ := h
    rfl
  | system m =>
    obtain ⟨s, rfl⟩ := h
    rfl
  | _ => exact absurd h id

theorem assistants_of_not_opensTurn (h : opensTurn m = false) : assistants m = [] := by
  cases m <;> first | rfl | simp [opensTurn] at h

inductive RewritesTurns : List AssistantMessage → List Turn → List Turn → Prop
  | nil (before : List AssistantMessage) : RewritesTurns before [] []
  | cons {before : List AssistantMessage} {t u : Turn} {ts us : List Turn}
      (hhead : Rewrites model normalize before t.head u.head)
      (htail : List.Forall₂ (Rewrites model normalize (before ++ assistants t.head)) t.tail u.tail)
      (hrest : RewritesTurns (before ++ assistants t.head) ts us) :
    RewritesTurns before (t :: ts) (u :: us)

theorem RewritesAll.splitTurns (h : RewritesAll model normalize before ms ns) :
    List.Forall₂ (Rewrites model normalize before) (splitTurns ms).1 (splitTurns ns).1 ∧
      RewritesTurns model normalize before (splitTurns ms).2 (splitTurns ns).2 := by
  induction h with
  | nil before => exact ⟨.nil, .nil before⟩
  | @cons before m n ms ns hhead _ ih =>
    have hopens := opensTurn_of_rewrites model normalize hhead
    by_cases hm : opensTurn m = true
    · simp only [ReplayPairing.splitTurns, hm, hopens, if_true]
      exact ⟨.nil, .cons hhead ih.1 ih.2⟩
    · rw [Bool.not_eq_true] at hm
      rw [assistants_of_not_opensTurn hm, append_nil] at ih
      simp only [ReplayPairing.splitTurns, hm, hopens]
      exact ⟨.cons hhead ih.1, ih.2⟩

theorem resultIds_of_rewrites (h : List.Forall₂ (Rewrites model normalize before) ms ns) :
    resultIds ns = (resultIds ms).map (renamed model normalize before) := by
  induction h with
  | nil => rfl
  | @cons m n ms ns hhead _ ih =>
    rw [resultIds_cons, resultIds_cons, ih]
    cases m with
    | toolResult m =>
      obtain ⟨r, rfl, hid⟩ := hhead
      simp [resultId?, hid]
    | assistant m =>
      obtain ⟨content, rfl, -⟩ := hhead
      simp [resultId?]
    | user m =>
      obtain ⟨u, rfl⟩ := hhead
      simp [resultId?]
    | system m =>
      obtain ⟨s, rfl⟩ := hhead
      simp [resultId?]
    | _ => exact absurd hhead id

end Rewriting

/-! ### The second pass -/

section Replaying

variable (now : Nat → Int)

/-- What has been written once the pending calls are answered. -/
def closed (s : Replay) : List Message := (closePendingToolCalls now s).result

theorem answerCalls_spec (existing : List String) (calls : List ToolCall) (result : List Message) :
    ∃ answers, calls.foldl (answerCall now existing) result = result ++ answers ∧
      (∀ m ∈ answers, opensTurn m = false) ∧
      resultIds answers = (calls.map ToolCall.id).filter (· ∉ existing) := by
  induction calls generalizing result with
  | nil => exact ⟨[], by simp, by simp, rfl⟩
  | cons call rest ih =>
    by_cases h : call.id ∈ existing
    · obtain ⟨answers, hfold, hshape, hids⟩ := ih result
      refine ⟨answers, ?_, hshape, ?_⟩
      · simpa [answerCall, h] using hfold
      · simpa [h] using hids
    · obtain ⟨answers, hfold, hshape, hids⟩ :=
        ih (result ++ [noResult call (now result.length)])
      refine ⟨noResult call (now result.length) :: answers, ?_, ?_, ?_⟩
      · simpa [answerCall, h] using hfold
      · intro m hm
        rcases mem_cons.mp hm with rfl | hm
        · rfl
        · exact hshape m hm
      · rw [map_cons, filter_cons_of_pos (by simpa using h), ← hids]
        rfl

variable {tail : List Message} {s : Replay} {turns : List Turn}

theorem replay_tail_pending (h : ∀ m ∈ tail, opensTurn m = false) (hs : s.pendingToolCalls ≠ []) :
    tail.foldl (replayMessage now) s =
      { s with
        result := s.result ++ tail.filter (!Message.isSystem ·)
        existingToolResultIds := (resultIds tail).reverse ++ s.existingToolResultIds
        heldSystemMessages := s.heldSystemMessages ++ tail.filter Message.isSystem } := by
  induction tail generalizing s with
  | nil => simp
  | cons m rest ih =>
    have hrest := fun other hother => h other (mem_cons_of_mem _ hother)
    have hm := h m mem_cons_self
    rw [foldl_cons]
    cases m with
    | user | assistant => simp [opensTurn] at hm
    | _ =>
      rw [ih hrest (by simp [replayMessage, hs])]
      simp [replayMessage, hs, Message.isSystem, resultIds_cons, resultId?, filter_cons]

theorem replay_tail_idle (h : ∀ m ∈ tail, opensTurn m = false) (hs : s.pendingToolCalls = []) :
    tail.foldl (replayMessage now) s =
      { s with
        result := s.result ++ tail
        existingToolResultIds := (resultIds tail).reverse ++ s.existingToolResultIds } := by
  induction tail generalizing s with
  | nil => simp
  | cons m rest ih =>
    have hrest := fun other hother => h other (mem_cons_of_mem _ hother)
    have hm := h m mem_cons_self
    rw [foldl_cons]
    cases m with
    | user | assistant => simp [opensTurn] at hm
    | _ =>
      rw [ih hrest (by simp [replayMessage, hs])]
      simp [replayMessage, hs, resultIds_cons, resultId?]

def Answers (source written : Turn) : Prop :=
  written.head = source.head ∧ (∀ m ∈ written.tail, opensTurn m = false) ∧
    resultIds written.tail = resultIds source.tail ++
      match source.head with
      | .assistant m => (callIds m).filter (· ∉ resultIds source.tail)
      | _ => []

theorem resultId?_of_isSystem {m : Message} (h : m.isSystem = true) : resultId? m = none := by
  cases m <;> first | rfl | simp [Message.isSystem] at h

variable (messages : List Message)

theorem resultIds_filter_system : resultIds (messages.filter Message.isSystem) = [] := by
  induction messages with
  | nil => rfl
  | cons m rest ih =>
    by_cases h : m.isSystem = true
    · simp [h, resultIds_cons, resultId?_of_isSystem h, ih]
    · simp [h, ih]

theorem resultIds_filter_not_system :
    resultIds (messages.filter (!Message.isSystem ·)) = resultIds messages := by
  induction messages with
  | nil => rfl
  | cons m rest ih =>
    by_cases h : m.isSystem = true
    · simp [h, resultIds_cons, resultId?_of_isSystem h, ih]
    · simp [h, resultIds_cons, ih]

theorem closed_of_idle (h : s.pendingToolCalls = []) :
    closed now s = s.result ++ s.heldSystemMessages := by
  simp [closed, closePendingToolCalls, h]

variable {m : AssistantMessage}

theorem closed_skipped (hskip : skipped m = true) (h : ∀ m ∈ tail, opensTurn m = false)
    (s : Replay) :
    closed now (tail.foldl (replayMessage now) (replayMessage now s (.assistant m))) =
      closed now s ++ tail := by
  have hstate : replayMessage now s (.assistant m) = closePendingToolCalls now s := by
    simp [replayMessage, hskip]
  rw [hstate, replay_tail_idle now h rfl, closed_of_idle now rfl]
  simp [closed, closePendingToolCalls]

theorem closed_user (m : Messages.UserMessage) (h : ∀ m ∈ tail, opensTurn m = false) (s : Replay) :
    closed now (tail.foldl (replayMessage now) (replayMessage now s (.user m))) =
      closed now s ++ .user m :: tail := by
  rw [replay_tail_idle now h rfl, closed_of_idle now rfl]
  simp [closed, replayMessage, closePendingToolCalls]

theorem closed_kept (hskip : skipped m = false) (h : ∀ m ∈ tail, opensTurn m = false) (s : Replay) :
    ∃ written, closed now (tail.foldl (replayMessage now) (replayMessage now s (.assistant m))) =
        closed now s ++ .assistant m :: written ∧
      Answers ⟨.assistant m, tail⟩ ⟨.assistant m, written⟩ := by
  by_cases hcalls : toolCalls m = []
  · refine ⟨tail, ?_, rfl, h, ?_⟩
    · rw [replay_tail_idle now h (by simp [replayMessage, hskip, hcalls, closePendingToolCalls]),
        closed_of_idle now (by simp [replayMessage, hskip, hcalls, closePendingToolCalls])]
      simp [closed, replayMessage, hskip, hcalls, closePendingToolCalls]
    · simp [callIds, hcalls]
  · have hpending : (replayMessage now s (.assistant m)).pendingToolCalls ≠ [] := by
      simp [replayMessage, hskip, hcalls]
    rw [replay_tail_pending now h hpending]
    obtain ⟨answers, hanswers, hshape, hids⟩ := answerCalls_spec now (resultIds tail).reverse
      (toolCalls m) (closed now s ++ [Message.assistant m] ++ tail.filter (!Message.isSystem ·))
    refine ⟨tail.filter (!Message.isSystem ·) ++ answers ++ tail.filter Message.isSystem,
      ?_, rfl, ?_, ?_⟩
    · simp only [closed, closePendingToolCalls, replayMessage, hskip, hcalls, if_false,
        append_nil, nil_append, Bool.false_eq_true] at hanswers ⊢
      rw [hanswers]
      simp
    · intro other hother
      rw [mem_append, mem_append, mem_filter, mem_filter] at hother
      rcases hother with (hother | hother) | hother
      · exact h other hother.1
      · exact hshape other hother
      · exact h other hother.1
    · simp [resultIds_filter_system, resultIds_filter_not_system, hids, callIds]

inductive Replays : List Turn → List Message → List Turn → Prop
  | nil : Replays [] [] []
  | skip {t : Turn} {ts written : List Turn} {extra : List Message}
      (hskip : isSkipped t.head = true) (hrest : Replays ts extra written) :
    Replays (t :: ts) (t.tail ++ extra) written
  | keep {t u : Turn} {ts written : List Turn} {extra : List Message}
      (hskip : isSkipped t.head = false) (hturn : Answers t u)
      (hrest : Replays ts extra written) :
    Replays (t :: ts) [] (⟨u.head, u.tail ++ extra⟩ :: written)

theorem closed_turns (h : ∀ turn ∈ turns, TurnShaped turn) (s : Replay) :
    ∃ extra written, Replays turns extra written ∧
      closed now ((joinTurns turns).foldl (replayMessage now) s) =
        closed now s ++ (extra ++ joinTurns written) := by
  induction turns generalizing s with
  | nil => exact ⟨[], [], .nil, by simp⟩
  | cons turn rest ih =>
    obtain ⟨head, tail⟩ := turn
    obtain ⟨hhead, htail⟩ := h ⟨head, tail⟩ mem_cons_self
    obtain ⟨extra, written, hreplays, hclosed⟩ :=
      ih (fun other hother => h other (mem_cons_of_mem _ hother))
        (tail.foldl (replayMessage now) (replayMessage now s head))
    rw [joinTurns_cons, foldl_cons, foldl_append, hclosed]
    cases head with
    | assistant m =>
      by_cases hskip : skipped m = true
      · refine ⟨tail ++ extra, written, .skip hskip hreplays, ?_⟩
        rw [closed_skipped now hskip htail]
        simp
      · rw [Bool.not_eq_true] at hskip
        obtain ⟨out, hout, hanswers⟩ := closed_kept now hskip htail s
        refine ⟨[], _, .keep hskip hanswers hreplays, ?_⟩
        rw [hout]
        simp
    | user m =>
      refine ⟨[], _, .keep rfl (u := ⟨.user m, tail⟩) ⟨rfl, htail, by simp⟩ hreplays, ?_⟩
      rw [closed_user now m htail]
      simp
    | _ => simp [opensTurn] at hhead

theorem Replays.shaped {written : List Turn} {extra : List Message}
    (h : Replays turns extra written) (hturns : ∀ turn ∈ turns, TurnShaped turn) :
    (∀ m ∈ extra, opensTurn m = false) ∧ ∀ turn ∈ written, TurnShaped turn := by
  induction h with
  | nil => exact ⟨by simp, by simp⟩
  | @skip t ts written extra _ _ ih =>
    have ht := hturns t mem_cons_self
    obtain ⟨hextra, hwritten⟩ := ih fun other hother => hturns other (mem_cons_of_mem _ hother)
    refine ⟨fun m hm => ?_, hwritten⟩
    rcases mem_append.mp hm with hm | hm
    · exact ht.2 m hm
    · exact hextra m hm
  | @keep t u ts written extra _ hanswers _ ih =>
    have ht := hturns t mem_cons_self
    obtain ⟨hextra, hwritten⟩ := ih fun other hother => hturns other (mem_cons_of_mem _ hother)
    refine ⟨by simp, fun turn hturn => ?_⟩
    rcases mem_cons.mp hturn with rfl | hturn
    · refine ⟨by rw [hanswers.1]; exact ht.1, fun m hm => ?_⟩
      rcases mem_append.mp hm with hm | hm
      · exact hanswers.2.1 m hm
      · exact hextra m hm
    · exact hwritten turn hturn

theorem splitTurns_joinTurns (h : ∀ turn ∈ turns, TurnShaped turn) :
    splitTurns (joinTurns turns) = ([], turns) := by
  induction turns with
  | nil => rfl
  | cons turn rest ih =>
    have hrest := ih fun other hother => h other (mem_cons_of_mem _ hother)
    rw [joinTurns_cons, splitTurns_turn (h turn mem_cons_self), hrest, append_nil]

theorem replayMessages_turns : ∃ extra written, Replays (splitTurns messages).2 extra written ∧
      splitTurns (replayMessages now messages) = ((splitTurns messages).1 ++ extra, written) := by
  obtain ⟨hlead, hturns⟩ := splitTurns_shaped messages
  obtain ⟨extra, written, hreplays, hclosed⟩ := closed_turns now hturns
    ((splitTurns messages).1.foldl (replayMessage now) {})
  obtain ⟨hextra, hwritten⟩ := hreplays.shaped hturns
  refine ⟨extra, written, hreplays, ?_⟩
  have houtput : replayMessages now messages =
      (splitTurns messages).1 ++ (extra ++ joinTurns written) := by
    have hidle : closed now ((splitTurns messages).1.foldl (replayMessage now) {}) =
        (splitTurns messages).1 := by
      rw [replay_tail_idle now hlead rfl, closed_of_idle now rfl]
      simp
    rw [← foldl_append, joinTurns_splitTurns, hidle] at hclosed
    exact hclosed
  rw [houtput, splitTurns_append hlead, splitTurns_append hextra, splitTurns_joinTurns hwritten,
    append_nil]

end Replaying

/-! ### Pairing -/

section Pairing

variable (model : TargetModel) (normalize : Option IdNormalizer)

theorem outputId_injective
    (h : ∀ f ∈ normalize, ∀ source, Function.Injective fun id => f id model source)
    (m : AssistantMessage) : Function.Injective (outputId model normalize m) := by
  intro id other heq
  unfold outputId at heq
  split at heq
  · exact heq
  · cases normalize with
    | none => exact heq
    | some f => exact h f rfl m heq

variable {calls results : List String} {m : AssistantMessage} {ts us written : List Turn}

theorem no_further_result {further : List String}
    (hcount : ∀ id ∈ calls, (results ++ calls.filter (· ∉ results) ++ further).count id = 1)
    (hmem : ∀ id ∈ results ++ calls.filter (· ∉ results) ++ further, id ∈ calls) :
    further = [] := by
  rw [eq_nil_iff_forall_not_mem]
  intro id hid
  have hcall := hmem id (mem_append_right _ hid)
  have honce := hcount id hcall
  have hanswered : id ∈ results ++ calls.filter (· ∉ results) := by
    by_cases h : id ∈ results
    · exact mem_append_left _ h
    · exact mem_append_right _ (mem_filter.mpr ⟨hcall, by simpa using h⟩)
  have hfirst := count_pos_iff.mpr hanswered
  have hsecond := count_pos_iff.mpr hid
  rw [count_append] at honce
  omega

theorem answered_nodup (hcalls : calls.Nodup) (hresults : results.Nodup) :
    (results ++ calls.filter (· ∉ results)).Nodup := by
  refine nodup_append.mpr ⟨hresults, hcalls.filter _, ?_⟩
  intro id hid other hother heq
  subst heq
  simp [hid] at hother

variable {extra : List Message} {before : List AssistantMessage}

theorem turnPaired_iff (hinjective : ∀ m, Function.Injective (outputId model normalize m))
    {n : AssistantMessage} {tail merged written : List Message} {rename : String → String}
    (hformed : TurnFormed ⟨.assistant m, tail⟩)
    (hcalls : callIds n = (callIds m).map (outputId model normalize m))
    (hwritten : resultIds written = (resultIds tail).map rename ++
      (callIds n).filter (· ∉ (resultIds tail).map rename))
    (hextra : resultIds extra = [] ↔ resultIds merged = []) :
    TurnPaired model normalize ⟨.assistant m, tail ++ merged⟩ ⟨.assistant n, written ++ extra⟩ ↔
      (∀ id ∈ resultIds tail, rename id = outputId model normalize m id) ∧
        resultIds extra = [] := by
  obtain ⟨hnodup, hresults, hmem⟩ := hformed
  simp only [TurnPaired, resultIds_append, hwritten]
  constructor
  · rintro ⟨-, hcount, hin, synthesized, heq⟩
    have hnone := no_further_result hcount hin
    rw [hnone, hextra.mp hnone] at heq
    simp only [append_nil] at heq
    have hmap := append_inj_left heq (by simp)
    exact ⟨map_inj_left.mp hmap, hnone⟩
  · rintro ⟨hrename, hnone⟩
    have hmap : (resultIds tail).map rename =
        (resultIds tail).map (outputId model normalize m) := map_inj_left.mpr hrename
    rw [hmap, hnone, hextra.mp hnone, append_nil, append_nil]
    have hcalls' : (callIds n).Nodup := by
      rw [hcalls]
      exact hnodup.map (hinjective m)
    have hall := answered_nodup hcalls' (hresults.map (hinjective m))
    refine ⟨hcalls, fun id hid => ?_, fun id hid => ?_, _, rfl⟩
    · rw [count_eq_one_of_mem hall]
      by_cases h : id ∈ (resultIds tail).map (outputId model normalize m)
      · exact mem_append_left _ h
      · exact mem_append_right _ (mem_filter.mpr ⟨hid, by simpa using h⟩)
    · rcases mem_append.mp hid with h | h
      · obtain ⟨given, hgiven, rfl⟩ := mem_map.mp h
        rw [hcalls]
        exact mem_map_of_mem (hmem given hgiven)
      · exact (mem_filter.mp h).1

/-- The renaming suits every turn. -/
def TurnsAgree : List AssistantMessage → List Turn → Prop
  | _, [] => True
  | before, ⟨.assistant m, tail⟩ :: rest =>
    (if skipped m then resultIds tail = []
      else ∀ id ∈ resultIds tail,
        renamed model normalize (before ++ [m]) id = outputId model normalize m id) ∧
      TurnsAgree (before ++ [m]) rest
  | before, _ :: rest => TurnsAgree before rest

theorem isSkipped_of_rewrites {m n : Message} (h : Rewrites model normalize before m n) :
    isSkipped n = isSkipped m := by
  cases m with
  | assistant m =>
    obtain ⟨content, rfl, -⟩ := h
    rfl
  | toolResult m =>
    obtain ⟨r, rfl, -⟩ := h
    rfl
  | user m =>
    obtain ⟨u, rfl⟩ := h
    rfl
  | system m =>
    obtain ⟨s, rfl⟩ := h
    rfl
  | _ => exact absurd h id

theorem length_resultIds_merged (hrewrites : RewritesTurns model normalize before ts us)
    (hreplays : Replays us extra written) :
    (resultIds extra).length = (resultIds (mergeSkipped ts).1).length := by
  induction hrewrites generalizing extra written with
  | nil before =>
    cases hreplays
    rfl
  | @cons before t u ts us hhead htail _ ih =>
    have hsame := isSkipped_of_rewrites model normalize hhead
    cases hreplays with
    | skip hskip hrest =>
      rw [hskip] at hsame
      simp [mergeSkipped, ← hsame, ih hrest, resultIds_of_rewrites model normalize htail]
    | keep hskip hturn hrest =>
      rw [hskip] at hsame
      simp [mergeSkipped, ← hsame]

theorem turns_paired_iff (hinjective : ∀ m, Function.Injective (outputId model normalize m))
    (hrewrites : RewritesTurns model normalize before ts us) (hreplays : Replays us extra written)
    (hshaped : ∀ turn ∈ ts, TurnShaped turn) (hformed : ∀ turn ∈ ts, TurnFormed turn) :
    (resultIds extra = [] ∧
        List.Forall₂ (TurnPaired model normalize) (mergeSkipped ts).2 written) ↔
      TurnsAgree model normalize before ts := by
  induction hrewrites generalizing extra written with
  | nil before =>
    cases hreplays
    simp [TurnsAgree, mergeSkipped]
  | @cons before t u ts us hhead htail hrest ih =>
    obtain ⟨head, tail⟩ := t
    have hturn := hformed ⟨head, tail⟩ mem_cons_self
    have hopens := (hshaped ⟨head, tail⟩ mem_cons_self).1
    have hsame := isSkipped_of_rewrites model normalize hhead
    have hids := resultIds_of_rewrites model normalize htail
    have hrest' {extra : List Message} {written : List Turn} (h : Replays us extra written) :=
      ih h (fun other hother => hshaped other (mem_cons_of_mem _ hother))
        (fun other hother => hformed other (mem_cons_of_mem _ hother))
    cases hreplays with
    | @skip _ _ _ extra hskip hreplays =>
      rw [hskip] at hsame
      cases head with
      | assistant m =>
        have hm : skipped m = true := hsame.symm
        have hnone : resultIds u.tail = [] ↔ resultIds tail = [] := by simp [hids]
        simp only [mergeSkipped, isSkipped, hm, if_true, resultIds_append, append_eq_nil_iff,
          TurnsAgree, and_assoc, hnone]
        exact and_congr_right fun _ => hrest' hreplays
      | _ => simp [isSkipped] at hsame
    | @keep _ w _ _ extra hskip hanswers hreplays =>
      rw [hskip] at hsame
      obtain ⟨hwhead, hwshape, hwids⟩ := hanswers
      have hextra : resultIds extra = [] ↔ resultIds (mergeSkipped ts).1 = [] := by
        rw [← length_eq_zero_iff, ← length_eq_zero_iff,
          length_resultIds_merged model normalize hrest hreplays]
      obtain ⟨whead, wtail⟩ := w
      obtain ⟨uhead, utail⟩ := u
      cases hwhead
      cases head with
      | assistant m =>
        have hm : skipped m = false := hsame.symm
        obtain ⟨content, rfl, hcalls⟩ := hhead
        have hcalls' : callIds { m with content } =
            (callIds m).map (outputId model normalize m) := hcalls
        rw [hids] at hwids
        have hpaired := turnPaired_iff model normalize hinjective hturn hcalls' hwids hextra
        simp only [mergeSkipped, isSkipped, hm, Bool.false_eq_true, if_false, resultIds_nil,
          forall₂_cons, true_and, TurnsAgree, hpaired, and_assoc]
        exact and_congr_right fun _ => hrest' hreplays
      | user m =>
        obtain ⟨v, rfl⟩ := hhead
        have htailNone : resultIds wtail = [] := by
          have hgiven : resultIds tail = [] := hturn
          rw [hwids, hids, hgiven]
          rfl
        have hpaired : TurnPaired model normalize ⟨.user m, tail ++ (mergeSkipped ts).1⟩
            ⟨.user v, wtail ++ extra⟩ ↔ resultIds extra = [] := by
          simp [TurnPaired, htailNone]
        simp only [mergeSkipped, isSkipped, Bool.false_eq_true, if_false, resultIds_nil,
          forall₂_cons, true_and, TurnsAgree, hpaired]
        simpa [assistants] using hrest' hreplays
      | _ => simp [opensTurn] at hopens

theorem renamed_agrees_iff {id : String} (h : id ∈ callIds m) :
    renamed model normalize (before ++ [m]) id = outputId model normalize m id ↔
      (outputId model normalize m id = id →
        ∀ n ∈ before, id ∈ callIds n → outputId model normalize n id = id) := by
  rw [← renamed_eq_self_iff, renamed_snoc]
  by_cases hout : outputId model normalize m id = id
  · simp [hout]
  · simp [hout, h]

/-- The condition on ids, with the messages `before` in front of the turns. -/
def Unshadowed (before : List AssistantMessage) (turns : List Turn) : Prop :=
  ∀ earlier m tail later, turns = earlier ++ ⟨.assistant m, tail⟩ :: later →
    skipped m = false → ∀ id ∈ resultIds tail, outputId model normalize m id = id →
      ∀ n ∈ before ++ earlier.flatMap (assistants ·.head), id ∈ callIds n →
        outputId model normalize n id = id

theorem unshadowed_nil (before : List AssistantMessage) : Unshadowed model normalize before [] := by
  intro earlier m tail later heq
  simp at heq

theorem unshadowed_cons_iff (before : List AssistantMessage) (turn : Turn) (rest : List Turn) :
    Unshadowed model normalize before (turn :: rest) ↔
      (∀ m, turn.head = .assistant m → skipped m = false → ∀ id ∈ resultIds turn.tail,
        outputId model normalize m id = id →
          ∀ n ∈ before, id ∈ callIds n → outputId model normalize n id = id) ∧
        Unshadowed model normalize (before ++ assistants turn.head) rest := by
  constructor
  · intro h
    constructor
    · intro m hm hskip id hid hout n hn
      refine h [] m turn.tail rest ?_ hskip id hid hout n (by simpa using hn)
      rw [← hm]
      rfl
    · intro earlier m tail later heq hskip id hid hout n hn
      refine h (turn :: earlier) m tail later (by rw [heq]; rfl) hskip id hid hout n ?_
      simpa using hn
  · rintro ⟨hfirst, hrest⟩ earlier m tail later heq hskip id hid hout n hn
    cases earlier with
    | nil =>
      cases heq
      exact hfirst m rfl hskip id hid hout n (by simpa using hn)
    | cons first earlier =>
      cases heq
      exact hrest earlier m tail later rfl hskip id hid hout n (by simpa using hn)

theorem turnsAgree_iff (before : List AssistantMessage) {turns : List Turn}
    (hshaped : ∀ turn ∈ turns, TurnShaped turn) (hformed : ∀ turn ∈ turns, TurnFormed turn) :
    TurnsAgree model normalize before turns ↔
      (∀ turn ∈ turns, isSkipped turn.head = true → resultIds turn.tail = []) ∧
        Unshadowed model normalize before turns := by
  induction turns generalizing before with
  | nil => simp [TurnsAgree, unshadowed_nil]
  | cons turn rest ih =>
    obtain ⟨head, tail⟩ := turn
    have hopens := (hshaped ⟨head, tail⟩ mem_cons_self).1
    have hturn := hformed ⟨head, tail⟩ mem_cons_self
    have hrest := fun before => ih before
      (fun other hother => hshaped other (mem_cons_of_mem _ hother))
      (fun other hother => hformed other (mem_cons_of_mem _ hother))
    rw [unshadowed_cons_iff, forall_mem_cons]
    cases head with
    | user m => simp [TurnsAgree, isSkipped, assistants, hrest]
    | assistant m =>
      rw [TurnsAgree, hrest]
      by_cases hskip : skipped m = true
      · simp [hskip, isSkipped, assistants]
        tauto
      · have hagree : (∀ id ∈ resultIds tail, renamed model normalize (before ++ [m]) id =
            outputId model normalize m id) ↔ ∀ id ∈ resultIds tail,
              outputId model normalize m id = id →
                ∀ n ∈ before, id ∈ callIds n → outputId model normalize n id = id :=
          forall₂_congr fun id hid => renamed_agrees_iff model normalize (hturn.2.2 id hid)
        simp [hskip, isSkipped, assistants, hagree]
        tauto
    | _ => simp [opensTurn] at hopens

theorem unshadowed_nil_iff (messages : List Message) :
    Unshadowed model normalize [] (splitTurns messages).2 ↔
      IdsUnshadowed model normalize messages := by
  have hmem : ∀ (earlier : List Turn) n,
      n ∈ [] ++ earlier.flatMap (assistants ·.head) ↔
        ∃ turn ∈ earlier, turn.head = .assistant n := by
    intro earlier n
    rw [nil_append, mem_flatMap]
    refine exists_congr fun turn => and_congr_right fun _ => ?_
    cases turn.head <;> simp [assistants, eq_comm]
  constructor
  · intro h earlier m tail later heq hskip id hid hout turn hturn n hn
    exact h earlier m tail later heq hskip id hid hout n ((hmem earlier n).mpr ⟨turn, hturn, hn⟩)
  · intro h earlier m tail later heq hskip id hid hout n hn
    obtain ⟨turn, hturn, hhead⟩ := (hmem earlier n).mp hn
    exact h earlier m tail later heq hskip id hid hout turn hturn n hhead

end Pairing

/-- A typed, well-formed history is transformed, and its output is paired exactly when no
dropped message is answered and no answered id is shadowed by an earlier rename. -/
theorem transform_paired_iff (model : TargetModel) (normalize : Option IdNormalizer)
    (now : Nat → Int) (messages : List Message)
    (hinjective : ∀ f ∈ normalize, ∀ source, Function.Injective fun id => f id model source)
    (htyped : ∀ m ∈ messages, TypedMessage m) (hformed : HistoryFormed messages) :
    ∃ output, transformMessages model normalize now messages = some output ∧
      (Paired model normalize messages output ↔
        SkippedUnanswered messages ∧ IdsUnshadowed model normalize messages) := by
  obtain ⟨normalized, prepared, hnormalized, hprepared, hprepares⟩ :=
    prepare_messages model htyped
  have hrecords : Records model normalize [] .empty := fun id => rfl
  obtain ⟨rewritten, hrewritten, hrewrites⟩ :=
    rewriteMessages_spec model normalize hrecords hprepares htyped
  refine ⟨replayMessages now rewritten, by
    simp [transformMessages, hnormalized, hprepared, hrewritten], ?_⟩
  obtain ⟨hleads, hturns⟩ := hrewrites.splitTurns
  obtain ⟨extra, written, hreplays, hsplit⟩ := replayMessages_turns now rewritten
  obtain ⟨hlead, hshaped⟩ := splitTurns_shaped messages
  have hleadNone : resultIds (splitTurns rewritten).1 = [] := by
    rw [resultIds_of_rewrites model normalize hleads, hformed.lead]
    rfl
  have hkept : (splitTurns (messages.filter (!isSkipped ·))).2 =
      (mergeSkipped (splitTurns messages).2).2 := by
    have hjoin := congrArg (filter (!isSkipped ·)) (joinTurns_splitTurns messages)
    rw [filter_append, filter_of_not_opensTurn hlead] at hjoin
    rw [← hjoin, splitTurns_append hlead, splitTurns_filter hshaped]
  have hiff := turns_paired_iff model normalize (outputId_injective model normalize hinjective)
    hturns hreplays hshaped hformed.turns
  rw [turnsAgree_iff model normalize [] hshaped hformed.turns, unshadowed_nil_iff] at hiff
  rw [SkippedUnanswered, ← hiff]
  constructor
  · rintro ⟨hlead', hturns'⟩
    rw [hsplit, resultIds_append, hleadNone] at hlead'
    rw [hsplit, hkept] at hturns'
    exact ⟨hlead', hturns'⟩
  · rintro ⟨hextra, hturns'⟩
    refine ⟨?_, ?_⟩
    · rw [hsplit, resultIds_append, hleadNone, hextra]
      rfl
    · rw [hsplit, hkept]
      exact hturns'

def sampleTarget : TargetModel := ⟨⟨"target", "api", "provider"⟩, ["text"]⟩

def prefixIds : IdNormalizer := fun id _ _ => "n_" ++ id

def oneCall (model : String) (reason : StopReason) (id : String) : AssistantMessage :=
  { content := .blocks [.toolCall { id, name := "read", arguments := [] }]
    api := "api"
    provider := "provider"
    model
    usage := zeroUsage
    stopReason := reason
    timestamp := 0 }

def oneResult (id : String) : ToolResultMessage :=
  { toolCallId := id
    toolName := "read"
    content := .blocks [.text "done" none]
    isError := false
    timestamp := 0 }

/-- A call of another model with its result, then a call with the same id of the target. -/
def reusedId (id : String) : List Message :=
  [.assistant (oneCall "other" .toolUse "a"), .toolResult (oneResult "a"),
    .assistant (oneCall "target" .toolUse id), .toolResult (oneResult id)]

theorem prefixIds_injective : ∀ f ∈ some prefixIds, ∀ source,
    Function.Injective fun id => f id sampleTarget source := by
  rintro f ⟨⟩ source id other h
  exact (String.append_right_inj "n_").mp h

theorem reusedId_typed : ∀ m ∈ reusedId id, TypedMessage m := by
  simp [reusedId, TypedMessage, oneCall, oneResult, isDecoded, isTextOrImage]

theorem reusedId_formed : HistoryFormed (reusedId id) := by
  constructor
  · rfl
  · simp [reusedId, splitTurns, opensTurn, TurnFormed, callIds, toolCalls, contentCalls, oneCall,
      oneResult, resultIds_cons, resultId?]

theorem transform_paired_distinct :
    ∃ output, transformMessages sampleTarget (some prefixIds) (fun _ => 0) (reusedId "b") =
      some output ∧ Paired sampleTarget (some prefixIds) (reusedId "b") output := by
  obtain ⟨output, houtput, hiff⟩ := transform_paired_iff sampleTarget (some prefixIds)
    (fun _ => 0) (reusedId "b") prefixIds_injective (reusedId_typed "b") (reusedId_formed "b")
  refine ⟨output, houtput, hiff.mpr ⟨?_, ?_⟩⟩
  · simp [SkippedUnanswered, reusedId, splitTurns, opensTurn, isSkipped, skipped, oneCall]
  · rw [← unshadowed_nil_iff]
    simp [reusedId, splitTurns, opensTurn, unshadowed_cons_iff, assistants, callIds, toolCalls,
      contentCalls, oneCall, oneResult, resultIds_cons, resultId?, unshadowed_nil]

/-- Each call of the turn has one result and each result a call. -/
def answeredOnce (turn : Turn) : Bool :=
  match turn.head with
  | .assistant m => (callIds m).all (fun id => (resultIds turn.tail).count id = 1) &&
      (resultIds turn.tail).all (· ∈ callIds m)
  | _ => true

/-- A call of the target's own model loses its result to an earlier rename of its id. -/
theorem reused_id_unpaired : ¬ ∀ (model : TargetModel) (normalize : Option IdNormalizer)
    (now : Nat → Int) (messages : List Message),
    (∀ f ∈ normalize, ∀ source, Function.Injective fun id => f id model source) →
      (∀ m ∈ messages, TypedMessage m) → HistoryFormed messages →
        ∃ output, transformMessages model normalize now messages = some output ∧
          ∀ turn ∈ (splitTurns output).2, answeredOnce turn = true := by
  intro h
  obtain ⟨output, houtput, hpaired⟩ := h sampleTarget (some prefixIds) (fun _ => 0) (reusedId "a")
    prefixIds_injective (reusedId_typed "a") (reusedId_formed "a")
  have hrun : (transformMessages sampleTarget (some prefixIds) (fun _ => 0) (reusedId "a")).all
      (fun output => (splitTurns output).2.all answeredOnce) = false := by
    decide
  rw [houtput, Option.all_some, all_eq_false] at hrun
  obtain ⟨turn, hturn, hfails⟩ := hrun
  exact hfails (hpaired turn hturn)

end Pidrei.ReplayPairing
