import Mathlib.Data.List.Induction
import Pidrei.RequestTranscript

/-!
Tool declarations for transports that can add tools at a later message but not remove or
redefine them. The request's tools are the state after the last change of another kind; what
follows only adds new names, so adding it to the request's tools gives the current tools.
-/
namespace Pidrei.AnchoredTools

open Messages Transcript RequestTranscript List

def toolNames (m : SystemMessage) : List String := (toolsAdded m).map Tool.name

def declaredNames (systemMessages : List SystemMessage) : List String :=
  systemMessages.flatMap toolNames

/-- A system message that only adds tools, with names that were never declared before. -/
structure Additive (earlier : List SystemMessage) (m : SystemMessage) : Prop where
  removed : toolsRemoved m = []
  distinct : (toolNames m).Nodup
  fresh : ∀ name ∈ toolNames m, name ∉ declaredNames earlier

section FoldPoint

theorem mem_declared_noteDeclarations {index : ℕ} {tools : List Tool} {s : NonAdditive}
    {name : String} : name ∈ (tools.foldl (noteDeclaration index) s).declared ↔
      name ∈ tools.map Tool.name ∨ name ∈ s.declared := by
  induction tools generalizing s with
  | nil => simp
  | cons tool tools ih =>
    rw [foldl_cons, ih, map_cons, mem_cons]
    simp only [noteDeclaration, mem_cons]
    tauto

/-- None of the names is known, and none comes twice. -/
def Fresh (s : NonAdditive) (names : List String) : Prop :=
  names.Nodup ∧ ∀ name ∈ names, name ∉ s.declared

variable (index : ℕ)

theorem fresh_cons (s : NonAdditive) (tool : Tool) (names : List String) :
    Fresh s (tool.name :: names) ↔
      tool.name ∉ s.declared ∧ Fresh (noteDeclaration index s tool) names := by
  simp only [Fresh, nodup_cons, mem_cons, forall_eq_or_imp, noteDeclaration, not_or]
  constructor
  · rintro ⟨⟨hhead, hnodup⟩, hknown, hfresh⟩
    refine ⟨hknown, hnodup, fun name hname => ⟨?_, hfresh name hname⟩⟩
    rintro rfl
    exact hhead hname
  · rintro ⟨hknown, hnodup, hfresh⟩
    exact ⟨⟨fun hhead => (hfresh _ hhead).1 rfl, hnodup⟩, hknown,
      fun name hname => (hfresh name hname).2⟩

theorem last_noteDeclarations (tools : List Tool) (s : NonAdditive) :
    (Fresh s (tools.map Tool.name) → (tools.foldl (noteDeclaration index) s).last = s.last) ∧
      (¬ Fresh s (tools.map Tool.name) →
        (tools.foldl (noteDeclaration index) s).last = index) := by
  induction tools generalizing s with
  | nil => exact ⟨fun _ => rfl, fun h => absurd ⟨nodup_nil, nofun⟩ h⟩
  | cons tool tools ih =>
    obtain ⟨hfresh, hknown⟩ := ih (noteDeclaration index s tool)
    rw [foldl_cons, map_cons, fresh_cons index]
    by_cases hname : tool.name ∈ s.declared
    · have hlast : (noteDeclaration index s tool).last = index := if_pos hname
      rw [hlast] at hfresh
      refine ⟨fun h => absurd hname h.1, fun _ => ?_⟩
      by_cases hrest : Fresh (noteDeclaration index s tool) (tools.map Tool.name)
      · exact hfresh hrest
      · exact hknown hrest
    · have hlast : (noteDeclaration index s tool).last = s.last := if_neg hname
      rw [hlast] at hfresh
      exact ⟨fun h => hfresh h.2, fun h => hknown fun hrest => h ⟨hname, hrest⟩⟩

/-- What the search for the fold point has noted of some system messages. -/
def noted (systemMessages : List SystemMessage) : NonAdditive :=
  systemMessages.zipIdx.foldl noteSystemMessage {}

theorem noted_concat (systemMessages : List SystemMessage) (m : SystemMessage) :
    noted (systemMessages ++ [m]) =
      noteSystemMessage (noted systemMessages) (m, systemMessages.length) := by
  rw [noted, zipIdx_append, foldl_append, Nat.zero_add]
  rfl

theorem declaredNames_concat (systemMessages : List SystemMessage) (m : SystemMessage) :
    declaredNames (systemMessages ++ [m]) = declaredNames systemMessages ++ toolNames m := by
  rw [declaredNames, flatMap_append, flatMap_singleton]
  rfl

theorem mem_declared_noted (systemMessages : List SystemMessage) (name : String) :
    name ∈ (noted systemMessages).declared ↔ name ∈ declaredNames systemMessages := by
  induction systemMessages using reverseRecOn with
  | nil => exact .rfl
  | append_singleton systemMessages m ih =>
    rw [noted_concat, declaredNames_concat, mem_append, ← ih, noteSystemMessage,
      mem_declared_noteDeclarations, Or.comm]
    dsimp only
    split_ifs <;> rfl

/-- A message behind the transcript moves the fold point unless it only adds new names. -/
theorem last_concat (systemMessages : List SystemMessage) (m : SystemMessage) :
    (Additive systemMessages m → findLastNonAdditiveToolChange (systemMessages ++ [m]) =
        findLastNonAdditiveToolChange systemMessages) ∧
      (¬ Additive systemMessages m →
        findLastNonAdditiveToolChange (systemMessages ++ [m]) = systemMessages.length) := by
  have hlast : findLastNonAdditiveToolChange (systemMessages ++ [m]) =
      (noteSystemMessage (noted systemMessages) (m, systemMessages.length)).last :=
    congrArg NonAdditive.last (noted_concat systemMessages m)
  rw [hlast, noteSystemMessage]
  by_cases hremoved : toolsRemoved m = []
  · have hadditive : Additive systemMessages m ↔ Fresh (noted systemMessages) (toolNames m) := by
      simp only [Fresh, mem_declared_noted]
      exact ⟨fun h => ⟨h.distinct, h.fresh⟩, fun h => ⟨hremoved, h.1, h.2⟩⟩
    rw [if_pos hremoved, hadditive]
    exact last_noteDeclarations systemMessages.length (toolsAdded m) (noted systemMessages)
  · refine ⟨fun h => absurd h.removed hremoved, fun _ => ?_⟩
    rw [if_neg hremoved]
    obtain ⟨hfresh, hknown⟩ := last_noteDeclarations systemMessages.length (toolsAdded m)
      { noted systemMessages with last := systemMessages.length }
    by_cases h : Fresh { noted systemMessages with last := systemMessages.length }
        ((toolsAdded m).map Tool.name)
    · exact hfresh h
    · exact hknown h

theorem last_lt (systemMessages : List SystemMessage) :
    findLastNonAdditiveToolChange systemMessages < systemMessages.length := by
  induction systemMessages using reverseRecOn with
  | nil => decide
  | append_singleton systemMessages m ih =>
    obtain ⟨hsame, hmoved⟩ := last_concat systemMessages m
    rw [length_append, length_singleton]
    by_cases h : Additive systemMessages m
    · rw [hsame h]
      omega
    · rw [hmoved h]
      omega

end FoldPoint

section Replay

/-- Tools are declared one after the other; a known name keeps its place. -/
def declareAll (tools : OrderedMap String Tool) (added : List Tool) : OrderedMap String Tool :=
  added.foldl (fun acc tool => acc.set tool.name tool) tools

def replaySystems (systemMessages : List SystemMessage) : OrderedMap String Tool :=
  (systemMessages.map Message.system).foldl replayTools .empty

theorem replayTools_system (tools : OrderedMap String Tool) (m : SystemMessage)
    (h : toolsRemoved m = []) : replayTools tools (.system m) = declareAll tools (toolsAdded m) := by
  change m.toolsRemoved.getD [] = [] at h
  rw [replayTools, h]
  rfl

variable {tools : OrderedMap String Tool} {name : String}

theorem mem_keys_declareAll {added : List Tool} :
    name ∈ (declareAll tools added).keys ↔ name ∈ tools.keys ∨ name ∈ added.map Tool.name := by
  induction added generalizing tools with
  | nil => simp [declareAll]
  | cons tool added ih =>
    have hstep : declareAll tools (tool :: added) =
        declareAll (tools.set tool.name tool) added := rfl
    rw [hstep, ih, OrderedMap.mem_keys_set, map_cons, mem_cons]
    tauto

theorem mem_keys_eraseAll {removed : List ToolReference}
    (h : name ∈ (removed.foldl (fun acc tool => acc.erase tool.name) tools).keys) :
    name ∈ tools.keys := by
  induction removed generalizing tools with
  | nil => exact h
  | cons tool removed ih =>
    have hkept := ih h
    rw [← OrderedMap.get?_isSome_iff, OrderedMap.get?_erase] at hkept
    rw [← OrderedMap.get?_isSome_iff]
    split_ifs at hkept
    · cases hkept
    · exact hkept

theorem mem_keys_replayTools {m : SystemMessage} (h : name ∈ (replayTools tools (.system m)).keys) :
    name ∈ tools.keys ∨ name ∈ toolNames m :=
  (mem_keys_declareAll.mp h).imp_left mem_keys_eraseAll

theorem replaySystems_concat (systemMessages : List SystemMessage) (m : SystemMessage) :
    replaySystems (systemMessages ++ [m]) =
      replayTools (replaySystems systemMessages) (.system m) := by
  rw [replaySystems, map_append, foldl_append]
  rfl

theorem mem_keys_replaySystems {systemMessages : List SystemMessage}
    (h : name ∈ (replaySystems systemMessages).keys) : name ∈ declaredNames systemMessages := by
  induction systemMessages using reverseRecOn with
  | nil => cases h
  | append_singleton systemMessages m ih =>
    rw [replaySystems_concat] at h
    rw [declaredNames_concat, mem_append]
    exact (mem_keys_replayTools h).imp_left ih

theorem declareAll_append (tools : OrderedMap String Tool) (front back : List Tool) :
    declareAll tools (front ++ back) = declareAll (declareAll tools front) back :=
  foldl_append

theorem anchored_from (systemMessages : List SystemMessage) {folded : ℕ}
    (h : findLastNonAdditiveToolChange systemMessages < folded) :
    declareAll (replaySystems (systemMessages.take folded))
        ((systemMessages.drop folded).flatMap toolsAdded) = replaySystems systemMessages ∧
      ((replaySystems (systemMessages.take folded)).keys ++
        (systemMessages.drop folded).flatMap toolNames).Nodup := by
  induction systemMessages using reverseRecOn with
  | nil =>
    rw [take_nil, drop_nil]
    exact ⟨rfl, nodup_nil⟩
  | append_singleton systemMessages m ih =>
    by_cases hbehind : systemMessages.length < folded
    · rw [take_of_length_le, drop_eq_nil_of_le]
      · refine ⟨rfl, ?_⟩
        rw [flatMap_nil, append_nil]
        exact (replaySystems (systemMessages ++ [m])).nodupKeys
      · rw [length_append]
        exact hbehind
      · rw [length_append]
        exact hbehind
    · -- the message stands behind the fold point, so it only adds new names
      obtain ⟨hsame, hmoved⟩ := last_concat systemMessages m
      have hadditive : Additive systemMessages m := by
        by_contra hother
        rw [hmoved hother] at h
        omega
      rw [hsame hadditive] at h
      obtain ⟨hreplay, hnodup⟩ := ih h
      rw [take_append_of_le_length (by omega), drop_append_of_le_length (by omega),
        flatMap_append, flatMap_append, flatMap_singleton, flatMap_singleton]
      constructor
      · rw [declareAll_append, hreplay, replaySystems_concat,
          replayTools_system _ m hadditive.removed]
      · rw [← append_assoc]
        apply List.Nodup.append hnodup hadditive.distinct
        intro name hbefore hname
        apply hadditive.fresh name hname
        rcases mem_append.mp hbefore with hkey | hlater
        · obtain ⟨earlier, hearlier, hdeclares⟩ := mem_flatMap.mp (mem_keys_replaySystems hkey)
          exact mem_flatMap.mpr ⟨earlier, mem_of_mem_take hearlier, hdeclares⟩
        · obtain ⟨later, hmem, hdeclares⟩ := mem_flatMap.mp hlater
          exact mem_flatMap.mpr ⟨later, mem_of_mem_drop hmem, hdeclares⟩

end Replay

section Transcripts

def systemMessages (messages : List Message) : List SystemMessage :=
  messages.filterMap systemMessage?

variable (messages : List Message)

theorem replay_systemMessages :
    replaySystems (systemMessages messages) = messages.foldl replayTools .empty := by
  rw [replaySystems, foldl_map, systemMessages, foldl_filterMap]
  congr 1
  funext tools message
  cases message <;> rfl

theorem systemMessages_concat (m : SystemMessage) :
    systemMessages (messages ++ [Message.system m]) = systemMessages messages ++ [m] := by
  rw [systemMessages, filterMap_append]
  rfl

def anchoredTools (messages : List Message) : TranscriptTools :=
  resolveTranscriptTools messages .additions

theorem requestTools_eq : (anchoredTools messages).requestTools =
    (replaySystems ((systemMessages messages).take
      (anchoredTools messages).foldedSystemMessages)).values := rfl

theorem last_lt_folded : findLastNonAdditiveToolChange (systemMessages messages) <
      (anchoredTools messages).foldedSystemMessages := by
  change _ < ((max _ (findLastNonAdditiveToolChange (systemMessages messages) + 1)).toNat : ℤ)
  omega

/-- The tools of the request and the additions behind the fold point, in order. -/
def declarations (messages : List Message) : List Tool :=
  (anchoredTools messages).requestTools ++
    ((systemMessages messages).drop (anchoredTools messages).foldedSystemMessages).flatMap
      toolsAdded

theorem names_values {tools : OrderedMap String Tool} (h : NamedTools tools) :
    tools.values.map Tool.name = tools.keys := by
  rw [OrderedMap.values, OrderedMap.keys, map_map]
  exact map_congr_left fun item hitem => h item hitem

theorem namedTools_replaySystems (systemMessages : List SystemMessage) :
    NamedTools (replaySystems systemMessages) := namedTools_foldl _

theorem declarations_replay :
    (declareAll .empty (declarations messages)).values = getCurrentTools messages := by
  obtain ⟨hreplay, _⟩ := anchored_from (systemMessages messages) (last_lt_folded messages)
  have hrebuild : declareAll .empty (anchoredTools messages).requestTools =
      replaySystems ((systemMessages messages).take
        (anchoredTools messages).foldedSystemMessages) :=
    (namedTools_replaySystems _).rebuild
  rw [declarations, declareAll_append, hrebuild, hreplay, replay_systemMessages]
  rfl

theorem declarations_distinct : ((declarations messages).map Tool.name).Nodup := by
  obtain ⟨_, hnodup⟩ := anchored_from (systemMessages messages) (last_lt_folded messages)
  rw [declarations, map_append, requestTools_eq,
    names_values (namedTools_replaySystems _), map_flatMap]
  exact hnodup

theorem anchoredTools_concat {messages : List Message} (hne : messages ≠ []) {m : SystemMessage}
    (hadditive : Additive (systemMessages messages) m) :
    anchoredTools (messages ++ [Message.system m]) = anchoredTools messages := by
  have hinitial : getInitialSystemMessage (messages ++ [Message.system m]) =
      getInitialSystemMessage messages := by
    cases messages with
    | nil => exact absurd rfl hne
    | cons first rest => cases first <;> rfl
  have hfolded : (anchoredTools (messages ++ [Message.system m])).foldedSystemMessages =
      (anchoredTools messages).foldedSystemMessages := by
    change (max _ (findLastNonAdditiveToolChange (systemMessages _) + 1)).toNat = _
    rw [hinitial, systemMessages_concat, (last_concat _ m).1 hadditive]
    rfl
  have hshort : (anchoredTools messages).foldedSystemMessages ≤
      (systemMessages messages).length := by
    have hlast := last_lt (systemMessages messages)
    change (max (if (getInitialSystemMessage messages).isSome then (1 : ℤ) else 0)
      (findLastNonAdditiveToolChange (systemMessages messages) + 1)).toNat ≤ _
    cases messages with
    | nil => exact absurd rfl hne
    | cons first rest =>
      cases first with
      | system initial =>
        have hlength : 1 ≤ (systemMessages (.system initial :: rest)).length :=
          Nat.succ_le_succ (Nat.zero_le _)
        split_ifs <;> omega
      | _ => exact Int.toNat_le.mpr (max_le (Int.natCast_nonneg _) hlast)
  have htools : (anchoredTools (messages ++ [Message.system m])).requestTools =
      (anchoredTools messages).requestTools := by
    rw [requestTools_eq, requestTools_eq, hfolded, systemMessages_concat,
      take_append_of_le_length hshort]
  cases hleft : anchoredTools (messages ++ [Message.system m])
  cases hright : anchoredTools messages
  rw [hleft, hright] at hfolded htools
  rw [TranscriptTools.mk.injEq]
  exact ⟨htools, hfolded⟩

/-- What an addition-only transport would like to rely on. -/
structure AnchorsTools (messages : List Message) : Prop where
  replay : (declareAll .empty (declarations messages)).values = getCurrentTools messages
  distinct : ((declarations messages).map Tool.name).Nodup
  stable : ∀ m, Additive (systemMessages messages) m →
    anchoredTools (messages ++ [Message.system m]) = anchoredTools messages

theorem anchored_tools (messages : List Message) :
    (declareAll .empty (declarations messages)).values = getCurrentTools messages ∧
      ((declarations messages).map Tool.name).Nodup ∧
      (messages ≠ [] → ∀ m, Additive (systemMessages messages) m →
        anchoredTools (messages ++ [Message.system m]) = anchoredTools messages) :=
  ⟨declarations_replay messages, declarations_distinct messages,
    fun hne _ hadditive => anchoredTools_concat hne hadditive⟩

def bashTool : Tool := ⟨"bash", "Run a command.", [], none⟩

def firstPrompt : SystemMessage := { content := .text "", timestamp := 0, toolsAdded := [bashTool] }

def readTool : Tool := ⟨"read", "Read a file.", [], none⟩

def secondPrompt : SystemMessage := { content := .text "", timestamp := 1, toolsAdded := [readTool] }

theorem anchored_tools_extended :
    Additive (systemMessages [.system firstPrompt]) secondPrompt ∧
      anchoredTools ([.system firstPrompt] ++ [.system secondPrompt]) =
        anchoredTools [.system firstPrompt] := by
  have hadditive : Additive (systemMessages [.system firstPrompt]) secondPrompt :=
    ⟨rfl, nodup_singleton _, by decide⟩
  exact ⟨hadditive, (anchored_tools _).2.2 (cons_ne_nil _ _) secondPrompt hadditive⟩

/-- The message that starts a transcript is folded, whatever it adds. -/
theorem empty_transcript_moves : ¬ AnchorsTools [] := by
  intro h
  have hadditive : Additive (systemMessages []) firstPrompt :=
    ⟨rfl, nodup_singleton _, nofun⟩
  have hstable := congrArg TranscriptTools.foldedSystemMessages (h.stable firstPrompt hadditive)
  exact absurd hstable (by decide)

end Transcripts

end Pidrei.AnchoredTools
