import Mathlib.Data.List.Sort
import Pidrei.Library.Checkpoint
import Pidrei.Messages

/-!
Replay of the system messages of a transcript. The leading one is the prompt,
later ones patch it: content is appended, sections are patched by name, tools
are removed and then added. `getCurrentSystemMessage` is a checkpoint of the
replay: one system message that stands for all system messages before it.
-/
namespace Pidrei.Transcript

open Values Messages
open OrderedMap (empty entries ext get? insertAll isEmpty mapValues ofList ofList_entries values)
open Checkpoint (collapse replay replay_append replay_of_no_updates)

/-- `separator.join(parts)`. -/
def joinText (separator : String) : List String → String
  | [] => ""
  | [part] => part
  | part :: next :: rest => part ++ separator ++ joinText separator (next :: rest)

def blockText : ContentBlock → Option String
  | .text text _ => some text
  | _ => none

def contentText (content : Content) (separator : String := "\n") : String :=
  match content with
  | .missing => ""
  | .text s => s
  | .blocks blocks => joinText separator (blocks.filterMap blockText)

/-- The system messages of a transcript; every other role passes by. -/
def systemMessage? : Message → Option SystemMessage
  | .system m => some m
  | _ => none

/-- One system message's effect on the tool map: removals, then additions. -/
def replayTools (tools : OrderedMap String Tool) (message : Message) : OrderedMap String Tool :=
  match message with
  | .system m =>
    let removed := (m.toolsRemoved.getD []).foldl (fun acc tool => acc.erase tool.name) tools
    (m.toolsAdded.getD []).foldl (fun acc tool => acc.set tool.name tool) removed
  | _ => tools

def getCurrentTools (messages : List Message) : List Tool :=
  (messages.foldl replayTools empty).values

/-- The loop variables of `getCurrentSystemMessage`. -/
structure PromptState where
  content : List String
  sections : OrderedMap String String
  timestamp : Option Int

def PromptState.initial : PromptState := ⟨[], empty, none⟩

def patchSection (sections : OrderedMap String String) (item : String × Option String) :
    OrderedMap String String :=
  match item.2 with
  | none => sections.erase item.1
  | some value => sections.set item.1 value

def replayPrompt (state : PromptState) (message : Message) : PromptState :=
  match message with
  | .system m =>
    let text := contentText m.content
    { content := if 0 < text.length then state.content ++ [text] else state.content
      sections := ((m.sections.map entries).getD []).foldl patchSection state.sections
      timestamp := some (state.timestamp.getD m.timestamp) }
  | _ => state

def getCurrentSystemMessage (messages : List Message) : Option SystemMessage :=
  let state := messages.foldl replayPrompt PromptState.initial
  let tools := getCurrentTools messages
  if state.timestamp = none ∧ tools.length = 0 then none
  else some {
    content := .text (joinText "\n\n" state.content)
    sections := if state.sections.isEmpty then none else some (state.sections.mapValues some)
    toolsAdded := if tools.isEmpty then none else some tools
    timestamp := state.timestamp.getD 0 }

/-- A complete prompt: the content followed by the sections. -/
def getSystemMessageText (message : SystemMessage) : String :=
  let texts := ((message.sections.map values).getD []).filterMap id
  joinText "\n\n" ((contentText message.content :: texts).filter (fun part => 0 < part.length))

def getCurrentSystemPrompt (messages : List Message) : String :=
  match getCurrentSystemMessage messages with
  | some message => getSystemMessageText message
  | none => ""

def collapseSystemMessages (messages : List Message) : List Message :=
  let rest := messages.filter (fun message => !message.isSystem)
  match getCurrentSystemMessage messages with
  | some head => .system head :: rest
  | none => rest

variable (separator : String) (messages before after : List Message)
   (s : PromptState × OrderedMap String Tool)

theorem joinText_concat (parts : List String) (part : String) (h : parts ≠ []) :
    joinText separator (parts ++ [part]) = joinText separator parts ++ separator ++ part := by
  induction parts with
  | nil => exact absurd rfl h
  | cons first rest ih =>
    cases rest with
    | nil => rfl
    | cons next rest =>
      have hrest := ih (by simp)
      simp only [List.cons_append, joinText] at hrest ⊢
      rw [hrest]
      simp only [String.append_assoc]

theorem joinText_length_pos (parts : List String) (h : ∀ part ∈ parts, 0 < part.length) :
    0 < (joinText separator parts).length ↔ parts ≠ [] := by
  match parts, h with
  | [], _ => simp [joinText]
  | [part], h => simpa [joinText] using h part (by simp)
  | part :: next :: rest, h =>
    have hpart := h part (by simp)
    simp only [joinText, String.length_append, ne_eq, reduceCtorEq, not_false_eq_true, iff_true]
    omega

namespace PromptState

/-- Every collected text is nonempty. -/
def Clean (s : PromptState) : Prop := ∀ part ∈ s.content, 0 < part.length

/-- What a later replay can see: the joined content, the sections and the first timestamp. -/
structure Alike (s t : PromptState) : Prop where
  joined : joinText "\n\n" s.content = joinText "\n\n" t.content
  sections : s.sections = t.sections
  timestamp : s.timestamp = t.timestamp
  cleanLeft : s.Clean
  cleanRight : t.Clean

variable {s t : PromptState}

theorem Alike.content_nil_iff (h : s.Alike t) : s.content = [] ↔ t.content = [] := by
  have hs := joinText_length_pos "\n\n" s.content h.cleanLeft
  have ht := joinText_length_pos "\n\n" t.content h.cleanRight
  rw [h.joined] at hs
  exact not_iff_not.mp (hs.symm.trans ht)

theorem clean_append (h : s.Clean) (text : String) :
    ∀ part ∈ (if 0 < text.length then s.content ++ [text] else s.content), 0 < part.length := by
  split
  · rename_i ht
    intro part hpart
    rcases List.mem_append.mp hpart with hold | hnew
    · exact h part hold
    · rw [List.mem_singleton.mp hnew]
      exact ht
  · exact h

theorem Alike.joined_append (h : s.Alike t) (text : String) :
    joinText "\n\n" (s.content ++ [text]) = joinText "\n\n" (t.content ++ [text]) := by
  by_cases hs : s.content = []
  · simp [hs, h.content_nil_iff.mp hs]
  · have ht : t.content ≠ [] := fun e => hs (h.content_nil_iff.mpr e)
    rw [joinText_concat _ _ _ hs, joinText_concat _ _ _ ht, h.joined]

end PromptState

theorem replayPrompt_clean (s : PromptState) (message : Message) (h : s.Clean) :
    (replayPrompt s message).Clean := by
  cases message with
  | system m => exact PromptState.clean_append h _
  | _ => exact h

theorem replayPrompt_alike (s t : PromptState) (message : Message) (h : s.Alike t) :
    (replayPrompt s message).Alike (replayPrompt t message) := by
  cases message with
  | system m =>
    refine ⟨?_, ?_, ?_, replayPrompt_clean s _ h.cleanLeft, replayPrompt_clean t _ h.cleanRight⟩
    · simp only [replayPrompt]
      split
      · exact h.joined_append _
      · exact h.joined
    · simp only [replayPrompt, h.sections]
    · simp only [replayPrompt, h.timestamp]
  | _ => exact h

/-- Every tool is stored under its own name. -/
def NamedTools (tools : OrderedMap String Tool) : Prop :=
  ∀ item ∈ tools.entries, item.2.name = item.1

variable {tools : OrderedMap String Tool}

theorem NamedTools.erase (h : NamedTools tools) (name : String) :
    NamedTools (tools.erase name) := by
  intro item hitem
  exact h item (List.mem_filter.mp hitem).1

theorem NamedTools.set {tools : OrderedMap String Tool} (h : NamedTools tools) (tool : Tool) :
    NamedTools (tools.set tool.name tool) := by
  intro item hitem
  have hget := ((tools.set tool.name tool).get?_eq_some_iff_mem item.1 item.2).mpr hitem
  rw [OrderedMap.get?_set] at hget
  split at hget
  · rename_i hname
    rw [hname, ← Option.some.inj hget]
  · exact h item ((tools.get?_eq_some_iff_mem item.1 item.2).mp hget)

theorem NamedTools.replay (h : NamedTools tools) (message : Message) :
    NamedTools (replayTools tools message) := by
  cases message with
  | system m =>
    apply List.foldlRecOn (motive := NamedTools)
    · apply List.foldlRecOn (motive := NamedTools)
      · exact h
      · exact fun acc hacc tool _ => hacc.erase tool.name
    · exact fun acc hacc tool _ => hacc.set tool
  | _ => exact h

theorem namedTools_foldl : NamedTools (messages.foldl replayTools empty) := by
  apply List.foldlRecOn (motive := NamedTools)
  · intro item hitem
    simp at hitem
  · exact fun acc hacc message _ => hacc.replay message

theorem NamedTools.rebuild (h : NamedTools tools) :
    tools.values.foldl (fun acc tool => acc.set tool.name tool) empty = tools := by
  have hitems : tools.values.map (fun tool => (tool.name, tool)) = tools.entries := by
    simp only [values, List.map_map, Function.comp_def]
    conv_rhs => rw [← List.map_id tools.entries]
    exact List.map_congr_left (fun item hitem => by simp [h item hitem])
  calc
    _ = ofList (tools.values.map (fun tool => (tool.name, tool))) := by
      simp only [ofList, insertAll, List.foldl_map]
    _ = ofList tools.entries := by rw [hitems]
    _ = tools := ofList_entries tools

theorem patchSections_rebuild (sections : OrderedMap String String) :
    (sections.mapValues some).entries.foldl patchSection empty = sections := by
  calc
    _ = ofList sections.entries := by
      simp only [mapValues, ofList, insertAll, List.foldl_map,
        patchSection]
    _ = sections := ofList_entries sections

def replayBoth (state : PromptState × OrderedMap String Tool) (message : Message) :
    PromptState × OrderedMap String Tool :=
  (replayPrompt state.1 message, replayTools state.2 message)

def initialBoth : PromptState × OrderedMap String Tool := (PromptState.initial, empty)

theorem replay_both : replay replayBoth initialBoth messages =
      (messages.foldl replayPrompt PromptState.initial,
        messages.foldl replayTools empty) := by
  have aux : ∀ (p : PromptState) (t : OrderedMap String Tool),
      replay replayBoth (p, t) messages =
        (messages.foldl replayPrompt p, messages.foldl replayTools t) := by
    induction messages with
    | nil => exact fun _ _ => rfl
    | cons message rest ih => exact fun p t => ih (replayPrompt p message) (replayTools t message)
  exact aux _ _

theorem replayBoth_of_not_system (message : Message) (h : message.isSystem = false) :
    replayBoth s message = s := by
  cases message with
  | system m => simp [Message.isSystem] at h
  | _ => rfl

def BothAlike (s t : PromptState × OrderedMap String Tool) : Prop := s.1.Alike t.1 ∧ s.2 = t.2

theorem replayBoth_alike (s t : PromptState × OrderedMap String Tool) (message : Message)
    (h : BothAlike s t) : BothAlike (replayBoth s message) (replayBoth t message) :=
  ⟨replayPrompt_alike s.1 t.1 message h.1, congrArg (replayTools · message) h.2⟩

/-- The leading message of both replays, as `getCurrentSystemMessage` builds it. -/
def headOf (state : PromptState) (tools : OrderedMap String Tool) : Option SystemMessage :=
  if state.timestamp = none ∧ tools.values.length = 0 then none
  else some {
    content := .text (joinText "\n\n" state.content)
    sections := if state.sections.isEmpty then none else some (state.sections.mapValues some)
    toolsAdded := if tools.values.isEmpty then none else some tools.values
    timestamp := state.timestamp.getD 0 }

theorem getCurrentSystemMessage_eq : getCurrentSystemMessage messages =
      headOf (replay replayBoth initialBoth messages).1
        (replay replayBoth initialBoth messages).2 := by
  rw [replay_both]
  rfl

theorem getCurrentTools_eq :
    getCurrentTools messages = (replay replayBoth initialBoth messages).2.values := by
  rw [replay_both]
  rfl

theorem headOf_alike {s t : PromptState × OrderedMap String Tool} (h : BothAlike s t) :
    headOf s.1 s.2 = headOf t.1 t.2 := by
  simp only [headOf, h.1.joined, h.1.sections, h.1.timestamp, h.2]

theorem replay_timestamp_ne_none (s : PromptState) (h : s.timestamp ≠ none) :
    (messages.foldl replayPrompt s).timestamp ≠ none := by
  apply List.foldlRecOn (motive := fun s : PromptState => s.timestamp ≠ none)
  · exact h
  · intro acc hacc message _
    cases message <;> simp_all [replayPrompt]

theorem no_system_of_timestamp_none
    (h : (messages.foldl replayPrompt PromptState.initial).timestamp = none) :
    ∀ message ∈ messages, message.isSystem = false := by
  by_contra hsystem
  push Not at hsystem
  obtain ⟨message, hmem, hsys⟩ := hsystem
  obtain ⟨before, after, rfl⟩ := List.append_of_mem hmem
  rw [List.foldl_append, List.foldl_cons] at h
  apply replay_timestamp_ne_none after _ _ h
  cases message <;> simp_all [replayPrompt, Message.isSystem]

theorem clean_replay : (messages.foldl replayPrompt PromptState.initial).Clean := by
  apply List.foldlRecOn (motive := PromptState.Clean)
  · intro part hpart
    simp [PromptState.initial] at hpart
  · exact fun acc hacc message _ => replayPrompt_clean acc message hacc

theorem headOf_restores : BothAlike
      (replay replayBoth initialBoth
        ((getCurrentSystemMessage messages).map Message.system).toList)
      (replay replayBoth initialBoth messages) := by
  rw [getCurrentSystemMessage_eq, replay_both messages]
  have hclean := clean_replay messages
  have hnamed := namedTools_foldl messages
  have hnone := no_system_of_timestamp_none messages
  generalize hs : messages.foldl replayPrompt PromptState.initial = s at hclean hnone ⊢
  generalize ht : messages.foldl replayTools empty = t at hnamed ⊢
  simp only
  cases hts : s.timestamp with
  | none =>
    have hpass := replay_of_no_updates replayBoth Message.isSystem
      replayBoth_of_not_system initialBoth messages (hnone hts)
    rw [replay_both, hs, ht] at hpass
    cases hpass
    exact ⟨⟨rfl, rfl, rfl, hclean, hclean⟩, rfl⟩
  | some first =>
    have hhead : headOf s t = some {
        content := .text (joinText "\n\n" s.content)
        sections := if s.sections.isEmpty then none else some (s.sections.mapValues some)
        toolsAdded := if t.values.isEmpty then none else some t.values
        timestamp := first } := by
      simp [headOf, hts]
    rw [hhead]
    have hjoined := joinText_length_pos "\n\n" s.content hclean
    refine ⟨⟨?_, ?_, ?_, ?_, hclean⟩, ?_⟩
    · by_cases hc : s.content = [] <;>
        simp [replay, replayBoth, initialBoth, replayPrompt, PromptState.initial,
          contentText, hjoined, hc, joinText]
    · by_cases he : s.sections.isEmpty
      · have hsec : s.sections = empty :=
          ext (List.isEmpty_iff.mp he)
        simp [replay, replayBoth, initialBoth, replayPrompt, PromptState.initial, hsec,
          isEmpty]
      · simpa [replay, replayBoth, initialBoth, replayPrompt, PromptState.initial, he]
          using patchSections_rebuild s.sections
    · simp [replay, replayBoth, initialBoth, replayPrompt, PromptState.initial, hts]
    · exact replayPrompt_clean PromptState.initial _ (by simp [PromptState.Clean, PromptState.initial])
    · by_cases he : t.values.isEmpty
      · have htools : t = empty := by
          apply ext
          simpa [values] using he
        simp [replay, replayBoth, initialBoth, replayTools, htools, values]
      · simpa [replay, replayBoth, initialBoth, replayTools, he] using hnamed.rebuild

theorem restamped_head (messages rest : List Message) (timestamp : Int)
    (hrest : ∀ message ∈ rest, message.isSystem = false) :
    getCurrentSystemMessage (((getCurrentSystemMessage messages).map (fun m =>
        Message.system { m with timestamp := timestamp })).toList ++ rest) =
      (getCurrentSystemMessage messages).map (fun m => { m with timestamp := timestamp }) ∧
    getCurrentTools (((getCurrentSystemMessage messages).map (fun m =>
        Message.system { m with timestamp := timestamp })).toList ++ rest) =
      getCurrentTools messages := by
  have hpass : ∀ start, replay replayBoth start rest = start := fun start =>
    replay_of_no_updates replayBoth Message.isSystem replayBoth_of_not_system start
      rest hrest
  have hrestores := headOf_restores messages
  rw [getCurrentSystemMessage_eq, getCurrentTools_eq, getCurrentTools_eq,
    replay_append, hpass]
  have hhead := getCurrentSystemMessage_eq messages
  cases hcurrent : getCurrentSystemMessage messages with
  | none =>
    rw [hcurrent] at hrestores
    have htools : initialBoth.2 = (replay replayBoth initialBoth messages).2 :=
      hrestores.2
    exact ⟨rfl, congrArg values htools⟩
  | some m =>
    rw [hcurrent] at hrestores hhead
    obtain ⟨⟨hjoined, hsections, -, -, -⟩, htools⟩ := hrestores
    have hm : m.content = .text (joinText "\n\n"
          (replay replayBoth initialBoth messages).1.content) ∧
        m.sections = (if (replay replayBoth initialBoth messages).1.sections.isEmpty
          then none
          else some ((replay replayBoth initialBoth messages).1.sections.mapValues
            some)) ∧
        m.toolsAdded = (if (replay replayBoth initialBoth messages).2.values.isEmpty
          then none else some (replay replayBoth initialBoth messages).2.values) ∧
        m.toolsRemoved = none := by
      rw [headOf] at hhead
      split at hhead
      · cases hhead
      · rw [Option.some.inj hhead]
        exact ⟨rfl, rfl, rfl, rfl⟩
    have hstate : replay replayBoth initialBoth
          [Message.system { m with timestamp := timestamp }] =
        ({ (replay replayBoth initialBoth [Message.system m]).1 with
            timestamp := some timestamp },
          (replay replayBoth initialBoth [Message.system m]).2) := rfl
    simp only [Option.map_some, Option.toList_some] at hjoined hsections htools ⊢
    rw [hstate, htools]
    refine ⟨?_, rfl⟩
    simp only [headOf, reduceCtorEq, false_and, if_false, hjoined, hsections, Option.getD_some]
    obtain ⟨hcontent, hsec, hadded, hremoved⟩ := hm
    rw [← hcontent, ← hsec, ← hadded, ← hremoved]

theorem collapseSystemMessages_eq : collapseSystemMessages messages =
      collapse Message.isSystem
        ((getCurrentSystemMessage messages).map Message.system) messages := by
  simp only [collapseSystemMessages, collapse]
  cases getCurrentSystemMessage messages <;> rfl

theorem replay_collapse_alike : BothAlike
      (replay replayBoth initialBoth (collapseSystemMessages before ++ after))
      (replay replayBoth initialBoth (before ++ after)) := by
  rw [collapseSystemMessages_eq]
  exact Checkpoint.replay_collapse_append replayBoth initialBoth BothAlike replayBoth_alike
    Message.isSystem replayBoth_of_not_system _ before after (headOf_restores before)

theorem getCurrentSystemMessage_collapse_append :
    getCurrentSystemMessage (collapseSystemMessages before ++ after) =
      getCurrentSystemMessage (before ++ after) := by
  rw [getCurrentSystemMessage_eq, getCurrentSystemMessage_eq]
  exact headOf_alike (replay_collapse_alike before after)

theorem getCurrentTools_collapse_append :
    getCurrentTools (collapseSystemMessages before ++ after) = getCurrentTools (before ++ after) := by
  rw [getCurrentTools_eq, getCurrentTools_eq, (replay_collapse_alike before after).2]

theorem filter_collapse :
    (collapseSystemMessages messages).filter (fun message => !message.isSystem) =
      messages.filter (fun message => !message.isSystem) := by
  rw [collapseSystemMessages_eq, collapse, List.filter_append, List.filter_filter]
  cases getCurrentSystemMessage messages <;> simp [Message.isSystem]

theorem collapse_collapse_append : collapseSystemMessages (collapseSystemMessages before ++ after) =
      collapseSystemMessages (before ++ after) := by
  rw [collapseSystemMessages_eq (_ ++ after), collapseSystemMessages_eq (before ++ after),
    getCurrentSystemMessage_collapse_append]
  simp only [collapse, List.filter_append, filter_collapse]

theorem replay_filter_system :
    replay replayBoth initialBoth (messages.filter Message.isSystem) =
      replay replayBoth initialBoth messages :=
  Checkpoint.replay_filter replayBoth Message.isSystem replayBoth_of_not_system initialBoth messages

theorem replay_checkpoint_alike (before replaced after : List Message)
    (h : replaced.filter Message.isSystem =
      ((getCurrentSystemMessage before).map Message.system).toList) :
    BothAlike (replay replayBoth initialBoth (replaced ++ after))
      (replay replayBoth initialBoth (before ++ after)) := by
  rw [replay_append, replay_append, ← replay_filter_system replaced, h]
  exact Checkpoint.replay_rel replayBoth BothAlike replayBoth_alike (headOf_restores before) after

/-- Replay is a homomorphism: the checkpoint of a prefix stands for the system
messages of the prefix, so collapsing at any point and going on gives the
prompt and the tools of the whole transcript. -/
theorem replay_homomorphism (before after : List Message) :
    (∀ replaced : List Message,
      replaced.filter Message.isSystem =
        ((getCurrentSystemMessage before).map Message.system).toList →
      getCurrentSystemMessage (replaced ++ after) = getCurrentSystemMessage (before ++ after) ∧
        getCurrentTools (replaced ++ after) = getCurrentTools (before ++ after)) ∧
    collapseSystemMessages (collapseSystemMessages before) = collapseSystemMessages before ∧
    getCurrentSystemMessage (collapseSystemMessages before ++ after) =
      getCurrentSystemMessage (before ++ after) ∧
    getCurrentSystemPrompt (collapseSystemMessages before ++ after) =
      getCurrentSystemPrompt (before ++ after) ∧
    getCurrentTools (collapseSystemMessages before ++ after) = getCurrentTools (before ++ after) ∧
    collapseSystemMessages (collapseSystemMessages before ++ after) =
      collapseSystemMessages (before ++ after) := by
  refine ⟨?_, ?_, getCurrentSystemMessage_collapse_append before after, ?_,
    getCurrentTools_collapse_append before after, collapse_collapse_append before after⟩
  · intro replaced h
    have halike := replay_checkpoint_alike before replaced after h
    constructor
    · rw [getCurrentSystemMessage_eq, getCurrentSystemMessage_eq]
      exact headOf_alike halike
    · rw [getCurrentTools_eq, getCurrentTools_eq, halike.2]
  · simpa using collapse_collapse_append before []
  · simp only [getCurrentSystemPrompt, getCurrentSystemMessage_collapse_append]

/-- A prompt, a user message, and a section update: the checkpoint placed after
the user message still stands for both system messages. -/
theorem replay_homomorphism_two_updates :
    let base : Message := .system { content := .text "base", timestamp := 1 }
    let user : Message := .user ⟨.text "hi", 2⟩
    let update : Message := .system {
      content := .blocks [.text "more" none], timestamp := 3
      sections := some (ofList [("cwd", some "/tmp"), ("date", none)]) }
    let head : Message := .system {
      content := .text "base\n\nmore", timestamp := 1
      sections := some (ofList [("cwd", some "/tmp")]) }
    getCurrentSystemMessage ([user, head] ++ [update]) =
      getCurrentSystemMessage ([base, user, update] ++ [update]) :=
  ((replay_homomorphism
    [.system { content := .text "base", timestamp := 1 }, .user ⟨.text "hi", 2⟩,
      .system {
        content := .blocks [.text "more" none], timestamp := 3
        sections := some (ofList [("cwd", some "/tmp"), ("date", none)]) }]
    [.system {
      content := .blocks [.text "more" none], timestamp := 3
      sections := some (ofList [("cwd", some "/tmp"), ("date", none)]) }]).1
    [.user ⟨.text "hi", 2⟩, .system {
      content := .text "base\n\nmore", timestamp := 1
      sections := some (ofList [("cwd", some "/tmp")]) }] (by decide)).1

end Pidrei.Transcript
