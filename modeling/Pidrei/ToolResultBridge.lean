import Mathlib.Data.List.Chain
import Pidrei.CompletionsPairing

/-!
The bridge between tool results and a user message, for providers that require one. The
conversion writes it from the role of the message before, and a system message that sends
nothing takes that role without standing on the wire. Which transcripts run into this is said
by the messages between the call and the user message.
-/
namespace Pidrei.ToolResultBridge

open List

open Values Messages AgentTypes Transcript TransformMessages ReplayPairing RequestTranscript
open ReplaySteps WireHistory OpenaiCompletions CompletionsPairing

def contentBlocks : Content → List ContentBlock
  | .blocks blocks => blocks
  | _ => []

def isUser : Message → Bool
  | .user _ => true
  | _ => false

def itemSends : ContentBlock → Bool
  | .text text _ => text != ""
  | .image _ _ => true
  | _ => false

/-- A user message is sent unless its content has no item to send. -/
def userSends : Content → Bool
  | .text _ => true
  | content => (contentBlocks content).any itemSends

def hasText (content : Content) : Bool :=
  (contentBlocks content).any fun block => (nonblankText block).isSome

def hasThinking (content : Content) : Bool :=
  (contentBlocks content).any fun block => (thinkingBlock block).any fun item => nonblank item.1

section Sends

variable (setup : Setup)

/-- Whether an assistant message without calls has content to send; the thinking of another
model is dropped. -/
def assistantSends (m : AssistantMessage) : Bool :=
  hasText m.content ||
    (setup.requiresThinkingAsText && isSameModel m setup.model && hasThinking m.content)

def resultSendsImages (m : ToolResultMessage) : Bool :=
  "image" ∈ setup.model.input && (contentBlocks m.content).any isImage

def systemSends (folded index : ℕ) (m : SystemMessage) : Bool :=
  renderSystemMessageUpdate m != "" || (decide (folded ≤ index) && !(toolsAdded m).isEmpty)

variable (folded : ℕ)

/-- Nothing is sent but tool results, from a system message's index on. -/
def Quiet : ℕ → List Message → Prop
  | _, [] => True
  | index, .system m :: rest => systemSends folded index m = false ∧ Quiet (index + 1) rest
  | index, .user m :: rest => userSends m.content = false ∧ Quiet index rest
  | index, .assistant m :: rest =>
    toolCalls m = [] ∧ assistantSends setup m = false ∧ Quiet index rest
  | index, .toolResult m :: rest => resultSendsImages setup m = false ∧ Quiet index rest
  | index, _ :: rest => Quiet index rest

def SystemFirst (messages : List Message) : Prop :=
  ∃ first m rest, messages = first ++ .system m :: rest ∧ ∀ x ∈ first, isUser x = false

def systemCount (messages : List Message) : ℕ := (messages.filter Message.isSystem).length

/-- Behind an assistant message with calls nothing is sent but the tool results, and the
messages behind it meet `P`. -/
def Opened (P : List Message → Prop) (messages : List Message) : Prop :=
  ∃ before m between, messages = before ++ .assistant m :: between ∧ toolCalls m ≠ [] ∧
    Quiet setup folded (systemCount before) between ∧ P between

/-- Behind an assistant message with calls nothing is sent but the tool results, and a system
message stands there before any user message. -/
def Muted : List Message → Prop := Opened setup folded SystemFirst

/-- A user message that is sent stands behind messages that mute the tool results. -/
def UserSlips (messages : List Message) : Prop :=
  ∃ before m after, messages = before ++ .user m :: after ∧ userSends m.content ∧
    Muted setup folded before

end Sends

/-! ### Scanning a transcript -/

/-- What stands last: something else, tool results, or tool results behind which a system
message has sent nothing. -/
inductive Phase where
  | clear
  | results
  | muted
  deriving DecidableEq

structure Scan where
  phase : Phase := .clear
  systemIndex : ℕ := 0
  slipped : Bool := false

section Scanning

variable (setup : Setup) (sends : AssistantMessage → Bool) (folded : ℕ)

def scan (s : Scan) : Message → Scan
  | .system m =>
    { s with
      phase := if systemSends folded s.systemIndex m then .clear
        else if s.phase = .results then .muted else s.phase
      systemIndex := s.systemIndex + 1 }
  | .user m =>
    if userSends m.content then
      { s with phase := .clear, slipped := s.slipped || s.phase == .muted }
    else { s with phase := if s.phase = .results then .clear else s.phase }
  | .assistant m =>
    if toolCalls m ≠ [] then { s with phase := .results }
    else if sends m then { s with phase := .clear } else s
  | .toolResult m => if resultSendsImages setup m then { s with phase := .clear } else s
  | _ => s

def scanAll (messages : List Message) : Scan := messages.foldl (scan setup sends folded) {}

theorem scanAll_snoc (messages : List Message) (m : Message) :
    scanAll setup sends folded (messages ++ [m]) =
      scan setup sends folded (scanAll setup sends folded messages) m := by
  simp [scanAll]

end Scanning

section Described

variable (setup : Setup) (folded : ℕ) (messages between : List Message)
  (sends : AssistantMessage → Bool)

theorem systemCount_snoc (m : Message) : systemCount (messages ++ [m]) =
      systemCount messages + if m.isSystem then 1 else 0 := by
  by_cases h : m.isSystem = true <;> simp [systemCount, filter_append, h]

theorem quiet_snoc (index : ℕ) (messages : List Message) (m : Message) :
    Quiet setup folded index (messages ++ [m]) ↔
      Quiet setup folded index messages ∧
        Quiet setup folded (index + systemCount messages) [m] := by
  induction messages generalizing index with
  | nil => simp [Quiet, systemCount]
  | cons first rest ih =>
    cases first with
    | system s =>
      have hcount : systemCount (.system s :: rest) = systemCount rest + 1 := rfl
      rw [cons_append, Quiet, Quiet, ih, hcount, and_assoc,
        show index + 1 + systemCount rest = index + (systemCount rest + 1) by omega]
    | user | assistant | toolResult => simp only [cons_append, Quiet, ih, and_assoc]; rfl
    | _ => simp only [cons_append, Quiet, ih]; rfl

theorem scan_systemIndex (s : Scan) (m : Message) : (scan setup sends folded s m).systemIndex =
      s.systemIndex + if m.isSystem then 1 else 0 := by
  cases m <;> simp only [scan] <;> split_ifs <;> simp_all [Message.isSystem]

theorem systemIndex_scanAll (messages : List Message) :
    (scanAll setup sends folded messages).systemIndex = systemCount messages := by
  induction messages using reverseRecOn with
  | nil => rfl
  | append_singleton messages m ih =>
    rw [scanAll_snoc, systemCount_snoc, scan_systemIndex, ih]

/-- The messages hold neither a user nor a system message. -/
def Plain (messages : List Message) : Prop :=
  ∀ x ∈ messages, isUser x = false ∧ x.isSystem = false

/-- Tool results stand last on the wire. -/
def Resting : List Message → Prop := Opened setup folded Plain

theorem opened_call {P : List Message → Prop} {m : AssistantMessage} (h : toolCalls m ≠ [])
    (hP : P []) : Opened setup folded P (messages ++ [Message.assistant m]) :=
  ⟨messages, m, [], rfl, h, trivial, hP⟩

theorem opened_snoc_iff {P : List Message → Prop} {x : Message}
    (hx : P [] → ∀ m, x = .assistant m → toolCalls m = []) :
    Opened setup folded P (messages ++ [x]) ↔
      Quiet setup folded (systemCount messages) [x] ∧
        Opened setup folded (fun between => P (between ++ [x])) messages := by
  have hcount : ∀ before m (between : List Message),
      systemCount (before ++ .assistant m :: between) =
        systemCount before + systemCount between := by
    simp [systemCount, filter_append, Message.isSystem]
  constructor
  · rintro ⟨before, m, between, heq, hcalls, hquiet, hP⟩
    rcases eq_nil_or_concat between with rfl | ⟨between, y, rfl⟩
    · obtain ⟨-, hlast⟩ := append_inj' heq rfl
      exact absurd (hx hP m (by simpa using hlast)) hcalls
    · rw [concat_eq_append, ← cons_append, ← append_assoc] at heq
      obtain ⟨hfirst, hlast⟩ := append_inj' heq rfl
      obtain rfl : x = y := by simpa using hlast
      rw [concat_eq_append, quiet_snoc] at hquiet
      rw [concat_eq_append] at hP
      refine ⟨?_, before, m, between, hfirst, hcalls, hquiet.1, hP⟩
      rw [hfirst, hcount]
      exact hquiet.2
  · rintro ⟨hquiet, before, m, between, rfl, hcalls, hrest, hP⟩
    rw [hcount] at hquiet
    refine ⟨before, m, between ++ [x], by simp, hcalls, ?_, hP⟩
    rw [quiet_snoc]
    exact ⟨hrest, hquiet⟩

theorem opened_congr {P Q : List Message → Prop} (h : ∀ between, P between ↔ Q between)
    (messages : List Message) :
    Opened setup folded P messages ↔ Opened setup folded Q messages := by
  simp only [Opened, h]

theorem opened_or {P Q : List Message → Prop} :
    Opened setup folded (fun between => P between ∨ Q between) messages ↔
      Opened setup folded P messages ∨ Opened setup folded Q messages := by
  constructor
  · rintro ⟨before, m, between, heq, hcalls, hquiet, hP | hQ⟩
    · exact .inl ⟨before, m, between, heq, hcalls, hquiet, hP⟩
    · exact .inr ⟨before, m, between, heq, hcalls, hquiet, hQ⟩
  · rintro (⟨before, m, between, heq, hcalls, hquiet, hP⟩ |
      ⟨before, m, between, heq, hcalls, hquiet, hQ⟩)
    · exact ⟨before, m, between, heq, hcalls, hquiet, .inl hP⟩
    · exact ⟨before, m, between, heq, hcalls, hquiet, .inr hQ⟩

theorem not_systemFirst_nil : ¬ SystemFirst [] := by
  rintro ⟨first, m, rest, heq, -⟩
  simp at heq

theorem systemFirst_append {messages : List Message} (h : SystemFirst messages) (x : Message) :
    SystemFirst (messages ++ [x]) := by
  obtain ⟨first, m, rest, rfl, hfirst⟩ := h
  exact ⟨first, m, rest ++ [x], by simp, hfirst⟩

theorem systemFirst_snoc_iff {between : List Message} {x : Message} (hx : x.isSystem = false) :
    SystemFirst (between ++ [x]) ↔ SystemFirst between := by
  constructor
  · rintro ⟨first, m, rest, heq, hfirst⟩
    rcases eq_nil_or_concat rest with rfl | ⟨rest, y, rfl⟩
    · obtain ⟨-, hlast⟩ := append_inj' heq rfl
      simp [cons.inj hlast, Message.isSystem] at hx
    · rw [concat_eq_append, ← cons_append, ← append_assoc] at heq
      exact ⟨first, m, rest, (append_inj' heq rfl).1, hfirst⟩
  · exact fun h => systemFirst_append h x

theorem systemFirst_system_iff (m : SystemMessage) :
    SystemFirst (between ++ [Message.system m]) ↔ SystemFirst between ∨ Plain between := by
  constructor
  · rintro ⟨first, n, rest, heq, hfirst⟩
    rcases eq_nil_or_concat rest with rfl | ⟨rest, y, rfl⟩
    · obtain ⟨rfl, -⟩ := append_inj' heq rfl
      by_cases hsystem : ∃ x ∈ between, x.isSystem = true
      · obtain ⟨x, hx, hsystem⟩ := hsystem
        obtain ⟨earlier, later, rfl⟩ := append_of_mem hx
        left
        cases x with
        | system s =>
          exact ⟨earlier, s, later, rfl, fun y hy => hfirst y (mem_append_left _ hy)⟩
        | _ => simp [Message.isSystem] at hsystem
      · right
        intro x hx
        refine ⟨hfirst x hx, ?_⟩
        rw [← Bool.not_eq_true]
        exact fun htrue => hsystem ⟨x, hx, htrue⟩
    · rw [concat_eq_append, ← cons_append, ← append_assoc] at heq
      exact .inl ⟨first, n, rest, (append_inj' heq rfl).1, hfirst⟩
  · rintro (h | h)
    · exact systemFirst_append h _
    · exact ⟨between, m, [], rfl, fun x hx => (h x hx).1⟩

theorem plain_snoc_iff (x : Message) :
    Plain (between ++ [x]) ↔ Plain between ∧ isUser x = false ∧ x.isSystem = false := by
  simp only [Plain, mem_append, mem_singleton, or_imp, forall_and, forall_eq]
  tauto

theorem opened_snoc_neutral (messages : List Message) {x : Message} (huser : isUser x = false)
    (hsystem : x.isSystem = false) (hx : ∀ m, x = .assistant m → toolCalls m = []) :
    (Resting setup folded (messages ++ [x]) ↔
      Quiet setup folded (systemCount messages) [x] ∧ Resting setup folded messages) ∧
    (Muted setup folded (messages ++ [x]) ↔
      Quiet setup folded (systemCount messages) [x] ∧ Muted setup folded messages) := by
  have hplain : ∀ between, Plain (between ++ [x]) ↔ Plain between := fun between => by
    rw [plain_snoc_iff]
    simp [huser, hsystem]
  constructor
  · rw [Resting, opened_snoc_iff setup folded messages (fun _ => hx),
      opened_congr setup folded hplain]
  · rw [Muted, opened_snoc_iff setup folded messages (fun _ => hx),
      opened_congr setup folded fun between => systemFirst_snoc_iff hsystem]

/-- The phase of the scan says what is open. -/
def Tracks (s : Scan) (messages : List Message) : Prop :=
  (s.phase = .results ↔ Resting setup folded messages) ∧
    (s.phase = .muted ↔ Muted setup folded messages)

theorem tracks_clear {s : Scan} {messages : List Message} (hs : s.phase = .clear)
    (hresting : ¬ Resting setup folded messages) (hmuted : ¬ Muted setup folded messages) :
    Tracks setup folded s messages := by
  constructor
  · simp [hs, hresting]
  · simp [hs, hmuted]

theorem tracks_interrupt {s s' : Scan} {messages : List Message} {x : Message}
    (h : Tracks setup folded s messages) (after : Phase)
    (hplain : isUser x = true ∨ x.isSystem = true) (hx : ∀ m, x ≠ .assistant m) (sends : Bool)
    (hphase : s'.phase = if sends then .clear else if s.phase = .results then after else s.phase)
    (hmuted : Muted setup folded (messages ++ [x]) ↔ sends = false ∧
      (Muted setup folded messages ∨ after = .muted ∧ Resting setup folded messages))
    (hafter : after ≠ .results) :
    Tracks setup folded s' (messages ++ [x]) := by
  have hnone : ¬ Resting setup folded (messages ++ [x]) := by
    rw [Resting, opened_snoc_iff setup folded messages (fun _ m h => absurd h (hx m))]
    rintro ⟨-, before, m, between, -, -, -, hlast⟩
    have hlast := ((plain_snoc_iff between x).mp hlast).2
    rcases hplain with hplain | hplain <;> simp [hplain] at hlast
  rw [Tracks, hmuted, ← h.1, ← h.2, hphase]
  simp only [hnone, iff_false]
  cases sends
  · by_cases hresults : s.phase = .results <;> simp [hresults, hafter]
  · simp

theorem tracks_scanAll :
    Tracks setup folded (scanAll setup (assistantSends setup) folded messages) messages := by
  induction messages using reverseRecOn with
  | nil =>
    have hnone : ∀ P, ¬ Opened setup folded P [] := by
      rintro P ⟨before, m, between, heq, -⟩
      simp at heq
    exact tracks_clear setup folded rfl (hnone _) (hnone _)
  | append_singleton messages x ih =>
    have hindex := systemIndex_scanAll setup folded (assistantSends setup) messages
    rw [scanAll_snoc]
    generalize scanAll setup (assistantSends setup) folded messages = s at ih hindex ⊢
    have hneutral := @opened_snoc_neutral setup folded messages x
    cases x with
    | system m =>
      refine tracks_interrupt setup folded ih .muted (.inr rfl) (fun _ h => by cases h)
        (systemSends folded s.systemIndex m) (by rw [scan]) ?_ (by decide)
      rw [Muted, opened_snoc_iff setup folded messages (fun _ _ h => by cases h),
        opened_congr setup folded fun between => systemFirst_system_iff between m,
        opened_or, hindex]
      simp [Quiet, Resting]
    | user m =>
      refine tracks_interrupt setup folded ih .clear (.inl rfl) (fun _ h => by cases h)
        (userSends m.content) (by rw [scan]; split <;> simp_all) ?_ (by decide)
      rw [Muted, opened_snoc_iff setup folded messages (fun _ _ h => by cases h),
        opened_congr setup folded fun between => systemFirst_snoc_iff rfl]
      simp [Quiet]
    | assistant m =>
      obtain ⟨hresults, hmuted⟩ := ih
      by_cases hcalls : toolCalls m = []
      · obtain ⟨hresting', hmuted'⟩ := hneutral rfl rfl (fun n hn => by cases hn; exact hcalls)
        by_cases hsends : assistantSends setup m = true
        · refine tracks_clear setup folded (by simp [scan, hcalls, hsends]) ?_ ?_
          · simp [hresting', Quiet, hsends]
          · simp [hmuted', Quiet, hsends]
        · constructor
          · simp [scan, hresting', hresults, Quiet, hcalls, hsends]
          · simp [scan, hmuted', hmuted, Quiet, hcalls, hsends]
      · constructor
        · simp only [scan, ne_eq, hcalls, not_false_eq_true, if_true, true_iff]
          exact opened_call setup folded messages hcalls fun _ hx => absurd hx not_mem_nil
        · simp only [scan, ne_eq, hcalls, not_false_eq_true, if_true, reduceCtorEq, false_iff]
          rw [Muted, opened_snoc_iff setup folded messages
            (fun hnil => absurd hnil not_systemFirst_nil)]
          rintro ⟨hquiet, -⟩
          exact hcalls hquiet.1
    | toolResult r =>
      obtain ⟨hresults, hmuted⟩ := ih
      obtain ⟨hresting', hmuted'⟩ := hneutral rfl rfl (fun n hn => by cases hn)
      by_cases hsends : resultSendsImages setup r = true
      · refine tracks_clear setup folded (by simp [scan, hsends]) ?_ ?_
        · simp [hresting', Quiet, hsends]
        · simp [hmuted', Quiet, hsends]
      · constructor
        · simp [scan, hresting', hresults, Quiet, hsends]
        · simp [scan, hmuted', hmuted, Quiet, hsends]
    | _ =>
      obtain ⟨hresults, hmuted⟩ := ih
      obtain ⟨hresting', hmuted'⟩ := hneutral rfl rfl (fun n hn => by cases hn)
      constructor
      · simp [scan, hresting', hresults, Quiet]
      · simp [scan, hmuted', hmuted, Quiet]

theorem slipped_scanAll_iff :
    (scanAll setup (assistantSends setup) folded messages).slipped = true ↔
      UserSlips setup folded messages := by
  induction messages using reverseRecOn with
  | nil =>
    simp only [scanAll, foldl_nil, Bool.false_eq_true, false_iff]
    rintro ⟨before, m, after, heq, -⟩
    simp at heq
  | append_singleton messages x ih =>
    have hphase := (tracks_scanAll setup folded messages).2
    have hsplit : UserSlips setup folded (messages ++ [x]) ↔ UserSlips setup folded messages ∨
        ∃ m, x = .user m ∧ userSends m.content = true ∧ Muted setup folded messages := by
      constructor
      · rintro ⟨before, m, after, heq, hsends, hmuted⟩
        rcases eq_nil_or_concat after with rfl | ⟨after, y, rfl⟩
        · obtain ⟨rfl, hlast⟩ := append_inj' heq rfl
          exact .inr ⟨m, by simpa using hlast, hsends, hmuted⟩
        · rw [concat_eq_append, ← cons_append, ← append_assoc] at heq
          exact .inl ⟨before, m, after, (append_inj' heq rfl).1, hsends, hmuted⟩
      · rintro (⟨before, m, after, rfl, hsends, hmuted⟩ | ⟨m, rfl, hsends, hmuted⟩)
        · exact ⟨before, m, after ++ [x], by simp, hsends, hmuted⟩
        · exact ⟨messages, m, [], rfl, hsends, hmuted⟩
    rw [scanAll_snoc, hsplit, ← ih, ← hphase]
    cases x with
    | user m =>
      by_cases hsends : userSends m.content = true <;> simp [scan, hsends]
    | assistant | toolResult =>
      simp only [scan, reduceCtorEq, false_and, exists_false, or_false]
      split_ifs <;> rfl
    | _ => simp [scan]

end Described

end Pidrei.ToolResultBridge
