import Pidrei.Library.Exchange
import Pidrei.ReplayPairing
import Pidrei.RequestTranscript

/-!
A replayed history as a sequence of steps: a message that neither calls a tool nor is a
result, or an assistant message with its calls and the results behind it. The second pass of
the transform writes such steps turn by turn, and whether each exchange is complete is a
matter of the ids that the first pass gives.
-/
namespace Pidrei.ReplaySteps

open Messages AgentTypes TransformMessages ReplayPairing RequestTranscript Exchange List

inductive Step where
  | plain (m : Message)
  | exchange (m : AssistantMessage) (answers : List ToolResultMessage)

namespace Step

def messages : Step → List Message
  | plain m => [m]
  | exchange m answers => .assistant m :: answers.map .toolResult

def entries : Step → List Entry
  | plain m => [.message m]
  | exchange m answers => [.message (.assistant m), .results answers]

/-- A plain message is no result and calls nothing; an exchange has calls and results. -/
def Proper : Step → Prop
  | plain (.system _) | plain (.user _) => True
  | plain (.assistant m) => toolCalls m = []
  | plain _ => False
  | exchange m answers => toolCalls m ≠ [] ∧ answers ≠ []

/-- One result for each call, and no other result. -/
def Answered : Step → Prop
  | plain _ => True
  | exchange m answers => Matches (callIds m) (answers.map ToolResultMessage.toolCallId)

end Step

/-! ### The runs of results in a sequence of steps -/

variable {answers : List ToolResultMessage} {tail messages : List Message} {turns : List Turn}
   {model : TargetModel} {normalize : Option IdNormalizer} {before : List AssistantMessage}
   {n : Message}

theorem entries_results (h : answers ≠ []) {rest : List Message}
    (hrest : ∀ ms ∈ (entries rest).head?, ∀ rs, ms ≠ .results rs) :
    entries (answers.map .toolResult ++ rest) = .results answers :: entries rest := by
  induction answers with
  | nil => exact absurd rfl h
  | cons answer others ih =>
    rw [map_cons, cons_append, entries]
    cases others with
    | nil =>
      rw [map_nil, nil_append]
      cases hentries : entries rest with
      | nil => rfl
      | cons entry more =>
        rw [hentries] at hrest
        cases entry with
        | message m => rfl
        | results rs => exact absurd rfl (hrest _ rfl rs)
    | cons next more =>
      rw [ih (by simp)]
      rfl

variable {m : Message} {steps : List Step}

theorem entries_of_not_result (h : ∀ r, m ≠ .toolResult r) (rest : List Message) :
    entries (m :: rest) = .message m :: entries rest := by
  cases m with
  | toolResult r => exact absurd rfl (h r)
  | _ => rfl

theorem not_result_of_proper (h : (Step.plain m).Proper) (r : ToolResultMessage) :
    m ≠ .toolResult r := by
  rintro rfl
  exact h

theorem entries_steps (h : ∀ step ∈ steps, step.Proper) :
    entries (steps.flatMap Step.messages) = steps.flatMap Step.entries := by
  induction steps with
  | nil => rfl
  | cons step rest ih =>
    have hstep := h step mem_cons_self
    have hrest := ih fun other hother => h other (mem_cons_of_mem _ hother)
    cases step with
    | plain m =>
      rw [flatMap_cons, flatMap_cons, ← hrest]
      exact entries_of_not_result (not_result_of_proper hstep) _
    | exchange m answers =>
      have hhead : ∀ ms ∈ (entries (rest.flatMap Step.messages)).head?,
          ∀ rs, ms ≠ .results rs := by
        rw [hrest]
        cases rest with
        | nil => simp
        | cons next more => cases next <;> simp [Step.entries]
      rw [flatMap_cons, flatMap_cons, ← hrest, Step.messages, cons_append,
        entries_of_not_result (by simp), entries_results hstep.2 hhead]
      rfl

/-! ### The second pass -/

section Replaying

variable (now : Nat → Int)

def toolResult? : Message → Option ToolResultMessage
  | .toolResult m => some m
  | _ => none

def turnResults (tail : List Message) : List ToolResultMessage := tail.filterMap toolResult?

theorem resultIds_eq (messages : List Message) :
    resultIds messages = (turnResults messages).map ToolResultMessage.toolCallId := by
  unfold resultIds turnResults
  rw [map_filterMap]
  congr 1
  funext m
  cases m <;> rfl

/-- The messages of a turn behind its head. -/
def IsTail : Message → Prop
  | .system _ | .toolResult _ => True
  | _ => False

theorem opensTurn_of_isTail (h : IsTail m) : opensTurn m = false := by
  cases m <;> first | rfl | exact absurd h id

variable {tail : List Message}

theorem filter_not_system (h : ∀ m ∈ tail, IsTail m) :
    tail.filter (!Message.isSystem ·) = (turnResults tail).map .toolResult := by
  induction tail with
  | nil => rfl
  | cons m rest ih =>
    have hm := h m mem_cons_self
    have hrest := ih fun other hother => h other (mem_cons_of_mem _ hother)
    cases m with
    | system m => simpa [Message.isSystem, turnResults, toolResult?, filterMap_cons] using hrest
    | toolResult m =>
      simpa [Message.isSystem, turnResults, toolResult?, filterMap_cons] using hrest
    | _ => exact absurd hm id

/-- The result that is written for a call without one. -/
def unansweredResult (call : ToolCall) (timestamp : Int) : ToolResultMessage where
  toolCallId := call.id
  toolName := call.name
  content := .blocks [.text "No result provided" none]
  isError := true
  timestamp := timestamp

def IsNoResult (r : ToolResultMessage) : Prop :=
  ∃ call timestamp, r = unansweredResult call timestamp

theorem answerCalls_results (existing : List String) (calls : List ToolCall)
    (result : List Message) :
    ∃ answers : List ToolResultMessage,
      calls.foldl (answerCall now existing) result = result ++ answers.map .toolResult ∧
        answers.map ToolResultMessage.toolCallId =
          (calls.map ToolCall.id).filter (· ∉ existing) ∧ ∀ r ∈ answers, IsNoResult r := by
  induction calls generalizing result with
  | nil => exact ⟨[], by simp, rfl, by simp⟩
  | cons call rest ih =>
    by_cases h : call.id ∈ existing
    · obtain ⟨answers, hfold, hids, hcontent⟩ := ih result
      refine ⟨answers, ?_, ?_, hcontent⟩
      · simpa [answerCall, h] using hfold
      · simpa [h] using hids
    · obtain ⟨answers, hfold, hids, hcontent⟩ :=
        ih (result ++ [noResult call (now result.length)])
      refine ⟨unansweredResult call (now result.length) :: answers, ?_, ?_, ?_⟩
      · rw [foldl_cons, answerCall, if_neg h, hfold, append_assoc]
        rfl
      · rw [map_cons, map_cons, filter_cons_of_pos (by simpa using h), hids]
        rfl
      · rw [forall_mem_cons]
        exact ⟨⟨call, _, rfl⟩, hcontent⟩

inductive Writes : List Turn → List Step → Prop
  | nil : Writes [] []
  | skip {t : Turn} {ts : List Turn} {steps : List Step} (hskip : isSkipped t.head = true)
      (hrest : Writes ts steps) : Writes (t :: ts) (t.tail.map .plain ++ steps)
  | plain {t : Turn} {ts : List Turn} {steps : List Step} (hskip : isSkipped t.head = false)
      (hcalls : ∀ m, t.head = .assistant m → toolCalls m = []) (hrest : Writes ts steps) :
    Writes (t :: ts) (.plain t.head :: (t.tail.map .plain ++ steps))
  | exchange {m : AssistantMessage} {tail : List Message} {answers : List ToolResultMessage}
      {ts : List Turn} {steps : List Step} (hskip : skipped m = false) (hcalls : toolCalls m ≠ [])
      (hids : answers.map ToolResultMessage.toolCallId =
        (callIds m).filter (· ∉ resultIds tail))
      (hanswers : ∀ r ∈ answers, IsNoResult r) (hrest : Writes ts steps) :
    Writes (⟨.assistant m, tail⟩ :: ts) (.exchange m (turnResults tail ++ answers) ::
      ((tail.filter Message.isSystem).map .plain ++ steps))

theorem flatMap_plain (messages : List Message) :
    (messages.map Step.plain).flatMap Step.messages = messages := by
  induction messages with
  | nil => rfl
  | cons m rest ih =>
    rw [map_cons, flatMap_cons, ih]
    rfl

theorem closed_uncalled {m : AssistantMessage} (hskip : skipped m = false)
    (hcalls : toolCalls m = []) (h : ∀ m ∈ tail, opensTurn m = false) (s : Replay) :
    closed now (tail.foldl (replayMessage now) (replayMessage now s (.assistant m))) =
      closed now s ++ .assistant m :: tail := by
  rw [replay_tail_idle now h (by simp [replayMessage, hskip, hcalls, closePendingToolCalls]),
    closed_of_idle now (by simp [replayMessage, hskip, hcalls, closePendingToolCalls])]
  simp [closed, replayMessage, hskip, hcalls, closePendingToolCalls]

theorem closed_exchange {m : AssistantMessage} (hskip : skipped m = false)
    (hcalls : toolCalls m ≠ []) (h : ∀ m ∈ tail, IsTail m) (s : Replay) :
    ∃ answers : List ToolResultMessage,
      closed now (tail.foldl (replayMessage now) (replayMessage now s (.assistant m))) =
        closed now s ++ ((Step.exchange m (turnResults tail ++ answers)).messages ++
          tail.filter Message.isSystem) ∧
      answers.map ToolResultMessage.toolCallId = (callIds m).filter (· ∉ resultIds tail) ∧
      ∀ r ∈ answers, IsNoResult r := by
  have hpending : (replayMessage now s (.assistant m)).pendingToolCalls ≠ [] := by
    simp [replayMessage, hskip, hcalls]
  rw [replay_tail_pending now (fun m hm => opensTurn_of_isTail (h m hm)) hpending]
  obtain ⟨answers, hanswers, hids, hcontent⟩ := answerCalls_results now (resultIds tail).reverse
    (toolCalls m) (closed now s ++ [Message.assistant m] ++ tail.filter (!Message.isSystem ·))
  refine ⟨answers, ?_, by simpa [callIds] using hids, hcontent⟩
  simp only [closed, closePendingToolCalls, replayMessage, hskip, hcalls, if_false,
    append_nil, nil_append, Bool.false_eq_true] at hanswers ⊢
  rw [hanswers, filter_not_system h]
  simp [Step.messages]

theorem closed_steps {turns : List Turn} (hhead : ∀ turn ∈ turns, opensTurn turn.head = true)
    (htail : ∀ turn ∈ turns, ∀ m ∈ turn.tail, IsTail m) (s : Replay) :
    ∃ steps, Writes turns steps ∧
      closed now ((joinTurns turns).foldl (replayMessage now) s) =
        closed now s ++ steps.flatMap Step.messages := by
  induction turns generalizing s with
  | nil => exact ⟨[], .nil, by simp⟩
  | cons turn rest ih =>
    obtain ⟨head, tail⟩ := turn
    have hopens := hhead ⟨head, tail⟩ mem_cons_self
    have hshape := htail ⟨head, tail⟩ mem_cons_self
    have hplain := fun m hm => opensTurn_of_isTail (hshape m hm)
    obtain ⟨steps, hwrites, hclosed⟩ := ih
      (fun other hother => hhead other (mem_cons_of_mem _ hother))
      (fun other hother => htail other (mem_cons_of_mem _ hother))
      (tail.foldl (replayMessage now) (replayMessage now s head))
    rw [joinTurns_cons, foldl_cons, foldl_append, hclosed]
    cases head with
    | assistant m =>
      by_cases hskip : skipped m = true
      · refine ⟨_, .skip hskip hwrites, ?_⟩
        rw [closed_skipped now hskip hplain, flatMap_append, flatMap_plain, append_assoc]
      · rw [Bool.not_eq_true] at hskip
        by_cases hcalls : toolCalls m = []
        · refine ⟨_, .plain hskip (fun n hn => by cases hn; exact hcalls) hwrites, ?_⟩
          rw [closed_uncalled now hskip hcalls hplain, flatMap_cons, flatMap_append, flatMap_plain]
          simp [Step.messages]
        · obtain ⟨answers, hout, hids, hcontent⟩ := closed_exchange now hskip hcalls hshape s
          refine ⟨_, .exchange hskip hcalls hids hcontent hwrites, ?_⟩
          rw [hout, flatMap_cons, flatMap_append, flatMap_plain]
          simp only [append_assoc]
    | user m =>
      refine ⟨_, .plain rfl (fun n hn => by cases hn) hwrites, ?_⟩
      rw [closed_user now m hplain, flatMap_cons, flatMap_append, flatMap_plain]
      simp [Step.messages]
    | _ => simp [opensTurn] at hopens

end Replaying

/-! ### Complete exchanges -/

/-- Results stand in the turns of assistant messages that are kept and that call tools. -/
def NoStray (turn : Turn) : Prop :=
  resultIds turn.tail ≠ [] →
    ∃ m, turn.head = .assistant m ∧ skipped m = false ∧ toolCalls m ≠ []

theorem proper_tail (h : ∀ m ∈ tail, IsTail m) (hnone : resultIds tail = []) :
    ∀ step ∈ tail.map Step.plain, step.Proper := by
  intro step hstep
  obtain ⟨m, hm, rfl⟩ := mem_map.mp hstep
  have htail := h m hm
  cases m with
  | system m => exact trivial
  | toolResult r =>
    have hid : r.toolCallId ∈ resultIds tail := mem_filterMap.mpr ⟨_, hm, rfl⟩
    rw [hnone] at hid
    exact absurd hid not_mem_nil
  | _ => exact absurd htail id

theorem proper_systems (tail : List Message) :
    ∀ step ∈ (tail.filter Message.isSystem).map Step.plain, step.Proper := by
  intro step hstep
  obtain ⟨m, hm, rfl⟩ := mem_map.mp hstep
  have hsystem := (mem_filter.mp hm).2
  cases m <;> first | exact trivial | simp [Message.isSystem] at hsystem

theorem answers_ne_nil {m : AssistantMessage} (hcalls : toolCalls m ≠ [])
    (hids : answers.map ToolResultMessage.toolCallId = (callIds m).filter (· ∉ resultIds tail)) :
    turnResults tail ++ answers ≠ [] := by
  intro h
  obtain ⟨hresults, hanswers⟩ := append_eq_nil_iff.mp h
  rw [resultIds_eq, hresults, hanswers] at hids
  apply hcalls
  simpa [callIds] using hids.symm

theorem Writes.proper (h : Writes turns steps) (hopens : ∀ turn ∈ turns, opensTurn turn.head = true)
    (htail : ∀ turn ∈ turns, ∀ m ∈ turn.tail, IsTail m) (hstray : ∀ turn ∈ turns, NoStray turn) :
    ∀ step ∈ steps, step.Proper := by
  induction h with
  | nil => exact fun _ hstep => absurd hstep not_mem_nil
  | @skip t ts steps hskip _ ih =>
    have hnone : resultIds t.tail = [] := by
      by_contra hresults
      obtain ⟨m, hhead, hkept, -⟩ := hstray t mem_cons_self hresults
      rw [hhead, isSkipped, hkept] at hskip
      exact absurd hskip (by simp)
    intro step hstep
    rcases mem_append.mp hstep with hstep | hstep
    · exact proper_tail (htail t mem_cons_self) hnone step hstep
    · exact ih (fun u hu => hopens u (mem_cons_of_mem _ hu))
        (fun u hu => htail u (mem_cons_of_mem _ hu))
        (fun u hu => hstray u (mem_cons_of_mem _ hu)) step hstep
  | @plain t ts steps hskip hcalls _ ih =>
    have hnone : resultIds t.tail = [] := by
      by_contra hresults
      obtain ⟨m, hhead, -, hne⟩ := hstray t mem_cons_self hresults
      exact hne (hcalls m hhead)
    intro step hstep
    rcases mem_cons.mp hstep with rfl | hstep
    · have hhead := hopens t mem_cons_self
      cases hm : t.head with
      | assistant m => exact hcalls m hm
      | user m => exact trivial
      | _ => simp [hm, opensTurn] at hhead
    · rcases mem_append.mp hstep with hstep | hstep
      · exact proper_tail (htail t mem_cons_self) hnone step hstep
      · exact ih (fun u hu => hopens u (mem_cons_of_mem _ hu))
          (fun u hu => htail u (mem_cons_of_mem _ hu))
          (fun u hu => hstray u (mem_cons_of_mem _ hu)) step hstep
  | @exchange m tail answers ts steps _ hcalls hids _ _ ih =>
    intro step hstep
    rcases mem_cons.mp hstep with rfl | hstep
    · exact ⟨hcalls, answers_ne_nil hcalls hids⟩
    · rcases mem_append.mp hstep with hstep | hstep
      · exact proper_systems tail step hstep
      · exact ih (fun u hu => hopens u (mem_cons_of_mem _ hu))
          (fun u hu => htail u (mem_cons_of_mem _ hu))
          (fun u hu => hstray u (mem_cons_of_mem _ hu)) step hstep

theorem answered_plain : (∀ step ∈ messages.map Step.plain ++ steps, step.Answered) ↔
      ∀ step ∈ steps, step.Answered := by
  constructor
  · exact fun h step hstep => h step (mem_append_right _ hstep)
  · intro h step hstep
    rcases mem_append.mp hstep with hstep | hstep
    · obtain ⟨m, -, rfl⟩ := mem_map.mp hstep
      exact trivial
    · exact h step hstep

section Ids

variable (model : TargetModel) (normalize : Option IdNormalizer)

/-- The ids under which the results of each kept message go out are distinct, and each is the
id of one of its calls there. An id keeps its new name over the whole history: the last call
that was renamed gives it. -/
def ResultsReach (before : List AssistantMessage) : List Turn → Prop
  | [] => True
  | ⟨.assistant m, tail⟩ :: rest =>
    (skipped m = false →
      ((resultIds tail).map (renamed model normalize (before ++ [m]))).Nodup ∧
        ∀ id ∈ (resultIds tail).map (renamed model normalize (before ++ [m])),
          id ∈ (callIds m).map (outputId model normalize m)) ∧
      ResultsReach (before ++ [m]) rest
  | _ :: rest => ResultsReach before rest

/-- The ids of one message stay distinct where they are normalized. -/
def DistinctIds (turn : Turn) : Prop :=
  ∀ m, turn.head = .assistant m → ((callIds m).map (outputId model normalize m)).Nodup

theorem answered_iff {before : List AssistantMessage} {ts us : List Turn}
    (hrewrites : RewritesTurns model normalize before ts us) (hwrites : Writes us steps)
    (hopens : ∀ turn ∈ ts, opensTurn turn.head = true) (hstray : ∀ turn ∈ ts, NoStray turn)
    (hdistinct : ∀ turn ∈ ts, DistinctIds model normalize turn) :
    (∀ step ∈ steps, step.Answered) ↔ ResultsReach model normalize before ts := by
  induction hrewrites generalizing steps with
  | nil before =>
    cases hwrites
    simp [ResultsReach]
  | @cons before t u ts us hhead htail _ ih =>
    have hrest {steps : List Step} (h : Writes us steps) := ih h
      (fun v hv => hopens v (mem_cons_of_mem _ hv))
      (fun v hv => hstray v (mem_cons_of_mem _ hv))
      (fun v hv => hdistinct v (mem_cons_of_mem _ hv))
    have hopen := hopens t mem_cons_self
    have hkept := hstray t mem_cons_self
    have hids := resultIds_of_rewrites model normalize htail
    have hsame := isSkipped_of_rewrites model normalize hhead
    have hnodup := hdistinct t mem_cons_self
    obtain ⟨head, tail⟩ := t
    cases head with
    | user m =>
      obtain ⟨v, hv⟩ := hhead
      cases hwrites with
      | skip hskip _ => simp [hv, isSkipped] at hskip
      | plain _ _ hwrites =>
        rw [forall_mem_cons, answered_plain, hrest hwrites]
        simp [Step.Answered, assistants, ResultsReach]
      | exchange => exact absurd hv (by simp)
    | assistant m =>
      obtain ⟨content, hcontent, hcalls⟩ := hhead
      have hskipped : isSkipped u.head = skipped m := hsame
      cases hwrites with
      | skip hskip hwrites =>
        rw [hskipped] at hskip
        rw [answered_plain, hrest hwrites]
        simp [ResultsReach, hskip, assistants]
      | plain hskip hnocalls hwrites =>
        have hnone : resultIds tail = [] := by
          by_contra hresults
          obtain ⟨n, hn, -, hne⟩ := hkept hresults
          cases hn
          apply hne
          have hout := hnocalls _ hcontent
          have hmap : ((toolCalls { m with content }).map ToolCall.id) =
              (callIds m).map (outputId model normalize m) := hcalls
          rw [hout] at hmap
          simpa [callIds] using hmap.symm
        rw [forall_mem_cons, answered_plain, hrest hwrites]
        simp [Step.Answered, assistants, ResultsReach, hnone]
      | @exchange n utail answers _ _ hskip _ hanswers _ hwrites =>
        cases hcontent
        have hm : skipped m = false := hskip
        have hcalls' : callIds { m with content } =
            (callIds m).map (outputId model normalize m) := hcalls
        have hresults : resultIds utail =
            (resultIds tail).map (renamed model normalize (before ++ [m])) := hids
        rw [forall_mem_cons, answered_plain, hrest hwrites, Step.Answered, map_append,
          ← resultIds_eq, hanswers, hresults, hcalls', matches_completed_iff (hnodup m rfl)]
        simp [ResultsReach, hm, assistants]
    | _ => simp [opensTurn] at hopen

end Ids

/-- What the transform makes of a history: the messages after the first pass, and the steps
that the second pass writes. -/
structure Transformed (model : TargetModel) (normalize : Option IdNormalizer)
    (messages rewritten output : List Message) (steps : List Step) : Prop where
  passes : ∃ normalized prepared, messages.mapM normalizeContent = some normalized ∧
    downgradeUnsupportedImages model normalized = some prepared ∧
      rewriteMessages model normalize prepared .empty = some rewritten
  rewrites : RewritesAll model normalize [] messages rewritten
  writes : Writes (splitTurns rewritten).2 steps
  output_eq : output = (splitTurns rewritten).1 ++ steps.flatMap Step.messages

theorem isTail_of_rewrites (h : Rewrites model normalize before m n)
    (hopens : opensTurn n = false) : IsTail n := by
  cases m with
  | system m =>
    obtain ⟨s, rfl⟩ := h
    exact trivial
  | toolResult m =>
    obtain ⟨r, rfl, -⟩ := h
    exact trivial
  | assistant m =>
    obtain ⟨content, rfl, -⟩ := h
    simp [opensTurn] at hopens
  | user m =>
    obtain ⟨u, rfl⟩ := h
    simp [opensTurn] at hopens
  | _ => exact absurd h id

theorem rewrites_of_mem {ms ns : List Message} (h : RewritesAll model normalize before ms ns)
    (hn : n ∈ ns) : ∃ earlier m, Rewrites model normalize earlier m n := by
  induction h with
  | nil => exact absurd hn not_mem_nil
  | cons hhead _ ih =>
    rcases mem_cons.mp hn with rfl | hn
    · exact ⟨_, _, hhead⟩
    · exact ih hn

theorem mem_joinTurns {turn : Turn} (h : turn ∈ turns) (hm : m ∈ turn.head :: turn.tail) :
    m ∈ joinTurns turns :=
  mem_flatMap.mpr ⟨turn, h, hm⟩

theorem transform_spec (model : TargetModel) (normalize : Option IdNormalizer) (now : Nat → Int)
    (htyped : ∀ m ∈ messages, TypedMessage m) : ∃ rewritten output steps,
      transformMessages model normalize now messages = some output ∧
        Transformed model normalize messages rewritten output steps := by
  obtain ⟨normalized, prepared, hnormalized, hprepared, hprepares⟩ :=
    prepare_messages model htyped
  have hrecords : Records model normalize [] .empty := fun id => rfl
  obtain ⟨rewritten, hrewritten, hrewrites⟩ :=
    rewriteMessages_spec model normalize hrecords hprepares htyped
  obtain ⟨hlead, hshaped⟩ := splitTurns_shaped rewritten
  have hjoin := joinTurns_splitTurns rewritten
  have htail : ∀ turn ∈ (splitTurns rewritten).2, ∀ m ∈ turn.tail, IsTail m := by
    intro turn hturn m hm
    have hmem : m ∈ rewritten := by
      rw [← hjoin]
      exact mem_append_right _ (mem_joinTurns hturn (mem_cons_of_mem _ hm))
    obtain ⟨earlier, source, hsource⟩ := rewrites_of_mem hrewrites hmem
    exact isTail_of_rewrites hsource ((hshaped turn hturn).2 m hm)
  obtain ⟨steps, hwrites, hclosed⟩ := closed_steps now (fun turn hturn => (hshaped turn hturn).1)
    htail ((splitTurns rewritten).1.foldl (replayMessage now) {})
  have hidle : closed now ((splitTurns rewritten).1.foldl (replayMessage now) {}) =
      (splitTurns rewritten).1 := by
    rw [replay_tail_idle now hlead rfl, closed_of_idle now rfl]
    simp
  rw [← foldl_append, hjoin, hidle] at hclosed
  refine ⟨rewritten, replayMessages now rewritten, steps, by
    simp [transformMessages, hnormalized, hprepared, hrewritten], ?_⟩
  exact ⟨⟨normalized, prepared, hnormalized, hprepared, hrewritten⟩, hrewrites, hwrites, hclosed⟩

end Pidrei.ReplaySteps
