import Pidrei.ReplaySteps

/-!
The transcripts that a request is built from: every tool result stands behind the message
that issued its call. Collapsing the system messages changes none of this, and the transform
of such a transcript is a sequence of steps.
-/
namespace Pidrei.WireHistory

open List

open Messages AgentTypes Transcript TransformMessages ReplayPairing RequestTranscript ReplaySteps

/-- Every tool result follows, up to system messages and other results, the assistant message
that issued its call and that did not fail, at most one for each call. -/
structure Conversation (messages : List Message) : Prop where
  typed : ∀ m ∈ messages, TypedMessage m
  formed : HistoryFormed messages
  kept : SkippedUnanswered messages

theorem forall₂_of_mapM {α β : Type} {f : α → Option β} {xs : List α} {ys : List β}
    (h : xs.mapM f = some ys) : List.Forall₂ (fun x y => f x = some y) xs ys := by
  induction xs generalizing ys with
  | nil =>
    cases h
    exact .nil
  | cons x xs ih =>
    simp only [mapM_cons, Option.bind_eq_bind, Option.bind_eq_some_iff] at h
    obtain ⟨y, hy, others, hothers, hys⟩ := h
    cases hys
    exact .cons hy (ih hothers)

theorem mem_of_mapM {α β : Type} {f : α → Option β} {xs : List α} {ys : List β}
    (h : xs.mapM f = some ys) {y : β} (hy : y ∈ ys) : ∃ x ∈ xs, f x = some y := by
  induction forall₂_of_mapM h with
  | nil => exact absurd hy not_mem_nil
  | @cons x z xs ys hx hrest ih =>
    rcases mem_cons.mp hy with rfl | hy
    · exact ⟨x, mem_cons_self, hx⟩
    · have hmap : xs.mapM f = some ys := by
        simp only [mapM_cons, hx, Option.bind_eq_bind, Option.bind_some,
          Option.bind_eq_some_iff] at h
        obtain ⟨others, hothers, hys⟩ := h
        cases hys
        exact hothers
      obtain ⟨x', hx', hfx⟩ := ih hmap hy
      exact ⟨x', mem_cons_of_mem _ hx', hfx⟩

theorem callIds_of_iterBlocks {m : AssistantMessage} {items : List ContentBlock}
    (h : iterBlocks m.content = some items) : callIds m = blockIds items := by
  unfold callIds toolCalls blockIds
  cases hcontent : m.content with
  | missing =>
    rw [hcontent] at h
    cases h
  | text s =>
    rw [hcontent, iterBlocks] at h
    split at h
    · cases h
      rfl
    · cases h
  | blocks blocks =>
    rw [hcontent] at h
    cases h
    rfl

section Resolving

def dropSystems (turn : Turn) : Turn := ⟨turn.head, turn.tail.filter (!Message.isSystem ·)⟩

theorem isSystem_of_opensTurn {m : Message} (h : opensTurn m = true) : m.isSystem = false := by
  cases m <;> first | rfl | simp [opensTurn] at h

theorem splitTurns_filter_system (messages : List Message) :
    splitTurns (messages.filter (!Message.isSystem ·)) =
      ((splitTurns messages).1.filter (!Message.isSystem ·),
        (splitTurns messages).2.map dropSystems) := by
  induction messages with
  | nil => rfl
  | cons m rest ih =>
    by_cases hopens : opensTurn m = true
    · have hsystem := isSystem_of_opensTurn hopens
      rw [filter_cons_of_pos (by simp [hsystem]), splitTurns, splitTurns, ih]
      simp [hopens, dropSystems]
    · by_cases hsystem : m.isSystem = true
      · rw [filter_cons_of_neg (by simp [hsystem]), ih, splitTurns]
        simp [hopens, hsystem]
      · rw [filter_cons_of_pos (by simp [hsystem]), splitTurns, splitTurns, ih]
        simp [hopens, hsystem]

theorem splitTurns_collapse (messages : List Message) :
    resultIds (splitTurns (collapseSystemMessages messages)).1 =
        resultIds (splitTurns messages).1 ∧
      (splitTurns (collapseSystemMessages messages)).2 =
        (splitTurns messages).2.map dropSystems := by
  have hrest := splitTurns_filter_system messages
  have hids := resultIds_filter_not_system (splitTurns messages).1
  unfold collapseSystemMessages
  cases getCurrentSystemMessage messages with
  | none =>
    dsimp only
    rw [hrest]
    exact ⟨hids, rfl⟩
  | some head =>
    dsimp only
    rw [splitTurns, hrest]
    refine ⟨?_, rfl⟩
    simp [opensTurn, resultIds_cons, resultId?, hids]

theorem resultIds_dropSystems (turn : Turn) :
    resultIds (dropSystems turn).tail = resultIds turn.tail :=
  resultIds_filter_not_system turn.tail

variable {messages : List Message}

theorem mem_collapse {m : Message} (h : m ∈ collapseSystemMessages messages) :
    m ∈ messages ∨ m.isSystem = true := by
  unfold collapseSystemMessages at h
  cases hhead : getCurrentSystemMessage messages with
  | none =>
    rw [hhead] at h
    exact .inl (mem_filter.mp h).1
  | some head =>
    rw [hhead] at h
    rcases mem_cons.mp h with rfl | h
    · exact .inr rfl
    · exact .inl (mem_filter.mp h).1

theorem conversation_collapse (h : Conversation messages) :
    Conversation (collapseSystemMessages messages) := by
  obtain ⟨hlead, hturns⟩ := splitTurns_collapse messages
  constructor
  · intro m hm
    rcases mem_collapse hm with hm | hsystem
    · exact h.typed m hm
    · cases m <;> first | exact trivial | simp [Message.isSystem] at hsystem
  · constructor
    · rw [hlead, h.formed.lead]
    · rw [hturns]
      intro turn hturn
      obtain ⟨source, hsource, rfl⟩ := mem_map.mp hturn
      have hformed := h.formed.turns source hsource
      unfold TurnFormed at hformed ⊢
      rw [resultIds_dropSystems]
      exact hformed
  · intro turn hturn hskip
    rw [hturns] at hturn
    obtain ⟨source, hsource, rfl⟩ := mem_map.mp hturn
    rw [resultIds_dropSystems]
    exact h.kept source hsource hskip

theorem conversation_resolve (h : Conversation messages) (supported : Bool) :
    Conversation (resolveTranscript messages supported) := by
  cases supported with
  | true => exact h
  | false => exact conversation_collapse h

variable (model : TargetModel) (normalize : Option IdNormalizer)

/-- The ids of each message's calls stay distinct where they are normalized. -/
def StayDistinct (messages : List Message) : Prop :=
  ∀ m, .assistant m ∈ messages → ((callIds m).map (outputId model normalize m)).Nodup

theorem stayDistinct_resolve (h : StayDistinct model normalize messages) (supported : Bool) :
    StayDistinct model normalize (resolveTranscript messages supported) := by
  cases supported with
  | true => exact h
  | false =>
    intro m hm
    rcases mem_collapse hm with hm | hsystem
    · exact h m hm
    · simp [Message.isSystem] at hsystem

theorem resultsReach_dropSystems (before : List AssistantMessage) (turns : List Turn) :
    ResultsReach model normalize before (turns.map dropSystems) ↔
      ResultsReach model normalize before turns := by
  induction turns generalizing before with
  | nil => exact .rfl
  | cons turn rest ih =>
    obtain ⟨head, tail⟩ := turn
    have hids := resultIds_dropSystems ⟨head, tail⟩
    dsimp only [dropSystems] at hids
    cases head <;> simp only [map_cons, dropSystems, ResultsReach, hids, ih]

/-- The results of a transcript reach their calls under the ids of the request. -/
def ResultsReachCalls (messages : List Message) : Prop :=
  ResultsReach model normalize [] (splitTurns messages).2

theorem resultsReachCalls_resolve (messages : List Message) (supported : Bool) :
    ResultsReachCalls model normalize (resolveTranscript messages supported) ↔
      ResultsReachCalls model normalize messages := by
  cases supported with
  | true => exact .rfl
  | false =>
    unfold ResultsReachCalls resolveTranscript
    rw [if_neg (by simp), (splitTurns_collapse messages).2]
    exact resultsReach_dropSystems model normalize [] _

end Resolving

section Stepping

variable {model : TargetModel} {normalize : Option IdNormalizer} {messages rewritten : List Message}

theorem mem_head {turn : Turn} (h : turn ∈ (splitTurns messages).2) : turn.head ∈ messages := by
  rw [← joinTurns_splitTurns messages]
  exact mem_append_right _ (mem_joinTurns h mem_cons_self)

theorem noStray_of_conversation (h : Conversation messages) :
    ∀ turn ∈ (splitTurns messages).2, NoStray turn := by
  intro turn hturn hresults
  have hformed := h.formed.turns turn hturn
  have hskipped := h.kept turn hturn
  obtain ⟨head, tail⟩ := turn
  cases head with
  | assistant m =>
    refine ⟨m, rfl, ?_, ?_⟩
    · by_contra hskip
      exact hresults (hskipped (by simpa [isSkipped] using hskip))
    · intro hcalls
      obtain ⟨id, hid⟩ := exists_mem_of_ne_nil _ hresults
      have hcall := hformed.2.2 id hid
      simp [callIds, hcalls] at hcall
  | _ => exact absurd hformed hresults

theorem noStray_of_rewrites {before : List AssistantMessage} {ts us : List Turn}
    (h : RewritesTurns model normalize before ts us) (hstray : ∀ turn ∈ ts, NoStray turn) :
    ∀ turn ∈ us, NoStray turn := by
  induction h with
  | nil => exact fun _ hturn => absurd hturn not_mem_nil
  | @cons before t u ts us hhead htail _ ih =>
    rw [forall_mem_cons]
    refine ⟨?_, ih fun turn hturn => hstray turn (mem_cons_of_mem _ hturn)⟩
    intro hresults
    rw [resultIds_of_rewrites model normalize htail] at hresults
    obtain ⟨m, hm, hskip, hcalls⟩ :=
      hstray t mem_cons_self fun hnil => hresults (by rw [hnil]; rfl)
    have hsame := isSkipped_of_rewrites model normalize hhead
    rw [hm] at hhead hsame
    obtain ⟨content, hcontent, hids⟩ := hhead
    rw [hcontent] at hsame
    refine ⟨_, hcontent, hsame.trans hskip, fun hnone => hcalls ?_⟩
    have hempty : contentCalls content = [] := hnone
    rw [hempty] at hids
    simpa [callIds] using hids.symm

theorem isTail_of_transformed (hrewrites : RewritesAll model normalize [] messages rewritten) :
    ∀ turn ∈ (splitTurns rewritten).2, ∀ m ∈ turn.tail, IsTail m := by
  intro turn hturn m hm
  have hmem : m ∈ rewritten := by
    rw [← joinTurns_splitTurns rewritten]
    exact mem_append_right _ (mem_joinTurns hturn (mem_cons_of_mem _ hm))
  obtain ⟨earlier, source, hsource⟩ := rewrites_of_mem hrewrites hmem
  exact isTail_of_rewrites hsource (((splitTurns_shaped rewritten).2 turn hturn).2 m hm)

theorem proper_lead (hrewrites : RewritesAll model normalize [] messages rewritten)
    (hlead : resultIds (splitTurns messages).1 = []) :
    ∀ step ∈ (splitTurns rewritten).1.map Step.plain, step.Proper := by
  have hleads := (hrewrites.splitTurns).1
  have hnone : resultIds (splitTurns rewritten).1 = [] := by
    rw [resultIds_of_rewrites model normalize hleads, hlead]
    rfl
  refine proper_tail (fun m hm => ?_) hnone
  have hmem : m ∈ rewritten := by
    rw [← joinTurns_splitTurns rewritten]
    exact mem_append_left _ hm
  obtain ⟨earlier, source, hsource⟩ := rewrites_of_mem hrewrites hmem
  exact isTail_of_rewrites hsource ((splitTurns_shaped rewritten).1 m hm)

/-- The steps of the messages before the first turn and of the turns. -/
def allSteps (rewritten : List Message) (steps : List Step) : List Step :=
  (splitTurns rewritten).1.map .plain ++ steps

theorem transformed_proper {output : List Message} {steps : List Step} (h : Conversation messages)
    (htransformed : Transformed model normalize messages rewritten output steps) :
    output = (allSteps rewritten steps).flatMap Step.messages ∧
      ∀ step ∈ allSteps rewritten steps, step.Proper := by
  obtain ⟨-, hrewrites, hwrites, houtput⟩ := htransformed
  obtain ⟨-, hshaped⟩ := splitTurns_shaped rewritten
  refine ⟨?_, ?_⟩
  · rw [houtput, allSteps, flatMap_append, flatMap_plain]
  · intro step hstep
    rcases mem_append.mp hstep with hstep | hstep
    · exact proper_lead hrewrites h.formed.lead step hstep
    · exact hwrites.proper (fun turn hturn => (hshaped turn hturn).1)
        (isTail_of_transformed hrewrites)
        (noStray_of_rewrites hrewrites.splitTurns.2 (noStray_of_conversation h)) step hstep

theorem transformed_answered {output : List Message} {steps : List Step}
    (h : Conversation messages) (hdistinct : StayDistinct model normalize messages)
    (htransformed : Transformed model normalize messages rewritten output steps) :
    (∀ step ∈ allSteps rewritten steps, step.Answered) ↔
      ResultsReachCalls model normalize messages := by
  obtain ⟨-, hrewrites, hwrites, -⟩ := htransformed
  rw [allSteps, answered_plain]
  refine answered_iff model normalize hrewrites.splitTurns.2 hwrites
    (fun turn hturn => ((splitTurns_shaped messages).2 turn hturn).1) (noStray_of_conversation h) ?_
  intro turn hturn m hm
  apply hdistinct m
  rw [← hm]
  exact mem_head hturn

end Stepping

end Pidrei.WireHistory
