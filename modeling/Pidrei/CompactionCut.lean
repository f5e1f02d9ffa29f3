import Mathlib.Data.List.NodupEquivFin
import Pidrei.Compaction
import Pidrei.ContextProjection

/-!
A cut never separates a tool result from its call. The cut is a cut point, moved
back over hidden entries, or the entry behind it when nothing behind it is
visible; a result that is shown at or after the cut stands behind an assistant
message with no cut point in between, so that message is not cut away.
-/
namespace Pidrei.CompactionCut

open Values Messages SessionEntries ContextProjection Compaction List
open Option (getD_some map_some some)

/-! ### The search -/

theorem closestCutPoint_mem (first : Nat) (others : List Nat) (index : Nat) :
    closestCutPoint first others index ∈ first :: others := by
  unfold closestCutPoint
  cases hfind : (first :: others).find? (index ≤ ·) with
  | none => exact getLast_mem _
  | some found => exact mem_of_find?_eq_some hfind

attribute [local simp] moveBack in
theorem moveBack_le (isHidden : Nat → Bool) (start cut : Nat) :
    moveBack isHidden start cut ≤ cut := by
  induction cut with
  | zero => exact Nat.le_refl 0
  | succ cut ih =>
    unfold moveBack
    split
    · omega
    · exact Nat.le_refl _

variable {start cut : Nat} {isHidden : Nat → Bool} {env : Environment} {path : List Entry}
   {item : ProjectedSessionEntry} {entry : Entry}

theorem moveBack_ge (isHidden : Nat → Bool) (h : start ≤ cut) :
    start ≤ moveBack isHidden start cut := by
  induction cut with
  | zero => exact h
  | succ cut ih =>
    unfold moveBack
    split
    · rename_i hback
      simp only [Bool.and_eq_true, decide_eq_true_eq] at hback
      exact ih hback.1
    · exact h

variable {index stop i j k : Nat} {keep : Int} {result call : Entry}
   {before between after : List Entry}

theorem hidden_of_moveBack (hle : moveBack isHidden start cut ≤ index) (hlt : index < cut) :
    isHidden index = true := by
  induction cut with
  | zero => omega
  | succ cut ih =>
    unfold moveBack at hle
    split at hle
    · rename_i hback
      simp only [Bool.and_eq_true, decide_eq_true_eq] at hback
      by_cases heq : index = cut
      · exact heq ▸ hback.2
      · exact ih hle (by omega)
    · omega

theorem moveBack_of_visible (h : isHidden cut = false) :
    moveBack isHidden start (cut + 1) = cut + 1 := by
  simp [moveBack, h]

theorem cutPointResult_first (startsTurn : Nat → Bool) (start cut : Nat) :
    (cutPointResult startsTurn start cut).firstKeptEntryIndex = cut := by
  unfold cutPointResult
  split <;> rfl

theorem searchCutPoint_cases {isCutPoint startsTurn : Nat → Bool}
    {tokens : Nat → Option Nat} {advance : Nat → Bool → Nat}
    {result : CutPointResult}
    (h : searchCutPoint isCutPoint startsTurn isHidden tokens advance start stop keep =
      some result) :
    result = ⟨start, none, false⟩ ∨
      ∃ chosen exceeded, start ≤ chosen ∧ chosen < stop ∧ isCutPoint chosen = true ∧
        result = cutPointResult startsTurn start
          (moveBack isHidden start (advance chosen exceeded)) := by
  unfold searchCutPoint at h
  dsimp only at h
  split at h
  · exact .inl (some.inj h).symm
  · rename_i first others hfilter
    right
    obtain ⟨reached, -, hresult⟩ := Option.bind_eq_some_iff.mp h
    have hmem : ∀ index ∈ first :: others,
        start ≤ index ∧ index < stop ∧ isCutPoint index = true := by
      intro index hindex
      rw [← hfilter, mem_filter, mem_range'_1] at hindex
      obtain ⟨⟨hstart, hstop⟩, hcut⟩ := hindex
      exact ⟨hstart, by omega, hcut⟩
    cases reached with
    | none =>
      obtain ⟨hstart, hstop, hcut⟩ := hmem first mem_cons_self
      exact ⟨first, false, hstart, hstop, hcut, (some.inj hresult).symm⟩
    | some index =>
      obtain ⟨hstart, hstop, hcut⟩ := hmem _ (closestCutPoint_mem first others index)
      exact ⟨_, true, hstart, hstop, hcut, (some.inj hresult).symm⟩

/-! ### Projected entries -/

theorem kind_of_projected (hitem : item ∈ (projectPath env path).entries) {message : Message}
    (hmessage : message ∈ item.messages) :
    ∃ original ∈ sessionEntryToContextMessages env item.sourceEntry,
      isCutPointMessage message = isCutPointMessage original := by
  obtain ⟨indexed, -, rfl⟩ := mem_map.mp hitem
  dsimp only at hmessage ⊢
  unfold projectedMessages at hmessage
  split at hmessage
  · simp at hmessage
  · unfold projectContextEntry at hmessage
    split at hmessage
    · exact ⟨message, hmessage, rfl⟩
    · simp at hmessage
    · obtain ⟨original, horiginal, rfl⟩ := mem_map.mp hmessage
      refine ⟨original, horiginal, ?_⟩
      cases original <;> rfl

theorem sources_projectPath (env : Environment) (path : List Entry) :
    (projectPath env path).entries.map ProjectedSessionEntry.sourceEntry =
      contextEntriesOfPath path := by
  rw [projectPath, map_map]
  exact zipIdx_map_fst 0 _

theorem empty_of_recovery {newest : List ProjectedSessionEntry}
    (hsub : newest ⊆ (projectPath env path).entries)
    (h : isRecoveryOmissionSuffix env newest = true) : ∀ item ∈ newest, item.messages = [] := by
  intro item hitem
  simp only [isRecoveryOmissionSuffix, Bool.and_eq_true, all_eq_true, Bool.or_eq_true] at h
  rcases (h.2 item hitem).2 with hhidden | homitted
  · -- A source without messages of its own contributes none.
    have hsource : sessionEntryToContextMessages env item.sourceEntry = [] := by
      simp only [isIntrinsicallyVisible, Bool.not_and, Bool.not_not, Bool.or_eq_true,
        List.isEmpty_iff] at hhidden
      rcases hhidden with hedit | hnone
      · unfold isContextEdit at hedit
        split at hedit
        · rename_i hpayload
          simp [sessionEntryToContextMessages, hpayload]
        · simp at hedit
      · exact hnone
    rw [eq_nil_iff_forall_not_mem]
    intro message hmessage
    obtain ⟨original, horiginal, -⟩ := kind_of_projected (hsub hitem) hmessage
    rw [hsource] at horiginal
    exact not_mem_nil horiginal
  · simp only [isOmitted, Bool.and_eq_true, List.isEmpty_iff] at homitted
    exact homitted.2

theorem cut_cases {stringify : Value → String} {result : CutPointResult}
    (h : findProjectedCutPoint env stringify (projectPath env path).entries start stop keep =
      some result) :
    result.firstKeptEntryIndex = start ∨
      (∃ chosen item, result.firstKeptEntryIndex ≤ chosen ∧
        (projectPath env path).entries[chosen]? = some item ∧
        item.messages.any isCutPointMessage = true ∧
        ∀ index other, result.firstKeptEntryIndex ≤ index → index < chosen →
          (projectPath env path).entries[index]? = some other → other.messages = []) ∨
      ∀ index other, result.firstKeptEntryIndex ≤ index → index < stop →
        (projectPath env path).entries[index]? = some other → other.messages = [] := by
  unfold findProjectedCutPoint at h
  rcases searchCutPoint_cases h with rfl | ⟨chosen, exceeded, hstart, hstop, hcut, rfl⟩
  · exact .inl rfl
  rw [cutPointResult_first]
  obtain ⟨item, hitem, hany⟩ : ∃ item, (projectPath env path).entries[chosen]? = some item ∧
      item.messages.any isCutPointMessage = true := by
    cases hget : (projectPath env path).entries[chosen]? with
    | none => simp [hget] at hcut
    | some item =>
      simp only [hget, map_some, getD_some, Bool.and_eq_true] at hcut
      exact ⟨item, rfl, hcut.2⟩
  right
  split
  · rename_i hadvance
    simp only [Bool.and_eq_true] at hadvance
    right
    have hvisible : item.messages.isEmpty = false := by
      cases hmessages : item.messages with
      | nil => simp [hmessages] at hany
      | cons => rfl
    rw [moveBack_of_visible (by simp [hitem, hvisible])]
    intro index other hle hlt hother
    have hsub : ((projectPath env path).entries.take stop).drop (chosen + 1) ⊆
        (projectPath env path).entries :=
      fun x hx => mem_of_mem_take (mem_of_mem_drop hx)
    refine empty_of_recovery hsub hadvance.2 other ?_
    rw [mem_iff_getElem?]
    refine ⟨index - (chosen + 1), ?_⟩
    rw [getElem?_drop, getElem?_take_of_lt (by omega)]
    rwa [show chosen + 1 + (index - (chosen + 1)) = index by omega]
  · left
    refine ⟨chosen, item, moveBack_le _ start chosen, hitem, hany, ?_⟩
    intro index other hle hlt hother
    have hhidden := hidden_of_moveBack hle hlt
    simp only [hother, map_some, getD_some, Bool.and_eq_true,
      List.isEmpty_iff] at hhidden
    exact hhidden.2

/-! ### Calls and results -/

/-- A tool result entry stands directly behind the assistant message with its call, up to
further tool results and entries that add no message. -/
def AnswersDirectly (env : Environment) (path : List Entry) (call result : Entry) : Prop :=
  ∃ before between after, path = before ++ call :: (between ++ result :: after) ∧
    (∃ message answer, call.payload = .message (.assistant message) ∧
      result.payload = .message (.toolResult answer) ∧
      ∃ blocks, message.content = .blocks blocks ∧
        ∃ issued, .toolCall issued ∈ blocks ∧ issued.id = answer.toolCallId) ∧
    ∀ entry ∈ between, (∃ answer, entry.payload = .message (.toolResult answer)) ∨
      sessionEntryToContextMessages env entry = []

theorem no_cutPoint_of_toolResult {answer : ToolResultMessage}
    (h : entry.payload = .message (.toolResult answer)) :
    ∀ message ∈ sessionEntryToContextMessages env entry, isCutPointMessage message = false := by
  intro message hmessage
  simp only [sessionEntryToContextMessages, h, mem_singleton] at hmessage
  subst hmessage
  unfold withContent
  dsimp only
  split <;> rfl

theorem no_cutPoint_projected (hitem : item ∈ (projectPath env path).entries)
    (h : ∀ message ∈ sessionEntryToContextMessages env item.sourceEntry,
      isCutPointMessage message = false) :
    item.messages.any isCutPointMessage = false := by
  rw [any_eq_false]
  intro message hmessage
  obtain ⟨original, horiginal, hkind⟩ := kind_of_projected hitem hmessage
  rw [hkind, h original horiginal]
  exact Bool.false_ne_true

theorem between_of_sublist {l : List Entry} (hsub : l.Sublist path) (hnodup : path.Nodup)
    (hpath : path = before ++ call :: (between ++ result :: after)) (hcall : l[j]? = some call)
    (hentry : l[k]? = some entry) (hresult : l[i]? = some result) (hjk : j < k) (hki : k < i) :
    entry ∈ between := by
  obtain ⟨f, hf⟩ := sublist_iff_exists_orderEmbedding_getElem?_eq.mp hsub
  rw [hf] at hcall hentry hresult
  have hcallAt : path[before.length]? = some call := by simp [hpath]
  have hresultAt : path[before.length + 1 + between.length]? = some result := by
    rw [hpath, getElem?_append_right (by omega)]
    simp [show before.length + 1 + between.length - before.length = between.length + 1 by omega]
  have hfj := (getElem?_inj (List.getElem?_eq_some_iff.mp hcall).1 hnodup).mp
    (hcall.trans hcallAt.symm)
  have hfi := (getElem?_inj (List.getElem?_eq_some_iff.mp hresult).1 hnodup).mp
    (hresult.trans hresultAt.symm)
  have hlow := f.strictMono hjk
  have hhigh := f.strictMono hki
  rw [hpath, getElem?_append_right (by omega)] at hentry
  obtain ⟨m, hm⟩ : ∃ m, f k - before.length = m + 1 := ⟨f k - before.length - 1, by omega⟩
  rw [hm, getElem?_cons_succ, getElem?_append_left (by omega)] at hentry
  exact mem_of_getElem? hentry

theorem contextEntries_sublist (path : List Entry) (hnodup : (path.map Entry.id).Nodup) :
    (contextEntriesOfPath path).Sublist path ∨ ∃ compaction rest,
      contextEntriesOfPath path = compaction :: rest ∧ compaction.isCompaction = true ∧
        rest.Sublist path := by
  rcases exists_latestCompaction path with hnone | ⟨before, compaction, after, rfl, hcomp, hafter⟩
  · rw [contextEntriesOfPath_none path hnone]
    exact .inl (List.Sublist.refl path)
  · obtain ⟨firstKept, hkept⟩ := exists_firstKept hcomp
    have hfresh : compaction.id ∉ before.map Entry.id := by
      rw [map_append, map_cons, nodup_append] at hnodup
      exact fun hmem => hnodup.2.2 _ hmem _ mem_cons_self rfl
    rw [contextEntriesOfPath_some before after compaction firstKept hkept hcomp hafter hfresh]
    refine .inr ⟨compaction, _, rfl, hcomp, ?_⟩
    unfold retained
    exact List.Sublist.append (filter_sublist.trans (dropWhile_sublist _))
      (sublist_cons_self compaction after)

theorem source_at (h : (projectPath env path).entries[index]? = some item) :
    (contextEntriesOfPath path)[index]? = some item.sourceEntry := by
  rw [← sources_projectPath env path, getElem?_map, h]
  rfl

theorem between_of_context (hnodup : (path.map Entry.id).Nodup)
    (hassistant : call.isCompaction = false)
    (hpath : path = before ++ call :: (between ++ result :: after))
    (hcall : (contextEntriesOfPath path)[j]? = some call)
    (hentry : (contextEntriesOfPath path)[k]? = some entry)
    (hresult : (contextEntriesOfPath path)[i]? = some result) (hjk : j < k) (hki : k < i) :
    entry ∈ between := by
  have hpathNodup := hnodup.of_map
  rcases contextEntries_sublist path hnodup with hsub | ⟨compaction, rest, heq, hcomp, hsub⟩
  · exact between_of_sublist hsub hpathNodup hpath hcall hentry hresult hjk hki
  · rw [heq] at hcall hentry hresult
    cases j with
    | zero =>
      rw [getElem?_cons_zero, some.injEq] at hcall
      rw [← hcall, hcomp] at hassistant
      simp at hassistant
    | succ j =>
      obtain ⟨k, rfl⟩ : ∃ m, k = m + 1 := ⟨k - 1, by omega⟩
      obtain ⟨i, rfl⟩ : ∃ m, i = m + 1 := ⟨i - 1, by omega⟩
      rw [getElem?_cons_succ] at hcall hentry hresult
      exact between_of_sublist hsub hpathNodup hpath hcall hentry hresult (by omega) (by omega)

/-- A cut point keeps the call of every tool result that it shows. -/
theorem cut_keeps_calls (env : Environment) (stringify : Value → String) (path : List Entry)
    (hnodup : (path.map Entry.id).Nodup) (start stop : Nat) (keepRecentTokens : Int)
    (cut : CutPointResult)
    (hcut : findProjectedCutPoint env stringify (projectPath env path).entries start stop
      keepRecentTokens = some cut) :
    ∀ i shown, cut.firstKeptEntryIndex ≤ i → i < stop →
      (projectPath env path).entries[i]? = some shown → shown.messages ≠ [] →
      ∀ call, AnswersDirectly env path call shown.sourceEntry →
        ∀ j item, start ≤ j → j < cut.firstKeptEntryIndex →
          (projectPath env path).entries[j]? = some item → item.sourceEntry ≠ call := by
  rintro i shown hkept hstop hshown hvisible call hanswers j item hstart hcutAway hitem rfl
  obtain ⟨before, between, after, hpath, ⟨message, answer, hcall, hresult, -⟩, hbetween⟩ := hanswers
  rcases cut_cases hcut with hfirst | ⟨chosen, visible, hle, hchosen, hany, hhidden⟩ | hnone
  · omega
  · rcases Nat.lt_trichotomy i chosen with hlt | heq | hgt
    · exact hvisible (hhidden i shown hkept hlt hshown)
    · -- The cut point shows no tool result.
      rw [heq, hchosen, some.injEq] at hshown
      have hno := no_cutPoint_projected (mem_of_getElem? hchosen)
        (no_cutPoint_of_toolResult (hshown ▸ hresult))
      rw [hno] at hany
      simp at hany
    · have hassistant : item.sourceEntry.isCompaction = false := by
        rw [Entry.isCompaction, hcall]
      have hmem := between_of_context hnodup hassistant hpath (source_at hitem)
        (source_at hchosen) (source_at hshown) (by omega) hgt
      have hno : visible.messages.any isCutPointMessage = false := by
        refine no_cutPoint_projected (mem_of_getElem? hchosen) ?_
        rcases hbetween _ hmem with ⟨other, hother⟩ | hempty
        · exact no_cutPoint_of_toolResult hother
        · simp [hempty]
      rw [hno] at hany
      simp at hany
  · exact hvisible (hnone i shown hkept hstop hshown)

def sampleEntry (id : String) (message : Message) : Entry := ⟨id, none, "t", .message message⟩

/-- A request, a tool call and its result. -/
def samplePath : List Entry :=
  [sampleEntry "a" (.user ⟨.text "read it", 0⟩),
    sampleEntry "b" (.assistant {
      content := .blocks [.toolCall { id := "c", name := "read", arguments := [] }]
      api := ""
      provider := ""
      model := ""
      usage := zeroUsage
      stopReason := .toolUse
      timestamp := 0 }),
    sampleEntry "c" (.toolResult {
      toolCallId := "c"
      toolName := "read"
      content := .blocks [.text "content" none]
      isError := false
      timestamp := 0 })]

theorem cut_keeps_calls_sample : (samplePath.map Entry.id).Nodup ∧
    ∀ i shown, 1 ≤ i → i < 3 →
      (projectPath plainEnvironment samplePath).entries[i]? = some shown → shown.messages ≠ [] →
      ∀ call, AnswersDirectly plainEnvironment samplePath call shown.sourceEntry →
        ∀ j item, 0 ≤ j → j < 1 →
          (projectPath plainEnvironment samplePath).entries[j]? = some item →
          item.sourceEntry ≠ call :=
  ⟨by decide, cut_keeps_calls plainEnvironment (fun _ => "{}") samplePath (by decide) 0 3 1
    ⟨1, some 0, true⟩ (by decide)⟩

end Pidrei.CompactionCut
