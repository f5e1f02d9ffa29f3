import Pidrei.CompactionCut
import Pidrei.CompactionEffect

/-!
A compaction splits the conversation: what the summarizer gets and what the
projection retains after the append are the conversation before it. Both sides
are read off the context entries of the branch; the boundary is one of them, and
the entries from it on are those that the new context keeps.
-/
namespace Pidrei.CompactionPartition

open Values Messages SessionEntries SessionManager SessionInvariant ContextProjection List
open BranchExtraction CompactionEffect Compaction CompactionCut ParentLog TreeNode

def nonSystem (messages : List Message) : List Message := messages.filter (!Message.isSystem ·)

/-- The projected conversation behind the newest compaction summary. -/
def conversation (projection : SessionProjection) : List Message :=
  nonSystem ((projection.entries.drop (boundaryStart projection.entries)).flatMap
    ProjectedSessionEntry.messages)

/-- What an entry adds to the conversation. -/
def spoken (env : Environment) (path : List Entry) (entry : Entry) : List Message :=
  nonSystem (contributed env (contextEdits path) entry)

theorem nonSystem_flatMap {α : Type} (f : α → List Message) (xs : List α) :
    nonSystem (xs.flatMap f) = xs.flatMap (fun x => nonSystem (f x)) := filter_flatMap

/-! ### The context entries of a branch -/

section Context

variable {env : Environment} {path : List Entry} {index : Nat} {item : ProjectedSessionEntry}
  {before after : List Entry}

theorem entry_at (h : (projectPath env path).entries[index]? = some item) :
    item.messages = projectedMessages env (contextEdits (contextEntriesOfPath path)) index
      item.sourceEntry := by
  simp only [projectPath, getElem?_map, getElem?_zipIdx, Option.map_map] at h
  obtain ⟨source, -, rfl⟩ := Option.map_eq_some_iff.mp h
  simp

theorem messages_at (hfollow : EditsFollow path) (hnodup : (path.map Entry.id).Nodup)
    (h : (projectPath env path).entries[index]? = some item)
    (hindex : 0 < index ∨ item.sourceEntry.isCompaction = false) :
    item.messages = contributed env (contextEdits path) item.sourceEntry := by
  cases hcomp : item.sourceEntry.isCompaction with
  | false => exact projected_messages hfollow hnodup item (mem_of_getElem? h) hcomp
  | true =>
    have hpos : 0 < index := by simpa [hcomp] using hindex
    rw [entry_at h, projectedMessages, contributed]
    simp [hcomp, hpos]

variable {compaction : Entry}

theorem no_edit_of_compaction (hfollow : EditsFollow path) (hnodup : (path.map Entry.id).Nodup)
    (hcomp : compaction.isCompaction = true) (hmem : compaction ∈ path) {entries : List Entry}
    (hsub : entries ⊆ path) : lastEdit compaction.id entries = none := by
  refine lastEdit_eq_none _ _ fun edit hedit => ?_
  unfold editOf
  split
  · rename_i targetId replacement hpayload
    split
    · rename_i htarget
      obtain ⟨before, after, hsplit⟩ := append_of_mem (hsub hedit)
      obtain ⟨target, htargetMem, hid, heditable⟩ :=
        hfollow before edit after targetId replacement hsplit hpayload
      have hmem' : target ∈ path := by
        rw [hsplit]
        exact mem_append_left _ htargetMem
      obtain rfl := inj_on_of_nodup_map hnodup hmem' hmem (hid.trans htarget)
      unfold Entry.isCompaction at hcomp
      split at hcomp
      · rename_i hcompaction
        simp [isEditable, hcompaction] at heditable
      · simp at hcomp
    · rfl
  · rfl

theorem contextEntries_some (hnodup : ((before ++ compaction :: after).map Entry.id).Nodup)
    (hcomp : compaction.isCompaction = true)
    (hafter : ∀ entry ∈ after, entry.isCompaction = false) :
    ∃ firstKept, contextEntriesOfPath (before ++ compaction :: after) =
      compaction :: retained before after firstKept := by
  obtain ⟨firstKept, hkept⟩ := exists_firstKept hcomp
  have hfresh : compaction.id ∉ before.map Entry.id := by
    rw [map_append, map_cons, nodup_append] at hnodup
    exact fun hmem => hnodup.2.2 _ hmem _ mem_cons_self rfl
  exact ⟨firstKept, contextEntriesOfPath_some before after compaction firstKept hkept hcomp
    hafter hfresh⟩

theorem retained_subset (before after : List Entry) (compaction : Entry) (firstKept : String) :
    compaction :: retained before after firstKept ⊆ before ++ compaction :: after := by
  intro entry hentry
  rw [retained, mem_cons, mem_append, mem_filter] at hentry
  rcases hentry with rfl | ⟨hkept, -⟩ | hafter
  · simp
  · exact mem_append_left _ ((dropWhile_suffix _).subset hkept)
  · simp [hafter]

theorem prevCompactionIndex_some {before after : List Entry} {compaction : Entry}
    (hfollow : EditsFollow (before ++ compaction :: after))
    (hnodup : ((before ++ compaction :: after).map Entry.id).Nodup)
    (hcomp : compaction.isCompaction = true)
    (hafter : ∀ entry ∈ after, entry.isCompaction = false) :
    prevCompactionIndex (projectPath env (before ++ compaction :: after)).entries = some 0 ∧
      ((projectPath env (before ++ compaction :: after)).entries[0]?).map
        ProjectedSessionEntry.sourceEntry = some compaction := by
  obtain ⟨firstKept, hcontext⟩ := contextEntries_some hnodup hcomp hafter
  have hedit := no_edit_of_compaction hfollow hnodup hcomp (by simp)
    (retained_subset before after compaction firstKept)
  rw [lastEdit] at hedit
  have hmessages : (projectContextEntry env compaction none).isEmpty = false := by
    unfold Entry.isCompaction at hcomp
    split at hcomp
    · rename_i hpayload
      simp [projectContextEntry, sessionEntryToContextMessages, hpayload]
    · simp at hcomp
  rw [prevCompactionIndex, projectPath, hcontext, zipIdx_cons, map_cons, findIdx?_cons]
  simp [projectedMessages, hedit, hcomp, hmessages]

theorem boundaryStart_some (hfollow : EditsFollow (before ++ compaction :: after))
    (hnodup : ((before ++ compaction :: after).map Entry.id).Nodup)
    (hcomp : compaction.isCompaction = true)
    (hafter : ∀ entry ∈ after, entry.isCompaction = false) :
    boundaryStart (projectPath env (before ++ compaction :: after)).entries = 1 := by
  rw [boundaryStart, (prevCompactionIndex_some hfollow hnodup hcomp hafter).1]

theorem spoken_slice (hfollow : EditsFollow path) (hnodup : (path.map Entry.id).Nodup)
    {items : List ProjectedSessionEntry}
    (hitems : ∀ item ∈ items, ∃ index, boundaryStart (projectPath env path).entries ≤ index ∧
      (projectPath env path).entries[index]? = some item) :
    nonSystem (items.flatMap ProjectedSessionEntry.messages) =
        (items.map ProjectedSessionEntry.sourceEntry).flatMap (spoken env path) ∧
      items.flatMap messagesForCompaction =
        (items.map ProjectedSessionEntry.sourceEntry).flatMap (spoken env path) := by
  have hmessages : ∀ item ∈ items,
      item.messages = contributed env (contextEdits path) item.sourceEntry := by
    intro item hitem
    obtain ⟨index, hstart, hat⟩ := hitems item hitem
    refine messages_at hfollow hnodup hat ?_
    rcases exists_latestCompaction path with hnone | ⟨before, compaction, after, rfl, hcomp, hafter⟩
    · right
      refine hnone _ ?_
      rw [← contextEntriesOfPath_none path hnone, ← sources_projectPath env path]
      exact mem_map_of_mem (mem_of_getElem? hat)
    · rw [boundaryStart_some hfollow hnodup hcomp hafter] at hstart
      exact .inl hstart
  constructor
  · rw [nonSystem_flatMap, flatMap_map]
    exact flatMap_congr fun item hitem => by rw [hmessages item hitem]; rfl
  · rw [flatMap_map]
    refine flatMap_congr fun item hitem => ?_
    unfold messagesForCompaction spoken
    rw [hmessages item hitem, contributed]
    split <;> rfl

end Context

/-! ### The entries from the boundary on -/

variable {xs entries path : List Entry} {env : Environment} {cut stop : Nat}
   {stringify : Value → String} {compaction : Entry}

theorem fromId_append_of_notMem {id : String} (h : id ∉ xs.map Entry.id) (ys : List Entry) :
    fromId id (xs ++ ys) = fromId id ys := by
  induction xs with
  | nil => rfl
  | cons x xs ih =>
    rw [map_cons, mem_cons, not_or] at h
    have hne : x.id ≠ id := Ne.symm h.1
    rw [← ih h.2]
    simp [fromId, hne]

variable {entry : Entry} {index start : Nat}

theorem fromId_append_of_mem_right {ys : List Entry} (hnodup : ((xs ++ ys).map Entry.id).Nodup)
    (h : entry ∈ ys) : fromId entry.id (xs ++ ys) = fromId entry.id ys := by
  refine fromId_append_of_notMem (fun hmem => ?_) ys
  rw [map_append, nodup_append] at hnodup
  exact hnodup.2.2 _ hmem _ (mem_map_of_mem h) rfl

theorem filter_fromId_at (hnodup : (entries.map Entry.id).Nodup) (p : Entry → Bool)
    (h : (entries.filter p)[index]? = some entry) :
    (fromId entry.id entries).filter p = (entries.filter p).drop index := by
  induction entries generalizing index with
  | nil => simp at h
  | cons x xs ih =>
    rw [map_cons, nodup_cons] at hnodup
    have hlater : ∀ index : Nat, (xs.filter p)[index]? = some entry →
        fromId entry.id (x :: xs) = fromId entry.id xs := by
      intro index hindex
      have hmem := (mem_filter.mp (mem_of_getElem? hindex)).1
      have hne : x.id ≠ entry.id := fun heq => hnodup.1 (heq ▸ mem_map_of_mem hmem)
      simp [fromId, hne]
    cases hx : p x with
    | false =>
      rw [filter_cons_of_neg (by simp [hx])] at h ⊢
      rw [hlater index h, ih hnodup.2 h]
    | true =>
      rw [filter_cons_of_pos hx] at h ⊢
      cases index with
      | zero =>
        rw [getElem?_cons_zero, Option.some.injEq] at h
        subst h
        simp [fromId, hx]
      | succ index =>
        rw [getElem?_cons_succ] at h
        rw [hlater index h, ih hnodup.2 h, drop_succ_cons]

theorem fromId_at (hnodup : (entries.map Entry.id).Nodup) (h : entries[index]? = some entry) :
    fromId entry.id entries = entries.drop index := by
  have hall : (entries.filter fun _ => true)[index]? = some entry := by
    rw [filter_true]
    exact h
  have hfilter := filter_fromId_at hnodup _ hall
  simpa using hfilter

theorem spoken_system (h : entry.isSystem = true) : spoken env path entry = [] := by
  obtain ⟨id, parentId, timestamp, payload⟩ := entry
  cases payload with
  | message m =>
    have hown : (withContent m).isSystem = true := by rw [isSystem_withContent]; exact h
    unfold spoken nonSystem
    rw [filter_eq_nil_iff]
    intro message hmessage
    simp only [contributed, Entry.isCompaction, Bool.false_eq_true, if_false, projectContextEntry,
      sessionEntryToContextMessages] at hmessage
    split at hmessage
    · simp_all
    · simp at hmessage
    · simp only [map_cons, map_nil, mem_singleton] at hmessage
      rw [hmessage, isSystem_replaceContent, hown]
      simp
  | _ => simp [Entry.isSystem] at h

theorem spoken_compaction (h : entry.isCompaction = true) : spoken env path entry = [] := by
  simp [spoken, contributed, h, nonSystem]

theorem flatMap_spoken_filter (env : Environment) (path entries : List Entry) :
    (entries.filter (!Entry.isSystem ·)).flatMap (spoken env path) =
      entries.flatMap (spoken env path) := by
  induction entries with
  | nil => rfl
  | cons entry rest ih =>
    cases h : entry.isSystem with
    | true => simp [h, ih, spoken_system h]
    | false => simp [h, ih]

theorem spoken_fromId (env : Environment)
    (hnodup : (path.map Entry.id).Nodup)
    (hindex : ∀ first, (contextEntriesOfPath path).head? = some first →
      first.isCompaction = true → 0 < index)
    (h : (contextEntriesOfPath path)[index]? = some entry) :
    (fromId entry.id path).flatMap (spoken env path) =
      ((contextEntriesOfPath path).drop index).flatMap (spoken env path) := by
  rcases exists_latestCompaction path with hnone | ⟨before, compaction, after, rfl, hcomp, hafter⟩
  · rw [contextEntriesOfPath_none path hnone] at h ⊢
    rw [fromId_at hnodup h]
  · obtain ⟨firstKept, hcontext⟩ := contextEntries_some hnodup hcomp hafter
    rw [hcontext] at h hindex ⊢
    obtain ⟨index, rfl⟩ : ∃ m, index = m + 1 :=
      ⟨index - 1, by have := hindex compaction rfl hcomp; omega⟩
    rw [getElem?_cons_succ, retained] at h
    rw [drop_succ_cons, retained]
    obtain ⟨pre, hpre⟩ := fromId_suffix firstKept before
    generalize fromId firstKept before = kept at h hpre ⊢
    subst hpre
    rw [append_assoc] at hnodup ⊢
    have htail : ((kept ++ compaction :: after).map Entry.id).Nodup := by
      rw [map_append] at hnodup
      exact (nodup_append.mp hnodup).2.1
    have hkeptNodup : (kept.map Entry.id).Nodup := by
      rw [map_append] at htail
      exact (nodup_append.mp htail).1
    by_cases hlt : index < (kept.filter (!Entry.isSystem ·)).length
    · -- The boundary was kept by the compaction, which stands behind it on the branch.
      rw [getElem?_append_left hlt] at h
      have hmem : entry ∈ kept := (mem_filter.mp (mem_of_getElem? h)).1
      rw [fromId_append_of_mem_right hnodup (mem_append_left _ hmem),
        fromId_append_of_mem _ _ _ (mem_map_of_mem hmem), drop_append_of_le_length (by omega),
        flatMap_append, flatMap_append, flatMap_cons, spoken_compaction hcomp, nil_append,
        ← filter_fromId_at hkeptNodup _ h, flatMap_spoken_filter]
    · rw [getElem?_append_right (by omega)] at h
      have hmem := mem_of_getElem? h
      have hsplit : pre ++ (kept ++ compaction :: after) = (pre ++ kept ++ [compaction]) ++ after := by
        simp
      rw [hsplit] at hnodup ⊢
      have hafterNodup : (after.map Entry.id).Nodup := by
        rw [map_append] at hnodup
        exact (nodup_append.mp hnodup).2.1
      have hnone : (kept.filter (!Entry.isSystem ·)).drop index = [] :=
        drop_eq_nil_of_le (by omega)
      rw [fromId_append_of_mem_right hnodup hmem, fromId_at hafterNodup h, drop_append, hnone,
        nil_append]

/-! ### The preparation -/

theorem findTurnStart_bounds {startsTurn : Nat → Bool} {found : Nat}
    (h : findTurnStart startsTurn start index = some found) : start ≤ found ∧ found ≤ index := by
  induction index with
  | zero =>
    unfold findTurnStart at h
    split at h
    · rename_i hzero
      simp only [Bool.and_eq_true, decide_eq_true_eq] at hzero
      cases h
      omega
    · simp at h
  | succ index ih =>
    unfold findTurnStart at h
    split at h
    · simp at h
    · split at h
      · cases h
        omega
      · obtain ⟨hlow, hhigh⟩ := ih h
        omega

theorem cutPointResult_bounds (startsTurn : Nat → Bool) (h : start ≤ cut) :
    start ≤ (cutPointResult startsTurn start cut).firstKeptEntryIndex ∧
      ((cutPointResult startsTurn start cut).isSplitTurn = true →
        start ≤ (cutPointResult startsTurn start cut).turnStartIndex.getD 0 ∧
          (cutPointResult startsTurn start cut).turnStartIndex.getD 0 ≤
            (cutPointResult startsTurn start cut).firstKeptEntryIndex) := by
  unfold cutPointResult
  split
  · exact ⟨h, by simp⟩
  · refine ⟨h, fun hsplit => ?_⟩
    obtain ⟨found, hfound⟩ := Option.isSome_iff_exists.mp hsplit
    dsimp only
    rw [hfound, Option.getD_some]
    exact findTurnStart_bounds hfound

theorem cut_bounds {entries : List ProjectedSessionEntry} {keep : Int} {cut : CutPointResult}
    (h : findProjectedCutPoint env stringify entries start stop keep = some cut) :
    start ≤ cut.firstKeptEntryIndex ∧ (cut.isSplitTurn = true →
      start ≤ cut.turnStartIndex.getD 0 ∧ cut.turnStartIndex.getD 0 ≤ cut.firstKeptEntryIndex) := by
  unfold findProjectedCutPoint at h
  rcases searchCutPoint_cases h with rfl | ⟨chosen, exceeded, hstart, -, -, rfl⟩
  · exact ⟨Nat.le_refl _, by simp⟩
  · refine cutPointResult_bounds _ (moveBack_ge _ ?_)
    split <;> omega

theorem slice_append (entries : List ProjectedSessionEntry) {middle : Nat}
    (hstart : start ≤ middle) (hstop : middle ≤ stop) :
    slice entries start middle ++ slice entries middle stop = slice entries start stop := by
  unfold slice
  rw [drop_take, drop_take, drop_take]
  have hsplit := take_add (i := middle - start) (j := stop - middle) (l := entries.drop start)
  rw [drop_drop] at hsplit
  rw [show stop - start = middle - start + (stop - middle) by omega, hsplit,
    show start + (middle - start) = middle by omega]

theorem prepareProjection_spec {projection : SessionProjection} {pathEntries : List Entry}
    {settings : CompactionSettings} {prep : CompactionPreparation}
    (h : prepareProjection env stringify projection pathEntries settings = some (some prep)) :
    ∃ cut firstKept, boundaryStart projection.entries ≤ cut ∧
      projection.entries[cut]? = some firstKept ∧
      prep.firstKeptEntryId = firstKept.sourceEntry.id ∧
      prep.messagesToSummarize ++ prep.turnPrefixMessages =
        (slice projection.entries (boundaryStart projection.entries) cut).flatMap
          messagesForCompaction ∧
      prep.messagesToSummarize ++ prep.turnPrefixMessages ≠ [] := by
  unfold prepareProjection at h
  dsimp only at h
  obtain ⟨estimate, -, h⟩ := Option.bind_eq_some_iff.mp h
  obtain ⟨cut, hcut, h⟩ := Option.bind_eq_some_iff.mp h
  obtain ⟨hstart, hturn⟩ := cut_bounds hcut
  split at h
  · simp at h
  rename_i firstKept hkept
  split at h
  · simp at h
  split at h
  · simp at h
  rename_i hsome
  obtain ⟨fileOps, -, h⟩ := Option.bind_eq_some_iff.mp h
  simp only [Option.pure_def, Option.some.injEq] at h
  subst h
  refine ⟨cut.firstKeptEntryIndex, firstKept, hstart, hkept, rfl, ?_, ?_⟩
  · unfold historyMessages prefixMessages
    cases hsplit : cut.isSplitTurn with
    | false => simp
    | true =>
      obtain ⟨hlow, hhigh⟩ := hturn hsplit
      simp only [if_true]
      rw [← flatMap_append, slice_append _ hlow hhigh]
  · simpa [List.isEmpty_iff] using hsome

/-! ### The branch as a list of its own -/

theorem nodup_index_keys (hnodup : (path.map Entry.id).Nodup) :
    ((path.map fun entry => (entry.id, entry)).map Prod.fst).Nodup := by
  simpa [map_map, Function.comp_def] using hnodup

theorem buildEntryIndex_eq (hnodup : (path.map Entry.id).Nodup) :
    buildEntryIndex path = ⟨path.map fun entry => (entry.id, entry), nodup_index_keys hnodup⟩ :=
  OrderedMap.ofList_entries (⟨_, nodup_index_keys hnodup⟩ : OrderedMap String Entry)

theorem get?_buildEntryIndex (hnodup : (path.map Entry.id).Nodup) (h : entry ∈ path) :
    (buildEntryIndex path).get? entry.id = some entry := by
  rw [buildEntryIndex_eq hnodup, OrderedMap.get?_eq_some_iff_mem]
  exact mem_map.mpr ⟨entry, h, rfl⟩

theorem buildSessionPath_branch {s : Session} (h : Consistent env s) :
    buildSessionPath (getBranch s none) .unset (buildEntryIndex (getBranch s none)) =
      getBranch s none := by
  have hnodup := branch_nodup h
  have hsubset := branch_subset h
  rcases getBranch_rootPath h with hnil | ⟨leaf, -, hpath⟩
  · rw [hnil]
    exact followParents_none _
  · have hlast := hpath.getLast?_eq
    have hself : ∀ entry ∈ getBranch s none,
        findEntry (buildEntryIndex (getBranch s none)) (some entry.id) = some entry := by
      intro entry hentry
      have hne : entry.id ≠ "" := h.drawn.ne_empty (mem_ids (hsubset entry hentry))
      rw [findEntry, if_neg hne, get?_buildEntryIndex hnodup hentry]
    have hfollows : Follows (parentEntry (buildEntryIndex (getBranch s none)))
        (getBranch s none) := by
      intro entry _
      refine ⟨fun hnone => ?_, fun parent hparent hid => ?_⟩
      · change entry.parentId = none at hnone
        rw [parentEntry, hnone]
        rfl
      · change entry.parentId = some parent.id at hid
        rw [parentEntry, hid]
        exact hself parent hparent
    have hwithin := hpath.within fun _ hentry => hentry
    have hlength : (buildEntryIndex (getBranch s none)).entries.length =
        (getBranch s none).length := by
      rw [buildEntryIndex_eq hnodup, length_map]
    rw [buildSessionPath, hlast, followParents, walk_rootPath hfollows hwithin _ (by omega),
      append_nil]
    rfl

theorem conversation_eq (hfollow : EditsFollow path) (hnodup : (path.map Entry.id).Nodup) :
    conversation (projectPath env path) =
      ((contextEntriesOfPath path).drop (boundaryStart (projectPath env path).entries)).flatMap
        (spoken env path) := by
  have hitems : ∀ item ∈ (projectPath env path).entries.drop
      (boundaryStart (projectPath env path).entries), ∃ index,
        boundaryStart (projectPath env path).entries ≤ index ∧
          (projectPath env path).entries[index]? = some item := by
    intro item hitem
    obtain ⟨index, hindex⟩ := mem_iff_getElem?.mp hitem
    rw [getElem?_drop] at hindex
    exact ⟨_, Nat.le_add_right _ _, hindex⟩
  rw [conversation, (spoken_slice hfollow hnodup hitems).1, map_drop, sources_projectPath]

theorem contextEdits_concat_compaction (path : List Entry) (h : compaction.isCompaction = true) :
    contextEdits (path ++ [compaction]) = contextEdits path := by
  rw [contextEdits_eq, foldl_append, foldl_cons, foldl_nil, ← contextEdits_eq]
  unfold applyEdit
  split
  · rename_i hpayload
    simp [Entry.isCompaction, hpayload] at h
  · rfl

theorem conversation_compacted {firstKept : String} (hfollow : EditsFollow (path ++ [compaction]))
    (hnodup : ((path ++ [compaction]).map Entry.id).Nodup) (hcomp : compaction.isCompaction = true)
    (hkept : compaction.firstKeptEntryId = some firstKept) :
    conversation (projectPath env (path ++ [compaction])) =
      (fromId firstKept path).flatMap (spoken env path) := by
  have hsay : spoken env (path ++ [compaction]) = spoken env path := by
    funext entry
    rw [spoken, spoken, contextEdits_concat_compaction path hcomp]
  have hfresh : compaction.id ∉ path.map Entry.id := by
    rw [map_append, nodup_append] at hnodup
    exact fun hmem => hnodup.2.2 _ hmem _ (by simp) rfl
  rw [conversation_eq hfollow hnodup, boundaryStart_some hfollow hnodup hcomp (by simp),
    contextEntriesOfPath_some path [] compaction firstKept hkept hcomp (by simp) hfresh,
    drop_succ_cons, drop_zero, retained, append_nil, hsay, flatMap_spoken_filter]

theorem conversation_cut (hfollow : EditsFollow path) (hnodup : (path.map Entry.id).Nodup)
    {firstKept : ProjectedSessionEntry}
    (hstart : boundaryStart (projectPath env path).entries ≤ cut)
    (hcut : (projectPath env path).entries[cut]? = some firstKept) :
    (slice (projectPath env path).entries (boundaryStart (projectPath env path).entries)
        cut).flatMap messagesForCompaction ++
      (fromId firstKept.sourceEntry.id path).flatMap (spoken env path) =
      conversation (projectPath env path) := by
  have hitems : ∀ item ∈ slice (projectPath env path).entries
      (boundaryStart (projectPath env path).entries) cut, ∃ index,
        boundaryStart (projectPath env path).entries ≤ index ∧
          (projectPath env path).entries[index]? = some item := by
    intro item hitem
    obtain ⟨index, hindex⟩ := mem_iff_getElem?.mp hitem
    rw [slice, getElem?_drop] at hindex
    refine ⟨boundaryStart (projectPath env path).entries + index, Nat.le_add_right _ _, ?_⟩
    rw [getElem?_take] at hindex
    split at hindex
    · exact hindex
    · simp at hindex
  have hindex : ∀ first, (contextEntriesOfPath path).head? = some first →
      first.isCompaction = true → 0 < cut := by
    intro first hfirst hcomp
    rcases exists_latestCompaction path with hnone | ⟨before, compaction, after, rfl, hc, hafter⟩
    · rw [contextEntriesOfPath_none path hnone] at hfirst
      rw [hnone first (mem_of_head? hfirst)] at hcomp
      simp at hcomp
    · rw [boundaryStart_some hfollow hnodup hc hafter] at hstart
      exact hstart
  rw [(spoken_slice hfollow hnodup hitems).2, conversation_eq hfollow hnodup,
    spoken_fromId env hnodup hindex (source_at hcut), ← flatMap_append]
  congr 1
  rw [slice, map_drop, map_take, sources_projectPath, drop_take]
  obtain ⟨more, rfl⟩ := Nat.exists_eq_add_of_le hstart
  rw [Nat.add_sub_cancel_left, ← drop_drop, take_append_drop]

/-- A preparation and the compaction made from it split the conversation: what is summarized
and what the projection retains are, in order, the conversation before. -/
theorem compaction_partition {env : Environment} {s : Session} (h : Reachable env s)
    (stringify : Value → String) (settings : CompactionSettings) (prep : CompactionPreparation)
    (hprep : prepareCompaction env stringify (getBranch s none) settings = some (some prep))
    (now summary : String) (details : Value) (fromHook : Option Bool) (usage : Option Usage) :
    prep.messagesToSummarize ++ prep.turnPrefixMessages ++
        conversation (sessionProjection env (appendCompaction env s now summary
          (some prep.firstKeptEntryId) prep.tokensBefore details fromHook usage).1) =
      conversation (sessionProjection env s) ∧
    prep.messagesToSummarize ++ prep.turnPrefixMessages ≠ [] := by
  have hs := reachable_consistent h
  have hnodup := branch_nodup hs
  have hfollow := branch_editsFollow h
  rw [prepareCompaction] at hprep
  split at hprep
  · simp at hprep
  rw [buildSessionProjection, buildSessionPath_branch hs] at hprep
  obtain ⟨cut, firstKept, hstart, hcut, hid, hsummarized, hsome⟩ := prepareProjection_spec hprep
  refine ⟨?_, hsome⟩
  generalize hresult : appendCompaction env s now summary (some prep.firstKeptEntryId)
    prep.tokensBefore details fromHook usage = result
  obtain ⟨next, compaction⟩ := result
  have hreach : Reachable env next := h.step (.appendCompaction now summary
    (some prep.firstKeptEntryId) prep.tokensBefore details fromHook usage)
    (congrArg (fun result => Except.ok (appended result)) hresult)
  have hstep : AppendStep env s compaction next := by
    have hpayload := appendPayload_step env s now (fun id => .compaction summary
      ((some prep.firstKeptEntryId).getD id) prep.tokensBefore details usage fromHook
      (compactionSystemMessage env s now)) (by simp) (by simp)
    change AppendStep env s (appendCompaction env s now summary (some prep.firstKeptEntryId)
      prep.tokensBefore details fromHook usage).2 (appendCompaction env s now summary
      (some prep.firstKeptEntryId) prep.tokensBefore details fromHook usage).1 at hpayload
    rwa [hresult] at hpayload
  have hpayload := congrArg (fun result => result.2.payload) hresult
  have hparent := congrArg (fun result => result.2.parentId) hresult
  change Payload.compaction .. = compaction.payload at hpayload
  change s.leafId = compaction.parentId at hparent
  have hbranch := getBranch_append hs hstep hparent.symm
  have hcomp : compaction.isCompaction = true := by rw [Entry.isCompaction, ← hpayload]
  have hkept : compaction.firstKeptEntryId = some prep.firstKeptEntryId := by
    rw [Entry.firstKeptEntryId, ← hpayload]
    rfl
  have hfollow' := branch_editsFollow hreach
  have hnodup' := branch_nodup (reachable_consistent hreach)
  rw [hbranch] at hfollow' hnodup'
  rw [sessionProjection_eq hs, sessionProjection_eq (reachable_consistent hreach), hbranch,
    conversation_compacted hfollow' hnodup' hcomp hkept, hsummarized, hid,
    conversation_cut hfollow hnodup hstart hcut]

def twoRequests : Session :=
  run plainEnvironment (newSession ⟨"s", "t0", "/", none⟩ 0)
    [.appendMessage "t1" (.user ⟨.text "first", 1⟩),
      .appendMessage "t2" (.user ⟨.text "second", 2⟩)]

theorem compaction_partition_twoRequests :
    ∃ prep, prepareCompaction plainEnvironment (fun _ => "{}") (getBranch twoRequests none)
        ⟨true, 0, 1⟩ = some (some prep) ∧
      prep.messagesToSummarize ++ prep.turnPrefixMessages ++
          conversation (sessionProjection plainEnvironment (appendCompaction plainEnvironment
            twoRequests "t3" "summary" (some prep.firstKeptEntryId) prep.tokensBefore .null none
            none).1) =
        conversation (sessionProjection plainEnvironment twoRequests) := by
  have hsome : ((prepareCompaction plainEnvironment (fun _ => "{}") (getBranch twoRequests none)
      ⟨true, 0, 1⟩).bind id).isSome = true := by
    decide
  obtain ⟨prep, hbind⟩ := Option.isSome_iff_exists.mp hsome
  obtain ⟨inner, hprep, rfl⟩ := Option.bind_eq_some_iff.mp hbind
  exact ⟨prep, hprep, (compaction_partition ((Reachable.start ⟨"s", "t0", "/", none⟩ 0).run _)
    (fun _ => "{}") ⟨true, 0, 1⟩ prep hprep "t3" "summary" .null none none).1⟩

end Pidrei.CompactionPartition
