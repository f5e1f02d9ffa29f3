import Mathlib.Data.List.TakeWhile
import Pidrei.ContextProjection
import Pidrei.SessionInvariant

/-!
The entries of an extracted branch, described without the loop: the path without
its labels, each entry chained to the one before it, with a compaction boundary
on a label moved to the entry that stands for it. The new session is again
consistent, so every reachable session is.
-/
namespace Pidrei.BranchExtraction

open Values Messages SessionEntries SessionManager SessionInvariant ContextProjection List
open ParentLog TreeNode

def isKept (entry : Entry) : Bool := !entry.isLabel

def labelIds (entries : List Entry) : List String :=
  (entries.filter Entry.isLabel).map Entry.id

def nextKept (id : String) (entries : List Entry) : Option String :=
  ((fromId id entries).find? isKept).map Entry.id

/-- The boundary after extraction: a label before the compaction gives way to the kept
entry after it, or to the compaction itself. -/
def boundary (before : List Entry) (compactionId firstKept : String) : String :=
  if firstKept ∈ labelIds before then (nextKept firstKept before).getD compactionId
  else firstKept

def relinkEntry (before : List Entry) (parentId : Option String) (entry : Entry) : Entry :=
  { entry with
    parentId := parentId
    payload := match entry.payload with
      | .compaction summary firstKept tokensBefore details usage fromHook systemMessage =>
        .compaction summary (boundary before entry.id firstKept) tokensBefore details usage
          fromHook systemMessage
      | payload => payload }

/-- The kept copies of `rest`, which follows `before` on the path. -/
def relink (before : List Entry) (parentId : Option String) : List Entry → List Entry
  | [] => []
  | entry :: rest =>
    if entry.isLabel then relink (before ++ [entry]) parentId rest
    else relinkEntry before parentId entry :: relink (before ++ [entry]) (some entry.id) rest

theorem fromId_append_of_mem (id : String) (xs ys : List Entry) (h : id ∈ xs.map Entry.id) :
    fromId id (xs ++ ys) = fromId id xs ++ ys := by
  induction xs with
  | nil => simp at h
  | cons x xs ih =>
    by_cases hx : x.id = id
    · simp [fromId, hx]
    · have hmem : id ∈ xs.map Entry.id := by
        rcases mem_cons.mp h with heq | hmem
        · exact absurd heq.symm hx
        · exact hmem
      have hcons : ∀ zs, fromId id (x :: zs) = fromId id zs := by
        intro zs
        simp [fromId, hx]
      rw [cons_append, hcons, hcons, ih hmem]

theorem fromId_of_notMem (id : String) (xs : List Entry) (h : id ∉ xs.map Entry.id) :
    fromId id xs = [] := by
  rw [fromId, dropWhile_eq_nil_iff]
  intro x hx
  have hne : x.id ≠ id := fun heq => h (heq ▸ mem_map_of_mem hx)
  simpa using hne

variable {id : String} {env : Environment} {s : Session}

theorem mem_of_mem_labelIds {entries : List Entry} (h : id ∈ labelIds entries) :
    id ∈ entries.map Entry.id := by
  obtain ⟨entry, hentry, rfl⟩ := mem_map.mp h
  exact mem_map_of_mem (mem_filter.mp hentry).1

theorem labelIds_append (xs ys : List Entry) : labelIds (xs ++ ys) = labelIds xs ++ labelIds ys := by
  simp [labelIds]

theorem filter_fromId (entries : List Entry) (hnodup : (entries.map Entry.id).Nodup)
    (firstKept fallback : String) (hfallback : fallback ∉ entries.map Entry.id) :
    (fromId firstKept entries).filter isKept =
      fromId (boundary entries fallback firstKept) (entries.filter isKept) := by
  induction entries with
  | nil => rfl
  | cons entry rest ih =>
    simp only [map_cons, nodup_cons] at hnodup
    simp only [map_cons, mem_cons, not_or] at hfallback
    have hrest := ih hnodup.2 hfallback.2
    by_cases hid : entry.id = firstKept
    · have hwhole : fromId firstKept (entry :: rest) = entry :: rest := by simp [fromId, hid]
      have hnot : firstKept ∉ labelIds rest := fun hmem => hnodup.1 (hid ▸ mem_of_mem_labelIds hmem)
      cases hlabel : entry.isLabel with
      | true =>
        have hmem : firstKept ∈ labelIds (entry :: rest) := by simp [labelIds, hlabel, hid]
        have hfilter : (entry :: rest).filter isKept = rest.filter isKept := by
          simp [isKept, hlabel]
        rw [hwhole, hfilter, boundary, if_pos hmem, nextKept, hwhole]
        have hfind : (entry :: rest).find? isKept = rest.find? isKept := by simp [isKept, hlabel]
        rw [hfind]
        cases hfirst : rest.filter isKept with
        | nil => rfl
        | cons first others =>
          have hhead : rest.find? isKept = some first := by
            rw [← head?_filter, hfirst]
            rfl
          rw [hhead]
          simp [fromId]
      | false =>
        have hnotMem : firstKept ∉ labelIds (entry :: rest) := by
          simpa [labelIds, hlabel] using hnot
        rw [hwhole, boundary, if_neg hnotMem]
        have hkept : (entry :: rest).filter isKept = entry :: rest.filter isKept := by
          simp [isKept, hlabel]
        rw [hkept]
        simp [fromId, hid]
    · have hskip : fromId firstKept (entry :: rest) = fromId firstKept rest := by
        simp [fromId, hid]
      have hlabels : firstKept ∈ labelIds (entry :: rest) ↔ firstKept ∈ labelIds rest := by
        rw [← singleton_append, labelIds_append, mem_append]
        constructor
        · rintro (hmem | hmem)
          · have heq : firstKept = entry.id := by simpa using mem_of_mem_labelIds hmem
            exact absurd heq.symm hid
          · exact hmem
        · exact .inr
      have hboundary : boundary (entry :: rest) fallback firstKept =
          boundary rest fallback firstKept := by
        simp only [boundary, hlabels, nextKept, hskip]
      rw [hskip, hboundary, hrest]
      cases hlabel : entry.isLabel with
      | true => simp [isKept, hlabel]
      | false =>
        have hne : entry.id ≠ boundary rest fallback firstKept := by
          unfold boundary
          split
          · cases hnext : nextKept firstKept rest with
            | none => exact fun heq => hfallback.1 heq.symm
            | some next =>
              obtain ⟨found, hfound, rfl⟩ := Option.map_eq_some_iff.mp hnext
              have hmem : found ∈ rest :=
                (dropWhile_suffix _).subset (mem_of_find?_eq_some hfound)
              exact fun heq => hnodup.1 (heq ▸ mem_map_of_mem hmem)
          · exact hid
        have hkept : (entry :: rest).filter isKept = entry :: rest.filter isKept := by
          simp [isKept, hlabel]
        rw [hkept]
        simp [fromId, hne]

/-! The loop. -/

/-- What the loop has recorded about the labels before it. -/
structure LoopInvariant (done : List Entry) (state : Extraction) : Prop where
  replaced : ∀ id, state.replacementByLabelId.get? id =
    if id ∈ labelIds done then nextKept id done else none
  pending : ∀ id, id ∈ state.pendingLabelIds ↔ id ∈ labelIds done ∧ nextKept id done = none

theorem nextKept_append_of_mem {xs : List Entry} (h : id ∈ xs.map Entry.id) (ys : List Entry) :
    nextKept id (xs ++ ys) = (nextKept id xs).or ((ys.find? isKept).map Entry.id) := by
  rw [nextKept, fromId_append_of_mem id xs ys h, find?_append, nextKept]
  cases (fromId id xs).find? isKept <;> rfl

variable {done : List Entry} {state : Extraction} {entry : Entry}

theorem LoopInvariant.label (h : LoopInvariant done state) (hfresh : entry.id ∉ done.map Entry.id)
    (hlabel : entry.isLabel = true) :
    LoopInvariant (done ++ [entry]) (extractEntry state entry) := by
  have hstate : extractEntry state entry =
      { state with pendingLabelIds := state.pendingLabelIds ++ [entry.id] } := by
    rw [extractEntry, if_pos hlabel]
  have hlabels : labelIds [entry] = [entry.id] := by simp [labelIds, hlabel]
  have hold : ∀ id ∈ labelIds done, nextKept id (done ++ [entry]) = nextKept id done := by
    intro id hid
    rw [nextKept_append_of_mem (mem_of_mem_labelIds hid)]
    simp [isKept, hlabel]
  have hnew : nextKept entry.id (done ++ [entry]) = none := by
    have hdrop : ∀ (xs : List Entry), entry.id ∉ xs.map Entry.id →
        fromId entry.id (xs ++ [entry]) = [entry] := by
      intro xs hxs
      rw [fromId, dropWhile_append_of_pos]
      · simp
      · intro x hx
        have hne : x.id ≠ entry.id := fun heq => hxs (heq ▸ mem_map_of_mem hx)
        simpa using hne
    rw [nextKept, hdrop done hfresh]
    simp [isKept, hlabel]
  rw [hstate]
  constructor
  · intro id
    rw [labelIds_append, hlabels, h.replaced id]
    by_cases hid : id ∈ labelIds done
    · rw [if_pos hid, if_pos (mem_append_left _ hid), hold id hid]
    · rw [if_neg hid]
      split
      · rename_i hmem
        have heq : id = entry.id := by
          rcases mem_append.mp hmem with hmem | hmem
          · exact absurd hmem hid
          · exact mem_singleton.mp hmem
        rw [heq, hnew]
      · rfl
  · intro id
    rw [labelIds_append, hlabels, mem_append, mem_append, mem_singleton, h.pending id]
    constructor
    · rintro (⟨hid, hnone⟩ | rfl)
      · exact ⟨.inl hid, by rw [hold id hid, hnone]⟩
      · exact ⟨.inr rfl, hnew⟩
    · rintro ⟨hid | rfl, hnone⟩
      · exact .inl ⟨hid, by rw [← hold id hid, hnone]⟩
      · exact .inr rfl

theorem get?_insertAll_const (m : OrderedMap String String) (keys : List String) (value id : String) :
    (m.insertAll (keys.map (fun key => (key, value)))).get? id =
      if id ∈ keys then some value else m.get? id := by
  rw [OrderedMap.get?_insertAll, ← map_reverse]
  have hlookup : ∀ keys : List String, (keys.map (fun key => (key, value))).lookup id =
      if id ∈ keys then some value else none := by
    intro keys
    induction keys with
    | nil => rfl
    | cons key rest ih =>
      rw [map_cons, OrderedMap.lookup_cons_ite, ih]
      by_cases hkey : id = key <;> simp [hkey]
  rw [hlookup]
  by_cases hid : id ∈ keys <;> simp [hid]

theorem LoopInvariant.replacements (h : LoopInvariant done state) (id : String) :
    (state.replacementByLabelId.insertAll
      (state.pendingLabelIds.map (fun labelId => (labelId, entry.id)))).get? id =
      if id ∈ labelIds done then some ((nextKept id done).getD entry.id) else none := by
  rw [get?_insertAll_const, h.replaced id]
  by_cases hid : id ∈ labelIds done
  · have hpending := h.pending id
    rw [if_pos hid, if_pos hid]
    cases hnext : nextKept id done with
    | none => rw [if_pos (hpending.mpr ⟨hid, hnext⟩), Option.getD_none]
    | some next =>
      rw [hnext] at hpending
      rw [if_neg (fun hmem => by simpa using (hpending.mp hmem).2), Option.getD_some]
  · rw [if_neg hid, if_neg hid, if_neg (fun hmem => hid ((h.pending id).mp hmem).1)]

theorem LoopInvariant.kept (h : LoopInvariant done state) (hlabel : entry.isLabel = false) :
    LoopInvariant (done ++ [entry]) (extractEntry state entry) := by
  have hlabels : labelIds (done ++ [entry]) = labelIds done := by
    simp [labelIds, hlabel]
  have hnext : ∀ id ∈ labelIds done, nextKept id (done ++ [entry]) =
      some ((nextKept id done).getD entry.id) := by
    intro id hid
    rw [nextKept_append_of_mem (mem_of_mem_labelIds hid)]
    have hfind : [entry].find? isKept = some entry := by simp [isKept, hlabel]
    rw [hfind]
    cases nextKept id done <;> rfl
  rw [extractEntry, if_neg (by simp [hlabel])]
  constructor
  · intro id
    dsimp only
    rw [h.replacements id, hlabels]
    by_cases hid : id ∈ labelIds done
    · rw [if_pos hid, if_pos hid, hnext id hid]
    · rw [if_neg hid, if_neg hid]
  · intro id
    rw [hlabels]
    constructor
    · intro hmem
      simp at hmem
    · rintro ⟨hid, hnone⟩
      rw [hnext id hid] at hnone
      simp at hnone

theorem remapBoundary_eq (parentId : Option String)
    (replacements : OrderedMap String String) (hreplacements : ∀ id, replacements.get? id =
      if id ∈ labelIds done then some ((nextKept id done).getD entry.id) else none)
    (hfresh : entry.id ∉ done.map Entry.id) :
    { entry with parentId := parentId, payload := remapBoundary replacements entry } =
      relinkEntry done parentId entry := by
  have hself : entry.id ∉ labelIds done := fun hmem => hfresh (mem_of_mem_labelIds hmem)
  obtain ⟨id, _, timestamp, payload⟩ := entry
  cases payload with
  | compaction summary firstKept tokensBefore details usage fromHook systemMessage =>
    simp only [relinkEntry, remapBoundary, Entry.mk.injEq, Payload.compaction.injEq, true_and,
      and_true]
    dsimp only at hself hreplacements
    by_cases hid : firstKept = id
    · subst hid
      rw [if_pos rfl, boundary, if_neg hself]
    · rw [if_neg hid, hreplacements, boundary]
      split <;> rfl
  | _ => rfl

attribute [local simp] relink in
theorem extract_loop (path : List Entry) (hnodup : (path.map Entry.id).Nodup) :
    (extractPath path).kept = relink [] none path := by
  have hrun : ∀ done rest (state : Extraction), path = done ++ rest →
      LoopInvariant done state →
      (rest.foldl extractEntry state).kept = state.kept ++ relink done state.parentId rest := by
    intro done rest
    induction rest generalizing done with
    | nil => simp [relink]
    | cons entry rest ih =>
      intro state hsplit hinv
      have hfresh : entry.id ∉ done.map Entry.id := by
        rw [hsplit, map_append, map_cons, nodup_append] at hnodup
        exact fun hmem => hnodup.2.2 _ hmem _ mem_cons_self rfl
      have hsplit' : path = (done ++ [entry]) ++ rest := by simpa using hsplit
      cases hlabel : entry.isLabel with
      | true =>
        rw [foldl_cons, ih _ _ hsplit' (hinv.label hfresh hlabel), relink, if_pos hlabel,
          extractEntry, if_pos hlabel]
      | false =>
        have hne : ¬ entry.isLabel = true := by simp [hlabel]
        rw [foldl_cons, ih _ _ hsplit' (hinv.kept hlabel), relink, if_neg hne,
          extractEntry, if_neg hne]
        dsimp only
        rw [remapBoundary_eq state.parentId _ hinv.replacements hfresh, append_assoc]
        rfl
  have hstart : LoopInvariant [] ⟨[], OrderedMap.empty, [], none⟩ :=
    ⟨fun id => by simp [labelIds], fun id => by simp [labelIds]⟩
  have hresult := hrun [] path _ rfl hstart
  simpa [extractPath] using hresult

/-! The kept entries. -/

variable (before rest : List Entry)

theorem relink_ids (parentId : Option String) :
    (relink before parentId rest).map Entry.id = (rest.filter isKept).map Entry.id := by
  induction rest generalizing before parentId with
  | nil => rfl
  | cons entry rest ih =>
    cases hlabel : entry.isLabel with
    | true => simpa [relink, hlabel, isKept] using ih (before ++ [entry]) parentId
    | false => simpa [relink, hlabel, isKept, relinkEntry] using ih (before ++ [entry]) _

theorem ids_relink (parentId : Option String) :
    ids (relink before parentId rest) = (rest.filter isKept).map Entry.id :=
  relink_ids before rest parentId

theorem relink_linked (parentId : Option String) :
    Linked parentId (relink before parentId rest) := by
  induction rest generalizing before parentId with
  | nil => exact trivial
  | cons entry rest ih =>
    cases hlabel : entry.isLabel with
    | true => simpa [relink, hlabel] using ih (before ++ [entry]) parentId
    | false =>
      simp only [relink, hlabel, Bool.false_eq_true, if_false]
      exact ⟨rfl, ih (before ++ [entry]) (some entry.id)⟩

/-! The label entries. -/

/-- Label entries for the given targets, chained after `parentId`, with ids of their own. -/
structure LabelChain (env : Environment) (items : List (String × String)) (taken : List String)
    (parentId : Option String) (drawn : Nat) (result : List Entry × Nat) : Prop where
  payloads : result.1.map Entry.payload = items.map (fun item => .label item.1 (some item.2))
  linked : Linked parentId result.1
  nodup : (taken ++ ids result.1).Nodup
  ids : IdsDrawn env (ids result.1) result.2
  drawn : drawn ≤ result.2

theorem labelEntries_chain (env : Environment) (timestamps : OrderedMap String String)
    (items : List (String × String)) (taken : List String) (parentId : Option String)
    (drawn : Nat) (htaken : taken.Nodup) (hdrawn : IdsDrawn env taken drawn) :
    LabelChain env items taken parentId drawn
      (labelEntries env timestamps items taken parentId drawn) := by
  induction items generalizing taken parentId drawn with
  | nil => exact ⟨rfl, trivial, by simpa [labelEntries, ids] using htaken, nofun, Nat.le_refl _⟩
  | cons item rest ih =>
    obtain ⟨targetId, label⟩ := item
    obtain ⟨hfresh, hlt, hid⟩ := generateId_fresh env (fun other => other ∈ taken) drawn taken
      hdrawn (fun id hid => by simpa using hid)
    have hrest := ih (taken ++ [(generateId env (fun other => other ∈ taken) drawn).1])
      (some (generateId env (fun other => other ∈ taken) drawn).1)
      (generateId env (fun other => other ∈ taken) drawn).2
      (nodup_append.mpr ⟨htaken, by simp, by
        intro a ha b hb
        rw [mem_singleton.mp hb]
        rintro rfl
        exact hfresh ha⟩)
      ((hdrawn.mono (by omega)).append hid)
    have hnodup := hrest.nodup
    rw [append_assoc] at hnodup
    have hlater := hrest.drawn
    refine ⟨?_, ⟨rfl, hrest.linked⟩, hnodup, ?_, ?_⟩
    · simp only [labelEntries, map_cons, hrest.payloads]
    · intro id hmem
      rcases mem_cons.mp hmem with rfl | hmem
      · exact hid.mono hlater _ mem_cons_self
      · exact hrest.ids id hmem
    · simp only [labelEntries]
      omega

/-! The new session. -/

/-- What an extraction that succeeds has done. -/
structure Extracted (env : Environment) (s : Session) (header : SessionHeader) (leaf : Entry)
    (path labels : List Entry) (next : Session) : Prop where
  root : RootPath s.entries leaf path
  chain : ∃ drawn, LabelChain env
    (s.labelsById.entries.filter (fun item => item.1 ∈ (relink [] none path).map Entry.id))
    (ids (relink [] none path)) ((relink [] none path).getLast?.map Entry.id) s.drawn
    (labels, drawn) ∧ next = buildIndex header (relink [] none path ++ labels) drawn

theorem Extracted.of_ok {next : Session} (h : Consistent env s) {header : SessionHeader}
    {leafId : String} (hok : createBranchedSession env s header leafId = .ok next) :
    ∃ leaf path labels, leaf.id = leafId ∧ Extracted env s header leaf path labels next := by
  rw [createBranchedSession] at hok
  dsimp only at hok
  split at hok
  · cases hok
  · rename_i hpath
    have hfound : ∃ leaf ∈ s.entries, leaf.id = leafId := by
      by_contra hnone
      refine hpath ?_
      have hget : s.byId.get? leafId = none := by
        cases hget : s.byId.get? leafId with
        | none => rfl
        | some leaf => exact absurd ⟨leaf, (h.get?_eq_some_iff _ _).mp hget⟩ hnone
      simp [getBranch, findEntry, hget, followParents_none]
    obtain ⟨leaf, hleaf, rfl⟩ := hfound
    obtain ⟨path, hroot⟩ := h.grown.exists_rootPath hleaf
    have hids : (path.map Entry.id).Nodup := (hroot.sublist h.grown).map _ |>.nodup h.grown.nodup_ids
    rw [h.getBranch_eq hroot, extract_loop path hids] at hok
    refine ⟨leaf, path, _, rfl, hroot, _, ?_, (Except.ok.inj hok).symm⟩
    refine labelEntries_chain env _ _ _ _ _ ?_ ?_
    · rw [ids_relink]
      exact hids.sublist (filter_sublist.map _)
    · intro id hid
      rw [ids_relink] at hid
      obtain ⟨entry, hentry, rfl⟩ := mem_map.mp hid
      exact h.drawn _ (mem_ids (hroot.subset entry (mem_filter.mp hentry).1))

theorem createBranchedSession_isOk (h : Consistent env s) (header : SessionHeader) {leaf : Entry}
    (hleaf : leaf ∈ s.entries) : ∃ next, createBranchedSession env s header leaf.id = .ok next := by
  obtain ⟨path, hroot⟩ := h.grown.exists_rootPath hleaf
  have hne : path.isEmpty = false := by
    cases path with
    | nil => simpa using hroot.self_mem
    | cons => rfl
  rw [createBranchedSession, h.getBranch_eq hroot]
  dsimp only
  rw [if_neg (by simp [hne])]
  exact ⟨_, rfl⟩

section Extracted

variable {env : Environment} {s next : Session} {header : SessionHeader} {leaf : Entry}
  {path labels : List Entry}

theorem Extracted.nodup_path (h : Consistent env s)
    (hex : Extracted env s header leaf path labels next) : (path.map Entry.id).Nodup :=
  ((hex.root.sublist h.grown).map Entry.id).nodup h.grown.nodup_ids

theorem Extracted.entries_eq (hex : Extracted env s header leaf path labels next) :
    next.entries = relink [] none path ++ labels := by
  obtain ⟨drawn, -, rfl⟩ := hex.chain
  rfl

theorem Extracted.linked (hex : Extracted env s header leaf path labels next) :
    Linked none next.entries := by
  obtain ⟨drawn, hchain, rfl⟩ := hex.chain
  refine linked_append (relink_linked [] path none) ?_
  have hlinked := hchain.linked
  cases hlast : (relink [] none path).getLast? <;> rw [hlast] at hlinked <;> exact hlinked

theorem Extracted.nodup (hex : Extracted env s header leaf path labels next) :
    (ids next.entries).Nodup := by
  obtain ⟨drawn, hchain, -⟩ := hex.chain
  rw [hex.entries_eq, ids_append]
  exact hchain.nodup

theorem Extracted.consistent (h : Consistent env s)
    (hex : Extracted env s header leaf path labels next) : Consistent env next := by
  have hgrown := grown_of_linked hex.linked hex.nodup
  rw [hex.entries_eq] at hgrown
  obtain ⟨drawn, hchain, rfl⟩ := hex.chain
  refine consistent_buildIndex env header _ drawn hgrown ?_
  rw [ids_append]
  refine IdsDrawn.append ?_ hchain.ids
  intro id hid
  rw [ids_relink] at hid
  obtain ⟨entry, hentry, rfl⟩ := mem_map.mp hid
  exact h.drawn.mono hchain.drawn _ (mem_ids (hex.root.subset entry (mem_filter.mp hentry).1))

end Extracted

theorem reachable_consistent (h : Reachable env s) : Consistent env s := by
  induction h with
  | start header drawn => exact consistent_newSession env header drawn
  | step _ _ hop ih => exact perform_consistent ih hop
  | extract _ _ _ hextract ih =>
    obtain ⟨leaf, path, labels, -, hex⟩ := Extracted.of_ok ih hextract
    exact hex.consistent ih

end Pidrei.BranchExtraction
