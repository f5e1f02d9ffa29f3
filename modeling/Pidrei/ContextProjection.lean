import Pidrei.SessionEntries

/-!
The model context of a path, described without the loops. Without a compaction
every entry contributes its messages. With one, the context is the latest
compaction, the entries from its boundary on without system messages, and the
entries after it; only the latest compaction contributes its own messages.
-/
namespace Pidrei.ContextProjection

open Values Messages Transcript SessionEntries ParentLog TreeNode List

def fromId (id : String) (entries : List Entry) : List Entry :=
  entries.dropWhile (fun entry => entry.id ≠ id)

def contributed (env : Environment) (edits : OrderedMap String (Option Content)) (entry : Entry) :
    List Message :=
  if entry.isCompaction then [] else projectContextEntry env entry (edits.get? entry.id)

variable (path before after : List Entry) (env : Environment) (id : String)

theorem latestCompaction_concat (entry : Entry) : latestCompaction (path ++ [entry]) =
      if entry.isCompaction then some entry else latestCompaction path := by
  simp only [latestCompaction, foldl_append, foldl_cons, foldl_nil]

theorem latestCompaction_eq_none_iff :
    latestCompaction path = none ↔ ∀ entry ∈ path, entry.isCompaction = false := by
  induction path using reverseRecOn with
  | nil => simp [latestCompaction]
  | append_singleton path entry ih =>
    rw [latestCompaction_concat]
    cases hentry : entry.isCompaction with
    | true => simp [hentry]
    | false =>
      rw [if_neg (by simp), ih]
      constructor
      · intro h other hother
        rcases mem_append.mp hother with hpath | hlast
        · exact h other hpath
        · rw [mem_singleton.mp hlast, hentry]
      · exact fun h other hother => h other (mem_append_left _ hother)

theorem latestCompaction_eq_some (compaction : Entry)
    (hcompaction : compaction.isCompaction = true)
    (hafter : ∀ entry ∈ after, entry.isCompaction = false) :
    latestCompaction (before ++ compaction :: after) = some compaction := by
  induction after using reverseRecOn with
  | nil => rw [latestCompaction_concat, if_pos hcompaction]
  | append_singleton after entry ih =>
    have hentry : entry.isCompaction = false := hafter entry (by simp)
    have hassoc : before ++ compaction :: (after ++ [entry]) =
        (before ++ compaction :: after) ++ [entry] := by simp
    rw [hassoc, latestCompaction_concat, if_neg (by simp [hentry])]
    exact ih (fun other hother => hafter other (by simp [hother]))

theorem exists_latestCompaction : (∀ entry ∈ path, entry.isCompaction = false) ∨
      ∃ before compaction after, path = before ++ compaction :: after ∧
        compaction.isCompaction = true ∧ ∀ entry ∈ after, entry.isCompaction = false := by
  induction path using reverseRecOn with
  | nil => exact .inl (by simp)
  | append_singleton path entry ih =>
    cases hentry : entry.isCompaction with
    | true => exact .inr ⟨path, entry, [], rfl, hentry, by simp⟩
    | false =>
      rcases ih with hnone | ⟨before, compaction, after, rfl, hcompaction, hafter⟩
      · refine .inl fun other hother => ?_
        rcases mem_append.mp hother with hpath | hlast
        · exact hnone other hpath
        · rw [mem_singleton.mp hlast, hentry]
      · refine .inr ⟨before, compaction, after ++ [entry], by simp, hcompaction, ?_⟩
        intro other hother
        rcases mem_append.mp hother with hold | hlast
        · exact hafter other hold
        · rw [mem_singleton.mp hlast, hentry]

theorem keptEntries_found (firstKept : Option String) (entries : List Entry) :
    keptEntries firstKept true entries = entries.filter (fun entry => !entry.isSystem) := by
  induction entries with
  | nil => rfl
  | cons entry rest ih =>
    simp only [keptEntries, Bool.true_or, Bool.true_and, filter_cons, ih]

theorem keptEntries_eq (firstKept : String) (entries : List Entry) :
    keptEntries (some firstKept) false entries =
      (fromId firstKept entries).filter (fun entry => !entry.isSystem) := by
  induction entries with
  | nil => rfl
  | cons entry rest ih =>
    by_cases hid : entry.id = firstKept
    · have hdrop : fromId firstKept (entry :: rest) = entry :: rest := by simp [fromId, hid]
      rw [hdrop]
      simp only [keptEntries, hid, decide_true, Bool.or_true, Bool.true_and, filter_cons,
        keptEntries_found]
    · have hdrop : fromId firstKept (entry :: rest) = fromId firstKept rest := by
        simp [fromId, hid]
      rw [hdrop, ← ih]
      simp [keptEntries, hid]

theorem findIdx?_of_nodup (entry : Entry) (hfresh : entry.id ∉ before.map Entry.id) :
    (before ++ entry :: after).findIdx? (fun other => other.id = entry.id) =
      some before.length := by
  induction before with
  | nil => simp [findIdx?_cons]
  | cons other rest ih =>
    simp only [map_cons, mem_cons, not_or] at hfresh
    have hne : other.id ≠ entry.id := fun heq => hfresh.1 heq.symm
    rw [cons_append, findIdx?_cons, if_neg (by simp [hne]), ih hfresh.2]
    rfl

/-- The entries that follow the latest compaction in the context. -/
def retained (before after : List Entry) (firstKept : String) : List Entry :=
  (fromId firstKept before).filter (fun entry => !entry.isSystem) ++ after

theorem contextEntriesOfPath_none (h : ∀ entry ∈ path, entry.isCompaction = false) :
    contextEntriesOfPath path = path := by
  rw [contextEntriesOfPath, (latestCompaction_eq_none_iff path).mpr h]

theorem contextEntriesOfPath_some (compaction : Entry) (firstKept : String)
    (hkept : compaction.firstKeptEntryId = some firstKept)
    (hcompaction : compaction.isCompaction = true)
    (hafter : ∀ entry ∈ after, entry.isCompaction = false)
    (hfresh : compaction.id ∉ before.map Entry.id) :
    contextEntriesOfPath (before ++ compaction :: after) =
      compaction :: retained before after firstKept := by
  rw [contextEntriesOfPath, latestCompaction_eq_some before after compaction hcompaction hafter]
  dsimp only
  rw [findIdx?_of_nodup before after compaction hfresh]
  dsimp only
  rw [hkept, take_left', keptEntries_eq, retained]
  · have hdrop : (before ++ compaction :: after).drop (before.length + 1) = after := by
      rw [drop_append]
      simp
    rw [hdrop]
    rfl
  · rfl

theorem projectPath_messages (path : List Entry) : (projectPath env path).messages =
      (contextEntriesOfPath path).zipIdx.flatMap (fun item =>
        projectedMessages env (contextEdits (contextEntriesOfPath path)) item.2 item.1) := by
  simp only [projectPath, flatMap_map]

theorem flatMap_projectedMessages (edits : OrderedMap String (Option Content))
    (entries : List Entry) (start : Nat) (hstart : 0 < start) :
    (entries.zipIdx start).flatMap (fun item => projectedMessages env edits item.2 item.1) =
      entries.flatMap (contributed env edits) := by
  induction entries generalizing start with
  | nil => rfl
  | cons entry rest ih =>
    rw [zipIdx_cons, flatMap_cons, flatMap_cons, ih (start + 1) (by omega)]
    simp [projectedMessages, contributed, hstart]

theorem messages_cons (edits : OrderedMap String (Option Content)) (entry : Entry)
    (rest : List Entry) :
    (entry :: rest).zipIdx.flatMap (fun item => projectedMessages env edits item.2 item.1) =
      projectContextEntry env entry (edits.get? entry.id) ++
        rest.flatMap (contributed env edits) := by
  rw [zipIdx_cons, flatMap_cons, flatMap_projectedMessages env edits rest _ (by omega)]
  simp [projectedMessages]

theorem projectPath_messages_none (path : List Entry)
    (h : ∀ entry ∈ path, entry.isCompaction = false) :
    (projectPath env path).messages = path.flatMap (contributed env (contextEdits path)) := by
  rw [projectPath_messages, contextEntriesOfPath_none path h]
  cases path with
  | nil => rfl
  | cons entry rest =>
    rw [messages_cons, flatMap_cons]
    have hentry : entry.isCompaction = false := h entry mem_cons_self
    simp only [contributed, hentry, Bool.false_eq_true, if_false]

theorem projectPath_messages_some (before after : List Entry) (compaction : Entry)
    (firstKept : String) (hkept : compaction.firstKeptEntryId = some firstKept)
    (hcompaction : compaction.isCompaction = true)
    (hafter : ∀ entry ∈ after, entry.isCompaction = false)
    (hfresh : compaction.id ∉ before.map Entry.id) :
    (projectPath env (before ++ compaction :: after)).messages =
      projectContextEntry env compaction
          ((contextEdits (compaction :: retained before after firstKept)).get? compaction.id) ++
        (retained before after firstKept).flatMap
          (contributed env (contextEdits (compaction :: retained before after firstKept))) := by
  rw [projectPath_messages, contextEntriesOfPath_some before after compaction firstKept hkept
    hcompaction hafter hfresh, messages_cons]

theorem exists_firstKept {entry : Entry} (h : entry.isCompaction = true) :
    ∃ firstKept, entry.firstKeptEntryId = some firstKept := by
  unfold Entry.isCompaction at h
  unfold Entry.firstKeptEntryId
  split at h
  · exact ⟨_, rfl⟩
  · simp at h

/-! Edits. -/

def applyEdit (edits : OrderedMap String (Option Content)) (entry : Entry) :
    OrderedMap String (Option Content) :=
  match entry.payload with
  | .contextEdit targetId replacement => edits.set targetId replacement
  | _ => edits

theorem contextEdits_eq (entries : List Entry) :
    contextEdits entries = entries.foldl applyEdit OrderedMap.empty := rfl

def lastEdit (id : String) (entries : List Entry) : Option (Option Content) :=
  (contextEdits entries).get? id

def editOf (id : String) (entry : Entry) : Option (Option Content) :=
  match entry.payload with
  | .contextEdit targetId replacement => if targetId = id then some replacement else none
  | _ => none

theorem get?_applyEdit (edits : OrderedMap String (Option Content)) (entry : Entry) (id : String) :
    (applyEdit edits entry).get? id = (editOf id entry).or (edits.get? id) := by
  unfold applyEdit editOf
  split
  · rename_i targetId replacement _
    rw [OrderedMap.get?_set]
    by_cases h : targetId = id
    · simp [h]
    · simp [h, Ne.symm h]
  · simp

theorem lastEdit_append (xs ys : List Entry) :
    lastEdit id (xs ++ ys) = (lastEdit id ys).or (lastEdit id xs) := by
  induction ys using reverseRecOn with
  | nil => simp [lastEdit, contextEdits]
  | append_singleton ys entry ih =>
    have hsnoc : ∀ zs, lastEdit id (zs ++ [entry]) = (editOf id entry).or (lastEdit id zs) := by
      intro zs
      rw [lastEdit, contextEdits_eq, foldl_append, foldl_cons, foldl_nil, get?_applyEdit]
      rfl
    rw [← append_assoc, hsnoc, ih, hsnoc, Option.or_assoc]

theorem lastEdit_eq_none (entries : List Entry) (h : ∀ entry ∈ entries, editOf id entry = none) :
    lastEdit id entries = none := by
  induction entries using reverseRecOn with
  | nil => rfl
  | append_singleton entries entry ih =>
    rw [lastEdit, contextEdits_eq, foldl_append, foldl_cons, foldl_nil,
      get?_applyEdit, h entry (by simp), Option.none_or]
    exact ih (fun other hother => h other (by simp [hother]))

theorem lastEdit_filter (entries : List Entry) (p : Entry → Bool)
    (h : ∀ entry ∈ entries, p entry = false → editOf id entry = none) :
    lastEdit id (entries.filter p) = lastEdit id entries := by
  induction entries using reverseRecOn with
  | nil => rfl
  | append_singleton entries entry ih =>
    have hrest := ih (fun other hother => h other (by simp [hother]))
    rw [filter_append, lastEdit_append, lastEdit_append, hrest]
    cases hp : p entry with
    | true => simp [hp]
    | false =>
      have hnone := lastEdit_eq_none id [entry] (by
        intro other hother
        rw [mem_singleton.mp hother]
        exact h entry (by simp) hp)
      have hempty : [entry].filter p = [] := by simp [hp]
      rw [hempty, hnone]
      rfl

end Pidrei.ContextProjection
