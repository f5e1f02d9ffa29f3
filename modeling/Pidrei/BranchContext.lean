import Pidrei.BranchExtraction

/-!
An extracted branch has the context of the branch it was extracted from. What an
entry contributes does not depend on its parent or on where a compaction's
boundary is written, and labels contribute nothing, so two paths that agree up to
these project to the same messages and settings.
-/
namespace Pidrei.BranchContext

open Values Messages Transcript SessionEntries SessionManager SessionInvariant List
open ContextProjection BranchExtraction ParentLog TreeNode

/-- The entry without its place in the tree and without a compaction boundary. -/
def content (entry : Entry) : Entry :=
  { entry with
    parentId := none
    payload := match entry.payload with
      | .compaction summary _ tokensBefore details usage fromHook systemMessage =>
        .compaction summary "" tokensBefore details usage fromHook systemMessage
      | payload => payload }

/-- What two paths must agree on to have the same context. -/
def contents (entries : List Entry) : List Entry := (entries.filter isKept).map content

theorem content_id (entry : Entry) : (content entry).id = entry.id := rfl

theorem isLabel_content (entry : Entry) : (content entry).isLabel = entry.isLabel := by
  obtain ⟨id, parentId, timestamp, payload⟩ := entry
  cases payload <;> rfl

theorem isCompaction_content (entry : Entry) :
    (content entry).isCompaction = entry.isCompaction := by
  obtain ⟨id, parentId, timestamp, payload⟩ := entry
  cases payload <;> rfl

theorem isSystem_content (entry : Entry) : (content entry).isSystem = entry.isSystem := by
  obtain ⟨id, parentId, timestamp, payload⟩ := entry
  cases payload <;> rfl

variable (id : String) (settings : String × Option SessionContextModel)
   (before rest entries : List Entry)

theorem editOf_content (entry : Entry) : editOf id (content entry) = editOf id entry := by
  obtain ⟨entryId, parentId, timestamp, payload⟩ := entry
  cases payload <;> rfl

theorem contextSetting_content (entry : Entry) :
    contextSetting settings (content entry) = contextSetting settings entry := by
  obtain ⟨id, parentId, timestamp, payload⟩ := entry
  cases payload <;> rfl

theorem contextMessages_content (env : Environment) (entry : Entry) :
    sessionEntryToContextMessages env (content entry) =
      sessionEntryToContextMessages env entry := by
  obtain ⟨id, parentId, timestamp, payload⟩ := entry
  cases payload <;> rfl

theorem projectContextEntry_content (env : Environment) (entry : Entry)
    (edit : Option (Option Content)) :
    projectContextEntry env (content entry) edit = projectContextEntry env entry edit := by
  cases edit with
  | none => exact contextMessages_content env entry
  | some replacement =>
    cases replacement with
    | none => rfl
    | some text => simp only [projectContextEntry, contextMessages_content]

theorem contributed_content (env : Environment) (edits : OrderedMap String (Option Content))
    (entry : Entry) : contributed env edits (content entry) = contributed env edits entry := by
  simp only [contributed, isCompaction_content, projectContextEntry_content, content_id]

variable {edits edits' : OrderedMap String (Option Content)} {xs ys path labels : List Entry}
   {parentId : Option String} {env : Environment} {next : Session}

theorem contributed_congr (env : Environment) (h : ∀ id, edits.get? id = edits'.get? id)
    (entry : Entry) : contributed env edits entry = contributed env edits' entry := by
  simp only [contributed, h]

/-! Labels contribute nothing. -/

variable {entry : Entry}

theorem contributed_label (env : Environment) (edits : OrderedMap String (Option Content))
    (h : entry.isLabel = true) : contributed env edits entry = [] := by
  obtain ⟨id, parentId, timestamp, payload⟩ := entry
  cases payload with
  | label targetId label =>
    simp only [contributed, Entry.isCompaction, Bool.false_eq_true, if_false]
    cases edits.get? id with
    | none => rfl
    | some replacement => cases replacement <;> rfl
  | _ => simp [Entry.isLabel] at h

theorem editOf_label (h : entry.isLabel = true) : editOf id entry = none := by
  obtain ⟨entryId, parentId, timestamp, payload⟩ := entry
  cases payload with
  | label targetId label => rfl
  | _ => simp [Entry.isLabel] at h

theorem contextSetting_label (h : entry.isLabel = true) :
    contextSetting settings entry = settings := by
  obtain ⟨id, parentId, timestamp, payload⟩ := entry
  cases payload with
  | label targetId label => rfl
  | _ => simp [Entry.isLabel] at h

theorem isLabel_of_not_kept (h : isKept entry = false) : entry.isLabel = true := by
  simpa [isKept] using h

/-! Paths with the same contents. -/

theorem flatMap_contributed_contents (env : Environment)
    (edits : OrderedMap String (Option Content)) (entries : List Entry) :
    (contents entries).flatMap (contributed env edits) =
      entries.flatMap (contributed env edits) := by
  induction entries with
  | nil => rfl
  | cons entry rest ih =>
    cases hkept : isKept entry with
    | true =>
      have hcons : contents (entry :: rest) = content entry :: contents rest := by
        simp [contents, hkept]
      rw [hcons, flatMap_cons, flatMap_cons, ih, contributed_content]
    | false =>
      have hcons : contents (entry :: rest) = contents rest := by simp [contents, hkept]
      rw [hcons, flatMap_cons, ih, contributed_label env edits (isLabel_of_not_kept hkept),
        nil_append]

theorem lastEdit_contents (entries : List Entry) :
    lastEdit id (contents entries) = lastEdit id entries := by
  have hmap : ∀ entries : List Entry, lastEdit id (entries.map content) = lastEdit id entries := by
    intro entries
    induction entries using reverseRecOn with
    | nil => rfl
    | append_singleton entries entry ih =>
      have hlast : lastEdit id [content entry] = lastEdit id [entry] := by
        simp only [lastEdit, contextEdits_eq, foldl_cons, foldl_nil, get?_applyEdit, editOf_content]
      rw [map_append, lastEdit_append, lastEdit_append, ih, map_cons, map_nil, hlast]
  rw [contents, hmap]
  exact lastEdit_filter id entries isKept
    (fun entry _ hkept => editOf_label id (isLabel_of_not_kept hkept))

theorem lastEdit_of_contents (h : contents xs = contents ys) (id : String) :
    lastEdit id xs = lastEdit id ys := by
  rw [← lastEdit_contents id xs, h, lastEdit_contents]

theorem flatMap_of_contents (env : Environment) (h : contents xs = contents ys)
    (hedits : ∀ id, edits.get? id = edits'.get? id) :
    xs.flatMap (contributed env edits) = ys.flatMap (contributed env edits') := by
  have hfun : contributed env edits = contributed env edits' :=
    funext (contributed_congr env hedits)
  rw [← flatMap_contributed_contents env edits xs, h, hfun, flatMap_contributed_contents]

theorem settings_contents (entries : List Entry) :
    (contents entries).foldl contextSetting settings = entries.foldl contextSetting settings := by
  induction entries generalizing settings with
  | nil => rfl
  | cons entry rest ih =>
    cases hkept : isKept entry with
    | true =>
      have hcons : contents (entry :: rest) = content entry :: contents rest := by
        simp [contents, hkept]
      rw [hcons, foldl_cons, foldl_cons, contextSetting_content, ih]
    | false =>
      have hcons : contents (entry :: rest) = contents rest := by simp [contents, hkept]
      rw [hcons, ih, foldl_cons, contextSetting_label settings (isLabel_of_not_kept hkept)]

theorem contents_append (xs ys : List Entry) : contents (xs ++ ys) = contents xs ++ contents ys := by
  simp [contents]

theorem fromId_map_content (entries : List Entry) :
    fromId id (entries.map content) = (fromId id entries).map content := by
  induction entries with
  | nil => rfl
  | cons entry rest ih =>
    by_cases h : entry.id = id
    · simp [fromId, content_id, h]
    · have hcons : ∀ (e : Entry) es, e.id ≠ id → fromId id (e :: es) = fromId id es := by
        intro e es he
        simp [fromId, he]
      rw [map_cons, hcons _ _ h, hcons (content entry) _ h, ih]

theorem contents_of_labels (labels : List Entry) (h : ∀ entry ∈ labels, entry.isLabel = true) :
    contents labels = [] := by
  rw [contents, map_eq_nil_iff, filter_eq_nil_iff]
  intro entry hentry
  simp [isKept, h entry hentry]

/-! The kept copies have the contents of the path. -/

theorem content_relinkEntry (parentId : Option String) (entry : Entry) :
    content (relinkEntry before parentId entry) = content entry := by
  obtain ⟨id, oldParent, timestamp, payload⟩ := entry
  cases payload <;> rfl

theorem isLabel_relinkEntry (parentId : Option String) (entry : Entry) :
    (relinkEntry before parentId entry).isLabel = entry.isLabel := by
  rw [← isLabel_content, content_relinkEntry, isLabel_content]

theorem map_content_relink (parentId : Option String) :
    (relink before parentId rest).map content = contents rest := by
  induction rest generalizing before parentId with
  | nil => rfl
  | cons entry rest ih =>
    cases hlabel : entry.isLabel with
    | true =>
      have hrest := ih (before ++ [entry]) parentId
      simpa [relink, hlabel, contents, isKept] using hrest
    | false =>
      have hrest := ih (before ++ [entry]) (some entry.id)
      simpa [relink, hlabel, contents, isKept, content_relinkEntry] using hrest

theorem isKept_of_mem_relink {before rest : List Entry} (h : entry ∈ relink before parentId rest) :
    isKept entry = true := by
  have hmem : content entry ∈ contents rest := by
    rw [← map_content_relink before rest parentId]
    exact mem_map_of_mem h
  obtain ⟨source, hsource, heq⟩ := mem_map.mp hmem
  have hkept := (mem_filter.mp hsource).2
  simp only [isKept] at hkept ⊢
  rwa [← isLabel_content, ← heq, isLabel_content]

theorem filter_relink (parentId : Option String) :
    (relink before parentId rest).filter isKept = relink before parentId rest := by
  rw [filter_eq_self]
  exact fun entry hentry => isKept_of_mem_relink hentry

theorem contents_relink (parentId : Option String) :
    contents (relink before parentId rest) = contents rest := by
  rw [contents, filter_relink, map_content_relink]

theorem relink_append (before xs ys : List Entry) (parentId : Option String) :
    ∃ parentId', relink before parentId (xs ++ ys) =
      relink before parentId xs ++ relink (before ++ xs) parentId' ys := by
  induction xs generalizing before parentId with
  | nil => exact ⟨parentId, by simp [relink]⟩
  | cons x xs ih =>
    cases hlabel : x.isLabel with
    | true =>
      obtain ⟨parentId', h⟩ := ih (before ++ [x]) parentId
      exact ⟨parentId', by simpa [relink, hlabel] using h⟩
    | false =>
      obtain ⟨parentId', h⟩ := ih (before ++ [x]) (some x.id)
      exact ⟨parentId', by simpa [relink, hlabel] using h⟩

theorem isLabel_of_isCompaction (h : entry.isCompaction = true) : entry.isLabel = false := by
  obtain ⟨id, parentId, timestamp, payload⟩ := entry
  cases payload with
  | label => simp [Entry.isCompaction] at h
  | _ => rfl

theorem isCompaction_of_firstKept {firstKept : String}
    (h : entry.firstKeptEntryId = some firstKept) : entry.isCompaction = true := by
  obtain ⟨id, parentId, timestamp, payload⟩ := entry
  cases payload with
  | compaction => rfl
  | _ => simp [Entry.firstKeptEntryId] at h

theorem firstKept_relinkEntry (parentId : Option String) (entry : Entry) (firstKept : String)
    (h : entry.firstKeptEntryId = some firstKept) :
    (relinkEntry before parentId entry).firstKeptEntryId =
      some (boundary before entry.id firstKept) := by
  obtain ⟨id, oldParent, timestamp, payload⟩ := entry
  cases payload with
  | compaction => simpa [Entry.firstKeptEntryId, relinkEntry] using congrArg _ (Option.some.inj h)
  | _ => simp [Entry.firstKeptEntryId] at h

theorem relink_split (before after : List Entry) (compaction : Entry) (firstKept : String)
    (hkept : compaction.firstKeptEntryId = some firstKept) :
    ∃ parentId copies, relink [] none (before ++ compaction :: after) =
        relink [] none before ++ relinkEntry before parentId compaction :: copies ∧
      contents copies = contents after := by
  obtain ⟨parentId, hsplit⟩ := relink_append [] before (compaction :: after) none
  have hlabel := isLabel_of_isCompaction (isCompaction_of_firstKept hkept)
  rw [nil_append, relink, if_neg (by simp [hlabel])] at hsplit
  exact ⟨parentId, _, hsplit, contents_relink _ _ _⟩

theorem fromId_boundary (hnodup : (before.map Entry.id).Nodup) (compactionId firstKept : String)
    (hfresh : compactionId ∉ before.map Entry.id) :
    (fromId (boundary before compactionId firstKept) (relink [] none before)).map content =
      contents (fromId firstKept before) := by
  rw [← fromId_map_content, map_content_relink, contents, fromId_map_content,
    ← filter_fromId before hnodup firstKept compactionId hfresh, contents]

theorem contents_filter_system (xs : List Entry) :
    contents (xs.filter (fun entry => !entry.isSystem)) =
      (contents xs).filter (fun entry => !entry.isSystem) := by
  have hsystem : ((fun entry : Entry => !entry.isSystem) ∘ content) =
      fun entry => !entry.isSystem := funext fun entry => by simp [isSystem_content]
  rw [contents, contents, filter_map, hsystem, filter_filter, filter_filter]
  congr 2
  funext entry
  exact Bool.and_comm _ _

theorem contents_retained (before after copies labels : List Entry)
    (hnodup : (before.map Entry.id).Nodup) (compactionId firstKept : String)
    (hfresh : compactionId ∉ before.map Entry.id) (hcopies : contents copies = contents after)
    (hlabels : ∀ entry ∈ labels, entry.isLabel = true) :
    contents (retained (relink [] none before) (copies ++ labels)
        (boundary before compactionId firstKept)) =
      contents (retained before after firstKept) := by
  have hkept : contents (fromId (boundary before compactionId firstKept)
      (relink [] none before)) = contents (fromId firstKept before) := by
    have hall : (fromId (boundary before compactionId firstKept) (relink [] none before)).filter
        isKept = fromId (boundary before compactionId firstKept) (relink [] none before) := by
      rw [filter_eq_self]
      exact fun entry hentry => isKept_of_mem_relink ((dropWhile_suffix _).subset hentry)
    rw [contents, hall, fromId_boundary before hnodup compactionId firstKept hfresh]
  rw [retained, retained, contents_append, contents_append, contents_append,
    contents_of_labels labels hlabels, append_nil, hcopies, contents_filter_system,
    contents_filter_system, hkept]

theorem projectPath_relink (env : Environment) (path labels : List Entry)
    (hnodup : (path.map Entry.id).Nodup) (hlabels : ∀ entry ∈ labels, entry.isLabel = true) :
    (projectPath env (relink [] none path ++ labels)).messages =
      (projectPath env path).messages := by
  have hnone : ∀ entry ∈ labels, entry.isCompaction = false := by
    intro entry hentry
    cases hcompaction : entry.isCompaction with
    | false => rfl
    | true =>
      have := isLabel_of_isCompaction hcompaction
      rw [hlabels entry hentry] at this
      simp at this
  have hcontents : contents (relink [] none path ++ labels) = contents path := by
    rw [contents_append, contents_of_labels labels hlabels, append_nil, contents_relink]
  have hcompaction : ∀ (xs ys : List Entry), contents xs = contents ys →
      (∀ entry ∈ ys, entry.isCompaction = false) →
      ∀ entry ∈ xs, entry.isCompaction = false := by
    intro xs ys hxy hys entry hentry
    cases hkept : isKept entry with
    | false =>
      cases hcase : entry.isCompaction with
      | false => rfl
      | true =>
        have hlabel := isLabel_of_isCompaction hcase
        rw [isLabel_of_not_kept hkept] at hlabel
        simp at hlabel
    | true =>
      have hmem : content entry ∈ contents ys := by
        rw [← hxy]
        exact mem_map_of_mem (mem_filter.mpr ⟨hentry, hkept⟩)
      obtain ⟨other, hother, heq⟩ := mem_map.mp hmem
      rw [← isCompaction_content, ← heq, isCompaction_content]
      exact hys other (mem_filter.mp hother).1
  rcases exists_latestCompaction path with hpath | ⟨before, compaction, after, rfl, hcomp, hafter⟩
  · rw [projectPath_messages_none env path hpath,
      projectPath_messages_none env _ (hcompaction _ _ hcontents hpath)]
    exact flatMap_of_contents env hcontents (lastEdit_of_contents hcontents)
  · obtain ⟨firstKept, hkept⟩ := exists_firstKept hcomp
    rw [map_append, map_cons, nodup_append] at hnodup
    have hfresh : compaction.id ∉ before.map Entry.id :=
      fun hmem => hnodup.2.2 _ hmem _ mem_cons_self rfl
    obtain ⟨parentId, copies, hsplit, hcopies⟩ :=
      relink_split before after compaction firstKept hkept
    have hcomp' : (relinkEntry before parentId compaction).isCompaction = true := by
      rw [← isCompaction_content, content_relinkEntry, isCompaction_content, hcomp]
    have hafter' : ∀ entry ∈ copies ++ labels, entry.isCompaction = false := by
      intro entry hentry
      rcases mem_append.mp hentry with hcopy | hlabel
      · exact hcompaction _ _ hcopies hafter entry hcopy
      · exact hnone entry hlabel
    have hfresh' : (relinkEntry before parentId compaction).id ∉
        (relink [] none before).map Entry.id := by
      rw [relink_ids]
      exact fun hmem => hfresh ((filter_sublist.map _).subset hmem)
    have hretained := contents_retained before after copies labels hnodup.1 compaction.id firstKept
      hfresh hcopies hlabels
    have hcontext : contents (relinkEntry before parentId compaction ::
        retained (relink [] none before) (copies ++ labels)
          (boundary before compaction.id firstKept)) =
        contents (compaction :: retained before after firstKept) := by
      rw [← singleton_append, contents_append, hretained, ← singleton_append, contents_append]
      simp [contents, isKept, isLabel_relinkEntry, isLabel_of_isCompaction hcomp,
        content_relinkEntry]
    have hedits := lastEdit_of_contents hcontext
    rw [hsplit, append_assoc, cons_append,
      projectPath_messages_some env _ _ _ _
        (firstKept_relinkEntry before parentId compaction firstKept hkept) hcomp' hafter' hfresh',
      projectPath_messages_some env before after compaction firstKept hkept hcomp hafter hfresh]
    congr 1
    · have hid : (relinkEntry before parentId compaction).id = compaction.id := rfl
      rw [← projectContextEntry_content, content_relinkEntry, projectContextEntry_content, hid]
      exact congrArg _ (hedits compaction.id)
    · exact flatMap_of_contents env hretained hedits

/-! The label map. -/

theorem replayLabel_ne_empty (labels : OrderedMap String String)
    (h : ∀ item ∈ labels.entries, item.2 ≠ "") :
    ∀ item ∈ (entries.foldl replayLabel labels).entries, item.2 ≠ "" := by
  induction entries generalizing labels with
  | nil => exact h
  | cons entry rest ih =>
    refine ih (replayLabel labels entry) ?_
    unfold replayLabel setLabel
    split
    · rename_i targetId label _
      split
      · intro item hitem
        exact h item (mem_filter.mp hitem).1
      · rename_i hne
        rintro ⟨key, value⟩ hitem
        have hget := (OrderedMap.get?_eq_some_iff_mem _ key value).mpr hitem
        rw [OrderedMap.get?_set] at hget
        split at hget
        · rw [← Option.some.inj hget]
          exact hne
        · exact h _ ((labels.get?_eq_some_iff_mem key value).mp hget)
    · exact h

theorem replayLabel_of_not_label (labels : OrderedMap String String) (h : entry.isLabel = false) :
    replayLabel labels entry = labels := by
  obtain ⟨id, parentId, timestamp, payload⟩ := entry
  cases payload with
  | label => simp [Entry.isLabel] at h
  | _ => rfl

theorem foldl_replayLabel_kept (h : ∀ entry ∈ entries, isKept entry = true)
    (labels : OrderedMap String String) : entries.foldl replayLabel labels = labels := by
  induction entries generalizing labels with
  | nil => rfl
  | cons entry rest ih =>
    have hlabel : entry.isLabel = false := by simpa [isKept] using h entry mem_cons_self
    rw [foldl_cons, replayLabel_of_not_label labels hlabel]
    exact ih (fun other hother => h other (mem_cons_of_mem _ hother)) labels

theorem foldl_replayLabel_chain (items : List (String × String))
    (hpayloads : entries.map Entry.payload = items.map (fun item => .label item.1 (some item.2)))
    (hne : ∀ item ∈ items, item.2 ≠ "") (labels : OrderedMap String String) :
    entries.foldl replayLabel labels = labels.insertAll items := by
  induction entries generalizing items labels with
  | nil =>
    cases items with
    | nil => rfl
    | cons => simp at hpayloads
  | cons entry rest ih =>
    cases items with
    | nil => simp at hpayloads
    | cons item items =>
      obtain ⟨hentry, hrest⟩ := cons.inj hpayloads
      have hset : replayLabel labels entry = labels.set item.1 item.2 := by
        rw [replayLabel, hentry]
        simp [setLabel, hne item mem_cons_self]
      rw [foldl_cons, hset]
      exact ih items hrest (fun other hother => hne other (mem_cons_of_mem _ hother)) _

theorem labels_of_chain {items : List (String × String)} {taken : List String} {drawn : Nat}
    {result : List Entry × Nat} (h : LabelChain env items taken parentId drawn result) :
    ∀ entry ∈ result.1, entry.isLabel = true := by
  intro entry hentry
  have hmem : entry.payload ∈ items.map (fun item => Payload.label item.1 (some item.2)) := by
    rw [← h.payloads]
    exact mem_map_of_mem hentry
  obtain ⟨item, -, heq⟩ := mem_map.mp hmem
  rw [Entry.isLabel, ← heq]

section Extracted

variable {env : Environment} {s next : Session} {header : SessionHeader} {leaf : Entry}
  {path labels : List Entry}

theorem labels_of_extracted (hex : Extracted env s header leaf path labels next) :
    ∀ entry ∈ labels, entry.isLabel = true := by
  obtain ⟨drawn, hchain, -⟩ := hex.chain
  exact labels_of_chain hchain

theorem labelsById_of_extracted (h : Consistent env s)
    (hex : Extracted env s header leaf path labels next) :
    next.labelsById.entries =
      s.labelsById.entries.filter (fun item => item.1 ∈ (path.filter isKept).map Entry.id) := by
  have hnext := (hex.consistent h).labels
  rw [hex.entries_eq, foldl_append,
    foldl_replayLabel_kept _ (fun entry hentry => isKept_of_mem_relink hentry)] at hnext
  obtain ⟨drawn, hchain, -⟩ := hex.chain
  rw [relink_ids] at hchain
  have hne : ∀ item ∈ s.labelsById.entries, item.2 ≠ "" := by
    rw [h.labels]
    exact replayLabel_ne_empty s.entries _ (by simp)
  rw [foldl_replayLabel_chain labels _ hchain.payloads
    (fun item hitem => hne item (mem_filter.mp hitem).1)] at hnext
  rw [hnext, OrderedMap.entries_insertAll_of_fresh]
  · rfl
  · exact s.labelsById.nodupKeys.sublist (filter_sublist.map _)

theorem branch_of_extracted (h : Consistent env s)
    (hex : Extracted env s header leaf path labels next) : getBranch next none = next.entries := by
  have hconsistent := hex.consistent h
  have hleafId : next.leafId = next.entries.getLast?.map Entry.id := by
    obtain ⟨drawn, -, rfl⟩ := hex.chain
    have hfold : ∀ (entries : List Entry) (start : Session), start.leafId = none →
        (entries.foldl indexEntry start).leafId = entries.getLast?.map Entry.id := by
      intro entries start hstart
      cases entries using reverseRecOn with
      | nil => exact hstart
      | append_singleton rest last =>
        rw [foldl_append, foldl_cons, foldl_nil, indexEntry_leafId]
        simp
    exact hfold _ _ rfl
  rw [getBranch_leaf, hleafId]
  rcases eq_nil_or_concat next.entries with hnil | ⟨rest, last, hlast⟩
  · rw [hnil]
    rfl
  · rw [concat_eq_append] at hlast
    have hlinked := hex.linked
    rw [hlast] at hlinked
    have hpath : RootPath next.entries last (rest ++ [last]) :=
      rootPath_of_linked hlinked (by rw [hlast]; exact fun _ hx => hx)
    rw [hlast, getLast?_concat]
    exact hconsistent.getBranch_eq hpath

end Extracted

/-- The ids of the entries that a compaction after `before` retains, without labels. -/
def retainedIds (before : List Entry) (firstKept : String) : List String :=
  ((fromId firstKept before).filter isKept).map Entry.id

/-- A compaction that stands after `before` on a branch has a counterpart in the new session
that retains the same entries. A boundary on the branch, at or before the compaction,
becomes one of the new session; any other boundary stays as it is and retains nothing. -/
def BoundaryKept (entries before : List Entry) (compaction : Entry) (firstKept : String) : Prop :=
  ∃ before' compaction' after' firstKept', entries = before' ++ compaction' :: after' ∧
    compaction'.id = compaction.id ∧ compaction'.firstKeptEntryId = some firstKept' ∧
    retainedIds before' firstKept' = retainedIds before firstKept ∧
    if firstKept ∈ (before ++ [compaction]).map Entry.id then
      firstKept' ∈ (before' ++ [compaction']).map Entry.id
    else firstKept' = firstKept ∧ retainedIds before firstKept = []

structure ContextPreserved (env : Environment) (s : Session) (leaf : Entry) (path : List Entry)
    (next : Session) : Prop where
  messages : (sessionProjection env next).messages =
    (buildSessionProjection env s.entries (.given (some leaf.id)) s.byId).messages
  thinkingLevel : (sessionProjection env next).thinkingLevel =
    (buildSessionProjection env s.entries (.given (some leaf.id)) s.byId).thinkingLevel
  model : (sessionProjection env next).model =
    (buildSessionProjection env s.entries (.given (some leaf.id)) s.byId).model
  distinct : (next.entries.map Entry.id).Nodup
  chain : Linked none next.entries
  kept : (next.entries.filter isKept).map Entry.id = (path.filter isKept).map Entry.id
  boundaries : ∀ before compaction after firstKept, path = before ++ compaction :: after →
    compaction.firstKeptEntryId = some firstKept →
    BoundaryKept next.entries before compaction firstKept
  labels : next.labelsById.entries =
    s.labelsById.entries.filter (fun item => item.1 ∈ (path.filter isKept).map Entry.id)

theorem boundary_mem (compaction : Entry) (firstKept : String)
    (hmem : firstKept ∈ (before ++ [compaction]).map Entry.id) :
    boundary before compaction.id firstKept ∈
      (before.filter isKept).map Entry.id ++ [compaction.id] := by
  unfold boundary
  split
  · cases hnext : nextKept firstKept before with
    | none => simp
    | some next =>
      obtain ⟨found, hfound, rfl⟩ := Option.map_eq_some_iff.mp hnext
      refine mem_append_left _ (mem_map_of_mem (mem_filter.mpr ⟨?_, ?_⟩))
      · exact (dropWhile_suffix _).subset (mem_of_find?_eq_some hfound)
      · exact find?_some hfound
  · rename_i hlabel
    rw [map_append, mem_append] at hmem
    rcases hmem with hbefore | hlast
    · obtain ⟨entry, hentry, rfl⟩ := mem_map.mp hbefore
      refine mem_append_left _ (mem_map_of_mem (mem_filter.mpr ⟨hentry, ?_⟩))
      cases hcase : entry.isLabel with
      | false => simp [isKept, hcase]
      | true =>
        exact absurd (mem_map_of_mem (mem_filter.mpr ⟨hentry, hcase⟩)) hlabel
    · exact mem_append_right _ hlast

theorem map_id_contents :
    (contents entries).map Entry.id = (entries.filter isKept).map Entry.id := by
  rw [contents, map_map]
  rfl

theorem extracted_boundaries (hnodup : (path.map Entry.id).Nodup)
    (hentries : next.entries = relink [] none path ++ labels) (before after : List Entry)
    (compaction : Entry) (firstKept : String) (hpath : path = before ++ compaction :: after)
    (hkept : compaction.firstKeptEntryId = some firstKept) :
    BoundaryKept next.entries before compaction firstKept := by
  rw [hpath, map_append, map_cons, nodup_append] at hnodup
  have hfresh : compaction.id ∉ before.map Entry.id :=
    fun hmem => hnodup.2.2 _ hmem _ mem_cons_self rfl
  obtain ⟨parentId, copies, hsplit, -⟩ := relink_split before after compaction firstKept hkept
  refine ⟨relink [] none before, relinkEntry before parentId compaction, copies ++ labels,
    boundary before compaction.id firstKept, ?_, rfl,
    firstKept_relinkEntry before parentId compaction firstKept hkept, ?_, ?_⟩
  · rw [hentries, hpath, hsplit, append_assoc, cons_append]
  · have hids := congrArg (map Entry.id)
      (fromId_boundary before hnodup.1 compaction.id firstKept hfresh)
    rw [map_id_contents, map_map] at hids
    have hall : (fromId (boundary before compaction.id firstKept) (relink [] none before)).filter
        isKept = fromId (boundary before compaction.id firstKept) (relink [] none before) := by
      rw [filter_eq_self]
      exact fun entry hentry => isKept_of_mem_relink ((dropWhile_suffix _).subset hentry)
    rw [retainedIds, hall]
    exact hids
  · split
    · rename_i hmem
      have hboundary := boundary_mem before compaction firstKept hmem
      rw [map_append, relink_ids]
      exact hboundary
    · rename_i hmem
      rw [map_append, mem_append, not_or] at hmem
      refine ⟨?_, ?_⟩
      · rw [boundary, if_neg (fun hlabel => hmem.1 (mem_of_mem_labelIds hlabel))]
      · rw [retainedIds, fromId_of_notMem firstKept before hmem.1]
        rfl

theorem preserved_of_extracted {s : Session} {header : SessionHeader} {leaf : Entry}
    (h : Consistent env s) (hex : Extracted env s header leaf path labels next) :
    ContextPreserved env s leaf path next := by
  have hlabels := labels_of_extracted hex
  have hnodup := hex.nodup_path h
  have hold : buildSessionProjection env s.entries (.given (some leaf.id)) s.byId =
      projectPath env path := by
    rw [buildSessionProjection, buildSessionPath, h.get?_self hex.root.mem, Option.some_or,
      h.followParents_eq hex.root]
  have hnew : sessionProjection env next = projectPath env (relink [] none path ++ labels) := by
    rw [sessionProjection, buildSessionProjection, (hex.consistent h).buildSessionPath_eq,
      branch_of_extracted h hex, hex.entries_eq]
  have hcontents : contents (relink [] none path ++ labels) = contents path := by
    rw [contents_append, contents_of_labels labels hlabels, append_nil, contents_relink]
  have hsettings : getSessionContextSettings (relink [] none path ++ labels) =
      getSessionContextSettings path := by
    rw [getSessionContextSettings, ← settings_contents, hcontents, settings_contents]
    rfl
  refine ⟨?_, ?_, ?_, hex.nodup, hex.linked, ?_, ?_, labelsById_of_extracted h hex⟩
  · rw [hnew, hold]
    exact projectPath_relink env path labels hnodup hlabels
  · rw [hnew, hold]
    exact congrArg Prod.fst hsettings
  · rw [hnew, hold]
    exact congrArg Prod.snd hsettings
  · rw [hex.entries_eq, ← map_id_contents, hcontents, map_id_contents]
  · exact fun before compaction after firstKept =>
      extracted_boundaries hnodup hex.entries_eq before after compaction firstKept

/-- Extracting the branch of any entry of a reachable session preserves its context. -/
theorem createBranchedSession_preserves {env : Environment} {s : Session} (h : Reachable env s)
    (header : SessionHeader) {leaf : Entry} (hleaf : leaf ∈ s.entries) :
    ∃ next path, createBranchedSession env s header leaf.id = .ok next ∧
      RootPath s.entries leaf path ∧ ContextPreserved env s leaf path next := by
  have hconsistent := reachable_consistent h
  obtain ⟨next, hok⟩ := createBranchedSession_isOk hconsistent header hleaf
  obtain ⟨other, path, labels, hid, hex⟩ := Extracted.of_ok hconsistent hok
  obtain rfl := hconsistent.grown.eq_of_id_eq hex.root.mem hleaf hid
  exact ⟨next, path, hok, hex.root, preserved_of_extracted hconsistent hex⟩

/-- A compaction whose boundary is the label before it. -/
def labelBoundary : List Operation :=
  [.appendMessage "t1" (.user ⟨.text "hello", 1⟩),
    .appendLabelChange "t2" "aaaaaaaa" (some "start"),
    .appendCompaction "t3" "summary" (some "bbbbbbbb") 10 .null none none,
    .appendThinkingLevelChange "t4" "high"]

def labelBoundarySession : Session :=
  run plainEnvironment (newSession ⟨"s", "t0", "/", none⟩ 0) labelBoundary

def labelBoundaryLeaf : Entry :=
  ⟨"dddddddd", some "cccccccc", "t4", .thinkingLevelChange "high"⟩

theorem createBranchedSession_preserves_labelBoundary :
    ∃ next path, createBranchedSession plainEnvironment labelBoundarySession
        ⟨"n", "t5", "/", none⟩ labelBoundaryLeaf.id = .ok next ∧
      RootPath labelBoundarySession.entries labelBoundaryLeaf path ∧
      ContextPreserved plainEnvironment labelBoundarySession labelBoundaryLeaf path next :=
  createBranchedSession_preserves ((Reachable.start ⟨"s", "t0", "/", none⟩ 0).run labelBoundary)
    ⟨"n", "t5", "/", none⟩ (by decide)

/-- `append_compaction` takes any id for its boundary. -/
def unknownBoundary : List Operation :=
  [.appendMessage "t1" (.user ⟨.text "hello", 1⟩),
    .appendCompaction "t2" "summary" (some "nowhere") 10 .null none none]

def unknownBoundarySession : Session :=
  run plainEnvironment (newSession ⟨"s", "t0", "/", none⟩ 0) unknownBoundary

/-- A boundary that names no entry of the session names no entry of the extracted one. -/
theorem createBranchedSession_unknownBoundary :
    Reachable plainEnvironment unknownBoundarySession ∧
      ∃ next, createBranchedSession plainEnvironment unknownBoundarySession
          ⟨"n", "t3", "/", none⟩ "bbbbbbbb" = .ok next ∧
        ∃ compaction ∈ next.entries, compaction.firstKeptEntryId = some "nowhere" ∧
          "nowhere" ∉ next.entries.map Entry.id := by
  refine ⟨(Reachable.start _ 0).run unknownBoundary, ?_⟩
  have hentries : (createBranchedSession plainEnvironment unknownBoundarySession
      ⟨"n", "t3", "/", none⟩ "bbbbbbbb").toOption.map
        (fun next => next.entries.map (fun entry => (entry.id, entry.firstKeptEntryId))) =
      some [("aaaaaaaa", none), ("bbbbbbbb", some "nowhere")] := by decide
  cases hnext : createBranchedSession plainEnvironment unknownBoundarySession
      ⟨"n", "t3", "/", none⟩ "bbbbbbbb" with
  | error message => rw [hnext] at hentries; simp [Except.toOption] at hentries
  | ok next =>
    rw [hnext] at hentries
    have hlist : next.entries.map (fun entry => (entry.id, entry.firstKeptEntryId)) =
        [("aaaaaaaa", none), ("bbbbbbbb", some "nowhere")] := Option.some.inj hentries
    have hmem : ("bbbbbbbb", some "nowhere") ∈
        next.entries.map (fun entry => (entry.id, entry.firstKeptEntryId)) := by
      rw [hlist]
      decide
    obtain ⟨compaction, hcompaction, heq⟩ := mem_map.mp hmem
    refine ⟨next, rfl, compaction, hcompaction, (Prod.mk.inj heq).2, ?_⟩
    have hids := congrArg (map Prod.fst) hlist
    rw [map_map] at hids
    change next.entries.map Entry.id = ["aaaaaaaa", "bbbbbbbb"] at hids
    rw [hids]
    decide

end Pidrei.BranchContext
