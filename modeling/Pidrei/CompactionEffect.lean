import Pidrei.BranchContext

/-!
What a compaction does to the model context. After the append the context is the
replayed system message, the summary, and what the entries from the boundary to
the old leaf contribute with the edits of the branch. A context edit stands after
its target on every path, so an entry that was visible before contributes the
same messages again; an entry that an earlier compaction had hidden comes back.
-/
namespace Pidrei.CompactionEffect

open Values Messages Transcript SessionEntries SessionManager SessionInvariant List
open ContextProjection BranchExtraction BranchContext ParentLog TreeNode

/-- Every edit of a path has its target before it, and the target is editable. -/
def EditsFollow (path : List Entry) : Prop :=
  ∀ before edit after targetId replacement, path = before ++ edit :: after →
    edit.payload = .contextEdit targetId replacement →
    ∃ target ∈ before, target.id = targetId ∧ isEditable target = true

theorem EditsFollow.initial {before after : List Entry} (h : EditsFollow (before ++ after)) :
    EditsFollow before := by
  intro first edit rest targetId replacement hsplit hedit
  refine h first edit (rest ++ after) targetId replacement ?_ hedit
  rw [hsplit, append_assoc, cons_append]

variable {path : List Entry} {entry : Entry} {env : Environment} {s : Session}

theorem EditsFollow.concat (h : EditsFollow path)
    (hentry : ∀ targetId replacement, entry.payload = .contextEdit targetId replacement →
      ∃ target ∈ path, target.id = targetId ∧ isEditable target = true) :
    EditsFollow (path ++ [entry]) := by
  intro before edit after targetId replacement hsplit hedit
  rcases eq_nil_or_concat after with rfl | ⟨after', last, rfl⟩
  · obtain ⟨rfl, hlast⟩ := append_inj' hsplit rfl
    obtain ⟨rfl, -⟩ := cons.inj hlast
    exact hentry targetId replacement hedit
  · have hsplit' : path ++ [entry] = (before ++ edit :: after') ++ [last] := by
      simpa using hsplit
    obtain ⟨hpath, -⟩ := append_inj' hsplit' rfl
    exact h before edit after' targetId replacement hpath hedit

theorem contextEdit_of_content {targetId : String} {replacement : Option Content}
    (h : (content entry).payload = .contextEdit targetId replacement) :
    entry.payload = .contextEdit targetId replacement := by
  obtain ⟨id, parentId, timestamp, payload⟩ := entry
  cases payload with
  | compaction => cases h
  | _ => exact h

theorem isKept_of_isEditable (h : isEditable entry = true) : isKept entry = true := by
  obtain ⟨id, parentId, timestamp, payload⟩ := entry
  cases payload with
  | label => cases h
  | _ => rfl

theorem EditsFollow.of_contents {other : List Entry} (h : EditsFollow path)
    (hcontents : contents other = contents path) : EditsFollow other := by
  intro before edit after targetId replacement hsplit hedit
  have hlabel : edit.isLabel = false := by
    rw [Entry.isLabel, hedit]
  have hother : contents other = contents before ++ content edit :: contents after := by
    have hkept : contents [edit] = [content edit] := by simp [contents, isKept, hlabel]
    rw [hsplit, contents_append, ← singleton_append, contents_append, hkept, singleton_append]
  rw [hcontents, contents, map_eq_append_iff] at hother
  obtain ⟨xs, ys, hfilter, hxs, hys⟩ := hother
  rw [map_eq_cons_iff] at hys
  obtain ⟨edit', ys', rfl, hedit', -⟩ := hys
  rw [filter_eq_append_iff] at hfilter
  obtain ⟨first, second, rfl, hfirst, hsecond⟩ := hfilter
  rw [filter_eq_cons_iff] at hsecond
  obtain ⟨dropped, rest, rfl, hdropped, -, -⟩ := hsecond
  have hpayload : edit'.payload = .contextEdit targetId replacement := by
    refine contextEdit_of_content ?_
    rw [hedit']
    simp only [content, hedit]
  have hwhole : first ++ (dropped ++ edit' :: rest) = (first ++ dropped) ++ edit' :: rest := by
    simp
  obtain ⟨target, htarget, hid, heditable⟩ := h _ edit' rest targetId replacement hwhole hpayload
  have hkept := isKept_of_isEditable heditable
  have hmem : target ∈ xs := by
    rw [← hfirst]
    rcases mem_append.mp htarget with hfirst | hdrop
    · exact mem_filter.mpr ⟨hfirst, hkept⟩
    · exact absurd hkept (hdropped target hdrop)
  have hcopy : content target ∈ contents before := by
    rw [← hxs]
    exact mem_map_of_mem hmem
  obtain ⟨copy, hcopyMem, hcopyEq⟩ := mem_map.mp hcopy
  refine ⟨copy, (mem_filter.mp hcopyMem).1, ?_, ?_⟩
  · rw [← content_id copy, hcopyEq, content_id, hid]
  · have hcontent : ∀ entry : Entry, isEditable (content entry) = isEditable entry := by
      intro entry
      obtain ⟨id, parentId, timestamp, payload⟩ := entry
      cases payload <;> rfl
    rw [← hcontent copy, hcopyEq, hcontent, heditable]

theorem reachable_editsFollow (h : Reachable env s) :
    ∀ leaf path, RootPath s.entries leaf path → EditsFollow path := by
  induction h with
  | start header drawn =>
    intro leaf path hpath
    have hmem : leaf ∈ ([] : List Entry) := hpath.mem
    simp at hmem
  | @step s hreach op next entry hop ih =>
    have hs := reachable_consistent hreach
    rcases perform_cases hop with ⟨-, leafId, rfl, -⟩ | ⟨e, -, hstep⟩
    · exact ih
    · have hgrown := (hstep.consistent hs).grown
      have hentries : next.entries = s.entries ++ [e] := by
        rw [hstep.next]
        rfl
      rw [hentries] at hgrown ⊢
      intro leaf path hpath
      rcases mem_append.mp hpath.mem with hold | hlast
      · exact ih leaf path (hpath.restrict hgrown hold)
      · obtain rfl := mem_singleton.mp hlast
        cases hpath with
        | root _ hparent =>
          have hnil : EditsFollow ([] ++ [leaf]) := by
            refine EditsFollow.concat (fun _ _ _ _ _ hsplit => by simp at hsplit) ?_
            intro targetId replacement hedit
            obtain ⟨⟨target, htarget, -⟩, -⟩ := hstep.edit targetId replacement hedit
            rcases hstep.child with hchild | ⟨fromId, summary, details, usage, fromHook, hpayload⟩
            · change leaf.parentId = none at hparent
              rw [hparent] at hchild
              rw [getBranch_leaf, ← hchild] at htarget
              simp at htarget
            · rw [hedit] at hpayload
              cases hpayload
          exact hnil
        | @child _ p path _ hparent above =>
          have hp : p ∈ s.entries := by
            obtain ⟨q, hq, hid⟩ := mem_map.mp (hstep.parent_mem hs hparent)
            obtain rfl := hgrown.eq_of_id_eq (mem_append_left _ hq) above.mem hid
            exact hq
          have habove := above.restrict hgrown hp
          refine (ih p path habove).concat ?_
          intro targetId replacement hedit
          obtain ⟨⟨target, htarget, hid⟩, other, hother, heditable⟩ :=
            hstep.edit targetId replacement hedit
          rcases hstep.child with hchild | ⟨fromId, summary, details, usage, fromHook, hpayload⟩
          · change leaf.parentId = some p.id at hparent
            rw [hparent] at hchild
            rw [getBranch_leaf, ← hchild] at htarget
            dsimp only at htarget
            rw [hs.getBranch_eq habove] at htarget
            obtain ⟨hotherMem, hotherId⟩ := (hs.get?_eq_some_iff _ _).mp hother
            have hsame : target = other := hs.grown.eq_of_id_eq (habove.subset _ htarget)
              hotherMem (hid.trans hotherId.symm)
            exact ⟨target, htarget, hid, hsame ▸ heditable⟩
          · rw [hedit] at hpayload
            cases hpayload
  | @extract s hreach header leafId next hextract ih =>
    have hs := reachable_consistent hreach
    obtain ⟨leaf, path, labels, -, hex⟩ := Extracted.of_ok hs hextract
    have hlabels := labels_of_extracted hex
    have hall : EditsFollow next.entries := by
      refine (ih leaf path hex.root).of_contents ?_
      rw [hex.entries_eq, contents_append, contents_of_labels labels hlabels, append_nil,
        contents_relink]
    intro leaf' path' hpath'
    rcases eq_nil_or_concat next.entries with hnil | ⟨rest, last, hlast⟩
    · have hmem := hpath'.mem
      rw [hnil] at hmem
      simp at hmem
    · rw [concat_eq_append] at hlast
      have hlinked := hex.linked
      rw [hlast] at hlinked
      have hwhole : RootPath next.entries last (rest ++ [last]) :=
        rootPath_of_linked hlinked (by rw [hlast]; exact fun _ hx => hx)
      have hmem : leaf' ∈ rest ++ [last] := hlast ▸ hpath'.mem
      obtain ⟨before, after, hsplit⟩ := append_of_mem hmem
      rw [hsplit] at hwhole
      have heq := hpath'.unique (hex.consistent hs).grown hwhole.initial
      rw [hlast, hsplit, ← singleton_append, ← append_assoc] at hall
      rw [heq]
      exact hall.initial

/-! The active branch. -/

theorem getBranch_rootPath (h : Consistent env s) :
    getBranch s none = [] ∨ ∃ leaf, s.leafId = some leaf.id ∧
      RootPath s.entries leaf (getBranch s none) := by
  cases hleaf : s.leafId with
  | none =>
    rw [getBranch_leaf, hleaf]
    exact .inl rfl
  | some id =>
    obtain ⟨leaf, hmem, rfl⟩ := h.exists_leaf hleaf
    obtain ⟨path, hpath⟩ := h.grown.exists_rootPath hmem
    rw [getBranch_leaf, hleaf]
    dsimp only
    rw [h.getBranch_eq hpath]
    exact .inr ⟨leaf, rfl, hpath⟩

theorem branch_editsFollow (h : Reachable env s) : EditsFollow (getBranch s none) := by
  rcases getBranch_rootPath (reachable_consistent h) with hnil | ⟨leaf, -, hpath⟩
  · rw [hnil]
    exact fun _ _ _ _ _ hsplit => by simp at hsplit
  · exact reachable_editsFollow h leaf _ hpath

theorem branch_nodup (h : Consistent env s) : ((getBranch s none).map Entry.id).Nodup := by
  rcases getBranch_rootPath h with hnil | ⟨leaf, -, hpath⟩
  · rw [hnil]
    exact nodup_nil
  · exact ((hpath.sublist h.grown).map Entry.id).nodup h.grown.nodup_ids

theorem branch_subset (h : Consistent env s) : ∀ entry ∈ getBranch s none, entry ∈ s.entries := by
  rcases getBranch_rootPath h with hnil | ⟨leaf, -, hpath⟩
  · simp [hnil]
  · exact hpath.subset

theorem getBranch_append {next : Session} (h : Consistent env s)
    (hstep : AppendStep env s entry next) (hchild : entry.parentId = s.leafId) :
    getBranch next none = getBranch s none ++ [entry] := by
  have hnext := hstep.consistent h
  have hentries : next.entries = s.entries ++ [entry] := by
    rw [hstep.next]
    rfl
  have hleaf : next.leafId = some entry.id := by
    rw [hstep.next]
    exact indexEntry_leafId s entry
  have hmem : entry ∈ next.entries := by rw [hentries]; simp
  have hpath : RootPath next.entries entry (getBranch s none ++ [entry]) := by
    cases hold : s.leafId with
    | none =>
      rw [hold] at hchild
      rw [getBranch_leaf, hold]
      exact .root hmem hchild
    | some id =>
      obtain ⟨leaf, hleafMem, rfl⟩ := h.exists_leaf hold
      obtain ⟨path, hroot⟩ := h.grown.exists_rootPath hleafMem
      rw [hold] at hchild
      rw [getBranch_leaf, hold]
      dsimp only
      rw [h.getBranch_eq hroot]
      refine .child hmem hchild ?_
      rw [hentries]
      exact hroot.mono _
  rw [getBranch_leaf, hleaf]
  exact hnext.getBranch_eq hpath

theorem sessionProjection_eq (h : Consistent env s) :
    sessionProjection env s = projectPath env (getBranch s none) := by
  rw [sessionProjection, buildSessionProjection, h.buildSessionPath_eq]

/-! Edits of the entries that stay visible. -/

theorem lastEdit_suffix {before after : List Entry} (h : EditsFollow (before ++ after))
    (hnodup : ((before ++ after).map Entry.id).Nodup) (hentry : entry ∈ after) :
    lastEdit entry.id (before ++ after) = lastEdit entry.id after := by
  have hnone : lastEdit entry.id before = none := by
    refine lastEdit_eq_none entry.id before fun edit hedit => ?_
    unfold editOf
    split
    · rename_i targetId replacement hpayload
      split
      · rename_i htarget
        obtain ⟨first, rest, rfl⟩ := append_of_mem hedit
        have hsplit : (first ++ edit :: rest) ++ after = first ++ edit :: (rest ++ after) := by
          simp
        obtain ⟨target, hmem, hid, -⟩ := h first edit _ targetId replacement hsplit hpayload
        rw [map_append, nodup_append] at hnodup
        refine absurd (hid.trans htarget) (hnodup.2.2 target.id ?_ entry.id ?_)
        · exact mem_map_of_mem (mem_append_left _ hmem)
        · exact mem_map_of_mem hentry
      · rfl
    · rfl
  rw [lastEdit_append, hnone, Option.or_none]

variable (id : String)

theorem editOf_system (h : entry.isSystem = true) : editOf id entry = none := by
  obtain ⟨entryId, parentId, timestamp, payload⟩ := entry
  cases payload with
  | message => rfl
  | _ => simp [Entry.isSystem] at h

theorem editOf_compaction (h : entry.isCompaction = true) : editOf id entry = none := by
  obtain ⟨entryId, parentId, timestamp, payload⟩ := entry
  cases payload with
  | compaction => rfl
  | _ => simp [Entry.isCompaction] at h

theorem lastEdit_cons_compaction {compaction : Entry} (rest : List Entry)
    (h : compaction.isCompaction = true) : lastEdit id (compaction :: rest) = lastEdit id rest := by
  have hnone := lastEdit_eq_none id [compaction] (by
    intro entry hentry
    rw [mem_singleton.mp hentry]
    exact editOf_compaction id h)
  rw [← singleton_append, lastEdit_append, hnone, Option.or_none]

theorem fromId_suffix (entries : List Entry) : ∃ before, entries = before ++ fromId id entries := by
  obtain ⟨before, h⟩ := dropWhile_suffix (l := entries) (fun entry => decide (entry.id ≠ id))
  exact ⟨before, h.symm⟩

theorem lastEdit_fromId (h : EditsFollow path) (hnodup : (path.map Entry.id).Nodup)
    (firstKept : String) (hentry : entry ∈ fromId firstKept path) :
    lastEdit entry.id ((fromId firstKept path).filter (fun other => !other.isSystem)) =
      lastEdit entry.id path := by
  obtain ⟨before, hsplit⟩ := fromId_suffix firstKept path
  rw [lastEdit_filter entry.id _ _ (fun other _ hother =>
    editOf_system entry.id (by simpa using hother))]
  generalize fromId firstKept path = kept at hentry hsplit ⊢
  subst hsplit
  exact (lastEdit_suffix h hnodup hentry).symm

theorem projected_messages (h : EditsFollow path) (hnodup : (path.map Entry.id).Nodup) :
    ∀ item ∈ (projectPath env path).entries, item.sourceEntry.isCompaction = false →
      item.messages = contributed env (contextEdits path) item.sourceEntry := by
  intro item hitem hplain
  obtain ⟨indexed, hindexed, rfl⟩ := mem_map.mp hitem
  have hsource : indexed.1 ∈ contextEntriesOfPath path := by
    have hmem := mem_map_of_mem (f := Prod.fst) hindexed
    rwa [zipIdx_map_fst] at hmem
  dsimp only at hplain ⊢
  have hedits : lastEdit indexed.1.id (contextEntriesOfPath path) =
      lastEdit indexed.1.id path := by
    rcases exists_latestCompaction path with hnone | ⟨before, compaction, after, rfl, hcomp, hafter⟩
    · rw [contextEntriesOfPath_none path hnone]
    · obtain ⟨firstKept, hkept⟩ := exists_firstKept hcomp
      have hfresh : compaction.id ∉ before.map Entry.id := by
        rw [map_append, map_cons, nodup_append] at hnodup
        exact fun hmem => hnodup.2.2 _ hmem _ mem_cons_self rfl
      have hcontext := contextEntriesOfPath_some before after compaction firstKept hkept hcomp
        hafter hfresh
      rw [hcontext] at hsource ⊢
      rw [lastEdit_cons_compaction _ _ hcomp, retained, lastEdit_append,
        lastEdit_filter _ _ _ (fun other _ hother =>
          editOf_system indexed.1.id (by simpa using hother)), ← lastEdit_append]
      obtain ⟨first, hfirst⟩ := fromId_suffix firstKept before
      generalize hkeptEntries : fromId firstKept before = kept at hsource hfirst ⊢
      subst hfirst
      have hmem : indexed.1 ∈ kept ++ compaction :: after := by
        rcases mem_cons.mp hsource with heq | hretained
        · rw [heq, hcomp] at hplain
          simp at hplain
        · rw [retained, hkeptEntries] at hretained
          rcases mem_append.mp hretained with hold | hlater
          · exact mem_append_left _ (mem_filter.mp hold).1
          · exact mem_append_right _ (mem_cons_of_mem _ hlater)
      rw [append_assoc] at h hnodup ⊢
      rw [lastEdit_suffix h hnodup hmem, lastEdit_append, lastEdit_append,
        lastEdit_cons_compaction _ _ hcomp]
  rw [projectedMessages, if_neg (by simp [hplain]), contributed, if_neg (by simp [hplain])]
  exact congrArg _ hedits

/-! Only system messages and compactions contribute system messages. -/

theorem isSystem_replaceContent (replacement : Content) (message : Message) :
    (replaceContent replacement message).isSystem = message.isSystem := by
  cases message <;> rfl

theorem isSystem_withContent (message : Message) :
    (withContent message).isSystem = message.isSystem := by
  cases message <;> simp only [withContent] <;> first | rfl | (split <;> rfl)

theorem contributed_not_system (env : Environment) (edits : OrderedMap String (Option Content))
    (h : entry.isSystem = false) :
    ∀ message ∈ contributed env edits entry, message.isSystem = false := by
  have hplain : entry.isCompaction = false →
      ∀ message ∈ sessionEntryToContextMessages env entry, message.isSystem = false := by
    intro hcompaction message hmessage
    obtain ⟨id, parentId, timestamp, payload⟩ := entry
    cases payload with
    | message m =>
      rw [mem_singleton.mp hmessage, isSystem_withContent]
      exact h
    | compaction => simp [Entry.isCompaction] at hcompaction
    | customMessage =>
      rw [mem_singleton.mp hmessage]
      rfl
    | branchSummary fromId summary =>
      simp only [sessionEntryToContextMessages] at hmessage
      split at hmessage
      · simp at hmessage
      · rw [mem_singleton.mp hmessage]
        rfl
    | _ => simp [sessionEntryToContextMessages] at hmessage
  intro message hmessage
  unfold contributed at hmessage
  split at hmessage
  · simp at hmessage
  · rename_i hcompaction
    have hmessages := hplain (by simpa using hcompaction)
    unfold projectContextEntry at hmessage
    split at hmessage
    · exact hmessages message hmessage
    · simp at hmessage
    · obtain ⟨original, horiginal, rfl⟩ := mem_map.mp hmessage
      rw [isSystem_replaceContent]
      exact hmessages original horiginal

/-! The effect. -/

def keptBranch (s : Session) (firstKeptEntryId : Option String) : List Entry :=
  match firstKeptEntryId with
  | none => []
  | some id => fromId id (getBranch s none)

structure Compacted (env : Environment) (s next : Session) (now summary : String)
    (firstKeptEntryId : Option String) (tokensBefore : Int) : Prop where
  messages : (sessionProjection env next).messages =
    ((getCurrentSystemMessage (sessionProjection env s).messages).map (fun message =>
        Message.system { message with timestamp := toEpochMs env now })).toList ++
      createCompactionSummaryMessage summary tokensBefore (toEpochMs env now) ::
        (keptBranch s firstKeptEntryId).flatMap (fun entry =>
          if entry.isSystem then []
          else contributed env (contextEdits (getBranch s none)) entry)
  projected : ∀ item ∈ (sessionProjection env s).entries,
    item.sourceEntry.isCompaction = false →
    item.messages = contributed env (contextEdits (getBranch s none)) item.sourceEntry
  system : getCurrentSystemMessage (sessionProjection env next).messages =
    (getCurrentSystemMessage (sessionProjection env s).messages).map
      (fun message => { message with timestamp := toEpochMs env now })
  prompt : getCurrentSystemPrompt (sessionProjection env next).messages =
    getCurrentSystemPrompt (sessionProjection env s).messages
  tools : getCurrentTools (sessionProjection env next).messages =
    getCurrentTools (sessionProjection env s).messages

theorem flatMap_filter_not_system (env : Environment)
    (edits edits' : OrderedMap String (Option Content)) (entries : List Entry)
    (h : ∀ entry ∈ entries, edits.get? entry.id = edits'.get? entry.id) :
    (entries.filter (fun entry => !entry.isSystem)).flatMap (contributed env edits) =
      entries.flatMap (fun entry => if entry.isSystem then [] else contributed env edits' entry) := by
  induction entries with
  | nil => rfl
  | cons entry rest ih =>
    have hrest := ih (fun other hother => h other (mem_cons_of_mem _ hother))
    have hentry := h entry mem_cons_self
    cases hsystem : entry.isSystem with
    | true => simp [hsystem, hrest]
    | false => simp [hsystem, hrest, contributed, hentry]

/-- A compaction whose boundary is an entry of the active branch, or none. -/
theorem appendCompaction_effect {env : Environment} {s : Session} (h : Reachable env s)
    (now summary : String) (firstKeptEntryId : Option String) (tokensBefore : Int) (details : Value)
    (fromHook : Option Bool) (usage : Option Usage)
    (hboundary : ∀ id, firstKeptEntryId = some id → id ∈ (getBranch s none).map Entry.id) :
    Compacted env s
      (appendCompaction env s now summary firstKeptEntryId tokensBefore details fromHook usage).1
      now summary firstKeptEntryId tokensBefore := by
  have hs := reachable_consistent h
  have hfollow := branch_editsFollow h
  have hnodup := branch_nodup hs
  have hstep : AppendStep env s
      (appendCompaction env s now summary firstKeptEntryId tokensBefore details fromHook usage).2
      (appendCompaction env s now summary firstKeptEntryId tokensBefore details fromHook usage).1 :=
    appendPayload_step env s now _ (by simp) (by simp)
  have hpayload : (appendCompaction env s now summary firstKeptEntryId tokensBefore details
        fromHook usage).2.payload =
      .compaction summary (firstKeptEntryId.getD (appendCompaction env s now summary
          firstKeptEntryId tokensBefore details fromHook usage).2.id) tokensBefore details usage
        fromHook (compactionSystemMessage env s now) := rfl
  have htimestamp : (appendCompaction env s now summary firstKeptEntryId tokensBefore details
      fromHook usage).2.timestamp = now := rfl
  have hchild : (appendCompaction env s now summary firstKeptEntryId tokensBefore details
      fromHook usage).2.parentId = s.leafId := rfl
  generalize appendCompaction env s now summary firstKeptEntryId tokensBefore details fromHook
    usage = result at hstep hpayload htimestamp hchild ⊢
  obtain ⟨next, compaction⟩ := result
  dsimp only at hstep hpayload htimestamp hchild ⊢
  have hfresh : compaction.id ∉ (getBranch s none).map Entry.id := by
    intro hmem
    obtain ⟨entry, hentry, hid⟩ := mem_map.mp hmem
    exact hstep.fresh hs (hid ▸ mem_ids (branch_subset hs entry hentry))
  have hkeptBranch : fromId (firstKeptEntryId.getD compaction.id) (getBranch s none) =
      keptBranch s firstKeptEntryId := by
    cases firstKeptEntryId with
    | none => exact fromId_of_notMem _ _ hfresh
    | some id => rfl
  have hcompaction : compaction.isCompaction = true := by
    rw [Entry.isCompaction, hpayload]
  have hfirstKept : compaction.firstKeptEntryId =
      some (firstKeptEntryId.getD compaction.id) := by
    rw [Entry.firstKeptEntryId, hpayload]
  -- The new context: the compaction, then the kept branch without system messages.
  have hprojection := projectPath_messages_some env (getBranch s none) [] compaction
    (firstKeptEntryId.getD compaction.id) hfirstKept hcompaction (by simp) hfresh
  have hnextBranch := getBranch_append hs hstep hchild
  rw [← hnextBranch, ← sessionProjection_eq (hstep.consistent hs), retained, hkeptBranch,
    append_nil] at hprojection
  have hnoEdit : (contextEdits (compaction :: (keptBranch s firstKeptEntryId).filter
      (fun entry => !entry.isSystem))).get? compaction.id = none := by
    have hcons := lastEdit_cons_compaction compaction.id
      ((keptBranch s firstKeptEntryId).filter (fun entry => !entry.isSystem)) hcompaction
    rw [lastEdit] at hcons
    rw [hcons]
    refine lastEdit_eq_none _ _ fun edit hedit => ?_
    unfold editOf
    split
    · rename_i targetId replacement hedited
      split
      · rename_i htarget
        have hmem : edit ∈ getBranch s none := by
          rw [← hkeptBranch] at hedit
          exact (dropWhile_suffix _).subset (mem_filter.mp hedit).1
        obtain ⟨before, after, hsplit⟩ := append_of_mem hmem
        obtain ⟨target, htargetMem, hid, -⟩ :=
          hfollow before edit after targetId replacement hsplit hedited
        refine absurd ?_ hfresh
        rw [← htarget, ← hid, hsplit]
        exact mem_map_of_mem (mem_append_left _ htargetMem)
      · rfl
    · rfl
  have hedits : ∀ entry ∈ keptBranch s firstKeptEntryId,
      (contextEdits (compaction :: (keptBranch s firstKeptEntryId).filter
        (fun entry => !entry.isSystem))).get? entry.id =
      (contextEdits (getBranch s none)).get? entry.id := by
    intro entry hentry
    have hcons := lastEdit_cons_compaction entry.id
      ((keptBranch s firstKeptEntryId).filter (fun entry => !entry.isSystem)) hcompaction
    rw [← hkeptBranch] at hentry hcons ⊢
    exact hcons.trans (lastEdit_fromId hfollow hnodup _ hentry)
  have hhead : projectContextEntry env compaction none =
      ((getCurrentSystemMessage (sessionProjection env s).messages).map (fun message =>
          Message.system { message with timestamp := toEpochMs env now })).toList ++
        [createCompactionSummaryMessage summary tokensBefore (toEpochMs env now)] := by
    rw [projectContextEntry, sessionEntryToContextMessages, hpayload]
    dsimp only
    rw [htimestamp, compactionSystemMessage, Option.map_map]
    rfl
  rw [hnoEdit, hhead, flatMap_filter_not_system env _ _ _ hedits, append_assoc,
    singleton_append] at hprojection
  have hrest : ∀ message ∈ createCompactionSummaryMessage summary tokensBefore
        (toEpochMs env now) :: (keptBranch s firstKeptEntryId).flatMap (fun entry =>
          if entry.isSystem then [] else contributed env (contextEdits (getBranch s none)) entry),
      message.isSystem = false := by
    intro message hmessage
    rcases mem_cons.mp hmessage with rfl | hmessage
    · rfl
    · obtain ⟨entry, -, hentry⟩ := mem_flatMap.mp hmessage
      cases hsystem : entry.isSystem with
      | true => simp [hsystem] at hentry
      | false =>
        rw [if_neg (by simp [hsystem])] at hentry
        exact contributed_not_system env _ hsystem message hentry
  obtain ⟨hsystem, htools⟩ := restamped_head (sessionProjection env s).messages _
    (toEpochMs env now) hrest
  refine ⟨hprojection, ?_, by rw [hprojection, hsystem], ?_, by rw [hprojection, htools]⟩
  · rw [sessionProjection_eq hs]
    exact projected_messages hfollow hnodup
  · rw [getCurrentSystemPrompt, getCurrentSystemPrompt, hprojection, hsystem]
    cases getCurrentSystemMessage (sessionProjection env s).messages <;> rfl

/-- Two messages, of which a compaction has hidden the first. -/
def compactedOnce : List Operation :=
  [.appendMessage "t1" (.user ⟨.text "first", 1⟩),
    .appendMessage "t2" (.user ⟨.text "second", 2⟩),
    .appendCompaction "t3" "summary" (some "bbbbbbbb") 10 .null none none]

def compactedSession : Session :=
  run plainEnvironment (newSession ⟨"s", "t0", "/", none⟩ 0) compactedOnce

theorem appendCompaction_effect_second :
    Compacted plainEnvironment compactedSession
      (appendCompaction plainEnvironment compactedSession "t4" "again" (some "bbbbbbbb") 20 .null
        none none).1 "t4" "again" (some "bbbbbbbb") 20 :=
  appendCompaction_effect ((Reachable.start ⟨"s", "t0", "/", none⟩ 0).run compactedOnce) "t4"
    "again" (some "bbbbbbbb") 20 .null none none (by
      intro id hid
      rw [← Option.some.inj hid]
      decide)

def projectedFor (projection : SessionProjection) (entry : Entry) : List Message :=
  (projection.entries.filter (fun item => item.sourceEntry = entry)).flatMap
    ProjectedSessionEntry.messages

/-- Moving the boundary back to an entry that an earlier compaction had hidden shows the
entry again. -/
theorem appendCompaction_shows_hidden :
    Reachable plainEnvironment compactedSession ∧
      "aaaaaaaa" ∈ (getBranch compactedSession none).map Entry.id ∧
      (sessionProjection plainEnvironment
        (appendCompaction plainEnvironment compactedSession "t4" "again" (some "aaaaaaaa") 20
          .null none none).1).messages ≠
        createCompactionSummaryMessage "again" 20 (toEpochMs plainEnvironment "t4") ::
          (keptBranch compactedSession (some "aaaaaaaa")).flatMap (fun entry =>
            if entry.isSystem || entry.isCompaction then []
            else projectedFor (sessionProjection plainEnvironment compactedSession) entry) :=
  ⟨(Reachable.start ⟨"s", "t0", "/", none⟩ 0).run compactedOnce, by decide, by decide⟩

end Pidrei.CompactionEffect
