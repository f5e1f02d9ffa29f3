import Pidrei.SessionLoad

/-!
A session whose writes succeed and what a fresh manager loads from its file. The
file is the whole session, in append order, from the first conversation message
on. The loaded session has the ids, parents, labels and leaf of the written one,
and its context at every entry is the written one's in wire form, unless a custom
message entry has content blocks: these are written and not decoded.
-/
namespace Pidrei.SessionReload

open List

open Values Messages MessageWire MessageRoundTrip SessionEntries SessionManager SessionInvariant
open SessionFile EntryRoundTrip SessionLoad ContextProjection BranchExtraction CompactionEffect
open ParentLog TreeNode

/-! The file of a session whose writes succeed. -/

def fileLines (s : Session) : List Line := headerLine s.header :: s.entries.map entryLine

theorem map_sessionLines (s : Session) : (sessionLines s).map Line.json = fileLines s := by
  rw [sessionLines, map_cons, map_map]
  rfl

theorem append_terminated (lines : List Line) (values : List Value) :
    File.append ⟨lines, none⟩ values = ⟨lines ++ values.map .json, none⟩ := by
  cases values with
  | nil => rw [File.append, map_nil, append_nil]
  | cons value rest =>
    simp only [File.append, File.firstLine, Option.isSome_none, Bool.false_eq_true, if_false,
      map_cons]

/-- The file is the whole session, or is not created before the conversation starts. -/
structure Synced (env : Environment) (store : Store) : Prop where
  reachable : Reachable env store.manager.session
  persist : store.manager.persist = true
  written : store.manager.flushed = true →
    store.disk = some ⟨fileLines store.manager.session, none⟩
  deferred : store.manager.flushed = false →
    store.disk = none ∧ hasConversation store.manager.session = false

variable {store : Store} {next : Session} {entry : Entry} {op : Operation} {disk : Option File}
  {header : SessionHeader} {drawn : Nat} {env : Environment} {s : Session} {path : List Entry}

theorem synced_start (env : Environment) (hdisk : disk = none ∨ disk = some .empty)
    (hstart : setSessionFile disk header drawn = .ok store) : Synced env store := by
  rcases hdisk with rfl | rfl
  · cases hstart
    exact ⟨.start header drawn, rfl, nofun, fun _ => ⟨rfl, rfl⟩⟩
  · cases hstart
    exact ⟨.start header drawn, rfl, fun _ => rfl, nofun⟩

theorem Synced.persistEntry (h : Synced env store) (hnext : Reachable env next)
    (hentries : next.entries = store.manager.session.entries ++ [entry])
    (hheader : next.header = store.manager.session.header) : Synced env (SessionFile.persistEntry
      { store with manager := { store.manager with session := next } } entry .done).1 := by
  obtain ⟨⟨session, persist, flushed⟩, disk⟩ := store
  obtain ⟨-, rfl, hwritten, hdeferred⟩ := h
  dsimp only at hentries hheader hwritten hdeferred ⊢
  have hlines : fileLines next = fileLines session ++ [entryLine entry] := by
    simp [fileLines, hentries, hheader]
  cases flushed with
  | true =>
    obtain rfl := hwritten rfl
    refine ⟨by rwa [persistEntry_session], rfl, fun _ => ?_, nofun⟩
    rw [persistEntry_session, hlines]
    exact congrArg some (append_terminated (fileLines session) _)
  | false =>
    obtain ⟨rfl, -⟩ := hdeferred rfl
    cases hconversation : hasConversation next with
    | false =>
      have hplan : planPersist ⟨next, true, false⟩ entry = none := by
        simp [planPersist, hconversation]
      simp only [SessionFile.persistEntry, hplan]
      exact ⟨hnext, rfl, nofun, fun _ => ⟨rfl, hconversation⟩⟩
    | true =>
      have hplan : planPersist ⟨next, true, false⟩ entry =
          some (.exclusive, sessionLines next) := by
        simp [planPersist, hconversation]
      have hfile : File.empty.append (sessionLines next) = ⟨fileLines next, none⟩ := by
        rw [File.empty, append_terminated, map_sessionLines, nil_append]
      simp only [SessionFile.persistEntry, hplan, writeSessionBytes, Option.getD_none, hfile]
      exact ⟨hnext, rfl, fun _ => rfl, nofun⟩

theorem Synced.step {env : Environment} {store : Store} (h : Synced env store) (op : Operation) :
    Synced env (SessionFile.step env store op .done).1 := by
  cases hop : perform env store.manager.session op with
  | error message => simpa only [SessionFile.step, hop] using h
  | ok result =>
    obtain ⟨next, entry⟩ := result
    have hreach := h.reachable.step op hop
    obtain ⟨hentries, hheader⟩ := perform_entries hop
    cases entry with
    | none =>
      simp only [SessionFile.step, hop]
      rw [Option.toList_none, append_nil] at hentries
      refine ⟨hreach, h.persist, fun hflushed => ?_, fun hflushed => ?_⟩
      · rw [h.written hflushed, fileLines, fileLines, hentries, hheader]
      · obtain ⟨hdisk, hconversation⟩ := h.deferred hflushed
        rw [hasConversation] at hconversation ⊢
        exact ⟨hdisk, by rw [hentries, hconversation]⟩
    | some entry =>
      simp only [SessionFile.step, hop]
      exact h.persistEntry hreach hentries hheader

def runDone (env : Environment) (store : Store) (ops : List Operation) : Store :=
  runSteps env store (ops.map (fun op => (op, .done)))

theorem Synced.runDone (h : Synced env store) (ops : List Operation) :
    Synced env (SessionReload.runDone env store ops) := by
  induction ops generalizing store with
  | nil => exact h
  | cons op rest ih => exact ih (h.step op)

theorem runDone_session (env : Environment) (store : Store) (ops : List Operation) :
    (runDone env store ops).manager.session = run env store.manager.session ops := by
  rw [runDone, runSteps_session, map_map]
  congr 1
  exact map_id ops

/-! What a fresh manager loads. -/

/-- The projection with another leaf. -/
def messagesAt (env : Environment) (s : Session) (id : String) : List Message :=
  (buildSessionProjection env s.entries (.given (some id)) s.byId).messages

structure Reloaded (env : Environment) (s loaded : Session) : Prop where
  ids : loaded.entries.map Entry.id = s.entries.map Entry.id
  parents : loaded.entries.map Entry.parentId = s.entries.map Entry.parentId
  labels : loaded.labelsById = s.labelsById
  leaf : loaded.leafId = s.entries.getLast?.map Entry.id
  context : ∀ id ∈ s.entries.map Entry.id,
    messagesAt env loaded id = (messagesAt env s id).map wireMessage

theorem Synced.disk_eq (h : Synced env store)
    (hconversation : hasConversation store.manager.session = true) :
    store.disk = some ⟨fileLines store.manager.session, none⟩ := by
  cases hflushed : store.manager.flushed with
  | true => exact h.written hflushed
  | false =>
    rw [(h.deferred hflushed).2] at hconversation
    cases hconversation

theorem holds_fileLines (s : Session) : Holds ⟨fileLines s, none⟩ s.header s.entries := by
  have hentries : ∀ entries : List Entry,
      (entries.map entryLine).filterMap lineValue = entries.map entryItems := by
    intro entries
    rw [filterMap_map]
    exact filterMap_eq_map_iff_forall_eq_some.mpr fun entry _ => lineValue_entryLine entry
  rw [Holds, fileLines, Option.toList_none, append_nil,
    filterMap_cons_some (lineValue_headerLine s.header), hentries]

/-- With a conversation, the file is the session and loading it gives the session back. -/
def RoundTrips (env : Environment) (store : Store) : Prop :=
  hasConversation store.manager.session = true →
    store.disk = some ⟨(sessionLines store.manager.session).map .json, none⟩ ∧
      ∀ fresh drawn, ∃ reopened, setSessionFile store.disk fresh drawn = .ok reopened ∧
        Reloaded env store.manager.session reopened.manager.session

theorem messagesAt_eq (h : Consistent env s) (hpath : RootPath s.entries entry path) :
    messagesAt env s entry.id = (projectPath env path).messages := by
  have hbuild : buildSessionPath s.entries (.given (some entry.id)) s.byId = path := by
    simp only [buildSessionPath]
    rw [h.get?_self hpath.mem, Option.some_or, h.followParents_eq hpath]
  rw [messagesAt, buildSessionProjection, hbuild]

theorem replayLabel_reload (entries : List Entry) (labels : OrderedMap String String) :
    (entries.map reloadEntry).foldl replayLabel labels = entries.foldl replayLabel labels := by
  rw [foldl_map]
  congr 1
  funext labels entry
  obtain ⟨id, parentId, timestamp, payload⟩ := entry
  cases payload <;> rfl

/-- The session that is loaded from the file of `s`. -/
def loadedFrom (s : Session) (drawn : Nat) : Session :=
  buildIndex s.header (s.entries.map reloadEntry) drawn

section Load

variable {env : Environment} {s : Session}

theorem grown_reload (h : Consistent env s) : Grown (s.entries.map reloadEntry) :=
  h.grown.map (fun _ => rfl) (fun _ => rfl)

theorem ids_reload (entries : List Entry) : ids (entries.map reloadEntry) = ids entries :=
  ids_map (fun _ => rfl)

theorem consistent_loadedFrom (h : Consistent env s) : Consistent env (loadedFrom s s.drawn) :=
  consistent_buildIndex env s.header _ s.drawn (grown_reload h) (by rw [ids_reload]; exact h.drawn)

theorem messagesAt_loadedFrom (h : Consistent env s) {path : List Entry}
    (hpath : RootPath s.entries entry path) (drawn : Nat) :
    messagesAt env (loadedFrom s drawn) entry.id =
      (projectPath env (path.map reloadEntry)).messages := by
  have hreloaded : RootPath (s.entries.map reloadEntry) (reloadEntry entry)
      (path.map reloadEntry) := hpath.map (fun _ => rfl) (fun _ => rfl)
  have hmessages := messagesAt_eq (consistent_loadedFrom h) hreloaded
  have hbyId : (loadedFrom s drawn).byId = (loadedFrom s s.drawn).byId := by
    refine OrderedMap.ext ?_
    have hnodup := (grown_reload h).nodup_ids
    rw [loadedFrom, loadedFrom, buildIndex_byId hnodup, buildIndex_byId hnodup]
  rw [messagesAt, hbyId]
  exact hmessages

theorem labels_loadedFrom (h : Consistent env s) (drawn : Nat) :
    (loadedFrom s drawn).labelsById = s.labelsById := by
  rw [h.labels, ← replayLabel_reload]
  exact foldl_indexEntry_labels _ _

theorem leafId_loadedFrom (s : Session) (drawn : Nat) :
    (loadedFrom s drawn).leafId = s.entries.getLast?.map Entry.id := by
  refine (foldl_indexEntry_leafId _ _).trans ?_
  rw [getLast?_map, Option.map_map]
  exact Option.or_none

/-- Every custom message entry comes back as it was. -/
theorem reloaded_of_kept (h : Consistent env s) (hkept : ∀ entry ∈ s.entries, ¬ LosesBlocks entry)
    (drawn : Nat) : Reloaded env s (loadedFrom s drawn) where
  ids := ids_reload s.entries
  parents := by
    change (s.entries.map reloadEntry).map Entry.parentId = _
    rw [map_map]
    rfl
  labels := labels_loadedFrom h drawn
  leaf := leafId_loadedFrom s drawn
  context := by
    intro id hid
    obtain ⟨entry, hentry, rfl⟩ := mem_map.mp hid
    obtain ⟨path, hpath⟩ := h.grown.exists_rootPath hentry
    rw [messagesAt_loadedFrom h hpath, messagesAt_eq h hpath]
    refine projectPath_reload env path ?_ fun other hother => hkept other (hpath.subset other hother)
    exact ((hpath.sublist h.grown).map Entry.id).nodup h.grown.nodup_ids

end Load

/-! The last entry of a path. -/

theorem projectPath_last (env : Environment) (path : List Entry) (entry : Entry)
    (hplain : entry.isCompaction = false)
    (hedits : ∀ other ∈ path ++ [entry], editOf entry.id other = none)
    (hnodup : ((path ++ [entry]).map Entry.id).Nodup) :
    ∃ before, (projectPath env (path ++ [entry])).messages =
      before ++ sessionEntryToContextMessages env entry := by
  have hlast : ∀ entries, (∀ other ∈ entries, other ∈ path ++ [entry]) →
      contributed env (contextEdits entries) entry = sessionEntryToContextMessages env entry := by
    intro entries hsubset
    have hnone := lastEdit_eq_none entry.id entries (fun other hother =>
      hedits other (hsubset other hother))
    rw [lastEdit] at hnone
    simp only [contributed, hplain, hnone, Bool.false_eq_true, if_false, projectContextEntry]
  rcases exists_latestCompaction (path ++ [entry]) with
    hnone | ⟨before, compaction, after, hsplit, hcompaction, hafter⟩
  · rw [projectPath_messages_none env _ hnone, flatMap_append, flatMap_singleton,
      hlast _ (fun _ h => h)]
    exact ⟨_, rfl⟩
  · rcases eq_nil_or_concat after with rfl | ⟨later, last, rfl⟩
    · obtain ⟨-, hentry⟩ := append_inj' hsplit rfl
      obtain rfl := (cons.inj hentry).1
      rw [hplain] at hcompaction
      cases hcompaction
    · rw [concat_eq_append] at hsplit hafter
      have hassoc : before ++ compaction :: (later ++ [last]) =
          (before ++ compaction :: later) ++ [last] := by simp
      obtain ⟨hpath, hentry⟩ := append_inj' (hsplit.trans hassoc) rfl
      obtain rfl := (cons.inj hentry).1
      obtain ⟨firstKept, hkept⟩ := exists_firstKept hcompaction
      have hfresh : compaction.id ∉ before.map Entry.id := by
        rw [hsplit, map_append, map_cons, nodup_append] at hnodup
        exact fun hmem => hnodup.2.2 _ hmem _ mem_cons_self rfl
      have hretained : retained before (later ++ [entry]) firstKept =
          retained before later firstKept ++ [entry] := by
        rw [retained, retained, append_assoc]
      have hsubset : ∀ other ∈ compaction :: retained before (later ++ [entry]) firstKept,
          other ∈ path ++ [entry] := by
        intro other hother
        rw [hsplit]
        rcases mem_cons.mp hother with rfl | hother
        · simp
        · rcases mem_append.mp hother with hold | hlater
          · exact mem_append_left _
              ((dropWhile_suffix _).subset (mem_filter.mp hold).1)
          · exact mem_append_right _ (mem_cons_of_mem _ hlater)
      rw [hsplit, projectPath_messages_some env before _ compaction firstKept hkept hcompaction
        hafter hfresh, hretained, flatMap_append, flatMap_singleton, ← hretained,
        hlast _ hsubset, ← append_assoc]
      exact ⟨_, rfl⟩

theorem editOf_last (h : EditsFollow (path ++ [entry]))
    (hnodup : ((path ++ [entry]).map Entry.id).Nodup) :
    ∀ other ∈ path ++ [entry], editOf entry.id other = none := by
  intro other hother
  unfold editOf
  split
  · rename_i targetId replacement hpayload
    split
    · rename_i htarget
      obtain ⟨before, after, hsplit⟩ := append_of_mem hother
      obtain ⟨target, hmem, hid, -⟩ := h before other after targetId replacement hsplit hpayload
      have hends : ∃ rest, other :: after = rest ++ [entry] := by
        rcases eq_nil_or_concat after with rfl | ⟨rest, last, rfl⟩
        · obtain ⟨-, hlast⟩ := append_inj' hsplit rfl
          exact ⟨[], by rw [← (cons.inj hlast).1]; rfl⟩
        · rw [concat_eq_append] at hsplit ⊢
          have hassoc : before ++ other :: (rest ++ [last]) = (before ++ other :: rest) ++ [last] := by
            simp
          obtain ⟨-, hlast⟩ := append_inj' (hsplit.trans hassoc) rfl
          exact ⟨other :: rest, by rw [← (cons.inj hlast).1]; rfl⟩
      obtain ⟨rest, hends⟩ := hends
      rw [hsplit, hends, ← append_assoc, map_append, nodup_append] at hnodup
      refine absurd (hid.trans htarget) (hnodup.2.2 target.id ?_ entry.id (by simp))
      exact mem_map_of_mem (mem_append_left _ hmem)
    · rfl
  · rfl

/-! Custom messages with blocks. -/

def HoldsBlocks : Operation → Prop
  | .appendCustomMessageEntry _ _ (.blocks (_ :: _)) _ _ => True
  | _ => False

def StartsConversation : Operation → Prop
  | .appendMessage _ message => message.isConversation = true
  | _ => False

theorem wireBlock_ne_raw {block : ContentBlock} (h : TypedBlock block) (data : Value) :
    wireBlock block ≠ .raw data := by
  cases block with
  | raw => exact absurd h id
  | _ => simp [wireBlock]

theorem context_differs (h : Reachable env s) (hentry : entry ∈ s.entries)
    (hloses : LosesBlocks entry) (htyped : TypedPayload entry.payload) (drawn : Nat) :
    messagesAt env (loadedFrom s drawn) entry.id ≠
      (messagesAt env s entry.id).map wireMessage := by
  have hs := reachable_consistent h
  obtain ⟨path, hpath⟩ := hs.grown.exists_rootPath hentry
  have hfollow := reachable_editsFollow h entry path hpath
  have hnodup := ((hpath.sublist hs.grown).map Entry.id).nodup hs.grown.nodup_ids
  obtain ⟨customType, block, blocks, display, details, hpayload⟩ := hloses
  have hplain : entry.isCompaction = false := by rw [Entry.isCompaction, hpayload]
  obtain ⟨above, rfl⟩ : ∃ above, path = above ++ [entry] := by
    cases hpath with
    | root => exact ⟨[], rfl⟩
    | child => exact ⟨_, rfl⟩
  have hedits := editOf_last hfollow hnodup
  have hedits' : ∀ other ∈ (above.map reloadEntry) ++ [reloadEntry entry],
      editOf (reloadEntry entry).id other = none := by
    intro other hother
    have hother' : other ∈ (above ++ [entry]).map reloadEntry := by rwa [map_append]
    obtain ⟨original, horiginal, rfl⟩ := mem_map.mp hother'
    have hnone := hedits original horiginal
    have hreload := editOf_reload entry.id original
    rw [hnone] at hreload
    exact hreload
  have hnodup' : (((above.map reloadEntry) ++ [reloadEntry entry]).map Entry.id).Nodup := by
    have hids := ids_reload (above ++ [entry])
    rw [map_append] at hids
    change (ids (above.map reloadEntry ++ [entry].map reloadEntry)).Nodup
    rw [hids]
    exact hnodup
  obtain ⟨before, hbefore⟩ := projectPath_last env above entry hplain hedits hnodup
  obtain ⟨before', hbefore'⟩ := projectPath_last env (above.map reloadEntry) (reloadEntry entry)
    (by rw [isCompaction_reload, hplain]) hedits' hnodup'
  rw [messagesAt_loadedFrom hs hpath, messagesAt_eq hs hpath, map_append, map_cons,
    map_nil, hbefore, hbefore', map_append]
  intro heq
  rw [hpayload] at htyped
  have hlast := (append_inj' heq (by
    simp [sessionEntryToContextMessages, hpayload, reloadEntry, reloadPayload])).2
  simp [sessionEntryToContextMessages, hpayload, reloadEntry, reloadPayload, reloadContent,
    createCustomMessage, wireMessage, wireContent] at hlast
  exact wireBlock_ne_raw (htyped block mem_cons_self) _ hlast.1.symm

theorem holdsBlocks_of_perform (h : perform env s op = .ok (next, some entry))
    (hloses : LosesBlocks entry) : HoldsBlocks op := by
  obtain ⟨customType, block, blocks, display, details, hentry⟩ := hloses
  have hpayload := perform_payload h
  rw [hentry] at hpayload
  cases op with
  | appendCustomMessageEntry now otherType content otherDisplay otherDetails =>
    obtain ⟨-, rfl, -⟩ := Payload.customMessage.inj (Option.some.inj hpayload)
    exact trivial
  | appendContextEdit now targetId replacement =>
    obtain ⟨target, -, hedit⟩ := Option.map_eq_some_iff.mp hpayload
    cases hedit
  | _ => cases hpayload

theorem startsConversation_of_perform (h : perform env s op = .ok (next, some entry))
    (hconversation : entry.isConversation = true) : StartsConversation op := by
  have hpayload := perform_payload h
  unfold Entry.isConversation at hconversation
  split at hconversation
  · rename_i message hmessage
    rw [hmessage] at hpayload
    cases op with
    | appendMessage now other =>
      obtain rfl := Payload.message.inj (Option.some.inj hpayload)
      exact hconversation
    | appendContextEdit now targetId replacement =>
      obtain ⟨target, -, hedit⟩ := Option.map_eq_some_iff.mp hpayload
      cases hedit
    | _ => cases hpayload
  · cases hconversation

theorem losesBlocks_of_holdsBlocks (h : HoldsBlocks op) (env : Environment) (s : Session) :
    ∃ next entry, perform env s op = .ok (next, some entry) ∧ LosesBlocks entry := by
  unfold HoldsBlocks at h
  split at h
  · exact ⟨_, _, rfl, _, _, _, _, _, rfl⟩
  · exact absurd h id

theorem conversation_of_startsConversation (h : StartsConversation op) (env : Environment)
    (s : Session) :
    ∃ next entry, perform env s op = .ok (next, some entry) ∧ entry.isConversation = true := by
  unfold StartsConversation at h
  split at h
  · exact ⟨_, _, rfl, h⟩
  · exact absurd h id

theorem hasConversation_run (env : Environment) (header : SessionHeader) (drawn : Nat)
    (ops : List Operation) :
    hasConversation (run env (newSession header drawn) ops) = true ↔
      ∃ op ∈ ops, StartsConversation op := by
  rw [hasConversation, any_eq_true]
  constructor
  · rintro ⟨entry, hentry, hconversation⟩
    by_contra hnone
    have hplain : ∀ entry ∈ (run env (newSession header drawn) ops).entries,
        ¬ entry.isConversation = true :=
      run_forall (fun op hop s next entry hok hstarts =>
        hnone ⟨op, hop, startsConversation_of_perform hok hstarts⟩)
        (fun _ hnew => by simp [newSession] at hnew)
    exact hplain entry hentry hconversation
  · rintro ⟨op, hop, hstarts⟩
    exact run_exists hop (conversation_of_startsConversation hstarts env) _

theorem session_of_start (hdisk : disk = none ∨ disk = some .empty)
    (hstart : setSessionFile disk header drawn = .ok store) :
    store.manager.session = newSession header drawn := by
  rcases hdisk with rfl | rfl
  · cases hstart
    rfl
  · cases hstart
    rfl

theorem roundTrips_of_kept (h : Synced env store)
    (htyped : ∀ entry ∈ store.manager.session.entries, TypedPayload entry.payload)
    (hkept : ∀ entry ∈ store.manager.session.entries, ¬ LosesBlocks entry) :
    RoundTrips env store := by
  intro hconversation
  have hdisk := h.disk_eq hconversation
  refine ⟨by rw [map_sessionLines]; exact hdisk, fun fresh drawn => ?_⟩
  rw [hdisk]
  exact ⟨_, setSessionFile_of_holds (holds_fileLines _) htyped fresh drawn,
    reloaded_of_kept (reachable_consistent h.reachable) hkept drawn⟩

/-- Persisting and loading gives the session back, in every run whose writes succeed, exactly
when no custom message with blocks is appended to a session with a conversation. -/
theorem persist_roundTrips_iff (env : Environment) {disk : Option File} {header : SessionHeader}
    {drawn : Nat} {store : Store} (hdisk : disk = none ∨ disk = some .empty)
    (hstart : setSessionFile disk header drawn = .ok store) (ops : List Operation)
    (hops : ∀ op ∈ ops, TypedOperation op) :
    RoundTrips env (runDone env store ops) ↔
      ((∃ op ∈ ops, StartsConversation op) → ∀ op ∈ ops, ¬ HoldsBlocks op) := by
  have hsession : (runDone env store ops).manager.session =
      run env (newSession header drawn) ops := by
    rw [runDone_session, session_of_start hdisk hstart]
  have hsynced := (synced_start env hdisk hstart).runDone ops
  have htyped : ∀ entry ∈ (run env (newSession header drawn) ops).entries,
      TypedPayload entry.payload :=
    run_forall (fun op hop s next entry hok => perform_typed (hops op hop) hok)
      (fun _ hnew => by simp [newSession] at hnew)
  constructor
  · intro htrips hconversation op hop hholds
    have htalks := (hasConversation_run env header drawn ops).mpr hconversation
    obtain ⟨entry, hentry, hloses⟩ := run_exists hop (losesBlocks_of_holdsBlocks hholds env)
      (newSession header drawn)
    rw [← hsession] at htalks hentry htyped
    obtain ⟨-, hload⟩ := htrips htalks
    obtain ⟨reopened, hok, hreloaded⟩ := hload header drawn
    rw [hsynced.disk_eq htalks,
      setSessionFile_of_holds (holds_fileLines _) htyped header drawn] at hok
    cases hok
    exact context_differs hsynced.reachable hentry hloses (htyped entry hentry) drawn
      (hreloaded.context entry.id (mem_map_of_mem hentry))
  · intro hnone htalks
    have hstarts := (hasConversation_run env header drawn ops).mp (by rw [← hsession]; exact htalks)
    have hkept : ∀ entry ∈ (run env (newSession header drawn) ops).entries,
        ¬ LosesBlocks entry :=
      run_forall (fun op hop s next entry hok hloses =>
        hnone hstarts op hop (holdsBlocks_of_perform hok hloses))
        (fun _ hnew => by simp [newSession] at hnew)
    rw [← hsession] at hkept htyped
    exact roundTrips_of_kept hsynced htyped hkept htalks

/-- A user message and a custom message with a text block. -/
def noteWithBlock : List Operation :=
  [.appendMessage "2025-01-01T00:00:00.000Z" (.user ⟨.text "hi", 0⟩),
    .appendCustomMessageEntry "2025-01-01T00:00:01.000Z" "note" (.blocks [.text "seen" none]) true
      .null]

theorem persist_roundTrips_iff_noteWithText :
    RoundTrips plainEnvironment (runDone plainEnvironment
      ⟨⟨newSession ⟨"s", "t", "/", none⟩ 0, true, false⟩, none⟩
      [.appendMessage "t" (.user ⟨.text "hi", 0⟩),
        .appendCustomMessageEntry "t" "note" (.text "seen") true .null]) :=
  (persist_roundTrips_iff plainEnvironment (.inl rfl) rfl _ (by
    intro op hop
    simp only [mem_cons, not_mem_nil, or_false] at hop
    rcases hop with rfl | rfl <;> exact trivial)).mpr (by
    intro _ op hop
    simp only [mem_cons, not_mem_nil, or_false] at hop
    rcases hop with rfl | rfl <;> exact id)

/-- The block of the custom message comes back as a JSON value. -/
theorem roundTrip_loses_blocks :
    ¬ RoundTrips plainEnvironment (runDone plainEnvironment
      ⟨⟨newSession ⟨"s", "t", "/", none⟩ 0, true, false⟩, none⟩ noteWithBlock) := by
  intro htrips
  obtain ⟨-, hload⟩ := htrips (by decide)
  obtain ⟨reopened, hok, hreloaded⟩ := hload ⟨"s", "t", "/", none⟩ 0
  have hcontext := hreloaded.context "bbbbbbbb" (by decide)
  cases hok
  exact absurd hcontext (by decide)

end Pidrei.SessionReload
