import Pidrei.EntryRoundTrip

/-!
Loading a session file. The lines that parse are the header and some of the
written entries; the loaded session indexes what decoding gives of them, and its
branches are the root paths that lie within the file.
-/
namespace Pidrei.SessionLoad

open List
open Option (map_eq_some_iff some some_or)

open Values Messages MessageWire MessageRoundTrip SessionEntries SessionManager SessionInvariant
open SessionFile EntryRoundTrip ParentLog TreeNode

/-! Lines. -/

def entryItems (entry : Entry) : Items :=
  toWireItems ([("type", .str (entryType entry.payload)), ("id", .str entry.id),
    ("parentId", serializeOptString entry.parentId), ("timestamp", .str entry.timestamp)] ++
    payloadToWire entry.payload)

def headerItems (header : SessionHeader) : Items :=
  toWireItems ([("type", .str "session"), ("version", int 3), ("id", .str header.id),
    ("timestamp", .str header.timestamp), ("cwd", .str header.cwd)] ++
    putString "parentSession" header.parentSession)

def entryLine (entry : Entry) : Line := .json (dumpJson (entryToWire entry))

def headerLine (header : SessionHeader) : Line := .json (dumpJson (headerToWire header))

theorem lineValue_entryLine (entry : Entry) :
    lineValue (entryLine entry) = some (entryItems entry) := by
  simp only [entryLine, dumpJson, entryToWire, toWireValue, lineValue, entryItems]

theorem lineValue_headerLine (header : SessionHeader) :
    lineValue (headerLine header) = some (headerItems header) := by
  simp only [headerLine, dumpJson, headerToWire, toWireValue, lineValue, headerItems]

theorem isHeader_headerItems (header : SessionHeader) : isHeader (headerItems header) = true := by
  simp only [headerItems, toWireItems_append, toWireItems, toWireValue]
  simp [isHeader, OrderedMap.lookup_cons_ite]

theorem decodeHeader_items (header : SessionHeader) :
    decodeHeader (.dict (headerItems header)) = some header := by
  have h := decodeHeader_written header
  simpa only [dumpJson, headerToWire, toWireValue, headerItems] using h

variable {entry : Entry} {env : Environment} {s next : Session} {op : Operation}

theorem decodeEntry_items (h : TypedPayload entry.payload) :
    decodeEntry (.dict (entryItems entry)) = some (reloadEntry entry) := by
  have hentry := decodeEntry_written h
  simpa only [dumpJson, entryToWire, toWireValue, entryItems] using hentry

theorem mapM_decodeEntry (entries : List Entry)
    (h : ∀ entry ∈ entries, TypedPayload entry.payload) :
    (entries.map entryItems).mapM (fun fields => decodeEntry (.dict fields)) =
      some (entries.map reloadEntry) := by
  induction entries with
  | nil => rfl
  | cons entry rest ih =>
    have hrest := ih (fun other hother => h other (mem_cons_of_mem _ hother))
    rw [map_cons, mapM_cons, decodeEntry_items (h entry mem_cons_self), hrest]
    rfl

def Holds (file : File) (header : SessionHeader) (entries : List Entry) : Prop :=
  (file.lines ++ file.tail.toList).filterMap lineValue =
    headerItems header :: entries.map entryItems

variable {header : SessionHeader} {entries : List Entry} {drawn : Nat} {ops : List Operation}

theorem setSessionFile_of_holds {file : File} (hfile : Holds file header entries)
    (htyped : ∀ entry ∈ entries, TypedPayload entry.payload) (fresh : SessionHeader) (drawn : Nat) :
    setSessionFile (some file) fresh drawn =
      .ok ⟨⟨buildIndex header (entries.map reloadEntry) drawn, true, true⟩,
        some ⟨file.lines ++ file.tail.toList, none⟩⟩ := by
  have hwire : loadWireEntries file = (headerItems header :: entries.map entryItems,
      ⟨file.lines ++ file.tail.toList, none⟩) := by
    unfold loadWireEntries
    rw [hfile]
    dsimp only
    rw [if_pos (isHeader_headerItems header)]
  have hload : loadEntries drawn (headerItems header :: entries.map entryItems) =
      some (buildIndex header (entries.map reloadEntry) drawn) := by
    simp [loadEntries, decodeHeader_items, mapM_decodeEntry entries htyped]
  simp only [setSessionFile, hwire, hload]

/-! The loaded index. -/

theorem foldl_indexEntry_labels (entries : List Entry) (s : Session) :
    (entries.foldl indexEntry s).labelsById = entries.foldl replayLabel s.labelsById := by
  induction entries generalizing s with
  | nil => rfl
  | cons entry rest ih => rw [foldl_cons, ih, indexEntry_labels, foldl_cons]

theorem foldl_indexEntry_byId (entries : List Entry) (s : Session) :
    (entries.foldl indexEntry s).byId =
      s.byId.insertAll (entries.map (fun entry => (entry.id, entry))) := by
  induction entries generalizing s with
  | nil => rfl
  | cons entry rest ih =>
    rw [foldl_cons, ih, indexEntry_byId, map_cons]
    rfl

theorem foldl_indexEntry_leafId (entries : List Entry) (s : Session) :
    (entries.foldl indexEntry s).leafId = (entries.getLast?.map Entry.id).or s.leafId := by
  induction entries using reverseRecOn with
  | nil => rfl
  | append_singleton entries entry _ =>
    rw [foldl_append, foldl_cons, foldl_nil, indexEntry_leafId]
    simp

theorem buildIndex_byId (hnodup : (ids entries).Nodup) :
    (buildIndex header entries drawn).byId.entries =
      entries.map (fun entry => (entry.id, entry)) := by
  have hfresh := OrderedMap.entries_insertAll_of_fresh (OrderedMap.empty)
    (entries.map (fun entry : Entry => (entry.id, entry))) (by
      rw [OrderedMap.empty, nil_append, map_map]
      exact hnodup)
  change (entries.foldl indexEntry (newSession header drawn)).byId.entries = _
  rw [foldl_indexEntry_byId]
  exact hfresh

theorem buildIndex_get? (hnodup : (ids entries).Nodup) (id : String) (entry : Entry) :
    (buildIndex header entries drawn).byId.get? id = some entry ↔
      entry ∈ entries ∧ entry.id = id := by
  rw [OrderedMap.get?_eq_some_iff_mem, buildIndex_byId hnodup, mem_map]
  constructor
  · rintro ⟨other, hother, heq⟩
    cases heq
    exact ⟨hother, rfl⟩
  · rintro ⟨hentry, rfl⟩
    exact ⟨entry, hentry, rfl⟩

section Branch

variable {header : SessionHeader} {entries : List Entry} {drawn : Nat}

theorem buildIndex_follows (hnodup : (ids entries).Nodup) (hne : ∀ id ∈ ids entries, id ≠ "") :
    Follows (parentEntry (buildIndex header entries drawn).byId) entries := by
  intro entry _
  refine ⟨fun hnone => ?_, fun parent hparent hid => ?_⟩
  · change entry.parentId = none at hnone
    rw [parentEntry, hnone]
    rfl
  · change entry.parentId = some parent.id at hid
    rw [parentEntry, hid]
    simp only [findEntry]
    rw [if_neg (hne parent.id (mem_ids hparent)), (buildIndex_get? hnodup _ _).mpr ⟨hparent, rfl⟩]

theorem getBranch_buildIndex (hnodup : (ids entries).Nodup) (hne : ∀ id ∈ ids entries, id ≠ "")
    {path : List Entry} (hpath : RootPath entries entry path)
    (hlength : path.length ≤ entries.length) :
    getBranch (buildIndex header entries drawn) (some entry.id) = path := by
  have hfuel : path.length ≤ (buildIndex header entries drawn).byId.entries.length := by
    rw [buildIndex_byId hnodup, length_map]
    exact hlength
  have hfound : findEntry (buildIndex header entries drawn).byId (some entry.id) = some entry := by
    simp only [findEntry]
    rw [if_neg (hne entry.id (mem_ids hpath.mem)),
      (buildIndex_get? hnodup _ _).mpr ⟨hpath.mem, rfl⟩]
  simp only [getBranch, some_or]
  rw [hfound, followParents, walk_rootPath (buildIndex_follows hnodup hne) hpath _ hfuel]
  simp

theorem mem_of_getBranch (hnodup : (ids entries).Nodup) {id : String}
    (hentry : entry ∈ getBranch (buildIndex header entries drawn) (some id)) : entry ∈ entries := by
  have hfind : ∀ wanted found,
      findEntry (buildIndex header entries drawn).byId wanted = some found → found ∈ entries := by
    intro wanted found hfound
    cases wanted with
    | none => cases hfound
    | some wanted =>
      simp only [findEntry] at hfound
      split at hfound
      · cases hfound
      · exact ((buildIndex_get? hnodup _ _).mp hfound).1
  simp only [getBranch, some_or, followParents] at hentry
  cases hwalk : walk (parentEntry (buildIndex header entries drawn).byId)
      (buildIndex header entries drawn).byId.entries.length
      (findEntry (buildIndex header entries drawn).byId (some id)) [] with
  | none => simp [hwalk] at hentry
  | some path =>
    rw [hwalk, Option.getD_some] at hentry
    rcases mem_of_walk hwalk hentry with hmem | hstart | ⟨other, hother⟩
    · simp at hmem
    · exact hfind _ _ hstart
    · exact hfind _ _ hother

end Branch

/-! Runs. -/

/-- Operations as the callers type them: messages, replacements and the content of a custom
message are dataclasses. -/
def TypedOperation : Operation → Prop
  | .appendMessage _ message => TypedMessage message
  | .appendCustomMessageEntry _ _ content _ _ => TypedContent content
  | .appendContextEdit _ _ replacement =>
    ∀ content, replacement = some content → TypedContent content
  | _ => True

theorem perform_entries {entry : Option Entry} (h : perform env s op = .ok (next, entry)) :
    next.entries = s.entries ++ entry.toList ∧ next.header = s.header := by
  rcases perform_cases h with ⟨rfl, leafId, rfl, -⟩ | ⟨e, rfl, hstep⟩
  · exact ⟨(append_nil _).symm, rfl⟩
  · rw [hstep.next]
    exact ⟨rfl, indexEntry_header s e⟩

theorem typedContent_contentBlocks {content : Content} (h : TypedContent content) :
    TypedContent (contentBlocks content) := by
  cases content with
  | text s =>
    intro block hblock
    rw [mem_singleton.mp hblock]
    exact trivial
  | _ => exact h

def operationPayload (env : Environment) (s : Session) (id : String) : Operation → Option Payload
  | .appendMessage _ message => some (.message message)
  | .appendThinkingLevelChange _ level => some (.thinkingLevelChange level)
  | .appendModelChange _ provider modelId => some (.modelChange provider modelId)
  | .appendUsage _ kind provider model usage note =>
    some (.usage kind provider model usage (if note = some "" then none else note))
  | .appendCompaction now summary firstKept tokensBefore details fromHook usage =>
    some (.compaction summary (firstKept.getD id) tokensBefore details usage fromHook
      (compactionSystemMessage env s now))
  | .appendCustomEntry _ customType data => some (.custom customType data)
  | .appendSessionInfo _ name => some (.sessionInfo (sanitizeName name))
  | .appendCustomMessageEntry _ customType content display details =>
    some (.customMessage customType content display details)
  | .appendContextEdit _ targetId replacement =>
    (s.byId.get? targetId).map (fun target =>
      .contextEdit targetId (normalizeReplacement (targetRole target) replacement))
  | .appendLabelChange _ targetId label => some (.label targetId label)
  | .branch _ | .resetLeaf => none
  | .branchWithSummary _ _ summary details fromHook usage =>
    some (.branchSummary (s.leafId.getD "root") summary details usage fromHook)

theorem perform_payload (h : perform env s op = .ok (next, some entry)) :
    operationPayload env s entry.id op = some entry.payload := by
  cases op with
  | appendContextEdit now targetId replacement =>
    simp only [perform, appendContextEdit] at h
    split at h
    · cases h
    · split at h
      · cases h
      · rename_i target htarget
        split at h
        · cases h
        · split at h
          · cases h
          · obtain rfl := some.inj (Prod.mk.inj (Except.ok.inj h)).2
            rw [operationPayload, htarget]
            rfl
  | appendLabelChange now targetId label =>
    simp only [perform, appendLabelChange] at h
    split at h
    · cases h
    · obtain rfl := some.inj (Prod.mk.inj (Except.ok.inj h)).2
      rfl
  | branch branchFromId =>
    simp only [perform, branch] at h
    split at h
    · cases h
    · cases (Prod.mk.inj (Except.ok.inj h)).2
  | resetLeaf => cases (Prod.mk.inj (Except.ok.inj h)).2
  | branchWithSummary now branchFromId summary details fromHook usage =>
    simp only [perform, branchWithSummary] at h
    split at h
    · cases h
    · obtain rfl := some.inj (Prod.mk.inj (Except.ok.inj h)).2
      rfl
  | _ =>
    obtain rfl := some.inj (Prod.mk.inj (Except.ok.inj h)).2
    rfl

theorem perform_typed (hop : TypedOperation op) (h : perform env s op = .ok (next, some entry)) :
    TypedPayload entry.payload := by
  have hpayload := perform_payload h
  cases op with
  | appendMessage | appendCustomMessageEntry =>
    rw [← some.inj hpayload]
    exact hop
  | appendCompaction now summary firstKept tokensBefore details fromHook usage =>
    rw [← some.inj hpayload]
    intro message hmessage
    obtain ⟨current, hcurrent, rfl⟩ := map_eq_some_iff.mp hmessage
    simp only [Transcript.getCurrentSystemMessage] at hcurrent
    split at hcurrent
    · cases hcurrent
    · cases hcurrent
      exact trivial
  | appendContextEdit now targetId replacement =>
    obtain ⟨target, -, hedit⟩ := map_eq_some_iff.mp hpayload
    rw [← hedit]
    intro content hcontent
    simp only [normalizeReplacement] at hcontent
    split at hcontent
    · obtain ⟨original, horiginal, rfl⟩ := map_eq_some_iff.mp hcontent
      exact typedContent_contentBlocks (hop original horiginal)
    · exact hop content hcontent
  | branch | resetLeaf => cases hpayload
  | _ =>
    rw [← some.inj hpayload]
    exact trivial

theorem persistEntry_session (store : Store) (entry : Entry) (outcome : Outcome) :
    (persistEntry store entry outcome).1.manager.session = store.manager.session := by
  unfold persistEntry
  split
  · rfl
  · dsimp only
    split <;> rfl

theorem step_session (env : Environment) (store : Store) (op : Operation) (outcome : Outcome) :
    (step env store op outcome).1.manager.session =
      match perform env store.manager.session op with
      | .ok (next, _) => next
      | .error _ => store.manager.session := by
  cases hop : perform env store.manager.session op with
  | error message => simp only [step, hop]
  | ok result =>
    obtain ⟨next, entry⟩ := result
    cases entry with
    | none => simp only [step, hop]
    | some entry => simp only [step, hop, persistEntry_session]

theorem runSteps_session (env : Environment) (steps : List (Operation × Outcome)) (store : Store) :
    (runSteps env store steps).manager.session =
      run env store.manager.session (steps.map Prod.fst) := by
  induction steps generalizing store with
  | nil => rfl
  | cons item rest ih =>
    obtain ⟨op, outcome⟩ := item
    rw [runSteps, ih, step_session, map_cons, run]
    cases perform env store.manager.session op <;> rfl

theorem run_forall {good : Entry → Prop}
    (hops : ∀ op ∈ ops, ∀ s next entry, perform env s op = .ok (next, some entry) → good entry)
    (hs : ∀ entry ∈ s.entries, good entry) : ∀ entry ∈ (run env s ops).entries, good entry := by
  induction ops generalizing s with
  | nil => exact hs
  | cons op rest ih =>
    have hrest := fun other hother => hops other (mem_cons_of_mem _ hother)
    unfold run
    split
    · rename_i next appended hop
      refine ih hrest ?_
      rw [(perform_entries hop).1]
      intro entry hentry
      rcases mem_append.mp hentry with hold | hnew
      · exact hs entry hold
      · rw [Option.mem_toList] at hnew
        subst hnew
        exact hops op mem_cons_self _ _ _ hop
    · exact ih hrest hs

theorem run_keeps (ops : List Operation) (h : entry ∈ s.entries) :
    entry ∈ (run env s ops).entries := by
  induction ops generalizing s with
  | nil => exact h
  | cons op rest ih =>
    unfold run
    split
    · rename_i next appended hop
      refine ih ?_
      rw [(perform_entries hop).1]
      exact mem_append_left _ h
    · exact ih h

theorem run_exists {good : Entry → Prop} (hmem : op ∈ ops)
    (hop : ∀ s, ∃ next entry, perform env s op = .ok (next, some entry) ∧ good entry)
    (s : Session) : ∃ entry ∈ (run env s ops).entries, good entry := by
  induction ops generalizing s with
  | nil => simp at hmem
  | cons first rest ih =>
    rcases mem_cons.mp hmem with rfl | hmem
    · obtain ⟨next, entry, hok, hgood⟩ := hop s
      refine ⟨entry, ?_, hgood⟩
      rw [run, hok]
      refine run_keeps rest ?_
      rw [(perform_entries hok).1]
      simp
    · unfold run
      split
      · exact ih hmem _
      · exact ih hmem _

theorem hasConversation_append (s next : Session) (entry : Option Entry)
    (h : next.entries = s.entries ++ entry.toList) :
    hasConversation next = (hasConversation s || entry.any Entry.isConversation) := by
  rw [hasConversation, h, any_append]
  cases entry <;> simp [hasConversation]

end Pidrei.SessionLoad
