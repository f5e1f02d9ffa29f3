import Pidrei.FileTracking

/-!
Omitting a failed attempt. The agent's transcript is the projection of the
session, and a message is an object: what the projection shows unchanged is the
object of the entry, what an edit changed is a copy. The failed message and the
tool results that answer it are resolved to entries by the table of the run, by
identity on the branch, or by position in the projection, and an edit without a
replacement hides each of them.
-/
namespace Pidrei.RecoveryOmission

open Values Messages SessionEntries SessionManager SessionInvariant ContextProjection List
open BranchExtraction CompactionEffect Compaction CompactionCut CompactionPartition FileTracking
open ParentLog
open Option (bind_some map_some some)
open Function (comp comp_def update update_of_ne update_self)
open Prod (fst mk snd)

/-! ### The state -/

/-- The session with its message objects, each named by its address: `objects` by the entry that
holds it, `entryIds` is `_entry_ids_by_message`, `transcript` is `agent.state.messages`.
Addresses below `allocated` are taken. -/
structure AgentState where
  session : Session
  objects : String → Option Nat
  entryIds : Nat → Option String
  transcript : List (Nat × Message)
  allocated : Nat

def isMessageEntry (entry : Entry) : Bool :=
  match entry.payload with
  | .message _ => true
  | _ => false

def sourced (env : Environment) (path : List Entry) : List (Entry × Message) :=
  (projectPath env path).entries.flatMap fun item => item.messages.map (item.sourceEntry, ·)

def showsOwnObject (edits : OrderedMap String (Option Content)) (entry : Entry) : Bool :=
  match entry.payload with
  | .message message => withContent message = message && (edits.get? entry.id).isNone
  | _ => false

def currentBranch (st : AgentState) : List Entry := getBranch st.session none

def currentEdits (st : AgentState) : OrderedMap String (Option Content) :=
  contextEdits (contextEntriesOfPath (currentBranch st))

/-- `_refresh_finalized_context`: copies get new addresses. -/
def refreshFinalizedContext (env : Environment) (st : AgentState) : AgentState :=
  let shown := sourced env (currentBranch st)
  { st with
    transcript := shown.zipIdx.map fun item =>
      let own := if showsOwnObject (currentEdits st) item.1.1 then st.objects item.1.1.id else none
      (own.getD (st.allocated + item.2), item.1.2)
    allocated := st.allocated + shown.length }

/-- The state after an operation of the session. A new message entry gets an object; the run
records it when the operation persists a message that the agent finished. -/
def afterAppend (st : AgentState) (next : Session) (entry : Option Entry) (recorded : Bool) :
    AgentState :=
  match entry with
  | none => { st with session := next }
  | some entry =>
    if isMessageEntry entry || recorded then
      { st with
        session := next
        objects := if isMessageEntry entry then
            update st.objects entry.id (some st.allocated)
          else st.objects
        entryIds := if recorded then update st.entryIds st.allocated (some entry.id)
          else st.entryIds
        allocated := st.allocated + 1 }
    else { st with session := next }

/-- A session that was just opened: every message entry has an object of its own. -/
def openSession (s : Session) : AgentState where
  session := s
  objects := fun id => s.entries.findIdx? fun entry => entry.id = id && isMessageEntry entry
  entryIds := fun _ => none
  transcript := []
  allocated := s.entries.length

/-! ### The omission -/

/-- `_find_persisted_message_entry_id`. -/
def findPersistedMessageEntryId (env : Environment) (st : AgentState) (address : Nat) :
    Option String :=
  match st.entryIds address with
  | some id => some id
  | none =>
    match (currentBranch st).reverse.find? fun entry =>
        isMessageEntry entry && st.objects entry.id = some address with
    | some entry => some entry.id
    | none =>
      match st.transcript.findIdx? fun item => item.1 = address with
      | some index => entryOfMessage index 0 (projectPath env (currentBranch st)).entries
      | none => none

def toolCallId : ContentBlock → Option String
  | .toolCall call => some call.id
  | _ => none

def toolCallIds : Content → Except String (List String)
  | .blocks blocks => .ok (blocks.filterMap toolCallId)
  | .text _ => .ok []
  | .missing => .error "'NoneType' object is not iterable"

def projectedPosition (id : String) : Nat → List ProjectedSessionEntry → Option Nat
  | _, [] => none
  | position, entry :: rest =>
    if entry.sourceEntry.id = id && !entry.messages.isEmpty then some position
    else projectedPosition id (position + entry.messages.length) rest

/-- Where the transcript shows the attempt, itself or the copy an edit made of it. -/
def attemptIndex (env : Environment) (st : AgentState) (address : Nat) : Option Nat :=
  match st.transcript.findIdx? fun item => item.1 = address with
  | some index => some index
  | none => do
    let entryId ← findPersistedMessageEntryId env st address
    let position ← projectedPosition entryId 0 (projectPath env (currentBranch st)).entries
    if position < st.transcript.length then some position else none

def isAssistant : Message → Bool
  | .assistant _ => true
  | _ => false

/-- A tool result for one of the calls. -/
def answers (callIds : List String) : Message → Bool
  | .toolResult m => m.toolCallId ∈ callIds
  | _ => false

def attemptResults (env : Environment) (st : AgentState) (address : Nat) (callIds : List String) :
    List (Nat × Message) :=
  match attemptIndex env st address with
  | some index =>
    let turn := (st.transcript.drop (index + 1)).takeWhile fun item => !isAssistant item.2
    turn.filter fun item => answers callIds item.2
  | none => []

/-- The edits, one after another; `clock` tells the time of an append to so many entries. -/
def omitEntries (env : Environment) (clock : Nat → String) :
    List (Option String) → Session → Except String Session
  | [], s => .ok s
  | none :: rest, s => omitEntries env clock rest s
  | some id :: rest, s =>
    if id = "" then omitEntries env clock rest s
    else do
      let (next, _) ← appendContextEdit env s (clock s.entries.length) id none
      omitEntries env clock rest next

/-- `_omit_recovery_attempt`; the attempt is given by its address. -/
def omitRecoveryAttempt (env : Environment) (clock : Nat → String) (st : AgentState)
    (address : Nat) (message : AssistantMessage) : Except String AgentState := do
  let callIds ← toolCallIds message.content
  let targets := address :: (attemptResults env st address callIds).map fst
  let targetIds := targets.map (findPersistedMessageEntryId env st)
  if (targets.zip targetIds).any fun item =>
      item.2.isNone && st.transcript.any fun shown => shown.1 = item.1 then
    .error "Cannot persist recovery omission because a projected message has no source entry"
  else
    let session ← omitEntries env clock targetIds st.session
    return refreshFinalizedContext env { st with session }

/-! ### Objects and entries -/

/-- The states that opening a session, the operations on it, rebinding the transcript and the
end of a run lead to. -/
inductive AgentReachable (env : Environment) : AgentState → Prop
  | opened {s : Session} (h : Reachable env s) : AgentReachable env (openSession s)
  | append {st : AgentState} (h : AgentReachable env st) (op : Operation) {next : Session}
      {entry : Option Entry} (hop : perform env st.session op = .ok (next, entry))
      (recorded : Bool) : AgentReachable env (afterAppend st next entry recorded)
  | rebind {st : AgentState} (h : AgentReachable env st) (transcript : List (Nat × Message))
      (more : Nat) :
      AgentReachable env { st with transcript, allocated := st.allocated + more }
  | endRun {st : AgentState} (h : AgentReachable env st) :
      AgentReachable env { st with entryIds := fun _ => none }

variable {env : Environment} {st : AgentState} {s : Session} {op : Operation} {entry : Option Entry}

theorem AgentReachable.refresh (h : AgentReachable env st) :
    AgentReachable env (refreshFinalizedContext env st) := h.rebind _ _

/-- Every message entry has an object, no two entries share one, and the table knows the entry
of what it records. -/
structure Owned (env : Environment) (st : AgentState) : Prop where
  reachable : Reachable env st.session
  total : ∀ entry ∈ st.session.entries, isMessageEntry entry = true →
    ∃ address, st.objects entry.id = some address
  known : ∀ id address, st.objects id = some address →
    id ∈ ids st.session.entries ∧ address < st.allocated
  injective : ∀ id other address, st.objects id = some address →
    st.objects other = some address → id = other
  recorded : ∀ address id, st.entryIds address = some id → address < st.allocated ∧
    ∀ other, st.objects other = some address → other = id

theorem owned_openSession (h : Reachable env s) : Owned env (openSession s) := by
  have hfound : ∀ id address, (openSession s).objects id = some address →
      ∃ entry, s.entries[address]? = some entry ∧ entry.id = id := by
    intro id address hobject
    obtain ⟨hlt, hentry, -⟩ := findIdx?_eq_some_iff_getElem.mp hobject
    simp only [Bool.and_eq_true, decide_eq_true_eq] at hentry
    exact ⟨_, getElem?_eq_getElem hlt, hentry.1⟩
  refine ⟨h, fun entry hentry hmessage => ?_, fun id address hobject => ?_,
    fun id other address hobject hother => ?_, fun address id hrecorded => by cases hrecorded⟩
  · have hsome : (s.entries.findIdx? fun other =>
        other.id = entry.id && isMessageEntry other).isSome = true := by
      rw [findIdx?_isSome, any_eq_true]
      exact ⟨entry, hentry, by simp [hmessage]⟩
    exact Option.isSome_iff_exists.mp hsome
  · obtain ⟨entry, hat, rfl⟩ := hfound id address hobject
    exact ⟨mem_ids (mem_of_getElem? hat), (List.getElem?_eq_some_iff.mp hat).1⟩
  · obtain ⟨entry, hat, rfl⟩ := hfound id address hobject
    obtain ⟨entry', hat', rfl⟩ := hfound other address hother
    rw [some.inj (hat.symm.trans hat')]

variable {next : Session}

theorem perform_entries (h : Consistent env s) (hop : perform env s op = .ok (next, entry)) :
    next.entries = s.entries ++ entry.toList ∧ ∀ e, entry = some e → e.id ∉ ids s.entries := by
  rcases perform_cases hop with ⟨rfl, leafId, rfl, -⟩ | ⟨e, rfl, hstep⟩
  · simp
  · refine ⟨?_, ?_⟩
    · rw [hstep.next]
      rfl
    · rintro other hother
      cases hother
      exact hstep.fresh h

theorem Owned.plain {env : Environment} {st : AgentState} (h : Owned env st) {next : Session}
    (hnext : Reachable env next) {more : List Entry}
    (hentries : next.entries = st.session.entries ++ more)
    (hmore : ∀ entry ∈ more, isMessageEntry entry = false) :
    Owned env { st with session := next } := by
  refine ⟨hnext, fun entry hentry hmessage => ?_, fun id address hobject => ?_, h.injective,
    h.recorded⟩
  · rw [hentries, mem_append] at hentry
    rcases hentry with hold | hnew
    · exact h.total entry hold hmessage
    · rw [hmore entry hnew] at hmessage
      cases hmessage
  · rw [hentries, ids_append, mem_append]
    obtain ⟨hmem, hlt⟩ := h.known id address hobject
    exact ⟨.inl hmem, hlt⟩

theorem Owned.allocate (h : Owned env st) (hnext : Reachable env next) {entry : Entry}
    (hentries : next.entries = st.session.entries ++ [entry])
    (hfresh : entry.id ∉ ids st.session.entries) (recorded : Bool) : Owned env { st with
      session := next
      objects := if isMessageEntry entry then
          update st.objects entry.id (some st.allocated)
        else st.objects
      entryIds := if recorded then update st.entryIds st.allocated (some entry.id)
        else st.entryIds
      allocated := st.allocated + 1 } := by
  have hobjects : ∀ id address, (if isMessageEntry entry then
      update st.objects entry.id (some st.allocated) else st.objects) id = some address →
      (st.objects id = some address ∧ address < st.allocated) ∨
        (id = entry.id ∧ address = st.allocated) := by
    intro id address hobject
    split at hobject
    · by_cases hid : id = entry.id
      · subst hid
        rw [update_self] at hobject
        exact .inr ⟨rfl, (some.inj hobject).symm⟩
      · rw [update_of_ne hid] at hobject
        exact .inl ⟨hobject, (h.known id address hobject).2⟩
    · exact .inl ⟨hobject, (h.known id address hobject).2⟩
  have htable : ∀ address id, (if recorded then
      update st.entryIds st.allocated (some entry.id) else st.entryIds) address = some id →
      (st.entryIds address = some id ∧ address < st.allocated) ∨
        (address = st.allocated ∧ id = entry.id) := by
    intro address id hrecorded
    split at hrecorded
    · by_cases hat : address = st.allocated
      · rw [hat, update_self] at hrecorded
        exact .inr ⟨hat, (some.inj hrecorded).symm⟩
      · rw [update_of_ne hat] at hrecorded
        exact .inl ⟨hrecorded, (h.recorded _ _ hrecorded).1⟩
    · exact .inl ⟨hrecorded, (h.recorded _ _ hrecorded).1⟩
  refine ⟨hnext, fun other hother hmessage => ?_, fun id address hobject => ?_,
    fun id other address hobject hother => ?_, fun address id hrecorded => ?_⟩
  · dsimp only at hother ⊢
    rw [hentries, mem_append, mem_singleton] at hother
    rcases hother with hold | rfl
    · obtain ⟨address, hat⟩ := h.total other hold hmessage
      have hne : other.id ≠ entry.id := fun heq => hfresh (heq ▸ mem_ids hold)
      refine ⟨address, ?_⟩
      split
      · rw [update_of_ne hne, hat]
      · exact hat
    · exact ⟨st.allocated, by rw [if_pos hmessage, update_self]⟩
  · dsimp only
    rw [hentries, ids_append, mem_append]
    rcases hobjects id address hobject with ⟨hat, hlt⟩ | ⟨rfl, rfl⟩
    · exact ⟨.inl (h.known id address hat).1, by omega⟩
    · exact ⟨.inr (mem_singleton_self _), by omega⟩
  · rcases hobjects id address hobject with ⟨hat, hlt⟩ | ⟨rfl, rfl⟩ <;>
      rcases hobjects other _ hother with ⟨hat', hlt'⟩ | ⟨rfl, hsame⟩
    · exact h.injective id other address hat hat'
    · omega
    · omega
    · rfl
  · refine ⟨?_, fun other hother => ?_⟩
    · dsimp only
      rcases htable address id hrecorded with ⟨-, hlt⟩ | ⟨rfl, -⟩ <;> omega
    · rcases htable address id hrecorded with ⟨hat, hlt⟩ | ⟨rfl, rfl⟩ <;>
        rcases hobjects other _ hother with ⟨hown, hlt'⟩ | ⟨rfl, hsame⟩
      · exact (h.recorded _ _ hat).2 other hown
      · omega
      · omega
      · rfl

theorem Owned.append (h : Owned env st) (hop : perform env st.session op = .ok (next, entry))
    (recorded : Bool) : Owned env (afterAppend st next entry recorded) := by
  have hnext : Reachable env next := h.reachable.step op hop
  obtain ⟨hentries, hfresh⟩ := perform_entries (reachable_consistent h.reachable) hop
  unfold afterAppend
  cases entry with
  | none => exact h.plain hnext hentries (by simp)
  | some entry =>
    dsimp only
    split
    · exact h.allocate hnext hentries (hfresh entry rfl) recorded
    · rename_i hplain
      rw [Bool.not_eq_true, Bool.or_eq_false_iff] at hplain
      exact h.plain hnext hentries (by simpa using hplain.1)

/-- In every state of a session the objects belong to one entry each. -/
theorem AgentReachable.owned (h : AgentReachable env st) : Owned env st := by
  induction h with
  | opened h => exact owned_openSession h
  | append _ op hop recorded ih => exact ih.append hop recorded
  | rebind _ transcript more ih =>
    refine ⟨ih.reachable, ih.total, fun id address hat => ?_, ih.injective,
      fun address id hat => ?_⟩
    · obtain ⟨hmem, hlt⟩ := ih.known id address hat
      exact ⟨hmem, by dsimp only; omega⟩
    · obtain ⟨hlt, hown⟩ := ih.recorded address id hat
      exact ⟨by dsimp only; omega, hown⟩
  | endRun _ ih =>
    exact ⟨ih.reachable, ih.total, ih.known, ih.injective, fun _ _ hat => by cases hat⟩

/-! ### The projection with its sources -/

section Sourced

variable {env : Environment} {path : List Entry}

theorem contextEntries_nodup (hnodup : (path.map Entry.id).Nodup) :
    ((contextEntriesOfPath path).map Entry.id).Nodup := by
  rcases exists_latestCompaction path with hnone | ⟨before, compaction, after, rfl, hcomp, hafter⟩
  · rwa [contextEntriesOfPath_none path hnone]
  · obtain ⟨firstKept, hcontext⟩ := contextEntries_some hnodup hcomp hafter
    rw [hcontext]
    have hperm : ((before ++ compaction :: after).map Entry.id).Perm
        ((compaction :: (before ++ after)).map Entry.id) := perm_middle.map _
    refine List.Nodup.sublist (List.Sublist.map _ ?_) (hperm.nodup_iff.mp hnodup)
    refine List.Sublist.cons_cons _ (List.Sublist.append ?_ (List.Sublist.refl _))
    exact filter_sublist.trans (dropWhile_sublist _)

variable {entry : Entry} {message : Message}

theorem mem_sourced (h : (entry, message) ∈ sourced env path) :
    ∃ item ∈ (projectPath env path).entries,
      item.sourceEntry = entry ∧ message ∈ item.messages := by
  obtain ⟨item, hitem, hmem⟩ := mem_flatMap.mp h
  obtain ⟨shown, hshown, heq⟩ := mem_map.mp hmem
  cases heq
  exact ⟨item, hitem, rfl, hshown⟩

theorem source_mem (hnodup : (path.map Entry.id).Nodup) (h : (entry, message) ∈ sourced env path) :
    entry ∈ path := by
  obtain ⟨item, hitem, rfl, -⟩ := mem_sourced h
  have hsource : item.sourceEntry ∈ contextEntriesOfPath path := by
    rw [← sources_projectPath env path]
    exact mem_map_of_mem hitem
  rcases exists_latestCompaction path with hnone | ⟨before, compaction, after, rfl, hcomp, hafter⟩
  · rwa [contextEntriesOfPath_none path hnone] at hsource
  · obtain ⟨firstKept, hcontext⟩ := contextEntries_some hnodup hcomp hafter
    rw [hcontext] at hsource
    exact retained_subset before after compaction firstKept hsource

theorem messages_le_one {item : ProjectedSessionEntry}
    (hitem : item ∈ (projectPath env path).entries)
    (hmessage : isMessageEntry item.sourceEntry = true) : item.messages.length ≤ 1 := by
  obtain ⟨indexed, -, rfl⟩ := mem_map.mp hitem
  dsimp only at hmessage ⊢
  have hone : (sessionEntryToContextMessages env indexed.1).length ≤ 1 := by
    unfold isMessageEntry at hmessage
    split at hmessage
    · rename_i hpayload
      simp [sessionEntryToContextMessages, hpayload]
    · cases hmessage
  unfold projectedMessages projectContextEntry
  split
  · simp
  · split
    · exact hone
    · simp
    · rwa [length_map]

theorem sourced_pairwise (hnodup : (path.map Entry.id).Nodup) :
    (sourced env path).Pairwise fun first second =>
      isMessageEntry first.1 = true ∨ isMessageEntry second.1 = true →
        first.1.id ≠ second.1.id := by
  have hsources : (projectPath env path).entries.Pairwise fun first second =>
      first.sourceEntry.id ≠ second.sourceEntry.id := by
    have hids := contextEntries_nodup hnodup
    rw [← sources_projectPath env path, map_map] at hids
    exact pairwise_map.mp hids
  unfold sourced
  rw [pairwise_flatMap]
  refine ⟨fun item hitem => ?_, hsources.imp fun {first second} hne => ?_⟩
  · cases hmessage : isMessageEntry item.sourceEntry with
    | false =>
      rw [pairwise_map]
      exact pairwise_of_forall fun _ _ hor => by simp [hmessage] at hor
    | true =>
      have hlength := messages_le_one hitem hmessage
      cases hmessages : item.messages with
      | nil => simp
      | cons message rest =>
        rw [hmessages, length_cons] at hlength
        obtain rfl := length_eq_zero_iff.mp (show rest.length = 0 by omega)
        simp
  · intro x hx y hy _
    obtain ⟨_, -, rfl⟩ := mem_map.mp hx
    obtain ⟨_, -, rfl⟩ := mem_map.mp hy
    exact hne

theorem sourced_unique (hnodup : (path.map Entry.id).Nodup) {i j : Nat} {other : Entry}
    {shown : Message} (hi : (sourced env path)[i]? = some (entry, message))
    (hj : (sourced env path)[j]? = some (other, shown)) (hmessage : isMessageEntry entry = true)
    (hid : entry.id = other.id) : i = j := by
  obtain ⟨hilt, hieq⟩ := List.getElem?_eq_some_iff.mp hi
  obtain ⟨hjlt, hjeq⟩ := List.getElem?_eq_some_iff.mp hj
  have hpairs := pairwise_iff_getElem.mp (@sourced_pairwise env path hnodup)
  rcases Nat.lt_trichotomy i j with hlt | heq | hgt
  · have hne := hpairs i j hilt hjlt hlt
    rw [hieq, hjeq] at hne
    exact absurd hid (hne (.inl hmessage))
  · exact heq
  · have hne := hpairs j i hjlt hilt hgt
    rw [hieq, hjeq] at hne
    exact absurd hid.symm (hne (.inr hmessage))

variable (items : List ProjectedSessionEntry)

theorem entryOfMessage_eq (start index : Nat) (h : start ≤ index) :
    entryOfMessage index start items =
      ((items.flatMap fun item => item.messages.map (item.sourceEntry, ·))[index - start]?).map
        fun shown => shown.1.id := by
  induction items generalizing start with
  | nil => rfl
  | cons item items ih =>
    rw [entryOfMessage, flatMap_cons]
    split
    · rw [getElem?_append_left (by rw [length_map]; omega), getElem?_map,
        getElem?_eq_getElem (by omega)]
      rfl
    · rw [ih _ (by omega), getElem?_append_right (by rw [length_map]; omega), length_map]
      congr 2
      omega

theorem projectedPosition_eq (id : String) (start : Nat) : projectedPosition id start items =
      ((items.flatMap fun item => item.messages.map (item.sourceEntry, ·)).findIdx?
        fun shown => shown.1.id = id).map (start + ·) := by
  induction items generalizing start with
  | nil => rfl
  | cons item items ih =>
    rw [projectedPosition, flatMap_cons, findIdx?_append]
    cases hmessages : item.messages with
    | nil => simp [ih, findIdx?_nil]
    | cons message rest =>
      by_cases hid : item.sourceEntry.id = id
      · simp [hid, findIdx?_cons]
      · have hnone : ((message :: rest).map (item.sourceEntry, ·)).findIdx?
            (fun shown => decide (shown.1.id = id)) = none := by
          rw [findIdx?_eq_none_iff]
          intro shown hshown
          obtain ⟨_, -, rfl⟩ := mem_map.mp hshown
          simp [hid]
        rw [hnone, Option.none_or, ih, length_map, Option.map_map]
        simp only [hid, decide_false, Bool.false_and, Bool.false_eq_true, if_false]
        congr 1
        funext position
        simp only [comp]
        omega

theorem editable_of_original {original : Message} {callIds : List String}
    (hmem : original ∈ sessionEntryToContextMessages env entry)
    (hkind : isAssistant original = true ∨ answers callIds original = true) :
    isMessageEntry entry = true ∧ isEditable entry = true := by
  obtain ⟨id, parentId, timestamp, payload⟩ := entry
  cases payload with
  | message m =>
    have hown : original = withContent m := mem_singleton.mp hmem
    refine ⟨rfl, ?_⟩
    rw [hown] at hkind
    cases m with
    | user | assistant | toolResult => rfl
    | system m =>
      simp only [withContent] at hkind
      split at hkind <;> simp [isAssistant, answers] at hkind
    | _ => simp [withContent, isAssistant, answers] at hkind
  | customMessage customType content display details =>
    rw [mem_singleton.mp hmem] at hkind
    simp [createCustomMessage, isAssistant, answers] at hkind
  | branchSummary fromId summary details usage fromHook =>
    simp only [sessionEntryToContextMessages] at hmem
    split at hmem
    · simp at hmem
    · rw [mem_singleton.mp hmem] at hkind
      simp [createBranchSummaryMessage, isAssistant, answers] at hkind
  | compaction summary firstKept tokensBefore details usage fromHook systemMessage =>
    simp only [sessionEntryToContextMessages, mem_append, mem_singleton,
      Option.mem_toList, Option.map_eq_some_iff] at hmem
    rcases hmem with ⟨system, -, rfl⟩ | rfl <;>
      simp [createCompactionSummaryMessage, isAssistant, answers] at hkind
  | _ => simp [sessionEntryToContextMessages] at hmem

theorem editable_of_shown {entry : Entry} {message : Message} {callIds : List String}
    (h : (entry, message) ∈ sourced env path)
    (hkind : isAssistant message = true ∨ answers callIds message = true) :
    isMessageEntry entry = true ∧ isEditable entry = true := by
  obtain ⟨item, hitem, rfl, hmessage⟩ := mem_sourced h
  obtain ⟨indexed, -, rfl⟩ := mem_map.mp hitem
  have horiginal : ∃ original ∈ sessionEntryToContextMessages env indexed.1,
      isAssistant original = true ∨ answers callIds original = true := by
    unfold projectedMessages at hmessage
    split at hmessage
    · simp at hmessage
    · unfold projectContextEntry at hmessage
      split at hmessage
      · exact ⟨message, hmessage, hkind⟩
      · simp at hmessage
      · obtain ⟨original, hmem, rfl⟩ := mem_map.mp hmessage
        refine ⟨original, hmem, ?_⟩
        cases original <;> exact hkind
  obtain ⟨original, hmem, hkind⟩ := horiginal
  exact editable_of_original hmem hkind

theorem sourced_omit {edit : Entry} {targetId : String}
    (hnodup : ((path ++ [edit]).map Entry.id).Nodup)
    (hpayload : edit.payload = .contextEdit targetId none) :
    sourced env (path ++ [edit]) =
      (sourced env path).filter fun shown => shown.1.id ≠ targetId := by
  have hplain : edit.isCompaction = false := by rw [Entry.isCompaction, hpayload]
  have hcontext : contextEntriesOfPath (path ++ [edit]) = contextEntriesOfPath path ++ [edit] := by
    rcases exists_latestCompaction path with hnone | ⟨before, compaction, after, rfl, hcomp, hafter⟩
    · rw [contextEntriesOfPath_none path hnone, contextEntriesOfPath_none]
      intro entry hentry
      rcases mem_append.mp hentry with hold | hnew
      · exact hnone entry hold
      · rw [mem_singleton.mp hnew, hplain]
    · obtain ⟨firstKept, hkept⟩ := exists_firstKept hcomp
      have hfresh : compaction.id ∉ before.map Entry.id := by
        rw [append_assoc, map_append, cons_append, map_cons, nodup_append] at hnodup
        exact fun hmem => hnodup.2.2 _ hmem _ mem_cons_self rfl
      have hafter' : ∀ entry ∈ after ++ [edit], entry.isCompaction = false := by
        intro entry hentry
        rcases mem_append.mp hentry with hold | hnew
        · exact hafter entry hold
        · rw [mem_singleton.mp hnew, hplain]
      rw [append_assoc, cons_append,
        contextEntriesOfPath_some before (after ++ [edit]) compaction firstKept hkept hcomp hafter'
          hfresh,
        contextEntriesOfPath_some before after compaction firstKept hkept hcomp hafter hfresh]
      simp [retained]
  have hedits : contextEdits (contextEntriesOfPath path ++ [edit]) =
      (contextEdits (contextEntriesOfPath path)).set targetId none := by
    rw [contextEdits_eq, foldl_append, foldl_cons, foldl_nil, applyEdit, hpayload,
      ← contextEdits_eq]
  have hown : ∀ edits index, projectedMessages env edits index edit = [] := by
    intro edits index
    unfold projectedMessages projectContextEntry
    rw [hplain, Bool.false_and, if_neg (by simp)]
    have hnone : sessionEntryToContextMessages env edit = [] := by
      rw [sessionEntryToContextMessages, hpayload]
    rw [hnone]
    split <;> rfl
  unfold sourced projectPath
  dsimp only
  rw [hcontext, hedits, zipIdx_append, map_append, flatMap_append]
  have hlast : (([edit].zipIdx (0 + (contextEntriesOfPath path).length)).map fun item =>
      (⟨item.1, projectedMessages env ((contextEdits (contextEntriesOfPath path)).set targetId none)
        item.2 item.1⟩ : ProjectedSessionEntry)).flatMap
          (fun item => item.messages.map (item.sourceEntry, ·)) = [] := by
    simp [hown]
  rw [hlast, append_nil, flatMap_map, flatMap_map, filter_flatMap]
  refine flatMap_congr fun item _ => ?_
  rw [filter_map]
  by_cases htarget : item.1.id = targetId
  · have hmessages : projectedMessages env ((contextEdits (contextEntriesOfPath path)).set targetId
        none) item.2 item.1 = [] := by
      unfold projectedMessages projectContextEntry
      rw [htarget, OrderedMap.get?_set, if_pos rfl]
      split <;> rfl
    rw [hmessages]
    simp [comp_def, htarget]
  · have hsame : projectedMessages env ((contextEdits (contextEntriesOfPath path)).set targetId
        none) item.2 item.1 =
          projectedMessages env (contextEdits (contextEntriesOfPath path)) item.2 item.1 := by
      unfold projectedMessages
      rw [OrderedMap.get?_set, if_neg htarget]
    rw [hsame]
    simp [comp_def, htarget]

end Sourced

/-! ### From objects to entries -/

/-- The transcript is the current projection: the entry's own object where the projection shows
it, and elsewhere a copy that is the object of no entry. -/
structure Shows (env : Environment) (st : AgentState) : Prop where
  messages : st.transcript.map snd = (sourced env (currentBranch st)).map snd
  distinct : (st.transcript.map fst).Nodup
  own : ∀ (i address : Nat) shown entry message, st.transcript[i]? = some (address, shown) →
    (sourced env (currentBranch st))[i]? = some (entry, message) →
    showsOwnObject (currentEdits st) entry = true → st.objects entry.id = some address
  copy : ∀ (i address : Nat) shown entry message, st.transcript[i]? = some (address, shown) →
    (sourced env (currentBranch st))[i]? = some (entry, message) →
    showsOwnObject (currentEdits st) entry = false →
    (∀ id, st.objects id ≠ some address) ∧ ∀ id, st.entryIds address = some id → id = entry.id

section Omission

variable {env : Environment} {st : AgentState} {entry : Entry} {i address : Nat} {shown : Message}
  {message : AssistantMessage}

theorem isMessageEntry_of_own {edits : OrderedMap String (Option Content)}
    (h : showsOwnObject edits entry = true) : isMessageEntry entry = true := by
  unfold showsOwnObject at h
  unfold isMessageEntry
  split at h
  · rfl
  · cases h

theorem Owned.nodup (h : Owned env st) : ((currentBranch st).map Entry.id).Nodup :=
  branch_nodup (reachable_consistent h.reachable)

theorem Owned.mem_entries (h : Owned env st) (hentry : entry ∈ currentBranch st) :
    entry ∈ st.session.entries := branch_subset (reachable_consistent h.reachable) entry hentry

/-- Rebinding the transcript to the projection makes it the current projection. -/
theorem refresh_shows (h : Owned env st) : Shows env (refreshFinalizedContext env st) := by
  have hat : ∀ i address shown, (refreshFinalizedContext env st).transcript[i]? =
      some (address, shown) → ∃ entry, (sourced env (currentBranch st))[i]? = some (entry, shown) ∧
        ((showsOwnObject (currentEdits st) entry = true ∧ st.objects entry.id = some address) ∨
          (showsOwnObject (currentEdits st) entry = false ∧ address = st.allocated + i)) := by
    intro i address shown hitem
    simp only [refreshFinalizedContext, getElem?_map, getElem?_zipIdx, Option.map_map,
      Nat.zero_add] at hitem
    obtain ⟨⟨entry, message⟩, hsource, heq⟩ := Option.map_eq_some_iff.mp hitem
    obtain ⟨haddress, rfl⟩ := mk.inj heq
    refine ⟨entry, hsource, ?_⟩
    cases hown : showsOwnObject (currentEdits st) entry with
    | true =>
      have hmem := h.mem_entries (source_mem h.nodup (mem_of_getElem? hsource))
      obtain ⟨object, hobject⟩ := h.total entry hmem (isMessageEntry_of_own hown)
      rw [if_pos hown, hobject, Option.getD_some] at haddress
      exact .inl ⟨rfl, by rw [hobject, haddress]⟩
    | false =>
      rw [if_neg (by simp [hown]), Option.getD_none] at haddress
      exact .inr ⟨rfl, haddress.symm⟩
  refine ⟨?_, ?_, fun i address shown entry message hitem hsource hown => ?_,
    fun i address shown entry message hitem hsource hcopy => ?_⟩
  · refine ext_getElem? fun i => ?_
    change (((sourced env (currentBranch st)).zipIdx.map _).map snd)[i]? =
      ((sourced env (currentBranch st)).map snd)[i]?
    rw [map_map, getElem?_map, getElem?_map, getElem?_zipIdx]
    cases (sourced env (currentBranch st))[i]? <;> rfl
  · rw [nodup_iff_pairwise_ne, pairwise_map, pairwise_iff_getElem]
    intro i j hi hj hlt heq
    have hfirst := getElem?_eq_getElem hi
    have hsecond := getElem?_eq_getElem hj
    generalize (refreshFinalizedContext env st).transcript[i] = first at hfirst heq
    generalize (refreshFinalizedContext env st).transcript[j] = second at hsecond heq
    obtain ⟨entry, hsource, hwhich⟩ := hat i first.1 first.2 hfirst
    obtain ⟨other, hsource', hwhich'⟩ := hat j second.1 second.2 hsecond
    rcases hwhich with ⟨hown, hobject⟩ | ⟨-, hcopy⟩ <;>
      rcases hwhich' with ⟨hown', hobject'⟩ | ⟨-, hcopy'⟩
    · rw [← heq] at hobject'
      have hid := h.injective _ _ _ hobject hobject'
      have := sourced_unique h.nodup hsource hsource' (isMessageEntry_of_own hown) hid
      omega
    · have := (h.known _ _ hobject).2
      omega
    · have := (h.known _ _ hobject').2
      omega
    · omega
  · obtain ⟨entry', hsource', hwhich⟩ := hat i address shown hitem
    obtain ⟨rfl, -⟩ := mk.inj (some.inj (hsource'.symm.trans hsource))
    rcases hwhich with ⟨-, hobject⟩ | ⟨hcopy, -⟩
    · exact hobject
    · have hown' : showsOwnObject (currentEdits st) entry' = true := hown
      rw [hcopy] at hown'
      cases hown'
  · obtain ⟨entry', hsource', hwhich⟩ := hat i address shown hitem
    obtain ⟨rfl, -⟩ := mk.inj (some.inj (hsource'.symm.trans hsource))
    rcases hwhich with ⟨hown, -⟩ | ⟨-, rfl⟩
    · have hcopy' : showsOwnObject (currentEdits st) entry' = false := hcopy
      rw [hown] at hcopy'
      cases hcopy'
    · refine ⟨fun id hobject => ?_, fun id hrecorded => ?_⟩
      · have := (h.known id _ hobject).2
        omega
      · have := (h.recorded _ id hrecorded).1
        omega

theorem findIdx_address (hs : Shows env st) (h : st.transcript[i]? = some (address, shown)) :
    (st.transcript.findIdx? fun item => item.1 = address) = some i := by
  obtain ⟨hlt, heq⟩ := List.getElem?_eq_some_iff.mp h
  rw [findIdx?_eq_some_iff_getElem]
  refine ⟨hlt, by simp [heq], fun j hj => ?_⟩
  have hdistinct := hs.distinct
  rw [nodup_iff_pairwise_ne, pairwise_map, pairwise_iff_getElem] at hdistinct
  have hne := hdistinct j i (by omega) hlt hj
  rw [heq] at hne
  simpa using hne

theorem find_object (h : Owned env st) (hentry : entry ∈ currentBranch st)
    (hmessage : isMessageEntry entry = true) (hobject : st.objects entry.id = some address) :
    ∃ found, ((currentBranch st).reverse.find? fun other =>
      isMessageEntry other && st.objects other.id = some address) = some found ∧
        found.id = entry.id := by
  have hsome : ((currentBranch st).reverse.find? fun other =>
      isMessageEntry other && st.objects other.id = some address).isSome = true := by
    rw [find?_isSome]
    exact ⟨entry, mem_reverse.mpr hentry, by simp [hmessage, hobject]⟩
  obtain ⟨found, hfound⟩ := Option.isSome_iff_exists.mp hsome
  have hmatch := find?_some hfound
  simp only [Bool.and_eq_true, decide_eq_true_eq] at hmatch
  exact ⟨found, hfound, h.injective _ _ _ hmatch.2 hobject⟩

theorem findPersisted_object (h : Owned env st) (hentry : entry ∈ currentBranch st)
    (hmessage : isMessageEntry entry = true) (hobject : st.objects entry.id = some address) :
    findPersistedMessageEntryId env st address = some entry.id := by
  obtain ⟨found, hfound, hid⟩ := find_object h hentry hmessage hobject
  unfold findPersistedMessageEntryId
  split
  · rename_i id hrecorded
    rw [(h.recorded address id hrecorded).2 _ hobject]
  · rw [hfound]
    dsimp only
    rw [hid]

theorem findPersisted_at (h : Owned env st) (hs : Shows env st) {message : Message}
    (hitem : st.transcript[i]? = some (address, shown))
    (hsource : (sourced env (currentBranch st))[i]? = some (entry, message)) :
    findPersistedMessageEntryId env st address = some entry.id := by
  cases hown : showsOwnObject (currentEdits st) entry with
  | true =>
    exact findPersisted_object h (source_mem h.nodup (mem_of_getElem? hsource))
      (isMessageEntry_of_own hown) (hs.own i address shown entry message hitem hsource hown)
  | false =>
    obtain ⟨hnot, htable⟩ := hs.copy i address shown entry message hitem hsource hown
    have hnone : ((currentBranch st).reverse.find? fun other =>
        isMessageEntry other && st.objects other.id = some address) = none := by
      rw [find?_eq_none]
      intro other _
      simp [hnot other.id]
    unfold findPersistedMessageEntryId
    split
    · rename_i id hrecorded
      rw [htable id hrecorded]
    · rw [hnone, findIdx_address hs hitem]
      dsimp only
      rw [entryOfMessage_eq _ 0 i (Nat.zero_le i)]
      change ((sourced env (currentBranch st))[i - 0]?).map _ = _
      rw [Nat.sub_zero, hsource]
      rfl

/-- The attempt is held as the object of its entry, or as the copy that the transcript shows. -/
def Holds (env : Environment) (st : AgentState) (entry : Entry) (address : Nat)
    (message : AssistantMessage) : Prop :=
  (entry ∈ currentBranch st ∧ entry.payload = .message (.assistant message) ∧
      st.objects entry.id = some address) ∨
    ∃ (i : Nat) (shown : Message), st.transcript[i]? = some (address, .assistant message) ∧
      (sourced env (currentBranch st))[i]? = some (entry, shown)

theorem Shows.message_eq (hs : Shows env st) {message : Message}
    (hitem : st.transcript[i]? = some (address, shown))
    (hsource : (sourced env (currentBranch st))[i]? = some (entry, message)) : shown = message := by
  have hmessages := congrArg (fun messages => messages[i]?) hs.messages
  simp only [getElem?_map, hitem, hsource, map_some, some.injEq] at hmessages
  exact hmessages

theorem Holds.editable (hs : Shows env st) (hheld : Holds env st entry address message) :
    isMessageEntry entry = true ∧ isEditable entry = true := by
  rcases hheld with ⟨-, hpayload, -⟩ | ⟨i, shown, hitem, hsource⟩
  · rw [isMessageEntry, isEditable, hpayload]
    exact ⟨rfl, rfl⟩
  · obtain rfl := hs.message_eq hitem hsource
    exact @editable_of_shown env _ entry _ [] (mem_of_getElem? hsource) (.inl rfl)

theorem Holds.findPersisted (h : Owned env st) (hs : Shows env st)
    (hheld : Holds env st entry address message) :
    findPersistedMessageEntryId env st address = some entry.id := by
  rcases hheld with ⟨hentry, hpayload, hobject⟩ | ⟨i, shown, hitem, hsource⟩
  · exact findPersisted_object h hentry (by rw [isMessageEntry, hpayload]) hobject
  · exact findPersisted_at h hs hitem hsource

theorem attemptIndex_eq (h : Owned env st) (hs : Shows env st)
    (hheld : Holds env st entry address message) {position : Nat}
    (hposition : (sourced env (currentBranch st))[position]? = some (entry, shown)) :
    attemptIndex env st address = some position := by
  have hmessage := (hheld.editable hs).1
  have hlength := congrArg List.length hs.messages
  rw [length_map, length_map] at hlength
  have hlt := (List.getElem?_eq_some_iff.mp hposition).1
  unfold attemptIndex
  cases hfound : st.transcript.findIdx? fun item => decide (item.1 = address) with
  | some index =>
    -- The object itself is shown, so it is shown for its entry.
    obtain ⟨hindex, haddress, -⟩ := findIdx?_eq_some_iff_getElem.mp hfound
    have hitem : st.transcript[index]? = some (address, st.transcript[index].2) := by
      rw [getElem?_eq_getElem hindex, ← of_decide_eq_true haddress]
    have hsource : (sourced env (currentBranch st))[index]? =
        some (sourced env (currentBranch st))[index] := getElem?_eq_getElem (by omega)
    have hid := findPersisted_at h hs hitem hsource
    rw [hheld.findPersisted h hs] at hid
    rw [sourced_unique h.nodup hposition hsource hmessage (some.inj hid)]
  | none =>
    rw [hheld.findPersisted h hs, Option.bind_eq_bind, bind_some, projectedPosition_eq]
    have hfirst : (sourced env (currentBranch st)).findIdx? (fun shown => shown.1.id = entry.id) =
        some position := by
      rw [findIdx?_eq_some_iff_getElem]
      refine ⟨hlt, by simp [(List.getElem?_eq_some_iff.mp hposition).2], fun j hj => ?_⟩
      have hsource : (sourced env (currentBranch st))[j]? =
          some (sourced env (currentBranch st))[j] := getElem?_eq_getElem (by omega)
      intro heq
      have := sourced_unique h.nodup hposition hsource hmessage (of_decide_eq_true heq).symm
      omega
    change ((((sourced env (currentBranch st)).findIdx? fun shown => shown.1.id = entry.id).map
      (0 + ·)).bind _) = _
    rw [hfirst, map_some, bind_some, Nat.zero_add, if_pos (by omega)]

/-! ### The edits -/

theorem appendContextEdit_omit {s : Session} (h : Reachable env s) {target : Entry}
    (hmem : target ∈ getBranch s none) (heditable : isEditable target = true) (now : String) :
    ∃ next edit, appendContextEdit env s now target.id none = .ok (next, edit) ∧
      perform env s (.appendContextEdit now target.id none) = .ok (next, some edit) ∧
      getBranch next none = getBranch s none ++ [edit] ∧
      edit.payload = .contextEdit target.id none := by
  have hs := reachable_consistent h
  have hany : (getBranch s none).any (fun entry => decide (entry.id = target.id)) = true :=
    any_eq_true.mpr ⟨target, hmem, by simp⟩
  have happend : appendContextEdit env s now target.id none =
      .ok (appendPayload env s now fun _ => .contextEdit target.id none) := by
    unfold appendContextEdit
    rw [if_neg (by simp), hs.get?_self (branch_subset hs target hmem)]
    dsimp only
    rw [hany, heditable]
    simp [normalizeReplacement]
  have hop : perform env s (.appendContextEdit now target.id none) =
      .ok (appended (appendPayload env s now fun _ => .contextEdit target.id none)) := by
    change (appendContextEdit env s now target.id none).map appended = _
    rw [happend]
    rfl
  rcases perform_cases hop with ⟨hnone, -⟩ | ⟨edit, hedit, hstep⟩
  · cases hnone
  · cases hedit
    exact ⟨_, _, happend, hop, getBranch_append hs hstep rfl, rfl⟩

/-- Hiding entries one after another hides their messages and leaves all others. -/
theorem omitEntries_spec (h : AgentReachable env st) (clock : Nat → String)
    (targetIds : List String)
    (htargets : ∀ id ∈ targetIds, ∃ entry ∈ currentBranch st, entry.id = id ∧
      isEditable entry = true) :
    ∃ next, omitEntries env clock (targetIds.map some) st.session = .ok next ∧
      AgentReachable env { st with session := next } ∧
      sourced env (getBranch next none) =
        (sourced env (currentBranch st)).filter fun shown => shown.1.id ∉ targetIds := by
  induction targetIds generalizing st with
  | nil => exact ⟨st.session, rfl, h, by simp [currentBranch]⟩
  | cons id rest ih =>
    have hreach := h.owned.reachable
    obtain ⟨target, hmem, rfl, heditable⟩ := htargets id mem_cons_self
    obtain ⟨next, edit, hok, hop, hbranch, hpayload⟩ :=
      appendContextEdit_omit hreach hmem heditable (clock st.session.entries.length)
    have hstate : AgentReachable env { st with session := next } := by
      have hstep := h.append _ hop false
      rwa [afterAppend, isMessageEntry, hpayload] at hstep
    have hrest : ∀ id ∈ rest, ∃ entry ∈ currentBranch { st with session := next },
        entry.id = id ∧ isEditable entry = true := by
      intro id hid
      obtain ⟨entry, hentry, heq⟩ := htargets id (mem_cons_of_mem _ hid)
      refine ⟨entry, ?_, heq⟩
      change entry ∈ getBranch next none
      rw [hbranch]
      exact mem_append_left _ hentry
    obtain ⟨last, hlast, hlastReach, hsourced⟩ := ih hstate hrest
    have hs := reachable_consistent hreach
    have hne : target.id ≠ "" := hs.drawn.ne_empty (mem_ids (branch_subset hs target hmem))
    refine ⟨last, ?_, hlastReach, ?_⟩
    · rw [map_cons, omitEntries, if_neg hne, hok]
      exact hlast
    · have hnodup := hstate.owned.nodup
      change sourced env (getBranch last none) =
        (sourced env (getBranch next none)).filter _ at hsourced
      change ((getBranch next none).map Entry.id).Nodup at hnodup
      rw [hbranch] at hnodup hsourced
      rw [hsourced, sourced_omit hnodup hpayload, filter_filter]
      refine filter_congr fun shown _ => ?_
      simp [Bool.and_comm]

/-! ### The omission -/

/-- What follows the attempt without the results that answer it: up to the next assistant
message the answers are left out. -/
def unanswered (callIds : List String) (after : List (Entry × Message)) : List (Entry × Message) :=
  ((after.takeWhile fun shown => !isAssistant shown.2).filter fun shown =>
    !answers callIds shown.2) ++ after.dropWhile fun shown => !isAssistant shown.2

def answeringIds (callIds : List String) (after : List (Entry × Message)) : List String :=
  ((after.takeWhile fun shown => !isAssistant shown.2).filter fun shown =>
    answers callIds shown.2).map fun shown => shown.1.id

theorem exists_pairs (h : Owned env st) (hs : Shows env st) :
    ∃ pairs : List ((Nat × Message) × (Entry × Message)),
      st.transcript = pairs.map fst ∧ sourced env (currentBranch st) = pairs.map snd ∧
      ∀ item ∈ pairs, item.1.2 = item.2.2 ∧
        findPersistedMessageEntryId env st item.1.1 = some item.2.1.id := by
  have hlength := congrArg length hs.messages
  rw [length_map, length_map] at hlength
  refine ⟨st.transcript.zip (sourced env (currentBranch st)), ?_, ?_, ?_⟩
  · exact (map_fst_zip (by omega)).symm
  · exact (map_snd_zip (by omega)).symm
  · intro item hitem
    obtain ⟨i, hi⟩ := mem_iff_getElem?.mp hitem
    obtain ⟨hshown, hsource⟩ := getElem?_zip_eq_some.mp hi
    exact ⟨hs.message_eq hshown hsource, findPersisted_at h hs hshown hsource⟩

variable {before after : List (Entry × Message)}

theorem attemptResults_ids (h : Owned env st) (hs : Shows env st)
    (hheld : Holds env st entry address message)
    (hprojected : sourced env (currentBranch st) = before ++ (entry, shown) :: after)
    (callIds : List String) : ((attemptResults env st address callIds).map fst).map
      (findPersistedMessageEntryId env st) = (answeringIds callIds after).map some := by
  have hposition : (sourced env (currentBranch st))[before.length]? = some (entry, shown) := by
    rw [hprojected]
    simp
  obtain ⟨pairs, htranscript, hsourced, hpairs⟩ := exists_pairs h hs
  have hafter : after = (pairs.drop (before.length + 1)).map snd := by
    rw [map_drop, ← hsourced, hprojected, drop_append]
    simp
  have hrest : ∀ item ∈ pairs.drop (before.length + 1), item.1.2 = item.2.2 ∧
      findPersistedMessageEntryId env st item.1.1 = some item.2.1.id :=
    fun item hitem => hpairs item (mem_of_mem_drop hitem)
  rw [attemptResults, attemptIndex_eq h hs hheld hposition]
  dsimp only
  rw [htranscript, ← map_drop, hafter, answeringIds]
  generalize pairs.drop (before.length + 1) = rest at hrest
  induction rest with
  | nil => rfl
  | cons item rest ih =>
    obtain ⟨hsame, hfound⟩ := hrest item mem_cons_self
    have ih' := ih fun other hother => hrest other (mem_cons_of_mem _ hother)
    rw [map_cons, map_cons, takeWhile_cons, takeWhile_cons, hsame]
    split
    · rw [filter_cons, filter_cons, hsame]
      split
      · rw [map_cons, map_cons, map_cons, map_cons, hfound, ih']
      · exact ih'
    · rfl

theorem filter_targets {path : List Entry} (hnodup : (path.map Entry.id).Nodup)
    (hmessage : isMessageEntry entry = true)
    (hprojected : sourced env path = before ++ (entry, shown) :: after) (callIds : List String) :
    (sourced env path).filter (fun shown => shown.1.id ∉ entry.id :: answeringIds callIds after) =
      before ++ unanswered callIds after := by
  have hpairs := @sourced_pairwise env path hnodup
  have hanswer : ∀ item ∈ sourced env path, answers callIds item.2 = true →
      isMessageEntry item.1 = true := fun item hitem hkind =>
    (editable_of_shown hitem (.inr hkind)).1
  rw [hprojected] at hpairs hanswer ⊢
  unfold unanswered answeringIds
  have hsplit : after = (after.takeWhile fun shown => !isAssistant shown.2) ++
      after.dropWhile fun shown => !isAssistant shown.2 := takeWhile_append_dropWhile.symm
  generalize (after.takeWhile fun shown => !isAssistant shown.2) = turn at hsplit ⊢
  generalize (after.dropWhile fun shown => !isAssistant shown.2) = rest at hsplit ⊢
  subst hsplit
  obtain ⟨-, hlater, hbefore⟩ := pairwise_append.mp hpairs
  obtain ⟨hentry, hlater⟩ := pairwise_cons.mp hlater
  obtain ⟨hturn, -, hrest⟩ := pairwise_append.mp hlater
  have hkind : ∀ item ∈ turn, answers callIds item.2 = true → isMessageEntry item.1 = true :=
    fun item hitem => hanswer item (by simp [hitem])
  have hids : ∀ id, id ∈ (turn.filter fun shown => answers callIds shown.2).map
      (fun shown => shown.1.id) ↔
        ∃ item ∈ turn, answers callIds item.2 = true ∧ item.1.id = id := by
    intro id
    simp only [mem_map, mem_filter, and_assoc]
  -- No other message entry of the projection has the id of the attempt or of an answer.
  have hkeepBefore : ∀ item ∈ before, item.1.id ∉ entry.id ::
      (turn.filter fun shown => answers callIds shown.2).map fun shown => shown.1.id := by
    intro item hitem hmem
    rw [mem_cons, hids] at hmem
    rcases hmem with heq | ⟨other, hother, hans, heq⟩
    · exact hbefore item hitem _ mem_cons_self (.inr hmessage) heq
    · exact hbefore item hitem other (by simp [hother]) (.inr (hkind other hother hans)) heq.symm
  have hkeepRest : ∀ item ∈ rest, item.1.id ∉ entry.id ::
      (turn.filter fun shown => answers callIds shown.2).map fun shown => shown.1.id := by
    intro item hitem hmem
    rw [mem_cons, hids] at hmem
    rcases hmem with heq | ⟨other, hother, hans, heq⟩
    · exact hentry item (by simp [hitem]) (.inl hmessage) heq.symm
    · exact hrest other hother item hitem (.inl (hkind other hother hans)) heq
  have hsymm : Std.Symm fun first second : Entry × Message =>
      isMessageEntry first.1 = true ∨ isMessageEntry second.1 = true →
        first.1.id ≠ second.1.id := ⟨fun first second hne hor => (hne hor.symm).symm⟩
  have hkeepTurn : ∀ item ∈ turn, (item.1.id ∉ entry.id ::
      (turn.filter fun shown => answers callIds shown.2).map fun shown => shown.1.id) ↔
        answers callIds item.2 = false := by
    intro item hitem
    have hne : item.1.id ≠ entry.id :=
      fun heq => hentry item (by simp [hitem]) (.inl hmessage) heq.symm
    rw [mem_cons, hids, not_or, ← Bool.not_eq_true]
    constructor
    · exact fun hnone hans => hnone.2 ⟨item, hitem, hans, rfl⟩
    · rintro hplain
      refine ⟨hne, fun ⟨other, hother, hans, heq⟩ => hplain ?_⟩
      by_cases hsame : item = other
      · rw [hsame, hans]
      · exact absurd heq.symm (hturn.forall hitem hother hsame (.inr (hkind other hother hans)))
  rw [filter_append, filter_cons_of_neg (by simp), filter_append,
    filter_eq_self.mpr fun item hitem => decide_eq_true (hkeepBefore item hitem),
    filter_eq_self.mpr fun item hitem => decide_eq_true (hkeepRest item hitem)]
  congr 2
  refine filter_congr fun item hitem => ?_
  rw [Bool.eq_iff_iff, decide_eq_true_iff, hkeepTurn item hitem]
  simp

/-- Omitting a failed attempt takes from the projection the attempt and the results that answer
it up to the next assistant message, and leaves every other message unchanged and in order. -/
theorem omitRecoveryAttempt_keepsPairing (h : AgentReachable env st) (hs : Shows env st)
    (clock : Nat → String) {entry : Entry} {address : Nat} {message : AssistantMessage}
    (hheld : Holds env st entry address message) {callIds : List String}
    (hcalls : toolCallIds message.content = .ok callIds) {before after : List (Entry × Message)}
    {shown : Message}
    (hprojected : sourced env (currentBranch st) = before ++ (entry, shown) :: after) :
    ∃ next, omitRecoveryAttempt env clock st address message = .ok next ∧
      AgentReachable env next ∧ Shows env next ∧
      sourced env (currentBranch next) = before ++ unanswered callIds after := by
  have howned := h.owned
  obtain ⟨hmessage, heditable⟩ := hheld.editable hs
  have hentry : entry ∈ currentBranch st :=
    source_mem howned.nodup (by rw [hprojected]; exact mem_append_right _ mem_cons_self)
  have htargets : ∀ id ∈ entry.id :: answeringIds callIds after, ∃ other ∈ currentBranch st,
      other.id = id ∧ isEditable other = true := by
    intro id hid
    rcases mem_cons.mp hid with rfl | hanswer
    · exact ⟨entry, hentry, rfl, heditable⟩
    · obtain ⟨item, hitem, rfl⟩ := mem_map.mp hanswer
      obtain ⟨hturn, hkind⟩ := mem_filter.mp hitem
      have hsource : item ∈ sourced env (currentBranch st) := by
        rw [hprojected]
        exact mem_append_right _
          (mem_cons_of_mem _ (( takeWhile_prefix _).subset hturn))
      exact ⟨item.1, source_mem howned.nodup hsource, rfl,
        (editable_of_shown hsource (.inr hkind)).2⟩
  obtain ⟨session, hsession, hreach, hsourced⟩ := omitEntries_spec h clock _ htargets
  have hids : (address :: (attemptResults env st address callIds).map fst).map
      (findPersistedMessageEntryId env st) =
        (entry.id :: answeringIds callIds after).map some := by
    rw [map_cons, hheld.findPersisted howned hs,
      attemptResults_ids howned hs hheld hprojected, map_cons]
  refine ⟨refreshFinalizedContext env { st with session }, ?_, hreach.refresh,
    refresh_shows hreach.owned, ?_⟩
  · have hresolved : ((address :: (attemptResults env st address callIds).map fst).zip
        ((entry.id :: answeringIds callIds after).map some)).any (fun item =>
          item.2.isNone && st.transcript.any fun shown => shown.1 = item.1) = false := by
      rw [any_eq_false]
      intro item hitem
      obtain ⟨id, -, hid⟩ := mem_map.mp (of_mem_zip hitem).2
      simp [← hid]
    unfold omitRecoveryAttempt
    rw [hcalls]
    simp only [bind, Except.bind]
    rw [hids, hresolved, hsession]
    rfl
  · change sourced env (getBranch session none) = _
    rw [hsourced, filter_targets howned.nodup hmessage hprojected]

end Omission

/-- A truncated attempt with one call. -/
def truncated : AssistantMessage where
  content := .blocks [.toolCall { id := "c", name := "read", arguments := [("path", .str "a.py")] }]
  api := "a"
  provider := "p"
  model := "m"
  usage := zeroUsage
  stopReason := .length
  timestamp := 2

def notExecuted : ToolResultMessage where
  toolCallId := "c"
  toolName := "read"
  content := .blocks [.text "Not executed" none]
  isError := true
  timestamp := 3

def opened (ops : List Operation) : AgentState :=
  refreshFinalizedContext plainEnvironment
    (openSession (run plainEnvironment (newSession ⟨"s", "t0", "/", none⟩ 0) ops))

variable (ops : List Operation)

theorem opened_reachable : AgentReachable plainEnvironment (opened ops) :=
  (AgentReachable.opened ((Reachable.start _ _).run ops)).refresh

theorem opened_shows : Shows plainEnvironment (opened ops) :=
  refresh_shows (AgentReachable.opened ((Reachable.start _ _).run ops)).owned

/-- A request, the truncated attempt and its result. -/
def afterTruncation : List Operation :=
  [.appendMessage "t1" (.user ⟨.text "first", 1⟩), .appendMessage "t2" (.assistant truncated),
    .appendMessage "t3" (.toolResult notExecuted)]

theorem omitRecoveryAttempt_keepsPairing_truncated :
    (opened afterTruncation).transcript[1]? = some (1, .assistant truncated) ∧
    ∃ next before after,
      omitRecoveryAttempt plainEnvironment (fun _ => "t") (opened afterTruncation) 1 truncated =
        .ok next ∧
      sourced plainEnvironment (currentBranch next) = before ++ unanswered ["c"] after := by
  have hitem : (opened afterTruncation).transcript[1]? = some (1, .assistant truncated) := by
    decide
  have hlength : 1 < (sourced plainEnvironment
      (currentBranch (opened afterTruncation))).length := by
    decide
  have hprojected := (take_append_drop 1
    (sourced plainEnvironment (currentBranch (opened afterTruncation)))).symm
  have hheld : Holds plainEnvironment (opened afterTruncation) _ 1 truncated :=
    .inr ⟨1, _, hitem, getElem?_eq_getElem hlength⟩
  obtain ⟨next, hok, -, -, hsourced⟩ := omitRecoveryAttempt_keepsPairing
    (opened_reachable afterTruncation) (opened_shows afterTruncation) (fun _ => "t") hheld rfl
    hprojected
  exact ⟨hitem, next, _, _, hok, hsourced⟩

/-- The projection still shows an answer to the attempt after the omission. -/
def leavesAnswer (st : AgentState) (address : Nat) : Bool :=
  match omitRecoveryAttempt plainEnvironment (fun _ => "t") st address truncated with
  | .ok next => (sourced plainEnvironment (currentBranch next)).any fun shown =>
      answers ["c"] shown.2
  | .error _ => false

/-- An extension hid the attempt alone. -/
def afterHiding : List Operation :=
  afterTruncation ++ [Operation.appendContextEdit "t4" "bbbbbbbb" none]

/-- Another assistant message stands between the attempt and its result. -/
def afterInterleaving : List Operation :=
  [.appendMessage "t1" (.assistant truncated),
    .appendMessage "t2" (.assistant { truncated with content := .blocks [] }),
    .appendMessage "t3" (.toolResult notExecuted)]

/-- The content of the attempt is `None`. -/
def withoutContent : List Operation :=
  [.appendMessage "t1" (.assistant { truncated with content := .missing })]

theorem holds_of_any {address : Nat} {message : AssistantMessage}
    (h : (currentBranch st).any (fun entry => entry.payload = .message (.assistant message) &&
      st.objects entry.id = some address) = true) :
    ∃ entry, Holds plainEnvironment st entry address message := by
  obtain ⟨entry, hentry, hboth⟩ := any_eq_true.mp h
  rw [Bool.and_eq_true, decide_eq_true_iff, decide_eq_true_iff] at hboth
  exact ⟨entry, .inl ⟨hentry, hboth.1, hboth.2⟩⟩

/-- An attempt that the projection no longer shows keeps its result there, and so does one whose
result comes after another assistant message; an attempt without content raises. -/
theorem omitRecoveryAttempt_leaves_answers :
    (∀ ops, AgentReachable plainEnvironment (opened ops) ∧ Shows plainEnvironment (opened ops)) ∧
    ((∃ entry, Holds plainEnvironment (opened afterHiding) entry 1 truncated) ∧
      leavesAnswer (opened afterHiding) 1 = true) ∧
    ((∃ entry, Holds plainEnvironment (opened afterInterleaving) entry 0 truncated) ∧
      leavesAnswer (opened afterInterleaving) 0 = true) ∧
    (∃ entry, Holds plainEnvironment (opened withoutContent) entry 0
        { truncated with content := .missing }) ∧
      (omitRecoveryAttempt plainEnvironment (fun _ => "t") (opened withoutContent) 0
        { truncated with content := .missing }).isOk = false :=
  ⟨fun ops => ⟨opened_reachable ops, opened_shows ops⟩,
    ⟨holds_of_any (by decide), by decide⟩,
    ⟨holds_of_any (by decide), by decide⟩,
    holds_of_any (by decide), by rfl⟩

end Pidrei.RecoveryOmission
