import Pidrei.Library.PythonText
import Pidrei.SessionEntries

/-!
The session in memory: the entries in append order, the index by id, the labels
and the leaf. Appending makes a child of the leaf and moves the leaf to it;
branching moves the leaf only. Every operation checks its arguments before it
changes anything, so a refused operation leaves the session as it was.
-/
namespace Pidrei.SessionManager

open Values Messages Transcript SessionEntries

structure SessionHeader where
  id : String
  timestamp : String
  cwd : String
  parentSession : Option String

/-- `entries` are the file entries after the header; `drawn` counts the uuids used. -/
structure Session where
  header : SessionHeader
  entries : List Entry
  byId : OrderedMap String Entry
  labelsById : OrderedMap String String
  labelTimestampsById : OrderedMap String String
  leafId : Option String
  drawn : Nat

def newSession (header : SessionHeader) (drawn : Nat) : Session :=
  { header := header
    entries := []
    byId := OrderedMap.empty
    labelsById := OrderedMap.empty
    labelTimestampsById := OrderedMap.empty
    leafId := none
    drawn := drawn }

/-- Try the given number of short ids, then take a full uuid. -/
def generateIdTries (env : Environment) (existing : String → Bool) : Nat → Nat → String × Nat
  | 0, drawn => (env.uuid drawn, drawn + 1)
  | tries + 1, drawn =>
    let newId := String.ofList ((env.uuid drawn).toList.take 8)
    if existing newId then generateIdTries env existing tries (drawn + 1)
    else (newId, drawn + 1)

def generateId (env : Environment) (existing : String → Bool) (drawn : Nat) : String × Nat :=
  generateIdTries env existing 100 drawn

/-- A new entry under `parentId`; its payload may refer to its own id. -/
def newEntry (env : Environment) (s : Session) (parentId : Option String) (timestamp : String)
    (payload : String → Payload) : Entry × Nat :=
  let (id, drawn) := generateId env s.byId.contains s.drawn
  (⟨id, parentId, timestamp, payload id⟩, drawn)

def appendEntry (s : Session) (entry : Entry) (drawn : Nat) : Session :=
  { s with
    entries := s.entries ++ [entry]
    byId := s.byId.set entry.id entry
    leafId := some entry.id
    drawn := drawn }

def appendPayload (env : Environment) (s : Session) (timestamp : String)
    (payload : String → Payload) : Session × Entry :=
  let (entry, drawn) := newEntry env s s.leafId timestamp payload
  (appendEntry s entry drawn, entry)

def getBranch (s : Session) (fromId : Option String) : List Entry :=
  followParents s.byId (findEntry s.byId (fromId.or s.leafId))

def sessionProjection (env : Environment) (s : Session) : SessionProjection :=
  buildSessionProjection env s.entries (.given s.leafId) s.byId

def appendMessage (env : Environment) (s : Session) (now : String) (message : Message) :
    Session × Entry :=
  appendPayload env s now (fun _ => .message message)

def appendThinkingLevelChange (env : Environment) (s : Session) (now thinkingLevel : String) :
    Session × Entry :=
  appendPayload env s now (fun _ => .thinkingLevelChange thinkingLevel)

def appendModelChange (env : Environment) (s : Session) (now provider modelId : String) :
    Session × Entry :=
  appendPayload env s now (fun _ => .modelChange provider modelId)

def appendUsage (env : Environment) (s : Session) (now kind provider model : String)
    (usage : Usage) (note : Option String) : Session × Entry :=
  appendPayload env s now
    (fun _ => .usage kind provider model usage (if note = some "" then none else note))

/-- The complete prompt and tool state at a compaction boundary. -/
def compactionSystemMessage (env : Environment) (s : Session) (timestamp : String) :
    Option SystemMessage :=
  (getCurrentSystemMessage (sessionProjection env s).messages).map
    (fun message => { message with timestamp := toEpochMs env timestamp })

/-- Without a boundary nothing is retained: the boundary is the compaction itself. -/
def appendCompaction (env : Environment) (s : Session) (now summary : String)
    (firstKeptEntryId : Option String) (tokensBefore : Int) (details : Value)
    (fromHook : Option Bool) (usage : Option Usage) : Session × Entry :=
  appendPayload env s now (fun id =>
    .compaction summary (firstKeptEntryId.getD id) tokensBefore details usage fromHook
      (compactionSystemMessage env s now))

def appendCustomEntry (env : Environment) (s : Session) (now customType : String) (data : Value) :
    Session × Entry :=
  appendPayload env s now (fun _ => .custom customType data)

def sanitizeName (name : String) : String :=
  PythonText.strip (String.ofList (PythonText.joinLines false name.toList))

def appendSessionInfo (env : Environment) (s : Session) (now name : String) : Session × Entry :=
  appendPayload env s now (fun _ => .sessionInfo (sanitizeName name))

def appendCustomMessageEntry (env : Environment) (s : Session) (now customType : String)
    (content : Content) (display : Bool) (details : Value) : Session × Entry :=
  appendPayload env s now (fun _ => .customMessage customType content display details)

/-- What a context edit may target: the role of a message entry, `custom` otherwise. -/
inductive TargetRole where
  | user
  | assistant
  | toolResult
  | custom
  | other
  deriving DecidableEq

def targetRole (target : Entry) : TargetRole :=
  match target.payload with
  | .message (.user _) => .user
  | .message (.assistant _) => .assistant
  | .message (.toolResult _) => .toolResult
  | .message (.custom _) => .custom
  | .message _ => .other
  | _ => .custom

def isEditable (target : Entry) : Bool :=
  match target.payload with
  | .customMessage .. => true
  | .message (.user _) | .message (.assistant _) | .message (.toolResult _) => true
  | _ => false

/-- Text for an assistant message or a tool result becomes a text block. -/
def normalizeReplacement (role : TargetRole) (replacement : Option Content) : Option Content :=
  if role = .assistant || role = .toolResult then replacement.map contentBlocks
  else replacement

def entryNotFound (id : String) : String := s!"Entry {id} not found"

def appendContextEdit (env : Environment) (s : Session) (now targetId : String)
    (replacement : Option Content) : Except String (Session × Entry) :=
  if replacement = some .missing then
    .error "Context edit replacement must be null or contain string/array content"
  else match s.byId.get? targetId with
    | none => .error (entryNotFound targetId)
    | some target =>
      if !(getBranch s none).any (fun entry => entry.id = targetId) then
        .error s!"Entry {targetId} is not on the active branch"
      else if !isEditable target then
        .error s!"Entry {targetId} does not contribute editable model content"
      else
        .ok (appendPayload env s now
          (fun _ => .contextEdit targetId (normalizeReplacement (targetRole target) replacement)))

def setLabel (labels : OrderedMap String String) (targetId : String) (label : Option String)
    (value : String) : OrderedMap String String :=
  if label.getD "" = "" then labels.erase targetId else labels.set targetId value

def appendLabelChange (env : Environment) (s : Session) (now targetId : String)
    (label : Option String) : Except String (Session × Entry) :=
  if !s.byId.contains targetId then .error (entryNotFound targetId)
  else
    let (next, entry) := appendPayload env s now (fun _ => .label targetId label)
    .ok ({ next with
      labelsById := setLabel next.labelsById targetId label (label.getD "")
      labelTimestampsById := setLabel next.labelTimestampsById targetId label now }, entry)

def branch (s : Session) (branchFromId : String) : Except String Session :=
  if !s.byId.contains branchFromId then .error (entryNotFound branchFromId)
  else .ok { s with leafId := some branchFromId }

def resetLeaf (s : Session) : Session := { s with leafId := none }

def branchWithSummary (env : Environment) (s : Session) (now : String)
    (branchFromId : Option String) (summary : String) (details : Value)
    (fromHook : Option Bool) (usage : Option Usage) : Except String (Session × Entry) :=
  if branchFromId.isSome && !s.byId.contains (branchFromId.getD "") then
    .error (entryNotFound (branchFromId.getD ""))
  else
    let fromId := s.leafId.getD "root"
    let (entry, drawn) := newEntry env s branchFromId now
      (fun _ => .branchSummary fromId summary details usage fromHook)
    .ok (appendEntry { s with leafId := branchFromId } entry drawn, entry)

/-- The calls that append an entry, each with the time it reads, and the calls that move
the leaf. -/
inductive Operation where
  | appendMessage (now : String) (message : Message)
  | appendThinkingLevelChange (now thinkingLevel : String)
  | appendModelChange (now provider modelId : String)
  | appendUsage (now kind provider model : String) (usage : Usage) (note : Option String)
  | appendCompaction (now summary : String) (firstKeptEntryId : Option String)
      (tokensBefore : Int) (details : Value) (fromHook : Option Bool) (usage : Option Usage)
  | appendCustomEntry (now customType : String) (data : Value)
  | appendSessionInfo (now name : String)
  | appendCustomMessageEntry (now customType : String) (content : Content) (display : Bool)
      (details : Value)
  | appendContextEdit (now targetId : String) (replacement : Option Content)
  | appendLabelChange (now targetId : String) (label : Option String)
  | branch (branchFromId : String)
  | resetLeaf
  | branchWithSummary (now : String) (branchFromId : Option String) (summary : String)
      (details : Value) (fromHook : Option Bool) (usage : Option Usage)

/-- An append also gives the entry that is to be persisted. -/
def appended (result : Session × Entry) : Session × Option Entry := (result.1, some result.2)

def perform (env : Environment) (s : Session) : Operation → Except String (Session × Option Entry)
  | .appendMessage now message => .ok (appended (appendMessage env s now message))
  | .appendThinkingLevelChange now level =>
    .ok (appended (appendThinkingLevelChange env s now level))
  | .appendModelChange now provider modelId =>
    .ok (appended (appendModelChange env s now provider modelId))
  | .appendUsage now kind provider model usage note =>
    .ok (appended (appendUsage env s now kind provider model usage note))
  | .appendCompaction now summary firstKept tokensBefore details fromHook usage =>
    .ok (appended
      (appendCompaction env s now summary firstKept tokensBefore details fromHook usage))
  | .appendCustomEntry now customType data =>
    .ok (appended (appendCustomEntry env s now customType data))
  | .appendSessionInfo now name => .ok (appended (appendSessionInfo env s now name))
  | .appendCustomMessageEntry now customType content display details =>
    .ok (appended (appendCustomMessageEntry env s now customType content display details))
  | .appendContextEdit now targetId replacement =>
    (appendContextEdit env s now targetId replacement).map appended
  | .appendLabelChange now targetId label =>
    (appendLabelChange env s now targetId label).map appended
  | .branch branchFromId => (branch s branchFromId).map (fun next => (next, none))
  | .resetLeaf => .ok (resetLeaf s, none)
  | .branchWithSummary now branchFromId summary details fromHook usage =>
    (branchWithSummary env s now branchFromId summary details fromHook usage).map appended

/-! Extracting a branch into a session of its own. -/

/-- The loop state of the extraction: the kept copies, the replacement of each label
id, the labels met since the last kept entry, and the parent of the next copy. -/
structure Extraction where
  kept : List Entry
  replacementByLabelId : OrderedMap String String
  pendingLabelIds : List String
  parentId : Option String

def remapBoundary (replacements : OrderedMap String String) (entry : Entry) : Payload :=
  match entry.payload with
  | .compaction summary firstKept tokensBefore details usage fromHook systemMessage =>
    .compaction summary
      (if firstKept = entry.id then entry.id else (replacements.get? firstKept).getD firstKept)
      tokensBefore details usage fromHook systemMessage
  | payload => payload

/-- One round of the loop over the path: labels wait, and every other entry is chained to
the kept entry before it and replaces the labels that waited. -/
def extractEntry (state : Extraction) (entry : Entry) : Extraction :=
  if entry.isLabel then
    { state with pendingLabelIds := state.pendingLabelIds ++ [entry.id] }
  else
    let replacements := state.replacementByLabelId.insertAll
      (state.pendingLabelIds.map (fun labelId => (labelId, entry.id)))
    { kept := state.kept ++
        [{ entry with parentId := state.parentId, payload := remapBoundary replacements entry }]
      replacementByLabelId := replacements
      pendingLabelIds := []
      parentId := some entry.id }

def extractPath (path : List Entry) : Extraction :=
  path.foldl extractEntry ⟨[], OrderedMap.empty, [], none⟩

/-- The label entries of the new session, chained after the kept entries. -/
def labelEntries (env : Environment) (timestamps : OrderedMap String String) :
    List (String × String) → List String → Option String → Nat → List Entry × Nat
  | [], _, _, drawn => ([], drawn)
  | (targetId, label) :: rest, taken, parentId, drawn =>
    let (id, drawn) := generateId env (fun other => other ∈ taken) drawn
    let entry : Entry :=
      ⟨id, parentId, (timestamps.get? targetId).getD "", .label targetId (some label)⟩
    let (entries, drawn) := labelEntries env timestamps rest (taken ++ [id]) (some id) drawn
    (entry :: entries, drawn)

/-- What the index is rebuilt from: one pass over the entries. -/
def indexEntry (s : Session) (entry : Entry) : Session :=
  let indexed := { s with byId := s.byId.set entry.id entry, leafId := some entry.id }
  match entry.payload with
  | .label targetId label =>
    { indexed with
      labelsById := setLabel s.labelsById targetId label (label.getD "")
      labelTimestampsById := setLabel s.labelTimestampsById targetId label entry.timestamp }
  | _ => indexed

def buildIndex (header : SessionHeader) (entries : List Entry) (drawn : Nat) : Session :=
  { entries.foldl indexEntry (newSession header drawn) with entries := entries }

def createBranchedSession (env : Environment) (s : Session) (header : SessionHeader)
    (leafId : String) : Except String Session :=
  let path := getBranch s (some leafId)
  if path.isEmpty then .error (entryNotFound leafId)
  else
    let kept := (extractPath path).kept
    let keptIds := kept.map Entry.id
    let labels := s.labelsById.entries.filter (fun item => item.1 ∈ keptIds)
    let (labels, drawn) := labelEntries env s.labelTimestampsById labels keptIds
      (kept.getLast?.map Entry.id) s.drawn
    .ok (buildIndex header (kept ++ labels) drawn)

/-- The sessions that operations and extractions lead to from a new session. -/
inductive Reachable (env : Environment) : Session → Prop
  | start (header : SessionHeader) (drawn : Nat) : Reachable env (newSession header drawn)
  | step {s : Session} (h : Reachable env s) (op : Operation) {next : Session}
      {entry : Option Entry} (hop : perform env s op = .ok (next, entry)) : Reachable env next
  | extract {s : Session} (h : Reachable env s) (header : SessionHeader) (leafId : String)
      {next : Session} (hextract : createBranchedSession env s header leafId = .ok next) :
      Reachable env next

/-- Operations one after another; a refused operation raises and changes nothing. -/
def run (env : Environment) : Session → List Operation → Session
  | s, [] => s
  | s, op :: rest =>
    match perform env s op with
    | .ok (next, _) => run env next rest
    | .error _ => run env s rest

theorem Reachable.run {env : Environment} {s : Session} (h : Reachable env s)
    (ops : List Operation) : Reachable env (SessionManager.run env s ops) := by
  induction ops generalizing s with
  | nil => exact h
  | cons op rest ih =>
    unfold SessionManager.run
    split
    · rename_i next entry hop
      exact ih (h.step op hop)
    · exact ih h

end Pidrei.SessionManager
