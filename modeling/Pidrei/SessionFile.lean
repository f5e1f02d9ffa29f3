import Pidrei.MessageWire
import Pidrei.SessionManager

/-!
Sessions on disk. A session file has one JSON line for the header and one for
each entry. The first write creates the file and holds every entry appended so
far; later writes append one line. A write may raise after any part of its
bytes has reached the file.
-/
namespace Pidrei.SessionFile

open Values Messages SessionEntries SessionManager MessageWire

/-! Entries as JSON objects. -/

def serializeOptString : Option String → Value
  | none => .null
  | some s => .str s

def entryType : Payload → String
  | .message _ => "message"
  | .thinkingLevelChange _ => "thinking_level_change"
  | .modelChange .. => "model_change"
  | .usage .. => "usage"
  | .compaction .. => "compaction"
  | .branchSummary .. => "branch_summary"
  | .custom .. => "custom"
  | .customMessage .. => "custom_message"
  | .contextEdit .. => "context_edit"
  | .label .. => "label"
  | .sessionInfo _ => "session_info"

def payloadToWire : Payload → Items
  | .message message => [("message", serializeMessage message)]
  | .thinkingLevelChange thinkingLevel => [("thinkingLevel", .str thinkingLevel)]
  | .modelChange provider modelId => [("provider", .str provider), ("modelId", .str modelId)]
  | .usage kind provider model usage note =>
    [("kind", .str kind), ("provider", .str provider), ("model", .str model),
      ("usage", serializeUsage usage)] ++ putString "note" note
  | .compaction summary firstKeptEntryId tokensBefore details usage fromHook systemMessage =>
    [("summary", .str summary), ("firstKeptEntryId", .str firstKeptEntryId),
      ("tokensBefore", int tokensBefore)] ++ putValue "details" (toWireValue details) ++
      put "usage" (usage.map serializeUsage) ++ putBool "fromHook" fromHook ++
      put "systemMessage" (systemMessage.map serializeSystemMessage)
  | .branchSummary fromId summary details usage fromHook =>
    [("fromId", .str fromId), ("summary", .str summary)] ++
      putValue "details" (toWireValue details) ++ put "usage" (usage.map serializeUsage) ++
      putBool "fromHook" fromHook
  | .custom customType data =>
    [("customType", .str customType)] ++ putValue "data" (toWireValue data)
  | .customMessage customType content display details =>
    [("customType", .str customType), ("content", serializeContent content),
      ("display", .bool display)] ++ putValue "details" (toWireValue details)
  | .contextEdit targetId replacement =>
    [("targetId", .str targetId), ("replacement", match replacement with
      | none => .null
      | some content => .dict [("content", serializeContent content)])]
  | .label targetId label => [("targetId", .str targetId)] ++ putString "label" label
  | .sessionInfo name => [("name", .str name)]

def entryToWire (entry : Entry) : Value :=
  .dict ([("type", .str (entryType entry.payload)), ("id", .str entry.id),
    ("parentId", serializeOptString entry.parentId), ("timestamp", .str entry.timestamp)] ++
    payloadToWire entry.payload)

def headerToWire (header : SessionHeader) : Value :=
  .dict ([("type", .str "session"), ("version", int 3), ("id", .str header.id),
    ("timestamp", .str header.timestamp), ("cwd", .str header.cwd)] ++
    putString "parentSession" header.parentSession)

def dumpJson (value : Value) : Value := toWireValue value

/-- Content that is not decoded: the blocks stay JSON values. -/
def rawContent : Option Value → Option Content
  | none | some .null => some .missing
  | some (.str s) => some (.text s)
  | some (.list values) => some (.blocks (values.map .raw))
  | some _ => none

/-- Only a list of blocks in a replacement is decoded. -/
def decodeReplacement : Option Value → Option (Option Content)
  | none | some .null => some none
  | some (.dict fields) => (parseContent (fields.lookup "content")).map some
  | some _ => none

def decodeSystemMessage : Option Value → Option (Option SystemMessage)
  | some (.dict fields) =>
    match parseMessage (.dict fields) with
    | some (.system message) => some (some message)
    | _ => none
  | none | some .null => some none
  | some _ => none

/-- A string field that every entry of its type has. -/
def requireString : Option Value → Option String
  | some (.str s) => some s
  | _ => none

def requireInt : Option Value → Option Int
  | some (.num (.int n)) => some n
  | _ => none

def requireBool : Option Value → Option Bool
  | some (.bool b) => some b
  | _ => none

def decodePayload (fields : Items) : Option Payload :=
  match fields.lookup "type" with
  | some (.str "message") => do
    return .message (← parseMessage (← fields.lookup "message"))
  | some (.str "thinking_level_change") => do
    return .thinkingLevelChange (← requireString (fields.lookup "thinkingLevel"))
  | some (.str "model_change") => do
    return .modelChange (← requireString (fields.lookup "provider"))
      (← requireString (fields.lookup "modelId"))
  | some (.str "usage") => do
    return .usage (← requireString (fields.lookup "kind"))
      (← requireString (fields.lookup "provider")) (← requireString (fields.lookup "model"))
      (← (← parseUsage (asValue (fields.lookup "usage")))) (← asOptString (fields.lookup "note"))
  | some (.str "compaction") => do
    return .compaction (← requireString (fields.lookup "summary"))
      (← requireString (fields.lookup "firstKeptEntryId"))
      (← requireInt (fields.lookup "tokensBefore")) (asValue (fields.lookup "details"))
      (← parseUsage (asValue (fields.lookup "usage"))) (← asOptBool (fields.lookup "fromHook"))
      (← decodeSystemMessage (fields.lookup "systemMessage"))
  | some (.str "branch_summary") => do
    return .branchSummary (← requireString (fields.lookup "fromId"))
      (← requireString (fields.lookup "summary")) (asValue (fields.lookup "details"))
      (← parseUsage (asValue (fields.lookup "usage"))) (← asOptBool (fields.lookup "fromHook"))
  | some (.str "custom") => do
    return .custom (← requireString (fields.lookup "customType")) (asValue (fields.lookup "data"))
  | some (.str "custom_message") => do
    return .customMessage (← requireString (fields.lookup "customType"))
      (← rawContent (fields.lookup "content")) (← requireBool (fields.lookup "display"))
      (asValue (fields.lookup "details"))
  | some (.str "context_edit") => do
    return .contextEdit (← requireString (fields.lookup "targetId"))
      (← decodeReplacement (fields.lookup "replacement"))
  | some (.str "label") => do
    return .label (← requireString (fields.lookup "targetId")) (← asOptString (fields.lookup "label"))
  | some (.str "session_info") => do
    return .sessionInfo (← requireString (fields.lookup "name"))
  | _ => none

/-- Decoding is defined for entries with the fields of their type. -/
def decodeEntry : Value → Option Entry
  | .dict fields => do
    return {
      id := ← requireString (fields.lookup "id")
      parentId := ← asOptString (fields.lookup "parentId")
      timestamp := ← requireString (fields.lookup "timestamp")
      payload := ← decodePayload fields }
  | _ => none

def decodeHeader : Value → Option SessionHeader
  | .dict fields =>
    if fields.lookup "type" = some (.str "session") ∧ fields.lookup "version" = some (int 3) then do
      return {
        id := ← requireString (fields.lookup "id")
        timestamp := ← requireString (fields.lookup "timestamp")
        cwd := ← requireString (fields.lookup "cwd")
        parentSession := ← asOptString (fields.lookup "parentSession") }
    else none
  | _ => none

/-! Files. -/

/-- A line is a JSON value or does not parse. -/
inductive Line where
  | json (value : Value)
  | malformed
  deriving DecidableEq

/-- The terminated lines of a file, and the text after the last newline if there is any. -/
structure File where
  lines : List Line
  tail : Option Line
  deriving DecidableEq

def File.empty : File := ⟨[], none⟩

/-- A line that continues an unterminated one does not parse. -/
def File.firstLine (file : File) (value : Value) : Line :=
  if file.tail.isSome then .malformed else .json value

/-- Append whole lines, each with its newline. -/
def File.append (file : File) : List Value → File
  | [] => file
  | value :: rest => ⟨file.lines ++ file.firstLine value :: rest.map .json, none⟩

/-- The end of a torn write: the next line is not begun, begun, or lacks its newline only. -/
inductive Torn where
  | nothing
  | begun
  | unterminated

def File.appendPart (file : File) (payload : List Value) (whole : Nat) (torn : Torn) : File :=
  let written := file.append (payload.take whole)
  match payload.drop whole, torn with
  | [], _ => written
  | _ :: _, .nothing => written
  | _ :: _, .begun => { written with tail := some .malformed }
  | value :: _, .unterminated => { written with tail := some (written.firstLine value) }

/-- What happens to the bytes of one open and write. A raising write may have created the
file, and may have written any part of the payload. -/
inductive Outcome where
  | done
  | raised (created : Bool) (whole : Nat) (torn : Torn)

inductive Mode where
  | exclusive
  | append
  deriving DecidableEq

/-- One open and write; the flag says whether it succeeded. -/
def writeSessionBytes (disk : Option File) (mode : Mode) (payload : List Value)
    (outcome : Outcome) : Option File × Bool :=
  match mode, disk with
  | .exclusive, some file => (some file, false)
  | _, _ =>
    match outcome with
    | .done => (some ((disk.getD .empty).append payload), true)
    | .raised created whole torn =>
      if disk.isSome || created then
        (some ((disk.getD .empty).appendPart payload whole torn), false)
      else (none, false)

/-! Persisting appends. -/

structure Manager where
  session : Session
  persist : Bool
  flushed : Bool

def hasConversation (s : Session) : Bool := s.entries.any Entry.isConversation

def sessionLines (s : Session) : List Value :=
  dumpJson (headerToWire s.header) :: s.entries.map (fun entry => dumpJson (entryToWire entry))

def planPersist (m : Manager) (entry : Entry) : Option (Mode × List Value) :=
  if !m.persist then none
  else if !m.flushed then
    if !hasConversation m.session then none else some (.exclusive, sessionLines m.session)
  else some (.append, [dumpJson (entryToWire entry)])

structure Store where
  manager : Manager
  disk : Option File

inductive Result where
  | refused (message : String)
  | moved
  | deferred (entry : Entry)
  | written (entry : Entry)
  | raised (entry : Entry)

/-- Write what the plan says; a first write that lands marks the session as flushed. -/
def persistEntry (store : Store) (entry : Entry) (outcome : Outcome) : Store × Result :=
  match planPersist store.manager entry with
  | none => (store, .deferred entry)
  | some (mode, payload) =>
    let (disk, landed) := writeSessionBytes store.disk mode payload outcome
    if landed then
      ({ manager := { store.manager with flushed := store.manager.flushed || mode = .exclusive }
         disk := disk }, .written entry)
    else ({ store with disk := disk }, .raised entry)

/-- An operation with its write. The memory is updated first. -/
def step (env : Environment) (store : Store) (op : Operation) (outcome : Outcome) :
    Store × Result :=
  match perform env store.manager.session op with
  | .error message => (store, .refused message)
  | .ok (next, none) =>
    ({ store with manager := { store.manager with session := next } }, .moved)
  | .ok (next, some entry) =>
    persistEntry { store with manager := { store.manager with session := next } } entry outcome

def runSteps (env : Environment) : Store → List (Operation × Outcome) → Store
  | store, [] => store
  | store, (op, outcome) :: rest => runSteps env (step env store op outcome).1 rest

/-! Opening files. -/

def lineValue : Line → Option Items
  | .json (.dict fields) => some fields
  | _ => none

/-- Whether a parsed line is a session header. -/
def isHeader (fields : Items) : Bool :=
  fields.lookup "type" = some (.str "session") &&
    match fields.lookup "id" with
    | some (.str _) => true
    | _ => false

/-- The parsed objects of a file, none of them if the first is no header. An unterminated
tail of a session file gets its newline. -/
def loadWireEntries (file : File) : List Items × File :=
  let entries := (file.lines ++ file.tail.toList).filterMap lineValue
  match entries with
  | [] => ([], file)
  | first :: _ =>
    if isHeader first then (entries, ⟨file.lines ++ file.tail.toList, none⟩) else ([], file)

inductive OpenError where
  | notASession
  /-- A header of another version, or an entry without the fields of its type. -/
  | untyped

/-- Decode a header and its entries and rebuild the index. -/
def loadEntries (drawn : Nat) : List Items → Option Session
  | [] => none
  | header :: rest => do
    let header ← decodeHeader (.dict header)
    let entries ← rest.mapM (fun fields => decodeEntry (.dict fields))
    return buildIndex header entries drawn

/-- Open a session file. `header` is the header of a new session, used when the file is
absent or empty. -/
def setSessionFile (disk : Option File) (header : SessionHeader) (drawn : Nat) :
    Except OpenError Store :=
  match disk with
  | none => .ok ⟨⟨newSession header drawn, true, false⟩, none⟩
  | some file =>
    match loadWireEntries file with
    | ([], _) =>
      if file = .empty then
        .ok ⟨⟨newSession header drawn, true, true⟩,
          some (File.empty.append (sessionLines (newSession header drawn)))⟩
      else .error .notASession
    | (entries, repaired) =>
      match loadEntries drawn entries with
      | none => .error .untyped
      | some session => .ok ⟨⟨session, true, true⟩, some repaired⟩

end Pidrei.SessionFile
