import Mathlib.Data.Rat.Defs
import Pidrei.Library.ParentLog
import Pidrei.Transcript

/-!
Session entries and the model context built from them. A session is a log of
entries whose parent ids form a tree. The context of a leaf is the path from the
root to it; the latest compaction on the path stands for the entries before its
boundary, and context edits change what an entry contributes.
-/
namespace Pidrei.SessionEntries

open Values Messages Transcript

/-- What a session takes from outside: the milliseconds of an ISO timestamp and
the sequence of `uuid4` strings. A full uuid is longer than the eight characters
a short id takes of it, and two draws differ. -/
structure Environment where
  epochMs : String → Rat
  uuid : Nat → String
  uuid_injective : Function.Injective uuid
  uuid_long : ∀ n, 8 < (uuid n).length

/-- A clock that stands still and uuids that repeat one letter. -/
def plainEnvironment : Environment where
  epochMs := fun _ => 0
  uuid := fun n => String.ofList (List.replicate (9 + n) (Char.ofNat (97 + n % 26)))
  uuid_injective := by
    intro m n h
    have hlength := congrArg String.length h
    simp only [String.length_ofList, List.length_replicate] at hlength
    omega
  uuid_long := by
    intro n
    rw [String.length_ofList, List.length_replicate]
    omega

/-- `int(...)` cuts the fraction off. -/
def toEpochMs (env : Environment) (timestamp : String) : Int :=
  (env.epochMs timestamp).num.tdiv (env.epochMs timestamp).den

inductive Payload where
  | message (message : Message)
  | thinkingLevelChange (thinkingLevel : String)
  | modelChange (provider modelId : String)
  | usage (kind provider model : String) (usage : Usage) (note : Option String)
  | compaction (summary firstKeptEntryId : String) (tokensBefore : Int) (details : Value)
      (usage : Option Usage) (fromHook : Option Bool) (systemMessage : Option SystemMessage)
  | branchSummary (fromId summary : String) (details : Value) (usage : Option Usage)
      (fromHook : Option Bool)
  | custom (customType : String) (data : Value)
  | customMessage (customType : String) (content : Content) (display : Bool) (details : Value)
  | contextEdit (targetId : String) (replacement : Option Content)
  | label (targetId : String) (label : Option String)
  | sessionInfo (name : String)
  deriving DecidableEq

structure Entry where
  id : String
  parentId : Option String
  timestamp : String
  payload : Payload
  deriving DecidableEq

instance : TreeNode Entry String := ⟨Entry.id, Entry.parentId⟩

namespace Entry

def isCompaction (entry : Entry) : Bool :=
  match entry.payload with
  | .compaction .. => true
  | _ => false

def isLabel (entry : Entry) : Bool :=
  match entry.payload with
  | .label .. => true
  | _ => false

def isSystem (entry : Entry) : Bool :=
  match entry.payload with
  | .message message => message.isSystem
  | _ => false

/-- A message entry that starts a conversation on disk. -/
def isConversation (entry : Entry) : Bool :=
  match entry.payload with
  | .message message => message.isConversation
  | _ => false

def firstKeptEntryId (entry : Entry) : Option String :=
  match entry.payload with
  | .compaction _ firstKept _ _ _ _ _ => some firstKept
  | _ => none

end Entry

def buildEntryIndex (entries : List Entry) : OrderedMap String Entry :=
  OrderedMap.ofList (entries.map (fun entry => (entry.id, entry)))

/-- `index.get(id) if id else None`: None and the empty id find nothing. -/
def findEntry (byId : OrderedMap String Entry) : Option String → Option Entry
  | none => none
  | some id => if id = "" then none else byId.get? id

def parentEntry (byId : OrderedMap String Entry) (entry : Entry) : Option Entry :=
  findEntry byId entry.parentId

/-- The loop from an entry up to its root. There is no path longer than the index. -/
def followParents (byId : OrderedMap String Entry) (leaf : Option Entry) : List Entry :=
  (ParentLog.walk (parentEntry byId) byId.entries.length leaf []).getD []

/-- The `leaf_id` argument: not given, or given as an id or None. -/
inductive LeafId where
  | unset
  | given (id : Option String)

def buildSessionPath (entries : List Entry) (leafId : LeafId) (byId : OrderedMap String Entry) :
    List Entry :=
  match leafId with
  | .given none => []
  | .given (some id) => followParents byId ((byId.get? id).or entries.getLast?)
  | .unset => followParents byId entries.getLast?

structure SessionContextModel where
  provider : String
  modelId : String

def contextSetting (settings : String × Option SessionContextModel) (entry : Entry) :
    String × Option SessionContextModel :=
  match entry.payload with
  | .thinkingLevelChange thinkingLevel => (thinkingLevel, settings.2)
  | .modelChange provider modelId => (settings.1, some ⟨provider, modelId⟩)
  | .message (.assistant message) => (settings.1, some ⟨message.provider, message.model⟩)
  | _ => settings

def getSessionContextSettings (path : List Entry) : String × Option SessionContextModel :=
  path.foldl contextSetting ("off", none)

/-- A message of a session file may lack its content. -/
def withContent (message : Message) : Message :=
  match message with
  | .system m => if m.content = .missing then .system { m with content := .text "" } else message
  | .user m => if m.content = .missing then .user { m with content := .blocks [] } else message
  | .assistant m =>
    if m.content = .missing then .assistant { m with content := .blocks [] } else message
  | .toolResult m =>
    if m.content = .missing then .toolResult { m with content := .blocks [] } else message
  | _ => message

def sessionEntryToContextMessages (env : Environment) (entry : Entry) : List Message :=
  match entry.payload with
  | .message message => [withContent message]
  | .customMessage customType content display details =>
    [createCustomMessage customType (if content = .missing then .blocks [] else content) display
      details (toEpochMs env entry.timestamp)]
  | .branchSummary fromId summary _ _ _ =>
    if summary = "" then []
    else [createBranchSummaryMessage summary (some fromId) (toEpochMs env entry.timestamp)]
  | .compaction summary _ tokensBefore _ _ _ systemMessage =>
    (systemMessage.map Message.system).toList ++
      [createCompactionSummaryMessage summary tokensBefore (toEpochMs env entry.timestamp)]
  | _ => []

def latestCompaction (path : List Entry) : Option Entry :=
  path.foldl (fun found entry => if entry.isCompaction then some entry else found) none

/-- The loop over the entries before the compaction: entries from the boundary on
are kept, system messages are dropped. -/
def keptEntries (firstKept : Option String) : Bool → List Entry → List Entry
  | _, [] => []
  | found, entry :: rest =>
    let found := found || some entry.id = firstKept
    if found && !entry.isSystem then entry :: keptEntries firstKept found rest
    else keptEntries firstKept found rest

def contextEntriesOfPath (path : List Entry) : List Entry :=
  match latestCompaction path with
  | none => path
  | some compaction =>
    match path.findIdx? (fun entry => entry.id = compaction.id) with
    | none => path
    | some index =>
      compaction :: keptEntries compaction.firstKeptEntryId false (path.take index) ++
        path.drop (index + 1)

/-- Assistant and tool result content is a list of blocks. -/
def contentBlocks : Content → Content
  | .text s => .blocks [.text s none]
  | content => content

def replaceContent (content : Content) (message : Message) : Message :=
  match message with
  | .user m => .user { m with content := content }
  | .custom m => .custom { m with content := content }
  | .assistant m => .assistant { m with content := contentBlocks content }
  | .toolResult m => .toolResult { m with content := contentBlocks content }
  | _ => message

/-- `edit` is the edit's replacement, when there is an edit. -/
def projectContextEntry (env : Environment) (entry : Entry) (edit : Option (Option Content)) :
    List Message :=
  match edit with
  | none => sessionEntryToContextMessages env entry
  | some none => []
  | some (some content) => (sessionEntryToContextMessages env entry).map (replaceContent content)

def contextEdits (contextEntries : List Entry) : OrderedMap String (Option Content) :=
  contextEntries.foldl (fun edits entry =>
    match entry.payload with
    | .contextEdit targetId replacement => edits.set targetId replacement
    | _ => edits) OrderedMap.empty

structure ProjectedSessionEntry where
  sourceEntry : Entry
  messages : List Message

structure SessionProjection where
  entries : List ProjectedSessionEntry
  messages : List Message
  thinkingLevel : String
  model : Option SessionContextModel

/-- Only the compaction at the start of the context contributes its summary. -/
def projectedMessages (env : Environment) (edits : OrderedMap String (Option Content))
    (index : Nat) (entry : Entry) : List Message :=
  if entry.isCompaction && 0 < index then []
  else projectContextEntry env entry (edits.get? entry.id)

def projectPath (env : Environment) (path : List Entry) : SessionProjection :=
  let contextEntries := contextEntriesOfPath path
  let edits := contextEdits contextEntries
  let entries := contextEntries.zipIdx.map (fun item =>
    ⟨item.1, projectedMessages env edits item.2 item.1⟩)
  { entries := entries
    messages := entries.flatMap ProjectedSessionEntry.messages
    thinkingLevel := (getSessionContextSettings path).1
    model := (getSessionContextSettings path).2 }

def buildSessionProjection (env : Environment) (entries : List Entry) (leafId : LeafId)
    (byId : OrderedMap String Entry) : SessionProjection :=
  projectPath env (buildSessionPath entries leafId byId)

end Pidrei.SessionEntries
