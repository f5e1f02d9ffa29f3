import Mathlib.Algebra.GroupWithZero.Nat
import Mathlib.Data.Finset.Union
import Pidrei.MessageWire
import Pidrei.SessionEntries

/-!
Choosing what a compaction summarizes. Token counts are estimated from the length
of what the model sees, a cut point is searched from the newest entry backwards,
and the entries before it are handed to the summarizer. `stringify` is
`safe_json_stringify`; `none` is the exception that reading undecoded content
raises.
-/
namespace Pidrei.Compaction

open Values Messages Transcript SessionEntries MessageWire

structure CompactionSettings where
  enabled : Bool
  reserveTokens : Int
  keepRecentTokens : Int

/-! ### Token estimates -/

def calculateContextTokens (usage : Usage) : Int :=
  if usage.totalTokens ≠ 0 then usage.totalTokens
  else usage.input + usage.output + usage.cacheRead + usage.cacheWrite

/-- Failed and all-zero messages say nothing about the context. -/
def getAssistantUsage : Message → Option Usage
  | .assistant m =>
    if m.stopReason ≠ .aborted ∧ m.stopReason ≠ .error ∧ 0 < calculateContextTokens m.usage then
      some m.usage
    else none
  | _ => none

def estimatedImageChars : Nat := 4800

def blockChars : ContentBlock → Nat
  | .text text _ => text.length
  | .image _ _ => estimatedImageChars
  | _ => 0

def estimateTextAndImageContentChars : Content → Option Nat
  | .missing => none
  | .text s => some s.length
  | .blocks blocks => some (blocks.map blockChars).sum

/-- `math.ceil(chars / 4)`. -/
def quarter (chars : Nat) : Nat := (chars + 3) / 4

section Estimates

variable (stringify : Value → String)

def assistantBlockChars : ContentBlock → Option Nat
  | .text text _ => some text.length
  | .thinking thinking _ _ => some thinking.length
  | .toolCall call => some (call.name.length + (stringify (.dict call.arguments)).length)
  | .image _ _ => some 0
  | .raw _ => none

def assistantChars : Content → Option Nat
  | .missing => none
  | .text s => if s = "" then some 0 else none
  | .blocks blocks => (blocks.mapM (assistantBlockChars stringify)).map List.sum

def systemChars (m : SystemMessage) : Option Nat := do
  let content ← estimateTextAndImageContentChars m.content
  let sections := ((m.sections.map OrderedMap.values).getD []).filterMap id
  let tools := match m.toolsAdded with
    | none | some [] => 0
    | some tools => (stringify (.list (tools.map serializeTool))).length
  return content + (sections.map String.length).sum + tools

def estimateTokens : Message → Option Nat
  | .system m => (systemChars stringify m).map quarter
  | .user m => (estimateTextAndImageContentChars m.content).map quarter
  | .assistant m => (assistantChars stringify m.content).map quarter
  | .custom m => (estimateTextAndImageContentChars m.content).map quarter
  | .toolResult m => (estimateTextAndImageContentChars m.content).map quarter
  | .bashExecution m => some (quarter (m.command.length + m.output.length))
  | .branchSummary m => some (quarter m.summary.length)
  | .compactionSummary m => some (quarter m.summary.length)
  | .raw _ => some 0

def sumTokens (messages : List Message) : Option Nat :=
  (messages.mapM (estimateTokens stringify)).map List.sum

structure ContextUsageEstimate where
  tokens : Int
  usageTokens : Int
  trailingTokens : Int
  lastUsageIndex : Option Nat

def getLastAssistantUsageInfo (messages : List Message) : Option (Usage × Nat) :=
  messages.zipIdx.reverse.findSome? fun item =>
    (getAssistantUsage item.1).map fun usage => (usage, item.2)

def estimateContextTokens (messages : List Message) : Option ContextUsageEstimate :=
  match getLastAssistantUsageInfo messages with
  | none => do
    let estimated ← sumTokens stringify messages
    return ⟨estimated, 0, estimated, none⟩
  | some (usage, index) => do
    let trailing ← sumTokens stringify (messages.drop (index + 1))
    let usageTokens := calculateContextTokens usage
    return ⟨usageTokens + trailing, usageTokens, trailing, some index⟩

def entryOfMessage (index : Nat) : Nat → List ProjectedSessionEntry → Option String
  | _, [] => none
  | position, entry :: rest =>
    if index < position + entry.messages.length then some entry.sourceEntry.id
    else entryOfMessage index (position + entry.messages.length) rest

def indexOrMinusOne : Option Nat → Int
  | some index => index
  | none => -1

def isContextEdit (entry : Entry) : Bool :=
  match entry.payload with
  | .contextEdit _ _ => true
  | _ => false

def latestInvalidatingIndex (branch : List Entry) : Int :=
  indexOrMinusOne ((branch.zipIdx.reverse.find? fun item =>
    isContextEdit item.1 || item.1.isCompaction).map Prod.snd)

/-- The last usage counts only when no edit and no compaction came after it. -/
def estimateProjectedContextTokens (projection : SessionProjection) (branch : List Entry) :
    Option ContextUsageEstimate := do
  let estimate ← estimateContextTokens stringify projection.messages
  let usageEntryIndex := match estimate.lastUsageIndex with
    | none => none
    | some index =>
      match entryOfMessage index 0 projection.entries with
      | none | some "" => some (-1)
      | some id => some (indexOrMinusOne (branch.findIdx? fun (entry : Entry) => entry.id = id))
  if usageEntryIndex.any (latestInvalidatingIndex branch < ·) then return estimate
  let system ← match getCurrentSystemMessage projection.messages with
    | some m => estimateTokens stringify (.system m)
    | none => some 0
  let rest ← sumTokens stringify (projection.messages.filter (!Message.isSystem ·))
  return ⟨system + rest, 0, system + rest, none⟩

end Estimates

/-! ### Cut points -/

def isTurnStartMessage : Message → Bool
  | .user _ | .bashExecution _ | .custom _ | .branchSummary _ | .compactionSummary _ => true
  | _ => false

def isCutPointMessage : Message → Bool
  | .assistant _ => true
  | message => isTurnStartMessage message

structure CutPointResult where
  firstKeptEntryIndex : Nat
  turnStartIndex : Option Nat
  isSplitTurn : Bool
  deriving DecidableEq

/-- The loop from the newest index back to where the budget is reached. -/
def reachBudget (tokens : Nat → Option Nat) (keepRecentTokens : Int) :
    List Nat → Nat → Option (Option Nat)
  | [], _ => some none
  | index :: rest, accumulated => do
    let messageTokens ← tokens index
    if messageTokens = 0 then reachBudget tokens keepRecentTokens rest accumulated
    else if keepRecentTokens ≤ (accumulated + messageTokens : Nat) then return some index
    else reachBudget tokens keepRecentTokens rest (accumulated + messageTokens)

def closestCutPoint (first : Nat) (others : List Nat) (index : Nat) : Nat :=
  ((first :: others).find? (index ≤ ·)).getD ((first :: others).getLast (by simp))

/-- Step back over entries that do not affect the context. -/
def moveBack (isHidden : Nat → Bool) (startIndex : Nat) : Nat → Nat
  | 0 => 0
  | cutIndex + 1 =>
    if startIndex ≤ cutIndex && isHidden cutIndex then moveBack isHidden startIndex cutIndex
    else cutIndex + 1

def findTurnStart (startsTurn : Nat → Bool) (startIndex : Nat) : Nat → Option Nat
  | 0 => if startIndex = 0 && startsTurn 0 then some 0 else none
  | index + 1 =>
    if index + 1 < startIndex then none
    else if startsTurn (index + 1) then some (index + 1)
    else findTurnStart startsTurn startIndex index

def cutPointResult (startsTurn : Nat → Bool) (startIndex cutIndex : Nat) : CutPointResult :=
  if startsTurn cutIndex then ⟨cutIndex, none, false⟩
  else
    let turnStartIndex := findTurnStart startsTurn startIndex cutIndex
    ⟨cutIndex, turnStartIndex, turnStartIndex.isSome⟩

def searchCutPoint (isCutPoint startsTurn isHidden : Nat → Bool) (tokens : Nat → Option Nat)
    (advance : Nat → Bool → Nat) (startIndex endIndex : Nat) (keepRecentTokens : Int) :
    Option CutPointResult :=
  let range := List.range' startIndex (endIndex - startIndex)
  match range.filter isCutPoint with
  | [] => some ⟨startIndex, none, false⟩
  | first :: others => do
    let reached ← reachBudget tokens keepRecentTokens range.reverse 0
    let cutIndex := match reached with
      | none => first
      | some index => closestCutPoint first others index
    return cutPointResult startsTurn startIndex
      (moveBack isHidden startIndex (advance cutIndex reached.isSome))

section Search

variable (env : Environment) (stringify : Value → String)

def isIntrinsicallyVisible (entry : ProjectedSessionEntry) : Bool :=
  !isContextEdit entry.sourceEntry &&
    !(sessionEntryToContextMessages env entry.sourceEntry).isEmpty

def isOmitted (entry : ProjectedSessionEntry) : Bool :=
  isIntrinsicallyVisible env entry && entry.messages.isEmpty

def isAssistantEntry (entry : Entry) : Bool :=
  match entry.payload with
  | .message (.assistant _) => true
  | _ => false

/-- An edit that shows other content for an entry outside the omitted ones. -/
def isExternalReplacement (omittedIds : List String) (entry : ProjectedSessionEntry) : Bool :=
  match entry.sourceEntry.payload with
  | .contextEdit targetId (some _) => targetId ∉ omittedIds
  | _ => false

def isRecoveryOmissionSuffix (newest : List ProjectedSessionEntry) : Bool :=
  let omittedIds := (newest.filter (isOmitted env)).map (·.sourceEntry.id)
  !newest.any (isExternalReplacement omittedIds) &&
    newest.any (fun entry => isAssistantEntry entry.sourceEntry && isOmitted env entry) &&
    newest.all fun entry => !entry.sourceEntry.isCompaction &&
      (!isIntrinsicallyVisible env entry || isOmitted env entry)

def findProjectedCutPoint (entries : List ProjectedSessionEntry) (startIndex endIndex : Nat)
    (keepRecentTokens : Int) : Option CutPointResult :=
  let messages index := (entries[index]?.map ProjectedSessionEntry.messages).getD []
  let isCompaction index := entries[index]?.any (·.sourceEntry.isCompaction)
  searchCutPoint (fun index => !isCompaction index && (messages index).any isCutPointMessage)
    (fun index => !isCompaction index && (messages index).any isTurnStartMessage)
    (fun index => !isCompaction index && (messages index).isEmpty)
    (fun index => sumTokens stringify (messages index))
    (fun cutIndex exceededBudget =>
      if exceededBudget &&
          isRecoveryOmissionSuffix env ((entries.take endIndex).drop (cutIndex + 1)) then
        cutIndex + 1
      else cutIndex)
    startIndex endIndex keepRecentTokens

end Search

/-! ### File operations -/

structure FileOperations where
  read : Finset Value := ∅
  written : Finset Value := ∅
  edited : Finset Value := ∅

def addFileOp (toolName : String) (arguments : Items) (fileOps : FileOperations) :
    FileOperations :=
  match arguments.lookup "path" with
  | some (.str path) =>
    if path = "" then fileOps
    else match toolName with
      | "read" => { fileOps with read := insert (.str path) fileOps.read }
      | "write" => { fileOps with written := insert (.str path) fileOps.written }
      | "edit" => { fileOps with edited := insert (.str path) fileOps.edited }
      | _ => fileOps
  | _ => fileOps

def extractFileOpsFromMessage (fileOps : FileOperations) : Message → FileOperations
  | .toolResult m =>
    ((m.nestedCalls.map NestedToolCalls.calls).getD []).foldl (fun ops call =>
      addFileOp call.name (call.arguments.getD []) ops) fileOps
  | .assistant m =>
    match m.content with
    | .blocks blocks => blocks.foldl (fun ops block =>
        match block with
        | .toolCall call => addFileOp call.name call.arguments ops
        | _ => ops) fileOps
    | _ => fileOps
  | _ => fileOps

def isHashable : Value → Bool
  | .list _ | .dict _ | .record _ => false
  | _ => true

/-- `set.update(files)`; a member that is no list changes nothing. -/
def updateFiles (files : Option Value) (known : Finset Value) : Option (Finset Value) :=
  match files with
  | some (.list names) =>
    if names.all isHashable then some (names.foldl (fun known name => insert name known) known)
    else none
  | _ => some known

/-- The file lists that an earlier compaction recorded. -/
def recordedFileOps (entry : Entry) : Option FileOperations :=
  match entry.payload with
  | .compaction _ _ _ details _ fromHook _ =>
    if fromHook = some true then some {}
    else
      let files := match details with
        | .dict fields => (fields.lookup "readFiles", fields.lookup "modifiedFiles")
        | .record fields => (fields.lookup "read_files", fields.lookup "modified_files")
        | _ => (none, none)
      do
        let read ← updateFiles files.1 ∅
        let edited ← updateFiles files.2 ∅
        return { read, edited }
  | _ => some {}

def extractFileOperations (messages : List Message) (previous : Option Entry) :
    Option FileOperations := do
  let recorded ← match previous with
    | some entry => recordedFileOps entry
    | none => some {}
  return messages.foldl extractFileOpsFromMessage recorded

/-! ### Preparation -/

structure CompactionPreparation where
  firstKeptEntryId : String
  messagesToSummarize : List Message
  turnPrefixMessages : List Message
  isSplitTurn : Bool
  tokensBefore : Int
  previousSummary : Option String
  fileOps : FileOperations
  settings : CompactionSettings

/-- System messages are prompt state, not conversation. -/
def messagesForCompaction (entry : ProjectedSessionEntry) : List Message :=
  if entry.sourceEntry.isCompaction then []
  else entry.messages.filter (!Message.isSystem ·)

def entrySummary (entry : Entry) : Option String :=
  match entry.payload with
  | .compaction summary .. => some summary
  | _ => none

/-- `entries[start:stop]`. -/
def slice (entries : List ProjectedSessionEntry) (start stop : Nat) :
    List ProjectedSessionEntry := (entries.take stop).drop start

def prevCompactionIndex (entries : List ProjectedSessionEntry) : Option Nat :=
  entries.findIdx? fun entry => entry.sourceEntry.isCompaction && !entry.messages.isEmpty

def boundaryStart (entries : List ProjectedSessionEntry) : Nat :=
  match prevCompactionIndex entries with
  | some index => index + 1
  | none => 0

/-- The messages of the complete turns before the cut. -/
def historyMessages (entries : List ProjectedSessionEntry) (start : Nat)
    (cutPoint : CutPointResult) : List Message :=
  let historyEnd := if cutPoint.isSplitTurn then cutPoint.turnStartIndex.getD 0
    else cutPoint.firstKeptEntryIndex
  (slice entries start historyEnd).flatMap messagesForCompaction

def prefixMessages (entries : List ProjectedSessionEntry) (cutPoint : CutPointResult) :
    List Message :=
  if cutPoint.isSplitTurn then
    (slice entries (cutPoint.turnStartIndex.getD 0) cutPoint.firstKeptEntryIndex).flatMap
      messagesForCompaction
  else []

section Prepare

variable (env : Environment) (stringify : Value → String)

def prepareProjection (projection : SessionProjection) (pathEntries : List Entry)
    (settings : CompactionSettings) : Option (Option CompactionPreparation) := do
  let entries := projection.entries
  let start := boundaryStart entries
  let previous := ((prevCompactionIndex entries).bind (entries[·]?)).map (·.sourceEntry)
  let estimate ← estimateProjectedContextTokens stringify projection pathEntries
  let cutPoint ← findProjectedCutPoint env stringify entries start entries.length
    settings.keepRecentTokens
  match entries[cutPoint.firstKeptEntryIndex]? with
  | none => return none
  | some firstKept =>
    if firstKept.sourceEntry.id = "" then return none
    else
      let messagesToSummarize := historyMessages entries start cutPoint
      let turnPrefixMessages := prefixMessages entries cutPoint
      if messagesToSummarize.isEmpty && turnPrefixMessages.isEmpty then return none
      else
        let fileOps ← extractFileOperations messagesToSummarize previous
        return some {
          firstKeptEntryId := firstKept.sourceEntry.id
          messagesToSummarize
          turnPrefixMessages
          isSplitTurn := cutPoint.isSplitTurn
          tokensBefore := estimate.tokens
          previousSummary := previous.bind entrySummary
          fileOps := turnPrefixMessages.foldl extractFileOpsFromMessage fileOps
          settings }

def prepareCompaction (pathEntries : List Entry) (settings : CompactionSettings) :
    Option (Option CompactionPreparation) :=
  if pathEntries.getLast?.any Entry.isCompaction then some none
  else
    prepareProjection env stringify
      (buildSessionProjection env pathEntries .unset (buildEntryIndex pathEntries)) pathEntries
      settings

end Prepare

end Pidrei.Compaction
