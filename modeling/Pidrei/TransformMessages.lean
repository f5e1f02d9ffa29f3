import Pidrei.AgentTypes
import Pidrei.Library.PythonText

/-!
Rewriting a message history for replay against a model. Images are replaced where
the model has no vision, a first pass rewrites the blocks and the tool-call ids of
messages of other models, and a second pass drops failed assistant messages and
answers the tool calls without a result. `none` is the exception that reading
undecoded data raises.
-/
namespace Pidrei.TransformMessages

open Messages AgentTypes

def nonVisionUserImagePlaceholder : String := "(image omitted: model does not support images)"

def nonVisionToolImagePlaceholder : String :=
  "(tool image omitted: model does not support images)"

/-- The model a history is replayed against, with the kinds of input it takes. -/
structure TargetModel extends Model where
  input : List String

/-- `for block in content`. A text is iterated by its characters, which are no blocks. -/
def iterBlocks : Content → Option (List ContentBlock)
  | .missing => none
  | .text s => if s = "" then some [] else none
  | .blocks blocks => some blocks

/-- One placeholder for each run of images; the flag says whether one was just written. -/
def replaceImages (placeholder : String) : Bool → List ContentBlock → Option (List ContentBlock)
  | _, [] => some []
  | previousWasPlaceholder, .image _ _ :: rest => do
    let result ← replaceImages placeholder true rest
    return if previousWasPlaceholder then result else .text placeholder none :: result
  | _, .text text signature :: rest => do
    let result ← replaceImages placeholder (text == placeholder) rest
    return .text text signature :: result
  | _, _ => none

def replaceImagesWithPlaceholder (content : Content) (placeholder : String) : Option Content := do
  let blocks ← iterBlocks content
  let result ← replaceImages placeholder false blocks
  return .blocks result

def errorToolImagePlaceholder : String := "(image attached after the tool results)"

/-- An error tool result as text only, with its images and the text that names the call. -/
structure SplitErrorToolResult where
  content : Content
  caption : String
  images : List ContentBlock

def isImage : ContentBlock → Bool
  | .image _ _ => true
  | _ => false

/-- The inner `none` is a result that needs no split. -/
def splitErrorToolResultImages (msg : ToolResultMessage) :
    Option (Option SplitErrorToolResult) :=
  if !msg.isError then some none
  else do
    let blocks ← iterBlocks msg.content
    let images := blocks.filter isImage
    if images.isEmpty then return none
    let content ← replaceImagesWithPlaceholder msg.content errorToolImagePlaceholder
    return some {
      content
      caption := "Images from the error result of tool call " ++ msg.toolCallId ++ " (" ++
        msg.toolName ++ "):"
      images }

def emptyIfMissing : Content → Content
  | .missing => .blocks []
  | content => content

/-- `replace(message, content=[])` when the content is None. -/
def normalizeContent : Message → Option Message
  | .system m => some (.system { m with content := emptyIfMissing m.content })
  | .user m => some (.user { m with content := emptyIfMissing m.content })
  | .assistant m => some (.assistant { m with content := emptyIfMissing m.content })
  | .toolResult m => some (.toolResult { m with content := emptyIfMissing m.content })
  | .custom m => some (.custom { m with content := emptyIfMissing m.content })
  | _ => none

def downgradeMessage : Message → Option Message
  | .user m =>
    match m.content with
    | .blocks _ => do
      let content ← replaceImagesWithPlaceholder m.content nonVisionUserImagePlaceholder
      return .user { m with content }
    | _ => some (.user m)
  | .toolResult m => do
    let content ← replaceImagesWithPlaceholder m.content nonVisionToolImagePlaceholder
    return .toolResult { m with content }
  | message => some message

def downgradeUnsupportedImages (model : TargetModel) (messages : List Message) :
    Option (List Message) :=
  if "image" ∈ model.input then some messages else messages.mapM downgradeMessage

/-- `normalize_tool_call_id`: the id, the target model and the message of the call. -/
abbrev IdNormalizer := String → TargetModel → AssistantMessage → String

def isSameModel (message : AssistantMessage) (model : TargetModel) : Bool :=
  message.provider == model.provider && message.api == model.api && message.model == model.id

section FirstPass

variable (model : TargetModel) (normalizeToolCallId : Option IdNormalizer)

abbrev IdMap := OrderedMap String String

def transformToolCall (message : AssistantMessage) (call : ToolCall) (idMap : IdMap) :
    ToolCall × IdMap :=
  if isSameModel message model then (call, idMap)
  else
    let unsigned := { call with thoughtSignature := none }
    match normalizeToolCallId with
    | none => (unsigned, idMap)
    | some normalize =>
      let normalizedId := normalize call.id model message
      if normalizedId = call.id then (unsigned, idMap)
      else ({ unsigned with id := normalizedId }, idMap.set call.id normalizedId)

def keepsThinking (sameModel : Bool) (thinking : String) (signature : Option String)
    (redacted : Bool) : Bool :=
  sameModel && (redacted || signature.any (· ≠ "") || PythonText.strip thinking ≠ "")

def transformBlock (message : AssistantMessage) (block : ContentBlock) (idMap : IdMap) :
    Option (List ContentBlock × IdMap) :=
  let sameModel := isSameModel message model
  match block with
  | .thinking thinking signature redacted =>
    some (if keepsThinking sameModel thinking signature redacted then [block] else [], idMap)
  | .text text _ => some ([if sameModel then block else .text text none], idMap)
  | .toolCall call =>
    let transformed := transformToolCall model normalizeToolCallId message call idMap
    some ([.toolCall transformed.1], transformed.2)
  | .image _ _ => some ([block], idMap)
  | .raw _ => none

def transformBlocks (message : AssistantMessage) :
    List ContentBlock → IdMap → Option (List ContentBlock × IdMap)
  | [], idMap => some ([], idMap)
  | block :: rest, idMap => do
    let first ← transformBlock model normalizeToolCallId message block idMap
    let others ← transformBlocks message rest first.2
    return (first.1 ++ others.1, others.2)

def transformMessage (message : Message) (idMap : IdMap) : Option (Message × IdMap) :=
  match message with
  | .toolResult m =>
    match idMap.get? m.toolCallId with
    | some normalizedId =>
      if normalizedId = m.toolCallId then some (message, idMap)
      else some (.toolResult { m with toolCallId := normalizedId }, idMap)
    | none => some (message, idMap)
  | .assistant m => do
    let blocks ← iterBlocks m.content
    let transformed ← transformBlocks model normalizeToolCallId m blocks idMap
    return (.assistant { m with content := .blocks transformed.1 }, transformed.2)
  | message => some (message, idMap)

/-- The first pass. The map of rewritten ids is kept over the whole history. -/
def rewriteMessages : List Message → IdMap → Option (List Message)
  | [], _ => some []
  | message :: rest, idMap => do
    let first ← transformMessage model normalizeToolCallId message idMap
    let others ← rewriteMessages rest first.2
    return first.1 :: others

end FirstPass

def contentCalls : Content → List ToolCall
  | .blocks blocks => blocks.filterMap fun
    | .toolCall call => some call
    | _ => none
  | _ => []

def toolCalls (m : AssistantMessage) : List ToolCall := contentCalls m.content

def skipped (m : AssistantMessage) : Bool :=
  m.stopReason == .error || m.stopReason == .aborted

section SecondPass

/-- The state of the second pass. -/
structure Replay where
  result : List Message := []
  pendingToolCalls : List ToolCall := []
  existingToolResultIds : List String := []
  heldSystemMessages : List Message := []

-- `now n` is what the clock shows when `n` messages have been written.
variable (now : Nat → Int)

def noResult (call : ToolCall) (timestamp : Int) : Message :=
  .toolResult
    { toolCallId := call.id
      toolName := call.name
      content := .blocks [.text "No result provided" none]
      isError := true
      timestamp }

def answerCall (existing : List String) (result : List Message) (call : ToolCall) :
    List Message :=
  if call.id ∈ existing then result else result ++ [noResult call (now result.length)]

def closePendingToolCalls (s : Replay) : Replay where
  result := s.pendingToolCalls.foldl (answerCall now s.existingToolResultIds) s.result ++
    s.heldSystemMessages
  pendingToolCalls := []
  existingToolResultIds := if s.pendingToolCalls = [] then s.existingToolResultIds else []
  heldSystemMessages := []

def replayMessage (s : Replay) : Message → Replay
  | .assistant m =>
    let closed := closePendingToolCalls now s
    if skipped m then closed
    else if toolCalls m = [] then { closed with result := closed.result ++ [Message.assistant m] }
    else { closed with
      result := closed.result ++ [Message.assistant m]
      pendingToolCalls := toolCalls m
      existingToolResultIds := [] }
  | .toolResult m =>
    { s with
      result := s.result ++ [Message.toolResult m]
      existingToolResultIds := m.toolCallId :: s.existingToolResultIds }
  | .system m =>
    if s.pendingToolCalls = [] then { s with result := s.result ++ [Message.system m] }
    else { s with heldSystemMessages := s.heldSystemMessages ++ [Message.system m] }
  | .user m =>
    let closed := closePendingToolCalls now s
    { closed with result := closed.result ++ [Message.user m] }
  | message => { s with result := s.result ++ [message] }

/-- The second pass. -/
def replayMessages (messages : List Message) : List Message :=
  (closePendingToolCalls now (messages.foldl (replayMessage now) {})).result

end SecondPass

def transformMessages (model : TargetModel) (normalizeToolCallId : Option IdNormalizer)
    (now : Nat → Int) (messages : List Message) : Option (List Message) := do
  let normalized ← messages.mapM normalizeContent
  let imageAware ← downgradeUnsupportedImages model normalized
  let transformed ← rewriteMessages model normalizeToolCallId imageAware .empty
  return replayMessages now transformed

end Pidrei.TransformMessages
