import Pidrei.RequestTranscript

/-!
The Chat Completions adapter's messages: the conversion of a transcript, with its bridge
between tool results and a user message. `none` is an exception of the conversion. How a
tool is declared and how JSON is read and written belong to the surroundings.
-/
namespace Pidrei.OpenaiCompletions

open Values Messages AgentTypes Transcript TransformMessages RequestTranscript

/-! ### The wire -/

inductive Part where
  | text (text : String)
  | imageUrl (url : String)

inductive WireContent where
  | null
  | text (s : String)
  | parts (parts : List Part)

inductive WireCall where
  | custom (id name input : String)
  | function (id name arguments : String)

def WireCall.id : WireCall → String
  | custom id _ _ | function id _ _ => id

structure AssistantParam where
  content : WireContent
  toolCalls : Option (List WireCall) := none
  /-- The raw reasoning fields, by name. -/
  reasoning : List (String × String) := []
  reasoningDetails : Option (List Value) := none

inductive WireMessage where
  | instruction (role content : String)
  | systemTools (tools : List Value)
  | user (content : WireContent)
  | assistant (m : AssistantParam)
  | tool (content toolCallId : String) (name : Option String)

inductive Role where
  | system
  | user
  | assistant
  | toolResult
  deriving DecidableEq

/-! ### Reasoning details -/

def isStr : Value → Bool
  | .str _ => true
  | _ => false

def isNumber : Value → Bool
  | .num _ | .bool _ => true
  | _ => false

def hasValidCommonReasoningDetailFields (detail : Items) : Bool :=
  (detail.lookup "id").all (fun id => id == .null || isStr id) &&
    (detail.lookup "format").all isStr && (detail.lookup "index").all isNumber

def isOpenaiReasoningDetail : Value → Bool
  | .dict detail =>
    hasValidCommonReasoningDetailFields detail &&
      match detail.lookup "type" with
      | some (.str "reasoning.summary") => (detail.lookup "summary").any isStr
      | some (.str "reasoning.encrypted") => (detail.lookup "data").any isStr
      | some (.str "reasoning.text") => (detail.lookup "text").any isStr &&
          (detail.lookup "signature").all (fun signature => signature == .null || isStr signature)
      | _ => false
  | _ => false

def isFilled : Value → Bool
  | .str s => 0 < s.length
  | _ => false

def isLegacyEncryptedDetail (detail : Value) : Bool :=
  isOpenaiReasoningDetail detail &&
    match detail with
    | .dict items => items.lookup "type" == some (.str "reasoning.encrypted") &&
        (items.lookup "id").any isFilled && (items.lookup "data").any isFilled
    | _ => false

def openaiCompletionsReasoningFields : List String :=
  ["reasoning", "reasoning_content", "reasoning_text"]

/-- How a request is built: the model, its compatibility flags and the options. -/
structure Setup where
  model : TargetModel
  reasoning : Bool
  supportsDeveloperRole : Bool
  supportsMidConvoSystemMessages : Bool
  supportsMidConvoToolAdditions : Bool
  requiresToolResultName : Bool
  requiresAssistantAfterToolResult : Bool
  requiresThinkingAsText : Bool
  requiresReasoningContentOnAssistantMessages : Bool
  grammarToolInputProperties : OrderedMap String String
  convertTools : List Tool → Option (List Value)
  /-- `json.loads`; `none` is a ValueError. -/
  parseJson : String → Option Value
  /-- `json.dumps`. -/
  dumps : Items → String
  now : ℕ → ℤ

section Conversion

variable (setup : Setup)

def combinedId (callId itemId : List Char) : List Char :=
  if itemId = [] then callId else callId ++ '_' :: itemId

/-- Ids of the Responses API are `{call_id}|{item_id}`. -/
def normalizeToolCallId : IdNormalizer := fun id _ _ =>
  let chars := id.toList
  if '|' ∈ chars then
    let callId := sanitizeId (chars.takeWhile (· != '|'))
    let itemId := sanitizeId ((chars.dropWhile (· != '|')).drop 1)
    let combined := combinedId callId itemId
    if combined.length ≤ 40 then String.ofList combined
    else
      let hashed := (shortHash chars).take 8
      String.ofList (callId.take (max 1 (40 - hashed.length - 1)) ++ '_' :: hashed)
  else if setup.model.provider == "openai" && 40 < chars.length then String.ofList (chars.take 40)
  else id

def parseOpenaiReasoningDetails (signature : Option String) : Option (List Value) :=
  match (signature.filter (· ≠ "")).bind setup.parseJson with
  | some (.list details) =>
    if !details.isEmpty && details.all isOpenaiReasoningDetail then some details else none
  | _ => none

def parseLegacyEncryptedReasoningDetail (signature : Option String) : Option Value :=
  ((signature.filter (· ≠ "")).bind setup.parseJson).filter isLegacyEncryptedDetail

def imageUrl (mimeType data : String) : Part :=
  .imageUrl ("data:" ++ mimeType ++ ";base64," ++ data)

/-- An item of a user message. Empty texts are left out. -/
def convertUserItem : ContentBlock → Option (List Part)
  | .text text _ => some (if text = "" then [] else [.text text])
  | .image data mimeType => some [imageUrl mimeType data]
  | _ => none

def nonblank (s : String) : Bool := PythonText.strip s != ""

def nonblankText : ContentBlock → Option String
  | .text text _ => if nonblank text then some text else none
  | _ => none

def thinkingBlock : ContentBlock → Option (String × Option String)
  | .thinking thinking signature _ => some (thinking, signature)
  | _ => none

def convertCall (call : ToolCall) : Option WireCall :=
  match setup.grammarToolInputProperties.get? call.name with
  | some property =>
    match call.arguments.lookup property with
    | some (.str input) => some (.custom call.id call.name input)
    | _ => none
  | none => some (.function call.id call.name (setup.dumps call.arguments))

/-- The reasoning details that go out with an assistant message. -/
def preservedReasoningDetails (blocks : List ContentBlock) : Option (List Value) :=
  let signed := (blocks.filterMap thinkingBlock).findSome? fun block =>
    parseOpenaiReasoningDetails setup block.2
  let legacy := (contentCalls (.blocks blocks)).filterMap fun call =>
    parseLegacyEncryptedReasoningDetail setup call.thoughtSignature
  signed.or (if legacy = [] then none else some legacy)

def emptyContent : WireContent :=
  if setup.requiresAssistantAfterToolResult then .text "" else .null

def assistantContent (texts thinkings : List String) : WireContent :=
  if thinkings ≠ [] ∧ setup.requiresThinkingAsText then
    .parts (.text (joinText "\n\n" thinkings) :: texts.map .text)
  else if texts = [] then emptyContent setup
  else .text (joinText "" texts)

/-- The field that carries the thinking of a message as plain text. -/
def reasoningField (thinkings : List (String × Option String)) (preserved : Option (List Value)) :
    List (String × String) :=
  match thinkings with
  | [] => []
  | first :: _ =>
    if setup.requiresThinkingAsText || preserved.isSome then []
    else
      let signature := if setup.model.provider == "opencode-go" && first.2 == some "reasoning"
        then some "reasoning_content" else first.2
      ((signature.filter (· ∈ openaiCompletionsReasoningFields)).map fun field =>
        (field, joinText "\n" (thinkings.map Prod.fst))).toList

def addReasoningContent (fields : List (String × String)) : List (String × String) :=
  if setup.requiresReasoningContentOnAssistantMessages && setup.reasoning &&
      fields.all (·.1 != "reasoning_content")
  then fields ++ [("reasoning_content", "")] else fields

def assistantParam (blocks : List ContentBlock) : Option AssistantParam := do
  let texts := blocks.filterMap nonblankText
  let thinkings := (blocks.filterMap thinkingBlock).filter fun block => nonblank block.1
  let calls := contentCalls (.blocks blocks)
  let preserved := preservedReasoningDetails setup blocks
  let converted ← calls.mapM (convertCall setup)
  return {
    content := assistantContent setup texts (thinkings.map Prod.fst)
    toolCalls := if calls = [] then none else some converted
    reasoning := addReasoningContent setup (reasoningField setup thinkings preserved)
    reasoningDetails := preserved }

def WireContent.hasContent : WireContent → Bool
  | .null => false
  | .text s => 0 < s.length
  | .parts items => !items.isEmpty

/-- The loop variables of `convertMessages`. -/
structure Converting where
  params : List WireMessage := []
  lastRole : Option Role := none
  systemIndex : ℕ := 0
  /-- No message was taken yet. -/
  leading : Bool := true

def Converting.push (s : Converting) (messages : List WireMessage) : Converting :=
  { s with params := s.params ++ messages }

def bridge : WireMessage :=
  .assistant { content := .text "I have processed the tool results." }

def instructionRole : String :=
  if setup.reasoning && setup.supportsDeveloperRole then "developer" else "system"

/-- Tools that are declared in place. -/
def toolMessages (addedTools : List Tool) : Option (List WireMessage) :=
  if addedTools = [] then some []
  else do
    let converted ← setup.convertTools addedTools
    return [.systemTools converted]

def convertSystem (folded : ℕ) (s : Converting) (m : SystemMessage) : Option Converting := do
  let addedTools := if folded ≤ s.systemIndex then toolsAdded m else []
  let tools ← toolMessages setup addedTools
  let text := if s.leading then getSystemMessageText m else renderSystemMessageUpdate m
  let instruction := if text = "" then []
    else [WireMessage.instruction (instructionRole setup) text]
  return { s.push (tools ++ instruction) with
    systemIndex := s.systemIndex + 1
    lastRole := some .system
    leading := false }

/-- Some providers take no user message directly after tool results. -/
def bridgeToUser (s : Converting) : Converting :=
  if setup.requiresAssistantAfterToolResult ∧ s.lastRole = some .toolResult then s.push [bridge]
  else s

def convertUser (s : Converting) (m : UserMessage) : Option Converting :=
  let bridged := { bridgeToUser setup s with leading := false }
  match m.content with
  | .text text =>
    some { bridged.push [.user (.text text)] with lastRole := some .user }
  | content => do
    let items ← iterBlocks content
    let parts ← items.mapM convertUserItem
    -- A message without content is skipped, and the role before it is kept.
    return if parts.flatten.isEmpty then bridged
      else { bridged.push [.user (.parts parts.flatten)] with lastRole := some .user }

def convertAssistant (s : Converting) (m : AssistantMessage) : Option Converting := do
  let blocks ← iterBlocks m.content
  let param ← assistantParam setup blocks
  return if !param.content.hasContent && param.toolCalls.isNone then { s with leading := false }
    else { s.push [.assistant param] with lastRole := some .assistant, leading := false }

def resultText : ContentBlock → Option String
  | .text text _ => some text
  | _ => none

def imagePart : ContentBlock → Option Part
  | .image data mimeType => some (imageUrl mimeType data)
  | _ => none

def convertResult (msg : ToolResultMessage) : Option (WireMessage × List Part) := do
  let blocks ← iterBlocks msg.content
  let textResult := joinText "\n" (blocks.filterMap resultText)
  let images := blocks.filterMap imagePart
  let text := if nonblank textResult then textResult
    else if images ≠ [] then "(see attached image)" else "(no tool output)"
  let name := if setup.requiresToolResultName && msg.toolName ≠ "" then some msg.toolName else none
  return (.tool text msg.toolCallId name, if "image" ∈ setup.model.input then images else [])

def attachedImages : Part := .text "Attached image(s) from tool result:"

def convertResults (s : Converting) (msgs : List ToolResultMessage) : Option Converting := do
  let converted ← msgs.mapM (convertResult setup)
  let images := converted.flatMap Prod.snd
  let tools := s.push (converted.map Prod.fst)
  if images = [] then return { tools with lastRole := some .toolResult, leading := false }
  let bridges := if setup.requiresAssistantAfterToolResult then [bridge] else []
  return { tools.push (bridges ++ [WireMessage.user (.parts (attachedImages :: images))]) with
    lastRole := some .user
    leading := false }

def convertEntry (folded : ℕ) (s : Converting) : Entry → Option Converting
  | .message (.system m) => convertSystem setup folded s m
  | .message (.user m) => convertUser setup s m
  | .message (.assistant m) => convertAssistant setup s m
  | .results msgs => convertResults setup s msgs
  | .message _ => some { s with lastRole := none, leading := false }

def toolSupport : TranscriptToolSupport :=
  if setup.supportsMidConvoSystemMessages && setup.supportsMidConvoToolAdditions then .additions
  else .none

def convertMessages (context : List Message) : Option (List WireMessage) := do
  let normalized := resolveTranscript context setup.supportsMidConvoSystemMessages
  let transformed ← transformMessages setup.model (some (normalizeToolCallId setup)) setup.now
    normalized
  let folded := (resolveTranscriptTools normalized (toolSupport setup)).foldedSystemMessages
  let s ← (entries transformed).foldlM (convertEntry setup folded) {}
  return s.params

end Conversion

end Pidrei.OpenaiCompletions
