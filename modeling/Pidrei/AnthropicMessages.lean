import Pidrei.RequestTranscript

/-!
The Anthropic adapter's request: the conversion of a transcript into wire messages, the
effort markers before them, and where tool changes go. `none` is an exception of the
conversion. Names, schemas and cache marks of the tools are converted one tool at a time.
-/
namespace Pidrei.AnthropicMessages

open Values Messages AgentTypes Transcript TransformMessages RequestTranscript

def normalizeToolCallId : IdNormalizer := fun id _ _ =>
  String.ofList ((sanitizeId id.toList).take 64)

/-! ### The wire -/

inductive ContentPart where
  | text (text : String)
  | image (mediaType data : String)

inductive ResultContent where
  | text (s : String)
  | parts (parts : List ContentPart)

structure Definition where
  name : String
  description : String
  eagerInputStreaming : Bool
  strict : Bool
  inputSchema : Value
  cacheControl : Option Value := none
  deferLoading : Bool := false

inductive BlockBody where
  | part (part : ContentPart)
  | redactedThinking (data : Option String)
  | thinking (thinking signature : String)
  | toolUse (id name : String) (input : Items)
  | toolResult (toolUseId : String) (content : ResultContent) (isError : Bool)
  | toolRemoval (name : String)
  | toolAddition (definition : Definition)

structure Block where
  body : BlockBody
  cacheControl : Option Value := none

abbrev Block.text (text : String) : Block := ⟨.part (.text text), none⟩

inductive UserContent where
  | text (s : String)
  | blocks (blocks : List Block)

inductive WireMessage where
  | user (content : UserContent)
  | assistant (content : List Block)
  | system (content : List Block) (effort : Option String)

/-! ### Content -/

def convertPart : ContentBlock → Option ContentPart
  | .text text _ => some (.text text)
  | .image data mimeType => some (.image mimeType data)
  | _ => none

def ContentPart.text? : ContentPart → Option String
  | .text s => some s
  | .image _ _ => none

def convertContentBlocks (content : Content) : Option ResultContent := do
  let blocks ← iterBlocks content
  let parts ← blocks.mapM convertPart
  let texts := parts.filterMap ContentPart.text?
  if !blocks.any isImage then return .text (joinText "\n" texts)
  else if texts.isEmpty then return .parts (.text "(see attached image)" :: parts)
  else return .parts parts

def convertToolResult (msg : ToolResultMessage) (content : Option Content) : Option Block := do
  let converted ← convertContentBlocks (content.getD msg.content)
  return ⟨.toolResult msg.toolCallId converted msg.isError, none⟩

def nonblank (s : String) : Bool := PythonText.strip s != ""

/-- A text or image block of a user message; a blank text is left out. -/
def convertUserItem (item : ContentBlock) : Option (List Block) := do
  let part ← convertPart item
  return match part with
    | .text text => if nonblank text then [.text text] else []
    | .image _ _ => [⟨.part part, none⟩]

def claudeCodeTools : List String :=
  ["Read", "Write", "Edit", "Bash", "Grep", "Glob", "AskUserQuestion", "EnterPlanMode",
    "ExitPlanMode", "KillShell", "NotebookEdit", "Skill", "Task", "TaskOutput", "TodoWrite",
    "WebFetch", "WebSearch"]

def isAnthropicEffort (value : Option String) : Bool :=
  value.any fun level => level ∈ ["low", "medium", "high", "xhigh", "max"]

/-- How a request is built: the model, its compatibility flags and the options. -/
structure Setup where
  model : TargetModel
  isOauthToken : Bool
  cacheControl : Option Value
  allowEmptySignature : Bool
  supportsCacheControlOnTools : Bool
  supportsEagerToolInputStreaming : Bool
  supportsMidConvoSystemMessages : Bool
  supportsMidConvoToolChanges : Bool
  /-- Effort markers are sent: the model takes them and thinking is not disabled. -/
  effortMessages : Bool
  effort : Option String
  /-- `str.lower`. -/
  lower : String → String
  /-- Whether a tool goes out strict, and its `input_schema`. -/
  inputSchema : Tool → Option (Bool × Value)
  now : ℕ → ℤ

section Conversion

variable (setup : Setup)

def toClaudeCodeName (name : String) : String :=
  (claudeCodeTools.find? fun canonical => setup.lower canonical == setup.lower name).getD name

def wireName (name : String) : String :=
  if setup.isOauthToken then toClaudeCodeName setup name else name

def convertTool (tool : Tool) : Option Definition := do
  let (strict, inputSchema) ← setup.inputSchema tool
  return {
    name := wireName setup tool.name
    description := tool.description
    eagerInputStreaming := setup.supportsEagerToolInputStreaming
    strict
    inputSchema }

def markLast (cacheControl : Option Value) : List Definition → List Definition
  | [] => []
  | [definition] => [{ definition with cacheControl }]
  | definition :: rest => definition :: markLast cacheControl rest

def convertTools (tools : List Tool) (cacheControl : Option Value) : Option (List Definition) := do
  let definitions ← tools.mapM (convertTool setup)
  return markLast cacheControl definitions

def removedNames (m : SystemMessage) : List String :=
  ((toolsRemoved m).map ToolReference.name).filter (· ∉ (toolsAdded m).map Tool.name)

def systemBlocks (nativeToolChanges : Bool) (m : SystemMessage) : Option (List Block) := do
  let text := renderSystemMessageUpdate m
  let textBlocks := if text = "" then [] else [Block.text text]
  if !nativeToolChanges then return textBlocks
  let removals := (removedNames m).map fun name => ⟨.toolRemoval (wireName setup name), none⟩
  let definitions ← convertTools setup (toolsAdded m) none
  return textBlocks ++ removals ++ definitions.map fun definition =>
    ⟨.toolAddition definition, none⟩

/-- A thinking block. Without a signature it goes out as text, unless the model takes an
empty one. -/
def convertThinking (thinking : String) (signature : Option String) : List Block :=
  if signature.any nonblank then [⟨.thinking thinking (signature.getD ""), none⟩]
  else if !nonblank thinking then []
  else if setup.allowEmptySignature then [⟨.thinking thinking "", none⟩]
  else [.text thinking]

def convertAssistantBlock : ContentBlock → Option (List Block)
  | .text text _ => some (if nonblank text then [.text text] else [])
  | .thinking _ signature true => some [⟨.redactedThinking signature, none⟩]
  | .thinking thinking signature false => some (convertThinking setup thinking signature)
  | .toolCall call => some [⟨.toolUse call.id (wireName setup call.name) call.arguments, none⟩]
  | .image _ _ => some []
  | .raw _ => none

/-- The loop variables of `convertMessages`. -/
structure Converting where
  params : List WireMessage := []
  assistantLevels : List (ℕ × String) := []
  pendingSystemMessages : List WireMessage := []

def Converting.push (s : Converting) (message : WireMessage) : Converting :=
  { s with params := s.params ++ [message] }

def flushPendingSystemMessages (s : Converting) : Converting :=
  { s with params := s.params ++ s.pendingSystemMessages, pendingSystemMessages := [] }

def convertUser (s : Converting) (m : UserMessage) : Option Converting :=
  match m.content with
  | .text text => some (if nonblank text then s.push (.user (.text text)) else s)
  | content => do
    let items ← iterBlocks content
    let blocks ← items.mapM convertUserItem
    return if blocks.flatten.isEmpty then s else s.push (.user (.blocks blocks.flatten))

/-- Whether the effort of a reply is replayed: the message is the managed provider's own. -/
def replaysEffort (m : AssistantMessage) : Bool :=
  setup.effortMessages && m.api == "anthropic-messages" && m.provider == setup.model.provider &&
    isAnthropicEffort m.providerThinkingLevel

def convertAssistant (s : Converting) (m : AssistantMessage) : Option Converting := do
  let flushed := flushPendingSystemMessages s
  let items ← iterBlocks m.content
  let blocks ← items.mapM (convertAssistantBlock setup)
  if blocks.flatten.isEmpty then return flushed
  let levels := if replaysEffort setup m
    then [(flushed.params.length, m.providerThinkingLevel.getD "")] else []
  return { flushed.push (.assistant blocks.flatten) with
    assistantLevels := flushed.assistantLevels ++ levels }

def convertResult (msg : ToolResultMessage) : Option (Block × List Block) := do
  let split ← splitErrorToolResultImages msg
  let result ← convertToolResult msg (split.map SplitErrorToolResult.content)
  match split with
  | none => return (result, [])
  | some split => do
    let images ← split.images.mapM convertPart
    return (result, .text split.caption :: images.map fun image => ⟨.part image, none⟩)

def convertEntry (nativeToolChanges : Bool) (s : Converting) : Entry → Option Converting
  | .message (.system m) => do
    let blocks ← systemBlocks setup nativeToolChanges m
    return if blocks.isEmpty then s
      else { s with pendingSystemMessages := s.pendingSystemMessages ++ [WireMessage.system blocks none] }
  | .message (.user m) => convertUser s m
  | .message (.assistant m) => convertAssistant setup s m
  | .results msgs => do
    let converted ← msgs.mapM convertResult
    return s.push (.user (.blocks (converted.map Prod.fst ++ converted.flatMap Prod.snd)))
  | .message _ => some s

def takesCacheControl : BlockBody → Bool
  | .part _ | .toolResult _ _ _ | .toolAddition _ | .toolRemoval _ => true
  | _ => false

def cacheLastBlock (cacheControl : Value) : List Block → List Block
  | [] => []
  | [block] => [if takesCacheControl block.body then { block with cacheControl } else block]
  | block :: rest => block :: cacheLastBlock cacheControl rest

def cacheMessage (cacheControl : Value) : WireMessage → WireMessage
  | .user (.text text) => .user (.blocks [⟨.part (.text text), cacheControl⟩])
  | .user (.blocks blocks) => .user (.blocks (cacheLastBlock cacheControl blocks))
  | .system blocks effort => .system (cacheLastBlock cacheControl blocks) effort
  | .assistant blocks => .assistant blocks

/-- The history is cached through its last user or system message. -/
def cacheLastMessage (cacheControl : Value) : List WireMessage → List WireMessage
  | [] => []
  | [message] => [cacheMessage cacheControl message]
  | message :: rest => message :: cacheLastMessage cacheControl rest

structure ConvertedMessages where
  messages : List WireMessage
  assistantLevels : List (ℕ × String)

def convertMessages (nativeToolChanges : Bool) (transformedMessages : List Message) :
    Option ConvertedMessages := do
  let s ← (entries transformedMessages).foldlM (convertEntry setup nativeToolChanges) {}
  let params := (flushPendingSystemMessages s).params
  return {
    messages := match setup.cacheControl with
      | none => params
      | some cacheControl => cacheLastMessage cacheControl params
    assistantLevels := s.assistantLevels }

def effortMarker (effort : String) : WireMessage := .system [] (some effort)

/-- The messages from one index on, each behind the effort it was produced with. -/
def insertEfforts (levels : List (ℕ × String)) : ℕ → List WireMessage → List WireMessage
  | _, [] => []
  | index, message :: rest =>
    ((levels.lookup index).map effortMarker).toList ++
      message :: insertEfforts levels (index + 1) rest

def insertThinkingLevelMessages (converted : ConvertedMessages) (activeEffort : String) :
    List WireMessage :=
  insertEfforts converted.assistantLevels 0 converted.messages ++ [effortMarker activeEffort]

def deferredToolPlaceholder : Definition where
  name := "__pi_deferred_placeholder__"
  description := "Reserved placeholder. Never available. Never call this."
  eagerInputStreaming := false
  strict := false
  inputSchema := .dict [("type", .str "object"), ("properties", .dict []), ("required", .list [])]
  deferLoading := true

/-- Tool changes go into the messages: the model takes them, and an initial tool anchors the
placeholder. -/
def nativeToolChanges (messages : List Message) : Bool :=
  setup.supportsMidConvoSystemMessages && setup.supportsMidConvoToolChanges &&
    !((getInitialSystemMessage messages).map toolsAdded |>.getD []).isEmpty

/-- The request's system prompt, messages and tools. -/
structure Params where
  system : List String
  messages : List WireMessage
  tools : List Definition

/-- Native tool changes leave the request's tool list as it was at first; otherwise it holds
the current tools. -/
def requestTools (context : List Message) : Option (List Definition) :=
  let cacheControl := if setup.supportsCacheControlOnTools then setup.cacheControl else none
  if nativeToolChanges setup context then do
    let initial := (getInitialSystemMessage context).map toolsAdded
    let definitions ← convertTools setup (initial.getD []) cacheControl
    return definitions ++ [deferredToolPlaceholder]
  else convertTools setup (getCurrentTools context) cacheControl

def claudeCodeIdentity : String := "You are Claude Code, Anthropic's official CLI for Claude."

def buildParams (context : List Message) : Option Params := do
  let initial := getInitialSystemMessage context
  let initialText := (initial.map getSystemMessageText).getD ""
  let transformed ← transformMessages setup.model (some normalizeToolCallId) setup.now context
  let conversation := if initial.isSome then transformed.drop 1 else transformed
  let converted ← convertMessages setup (nativeToolChanges setup context) conversation
  let tools ← requestTools setup context
  return {
    system := (if setup.isOauthToken then [claudeCodeIdentity] else []) ++
      (if initialText = "" then [] else [initialText])
    messages := if setup.effortMessages
      then insertThinkingLevelMessages converted (setup.effort.getD "high")
      else converted.messages
    tools }

def request (messages : List Message) : Option Params :=
  buildParams setup (resolveTranscript messages setup.supportsMidConvoSystemMessages)

end Conversion

end Pidrei.AnthropicMessages
