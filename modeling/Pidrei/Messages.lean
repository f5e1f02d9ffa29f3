import Pidrei.Library.OrderedMap
import Pidrei.Values

/-!
Content blocks, usage, tools and messages: the transcript's data types. A field
that may be absent is an `Option`; a free-form field is a `Value` whose null is
Python's None. `Content.missing` is the None that an unvalidated session file
can put in a message's content, and a `raw` block or message is wire data that
was never decoded.
-/
namespace Pidrei.Messages

open Values

structure ToolCall where
  id : String
  name : String
  arguments : Items
  thoughtSignature : Option String := none
  «namespace» : Option String := none
  argumentsError : Option String := none
  deriving DecidableEq

inductive ContentBlock where
  | text (text : String) (textSignature : Option String)
  | thinking (thinking : String) (thinkingSignature : Option String) (redacted : Bool)
  | image (data mimeType : String)
  | toolCall (call : ToolCall)
  | raw (data : Value)
  deriving DecidableEq

inductive Content where
  | missing
  | text (s : String)
  | blocks (blocks : List ContentBlock)
  deriving DecidableEq

structure UsageCost where
  input : Number
  output : Number
  cacheRead : Number
  cacheWrite : Number
  total : Number
  deriving DecidableEq

structure Usage where
  input : Int
  output : Int
  cacheRead : Int
  cacheWrite : Int
  cacheWrite1h : Option Int
  reasoning : Option Int
  totalTokens : Int
  cost : UsageCost
  deriving DecidableEq

def zeroCost : UsageCost := ⟨.float 0, .float 0, .float 0, .float 0, .float 0⟩

/-- The default `Usage()`. -/
def zeroUsage : Usage := ⟨0, 0, 0, 0, none, none, 0, zeroCost⟩

inductive ErrorCode where
  | text (s : String)
  | number (n : Int)
  deriving DecidableEq

structure DiagnosticErrorInfo where
  message : String
  name : Option String
  stack : Option String
  code : Option ErrorCode
  deriving DecidableEq

structure AssistantMessageDiagnostic where
  type : String
  timestamp : Int
  error : Option DiagnosticErrorInfo
  details : Option Items
  deriving DecidableEq

structure DeferredHandle where
  provider : String
  modelId : String
  api : String
  id : String
  expiresAt : Option Int
  pollAfterMs : Option Int
  data : Value
  deriving DecidableEq

inductive StrictMode where
  | prefer
  | require
  deriving DecidableEq

inductive ConstrainedSampling where
  | disabled
  | jsonSchema (strict : StrictMode)
  | grammar (variants : List (String × String))
  deriving DecidableEq

structure Tool where
  name : String
  description : String
  parameters : Items
  constrainedSampling : Option ConstrainedSampling
  deriving DecidableEq

structure ToolReference where
  name : String
  deriving DecidableEq

/-- System instructions and tool declarations at one point of the transcript. A
section with value `none` is removed. -/
structure SystemMessage where
  content : Content
  timestamp : Int
  sections : Option (OrderedMap String (Option String)) := none
  toolsAdded : Option (List Tool) := none
  toolsRemoved : Option (List ToolReference) := none
  deriving DecidableEq

structure UserMessage where
  content : Content
  timestamp : Int
  deriving DecidableEq

inductive StopReason where
  | pending
  | stop
  | length
  | toolUse
  | error
  | aborted
  | deferred
  deriving DecidableEq

structure AssistantMessage where
  content : Content
  api : String
  provider : String
  model : String
  usage : Usage
  stopReason : StopReason
  timestamp : Int
  responseModel : Option String := none
  responseId : Option String := none
  providerThinkingLevel : Option String := none
  thinkingLevel : Option String := none
  diagnostics : Option (List AssistantMessageDiagnostic) := none
  errorMessage : Option String := none
  rawStopReason : Option String := none
  endTurn : Option Bool := none
  deferred : Option DeferredHandle := none
  durationMs : Option Int := none
  deriving DecidableEq

inductive NestedStatus where
  | ok
  | error
  | unfinished
  deriving DecidableEq

structure NestedToolCallRecord where
  id : String
  name : String
  status : NestedStatus
  arguments : Option Items
  argumentsBytes : Option Int
  durationMs : Option Int
  error : Option String
  deriving DecidableEq

structure NestedToolCalls where
  calls : List NestedToolCallRecord
  complete : Bool
  deriving DecidableEq

structure ToolResultMessage where
  toolCallId : String
  toolName : String
  content : Content
  isError : Bool
  timestamp : Int
  details : Value := .null
  usage : Option Usage := none
  nestedCalls : Option NestedToolCalls := none
  durationMs : Option Int := none
  deriving DecidableEq

structure BashExecutionMessage where
  command : String
  output : String
  exitCode : Option Int
  cancelled : Bool
  truncated : Bool
  timestamp : Int
  fullOutputPath : Option String
  excludeFromContext : Option Bool
  deriving DecidableEq

structure CustomMessage where
  customType : String
  content : Content
  display : Bool
  timestamp : Int
  details : Value
  deriving DecidableEq

structure BranchSummaryMessage where
  summary : String
  fromId : Option String
  timestamp : Int
  deriving DecidableEq

structure CompactionSummaryMessage where
  summary : String
  tokensBefore : Int
  timestamp : Int
  deriving DecidableEq

inductive Message where
  | system (m : SystemMessage)
  | user (m : UserMessage)
  | assistant (m : AssistantMessage)
  | toolResult (m : ToolResultMessage)
  | custom (m : CustomMessage)
  | bashExecution (m : BashExecutionMessage)
  | branchSummary (m : BranchSummaryMessage)
  | compactionSummary (m : CompactionSummaryMessage)
  | raw (data : Value)
  deriving DecidableEq

namespace Message

def isSystem : Message → Bool
  | .system _ => true
  | _ => false

/-- The roles that start a conversation on disk. -/
def isConversation : Message → Bool
  | .user _ | .assistant _ => true
  | _ => false

end Message

def createBranchSummaryMessage (summary : String) (fromId : Option String) (timestamp : Int) :
    Message :=
  .branchSummary ⟨summary, fromId, timestamp⟩

def createCompactionSummaryMessage (summary : String) (tokensBefore timestamp : Int) : Message :=
  .compactionSummary ⟨summary, tokensBefore, timestamp⟩

def createCustomMessage (customType : String) (content : Content) (display : Bool)
    (details : Value) (timestamp : Int) : Message :=
  .custom ⟨customType, content, display, timestamp, details⟩

end Pidrei.Messages
