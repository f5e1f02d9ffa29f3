import Pidrei.Messages

/-!
The agent's own types: executable tools, the context of a run, what tools and
hooks give back, and the events of a run. What a tool or a hook does when it is
called belongs to the surroundings of a run.
-/
namespace Pidrei.AgentTypes

open Values Messages

inductive ToolExecutionMode where
  | sequential
  | parallel
  deriving DecidableEq

structure AgentTool extends Tool where
  label : String
  executionMode : Option ToolExecutionMode := none

structure AgentContext where
  messages : List Message
  tools : List AgentTool

/-- A tool's result. An untyped tool may leave the content out. -/
structure AgentToolResult where
  content : Option (List ContentBlock)
  details : Value
  structuredContent : Value := .null
  usage : Option Usage := none
  isError : Option Bool := none
  terminate : Option Bool := none
  nestedCalls : Option NestedToolCalls := none
  nestedUsage : Option Usage := none
  deriving DecidableEq

structure BeforeToolCallResult where
  block : Option Bool := none
  reason : Option String := none
  terminate : Option Bool := none

/-- Fields that are given replace the ones of the result. -/
structure AfterToolCallResult where
  content : Option (List ContentBlock) := none
  details : Value := .null
  structuredContent : Value := .null
  isError : Option Bool := none
  usage : Option Usage := none
  terminate : Option Bool := none

structure Model where
  id : String
  api : String
  provider : String

/-- A completed turn as the turn hooks see it. -/
structure AgentTurnContext where
  message : AssistantMessage
  toolResults : List ToolResultMessage
  context : AgentContext
  newMessages : List Message

inductive AgentTurnDecision where
  | continue
  | end
  deriving DecidableEq

structure AgentLoopTurnUpdate where
  context : Option AgentContext := none
  messages : Option (List Message) := none
  model : Option Model := none
  thinkingLevel : Option String := none

structure AgentRequestUpdate where
  context : Option AgentContext := none
  model : Option Model := none
  thinkingLevel : Option String := none

/-- What the loop itself reads of its configuration; the hooks belong to the environment. -/
structure AgentLoopConfig where
  model : Model
  reasoning : Option String
  toolExecution : Option ToolExecutionMode

inductive AgentEvent where
  | agentStart
  | agentEnd (messages : List Message)
  | turnStart
  | turnEnd (message : AssistantMessage) (toolResults : List ToolResultMessage)
  | messageStart (message : Message)
  | messageUpdate (message : Message)
  | messageEnd (message : Message)
  | toolExecutionStart (toolCallId toolName : String) (args : Items)
  | toolExecutionUpdate (toolCallId toolName : String) (args : Items)
      (partialResult : AgentToolResult)
  | toolExecutionEnd (toolCallId toolName : String) (result : AgentToolResult) (isError : Bool)
      (durationMs : Option Int)
  deriving DecidableEq

end Pidrei.AgentTypes
