import Pidrei.Messages

/-!
The wire shape of messages: camelCase dicts that leave absent fields out.
Parsing is defined where the fields have the types the dataclasses declare; a
dict with another shape has no parsed message here.
-/
namespace Pidrei.MessageWire

open Values Messages

/-- `_put`: an absent field is not written. -/
def put (key : String) : Option Value → Items
  | none => []
  | some value => [(key, value)]

def putString (key : String) (value : Option String) : Items := put key (value.map .str)

def putInt (key : String) (value : Option Int) : Items := put key (value.map (fun n => .num (.int n)))

def putBool (key : String) (value : Option Bool) : Items := put key (value.map .bool)

def putDict (key : String) (value : Option Items) : Items := put key (value.map .dict)

/-- A free-form field: None is not written. -/
def putValue (key : String) (value : Value) : Items :=
  put key (if value = .null then none else some value)

def int (n : Int) : Value := .num (.int n)

/-! Reading a field. `none` outside means that the field has another type. -/

def asString (default : String) : Option Value → Option String
  | none => some default
  | some (.str s) => some s
  | some _ => none

def asOptString : Option Value → Option (Option String)
  | none | some .null => some none
  | some (.str s) => some (some s)
  | some _ => none

def asInt : Option Value → Option Int
  | none => some 0
  | some (.num (.int n)) => some n
  | some _ => none

def asOptInt : Option Value → Option (Option Int)
  | none | some .null => some none
  | some (.num (.int n)) => some (some n)
  | some _ => none

def asNumber : Option Value → Option Number
  | none => some (.float 0)
  | some (.num n) => some n
  | some _ => none

def asBool : Option Value → Option Bool
  | none => some false
  | some (.bool b) => some b
  | some _ => none

def asOptBool : Option Value → Option (Option Bool)
  | none | some .null => some none
  | some (.bool b) => some (some b)
  | some _ => none

/-- `data.get(key) or {}`. -/
def asDict : Option Value → Option Items
  | none | some .null => some []
  | some (.dict items) => some items
  | some _ => none

def asOptDict : Option Value → Option (Option Items)
  | none | some .null => some none
  | some (.dict items) => some (some items)
  | some _ => none

def asValue (field : Option Value) : Value := field.getD .null

/-- A list field that counts as absent when it is no list. -/
def asOptList {α : Type} (parse : Value → Option α) : Option Value → Option (Option (List α))
  | some (.list values) => (values.mapM parse).map some
  | _ => some none

def serializeUsage (usage : Usage) : Value :=
  .dict ([("input", int usage.input), ("output", int usage.output),
      ("cacheRead", int usage.cacheRead), ("cacheWrite", int usage.cacheWrite)] ++
    putInt "cacheWrite1h" usage.cacheWrite1h ++ putInt "reasoning" usage.reasoning ++
    [("totalTokens", int usage.totalTokens),
      ("cost", .dict [("input", .num usage.cost.input), ("output", .num usage.cost.output),
        ("cacheRead", .num usage.cost.cacheRead), ("cacheWrite", .num usage.cost.cacheWrite),
        ("total", .num usage.cost.total)])])

/-- No usage unless the value is a dict. -/
def parseUsage : Value → Option (Option Usage)
  | .dict fields => do
    let cost ← asDict (fields.lookup "cost")
    return some {
      input := ← asInt (fields.lookup "input")
      output := ← asInt (fields.lookup "output")
      cacheRead := ← asInt (fields.lookup "cacheRead")
      cacheWrite := ← asInt (fields.lookup "cacheWrite")
      cacheWrite1h := ← asOptInt (fields.lookup "cacheWrite1h")
      reasoning := ← asOptInt (fields.lookup "reasoning")
      totalTokens := ← asInt (fields.lookup "totalTokens")
      cost := {
        input := ← asNumber (cost.lookup "input")
        output := ← asNumber (cost.lookup "output")
        cacheRead := ← asNumber (cost.lookup "cacheRead")
        cacheWrite := ← asNumber (cost.lookup "cacheWrite")
        total := ← asNumber (cost.lookup "total") } }
  | _ => some none

def serializeContentBlock : ContentBlock → Value
  | .text text signature =>
    .dict ([("type", .str "text"), ("text", .str text)] ++ putString "textSignature" signature)
  | .thinking thinking signature redacted =>
    .dict ([("type", .str "thinking"), ("thinking", .str thinking)] ++
      putString "thinkingSignature" signature ++ if redacted then [("redacted", .bool true)] else [])
  | .toolCall call =>
    .dict ([("type", .str "toolCall"), ("id", .str call.id), ("name", .str call.name),
        ("arguments", .dict call.arguments)] ++
      putString "thoughtSignature" call.thoughtSignature ++
      putString "namespace" call.namespace ++ putString "argumentsError" call.argumentsError)
  | .image data mimeType =>
    .dict [("type", .str "image"), ("data", .str data), ("mimeType", .str mimeType)]
  | .raw data => data

def parseContentBlock : Value → Option ContentBlock
  | .dict fields =>
    match fields.lookup "type" with
    | some (.str "text") => do
      return .text (← asString "" (fields.lookup "text")) (← asOptString (fields.lookup "textSignature"))
    | some (.str "thinking") => do
      return .thinking (← asString "" (fields.lookup "thinking"))
        (← asOptString (fields.lookup "thinkingSignature")) (← asBool (fields.lookup "redacted"))
    | some (.str "toolCall") => do
      return .toolCall {
        id := ← asString "" (fields.lookup "id")
        name := ← asString "" (fields.lookup "name")
        arguments := ← asDict (fields.lookup "arguments")
        thoughtSignature := ← asOptString (fields.lookup "thoughtSignature")
        «namespace» := ← asOptString (fields.lookup "namespace")
        argumentsError := ← asOptString (fields.lookup "argumentsError") }
    | some (.str "image") => do
      return .image (← asString "" (fields.lookup "data")) (← asString "" (fields.lookup "mimeType"))
    | _ => some (.raw (.dict fields))
  | data => some (.raw data)

def serializeContent : Content → Value
  | .missing => .null
  | .text s => .str s
  | .blocks blocks => .list (blocks.map serializeContentBlock)

/-- `_parse_content(data.get("content"))`. -/
def parseContent : Option Value → Option Content
  | none | some .null => some .missing
  | some (.str s) => some (.text s)
  | some (.list values) => (values.mapM parseContentBlock).map .blocks
  | some _ => none

/-- `_parse_content(...) or []`. -/
def contentOrEmpty : Content → Content
  | .missing => .blocks []
  | .text s => if s = "" then .blocks [] else .text s
  | .blocks blocks => .blocks blocks

def serializeStrict : StrictMode → String
  | .prefer => "prefer"
  | .require => "require"

def parseStrict : String → Option StrictMode
  | "prefer" => some .prefer
  | "require" => some .require
  | _ => none

def serializeSampling : ConstrainedSampling → Value
  | .disabled => .bool false
  | .jsonSchema strict => .dict [("type", .str "json_schema"), ("strict", .str (serializeStrict strict))]
  | .grammar variants =>
    .dict [("type", .str "grammar"), ("variants", .dict (variants.map (fun v => (v.1, .str v.2))))]

def parseVariant : String × Value → Option (String × String)
  | (name, .str text) => some (name, text)
  | _ => none

def parseSampling : Option Value → Option (Option ConstrainedSampling)
  | some (.bool false) => some (some .disabled)
  | some (.dict fields) =>
    match fields.lookup "type" with
    | some (.str "json_schema") => do
      return some (.jsonSchema (← parseStrict (← asString "prefer" (fields.lookup "strict"))))
    | some (.str "grammar") => do
      return some (.grammar (← (← asDict (fields.lookup "variants")).mapM parseVariant))
    | _ => some none
  | _ => some none

def serializeTool (tool : Tool) : Value :=
  .dict ([("name", .str tool.name), ("description", .str tool.description),
      ("parameters", .dict tool.parameters)] ++
    put "constrainedSampling" (tool.constrainedSampling.map serializeSampling))

def parseTool : Value → Option Tool
  | .dict fields => do
    return {
      name := ← asString "" (fields.lookup "name")
      description := ← asString "" (fields.lookup "description")
      parameters := ← asDict (fields.lookup "parameters")
      constrainedSampling := ← parseSampling (fields.lookup "constrainedSampling") }
  | _ => none

def parseToolReference : Value → Option ToolReference
  | .dict fields => do return ⟨← asString "" (fields.lookup "name")⟩
  | _ => none

def serializeSection : Option String → Value
  | none => .null
  | some text => .str text

def parseSection : String × Value → Option (String × Option String)
  | (name, .null) => some (name, none)
  | (name, .str text) => some (name, some text)
  | _ => none

def parseSections : Option Value → Option (Option (OrderedMap String (Option String)))
  | none | some .null => some none
  | some (.dict items) => (items.mapM parseSection).map (fun sections => some (.ofList sections))
  | some _ => none

def serializeErrorCode : ErrorCode → Value
  | .text s => .str s
  | .number n => int n

def parseErrorCode : Option Value → Option (Option ErrorCode)
  | none | some .null => some none
  | some (.str s) => some (some (.text s))
  | some (.num (.int n)) => some (some (.number n))
  | some _ => none

def serializeDiagnosticError (error : DiagnosticErrorInfo) : Value :=
  .dict ([("message", .str error.message)] ++ putString "name" error.name ++
    putString "stack" error.stack ++ put "code" (error.code.map serializeErrorCode))

def serializeDiagnostic (diagnostic : AssistantMessageDiagnostic) : Value :=
  .dict ([("type", .str diagnostic.type), ("timestamp", int diagnostic.timestamp)] ++
    put "error" (diagnostic.error.map serializeDiagnosticError) ++
    putDict "details" diagnostic.details)

def parseDiagnosticError : Option Value → Option (Option DiagnosticErrorInfo)
  | some (.dict fields) => do
    return some {
      message := ← asString "" (fields.lookup "message")
      name := ← asOptString (fields.lookup "name")
      stack := ← asOptString (fields.lookup "stack")
      code := ← parseErrorCode (fields.lookup "code") }
  | _ => some none

def parseDiagnostic : Value → Option AssistantMessageDiagnostic
  | .dict fields => do
    return {
      type := ← asString "" (fields.lookup "type")
      timestamp := ← asInt (fields.lookup "timestamp")
      error := ← parseDiagnosticError (fields.lookup "error")
      details := ← asOptDict (fields.lookup "details") }
  | _ => none

def serializeDeferredHandle (handle : DeferredHandle) : Value :=
  .dict ([("provider", .str handle.provider), ("modelId", .str handle.modelId),
      ("api", .str handle.api), ("id", .str handle.id)] ++
    putInt "expiresAt" handle.expiresAt ++ putInt "pollAfterMs" handle.pollAfterMs ++
    putValue "data" handle.data)

def parseDeferredHandle : Option Value → Option (Option DeferredHandle)
  | some (.dict fields) => do
    return some {
      provider := ← asString "" (fields.lookup "provider")
      modelId := ← asString "" (fields.lookup "modelId")
      api := ← asString "" (fields.lookup "api")
      id := ← asString "" (fields.lookup "id")
      expiresAt := ← asOptInt (fields.lookup "expiresAt")
      pollAfterMs := ← asOptInt (fields.lookup "pollAfterMs")
      data := asValue (fields.lookup "data") }
  | _ => some none

def serializeNestedStatus : NestedStatus → String
  | .ok => "ok"
  | .error => "error"
  | .unfinished => "unfinished"

def parseNestedStatus : String → Option NestedStatus
  | "ok" => some .ok
  | "error" => some .error
  | "unfinished" => some .unfinished
  | _ => none

def serializeNestedCall (call : NestedToolCallRecord) : Value :=
  .dict ([("id", .str call.id), ("name", .str call.name),
      ("status", .str (serializeNestedStatus call.status))] ++
    putDict "arguments" call.arguments ++ putInt "argumentsBytes" call.argumentsBytes ++
    putInt "durationMs" call.durationMs ++ putString "error" call.error)

def parseNestedCall : Value → Option NestedToolCallRecord
  | .dict fields => do
    return {
      id := ← asString "" (fields.lookup "id")
      name := ← asString "" (fields.lookup "name")
      status := ← parseNestedStatus (← asString "unfinished" (fields.lookup "status"))
      arguments := ← asOptDict (fields.lookup "arguments")
      argumentsBytes := ← asOptInt (fields.lookup "argumentsBytes")
      durationMs := ← asOptInt (fields.lookup "durationMs")
      error := ← asOptString (fields.lookup "error") }
  | _ => none

def serializeNestedCalls (nested : NestedToolCalls) : Value :=
  .dict [("calls", .list (nested.calls.map serializeNestedCall)),
    ("complete", .bool nested.complete)]

def parseNestedCalls : Option Value → Option (Option NestedToolCalls)
  | some (.dict fields) =>
    match fields.lookup "calls" with
    | some (.list calls) => do
      return some ⟨← calls.mapM parseNestedCall, ← asBool (fields.lookup "complete")⟩
    | _ => some none
  | _ => some none

def serializeStopReason : StopReason → String
  | .pending => "pending"
  | .stop => "stop"
  | .length => "length"
  | .toolUse => "toolUse"
  | .error => "error"
  | .aborted => "aborted"
  | .deferred => "deferred"

def parseStopReason : String → Option StopReason
  | "pending" => some .pending
  | "stop" => some .stop
  | "length" => some .length
  | "toolUse" => some .toolUse
  | "error" => some .error
  | "aborted" => some .aborted
  | "deferred" => some .deferred
  | _ => none

def serializeSystemMessage (m : SystemMessage) : Value :=
  .dict ([("role", .str "system"), ("content", serializeContent m.content)] ++
    putDict "sections" (m.sections.map (fun sections =>
      sections.entries.map (fun item => (item.1, serializeSection item.2)))) ++
    [("timestamp", int m.timestamp)] ++
    put "toolsAdded" (m.toolsAdded.map (fun tools => .list (tools.map serializeTool))) ++
    put "toolsRemoved" (m.toolsRemoved.map (fun tools =>
      .list (tools.map (fun tool => .dict [("name", .str tool.name)])))))

def serializeUserMessage (m : UserMessage) : Value :=
  .dict [("role", .str "user"), ("content", serializeContent m.content),
    ("timestamp", int m.timestamp)]

def serializeAssistantMessage (m : AssistantMessage) : Value :=
  .dict ([("role", .str "assistant"), ("content", serializeContent m.content),
      ("api", .str m.api), ("provider", .str m.provider), ("model", .str m.model),
      ("usage", serializeUsage m.usage), ("stopReason", .str (serializeStopReason m.stopReason)),
      ("timestamp", int m.timestamp)] ++
    putString "responseModel" m.responseModel ++ putString "responseId" m.responseId ++
    putString "providerThinkingLevel" m.providerThinkingLevel ++
    put "diagnostics" (m.diagnostics.map (fun ds => .list (ds.map serializeDiagnostic))) ++
    putString "errorMessage" m.errorMessage ++ putString "rawStopReason" m.rawStopReason ++
    putBool "endTurn" m.endTurn ++ put "deferred" (m.deferred.map serializeDeferredHandle) ++
    putInt "durationMs" m.durationMs ++ putString "thinkingLevel" m.thinkingLevel)

def serializeToolResultMessage (m : ToolResultMessage) : Value :=
  .dict ([("role", .str "toolResult"), ("toolCallId", .str m.toolCallId),
      ("toolName", .str m.toolName), ("content", serializeContent m.content)] ++
    putValue "details" (toWireValue m.details) ++ put "usage" (m.usage.map serializeUsage) ++
    [("isError", .bool m.isError)] ++ putInt "durationMs" m.durationMs ++
    [("timestamp", int m.timestamp)] ++
    put "nestedCalls" (m.nestedCalls.map serializeNestedCalls))

def serializeCustomMessage (m : CustomMessage) : Value :=
  .dict ([("role", .str "custom"), ("customType", .str m.customType),
      ("content", serializeContent m.content), ("display", .bool m.display)] ++
    putValue "details" (toWireValue m.details) ++ [("timestamp", int m.timestamp)])

def serializeBashExecution (m : BashExecutionMessage) : Value :=
  .dict ([("role", .str "bashExecution"), ("command", .str m.command), ("output", .str m.output)] ++
    putInt "exitCode" m.exitCode ++
    [("cancelled", .bool m.cancelled), ("truncated", .bool m.truncated)] ++
    putString "fullOutputPath" m.fullOutputPath ++ [("timestamp", int m.timestamp)] ++
    putBool "excludeFromContext" m.excludeFromContext)

def serializeMessage : Message → Value
  | .system m => serializeSystemMessage m
  | .user m => serializeUserMessage m
  | .assistant m => serializeAssistantMessage m
  | .toolResult m => serializeToolResultMessage m
  | .custom m => serializeCustomMessage m
  | .bashExecution m => serializeBashExecution m
  | .branchSummary m =>
    .dict [("role", .str "branchSummary"), ("summary", .str m.summary),
      ("fromId", serializeSection m.fromId), ("timestamp", int m.timestamp)]
  | .compactionSummary m =>
    .dict [("role", .str "compactionSummary"), ("summary", .str m.summary),
      ("tokensBefore", int m.tokensBefore), ("timestamp", int m.timestamp)]
  | .raw data => data

def parseSystemMessage (fields : Items) : Option SystemMessage := do
  return {
    content := ← parseContent (some ((fields.lookup "content").getD (.str "")))
    timestamp := ← asInt (fields.lookup "timestamp")
    sections := ← parseSections (fields.lookup "sections")
    toolsAdded := ← asOptList parseTool (fields.lookup "toolsAdded")
    toolsRemoved := ← asOptList parseToolReference (fields.lookup "toolsRemoved") }

def parseUserMessage (fields : Items) : Option UserMessage := do
  return ⟨← parseContent (fields.lookup "content"), ← asInt (fields.lookup "timestamp")⟩

def parseAssistantMessage (fields : Items) : Option AssistantMessage := do
  return {
    content := contentOrEmpty (← parseContent (fields.lookup "content"))
    api := ← asString "" (fields.lookup "api")
    provider := ← asString "" (fields.lookup "provider")
    model := ← asString "" (fields.lookup "model")
    usage := (← parseUsage (asValue (fields.lookup "usage"))).getD zeroUsage
    stopReason := ← parseStopReason (← asString "stop" (fields.lookup "stopReason"))
    timestamp := ← asInt (fields.lookup "timestamp")
    responseModel := ← asOptString (fields.lookup "responseModel")
    responseId := ← asOptString (fields.lookup "responseId")
    providerThinkingLevel := ← asOptString (fields.lookup "providerThinkingLevel")
    thinkingLevel := ← asOptString (fields.lookup "thinkingLevel")
    diagnostics := ← asOptList parseDiagnostic (fields.lookup "diagnostics")
    errorMessage := ← asOptString (fields.lookup "errorMessage")
    rawStopReason := ← asOptString (fields.lookup "rawStopReason")
    endTurn := ← asOptBool (fields.lookup "endTurn")
    deferred := ← parseDeferredHandle (fields.lookup "deferred")
    durationMs := ← asOptInt (fields.lookup "durationMs") }

def parseToolResultMessage (fields : Items) : Option ToolResultMessage := do
  return {
    toolCallId := ← asString "" (fields.lookup "toolCallId")
    toolName := ← asString "" (fields.lookup "toolName")
    content := contentOrEmpty (← parseContent (fields.lookup "content"))
    isError := ← asBool (fields.lookup "isError")
    timestamp := ← asInt (fields.lookup "timestamp")
    details := asValue (fields.lookup "details")
    usage := ← parseUsage (asValue (fields.lookup "usage"))
    nestedCalls := ← parseNestedCalls (fields.lookup "nestedCalls")
    durationMs := ← asOptInt (fields.lookup "durationMs") }

def parseCustomMessage (fields : Items) : Option CustomMessage := do
  return {
    customType := ← asString "" (fields.lookup "customType")
    content := ← parseContent (fields.lookup "content")
    display := ← asBool (fields.lookup "display")
    details := asValue (fields.lookup "details")
    timestamp := ← asInt (fields.lookup "timestamp") }

def parseBashExecution (fields : Items) : Option BashExecutionMessage := do
  return {
    command := ← asString "" (fields.lookup "command")
    output := ← asString "" (fields.lookup "output")
    exitCode := ← asOptInt (fields.lookup "exitCode")
    cancelled := ← asBool (fields.lookup "cancelled")
    truncated := ← asBool (fields.lookup "truncated")
    fullOutputPath := ← asOptString (fields.lookup "fullOutputPath")
    timestamp := ← asInt (fields.lookup "timestamp")
    excludeFromContext := ← asOptBool (fields.lookup "excludeFromContext") }

/-- `data.get("fromId", "")`. -/
def asFromId : Option Value → Option (Option String)
  | none => some (some "")
  | some .null => some none
  | some (.str s) => some (some s)
  | some _ => none

def parseMessage : Value → Option Message
  | .dict fields =>
    match fields.lookup "role" with
    | some (.str "system") => (parseSystemMessage fields).map .system
    | some (.str "user") => (parseUserMessage fields).map .user
    | some (.str "assistant") => (parseAssistantMessage fields).map .assistant
    | some (.str "toolResult") => (parseToolResultMessage fields).map .toolResult
    | some (.str "custom") => (parseCustomMessage fields).map .custom
    | some (.str "bashExecution") => (parseBashExecution fields).map .bashExecution
    | some (.str "branchSummary") => do
      return .branchSummary ⟨← asString "" (fields.lookup "summary"), ← asFromId (fields.lookup "fromId"),
        ← asInt (fields.lookup "timestamp")⟩
    | some (.str "compactionSummary") => do
      return .compactionSummary ⟨← asString "" (fields.lookup "summary"), ← asInt (fields.lookup "tokensBefore"),
        ← asInt (fields.lookup "timestamp")⟩
    | _ => some (.raw (.dict fields))
  | data => some (.raw data)

end Pidrei.MessageWire
