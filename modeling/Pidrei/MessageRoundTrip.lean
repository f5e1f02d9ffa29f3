import Pidrei.MessageWire

/-!
Writing a message and parsing it back. The parser reads every field the writer
puts, so a message whose content was decoded comes back with its free-form
values in wire form, and a message without dataclasses in them comes back as it
was.
-/
namespace Pidrei.MessageRoundTrip

open Values Messages MessageWire
open OrderedMap (lookup_cons_ite)

@[simp] theorem lookup_put (key j : String) (value : Option Value) :
    (put key value).lookup j = if j = key then value else none := by
  cases value with
  | none => simp [put]
  | some value => simp [put, lookup_cons_ite]

@[simp] theorem asOptString_map (value : Option String) :
    asOptString (value.map .str) = some value := by cases value <;> rfl

@[simp] theorem asOptInt_map (value : Option Int) :
    asOptInt (value.map (fun n => .num (.int n))) = some value := by cases value <;> rfl

@[simp] theorem asOptBool_map (value : Option Bool) :
    asOptBool (value.map .bool) = some value := by cases value <;> rfl

@[simp] theorem asOptDict_map (value : Option Items) :
    asOptDict (value.map .dict) = some value := by cases value <;> rfl

@[simp] theorem asValue_put (value : Value) :
    asValue (if value = .null then none else some value) = value := by
  by_cases h : value = .null <;> simp [asValue, h]

theorem mapM_map_some {α β : Type} (write : α → β) (read : β → Option α) (items : List α)
    (h : ∀ item ∈ items, read (write item) = some item) :
    (items.map write).mapM read = some items := by
  induction items with
  | nil => rfl
  | cons item rest ih =>
    have hrest := ih (fun other hother => h other (List.mem_cons_of_mem _ hother))
    rw [List.map_cons, List.mapM_cons, h item List.mem_cons_self, hrest]
    rfl

theorem asOptList_map {α : Type} (write : α → Value) (read : Value → Option α)
    (items : Option (List α))
    (h : ∀ list, items = some list → ∀ item ∈ list, read (write item) = some item) :
    asOptList read (items.map (fun list => .list (list.map write))) = some items := by
  cases items with
  | none => rfl
  | some list =>
    rw [Option.map_some, asOptList, mapM_map_some write read list (h list rfl)]
    rfl

@[simp] theorem parseUsage_serializeUsage (usage : Usage) :
    parseUsage (serializeUsage usage) = some (some usage) := by
  simp [parseUsage, serializeUsage, asDict, asInt, asNumber, putInt, int, List.lookup_append,
    lookup_cons_ite]

def TypedBlock : ContentBlock → Prop
  | .raw _ => False
  | _ => True

theorem parseContentBlock_serialize {block : ContentBlock} (h : TypedBlock block) :
    parseContentBlock (serializeContentBlock block) = some block := by
  cases block with
  | text text signature =>
    simp [parseContentBlock, serializeContentBlock, putString, asString, lookup_cons_ite]
  | thinking thinking signature redacted =>
    cases redacted <;>
      simp [parseContentBlock, serializeContentBlock, putString, asString, asBool,
        List.lookup_append, lookup_cons_ite]
  | image data mimeType =>
    simp [parseContentBlock, serializeContentBlock, asString, lookup_cons_ite]
  | toolCall call =>
    simp [parseContentBlock, serializeContentBlock, putString, asString, asDict,
      List.lookup_append, lookup_cons_ite]
  | raw data => exact absurd h id

/-- Text, or a list of decoded blocks. -/
def TypedContent : Content → Prop
  | .missing => False
  | .text _ => True
  | .blocks blocks => ∀ block ∈ blocks, TypedBlock block

/-- A list of decoded blocks. -/
def TypedBlocks : Content → Prop
  | .blocks blocks => ∀ block ∈ blocks, TypedBlock block
  | _ => False

variable {content : Content} {message : Message}

theorem TypedBlocks.typedContent (h : TypedBlocks content) : TypedContent content := by
  cases content with
  | blocks blocks => exact h
  | _ => exact absurd h id

theorem parseContent_serialize (h : TypedContent content) :
    parseContent (some (serializeContent content)) = some content := by
  cases content with
  | missing => exact absurd h id
  | text s => rfl
  | blocks blocks =>
    rw [serializeContent, parseContent,
      mapM_map_some _ _ blocks (fun block hblock => parseContentBlock_serialize (h block hblock))]
    rfl

theorem contentOrEmpty_blocks (h : TypedBlocks content) : contentOrEmpty content = content := by
  cases content with
  | blocks blocks => rfl
  | _ => exact absurd h id

theorem parseSampling_serialize (sampling : Option ConstrainedSampling) :
    parseSampling (sampling.map serializeSampling) = some sampling := by
  cases sampling with
  | none => rfl
  | some sampling =>
    cases sampling with
    | disabled => rfl
    | jsonSchema strict =>
      cases strict <;>
        simp [serializeSampling, parseSampling, serializeStrict, asString,
          lookup_cons_ite, parseStrict]
    | grammar variants =>
      have hvariants := mapM_map_some (fun v : String × String => (v.1, Value.str v.2))
        parseVariant variants (fun _ _ => rfl)
      simp [serializeSampling, parseSampling, asDict, lookup_cons_ite, hvariants]

theorem parseTool_serialize (tool : Tool) : parseTool (serializeTool tool) = some tool := by
  simp [parseTool, serializeTool, asString, asDict, lookup_cons_ite,
    parseSampling_serialize]

theorem parseToolReference_serialize (tool : ToolReference) :
    parseToolReference (.dict [("name", .str tool.name)]) = some tool := by
  simp [parseToolReference, asString]

theorem parseSections_serialize (sections : Option (OrderedMap String (Option String))) :
    parseSections ((sections.map (fun sections =>
      sections.entries.map (fun item => (item.1, serializeSection item.2)))).map .dict) =
        some sections := by
  cases sections with
  | none => rfl
  | some sections =>
    have hitems := mapM_map_some (fun item : String × Option String =>
      (item.1, serializeSection item.2)) parseSection sections.entries (by
        intro item _
        obtain ⟨name, text⟩ := item
        cases text <;> rfl)
    simp only [Option.map_some, parseSections, hitems, OrderedMap.ofList_entries]

theorem parseErrorCode_serialize (code : Option ErrorCode) :
    parseErrorCode (code.map serializeErrorCode) = some code := by
  cases code with
  | none => rfl
  | some code => cases code <;> rfl

theorem parseDiagnosticError_serialize (error : Option DiagnosticErrorInfo) :
    parseDiagnosticError (error.map serializeDiagnosticError) = some error := by
  cases error with
  | none => rfl
  | some error =>
    simp [parseDiagnosticError, serializeDiagnosticError, asString, putString, List.lookup_append,
      lookup_cons_ite, parseErrorCode_serialize]

theorem parseDiagnostic_serialize (diagnostic : AssistantMessageDiagnostic) :
    parseDiagnostic (serializeDiagnostic diagnostic) = some diagnostic := by
  simp [parseDiagnostic, serializeDiagnostic, asString, asInt, int, putDict, List.lookup_append,
    lookup_cons_ite, parseDiagnosticError_serialize]

theorem parseDeferredHandle_serialize (handle : Option DeferredHandle) :
    parseDeferredHandle (handle.map serializeDeferredHandle) = some handle := by
  cases handle with
  | none => rfl
  | some handle =>
    simp [parseDeferredHandle, serializeDeferredHandle, asString, putInt, putValue,
      List.lookup_append, lookup_cons_ite]

theorem parseNestedCall_serialize (call : NestedToolCallRecord) :
    parseNestedCall (serializeNestedCall call) = some call := by
  have hstatus : parseNestedStatus (serializeNestedStatus call.status) = some call.status := by
    cases call.status <;> rfl
  simp [parseNestedCall, serializeNestedCall, asString, putDict, putInt, putString,
    List.lookup_append, lookup_cons_ite, hstatus]

theorem parseNestedCalls_serialize (nested : Option NestedToolCalls) :
    parseNestedCalls (nested.map serializeNestedCalls) = some nested := by
  cases nested with
  | none => rfl
  | some nested =>
    have hcalls := mapM_map_some serializeNestedCall parseNestedCall nested.calls
      (fun call _ => parseNestedCall_serialize call)
    simp [parseNestedCalls, serializeNestedCalls, asBool, lookup_cons_ite, hcalls]

theorem parseUsage_put (usage : Option Usage) :
    parseUsage (asValue (usage.map serializeUsage)) = some usage := by
  cases usage with
  | none => rfl
  | some usage => exact parseUsage_serializeUsage usage

theorem parseStopReason_serialize (reason : StopReason) :
    parseStopReason (serializeStopReason reason) = some reason := by cases reason <;> rfl

/-- A message whose content was decoded: an assistant message and a tool result hold a list
of blocks, the other roles text or a list. -/
def TypedMessage : Message → Prop
  | .system m => TypedContent m.content
  | .user m => TypedContent m.content
  | .assistant m => TypedBlocks m.content
  | .toolResult m => TypedBlocks m.content
  | .custom m => TypedContent m.content
  | .raw _ => False
  | _ => True

/-- The `details` of a message as they are written. -/
def withWireDetails : Message → Message
  | .toolResult m => .toolResult { m with details := toWireValue m.details }
  | .custom m => .custom { m with details := toWireValue m.details }
  | message => message

theorem parseSystemMessage_serialize {m : SystemMessage} (h : TypedContent m.content) :
    ∃ fields, serializeSystemMessage m = .dict fields ∧
      fields.lookup "role" = some (.str "system") ∧ parseSystemMessage fields = some m := by
  refine ⟨_, rfl, rfl, ?_⟩
  have hadded := asOptList_map serializeTool parseTool m.toolsAdded
    (fun _ _ tool _ => parseTool_serialize tool)
  have hremoved := asOptList_map (fun tool : ToolReference => Value.dict [("name", .str tool.name)])
    parseToolReference m.toolsRemoved (fun _ _ tool _ => parseToolReference_serialize tool)
  have hsections := parseSections_serialize m.sections
  have hcontent := parseContent_serialize h
  simp [parseSystemMessage, asInt, int, putDict,
    List.lookup_append, lookup_cons_ite, hcontent] at hsections hadded hremoved ⊢
  simp [hsections, hadded, hremoved]

theorem parseAssistantMessage_serialize {m : AssistantMessage} (h : TypedBlocks m.content) :
    ∃ fields, serializeAssistantMessage m = .dict fields ∧
      fields.lookup "role" = some (.str "assistant") ∧ parseAssistantMessage fields = some m := by
  refine ⟨_, rfl, rfl, ?_⟩
  have hdiagnostics := asOptList_map serializeDiagnostic parseDiagnostic m.diagnostics
    (fun _ _ diagnostic _ => parseDiagnostic_serialize diagnostic)
  have hcontent := parseContent_serialize h.typedContent
  simp [parseAssistantMessage, asString, asInt, int,
    asValue, putString, putBool, putInt, List.lookup_append, lookup_cons_ite, hcontent,
    hdiagnostics, parseDeferredHandle_serialize, parseStopReason_serialize, contentOrEmpty_blocks h]

theorem parseToolResultMessage_serialize {m : ToolResultMessage} (h : TypedBlocks m.content) :
    ∃ fields, serializeToolResultMessage m = .dict fields ∧
      fields.lookup "role" = some (.str "toolResult") ∧
      (parseToolResultMessage fields).map .toolResult = some (withWireDetails (.toolResult m)) := by
  refine ⟨_, rfl, rfl, ?_⟩
  have hcontent := parseContent_serialize h.typedContent
  simp [parseToolResultMessage, asString, asInt, int,
    asBool, putInt, putValue, List.lookup_append, lookup_cons_ite, hcontent,
    parseNestedCalls_serialize, parseUsage_put, contentOrEmpty_blocks h, withWireDetails]

theorem parseMessage_serializeMessage (h : TypedMessage message) :
    parseMessage (serializeMessage message) = some (withWireDetails message) := by
  cases message with
  | system m =>
    obtain ⟨fields, hfields, hrole, hparse⟩ := parseSystemMessage_serialize h
    simp [serializeMessage, hfields, parseMessage, hrole, hparse, withWireDetails]
  | user m =>
    simp [serializeMessage, serializeUserMessage, parseMessage, parseUserMessage, asInt, int,
      lookup_cons_ite, parseContent_serialize h, withWireDetails]
  | assistant m =>
    obtain ⟨fields, hfields, hrole, hparse⟩ := parseAssistantMessage_serialize h
    simp [serializeMessage, hfields, parseMessage, hrole, hparse, withWireDetails]
  | toolResult m =>
    obtain ⟨fields, hfields, hrole, hparse⟩ := parseToolResultMessage_serialize h
    simp [serializeMessage, hfields, parseMessage, hrole, hparse, withWireDetails]
  | custom m =>
    simp [serializeMessage, serializeCustomMessage, parseMessage, parseCustomMessage, asString,
      asInt, int, asBool, putValue, List.lookup_append, lookup_cons_ite,
      parseContent_serialize h, withWireDetails]
  | bashExecution m =>
    simp [serializeMessage, serializeBashExecution, parseMessage, parseBashExecution, asString,
      asInt, int, asBool, putInt, putString, putBool, List.lookup_append,
      lookup_cons_ite, withWireDetails]
  | branchSummary m =>
    have hfrom : asFromId (some (serializeSection m.fromId)) = some m.fromId := by
      cases m.fromId <;> rfl
    simp [serializeMessage, parseMessage, asString, asInt, int, lookup_cons_ite, hfrom,
      withWireDetails]
  | compactionSummary m =>
    simp [serializeMessage, parseMessage, asString, asInt, int, lookup_cons_ite,
      withWireDetails]
  | raw data => exact absurd h id

def JsonDetails : Message → Prop
  | .toolResult m => isJson m.details = true
  | .custom m => isJson m.details = true
  | _ => True

theorem withWireDetails_of_json (h : JsonDetails message) : withWireDetails message = message := by
  cases message with
  | toolResult m => rw [withWireDetails, toWireValue_of_isJson m.details h]
  | custom m => rw [withWireDetails, toWireValue_of_isJson m.details h]
  | _ => rfl

/-- Every message with JSON details comes back from its wire shape. -/
theorem messageWire_roundTrip {message : Message} (htyped : TypedMessage message)
    (hdetails : JsonDetails message) : parseMessage (serializeMessage message) = some message := by
  rw [parseMessage_serializeMessage htyped, withWireDetails_of_json hdetails]

/-- A tool result with usage, a nested call and nested JSON details. -/
theorem messageWire_roundTrip_toolResult :
    parseMessage (serializeMessage (.toolResult {
      toolCallId := "call-1"
      toolName := "codemode"
      content := .blocks [.text "done" none, .image "aGk=" "image/png"]
      isError := false
      timestamp := 7
      details := .dict [("diff", .list [.null, .bool false]), ("first_line", .num (.int 3))]
      usage := some { zeroUsage with reasoning := some 0 }
      nestedCalls := some ⟨[⟨"n-1", "read", .unfinished, none, some 9000, none, some ""⟩], false⟩ })) =
    some (.toolResult {
      toolCallId := "call-1"
      toolName := "codemode"
      content := .blocks [.text "done" none, .image "aGk=" "image/png"]
      isError := false
      timestamp := 7
      details := .dict [("diff", .list [.null, .bool false]), ("first_line", .num (.int 3))]
      usage := some { zeroUsage with reasoning := some 0 }
      nestedCalls := some ⟨[⟨"n-1", "read", .unfinished, none, some 9000, none, some ""⟩], false⟩ }) := by
  apply messageWire_roundTrip
  · intro block hblock
    rcases List.mem_pair.mp hblock with rfl | rfl <;> trivial
  · rfl

/-! Wire forms. Dumping converts every dataclass inside a free-form value. -/

def wireBlock : ContentBlock → ContentBlock
  | .toolCall call => .toolCall { call with arguments := toWireItems call.arguments }
  | .raw data => .raw (toWireValue data)
  | block => block

def wireContent : Content → Content
  | .blocks blocks => .blocks (blocks.map wireBlock)
  | content => content

def wireTool (tool : Tool) : Tool := { tool with parameters := toWireItems tool.parameters }

def wireDiagnostic (diagnostic : AssistantMessageDiagnostic) : AssistantMessageDiagnostic :=
  { diagnostic with details := diagnostic.details.map toWireItems }

def wireDeferredHandle (handle : DeferredHandle) : DeferredHandle :=
  { handle with data := toWireValue handle.data }

def wireNestedCall (call : NestedToolCallRecord) : NestedToolCallRecord :=
  { call with arguments := call.arguments.map toWireItems }

def wireNestedCalls (nested : NestedToolCalls) : NestedToolCalls :=
  { nested with calls := nested.calls.map wireNestedCall }

def wireSystemMessage (m : SystemMessage) : SystemMessage :=
  { m with
    content := wireContent m.content
    toolsAdded := m.toolsAdded.map (fun tools => tools.map wireTool) }

/-- The message with all its free-form values in wire form. -/
def wireMessage : Message → Message
  | .system m => .system (wireSystemMessage m)
  | .user m => .user { m with content := wireContent m.content }
  | .assistant m =>
    .assistant { m with
      content := wireContent m.content
      diagnostics := m.diagnostics.map (fun ds => ds.map wireDiagnostic)
      deferred := m.deferred.map wireDeferredHandle }
  | .toolResult m =>
    .toolResult { m with
      content := wireContent m.content
      details := toWireValue m.details
      nestedCalls := m.nestedCalls.map wireNestedCalls }
  | .custom m =>
    .custom { m with content := wireContent m.content, details := toWireValue m.details }
  | .raw data => .raw (toWireValue data)
  | message => message

theorem toWireItems_append (xs ys : Items) :
    toWireItems (xs ++ ys) = toWireItems xs ++ toWireItems ys := by
  induction xs with
  | nil => rfl
  | cons item rest ih => simp only [List.cons_append, toWireItems, ih]

theorem toWireList_map {α : Type} (write : α → Value) (wire : α → α) (items : List α)
    (h : ∀ item, toWireValue (write item) = write (wire item)) :
    toWireList (items.map write) = (items.map wire).map write := by
  induction items with
  | nil => rfl
  | cons item rest ih => simp only [List.map_cons, toWireList, h, ih]

theorem toWireItems_putString (key : String) (value : Option String) :
    toWireItems (putString key value) = putString key value := by cases value <;> rfl

theorem toWireItems_putInt (key : String) (value : Option Int) :
    toWireItems (putInt key value) = putInt key value := by cases value <;> rfl

theorem toWireItems_putBool (key : String) (value : Option Bool) :
    toWireItems (putBool key value) = putBool key value := by cases value <;> rfl

theorem toWireItems_putDict (key : String) (value : Option Items) :
    toWireItems (putDict key value) = putDict key (value.map toWireItems) := by
  cases value <;> rfl

theorem toWireValue_eq_null (value : Value) : toWireValue value = .null ↔ value = .null := by
  cases value <;> simp [toWireValue]

theorem toWireItems_putValue (key : String) (value : Value) :
    toWireItems (putValue key value) = putValue key (toWireValue value) := by
  by_cases h : value = .null
  · simp [putValue, h, put, toWireItems, toWireValue]
  · simp [putValue, h, put, toWireItems, toWireValue_eq_null]

theorem toWireItems_put_map {α : Type} (key : String) (write : α → Value) (wire : α → α) (value : Option α)
    (h : ∀ item, toWireValue (write item) = write (wire item)) :
    toWireItems (put key (value.map write)) = put key ((value.map wire).map write) := by
  cases value with
  | none => rfl
  | some item => simp only [Option.map_some, put, toWireItems, h]

theorem toWireValue_serializeUsage (usage : Usage) :
    toWireValue (serializeUsage usage) = serializeUsage usage := by
  simp [serializeUsage, toWireValue, toWireItems, toWireItems_append, toWireItems_putInt, int]

theorem toWireValue_serializeContentBlock (block : ContentBlock) :
    toWireValue (serializeContentBlock block) = serializeContentBlock (wireBlock block) := by
  cases block with
  | thinking thinking signature redacted =>
    cases redacted <;>
      simp [serializeContentBlock, wireBlock, toWireValue, toWireItems, toWireItems_append,
        toWireItems_putString]
  | _ =>
    simp [serializeContentBlock, wireBlock, toWireValue, toWireItems, toWireItems_append,
      toWireItems_putString]

theorem toWireValue_serializeContent (content : Content) :
    toWireValue (serializeContent content) = serializeContent (wireContent content) := by
  cases content with
  | blocks blocks =>
    simp only [serializeContent, wireContent, toWireValue,
      toWireList_map serializeContentBlock wireBlock blocks toWireValue_serializeContentBlock]
  | _ => simp [serializeContent, wireContent, toWireValue]

theorem toWireValue_serializeSampling (sampling : ConstrainedSampling) :
    toWireValue (serializeSampling sampling) = serializeSampling sampling := by
  cases sampling with
  | grammar variants =>
    have hvariants : toWireItems (variants.map (fun v => (v.1, .str v.2))) =
        variants.map (fun v => (v.1, .str v.2)) := by
      induction variants with
      | nil => rfl
      | cons v rest ih => simp only [List.map_cons, toWireItems, toWireValue, ih]
    simp [serializeSampling, toWireValue, toWireItems, hvariants]
  | _ => simp [serializeSampling, toWireValue, toWireItems]

theorem toWireValue_serializeTool (tool : Tool) :
    toWireValue (serializeTool tool) = serializeTool (wireTool tool) := by
  have hsampling := toWireItems_put_map "constrainedSampling" serializeSampling id
    tool.constrainedSampling toWireValue_serializeSampling
  simp [serializeTool, wireTool, toWireValue, toWireItems] at hsampling ⊢
  exact hsampling

theorem toWireItems_sections (sections : OrderedMap String (Option String)) :
    toWireItems (sections.entries.map (fun item => (item.1, serializeSection item.2))) =
      sections.entries.map (fun item => (item.1, serializeSection item.2)) := by
  induction sections.entries with
  | nil => rfl
  | cons item rest ih =>
    have hsection : toWireValue (serializeSection item.2) = serializeSection item.2 := by
      cases item.2 <;> rfl
    simp only [List.map_cons, toWireItems, hsection, ih]

theorem toWireValue_serializeSystemMessage (m : SystemMessage) :
    toWireValue (serializeSystemMessage m) = serializeSystemMessage (wireSystemMessage m) := by
  have hadded := toWireItems_put_map "toolsAdded"
    (fun tools : List Tool => Value.list (tools.map serializeTool)) (fun tools => tools.map wireTool)
    m.toolsAdded (fun tools => by
      simp only [toWireValue, toWireList_map serializeTool wireTool tools
        toWireValue_serializeTool])
  have hremoved := toWireItems_put_map "toolsRemoved" (fun tools : List ToolReference =>
    Value.list (tools.map (fun tool => .dict [("name", .str tool.name)]))) id m.toolsRemoved
    (fun tools => by
      have hlist := toWireList_map (fun tool : ToolReference => Value.dict [("name", .str tool.name)])
        id tools (fun tool => by simp [toWireValue, toWireItems])
      simpa [toWireValue] using hlist)
  have hsections : toWireItems (putDict "sections" (m.sections.map (fun sections =>
      sections.entries.map (fun item => (item.1, serializeSection item.2))))) =
      putDict "sections" (m.sections.map (fun sections =>
        sections.entries.map (fun item => (item.1, serializeSection item.2)))) := by
    cases hm : m.sections with
    | none => rfl
    | some sections =>
      simp only [toWireItems_putDict, Option.map_some, toWireItems_sections]
  simp only [serializeSystemMessage, wireSystemMessage, toWireValue, toWireItems_append,
    toWireItems, hadded, hremoved, hsections, toWireValue_serializeContent, int, Option.map_id, id]

theorem toWireValue_serializeDiagnostic (diagnostic : AssistantMessageDiagnostic) :
    toWireValue (serializeDiagnostic diagnostic) =
      serializeDiagnostic (wireDiagnostic diagnostic) := by
  have hcode : ∀ code : Option ErrorCode, toWireItems (put "code" (code.map serializeErrorCode)) =
      put "code" (code.map serializeErrorCode) := by
    intro code
    cases code with
    | none => rfl
    | some code => cases code <;> rfl
  have herror := toWireItems_put_map "error" serializeDiagnosticError id diagnostic.error
    (fun error => by
      simp only [serializeDiagnosticError, toWireValue, toWireItems_append, toWireItems,
        toWireItems_putString, hcode, id])
  simp only [serializeDiagnostic, wireDiagnostic, toWireValue, toWireItems_append, toWireItems,
    herror, toWireItems_putDict, int, Option.map_id, id]

theorem toWireValue_serializeDeferredHandle (handle : DeferredHandle) :
    toWireValue (serializeDeferredHandle handle) =
      serializeDeferredHandle (wireDeferredHandle handle) := by
  simp only [serializeDeferredHandle, wireDeferredHandle, toWireValue, toWireItems_append,
    toWireItems, toWireItems_putInt, toWireItems_putValue]

theorem toWireValue_serializeNestedCall (call : NestedToolCallRecord) :
    toWireValue (serializeNestedCall call) = serializeNestedCall (wireNestedCall call) := by
  simp only [serializeNestedCall, wireNestedCall, toWireValue, toWireItems_append, toWireItems,
    toWireItems_putDict, toWireItems_putInt, toWireItems_putString]

theorem toWireValue_serializeNestedCalls (nested : NestedToolCalls) :
    toWireValue (serializeNestedCalls nested) = serializeNestedCalls (wireNestedCalls nested) := by
  simp only [serializeNestedCalls, wireNestedCalls, toWireValue, toWireItems,
    toWireList_map serializeNestedCall wireNestedCall nested.calls toWireValue_serializeNestedCall]

theorem toWireValue_serializeAssistantMessage (m : AssistantMessage) :
    toWireValue (serializeAssistantMessage m) = serializeMessage (wireMessage (.assistant m)) := by
  have hdiagnostics := toWireItems_put_map "diagnostics"
    (fun ds : List AssistantMessageDiagnostic => Value.list (ds.map serializeDiagnostic))
    (fun ds => ds.map wireDiagnostic) m.diagnostics (fun ds => by
      simp only [toWireValue, toWireList_map serializeDiagnostic wireDiagnostic ds
        toWireValue_serializeDiagnostic])
  have hdeferred := toWireItems_put_map "deferred" serializeDeferredHandle wireDeferredHandle
    m.deferred toWireValue_serializeDeferredHandle
  simp only [serializeMessage, wireMessage, serializeAssistantMessage, toWireValue,
    toWireItems_append, toWireItems, toWireItems_putString, toWireItems_putInt, toWireItems_putBool,
    hdiagnostics, hdeferred, toWireValue_serializeContent, toWireValue_serializeUsage, int]

theorem toWireValue_serializeToolResultMessage (m : ToolResultMessage) :
    toWireValue (serializeToolResultMessage m) = serializeMessage (wireMessage (.toolResult m)) := by
  have husage := toWireItems_put_map "usage" serializeUsage id m.usage toWireValue_serializeUsage
  have hnested := toWireItems_put_map "nestedCalls" serializeNestedCalls wireNestedCalls
    m.nestedCalls toWireValue_serializeNestedCalls
  simp only [serializeMessage, wireMessage, serializeToolResultMessage, toWireValue,
    toWireItems_append, toWireItems, toWireItems_putInt, toWireItems_putValue, husage, hnested,
    toWireValue_serializeContent, int, Option.map_id, id]

theorem toWireValue_serializeMessage (message : Message) :
    toWireValue (serializeMessage message) = serializeMessage (wireMessage message) := by
  cases message with
  | system m => exact toWireValue_serializeSystemMessage m
  | user m =>
    simp only [serializeMessage, wireMessage, serializeUserMessage, toWireValue, toWireItems,
      toWireValue_serializeContent, int]
  | assistant m => exact toWireValue_serializeAssistantMessage m
  | toolResult m => exact toWireValue_serializeToolResultMessage m
  | custom m =>
    simp only [serializeMessage, wireMessage, serializeCustomMessage, toWireValue,
      toWireItems_append, toWireItems, toWireItems_putValue, toWireValue_serializeContent, int]
  | bashExecution m =>
    simp only [serializeMessage, wireMessage, serializeBashExecution, toWireValue,
      toWireItems_append, toWireItems, toWireItems_putInt, toWireItems_putString,
      toWireItems_putBool, int]
  | branchSummary m =>
    have hfrom : toWireValue (serializeSection m.fromId) = serializeSection m.fromId := by
      cases m.fromId <;> rfl
    simp only [serializeMessage, wireMessage, toWireValue, toWireItems, hfrom, int]
  | compactionSummary m => simp only [serializeMessage, wireMessage, toWireValue, toWireItems, int]
  | raw data => rfl

theorem typedBlock_wire {block : ContentBlock} (h : TypedBlock block) :
    TypedBlock (wireBlock block) := by cases block <;> exact h

theorem typedBlocks_map_wire {blocks : List ContentBlock} (h : ∀ block ∈ blocks, TypedBlock block) :
    ∀ block ∈ blocks.map wireBlock, TypedBlock block := by
  intro block hblock
  obtain ⟨original, horiginal, rfl⟩ := List.mem_map.mp hblock
  exact typedBlock_wire (h original horiginal)

theorem typedContent_wire (h : TypedContent content) : TypedContent (wireContent content) := by
  cases content with
  | blocks blocks => exact typedBlocks_map_wire h
  | _ => exact h

theorem typedBlocks_wire (h : TypedBlocks content) : TypedBlocks (wireContent content) := by
  cases content with
  | blocks blocks => exact typedBlocks_map_wire h
  | _ => exact h

theorem typedMessage_wire (h : TypedMessage message) : TypedMessage (wireMessage message) := by
  cases message with
  | system | user | custom => exact typedContent_wire h
  | assistant | toolResult => exact typedBlocks_wire h
  | _ => exact h

theorem parseMessage_written (h : TypedMessage message) :
    parseMessage (toWireValue (serializeMessage message)) = some (wireMessage message) := by
  rw [toWireValue_serializeMessage, parseMessage_serializeMessage (typedMessage_wire h)]
  cases message <;> simp [withWireDetails, wireMessage, toWireValue_toWireValue]

end Pidrei.MessageRoundTrip
