import Mathlib.Data.String.Basic
import Mathlib.Data.List.Sort
import Mathlib.Data.Rat.Defs
import Pidrei.Library.PythonText

/-!
The arguments of a tool call before the tool runs: nulls that stand for omitted
properties are taken out, values are converted to the types the schema names,
and the result is validated. The validator is a library; it is also asked about
sub-schemas cut out of the schema.
-/
namespace Pidrei.ToolValidation

/-- A JSON value. A float is its value, so that `1.0` and `1` differ. -/
inductive Json
  | null
  | bool (value : Bool)
  | int (value : ℤ)
  | float (value : ℚ)
  | str (text : String)
  | list (items : List Json)
  | dict (items : List (String × Json))

abbrev Items := List (String × Json)

/-- A JSON schema; keywords without entries are absent, and a sub-schema that is absent is
`true`. -/
inductive Schema
  | bool (allowed : Bool)
  | dict (type : List String) (properties : List (String × Schema)) (required : List String)
      (additionalProperties : Schema) (patternProperties : List (String × Schema))
      (items : Schema) (enum : Option (List Json)) (const : Option Json)
      (allOf anyOf oneOf : List Schema) (ref : Option String) (defs : List (String × Schema))

namespace Schema

def type : Schema → List String
  | .bool _ => []
  | .dict type .. => type

def properties : Schema → List (String × Schema)
  | .bool _ => []
  | .dict _ properties .. => properties

def required : Schema → List String
  | .bool _ => []
  | .dict _ _ required .. => required

def additionalProperties : Schema → Schema
  | .bool allowed => .bool allowed
  | .dict _ _ _ additionalProperties .. => additionalProperties

def patternProperties : Schema → List (String × Schema)
  | .bool _ => []
  | .dict _ _ _ _ patternProperties .. => patternProperties

def items : Schema → Schema
  | .bool allowed => .bool allowed
  | .dict _ _ _ _ _ items .. => items

def allOf : Schema → List Schema
  | .bool _ => []
  | .dict _ _ _ _ _ _ _ _ allOf .. => allOf

def anyOf : Schema → List Schema
  | .bool _ => []
  | .dict _ _ _ _ _ _ _ _ _ anyOf .. => anyOf

def oneOf : Schema → List Schema
  | .bool _ => []
  | .dict _ _ _ _ _ _ _ _ _ _ oneOf .. => oneOf

def ref : Schema → Option String
  | .bool _ => none
  | .dict _ _ _ _ _ _ _ _ _ _ _ ref _ => ref

def defs : Schema → List (String × Schema)
  | .bool _ => []
  | .dict _ _ _ _ _ _ _ _ _ _ _ _ defs => defs

/-- `isinstance(schema, dict)` -/
def isDict : Schema → Bool
  | .bool _ => false
  | .dict .. => true

end Schema

/-- `value.is_integer()` of a float -/
def isInteger (value : ℚ) : Bool := value.den = 1

def matchesJsonType (value : Json) (typeName : String) : Bool :=
  match value with
  | .null => typeName = "null"
  | .bool _ => typeName = "boolean"
  | .int _ => typeName = "number" || typeName = "integer"
  | .float x => typeName = "number" || (typeName = "integer" && isInteger x)
  | .str _ => typeName = "string"
  | .list _ => typeName = "array"
  | .dict _ => typeName = "object"

/-- What `float(text)` gives where it is finite, and `str` of a float that is no integer. -/
structure NumberText where
  parseFloat : String → Option ℚ
  floatRepr : ℚ → String

def jsNumber (numbers : NumberText) (text : String) : Option ℚ := numbers.parseFloat text

def jsString (numbers : NumberText) : ℚ → String := fun value =>
  if isInteger value then toString value.num else numbers.floatRepr value

/-- An integral number becomes an `int`. -/
def toNumber (value : ℚ) : Json := if isInteger value then .int value.num else .float value

def coerceToNumber (numbers : NumberText) : Json → Option Json
  | .null => some (.int 0)
  | .str text =>
    if PythonText.strip text = "" then none else (jsNumber numbers text).map toNumber
  | .bool value => some (.int (if value then 1 else 0))
  | _ => none

def coerceToInteger (numbers : NumberText) : Json → Option Json
  | .null => some (.int 0)
  | .str text =>
    if PythonText.strip text = "" then none
    else
      match jsNumber numbers text with
      | some parsed => if isInteger parsed then some (.int parsed.num) else none
      | none => none
  | .bool value => some (.int (if value then 1 else 0))
  | _ => none

def boolOfNumber (value : ℚ) : Option Json :=
  if value = 1 then some (.bool true) else if value = 0 then some (.bool false) else none

def coerceToBoolean : Json → Option Json
  | .null => some (.bool false)
  | .str text =>
    if text = "true" then some (.bool true)
    else if text = "false" then some (.bool false)
    else none
  | .int value => boolOfNumber value
  | .float value => boolOfNumber value
  | _ => none

def coerceToString (numbers : NumberText) : Json → Option Json
  | .null => some (.str "")
  | .bool value => some (.str (if value then "true" else "false"))
  | .int value => some (.str (toString value))
  | .float value => some (.str (jsString numbers value))
  | _ => none

def coerceToNull : Json → Option Json
  | .str text => if text = "" then some .null else none
  | .bool value => if value then none else some .null
  | .int value => if value = 0 then some .null else none
  | .float value => if value = 0 then some .null else none
  | _ => none

/-- `none` where the source gives back the value itself. -/
def coercePrimitiveByType (numbers : NumberText) (value : Json) (typeName : String) :
    Option Json :=
  if typeName = "number" then coerceToNumber numbers value
  else if typeName = "integer" then coerceToInteger numbers value
  else if typeName = "boolean" then coerceToBoolean value
  else if typeName = "string" then coerceToString numbers value
  else if typeName = "null" then coerceToNull value
  else none

def coerceToTypes (numbers : NumberText) (schemaTypes : List String) (value : Json) : Json :=
  if 1 < schemaTypes.length && schemaTypes.any (matchesJsonType value) then value
  else (schemaTypes.findSome? (coercePrimitiveByType numbers value)).getD value

structure ValidationError where
  absolutePath : List String
  validator : String
  message : String

/-- What a run needs from outside: the validator on a sub-schema in the context of a root, `none`
where it raises, and its errors; the name in a message about a required property; the texts of
numbers and of the arguments. -/
structure Host where
  isValid : (root schema : Schema) → Json → Option Bool
  iterErrors : Schema → Json → List ValidationError
  requiredProperty : String → Option String
  numbers : NumberText
  dumps : Items → String

section Coercion

variable (host : Host)

/-- The schema stands alone, without the definitions around it. -/
def subSchemaCheck (schema : Schema) (value : Json) : Bool :=
  host.isValid schema schema value = some true

def updateItem (key : String) (f : Json → Json) (value : Items) : Items :=
  value.map fun item => if item.1 = key then (item.1, f item.2) else item

def updateOthers (definedKeys : List String) (f : Json → Json) (value : Items) : Items :=
  value.map fun item => if item.1 ∈ definedKeys then item else (item.1, f item.2)

/-- A member that accepts the value keeps it; else the first conversion that its member accepts
is taken. -/
def unionResult (schemas : List Schema) (converted : List (Schema × Json)) (value : Json) : Json :=
  if schemas.any fun schema => schema.isDict && subSchemaCheck host schema value then value
  else
    match converted.find? fun candidate =>
        candidate.1.isDict && subSchemaCheck host candidate.1 candidate.2 with
    | some candidate => candidate.2
    | none => value

def onDict (f : Items → Items) : Json → Json
  | .dict items => .dict (f items)
  | value => value

def onList (f : Json → Json) : Json → Json
  | .list items => .list (items.map f)
  | value => value

mutual

def coerceWithJsonSchema : Schema → Json → Json
  | .bool _, value => value
  | .dict type properties _ additionalProperties _ items _ _ allOf anyOf oneOf _ _, value =>
    let nextValue := coerceAllOf allOf value
    let nextValue := unionResult host anyOf (coerceMembers anyOf nextValue) nextValue
    let nextValue := unionResult host oneOf (coerceMembers oneOf nextValue) nextValue
    let nextValue := coerceToTypes host.numbers type nextValue
    let nextValue :=
      if "object" ∈ type then
        onDict (fun value => updateOthers (properties.map Prod.fst)
          (coerceWithJsonSchema additionalProperties) (coerceProperties properties value)) nextValue
      else nextValue
    if "array" ∈ type then onList (coerceWithJsonSchema items) nextValue else nextValue

def coerceAllOf : List Schema → Json → Json
  | [], value => value
  | nested :: rest, value => coerceAllOf rest (coerceWithJsonSchema nested value)

def coerceMembers : List Schema → Json → List (Schema × Json)
  | [], _ => []
  | schema :: rest, value => (schema, coerceWithJsonSchema schema value) :: coerceMembers rest value

def coerceProperties : List (String × Schema) → Items → Items
  | [], value => value
  | (key, propertySchema) :: rest, value =>
    coerceProperties rest (updateItem key (coerceWithJsonSchema propertySchema) value)

end

end Coercion

section Nulls

variable (host : Host)

def subSchemaRejectsNull (schema : Schema) : Bool :=
  host.isValid schema schema .null = some false

/-- A null under a key that may be left out, and that its schema alone does not take. -/
def omitsNull (required : List String) (key : String) (propertySchema : Schema) : Bool :=
  propertySchema.isDict && !required.contains key && propertySchema.ref.isNone &&
    subSchemaRejectsNull host propertySchema

def normalizeItem (key : String) (omits : Bool) (f : Json → Json) (value : Items) : Items :=
  value.filterMap fun item =>
    if item.1 = key then
      match item.2 with
      | .null => if omits then none else some item
      | other => some (item.1, f other)
    else some item

mutual

def normalizeOptionalNulls : Schema → Json → Json
  | .bool _, value => value
  | .dict _ properties required _ _ items _ _ _ _ _ _ _, value =>
    match value with
    | .list values => .list (values.map (normalizeOptionalNulls items))
    | .dict values => .dict (normalizeProperties required properties values)
    | other => other

def normalizeProperties (required : List String) : List (String × Schema) → Items → Items
  | [], value => value
  | (key, propertySchema) :: rest, value =>
    normalizeProperties required rest (normalizeItem key
      (omitsNull host required key propertySchema) (normalizeOptionalNulls propertySchema) value)

end

end Nulls

section Validation

structure Tool where
  name : String
  parameters : Schema

structure ToolCall where
  name : String
  arguments : Items
  argumentsError : Option String

/-- `ValueError` with its text, or what the validator raised. -/
inductive ToolError
  | invalid (message : String)
  | raised

variable (host : Host)

def formatValidationPath (error : ValidationError) : String :=
  let basePath := ".".intercalate error.absolutePath
  match if error.validator = "required" then host.requiredProperty error.message else none with
  | some name => if basePath = "" then name else basePath ++ "." ++ name
  | none => if basePath = "" then "root" else basePath

def errorLines (errors : List ValidationError) : String :=
  let lines := (errors.insertionSort fun a b => a.absolutePath ≤ b.absolutePath).map fun error =>
    "  - " ++ formatValidationPath host error ++ ": " ++ error.message
  if lines.isEmpty then "Unknown validation error" else "\n".intercalate lines

def validationMessage (toolCall : ToolCall) (errors : List ValidationError) : String :=
  "Validation failed for tool \"" ++ toolCall.name ++ "\":\n" ++ errorLines host errors ++
    "\n\nReceived arguments:\n" ++ host.dumps toolCall.arguments

/-- The last check, of what the conversions have made of the arguments. -/
def validateCandidate (tool : Tool) (toolCall : ToolCall) (candidate : Json) :
    Except ToolError Json :=
  match host.isValid tool.parameters tool.parameters candidate with
  | some true => .ok candidate
  | some false =>
    .error (.invalid (validationMessage host toolCall (host.iterErrors tool.parameters candidate)))
  | none => .error .raised

def isDictValue : Json → Bool
  | .dict _ => true
  | _ => false

def validateToolArguments (tool : Tool) (toolCall : ToolCall) : Except ToolError Json :=
  match toolCall.argumentsError with
  | some error =>
    if error = "" then validateConverted
    else
      .error (.invalid ("Invalid arguments for tool \"" ++ toolCall.name ++ "\": " ++ error))
  | none => validateConverted
where
  validateConverted : Except ToolError Json :=
    let args := normalizeOptionalNulls host tool.parameters (.dict toolCall.arguments)
    let coerced := coerceWithJsonSchema host tool.parameters args
    if isDictValue coerced then validateCandidate host tool toolCall coerced
    else if subSchemaCheck host tool.parameters coerced then .ok coerced
    else validateCandidate host tool toolCall args

end Validation

end Pidrei.ToolValidation
