import Mathlib.Data.List.Infix
import Pidrei.ToolValidation

/-!
Arguments that are valid already. The conversions follow the schema beside the
value; they leave it alone at every place where the schema says of the value
what the conversions ask for.
-/
namespace Pidrei.ToolArguments

open ToolValidation List
open Prod (ext fst mk)

/-- What the validator's keywords say of a value they accept, in the context of the root. -/
structure Draft202012 (patternMatches : (pattern key : String) → Bool)
    (isValid : (root schema : Schema) → Json → Option Bool) : Prop where
  type : ∀ {root schema : Schema} {value : Json}, isValid root schema value = some true →
    schema.type ≠ [] → ∃ typeName ∈ schema.type, matchesJsonType value typeName = true
  allOf : ∀ {root schema nested : Schema} {value : Json}, isValid root schema value = some true →
    nested ∈ schema.allOf → isValid root nested value = some true
  properties : ∀ {root schema propertySchema : Schema} {items : Items} {key : String}
    {value : Json}, isValid root schema (.dict items) = some true →
    (key, propertySchema) ∈ schema.properties → (key, value) ∈ items →
    isValid root propertySchema value = some true
  additionalProperties : ∀ {root schema : Schema} {items : Items} {key : String} {value : Json},
    isValid root schema (.dict items) = some true → key ∉ schema.properties.map fst →
    (∀ pattern ∈ schema.patternProperties.map fst, patternMatches pattern key = false) →
    (key, value) ∈ items → isValid root schema.additionalProperties value = some true
  items : ∀ {root schema : Schema} {values : List Json} {value : Json},
    isValid root schema (.list values) = some true → value ∈ values →
    isValid root schema.items value = some true

/-- The sub-schemas that the conversions go down to. -/
inductive Part (schema : Schema) : Schema → Prop
  | allOf {nested : Schema} (h : nested ∈ schema.allOf) : Part schema nested
  | anyOf {member : Schema} (h : member ∈ schema.anyOf) : Part schema member
  | oneOf {member : Schema} (h : member ∈ schema.oneOf) : Part schema member
  | property {key : String} {propertySchema : Schema}
      (h : (key, propertySchema) ∈ schema.properties) : Part schema propertySchema
  | additional (h : schema.isDict = true) : Part schema schema.additionalProperties
  | items (h : schema.isDict = true) : Part schema schema.items

theorem Part.sizeOf_lt {schema part : Schema} (h : Part schema part) :
    sizeOf part < sizeOf schema := by
  cases schema with
  | bool allowed =>
    cases h with
    | allOf h => cases h
    | anyOf h => cases h
    | oneOf h => cases h
    | property h => cases h
    | additional h => cases h
    | items h => cases h
  | dict =>
    rw [Schema.dict.sizeOf_spec]
    cases h with
    | allOf h =>
      have hmem := sizeOf_lt_of_mem h
      simp only [Schema.allOf] at hmem
      omega
    | anyOf h =>
      have hmem := sizeOf_lt_of_mem h
      simp only [Schema.anyOf] at hmem
      omega
    | oneOf h =>
      have hmem := sizeOf_lt_of_mem h
      simp only [Schema.oneOf] at hmem
      omega
    | @property key propertySchema h =>
      have hmem := sizeOf_lt_of_mem h
      simp only [Schema.properties, mk.sizeOf_spec] at hmem
      omega
    | additional h =>
      simp only [Schema.additionalProperties]
      omega
    | items h =>
      simp only [Schema.items]
      omega

theorem part_induction {motive : Schema → Prop}
    (step : ∀ schema, (∀ part, Part schema part → motive part) → motive schema)
    (schema : Schema) : motive schema := by
  induction hsize : sizeOf schema using Nat.strong_induction_on generalizing schema with
  | _ size ih =>
    subst hsize
    exact step schema fun part hpart => ih _ hpart.sizeOf_lt part rfl

section Places

variable (host : Host) (patternMatches : (pattern key : String) → Bool)

/-- What conversions that the schema asks for can make of a value, in whatever order. -/
inductive Converts : Schema → Json → Json → Prop
  | refl (schema : Schema) (value : Json) : Converts schema value value
  | trans {schema : Schema} {value other final : Json} (h : Converts schema value other)
      (hrest : Converts schema other final) : Converts schema value final
  | types (schema : Schema) (value : Json) :
      Converts schema value (coerceToTypes host.numbers schema.type value)
  | allOf {schema nested : Schema} {value other : Json} (hnested : nested ∈ schema.allOf)
      (h : Converts nested value other) : Converts schema value other
  | union {schema member : Schema} {schemas : List Schema} {value other : Json}
      (hunion : schemas = schema.anyOf ∨ schemas = schema.oneOf) (hmember : member ∈ schemas)
      (hrejected : ∀ schema ∈ schemas, schema.isDict = true →
        subSchemaCheck host schema value = false)
      (haccepted : subSchemaCheck host member other = true) (h : Converts member value other) :
      Converts schema value other
  | property {schema propertySchema : Schema} {key : String} {value other : Json}
      (htype : "object" ∈ schema.type) (hproperty : (key, propertySchema) ∈ schema.properties)
      (h : Converts propertySchema value other) (before after : Items) :
      Converts schema (.dict (before ++ (key, value) :: after))
        (.dict (before ++ (key, other) :: after))
  | additional {schema : Schema} {key : String} {value other : Json}
      (htype : "object" ∈ schema.type) (hkey : key ∉ schema.properties.map fst)
      (h : Converts schema.additionalProperties value other) (before after : Items) :
      Converts schema (.dict (before ++ (key, value) :: after))
        (.dict (before ++ (key, other) :: after))
  | item {schema : Schema} {value other : Json} (htype : "array" ∈ schema.type)
      (h : Converts schema.items value other) (before after : List Json) :
      Converts schema (.list (before ++ value :: after)) (.list (before ++ other :: after))

/-- The places that the conversions reach, a sub-schema and the value beside it. -/
inductive Reaches : Schema → Json → Schema → Json → Prop
  | here (schema : Schema) (value : Json) : Reaches schema value schema value
  | allOf {schema nested place : Schema} {value found : Json} (h : nested ∈ schema.allOf)
      (hrest : Reaches nested value place found) : Reaches schema value place found
  | property {schema propertySchema place : Schema} {items : Items} {key : String}
      {value found : Json} (htype : "object" ∈ schema.type)
      (hproperty : (key, propertySchema) ∈ schema.properties) (hvalue : (key, value) ∈ items)
      (hrest : Reaches propertySchema value place found) :
      Reaches schema (.dict items) place found
  | additional {schema place : Schema} {items : Items} {key : String} {value found : Json}
      (htype : "object" ∈ schema.type) (hkey : key ∉ schema.properties.map fst)
      (hvalue : (key, value) ∈ items)
      (hrest : Reaches schema.additionalProperties value place found) :
      Reaches schema (.dict items) place found
  | item {schema place : Schema} {values : List Json} {value found : Json}
      (htype : "array" ∈ schema.type) (hvalue : value ∈ values)
      (hrest : Reaches schema.items value place found) :
      Reaches schema (.list values) place found

/-- A member accepts the value on its own, or none accepts what it can make of it. -/
def UnionSettled (schemas : List Schema) (value : Json) : Prop :=
  (∃ schema ∈ schemas, schema.isDict = true ∧ subSchemaCheck host schema value = true) ∨
    ∀ schema ∈ schemas, schema.isDict = true → ∀ other, Converts host schema value other →
      subSchemaCheck host schema other = true → other = value

/-- The unions here see that the value is accepted, and so does the schema for additional
properties where it is applied to a key that only a pattern governs. -/
structure Settled (root schema : Schema) (value : Json) : Prop where
  anyOf : UnionSettled host schema.anyOf value
  oneOf : UnionSettled host schema.oneOf value
  pattern : ∀ {items : Items} {key : String} {found : Json}, value = .dict items →
    "object" ∈ schema.type → (key, found) ∈ items → key ∉ schema.properties.map fst →
    (∃ pattern ∈ schema.patternProperties.map fst, patternMatches pattern key = true) →
    schema.additionalProperties.isDict = true →
    host.isValid root schema.additionalProperties found = some true ∨
      ∀ other, Converts host schema.additionalProperties found other → other = found

/-- The places where nulls are looked for. -/
inductive ReachesNulls : Schema → Json → Schema → Json → Prop
  | here (schema : Schema) (value : Json) : ReachesNulls schema value schema value
  | property {schema propertySchema place : Schema} {items : Items} {key : String}
      {value found : Json} (hproperty : (key, propertySchema) ∈ schema.properties)
      (hvalue : (key, value) ∈ items)
      (hrest : ReachesNulls propertySchema value place found) :
      ReachesNulls schema (.dict items) place found
  | item {schema place : Schema} {values : List Json} {value found : Json}
      (hvalue : value ∈ values) (hrest : ReachesNulls schema.items value place found) :
      ReachesNulls schema (.list values) place found

/-- No null is taken for an omitted property at this place. -/
def KeepsNulls (schema : Schema) (value : Json) : Prop :=
  ∀ {items : Items} {key : String} {propertySchema : Schema}, value = .dict items →
    (key, propertySchema) ∈ schema.properties → (key, Json.null) ∈ items →
    omitsNull host schema.required key propertySchema = false

/-- The arguments are settled at every place that is reached. -/
structure Undisturbed (schema : Schema) (arguments : Items) : Prop where
  settled : ∀ place found, Reaches schema (.dict arguments) place found →
    Settled host patternMatches schema place found
  nulls : ∀ place found, ReachesNulls schema (.dict arguments) place found →
    KeepsNulls host place found

end Places

section Shape

variable {host : Host} {schema : Schema} {f : Json → Json}

theorem converts_list (htype : "array" ∈ schema.type)
    (h : ∀ value, Converts host schema.items value (f value)) (before values : List Json) :
    Converts host schema (.list (before ++ values)) (.list (before ++ values.map f)) := by
  induction values generalizing before with
  | nil => exact .refl _ _
  | cons value rest ih =>
    have hrest := ih (before ++ [f value])
    rw [append_assoc, append_assoc] at hrest
    exact (Converts.item htype (h value) before rest).trans hrest

theorem converts_dict {f : String × Json → String × Json}
    (h : ∀ (before after : Items) (item : String × Json),
      Converts host schema (.dict (before ++ item :: after)) (.dict (before ++ f item :: after)))
    (before items : Items) :
    Converts host schema (.dict (before ++ items)) (.dict (before ++ items.map f)) := by
  induction items generalizing before with
  | nil => exact .refl _ _
  | cons item rest ih =>
    have hrest := ih (before ++ [f item])
    rw [append_assoc, append_assoc] at hrest
    exact (h before rest item).trans hrest

theorem converts_updateItem {propertySchema : Schema} {key : String}
    (htype : "object" ∈ schema.type) (hproperty : (key, propertySchema) ∈ schema.properties)
    (h : ∀ found, Converts host propertySchema found (f found)) (value : Items) :
    Converts host schema (.dict value) (.dict (updateItem key f value)) := by
  refine converts_dict (fun before after item => ?_) [] value
  split_ifs with hkey
  · subst hkey
    exact .property htype hproperty (h item.2) before after
  · exact .refl _ _

theorem converts_updateOthers (htype : "object" ∈ schema.type)
    (h : ∀ found, Converts host schema.additionalProperties found (f found)) (value : Items) :
    Converts host schema (.dict value)
      (.dict (updateOthers (schema.properties.map fst) f value)) := by
  refine converts_dict (fun before after item => ?_) [] value
  split_ifs with hkey
  · exact .refl _ _
  · exact .additional htype hkey (h item.2) before after

theorem converts_coerceAllOf {allOf : List Schema} (hallOf : ∀ nested ∈ allOf, nested ∈ schema.allOf)
    (h : ∀ nested ∈ allOf, ∀ value,
      Converts host nested value (coerceWithJsonSchema host nested value)) (value : Json) :
    Converts host schema value (coerceAllOf host allOf value) := by
  induction allOf generalizing value with
  | nil =>
    rw [coerceAllOf]
    exact .refl _ _
  | cons nested rest ih =>
    have hhead := Converts.allOf (hallOf nested mem_cons_self) (h nested mem_cons_self value)
    exact hhead.trans (ih (fun other hother => hallOf other (mem_cons_of_mem _ hother))
      (fun other hother => h other (mem_cons_of_mem _ hother)) _)

theorem converts_coerceProperties {properties : List (String × Schema)}
    (htype : "object" ∈ schema.type) (hproperties : ∀ item ∈ properties, item ∈ schema.properties)
    (h : ∀ key propertySchema, (key, propertySchema) ∈ properties → ∀ value,
      Converts host propertySchema value (coerceWithJsonSchema host propertySchema value))
    (value : Items) :
    Converts host schema (.dict value) (.dict (coerceProperties host properties value)) := by
  induction properties generalizing value with
  | nil =>
    rw [coerceProperties]
    exact .refl _ _
  | cons property rest ih =>
    obtain ⟨key, propertySchema⟩ := property
    have hhead := converts_updateItem htype (hproperties _ mem_cons_self)
      (h key propertySchema mem_cons_self) value
    exact hhead.trans (ih (fun other hother => hproperties other (mem_cons_of_mem _ hother))
      (fun other otherSchema hother => h other otherSchema (mem_cons_of_mem _ hother)) _)

theorem coerceMembers_eq (schemas : List Schema) (value : Json) :
    coerceMembers host schemas value =
      schemas.map fun schema => (schema, coerceWithJsonSchema host schema value) := by
  induction schemas with
  | nil => rw [coerceMembers, map_nil]
  | cons schema rest ih => rw [coerceMembers, ih, map_cons]

theorem unionResult_cases (host : Host) (schemas : List Schema) (value : Json) :
    unionResult host schemas (coerceMembers host schemas value) value = value ∨
      (∀ schema ∈ schemas, schema.isDict = true → subSchemaCheck host schema value = false) ∧
        ∃ schema ∈ schemas, schema.isDict = true ∧
          subSchemaCheck host schema (coerceWithJsonSchema host schema value) = true ∧
          unionResult host schemas (coerceMembers host schemas value) value =
            coerceWithJsonSchema host schema value := by
  unfold unionResult
  split_ifs with haccepted
  · exact .inl rfl
  · cases hfind : find? _ _ with
    | none => exact .inl rfl
    | some candidate =>
      have hmem := mem_of_find?_eq_some hfind
      have hfound := find?_some hfind
      rw [coerceMembers_eq] at hmem
      obtain ⟨schema, hschema, rfl⟩ := mem_map.mp hmem
      obtain ⟨hdict, hcheck⟩ := Bool.and_eq_true_iff.mp hfound
      refine .inr ⟨fun other hother hotherDict => ?_, schema, hschema, hdict, hcheck, rfl⟩
      refine (Bool.not_eq_true _).mp fun hother' => haccepted ?_
      refine any_eq_true.mpr ⟨other, hother, ?_⟩
      rw [hotherDict, hother', Bool.and_true]

theorem converts_unionResult {schemas : List Schema}
    (hunion : schemas = schema.anyOf ∨ schemas = schema.oneOf)
    (h : ∀ member ∈ schemas, ∀ value,
      Converts host member value (coerceWithJsonSchema host member value)) (value : Json) :
    Converts host schema value
      (unionResult host schemas (coerceMembers host schemas value) value) := by
  cases unionResult_cases host schemas value with
  | inl hself =>
    rw [hself]
    exact .refl _ _
  | inr hmember =>
    obtain ⟨hrejected, member, hmember, _, haccepted, hresult⟩ := hmember
    rw [hresult]
    exact .union hunion hmember hrejected haccepted (h member hmember value)

theorem converts_coerceWithJsonSchema (schema : Schema) (value : Json) :
    Converts host schema value (coerceWithJsonSchema host schema value) := by
  induction schema using part_induction generalizing value with
  | step schema ih =>
    cases hschema : schema with
    | bool allowed =>
      rw [coerceWithJsonSchema]
      exact .refl _ _
    | dict type properties required additionalProperties patternProperties items enum const allOf
        anyOf oneOf ref defs =>
      have hdict : schema.isDict = true := by
        rw [hschema]
        rfl
      have hobject : "object" ∈ schema.type → ∀ value, Converts host schema value
          (onDict (fun value => updateOthers (schema.properties.map fst)
            (coerceWithJsonSchema host schema.additionalProperties)
            (coerceProperties host schema.properties value)) value) := by
        intro htype value
        cases value with
        | dict entries =>
          have hproperties := converts_coerceProperties htype (fun _ h => h)
            (fun key propertySchema hproperty => ih propertySchema (.property hproperty)) entries
          exact hproperties.trans (converts_updateOthers htype (ih _ (.additional hdict)) _)
        | _ => exact .refl _ _
      have harray : "array" ∈ schema.type → ∀ value, Converts host schema value
          (onList (coerceWithJsonSchema host schema.items) value) := by
        intro htype value
        cases value with
        | list values => exact converts_list htype (ih _ (.items hdict)) [] values
        | _ => exact .refl _ _
      have hallOf : Converts host schema value (coerceAllOf host schema.allOf value) :=
        converts_coerceAllOf (fun _ h => h) (fun nested hnested => ih nested (.allOf hnested)) value
      have hanyOf := hallOf.trans (converts_unionResult (.inl rfl)
        (fun member hmember => ih member (.anyOf hmember)) _)
      have honeOf := hanyOf.trans (converts_unionResult (.inr rfl)
        (fun member hmember => ih member (.oneOf hmember)) _)
      have htypes := honeOf.trans (.types schema _)
      subst hschema
      rw [coerceWithJsonSchema]
      split_ifs with harrayType htype htype
      · exact (htypes.trans (hobject htype _)).trans (harray harrayType _)
      · exact htypes.trans (harray harrayType _)
      · exact htypes.trans (hobject htype _)
      · exact htypes

end Shape

section Conversions

variable {host : Host} {patternMatches : (pattern key : String) → Bool} {value : Json}
  {schema : Schema}

theorem coercePrimitiveByType_of_matches {numbers : NumberText} {typeName : String}
    (h : matchesJsonType value typeName = true) :
    coercePrimitiveByType numbers value typeName = none := by
  cases value with
  | null | bool | str | list | dict =>
    rw [of_decide_eq_true h]
    rfl
  | int value =>
    rcases Bool.or_eq_true_iff.mp h with h | h
    all_goals
      rw [of_decide_eq_true h]
      rfl
  | float value =>
    rcases Bool.or_eq_true_iff.mp h with h | h
    · rw [of_decide_eq_true h]
      rfl
    · rw [of_decide_eq_true (Bool.and_eq_true_iff.mp h).1]
      rfl

theorem coerceToTypes_self {schemaTypes : List String}
    (h : schemaTypes ≠ [] → ∃ typeName ∈ schemaTypes, matchesJsonType value typeName = true) :
    coerceToTypes host.numbers schemaTypes value = value := by
  unfold coerceToTypes
  split_ifs with hseveral
  · rfl
  · cases schemaTypes with
    | nil => rfl
    | cons typeName rest =>
      obtain ⟨found, hmem, hmatches⟩ := h (cons_ne_nil _ _)
      have hany : (typeName :: rest).any (matchesJsonType value) = true :=
        any_eq_true.mpr ⟨found, hmem, hmatches⟩
      have hlength : (typeName :: rest).length ≤ 1 := by
        by_contra hlong
        exact hseveral (by rw [hany, Bool.and_true]; exact decide_eq_true (Nat.lt_of_not_le hlong))
      obtain rfl : rest = [] := eq_nil_of_length_eq_zero (by
        rw [length_cons] at hlength
        omega)
      rw [mem_singleton.mp hmem] at hmatches
      rw [findSome?_cons, coercePrimitiveByType_of_matches hmatches]
      rfl

variable {key : String} {f : Json → Json} {root : Schema}

theorem updateItem_self {value : Items} (h : ∀ found, (key, found) ∈ value → f found = found) :
    updateItem key f value = value := by
  conv_rhs => rw [← map_id value]
  refine map_congr_left fun item hitem => ?_
  split_ifs with hkey
  · subst hkey
    exact ext rfl (h item.2 hitem)
  · rfl

theorem updateOthers_self {definedKeys : List String} {value : Items}
    (h : ∀ key found, (key, found) ∈ value → key ∉ definedKeys → f found = found) :
    updateOthers definedKeys f value = value := by
  conv_rhs => rw [← map_id value]
  refine map_congr_left fun item hitem => ?_
  split_ifs with hkey
  · rfl
  · exact ext rfl (h item.1 item.2 hitem hkey)

theorem coerceAllOf_self {allOf : List Schema}
    (h : ∀ nested ∈ allOf, coerceWithJsonSchema host nested value = value) :
    coerceAllOf host allOf value = value := by
  induction allOf with
  | nil => rw [coerceAllOf]
  | cons nested rest ih =>
    rw [coerceAllOf, h nested mem_cons_self]
    exact ih fun other hother => h other (mem_cons_of_mem _ hother)

theorem coerceProperties_self {properties : List (String × Schema)} {value : Items}
    (h : ∀ key propertySchema found, (key, propertySchema) ∈ properties → (key, found) ∈ value →
      coerceWithJsonSchema host propertySchema found = found) :
    coerceProperties host properties value = value := by
  induction properties with
  | nil => rw [coerceProperties]
  | cons property rest ih =>
    obtain ⟨key, propertySchema⟩ := property
    rw [coerceProperties,
      updateItem_self fun found hfound => h key propertySchema found mem_cons_self hfound]
    exact ih fun other otherSchema found hother => h other otherSchema found
      (mem_cons_of_mem _ hother)

theorem unionResult_self {schemas : List Schema} (h : UnionSettled host schemas value) :
    unionResult host schemas (coerceMembers host schemas value) value = value := by
  cases unionResult_cases host schemas value with
  | inl hself => exact hself
  | inr hmember =>
    obtain ⟨hrejected, schema, hschema, hdict, hcheck, hresult⟩ := hmember
    cases h with
    | inl h =>
      obtain ⟨other, hother, hotherDict, hotherCheck⟩ := h
      rw [hrejected other hother hotherDict] at hotherCheck
      cases hotherCheck
    | inr h =>
      rw [hresult]
      exact h schema hschema hdict _ (converts_coerceWithJsonSchema schema value) hcheck

theorem coerceWithJsonSchema_of_bool (h : schema.isDict = false) (value : Json) :
    coerceWithJsonSchema host schema value = value := by
  cases schema with
  | bool allowed => rw [coerceWithJsonSchema]
  | dict => cases h

theorem Settled.additional (hdraft : Draft202012 patternMatches host.isValid) {items : Items}
    {found : Json} (hhere : Settled host patternMatches root schema (.dict items))
    (hvalid : host.isValid root schema (.dict items) = some true) (htype : "object" ∈ schema.type)
    (hfound : (key, found) ∈ items) (hkey : key ∉ schema.properties.map fst) :
    schema.additionalProperties.isDict = false ∨
      host.isValid root schema.additionalProperties found = some true ∨
      ∀ other, Converts host schema.additionalProperties found other → other = found := by
  by_cases hpattern : ∃ pattern ∈ schema.patternProperties.map fst,
      patternMatches pattern key = true
  · cases hdict : schema.additionalProperties.isDict with
    | false => exact .inl rfl
    | true => exact .inr (hhere.pattern rfl htype hfound hkey hpattern hdict)
  · refine .inr (.inl (hdraft.additionalProperties hvalid hkey (fun pattern hmem => ?_) hfound))
    exact (Bool.not_eq_true _).mp fun hmatches => hpattern ⟨pattern, hmem, hmatches⟩

theorem coerceWithJsonSchema_self (hdraft : Draft202012 patternMatches host.isValid) (hvalid : host.isValid root schema value = some true)
    (hsettled : ∀ place found, Reaches schema value place found →
      Settled host patternMatches root place found) :
    coerceWithJsonSchema host schema value = value := by
  induction schema using part_induction generalizing value with
  | step schema ih =>
    have hhere := hsettled schema value (.here schema value)
    cases hschema : schema with
    | bool allowed => rw [coerceWithJsonSchema]
    | dict type properties required additionalProperties patternProperties items enum const allOf
        anyOf oneOf ref defs =>
      have hdict : schema.isDict = true := by
        rw [hschema]
        rfl
      have hallOf : coerceAllOf host schema.allOf value = value :=
        coerceAllOf_self fun nested hnested =>
          ih nested (.allOf hnested) (hdraft.allOf hvalid hnested) fun place found hreaches =>
            hsettled place found (.allOf hnested hreaches)
      have hanyOf := unionResult_self hhere.anyOf
      have honeOf := unionResult_self hhere.oneOf
      have htypes : coerceToTypes host.numbers schema.type value = value :=
        coerceToTypes_self (hdraft.type hvalid)
      have hobject : "object" ∈ schema.type →
          onDict (fun value => updateOthers (schema.properties.map fst)
            (coerceWithJsonSchema host schema.additionalProperties)
            (coerceProperties host schema.properties value)) value = value := by
        intro htype
        cases hvalue : value with
        | dict entries =>
          subst hvalue
          have hproperties : coerceProperties host schema.properties entries = entries :=
            coerceProperties_self fun key propertySchema found hproperty hfound =>
              ih propertySchema (.property hproperty) (hdraft.properties hvalid hproperty hfound)
                fun place other hreaches =>
                  hsettled place other (.property htype hproperty hfound hreaches)
          rw [onDict, hproperties, updateOthers_self]
          intro key found hfound hkey
          cases hhere.additional hdraft hvalid htype hfound hkey with
          | inl hbool => exact coerceWithJsonSchema_of_bool hbool found
          | inr hadditional =>
            cases hadditional with
            | inl haccepted =>
              exact ih _ (.additional hdict) haccepted fun place other hreaches =>
                hsettled place other (.additional htype hkey hfound hreaches)
            | inr hnone => exact hnone _ (converts_coerceWithJsonSchema _ found)
        | _ => rfl
      have harray : "array" ∈ schema.type →
          onList (coerceWithJsonSchema host schema.items) value = value := by
        intro htype
        cases hvalue : value with
        | list values =>
          subst hvalue
          have hitems : values.map (coerceWithJsonSchema host schema.items) = values := by
            conv_rhs => rw [← map_id values]
            refine map_congr_left fun found hfound => ?_
            exact ih _ (.items hdict) (hdraft.items hvalid hfound) fun place other hreaches =>
              hsettled place other (.item htype hfound hreaches)
          rw [onList, hitems]
        | _ => rfl
      subst hschema
      simp only [Schema.allOf, Schema.anyOf, Schema.oneOf, Schema.type, Schema.properties,
        Schema.additionalProperties, Schema.items] at hallOf hanyOf honeOf htypes hobject harray
      rw [coerceWithJsonSchema]
      simp only [hallOf, hanyOf, honeOf, htypes]
      split_ifs with harrayType htype htype
      · rw [hobject htype, harray harrayType]
      · exact harray harrayType
      · exact hobject htype
      · rfl

end Conversions

section NullRemoval

variable {host : Host} {value : Items}

theorem normalizeItem_self {key : String} {omits : Bool} {f : Json → Json}
    (hnull : (key, Json.null) ∈ value → omits = false)
    (h : ∀ found, (key, found) ∈ value → f found = found) :
    normalizeItem key omits f value = value := by
  conv_rhs => rw [← filterMap_some (l := value)]
  refine filterMap_congr fun item hitem => ?_
  obtain ⟨name, found⟩ := item
  by_cases hkey : name = key
  · subst hkey
    rw [if_pos rfl]
    cases hfound : found with
    | null =>
      rw [hfound] at hitem
      rw [hnull hitem]
      rfl
    | _ =>
      rw [hfound] at hitem
      exact congrArg some (ext rfl (h _ hitem))
  · rw [if_neg hkey]

theorem normalizeProperties_self {required : List String} {properties : List (String × Schema)}
    (hnull : ∀ key propertySchema, (key, propertySchema) ∈ properties →
      (key, Json.null) ∈ value → omitsNull host required key propertySchema = false)
    (h : ∀ key propertySchema found, (key, propertySchema) ∈ properties → (key, found) ∈ value →
      normalizeOptionalNulls host propertySchema found = found) :
    normalizeProperties host required properties value = value := by
  induction properties with
  | nil => rw [normalizeProperties]
  | cons property rest ih =>
    obtain ⟨key, propertySchema⟩ := property
    have hitem := normalizeItem_self (hnull key propertySchema mem_cons_self)
      fun found hfound => h key propertySchema found mem_cons_self hfound
    rw [normalizeProperties, hitem]
    exact ih
      (fun other otherSchema hother => hnull other otherSchema (mem_cons_of_mem _ hother))
      fun other otherSchema found hother => h other otherSchema found
        (mem_cons_of_mem _ hother)

theorem normalizeOptionalNulls_self {schema : Schema} {value : Json}
    (hkeeps : ∀ place found, ReachesNulls schema value place found → KeepsNulls host place found) :
    normalizeOptionalNulls host schema value = value := by
  induction schema using part_induction generalizing value with
  | step schema ih =>
    have hhere : KeepsNulls host schema value := hkeeps schema value (.here schema value)
    cases hschema : schema with
    | bool allowed => rw [normalizeOptionalNulls]
    | dict type properties required additionalProperties patternProperties items enum const allOf
        anyOf oneOf ref defs =>
      have hdict : schema.isDict = true := by
        rw [hschema]
        rfl
      cases hvalue : value with
      | list values =>
        subst hvalue
        have hitems : values.map (normalizeOptionalNulls host schema.items) = values := by
          conv_rhs => rw [← map_id values]
          refine map_congr_left fun found hfound => ?_
          exact ih _ (.items hdict) fun place other hreaches =>
            hkeeps place other (.item hfound hreaches)
        subst hschema
        exact congrArg Json.list hitems
      | dict entries =>
        subst hvalue
        have hproperties : normalizeProperties host schema.required schema.properties entries =
            entries := by
          refine normalizeProperties_self (fun key propertySchema hproperty hnull =>
            hhere rfl hproperty hnull) fun key propertySchema found hproperty hfound => ?_
          exact ih propertySchema (.property hproperty) fun place other hreaches =>
            hkeeps place other (.property hproperty hfound hreaches)
        subst hschema
        exact congrArg Json.dict hproperties
      | _ =>
        rw [normalizeOptionalNulls]
        · rintro _ ⟨⟩
        · rintro _ ⟨⟩

end NullRemoval

section Checker

/-- `b` is looked at only where `a` holds. -/
def both (a b : Option Bool) : Option Bool :=
  match a with
  | some true => b
  | other => other

theorem both_eq_true {a b : Option Bool} :
    both a b = some true ↔ a = some true ∧ b = some true := by
  cases a with
  | none => exact ⟨fun h => (nomatch h), fun h => (nomatch h.1)⟩
  | some a =>
    cases a with
    | false => exact ⟨fun h => (nomatch h), fun h => (nomatch h.1)⟩
    | true => exact ⟨fun h => ⟨rfl, h⟩, fun h => h.2⟩

def every {α : Type} (check : α → Option Bool) : List α → Option Bool
  | [] => some true
  | x :: rest => both (check x) (every check rest)

theorem every_eq_true {α : Type} {check : α → Option Bool} {xs : List α} :
    every check xs = some true ↔ ∀ x ∈ xs, check x = some true := by
  induction xs with
  | nil => exact ⟨fun _ x hx => (nomatch hx), fun _ => rfl⟩
  | cons x rest ih => rw [every, both_eq_true, ih, forall_mem_cons]

variable (patternMatches : (pattern key : String) → Bool) (resolve : String → Json → Option Bool)

mutual

/-- A validator of the keywords that the schemas below use. -/
def accepts : Schema → Json → Option Bool
  | .bool allowed, _ => some allowed
  | .dict type properties required additionalProperties patternProperties items _ _ allOf anyOf _
      ref _, value =>
    both (some (type.isEmpty || type.any (matchesJsonType value)))
      (both (acceptsAll allOf value)
        (both (if anyOf.isEmpty then some true else acceptsAny anyOf value)
          (both (match ref with | some ref => resolve ref value | none => some true)
            (match value with
              | .dict entries =>
                both (some (required.all fun key => key ∈ entries.map fst))
                  (both (acceptsProperties properties entries)
                    (every (fun item =>
                      if item.1 ∈ properties.map fst ||
                          patternProperties.any fun pattern => patternMatches pattern.1 item.1 then
                        some true
                      else accepts additionalProperties item.2) entries))
              | .list values => every (accepts items) values
              | _ => some true))))

def acceptsAll : List Schema → Json → Option Bool
  | [], _ => some true
  | schema :: rest, value => both (accepts schema value) (acceptsAll rest value)

def acceptsAny : List Schema → Json → Option Bool
  | [], _ => some false
  | schema :: rest, value =>
    match accepts schema value with
    | some false => acceptsAny rest value
    | other => other

def acceptsProperties : List (String × Schema) → Items → Option Bool
  | [], _ => some true
  | (key, propertySchema) :: rest, value =>
    both (every (fun item => if item.1 = key then accepts propertySchema item.2 else some true)
      value) (acceptsProperties rest value)

end

/-- A reference is looked up in the definitions of the root. -/
def resolveAt (root : Schema) (ref : String) (value : Json) : Option Bool :=
  match root.defs.find? fun definition => "#/$defs/" ++ definition.1 = ref with
  | some definition => accepts patternMatches (fun _ _ => none) definition.2 value
  | none => none

def checkAt (root schema : Schema) (value : Json) : Option Bool :=
  accepts patternMatches (resolveAt patternMatches root) schema value

variable {patternMatches : (pattern key : String) → Bool} {resolve : String → Json → Option Bool}
  {value : Json}

theorem acceptsAll_eq_true {schemas : List Schema} :
    acceptsAll patternMatches resolve schemas value = some true ↔
      ∀ schema ∈ schemas, accepts patternMatches resolve schema value = some true := by
  induction schemas with
  | nil => exact ⟨fun _ schema hschema => (nomatch hschema), fun _ => by rw [acceptsAll]⟩
  | cons schema rest ih => rw [acceptsAll, both_eq_true, ih, forall_mem_cons]

theorem accepts_of_acceptsProperties {properties : List (String × Schema)} {items : Items}
    (h : acceptsProperties patternMatches resolve properties items = some true) {key : String}
    {propertySchema : Schema} (hproperty : (key, propertySchema) ∈ properties)
    (hvalue : (key, value) ∈ items) :
    accepts patternMatches resolve propertySchema value = some true := by
  induction properties with
  | nil => cases hproperty
  | cons property rest ih =>
    rw [acceptsProperties, both_eq_true, every_eq_true] at h
    cases hproperty with
    | head =>
      have haccepted := h.1 _ hvalue
      rw [if_pos rfl] at haccepted
      exact haccepted
    | tail _ hrest => exact ih h.2 hrest

theorem draft202012_accepts (resolve : String → Json → Option Bool) :
    Draft202012 patternMatches fun _ => accepts patternMatches resolve where
  type {root schema value} hvalid htype := by
    cases schema with
    | bool allowed => exact absurd rfl htype
    | dict =>
      rw [accepts.eq_def] at hvalid
      simp only [both_eq_true] at hvalid
      have hany := Option.some.inj hvalid.1
      simp only [Schema.type] at htype ⊢
      rw [isEmpty_eq_false_iff.mpr htype, Bool.false_or] at hany
      exact any_eq_true.mp hany
  allOf {root schema nested value} hvalid hnested := by
    cases schema with
    | bool allowed => cases hnested
    | dict =>
      rw [accepts.eq_def] at hvalid
      simp only [both_eq_true, acceptsAll_eq_true] at hvalid
      exact hvalid.2.1 nested hnested
  properties {root schema propertySchema items key value} hvalid hproperty hvalue := by
    cases schema with
    | bool allowed => cases hproperty
    | dict =>
      rw [accepts.eq_def] at hvalid
      simp only [both_eq_true] at hvalid
      exact accepts_of_acceptsProperties hvalid.2.2.2.2.2.1 hproperty hvalue
  additionalProperties {root schema items key value} hvalid hkey hpattern hvalue := by
    cases schema with
    | bool allowed =>
      exact hvalid
    | dict type properties required additionalProperties patternProperties =>
      rw [accepts.eq_def] at hvalid
      simp only [both_eq_true, every_eq_true] at hvalid
      have hother := hvalid.2.2.2.2.2.2 _ hvalue
      have hnone : patternProperties.any (fun pattern => patternMatches pattern.1 key) = false :=
        any_eq_false.mpr fun pattern hmem => by
          rw [hpattern pattern.1 (mem_map_of_mem hmem)]
          exact Bool.false_ne_true
      simp only [hnone, Bool.or_false, decide_eq_true_eq] at hother
      simp only [Schema.properties] at hkey
      rw [if_neg hkey] at hother
      exact hother
  items {root schema values value} hvalid hvalue := by
    cases schema with
    | bool allowed =>
      exact hvalid
    | dict =>
      rw [accepts.eq_def] at hvalid
      simp only [both_eq_true, every_eq_true] at hvalid
      exact hvalid.2.2.2.2 _ hvalue

theorem draft202012_checkAt : Draft202012 patternMatches (checkAt patternMatches) where
  type {root _ _} hvalid :=
    have hdraft := draft202012_accepts (resolveAt patternMatches root)
    @Draft202012.type _ _ hdraft root _ _ hvalid
  allOf {root _ _ _} hvalid :=
    have hdraft := draft202012_accepts (resolveAt patternMatches root)
    @Draft202012.allOf _ _ hdraft root _ _ _ hvalid
  properties {root _ _ _ _ _} hvalid :=
    have hdraft := draft202012_accepts (resolveAt patternMatches root)
    @Draft202012.properties _ _ hdraft root _ _ _ _ _ hvalid
  additionalProperties {root _ _ _ _} hvalid :=
    have hdraft := draft202012_accepts (resolveAt patternMatches root)
    @Draft202012.additionalProperties _ _ hdraft root _ _ _ _ hvalid
  items {root _ _ _} hvalid :=
    have hdraft := draft202012_accepts (resolveAt patternMatches root)
    @Draft202012.items _ _ hdraft root _ _ _ hvalid

end Checker

section Results

variable {host : Host} {patternMatches : (pattern key : String) → Bool} {tool : Tool}
  {toolCall : ToolCall} {result : Json}

theorem validateCandidate_ok {candidate : Json}
    (h : validateCandidate host tool toolCall candidate = .ok result) :
    host.isValid tool.parameters tool.parameters result = some true := by
  unfold validateCandidate at h
  split at h
  next hvalid =>
    cases h
    exact hvalid
  next => cases h
  next => cases h

theorem validateConverted_ok
    (h : validateToolArguments.validateConverted host tool toolCall = .ok result) :
    host.isValid tool.parameters tool.parameters result = some true := by
  unfold validateToolArguments.validateConverted at h
  simp only at h
  split_ifs at h with hdict hcheck
  · exact validateCandidate_ok h
  · cases h
    exact of_decide_eq_true hcheck
  · exact validateCandidate_ok h

theorem validateToolArguments_ok (h : validateToolArguments host tool toolCall = .ok result) :
    host.isValid tool.parameters tool.parameters result = some true := by
  unfold validateToolArguments at h
  split at h
  next error herror =>
    split_ifs at h
    exact validateConverted_ok h
  next => exact validateConverted_ok h

/-- What is returned is valid, and valid arguments come back as they are where nothing at the
places reached disturbs them. -/
theorem validateToolArguments_keeps (hdraft : Draft202012 patternMatches host.isValid)
    (tool : Tool) (name : String) (arguments : Items) :
    (∀ result, validateToolArguments host tool ⟨name, arguments, none⟩ = .ok result →
        host.isValid tool.parameters tool.parameters result = some true) ∧
      (host.isValid tool.parameters tool.parameters (.dict arguments) = some true →
        Undisturbed host patternMatches tool.parameters arguments →
        validateToolArguments host tool ⟨name, arguments, none⟩ = .ok (.dict arguments)) := by
  refine ⟨fun result => validateToolArguments_ok, fun hvalid hundisturbed => ?_⟩
  have hnulls := normalizeOptionalNulls_self hundisturbed.nulls
  have hcoerced := coerceWithJsonSchema_self hdraft hvalid hundisturbed.settled
  unfold validateToolArguments validateToolArguments.validateConverted
  simp only [hnulls, hcoerced, isDictValue, if_true, validateCandidate, hvalid]

theorem settled_of_no_union {root schema : Schema} {value : Json} (hany : schema.anyOf = [])
    (hone : schema.oneOf = []) (hpattern : schema.patternProperties = []) :
    Settled host patternMatches root schema value := by
  refine ⟨.inr ?_, .inr ?_, fun _ _ _ _ h => ?_⟩
  · rw [hany]
    exact nofun
  · rw [hone]
    exact nofun
  · obtain ⟨pattern, hmem, _⟩ := h
    rw [hpattern] at hmem
    cases hmem

/-- A pattern without special characters is found where it stands in the key. -/
def infixMatches (pattern key : String) : Bool := decide (pattern.toList <:+: key.toList)

def checkHost : Host where
  isValid := checkAt infixMatches
  iterErrors _ _ := []
  requiredProperty _ := none
  numbers := ⟨fun text => text.toInt?.map Int.cast, fun value => toString value.num⟩
  dumps _ := ""

def stringSchema : Schema :=
  .dict ["string"] [] [] (.bool true) [] (.bool true) none none [] [] [] none []

def integerSchema : Schema :=
  .dict ["integer"] [] [] (.bool true) [] (.bool true) none none [] [] [] none []

def referenceSchema : Schema :=
  .dict [] [] [] (.bool true) [] (.bool true) none none [] [] [] (some "#/$defs/N") []

/-- A number that is defined beside the schema, or a text. -/
def unionSchema : Schema :=
  .dict [] [] [] (.bool true) [] (.bool true) none none [] [referenceSchema, stringSchema] [] none
    []

def numberParameters : Schema :=
  .dict ["object"] [("n", unionSchema)] [] (.bool true) [] (.bool true) none none [] [] [] none
    [("N", integerSchema)]

/-- A text is accepted by the member for texts, which stands on its own. -/
theorem validateToolArguments_keeps_text :
    checkHost.isValid numberParameters numberParameters (.dict [("n", .str "a")]) = some true ∧
      validateToolArguments checkHost ⟨"set", numberParameters⟩ ⟨"set", [("n", .str "a")], none⟩ =
        .ok (.dict [("n", .str "a")]) := by
  have hvalid : checkHost.isValid numberParameters numberParameters (.dict [("n", .str "a")]) =
      some true := by decide
  have hundisturbed : Undisturbed checkHost infixMatches numberParameters [("n", .str "a")] := by
    refine ⟨fun place found hreaches => ?_, fun place found hreaches => ?_⟩
    · cases hreaches with
      | here => exact settled_of_no_union rfl rfl rfl
      | allOf h => cases h
      | property _ hproperty hvalue hrest =>
        obtain ⟨rfl, rfl⟩ := mk.inj (mem_singleton.mp hproperty)
        obtain ⟨_, rfl⟩ := mk.inj (mem_singleton.mp hvalue)
        cases hrest with
        | here =>
          refine ⟨.inl ⟨stringSchema, ?_, rfl, by decide⟩, .inr nofun, nofun⟩
          exact mem_cons_of_mem _ mem_cons_self
        | allOf h => cases h
      | additional _ hkey hvalue =>
        obtain ⟨rfl, _⟩ := mk.inj (mem_singleton.mp hvalue)
        exact absurd mem_cons_self hkey
    · cases hreaches with
      | here =>
        intro items key propertySchema hitems _ hnull
        obtain rfl := Json.dict.inj hitems
        cases mem_singleton.mp hnull
      | property hproperty hvalue hrest =>
        obtain ⟨_, rfl⟩ := mk.inj (mem_singleton.mp hvalue)
        cases hrest with
        | here => exact nofun
  exact ⟨hvalid, (validateToolArguments_keeps draft202012_checkAt ⟨"set", numberParameters⟩ "set"
    [("n", .str "a")]).2 hvalid hundisturbed⟩

/-- The member that is a reference raises on its own, and the next member turns the number into
a text. -/
theorem reference_rewritten :
    Draft202012 infixMatches checkHost.isValid ∧
      checkHost.isValid numberParameters numberParameters (.dict [("n", .int 5)]) = some true ∧
      validateToolArguments checkHost ⟨"set", numberParameters⟩ ⟨"set", [("n", .int 5)], none⟩ =
        .ok (.dict [("n", .str "5")]) ∧
      validateToolArguments checkHost ⟨"set", numberParameters⟩ ⟨"set", [("n", .int 5)], none⟩ ≠
        .ok (.dict [("n", .int 5)]) := by
  have hresult : validateToolArguments checkHost ⟨"set", numberParameters⟩
      ⟨"set", [("n", .int 5)], none⟩ = .ok (.dict [("n", .str "5")]) := rfl
  refine ⟨draft202012_checkAt, by decide, hresult, ?_⟩
  exact nofun

end Results

end Pidrei.ToolArguments
