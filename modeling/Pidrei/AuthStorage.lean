import Pidrei.SettingsMigration

/-!
The credential file: how the JSON object of a credential becomes a typed credential
and an object again, and what writing one provider's credential does to the others.
Every write parses the whole file and serializes it back, so that a credential which
the types do not describe in full changes when another one is written.
-/
namespace Pidrei.Auth

open Values Settings
open Option (bind_eq_some_iff none_or some)
open OrderedMap (get?)

/-- The text of the file as the object it stands for. -/
abbrev File := OrderedMap String Fields

inductive Credential where
  | apiKey (key env : Option Value)
  | oauth (refresh access expires : Value) (extra : Fields)

/-- `raw.get(name)`; null is `None`. -/
def getField (raw : Fields) (name : String) : Option Value :=
  match raw[name]? with
  | some .null => none
  | value => value

def parseCredential (raw : Fields) : Option Credential :=
  if raw["type"]? = some (.str "oauth") then do
    let refresh ← raw["refresh"]?
    let access ← raw["access"]?
    let expires ← raw["expires"]?
    let extra := (((raw.erase "type").erase "refresh").erase "access").erase "expires"
    some (.oauth refresh access expires extra)
  else some (.apiKey (getField raw "key") (getField raw "env"))

/-- `dict(value)`. `coerced` says what becomes of a value that is no dict; `none` where it raises. -/
def toDict (coerced : Value → Option Items) : Value → Option Items
  | .dict items => some items
  | value => coerced value

def setField (name : String) (value : Option Value) (raw : Fields) : Fields :=
  match value with
  | some value => raw.insert name value
  | none => raw

def serializeCredential (coerced : Value → Option Items) : Credential → Option Fields
  | .oauth refresh access expires extra =>
    some (((((∅ : Fields).insert "type" (.str "oauth")).insert "access" access).insert "refresh"
      refresh).insert "expires" expires ∪ extra)
  | .apiKey key env =>
    let raw := setField "key" key ((∅ : Fields).insert "type" (.str "api_key"))
    match env with
    | none => some raw
    | some env => (toDict coerced env).map fun items => raw.insert "env" (.dict items)

section Storage

variable (coerced : Value → Option Items)

def parseStorageData (file : File) : Option (OrderedMap String Credential) :=
  file.traverse parseCredential

def serializeData (data : OrderedMap String Credential) : Option File :=
  data.traverse (serializeCredential coerced)

/-- `modify`, from what the file holds to what it holds afterwards; `none` where it raises. The
caller's function gives no credential when nothing is to be written, and `none` when it raises. -/
def modify (provider : String) (fn : Option Credential → Option (Option Credential)) (file : File) :
    Option File := do
  let currentData ← parseStorageData file
  match ← fn (currentData.get? provider) with
  | none => some file
  | some nextCredential => serializeData coerced (currentData.set provider nextCredential)

def delete (provider : String) (file : File) : Option File := do
  let currentData ← parseStorageData file
  serializeData coerced (currentData.erase provider)

end Storage

section RoundTrip

/-- An api key with the fields that its type has, none of them null, and a dict as its `env`. -/
structure PlainApiKey (raw : Fields) : Prop where
  type : raw["type"]? = some (.str "api_key")
  key : raw["key"]? ≠ some .null
  env : ∀ env, raw["env"]? = some env → ∃ items, env = .dict items
  fields : ∀ name, (raw[name]?).isSome → name = "type" ∨ name = "key" ∨ name = "env"

/-- The typed credential says all that the object says. -/
def Described (raw : Fields) : Prop := raw["type"]? = some (.str "oauth") ∨ PlainApiKey raw

variable {coerced : Value → Option Items} {raw out : Fields} {credential : Credential}

theorem getField_eq_none (name : String) :
    getField raw name = none ↔ raw[name]? = none ∨ raw[name]? = some .null := by
  unfold getField
  split
  · rename_i h
    simp [h]
  · rename_i h
    exact ⟨.inl, fun hor => hor.resolve_right h⟩

theorem getField_of_ne_null {name : String} (h : raw[name]? ≠ some .null) :
    getField raw name = raw[name]? := by
  unfold getField
  split
  · rename_i hnull
    exact absurd hnull h
  · rfl

theorem get?_setField (name other : String) (value : Option Value) :
    (setField name value raw)[other]? = if name = other then value.or raw[other]? else raw[other]? := by
  cases value with
  | none =>
    show raw[other]? = _
    rw [none_or, ite_self]
  | some value =>
    show (raw.insert name value)[other]? = _
    rw [get?_insert, Option.some_or]

theorem serialize_oauth (htype : raw["type"]? = some (.str "oauth"))
    (hparse : parseCredential raw = some credential) :
    serializeCredential coerced credential = some raw := by
  rw [parseCredential, if_pos htype] at hparse
  obtain ⟨refresh, hrefresh, hparse⟩ := bind_eq_some_iff.mp hparse
  obtain ⟨access, haccess, hparse⟩ := bind_eq_some_iff.mp hparse
  obtain ⟨expires, hexpires, hparse⟩ := bind_eq_some_iff.mp hparse
  cases hparse
  refine congrArg some (Std.ExtTreeMap.ext_getElem? fun name => ?_)
  rw [Std.ExtTreeMap.getElem?_union]
  simp only [get?_erase, get?_insert, get?_empty]
  by_cases hexp : "expires" = name
  · subst hexp
    rw [if_pos rfl, if_pos rfl, none_or, hexpires]
  by_cases hacc : "access" = name
  · subst hacc
    simp [haccess]
  by_cases href : "refresh" = name
  · subst href
    simp [hrefresh]
  by_cases htyp : "type" = name
  · subst htyp
    simp [htype]
  simp [hexp, hacc, href, htyp]

/-- An api key's object has the type, the key and, when there is one, a dict as its `env`. -/
theorem serialize_apiKey {key env : Option Value}
    (hout : serializeCredential coerced (.apiKey key env) = some out) :
    ∃ written, out = setField "env" written
        (setField "key" key ((∅ : Fields).insert "type" (.str "api_key"))) ∧
      ((env = none ∧ written = none) ∨
        ∃ value items, env = some value ∧ toDict coerced value = some items ∧
          written = some (.dict items)) := by
  unfold serializeCredential at hout
  simp only at hout
  split at hout
  · exact ⟨none, (some.inj hout).symm, .inl ⟨rfl, rfl⟩⟩
  · rename_i value
    obtain ⟨items, hitems, rfl⟩ := Option.map_eq_some_iff.mp hout
    exact ⟨some (.dict items), rfl, .inr ⟨value, items, rfl, hitems, rfl⟩⟩

theorem get?_apiKey (key env : Option Value) (name : String) :
    (setField "env" env (setField "key" key ((∅ : Fields).insert "type" (.str "api_key"))))[name]? =
      if "env" = name then env else if "key" = name then key
      else if "type" = name then some (.str "api_key") else none := by
  rw [get?_setField, get?_setField, get?_insert, get?_empty]
  by_cases henv : "env" = name
  · subst henv
    simp
  · by_cases hkey : "key" = name
    · subst hkey
      simp
    · simp [henv, hkey]

theorem plainApiKey_of_serialize {key env : Option Value} (hkey : key = getField raw "key")
    (hout : serializeCredential coerced (.apiKey key env) = some raw) : PlainApiKey raw := by
  obtain ⟨written, hraw, hwritten⟩ := serialize_apiKey hout
  have hget := fun name => (congrArg (·[name]?) hraw).trans (get?_apiKey key written name)
  refine ⟨hget "type", fun hnull => ?_, fun value hvalue => ?_, fun name hname => ?_⟩
  · have hnone := (getField_eq_none "key").mpr (.inr hnull)
    have hthere := hget "key"
    rw [← hkey] at hnone
    rw [hnone] at hthere
    exact absurd (hnull.symm.trans hthere) (Option.some_ne_none _)
  · have hthere : raw["env"]? = written := hget "env"
    rcases hwritten with ⟨_, rfl⟩ | ⟨_, items, _, _, rfl⟩
    · rw [hthere] at hvalue
      cases hvalue
    · exact ⟨items, some.inj (hvalue.symm.trans hthere)⟩
  · have hthere := hget name
    by_contra hother
    simp only [not_or] at hother
    simp only [if_neg (Ne.symm hother.1), if_neg (Ne.symm hother.2.1),
      if_neg (Ne.symm hother.2.2)] at hthere
    rw [hthere] at hname
    cases hname

theorem serialize_plainApiKey (h : PlainApiKey raw) :
    serializeCredential coerced (.apiKey (getField raw "key") (getField raw "env")) = some raw := by
  have henvNull : raw["env"]? ≠ some .null := by
    intro hnull
    obtain ⟨items, hitems⟩ := h.env _ hnull
    cases hitems
  rw [getField_of_ne_null h.key, getField_of_ne_null henvNull]
  have hsame : ∀ name, (if "env" = name then raw["env"]? else if "key" = name then raw["key"]?
      else if "type" = name then some (Value.str "api_key") else none) = raw[name]? := by
    intro name
    split
    · rename_i hname
      rw [hname]
    split
    · rename_i hname
      rw [hname]
    split
    · rename_i hname
      rw [← hname, h.type]
    · rename_i henv hkey htype
      cases hget : raw[name]? with
      | none => rfl
      | some value =>
        rcases h.fields name (by rw [hget]; rfl) with rfl | rfl | rfl
        · exact absurd rfl htype
        · exact absurd rfl hkey
        · exact absurd rfl henv
  have hwhole : setField "env" raw["env"]? (setField "key" raw["key"]?
      ((∅ : Fields).insert "type" (.str "api_key"))) = raw := by
    refine Std.ExtTreeMap.ext_getElem? fun name => ?_
    rw [get?_apiKey, hsame]
  unfold serializeCredential
  simp only
  cases henv : raw["env"]? with
  | none =>
    rw [henv] at hwhole
    exact congrArg some hwhole
  | some env =>
    obtain ⟨items, rfl⟩ := h.env env henv
    rw [henv] at hwhole
    exact congrArg some hwhole

theorem serialize_eq_iff_described (hparse : parseCredential raw = some credential)
    (hout : serializeCredential coerced credential = some out) : out = raw ↔ Described raw := by
  by_cases htype : raw["type"]? = some (.str "oauth")
  · have hsame := (serialize_oauth htype hparse).symm.trans hout
    exact ⟨fun _ => .inl htype, fun _ => (some.inj hsame).symm⟩
  · rw [parseCredential, if_neg htype] at hparse
    cases hparse
    constructor
    · rintro rfl
      exact .inr (plainApiKey_of_serialize rfl hout)
    · intro h
      have hplain := h.resolve_left htype
      exact some.inj (hout.symm.trans (serialize_plainApiKey hplain))

end RoundTrip

section Frame

/-- The write operations of the store. -/
inductive Operation where
  | modify (provider : String) (fn : Option Credential → Option (Option Credential))
  | delete (provider : String)

def Operation.provider : Operation → String
  | .modify provider _ => provider
  | .delete provider => provider

variable {coerced : Value → Option Items} {file written : File} {provider : String}

def Operation.apply (coerced : Value → Option Items) (file : File) : Operation → Option File
  | .modify provider fn => Auth.modify coerced provider fn file
  | .delete provider => Auth.delete coerced provider file

/-- The caller's function has no credential to write. -/
def Operation.Reads (file : File) : Operation → Prop
  | .modify provider fn => fn ((file.get? provider).bind parseCredential) = some none
  | .delete _ => False

theorem get?_serializeData {data changed : OrderedMap String Credential}
    (hdata : parseStorageData file = some data) (hout : serializeData coerced changed = some written)
    {other : String} (hsame : changed.get? other = data.get? other) :
    written.get? other = file.get? other ↔ ∀ raw, file.get? other = some raw → Described raw := by
  rw [OrderedMap.get?_traverse hout, hsame]
  cases hget : file.get? other with
  | none =>
    rw [OrderedMap.get?_traverse hdata, hget]
    exact ⟨fun _ raw hraw => absurd hraw nofun, fun _ => rfl⟩
  | some raw =>
    obtain ⟨credential, hparse, hcredential⟩ := OrderedMap.get?_of_traverse hdata hget
    obtain ⟨out, hserialize, _⟩ := OrderedMap.get?_of_traverse hout (hsame.trans hcredential)
    rw [hcredential]
    show serializeCredential coerced credential = some raw ↔ _
    rw [hserialize]
    have hiff := serialize_eq_iff_described hparse hserialize
    constructor
    · intro heq other hother
      cases hother
      exact hiff.mp (some.inj heq)
    · exact fun h => congrArg some (hiff.mpr (h raw rfl))

/-- A successful write leaves another provider's object as it is exactly when nothing is written
or the object is one that its typed credential describes. -/
theorem others_unchanged_iff (coerced : Value → Option Items) (operation : Operation) (file : File)
    (written : File) (h : operation.apply coerced file = some written) (other : String)
    (hother : other ≠ operation.provider) :
    written.get? other = file.get? other ↔
      operation.Reads file ∨ ∀ raw, file.get? other = some raw → Described raw := by
  cases operation with
  | modify provider fn =>
    obtain ⟨data, hdata, h⟩ := bind_eq_some_iff.mp h
    obtain ⟨next, hnext, h⟩ := bind_eq_some_iff.mp h
    have hreads : Operation.Reads file (.modify provider fn) ↔ next = none := by
      show fn ((file.get? provider).bind parseCredential) = some none ↔ _
      rw [← OrderedMap.get?_traverse hdata, hnext]
      exact ⟨some.inj, congrArg some⟩
    rw [hreads]
    cases next with
    | none =>
      cases h
      exact ⟨fun _ => .inl rfl, fun _ => rfl⟩
    | some credential =>
      have hsame := data.get?_set_of_ne credential hother
      rw [get?_serializeData hdata h hsame]
      exact ⟨.inr, fun hor => hor.resolve_left nofun⟩
  | delete provider =>
    obtain ⟨data, hdata, h⟩ := bind_eq_some_iff.mp h
    have hsame : (data.erase provider).get? other = data.get? other := by
      rw [OrderedMap.get?_erase]
      exact if_neg hother
    rw [get?_serializeData hdata h hsame]
    exact ⟨.inr, fun hor => hor.resolve_left id⟩

/-- A file with an api key that has a field of its own. -/
def labelled : File :=
  .ofList [("anthropic", (∅ : Fields).insert "type" (.str "api_key") |>.insert "key" (.str "a")
      |>.insert "label" (.str "work")),
    ("openai", (∅ : Fields).insert "type" (.str "api_key") |>.insert "key" (.str "b"))]

/-- Deleting the other provider drops the field. -/
theorem labelled_rewritten :
    ∃ written, delete (fun _ => none) "openai" labelled = some written ∧
      written.get? "anthropic" ≠ labelled.get? "anthropic" := by
  refine ⟨.ofList [("anthropic", (∅ : Fields).insert "type" (.str "api_key") |>.insert "key" (.str "a"))],
    rfl, fun h => ?_⟩
  have hlabel := congrArg (fun raw => raw.bind fun fields => fields["label"]?) h
  cases hlabel

/-- The other way round nothing is lost. -/
theorem openai_unchanged :
    ∃ written, (Operation.delete "anthropic").apply (fun _ => none) labelled = some written ∧
      written.get? "openai" = labelled.get? "openai" := by
  refine ⟨.ofList [("openai", (∅ : Fields).insert "type" (.str "api_key") |>.insert "key" (.str "b"))],
    rfl, ?_⟩
  refine (others_unchanged_iff (fun _ => none) (.delete "anthropic") labelled _ rfl "openai"
    (by decide)).mpr (.inr fun raw hraw => .inr ?_)
  cases hraw
  refine ⟨rfl, fun hkey => ?_, fun env henv => ?_, fun name hname => ?_⟩
  · cases hkey
  · cases henv
  · rw [get?_insert, get?_insert, get?_empty] at hname
    by_cases hkey : "key" = name
    · exact .inr (.inl hkey.symm)
    · by_cases htype : "type" = name
      · exact .inl htype.symm
      · rw [if_neg hkey, if_neg htype] at hname
        cases hname

end Frame

end Pidrei.Auth
