import Mathlib.Data.List.Basic

/-!
The free-form values that messages and session entries carry: JSON values and
dataclass instances (`record`). Numbers keep Python's split into integers and
floats; a float is its bit pattern. `toWireValue` is the conversion every
free-form field goes through before it is written.
-/
namespace Pidrei.Values

inductive Number where
  | int (n : Int)
  | float (bits : UInt64)
  deriving DecidableEq

inductive Value where
  | null
  | bool (b : Bool)
  | num (n : Number)
  | str (s : String)
  | list (items : List Value)
  | dict (items : List (String × Value))
  | record (fields : List (String × Value))

abbrev Items := List (String × Value)

namespace Value

mutual

def decEq : (a b : Value) → Decidable (a = b)
  | .null, .null => isTrue rfl
  | .bool a, .bool b => decidable_of_iff (a = b) (by simp)
  | .num a, .num b => decidable_of_iff (a = b) (by simp)
  | .str a, .str b => decidable_of_iff (a = b) (by simp)
  | .list a, .list b => @decidable_of_iff _ (a = b) (by simp) (decEqList a b)
  | .dict a, .dict b => @decidable_of_iff _ (a = b) (by simp) (decEqItems a b)
  | .record a, .record b => @decidable_of_iff _ (a = b) (by simp) (decEqItems a b)
  | .null, .bool _ | .null, .num _ | .null, .str _ | .null, .list _ | .null, .dict _
  | .null, .record _ | .bool _, .null | .bool _, .num _ | .bool _, .str _ | .bool _, .list _
  | .bool _, .dict _ | .bool _, .record _ | .num _, .null | .num _, .bool _ | .num _, .str _
  | .num _, .list _ | .num _, .dict _ | .num _, .record _ | .str _, .null | .str _, .bool _
  | .str _, .num _ | .str _, .list _ | .str _, .dict _ | .str _, .record _ | .list _, .null
  | .list _, .bool _ | .list _, .num _ | .list _, .str _ | .list _, .dict _ | .list _, .record _
  | .dict _, .null | .dict _, .bool _ | .dict _, .num _ | .dict _, .str _ | .dict _, .list _
  | .dict _, .record _ | .record _, .null | .record _, .bool _ | .record _, .num _
  | .record _, .str _ | .record _, .list _ | .record _, .dict _ => isFalse nofun

def decEqList : (a b : List Value) → Decidable (a = b)
  | [], [] => isTrue rfl
  | [], _ :: _ => isFalse nofun
  | _ :: _, [] => isFalse nofun
  | x :: xs, y :: ys =>
    match decEq x y, decEqList xs ys with
    | isTrue h, isTrue h' => isTrue (by rw [h, h'])
    | isFalse h, _ => isFalse (fun e => h (List.cons.inj e).1)
    | _, isFalse h => isFalse (fun e => h (List.cons.inj e).2)

def decEqItems : (a b : Items) → Decidable (a = b)
  | [], [] => isTrue rfl
  | [], _ :: _ => isFalse nofun
  | _ :: _, [] => isFalse nofun
  | (k, x) :: xs, (l, y) :: ys =>
    match decEq x y, decEqItems xs ys with
    | isTrue h, isTrue h' => @decidable_of_iff _ (k = l) (by simp [h, h']) inferInstance
    | isFalse h, _ => isFalse (fun e => h (Prod.mk.inj (List.cons.inj e).1).2)
    | _, isFalse h => isFalse (fun e => h (List.cons.inj e).2)

end

instance : DecidableEq Value := decEq

end Value

/-- Where `camel` stands in a field name: in its first part, at the start of a
later part, or inside a later part. -/
inductive CamelPart where
  | first
  | start
  | inside

def camelChars : CamelPart → List Char → List Char
  | _, [] => []
  | part, c :: rest =>
    if c = '_' then camelChars .start rest
    else match part with
      | .first => c :: camelChars .first rest
      | .start => c.toUpper :: camelChars .inside rest
      | .inside => c.toLower :: camelChars .inside rest

/-- Split at underscores, capitalize every part but the first, and join. -/
def camel (name : String) : String := String.ofList (camelChars .first name.toList)

mutual

/-- Records become dicts with camelCase keys and without their null fields;
dicts keep their keys. -/
def toWireValue : Value → Value
  | .record fields => .dict (toWireFields fields)
  | .dict items => .dict (toWireItems items)
  | .list items => .list (toWireList items)
  | .null => .null
  | .bool b => .bool b
  | .num n => .num n
  | .str s => .str s

def toWireList : List Value → List Value
  | [] => []
  | v :: rest => toWireValue v :: toWireList rest

def toWireItems : Items → Items
  | [] => []
  | (k, v) :: rest => (k, toWireValue v) :: toWireItems rest

def toWireFields : Items → Items
  | [] => []
  | (k, v) :: rest =>
    if v = .null then toWireFields rest else (camel k, toWireValue v) :: toWireFields rest

end

mutual

theorem toWireValue_toWireValue : (v : Value) → toWireValue (toWireValue v) = toWireValue v
  | .record fields => by simp only [toWireValue, toWireItems_toWireFields fields]
  | .dict items => by simp only [toWireValue, toWireItems_toWireItems items]
  | .list items => by simp only [toWireValue, toWireList_toWireList items]
  | .null | .bool _ | .num _ | .str _ => by simp only [toWireValue]

theorem toWireList_toWireList : (vs : List Value) → toWireList (toWireList vs) = toWireList vs
  | [] => rfl
  | v :: rest => by
    simp only [toWireList, toWireValue_toWireValue v, toWireList_toWireList rest]

theorem toWireItems_toWireItems : (vs : Items) → toWireItems (toWireItems vs) = toWireItems vs
  | [] => rfl
  | (_, v) :: rest => by
    simp only [toWireItems, toWireValue_toWireValue v, toWireItems_toWireItems rest]

theorem toWireItems_toWireFields : (vs : Items) → toWireItems (toWireFields vs) = toWireFields vs
  | [] => rfl
  | (k, v) :: rest => by
    by_cases h : v = .null
    · simp only [toWireFields, h, if_true, toWireItems_toWireFields rest]
    · simp only [toWireFields, h, if_false, toWireItems, toWireValue_toWireValue v,
        toWireItems_toWireFields rest]

end

example : camel "first_changed_line" = "firstChangedLine" := by decide

mutual

/-- A JSON value: no dataclass instance anywhere in it. -/
def isJson : Value → Bool
  | .record _ => false
  | .dict items => isJsonItems items
  | .list items => isJsonList items
  | .null | .bool _ | .num _ | .str _ => true

def isJsonList : List Value → Bool
  | [] => true
  | v :: rest => isJson v && isJsonList rest

def isJsonItems : Items → Bool
  | [] => true
  | (_, v) :: rest => isJson v && isJsonItems rest

end

mutual

theorem toWireValue_of_isJson : (v : Value) → isJson v = true → toWireValue v = v
  | .record _, h => by cases h
  | .dict items, h => by rw [toWireValue, toWireItems_of_isJson items h]
  | .list items, h => by rw [toWireValue, toWireList_of_isJson items h]
  | .null, _ | .bool _, _ | .num _, _ | .str _, _ => by rw [toWireValue]

theorem toWireList_of_isJson : (vs : List Value) → isJsonList vs = true → toWireList vs = vs
  | [], _ => rfl
  | v :: rest, h => by
    obtain ⟨hv, hrest⟩ := Bool.and_eq_true_iff.mp h
    rw [toWireList, toWireValue_of_isJson v hv, toWireList_of_isJson rest hrest]

theorem toWireItems_of_isJson : (vs : Items) → isJsonItems vs = true → toWireItems vs = vs
  | [], _ => rfl
  | (_, v) :: rest, h => by
    obtain ⟨hv, hrest⟩ := Bool.and_eq_true_iff.mp h
    rw [toWireItems, toWireValue_of_isJson v hv, toWireItems_of_isJson rest hrest]

end

end Pidrei.Values
