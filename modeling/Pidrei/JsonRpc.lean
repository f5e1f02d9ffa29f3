import Mathlib.Algebra.GroupWithZero.Nat
import Pidrei.Values

/-!
JSON-RPC messages. They stay the JSON values they are on the wire, and these tests
say which values are messages.
-/
namespace Pidrei.Mcp

open Values

/-- `message.get(name)`; a value that is no object has no fields. -/
def getField (message : Value) (name : String) : Option Value :=
  match message with
  | .dict items => items.lookup name
  | _ => none

def isObject : Value → Bool
  | .dict _ => true
  | _ => false

def isNumber : Value → Bool
  | .num _ => true
  | _ => false

def isString : Value → Bool
  | .str _ => true
  | _ => false

/-- `math.isfinite`. An integer that no float can hold raises there, and is no id here. -/
def isFinite : Number → Bool
  | .int n => n.natAbs < 2 ^ 1024 - 2 ^ 970
  | .float bits => bits.toNat / 2 ^ 52 % 2 ^ 11 ≠ 2 ^ 11 - 1

def isJsonRpcId : Value → Bool
  | .str _ => true
  | .num n => isFinite n
  | _ => false

def hasVersion (message : Value) : Bool :=
  isObject message && getField message "jsonrpc" = some (.str "2.0")

def isJsonRpcRequest (message : Value) : Bool :=
  hasVersion message && (getField message "id").any isJsonRpcId &&
    (getField message "method").any isString

def isJsonRpcNotification (message : Value) : Bool :=
  hasVersion message && (getField message "id").isNone && (getField message "method").any isString

def isJsonRpcResponse (message : Value) : Bool :=
  hasVersion message && (getField message "id").any isJsonRpcId &&
    if (getField message "result").isSome then (getField message "error").isNone
    else (getField message "error").any fun error =>
      isObject error && (getField error "code").any isNumber && (getField error "message").any isString

/-- `none` where it raises. -/
def parseJsonRpcMessage (value : Value) : Option Value :=
  if isJsonRpcRequest value || isJsonRpcNotification value || isJsonRpcResponse value then some value
  else none

end Pidrei.Mcp
