import Pidrei.Library.OrderedMap
import Mathlib.Data.Int.Notation

/-!
Python's `json.loads` of a `str`: one pass from left to right that stops at the
first problem. What a scanner does not read it hands on. The nesting and the
digits of an integer are limited; a float is kept as it is written.
-/
namespace JsonDecoder

/-- A string is its code points; escaped surrogates without a partner stay in it. -/
inductive Json
  | null
  | bool (value : Bool)
  | int (value : ℤ)
  | float (literal : List Char)
  | str (codePoints : List ℕ)
  | list (items : List Json)
  | dict (items : List (List ℕ × Json))

/-- `JSONDecodeError` with its message, another `ValueError`, or `RecursionError`. -/
inductive LoadError
  | decode (message : String)
  | value (message : String)
  | recursion

structure Options where
  maxDepth : ℕ
  maxStrDigits : ℕ
  parseConstant : String → Except LoadError Json

abbrev Scanner (α : Type) := StateT (List Char) (Except LoadError) α

def isWhitespace (c : Char) : Bool := c = ' ' || c = '\t' || c = '\n' || c = '\r'

def isDigit (c : Char) : Bool := 48 ≤ c.toNat && c.toNat ≤ 57

/-- A character that a string literal cannot hold as it is. -/
def isControl (c : Char) : Bool := c.toNat ≤ 0x1F

def hexDigit (c : Char) : Option ℕ :=
  if isDigit c then some (c.toNat - 48)
  else if 97 ≤ c.toNat && c.toNat ≤ 102 then some (c.toNat - 87)
  else if 65 ≤ c.toNat && c.toNat ≤ 70 then some (c.toNat - 55)
  else none

def hexUnit (a b c d : Char) : Option ℕ := do
  return (← hexDigit a) * 4096 + (← hexDigit b) * 256 + (← hexDigit c) * 16 + (← hexDigit d)

/-- The character that a short escape stands for. -/
def unescape (c : Char) : Option ℕ :=
  if c = '"' ∨ c = '\\' ∨ c = '/' then some c.toNat
  else if c = 'b' then some 8
  else if c = 'f' then some 12
  else if c = 'n' then some 10
  else if c = 'r' then some 13
  else if c = 't' then some 9
  else none

def failWith {α : Type} (message : String) : Scanner α := fun _ => .error (.decode message)

def peek : Scanner (Option Char) := fun text => .ok (text.head?, text)

def advance : Scanner Unit := fun text => .ok ((), text.tail)

def skipWhitespace : Scanner Unit := fun text => .ok ((), text.dropWhile isWhitespace)

def digits : Scanner (List Char) := fun text =>
  .ok (text.takeWhile isDigit, text.dropWhile isDigit)

/-- Read the word if it comes next. -/
def word (expected : List Char) : Scanner Bool := fun text =>
  if expected.isPrefixOf text then .ok (true, text.drop expected.length) else .ok (false, text)

section Strings

/-- A unit in front of what is read behind it. -/
def withUnit (unit : ℕ) :
    Except LoadError (List ℕ × List Char) → Except LoadError (List ℕ × List Char)
  | .ok (units, behind) => .ok (unit :: units, behind)
  | .error error => .error error

/-- The code units of a string behind its opening quote, and what stands behind its end. The
digits of a `u` escape are read only with a character behind them. -/
def scanUnits : List Char → Except LoadError (List ℕ × List Char)
  | [] => .error (.decode "Unterminated string starting at")
  | c :: rest =>
    if c = '"' then .ok ([], rest)
    else if c = '\\' then
      match rest with
      | [] => .error (.decode "Unterminated string starting at")
      | e :: rest =>
        if e = 'u' then
          match rest with
          | h₁ :: h₂ :: h₃ :: h₄ :: next :: rest =>
            match hexUnit h₁ h₂ h₃ h₄ with
            | some unit => withUnit unit (scanUnits (next :: rest))
            | none => .error (.decode "Invalid \\uXXXX escape")
          | _ => .error (.decode "Invalid \\uXXXX escape")
        else
          match unescape e with
          | some unit => withUnit unit (scanUnits rest)
          | none => .error (.decode "Invalid \\escape")
    else if isControl c then .error (.decode "Invalid control character at")
    else withUnit c.toNat (scanUnits rest)

attribute [local simp] scanUnits.eq_def in
theorem scanUnits_close (rest : List Char) : scanUnits ('"' :: rest) = .ok ([], rest) := by
  rw [scanUnits.eq_def]
  rfl

variable {c : Char} {unit : ℕ}

theorem scanUnits_short (hc : c ≠ 'u') (h : unescape c = some unit) (rest : List Char) :
    scanUnits ('\\' :: c :: rest) = withUnit unit (scanUnits rest) := by
  rw [scanUnits.eq_def]
  simp only [Char.reduceEq, if_false, if_true, if_neg hc, h]

theorem scanUnits_unknown (hc : c ≠ 'u') (h : unescape c = none) (rest : List Char) :
    scanUnits ('\\' :: c :: rest) = .error (.decode "Invalid \\escape") := by
  rw [scanUnits.eq_def]
  simp only [Char.reduceEq, if_false, if_true, if_neg hc, h]

theorem scanUnits_unicode {h₁ h₂ h₃ h₄ : Char} (h : hexUnit h₁ h₂ h₃ h₄ = some unit) (next : Char)
    (rest : List Char) : scanUnits ('\\' :: 'u' :: h₁ :: h₂ :: h₃ :: h₄ :: next :: rest) =
      withUnit unit (scanUnits (next :: rest)) := by
  rw [scanUnits.eq_def]
  simp only [Char.reduceEq, if_false, if_true, h]

theorem scanUnits_noUnicode {rest : List Char}
    (h : ∀ h₁ h₂ h₃ h₄ next behind, rest = h₁ :: h₂ :: h₃ :: h₄ :: next :: behind →
      hexUnit h₁ h₂ h₃ h₄ = none) :
    scanUnits ('\\' :: 'u' :: rest) = .error (.decode "Invalid \\uXXXX escape") := by
  rw [scanUnits.eq_def]
  simp only [Char.reduceEq, if_false, if_true]
  split
  · rw [h _ _ _ _ _ _ rfl]
  · rfl

theorem scanUnits_control (hc : isControl c = true) (rest : List Char) :
    scanUnits (c :: rest) = .error (.decode "Invalid control character at") := by
  have hquote : c ≠ '"' := by
    rintro rfl
    cases hc
  have hslash : c ≠ '\\' := by
    rintro rfl
    cases hc
  rw [scanUnits.eq_def]
  simp only [if_neg hquote, if_neg hslash, if_pos hc]

theorem scanUnits_plain (hquote : c ≠ '"') (hslash : c ≠ '\\') (hc : isControl c = false)
    (rest : List Char) : scanUnits (c :: rest) = withUnit c.toNat (scanUnits rest) := by
  rw [scanUnits.eq_def]
  simp only [if_neg hquote, if_neg hslash, hc]
  rfl

/-- A high surrogate and the low one behind it are one code point. -/
def joinSurrogates : List ℕ → List ℕ
  | high :: low :: units =>
    if 0xD800 ≤ high ∧ high ≤ 0xDBFF ∧ 0xDC00 ≤ low ∧ low ≤ 0xDFFF then
      (0x10000 + (high - 0xD800) * 0x400 + (low - 0xDC00)) :: joinSurrogates units
    else high :: joinSurrogates (low :: units)
  | units => units

def scanString : Scanner (List ℕ) := fun text =>
  match scanUnits text with
  | .ok (units, behind) => .ok (joinSurrogates units, behind)
  | .error error => .error error

end Strings

def scanSign : Scanner (List Char) := do
  if (← peek) = some '-' then
    advance
    return ['-']
  else return []

/-- A single zero, or digits that do not begin with zero. -/
def scanWhole : Scanner (List Char) := do
  match ← peek with
  | some c =>
    if c = '0' then
      advance
      return ['0']
    else if isDigit c then digits
    else failWith "Expecting value"
  | none => failWith "Expecting value"

def digitsBehind (lead : List Char) : Scanner (List Char) := fun text =>
  if lead.isPrefixOf text && !((text.drop lead.length).takeWhile isDigit).isEmpty then
    .ok (lead ++ (text.drop lead.length).takeWhile isDigit,
      (text.drop lead.length).dropWhile isDigit)
  else .ok ([], text)

def digitsBehindOneOf : List (List Char) → Scanner (List Char)
  | [] => return []
  | lead :: leads => do
    let found ← digitsBehind lead
    if found.isEmpty then digitsBehindOneOf leads else return found

def scanFraction : Scanner (List Char) := digitsBehind ['.']

def scanExponent : Scanner (List Char) :=
  digitsBehindOneOf [['e'], ['E'], ['e', '-'], ['e', '+'], ['E', '-'], ['E', '+']]

def decimal (text : List Char) : ℕ := text.foldl (fun value c => value * 10 + (c.toNat - 48)) 0

def toInt (options : Options) (sign whole : List Char) : Except LoadError Json :=
  if whole.length > options.maxStrDigits then
    .error (.value "Exceeds the limit for integer string conversion")
  else .ok (.int (if sign.isEmpty then decimal whole else -decimal whole))

def scanNumber (options : Options) : Scanner Json := do
  let sign ← scanSign
  let whole ← scanWhole
  let fraction ← scanFraction
  let exponent ← scanExponent
  if fraction.isEmpty && exponent.isEmpty then toInt options sign whole
  else return .float (sign ++ whole ++ fraction ++ exponent)

section Containers

section Entries

variable {α : Type} (close : Char) (trailing missing : String)

def afterEntry (next : Scanner (List α)) (entry : α) : Scanner (List α) := do
  skipWhitespace
  match ← peek with
  | some c =>
    if c = close then
      advance
      return [entry]
    else if c = ',' then
      advance
      skipWhitespace
      if (← peek) = some close then failWith trailing
      else
        let entries ← next
        return entry :: entries
    else failWith "Expecting ',' delimiter"
  | none => failWith "Expecting ',' delimiter"

/-- The entries of a container. Every entry takes at least one character; the number bounds the
characters that are left, and behind the last one an entry is missing. -/
def scanEntries (scan : Scanner α) : ℕ → Scanner (List α)
  | 0 => failWith missing
  | left + 1 => do
    let entry ← scan
    afterEntry close trailing (scanEntries scan left) entry

end Entries

variable (scan : Scanner Json)

def scanItems : ℕ → Scanner (List Json) :=
  scanEntries ']' "Illegal trailing comma before end of array" "Expecting value" scan

def scanArray : Scanner Json := do
  skipWhitespace
  if (← peek) = some ']' then
    advance
    return .list []
  else
    let items ← fun text => scanItems scan text.length text
    return .list items

def scanMember : Scanner (List ℕ × Json) := do
  if (← peek) = some '"' then
    advance
    let key ← scanString
    skipWhitespace
    if (← peek) = some ':' then
      advance
      skipWhitespace
      let value ← scan
      return (key, value)
    else failWith "Expecting ':' delimiter"
  else failWith "Expecting property name enclosed in double quotes"

def scanMembers : ℕ → Scanner (List (List ℕ × Json)) :=
  scanEntries '}' "Illegal trailing comma before end of object"
    "Expecting property name enclosed in double quotes" (scanMember scan)

/-- A key that comes again overwrites the value at its first place. -/
def toDict (members : List (List ℕ × Json)) : Json :=
  .dict (members.foldl (fun items member => OrderedMap.upsert member.1 member.2 items) [])

def scanObject : Scanner Json := do
  skipWhitespace
  if (← peek) = some '}' then
    advance
    return .dict []
  else
    let members ← fun text => scanMembers scan text.length text
    return toDict members

end Containers

/-- A named value, or what is tried if the word does not come next. -/
def orWord (expected : List Char) (found : Except LoadError Json) (otherwise : Scanner Json) :
    Scanner Json := do
  if ← word expected then found else otherwise

/-- One value; the containers come from one level further down. -/
def scanValue (options : Options) (object array : Scanner Json) : Scanner Json := do
  match ← peek with
  | none => failWith "Expecting value"
  | some c =>
    if c = '"' then
      advance
      let text ← scanString
      return .str text
    else if c = '{' then
      advance
      object
    else if c = '[' then
      advance
      array
    else
      orWord ['n', 'u', 'l', 'l'] (.ok .null)
        (orWord ['t', 'r', 'u', 'e'] (.ok (.bool true))
          (orWord ['f', 'a', 'l', 's', 'e'] (.ok (.bool false))
            (orWord ['N', 'a', 'N'] (options.parseConstant "NaN")
              (orWord ['I', 'n', 'f', 'i', 'n', 'i', 't', 'y'] (options.parseConstant "Infinity")
                (orWord ['-', 'I', 'n', 'f', 'i', 'n', 'i', 't', 'y']
                  (options.parseConstant "-Infinity") (scanNumber options))))))

def tooDeep : Scanner Json := fun _ => .error .recursion

def scanOnce (options : Options) : ℕ → Scanner Json
  | 0 => scanValue options tooDeep tooDeep
  | depth + 1 =>
    scanValue options (scanObject (scanOnce options depth)) (scanArray (scanOnce options depth))

def scanDocument (options : Options) : Scanner Json := do
  if (← peek) = some '\uFEFF' then failWith "Unexpected UTF-8 BOM (decode using utf-8-sig)"
  else
    skipWhitespace
    let value ← scanOnce options options.maxDepth
    skipWhitespace
    match ← peek with
    | some _ => failWith "Extra data"
    | none => return value

def loads (options : Options) (text : List Char) : Except LoadError Json :=
  (·.1) <$> scanDocument options text

end JsonDecoder
