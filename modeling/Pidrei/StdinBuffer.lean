import Pidrei.Library.Incremental
import Pidrei.Library.PythonText
import Pidrei.Library.TextSearch

/-!
The input buffer of the terminal. Input comes in chunks that may end inside an escape
sequence; the buffer holds an unfinished sequence back and sends complete sequences and
pastes. No deadline passes between two chunks here, so nothing is flushed.
-/
namespace Pidrei.Tui

namespace StdinBuffer

def esc : Char := '\x1b'

def bracketedPasteStart : List Char := esc :: ['[', '2', '0', '0', '~']

def bracketedPasteEnd : List Char := esc :: ['[', '2', '0', '1', '~']

/-- The text begins with characters of these classes, one after the other. -/
def beginsWith : List (Char → Bool) → List Char → Bool
  | [], _ => true
  | _ :: _, [] => false
  | accepts :: classes, c :: text => accepts c && beginsWith classes text

def exactly (text : String) : List (Char → Bool) := text.toList.map fun c d => d == c

/-- The fixed headers of color, program-status and XTVersion replies behind the escape. -/
def replyHeaders : List (List (Char → Bool)) :=
  [exactly "]10;", exactly "]11;", exactly "]4;" ++ (Char.isDigit :: exactly ";"),
    exactly "]4;" ++ (Char.isDigit :: Char.isDigit :: exactly ";"),
    exactly "]4;" ++ (Char.isDigit :: Char.isDigit :: Char.isDigit :: exactly ";"),
    exactly "]7501;?", exactly "P>|"]

/-- Where a list of keys and numbers is read. -/
inductive KeyPosition
  | key | equals | number | moreDigits

/-- `(?:[a-z]=\d+,)*[a-z]=\d+;`, the keys of a Kitty graphics reply. -/
def beginsWithKeys : KeyPosition → List Char → Bool
  | _, [] => false
  | .key, c :: text => c.isLower && beginsWithKeys .equals text
  | .equals, c :: text => c == '=' && beginsWithKeys .number text
  | .number, c :: text => c.isDigit && beginsWithKeys .moreDigits text
  | .moreDigits, c :: text =>
    if c.isDigit then beginsWithKeys .moreDigits text
    else if c = ',' then beginsWithKeys .key text
    else c == ';'

/-- `_TERMINAL_REPLY_HEADER_RE` -/
def isTerminalReplyHeader : List Char → Bool
  | [] => false
  | c :: text =>
    c = esc && (replyHeaders.any (beginsWith · text) ||
      match text with
      | '_' :: 'G' :: keys => beginsWithKeys .key keys
      | _ => false)

def isControlString : List Char → Bool
  | c :: d :: _ => c = esc && (d = ']' || d = 'P' || d = '_')
  | _ => false

inductive Status
  | notEscape | incomplete | complete

def ofBool (isComplete : Bool) : Status := if isComplete then .complete else .incomplete

/-- `^\d+$`, which also takes a line break at the end. -/
def isDigits (part : List Char) : Bool :=
  let digits := if part.getLast? = some '\n' then part.dropLast else part
  !digits.isEmpty && digits.all PythonText.isDigit

/-- Three parts of digits between `<` and the final letter. -/
def isSgrMouse (payload : List Char) : Bool :=
  let parts := (payload.drop 1).dropLast.splitOn ';'
  (payload.getLast? = some 'M' || payload.getLast? = some 'm') && parts.length = 3 &&
    parts.all isDigits

/-- A CSI sequence ends with a byte in the range 0x40-0x7E. -/
def isCompleteCsiSequence (payload : List Char) : Status :=
  match payload.getLast? with
  | none => .incomplete
  | some lastChar =>
    if 0x40 ≤ lastChar.toNat ∧ lastChar.toNat ≤ 0x7E then
      if payload.head? = some '<' then ofBool (isSgrMouse payload) else .complete
    else .incomplete

def endsWithSt (data : List Char) : Bool := [esc, '\\'].isSuffixOf data

def isCompleteOscSequence (data : List Char) : Status :=
  ofBool (endsWithSt data || data.getLast? = some '\x07')

def isCompleteDcsSequence (data : List Char) : Status := ofBool (endsWithSt data)

def isCompleteApcSequence (data : List Char) : Status := ofBool (endsWithSt data)

def isCompleteSequence : List Char → Status
  | [] => .notEscape
  | c :: afterEsc =>
    if c ≠ esc then .notEscape
    else
      match afterEsc with
      | [] => .incomplete
      | '[' :: 'M' :: rest => ofBool (3 ≤ rest.length)
      | '[' :: payload => isCompleteCsiSequence payload
      | ']' :: _ => isCompleteOscSequence (c :: afterEsc)
      | 'P' :: _ => isCompleteDcsSequence (c :: afterEsc)
      | '_' :: _ => isCompleteApcSequence (c :: afterEsc)
      | 'O' :: rest => ofBool (1 ≤ rest.length)
      | _ :: _ => .complete

/-- `^\x1b\[(\d+)(?::\d*)?(?::\d+)?u$`, with the digits of its group. -/
def matchKittyPrintable (sequence : List Char) : Option (List Char) :=
  let text := if sequence.getLast? = some '\n' then sequence.dropLast else sequence
  if [esc, '['].isPrefixOf text && text.getLast? = some 'u' then
    let digits := fun field : List Char => field.all PythonText.isDigit
    let number := fun field : List Char => !field.isEmpty && digits field
    match (text.drop 2).dropLast.splitOn ':' with
    | [first] => if number first then some first else none
    | [first, second] => if number first && digits second then some first else none
    | [first, second, third] =>
      if number first && digits second && number third then some first else none
    | _ => none
  else none

/-- `none` where `int` raises. -/
def parseUnmodifiedKittyPrintableCodepoint (sequence : List Char) : Option (Option ℕ) :=
  match matchKittyPrintable sequence with
  | none => some none
  | some digits =>
    if PythonText.maxStrDigits < digits.length then none
    else
      let codepoint := PythonText.int digits
      some (if 32 ≤ codepoint then some codepoint else none)

/-- A character behind two escapes that makes the second one begin a sequence. -/
def opens (c : Char) : Bool := c = '[' || c = ']' || c = 'O' || c = 'P' || c = '_'

def isTerminalReply (remaining : List Char) : Bool :=
  isControlString remaining && isTerminalReplyHeader remaining

/-- Extend the candidate until it is complete. An unterminated reply is dropped where CAN or
SUB cancels it or a new escape sequence aborts it. -/
def scanSequence (terminalReply : Bool) :
    List Char → List Char → Option (Option (List Char) × List Char)
  | _, [] => none
  | candidate, c :: rest =>
    if terminalReply && 2 ≤ candidate.length && (c = '\x18' || c = '\x1a') then some (none, rest)
    else if terminalReply && 2 ≤ candidate.length && c = esc && rest.head?.any (· ≠ '\\') then
      some (none, c :: rest)
    else
      match isCompleteSequence (candidate ++ [c]) with
      | .incomplete => scanSequence terminalReply (candidate ++ [c]) rest
      | .notEscape => some (some (candidate ++ [c]), rest)
      | .complete =>
        -- The second escape begins the next sequence.
        if candidate ++ [c] = [esc, esc] ∧ rest.head?.any opens then some (some [esc], esc :: rest)
        else some (some (candidate ++ [c]), rest)

/-- Take one sequence off the buffer, or drop one reply. -/
def extractStep : List Char → Option (Option (List Char) × List Char)
  | [] => none
  | c :: rest =>
    if c = esc then scanSequence (isTerminalReply (c :: rest)) [] (c :: rest)
    else some (some [c], rest)

def extractCompleteSequences (buffer : List Char) : List (List Char) × List Char :=
  let (items, remainder) := Incremental.drain extractStep buffer
  (items.reduceOption, remainder)

inductive Event
  | data (sequence : List Char)
  | paste (content : List Char)
  deriving DecidableEq

/-- Collecting the event raises. -/
def Event.raises : Event → Bool
  | .data sequence => (parseUnmodifiedKittyPrintableCodepoint sequence).isNone
  | .paste _ => false

end StdinBuffer

structure StdinBuffer where
  buffer : List Char
  pasteMode : Bool
  pasteBuffer : List Char
  pendingKittyPrintableCodepoint : Option ℕ
  deriving DecidableEq

namespace StdinBuffer

/-- Nothing is buffered, and no paste is open. -/
def idle (pending : Option ℕ) : StdinBuffer :=
  { buffer := [], pasteMode := false, pasteBuffer := [], pendingKittyPrintableCodepoint := pending }

def fresh : StdinBuffer := idle none

/-- The character of a Kitty key that just came as a sequence is not sent again. After a sequence
that raises nothing is collected; `process` drops what is collected here. -/
def emitDataSequence (pending : Option ℕ) (sequence : List Char) : Option ℕ × List Event :=
  match sequence with
  | [c] =>
    if pending = some c.toNat then (none, [])
    else ((parseUnmodifiedKittyPrintableCodepoint [c]).join, [.data [c]])
  | _ => ((parseUnmodifiedKittyPrintableCodepoint sequence).join, [.data sequence])

def emitDataSequences : Option ℕ → List (List Char) → Option ℕ × List Event
  | pending, [] => (pending, [])
  | pending, sequence :: sequences =>
    let (pending, events) := emitDataSequence pending sequence
    let (pending, more) := emitDataSequences pending sequences
    (pending, events ++ more)

/-- Look for the end of the paste. What follows it is processed by the caller. -/
def readPaste (pending : Option ℕ) (pasteBuffer : List Char) :
    (StdinBuffer × List Event) × List Char :=
  match TextSearch.find bracketedPasteEnd pasteBuffer with
  | some endIndex =>
    ((fresh, [.paste (pasteBuffer.take endIndex)]),
      pasteBuffer.drop (endIndex + bracketedPasteEnd.length))
  | none =>
    (({ buffer := [], pasteMode := true, pasteBuffer := pasteBuffer,
        pendingKittyPrintableCodepoint := pending }, []), [])

/-- One call of `_process` up to the call for what follows a paste. -/
def processOnce (s : StdinBuffer) (string : List Char) :
    (StdinBuffer × List Event) × List Char :=
  if string.isEmpty && s.buffer.isEmpty then
    let (pending, events) := emitDataSequence s.pendingKittyPrintableCodepoint []
    (({ s with pendingKittyPrintableCodepoint := pending }, events), [])
  else if s.pasteMode then
    readPaste s.pendingKittyPrintableCodepoint (s.pasteBuffer ++ (s.buffer ++ string))
  else
    match TextSearch.find bracketedPasteStart (s.buffer ++ string) with
    | some startIndex =>
      let beforePaste := (s.buffer ++ string).take startIndex
      -- An incomplete remainder before the marker is dropped.
      let (sequences, _) := extractCompleteSequences beforePaste
      let (_, events) := emitDataSequences s.pendingKittyPrintableCodepoint sequences
      let ((s', pasted), remaining) := readPaste none
        ((s.buffer ++ string).drop (startIndex + bracketedPasteStart.length))
      ((s', events ++ pasted), remaining)
    | none =>
      let (sequences, remainder) := extractCompleteSequences (s.buffer ++ string)
      let (pending, events) := emitDataSequences s.pendingKittyPrintableCodepoint sequences
      (({ s with buffer := remainder, pendingKittyPrintableCodepoint := pending }, events), [])

def processFuel : ℕ → StdinBuffer → List Char → StdinBuffer × List Event
  | 0, s, _ => (s, [])
  | fuel + 1, s, string =>
    let ((s', events), remaining) := processOnce s string
    if remaining.isEmpty then (s', events)
    else
      let (s', more) := processFuel fuel s' remaining
      (s', events ++ more)

/-- `_process` of one chunk. Each paste that ends takes its markers off the text. -/
def collect (s : StdinBuffer) (string : List Char) : StdinBuffer × List Event :=
  processFuel (s.pasteBuffer.length + s.buffer.length + string.length + 1) s string

/-- Process one chunk. Nothing of it is delivered when it raises. -/
def process (s : StdinBuffer) (string : List Char) : Option (StdinBuffer × List Event) :=
  let (s, events) := collect s string
  if events.any Event.raises then none else some (s, events)

/-- What is delivered of the chunks. An exception of `process` ends the reader. -/
def delivered (s : StdinBuffer) : List (List Char) → List Event
  | [] => []
  | chunk :: chunks =>
    match process s chunk with
    | none => []
    | some (s, events) => events ++ delivered s chunks

end StdinBuffer

end Pidrei.Tui
