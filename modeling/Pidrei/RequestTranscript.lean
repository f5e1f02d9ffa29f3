import Mathlib.Data.Nat.Digits.Defs
import Pidrei.TransformMessages
import Pidrei.Transcript

/-!
What the provider adapters share when they build a request: the transcript they
start from, where its tool declarations go, the text of a later system message,
the short hash in tool-call ids, and the runs of tool results that are sent
together.
-/
namespace Pidrei.RequestTranscript

open Values Messages Transcript TransformMessages

/-! ### System messages -/

def getInitialSystemMessage : List Message → Option SystemMessage
  | .system m :: _ => some m
  | _ => none

def renderSection (item : String × Option String) : String :=
  match item.2 with
  | none => "Removed system prompt section \"" ++ item.1 ++ "\"."
  | some value => "Updated system prompt section \"" ++ item.1 ++ "\":\n\n" ++ value

/-- A later system message as text; its tools are not part of it. -/
def renderSystemMessageUpdate (message : SystemMessage) : String :=
  let text := contentText message.content
  let sections := ((message.sections.map OrderedMap.entries).getD []).map renderSection
  joinText "\n\n" ((if 0 < text.length then [text] else []) ++ sections)

def resolveTranscript (messages : List Message) (supportsMidConvoSystemMessages : Bool) :
    List Message :=
  if supportsMidConvoSystemMessages then messages else collapseSystemMessages messages

/-! ### Tool declarations -/

def toolsAdded (m : SystemMessage) : List Tool := m.toolsAdded.getD []

def toolsRemoved (m : SystemMessage) : List ToolReference := m.toolsRemoved.getD []

/-- The loop variables of `findLastNonAdditiveToolChange`. -/
structure NonAdditive where
  declared : List String := []
  last : ℤ := -1

def noteDeclaration (index : ℕ) (s : NonAdditive) (tool : Tool) : NonAdditive where
  declared := tool.name :: s.declared
  last := if tool.name ∈ s.declared then index else s.last

def noteSystemMessage (s : NonAdditive) (message : SystemMessage × ℕ) : NonAdditive :=
  let noted := if toolsRemoved message.1 = [] then s else { s with last := message.2 }
  (toolsAdded message.1).foldl (noteDeclaration message.2) noted

def findLastNonAdditiveToolChange (systemMessages : List SystemMessage) : ℤ :=
  (systemMessages.zipIdx.foldl noteSystemMessage {}).last

inductive TranscriptToolSupport where
  | none
  | additions
  | changes

structure TranscriptTools where
  requestTools : List Tool
  foldedSystemMessages : ℕ

def resolveTranscriptTools (messages : List Message) (support : TranscriptToolSupport) :
    TranscriptTools :=
  let systemMessages := messages.filterMap systemMessage?
  match support with
  | .none => ⟨getCurrentTools (systemMessages.map .system), systemMessages.length⟩
  | .changes => ⟨[], 0⟩
  | .additions =>
    let initial : ℤ := if (getInitialSystemMessage messages).isSome then 1 else 0
    let folded := (max initial (findLastNonAdditiveToolChange systemMessages + 1)).toNat
    ⟨getCurrentTools ((systemMessages.take folded).map .system), folded⟩

/-! ### Tool-call ids -/

def imul (a b : ℕ) : ℕ := a * b % 2 ^ 32

def utf16Units (c : Char) : List ℕ :=
  if c.toNat < 0x10000 then [c.toNat]
  else [0xD800 + (c.toNat - 0x10000) / 0x400, 0xDC00 + (c.toNat - 0x10000) % 0x400]

def base36Alphabet : List Char := "0123456789abcdefghijklmnopqrstuvwxyz".toList

def toBase36 (value : ℕ) : List Char :=
  if value = 0 then ['0']
  else ((Nat.digits 36 value).map fun digit => base36Alphabet.getD digit '0').reverse

def hashUnit (h : ℕ × ℕ) (unit : ℕ) : ℕ × ℕ :=
  (imul (h.1 ^^^ unit) 2654435761, imul (h.2 ^^^ unit) 1597334677)

def shortHash (text : List Char) : List Char :=
  let h := (text.flatMap utf16Units).foldl hashUnit (0xDEADBEEF, 0x41C6CE57)
  let mixed1 := imul (h.1 ^^^ h.1 >>> 16) 2246822507 ^^^ imul (h.2 ^^^ h.2 >>> 13) 3266489909
  let mixed2 :=
    imul (h.2 ^^^ h.2 >>> 16) 2246822507 ^^^ imul (mixed1 ^^^ mixed1 >>> 13) 3266489909
  toBase36 mixed2 ++ toBase36 mixed1

/-- `re.sub(r"[^a-zA-Z0-9_-]", "_", id)`. -/
def sanitizeId (id : List Char) : List Char :=
  id.map fun c => if c.isAlphanum || c == '_' || c == '-' then c else '_'

/-! ### Runs of tool results -/

/-- What one turn of a conversion loop takes: a message, or the tool results that follow
each other. -/
inductive Entry where
  | message (m : Message)
  | results (ms : List ToolResultMessage)

def joinResult (m : ToolResultMessage) : List Entry → List Entry
  | .results ms :: rest => .results (m :: ms) :: rest
  | entries => .results [m] :: entries

def entries : List Message → List Entry
  | [] => []
  | .toolResult m :: rest => joinResult m (entries rest)
  | m :: rest => .message m :: entries rest

end Pidrei.RequestTranscript
