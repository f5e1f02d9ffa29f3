import Mathlib.Data.List.Sort
import Pidrei.EditorLayout
import Pidrei.Library.TextSearch

/-!
The multi-line editor: its state and the operations that change its text, with
pastes, the kill ring and undo. Columns and line numbers are integers, and a
negative one counts from the end as it does in the source.
-/
namespace Pidrei.Editor

open PythonText

/-- `_state`. -/
structure Buffer where
  lines : List Text
  cursorLine : ℤ
  cursorCol : ℤ

inductive LastAction where
  | kill
  | yank
  | typeWord
  deriving DecidableEq

inductive Direction where
  | forward
  | backward

structure Snapshot where
  state : Buffer
  pastes : OrderedMap ℕ Text
  pasteCounter : ℕ

structure State where
  buffer : Buffer
  lastWidth : ℕ
  terminalRows : ℕ
  paddingX : ℕ
  disableSubmit : Bool
  pastes : OrderedMap ℕ Text
  pasteCounter : ℕ
  pasteBuffer : Text
  isInPaste : Bool
  history : List Text
  historyIndex : ℤ
  historyDraft : Option Buffer
  killRing : List Text
  lastAction : Option LastAction
  jumpMode : Option Direction
  preferredVisualCol : Option ℤ
  snappedFromCursorCol : Option ℤ
  undoStack : List Snapshot
  /-- The texts that `on_submit` was called with. -/
  submitted : List Text

def emptyBuffer : Buffer := ⟨[[]], 0, 0⟩

/-- A fresh editor. -/
def initial (terminalRows paddingX : ℕ) : State where
  buffer := emptyBuffer
  lastWidth := 80
  terminalRows := terminalRows
  paddingX := paddingX
  disableSubmit := false
  pastes := OrderedMap.empty
  pasteCounter := 0
  pasteBuffer := []
  isInPaste := false
  history := []
  historyIndex := -1
  historyDraft := none
  killRing := []
  lastAction := none
  jumpMode := none
  preferredVisualCol := none
  snappedFromCursorCol := none
  undoStack := []
  submitted := []

section Lines

variable {α : Type}

/-- `text[:col]`. -/
def upTo (col : ℤ) (text : List α) : List α := text.take (sliceIndex text.length col)

/-- `text[col:]`. -/
def onward (col : ℤ) (text : List α) : List α := text.drop (sliceIndex text.length col)

def lineAt (lines : List (List α)) (index : ℤ) : List α := lines[place lines.length index]?.getD []

def setLine (lines : List (List α)) (index : ℤ) (line : List α) : List (List α) :=
  lines.set (place lines.length index) line

/-- `lines.insert(index, line)`. -/
def insertLine (lines : List (List α)) (index : ℤ) (line : List α) : List (List α) :=
  lines.take (sliceIndex lines.length index) ++ line :: lines.drop (sliceIndex lines.length index)

def deleteLine (lines : List (List α)) (index : ℤ) : List (List α) :=
  lines.eraseIdx (place lines.length index)

/-- `KillRing.push`; the last entry is the most recent one. -/
def killRingPush (ring : List (List α)) (text : List α) (prepend accumulate : Bool) : List (List α) :=
  if text.isEmpty then ring
  else
    match accumulate, ring.getLast? with
    | true, some last => ring.dropLast ++ [if prepend then text ++ last else last ++ text]
    | _, _ => ring ++ [text]

def killRingRotate (ring : List (List α)) : List (List α) :=
  match ring.getLast? with
  | some last => if 1 < ring.length then last :: ring.dropLast else ring
  | none => ring

end Lines

def splitLines (text : Text) : List Text := text.splitOn '\n'

def joinLines (lines : List Text) : Text := ['\n'].intercalate lines

namespace Buffer

def currentLine (b : Buffer) : Text := lineAt b.lines b.cursorLine

def before (b : Buffer) : Text := upTo b.cursorCol b.currentLine

def after (b : Buffer) : Text := onward b.cursorCol b.currentLine

def setCurrent (b : Buffer) (line : Text) : Buffer :=
  { b with lines := setLine b.lines b.cursorLine line }

def mergePrevious (b : Buffer) : Buffer :=
  let previous := lineAt b.lines (b.cursorLine - 1)
  { lines := deleteLine (setLine b.lines (b.cursorLine - 1) (previous ++ b.currentLine)) b.cursorLine
    cursorLine := b.cursorLine - 1
    cursorCol := previous.length }

def mergeNext (b : Buffer) : Buffer :=
  let next := lineAt b.lines (b.cursorLine + 1)
  { b with lines := deleteLine (setLine b.lines b.cursorLine (b.currentLine ++ next)) (b.cursorLine + 1) }

end Buffer

namespace State

def text (s : State) : Text := joinLines s.buffer.lines

def validPasteIds (s : State) : List ℕ := s.pastes.keys

/-- `_segment(text, "grapheme")`. -/
def graphemes (metrics : Metrics) (s : State) (text : Text) : List Segment :=
  segmentWithMarkers text metrics.graphemes.segment s.validPasteIds

/-- `_segment(text, "word")`. -/
def words (metrics : Metrics) (s : State) (text : Text) : List Segment :=
  segmentWithMarkers text metrics.words.segment s.validPasteIds

def setCursorCol (s : State) (col : ℤ) : State :=
  { s with
    buffer := { s.buffer with cursorCol := col }
    preferredVisualCol := none
    snappedFromCursorCol := none }

/-- The edited text, and the column as `_set_cursor_col` sets it. -/
def edit (s : State) (b : Buffer) : State := ({ s with buffer := b }).setCursorCol b.cursorCol

def exitHistoryBrowsing (s : State) : State := { s with historyIndex := -1, historyDraft := none }

def pushUndoSnapshot (s : State) : State :=
  { s with undoStack := ⟨s.buffer, s.pastes, s.pasteCounter⟩ :: s.undoStack }

def forget (s : State) : State := { s with lastAction := none }

def act (s : State) (action : LastAction) : State := { s with lastAction := some action }

end State

def normalizeText (text : Text) : Text :=
  TextSearch.replace ['\t'] "    ".toList
    (TextSearch.replace ['\r'] ['\n'] (TextSearch.replace ['\r', '\n'] ['\n'] text))

def State.setTextInternal (s : State) (text : Text) (atStart : Bool) : State :=
  let lines := splitLines text
  let cursorLine : ℤ := if atStart then 0 else lines.length - 1
  s.edit ⟨lines, cursorLine, if atStart then 0 else (lineAt lines cursorLine).length⟩

def State.setText (s : State) (text : Text) : State :=
  let s := s.forget.exitHistoryBrowsing
  let normalized := normalizeText text
  let s := if s.text = normalized then s else s.pushUndoSnapshot
  ({ s with pastes := OrderedMap.empty, pasteCounter := 0 }).setTextInternal normalized false

/-- `_insert_text_at_cursor_internal`. -/
def Buffer.insertText (b : Buffer) (text : Text) : Buffer :=
  let normalized := normalizeText text
  let inserted := splitLines normalized
  if inserted.length = 1 then
    { b.setCurrent (b.before ++ (normalized ++ b.after)) with
      cursorCol := b.cursorCol + normalized.length }
  else
    let last := inserted.getLast?.getD []
    { lines := b.lines.take (sliceIndex b.lines.length b.cursorLine) ++
        (b.before ++ inserted.head?.getD []) :: (inserted.dropLast.drop 1 ++
          (last ++ b.after) :: b.lines.drop (sliceIndex b.lines.length (b.cursorLine + 1)))
      cursorLine := b.cursorLine + (inserted.length - 1)
      cursorCol := last.length }

/-- Nothing is set for the empty text. -/
def State.insertTextInternal (s : State) (text : Text) : State :=
  if text = [] then s else s.edit (s.buffer.insertText text)

def State.insertTextAtCursor (s : State) (text : Text) : State :=
  if text = [] then s
  else s.pushUndoSnapshot.forget.exitHistoryBrowsing.insertTextInternal text

def State.insertCharacter (s : State) (char : Text) : State :=
  let s := s.exitHistoryBrowsing
  let s := if isWhitespaceChar char ∨ s.lastAction ≠ some .typeWord then s.pushUndoSnapshot else s
  let s := s.act .typeWord
  let b := s.buffer
  s.edit { b.setCurrent (b.before ++ (char ++ b.after)) with cursorCol := b.cursorCol + char.length }

def State.addNewLine (s : State) : State :=
  let s := s.exitHistoryBrowsing.forget.pushUndoSnapshot
  let b := s.buffer
  s.edit
    { lines := insertLine (setLine b.lines b.cursorLine b.before) (b.cursorLine + 1) b.after
      cursorLine := b.cursorLine + 1
      cursorCol := 0 }

/-- `ESC [ <codepoint> ; 5 u` at the head of a text. -/
def matchCsiU (text : Text) : Option Text :=
  if ['\x1b', '['].isPrefixOf text then matchDigits ";5u".toList (text.drop 2) else none

/-- The control byte that a CSI-u sequence stands for. -/
def decodeCsiU (digits : Text) : Text :=
  let cp := int digits
  if 97 ≤ cp ∧ cp ≤ 122 then [Char.ofNat (cp - 96)]
  else if 65 ≤ cp ∧ cp ≤ 90 then [Char.ofNat (cp - 64)]
  else ['\x1b', '['] ++ (digits ++ ";5u".toList)

/-- `re.sub` with `_decode_csi_u`; `skip` characters still belong to the last match. -/
def decodePaste : ℕ → Text → Text
  | _, [] => []
  | skip + 1, _ :: rest => decodePaste skip rest
  | 0, c :: rest =>
    match matchCsiU (c :: rest) with
    | some digits => decodeCsiU digits ++ decodePaste (digits.length + 4) rest
    | none => c :: decodePaste 0 rest

/-- `\w` with `re.ASCII`. -/
def isWordChar (c : Char) : Bool := c.isAlphanum || c = '_'

def startsPath (text : Text) : Bool :=
  match text.head? with
  | some c => c = '/' || c = '~' || c = '.'
  | none => false

/-- The text that a paste leaves once it is decoded and cleaned. -/
def Buffer.filterPaste (b : Buffer) (pastedText : Text) : Text :=
  let cleanText := normalizeText (decodePaste 0 pastedText)
  let filteredText := cleanText.filter fun c => c = '\n' || 32 ≤ c.toNat
  let charBeforeCursor :=
    if 0 < b.cursorCol then (b.currentLine[place b.currentLine.length (b.cursorCol - 1)]?) else none
  if startsPath filteredText && charBeforeCursor.any isWordChar then ' ' :: filteredText
  else filteredText

def isLargePaste (filteredText : Text) : Bool :=
  10 < (splitLines filteredText).length || 1000 < filteredText.length

def pasteMarker (pasteId : ℕ) (filteredText : Text) : Marker :=
  let pastedLines := (splitLines filteredText).length
  ⟨str pasteId, if 10 < pastedLines then .lines (str pastedLines) else .chars (str filteredText.length)⟩

def State.handlePaste (s : State) (pastedText : Text) : State :=
  let s := s.exitHistoryBrowsing.forget.pushUndoSnapshot
  let filteredText := s.buffer.filterPaste pastedText
  if isLargePaste filteredText then
    let pasteId := s.pasteCounter + 1
    ({ s with
      pasteCounter := pasteId
      pastes := s.pastes.set pasteId filteredText }).insertTextInternal
        (pasteMarker pasteId filteredText).text
  else s.insertTextInternal filteredText

def State.expandedText (s : State) : Text := expandPasteMarkers s.pastes s.text

def State.submitValue (s : State) : State :=
  let result := stripped s.expandedText
  ({ s with
    buffer := emptyBuffer
    pastes := OrderedMap.empty
    pasteCounter := 0
    undoStack := []
    submitted := s.submitted ++ [result] }).exitHistoryBrowsing.forget

/-- Take a paste out of the registry and shift the higher ids down, in ascending order. -/
def removePaste (targetId : ℕ) (pastes : OrderedMap ℕ Text) : OrderedMap ℕ Text :=
  let rest := pastes.erase targetId
  let higherIds := (rest.keys.filter (targetId < ·)).insertionSort (· ≤ ·)
  higherIds.foldl (fun shifted pasteId =>
    match shifted.get? pasteId with
    | some content => (shifted.erase pasteId).set (pasteId - 1) content
    | none => shifted) rest

/-- The segment that ends at the cursor. -/
def State.lastGrapheme (metrics : Metrics) (s : State) : Option Segment :=
  (s.graphemes metrics s.buffer.before).getLast?

def graphemeLength (seg : Option Segment) : ℕ := (seg.map fun seg => seg.segment.length).getD 1

/-- The id of the marker that ends at the cursor. -/
def State.markerBefore (metrics : Metrics) (s : State) : Option ℕ :=
  ((s.lastGrapheme metrics).bind fun seg => singleMarker seg.segment).map Marker.id

/-- What deleting a marker does to the registry and to the other markers. -/
def State.unregister (s : State) (targetId : ℕ) : State :=
  { s with
    pastes := removePaste targetId s.pastes
    pasteCounter := s.pasteCounter - 1
    buffer := { s.buffer with lines := s.buffer.lines.map (renumber targetId) } }

def State.handleBackspace (metrics : Metrics) (s : State) : State :=
  let s := s.exitHistoryBrowsing.forget
  if 0 < s.buffer.cursorCol then
    let s := s.pushUndoSnapshot
    let length := graphemeLength (s.lastGrapheme metrics)
    let s := match s.markerBefore metrics with
      | some targetId => s.unregister targetId
      | none => s
    let b := s.buffer
    s.edit { b.setCurrent (upTo (b.cursorCol - length) b.currentLine ++ b.after) with
      cursorCol := b.cursorCol - length }
  else if 0 < s.buffer.cursorLine then s.pushUndoSnapshot.edit s.buffer.mergePrevious
  else s

/-- Put a deleted text into the kill ring. -/
def State.kill (s : State) (text : Text) (prepend accumulate : Bool) : State :=
  ({ s with killRing := killRingPush s.killRing text prepend accumulate }).act .kill

def State.killNewline (s : State) (prepend : Bool) : State :=
  s.kill ['\n'] prepend (s.lastAction = some .kill)

def State.deleteToStartOfLine (s : State) : State :=
  let s := s.exitHistoryBrowsing
  let b := s.buffer
  if 0 < b.cursorCol then
    (s.pushUndoSnapshot.kill b.before true (s.lastAction = some .kill)).edit
      { b.setCurrent b.after with cursorCol := 0 }
  else if 0 < b.cursorLine then (s.pushUndoSnapshot.killNewline true).edit b.mergePrevious
  else s

/-- The columns that vertical movement remembers stay as they are. -/
def State.deleteToEndOfLine (s : State) : State :=
  let s := s.exitHistoryBrowsing
  let b := s.buffer
  if b.cursorCol < b.currentLine.length then
    { s.pushUndoSnapshot.kill b.after false (s.lastAction = some .kill) with
      buffer := b.setCurrent b.before }
  else if b.cursorLine < b.lines.length - 1 then
    { s.pushUndoSnapshot.killNewline false with buffer := b.mergeNext }
  else s

def State.handleForwardDelete (metrics : Metrics) (s : State) : State :=
  let s := s.exitHistoryBrowsing.forget
  let b := s.buffer
  if b.cursorCol < b.currentLine.length then
    let length := graphemeLength (s.graphemes metrics b.after).head?
    { s.pushUndoSnapshot with
      buffer := b.setCurrent (b.before ++ onward (b.cursorCol + length) b.currentLine) }
  else if b.cursorLine < b.lines.length - 1 then { s.pushUndoSnapshot with buffer := b.mergeNext }
  else s

/-- `_insert_yanked_text`. -/
def Buffer.insertYanked (b : Buffer) (text : Text) : Buffer :=
  let lines := splitLines text
  if lines.length = 1 then
    { b.setCurrent (b.before ++ (text ++ b.after)) with cursorCol := b.cursorCol + text.length }
  else
    let last := lines.getLast?.getD []
    let first := setLine b.lines b.cursorLine (b.before ++ lines.head?.getD [])
    let middle := (lines.dropLast.drop 1).foldl (fun (placed : List Text × ℤ) line =>
      (insertLine placed.1 placed.2 line, placed.2 + 1)) (first, b.cursorLine + 1)
    let lastLineIndex := b.cursorLine + lines.length - 1
    { lines := insertLine middle.1 lastLineIndex (last ++ b.after)
      cursorLine := lastLineIndex
      cursorCol := last.length }

def State.insertYankedText (s : State) (text : Text) : State :=
  let s := s.exitHistoryBrowsing
  s.edit (s.buffer.insertYanked text)

/-- `_delete_yanked_text`. -/
def Buffer.deleteYanked (b : Buffer) (yankedText : Text) : Buffer :=
  let yankLines := splitLines yankedText
  if yankLines.length = 1 then
    { b.setCurrent (upTo (b.cursorCol - yankedText.length) b.currentLine ++ b.after) with
      cursorCol := b.cursorCol - yankedText.length }
  else
    let startLine := b.cursorLine - (yankLines.length - 1)
    let startCol : ℤ := (lineAt b.lines startLine).length - (yankLines.head?.getD []).length
    { lines := b.lines.take (sliceIndex b.lines.length startLine) ++
        (upTo startCol (lineAt b.lines startLine) ++ b.after) ::
          b.lines.drop (sliceIndex b.lines.length (startLine + yankLines.length))
      cursorLine := startLine
      cursorCol := startCol }

def State.deleteYankedText (s : State) : State :=
  match s.killRing.getLast? with
  | some yankedText => if yankedText = [] then s else s.edit (s.buffer.deleteYanked yankedText)
  | none => s

def State.yank (s : State) : State :=
  match s.killRing.getLast? with
  | some text => (s.pushUndoSnapshot.insertYankedText text).act .yank
  | none => s

def State.yankPop (s : State) : State :=
  if s.lastAction ≠ some .yank ∨ s.killRing.length ≤ 1 then s
  else
    let s := s.pushUndoSnapshot.deleteYankedText
    let s := { s with killRing := killRingRotate s.killRing }
    (s.insertYankedText (s.killRing.getLast?.getD [])).act .yank

/-- The column that a snapped cursor came from stays as it is. -/
def State.undo (s : State) : State :=
  let s := s.exitHistoryBrowsing
  match s.undoStack with
  | [] => s
  | snapshot :: rest =>
    { s with
      undoStack := rest
      buffer := snapshot.state
      pastes := snapshot.pastes
      pasteCounter := snapshot.pasteCounter
      lastAction := none
      preferredVisualCol := none }

def State.addToHistory (s : State) (text : Text) : State :=
  let trimmed := stripped text
  if trimmed = [] ∨ s.history.head? = some trimmed then s
  else { s with history := (trimmed :: s.history).take 100 }

/-- `_navigate_history`; up is `-1`. -/
def State.navigateHistory (s : State) (direction : ℤ) : State :=
  let s := s.forget
  if s.history = [] then s
  else
    let newIndex := s.historyIndex - direction
    if newIndex < -1 ∨ s.history.length ≤ newIndex then s
    else
      let s := if s.historyIndex = -1 ∧ 0 ≤ newIndex then
        { s.pushUndoSnapshot with historyDraft := some s.buffer } else s
      let s := { s with historyIndex := newIndex }
      if newIndex = -1 then
        match s.historyDraft with
        | some draft => ({ s with historyDraft := none }).edit draft
        | none => s.setTextInternal [] false
      else s.setTextInternal (s.history[newIndex.toNat]?.getD []) (direction = -1)

end Pidrei.Editor
