import Mathlib.Algebra.GroupWithZero.Nat
import Pidrei.Editor

/-!
The operations that move the cursor: vertical movement over visual lines with a
sticky column and with markers kept whole, movement by graphemes and by words, jumps
to a character, and the kills that go to a word boundary.
-/
namespace Pidrei.Editor

open PythonText

/-- `_build_visual_line_map(_last_width)`; `none` where it raises. -/
def State.visualLines (metrics : Metrics) (s : State) : Option (List VisualLine) :=
  buildVisualLineMap metrics s.validPasteIds s.lastWidth 0 s.buffer.lines

def State.findCurrentVisualLine (s : State) (visualLines : List VisualLine) : ℕ :=
  findVisualLineAt s.buffer.cursorLine s.buffer.cursorCol visualLines

def startColAt (visualLines : List VisualLine) (index : ℕ) : ℕ :=
  (visualLines[index]?.map VisualLine.startCol).getD 0

/-- The visual column that a vertical move starts from; a snapped cursor counts from the place
it came from. -/
def State.currentVisualCol (s : State) (visualLines : List VisualLine) (currentVl : VisualLine) : ℤ :=
  match s.snappedFromCursorCol with
  | some col => col - startColAt visualLines (findVisualLineAt currentVl.logicalLine col visualLines)
  | none => s.buffer.cursorCol - currentVl.startCol

/-- The last column of a visual line that a vertical move uses. -/
def maxVisualCol (visualLines : List VisualLine) (index : ℕ) (vl : VisualLine) : ℤ :=
  if isLastSegment vl (visualLines.drop (index + 1)) then vl.length else max 0 (vl.length - 1 : ℤ)

/-- `_compute_vertical_move_column`: the preferred column from now on, and the column to move
to. -/
def computeVerticalMoveColumn (preferred : Option ℤ)
    (currentVisualCol sourceMaxVisualCol targetMaxVisualCol : ℤ) : Option ℤ × ℤ :=
  let cursorInMiddle := currentVisualCol < sourceMaxVisualCol
  let targetTooShort := targetMaxVisualCol < currentVisualCol
  match preferred with
  | none =>
    if targetTooShort then (some currentVisualCol, targetMaxVisualCol) else (none, currentVisualCol)
  | some column =>
    if cursorInMiddle then
      if targetTooShort then (some currentVisualCol, targetMaxVisualCol) else (none, currentVisualCol)
    else if targetTooShort ∨ targetMaxVisualCol < column then (some column, targetMaxVisualCol)
    else (none, column)

def State.land (s : State) (visualLines : List VisualLine) (current target : ℕ)
    (currentVl targetVl : VisualLine) : State :=
  let moved := computeVerticalMoveColumn s.preferredVisualCol
    (s.currentVisualCol visualLines currentVl) (maxVisualCol visualLines current currentVl)
    (maxVisualCol visualLines target targetVl)
  let logicalLine := lineAt s.buffer.lines targetVl.logicalLine
  { s with
    preferredVisualCol := moved.1
    buffer := { s.buffer with
      cursorLine := targetVl.logicalLine
      cursorCol := min (targetVl.startCol + moved.2) logicalLine.length } }

/-- The segment of more than one character that the column is in. -/
def atomicSegmentAt (col : ℤ) : List Segment → Option Segment
  | [] => none
  | seg :: rest =>
    if col < seg.index then none
    else if seg.segment.length ≤ 1 then atomicSegmentAt col rest
    else if col < seg.index + seg.segment.length then some seg
    else atomicSegmentAt col rest

def skipContinuation (visualLines : List VisualLine) (target : ℕ) (targetVl : VisualLine)
    (segEnd : ℕ) : ℕ :=
  target + 1 + ((visualLines.drop (target + 1)).takeWhile fun vl =>
    vl.logicalLine = targetVl.logicalLine && vl.startCol < segEnd).length

/-- `_move_to_visual_line`. It calls itself with a later target each time, so that `depth` may be
the number of visual lines. -/
def State.moveToVisualLine (metrics : Metrics) (visualLines : List VisualLine) (current : ℕ) :
    ℕ → ℕ → State → State
  | 0, _, s => s
  | depth + 1, target, s =>
    match visualLines[current]?, visualLines[target]? with
    | some currentVl, some targetVl =>
      let s := s.land visualLines current target currentVl targetVl
      match atomicSegmentAt s.buffer.cursorCol (s.graphemes metrics s.buffer.currentLine) with
      | some seg =>
        let next := skipContinuation visualLines target targetVl (seg.index + seg.segment.length)
        if seg.index < targetVl.startCol ∧ current < target ∧ next < visualLines.length then
          s.moveToVisualLine metrics visualLines current depth next
        else
          { s with
            snappedFromCursorCol := some s.buffer.cursorCol
            buffer := { s.buffer with cursorCol := seg.index } }
      | none => { s with snappedFromCursorCol := none }
    | _, _ => s

/-- A vertical move to the visual line that `target` gives for the current one; without visual
lines the editor raises. -/
def State.moveVertically (metrics : Metrics) (s : State) (target : List VisualLine → ℕ → ℤ) : State :=
  let s := s.forget
  match s.visualLines metrics with
  | some visualLines =>
    let current := s.findCurrentVisualLine visualLines
    let goal := target visualLines current
    if 0 ≤ goal then
      s.moveToVisualLine metrics visualLines current visualLines.length goal.toNat
    else s
  | none => s

def rowTarget (delta : ℤ) (_ : List VisualLine) (current : ℕ) : ℤ := current + delta

/-- `_move_cursor(delta, 0)`. -/
def State.moveCursorVertically (metrics : Metrics) (s : State) (delta : ℤ) : State :=
  s.moveVertically metrics (rowTarget delta)

def pageSize (terminalRows : ℕ) : ℕ := max 5 (terminalRows * 3 / 10)

def pageTarget (terminalRows : ℕ) (direction : ℤ) (visualLines : List VisualLine) (current : ℕ) : ℤ :=
  max 0 (min (visualLines.length - 1) (current + direction * pageSize terminalRows))

/-- `_page_scroll`. -/
def State.pageScroll (metrics : Metrics) (s : State) (direction : ℤ) : State :=
  s.moveVertically metrics (pageTarget s.terminalRows direction)

def State.moveToLineStart (s : State) : State := s.forget.setCursorCol 0

def State.moveToLineEnd (s : State) : State :=
  s.forget.setCursorCol s.buffer.currentLine.length

def State.goTo (s : State) (line col : ℤ) : State :=
  s.edit { s.buffer with cursorLine := line, cursorCol := col }

/-- `_move_cursor(0, 1)`. -/
def State.moveRight (metrics : Metrics) (s : State) : State :=
  let s := s.forget
  match s.visualLines metrics with
  | some visualLines =>
    let b := s.buffer
    if b.cursorCol < b.currentLine.length then
      s.setCursorCol (b.cursorCol + graphemeLength (s.graphemes metrics b.after).head?)
    else if b.cursorLine < b.lines.length - 1 then s.goTo (b.cursorLine + 1) 0
    else
      match visualLines[s.findCurrentVisualLine visualLines]? with
      | some currentVl => { s with preferredVisualCol := some (b.cursorCol - currentVl.startCol) }
      | none => s
  | none => s

/-- `_move_cursor(0, -1)`. -/
def State.moveLeft (metrics : Metrics) (s : State) : State :=
  let s := s.forget
  match s.visualLines metrics with
  | some _ =>
    let b := s.buffer
    if 0 < b.cursorCol then
      s.setCursorCol (b.cursorCol - graphemeLength (s.lastGrapheme metrics))
    else if 0 < b.cursorLine then
      s.goTo (b.cursorLine - 1) (lineAt b.lines (b.cursorLine - 1)).length
    else s
  | none => s

/-- `PUNCTUATION_REGEX`. -/
def isPunctuation (c : Char) : Bool := c ∈ "()\x7b\x7d[]<>.,;:'\"!?+-=*/\\|&%^$#@~`".toList

def isBlank (seg : Segment) : Bool := !isPasteMarker seg.segment && isWhitespaceChar seg.segment

/-- A segment of a run that is neither word nor whitespace. -/
def isSeparator (seg : Segment) : Bool :=
  !isPasteMarker seg.segment && !seg.isWordLike && !isWhitespaceChar seg.segment

def totalLength (segments : List Segment) : ℕ := (segments.map fun seg => seg.segment.length).sum

/-- How far a word move goes over segments that are listed in its direction; `value` turns the
text of a segment into that direction. -/
def wordDistance (value : Text → Text) (segments : List Segment) : ℕ :=
  let blanks := segments.takeWhile isBlank
  let rest := segments.dropWhile isBlank
  totalLength blanks +
    match rest.head? with
    | none => 0
    | some seg =>
      if isPasteMarker seg.segment then seg.segment.length
      else if seg.isWordLike then
        ((value seg.segment).takeWhile fun c => !isPunctuation c).length
      else totalLength (rest.takeWhile isSeparator)

def findWordBackward (cursor : ℤ) (segments : List Segment) : ℤ :=
  if cursor ≤ 0 then 0 else cursor - wordDistance List.reverse segments.reverse

def findWordForward (text : Text) (cursor : ℤ) (segments : List Segment) : ℤ :=
  if text.length ≤ cursor then text.length else cursor + wordDistance id segments

def State.moveWordBackwards (metrics : Metrics) (s : State) : State :=
  let s := s.forget
  let b := s.buffer
  if b.cursorCol = 0 then
    if 0 < b.cursorLine then s.goTo (b.cursorLine - 1) (lineAt b.lines (b.cursorLine - 1)).length
    else s
  else s.setCursorCol (findWordBackward b.cursorCol (s.words metrics b.before))

def State.moveWordForwards (metrics : Metrics) (s : State) : State :=
  let s := s.forget
  let b := s.buffer
  if b.currentLine.length ≤ b.cursorCol then
    if b.cursorLine < b.lines.length - 1 then s.goTo (b.cursorLine + 1) 0 else s
  else s.setCursorCol (findWordForward b.currentLine b.cursorCol (s.words metrics b.after))

def State.deleteWordBackwards (metrics : Metrics) (s : State) : State :=
  let s := s.exitHistoryBrowsing
  let b := s.buffer
  if b.cursorCol = 0 then
    if 0 < b.cursorLine then (s.pushUndoSnapshot.killNewline true).edit b.mergePrevious else s
  else
    let deleteFrom := (s.moveWordBackwards metrics).buffer.cursorCol
    let deleted := slice b.currentLine deleteFrom b.cursorCol
    (s.pushUndoSnapshot.kill deleted true (s.lastAction = some .kill)).edit
      { b.setCurrent (upTo deleteFrom b.currentLine ++ b.after) with cursorCol := deleteFrom }

/-- Merging with the next line leaves the remembered columns as they are. -/
def State.deleteWordForward (metrics : Metrics) (s : State) : State :=
  let s := s.exitHistoryBrowsing
  let b := s.buffer
  if b.currentLine.length ≤ b.cursorCol then
    if b.cursorLine < b.lines.length - 1 then
      { s.pushUndoSnapshot.killNewline false with buffer := b.mergeNext }
    else s
  else
    let deleteTo := (s.moveWordForwards metrics).buffer.cursorCol
    let deleted := slice b.currentLine b.cursorCol deleteTo
    (s.pushUndoSnapshot.kill deleted false (s.lastAction = some .kill)).edit
      (b.setCurrent (b.before ++ onward deleteTo b.currentLine))

/-- `line.find(char, start)`. -/
def findAfter (char line : Text) (start : ℕ) : Option ℕ :=
  if start ≤ line.length then (TextSearch.find char (line.drop start)).map (· + start) else none

/-- `line.rfind(char, 0, stop)`. -/
def findBefore (char line : Text) (stop : ℕ) : Option ℕ :=
  let searched := line.take stop
  ((List.range (searched.length + 1)).reverse).find? fun i => char.isPrefixOf (searched.drop i)

/-- `_jump_to_char`. -/
def State.jumpToChar (s : State) (char : Text) (direction : Direction) : State :=
  let s := s.forget
  let lines := s.buffer.lines
  let current := s.buffer.cursorLine.toNat
  let column := s.buffer.cursorCol
  let place : Option (ℕ × ℕ) := match direction with
    | .forward => ((List.range lines.length).drop current).findSome? fun (i : ℕ) =>
        (findAfter char (lineAt lines i) (if i = current then (column + 1).toNat else 0)).map (i, ·)
    | .backward => ((List.range (current + 1)).reverse).findSome? fun (i : ℕ) =>
        (findBefore char (lineAt lines i)
          (if i = current then (max 0 (column - 1) + 1).toNat else (lineAt lines i).length)).map (i, ·)
  match place with
  | some (line, col) => s.goTo line col
  | none => s

end Pidrei.Editor
