import Pidrei.Library.TextSearch
import Pidrei.Library.Terminal
import Mathlib.Data.Int.Notation

/-!
The renderer of the main screen. A frame is compared with the one before it, and only
the lines that changed are written, with cursor moves that are relative to the row
where the renderer takes the cursor to be. Frames hold no images.
-/
namespace Pidrei.MainScreen

open Terminal

abbrev Text := List Char

/-- `CURSOR_MARKER` -/
def cursorMarker : Text := "\x1b_pidrei:c\x07".toList

/-- `SEGMENT_RESET` -/
def segmentReset : Text := "\x1b[0m\x1b]8;;\x07".toList

/-- `normalize_terminal_output`, `visible_width`, and the cells that a terminal fills. -/
structure Layout (α : Type*) where
  normalize : Text → Text
  visibleWidth : Text → ℕ
  blank : α
  cells : Text → List α
  length_cells : ∀ line, (cells line).length = visibleWidth line

structure Cursor where
  row : ℕ
  col : ℕ

/-- What `_compose_frame` has before it looks for the cursor. -/
structure Rendered where
  lines : List Text
  overlaysShown : Bool
  clearOnShrink : Bool
  showHardwareCursor : Bool

structure Frame where
  width : ℕ
  height : ℕ
  lines : List Text
  cursorPos : Option Cursor
  overlaysShown : Bool
  clearOnShrink : Bool
  showHardwareCursor : Bool

structure Renderer where
  previousLines : List Text
  previousWidth : ℕ
  previousHeight : ℕ
  hardwareCursorRow : ℕ
  maxLinesRendered : ℕ
  previousViewportTop : ℕ

def Renderer.start : Renderer := ⟨[], 0, 0, 0, 0, 0⟩

section Frames

variable {α : Type*} (layout : Layout α)

/-- `_extract_cursor_position`: the lowest marker among the rows that fit on the screen. -/
def extractCursorPosition (lines : List Text) (height : ℕ) : List Text × Option Cursor :=
  let rows := ((List.range lines.length).drop (lines.length - height)).reverse
  let found := rows.findSome? fun row =>
    (TextSearch.find cursorMarker (lines.getD row [])).map fun index => (row, index)
  match found with
  | some (row, index) =>
    let line := lines.getD row []
    (lines.set row (line.take index ++ line.drop (index + cursorMarker.length)),
      some ⟨row, layout.visibleWidth (line.take index)⟩)
  | none => (lines, none)

/-- `_compose_frame` -/
def composeFrame (width height : ℕ) (rendered : Rendered) : Frame where
  width := width
  height := height
  lines := (extractCursorPosition layout rendered.lines height).1
  cursorPos := (extractCursorPosition layout rendered.lines height).2
  overlaysShown := rendered.overlaysShown
  clearOnShrink := rendered.clearOnShrink
  showHardwareCursor := rendered.showHardwareCursor

/-- `_apply_line_resets` -/
def applyLineResets (lines : List Text) : List Text :=
  lines.map fun line => layout.normalize line ++ segmentReset

end Frames

/-- A move by rows, down where it is positive. -/
def moveRows (diff : ℤ) : List (Op Text) :=
  if 0 < diff then [Op.down diff.toNat] else if diff < 0 then [Op.up (-diff).toNat] else []

/-- `_position_hardware_cursor`: the row where the cursor is taken to be, and what is sent. -/
def positionHardwareCursor (hardwareCursorRow : ℕ) (cursorPos : Option Cursor) (totalLines : ℕ)
    (shown : Bool) : ℕ × List (Op Text) :=
  match cursorPos with
  | none => (hardwareCursorRow, [.resetMode 25])
  | some cursor =>
    if totalLines = 0 then (hardwareCursorRow, [.resetMode 25])
    else
      let targetRow := min cursor.row (totalLines - 1)
      (targetRow, moveRows (targetRow - hardwareCursorRow) ++
        [Op.column (cursor.col + 1), if shown then .setMode 25 else .resetMode 25])

/-- What the frame is written as. -/
inductive Plan
  /-- `full_render(clear)` -/
  | full (clear : Bool)
  /-- No changes -/
  | still
  /-- All changes are in deleted lines -/
  | deleted
  | changed (first last : ℕ)
  deriving DecidableEq

/-- The first and the last line that differ, the last one of the frame where lines are
appended. -/
def changedRange (old new : List Text) : Option (ℕ × ℕ) :=
  let changed := (List.range (max new.length old.length)).filter fun i =>
    old.getD i [] ≠ new.getD i []
  if old.length < new.length then some (changed.head?.getD old.length, new.length - 1)
  else match changed.head?, changed.getLast? with
    | some first, some last => some (first, last)
    | _, _ => none

/-- The branches of `_write_frame` up to the first write. -/
def plan (r : Renderer) (frame : Frame) (newLines : List Text) : Plan :=
  let widthChanged := r.previousWidth ≠ 0 ∧ r.previousWidth ≠ frame.width
  let heightChanged := r.previousHeight ≠ 0 ∧ r.previousHeight ≠ frame.height
  if r.previousLines = [] ∧ ¬ widthChanged ∧ ¬ heightChanged then .full false
  else if widthChanged then .full true
  else if heightChanged then .full true
  else if frame.clearOnShrink ∧ newLines.length < r.maxLinesRendered ∧ ¬ frame.overlaysShown then
    .full true
  else match changedRange r.previousLines newLines with
    | none => .still
    | some (first, last) =>
      if newLines.length ≤ first then
        if newLines.length - 1 < r.previousViewportTop then .full true
        else if frame.height < r.previousLines.length - newLines.length then .full true
        else .deleted
      else if first < r.previousViewportTop then .full true
      else .changed first last

/-- The lines from the top of the screen on. -/
def printLines : List Text → List (Op Text)
  | [] => []
  | line :: rest =>
    Op.text line :: rest.flatMap fun line => [Op.carriageReturn, Op.lineFeed] ++ [Op.text line]

def fullRender (r : Renderer) (frame : Frame) (newLines : List Text) (clear : Bool) :
    Renderer × List (Op Text) :=
  let positioned := positionHardwareCursor (newLines.length - 1) frame.cursorPos newLines.length
    frame.showHardwareCursor
  ({ previousLines := newLines
     previousWidth := frame.width
     previousHeight := frame.height
     hardwareCursorRow := positioned.1
     maxLinesRendered := if clear then newLines.length else max r.maxLinesRendered newLines.length
     previousViewportTop := max frame.height newLines.length - frame.height },
    [Op.setMode 2026] ++ (if clear then [Op.eraseScreen, Op.home, Op.eraseScrollback] else []) ++
      printLines newLines ++ [Op.resetMode 2026] ++ positioned.2)

def renderStill (r : Renderer) (frame : Frame) (newLines : List Text) :
    Renderer × List (Op Text) :=
  let positioned := positionHardwareCursor r.hardwareCursorRow frame.cursorPos newLines.length
    frame.showHardwareCursor
  ({ r with hardwareCursorRow := positioned.1, previousHeight := frame.height }, positioned.2)

/-- Clears rows one after another without scrolling. -/
def clearRows : ℕ → List (Op Text)
  | 0 => []
  | 1 => [.carriageReturn, .eraseLine]
  | count + 2 => [Op.carriageReturn, Op.eraseLine, Op.down 1] ++ clearRows (count + 1)

def renderDeleted (r : Renderer) (frame : Frame) (newLines : List Text) :
    Renderer × List (Op Text) :=
  let targetRow := newLines.length - 1
  let extraLines := r.previousLines.length - newLines.length
  let clearStartOffset := if newLines.length = 0 then 0 else 1
  let moveBack := extraLines - 1 + clearStartOffset
  let positioned := positionHardwareCursor targetRow frame.cursorPos newLines.length
    frame.showHardwareCursor
  ({ r with
     previousLines := newLines
     previousWidth := frame.width
     previousHeight := frame.height
     hardwareCursorRow := positioned.1 },
    [Op.setMode 2026] ++ moveRows (targetRow - r.hardwareCursorRow) ++ [Op.carriageReturn] ++
      (if 0 < extraLines ∧ 0 < clearStartOffset then [Op.down clearStartOffset] else []) ++
      clearRows extraLines ++ (if 0 < moveBack then [Op.up moveBack] else []) ++
      [Op.resetMode 2026] ++ positioned.2)

/-- Each line in a cleared row. -/
def rewriteLines : List Text → List (Op Text)
  | [] => []
  | line :: rest =>
    [Op.eraseLine, Op.text line] ++
      rest.flatMap fun line => [Op.carriageReturn, Op.lineFeed] ++ [Op.eraseLine, Op.text line]

/-- From the first changed line to the last; the lines in between are written again. Raises where
one of them is wider than the terminal. -/
def renderChanged {α : Type*} (layout : Layout α) (r : Renderer) (frame : Frame)
    (newLines : List Text) (first last : ℕ) : Option (Renderer × List (Op Text)) :=
  let appendStart := r.previousLines.length < newLines.length ∧
    first = r.previousLines.length ∧ 0 < first
  let viewportBottom := r.previousViewportTop + frame.height - 1
  let moveTargetRow := if appendStart then first - 1 else first
  let currentScreenRow := max 0 (min ((frame.height : ℤ) - 1)
    (r.hardwareCursorRow - r.previousViewportTop))
  let scroll := moveTargetRow - viewportBottom
  let toBottom : List (Op Text) :=
    if viewportBottom < moveTargetRow then
      moveRows (max 0 ((frame.height : ℤ) - 1 - currentScreenRow)) ++
        (List.replicate scroll [Op.carriageReturn, .lineFeed]).flatten
    else []
  let hardwareCursorRow := if viewportBottom < moveTargetRow then moveTargetRow
    else r.hardwareCursorRow
  let viewportTop := r.previousViewportTop + scroll
  let renderEnd := min last (newLines.length - 1)
  let rewritten := (newLines.drop first).take (renderEnd + 1 - first)
  let extraLines := r.previousLines.length - newLines.length
  let shrunk := newLines.length < r.previousLines.length
  let finalCursorRow := if shrunk then newLines.length - 1 else renderEnd
  let clearExtra : List (Op Text) :=
    if shrunk then
      moveRows ((newLines.length : ℤ) - 1 - renderEnd) ++
        (List.replicate extraLines [Op.carriageReturn, .lineFeed, .eraseLine]).flatten ++
        [Op.up extraLines]
    else []
  let positioned := positionHardwareCursor finalCursorRow frame.cursorPos newLines.length
    frame.showHardwareCursor
  if rewritten.any fun line => frame.width < layout.visibleWidth line then none
  else some
    ({ previousLines := newLines
       previousWidth := frame.width
       previousHeight := frame.height
       hardwareCursorRow := positioned.1
       maxLinesRendered := max r.maxLinesRendered newLines.length
       previousViewportTop := max viewportTop (finalCursorRow + 1 - frame.height) },
      [Op.setMode 2026] ++ toBottom ++ moveRows (moveTargetRow - hardwareCursorRow) ++
        (if appendStart then [Op.carriageReturn, Op.lineFeed] else [Op.carriageReturn]) ++
        rewriteLines rewritten ++ clearExtra ++ [Op.resetMode 2026] ++ positioned.2)

def render {α : Type*} (layout : Layout α) (r : Renderer) (frame : Frame) (newLines : List Text) :
    Plan → Option (Renderer × List (Op Text))
  | .full clear => some (fullRender r frame newLines clear)
  | .still => some (renderStill r frame newLines)
  | .deleted => some (renderDeleted r frame newLines)
  | .changed first last => renderChanged layout r frame newLines first last

/-- `_write_frame` -/
def writeFrame {α : Type*} (layout : Layout α) (r : Renderer) (frame : Frame) :
    Option (Renderer × List (Op Text)) :=
  let newLines := applyLineResets layout frame.lines
  render layout r frame newLines (plan r frame newLines)

end Pidrei.MainScreen
