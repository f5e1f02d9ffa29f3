import Pidrei.AnsiCodeTracker
import Pidrei.GraphemeWidth

/-!
Cutting columns out of a line. Each walker takes a run of printable ASCII as one slice and
goes through other text cluster by cluster; `fast` says which runs it takes as one.
-/
namespace Pidrei.Tui.TerminalText

variable (u : UnicodeData) (fast : List Char → Bool)

/-- The characters of a run that begins in column `col`, from column `first` up to `last`. -/
def columnsOf (text : List Char) (col first last : ℤ) : List Char :=
  (text.take (last - col).toNat).drop (first - col).toNat

section Slices

structure Slice where
  result : List Char
  resultWidth : ℤ
  pendingAnsi : List Char

variable (startCol endCol : ℤ) (strict : Bool)

/-- Add text to the result, behind the codes that were held back for it. -/
def Slice.add (s : Slice) (text : List Char) (width : ℤ) : Slice :=
  { result := s.result ++ s.pendingAnsi ++ text, resultWidth := s.resultWidth + width,
    pendingAnsi := [] }

def sliceCode (s : Slice) (currentCol : ℤ) (code : List Char) : Slice :=
  if startCol ≤ currentCol ∧ currentCol < endCol then
    { s with result := s.result ++ (s.pendingAnsi ++ code), pendingAnsi := [] }
  else if currentCol < startCol then { s with pendingAnsi := s.pendingAnsi ++ code }
  else s

def sliceAscii (s : Slice) (currentCol : ℤ) (text : List Char) : Slice × ℤ :=
  let first := max startCol currentCol
  let last := min endCol (currentCol + text.length)
  (if first < last then s.add (columnsOf text currentCol first last) (last - first) else s, last)

def sliceSegments (s : Slice) (currentCol : ℤ) : List (List Char) → Slice × ℤ
  | [] => (s, currentCol)
  | segment :: rest =>
    let w : ℤ := u.graphemeWidth segment
    let inRange := startCol ≤ currentCol ∧ currentCol < endCol
    let fits := strict = false ∨ currentCol + w ≤ endCol
    let s := if inRange ∧ fits then s.add segment w else s
    if endCol ≤ currentCol + w then (s, currentCol + w)
    else sliceSegments s (currentCol + w) rest

def sliceTokens (s : Slice) (currentCol : ℤ) : List Token → Slice
  | [] => s
  | .code code :: rest => sliceTokens (sliceCode startCol endCol s currentCol code) currentCol rest
  | .text run :: rest =>
    let (s, currentCol) :=
      if fast run then sliceAscii startCol endCol s currentCol run
      else sliceSegments u startCol endCol strict s currentCol (u.graphemes run)
    if endCol ≤ currentCol then s else sliceTokens s currentCol rest

def sliceWith (line : List Char) (startCol length : ℤ) (strict : Bool) : List Char × ℤ :=
  if length ≤ 0 then ([], 0)
  else
    let s := sliceTokens u fast startCol (startCol + length) strict
      { result := [], resultWidth := 0, pendingAnsi := [] } 0 (tokens line)
    (s.result, s.resultWidth)

def sliceWithWidth (line : List Char) (startCol length : ℤ) (strict : Bool) : List Char × ℤ :=
  sliceWith u isPrintableAscii line startCol length strict

def sliceByColumn (line : List Char) (startCol length : ℤ) (strict : Bool) : List Char :=
  (sliceWithWidth u line startCol length strict).1

end Slices

section Segments

structure Segments where
  before : List Char
  beforeWidth : ℤ
  after : List Char
  afterWidth : ℤ
  deriving DecidableEq

structure SegmentState where
  segments : Segments
  pendingAnsiBefore : List Char
  afterStarted : Bool
  tracker : AnsiCodeTracker

variable (beforeEnd afterStart afterLen : ℤ) (strictAfter : Bool)

def SegmentState.addBefore (s : SegmentState) (text : List Char) (width : ℤ) : SegmentState :=
  { s with
    segments :=
      { s.segments with
        before := s.segments.before ++ s.pendingAnsiBefore ++ text
        beforeWidth := s.segments.beforeWidth + width }
    pendingAnsiBefore := [] }

/-- The first text behind the overlay inherits the styles from before it. -/
def SegmentState.addAfter (s : SegmentState) (text : List Char) (width : ℤ) : SegmentState :=
  let inherited := if s.afterStarted then [] else s.tracker.getActiveCodes
  { s with
    segments :=
      { s.segments with
        after := s.segments.after ++ inherited ++ text
        afterWidth := s.segments.afterWidth + width }
    afterStarted := true }

def segmentCode (s : SegmentState) (currentCol : ℤ) (code : List Char) : SegmentState :=
  let s := { s with tracker := s.tracker.process code }
  if currentCol < beforeEnd then { s with pendingAnsiBefore := s.pendingAnsiBefore ++ code }
  else if (afterStart ≤ currentCol ∧ currentCol < afterStart + afterLen) ∧
      (s.afterStarted ∨ [esc, '_'].isPrefixOf code) then
    { s with segments := { s.segments with after := s.segments.after ++ code } }
  else s

/-- The column behind which nothing is wanted. -/
def segmentLimit : ℤ := if afterLen ≤ 0 then beforeEnd else afterStart + afterLen

def segmentAscii (s : SegmentState) (currentCol : ℤ) (text : List Char) : SegmentState × ℤ :=
  let limit := segmentLimit beforeEnd afterStart afterLen
  let runEndCol := currentCol + min (text.length : ℤ) (max 0 (limit - currentCol))
  let beforeLast := min runEndCol beforeEnd
  let s :=
    if currentCol < beforeLast then
      s.addBefore (columnsOf text currentCol currentCol beforeLast) (beforeLast - currentCol)
    else s
  let afterFirst := max currentCol (max beforeEnd afterStart)
  let afterLast := min runEndCol (afterStart + afterLen)
  (if afterFirst < afterLast then
      s.addAfter (columnsOf text currentCol afterFirst afterLast) (afterLast - afterFirst)
    else s, runEndCol)

def segmentSegments (s : SegmentState) (currentCol : ℤ) : List (List Char) → SegmentState × ℤ
  | [] => (s, currentCol)
  | segment :: rest =>
    let w : ℤ := u.graphemeWidth segment
    let s :=
      if currentCol < beforeEnd ∧ currentCol + w ≤ beforeEnd then s.addBefore segment w
      else if (afterStart ≤ currentCol ∧ currentCol < afterStart + afterLen) ∧
          (strictAfter = false ∨ currentCol + w ≤ afterStart + afterLen) then
        s.addAfter segment w
      else s
    if segmentLimit beforeEnd afterStart afterLen ≤ currentCol + w then (s, currentCol + w)
    else segmentSegments s (currentCol + w) rest

def segmentTokens (s : SegmentState) (currentCol : ℤ) : List Token → SegmentState
  | [] => s
  | .code code :: rest =>
    segmentTokens (segmentCode beforeEnd afterStart afterLen s currentCol code) currentCol rest
  | .text run :: rest =>
    let (s, currentCol) :=
      if fast run then segmentAscii beforeEnd afterStart afterLen s currentCol run
      else
        segmentSegments u beforeEnd afterStart afterLen strictAfter s currentCol (u.graphemes run)
    if segmentLimit beforeEnd afterStart afterLen ≤ currentCol then s
    else segmentTokens s currentCol rest

def segmentsWith (line : List Char) : Segments :=
  (segmentTokens u fast beforeEnd afterStart afterLen strictAfter
    { segments := { before := [], beforeWidth := 0, after := [], afterWidth := 0 },
      pendingAnsiBefore := [], afterStarted := false, tracker := .clear } 0 (tokens line)).segments

/-- What stands before and behind an overlay. -/
def extractSegments (line : List Char) (beforeEnd afterStart afterLen : ℤ) (strictAfter : Bool) :
    Segments :=
  segmentsWith u isPrintableAscii beforeEnd afterStart afterLen strictAfter line

end Segments

section Cells

variable (column : ℤ)

def cellRangeSegments (currentCol : ℤ) : List (List Char) → Option (ℤ × ℤ) × ℤ
  | [] => (none, currentCol)
  | segment :: rest =>
    let width : ℤ := u.graphemeWidth segment
    if 0 < width ∧ currentCol ≤ column ∧ column < currentCol + width then
      (some (currentCol, currentCol + width), currentCol)
    else cellRangeSegments (currentCol + width) rest

def cellRangeAscii (currentCol : ℤ) (text : List Char) : Option (ℤ × ℤ) × ℤ :=
  if currentCol ≤ column ∧ column < currentCol + text.length then
    (some (column, column + 1), currentCol)
  else (none, currentCol + text.length)

def cellRangeTokens (currentCol : ℤ) : List Token → Option (ℤ × ℤ)
  | [] => none
  | .code _ :: rest => cellRangeTokens currentCol rest
  | .text run :: rest =>
    let (range, currentCol) :=
      if fast run then cellRangeAscii column currentCol run
      else cellRangeSegments u column currentCol (u.graphemes run)
    match range with
    | some range => some range
    | none => cellRangeTokens currentCol rest

def cellRangeWith (line : List Char) : Option (ℤ × ℤ) :=
  cellRangeTokens u fast column 0 (tokens line)

def getGraphemeCellRange (line : List Char) (column : ℤ) : Option (ℤ × ℤ) :=
  cellRangeWith u isPrintableAscii column line

end Cells

end Pidrei.Tui.TerminalText
