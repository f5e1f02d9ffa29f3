import Pidrei.PasteMarkers

/-!
How the editor lays its lines out: segments with the markers kept whole, the
word-aware wrapping of a line, and the map from visual lines to places in the text.
-/
namespace Pidrei.Editor

open PythonText

/-- A segmentation of texts that loses nothing. The flag says whether a piece is word-like. -/
structure Segmenter where
  pieces : Text → List (Text × Bool)
  joined : ∀ text, ((pieces text).map Prod.fst).flatten = text
  nonempty : ∀ text, ∀ piece ∈ pieces text, piece.1 ≠ []

/-- Add to each piece the position where it begins. -/
def records : ℕ → List (Text × Bool) → List Segment
  | _, [] => []
  | index, (piece, isWordLike) :: rest =>
    ⟨piece, index, isWordLike⟩ :: records (index + piece.length) rest

def Segmenter.segment (base : Segmenter) (text : Text) : List Segment := records 0 (base.pieces text)

/-- What the layout asks of its surroundings. -/
structure Metrics where
  visibleWidth : Text → ℕ
  graphemes : Segmenter
  words : Segmenter
  recursionLimit : ℕ

def isWhitespaceChar (char : Text) : Bool := char.any isSpace

/-- `cjk_break_regex`, as ranges. -/
def cjkBreakRanges : List (ℕ × ℕ) :=
  [(0x1100, 0x11FF), (0x2E80, 0x2FDF), (0x3000, 0x303F), (0x3041, 0x30FF), (0x3100, 0x312F),
    (0x3130, 0x318F), (0x31A0, 0x31BF), (0x31C0, 0x31EF), (0x31F0, 0x31FF), (0x3200, 0x33FF),
    (0x3400, 0x4DBF), (0x4E00, 0x9FFF), (0xA960, 0xA97F), (0xAC00, 0xD7FF), (0xF900, 0xFAFF),
    (0xFE30, 0xFE4F), (0xFF66, 0xFF9F), (0xFFA0, 0xFFDC), (0x20000, 0x3FFFF)]

def hasCjkBreak (char : Text) : Bool :=
  char.any fun c => cjkBreakRanges.any fun range => range.1 ≤ c.toNat && c.toNat ≤ range.2

structure Chunk where
  text : Text
  startIndex : ℕ
  endIndex : ℕ

def chunk (line : Text) (startIndex endIndex : ℕ) : Chunk :=
  ⟨(line.take endIndex).drop startIndex, startIndex, endIndex⟩

/-- The variables of the wrapping loop; `wrapOpp` is the wrap opportunity and the width there. -/
structure Wrap where
  chunks : List Chunk
  currentWidth : ℕ
  chunkStart : ℕ
  wrapOpp : Option (ℕ × ℕ)

/-- Break at the current position, unless the chunk is empty. -/
def forceBreak (line : Text) (charIndex : ℕ) (w : Wrap) : Wrap :=
  if w.chunkStart < charIndex then
    ⟨w.chunks ++ [chunk line w.chunkStart charIndex], 0, charIndex, none⟩
  else { w with wrapOpp := none }

/-- The overflow check before a segment. -/
def breakBefore (line : Text) (maxWidth gWidth charIndex : ℕ) (w : Wrap) : Wrap :=
  if maxWidth < w.currentWidth + gWidth then
    match w.wrapOpp with
    | some (index, width) =>
      if w.currentWidth - width + gWidth ≤ maxWidth then
        ⟨w.chunks ++ [chunk line w.chunkStart index], w.currentWidth - width, index, none⟩
      else forceBreak line charIndex w
    | none => forceBreak line charIndex w
  else w

def canBreak (seg next : Segment) : Bool :=
  let isWs := !isPasteMarker seg.segment && isWhitespaceChar seg.segment
  let isCjk := !isPasteMarker seg.segment && hasCjkBreak seg.segment
  let nextIsCjk := !isPasteMarker next.segment && hasCjkBreak next.segment
  if isWs && (isPasteMarker next.segment || !isWhitespaceChar next.segment) then true
  else !isWs && !isWhitespaceChar next.segment && (isCjk || nextIsCjk)

def noteOpportunity (seg : Segment) (rest : List Segment) (w : Wrap) : Wrap :=
  match rest.head? with
  | some next => if canBreak seg next then { w with wrapOpp := some (next.index, w.currentWidth) } else w
  | none => w

/-- Put in the chunks of a segment that is wider than a line; the last one stays open. -/
def rewrap (visibleWidth : Text → ℕ) (charIndex : ℕ) (subChunks : List Chunk) (w : Wrap) : Wrap :=
  let last := subChunks.getLast?.getD ⟨[], 0, 0⟩
  { chunks := w.chunks ++ subChunks.dropLast.map fun sc =>
      ⟨sc.text, charIndex + sc.startIndex, charIndex + sc.endIndex⟩
    currentWidth := visibleWidth last.text
    chunkStart := charIndex + last.startIndex
    wrapOpp := none }

/-- The wrapping loop; `inner` wraps a segment that is wider than a line. -/
def wrapSegments (visibleWidth : Text → ℕ) (inner : Text → Option (List Chunk)) (line : Text)
    (maxWidth : ℕ) : Wrap → List Segment → Option Wrap
  | w, [] => some w
  | w, seg :: rest =>
    let gWidth := visibleWidth seg.segment
    let broken := breakBefore line maxWidth gWidth seg.index w
    if maxWidth < gWidth then
      (inner seg.segment).bind fun subChunks =>
        wrapSegments visibleWidth inner line maxWidth
          (rewrap visibleWidth seg.index subChunks broken) rest
    else
      wrapSegments visibleWidth inner line maxWidth
        (noteOpportunity seg rest { broken with currentWidth := broken.currentWidth + gWidth }) rest

/-- `word_wrap_line`. It calls itself for a segment wider than a line, which fails when the calls
get too deep. -/
def wordWrapLine (metrics : Metrics) : ℕ → Text → ℕ → Option (List Segment) → Option (List Chunk)
  | 0, _, _, _ => none
  | depth + 1, line, maxWidth, preSegmented =>
    if line = [] ∨ maxWidth = 0 then some [⟨[], 0, 0⟩]
    else if metrics.visibleWidth line ≤ maxWidth then some [⟨line, 0, line.length⟩]
    else
      let segments := preSegmented.getD (metrics.graphemes.segment line)
      (wrapSegments metrics.visibleWidth (fun text => wordWrapLine metrics depth text maxWidth none)
        line maxWidth ⟨[], 0, 0, none⟩ segments).map fun w =>
          w.chunks ++ [chunk line w.chunkStart line.length]

structure VisualLine where
  logicalLine : ℕ
  startCol : ℕ
  length : ℕ

def visualLinesOf (metrics : Metrics) (validIds : List ℕ) (width logicalLine : ℕ) (line : Text) :
    Option (List VisualLine) :=
  if line.length = 0 then some [⟨logicalLine, 0, 0⟩]
  else if metrics.visibleWidth line ≤ width then some [⟨logicalLine, 0, line.length⟩]
  else
    (wordWrapLine metrics metrics.recursionLimit line width
      (some (segmentWithMarkers line metrics.graphemes.segment validIds))).map fun chunks =>
        chunks.map fun c => ⟨logicalLine, c.startIndex, c.endIndex - c.startIndex⟩

/-- `_build_visual_line_map`, from the given logical line on. -/
def buildVisualLineMap (metrics : Metrics) (validIds : List ℕ) (width : ℕ) :
    ℕ → List Text → Option (List VisualLine)
  | _, [] => some []
  | logicalLine, line :: rest => do
    let first ← visualLinesOf metrics validIds width logicalLine line
    let more ← buildVisualLineMap metrics validIds width (logicalLine + 1) rest
    some (first ++ more)

def isLastSegment (vl : VisualLine) (rest : List VisualLine) : Bool :=
  match rest.head? with
  | some next => next.logicalLine ≠ vl.logicalLine
  | none => true

def holdsPosition (line col : ℤ) (vl : VisualLine) (rest : List VisualLine) : Bool :=
  let offset := col - vl.startCol
  vl.logicalLine = line && 0 ≤ offset &&
    (offset < vl.length || (isLastSegment vl rest && offset = vl.length))

/-- `_find_visual_line_at`: the index of the first visual line with the position, or the last
index. -/
def findVisualLineAt (line col : ℤ) : List VisualLine → ℕ
  | [] => 0
  | vl :: rest =>
    if rest = [] ∨ holdsPosition line col vl rest = true then 0 else findVisualLineAt line col rest + 1

end Pidrei.Editor
