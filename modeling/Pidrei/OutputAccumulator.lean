import Pidrei.Library.Utf8
import Pidrei.Truncate

/-!
The accumulator of streamed output. Chunks are decoded as they come; a tail of the
text is kept for display, cut to its last bytes when it has grown to twice their
number, and lines and bytes are counted on the way.
-/
namespace Pidrei.OutputAccumulator

open Truncate

/-- `decoder` is the bytes that the incremental decoder holds back, `tempFile` the chunks
written to the temp file once there is one. -/
structure Accumulator where
  maxLines : ℤ
  maxBytes : ℤ
  decoder : List UInt8
  rawChunks : List (List UInt8)
  tailText : List Char
  tailBytes : ℕ
  tailStartsAtLineBoundary : Bool
  totalRawBytes : ℕ
  totalDecodedBytes : ℕ
  completedLines : ℕ
  totalLines : ℕ
  currentLineBytes : ℕ
  hasOpenLine : Bool
  finished : Bool
  tempFile : Option (List (List UInt8))

def create (maxLines maxBytes : Option ℤ) : Accumulator where
  maxLines := maxLines.getD defaultMaxLines
  maxBytes := maxBytes.getD defaultMaxBytes
  decoder := []
  rawChunks := []
  tailText := []
  tailBytes := 0
  tailStartsAtLineBoundary := true
  totalRawBytes := 0
  totalDecodedBytes := 0
  completedLines := 0
  totalLines := 0
  currentLineBytes := 0
  hasOpenLine := false
  finished := false
  tempFile := none

def byteLength (text : List Char) : ℕ := (Utf8.encode text).length

def maxRollingBytes (s : Accumulator) : ℤ := max (s.maxBytes * 2) 1

def trimTail (s : Accumulator) : Accumulator :=
  let buffer := Utf8.encode s.tailText
  if buffer.length ≤ maxRollingBytes s then { s with tailBytes := buffer.length }
  else
    let start := Utf8.boundary buffer (buffer.length - (maxRollingBytes s).toNat)
    let tailText := Utf8.decodeReplace (buffer.drop start)
    { s with
      tailStartsAtLineBoundary :=
        if start = 0 then s.tailStartsAtLineBoundary else buffer[start - 1]? = some 0x0A
      tailText
      tailBytes := byteLength tailText }

/-- `text[text.rfind("\n") + 1 :]`. -/
def afterLastNewline (text : List Char) : List Char :=
  (text.reverse.takeWhile (· ≠ '\n')).reverse

/-- The tail part of `_append_decoded_text`. -/
def extendTail (s : Accumulator) (text : List Char) : Accumulator :=
  let s := { s with
    totalDecodedBytes := s.totalDecodedBytes + byteLength text
    tailText := s.tailText ++ text
    tailBytes := s.tailBytes + byteLength text }
  if maxRollingBytes s * 2 < s.tailBytes then trimTail s else s

/-- The counting part of `_append_decoded_text`. -/
def countLines (s : Accumulator) (text : List Char) : Accumulator :=
  let newlines := text.count '\n'
  let s :=
    if newlines = 0 then
      { s with currentLineBytes := s.currentLineBytes + byteLength text, hasOpenLine := true }
    else
      let tail := afterLastNewline text
      { s with
        completedLines := s.completedLines + newlines
        currentLineBytes := byteLength tail
        hasOpenLine := tail ≠ [] }
  { s with totalLines := s.completedLines + if s.hasOpenLine then 1 else 0 }

def appendDecodedText (s : Accumulator) (text : List Char) : Accumulator :=
  if text = [] then s else countLines (extendTail s text) text

def shouldUseTempFile (s : Accumulator) : Bool :=
  s.maxBytes < s.totalRawBytes || s.maxBytes < s.totalDecodedBytes || s.maxLines < s.totalLines

def ensureTempFile (s : Accumulator) : Accumulator :=
  match s.tempFile with
  | some _ => s
  | none => { s with tempFile := some s.rawChunks, rawChunks := [] }

/-- The end of `append`: the raw chunk goes to the temp file or waits for one. -/
def keepChunk (s : Accumulator) (data : List UInt8) : Accumulator :=
  if s.tempFile.isSome || shouldUseTempFile s then
    let s := ensureTempFile s
    { s with tempFile := s.tempFile.map (· ++ [data]) }
  else if data ≠ [] then { s with rawChunks := s.rawChunks ++ [data] }
  else s

def append (s : Accumulator) (data : List UInt8) : Except String Accumulator :=
  if s.finished then .error "Cannot append to a finished output accumulator"
  else
    let (text, decoder) := Incremental.drain Utf8.replaceStep (s.decoder ++ data)
    let s := { s with totalRawBytes := s.totalRawBytes + data.length, decoder }
    .ok (keepChunk (appendDecodedText s text) data)

def finish (s : Accumulator) : Accumulator :=
  if s.finished then s
  else
    let text := Utf8.decodeReplace s.decoder
    let s := appendDecodedText { s with finished := true, decoder := [] } text
    if shouldUseTempFile s then ensureTempFile s else s

def getSnapshotText (s : Accumulator) : List Char :=
  if s.tailStartsAtLineBoundary then s.tailText
  else
    match s.tailText.idxOf? '\n' with
    | none => s.tailText
    | some firstNewline => s.tailText.drop (firstNewline + 1)

def snapshot (s : Accumulator) (persistIfTruncated : Bool) : TruncationResult × Accumulator :=
  let tailTruncation := truncateTail (codePoints (getSnapshotText s)) s.maxLines s.maxBytes
  let truncated : Bool := s.maxLines < s.totalLines || s.maxBytes < s.totalDecodedBytes
  let truncatedBy :=
    if truncated then
      some (tailTruncation.truncatedBy.getD
        (if s.maxBytes < s.totalDecodedBytes then .bytes else .lines))
    else none
  let truncation := { tailTruncation with
    truncated
    truncatedBy
    totalLines := s.totalLines
    totalBytes := s.totalDecodedBytes
    maxLines := s.maxLines
    maxBytes := s.maxBytes }
  (truncation, if persistIfTruncated && truncated then ensureTempFile s else s)

/-- The chunks in their order, then `finish`. -/
def stream (s : Accumulator) (chunks : List (List UInt8)) : Except String Accumulator :=
  (chunks.foldlM append s).map finish

end Pidrei.OutputAccumulator
