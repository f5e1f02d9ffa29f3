import Pidrei.Library.PythonText
import Pidrei.Library.Utf8

/-!
The decoder of server-sent events: the bytes of a response are decoded chunk by
chunk, cut into lines at CR, LF and CRLF, and the lines are collected into
events that a blank line ends.
-/
namespace Pidrei.SseDecoder

abbrev Line := List Char

structure ServerSentEvent where
  event : Option (List Char)
  data : List Char
  raw : List Line
  deriving DecidableEq

structure SseDecoderState where
  event : Option (List Char) := none
  data : List (List Char) := []
  raw : List Line := []

def flushSseEvent (state : SseDecoderState) : Option ServerSentEvent × SseDecoderState :=
  if (state.event.getD []).isEmpty && state.data.isEmpty then (none, state)
  else
    (some ⟨state.event, ['\n'].intercalate state.data, state.raw⟩, {})

def eventField : List Char := ['e', 'v', 'e', 'n', 't']

def dataField : List Char := ['d', 'a', 't', 'a']

/-- `value.removeprefix(" ")` -/
def removeSpace : List Char → List Char
  | ' ' :: value => value
  | value => value

def decodeSseLine (line : Line) (state : SseDecoderState) :
    Option ServerSentEvent × SseDecoderState :=
  if line.isEmpty then flushSseEvent state
  else
    let state := { state with raw := state.raw ++ [line] }
    if line.head? = some ':' then (none, state)
    else
      let fieldName := line.takeWhile (· ≠ ':')
      let value := removeSpace (line.dropWhile (· ≠ ':')).tail
      if fieldName = eventField then (none, { state with event := some value })
      else if fieldName = dataField then (none, { state with data := state.data ++ [value] })
      else (none, state)

def nextLineBreakIndex (text : List Char) : Option ℕ :=
  match text.idxOf? '\r', text.idxOf? '\n' with
  | none, newlineIndex => newlineIndex
  | some carriageReturnIndex, none => some carriageReturnIndex
  | some carriageReturnIndex, some newlineIndex => some (min carriageReturnIndex newlineIndex)

def consumeLine (text : List Char) : Option (Line × List Char) :=
  match nextLineBreakIndex text with
  | none => none
  | some lineBreakIndex =>
    let nextIndex :=
      if text[lineBreakIndex]? = some '\r' ∧ text[lineBreakIndex + 1]? = some '\n' then
        lineBreakIndex + 2
      else lineBreakIndex + 1
    some (text.take lineBreakIndex, text.drop nextIndex)

def decodeSseLines : List Line → SseDecoderState → List ServerSentEvent × SseDecoderState
  | [], state => ([], state)
  | line :: lines, state =>
    let (event, state) := decodeSseLine line state
    let (events, state) := decodeSseLines lines state
    (event.toList ++ events, state)

/-- The generator between two chunks; `yielded` holds the events it has yielded so far. -/
structure Iteration where
  decoder : List UInt8 := []
  buffer : List Char := []
  state : SseDecoderState := {}
  yielded : List ServerSentEvent := []

/-- `buffer += text` and the loop over the lines that the buffer now holds. -/
def consumeText (iteration : Iteration) (text : List Char) : Iteration :=
  let (lines, buffer) := Incremental.drain consumeLine (iteration.buffer ++ text)
  let (events, state) := decodeSseLines lines iteration.state
  { iteration with buffer, state, yielded := iteration.yielded ++ events }

def receive (iteration : Iteration) (chunk : List UInt8) : Iteration :=
  let (text, decoder) := Incremental.drain Utf8.replaceStep (iteration.decoder ++ chunk)
  consumeText { iteration with decoder } text

/-- What happens after the last chunk: the rest of the decoder, an unfinished line, and
an event that no blank line has ended. -/
def finish (iteration : Iteration) : List ServerSentEvent :=
  let iteration := consumeText iteration (Utf8.flushPending iteration.decoder)
  let (event, state) :=
    if iteration.buffer.isEmpty then (none, iteration.state)
    else decodeSseLine iteration.buffer iteration.state
  let (trailing, _) := flushSseEvent state
  iteration.yielded ++ event.toList ++ trailing.toList

def iterateSseMessages (body : List (List UInt8)) : List ServerSentEvent :=
  finish (body.foldl receive {})

end Pidrei.SseDecoder
