import Pidrei.StdioFraming

/-!
The body of a response as server-sent events. Lines end in a newline; what the fields
say goes to the caller's callbacks as soon as their line has ended, and the data goes
there as an event when a blank line or the body's end dispatches it.
-/
namespace Pidrei.Mcp

/-- The exceptions, as far as the transport tells them apart. -/
inductive Failure
  | http (status : ℕ) (message : String)
  /-- A network failure: `http.TransportError` or `OSError`. -/
  | transport (message : String)
  | other (message : String)

def Failure.message : Failure → String
  | .http _ message | .transport message | .other message => message

structure SseEvent where
  data : List Char
  event : Option (List Char)
  id : Option (List Char)

/-- What the caller does on an event, an `id` field and a `retry` field. -/
structure SseCallbacks (σ : Type) where
  onEvent : SseEvent → σ → σ
  onId : List Char → σ → σ
  onRetry : ℕ → σ → σ

/-- The decoder between two chunks: the bytes of an unfinished character, the unfinished line and
the fields of the event so far. -/
structure SseDecoding where
  pending : List UInt8 := []
  buffered : List Char := []
  eventName : Option (List Char) := none
  eventId : Option (List Char) := none
  dataLines : List (List Char) := []
  dataBytes : ℕ := 0

/-- The decoder with the caller's state, and the exception that has ended it. -/
structure SseProgress (σ : Type) where
  decoding : SseDecoding
  state : σ
  failure : Option Failure

/-- A response body: its chunks, and the exception that breaks it after them. -/
structure Body where
  chunks : List Bytes
  failure : Option Failure

/-- `value or None`. -/
def nonEmpty (value : Option (List Char)) : Option (List Char) := value.filter (· ≠ [])

def exceedsLimit (limit : ℕ) : Failure := .other s!"MCP SSE event exceeds {limit} bytes"

def tooManyDigits (count : ℕ) : Failure :=
  .other s!"Exceeds the limit ({PythonText.maxStrDigits} digits) for integer string conversion: value has {count} digits; use sys.set_int_max_str_digits() to increase the limit"

section Consume

variable {σ : Type} (callbacks : SseCallbacks σ) (limit : ℕ)

def dispatch (p : SseProgress σ) : SseProgress σ :=
  let d := { p.decoding with eventName := none, eventId := none }
  if p.decoding.dataLines = [] then { p with decoding := d }
  else
    let event : SseEvent := {
      data := ['\n'].intercalate p.decoding.dataLines
      event := nonEmpty p.decoding.eventName
      id := nonEmpty p.decoding.eventId }
    { p with
      decoding := { d with dataLines := [], dataBytes := 0 }
      state := callbacks.onEvent event p.state }

/-- `value.removeprefix(" ")`. -/
def removeSpace (value : List Char) : List Char :=
  if value.head? = some ' ' then value.tail else value

/-- A line of data; the line ends between them count. -/
def addData (value : List Char) (p : SseProgress σ) : SseProgress σ :=
  let d := p.decoding
  let joins := if d.dataLines = [] then 0 else 1
  let dataBytes := d.dataBytes + (Utf8.encode value).length + joins
  if limit < dataBytes then { p with failure := some (exceedsLimit limit) }
  else { p with decoding := { d with dataBytes, dataLines := d.dataLines ++ [value] } }

/-- One field of the pending event. -/
def processField (field value : List Char) (p : SseProgress σ) : SseProgress σ :=
  let d := p.decoding
  if field = "data".toList then addData limit value p
  else if field = "event".toList then { p with decoding := { d with eventName := some value } }
  else if field = "id".toList && !value.contains (Char.ofNat 0) then
    { p with decoding := { d with eventId := some value }, state := callbacks.onId value p.state }
  else if field = "retry".toList && value ≠ [] && value.all Char.isDigit then
    if PythonText.maxStrDigits < value.length then { p with failure := some (tooManyDigits value.length) }
    else { p with state := callbacks.onRetry (PythonText.int value) p.state }
  else p

/-- After an exception nothing is read any more. -/
def processLine (p : SseProgress σ) (rawLine : List Char) : SseProgress σ :=
  if p.failure.isSome then p
  else
    let line := removeReturn rawLine
    if line = [] then dispatch callbacks p
    else if line.head? = some ':' then p
    else
      let value := (line.dropWhile (· ≠ ':')).tail
      processField callbacks limit (line.takeWhile (· ≠ ':')) (removeSpace value) p

def consumeChunk (p : SseProgress σ) (chunk : Bytes) : SseProgress σ :=
  if p.failure.isSome then p
  else
    let (text, pending) := Incremental.drain Utf8.replaceStep (p.decoding.pending ++ chunk)
    let lines := (p.decoding.buffered ++ text).splitOn '\n'
    let rest := lines.getLast?.getD []
    let q := lines.dropLast.foldl (processLine callbacks limit) p
    let q := { q with decoding := { q.decoding with pending, buffered := rest } }
    if q.failure.isNone && limit < (Utf8.encode rest).length then
      { q with failure := some (exceedsLimit limit) }
    else q

/-- The rest of the decoder, an unfinished line, and an event that no blank line has ended. -/
def finishBody (p : SseProgress σ) : SseProgress σ :=
  let rest := p.decoding.buffered ++ Utf8.flushPending p.decoding.pending
  let q := if rest = [] then p else processLine callbacks limit p rest
  if q.failure.isSome then q else dispatch callbacks q

/-- The caller's state afterwards, and the exception that is raised. -/
def consumeSseStream (body : Body) (state : σ) : σ × Option Failure :=
  let p := body.chunks.foldl (consumeChunk callbacks limit) ⟨{}, state, none⟩
  if p.failure.isSome then (p.state, p.failure)
  else
    match body.failure with
    | some failure => (p.state, some failure)
    | none =>
      let q := finishBody callbacks limit p
      (q.state, q.failure)

end Consume

section Kept

variable {σ : Type} {callbacks : SseCallbacks σ} {limit : ℕ}

structure SseCallbacks.Keeps (callbacks : SseCallbacks σ) (holds : σ → Prop) : Prop where
  onEvent : ∀ event state, holds state → holds (callbacks.onEvent event state)
  onId : ∀ value state, holds state → holds (callbacks.onId value state)
  onRetry : ∀ delay state, holds state → holds (callbacks.onRetry delay state)

variable {holds : σ → Prop} (h : callbacks.Keeps holds)
include h

variable {p : SseProgress σ}

theorem SseCallbacks.Keeps.dispatch (hp : holds p.state) : holds (dispatch callbacks p).state := by
  unfold Mcp.dispatch
  split
  · exact hp
  · exact h.onEvent _ _ hp

omit h in
theorem holds_addData (value : List Char) (hp : holds p.state) :
    holds (addData limit value p).state := by
  simp only [addData, apply_ite SseProgress.state, ite_self]
  exact hp

theorem SseCallbacks.Keeps.processField (field value : List Char) (hp : holds p.state) :
    holds (processField callbacks limit field value p).state := by
  simp only [Mcp.processField]
  split
  · exact holds_addData value hp
  split
  · exact hp
  split
  · exact h.onId _ _ hp
  split
  · split
    · exact hp
    · exact h.onRetry _ _ hp
  · exact hp

theorem SseCallbacks.Keeps.processLine (hp : holds p.state) (rawLine : List Char) :
    holds (processLine callbacks limit p rawLine).state := by
  unfold Mcp.processLine
  split
  · exact hp
  · dsimp only
    split
    · exact h.dispatch hp
    split
    · exact hp
    · exact h.processField _ _ hp

theorem SseCallbacks.Keeps.processLines (lines : List (List Char)) (hp : holds p.state) :
    holds (lines.foldl (Mcp.processLine callbacks limit) p).state := by
  induction lines generalizing p with
  | nil => exact hp
  | cons line lines ih => exact ih (h.processLine hp line)

theorem SseCallbacks.Keeps.consumeChunk (hp : holds p.state) (chunk : Bytes) :
    holds (consumeChunk callbacks limit p chunk).state := by
  unfold Mcp.consumeChunk
  split
  · exact hp
  · dsimp only
    split <;> exact h.processLines _ hp

theorem SseCallbacks.Keeps.consumeChunks (chunks : List Bytes) (hp : holds p.state) :
    holds (chunks.foldl (Mcp.consumeChunk callbacks limit) p).state := by
  induction chunks generalizing p with
  | nil => exact hp
  | cons chunk chunks ih => exact ih (h.consumeChunk hp chunk)

theorem SseCallbacks.Keeps.finishBody (hp : holds p.state) :
    holds (finishBody callbacks limit p).state := by
  have hlast : ∀ q : SseProgress σ, holds q.state →
      holds (if q.failure.isSome then q else Mcp.dispatch callbacks q).state := by
    intro q hq
    split
    · exact hq
    · exact h.dispatch hq
  refine hlast _ ?_
  split
  · exact hp
  · exact h.processLine hp _

theorem SseCallbacks.Keeps.consumeSseStream (body : Body) {state : σ} (hstate : holds state) :
    holds (consumeSseStream callbacks limit body state).1 := by
  have hchunks : holds (body.chunks.foldl (Mcp.consumeChunk callbacks limit) ⟨{}, state, none⟩).state :=
    h.consumeChunks body.chunks hstate
  simp only [Mcp.consumeSseStream]
  split
  · exact hchunks
  · split
    · exact hchunks
    · exact h.finishBody hchunks

end Kept

end Pidrei.Mcp
