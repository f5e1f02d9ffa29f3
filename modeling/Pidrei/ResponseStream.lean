import Pidrei.Library.Runs
import Pidrei.SseStream
import Mathlib.Algebra.Order.Ring.Rat

/-!
The stream that answers one request over HTTP. When it ends before the response and the
server has assigned event ids, it is resumed with GET, up to a number of attempts in a
row; otherwise the request fails with an error response made here. A `retry` field sets
the delay before an attempt, and the wait for it is outside every handler.
-/
namespace Pidrei.Mcp

open Values

def isTransientStatus (status : ℕ) : Bool := status = 408 || status = 429 || 500 ≤ status

def Failure.isRetryable : Failure → Bool
  | .http status _ => isTransientStatus status
  | .transport _ => true
  | .other _ => false

def maxErrorMessageChars : ℕ := 500

def describeHttpFailure (status : ℕ) (body : List Char) : String :=
  let text := PythonText.stripped body
  let snippet :=
    if maxErrorMessageChars < text.length then
      text.take (maxErrorMessageChars - 3) ++ ['.', '.', '.']
    else text
  let described := if snippet = [] then "" else ": " ++ String.ofList snippet
  s!"MCP HTTP request failed with status {status}{described}"

/-- The answer to a GET; `text` is its body as an error message shows it, `hasSession` whether the
transport has a session then. -/
structure HttpAnswer where
  status : ℕ
  contentType : Option String
  text : List Char
  hasSession : Bool
  body : Body

/-- `_check_response`. -/
def checkResponse (answer : HttpAnswer) : Option Failure :=
  if 200 ≤ answer.status ∧ answer.status < 300 then none
  else if answer.status = 401 then some (.http 401 "MCP server requires authentication")
  else if answer.status = 404 && answer.hasSession then some (.http 404 "MCP session expired")
  else some (.http answer.status (describeHttpFailure answer.status answer.text))

/-- `none` where the server offers no stream; the fetch may raise instead of an answer. -/
def openSseStream : Except Failure HttpAnswer → Except Failure (Option Body)
  | .error failure => .error failure
  | .ok answer =>
    if answer.status = 405 then .ok none
    else
      match checkResponse answer with
      | some failure => .error failure
      | none =>
        if answer.contentType = some "text/event-stream" then .ok (some answer.body)
        else
          let found := match answer.contentType with
            | some found => if found = "" then "missing" else found
            | none => "missing"
          .error (.http answer.status s!"Unsupported MCP GET response content type: {found}")

/-- What a finite number is; Python compares ids of both kinds by it. -/
def numberValue : Number → ℚ
  | .int n => n
  | .float bits =>
    let exponent : ℕ := bits.toNat / 2 ^ 52 % 2 ^ 11
    let fraction : ℕ := bits.toNat % 2 ^ 52
    let size : ℚ :=
      if exponent = 0 then fraction / 2 ^ 1074
      else (2 ^ 52 + fraction) * 2 ^ exponent / 2 ^ 1075
    if bits.toNat / 2 ^ 63 = 1 then -size else size

/-- `message["id"] == request_id`. -/
def sameId : Value → Value → Bool
  | .num a, .num b => numberValue a = numberValue b
  | a, b => a = b

def answers (requestId message : Value) : Bool :=
  isJsonRpcResponse message && (getField message "id").any (sameId · requestId)

structure StreamCursor where
  lastEventId : Option (List Char) := none
  retryMs : Option ℕ := none
  /-- Whether the stream delivered any event since it was (re)opened. -/
  received : Bool := false

/-- What is emitted. A message is the server's or made here. -/
inductive Emission
  | received (message : Value)
  | synthesized (message : Value)
  | error

/-- What the callbacks change. `events` counts the events, and `dry` the reconnect attempts since
the last one. -/
structure StreamIntake where
  cursor : StreamCursor := {}
  answered : Bool := false
  emitted : List Emission := []
  events : ℕ := 0
  dry : ℕ := 0

structure ReconnectOptions where
  initialDelayMs : ℕ := 1000
  maxDelayMs : ℕ := 30000
  maxRetries : ℕ := 5

/-- `waits` says which numbers of milliseconds `Event.wait` takes as a timeout. -/
structure StreamHost where
  parseJson : List Char → Option Value
  limit : ℕ
  reconnect : ReconnectOptions
  waits : ℕ → Bool

section Callbacks

variable (host : StreamHost) (requestId : Value)

def onEvent (event : SseEvent) (s : StreamIntake) : StreamIntake :=
  let s := { s with
    cursor := { s.cursor with received := true }, events := s.events + 1, dry := 0 }
  if PythonText.stripped event.data = [] ∨ event.event.any (· ≠ "message".toList) then s
  else
    match (host.parseJson event.data).bind parseJsonRpcMessage with
    | none => { s with emitted := s.emitted ++ [Emission.error] }
    | some message => { s with
        answered := s.answered || answers requestId message
        emitted := s.emitted ++ [Emission.received message] }

def streamCallbacks : SseCallbacks StreamIntake where
  onEvent := onEvent host requestId
  onId value s := { s with cursor := { s.cursor with lastEventId := some value } }
  onRetry delay s := { s with cursor := { s.cursor with retryMs := some delay } }

end Callbacks

/-- Where `_consume_response_stream` is. -/
inductive StreamPhase
  /-- The stream is read next; there is none when it could not be reopened. -/
  | reading (stream : Option Body)
  | waiting
  | returned
  | raised

/-- `closed` is what was seen of the transport at the end; `turns` counts the turns. -/
structure ResponseStream where
  phase : StreamPhase
  intake : StreamIntake
  failure : Option Failure
  attempt : ℕ
  closed : Bool
  turns : ℕ

/-- What is outside the loop: whether the transport is found closed, when the turn looks first and
when it looks again, and how a GET is answered. -/
structure Turn where
  closed : Bool
  closedAfter : Bool
  answer : Except Failure HttpAnswer

section Loop

variable (host : StreamHost) (requestId : Value)

def reconnectDelay (options : ReconnectOptions) (attempt : ℕ) (serverDelayMs : Option ℕ) : ℕ :=
  serverDelayMs.getD (min (options.initialDelayMs * 2 ^ attempt) options.maxDelayMs)

/-- From here on `ms / 1000` is no float any more and raises. -/
@[irreducible] def waitLimit : ℕ := 1000 * (2 ^ 1024 - 2 ^ 970)

def isWaitable (ms : ℕ) : Bool := ms < waitLimit && host.waits ms

def internalError : ℤ := -32603

/-- The error response made here. -/
def streamFailed (failure : Option Failure) : Value :=
  let reason := (failure.map Failure.message).getD "stream ended without a response"
  .dict [("jsonrpc", .str "2.0"), ("id", requestId),
    ("error", .dict [("code", .num (.int internalError)),
      ("message", .str s!"MCP response stream failed: {reason}")])]

/-- After the loop. -/
def failRequest (turn : Turn) (s : ResponseStream) : ResponseStream :=
  if turn.closedAfter then { s with phase := .returned, closed := true }
  else { s with
    phase := .returned
    intake := { s.intake with
      emitted := s.intake.emitted ++ [Emission.synthesized (streamFailed requestId s.failure)] } }

/-- The stream, when there is one, up to its end. -/
def consumeStream (stream : Option Body) (s : ResponseStream) : ResponseStream :=
  match stream with
  | none => s
  | some body =>
    let (intake, failure) :=
      consumeSseStream (streamCallbacks host requestId) host.limit body s.intake
    { s with intake, failure }

/-- What follows the stream in the same turn, up to the wait. -/
def afterStream (turn : Turn) (s : ResponseStream) : ResponseStream :=
  if s.intake.answered || turn.closed then { s with phase := .returned, closed := turn.closed }
  else if s.failure.any (!·.isRetryable) then failRequest requestId turn s
  else if s.intake.cursor.lastEventId = none ∨ host.reconnect.maxRetries ≤ s.attempt then
    failRequest requestId turn s
  else { s with
    phase := .waiting
    attempt := if s.intake.cursor.received then 0 else s.attempt
    intake := { s.intake with cursor := { s.intake.cursor with received := false } } }

/-- The wait and the attempt after it. -/
def reopenStream (turn : Turn) (s : ResponseStream) : ResponseStream :=
  let delay := reconnectDelay host.reconnect s.attempt s.intake.cursor.retryMs
  let s := { s with attempt := s.attempt + 1 }
  if !isWaitable host delay then { s with phase := .raised, closed := turn.closed }
  else if turn.closed then { s with phase := .returned, closed := true }
  else
    let s := { s with intake := { s.intake with dry := s.intake.dry + 1 } }
    match openSseStream turn.answer with
    | .error failure =>
      let s := { s with failure := some failure }
      if failure.isRetryable then { s with phase := .reading none }
      else failRequest requestId turn s
    | .ok stream => { s with phase := .reading stream }

/-- One half of an iteration of the loop. -/
def stepStream (s : ResponseStream) (turn : Turn) : ResponseStream :=
  let next := { s with turns := s.turns + 1 }
  match s.phase with
  | .reading stream => afterStream host requestId turn (consumeStream host requestId stream next)
  | .waiting => reopenStream host requestId turn next
  | .returned | .raised => s

/-- The POST was answered by a stream. -/
def startStream (body : Body) : ResponseStream :=
  ⟨.reading (some body), {}, none, 0, false, 0⟩

end Loop

def served (requestId : Value) (emitted : List Emission) : List Value :=
  emitted.filterMap fun
    | .received message => if answers requestId message then some message else none
    | _ => none

def synthesized (emitted : List Emission) : List Value :=
  emitted.filterMap fun
    | .synthesized message => some message
    | _ => none

/-- The request has the server's response, or one error response with its id that was made here. -/
def AnsweredOnce (requestId : Value) (emitted : List Emission) : Prop :=
  (served requestId emitted ≠ [] ∧ synthesized emitted = []) ∨
    (served requestId emitted = [] ∧ ∃ message, synthesized emitted = [message] ∧
      answers requestId message = true ∧ (getField message "error").isSome = true)

def StreamPhase.isOver : StreamPhase → Bool
  | .returned | .raised => true
  | _ => false

/-- The attempts in a row without an event are within the limit; the loop goes on only as long as
events come; once it is over the request is answered, unless the transport was closed. -/
structure Accountable (host : StreamHost) (requestId : Value) (s : ResponseStream) : Prop where
  attempts : s.intake.dry ≤ host.reconnect.maxRetries
  turns : s.phase.isOver = false →
    s.turns ≤ 2 * (host.reconnect.maxRetries + 1) * (s.intake.events + 1)
  answer : s.phase.isOver = true → s.closed = true ∨ AnsweredOnce requestId s.intake.emitted

/-- The wait that comes next is for a number of milliseconds that can be waited for. -/
def CanWait (host : StreamHost) (s : ResponseStream) (turn : Turn) : Prop :=
  match s.phase with
  | .waiting => turn.closed = true ∨
      isWaitable host (reconnectDelay host.reconnect s.attempt s.intake.cursor.retryMs) = true
  | _ => True

section Kept

variable {host : StreamHost} {requestId : Value}

/-- What the callbacks keep while `turns` turns are behind them: the flag says whether the server's
response is there, and the turns are paid for by the events and by the attempts since the last one. -/
structure StreamIntake.Sound (requestId : Value) (retries attempt turns : ℕ) (s : StreamIntake) :
    Prop where
  answered : s.answered = true ↔ served requestId s.emitted ≠ []
  synthesized : synthesized s.emitted = []
  received : s.cursor.received = true → s.dry = 0
  dry : s.dry ≤ attempt
  paid : turns ≤ 2 * (retries + 1) * s.events + 2 * s.dry

theorem synthesized_append (emitted more : List Emission) :
    synthesized (emitted ++ more) = synthesized emitted ++ synthesized more :=
  List.filterMap_append

theorem served_append (requestId : Value) (emitted more : List Emission) :
    served requestId (emitted ++ more) = served requestId emitted ++ served requestId more :=
  List.filterMap_append

variable {attempt : ℕ} {s : ResponseStream} {retries turns : ℕ} {turn : Turn}

theorem sound_onEvent (hattempt : attempt ≤ retries) (event : SseEvent) {s : StreamIntake}
    (h : s.Sound requestId retries attempt turns) :
    (onEvent host requestId event s).Sound requestId retries attempt turns := by
  have hpaid : turns ≤ 2 * (retries + 1) * (s.events + 1) + 2 * 0 := by
    have hpaid := h.paid
    have hdry := h.dry
    rw [Nat.mul_succ]
    omega
  unfold onEvent
  dsimp only
  split
  · exact ⟨h.answered, h.synthesized, fun _ => rfl, Nat.zero_le _, hpaid⟩
  · split
    · refine ⟨?_, ?_, fun _ => rfl, Nat.zero_le _, hpaid⟩
      · rw [served_append]
        exact h.answered.trans (by simp [served])
      · rw [synthesized_append, h.synthesized]
        rfl
    · rename_i message _
      refine ⟨?_, ?_, fun _ => rfl, Nat.zero_le _, hpaid⟩
      · rw [served_append, Bool.or_eq_true, h.answered]
        cases hown : answers requestId message <;> simp [served, hown]
      · rw [synthesized_append, h.synthesized]
        rfl

theorem keeps_sound (hattempt : attempt ≤ retries) (turns : ℕ) :
    (streamCallbacks host requestId).Keeps (StreamIntake.Sound requestId retries attempt turns) where
  onEvent event _ h := sound_onEvent hattempt event h
  onId _ _ h := ⟨h.answered, h.synthesized, h.received, h.dry, h.paid⟩
  onRetry _ _ h := ⟨h.answered, h.synthesized, h.received, h.dry, h.paid⟩

/-- What is known between the turns. -/
def StreamInv (host : StreamHost) (requestId : Value) (s : ResponseStream) : Prop :=
  let retries := host.reconnect.maxRetries
  match s.phase with
  | .reading _ => s.attempt ≤ retries ∧ s.intake.answered = false ∧
      s.intake.Sound requestId retries s.attempt s.turns
  | .waiting => s.attempt < retries ∧ s.intake.answered = false ∧
      s.intake.cursor.received = false ∧ s.intake.Sound requestId retries s.attempt (s.turns - 1)
  | .returned => s.intake.dry ≤ retries ∧ (s.closed = true ∨ AnsweredOnce requestId s.intake.emitted)
  | .raised => s.intake.dry ≤ retries ∧ s.closed = true

theorem sameId_self (id : Value) : sameId id id = true := by
  cases id <;> simp [sameId]

theorem answers_streamFailed (hid : isJsonRpcId requestId = true) (failure : Option Failure) :
    answers requestId (streamFailed requestId failure) = true := by
  simp [answers, isJsonRpcResponse, hasVersion, streamFailed, getField, isObject, List.lookup_cons, hid,
    sameId_self, isNumber, isString]

/-- An error response is made only when the server has given none. -/
theorem inv_failRequest (hid : isJsonRpcId requestId = true) (turn : Turn)
    (hanswered : s.intake.answered = false) (hattempt : attempt ≤ host.reconnect.maxRetries)
    (h : s.intake.Sound requestId host.reconnect.maxRetries attempt turns) :
    StreamInv host requestId (failRequest requestId turn s) := by
  have hserved : served requestId s.intake.emitted = [] := by
    by_contra hne
    exact absurd (h.answered.mpr hne) (by simp [hanswered])
  unfold failRequest
  split
  · exact ⟨Nat.le_trans h.dry hattempt, .inl rfl⟩
  · refine ⟨Nat.le_trans h.dry hattempt, .inr (.inr ⟨?_, streamFailed requestId s.failure, ?_, ?_, ?_⟩)⟩
    · rw [served_append, hserved]
      rfl
    · rw [synthesized_append, h.synthesized]
      rfl
    · exact answers_streamFailed hid _
    · simp [streamFailed, getField, List.lookup_cons]

theorem inv_afterStream (hid : isJsonRpcId requestId = true) (turn : Turn)
    (hattempt : s.attempt ≤ host.reconnect.maxRetries)
    (h : s.intake.Sound requestId host.reconnect.maxRetries s.attempt (s.turns - 1)) :
    StreamInv host requestId (afterStream host requestId turn s) := by
  unfold afterStream
  split
  · rename_i hover
    refine ⟨Nat.le_trans h.dry hattempt, ?_⟩
    rcases (Bool.or_eq_true _ _).mp hover with hanswered | hclosed
    · exact .inr (.inl ⟨h.answered.mp hanswered, h.synthesized⟩)
    · exact .inl hclosed
  rename_i hopen
  obtain ⟨hanswered, _⟩ := Bool.or_eq_false_iff.mp (Bool.not_eq_true _ ▸ hopen)
  split
  · exact inv_failRequest hid turn hanswered hattempt h
  split
  · exact inv_failRequest hid turn hanswered hattempt h
  · rename_i hresume
    have hlt : s.attempt < host.reconnect.maxRetries := by
      by_contra hle
      exact hresume (.inr (Nat.not_lt.mp hle))
    by_cases hreceived : s.intake.cursor.received = true
    · have hdry := h.received hreceived
      refine ⟨?_, hanswered, rfl, h.answered, h.synthesized, nofun, ?_, h.paid⟩
      · simp only [hreceived, if_true]
        omega
      · simp only [hreceived, if_true]
        omega
    · refine ⟨?_, hanswered, rfl, h.answered, h.synthesized, nofun, ?_, h.paid⟩
      · simp only [hreceived]
        exact hlt
      · simp only [hreceived]
        exact h.dry

theorem inv_reopenStream (hid : isJsonRpcId requestId = true) (turn : Turn)
    (hattempt : s.attempt < host.reconnect.maxRetries) (hanswered : s.intake.answered = false)
    (hreceived : s.intake.cursor.received = false)
    (h : s.intake.Sound requestId host.reconnect.maxRetries s.attempt (s.turns - 2))
    (hwait : turn.closed = true ∨
      isWaitable host (reconnectDelay host.reconnect s.attempt s.intake.cursor.retryMs) = true) :
    StreamInv host requestId (reopenStream host requestId turn s) := by
  have hdry := h.dry
  have hpaid := h.paid
  have hnext : StreamIntake.Sound requestId host.reconnect.maxRetries (s.attempt + 1) s.turns
      { s.intake with dry := s.intake.dry + 1 } := by
    refine ⟨h.answered, h.synthesized, fun hr => ?_, ?_, ?_⟩
    · rw [hreceived] at hr
      cases hr
    · exact Nat.succ_le_succ hdry
    · show s.turns ≤ 2 * (host.reconnect.maxRetries + 1) * s.intake.events + 2 * (s.intake.dry + 1)
      omega
  unfold reopenStream
  dsimp only
  generalize isWaitable host (reconnectDelay host.reconnect s.attempt s.intake.cursor.retryMs) =
    waitable at hwait ⊢
  split
  · rename_i hraise
    refine ⟨by show s.intake.dry ≤ _; omega, hwait.resolve_right fun hwaitable => ?_⟩
    rw [hwaitable] at hraise
    cases hraise
  split
  · exact ⟨by show s.intake.dry ≤ _; omega, .inl rfl⟩
  split
  · split
    · exact ⟨hattempt, hanswered, hnext⟩
    · exact inv_failRequest hid turn hanswered hattempt hnext
  · exact ⟨hattempt, hanswered, hnext⟩

theorem inv_consumeStream (stream : Option Body) (hattempt : s.attempt ≤ host.reconnect.maxRetries)
    (h : s.intake.Sound requestId host.reconnect.maxRetries s.attempt (s.turns - 1)) :
    (consumeStream host requestId stream s).attempt ≤ host.reconnect.maxRetries ∧
      (consumeStream host requestId stream s).intake.Sound requestId host.reconnect.maxRetries
        (consumeStream host requestId stream s).attempt
        ((consumeStream host requestId stream s).turns - 1) := by
  cases stream with
  | none => exact ⟨hattempt, h⟩
  | some body => exact ⟨hattempt, (keeps_sound hattempt _).consumeSseStream body h⟩

theorem inv_stepStream (hid : isJsonRpcId requestId = true) (h : StreamInv host requestId s)
    (hwait : CanWait host s turn) :
    StreamInv host requestId (stepStream host requestId s turn) := by
  obtain ⟨phase, intake, failure, attempt, closed, turns⟩ := s
  cases phase with
  | reading stream =>
    obtain ⟨hattempt, _, hsound⟩ := h
    have hread := inv_consumeStream stream
      (s := ⟨.reading stream, intake, failure, attempt, closed, turns + 1⟩) hattempt hsound
    exact inv_afterStream hid turn hread.1 hread.2
  | waiting =>
    obtain ⟨hattempt, hanswered, hreceived, hsound⟩ := h
    exact inv_reopenStream hid turn hattempt hanswered hreceived hsound hwait
  | returned => exact h
  | raised => exact h

theorem inv_startStream (body : Body) : StreamInv host requestId (startStream body) :=
  ⟨Nat.zero_le _, rfl, by simp [startStream, served], rfl, nofun, Nat.le_refl _, Nat.zero_le _⟩

theorem accountable_of_inv (h : StreamInv host requestId s) : Accountable host requestId s := by
  have hbudget : ∀ {attempt turns : ℕ}, attempt ≤ host.reconnect.maxRetries →
      s.intake.Sound requestId host.reconnect.maxRetries attempt turns →
      turns + 1 ≤ 2 * (host.reconnect.maxRetries + 1) * (s.intake.events + 1) := by
    intro attempt turns hattempt hsound
    have hpaid := hsound.paid
    have hdry := hsound.dry
    rw [Nat.mul_succ]
    omega
  cases hphase : s.phase <;> simp only [StreamInv, hphase] at h
  case reading stream =>
    obtain ⟨hattempt, _, hsound⟩ := h
    exact ⟨Nat.le_trans hsound.dry hattempt, fun _ => Nat.le_of_succ_le (hbudget hattempt hsound),
      by simp [hphase, StreamPhase.isOver]⟩
  case waiting =>
    obtain ⟨hattempt, _, _, hsound⟩ := h
    have hturns := hbudget hattempt.le hsound
    exact ⟨Nat.le_trans hsound.dry hattempt.le, fun _ => by omega,
      by simp [hphase, StreamPhase.isOver]⟩
  case returned => exact ⟨h.1, by simp [hphase, StreamPhase.isOver], fun _ => h.2⟩
  case raised => exact ⟨h.1, by simp [hphase, StreamPhase.isOver], fun _ => .inl h.2⟩

theorem not_accountable_of_not_canWait (h : StreamInv host requestId s)
    (hwait : ¬ CanWait host s turn) :
    ¬ Accountable host requestId (stepStream host requestId s turn) := by
  intro hgood
  cases hphase : s.phase <;> simp only [StreamInv, CanWait, hphase, not_true_eq_false] at h hwait
  obtain ⟨_, hanswered, _, hsound⟩ := h
  obtain ⟨hclosed, hraise⟩ := not_or.mp hwait
  have hserved : served requestId s.intake.emitted = [] := by
    by_contra hne
    exact absurd (hsound.answered.mpr hne) (by simp [hanswered])
  have hstep : stepStream host requestId s turn = { s with
      phase := .raised, attempt := s.attempt + 1, closed := turn.closed, turns := s.turns + 1 } := by
    unfold stepStream reopenStream
    rw [hphase]
    dsimp only
    rw [Bool.eq_false_iff.mpr hraise]
    rfl
  rw [hstep] at hgood
  rcases hgood.answer rfl with hseen | ⟨hne, _⟩ | ⟨_, message, hone, _⟩
  · exact hclosed hseen
  · exact hne hserved
  · rw [hsound.synthesized] at hone
    cases hone

/-- The loop answers the request once and gives up in time, whatever the server does, exactly when
every delay that it waits for can be waited for. -/
theorem answered_once_iff_can_wait (host : StreamHost) (requestId : Value)
    (hid : isJsonRpcId requestId = true) (body : Body) (turns : List Turn) :
    (∀ s ∈ Runs.states (stepStream host requestId) (startStream body) turns,
      Accountable host requestId s) ↔
      Runs.Along (stepStream host requestId) (CanWait host) (startStream body) turns := by
  have hstep : ∀ s turn, True → StreamInv host requestId s → CanWait host s turn →
      StreamInv host requestId (stepStream host requestId s turn) :=
    fun _ _ _ h hwait => inv_stepStream hid h hwait
  have hbad : ∀ s turn, True → StreamInv host requestId s → ¬ CanWait host s turn →
      ¬ Accountable host requestId (stepStream host requestId s turn) :=
    fun _ _ _ h hwait => not_accountable_of_not_canWait h hwait
  exact Runs.good_iff_along (fun _ h => accountable_of_inv h) hstep hbad (inv_startStream body)
    fun _ _ => trivial

end Kept

instance (host : StreamHost) (s : ResponseStream) (turn : Turn) :
    Decidable (CanWait host s turn) := by
  unfold CanWait
  split <;> infer_instance

/-- A host that reads no text as JSON and waits for whatever it is given. -/
def plainHost : StreamHost := ⟨fun _ => none, 1000, {}, fun _ => true⟩

/-- The stream has an event id and a `retry` field, and then it ends. -/
def primed (retry : List Char) : Body :=
  ⟨[Utf8.encode ("id: 1\nretry: ".toList ++ retry ++ ['\n', '\n'])], none⟩

/-- The stream cannot be resumed. -/
def refusedTurn : Turn := ⟨false, false, .error (.http 404 "gone")⟩

/-- The resumption is refused, and the request has its error response. -/
theorem answered_once_iff_can_wait_refused : isJsonRpcId (.num (.int 7)) = true ∧
    (∀ s ∈ Runs.states (stepStream plainHost (.num (.int 7))) (startStream (primed ['5']))
      [refusedTurn, refusedTurn], Accountable plainHost (.num (.int 7)) s) := by
  refine ⟨by decide +kernel,
    (answered_once_iff_can_wait plainHost (.num (.int 7)) (by decide +kernel) _ _).mpr ?_⟩
  decide +kernel

def unwaitable : Body := primed ('1' :: List.replicate 400 '0')

def unanswered : ResponseStream :=
  [refusedTurn, refusedTurn].foldl (stepStream plainHost (.num (.int 7))) (startStream unwaitable)

/-- The server asks for a delay of 401 digits: the wait raises, and nothing answers the request. -/
theorem unwaitable_delay_unanswered :
    ¬ ∀ (host : StreamHost) (requestId : Value), isJsonRpcId requestId = true →
      ∀ (body : Body) (turns : List Turn),
      ∀ s ∈ Runs.states (stepStream host requestId) (startStream body) turns,
        Accountable host requestId s := by
  intro hall
  have hgood := hall plainHost (.num (.int 7)) (by decide +kernel) unwaitable
    [refusedTurn, refusedTurn] unanswered (Runs.foldl_mem_states _ _)
  have hover : unanswered.phase.isOver = true := by decide +kernel
  have hopen : unanswered.closed = false := by decide +kernel
  have hserved : served (.num (.int 7)) unanswered.intake.emitted = [] := by decide +kernel
  have hnone : synthesized unanswered.intake.emitted = [] := by decide +kernel
  rcases hgood.answer hover with hclosed | ⟨hne, _⟩ | ⟨_, message, hone, _⟩
  · rw [hopen] at hclosed
    cases hclosed
  · exact hne hserved
  · rw [hnone] at hone
    cases hone

end Pidrei.Mcp
