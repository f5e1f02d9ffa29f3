import Pidrei.ResponseStream
import Pidrei.Library.OrderedMap

/-!
The client's side of an MCP connection. A request is in the map of pending requests until
one of the six things that can end it takes it out; whoever took it out settles it, after
the lock is released.
-/
namespace Pidrei.Mcp

open Values
open Function (update)

inductive ClientState
  | idle
  | connecting
  | connected
  | closed
  deriving DecidableEq

inductive SendError
  | connectionClosed
  | other (text : String)
  deriving DecidableEq

inductive RequestError
  | mcp (code message data : Option Value)
  | timeout (ms : ℚ)
  | abort
  | connectionClosed
  | send (error : SendError)
  deriving DecidableEq

/-- `entry.outcome`. -/
abbrev Outcome := Except RequestError Value

inductive Milliseconds
  | finite (ms : ℚ)
  | notFinite

inductive SendResult
  | unsettled
  | succeeded
  | failed (error : SendError)
  deriving DecidableEq

/-- What a transport that is open does with a message. -/
inductive Sending
  /-- `send` raises: the message cannot be written as JSON, or its text not as UTF-8. -/
  | raised
  | taken (done : Bool)
  deriving DecidableEq

/-- A message that the transport has given its place. -/
inductive Outgoing
  | request (id : ℕ) (method : String) (params : Option Items)
  | cancelled (id : ℕ) (reason : Option String)
  deriving DecidableEq

def Outgoing.id : Outgoing → ℕ
  | .request id _ _ => id
  | .cancelled id _ => id

/-- `running` are the callbacks taken by `cancel` that have not been called yet. Each is the one
of a request. -/
structure CancelToken where
  fired : Bool := false
  reason : String := ""
  callbacks : List ℕ := []
  running : List ℕ := []

/-- `due` is a timer that has found itself not cancelled and goes on to its callback. -/
structure Timeout where
  request : ℕ
  ms : ℚ
  due : Bool := false

/-- Where `_request_internal` is. -/
inductive RequestPhase
  | subscribing
  | storing
  | checking
  | waiting
  | returned (outcome : Outcome)
  | raised
  deriving DecidableEq

/-- A request's entry with the locals of its caller. A generation is named by its number, and the
timer by its generation; `unsubscribe` is the one of `cancel`. `claims` are the outcomes of those
that have taken it out of the map and not settled it yet, `settlements` those of the calls of
`_settle`. -/
structure Request where
  method : String
  timeoutMs : Milliseconds
  progressToken : Option ℕ
  cancel : Option ℕ
  phase : RequestPhase
  timer : Option ℕ := none
  generation : Option ℕ := none
  unsubscribe : Bool := false
  sent : SendResult := .unsettled
  watched : Bool := false
  claims : List Outcome := []
  settlements : List Outcome := []

/-- The spec forbids cancelling `initialize`. -/
def Request.cancellable (r : Request) : Bool := r.method ≠ "initialize"

/-- `pending` are the keys in the map, in their order; `shut` says that the transport takes no
message any more, `outgoing` and `received` which messages were taken and which responses came. -/
structure McpClient where
  state : ClientState := .idle
  transport : Bool := false
  shut : Bool := false
  requestTimeoutMs : Option Milliseconds := none
  nextRequestId : ℕ := 1
  nextGeneration : ℕ := 0
  pending : List ℕ := []
  progressRequests : ℕ → Option ℕ := fun _ => none
  requests : ℕ → Option Request := fun _ => none
  tokens : ℕ → CancelToken := fun _ => {}
  timers : ℕ → Option Timeout := fun _ => none
  outgoing : List Outgoing := []
  received : List Value := []

structure RequestCall where
  method : String
  params : Option Items := none
  cancel : Option ℕ := none
  timeoutMs : Option Milliseconds := none
  onProgress : Bool := false
  allowConnecting : Bool := false

def defaultRequestTimeoutMs : ℚ := 30000

/-- The request that has this id as its key; an integral float is the same key as the integer. -/
def requestKey : Value → Option ℕ
  | .num n =>
    let value := numberValue n
    if value.den = 1 ∧ 0 ≤ value.num then some value.num.toNat else none
  | _ => none

def requestParams (params : Option Items) (progressToken : Option ℕ) : Option Items :=
  match progressToken with
  | none => params
  | some token =>
    let params := params.getD []
    let given := match params.lookup "_meta" with
      | some (.dict items) => items
      | _ => []
    some (OrderedMap.upsert "_meta"
      (.dict (OrderedMap.upsert "progressToken" (.num (.int token)) given)) params)

namespace McpClient

def modifyRequest (i : ℕ) (change : Request → Request) (c : McpClient) : McpClient :=
  { c with requests := update c.requests i ((c.requests i).map change) }

/-- A timer that is due runs all the same. -/
def cancelTimer (generation : Option ℕ) (c : McpClient) : McpClient :=
  match generation with
  | none => c
  | some g =>
    { c with timers := update c.timers g ((c.timers g).filter fun timer => timer.due) }

/-- What `on_cancel` has returned, called. -/
def unsubscribe (i : ℕ) (token : Option ℕ) (c : McpClient) : McpClient :=
  match token with
  | none => c
  | some t =>
    { c with
      tokens := update c.tokens t
        { c.tokens t with callbacks := (c.tokens t).callbacks.erase i } }

/-- `transport.send`; no result where it raises. -/
def send (message : Outgoing) (sending : Sending) (c : McpClient) :
    Option SendResult × McpClient :=
  match sending with
  | .raised => (none, c)
  | .taken done =>
    if c.shut then (some (.failed .connectionClosed), c)
    else
      (some (if done then .succeeded else .unsettled), { c with outgoing := c.outgoing ++ [message] })

/-- `_arm_timeout_locked`. -/
def armTimeout (i : ℕ) (c : McpClient) : McpClient :=
  match c.requests i with
  | none => c
  | some r =>
    let c := cancelTimer r.timer c
    match r.timeoutMs with
    | .notFinite => modifyRequest i (fun r => { r with timer := none, generation := none }) c
    | .finite ms =>
      if ms ≤ 0 then modifyRequest i (fun r => { r with timer := none, generation := none }) c
      else
        let g := c.nextGeneration
        modifyRequest i (fun r => { r with timer := some g, generation := some g })
          { c with
            nextGeneration := g + 1
            timers := update c.timers g (some { request := i, ms }) }

/-- `_remove_pending_locked`. -/
def removePending (i : ℕ) (c : McpClient) : McpClient :=
  let c := { c with pending := c.pending.filter (· ≠ i) }
  match c.requests i with
  | none => c
  | some r =>
    let c := cancelTimer r.timer c
    let c := match r.progressToken with
      | some token => { c with progressRequests := update c.progressRequests token none }
      | none => c
    let c := if r.unsubscribe then unsubscribe i r.cancel c else c
    modifyRequest i (fun r => { r with timer := none, generation := none, unsubscribe := false }) c

/-- The outcome with which the request that was taken out will be settled. -/
def claim (i : ℕ) (outcome : Outcome) : McpClient → McpClient :=
  modifyRequest i fun r => { r with claims := r.claims ++ [outcome] }

/-- `_cancel_pending` up to the release of the lock; the first part is false where it raises. -/
def cancelPending (i : ℕ) (error : RequestError) (notifyServer : Bool) (reason : Option String)
    (generation : Option ℕ) (sending : Sending) (c : McpClient) : Bool × McpClient :=
  match c.requests i with
  | none => (true, c)
  | some r =>
    if i ∉ c.pending ∨ generation.isSome ∧ r.generation ≠ generation then (true, c)
    else
      let c := removePending i c
      if notifyServer && c.transport then
        match send (.cancelled i (reason.filter (· ≠ ""))) sending c with
        | (none, c) => (false, c)
        | (some _, c) => (true, claim i (.error error) c)
      else (true, claim i (.error error) c)

/-- `_require_transport_locked`. -/
def hasTransport (allowConnecting : Bool) (c : McpClient) : Bool :=
  c.transport && (c.state = .connected || allowConnecting && c.state = .connecting)

def progressToken (call : RequestCall) (c : McpClient) : Option ℕ :=
  if call.onProgress then some c.nextRequestId else none

def newRequest (call : RequestCall) (c : McpClient) : Request where
  method := call.method
  timeoutMs := (call.timeoutMs <|> c.requestTimeoutMs).getD (.finite defaultRequestTimeoutMs)
  progressToken := progressToken call c
  cancel := call.cancel
  phase := if call.cancel.isSome then .subscribing else .checking

/-- The new entry in the maps. -/
def publish (call : RequestCall) (c : McpClient) : McpClient :=
  let i := c.nextRequestId
  { c with
    nextRequestId := i + 1
    pending := c.pending ++ [i]
    requests := update c.requests i (some (newRequest call c))
    progressRequests := match progressToken call c with
      | some token => update c.progressRequests token (some i)
      | none => c.progressRequests }

/-- The locked part of `_request_internal`; none where it raises before it has an id. -/
def requestInternal (call : RequestCall) (sending : Sending) (c : McpClient) : Option McpClient :=
  if hasTransport call.allowConnecting c && !call.cancel.any fun t => (c.tokens t).fired then
    let i := c.nextRequestId
    let message := .request i call.method (requestParams call.params (progressToken call c))
    match send message sending (armTimeout i (publish call c)) with
    | (none, c) => some (modifyRequest i (fun r => { r with phase := .raised }) c)
    | (some sent, c) => some (modifyRequest i (fun r => { r with sent }) c)
  else none

/-- `cancel.on_cancel`; on a token that has fired the callback runs at once. -/
def onCancel (i : ℕ) (r : Request) (token : ℕ) (sending : Sending) (c : McpClient) : McpClient :=
  let t := c.tokens token
  if t.fired then
    let (returned, c) := cancelPending i .abort r.cancellable (some t.reason) none sending c
    modifyRequest i (fun r => { r with phase := if returned then .storing else .raised }) c
  else
    modifyRequest i (fun r => { r with phase := .storing })
      { c with tokens := update c.tokens token { t with callbacks := t.callbacks ++ [i] } }

/-- The unsubscription is stored in the entry, or called when the entry is out of the map. -/
def storeUnsubscribe (i : ℕ) (r : Request) (c : McpClient) : McpClient :=
  if i ∈ c.pending then modifyRequest i (fun r => { r with phase := .checking, unsubscribe := true }) c
  else modifyRequest i (fun r => { r with phase := .checking }) (unsubscribe i r.cancel c)

def checkSent (i : ℕ) (r : Request) (sending : Sending) (c : McpClient) : McpClient :=
  match r.sent with
  | .unsettled => modifyRequest i (fun r => { r with phase := .waiting, watched := true }) c
  | .succeeded => modifyRequest i (fun r => { r with phase := .waiting }) c
  | .failed error =>
    modifyRequest i (fun r => { r with phase := .waiting })
      (cancelPending i (.send error) false none none sending c).2

/-- `_watch_request_send`, once the transport has settled the send. -/
def watchRequestSend (i : ℕ) (r : Request) (sending : Sending) (c : McpClient) : Option McpClient :=
  match r.sent with
  | .unsettled => none
  | .succeeded => some (modifyRequest i (fun r => { r with watched := false }) c)
  | .failed error =>
    some (modifyRequest i (fun r => { r with watched := false })
      (cancelPending i (.send error) false none none sending c).2)

/-- The caller is cancelled in its wait. -/
def abandon (i : ℕ) (r : Request) (sending : Sending) (c : McpClient) : McpClient :=
  let c := if r.settlements = [] then
      (cancelPending i .abort r.cancellable none none sending c).2
    else c
  modifyRequest i (fun r => { r with phase := .raised }) c

/-- `message["result"]` or the error that `message["error"]` says. -/
def outcomeOf (message : Value) : Outcome :=
  match getField message "error" with
  | some error =>
    .error (.mcp (getField error "code") (getField error "message") (getField error "data"))
  | none => .ok ((getField message "result").getD .null)

/-- `_handle_response`; without a pending request an error is reported. -/
def handleResponse (message : Value) (c : McpClient) : McpClient :=
  let c := { c with received := c.received ++ [message] }
  match (getField message "id").bind requestKey with
  | none => c
  | some i => if i ∈ c.pending then claim i (outcomeOf message) (removePending i c) else c

/-- `_handle_progress`, without the listener. -/
def handleProgress (params : Value) (c : McpClient) : McpClient :=
  if !((getField params "progressToken").any isJsonRpcId && (getField params "progress").any isNumber)
  then c
  else
    match ((getField params "progressToken").bind requestKey).bind c.progressRequests with
    | none => c
    | some i => if i ∈ c.pending then armTimeout i c else c

/-- `_handle_message`. The requests of the server and other notifications touch no request here. -/
def handleMessage (message : Value) (c : McpClient) : McpClient :=
  if isJsonRpcResponse message then handleResponse message c
  else if isJsonRpcRequest message then c
  else if isJsonRpcNotification message ∧
      getField message "method" = some (.str "notifications/progress") then
    handleProgress ((getField message "params").getD .null) c
  else c

/-- `_mark_closed`. -/
def markClosed (c : McpClient) : McpClient :=
  let c := c.pending.foldl
    (fun c i => claim i (.error .connectionClosed) (removePending i c)) c
  { c with state := .closed }

end McpClient

/-- Everything that can happen next. Each is one stretch of the client's code under its lock or
between two waits, or something outside it. -/
inductive ClientAction
  | connect
  /-- `connect` has got the result of `initialize`. -/
  | establish
  | request (call : RequestCall) (sending : Sending)
  | onCancel (i : ℕ) (sending : Sending)
  | storeUnsubscribe (i : ℕ)
  | checkSent (i : ℕ) (sending : Sending)
  | settleSend (i : ℕ) (error : Option String)
  | watchRequestSend (i : ℕ) (sending : Sending)
  | cancelToken (token : ℕ) (reason : String)
  | callback (token : ℕ) (sending : Sending)
  | timerDue (generation : ℕ)
  | timerFire (generation : ℕ) (sending : Sending)
  | message (message : Value)
  | abandon (i : ℕ) (sending : Sending)
  | settle (i : ℕ)
  | wake (i : ℕ)
  /-- `close` takes the transport away. -/
  | dropTransport
  /-- `close` and a transport that has closed. -/
  | markClosed
  | shut

/-- What a call of `transport.send` in this step would do. -/
def ClientAction.sending? : ClientAction → Option Sending
  | .request _ sending | .onCancel _ sending | .checkSent _ sending | .watchRequestSend _ sending
  | .callback _ sending | .timerFire _ sending | .abandon _ sending => some sending
  | _ => none

/-- No call of `transport.send` raises in this step. -/
def ClientAction.SendReturns (action : ClientAction) : Prop := action.sending? ≠ some .raised

instance (action : ClientAction) : Decidable action.SendReturns :=
  inferInstanceAs (Decidable (_ ≠ _))

namespace McpClient

/-- A step of the caller of request `i`, which is in this phase. -/
def callerStep (i : ℕ) (phase : RequestPhase) (next : Request → McpClient) (c : McpClient) :
    Option McpClient :=
  (c.requests i).bind fun r => if r.phase = phase then some (next r) else none

/-- A callback that raises ends the loop over the callbacks. -/
def runCallback (token : ℕ) (sending : Sending) (c : McpClient) : Option McpClient :=
  let t := c.tokens token
  match t.running with
  | [] => none
  | i :: rest =>
    let cancellable := (c.requests i).any Request.cancellable
    let (returned, c) := cancelPending i .abort cancellable (some t.reason) none sending c
    some { c with
      tokens := update c.tokens token
        { c.tokens token with running := if returned then rest else [] } }

def fireTimer (g : ℕ) (sending : Sending) (c : McpClient) : Option McpClient :=
  match c.timers g with
  | none => none
  | some timer =>
    if timer.due then
      let cancellable := (c.requests timer.request).any Request.cancellable
      let c := { c with timers := update c.timers g none }
      some (cancelPending timer.request (.timeout timer.ms) cancellable (some "Request timed out")
        (some g) sending c).2
    else none

/-- `_settle`, by whoever took the entry out of the map. -/
def settle (i : ℕ) (c : McpClient) : Option McpClient :=
  (c.requests i).bind fun r =>
    match r.claims with
    | [] => none
    | outcome :: rest =>
      some (modifyRequest i
        (fun r => { r with claims := rest, settlements := r.settlements ++ [outcome] }) c)

def wake (i : ℕ) (c : McpClient) : Option McpClient :=
  (c.requests i).bind fun r =>
    if r.phase = .waiting then
      r.settlements.getLast?.map fun outcome =>
        modifyRequest i (fun r => { r with phase := .returned outcome }) c
    else none

def settleSend (i : ℕ) (error : Option String) (c : McpClient) : Option McpClient :=
  (c.requests i).bind fun r =>
    if r.sent = .unsettled then
      let sent := match error with
        | none => SendResult.succeeded
        | some text => SendResult.failed (.other text)
      some (modifyRequest i (fun r => { r with sent }) c)
    else none

/-- `none` where the action cannot be next. -/
def step (c : McpClient) : ClientAction → Option McpClient
  | .connect => if c.state = .idle then some { c with state := .connecting, transport := true } else none
  | .establish => if c.state = .connecting then some { c with state := .connected } else none
  | .request call sending => requestInternal call sending c
  | .onCancel i sending =>
    callerStep i .subscribing (fun r => match r.cancel with
      | some token => onCancel i r token sending c
      | none => c) c
  | .storeUnsubscribe i => callerStep i .storing (fun r => storeUnsubscribe i r c) c
  | .checkSent i sending => callerStep i .checking (fun r => checkSent i r sending c) c
  | .settleSend i error => settleSend i error c
  | .watchRequestSend i sending =>
    (c.requests i).bind fun r => if r.watched then watchRequestSend i r sending c else none
  | .cancelToken token reason =>
    let t := c.tokens token
    if t.fired then none
    else some { c with
      tokens := update c.tokens token
        { fired := true, reason, callbacks := [], running := t.callbacks } }
  | .callback token sending => runCallback token sending c
  | .timerDue g =>
    (c.timers g).bind fun timer =>
      some { c with timers := update c.timers g (some { timer with due := true }) }
  | .timerFire g sending => fireTimer g sending c
  | .message message => some (handleMessage message c)
  | .abandon i sending => callerStep i .waiting (fun r => abandon i r sending c) c
  | .settle i => settle i c
  | .wake i => wake i c
  | .dropTransport => some { c with transport := false }
  | .markClosed => some (markClosed c)
  | .shut => some { c with shut := true }

/-- A client that was just made. -/
def new (requestTimeoutMs : Option Milliseconds) : McpClient := { requestTimeoutMs }

end McpClient

end Pidrei.Mcp
