import Pidrei.Library.Runs
import Mathlib.Order.Lattice

/-!
Concurrent resolutions of stored OAuth credentials. An expired credential is refreshed
under the lock of the credential store, and the result is written before the lock is
released. A cancellation reaches only the wait for the lock: it is cut off before the
refresh starts.
-/
namespace Pidrei.OAuthRefresh

structure OAuthCredential where
  refresh : String
  access : String
  expires : ℤ
  deriving DecidableEq

inductive Credential
  | apiKey
  | oauth (credential : OAuthCredential)
  deriving DecidableEq

/-- What a call of `resolve_provider_auth` ends with. -/
inductive Outcome
  /-- `to_auth` gets the credential. -/
  | auth (credential : OAuthCredential)
  | loggedOut
  /-- There is no stored OAuth credential. -/
  | elsewhere
  | error
  | aborted

/-- Where the operation behind a call is; it goes on when its caller is cancelled. -/
inductive Phase
  | reading
  /-- The credential that was read expires soon. -/
  | expired
  | waiting
  | locked
  /-- `_refresh_under_lock` is called with what is stored. -/
  | entered (current : Option Credential)
  | unsubscribed (current : Option Credential)
  | refreshing (current : OAuthCredential)
  /-- It has returned; `content` is what is still to be written. -/
  | answered (result : Option Credential) (content : Option OAuthCredential)
  | releasing (result : Option Credential)
  | failing
  | done
  deriving DecidableEq

/-- `cancelled` is the caller's token, `subscribed` whether its cancellation reaches the token of the
lock wait, `pending` whether it is on its way there, and `lockWait` that token. -/
structure Call where
  provider : String
  minValidityMs : Option ℤ
  phase : Phase
  cancelled : Bool
  subscribed : Bool
  pending : Bool
  lockWait : Bool
  outcome : Option Outcome

/-- How a call of `oauth.refresh` went. -/
inductive Answer
  | running
  | failed
  | returned (credential : OAuthCredential) (persisted : Bool)

/-- A call of `oauth.refresh`: what it was passed, and what was stored at that moment. -/
structure Refresh where
  call : ℕ
  provider : String
  passed : OAuthCredential
  stored : Option Credential
  answer : Answer

/-- `log` has the latest refresh first. -/
structure State where
  store : String → Option Credential
  now : ℤ
  lock : Option ℕ
  calls : ℕ → Option Call
  log : List Refresh

inductive Action
  | advance (now : ℤ)
  | begin (call : ℕ) (provider : String) (minValidityMs : Option ℤ)
  /-- The token is set, and its callbacks are taken. -/
  | cancel (call : ℕ)
  /-- The callback cancels the lock wait. -/
  | deliver (call : ℕ)
  /-- What the store's read gives; it may come from a cache. -/
  | read (call : ℕ) (stored : Option Credential)
  | subscribe (call : ℕ)
  | acquire (call : ℕ)
  | load (call : ℕ)
  | unsubscribe (call : ℕ)
  | decide (call : ℕ)
  /-- The refresh returns a credential or raises. -/
  | answer (call : ℕ) (result : Option OAuthCredential)
  | write (call : ℕ)
  | release (call : ℕ)
  /-- Something before the refresh raises: the read, a cancelled wait, the lock. -/
  | fail (call : ℕ)

def defaultMinimumValidityMs : ℤ := 5 * 60 * 1000

/-- `expires_soon`. -/
def expiresSoon (now : ℤ) (minValidityMs : Option ℤ) (current : OAuthCredential) : Bool :=
  current.expires ≤ now + max defaultMinimumValidityMs (minValidityMs.getD 0)

namespace Call

def settle (call : Call) (outcome : Outcome) : Call :=
  { call with phase := .done, outcome := call.outcome <|> some outcome }

/-- After the store's `modify`. -/
def finish (call : Call) (now : ℤ) : Option Credential → Call
  | some (.oauth credential) =>
    if call.minValidityMs.isSome && expiresSoon now call.minValidityMs credential then
      call.settle .error
    else call.settle (.auth credential)
  | _ => call.settle .loggedOut

end Call

namespace State

def setCall (s : State) (id : ℕ) (call : Call) : State :=
  { s with calls := Function.update s.calls id (some call) }

/-- What becomes of the latest refresh. -/
def mark (s : State) (answer : Answer) : State :=
  { s with log := s.log.modifyHead fun refresh => { refresh with answer } }

def persist (s : State) (provider : String) (credential : OAuthCredential) : State :=
  { s with store := Function.update s.store provider (some (.oauth credential)) }

end State

/-- `_refresh_under_lock` once its token is cut off. -/
def decideRefresh (s : State) (id : ℕ) (call : Call) (current : Option Credential) : State :=
  if call.cancelled then s.setCall id { call with phase := .failing }
  else
    match current with
    | some (.oauth credential) =>
      if expiresSoon s.now call.minValidityMs credential then
        { s with log := ⟨id, call.provider, credential, s.store call.provider, .running⟩ :: s.log }.setCall
          id { call with phase := .refreshing credential }
      else s.setCall id { call with phase := .answered current none }
    | _ => s.setCall id { call with phase := .answered current none }

/-- A step of the call `id`. -/
def stepCall (s : State) (id : ℕ) (call : Call) : Action → Option State
  | .cancel _ =>
    if call.cancelled then none
    else
      some (s.setCall id { call with
        cancelled := true, pending := call.subscribed, subscribed := false
        outcome := call.outcome <|> some .aborted })
  | .deliver _ =>
    if call.pending then some (s.setCall id { call with pending := false, lockWait := true }) else none
  | .read _ stored =>
    match call.phase, stored with
    | .reading, some (.oauth credential) =>
      some (s.setCall id (if expiresSoon s.now call.minValidityMs credential then
        { call with phase := .expired } else call.settle (.auth credential)))
    | .reading, _ => some (s.setCall id (call.settle .elsewhere))
    | _, _ => none
  | .subscribe _ =>
    match call.phase with
    | .expired =>
      -- a token that is cancelled already calls back at once
      some (s.setCall id (if call.cancelled then { call with phase := .waiting, lockWait := true }
        else { call with phase := .waiting, subscribed := true }))
    | _ => none
  | .acquire _ =>
    match call.phase, s.lock with
    | .waiting, none => some ({ s with lock := some id }.setCall id { call with phase := .locked })
    | _, _ => none
  | .load _ =>
    match call.phase with
    | .locked => some (s.setCall id { call with phase := .entered (s.store call.provider) })
    | _ => none
  | .unsubscribe _ =>
    match call.phase with
    | .entered current =>
      some (s.setCall id { call with phase := .unsubscribed current, subscribed := false })
    | _ => none
  | .decide _ =>
    match call.phase with
    | .unsubscribed current => some (decideRefresh s id call current)
    | _ => none
  | .answer _ result =>
    match call.phase, result with
    | .refreshing _, some credential =>
      some ((s.mark (.returned credential false)).setCall id
        { call with phase := .answered (some (.oauth credential)) (some credential) })
    | .refreshing _, none => some ((s.mark .failed).setCall id { call with phase := .failing })
    | _, _ => none
  | .write _ =>
    match call.phase with
    | .answered result content =>
      if call.lockWait then some (s.setCall id { call with phase := .failing })
      else
        match content with
        | some credential =>
          some (((s.persist call.provider credential).mark (.returned credential true)).setCall id
            { call with phase := .releasing result })
        | none => some (s.setCall id { call with phase := .releasing result })
    | _ => none
  | .release _ =>
    match call.phase with
    | .releasing result => some ({ s with lock := none }.setCall id (call.finish s.now result))
    | .failing => some ({ s with lock := none }.setCall id (call.settle .error))
    | _ => none
  | .fail _ =>
    match call.phase with
    | .reading | .expired | .waiting => some (s.setCall id (call.settle .error))
    | .locked => some (s.setCall id { call with phase := .failing })
    | _ => none
  | .advance _ | .begin _ _ _ => none

def Action.call? : Action → Option ℕ
  | .advance _ => none
  | .begin id _ _ | .cancel id | .deliver id | .read id _ | .subscribe id | .acquire id | .load id
  | .unsubscribe id | .decide id | .answer id _ | .write id | .release id | .fail id => some id

def step (s : State) (action : Action) : Option State :=
  match action with
  | .advance now => some { s with now }
  | .begin id provider minValidityMs =>
    if (s.calls id).isNone then
      some (s.setCall id ⟨provider, minValidityMs, .reading, false, false, false, false, none⟩)
    else none
  | action => action.call?.bind fun id => (s.calls id).bind fun call => stepCall s id call action

def start (store : String → Option Credential) (now : ℤ) : State :=
  ⟨store, now, none, fun _ => none, []⟩

end Pidrei.OAuthRefresh
