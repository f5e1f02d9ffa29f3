import Pidrei.Library.Runs
import Pidrei.SettingsSetters

/-!
One settings manager with its files. Setters publish at once and queue their write; the
writer task takes the queue in order; a load sends a ticket through the queue, samples
the mutation counter, reads the files and publishes what it read, unless the counter
has moved.
-/
namespace Pidrei.SettingsManager

open Settings

structure ScopeState where
  settings : Dict
  marks : Marks
  loadError : Bool

/-- What the writer receives. -/
inductive Item
  | write (scope : Scope) (write : Write)
  | ticket (ofLoad : Bool)

inductive Writer
  | waiting
  | writing (scope : Scope) (write : Write)
  /-- `with_lock_async` has returned; `_clear_modified_scope` is next. -/
  | written (scope : Scope)

/-- What a load does, after the content of a file stands none for an error. -/
inductive LoadPhase
  | flushing
  | flushed
  | sampled (mutations : ℕ)
  | readGlobal (mutations : ℕ) (global : Option Dict)
  | read (mutations : ℕ) (global project : Option Dict)

inductive LoadKind
  | reload
  | trust
  deriving DecidableEq

structure Load where
  kind : LoadKind
  phase : LoadPhase

/-- `started` tells whether the writer has its channel, `queue` what is in it. -/
structure State where
  scopes : Scope → ScopeState
  trusted : Bool
  started : Bool
  queue : List Item
  writer : Writer
  mutations : ℕ
  load : Option Load
  files : Scope → Option Dict

inductive Action
  | call (setter : Setter)
  | receive
  | land
  | failWrite
  | settle
  | flush
  | reload
  | trust (trusted : Bool)
  | sample
  | read (ok : Bool)
  | publish

namespace State

def setScope (s : State) (scope : Scope) (state : ScopeState) : State :=
  { s with scopes := fun other => if other = scope then state else s.scopes other }

def setFile (s : State) (scope : Scope) (file : Option Dict) : State :=
  { s with files := fun other => if other = scope then file else s.files other }

def send (s : State) (item : Item) : State :=
  { s with started := true, queue := s.queue ++ [item] }

def setPhase (s : State) (kind : LoadKind) (phase : LoadPhase) : State :=
  { s with load := some ⟨kind, phase⟩ }

/-- A write of the scope is refused before it starts. -/
def refuses (s : State) (scope : Scope) : Bool := scope = .project && !s.trusted

end State

/-- `_update_global_settings` with `_save`, and `_update_project_settings` with
`_save_project_settings` alike. -/
def update (s : State) (scope : Scope) (change : Change) : State :=
  let before := s.scopes scope
  let settings := change.apply before.settings
  let marks := change.mark before.marks
  let published := { s with mutations := s.mutations + 1 }.setScope scope
    { before with settings, marks }
  if before.loadError then published else published.send (.write scope ⟨settings, marks⟩)

def call (s : State) (setter : Setter) : State :=
  if s.refuses setter.scope then s
  else match setter.outcome (s.scopes setter.scope).settings with
    | .changed change => update s setter.scope change
    | .raised | .unchanged => s

/-- The call ends in an exception. -/
def Raises (s : State) (setter : Setter) : Prop :=
  s.refuses setter.scope ∨ setter.outcome (s.scopes setter.scope).settings = .raised

/-- `done.set()`, which lets a waiting load go on. -/
def setTicket (s : State) (ofLoad : Bool) : State :=
  match ofLoad, s.load with
  | true, some ⟨kind, .flushing⟩ => s.setPhase kind .flushed
  | _, _ => s

/-- The next item of `_write_loop`. -/
def receive (s : State) : Option State :=
  match s.writer, s.queue with
  | .waiting, .ticket ofLoad :: rest => some (setTicket { s with queue := rest } ofLoad)
  | .waiting, .write scope write :: rest =>
    some (if s.refuses scope then { s with queue := rest }
      else { s with queue := rest, writer := .writing scope write })
  | _, _ => none

/-- `with_lock_async` succeeds. -/
def land (s : State) : Option State :=
  match s.writer with
  | .writing scope write =>
    some ({ s with writer := .written scope }.setFile scope (some (write.persist (s.files scope))))
  | _ => none

/-- `with_lock_async` raises, and the error is recorded. -/
def failWrite (s : State) : Option State :=
  match s.writer with
  | .writing _ _ => some { s with writer := .waiting }
  | _ => none

/-- `_clear_modified_scope` -/
def settle (s : State) : Option State :=
  match s.writer with
  | .written scope =>
    some ({ s with writer := .waiting }.setScope scope { s.scopes scope with marks := .empty })
  | _ => none

/-- `flush` of anyone but a load. -/
def flush (s : State) : State := if s.started then s.send (.ticket false) else s

def beginTurn (s : State) (kind : LoadKind) : State :=
  if s.started then (s.send (.ticket true)).setPhase kind .flushing else s.setPhase kind .flushed

def reload (s : State) : Option State :=
  match s.load with
  | none => some (beginTurn s .reload)
  | some _ => none

/-- `set_project_trusted` up to its first await. -/
def trust (s : State) (trusted : Bool) : Option State :=
  match s.load with
  | some _ => none
  | none =>
    if s.trusted = trusted then some s
    else
      let project := { s.scopes .project with marks := .empty }
      let s := { s with trusted }
      if trusted then some (beginTurn (s.setScope .project project) .trust)
      else some (s.setScope .project { project with settings := ∅, loadError := false })

def sample (s : State) : Option State :=
  match s.load with
  | some ⟨kind, .flushed⟩ => some (s.setPhase kind (.sampled s.mutations))
  | _ => none

/-- `_try_load_from_storage` -/
def content (s : State) (scope : Scope) (ok : Bool) : Option Dict :=
  if s.refuses scope then some ∅
  else if ok then some (parseSettings (s.files scope)) else none

def read (s : State) (ok : Bool) : Option State :=
  match s.load with
  | some ⟨.reload, .sampled mutations⟩ =>
    some (s.setPhase .reload (.readGlobal mutations (content s .global ok)))
  | some ⟨.trust, .sampled mutations⟩ =>
    some (s.setPhase .trust (.read mutations none (content s .project ok)))
  | some ⟨kind, .readGlobal mutations global⟩ =>
    some (s.setPhase kind (.read mutations global (content s .project ok)))
  | _ => none

/-- One scope of `_publish_reload`. -/
def ScopeState.reloaded (state : ScopeState) (content : Option Dict) : ScopeState :=
  match content with
  | some settings => ⟨settings, .empty, false⟩
  | none => { state with marks := .empty, loadError := true }

def publishReload (s : State) (global project : Option Dict) : State :=
  (s.setScope .global ((s.scopes .global).reloaded global)).setScope .project
    ((s.scopes .project).reloaded project)

/-- The end of `set_project_trusted`. -/
def publishProject (s : State) (project : Option Dict) : State :=
  s.setScope .project
    { s.scopes .project with settings := project.getD ∅, loadError := project.isNone }

/-- Publish what was read, or start over when a setter raced the read. -/
def publish (s : State) : Option State :=
  match s.load with
  | some ⟨kind, .read mutations global project⟩ =>
    if s.mutations ≠ mutations then some (beginTurn s kind)
    else
      let s := { s with load := none }
      some (match kind with
        | .reload => publishReload s global project
        | .trust => publishProject s project)
  | _ => none

def step (s : State) : Action → Option State
  | .call setter => some (call s setter)
  | .receive => receive s
  | .land => land s
  | .failWrite => failWrite s
  | .settle => settle s
  | .flush => some (flush s)
  | .reload => reload s
  | .trust trusted => trust s trusted
  | .sample => sample s
  | .read ok => read s ok
  | .publish => publish s

/-- `_start` with its reads of the files, `ok` where they succeed. -/
def start (files : Scope → Option Dict) (trusted : Bool) (ok : Scope → Bool) : State :=
  let fresh : State := {
    scopes := fun _ => ⟨∅, .empty, false⟩
    trusted, files
    started := false
    queue := []
    writer := .waiting
    mutations := 0
    load := none }
  publishReload fresh (content fresh .global (ok .global)) (content fresh .project (ok .project))

end Pidrei.SettingsManager
