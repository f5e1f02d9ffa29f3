import Pidrei.SandboxExecution
import Pidrei.Library.Chronicle
import Pidrei.Library.Runs

/-!
Who has the session. It goes from the job that opens it to the execution, and from there
to the owner or to a detached release; a worker is signalled while the execution has it.
-/
namespace Pidrei.Codemode

open Chronicle Values List
open Option (bind_eq_some_iff isSome_iff_ne_none map_eq_some_iff some)

/-- The session that is checked out and not released yet. -/
def outstanding : List Event → Option ℕ :=
  List.foldl (fun session event => match event with
    | .checkedOut pid => some pid
    | .released _ => none
    | _ => session) none

def Event.stop? : Event → Option Stop
  | .stopped stop => some stop
  | _ => none

def firstStop (log : List Event) : Option Stop := log.findSome? Event.stop?

def Justifies (before : List Event) : Event → Prop
  | .checkedOut _ => ∀ pid, .checkedOut pid ∉ before
  | .killed pid => outstanding before = some pid
  | .released pid => outstanding before = some pid
  | .settled result => (∀ other, .settled other ∉ before) ∧
    (∀ stop, firstStop before = some stop → result.error = some stop.error) ∧
    ∀ call ∈ result.calls, call.status ≠ .cancelled → .answered call.index call.status ∈ before
  | .stopped _ => True
  | .answered _ _ => True

namespace Execution

/-- `run` is over, and so is all that it has left running. -/
def Idle (e : Execution) : Prop :=
  ((∃ result, e.owner = .returned result) ∨ e.owner = .raised) ∧ stepDone e.step = true ∧
    (e.detached = .none ∨ e.detached = .over)

structure Good (e : Execution) : Prop where
  justified : Justified Justifies e.log
  released : e.Idle → outstanding e.log = none
  outcome : ∀ result, e.owner = .returned result → .settled result ∈ e.log

/-- The owner is not cancelled while it leaves the scope with the session in its hands. -/
def KeepsSession (e : Execution) (action : Action) : Prop :=
  match action, e.owner with
  | .cancelOwner, .leaving _ (some _) => False
  | _, _ => True

instance (e : Execution) (action : Action) : Decidable (KeepsSession e action) := by
  unfold KeepsSession
  split <;> infer_instance

def jobSession : Option Job → Option ℕ
  | some (.entered pid) => some pid
  | some (.returning pid) => some pid
  | _ => none

def ownerSession : Owner → Option ℕ
  | .leaving _ session => session
  | _ => none

def holder (e : Execution) : Option ℕ := jobSession e.step <|> e.session <|> ownerSession e.owner

def isOpening : Option Job → Bool
  | some .opening => true
  | some (.entered _) => true
  | some (.returning _) => true
  | _ => false

def isOver : Owner → Bool
  | .leaving _ _ => true
  | .releasing _ => true
  | .returned _ => true
  | .raised => true
  | _ => false

/-- Where the owner is not waiting for its step, there is none in flight. -/
def Still (step : Option Job) : Owner → Prop
  | .starting => step = none
  | .answered _ | .receiving | .leaving _ _ => stepDone step = true
  | .opening | .stepping | .releasing _ | .returned _ | .raised => True

structure Custody (e : Execution) : Prop where
  held : outstanding e.log = e.holder
  unopened : e.step = none ∨ e.step = some .opening → ∀ pid, .checkedOut pid ∉ e.log
  pid : e.finished = false → e.pid = e.session
  apart : e.session.isSome = true → isOpening e.step = false
  ended : e.finished = isOver e.owner
  abandoned : e.finished = true → e.session.isSome = true → e.detached = .waiting ∧ e.owner = .raised
  waits : e.detached ≠ .none → e.finished = true
  still : Still e.step e.owner

structure CallTold (log : List Event) (index : ℕ) (call : PendingCall) : Prop where
  record : ∀ record, call.record = some record →
    record.index = index ∧ (record.status ≠ .cancelled → .answered index record.status ∈ log)
  answered : ∀ status, call.phase = .answered status → .answered index status ∈ log

def reported : Owner → Option CodemodeResult
  | .leaving result _ => some result
  | .releasing result => some result
  | .returned result => some result
  | _ => none

structure Told (e : Execution) : Prop where
  justified : Justified Justifies e.log
  stop : e.finished = false → firstStop e.log = e.stop
  unsettled : e.finished = false → ∀ result, .settled result ∉ e.log
  reported : ∀ result, reported e.owner = some result → .settled result ∈ e.log
  calls : ∀ index call, e.pending[index]? = some call → CallTold e.log index call

structure Invariant (e : Execution) : Prop where
  custody : Custody e
  told : Told e

theorem jobSession_of_stepDone {step : Option Job} (h : stepDone step = true) :
    jobSession step = none := by
  unfold stepDone at h
  split at h
  · rfl
  · rfl
  · cases h

variable {e f : Execution}

theorem Custody.idle (h : Custody e) (hidle : e.Idle) : outstanding e.log = none := by
  obtain ⟨howner, hstep, hdetached⟩ := hidle
  have hover : isOver e.owner = true ∧ ownerSession e.owner = none := by
    obtain ⟨result, howner⟩ | howner := howner <;> rw [howner] <;> exact ⟨rfl, rfl⟩
  have hsession : e.session = none := by
    by_contra hsome
    have hwaiting := (h.abandoned (h.ended.trans hover.1) (isSome_iff_ne_none.mpr hsome)).1
    obtain hnone | hnone := hdetached <;> rw [hwaiting] at hnone <;> cases hnone
  rw [h.held, holder, jobSession_of_stepDone hstep, hsession, hover.2]
  rfl

theorem Invariant.good (h : Invariant e) : Good e where
  justified := h.told.justified
  released := h.custody.idle
  outcome := fun result howner => h.told.reported result (by rw [howner]; rfl)

section Events

variable {e f : Execution} {event : Event} {stop : Stop}

def isNeutral : Event → Bool
  | .checkedOut _ => false
  | .released _ => false
  | _ => true

theorem outstanding_concat (log : List Event) (event : Event) :
    outstanding (log ++ [event]) = match event with
      | .checkedOut pid => some pid
      | .released _ => none
      | _ => outstanding log := by
  unfold outstanding
  rw [foldl_append]
  cases event <;> rfl

theorem outstanding_neutral (log : List Event) (h : isNeutral event = true) :
    outstanding (log ++ [event]) = outstanding log := by
  rw [outstanding_concat]
  cases event with
  | checkedOut | released => cases h
  | killed | stopped | settled | answered => rfl

theorem firstStop_concat (log : List Event) (event : Event) :
    firstStop (log ++ [event]) = (firstStop log).or event.stop? := by
  rw [firstStop, findSome?_append, findSome?_singleton]
  rfl

variable {log : List Event}

theorem notMem_concat {other : Event} (h : other ∉ log) (hne : other ≠ event) :
    other ∉ log ++ [event] := by
  intro hmem
  obtain hlog | hlast := mem_append.mp hmem
  · exact h hlog
  · exact hne (mem_singleton.mp hlast)

theorem Custody.record (h : Custody e) (hneutral : isNeutral event = true) :
    Custody (record event e) where
  held := (outstanding_neutral e.log hneutral).trans h.held
  unopened := by
    intro hstep pid
    refine notMem_concat (h.unopened hstep pid) ?_
    intro heq
    rw [← heq] at hneutral
    cases hneutral
  pid := h.pid
  apart := h.apart
  ended := h.ended
  abandoned := h.abandoned
  waits := h.waits
  still := h.still

theorem CallTold.mono {index : ℕ} {call : PendingCall} (h : CallTold log index call)
    (event : Event) : CallTold (log ++ [event]) index call where
  record := fun record hrecord => ⟨(h.record record hrecord).1,
    fun hstatus => mem_append_left _ ((h.record record hrecord).2 hstatus)⟩
  answered := fun status hphase => mem_append_left _ (h.answered status hphase)

theorem Told.record (h : Told e) (hjustified : Justifies e.log event)
    (hstop : e.finished = false → event.stop? = none ∨ e.stop.isSome = true)
    (hsettled : ∀ result, event ≠ .settled result) : Told (record event e) where
  justified := h.justified.concat hjustified
  stop := by
    intro hfinished
    change firstStop (e.log ++ [event]) = e.stop
    rw [firstStop_concat, h.stop hfinished]
    obtain hnone | hsome := hstop hfinished
    · rw [hnone]
      cases e.stop <;> rfl
    · obtain ⟨first, hfirst⟩ := Option.isSome_iff_exists.mp hsome
      rw [hfirst]
      rfl
  unsettled := fun hfinished result =>
    notMem_concat (h.unsettled hfinished result) (hsettled result).symm
  reported := fun result hresult => mem_append_left _ (h.reported result hresult)
  calls := fun index call hcall => (h.calls index call hcall).mono event

theorem Custody.same (h : Custody e) (hlog : f.log = e.log) (hfinished : f.finished = e.finished)
    (hsession : f.session = e.session) (hpid : f.pid = e.pid) (hstep : f.step = e.step)
    (howner : f.owner = e.owner) (hdetached : f.detached = e.detached) : Custody f := by
  obtain ⟨held, unopened, pid, apart, ended, abandoned, waits, still⟩ := h
  constructor
  · rw [hlog, holder, hstep, hsession, howner]
    exact held
  · rw [hstep, hlog]
    exact unopened
  · rw [hfinished, hpid, hsession]
    exact pid
  · rw [hsession, hstep]
    exact apart
  · rw [hfinished, howner]
    exact ended
  · rw [hfinished, hsession, hdetached, howner]
    exact abandoned
  · rw [hdetached, hfinished]
    exact waits
  · rw [hstep, howner]
    exact still

theorem Told.same (h : Told e) (hlog : f.log = e.log) (hfinished : f.finished = e.finished)
    (hstop : f.stop = e.stop) (howner : f.owner = e.owner) (hpending : f.pending = e.pending) :
    Told f := by
  obtain ⟨justified, stop, unsettled, reported, calls⟩ := h
  constructor
  · rw [hlog]
    exact justified
  · rw [hfinished, hlog, hstop]
    exact stop
  · rw [hfinished, hlog]
    exact unsettled
  · rw [howner, hlog]
    exact reported
  · rw [hpending, hlog]
    exact calls

/-- The worker that would be signalled now is the one of the session that is out. -/
theorem Custody.killable (h : Custody e) (hfinished : e.finished = false) {pid : ℕ}
    (hpid : e.pid = some pid) : outstanding e.log = some pid := by
  have hsession : e.session = some pid := (h.pid hfinished).symm.trans hpid
  have hstep : isOpening e.step = false := h.apart (by rw [hsession]; rfl)
  have hjob : jobSession e.step = none := by
    unfold jobSession
    split
    · rename_i hentered
      rw [hentered] at hstep
      cases hstep
    · rename_i hreturning
      rw [hreturning] at hstep
      cases hstep
    · rfl
  rw [h.held, holder, hjob, hsession]
  rfl

theorem kill_eq (e : Execution) :
    e.pid = none ∧ kill e = e ∨ ∃ pid, e.pid = some pid ∧ kill e = record (.killed pid) e := by
  unfold kill record
  cases hpid : e.pid with
  | none =>
    refine .inl ⟨rfl, ?_⟩
    simp only [Option.map_none, Option.toList_none, append_nil]
    rw [← hpid]
  | some pid => exact .inr ⟨pid, rfl, rfl⟩

theorem Custody.kill (h : Custody e) : Custody (kill e) := by
  obtain ⟨_, heq⟩ | ⟨pid, _, heq⟩ := kill_eq e
  · rw [heq]
    exact h
  · rw [heq]
    exact h.record rfl

theorem Told.kill (h : Told e) (hout : ∀ pid, e.pid = some pid → outstanding e.log = some pid) :
    Told (kill e) := by
  obtain ⟨_, heq⟩ | ⟨pid, hpid, heq⟩ := kill_eq e
  · rw [heq]
    exact h
  · have hjustified : Justifies e.log (.killed pid) := hout pid hpid
    rw [heq]
    exact h.record hjustified (fun _ => .inl rfl) fun _ => Event.noConfusion

theorem Invariant.stopLocked (h : Invariant e) (stop : Stop) : Invariant (stopLocked stop e) := by
  have hcustody : Custody (record (.stopped stop) e) := h.custody.record rfl
  unfold Execution.stopLocked
  dsimp only
  split
  · rename_i hover
    refine ⟨hcustody, h.told.record trivial ?_ nofun⟩
    intro hfinished
    rw [Bool.or_eq_true] at hover
    obtain hover | hstop := hover
    · change e.finished = true at hover
      rw [hfinished] at hover
      cases hover
    · exact .inr hstop
  · rename_i hfirst
    rw [Bool.or_eq_true, not_or] at hfirst
    have hfinished : e.finished = false := Bool.eq_false_iff.mpr hfirst.1
    have hnone : e.stop = none := Option.not_isSome_iff_eq_none.mp hfirst.2
    have htold : Told { record (.stopped stop) e with stop := some stop } := by
      have hcalls := fun index call hcall => (h.told.calls index call hcall).mono (.stopped stop)
      refine ⟨h.told.justified.concat trivial, fun _ => ?_, ?_, ?_, hcalls⟩
      · change firstStop (e.log ++ [Event.stopped stop]) = some stop
        rw [firstStop_concat, h.told.stop hfinished, hnone]
        rfl
      · exact fun hfinished result => notMem_concat (h.told.unsettled hfinished result) nofun
      · exact fun result hresult => mem_append_left _ (h.told.reported result hresult)
    have hstopped : Custody { record (.stopped stop) e with stop := some stop } :=
      hcustody.same rfl rfl rfl rfl rfl rfl rfl
    have hkilled := htold.kill fun pid hpid => hstopped.killable hfinished hpid
    exact ⟨hstopped.kill.same rfl rfl rfl rfl rfl rfl rfl, hkilled.same rfl rfl rfl rfl rfl⟩

end Events

section Output

variable {e : Execution}

theorem Invariant.countOutput (h : Invariant e) (chars items : ℕ) :
    Invariant (countOutput chars items e).2 := by
  unfold Execution.countOutput
  split
  · exact h
  · have hcounted : Invariant { e with
        outputChars := e.outputChars + chars, outputItems := e.outputItems + items } :=
      ⟨h.custody.same rfl rfl rfl rfl rfl rfl rfl, h.told.same rfl rfl rfl rfl rfl⟩
    dsimp only
    split
    · exact hcounted.stopLocked outputLimit
    · exact hcounted

theorem flushPrints_eq (e : Execution) :
    ∃ printed output, flushPrints e = { e with printed, output } := by
  unfold flushPrints
  split
  · exact ⟨_, _, rfl⟩
  · exact ⟨_, _, rfl⟩

theorem Invariant.onPrint (h : Invariant e) (text : String) : Invariant (onPrint text e) := by
  have hcounted := h.countOutput text.length 0
  unfold Execution.onPrint
  generalize Execution.countOutput text.length 0 e = counted at hcounted
  obtain ⟨counts, f⟩ := counted
  cases counts with
  | true => exact ⟨hcounted.custody.same rfl rfl rfl rfl rfl rfl rfl, hcounted.told.same rfl rfl rfl rfl rfl⟩
  | false => exact hcounted

theorem Invariant.emit (h : Invariant e) (item : OutputItem) : Invariant (emit item e) := by
  have hcounted := h.countOutput (itemLength item) 1
  unfold Execution.emit
  generalize Execution.countOutput (itemLength item) 1 e = counted at hcounted
  obtain ⟨counts, f⟩ := counted
  cases counts with
  | true =>
    obtain ⟨printed, output, hflush⟩ := flushPrints_eq f
    dsimp only
    rw [hflush]
    exact ⟨hcounted.custody.same rfl rfl rfl rfl rfl rfl rfl, hcounted.told.same rfl rfl rfl rfl rfl⟩
  | false => exact hcounted

end Output

section Owner

variable {e f : Execution}

/-- What `_finish` settles may be settled. -/
theorem Told.settles (h : Told e) (hfinished : e.finished = false) (value : Option Value)
    (error : Option CodemodeError) (hstop : f.stop = e.stop) (hpending : f.pending = e.pending) :
    Justifies e.log (.settled (outcome value error f)) := by
  refine ⟨h.unsettled hfinished, ?_, ?_⟩
  · intro stop hfirst
    rw [h.stop hfinished, ← hstop] at hfirst
    simp only [outcome, hfirst]
  · intro record hrecord hstatus
    change record ∈ f.pending.filterMap PendingCall.record at hrecord
    rw [hpending] at hrecord
    obtain ⟨call, hmem, hcall⟩ := mem_filterMap.mp hrecord
    obtain ⟨index, hindex⟩ := mem_iff_getElem?.mp hmem
    obtain ⟨rfl, hanswered⟩ := (h.calls index call hindex).record record hcall
    exact hanswered hstatus

theorem ownerSession_of_running (h : Custody e) (hfinished : e.finished = false) :
    ownerSession e.owner = none := by
  have hover := h.ended.symm.trans hfinished
  cases howner : e.owner with
  | leaving =>
    rw [howner] at hover
    cases hover
  | starting | opening | stepping | answered | receiving | releasing | returned | raised => rfl

/-- The outcome is settled, and the owner takes the session. -/
theorem Invariant.finish (h : Invariant e) (hfinished : e.finished = false)
    (hstep : stepDone e.step = true) (value : Option Value) (error : Option CodemodeError) :
    Invariant (finish value error e) := by
  obtain ⟨printed, output, hflush⟩ := flushPrints_eq { e with finished := true }
  have hjustified := h.told.settles hfinished value error
    (f := flushPrints { e with finished := true }) (by rw [hflush]) (by rw [hflush])
  unfold Execution.finish
  dsimp only
  generalize outcome value error _ = result at hjustified
  rw [hflush]
  constructor
  · constructor
    · change outstanding (e.log ++ [Event.settled result]) = _
      rw [outstanding_neutral e.log rfl, h.custody.held, holder, holder,
        ownerSession_of_running h.custody hfinished, jobSession_of_stepDone hstep]
      change (none <|> e.session <|> none) = (jobSession e.step <|> none <|> e.session)
      rw [jobSession_of_stepDone hstep]
      cases e.session <;> rfl
    · exact fun hnone pid => notMem_concat (h.custody.unopened hnone pid) nofun
    · exact nofun
    · exact nofun
    · rfl
    · exact nofun
    · exact fun _ => rfl
    · exact hstep
  · constructor
    · exact h.told.justified.concat hjustified
    · exact nofun
    · exact nofun
    · intro other hother
      cases hother
      exact mem_append_right _ (mem_singleton_self _)
    · exact fun index call hcall => (h.told.calls index call hcall).mono (.settled result)

variable {owner : Owner}

theorem reported_of_running (h : isOver owner = false) : reported owner = none := by
  cases owner with
  | leaving | releasing | returned => cases h
  | starting | opening | stepping | answered | receiving | raised => rfl

theorem Invariant.goOn (h : Invariant e) (hfinished : e.finished = false)
    (hold : jobSession e.step = none) {step : Option Job} (hnew : jobSession step = none)
    (hunopened : step = none ∨ step = some .opening → e.step = none ∨ e.step = some .opening)
    (hapart : e.session.isSome = true → isOpening step = false) (howner : isOver owner = false)
    (hstill : Still step owner) : Invariant { e with step, owner } := by
  have hrunning : Custody { e with step, owner } := by
    refine ⟨?_, fun hstep => h.custody.unopened (hunopened hstep), h.custody.pid, hapart,
      hfinished.trans howner.symm, ?_, h.custody.waits, hstill⟩
    · have hnone : ownerSession owner = none := by
        cases owner with
        | leaving => cases howner
        | starting | opening | stepping | answered | receiving | releasing | returned | raised => rfl
      have hheld := h.custody.held
      rw [holder, hold, ownerSession_of_running h.custody hfinished] at hheld
      rw [hheld, holder, hnew, hnone]
    · intro hover
      rw [hfinished] at hover
      cases hover
  refine ⟨hrunning, h.told.justified, h.told.stop, h.told.unsettled, ?_, h.told.calls⟩
  intro result hresult
  rw [reported_of_running howner] at hresult
  cases hresult

theorem Invariant.feed (h : Invariant e) (hfinished : e.finished = false)
    (hstep : stepDone e.step = true) : Invariant (feed e) :=
  h.goOn hfinished (jobSession_of_stepDone hstep) rfl (fun hstep => by simp at hstep)
    (fun _ => rfl) rfl trivial

theorem Invariant.look (h : Invariant e) (hfinished : e.finished = false)
    (hstep : stepDone e.step = true) (howner : isOver owner = false) (hstill : Still e.step owner) :
    Invariant { e with owner } :=
  h.goOn hfinished (jobSession_of_stepDone hstep) (jobSession_of_stepDone hstep) id
    h.custody.apart howner hstill

theorem Invariant.spawn (h : Invariant e) (callId : ℕ) (tool : Option String) :
    Invariant (spawn callId tool e) := by
  refine ⟨h.custody.same rfl rfl rfl rfl rfl rfl rfl, h.told.justified, h.told.stop,
    h.told.unsettled, h.told.reported, ?_⟩
  intro index call hcall
  change (e.pending ++ [_])[index]? = some call at hcall
  obtain hlt | hle := Nat.lt_or_ge index e.pending.length
  · rw [getElem?_append_left hlt] at hcall
    exact h.told.calls index call hcall
  · rw [getElem?_append_right hle] at hcall
    obtain ⟨hindex, hnew⟩ := List.getElem?_eq_some_iff.mp hcall
    have hplace : index = e.pending.length := by
      rw [length_singleton] at hindex
      omega
    rw [getElem_singleton] at hnew
    rw [← hnew, hplace]
    refine ⟨?_, nofun⟩
    intro record hrecord
    obtain ⟨name, _, rfl⟩ := map_eq_some_iff.mp hrecord
    exact ⟨rfl, fun hstatus => absurd rfl hstatus⟩

theorem Invariant.complete (h : Invariant e) (hfinished : e.finished = false)
    (hstep : stepDone e.step = true) (value : Except String Value) : Invariant (complete value e) := by
  cases value with
  | ok value => exact h.finish hfinished hstep (some value) none
  | error text => exact h.finish hfinished hstep none _

theorem Invariant.handle (h : Invariant e) (hfinished : e.finished = false)
    (hstep : stepDone e.step = true) (snapshot : Snapshot) : Invariant (handle snapshot e) := by
  have hlook : ∀ owner, isOver owner = false → Still e.step owner → Invariant { e with owner } :=
    fun owner => h.look hfinished hstep
  cases snapshot with
  | complete value => exact h.complete hfinished hstep value
  | osFunction | nameLookup => exact h.feed hfinished hstep
  | future => exact hlook _ rfl hstep
  | unexpected text => exact h.finish hfinished hstep none _
  | function call =>
    cases call with
    | exit | answer => exact hlook _ rfl hstep
    | emit item => exact (hlook (.answered false) rfl hstep).emit item
    | spawn callId tool => exact (hlook (.answered false) rfl hstep).spawn callId tool

theorem Invariant.afterOpening (h : Invariant e) (hfinished : e.finished = false)
    (hstep : stepDone e.step = true) (setup : Setup) (outcome : JobOutcome) :
    Invariant (afterOpening setup outcome e) := by
  have hfinish := fun error => h.finish hfinished hstep none error
  unfold Execution.afterOpening
  split
  · split
    · exact hfinish _
    · exact hfinish _
  · split
    · exact hfinish _
    · exact h.feed hfinished hstep

theorem finished_of_owner (h : Custody e) (howner : e.owner = owner)
    (hover : isOver owner = false) : e.finished = false := by
  rw [h.ended, howner]
  exact hover

theorem Invariant.wrapUp (h : Invariant e) {was : Owner} (hwas : e.owner = was)
    (hover : isOver was = true ∧ was ≠ .raised ∧ ownerSession was = none)
    (hnew : isOver owner = true ∧ ownerSession owner = none) (hstill : Still e.step owner)
    (hreported : ∀ result, reported owner = some result → reported was = some result) :
    Invariant { e with owner } := by
  subst was
  have hsession : e.session = none := by
    by_contra hsome
    exact hover.2.1 (h.custody.abandoned (h.custody.ended.trans hover.1)
      (isSome_iff_ne_none.mpr hsome)).2
  constructor
  · refine ⟨?_, h.custody.unopened, h.custody.pid, h.custody.apart,
      h.custody.ended.trans (hover.1.trans hnew.1.symm), ?_, h.custody.waits, hstill⟩
    · have hheld := h.custody.held
      rw [holder, hover.2.2] at hheld
      rw [hheld, holder, hnew.2]
    · intro _ hsome
      rw [hsession] at hsome
      cases hsome
  · exact ⟨h.told.justified, h.told.stop, h.told.unsettled,
      fun result hresult => h.told.reported result (hreported result hresult), h.told.calls⟩

theorem Invariant.resume (h : Invariant e) {setup : Setup} (hnext : resume setup e = some f) :
    Invariant f := by
  unfold Execution.resume at hnext
  split at hnext
  · rename_i outcome hstep howner
    rw [← some.inj hnext]
    exact h.afterOpening (finished_of_owner h.custody howner rfl) (by rw [hstep]; rfl) setup outcome
  · rename_i snapshot hstep howner
    rw [← some.inj hnext]
    exact h.handle (finished_of_owner h.custody howner rfl) (by rw [hstep]; rfl) snapshot
  · rename_i failure hstep howner
    rw [← some.inj hnext]
    exact h.finish (finished_of_owner h.custody howner rfl) (by rw [hstep]; rfl) none _
  · rename_i outcome result hstep howner
    rw [← some.inj hnext]
    exact h.wrapUp howner ⟨rfl, Owner.noConfusion, rfl⟩ ⟨rfl, rfl⟩ trivial fun _ hresult => hresult
  · cases hnext

theorem Invariant.check (h : Invariant e) (hnext : check e = some f) : Invariant f := by
  unfold Execution.check at hnext
  split at hnext
  · rename_i exit howner
    have hfinished := finished_of_owner h.custody howner rfl
    have hstep : stepDone e.step = true := by
      have hstill := h.custody.still
      rw [howner] at hstill
      exact hstill
    rw [← some.inj hnext]
    split
    · exact h.finish hfinished hstep none none
    · exact h.feed hfinished hstep
  · cases hnext

theorem Invariant.receive (h : Invariant e) (hnext : receive e = some f) : Invariant f := by
  unfold Execution.receive at hnext
  split at hnext
  · rename_i message messages howner _
    have hfinished := finished_of_owner h.custody howner rfl
    have hstep : stepDone e.step = true := by
      have hstill := h.custody.still
      rw [howner] at hstill
      exact hstill
    have htaken : Invariant { e with channel := [] } :=
      ⟨h.custody.same rfl rfl rfl rfl rfl rfl rfl, h.told.same rfl rfl rfl rfl rfl⟩
    rw [← some.inj hnext]
    split
    · exact htaken.finish hfinished hstep none none
    · exact htaken.feed hfinished hstep
  · cases hnext

/-- The session that the owner took is released. -/
theorem Invariant.leaveScope (h : Invariant e) (hnext : leaveScope e = some f) : Invariant f := by
  unfold Execution.leaveScope at hnext
  split at hnext
  · rename_i result howner
    rw [← some.inj hnext]
    exact h.wrapUp howner ⟨rfl, Owner.noConfusion, rfl⟩ ⟨rfl, rfl⟩ trivial fun _ hresult => hresult
  · rename_i result pid howner
    rw [← some.inj hnext]
    have hstill := h.custody.still
    rw [howner] at hstill
    have hfinished : e.finished = true := by
      rw [h.custody.ended, howner]
      rfl
    have hsession : e.session = none := by
      by_contra hsome
      have hraised := (h.custody.abandoned hfinished (isSome_iff_ne_none.mpr hsome)).2
      rw [howner] at hraised
      cases hraised
    have hout : outstanding e.log = some pid := by
      rw [h.custody.held, holder, jobSession_of_stepDone hstill, hsession, howner]
      rfl
    constructor
    · refine ⟨?_, nofun, ?_, fun _ => rfl, hfinished, ?_, h.custody.waits, trivial⟩
      · change outstanding (e.log ++ [Event.released pid]) = _
        rw [outstanding_concat, holder]
        rw [hsession]
        rfl
      · intro hrunning
        rw [hfinished] at hrunning
        cases hrunning
      · intro _ hsome
        rw [hsession] at hsome
        cases hsome
    · have hjustified : Justifies e.log (.released pid) := hout
      have hreleased := h.told.record hjustified (fun _ => .inl rfl) fun _ => Event.noConfusion
      refine ⟨hreleased.justified, hreleased.stop, hreleased.unsettled, ?_, hreleased.calls⟩
      intro other hother
      exact hreleased.reported other (by
        change reported e.owner = some other
        rw [howner]
        exact hother)
  · cases hnext

/-- A script that the owner leaves is abandoned, unless its outcome is settled already. -/
theorem Invariant.cancelOwner (h : Invariant e) (hkeeps : KeepsSession e .cancelOwner)
    (hnext : cancelOwner e = some f) : Invariant f := by
  have habandoned : e.finished = false → Invariant { abandon e with owner := .raised } := by
    intro hfinished
    have hleft : Invariant { e with finished := true, detached := .waiting, owner := .raised } := by
      refine ⟨⟨?_, h.custody.unopened, nofun, h.custody.apart, rfl, fun _ _ => ⟨rfl, rfl⟩,
        fun _ => rfl, trivial⟩, h.told.justified, nofun, nofun, nofun, h.told.calls⟩
      have hheld := h.custody.held
      rw [holder, ownerSession_of_running h.custody hfinished] at hheld
      exact hheld
    have hkilled := hleft.told.kill fun pid hpid => h.custody.killable hfinished hpid
    have hcustody := hleft.custody.kill
    unfold abandon
    rw [hfinished]
    exact ⟨hcustody.same rfl rfl rfl rfl rfl rfl rfl, hkilled.same rfl rfl rfl rfl rfl⟩
  unfold Execution.cancelOwner at hnext
  split at hnext
  · rename_i howner
    rw [← some.inj hnext]
    exact habandoned (finished_of_owner h.custody howner rfl)
  · rename_i howner
    rw [← some.inj hnext]
    exact habandoned (finished_of_owner h.custody howner rfl)
  · rename_i howner
    rw [← some.inj hnext]
    exact habandoned (finished_of_owner h.custody howner rfl)
  · rename_i result session howner
    rw [← some.inj hnext]
    cases session with
    | none =>
      exact h.wrapUp howner ⟨rfl, Owner.noConfusion, rfl⟩ ⟨rfl, rfl⟩ trivial nofun
    | some pid =>
      unfold KeepsSession at hkeeps
      rw [howner] at hkeeps
      exact hkeeps.elim
  · rename_i result howner
    rw [← some.inj hnext]
    exact h.wrapUp howner ⟨rfl, Owner.noConfusion, rfl⟩ ⟨rfl, rfl⟩ trivial nofun
  all_goals cases hnext

end Owner

section Jobs

variable {e f : Execution} {job : Job}

theorem Still.of_running {owner : Owner} (h : Still (some job) owner)
    (hrunning : stepDone (some job) = false) (step : Option Job) : Still step owner := by
  have hfalse : ¬ stepDone (some job) = true := by
    rw [hrunning]
    exact Bool.false_ne_true
  cases owner with
  | starting => cases h
  | answered | receiving | leaving => exact absurd h hfalse
  | opening | stepping | releasing | returned | raised => trivial

theorem Invariant.moveJob (h : Invariant e) {step : Job} (hjob : e.step = some job)
    (hrunning : stepDone (some job) = false)
    (hsession : jobSession (some step) = jobSession (some job))
    (hlater : isOpening (some step) = true → isOpening (some job) = true) (hnew : step ≠ .opening) :
    Invariant { e with step := some step } := by
  have hstill := h.custody.still
  rw [hjob] at hstill
  constructor
  · refine ⟨?_, ?_, h.custody.pid, ?_, h.custody.ended, h.custody.abandoned, h.custody.waits,
      hstill.of_running hrunning _⟩
    · have hheld := h.custody.held
      rw [holder, hjob] at hheld
      rw [hheld, holder, hsession]
    · intro hstep
      obtain hstep | hstep := hstep
      · cases hstep
      · exact absurd (some.inj hstep) hnew
    · intro hsome
      have hapart := h.custody.apart hsome
      rw [hjob] at hapart
      by_contra hopening
      rw [hlater (Bool.not_eq_false _ ▸ hopening)] at hapart
      cases hapart
  · exact h.told.same rfl rfl rfl rfl rfl

theorem session_of_opening (h : Custody e) (hstep : isOpening e.step = true) : e.session = none := by
  by_contra hsome
  rw [h.apart (isSome_iff_ne_none.mpr hsome)] at hstep
  cases hstep

theorem Invariant.enter (h : Invariant e) {entered : Except Failure ℕ}
    (hnext : enter entered e = some f) : Invariant f := by
  unfold Execution.enter at hnext
  split at hnext
  · rename_i hstep
    have hunopened := h.custody.unopened (.inr hstep)
    have hstill := h.custody.still
    rw [hstep] at hstill
    rw [← some.inj hnext]
    cases entered with
    | error failure => exact h.moveJob hstep rfl rfl nofun nofun
    | ok pid =>
      have hjustified : Justifies e.log (.checkedOut pid) := hunopened
      have htold := h.told.record hjustified (fun _ => .inl rfl) fun _ => Event.noConfusion
      have hsession := session_of_opening h.custody (by rw [hstep]; rfl)
      refine ⟨⟨?_, ?_, h.custody.pid, ?_, h.custody.ended, h.custody.abandoned, h.custody.waits,
        hstill.of_running rfl _⟩, htold.same rfl rfl rfl rfl rfl⟩
      · exact outstanding_concat e.log (.checkedOut pid)
      · intro hnone
        obtain hnone | hnone := hnone <;> cases hnone
      · intro hsome
        rw [hsession] at hsome
        cases hsome
  · cases hnext

theorem Invariant.handOver (h : Invariant e) (hnext : handOver e = some f) : Invariant f := by
  unfold Execution.handOver at hnext
  split at hnext
  · rename_i pid hstep
    have hstill := h.custody.still
    rw [hstep] at hstill
    rw [← some.inj hnext]
    split
    · exact h.moveJob hstep rfl rfl (fun _ => rfl) nofun
    · rename_i hrunning
      have hheld := h.custody.held
      rw [holder, hstep] at hheld
      refine ⟨⟨hheld, ?_, fun _ => rfl, fun _ => rfl, h.custody.ended, ?_, h.custody.waits,
        hstill.of_running rfl _⟩, h.told.same rfl rfl rfl rfl rfl⟩
      · intro hnone
        obtain hnone | hnone := hnone <;> cases hnone
      · exact fun hfinished => absurd hfinished hrunning
  · cases hnext

theorem Invariant.exitAbandoned (h : Invariant e) (hnext : exitAbandoned e = some f) :
    Invariant f := by
  unfold Execution.exitAbandoned at hnext
  split at hnext
  · rename_i pid hstep
    have hstill := h.custody.still
    have hsession := session_of_opening h.custody (by rw [hstep]; rfl)
    have hheld := h.custody.held
    rw [hstep] at hstill
    rw [holder, hstep] at hheld
    have hjustified : Justifies e.log (.released pid) := hheld
    have htold := h.told.record hjustified (fun _ => .inl rfl) fun _ => Event.noConfusion
    have howner : ownerSession e.owner = none := by
      cases howner : e.owner with
      | leaving =>
        rw [howner] at hstill
        cases hstill
      | starting | opening | stepping | answered | receiving | releasing | returned | raised => rfl
    rw [← some.inj hnext]
    refine ⟨⟨?_, ?_, h.custody.pid, fun _ => rfl, h.custody.ended, h.custody.abandoned, h.custody.waits,
      hstill.of_running rfl _⟩, htold.same rfl rfl rfl rfl rfl⟩
    · change outstanding (e.log ++ [Event.released pid]) = (none <|> e.session <|> ownerSession e.owner)
      rw [outstanding_concat, hsession, howner]
      rfl
    · intro hnone
      obtain hnone | hnone := hnone <;> cases hnone
  · cases hnext

/-- The detached release takes what the abandoned execution still has. -/
theorem Invariant.takeSession (h : Invariant e) (hnext : takeSession e = some f) : Invariant f := by
  unfold Execution.takeSession at hnext
  split at hnext
  · rename_i hwaiting
    have hfinished := h.custody.waits (by rw [hwaiting]; exact Detached.noConfusion)
    obtain ⟨hstep, htaken⟩ := Option.ite_none_right_eq_some.mp hnext
    have hjob := jobSession_of_stepDone hstep
    rw [← some.inj htaken]
    split
    · rename_i hsession
      refine ⟨⟨h.custody.held, h.custody.unopened, h.custody.pid, h.custody.apart, h.custody.ended,
        ?_, fun _ => hfinished, h.custody.still⟩, h.told.same rfl rfl rfl rfl rfl⟩
      intro _ hsome
      rw [hsession] at hsome
      cases hsome
    · rename_i pid hsession
      have hraised := (h.custody.abandoned hfinished (by rw [hsession]; rfl)).2
      have hheld := h.custody.held
      rw [holder, hjob, hsession] at hheld
      have hjustified : Justifies e.log (.released pid) := hheld
      have htold := h.told.record hjustified (fun _ => .inl rfl) fun _ => Event.noConfusion
      refine ⟨⟨?_, ?_, ?_, nofun, h.custody.ended, nofun, fun _ => hfinished, h.custody.still⟩,
        htold.same rfl rfl rfl rfl rfl⟩
      · change outstanding (e.log ++ [Event.released pid]) =
          (jobSession e.step <|> none <|> ownerSession e.owner)
        rw [outstanding_concat, hjob, hraised]
        rfl
      · exact fun hnone other => notMem_concat (h.custody.unopened hnone other) nofun
      · intro hrunning
        rw [hfinished] at hrunning
        cases hrunning
  · cases hnext

theorem Invariant.endJob (h : Invariant e) {outcome : Except Failure Snapshot}
    (hnext : endJob outcome e = some f) : Invariant f := by
  unfold Execution.endJob at hnext
  split at hnext
  · rename_i hstep
    rw [← some.inj hnext]
    cases outcome with
    | ok | error => exact h.moveJob hstep rfl rfl nofun nofun
  · rename_i hstep
    rw [← some.inj hnext]
    cases outcome with
    | ok | error => exact h.moveJob hstep rfl rfl nofun nofun
  · rename_i hstep
    rw [← some.inj hnext]
    exact h.moveJob hstep rfl rfl nofun nofun
  · cases hnext

end Jobs

section Calls

variable {e f : Execution} {index : ℕ}

theorem Invariant.modifyCall (h : Invariant e) {change : PendingCall → PendingCall}
    (hchange : ∀ call, e.pending[index]? = some call → CallTold e.log index (change call)) :
    Invariant (modifyCall index change e) := by
  refine ⟨h.custody.same rfl rfl rfl rfl rfl rfl rfl, h.told.justified, h.told.stop,
    h.told.unsettled, h.told.reported, ?_⟩
  intro place call hcall
  change (e.pending.modify index change)[place]? = some call at hcall
  rw [getElem?_modify] at hcall
  obtain ⟨old, hold, rfl⟩ := map_eq_some_iff.mp hcall
  by_cases hplace : index = place
  · subst place
    rw [if_pos rfl]
    exact hchange old hold
  · rw [if_neg hplace]
    exact h.told.calls place old hold

theorem Invariant.answerCall (h : Invariant e) {status : CallStatus}
    (hnext : answerCall index status e = some f) : Invariant f := by
  obtain ⟨call, _, hnext⟩ := bind_eq_some_iff.mp hnext
  obtain ⟨_, hanswered⟩ := Option.ite_none_right_eq_some.mp hnext
  rw [← some.inj hanswered]
  have hlogged : Invariant (record (.answered index status) e) :=
    ⟨h.custody.record rfl, h.told.record trivial (fun _ => .inl rfl) fun _ => Event.noConfusion⟩
  apply hlogged.modifyCall
  intro old hold
  have htold := hlogged.told.calls index old hold
  refine ⟨htold.record, ?_⟩
  intro other hother
  obtain rfl := CallPhase.answered.inj hother
  exact mem_append_right _ (mem_singleton_self _)

theorem Invariant.recordCall (h : Invariant e) (hnext : recordCall index e = some f) :
    Invariant f := by
  obtain ⟨call, hcall, hnext⟩ := bind_eq_some_iff.mp hnext
  split at hnext
  · rename_i status hphase
    rw [← some.inj hnext]
    split
    · apply h.modifyCall
      exact fun old hold => ⟨(h.told.calls index old hold).record, nofun⟩
    · have hrecorded : Invariant (Execution.modifyCall index (fun call => { call with
          phase := .over, record := call.record.map ({ · with status }) }) e) := by
        apply h.modifyCall
        intro old hold
        obtain rfl := some.inj (hcall.symm.trans hold)
        have htold := h.told.calls index call hcall
        refine ⟨?_, nofun⟩
        intro record hrecord
        obtain ⟨before, hbefore, rfl⟩ := map_eq_some_iff.mp hrecord
        exact ⟨(htold.record before hbefore).1, fun _ => htold.answered status hphase⟩
      exact ⟨hrecorded.custody.same rfl rfl rfl rfl rfl rfl rfl,
        hrecorded.told.same rfl rfl rfl rfl rfl⟩
  · cases hnext

theorem Invariant.dropCall (h : Invariant e) (hnext : dropCall index e = some f) : Invariant f := by
  obtain ⟨call, _, hnext⟩ := bind_eq_some_iff.mp hnext
  obtain ⟨_, hdropped⟩ := Option.ite_none_right_eq_some.mp hnext
  rw [← some.inj hdropped]
  apply h.modifyCall
  exact fun old hold => ⟨(h.told.calls index old hold).record, nofun⟩

end Calls

theorem outstanding_eq_none {log : List Event} (h : ∀ pid, .checkedOut pid ∉ log) :
    outstanding log = none := by
  induction log using reverseRecOn with
  | nil => rfl
  | append_singleton log event ih =>
    rw [outstanding_concat]
    split
    · exact absurd (mem_append_right _ (mem_singleton_self _)) (h _)
    · rfl
    · exact ih fun pid hmem => h pid (mem_append_left _ hmem)

theorem Invariant.beginRun (h : Invariant e) (hnext : beginRun e = some f) : Invariant f := by
  unfold Execution.beginRun at hnext
  split at hnext
  · rename_i howner
    have hfinished := finished_of_owner h.custody howner rfl
    have hstep : e.step = none := by
      have hstill := h.custody.still
      rw [howner] at hstill
      exact hstill
    have hdone : stepDone e.step = true := by
      rw [hstep]
      rfl
    have hsession : e.session = none := by
      have hheld := h.custody.held
      rw [outstanding_eq_none (h.custody.unopened (.inl hstep)), holder, hstep, howner] at hheld
      cases hsession : e.session with
      | none => rfl
      | some pid =>
        rw [hsession] at hheld
        cases hheld
    rw [← some.inj hnext]
    split
    · exact h.finish hfinished hdone none none
    · apply h.goOn hfinished (jobSession_of_stepDone hdone)
      · rfl
      · exact fun _ => .inl hstep
      · intro hsome
        rw [hsession] at hsome
        cases hsome
      · rfl
      · trivial
  · cases hnext

theorem Invariant.endRelease (h : Invariant e) (hnext : endRelease e = some f) : Invariant f := by
  unfold Execution.endRelease at hnext
  split at hnext
  · rename_i pid hdetached
    rw [← some.inj hnext]
    refine ⟨⟨h.custody.held, h.custody.unopened, h.custody.pid, h.custody.apart, h.custody.ended,
      ?_, ?_, h.custody.still⟩, h.told.same rfl rfl rfl rfl rfl⟩
    · intro hfinished hsome
      have hwaiting := (h.custody.abandoned hfinished hsome).1
      rw [hdetached] at hwaiting
      cases hwaiting
    · exact fun _ => h.custody.waits (by rw [hdetached]; exact Detached.noConfusion)
  · cases hnext

theorem Invariant.printText {text : String} (h : Invariant e) (hnext : printText text e = some f) :
    Invariant f := by
  unfold Execution.printText at hnext
  split at hnext
  · rw [← some.inj hnext]
    exact h.onPrint text
  · cases hnext

theorem Invariant.next {setup : Setup} {action : Action} (h : Invariant e)
    (hkeeps : KeepsSession e action) (hnext : next setup e action = some f) : Invariant f := by
  cases action with
  | begin => exact h.beginRun hnext
  | enter entered => exact h.enter hnext
  | handOver => exact h.handOver hnext
  | exitAbandoned => exact h.exitAbandoned hnext
  | endJob outcome => exact h.endJob hnext
  | print text => exact h.printText hnext
  | resume => exact h.resume hnext
  | check => exact h.check hnext
  | receive => exact h.receive hnext
  | leaveScope => exact h.leaveScope hnext
  | answerCall index status => exact h.answerCall hnext
  | recordCall index => exact h.recordCall hnext
  | dropCall index => exact h.dropCall hnext
  | cancel | deadline | close =>
    rw [← some.inj hnext]
    exact h.stopLocked _
  | cancelOwner => exact h.cancelOwner hkeeps hnext
  | takeSession => exact h.takeSession hnext
  | endRelease => exact h.endRelease hnext

theorem invariant_start : Invariant {} where
  custody := ⟨rfl, fun _ _ => not_mem_nil, fun _ => rfl, fun _ => rfl, rfl, nofun,
    fun hnone => absurd rfl hnone, rfl⟩
  told := ⟨justified_nil, fun _ => rfl, fun _ _ => not_mem_nil, nofun, nofun⟩

/-- The worker is signalled only while its session is out, the session that was checked out is
released once, one outcome is settled, in which the first stop wins, and a call is reported as it
was answered before: in every run in which the owner is not cancelled while it leaves the scope
with the session in its hands. -/
theorem session_released_once {setup : Setup} {e : Execution}
    (h : Runs.Reaches (next setup) KeepsSession {} e) : Good e :=
  (h.kept invariant_start fun _ _ _ he hkeeps hnext => he.next hkeeps hnext).good

def setup : Setup := { timeoutMs := "300000", maxFeedDurationSecs := "60" }

/-- A script with one tool call, stopped by its deadline while the call runs. -/
def stoppedScript : List Action :=
  [.begin, .enter (.ok 7), .handOver, .endJob (.ok .nameLookup), .resume,
    .endJob (.ok (.function (.spawn 1 (some "read")))), .resume, .check,
    .endJob (.ok .future), .resume, .deadline, .answerCall 0 .ok, .receive, .recordCall 0,
    .leaveScope, .endJob (.error (.crashed "killed")), .resume]

theorem session_released_once_stopped :
    ∃ e, Runs.Reaches (next setup) KeepsSession {} e ∧ Good e ∧
      e.log.map (fun event => match event with
        | .settled result => some result.error
        | _ => none) = [none, none, none, none, some (some {
          kind := .timeout, message := "Execution timed out after 300000 ms" }), none] ∧
      outstanding e.log = none := by
  have hrun : (Runs.run (fun e action => if KeepsSession e action then next setup e action else none)
      {} stoppedScript).map (fun e => (e.log.map (fun event => match event with
        | .settled result => some result.error
        | _ => none), outstanding e.log)) = some ([none, none, none, none, some (some {
          kind := .timeout, message := "Execution timed out after 300000 ms" }), none], none) := by
    decide
  obtain ⟨e, he, hfacts⟩ := map_eq_some_iff.mp hrun
  obtain ⟨hlog, hout⟩ := Prod.mk.inj hfacts
  have hreaches := Runs.Reaches.of_run he
  exact ⟨e, hreaches, session_released_once hreaches, hlog, hout⟩

/-- A script that starts a call and ends; its owner is cancelled while the call unwinds. -/
def cancelledLeaving : List Action :=
  [.begin, .enter (.ok 7), .handOver, .endJob (.ok .nameLookup), .resume,
    .endJob (.ok (.function (.spawn 1 (some "slow")))), .resume, .check,
    .endJob (.ok (.complete (.ok .null))), .resume, .cancelOwner]

/-- Nothing is left that would release the session. -/
theorem session_never_released :
    ¬ ∀ e, Runs.Reaches (next setup) (fun _ _ => True) {} e → Good e := by
  intro hall
  obtain ⟨e, he, hidle, hout⟩ : ∃ e,
      Runs.run (fun e action => if True then next setup e action else none) {} cancelledLeaving =
        some e ∧ e.Idle ∧ outstanding e.log = some 7 :=
    ⟨_, rfl, ⟨.inr rfl, rfl, .inl rfl⟩, rfl⟩
  have hnone := (hall e (Runs.Reaches.of_run he)).released hidle
  rw [hout] at hnone
  cases hnone

end Execution

end Pidrei.Codemode
