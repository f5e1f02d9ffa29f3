import Pidrei.AgentSession

/-!
Who has claimed the session. The flag of an active run agrees with the claims and releases seen
so far, whatever else is going on; most steps leave both alone.
-/
namespace Pidrei.AgentSession

open AgentLoop (Queue)
open MessageQueues (QueueMode)
open Messages (Message)
open Function (update update_of_ne update_self)

inductive Stage
  | unclaimed
  | active
  | released
  deriving DecidableEq

def RunPhase.stage : RunPhase → Stage
  | .unclaimed => .unclaimed
  | .released | .emitting | .restarting _ | .awaiting _ _ | .over => .released
  | _ => .active

/-- What the claims and releases seen so far make of a run. -/
def stageIn : List Entry → ℕ → Stage :=
  List.foldl (fun stages entry => match entry with
    | .claimed r => update stages r .active
    | .released r => update stages r .released
    | _ => stages) fun _ => .unclaimed

def ActiveIn (log : List Entry) (r : ℕ) : Prop := stageIn log r = .active

/-- An entry that neither claims nor releases. -/
def Entry.isNeutral : Entry → Bool
  | .claimed _ | .released _ => false
  | _ => true

theorem stageIn_concat (log : List Entry) (entry : Entry) :
    stageIn (log ++ [entry]) = match entry with
      | .claimed r => update (stageIn log) r .active
      | .released r => update (stageIn log) r .released
      | _ => stageIn log := by
  unfold stageIn
  rw [List.foldl_append]
  cases entry <;> rfl

theorem stageIn_neutral (log : List Entry) {entry : Entry} (h : entry.isNeutral = true) :
    stageIn (log ++ [entry]) = stageIn log := by
  rw [stageIn_concat]
  cases entry with
  | claimed | released => cases h
  | posted | drained | decided | settled | compacted | leafMoved => rfl

/-- What a call's place says about its message. -/
inductive Standing
  | open
  | waiting (event : ℕ)
  | deferred
  | queued
  | started
  deriving DecidableEq

def Call.standing : Call → Standing
  | .prompt _ (.waiting event _ _) | .custom _ _ (.waiting event) => .waiting event
  | .prompt _ .deferred | .custom _ _ .deferred => .deferred
  | .prompt _ .queued | .custom _ _ .queued => .queued
  | .prompt _ .started | .custom _ _ .started => .started
  | _ => .open

/-- The message is not accepted yet, and no one is to start its call over. -/
def Standing.isLoose : Standing → Bool
  | .open | .waiting _ => true
  | _ => false

def Entry.isRestructuring : Entry → Bool
  | .compacted _ | .leafMoved _ => true
  | _ => false

/-- The step is a matter of the calls. -/
structure OnlyCalls (s t : Session) : Prop where
  run : t.run = s.run
  active : t.active = s.active
  inputClosed : t.inputClosed = s.inputClosed
  emitting : t.isEmittingSettled = s.isEmittingSettled
  deferred : t.deferredActions = s.deferredActions
  queues : t.queues = s.queues
  jobs : t.jobs = s.jobs
  abortRequested : t.abortRequested = s.abortRequested
  abortDuring : t.abortDuringBeforeSettle = s.abortDuringBeforeSettle
  inputSet : t.inputSet = s.inputSet
  log : t.log = s.log ∨ ∃ entry, entry.isRestructuring = true ∧ t.log = s.log ++ [entry]
  call : ∀ c, (t.call c).standing = (s.call c).standing ∨
    (s.call c).standing.isLoose = true ∧ (t.call c).standing = .open

section Calls

open Session

variable {s t u : Session}

theorem OnlyCalls.refl (s : Session) : OnlyCalls s s :=
  ⟨rfl, rfl, rfl, rfl, rfl, rfl, rfl, rfl, rfl, rfl, .inl rfl, fun _ => .inl rfl⟩

variable {c : ℕ} {ok : Bool}

theorem onlyCalls_setCall {call : Call} (hloose : (s.call c).standing.isLoose = true)
    (hopen : call.standing = .open) : OnlyCalls s (s.setCall c call) := by
  refine { OnlyCalls.refl s with call := ?_ }
  intro other
  by_cases hother : other = c
  · subst hother
    obtain hnew | hsame := setCall_call s other call
    · right
      exact ⟨hloose, by rw [hnew, hopen]⟩
    · left
      rw [hsame]
  · left
    rw [setCall_call_of_ne s call hother]

theorem OnlyCalls.flags (h : OnlyCalls s t) (compactionCancel branchSummaryCancel : Option ℕ)
    (idleEvent : Option ℕ) (idleEvents : ℕ) : OnlyCalls s { t with
      compactionCancel := compactionCancel
      branchSummaryCancel := branchSummaryCancel
      idleEvent := idleEvent
      idleEvents := idleEvents } :=
  { h with }

theorem OnlyCalls.record (h : OnlyCalls s t) (hlog : t.log = s.log) {entry : Entry}
    (hentry : entry.isRestructuring = true) : OnlyCalls s (t.record entry) :=
  { h with log := .inr ⟨entry, hentry, congrArg (· ++ [entry]) hlog⟩ }

theorem OnlyCalls.resolveIdle (h : OnlyCalls s t) : OnlyCalls s t.resolveIdle := by
  unfold Session.resolveIdle
  split
  · exact { h with }
  · exact h

theorem onlyCalls_submit (s : Session) (request : Request) :
    OnlyCalls s { s with calls := s.calls ++ [request.call] } := by
  refine { OnlyCalls.refl s with call := fun c => .inl ?_ }
  have hnew : request.call.standing = .open := by
    cases request <;> rfl
  change ((s.calls ++ [request.call]).getD c .absent).standing = (s.calls.getD c .absent).standing
  rw [List.getD, List.getD]
  obtain hlt | heq | hgt := lt_trichotomy c s.calls.length
  · rw [List.getElem?_append_left hlt]
  · rw [List.getElem?_append_right heq.ge, List.getElem?_eq_none heq.ge, heq, Nat.sub_self]
    exact hnew
  · rw [List.getElem?_eq_none hgt.le, List.getElem?_eq_none]
    rw [List.length_append, List.length_singleton]
    exact hgt

theorem onlyCalls_wake (h : s.wake c = some t) : OnlyCalls s t := by
  unfold Session.wake at h
  split at h <;> rename_i hcall <;> first | cases h | split at h <;> cases h
  · exact onlyCalls_setCall (by rw [hcall]; rfl) rfl
  · exact onlyCalls_setCall (by rw [hcall]; rfl) rfl
  · exact onlyCalls_setCall (by rw [hcall]; rfl) rfl

theorem onlyCalls_command {handled : Bool} (h : s.command c handled = some t) : OnlyCalls s t := by
  unfold Session.command at h
  split at h
  · rename_i hcall
    cases h
    refine onlyCalls_setCall (by rw [hcall]; rfl) ?_
    split
    · rfl
    · split <;> rfl
  · cases h

theorem onlyCalls_expand {message : Option Messages.Message} (h : s.expand c message = some t) :
    OnlyCalls s t := by
  unfold Session.expand at h
  split at h
  · rename_i hcall
    cases h
    refine onlyCalls_setCall (by rw [hcall]; rfl) ?_
    cases message <;> rfl
  · cases h

theorem onlyCalls_validate (h : s.validate c ok = some t) : OnlyCalls s t := by
  unfold Session.validate at h
  split at h
  · rename_i hcall
    cases h
    refine onlyCalls_setCall (by rw [hcall]; rfl) ?_
    cases ok <;> rfl
  · cases h

theorem onlyCalls_compactNext (h : s.compactNext c ok = some t) : OnlyCalls s t := by
  unfold Session.compactNext at h
  split at h <;> rename_i hcall <;> cases h
  all_goals have hloose : (s.call c).standing.isLoose = true := by rw [hcall]; rfl
  · exact onlyCalls_setCall hloose rfl
  · split
    · exact onlyCalls_setCall hloose rfl
    · exact (onlyCalls_setCall hloose rfl).flags _ _ _ _
  · exact (onlyCalls_setCall hloose rfl).flags _ _ _ _
  · exact onlyCalls_setCall hloose rfl
  · exact onlyCalls_setCall hloose rfl
  · exact { (onlyCalls_setCall hloose rfl).record rfl rfl with }
  · exact ((onlyCalls_setCall hloose rfl).flags _ _ _ _).resolveIdle

theorem onlyCalls_navigateNext {label : Bool} (h : s.navigateNext c ok label = some t) :
    OnlyCalls s t := by
  unfold Session.navigateNext at h
  split at h <;> rename_i hcall <;> cases h
  all_goals have hloose : (s.call c).standing.isLoose = true := by rw [hcall]; rfl
  · exact onlyCalls_setCall hloose rfl
  · split
    · exact onlyCalls_setCall hloose rfl
    · exact (onlyCalls_setCall hloose rfl).flags _ _ _ _
  · exact onlyCalls_setCall hloose rfl
  · exact (onlyCalls_setCall hloose rfl).record rfl rfl
  · exact (onlyCalls_setCall hloose rfl).record rfl rfl
  · exact ((onlyCalls_setCall hloose rfl).flags _ _ _ _).resolveIdle

/-- The steps of a call that neither posts nor claims. -/
def Action.isCalls : Action → Bool
  | .submit _ | .wake _ | .command _ _ | .expand _ _ | .validate _ _ | .compactNext _ _
  | .navigateNext _ _ _ => true
  | _ => false

theorem onlyCalls_of_step {action : Action} (ha : action.isCalls = true)
    (h : step s action = some t) : OnlyCalls s t := by
  cases action with
  | submit request =>
    cases h
    exact onlyCalls_submit s request
  | wake => exact onlyCalls_wake h
  | command => exact onlyCalls_command h
  | expand => exact onlyCalls_expand h
  | validate => exact onlyCalls_validate h
  | compactNext => exact onlyCalls_compactNext h
  | navigateNext => exact onlyCalls_navigateNext h
  | enter | admission | work | begin | poll | finish | postRun | enterBoundary | project | close | check
  | decide | release | emitSettled | settle | restart => cases ha

end Calls

def Entry.isRuns : Entry → Bool
  | .drained _ _ | .decided _ _ | .settled _ => true
  | _ => false

/-- The step is a matter of a run, which neither begins nor is released. -/
structure OnlyRun (r : ℕ) (s t : Session) : Prop where
  run : ∀ other, other ≠ r → t.run other = s.run other
  stage : (t.run r).stage = (s.run r).stage
  active : t.active = s.active
  calls : t.calls = s.calls
  idleEvent : t.idleEvent = s.idleEvent
  idleEvents : t.idleEvents = s.idleEvents
  idleSet : t.idleSet = s.idleSet
  log : t.log = s.log ∨ ∃ entry, entry.isRuns = true ∧ t.log = s.log ++ [entry]

section Runs

open Session

variable {s t : Session} {r c : ℕ}

theorem OnlyRun.refl (r : ℕ) (s : Session) : OnlyRun r s s :=
  ⟨fun _ _ => rfl, rfl, rfl, rfl, rfl, rfl, rfl, .inl rfl⟩

theorem OnlyRun.setRun (h : OnlyRun r s t) {p : RunPhase} (q : RunPhase) (hrun : s.run r = p)
    (hstage : q.stage = p.stage) : OnlyRun r s (t.setRun r q) := by
  refine { h with run := fun other hother => ?_, stage := ?_ }
  · rw [setRun_run_of_ne t q hother]
    exact h.run other hother
  · rw [setRun_run_self, hrun, hstage]

theorem OnlyRun.send (h : OnlyRun r s t) (job : Job) : OnlyRun r s (t.send job) := { h with }

theorem OnlyRun.closeInput (h : OnlyRun r s t) : OnlyRun r s t.closeInput := by
  unfold Session.closeInput
  split
  · exact { h with }
  · exact h

theorem OnlyRun.record (h : OnlyRun r s t) (hlog : t.log = s.log) {entry : Entry}
    (hentry : entry.isRuns = true) : OnlyRun r s (t.record entry) :=
  { h with log := .inr ⟨entry, hentry, congrArg (· ++ [entry]) hlog⟩ }

theorem onlyRun_work (h : s.work = some t) : ∃ r, OnlyRun r s t := by
  unfold Session.work at h
  split at h <;> cases h
  · exact ⟨0, { OnlyRun.refl 0 s with }⟩
  · rename_i r queue jobs _
    have hqueue : OnlyRun r s ({ s with jobs }.setQueue queue (s.queues queue).drain) :=
      { OnlyRun.refl r s with }
    have hpolled : (s.run r).polled.stage = (s.run r).stage := by
      cases s.run r <;> rfl
    have hdrained : ∀ calls, OnlyRun r s ((({ s with jobs }.setQueue queue
        (s.queues queue).drain).setRun r (s.run r).polled).record (.drained r calls)) :=
      fun calls => (hqueue.setRun _ rfl hpolled).record rfl rfl
    exact ⟨r, hdrained _⟩
  · rename_i r jobs _
    have hjobs : OnlyRun r s { s with jobs } := { OnlyRun.refl r s with }
    have hanswered : ((s.run r).answered s.hasItems).stage = (s.run r).stage := by
      cases s.run r <;> rfl
    exact ⟨r, hjobs.setRun _ rfl hanswered⟩

theorem onlyRun_begin (h : s.begin r = some t) : OnlyRun r s t := by
  unfold Session.begin at h
  split at h <;> rename_i hrun <;> cases h
  exact (OnlyRun.refl r s).setRun .looping hrun rfl

theorem onlyRun_poll {queue : Queue} (h : s.poll r queue = some t) : OnlyRun r s t := by
  unfold Session.poll at h
  split at h <;> rename_i hrun <;> cases h
  exact ((OnlyRun.refl r s).setRun (.polling queue) hrun rfl).send (.drain r queue)

theorem onlyRun_finish (h : s.finish r = some t) : OnlyRun r s t := by
  unfold Session.finish at h
  split at h <;> rename_i hrun <;> cases h
  exact (OnlyRun.refl r s).setRun .finished hrun rfl

theorem onlyRun_postRun {recovers : Bool} (h : s.postRun r recovers = some t) : OnlyRun r s t := by
  unfold Session.postRun at h
  split at h <;> rename_i hrun <;> cases h
  · split
    · exact (OnlyRun.refl r s).setRun .ending hrun rfl
    · split
      · exact (OnlyRun.refl r s).setRun .looping hrun rfl
      · exact ((OnlyRun.refl r s).setRun .postCheck hrun rfl).send (.hasQueued r)
  · refine (OnlyRun.refl r s).setRun _ hrun ?_
    split
    · rfl
    · split <;> rfl

theorem onlyRun_enterBoundary {hasHandlers : Bool} (h : s.enterBoundary r hasHandlers = some t) :
    OnlyRun r s t := by
  unfold Session.enterBoundary at h
  split at h <;> rename_i hrun <;> cases h
  split
  · exact { (OnlyRun.refl r s).setRun .hooks hrun rfl with }
  · exact ((OnlyRun.refl r s).setRun (.closing false true) hrun rfl).closeInput

theorem onlyRun_project {continues : Bool} {context : BoundaryContext}
    (h : s.project r continues context = some t) : OnlyRun r s t := by
  unfold Session.project at h
  split at h <;> rename_i hrun <;> cases h
  exact ((OnlyRun.refl r s).setRun (.snapshot continues context) hrun rfl).send (.hasQueued r)

theorem onlyRun_close (h : s.close r = some t) : OnlyRun r s t := by
  unfold Session.close at h
  split at h <;> rename_i hrun <;> cases h
  split
  · exact { (OnlyRun.refl r s).setRun .ending hrun rfl with }
  · exact ((OnlyRun.refl r s).setRun (.closing _ _) hrun rfl).closeInput

theorem onlyRun_check (h : s.check r = some t) : OnlyRun r s t := by
  unfold Session.check at h
  split at h <;> rename_i hrun <;> cases h
  · exact (OnlyRun.refl r s).setRun (.decided _) hrun rfl
  · exact ((OnlyRun.refl r s).setRun (.finalCheck _) hrun rfl).send (.hasQueued r)

theorem onlyRun_decide (h : s.decide r = some t) : OnlyRun r s t := by
  unfold Session.decide at h
  split at h <;> rename_i hrun <;> cases h
  · have hphase : (if s.abortRequested then RunPhase.ending else .looping).stage = .active := by
      split <;> rfl
    have hdecided : OnlyRun r s ((s.setRun r (if s.abortRequested then .ending else .looping)).record
        (.decided r true)) := ((OnlyRun.refl r s).setRun _ hrun hphase).record rfl rfl
    exact { hdecided with }
  · have hdecided : OnlyRun r s ((s.setRun r .ending).record (.decided r false)) :=
      ((OnlyRun.refl r s).setRun .ending hrun rfl).record rfl rfl
    exact { hdecided with }

theorem onlyRun_emitSettled (h : s.emitSettled r = some t) : OnlyRun r s t := by
  unfold Session.emitSettled at h
  split at h <;> rename_i hrun <;> cases h
  exact { (OnlyRun.refl r s).setRun .emitting hrun rfl with }

theorem onlyRun_settle (h : s.settle r = some t) : OnlyRun r s t := by
  unfold Session.settle at h
  split at h <;> rename_i hrun <;> cases h
  have hsettled : OnlyRun r s ((s.setRun r (.restarting s.deferredActions)).record (.settled r)) :=
    ((OnlyRun.refl r s).setRun (.restarting s.deferredActions) hrun rfl).record rfl rfl
  exact { hsettled with }

/-- The steps of a run that neither begins nor ends, and of the mailbox. -/
def Action.isRuns : Action → Bool
  | .work | .begin _ | .poll _ _ | .finish _ | .postRun _ _ | .enterBoundary _ _ | .project _ _ _
  | .close _ | .check _ | .decide _ | .emitSettled _ | .settle _ => true
  | _ => false

theorem onlyRun_of_step {action : Action} (ha : action.isRuns = true) (h : step s action = some t) :
    ∃ r, OnlyRun r s t := by
  cases action with
  | work => exact onlyRun_work h
  | begin r => exact ⟨r, onlyRun_begin h⟩
  | poll r => exact ⟨r, onlyRun_poll h⟩
  | finish r => exact ⟨r, onlyRun_finish h⟩
  | postRun r => exact ⟨r, onlyRun_postRun h⟩
  | enterBoundary r => exact ⟨r, onlyRun_enterBoundary h⟩
  | project r => exact ⟨r, onlyRun_project h⟩
  | close r => exact ⟨r, onlyRun_close h⟩
  | check r => exact ⟨r, onlyRun_check h⟩
  | decide r => exact ⟨r, onlyRun_decide h⟩
  | emitSettled r => exact ⟨r, onlyRun_emitSettled h⟩
  | settle r => exact ⟨r, onlyRun_settle h⟩
  | submit | enter | wake | command | expand | admission | validate | compactNext | navigateNext
  | release | restart => cases ha

end Runs

structure Custody (s : Session) : Prop where
  told : ∀ r, stageIn s.log r = (s.run r).stage
  claims : ∀ r, (s.run r).stage = .unclaimed ↔ (s.call r).standing ≠ .started
  unique : ∀ r other, (s.run r).stage = .active → (s.run other).stage = .active → other = r
  active : s.active = true ↔ ∃ r, (s.run r).stage = .active

/-- Nothing is claimed and nothing released. -/
structure Steady (s t : Session) : Prop where
  stage : ∀ r, (t.run r).stage = (s.run r).stage
  told : stageIn t.log = stageIn s.log
  active : t.active = s.active
  started : ∀ c, (t.call c).standing = .started ↔ (s.call c).standing = .started

section Custody

open Session

variable {s t : Session} {r c : ℕ}

theorem Steady.refl (s : Session) : Steady s s := ⟨fun _ => rfl, rfl, rfl, fun _ => .rfl⟩

theorem Steady.setRun (h : Steady s t) {p : RunPhase} (q : RunPhase) (hrun : s.run r = p)
    (hstage : q.stage = p.stage) : Steady s (t.setRun r q) := by
  refine { h with stage := fun other => ?_ }
  by_cases hother : other = r
  · rw [hother, setRun_run_self, hrun, hstage]
  · rw [setRun_run_of_ne t q hother]
    exact h.stage other

variable {call : Call} {message : Message}

theorem Steady.setCall (h : Steady s t)
    (hcall : call.standing = .started ↔ (s.call c).standing = .started) :
    Steady s (t.setCall c call) := by
  refine { h with started := fun other => ?_ }
  by_cases hother : other = c
  · rw [hother]
    obtain hnew | hsame := setCall_call t c call
    · rw [hnew]
      exact hcall
    · rw [hsame]
      exact h.started c
  · rw [setCall_call_of_ne t call hother]
    exact h.started other

theorem Steady.record (h : Steady s t) {entry : Entry} (hentry : entry.isNeutral = true) :
    Steady s (t.record entry) :=
  { h with told := (stageIn_neutral t.log hentry).trans h.told }

theorem Steady.send (h : Steady s t) (job : Job) : Steady s (t.send job) := { h with }

theorem Steady.resolveIdle (h : Steady s t) : Steady s t.resolveIdle := by
  unfold Session.resolveIdle
  split
  · exact { h with }
  · exact h

theorem OnlyCalls.steady (h : OnlyCalls s t) : Steady s t where
  stage := fun r => by rw [h.run]
  told := by
    obtain hlog | ⟨entry, hentry, hlog⟩ := h.log
    · rw [hlog]
    · rw [hlog]
      apply stageIn_neutral
      cases entry <;> first | rfl | cases hentry
  active := h.active
  started := by
    intro c
    obtain hsame | ⟨hloose, hopen⟩ := h.call c
    · rw [hsame]
    · constructor
      · intro hstarted
        rw [hopen] at hstarted
        cases hstarted
      · intro hstarted
        rw [hstarted] at hloose
        cases hloose

theorem OnlyRun.steady (h : OnlyRun r s t) : Steady s t where
  stage := by
    intro other
    by_cases hother : other = r
    · rw [hother, h.stage]
    · rw [h.run other hother]
  told := by
    obtain hlog | ⟨entry, hentry, hlog⟩ := h.log
    · rw [hlog]
    · rw [hlog]
      apply stageIn_neutral
      cases entry <;> first | rfl | cases hentry
  active := h.active
  started := fun c => by rw [Session.call, h.calls, Session.call]

theorem Custody.steady (h : Custody s) (hsteady : Steady s t) : Custody t where
  told := fun r => by rw [hsteady.told, hsteady.stage, h.told]
  claims := fun r => by rw [hsteady.stage, h.claims, ne_eq, ne_eq, hsteady.started]
  unique := by
    intro r other hr hother
    rw [hsteady.stage] at hr hother
    exact h.unique r other hr hother
  active := by
    rw [hsteady.active, h.active]
    exact exists_congr fun r => by rw [hsteady.stage]

theorem Custody.start (steeringMode followUpMode : QueueMode) :
    Custody (start steeringMode followUpMode) where
  told := fun _ => rfl
  claims := fun _ => iff_of_true rfl (fun h => by cases h)
  unique := fun _ _ h => by cases h
  active := iff_of_false Bool.false_ne_true fun ⟨_, h⟩ => by cases h

theorem Custody.claim (h : Custody s) (hactive : s.active = false) (hmade : s.call c ≠ .absent)
    (hstarted : call.standing = .started) : Custody ((s.claim c).setCall c call) := by
  have hnone : ∀ r, (s.run r).stage ≠ .active := by
    intro r hr
    have htrue := h.active.mpr ⟨r, hr⟩
    rw [hactive] at htrue
    cases htrue
  have hrun : ∀ r, r ≠ c → ((s.claim c).run r) = s.run r := fun r hr => setRun_run_of_ne s _ hr
  have hself : (s.claim c).run c = .preparing := setRun_run_self s c _
  constructor
  · intro r
    change stageIn (s.log ++ [Entry.claimed c]) r = ((s.claim c).run r).stage
    rw [stageIn_concat]
    by_cases hr : r = c
    · rw [hr, hself]
      exact update_self c _ _
    · rw [hrun r hr, ← h.told r]
      exact update_of_ne hr _ _
  · intro r
    change ((s.claim c).run r).stage = .unclaimed ↔ _
    by_cases hr : r = c
    · have hcall : ((s.claim c).setCall c call).call c = call :=
        setCall_call_self (lt_of_call_ne hmade) call
      rw [hr, hself, hcall]
      exact iff_of_false (by decide) fun hne => hne hstarted
    · rw [hrun r hr, setCall_call_of_ne _ call hr]
      exact h.claims r
  · intro r other hr hother
    have hplace : ∀ x, ((s.claim c).run x).stage = .active → x = c := by
      intro x hx
      by_contra hne
      rw [hrun x hne] at hx
      exact hnone x hx
    rw [hplace r hr, hplace other hother]
  · refine iff_of_true rfl ⟨c, ?_⟩
    change ((s.claim c).run c).stage = .active
    rw [hself]
    rfl

theorem Custody.release (h : Custody s) (hrun : (s.run r).stage = .active) :
    Custody { (s.setRun r .released).record (.released r) with active := false } := by
  have hself : (s.setRun r .released).run r = .released := setRun_run_self s r _
  have hother : ∀ other, other ≠ r → (s.setRun r .released).run other = s.run other :=
    fun other hne => setRun_run_of_ne s _ hne
  have hnone : ∀ other, ((s.setRun r .released).run other).stage ≠ .active := by
    intro other hactive
    by_cases hne : other = r
    · rw [hne, hself] at hactive
      cases hactive
    · rw [hother other hne] at hactive
      exact hne (h.unique r other hrun hactive)
  constructor
  · intro other
    change stageIn (s.log ++ [Entry.released r]) other = ((s.setRun r .released).run other).stage
    rw [stageIn_concat]
    by_cases hne : other = r
    · rw [hne, hself]
      exact update_self r _ _
    · rw [hother other hne, ← h.told other]
      exact update_of_ne hne _ _
  · intro other
    change ((s.setRun r .released).run other).stage = .unclaimed ↔ (s.call other).standing ≠ .started
    rw [← h.claims]
    by_cases hne : other = r
    · rw [hne, hself, hrun]
      decide
    · rw [hother other hne]
  · exact fun x _ hx _ => absurd hx (hnone x)
  · exact iff_of_false Bool.false_ne_true fun ⟨x, hx⟩ => hnone x hx

theorem steady_post (s : Session) (c : ℕ) (queue : Queue) (message : Message) :
    Steady s (s.post c queue message) := by
  have hsent := (Steady.refl s).send (.enqueue ⟨c, queue, message⟩)
  have hneutral : (Entry.posted c).isNeutral = true := rfl
  exact hsent.record hneutral

theorem Steady.setLoose (h : Steady s t) (hcall : (s.call c).standing ≠ .started)
    (hnext : call.standing ≠ .started) : Steady s (t.setCall c call) :=
  h.setCall (iff_of_false hnext hcall)

theorem Custody.admitPrompt (h : Custody s) {behavior : Option Queue} {claims : Bool}
    (hmade : s.call c ≠ .absent) (hcall : (s.call c).standing ≠ .started) :
    Custody (s.admitPrompt c behavior message claims) := by
  have hcalls : ∀ {call : Call}, call.standing ≠ .started → Custody (s.setCall c call) :=
    fun hnext => h.steady ((Steady.refl s).setLoose hcall hnext)
  unfold Session.admitPrompt
  split
  · exact hcalls (by simp [Call.standing])
  · split
    · split
      · exact h.steady ((steady_post s c _ message).setLoose hcall (by simp [Call.standing]))
      · exact hcalls (by simp [Call.standing])
    · rename_i hactive
      split
      · exact h.claim (Bool.eq_false_iff.mpr hactive) hmade rfl
      · exact hcalls (by simp [Call.standing])

theorem Custody.dispatchCustom (h : Custody s) {queue : Queue} (hmade : s.call c ≠ .absent)
    (hcall : (s.call c).standing ≠ .started) : Custody (s.dispatchCustom c queue message) := by
  unfold Session.dispatchCustom
  split
  · exact h.steady ((steady_post s c queue message).setLoose hcall (by simp [Call.standing]))
  · exact h.steady ((Steady.refl s).setLoose hcall (by simp [Call.standing]))
  · have hdeferred : Steady s (s.setCall c (.custom queue message .deferred)) :=
      (Steady.refl s).setLoose hcall (by simp [Call.standing])
    exact h.steady { hdeferred with }
  · rename_i hactive _ _
    exact h.claim hactive hmade rfl

theorem Custody.enter (h : Custody s) (hstep : s.enter c = some t) : Custody t := by
  unfold Session.enter at hstep
  split at hstep <;> rename_i hcall <;> cases hstep
  all_goals have hopen : (s.call c).standing ≠ .started := by rw [hcall]; exact fun hne => by cases hne
  · split
    · exact h.steady { (Steady.refl s).setLoose hopen (by simp [Call.standing]) with }
    · exact h.steady ((Steady.refl s).setLoose hopen (by simp [Call.standing]))
  · exact h.dispatchCustom (by rw [hcall]; exact fun hne => by cases hne) hopen
  · have habort : Steady s s.requestAbort := { Steady.refl s with }
    exact h.steady (habort.setLoose hopen (by simp [Call.standing]))
  · exact h.steady ((Steady.refl s).setLoose hopen (by simp [Call.standing]))

theorem Custody.admission (h : Custody s) (hstep : s.admission c = some t) : Custody t := by
  unfold Session.admission at hstep
  split at hstep <;> rename_i hcall <;> cases hstep
  exact h.admitPrompt (by rw [hcall]; exact fun hne => by cases hne)
    (by rw [hcall]; exact fun hne => by cases hne)

theorem standing_again {next : Call} (h : call.again = some next) :
    call.standing = .deferred ∧ next.standing = .open := by
  unfold Call.again at h
  split at h <;> cases h
  · exact ⟨rfl, rfl⟩
  · exact ⟨rfl, rfl⟩

theorem steady_restart (h : s.restart r = some t) : Steady s t := by
  unfold Session.restart at h
  split at h <;> rename_i hrun
  · rename_i c rest
    obtain ⟨call, hcall, rfl⟩ := Option.map_eq_some_iff.mp h
    obtain ⟨hdeferred, hopen⟩ := standing_again hcall
    exact ((Steady.refl s).setRun (.awaiting c rest) hrun rfl).setLoose (by rw [hdeferred]; decide)
      (by rw [hopen]; decide)
  · split at h
    · cases h
      exact ((Steady.refl s).setRun .over hrun rfl).resolveIdle
    · split at h <;> cases h
      exact (Steady.refl s).setRun (.restarting _) hrun rfl
  · cases h
    exact ((Steady.refl s).setRun .over hrun rfl).resolveIdle
  · cases h

theorem Custody.releases (h : Custody s) (hstep : s.release r = some t) : Custody t := by
  unfold Session.release at hstep
  split at hstep <;> rename_i hrun <;> cases hstep
  exact h.release (by rw [hrun]; rfl)

theorem Custody.step (h : Custody s) {action : Action} (hstep : step s action = some t) :
    Custody t := by
  cases action with
  | enter => exact h.enter hstep
  | admission => exact h.admission hstep
  | release => exact h.releases hstep
  | restart => exact h.steady (steady_restart hstep)
  | submit | wake | command | expand | validate | compactNext | navigateNext =>
    exact h.steady (onlyCalls_of_step rfl hstep).steady
  | work | begin | poll | finish | postRun | enterBoundary | project | close | check | decide
  | emitSettled | settle =>
    obtain ⟨_, hrun⟩ := onlyRun_of_step rfl hstep
    exact h.steady hrun.steady

end Custody

end Pidrei.AgentSession
