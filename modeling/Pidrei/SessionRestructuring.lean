import Pidrei.SessionClaims
import Pidrei.Library.Chronicle
import Pidrei.Library.Runs

/-!
Manual compaction and navigation against runs. Both look for an active run before they start
their work, and rewrite the session after it; only a run that is claimed in between can be
active then.
-/
namespace Pidrei.AgentSession

open AgentLoop (Queue)
open Chronicle
open MessageQueues (QueueMode)
open Messages (Message)

def CompactPhase.isBegun (idleSet : List ℕ) : CompactPhase → Bool
  | .waiting event => event ∈ idleSet
  | .idle | .compacting | .summarized | .appending => true
  | .called | .aborting | .notIdle | .clearing _ | .over => false

def NavigatePhase.isBegun : NavigatePhase → Bool
  | .navigating | .switching _ | .labelling => true
  | .called | .collecting | .collected | .leaving | .over => false

/-- The call has seen the session idle and has not rewritten it yet. -/
def Call.restructures (idleSet : List ℕ) : Call → Bool
  | .compact phase => phase.isBegun idleSet
  | .navigate phase => phase.isBegun
  | .absent | .prompt _ _ | .custom _ _ _ => false

def Excludes (before : List Entry) : Entry → Prop
  | .compacted _ | .leafMoved _ => ∀ r, ¬ ActiveIn before r
  | _ => True

def claimsRun (s : Session) : Action → Bool
  | .admission c => match s.call c with
    | .prompt _ (.admitting _ true) => !s.active && s.inputClosed.isNone
    | _ => false
  | .enter c => match s.call c with
    | .custom _ _ .called => !s.active && s.inputClosed.isNone && !s.isEmittingSettled
    | _ => false
  | _ => false

/-- No run is claimed while a compaction or a navigation is under way. -/
def Waits (s : Session) (action : Action) : Prop :=
  claimsRun s action = true → ∀ call ∈ s.calls, call.restructures s.idleSet = false

instance (s : Session) (action : Action) : Decidable (Waits s action) := by
  unfold Waits
  infer_instance

structure Apart (s : Session) : Prop where
  justified : Justified Excludes s.log
  quiet : ∀ call ∈ s.calls, call.restructures s.idleSet = true → s.active = false
  numbered : ∀ event ∈ s.idleSet, event < s.idleEvents
  unset : ∀ event, s.idleEvent = some event → event < s.idleEvents ∧ event ∉ s.idleSet

/-- The step is none of a compaction or a navigation, and does not make a run active. -/
structure Aside (s t : Session) : Prop where
  calls : ∀ call ∈ t.calls, call ∈ s.calls ∨ ∀ idleSet, call.restructures idleSet = false
  idleSet : t.idleSet = s.idleSet
  idleEvents : t.idleEvents = s.idleEvents
  idleEvent : t.idleEvent = s.idleEvent
  active : t.active = true → s.active = true
  log : t.log = s.log ∨ ∃ entry, entry.isRestructuring = false ∧ t.log = s.log ++ [entry]

section Apart

open Session

variable {s t : Session} {r c : ℕ} {entry : Entry} {call : Call} {ok : Bool}

theorem excludes_of_other {before : List Entry} (h : entry.isRestructuring = false) :
    Excludes before entry := by
  cases entry with
  | compacted | leafMoved => cases h
  | claimed | posted | drained | decided | released | settled => exact trivial

theorem Apart.aside (h : Apart s) (haside : Aside s t) : Apart t where
  justified := by
    obtain hlog | ⟨entry, hentry, hlog⟩ := haside.log
    · rw [hlog]
      exact h.justified
    · rw [hlog]
      exact h.justified.concat (excludes_of_other hentry)
  quiet := by
    intro call hcall hbegun
    rw [haside.idleSet] at hbegun
    obtain hold | hnone := haside.calls call hcall
    · have hactive := h.quiet call hold hbegun
      by_contra htrue
      rw [haside.active (Bool.eq_true_of_not_eq_false htrue)] at hactive
      cases hactive
    · rw [hnone] at hbegun
      cases hbegun
  numbered := by
    rw [haside.idleSet, haside.idleEvents]
    exact h.numbered
  unset := by
    rw [haside.idleEvent, haside.idleSet, haside.idleEvents]
    exact h.unset

theorem Aside.refl (s : Session) : Aside s s :=
  ⟨fun _ h => .inl h, rfl, rfl, rfl, id, .inl rfl⟩

theorem Aside.setCall (h : Aside s t) (hcall : ∀ idleSet, call.restructures idleSet = false) :
    Aside s (t.setCall c call) := by
  refine { h with calls := ?_ }
  intro other hother
  obtain hmem | rfl := List.mem_or_eq_of_mem_set hother
  · exact h.calls other hmem
  · exact .inr hcall

theorem Aside.setRun (h : Aside s t) (phase : RunPhase) : Aside s (t.setRun r phase) := { h with }

theorem Aside.send (h : Aside s t) (job : Job) : Aside s (t.send job) := { h with }

theorem Aside.record (h : Aside s t) (hlog : t.log = s.log)
    (hentry : entry.isRestructuring = false) : Aside s (t.record entry) :=
  { h with log := .inr ⟨entry, hentry, congrArg (· ++ [entry]) hlog⟩ }

/-- Whoever waits for the session to be idle is told when it is. -/
theorem Apart.resolveIdle (h : Apart s) : Apart s.resolveIdle := by
  unfold Session.resolveIdle
  split
  · rename_i hidle
    have hactive : s.active = false := by
      rw [isIdle, Bool.and_eq_true] at hidle
      exact Bool.not_eq_true' _ ▸ hidle.1
    refine ⟨h.justified, fun _ _ _ => hactive, ?_, fun event hevent => by cases hevent⟩
    intro event hevent
    obtain hold | hnew := List.mem_append.mp hevent
    · exact h.numbered event hold
    · exact (h.unset event (Option.mem_toList.mp hnew)).1
  · exact h

/-- A compaction or a navigation goes on. -/
theorem Apart.setCall (h : Apart s)
    (hcall : call.restructures s.idleSet = true → s.active = false) : Apart (s.setCall c call) := by
  refine ⟨h.justified, ?_, h.numbered, h.unset⟩
  intro other hother hbegun
  obtain hmem | rfl := List.mem_or_eq_of_mem_set hother
  · exact h.quiet other hmem hbegun
  · exact hcall hbegun

theorem aside_post (s : Session) (queue : Queue) (message : Message) :
    Aside s (s.post c queue message) := by
  have hsent := (Aside.refl s).send (.enqueue ⟨c, queue, message⟩)
  have hother : (Entry.posted c).isRestructuring = false := rfl
  exact hsent.record rfl hother

theorem Apart.claim (h : Apart s) (hnone : ∀ call ∈ s.calls, call.restructures s.idleSet = false)
    (hcall : call.restructures s.idleSet = false) : Apart ((s.claim c).setCall c call) := by
  refine ⟨h.justified.concat trivial, ?_, h.numbered, h.unset⟩
  intro other hother hbegun
  obtain hmem | rfl := List.mem_or_eq_of_mem_set hother
  · have hfalse := hnone other hmem
    exact nomatch hfalse.symm.trans hbegun
  · exact nomatch hcall.symm.trans hbegun

theorem aside_submit (s : Session) (request : Request) :
    Aside s { s with calls := s.calls ++ [request.call] } := by
  refine { Aside.refl s with calls := fun call hcall => ?_ }
  obtain hmem | hnew := List.mem_append.mp hcall
  · exact .inl hmem
  · right
    rw [List.mem_singleton.mp hnew]
    cases request <;> exact fun _ => rfl

theorem aside_command {handled : Bool} (h : s.command c handled = some t) : Aside s t := by
  unfold Session.command at h
  split at h <;> cases h
  exact (Aside.refl s).setCall fun _ => rfl

theorem aside_expand {message : Option Message} (h : s.expand c message = some t) : Aside s t := by
  unfold Session.expand at h
  split at h <;> cases h
  exact (Aside.refl s).setCall fun _ => rfl

theorem aside_validate (h : s.validate c ok = some t) : Aside s t := by
  unfold Session.validate at h
  split at h <;> cases h
  exact (Aside.refl s).setCall fun _ => rfl

theorem Apart.wake (h : Apart s) (hstep : s.wake c = some t) : Apart t := by
  unfold Session.wake at hstep
  split at hstep <;> rename_i hcall <;> first | cases hstep | split at hstep <;> cases hstep
  · exact h.aside ((Aside.refl s).setCall fun _ => rfl)
  · exact h.aside ((Aside.refl s).setCall fun _ => rfl)
  · rename_i event hset
    refine h.setCall fun _ => ?_
    apply h.quiet (s.call c) (call_mem (by rw [hcall]; exact fun hne => by cases hne))
    rw [hcall]
    exact decide_eq_true hset

theorem Apart.admission (h : Apart s) (hwaits : Waits s (.admission c)) (hstep : s.admission c = some t) :
    Apart t := by
  unfold Session.admission at hstep
  split at hstep <;> rename_i hcall <;> cases hstep
  rename_i behavior message claims
  unfold Session.admitPrompt
  split
  · exact h.aside ((Aside.refl s).setCall fun _ => rfl)
  · rename_i hopen
    split
    · split
      · exact h.aside ((aside_post s _ message).setCall fun _ => rfl)
      · exact h.aside ((Aside.refl s).setCall fun _ => rfl)
    · rename_i hactive
      split
      · rename_i hclaims
        have hclaim : claimsRun s (.admission c) = true := by
          simp [claimsRun, hcall, hclaims, hopen, hactive]
        exact h.claim (hwaits hclaim) rfl
      · exact h.aside ((Aside.refl s).setCall fun _ => rfl)

theorem Apart.dispatchCustom (h : Apart s) {queue : Queue} {message : Message}
    (hcall : s.call c = .custom queue message .called) (hwaits : Waits s (.enter c)) :
    Apart (s.dispatchCustom c queue message) := by
  unfold Session.dispatchCustom
  split
  · exact h.aside ((aside_post s queue message).setCall fun _ => rfl)
  · exact h.aside ((Aside.refl s).setCall fun _ => rfl)
  · have haside : Aside s (s.setCall c (.custom queue message .deferred)) :=
      (Aside.refl s).setCall fun _ => rfl
    exact h.aside { haside with }
  · rename_i hactive hemitting hopen
    have hclaim : claimsRun s (.enter c) = true := by
      simp [claimsRun, hcall, hactive, hemitting, hopen]
    exact h.claim (hwaits hclaim) rfl

theorem Apart.enter (h : Apart s) (hwaits : Waits s (.enter c)) (hstep : s.enter c = some t) :
    Apart t := by
  unfold Session.enter at hstep
  split at hstep <;> rename_i hcall <;> cases hstep
  · rename_i behavior
    split
    · have haside : Aside s (s.setCall c (.prompt behavior .deferred)) :=
        (Aside.refl s).setCall fun _ => rfl
      exact h.aside { haside with }
    · exact h.aside ((Aside.refl s).setCall fun _ => rfl)
  · exact h.dispatchCustom hcall hwaits
  · have habort : Aside s s.requestAbort := { Aside.refl s with }
    exact h.aside (habort.setCall fun _ => rfl)
  · refine h.aside ((Aside.refl s).setCall ?_)
    split <;> exact fun _ => rfl

/-- What the code of a compaction or a navigation knows from its look at the session. -/
theorem Apart.active (h : Apart s) (hcall : s.call c = call) (hmade : call ≠ .absent)
    (hbegun : call.restructures s.idleSet = true) : s.active = false := by
  subst hcall
  exact h.quiet (s.call c) (call_mem hmade) hbegun

theorem Custody.none_active (h : Custody s) (hactive : s.active = false) (r : ℕ) :
    ¬ ActiveIn s.log r := by
  intro hr
  have htrue := h.active.mpr ⟨r, (h.told r).symm.trans hr⟩
  exact nomatch hactive.symm.trans htrue

theorem Apart.record (h : Apart s) (hentry : Excludes s.log entry) : Apart (s.record entry) :=
  { h with justified := h.justified.concat hentry }

theorem Apart.compactNext (h : Apart s) (hcustody : Custody s)
    (hstep : s.compactNext c ok = some t) : Apart t := by
  unfold Session.compactNext at hstep
  split at hstep <;> rename_i hcall <;> cases hstep
  · apply h.setCall
    split
    · rename_i hidle
      rw [isIdle, Bool.and_eq_true] at hidle
      exact fun _ => Bool.not_eq_true' _ ▸ hidle.1
    · exact fun hbegun => by cases hbegun
  · split
    · rename_i event hevent
      apply h.setCall
      intro hbegun
      exact absurd (of_decide_eq_true hbegun) (h.unset event hevent).2
    · have hfresh : s.idleEvents ∉ s.idleSet := fun hmem => absurd (h.numbered _ hmem) (by omega)
      have hcalled : Apart (s.setCall c (.compact (.waiting s.idleEvents))) :=
        h.setCall fun hbegun => absurd (of_decide_eq_true hbegun) hfresh
      refine { hcalled with numbered := ?_, unset := ?_ }
      · intro event hevent
        exact Nat.lt_succ_of_lt (h.numbered event hevent)
      · intro event hevent
        cases hevent
        exact ⟨Nat.lt_succ_self _, hfresh⟩
  · have hcalled : Apart (s.setCall c (.compact .compacting)) :=
      h.setCall fun _ => h.active hcall (fun h => by cases h) rfl
    exact { hcalled with }
  · exact h.setCall fun _ => h.active hcall (fun h => by cases h) rfl
  · exact h.setCall fun _ => h.active hcall (fun h => by cases h) rfl
  · have hactive := h.active hcall (fun h => by cases h) rfl
    have hrecorded : Apart (s.record (.compacted c)) := h.record (hcustody.none_active hactive)
    exact hrecorded.setCall fun _ => hactive
  · rename_i again
    have hcalled : Apart (s.setCall c (.compact (if again then .over else .clearing true))) := by
      apply h.setCall
      split <;> exact fun hbegun => by cases hbegun
    have hcleared : Apart { s.setCall c (.compact (if again then .over else .clearing true)) with
        compactionCancel := none } :=
      { hcalled with }
    exact hcleared.resolveIdle

theorem Apart.navigateNext (h : Apart s) (hcustody : Custody s) {label : Bool}
    (hstep : s.navigateNext c ok label = some t) : Apart t := by
  unfold Session.navigateNext at hstep
  split at hstep <;> rename_i hcall <;> cases hstep
  · apply h.setCall
    split <;> exact fun hbegun => by cases hbegun
  · split
    · exact h.setCall fun hbegun => by cases hbegun
    · rename_i hfree
      rw [navigationBlocked, Bool.or_eq_true, not_or] at hfree
      have hcalled : Apart (s.setCall c (.navigate .navigating)) :=
        h.setCall fun _ => Bool.eq_false_iff.mpr hfree.1
      exact { hcalled with }
  · exact h.setCall fun _ => h.active hcall nofun rfl
  · have hactive := h.active hcall nofun rfl
    have hrecorded : Apart (s.record (.leafMoved c)) := h.record (hcustody.none_active hactive)
    exact hrecorded.setCall fun _ => hactive
  · have hactive := h.active hcall nofun rfl
    have hrecorded : Apart (s.record (.leafMoved c)) := h.record (hcustody.none_active hactive)
    exact hrecorded.setCall fun _ => hactive
  · have hcalled : Apart (s.setCall c (.navigate .over)) :=
      h.setCall fun hbegun => by cases hbegun
    have hcleared : Apart { s.setCall c (.navigate .over) with branchSummaryCancel := none } :=
      { hcalled with }
    exact hcleared.resolveIdle

theorem aside_onlyRun (h : OnlyRun r s t) : Aside s t where
  calls := fun call hcall => .inl (h.calls ▸ hcall)
  idleSet := h.idleSet
  idleEvents := h.idleEvents
  idleEvent := h.idleEvent
  active := fun hactive => h.active.symm.trans hactive
  log := by
    obtain hlog | ⟨entry, hentry, hlog⟩ := h.log
    · exact .inl hlog
    · refine .inr ⟨entry, ?_, hlog⟩
      cases entry <;> first | rfl | cases hentry

theorem aside_release (h : s.release r = some t) : Aside s t := by
  unfold Session.release at h
  split at h <;> cases h
  have hreleased : Aside s ((s.setRun r .released).record (.released r)) :=
    ((Aside.refl s).setRun _).record rfl rfl
  exact { hreleased with active := fun hactive => by cases hactive }

theorem Apart.restart (h : Apart s) (hstep : s.restart r = some t) : Apart t := by
  have hrun : ∀ phase, Apart (s.setRun r phase) := fun phase => { h with }
  unfold Session.restart at hstep
  split at hstep
  · obtain ⟨call, hcall, rfl⟩ := Option.map_eq_some_iff.mp hstep
    apply (hrun _).setCall
    unfold Call.again at hcall
    split at hcall <;> cases hcall <;> exact fun hbegun => by cases hbegun
  · split at hstep
    · cases hstep
      exact (hrun .over).resolveIdle
    · split at hstep <;> cases hstep
      exact hrun _
  · cases hstep
    exact (hrun .over).resolveIdle
  · cases hstep

theorem Apart.step (h : Apart s) (hcustody : Custody s) {action : Action} (hwaits : Waits s action)
    (hstep : step s action = some t) : Apart t := by
  cases action with
  | submit =>
    cases hstep
    exact h.aside (aside_submit s _)
  | enter => exact h.enter hwaits hstep
  | wake => exact h.wake hstep
  | command => exact h.aside (aside_command hstep)
  | expand => exact h.aside (aside_expand hstep)
  | admission => exact h.admission hwaits hstep
  | validate => exact h.aside (aside_validate hstep)
  | compactNext => exact h.compactNext hcustody hstep
  | navigateNext => exact h.navigateNext hcustody hstep
  | release => exact h.aside (aside_release hstep)
  | restart => exact h.restart hstep
  | work | begin | poll | finish | postRun | enterBoundary | project | close | check | decide
  | emitSettled | settle =>
    obtain ⟨_, hrun⟩ := onlyRun_of_step rfl hstep
    exact h.aside (aside_onlyRun hrun)

end Apart

theorem apart_start (steeringMode followUpMode : QueueMode) :
    Apart (start steeringMode followUpMode) where
  justified := justified_nil
  quiet := fun _ h => by cases h
  numbered := fun _ h => by cases h
  unset := fun _ h => by cases h

/-- In every run in which no run of the agent is claimed while a compaction or a navigation is under
way, the session is rewritten only while no run is active. -/
theorem restructuring_excludes_runs (steeringMode followUpMode : QueueMode) {s : Session}
    (h : Runs.Reaches step Waits (start steeringMode followUpMode) s) :
    Justified Excludes s.log := by
  have hboth : Custody s ∧ Apart s := by
    apply h.kept ⟨Custody.start steeringMode followUpMode, apart_start steeringMode followUpMode⟩
    intro s action t hs hwaits hstep
    exact ⟨hs.1.step hstep, hs.2.step hs.1 hwaits hstep⟩
  exact hboth.2.justified

def promptClaims (c : ℕ) : List Action :=
  [.enter c, .command c false, .expand c (some (.user ⟨.text "go on", 0⟩)), .admission c,
    .validate c true, .admission c]

/-- A run with nothing queued, from its first request to the end. -/
def runEnds (r : ℕ) : List Action :=
  [.begin r, .finish r, .postRun r false, .work, .postRun r false, .enterBoundary r false, .check r,
    .work, .decide r, .release r, .emitSettled r, .settle r, .restart r]

def rewritesAfterRun : List Action :=
  List.flatten [[.submit (.prompt none)], promptClaims 0, runEnds 0, [.submit .compact, .enter 1],
    List.replicate 7 (.compactNext 1 true), [.submit .navigate, .enter 2],
    List.replicate 4 (.navigateNext 2 true false)]

/-- A compaction and a navigation after a run. -/
theorem restructuring_excludes_runs_after_run :
    ∃ s : Session, s.log =
        [.claimed 0, .decided 0 false, .released 0, .settled 0, .compacted 1, .leafMoved 2] ∧
      Justified Excludes s.log := by
  have hrun : (Runs.run (fun s action => if Waits s action then step s action else none)
      (start .all .all) rewritesAfterRun).map Session.log =
      some [.claimed 0, .decided 0 false, .released 0, .settled 0, .compacted 1, .leafMoved 2] := by
    decide
  obtain ⟨s, hs, hlog⟩ := Option.map_eq_some_iff.mp hrun
  have hreaches : Runs.Reaches step Waits (start .all .all) s := .of_run hs
  exact ⟨s, hlog, restructuring_excludes_runs .all .all hreaches⟩

/-- A prompt claims its run after a navigation has looked for one. -/
def overtakenNavigation : List Action :=
  List.flatten [[.submit .navigate, .enter 0, .navigateNext 0 true false,
    .navigateNext 0 true false, .submit (.prompt none)], promptClaims 1,
    List.replicate 2 (.navigateNext 0 true false)]

/-- A prompt that has looked for a compaction claims its run during one. -/
def overtakenCompaction : List Action :=
  List.flatten [[.submit (.prompt none), .enter 0, .command 0 false, .submit .compact, .enter 1],
    List.replicate 4 (.compactNext 1 true), (promptClaims 0).drop 2, [.compactNext 1 true]]

theorem not_excluded {run call : ℕ} {entry : Entry}
    (hentry : entry = .compacted call ∨ entry = .leafMoved call) :
    ¬ Justified Excludes [.claimed run, entry] := by
  intro h
  have hlast := h [.claimed run] entry [] rfl
  have hactive : ActiveIn [.claimed run] run := by
    simp [ActiveIn, stageIn]
  obtain rfl | rfl := hentry
  · exact hlast run hactive
  · exact hlast run hactive

theorem restructured_during_run :
    (∃ s, Runs.run step (start .all .all) overtakenNavigation = some s ∧
      s.log = [.claimed 1, .leafMoved 0] ∧ ¬ Justified Excludes s.log) ∧
    ∃ s, Runs.run step (start .all .all) overtakenCompaction = some s ∧
      s.log = [.claimed 0, .compacted 1] ∧ ¬ Justified Excludes s.log := by
  have hnavigation : (Runs.run step (start .all .all) overtakenNavigation).map Session.log =
      some [.claimed 1, .leafMoved 0] := by
    decide
  have hcompaction : (Runs.run step (start .all .all) overtakenCompaction).map Session.log =
      some [.claimed 0, .compacted 1] := by
    decide
  obtain ⟨s, hs, hlog⟩ := Option.map_eq_some_iff.mp hnavigation
  obtain ⟨t, ht, hlogs⟩ := Option.map_eq_some_iff.mp hcompaction
  refine ⟨⟨s, hs, hlog, ?_⟩, t, ht, hlogs, ?_⟩
  · rw [hlog]
    exact not_excluded (.inr rfl)
  · rw [hlogs]
    exact not_excluded (.inl rfl)

end Pidrei.AgentSession
