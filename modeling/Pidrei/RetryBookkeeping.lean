import Pidrei.AutoRetry

/-!
Every series of automatic retries is closed once, with the truth about its last response, and
none outlives its run.
-/
namespace Pidrei.AutoRetry

open Chronicle Messages

/-- What the listeners have heard so far. -/
structure Tally where
  /-- Starts since the last end. -/
  openStarts : ℕ
  /-- Retries in a row that only errors have answered. -/
  retries : ℕ
  /-- The number of attempts the last start announced. -/
  limit : ℤ
  last : Option AssistantMessage

def Tally.next (t : Tally) : Event → Tally
  | .requested retry => { t with retries := if retry then t.retries + 1 else 0 }
  | .response message =>
    { t with
      last := some message
      retries := if message.stopReason = .error then t.retries else 0 }
  | .autoRetryStart _ maxAttempts _ _ =>
    { t with openStarts := t.openStarts + 1, limit := maxAttempts }
  | .autoRetryEnd _ _ _ => { t with openStarts := 0 }

def tally (log : List Event) : Tally := log.foldl Tally.next ⟨0, 0, 0, none⟩

theorem tally_concat (log : List Event) (event : Event) :
    tally (log ++ [event]) = (tally log).next event := by
  unfold tally
  exact List.foldl_concat ..

/-- Neither an error nor an abort. -/
def Completed (message : AssistantMessage) : Prop :=
  message.stopReason ≠ .error ∧ message.stopReason ≠ .aborted

/-- An end closes a series and calls it a success only when its last response completed; a retry is
within the announced number. -/
def Sound (before : List Event) : Event → Prop
  | .autoRetryEnd success _ _ =>
    0 < (tally before).openStarts ∧
      (success = true → ∃ message, (tally before).last = some message ∧ Completed message)
  | .requested true => ((tally before).retries : ℤ) < (tally before).limit
  | _ => True

/-- What is promised of the bookkeeping: the log is sound, and no series outlives its run. -/
structure Kept (s : Session) : Prop where
  sound : Justified Sound s.log
  closed : s.phase = .idle → s.retryAttempt = 0 ∧ (tally s.log).openStarts = 0

def Phase.isAnnouncing : Phase → Bool
  | .requesting _ announcing => announcing
  | _ => false

/-- No exception ends a run in the middle of a series unless its abort was requested, the response to
a retry does not end in an abort, and the caller is not cancelled while a success is announced. -/
def Meets (s : Session) : Action → Prop
  | .messageEnd message => 0 < s.retryAttempt → message.stopReason ≠ .aborted
  | .omissionFails => s.abortRequested = true
  | .agentRaises => 0 < s.retryAttempt → s.abortRequested = true
  | .cancelCaller => s.phase.isAnnouncing = false
  | _ => True

instance (s : Session) (action : Action) : Decidable (Meets s action) := by
  cases action <;> unfold Meets <;> infer_instance

/-- The last response of the agent's run failed, if a series is open. -/
def Failed (s : Session) : Prop :=
  s.retryAttempt = 0 ∨ ∃ message, s.lastAssistantMessage = some message ∧ message.stopReason = .error

/-- What each place of the loop knows of the counter. -/
def Counted (s : Session) : Phase → Prop
  | .requesting _ true => 0 < s.retryAttempt ∧ (tally s.log).retries = 0
  | .requesting answered false =>
    (tally s.log).retries ≤ s.retryAttempt ∧ (answered = true → Failed s)
  | .returned | .handling => (tally s.log).retries ≤ s.retryAttempt ∧ Failed s
  | .omitting | .waiting | .resuming true =>
    (tally s.log).retries < s.retryAttempt ∧ (s.retryAttempt : ℤ) ≤ (tally s.log).limit
  | .abandoned true => False
  | _ => s.retryAttempt = 0

structure Invariant (s : Session) : Prop where
  sound : Justified Sound s.log
  openStarts : (tally s.log).openStarts = if s.phase.isAnnouncing then 0 else s.retryAttempt
  counted : Counted s s.phase

variable {patterns : Patterns} {s t : Session}

theorem Invariant.kept (h : Invariant s) : Kept s where
  sound := h.sound
  closed := by
    intro hidle
    have hcounted := h.counted
    have hopen := h.openStarts
    rw [hidle] at hcounted hopen
    have hzero : s.retryAttempt = 0 := hcounted
    exact ⟨hzero, by rw [hopen]; exact hzero⟩

theorem invariant_start : Invariant start where
  sound := justified_nil
  openStarts := rfl
  counted := rfl

/-! ### The counter's resets -/

/-- A place with no series, whatever it is. -/
def Phase.isFree : Phase → Bool
  | .idle | .starting | .recovering | .settling | .resuming false | .abandoned false => true
  | _ => false

variable {phase : Phase} {message : AssistantMessage}

theorem counted_of_free (hfree : phase.isFree = true) : Counted s phase ↔ s.retryAttempt = 0 := by
  unfold Phase.isFree at hfree
  split at hfree
  all_goals first | exact .rfl | cases hfree

theorem announcing_of_free (hfree : phase.isFree = true) : phase.isAnnouncing = false := by
  unfold Phase.isFree at hfree
  split at hfree
  all_goals first | rfl | cases hfree

/-- The log agrees with the counter. -/
structure Balanced (s : Session) : Prop where
  sound : Justified Sound s.log
  openStarts : (tally s.log).openStarts = s.retryAttempt

theorem Invariant.balanced (h : Invariant s) (hphase : s.phase.isAnnouncing = false) :
    Balanced s where
  sound := h.sound
  openStarts := by
    have hopen := h.openStarts
    rw [hphase] at hopen
    exact hopen

/-- A session with no series may be anywhere in the loop. -/
theorem Balanced.enter (h : Balanced s) (hzero : s.retryAttempt = 0) (hfree : phase.isFree = true) :
    Invariant (s.enter phase) where
  sound := h.sound
  openStarts := by
    change _ = if phase.isAnnouncing then _ else _
    rw [announcing_of_free hfree]
    exact h.openStarts
  counted := (counted_of_free hfree).mpr hzero

theorem Balanced.endRetry (h : Balanced s) (hopen : 0 < s.retryAttempt) (finalError : Option String) :
    Balanced (s.endRetry false finalError) where
  sound := by
    apply h.sound.concat
    exact ⟨by rw [h.openStarts]; exact hopen, nofun⟩
  openStarts := by
    change (tally (s.log ++ [_])).openStarts = 0
    rw [tally_concat]
    rfl

theorem Balanced.finishCancelledRetry (h : Balanced s) : Balanced s.finishCancelledRetry := by
  unfold Session.finishCancelledRetry
  split
  · exact h
  · exact h.endRetry (by omega) _

theorem finishCancelledRetry_retryAttempt (s : Session) : s.finishCancelledRetry.retryAttempt = 0 := by
  unfold Session.finishCancelledRetry
  split
  · assumption
  · rfl

theorem Balanced.clearRunState (h : Balanced s) : Balanced s.clearRunState := by
  unfold Session.clearRunState
  split
  · exact h.finishCancelledRetry
  · exact h

theorem clearRunState_retryAttempt (h : 0 < s.retryAttempt → s.abortRequested = true) :
    s.clearRunState.retryAttempt = 0 := by
  unfold Session.clearRunState
  split
  · exact finishCancelledRetry_retryAttempt s
  · next hactive =>
    by_contra hne
    exact hactive (h (by omega))

theorem Balanced.endRun (h : Balanced s) (hend : 0 < s.retryAttempt → s.abortRequested = true) :
    Invariant s.endRun :=
  Balanced.enter (s := { s.clearRunState with retryCancel := none })
    ⟨h.clearRunState.sound, h.clearRunState.openStarts⟩ (clearRunState_retryAttempt hend) rfl

/-- The loop goes on where no series is open, or ends the run. -/
theorem Balanced.goOn (h : Balanced s) (hzero : s.retryAttempt = 0) (hfree : phase.isFree = true) :
    Invariant (goOn s phase) := by
  unfold AutoRetry.goOn
  split
  · next habort => exact h.endRun fun _ => habort
  · exact h.enter hzero hfree

/-! ### Responses -/

theorem Balanced.emit (h : Balanced s) {event : Event} (hsound : Sound s.log event)
    (hopen : ((tally s.log).next event).openStarts = (tally s.log).openStarts) :
    Balanced (s.emit event) where
  sound := h.sound.concat hsound
  openStarts := by
    change (tally (s.log ++ [event])).openStarts = s.retryAttempt
    rw [tally_concat, hopen]
    exact h.openStarts

theorem messageEnd_of_announces (hannounces : s.announces message = true) :
    s.messageEnd message = { s with
      lastAssistantMessage := some message
      log := s.log ++ [Event.response message] ++ [Event.autoRetryEnd true s.retryAttempt none] } := by
  have hboth : message.stopReason ≠ .error ∧ 0 < s.retryAttempt := of_decide_eq_true hannounces
  unfold Session.messageEnd
  rw [if_pos hboth]
  rfl

theorem messageEnd_of_not_announces (hsilent : s.announces message = false) :
    s.messageEnd message = { s with
      lastAssistantMessage := some message
      log := s.log ++ [Event.response message] } := by
  have hnot : ¬ (message.stopReason ≠ .error ∧ 0 < s.retryAttempt) := of_decide_eq_false hsilent
  unfold Session.messageEnd
  rw [if_neg hnot]

theorem Balanced.response (h : Balanced s) (message : AssistantMessage) :
    Balanced (s.emit (.response message)) :=
  h.emit trivial rfl

theorem Invariant.messageEnd (h : Invariant s)
    (hmeets : 0 < s.retryAttempt → message.stopReason ≠ .aborted) {answered : Bool}
    (hphase : s.phase = .requesting answered false) :
    Invariant ((s.messageEnd message).enter (.requesting true (s.announces message))) := by
  have hbalanced := h.balanced (by rw [hphase]; rfl)
  have hcounted := h.counted
  rw [hphase] at hcounted
  cases hannounces : s.announces message with
  | true =>
    have hboth : message.stopReason ≠ .error ∧ 0 < s.retryAttempt := of_decide_eq_true hannounces
    rw [messageEnd_of_announces hannounces]
    refine ⟨?_, ?_, hboth.2, ?_⟩
    · apply (hbalanced.response message).sound.concat
      refine ⟨by rw [(hbalanced.response message).openStarts]; exact hboth.2, fun _ => ?_⟩
      exact ⟨message, by change (tally (s.log ++ [_])).last = _; rw [tally_concat]; rfl, hboth.1,
        hmeets hboth.2⟩
    · change (tally (_ ++ [_])).openStarts = 0
      rw [tally_concat]
      rfl
    · change (tally (s.log ++ [_] ++ [_])).retries = 0
      rw [tally_concat, tally_concat]
      exact if_neg hboth.1
  | false =>
    have hnot : ¬ (message.stopReason ≠ .error ∧ 0 < s.retryAttempt) := of_decide_eq_false hannounces
    rw [messageEnd_of_not_announces hannounces]
    refine ⟨(hbalanced.response message).sound, (hbalanced.response message).openStarts, ?_, ?_⟩
    · change (tally (s.log ++ [_])).retries ≤ s.retryAttempt
      rw [tally_concat]
      change (if _ then _ else _) ≤ _
      split
      · exact hcounted.1
      · exact Nat.zero_le _
    · intro _
      by_cases herror : message.stopReason = .error
      · exact .inr ⟨message, rfl, herror⟩
      · left
        change s.retryAttempt = 0
        by_contra hne
        exact hnot ⟨herror, by omega⟩

theorem Invariant.messageEnd_abandoned (h : Invariant s) (message : AssistantMessage)
    (hphase : s.phase = .abandoned false) :
    Invariant ((s.messageEnd message).enter (.abandoned (s.announces message))) := by
  have hbalanced := h.balanced (by rw [hphase]; rfl)
  have hzero : s.retryAttempt = 0 := by
    have hcounted := h.counted
    rwa [hphase] at hcounted
  have hsilent : s.announces message = false := by
    apply decide_eq_false
    omega
  rw [messageEnd_of_not_announces hsilent, hsilent]
  exact Balanced.enter (s := { s with
    lastAssistantMessage := some message
    log := s.log ++ [Event.response message] })
    ⟨(hbalanced.response message).sound, (hbalanced.response message).openStarts⟩ hzero rfl

theorem Invariant.announced (h : Invariant s) {answered : Bool}
    (hphase : s.phase = .requesting answered true) :
    Invariant { s with retryAttempt := 0, phase := .requesting answered false } where
  sound := h.sound
  openStarts := by
    have hopen := h.openStarts
    rw [hphase] at hopen
    exact hopen
  counted := by
    have hcounted := h.counted
    rw [hphase] at hcounted
    exact ⟨hcounted.2.le, fun _ => .inl rfl⟩

/-! ### After the agent's run -/

theorem Balanced.prepareRetry (h : Balanced s) {settings : RetrySettings}
    (hretries : (tally s.log).retries ≤ s.retryAttempt)
    (hallow : settings.allow s.retryAttempt = true) :
    Invariant (s.prepareRetry settings message) := by
  have hlimit : ((s.retryAttempt + 1 : ℕ) : ℤ) ≤ settings.maxRetries := by
    simpa [RetrySettings.allow] using (Bool.and_eq_true_iff.mp hallow).2
  refine ⟨h.sound.concat trivial, ?_, ?_, ?_⟩
  · change (tally (s.log ++ [_])).openStarts = s.retryAttempt + 1
    rw [tally_concat, ← h.openStarts]
    rfl
  · change (tally (s.log ++ [_])).retries < s.retryAttempt + 1
    rw [tally_concat]
    exact Nat.lt_succ_of_le hretries
  · change _ ≤ (tally (s.log ++ [_])).limit
    rw [tally_concat]
    exact hlimit

theorem Balanced.giveUp (h : Balanced s) (message : AssistantMessage) :
    Balanced (s.giveUp message) := by
  unfold Session.giveUp
  split
  · next hboth => exact h.endRetry hboth.2 _
  · exact h

theorem giveUp_retryAttempt (hfailed : s.retryAttempt = 0 ∨ message.stopReason = .error) :
    (s.giveUp message).retryAttempt = 0 := by
  unfold Session.giveUp
  split
  · rfl
  · next hnot =>
    obtain hzero | herror := hfailed
    · exact hzero
    · by_contra hne
      exact hnot ⟨herror, by omega⟩

theorem Invariant.postRun (h : Invariant s) (hphase : s.phase = .handling) (settings : RetrySettings)
    (contextWindow : ℤ) : Invariant (handlePostAgentRun patterns settings contextWindow s) := by
  have hbalanced := h.balanced (by rw [hphase]; rfl)
  have hcounted := h.counted
  rw [hphase] at hcounted
  obtain ⟨hretries, hfailed⟩ := hcounted
  have htaken : Balanced { s with lastAssistantMessage := none } :=
    ⟨hbalanced.sound, hbalanced.openStarts⟩
  unfold handlePostAgentRun
  dsimp only
  split
  · exact htaken.finishCancelledRetry.endRun fun hopen => by
      rw [finishCancelledRetry_retryAttempt] at hopen
      omega
  · split
    · next hnone =>
      apply htaken.enter _ rfl
      obtain hzero | ⟨message, hsome, _⟩ := hfailed
      · exact hzero
      · rw [hnone] at hsome
        cases hsome
    · next message hmessage =>
      split
      · next hretry =>
        exact htaken.prepareRetry hretries (Bool.and_eq_true_iff.mp hretry).2
      · apply (htaken.giveUp message).enter _ rfl
        apply giveUp_retryAttempt
        obtain hzero | ⟨other, hsome, herror⟩ := hfailed
        · exact .inl hzero
        · rw [hmessage] at hsome
          cases hsome
          exact .inr herror

theorem Invariant.retryPrepared (h : Invariant s) (hphase : s.phase = .waiting) (prepared : Bool) :
    Invariant (retryPrepared prepared s) := by
  have hbalanced := h.balanced (by rw [hphase]; rfl)
  have hcounted := h.counted
  rw [hphase] at hcounted
  have hcleared : Balanced { s with retryCancel := none } :=
    ⟨hbalanced.sound, hbalanced.openStarts⟩
  have hend : ∀ {u : Session}, Balanced u → Invariant u.finishCancelledRetry.endRun := by
    intro u hu
    apply hu.finishCancelledRetry.endRun
    intro hopen
    rw [finishCancelledRetry_retryAttempt] at hopen
    omega
  unfold AutoRetry.retryPrepared
  cases prepared with
  | true =>
    simp only [reduceIte]
    split
    · exact hend hcleared
    · exact ⟨hbalanced.sound, hbalanced.openStarts, hcounted⟩
  | false =>
    simp only [Bool.false_eq_true, reduceIte]
    split
    · exact hend hcleared.finishCancelledRetry
    · exact hcleared.finishCancelledRetry.enter (finishCancelledRetry_retryAttempt _) rfl

/-! ### Runs -/

theorem Invariant.resume (h : Invariant s) {retry : Bool} (hphase : s.phase = .resuming retry) :
    Invariant (if s.abortRequested then s.endRun
      else (s.emit (.requested retry)).enter (.requesting false false)) := by
  have hbalanced := h.balanced (by rw [hphase]; rfl)
  have hcounted := h.counted
  rw [hphase] at hcounted
  split
  · next habort => exact hbalanced.endRun fun _ => habort
  · cases retry with
    | true =>
      have hlimit : ((tally s.log).retries : ℤ) < (tally s.log).limit := by
        have := hcounted.1
        have := hcounted.2
        omega
      have hemit : Balanced (s.emit (.requested true)) := hbalanced.emit hlimit rfl
      refine ⟨hemit.sound, hemit.openStarts, ?_, nofun⟩
      change (tally (s.log ++ [_])).retries ≤ s.retryAttempt
      rw [tally_concat]
      exact hcounted.1
    | false =>
      have hemit : Balanced (s.emit (.requested false)) := hbalanced.emit trivial rfl
      refine ⟨hemit.sound, hemit.openStarts, ?_, nofun⟩
      change (tally (s.log ++ [_])).retries ≤ s.retryAttempt
      rw [tally_concat]
      exact Nat.zero_le _

theorem Invariant.prompt (h : Invariant s) (hphase : s.phase = .starting) :
    Invariant ((s.emit (.requested false)).enter (.requesting false false)) := by
  have hbalanced := h.balanced (by rw [hphase]; rfl)
  have hemit : Balanced (s.emit (.requested false)) := hbalanced.emit trivial rfl
  refine ⟨hemit.sound, hemit.openStarts, ?_, nofun⟩
  change (tally (s.log ++ [_])).retries ≤ s.retryAttempt
  rw [tally_concat]
  exact Nat.zero_le _

/-- Where no success is being announced the caller may be cancelled. -/
theorem Balanced.cancelled (h : Balanced s) : Invariant { s with abortRequested := true }.endRun :=
  Balanced.endRun (s := { s with abortRequested := true }) ⟨h.sound, h.openStarts⟩ fun _ => rfl

theorem Invariant.cancelCaller (h : Invariant s) (hmeets : Meets s .cancelCaller)
    (hstep : step patterns s .cancelCaller = some t) : Invariant t := by
  simp only [AutoRetry.step] at hstep
  split at hstep
  · cases hstep
  · cases hstep
  · next hphase =>
    cases hstep
    apply (h.balanced (by rw [hphase]; rfl)).endRun
    have hcounted := h.counted
    rw [hphase] at hcounted
    have hzero : s.retryAttempt = 0 := hcounted
    omega
  · next answered announcing hphase =>
    cases hstep
    have hsilent : s.phase.isAnnouncing = false := hmeets
    have hended := (h.balanced hsilent).cancelled
    rw [hphase] at hsilent
    obtain rfl : announcing = false := hsilent
    exact (hended.balanced rfl).enter hended.counted rfl
  · cases hstep
    exact (h.balanced hmeets).cancelled

theorem Invariant.free (h : Invariant s) (hphase : s.phase = phase) (hfree : phase.isFree = true) :
    Balanced s ∧ s.retryAttempt = 0 := by
  subst hphase
  exact ⟨h.balanced (announcing_of_free hfree), (counted_of_free hfree).mp h.counted⟩

theorem eq_of_guard {p : Prop} [Decidable p] {u : Session}
    (h : (if p then some u else none) = some t) : p ∧ u = t := by
  obtain ⟨hp, hu⟩ := Option.ite_none_right_eq_some.mp h
  exact ⟨hp, Option.some.inj hu⟩

theorem Invariant.step (h : Invariant s) {action : Action} (hmeets : Meets s action)
    (hstep : step patterns s action = some t) : Invariant t := by
  cases action with
  | claim =>
    obtain ⟨hphase, rfl⟩ := eq_of_guard hstep
    obtain ⟨hbalanced, hzero⟩ := h.free hphase rfl
    exact Balanced.enter (s := { s with abortRequested := false })
      ⟨hbalanced.sound, hbalanced.openStarts⟩ hzero rfl
  | startFails | recoveryFails | settlingFails =>
    obtain ⟨hphase, rfl⟩ := eq_of_guard hstep
    obtain ⟨hbalanced, hzero⟩ := h.free hphase rfl
    exact hbalanced.endRun (by omega)
  | prompt =>
    obtain ⟨hphase, rfl⟩ := eq_of_guard hstep
    exact h.prompt hphase
  | messageEnd message =>
    simp only [AutoRetry.step] at hstep
    split at hstep
    · next hphase =>
      cases hstep
      exact h.messageEnd hmeets hphase
    · next hphase =>
      cases hstep
      exact h.messageEnd_abandoned message hphase
    · cases hstep
  | announced =>
    simp only [AutoRetry.step] at hstep
    split at hstep
    · next hphase =>
      cases hstep
      exact h.announced hphase
    · next hphase =>
      have hcounted := h.counted
      rw [hphase] at hcounted
      exact hcounted.elim
    · cases hstep
  | agentReturns =>
    obtain ⟨hphase, rfl⟩ := eq_of_guard hstep
    have hbalanced := h.balanced (by rw [hphase]; rfl)
    have hcounted := h.counted
    rw [hphase] at hcounted
    exact ⟨hbalanced.sound, hbalanced.openStarts, hcounted.1, hcounted.2 rfl⟩
  | agentRaises =>
    simp only [AutoRetry.step] at hstep
    split at hstep
    · next hphase =>
      cases hstep
      exact (h.balanced (by rw [hphase]; rfl)).endRun hmeets
    · cases hstep
  | agentStops =>
    obtain ⟨hphase, rfl⟩ := eq_of_guard hstep
    obtain ⟨hbalanced, hzero⟩ := h.free hphase rfl
    exact hbalanced.enter hzero rfl
  | loop =>
    obtain ⟨hphase, rfl⟩ := eq_of_guard hstep
    have hbalanced := h.balanced (by rw [hphase]; rfl)
    have hcounted := h.counted
    rw [hphase] at hcounted
    unfold goOn
    split
    · next habort => exact hbalanced.endRun fun _ => habort
    · exact ⟨hbalanced.sound, hbalanced.openStarts, hcounted⟩
  | postRun settings contextWindow =>
    obtain ⟨hphase, rfl⟩ := eq_of_guard hstep
    exact h.postRun hphase settings contextWindow
  | omitted =>
    obtain ⟨hphase, rfl⟩ := eq_of_guard hstep
    have hbalanced := h.balanced (by rw [hphase]; rfl)
    have hcounted := h.counted
    rw [hphase] at hcounted
    exact ⟨hbalanced.sound, hbalanced.openStarts, hcounted⟩
  | omissionFails =>
    obtain ⟨hphase, rfl⟩ := eq_of_guard hstep
    exact (h.balanced (by rw [hphase]; rfl)).endRun fun _ => hmeets
  | waited =>
    obtain ⟨hphase, rfl⟩ := eq_of_guard hstep
    exact h.retryPrepared hphase _
  | recovered again =>
    obtain ⟨hphase, rfl⟩ := eq_of_guard hstep
    obtain ⟨hbalanced, hzero⟩ := h.free hphase rfl
    apply hbalanced.goOn hzero
    cases again <;> rfl
  | settled again =>
    obtain ⟨hphase, rfl⟩ := eq_of_guard hstep
    obtain ⟨hbalanced, hzero⟩ := h.free hphase rfl
    split
    · exact hbalanced.goOn hzero rfl
    · exact hbalanced.endRun (by omega)
  | resume =>
    simp only [AutoRetry.step] at hstep
    split at hstep
    · next hphase =>
      cases hstep
      exact h.resume hphase
    · cases hstep
  | requestAbort =>
    simp only [AutoRetry.step] at hstep
    split at hstep
    · cases hstep
      exact h
    · cases hstep
      exact { h with counted := h.counted }
  | abortRetry =>
    cases hstep
    exact { h with counted := h.counted }
  | cancelCaller => exact h.cancelCaller hmeets hstep

/-! ### Steps that break the bookkeeping -/

theorem not_kept_endRun (hopen : 0 < s.retryAttempt) (hactive : s.abortRequested ≠ true) :
    ¬ Kept s.endRun := by
  intro h
  have hclear : s.clearRunState = s := if_neg hactive
  have hzero : s.clearRunState.retryAttempt = 0 := (h.closed rfl).1
  rw [hclear] at hzero
  omega

theorem not_kept_messageEnd (hopen : 0 < s.retryAttempt) (haborted : message.stopReason = .aborted)
    (phase : Phase) : ¬ Kept ((s.messageEnd message).enter phase) := by
  intro hkept
  have hannounces : s.announces message = true := by
    apply decide_eq_true
    exact ⟨by rw [haborted]; decide, hopen⟩
  have hsound := hkept.sound
  rw [messageEnd_of_announces hannounces] at hsound
  obtain ⟨_, hsuccess⟩ := hsound (s.log ++ [Event.response message]) _ [] rfl
  obtain ⟨last, hlast, _, hcompleted⟩ := hsuccess rfl
  rw [tally_concat] at hlast
  cases hlast
  exact hcompleted haborted

theorem not_kept_cancelled (h : Invariant s) (hannouncing : s.phase.isAnnouncing = true)
    (phase : Phase) : ¬ Kept { { s with abortRequested := true }.endRun with phase := phase } := by
  intro hkept
  have hopen := h.openStarts
  rw [hannouncing] at hopen
  have hcounted : 0 < s.retryAttempt := by
    have hcounted := h.counted
    cases hphase : s.phase with
    | requesting answered announcing =>
      rw [hphase] at hannouncing hcounted
      obtain rfl : announcing = true := hannouncing
      exact hcounted.1
    | _ =>
      rw [hphase] at hannouncing
      cases hannouncing
  have hne : ({ s with abortRequested := true } : Session).retryAttempt ≠ 0 := by
    change s.retryAttempt ≠ 0
    omega
  have hsound : Justified Sound
      ({ s with abortRequested := true } : Session).finishCancelledRetry.log := hkept.sound
  rw [Session.finishCancelledRetry, if_neg hne] at hsound
  obtain ⟨hlater, _⟩ := hsound s.log _ [] rfl
  have hzero : (tally s.log).openStarts = 0 := hopen
  omega

theorem Invariant.not_kept (h : Invariant s) {action : Action} (hnot : ¬ Meets s action)
    (hstep : AutoRetry.step patterns s action = some t) : ¬ Kept t := by
  cases action with
  | messageEnd message =>
    have hboth : 0 < s.retryAttempt ∧ message.stopReason = .aborted := by
      by_contra hor
      exact hnot fun hopen haborted => hor ⟨hopen, haborted⟩
    simp only [AutoRetry.step] at hstep
    split at hstep
    all_goals cases hstep
    · exact not_kept_messageEnd hboth.1 hboth.2 _
    · exact not_kept_messageEnd hboth.1 hboth.2 _
  | omissionFails =>
    obtain ⟨hphase, rfl⟩ := eq_of_guard hstep
    have hcounted := h.counted
    rw [hphase] at hcounted
    exact not_kept_endRun (Nat.zero_lt_of_lt hcounted.1) hnot
  | agentRaises =>
    have hboth : 0 < s.retryAttempt ∧ s.abortRequested ≠ true := Classical.not_imp.mp hnot
    simp only [AutoRetry.step] at hstep
    split at hstep
    all_goals cases hstep
    exact not_kept_endRun hboth.1 hboth.2
  | cancelCaller =>
    have hannouncing : s.phase.isAnnouncing = true := by simpa [Meets] using hnot
    simp only [AutoRetry.step] at hstep
    split at hstep
    all_goals cases hstep
    · next hphase =>
      rw [hphase] at hannouncing
      cases hannouncing
    · exact not_kept_cancelled h hannouncing _
    · exact not_kept_cancelled h hannouncing .idle
  | _ => exact absurd trivial hnot

theorem invariant_of_reaches (h : Runs.Reaches (step patterns) Meets start s) : Invariant s :=
  h.kept invariant_start fun _ _ _ hs hmeets hstep => hs.step hmeets hstep

/-- Along the steps that meet the condition the bookkeeping is kept, and the first step that does not
breaks it. -/
theorem retry_bookkeeping_kept (h : Runs.Reaches (step patterns) Meets start s) :
    Kept s ∧ ∀ action t, step patterns s action = some t → (Kept t ↔ Meets s action) := by
  have hinvariant := invariant_of_reaches h
  refine ⟨hinvariant.kept, fun action t hstep => ⟨fun hkept => ?_, fun hmeets => ?_⟩⟩
  · by_contra hnot
    exact hinvariant.not_kept hnot hstep hkept
  · exact (hinvariant.step hmeets hstep).kept

/-! ### Three runs -/

def answer (stopReason : StopReason) : AssistantMessage where
  content := .blocks []
  api := "anthropic-messages"
  provider := "anthropic"
  model := "claude"
  usage := ⟨0, 0, 0, 0, none, none, 0, zeroCost⟩
  stopReason := stopReason
  timestamp := 0
  errorMessage := if stopReason = .error then some "overloaded_error" else none

def overloaded : Patterns := ⟨fun _ => false, fun _ => false, fun _ => false, fun _ => false,
  fun message => message = "overloaded_error"⟩

/-- A first response that is overloaded, and the start of its retry. -/
def firstFails : List Action :=
  [.claim, .prompt, .messageEnd (answer .error), .agentReturns, .loop,
    .postRun ⟨true, 3, 2000, 60000⟩ 200000]

def retrySucceeds : List Action :=
  firstFails ++ [Action.omitted, Action.waited, Action.resume, Action.messageEnd (answer .stop), Action.announced, Action.agentReturns,
    Action.loop, Action.postRun ⟨true, 3, 2000, 60000⟩ 200000, Action.recovered false, Action.settled false]

def retryAborted : List Action :=
  firstFails ++ [Action.omitted, Action.waited, Action.resume, Action.requestAbort, Action.abortRetry,
    Action.messageEnd (answer .aborted), Action.announced, Action.agentReturns, Action.loop]

/-- A retry that succeeds. -/
theorem retry_bookkeeping_kept_after_success :
    ∃ s : Session, s.phase = .idle ∧ s.log = [.requested false, .response (answer .error),
        .autoRetryStart 1 3 2000 "overloaded_error", .requested true, .response (answer .stop),
        .autoRetryEnd true 1 none] ∧ Kept s := by
  have hrun : (Runs.run (fun s action => if Meets s action then step overloaded s action else none)
      start retrySucceeds).map (fun s => (s.phase, s.log)) =
      some (.idle, [.requested false, .response (answer .error),
        .autoRetryStart 1 3 2000 "overloaded_error", .requested true, .response (answer .stop),
        .autoRetryEnd true 1 none]) := by
    decide +kernel
  obtain ⟨s, hs, hfacts⟩ := Option.map_eq_some_iff.mp hrun
  obtain ⟨hphase, hlog⟩ := Prod.mk.inj hfacts
  have hreaches : Runs.Reaches (step overloaded) Meets start s := .of_run hs
  exact ⟨s, hphase, hlog, (retry_bookkeeping_kept hreaches).1⟩

/-- The store fails while the response is omitted: the run ends in the middle of the series. An abort
of the retried response is called a success. -/
theorem retry_bookkeeping_broken :
    (∃ s, Runs.run (step overloaded) start (firstFails ++ [Action.omissionFails]) = some s ∧
      s.phase = .idle ∧ s.retryAttempt = 1 ∧ (tally s.log).openStarts = 1 ∧ ¬ Kept s) ∧
    ∃ s, Runs.run (step overloaded) start retryAborted = some s ∧ s.phase = .idle ∧
      s.log = [.requested false, .response (answer .error),
        .autoRetryStart 1 3 2000 "overloaded_error", .requested true, .response (answer .aborted),
        .autoRetryEnd true 1 none] ∧ ¬ Kept s := by
  have hfailed : (Runs.run (step overloaded) start (firstFails ++ [Action.omissionFails])).map
      (fun s => (s.phase, s.retryAttempt, (tally s.log).openStarts)) = some (.idle, 1, 1) := by
    decide
  have haborted : (Runs.run (step overloaded) start retryAborted).map (fun s => (s.phase, s.log)) =
      some (.idle, [.requested false, .response (answer .error),
        .autoRetryStart 1 3 2000 "overloaded_error", .requested true, .response (answer .aborted),
        .autoRetryEnd true 1 none]) := by
    decide +kernel
  obtain ⟨s, hs, hfacts⟩ := Option.map_eq_some_iff.mp hfailed
  obtain ⟨t, ht, htfacts⟩ := Option.map_eq_some_iff.mp haborted
  obtain ⟨hphase, hattempt, hopen⟩ : s.phase = .idle ∧ s.retryAttempt = 1 ∧
      (tally s.log).openStarts = 1 := by simpa using hfacts
  obtain ⟨htphase, hlog⟩ := Prod.mk.inj htfacts
  refine ⟨⟨s, hs, hphase, hattempt, hopen, fun hkept => ?_⟩, t, ht, htphase, hlog, fun hkept => ?_⟩
  · have hclosed := (hkept.closed hphase).1
    omega
  · have hsound := hkept.sound
    rw [hlog] at hsound
    obtain ⟨_, hsuccess⟩ := hsound [.requested false, .response (answer .error),
      .autoRetryStart 1 3 2000 "overloaded_error", .requested true, .response (answer .aborted)] _ []
      rfl
    obtain ⟨last, hlast, _, hcompleted⟩ := hsuccess rfl
    cases hlast
    exact hcompleted rfl

end Pidrei.AutoRetry
