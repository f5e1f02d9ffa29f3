import Pidrei.OAuthRefresh

/-!
The refreshes of a run. While a call holds the lock nothing else is written, and once its
refresh has started no cancellation reaches it, so that what the refresh returns is
written before the lock is free. Each refresh after that one starts from what was written.
-/
namespace Pidrei.OAuthRefresh

open Option (some)

def Phase.isLocked : Phase → Bool
  | .locked | .entered _ | .unsubscribed _ | .refreshing _ | .answered _ _ | .releasing _ | .failing => true
  | .reading | .expired | .waiting | .done => false

/-- The cancellation of the caller is cut off. -/
def Phase.isDetached : Phase → Bool
  | .refreshing _ | .answered _ (some _) => true
  | _ => false

/-- The refresh has failed, or what it returned has been written. -/
def Refresh.isSettled (refresh : Refresh) : Bool :=
  match refresh.answer with
  | .running => false
  | .failed => true
  | .returned _ persisted => persisted

def Refresh.returned? (refresh : Refresh) : Option OAuthCredential :=
  match refresh.answer with
  | .returned credential _ => some credential
  | _ => none

def Refresh.persisted? (refresh : Refresh) : Option OAuthCredential :=
  match refresh.answer with
  | .returned credential true => some credential
  | _ => none

/-- The latest credential that a refresh has brought into the store. -/
def lastPersisted (provider : String) (log : List Refresh) : Option OAuthCredential :=
  log.findSome? fun refresh => if refresh.provider = provider then refresh.persisted? else none

/-- Every refresh was passed what was stored, which is what the latest refresh before it had
returned, and found the earlier ones settled. -/
def History : List Refresh → Prop
  | [] => True
  | refresh :: older => refresh.stored = some (.oauth refresh.passed) ∧
      (∀ credential, lastPersisted refresh.provider older = some credential →
        refresh.passed = credential) ∧
      (∀ earlier ∈ older, earlier.isSettled = true) ∧ History older

/-- What a call knows of the store and of its tokens. -/
structure CallSound (s : State) (id : ℕ) (call : Call) : Prop where
  holder : call.phase.isLocked = true → s.lock = some id
  entered : ∀ current, call.phase = .entered current → s.store call.provider = current
  unsubscribed : ∀ current, call.phase = .unsubscribed current →
    s.store call.provider = current ∧ call.subscribed = false
  quiet : call.cancelled = false → call.pending = false ∧ call.lockWait = false
  detached : call.phase.isDetached = true →
    call.subscribed = false ∧ call.pending = false ∧ call.lockWait = false
  refreshing : ∀ current, call.phase = .refreshing current →
    ∃ refresh older, s.log = refresh :: older ∧ refresh.call = id ∧ refresh.provider = call.provider ∧
      refresh.answer = .running
  answered : ∀ result credential, call.phase = .answered result (some credential) →
    ∃ refresh older, s.log = refresh :: older ∧ refresh.call = id ∧ refresh.provider = call.provider ∧
      refresh.answer = .returned credential false

structure Inv (s : State) : Prop where
  calls : ∀ id call, s.calls id = some call → CallSound s id call
  history : History s.log
  head : ∀ refresh older, s.log = refresh :: older → refresh.isSettled = false →
    ∃ call, s.calls refresh.call = some call ∧ call.phase.isDetached = true
  store : ∀ provider credential, lastPersisted provider s.log = some credential →
    s.store provider = some (.oauth credential)

section Steps

variable {s t : State} {id : ℕ} {call : Call} {other : ℕ} {next : Call} {refresh : Refresh}

theorem Inv.eq_of_locked (h : Inv s) {other' : Call} (hcall : s.calls id = some call)
    (hother : s.calls other = some other') (hlock : call.phase.isLocked = true)
    (hlock' : other'.phase.isLocked = true) : other = id := by
  have hid := (h.calls id call hcall).holder hlock
  have hother := (h.calls other other' hother).holder hlock'
  exact some.inj (hother.symm.trans hid)

theorem isLocked_of_isDetached : ∀ {phase : Phase}, phase.isDetached = true → phase.isLocked = true
  | .refreshing _, _ => rfl
  | .answered _ _, _ => rfl

theorem Inv.settled_of_locked (h : Inv s) (hcall : s.calls id = some call)
    (hlock : call.phase.isLocked = true) (hphase : call.phase.isDetached = false) :
    ∀ refresh ∈ s.log, refresh.isSettled = true := by
  have hhistory := h.history
  cases hlog : s.log with
  | nil => exact nofun
  | cons refresh older =>
    rw [hlog] at hhistory
    intro earlier hmem
    rcases List.mem_cons.mp hmem with rfl | hmem
    · by_contra hopen
      obtain ⟨other, hother, hdetached⟩ := h.head earlier older hlog (by simpa using hopen)
      have heq := h.eq_of_locked hcall hother hlock (isLocked_of_isDetached hdetached)
      rw [heq, hcall] at hother
      rw [← some.inj hother, hphase] at hdetached
      cases hdetached
    · exact hhistory.2.2.1 earlier hmem

theorem calls_setCall_self (s : State) (id : ℕ) (call : Call) :
    (s.setCall id call).calls id = some call :=
  Function.update_self ..

theorem calls_setCall_of_ne (s : State) (call : Call) (h : other ≠ id) :
    (s.setCall id call).calls other = s.calls other :=
  Function.update_of_ne h ..

theorem CallSound.setCall (h : CallSound s other next) (call : Call) :
    CallSound (s.setCall id call) other next :=
  ⟨h.holder, h.entered, h.unsubscribed, h.quiet, h.detached, h.refreshing, h.answered⟩

theorem CallSound.of_unlocked (h : CallSound s id call) (hfree : call.phase.isLocked = false) :
    CallSound t id call := by
  refine ⟨fun hlock => ?_, fun current hphase => ?_, fun current hphase => ?_, h.quiet, h.detached,
    fun current hphase => ?_, fun result credential hphase => ?_⟩
  · rw [hfree] at hlock
    cases hlock
  all_goals
    rw [hphase] at hfree
    cases hfree

/-- The call changes in a world `t` that differs from `s` in its lock, its store or its log. -/
theorem inv_setCall (hcalls : t.calls = s.calls)
    (hothers : ∀ other call, other ≠ id → s.calls other = some call → CallSound t other call)
    (hnext : CallSound t id next) (hhistory : History t.log)
    (hhead : ∀ refresh older, t.log = refresh :: older → refresh.isSettled = false →
      refresh.call = id ∧ next.phase.isDetached = true ∨
        refresh.call ≠ id ∧ ∃ call, s.calls refresh.call = some call ∧ call.phase.isDetached = true)
    (hstore : ∀ provider credential, lastPersisted provider t.log = some credential →
      t.store provider = some (.oauth credential)) :
    Inv (t.setCall id next) := by
  refine ⟨fun other call hcall => ?_, hhistory, fun refresh older hlog hopen => ?_, hstore⟩
  · by_cases heq : other = id
    · subst heq
      rw [calls_setCall_self] at hcall
      exact (some.inj hcall ▸ hnext).setCall next
    · rw [calls_setCall_of_ne _ _ heq, hcalls] at hcall
      exact (hothers other call heq hcall).setCall next
  · rcases hhead refresh older hlog hopen with ⟨heq, hdetached⟩ | ⟨hne, call, hcall, hdetached⟩
    · exact ⟨next, heq ▸ calls_setCall_self .., hdetached⟩
    · refine ⟨call, ?_, hdetached⟩
      rw [calls_setCall_of_ne _ _ hne, hcalls]
      exact hcall

theorem Inv.setCall_of_lock (h : Inv s) {lock : Option ℕ}
    (hothers : ∀ other call, other ≠ id → s.calls other = some call → call.phase.isLocked = true →
      lock = some other)
    (hnext : CallSound { s with lock } id next)
    (hhead : ∀ call, s.calls id = some call → call.phase.isDetached = true →
      next.phase.isDetached = true ∨ ∀ refresh ∈ s.log, refresh.isSettled = true) :
    Inv ({ s with lock }.setCall id next) := by
  refine inv_setCall rfl (fun other call hne hcall => ?_) hnext h.history
    (fun refresh older hlog hopen => ?_) h.store
  · have hsound := h.calls other call hcall
    exact ⟨hothers other call hne hcall, hsound.entered, hsound.unsubscribed, hsound.quiet,
      hsound.detached, hsound.refreshing, hsound.answered⟩
  · have hfound := h.head refresh older hlog hopen
    by_cases heq : refresh.call = id
    · obtain ⟨call, hcall, hdetached⟩ := hfound
      rw [heq] at hcall
      refine .inl ⟨heq, (hhead call hcall hdetached).resolve_right fun hsettled => ?_⟩
      have hmem : refresh ∈ s.log := by
        have hlog : s.log = refresh :: older := hlog
        rw [hlog]
        exact List.mem_cons_self
      rw [hsettled refresh hmem] at hopen
      cases hopen
    · exact .inr ⟨heq, hfound⟩

/-- A call outside the refresh goes on, and neither the lock nor the log changes. -/
theorem Inv.go_on (h : Inv s) (hcall : s.calls id = some call)
    (hphase : call.phase.isDetached = false) (hnext : CallSound s id next) :
    Inv (s.setCall id next) := by
  refine h.setCall_of_lock (fun other call _ hother => (h.calls other call hother).holder) hnext
    fun other hother hdetached => ?_
  rw [hcall] at hother
  rw [← some.inj hother, hphase] at hdetached
  cases hdetached

theorem callSound_of_quiet (hfree : next.phase.isLocked = false)
    (hquiet : next.cancelled = false → next.pending = false ∧ next.lockWait = false) :
    CallSound s id next := by
  refine ⟨fun hlock => ?_, fun current hphase => ?_, fun current hphase => ?_, hquiet,
    fun hdetached => ?_, fun current hphase => ?_, fun result credential hphase => ?_⟩
  · rw [hfree] at hlock
    cases hlock
  · rw [hphase] at hfree
    cases hfree
  · rw [hphase] at hfree
    cases hfree
  · rw [isLocked_of_isDetached hdetached] at hfree
    cases hfree
  · rw [hphase] at hfree
    cases hfree
  · rw [hphase] at hfree
    cases hfree

theorem callSound_settle (hsound : CallSound s id call) (outcome : Outcome) :
    CallSound t id (call.settle outcome) :=
  callSound_of_quiet rfl hsound.quiet

attribute [local simp] stepCall in
theorem inv_cancel (h : Inv s) (hcall : s.calls id = some call)
    (hstep : stepCall s id call (.cancel id) = some t) : Inv t := by
  have hsound := h.calls id call hcall
  simp only [stepCall] at hstep
  split at hstep
  · cases hstep
  · cases hstep
    refine h.setCall_of_lock (fun other call _ hother => (h.calls other call hother).holder) ?_
      fun other hother hdetached => .inl ?_
    · refine ⟨hsound.holder, hsound.entered, fun current hphase => ?_, nofun, fun hdetached => ?_,
        hsound.refreshing, hsound.answered⟩
      · exact ⟨(hsound.unsubscribed current hphase).1, rfl⟩
      · obtain ⟨hsubscribed, _, hwait⟩ := hsound.detached hdetached
        exact ⟨rfl, hsubscribed, hwait⟩
    · rw [hcall] at hother
      rw [← some.inj hother] at hdetached
      exact hdetached

theorem inv_deliver (h : Inv s) (hcall : s.calls id = some call)
    (hstep : stepCall s id call (.deliver id) = some t) : Inv t := by
  have hsound := h.calls id call hcall
  simp only [stepCall] at hstep
  split at hstep
  · rename_i hpending
    cases hstep
    have hdetached : call.phase.isDetached = false := by
      by_contra hnot
      obtain ⟨_, hnone, _⟩ := hsound.detached (by simpa using hnot)
      rw [hnone] at hpending
      cases hpending
    refine h.go_on hcall hdetached ⟨hsound.holder, hsound.entered, hsound.unsubscribed, fun hquiet => ?_,
      fun hnot => ?_, hsound.refreshing, hsound.answered⟩
    · rw [(hsound.quiet hquiet).1] at hpending
      cases hpending
    · rw [show call.phase.isDetached = true from hnot] at hdetached
      cases hdetached
  · cases hstep

theorem inv_read (h : Inv s) (hcall : s.calls id = some call) {stored : Option Credential}
    (hstep : stepCall s id call (.read id stored) = some t) : Inv t := by
  have hsound := h.calls id call hcall
  simp only [stepCall] at hstep
  split at hstep
  · rename_i hphase
    cases hstep
    refine h.go_on hcall (by rw [hphase]; rfl) ?_
    split
    · exact callSound_of_quiet rfl hsound.quiet
    · exact callSound_settle hsound _
  · rename_i hphase _
    cases hstep
    exact h.go_on hcall (by rw [hphase]; rfl) (callSound_settle hsound _)
  · cases hstep

theorem inv_subscribe (h : Inv s) (hcall : s.calls id = some call)
    (hstep : stepCall s id call (.subscribe id) = some t) : Inv t := by
  have hsound := h.calls id call hcall
  simp only [stepCall] at hstep
  split at hstep
  · rename_i hphase
    cases hstep
    refine h.go_on hcall (by rw [hphase]; rfl) ?_
    split
    · rename_i hcancelled
      refine callSound_of_quiet rfl fun hnot => ?_
      rw [hcancelled] at hnot
      cases hnot
    · exact callSound_of_quiet rfl hsound.quiet
  · cases hstep

theorem inv_acquire (h : Inv s) (hcall : s.calls id = some call)
    (hstep : stepCall s id call (.acquire id) = some t) : Inv t := by
  have hsound := h.calls id call hcall
  simp only [stepCall] at hstep
  split at hstep
  · rename_i hphase hlock
    cases hstep
    refine h.setCall_of_lock (fun other call _ hother hheld => ?_)
      ⟨fun _ => rfl, nofun, nofun, hsound.quiet, nofun, nofun, nofun⟩ fun other hother hdetached => ?_
    · rw [(h.calls other call hother).holder hheld] at hlock
      cases hlock
    · rw [hcall] at hother
      rw [← some.inj hother, hphase] at hdetached
      cases hdetached
  · cases hstep

theorem inv_load (h : Inv s) (hcall : s.calls id = some call)
    (hstep : stepCall s id call (.load id) = some t) : Inv t := by
  have hsound := h.calls id call hcall
  simp only [stepCall] at hstep
  split at hstep
  · rename_i hphase
    cases hstep
    refine h.go_on hcall (by rw [hphase]; rfl)
      ⟨fun _ => hsound.holder (by rw [hphase]; rfl), fun current hentered => ?_, nofun, hsound.quiet,
        nofun, nofun, nofun⟩
    exact Phase.entered.inj hentered
  · cases hstep

theorem inv_unsubscribe (h : Inv s) (hcall : s.calls id = some call)
    (hstep : stepCall s id call (.unsubscribe id) = some t) : Inv t := by
  have hsound := h.calls id call hcall
  simp only [stepCall] at hstep
  split at hstep
  · rename_i current hphase
    cases hstep
    refine h.go_on hcall (by rw [hphase]; rfl)
      ⟨fun _ => hsound.holder (by rw [hphase]; rfl), nofun, fun other hunsubscribed => ?_, hsound.quiet,
        nofun, nofun, nofun⟩
    exact ⟨(hsound.entered current hphase).trans (Phase.unsubscribed.inj hunsubscribed), rfl⟩
  · cases hstep

theorem inv_fail (h : Inv s) (hcall : s.calls id = some call)
    (hstep : stepCall s id call (.fail id) = some t) : Inv t := by
  have hsound := h.calls id call hcall
  simp only [stepCall] at hstep
  split at hstep
  case h_5 => cases hstep
  case h_4 =>
    rename_i hphase
    cases hstep
    exact h.go_on hcall (by rw [hphase]; rfl) ⟨fun _ => hsound.holder (by rw [hphase]; rfl), nofun, nofun,
      hsound.quiet, nofun, nofun, nofun⟩
  all_goals
    rename_i hphase
    cases hstep
    exact h.go_on hcall (by rw [hphase]; rfl) (callSound_settle hsound _)

theorem Inv.others_of_locked (h : Inv s) (hcall : s.calls id = some call)
    (hlock : call.phase.isLocked = true) (other : ℕ) (c : Call) (hne : other ≠ id)
    (hother : s.calls other = some c) : CallSound t other c := by
  refine (h.calls other c hother).of_unlocked ?_
  by_contra hheld
  exact hne (h.eq_of_locked hcall hother hlock (by simpa using hheld))

theorem lastPersisted_cons_none (provider : String) (older : List Refresh)
    (h : refresh.persisted? = none) :
    lastPersisted provider (refresh :: older) = lastPersisted provider older := by
  rw [lastPersisted, List.findSome?_cons]
  split
  · rename_i hfound
    split at hfound
    · rw [h] at hfound
      cases hfound
    · cases hfound
  · rfl

theorem inv_decide (h : Inv s) (hcall : s.calls id = some call)
    (hstep : stepCall s id call (.decide id) = some t) : Inv t := by
  have hsound := h.calls id call hcall
  simp only [stepCall] at hstep
  split at hstep
  · rename_i current hphase
    cases hstep
    have hlocked : call.phase.isLocked = true := by rw [hphase]; rfl
    have hdetached : call.phase.isDetached = false := by rw [hphase]; rfl
    obtain ⟨hstored, hsubscribed⟩ := hsound.unsubscribed current hphase
    unfold decideRefresh
    split
    · exact h.go_on hcall hdetached
        ⟨fun _ => hsound.holder hlocked, nofun, nofun, hsound.quiet, nofun, nofun, nofun⟩
    · rename_i hcancelled
      obtain ⟨hpending, hwait⟩ := hsound.quiet (by simpa using hcancelled)
      have hgo : Inv (s.setCall id { call with phase := .answered current none }) :=
        h.go_on hcall hdetached
          ⟨fun _ => hsound.holder hlocked, nofun, nofun, hsound.quiet, nofun, nofun, nofun⟩
      split
      · split
        · rename_i credential _
          have hsettled := h.settled_of_locked hcall hlocked hdetached
          refine inv_setCall rfl (h.others_of_locked hcall hlocked) ?_ ?_ ?_ ?_
          · refine ⟨fun _ => hsound.holder hlocked, nofun, nofun, hsound.quiet,
              fun _ => ⟨hsubscribed, hpending, hwait⟩, fun _ _ => ?_, nofun⟩
            exact ⟨_, s.log, rfl, rfl, rfl, rfl⟩
          · refine ⟨hstored, fun last hlast => ?_, hsettled, h.history⟩
            have hsame := hstored.symm.trans (h.store _ last hlast)
            exact Credential.oauth.inj (some.inj hsame)
          · intro refresh older hlog _
            obtain ⟨rfl, _⟩ := List.cons.inj hlog
            exact .inl ⟨rfl, rfl⟩
          · intro provider last hlast
            rw [lastPersisted_cons_none _ _ rfl] at hlast
            exact h.store provider last hlast
        · exact hgo
      · exact hgo
  · cases hstep

variable {older : List Refresh} {action : Action}

theorem history_mark (h : History (refresh :: older)) (answer : Answer) :
    History ({ refresh with answer } :: older) :=
  ⟨h.1, h.2.1, h.2.2.1, h.2.2.2⟩

theorem log_mark (h : s.log = refresh :: older) (answer : Answer) :
    (s.mark answer).log = { refresh with answer } :: older := by
  rw [State.mark, h]
  rfl

theorem inv_answer (h : Inv s) (hcall : s.calls id = some call) {result : Option OAuthCredential}
    (hstep : stepCall s id call (.answer id result) = some t) : Inv t := by
  have hsound := h.calls id call hcall
  have hhistory := h.history
  have hstore := h.store
  simp only [stepCall] at hstep
  split at hstep
  · rename_i current credential hphase
    cases hstep
    have hlocked : call.phase.isLocked = true := by rw [hphase]; rfl
    obtain ⟨refresh, older, hlog, hid, hprovider, hrunning⟩ := hsound.refreshing current hphase
    have hmarked := log_mark hlog (.returned credential false)
    rw [hlog] at hhistory hstore
    refine inv_setCall rfl (h.others_of_locked hcall hlocked) ?_ ?_ ?_ ?_
    · refine ⟨fun _ => hsound.holder hlocked, nofun, nofun, hsound.quiet,
        fun _ => hsound.detached (by rw [hphase]; rfl), nofun, fun _ new hnew => ?_⟩
      obtain ⟨_, hnew⟩ := Phase.answered.inj hnew
      exact ⟨_, older, hmarked, hid, hprovider, by rw [some.inj hnew]⟩
    · rw [hmarked]
      exact history_mark hhistory _
    · intro first rest hfirst _
      rw [hmarked] at hfirst
      obtain ⟨rfl, _⟩ := List.cons.inj hfirst
      exact .inl ⟨hid, rfl⟩
    · intro provider last hlast
      rw [hmarked, lastPersisted_cons_none _ _ rfl] at hlast
      refine hstore provider last ?_
      rw [lastPersisted_cons_none _ _ (by simp [Refresh.persisted?, hrunning])]
      exact hlast
  · rename_i current hphase
    cases hstep
    have hlocked : call.phase.isLocked = true := by rw [hphase]; rfl
    obtain ⟨refresh, older, hlog, hid, hprovider, hrunning⟩ := hsound.refreshing current hphase
    have hmarked := log_mark hlog .failed
    rw [hlog] at hhistory hstore
    refine inv_setCall rfl (h.others_of_locked hcall hlocked)
      ⟨fun _ => hsound.holder hlocked, nofun, nofun, hsound.quiet, nofun, nofun, nofun⟩ ?_ ?_ ?_
    · rw [hmarked]
      exact history_mark hhistory _
    · intro first rest hfirst hopen
      rw [hmarked] at hfirst
      obtain ⟨rfl, _⟩ := List.cons.inj hfirst
      cases hopen
    · intro provider last hlast
      rw [hmarked, lastPersisted_cons_none _ _ rfl] at hlast
      refine hstore provider last ?_
      rw [lastPersisted_cons_none _ _ (by simp [Refresh.persisted?, hrunning])]
      exact hlast
  · cases hstep

theorem inv_write (h : Inv s) (hcall : s.calls id = some call)
    (hstep : stepCall s id call (.write id) = some t) : Inv t := by
  have hsound := h.calls id call hcall
  have hhistory := h.history
  have hstore := h.store
  simp only [stepCall] at hstep
  split at hstep
  · rename_i result content hphase
    have hlocked : call.phase.isLocked = true := by rw [hphase]; rfl
    have hheld := hsound.holder hlocked
    cases content with
    | none =>
      have hdetached : call.phase.isDetached = false := by rw [hphase]; rfl
      split at hstep
      all_goals
        cases hstep
        exact h.go_on hcall hdetached ⟨fun _ => hheld, nofun, nofun, hsound.quiet, nofun, nofun, nofun⟩
    | some credential =>
      obtain ⟨_, _, hwait⟩ := hsound.detached (by rw [hphase]; rfl)
      rw [if_neg (by simp [hwait])] at hstep
      cases hstep
      obtain ⟨refresh, older, hlog, hid, hprovider, hreturned⟩ := hsound.answered result credential hphase
      have hmarked : ((s.persist call.provider credential).mark (.returned credential true)).log =
          { refresh with answer := .returned credential true } :: older :=
        log_mark (s := s.persist call.provider credential) hlog _
      rw [hlog] at hhistory hstore
      refine inv_setCall rfl (h.others_of_locked hcall hlocked)
        ⟨fun _ => hheld, nofun, nofun, hsound.quiet, nofun, nofun, nofun⟩ ?_ ?_ ?_
      · rw [hmarked]
        exact history_mark hhistory _
      · intro first rest hfirst hopen
        rw [hmarked] at hfirst
        obtain ⟨rfl, _⟩ := List.cons.inj hfirst
        cases hopen
      · intro provider last hlast
        rw [hmarked, lastPersisted, List.findSome?_cons] at hlast
        show Function.update s.store call.provider (some (.oauth credential)) provider = _
        by_cases heq : call.provider = provider
        · subst heq
          rw [if_pos hprovider] at hlast
          rw [Function.update_self, ← some.inj hlast]
        · rw [if_neg (by rw [hprovider]; exact heq)] at hlast
          rw [Function.update_of_ne (Ne.symm heq)]
          refine hstore provider last ?_
          rw [lastPersisted_cons_none _ _ (by simp [Refresh.persisted?, hreturned])]
          exact hlast
  · cases hstep

theorem inv_release (h : Inv s) (hcall : s.calls id = some call)
    (hstep : stepCall s id call (.release id) = some t) : Inv t := by
  have hsound := h.calls id call hcall
  have hfree : ∀ next : Call, call.phase.isLocked = true → call.phase.isDetached = false →
      CallSound { s with lock := none } id next → Inv ({ s with lock := none }.setCall id next) := by
    intro next hlocked hdetached hnext
    refine h.setCall_of_lock (fun other c hne hother hheld => ?_) hnext fun c hc hd => ?_
    · exact absurd (h.eq_of_locked hcall hother hlocked hheld) hne
    · rw [hcall] at hc
      rw [← some.inj hc, hdetached] at hd
      cases hd
  simp only [stepCall] at hstep
  split at hstep
  · rename_i result hphase
    cases hstep
    refine hfree _ (by rw [hphase]; rfl) (by rw [hphase]; rfl) ?_
    unfold Call.finish
    split
    · split <;> exact callSound_settle hsound _
    · exact callSound_settle hsound _
  · rename_i hphase
    cases hstep
    exact hfree _ (by rw [hphase]; rfl) (by rw [hphase]; rfl) (callSound_settle hsound _)
  · cases hstep

theorem inv_call (h : Inv s) (hcall : s.calls id = some call) (hid : action.call? = some id)
    (hstep : stepCall s id call action = some t) : Inv t := by
  cases action <;> simp only [Action.call?, some.injEq, reduceCtorEq] at hid <;> subst hid
  case begin => simp [stepCall] at hstep
  case cancel => exact inv_cancel h hcall hstep
  case deliver => exact inv_deliver h hcall hstep
  case read => exact inv_read h hcall hstep
  case subscribe => exact inv_subscribe h hcall hstep
  case acquire => exact inv_acquire h hcall hstep
  case load => exact inv_load h hcall hstep
  case unsubscribe => exact inv_unsubscribe h hcall hstep
  case decide => exact inv_decide h hcall hstep
  case answer => exact inv_answer h hcall hstep
  case write => exact inv_write h hcall hstep
  case release => exact inv_release h hcall hstep
  case fail => exact inv_fail h hcall hstep

theorem inv_step (h : Inv s) (hstep : step s action = some t) : Inv t := by
  unfold step at hstep
  split at hstep
  · cases hstep
    refine ⟨fun id call hcall => ?_, h.history, h.head, h.store⟩
    have hsound := h.calls id call hcall
    exact ⟨hsound.holder, hsound.entered, hsound.unsubscribed, hsound.quiet, hsound.detached,
      hsound.refreshing, hsound.answered⟩
  · split at hstep
    · rename_i id provider minValidityMs hnone
      cases hstep
      refine h.setCall_of_lock (fun other call _ hother => (h.calls other call hother).holder)
        (callSound_of_quiet rfl fun _ => ⟨rfl, rfl⟩) fun call hcall _ => ?_
      rw [hcall] at hnone
      cases hnone
    · cases hstep
  · obtain ⟨id, hid, hcalled⟩ := Option.bind_eq_some_iff.mp hstep
    obtain ⟨call, hcall, hcalled⟩ := Option.bind_eq_some_iff.mp hcalled
    exact inv_call h hcall hid hcalled

theorem inv_start (store : String → Option Credential) (now : ℤ) : Inv (start store now) where
  calls _ _ h := nomatch h
  history := trivial
  head _ _ h := nomatch h
  store _ _ h := nomatch (show none = some _ from h)

end Steps

section Runs

/-- The refreshes of a run, the latest first. Each was passed the credential that was stored at that
moment. What an earlier one returned has been written by then, and a later one for the same
provider is passed what the last one before it returned. What is not written yet will be: its call
holds the lock, and no cancellation reaches it. -/
structure Guarantees (s : State) : Prop where
  stored : ∀ refresh ∈ s.log, refresh.stored = some (.oauth refresh.passed)
  persisted : ∀ newer refresh older, s.log = newer ++ refresh :: older →
    ∀ earlier ∈ older, earlier.returned?.isSome = true → earlier.persisted?.isSome = true
  fresh : ∀ newer refresh between earlier older,
    s.log = newer ++ refresh :: (between ++ earlier :: older) →
    earlier.provider = refresh.provider → earlier.returned?.isSome = true →
    ∃ source ∈ between ++ [earlier], source.provider = refresh.provider ∧
      source.returned? = some refresh.passed
  pending : ∀ refresh ∈ s.log, ∀ credential, refresh.returned? = some credential →
    refresh.persisted? = none →
    ∃ call t, s.calls refresh.call = some call ∧ s.lock = some refresh.call ∧
      call.provider = refresh.provider ∧ stepCall s refresh.call call (.write refresh.call) = some t ∧
      t.store refresh.provider = some (.oauth credential)

variable {refresh : Refresh} {older : List Refresh}

theorem History.tail (h : History (refresh :: older)) : History older :=
  h.2.2.2

theorem History.of_append {newer : List Refresh} (h : History (newer ++ older)) :
    History older := by
  induction newer with
  | nil => exact h
  | cons refresh newer ih => exact ih h.tail

theorem History.stored {log : List Refresh} (h : History log) :
    ∀ refresh ∈ log, refresh.stored = some (.oauth refresh.passed) := by
  induction log with
  | nil => exact nofun
  | cons first log ih =>
    intro refresh hmem
    rcases List.mem_cons.mp hmem with rfl | hmem
    · exact h.1
    · exact ih h.tail refresh hmem

theorem persisted_of_settled (h : refresh.isSettled = true) :
    refresh.persisted? = refresh.returned? := by
  unfold Refresh.isSettled at h
  unfold Refresh.persisted? Refresh.returned?
  cases hanswer : refresh.answer with
  | running => rfl
  | failed => rfl
  | returned credential persisted =>
    rw [hanswer] at h
    rw [show persisted = true from h]

theorem exists_source {provider : String} (between older : List Refresh) {earlier : Refresh}
    (hprovider : earlier.provider = provider) (hpersisted : earlier.persisted?.isSome = true) :
    ∃ source ∈ between ++ [earlier], ∃ credential, source.provider = provider ∧
      source.persisted? = some credential ∧
      lastPersisted provider (between ++ earlier :: older) = some credential := by
  induction between with
  | nil =>
    obtain ⟨credential, hcredential⟩ := Option.isSome_iff_exists.mp hpersisted
    refine ⟨earlier, List.mem_cons_self, credential, hprovider, hcredential, ?_⟩
    rw [List.nil_append, lastPersisted, List.findSome?_cons, if_pos hprovider, hcredential]
  | cons next between ih =>
    obtain ⟨source, hmem, credential, hsame, hsource, hlast⟩ := ih
    by_cases hnext : next.provider = provider
    · cases hfound : next.persisted? with
      | some newest =>
        refine ⟨next, List.mem_cons_self, newest, hnext, hfound, ?_⟩
        rw [List.cons_append, lastPersisted, List.findSome?_cons, if_pos hnext, hfound]
      | none =>
        refine ⟨source, List.mem_cons_of_mem _ hmem, credential, hsame, hsource, ?_⟩
        rw [List.cons_append, lastPersisted_cons_none _ _ hfound]
        exact hlast
    · refine ⟨source, List.mem_cons_of_mem _ hmem, credential, hsame, hsource, ?_⟩
      rw [List.cons_append, lastPersisted, List.findSome?_cons, if_neg hnext]
      exact hlast

variable {credential : OAuthCredential} {s : State}

theorem returned_of_persisted (h : refresh.persisted? = some credential) :
    refresh.returned? = some credential := by
  unfold Refresh.persisted? at h
  unfold Refresh.returned?
  split at h
  · rename_i hanswer
    rw [hanswer]
    exact h
  · cases h

theorem Inv.writes (h : Inv s) (hlog : s.log = refresh :: older)
    (hreturned : refresh.answer = .returned credential false) :
    ∃ call t, s.calls refresh.call = some call ∧ s.lock = some refresh.call ∧
      call.provider = refresh.provider ∧ stepCall s refresh.call call (.write refresh.call) = some t ∧
      t.store refresh.provider = some (.oauth credential) := by
  have hopen : refresh.isSettled = false := by simp [Refresh.isSettled, hreturned]
  obtain ⟨call, hcall, hdetached⟩ := h.head refresh older hlog hopen
  have hsound := h.calls _ call hcall
  have hheld := hsound.holder (isLocked_of_isDetached hdetached)
  obtain ⟨_, _, hwait⟩ := hsound.detached hdetached
  cases hphase : call.phase with
  | refreshing current =>
    obtain ⟨first, rest, hfirst, _, _, hrunning⟩ := hsound.refreshing current hphase
    obtain ⟨rfl, _⟩ := List.cons.inj (hlog.symm.trans hfirst)
    rw [hreturned] at hrunning
    cases hrunning
  | answered result content =>
    cases content with
    | none =>
      rw [hphase] at hdetached
      cases hdetached
    | some new =>
      obtain ⟨first, rest, hfirst, _, hprovider, hanswer⟩ := hsound.answered result new hphase
      obtain ⟨rfl, _⟩ := List.cons.inj (hlog.symm.trans hfirst)
      obtain ⟨rfl, _⟩ := Answer.returned.inj (hreturned.symm.trans hanswer)
      refine ⟨call, ((s.persist call.provider credential).mark (.returned credential true)).setCall
        refresh.call { call with phase := .releasing result }, hcall, hheld, hprovider.symm, ?_, ?_⟩
      · simp [stepCall, hphase, hwait]
      · show Function.update s.store call.provider (some (.oauth credential)) refresh.provider = _
        rw [hprovider, Function.update_self]
  | _ =>
    rw [hphase] at hdetached
    cases hdetached

theorem guarantees_of_inv (h : Inv s) : Guarantees s := by
  have hhistory := h.history
  refine ⟨hhistory.stored, ?_, ?_, ?_⟩
  · intro newer refresh older hlog earlier hmem hreturned
    rw [hlog] at hhistory
    rw [persisted_of_settled (hhistory.of_append.2.2.1 earlier hmem)]
    exact hreturned
  · intro newer refresh between earlier older hlog hprovider hreturned
    rw [hlog] at hhistory
    have hearlier : earlier.persisted?.isSome = true := by
      rw [persisted_of_settled (hhistory.of_append.2.2.1 earlier (by simp))]
      exact hreturned
    obtain ⟨source, hmem, credential, hsame, hsource, hlast⟩ := exists_source between older hprovider
      hearlier
    refine ⟨source, hmem, hsame, ?_⟩
    rw [hhistory.of_append.2.1 credential hlast]
    exact returned_of_persisted hsource
  · intro refresh hmem credential hreturned hopen
    cases hlog : s.log with
    | nil =>
      rw [hlog] at hmem
      cases hmem
    | cons first older =>
      rw [hlog] at hmem hhistory
      have hanswer : refresh.answer = .returned credential false := by
        unfold Refresh.returned? at hreturned
        unfold Refresh.persisted? at hopen
        cases hanswer : refresh.answer with
        | running | failed => simp [hanswer] at hreturned
        | returned new persisted =>
          cases persisted with
          | true => simp [hanswer] at hopen
          | false => simpa [hanswer] using hreturned
      rcases List.mem_cons.mp hmem with rfl | hmem
      · exact h.writes hlog hanswer
      · have hsettled := hhistory.2.2.1 refresh hmem
        simp [Refresh.isSettled, hanswer] at hsettled

/-- Whatever the calls and their cancellations do. -/
theorem refresh_guarantees {store : String → Option Credential} {now : ℤ} {actions : List Action}
    {s : State} (h : Runs.run step (start store now) actions = some s) : Guarantees s := by
  have hnext : ∀ (_ : List Action) s action t, Inv s → step s action = some t → Inv t :=
    fun _ _ _ _ hinv hstep => inv_step hinv hstep
  exact guarantees_of_inv (Runs.run_induction (inv_start store now) hnext h)

/-- A provider that does not rotate its refresh token. -/
def first : OAuthCredential := ⟨"refresh", "first", 0⟩

def second : OAuthCredential := ⟨"refresh", "second", 3600000⟩

def storing (credential : OAuthCredential) : String → Option Credential :=
  fun _ => some (.oauth credential)

/-- A call up to where its refresh starts. -/
def resolving (id : ℕ) (stored : OAuthCredential) : List Action :=
  [.begin id "xai" none, .read id (some (.oauth stored)), .subscribe id, .acquire id, .load id,
    .unsubscribe id, .decide id]

/-- The caller is cancelled while its refresh runs. -/
theorem refresh_guarantees_cancelled :
    ∃ s, Runs.run step (start (storing first) 0)
        (resolving 0 first ++ [Action.cancel 0, Action.answer 0 (some second), Action.write 0, Action.release 0]) = some s ∧
      s.store "xai" = some (.oauth second) ∧ Guarantees s := by
  obtain ⟨s, hrun, hstore⟩ : ∃ s, Runs.run step (start (storing first) 0)
      (resolving 0 first ++ [Action.cancel 0, Action.answer 0 (some second), Action.write 0, Action.release 0]) = some s ∧
      s.store "xai" = some (.oauth second) := ⟨_, rfl, rfl⟩
  exact ⟨s, hrun, hstore, refresh_guarantees hrun⟩

/-- The first refresh returns its refresh token again, and when the credential expires the second
one is passed the same token. -/
theorem token_passed_again :
    ¬ ∀ (store : String → Option Credential) (now : ℤ) (actions : List Action) (s : State),
      Runs.run step (start store now) actions = some s →
      ∀ newer refresh older, s.log = newer ++ refresh :: older →
        ∀ earlier ∈ older, earlier.returned?.isSome = true →
          earlier.passed.refresh ≠ refresh.passed.refresh := by
  intro hall
  have hlog := hall (storing first) 0
    (resolving 0 first ++ [Action.answer 0 (some second), Action.write 0, Action.release 0, Action.advance 3600000] ++
      resolving 1 second) _ rfl []
    ⟨1, "xai", second, some (.oauth second), .running⟩
    [⟨0, "xai", first, some (.oauth first), .returned second true⟩] rfl
  exact hlog _ List.mem_cons_self rfl rfl

end Runs

end Pidrei.OAuthRefresh
