import Pidrei.NestedCallQueue

/-!
The events of a nested call: its start, and, unless it is left, its end. Together with the queue
this is what callers of nested tools may rely on.
-/
namespace Pidrei.NestedToolCalls

open Option (bind_eq_some_iff ite_none_right_eq_some map_eq_some_iff some)

variable {s t : State} {c d : ℕ} {call other : Call}

def Call.event (call : Call) (c : ℕ) (type : EventType) : Event := ⟨type, call.id, call.name, c⟩

/-- What has been heard of a nested call. -/
def Call.events (call : Call) (c : ℕ) : List Event :=
  match call.stage with
  | .numbered => []
  | .ended => [call.event c .toolExecutionStart, call.event c .toolExecutionEnd]
  | _ => [call.event c .toolExecutionStart]

structure Told (s : State) : Prop where
  events : ∀ c call, s.call? c = some call → s.log.filter (·.call = c) =
    if call.parent.isSome then call.events c else []
  id : ∀ e ∈ s.log, ∃ call, s.call? e.call = some call ∧ call.parent.isSome = true ∧
    e.toolCallId = call.id

theorem Told.setCall (h : Told s) (hc : s.call? c = some call) {new : Call}
    (hkeeps : Keeps call new) (hevents : call.parent.isSome = true → new.events c = call.events c) :
    Told (s.setCall c new) where
  events := by
    intro d found hd
    by_cases hdc : d = c
    · subst hdc
      rw [call?_setCall_self hc] at hd
      cases hd
      rw [hkeeps.parent]
      apply (h.events d call hc).trans
      split
      · next hnested => exact (hevents hnested).symm
      · rfl
    · rw [call?_setCall_ne new hdc] at hd
      exact h.events d found hd
  id := by
    intro e he
    obtain ⟨found, hfound, hnested, hid⟩ := h.id e he
    obtain ⟨next, hnext, hmore⟩ := (extends_setCall hc hkeeps).new e.call found hfound
    exact ⟨next, hnext, by rw [hmore.parent]; exact hnested, by rw [hmore.id]; exact hid⟩

theorem Told.release (h : Told s) (c : ℕ) : Told (s.release c) := by
  unfold State.release
  split
  · exact ⟨h.events, h.id⟩
  · exact h

theorem Told.emit (h : Told s) (hc : s.call? c = some call) {new : Call} (hkeeps : Keeps call new)
    (hnested : call.parent.isSome = true) {type : EventType}
    (hevents : new.events c = call.events c ++ [call.event c type]) :
    Told ((s.setCall c new).emit c call type) where
  events := by
    intro d found hd
    change (s.log ++ [call.event c type]).filter _ = _
    rw [List.filter_append]
    by_cases hdc : d = c
    · subst hdc
      have hself : (s.setCall d new).call? d = some found := hd
      rw [call?_setCall_self hc] at hself
      cases hself
      rw [h.events d call hc, if_pos hnested, hkeeps.parent, if_pos hnested, hevents]
      simp [Call.event]
    · have hother : (s.setCall c new).call? d = some found := hd
      rw [call?_setCall_ne new hdc] at hother
      have hnot : [call.event c type].filter (·.call = d) = [] := by
        simp [Call.event, Ne.symm hdc]
      rw [hnot, List.append_nil]
      exact h.events d found hother
  id := by
    intro e he
    obtain hold | hnew := List.mem_append.mp he
    · obtain ⟨found, hfound, hparent, hid⟩ := h.id e hold
      obtain ⟨next, hnext, hmore⟩ := (extends_setCall hc hkeeps).new e.call found hfound
      exact ⟨next, hnext, by rw [hmore.parent]; exact hparent, by rw [hmore.id]; exact hid⟩
    · rw [List.mem_singleton.mp hnew]
      exact ⟨new, call?_setCall_self hc new, by rw [hkeeps.parent]; exact hnested, hkeeps.id.symm⟩

theorem Told.add (h : Told s) {new : Call} (hstage : new.parent = none ∨ new.stage = .numbered) :
    Told (s.add new) where
  events := by
    intro d found hd
    rw [call?_add] at hd
    split at hd
    · next hlast =>
      cases hd
      have hsilent : s.log.filter (·.call = d) = [] := by
        apply List.filter_eq_nil_iff.mpr
        intro e he heq
        obtain ⟨earlier, hfound, _⟩ := h.id e he
        have hlt := call?_lt hfound
        rw [of_decide_eq_true heq, hlast] at hlt
        exact lt_irrefl _ hlt
      apply hsilent.trans
      obtain hroot | hnumbered := hstage
      · rw [hroot]
        rfl
      · unfold Call.events
        rw [hnumbered, ite_self]
    · exact h.events d found hd
  id := by
    intro e he
    obtain ⟨found, hfound, hrest⟩ := h.id e he
    refine ⟨found, ?_, hrest⟩
    rw [call?_add, if_neg (call?_lt hfound).ne]
    exact hfound

theorem events_of_stage {stage : Stage} (hold : call.stage ≠ .numbered ∧ call.stage ≠ .ended)
    (hnew : stage ≠ .numbered ∧ stage ≠ .ended) (c : ℕ) :
    ({ call with stage := stage } : Call).events c = call.events c := by
  unfold Call.events
  dsimp only
  split
  · exact absurd rfl hnew.1
  · exact absurd rfl hnew.2
  · split
    · exact absurd ‹_› hold.1
    · exact absurd ‹_› hold.2
    · rfl

theorem Plain.nested (h : Plain call) (hstage : call.stage ≠ .inside ∧ call.stage ≠ .ended) :
    call.parent.isSome = true := by
  cases hparent : call.parent with
  | some => rfl
  | none =>
    obtain ⟨_, _, hplace⟩ := h.1 hparent
    obtain hinside | hended := hplace
    · exact absurd hinside hstage.1
    · exact absurd hended hstage.2

theorem Told.stage (h : Told s) (hc : s.call? c = some call) {stage : Stage}
    (hentered : call.stage.entered = true → stage.entered = true)
    (hold : call.stage ≠ .numbered ∧ call.stage ≠ .ended)
    (hnew : call.parent.isSome = true → stage ≠ .numbered ∧ stage ≠ .ended) :
    Told (s.setCall c { call with stage := stage }) :=
  h.setCall hc (keeps_stage call hentered) fun hnested =>
    events_of_stage hold (hnew hnested) c

theorem Told.step (h : Told s) (hqueue : Queue s) {action : Action}
    (hstep : step s action = some t) : Told t := by
  cases action with
  | issue id name =>
    cases hstep
    exact h.add (.inl rfl)
  | execute p name =>
    obtain ⟨parent, hp, hguard⟩ := bind_eq_some_iff.mp hstep
    obtain ⟨_, ht⟩ := ite_none_right_eq_some.mp hguard
    cases ht
    rw [stepExecute_eq]
    refine Told.add ?_ (.inr rfl)
    exact h.setCall hp ⟨rfl, rfl, rfl, rfl, Nat.le_succ _, fun h => h⟩ fun _ => rfl
  | announce c =>
    obtain ⟨call, hc, hguard⟩ := bind_eq_some_iff.mp hstep
    obtain ⟨hstage, ht⟩ := ite_none_right_eq_some.mp hguard
    cases ht
    have hkeeps : Keeps call { call with stage := .started } :=
      keeps_stage call (by simp [hstage, Stage.entered])
    apply h.emit hc hkeeps
    · apply (hqueue.plain c call hc).nested
      rw [hstage]
      exact ⟨(fun h => by cases h), (fun h => by cases h)⟩
    · unfold Call.events
      rw [hstage]
      rfl
  | decide c isSequential tools =>
    obtain ⟨call, hc, hbind⟩ := bind_eq_some_iff.mp hstep
    obtain ⟨parent, _, hguard⟩ := bind_eq_some_iff.mp hbind
    obtain ⟨hstage, ht⟩ := ite_none_right_eq_some.mp hguard
    cases ht
    have hkeeps : Keeps call (call.decide parent.holdsQueue
        (runsAlone isSequential tools call.name)) :=
      ⟨rfl, rfl, rfl, rfl, le_rfl, by simp [hstage, Stage.entered]⟩
    apply h.setCall hc hkeeps
    intro _
    cases hexclusive : !parent.holdsQueue && runsAlone isSequential tools call.name with
    | _ => simp [Call.events, Call.decide, Call.event, hexclusive, hstage]
  | acquire c =>
    obtain ⟨call, hc, hguard⟩ := bind_eq_some_iff.mp hstep
    obtain ⟨⟨hstage, _⟩, ht⟩ := ite_none_right_eq_some.mp hguard
    cases ht
    have hset : Told (s.setCall c { call with stage := .inside }) :=
      h.stage hc (fun _ => rfl) (by simp [hstage]) (by simp)
    exact ⟨hset.events, hset.id⟩
  | finish c =>
    obtain ⟨call, hc, hguard⟩ := bind_eq_some_iff.mp hstep
    obtain ⟨hstage, ht⟩ := ite_none_right_eq_some.mp hguard
    cases ht
    apply Told.release
    apply h.stage hc
    · intro _
      split <;> rfl
    · rw [hstage]
      exact ⟨(fun h => by cases h), (fun h => by cases h)⟩
    · intro hnested
      rw [if_pos hnested]
      exact ⟨(fun h => by cases h), (fun h => by cases h)⟩
  | conclude c =>
    obtain ⟨call, hc, hguard⟩ := bind_eq_some_iff.mp hstep
    obtain ⟨hstage, ht⟩ := ite_none_right_eq_some.mp hguard
    cases ht
    have hkeeps : Keeps call { call with stage := .ended } := keeps_stage call fun _ => rfl
    apply h.emit hc hkeeps
    · apply (hqueue.plain c call hc).nested
      rw [hstage]
      exact ⟨(fun h => by cases h), (fun h => by cases h)⟩
    · unfold Call.events
      rw [hstage]
      rfl
  | leave c =>
    obtain ⟨call, hc, hguard⟩ := bind_eq_some_iff.mp hstep
    obtain ⟨⟨_, hnumbered, hprogress⟩, ht⟩ := ite_none_right_eq_some.mp hguard
    cases ht
    have hentered : call.stage.entered = true →
        (Stage.left call.stage.entered).entered = true := fun hentered => hentered
    apply Told.release
    apply h.stage hc hentered
    · refine ⟨hnumbered, fun hended => ?_⟩
      rw [hended] at hprogress
      cases hprogress
    · exact fun _ => ⟨(fun h => by cases h), (fun h => by cases h)⟩

theorem told_start : Told start where
  events := by
    intro c call hc
    cases hc
  id := by
    intro e he
    cases he

theorem Told.events_of_id (h : Told s) (htree : Tree s) (hs : Separate s)
    (hc : s.call? c = some call) (hnested : call.parent.isSome = true) :
    s.log.filter (·.toolCallId = call.id) = call.events c := by
  have hown := h.events c call hc
  rw [if_pos hnested] at hown
  rw [← hown]
  apply List.filter_congr
  intro e he
  obtain ⟨found, hfound, _, hid⟩ := h.id e he
  apply decide_eq_decide.mpr
  constructor
  · intro heq
    exact htree.id_injective hs hfound hc (hid.symm.trans heq)
  · intro heq
    rw [heq, hc] at hfound
    cases hfound
    exact hid

/-- What nested calls keep in every state of every run. -/
structure Orderly (s : State) : Prop where
  apart : ∀ c d, c ≠ d → InsideAlone s c → InsideAlone s d →
    Below s c d ∨ Below s d c ∨ (∃ a, s.holder = some a ∧ Below s c a ∧ Below s d a) ∨
      ∃ a, Takes s a ∧ s.holder ≠ some a ∧ (Below s c a ∨ Below s d a)
  waits : ∀ c call a, s.call? c = some call → call.stage = .queued → s.holder = some a →
    ¬ Below s c a
  progress : (∃ c, InProgress s c) → ∃ c, InProgress s c ∧
    (∀ d, InProgress s d → ¬ Parent s d c) ∧
      ∃ action, action.advances = some c ∧ (step s action).isSome = true
  ids : Separate s → ∀ c d call other, s.call? c = some call → s.call? d = some other →
    call.id = other.id → c = d
  events : Separate s → ∀ c call, s.call? c = some call → call.parent.isSome = true →
    call.stage ≠ .numbered → (∀ entered, call.stage ≠ .left entered) →
      s.log.filter (·.toolCallId = call.id) = call.event c .toolExecutionStart ::
        if call.stage = .ended then [call.event c .toolExecutionEnd] else []

theorem nested_calls_orderly (h : Runs.Reaches step (fun _ _ => True) start s) : Orderly s := by
  have hboth : Queue s ∧ Told s := by
    apply h.kept ⟨queue_start, told_start⟩
    rintro s action t ⟨hqueue, htold⟩ _ hstep
    exact ⟨hqueue.step hstep, htold.step hqueue hstep⟩
  obtain ⟨hqueue, htold⟩ := hboth
  refine ⟨fun c d hne hc hd => hqueue.apart hne hc hd, ?_, hqueue.progress, ?_, ?_⟩
  · intro c call a hc hqueued ha
    exact hqueue.not_below_of_queued hc hqueued (hqueue.takes_of_holder ha)
  · intro hs c d call other hc hd hid
    exact hqueue.tree.id_injective hs hc hd hid
  · intro hs c call hc hnested hnumbered hleft
    rw [htold.events_of_id hqueue.tree hs hc hnested]
    unfold Call.events
    split
    · exact absurd ‹_› hnumbered
    · next hended => rw [if_pos hended]
    · next hended => rw [if_neg hended]

/-! ### Two runs -/

/-- A nested call from its id until it is inside, without waiting. -/
def enters (p c : ℕ) (name : String) (isSequential : Bool) : List Action :=
  [.execute p name, .announce c, .decide c isSequential []]

/-- A sequential host: a call that takes the queue makes one call of its own. -/
def oneBelow : List Action :=
  List.flatten [[.issue ['a'] "codemode"], enters 0 1 "read" true, [.acquire 1],
    enters 1 2 "grep" true, [.finish 2, .conclude 2, .finish 1, .conclude 1, .finish 0]]

theorem nested_calls_orderly_oneBelow :
    ∃ s, Runs.run step start oneBelow = some s ∧
      s.log.map (fun e => (e.type, e.toolCallId)) =
        [(.toolExecutionStart, "a/1".toList), (.toolExecutionStart, "a/1/1".toList),
          (.toolExecutionEnd, "a/1/1".toList), (.toolExecutionEnd, "a/1".toList)] ∧ Orderly s := by
  have hrun : (Runs.run (fun s action => if True then step s action else none) start oneBelow).map
      (fun s => s.log.map fun e => (e.type, e.toolCallId)) =
      some [(.toolExecutionStart, "a/1".toList), (.toolExecutionStart, "a/1/1".toList),
        (.toolExecutionEnd, "a/1/1".toList), (.toolExecutionEnd, "a/1".toList)] := by
    decide
  obtain ⟨s, hs, hlog⟩ := map_eq_some_iff.mp hrun
  have hreaches : Runs.Reaches step (fun _ _ => True) start s := .of_run hs
  exact ⟨s, hs, hlog, nested_calls_orderly hreaches⟩

/-- A call that has taken the queue makes two calls side by side. -/
def twoBelow : List Action :=
  List.flatten [[.issue ['a'] "codemode"], enters 0 1 "edit" true, [.acquire 1],
    enters 1 2 "edit" true, enters 1 3 "edit" true]

/-- A call that has taken the queue returns before the call it made. -/
def leftRunning : List Action :=
  List.flatten [[.issue ['a'] "codemode"], enters 0 1 "edit" true, [.acquire 1],
    enters 1 2 "edit" true, [.finish 1], enters 0 3 "edit" true, [.acquire 3]]

/-- The model issues an id that looks like a nested one. -/
def sameIds : List Action :=
  List.flatten [[.issue "a".toList "codemode", .issue "a/1".toList "codemode"],
    enters 0 2 "read" false, [.execute 2 "grep", .execute 1 "grep"]]

/-- What one call of a run looks like. -/
def State.view (s : State) (c : ℕ) : Option (Option ℕ × Stage × Bool) :=
  (s.call? c).map fun call => (call.parent, call.stage, call.alone)

theorem insideAlone_of_view {p : ℕ} (h : s.view c = some (some p, .inside, true)) :
    InsideAlone s c ∧ ∀ q, Parent s c q → q = p := by
  obtain ⟨call, hcall, hfields⟩ := map_eq_some_iff.mp h
  obtain ⟨hparent, hstage, halone⟩ : call.parent = some p ∧ call.stage = .inside ∧
      call.alone = true := by simpa using hfields
  refine ⟨⟨call, hcall, by rw [hparent]; rfl, hstage, halone⟩, ?_⟩
  rintro q ⟨other, hother, hq⟩
  rw [hcall] at hother
  cases hother
  rw [hparent] at hq
  exact (some.inj hq).symm

theorem Tree.not_below (h : Tree s) {p a : ℕ} (hp : ∀ q, Parent s c q → q = p) (hlt : p < a) :
    ¬ Below s c a := by
  intro hbelow
  obtain ⟨q, hq, hcase⟩ := below_iff.mp hbelow
  obtain rfl := hp q hq
  obtain heq | hrest := hcase
  · omega
  · have hle := h.lt_of_below hrest
    omega

theorem tree_of_run {actions : List Action} (h : Runs.run step start actions = some s) : Tree s :=
  @Runs.run_induction State Action step start (fun _ s => Tree s) tree_start
    (fun _ _ _ _ htree hstep => htree.step hstep) actions s h

/-- On a sequential host two calls below the holder are inside together, neither below the other; so
are a call left running and one that took the queue since; and two nested calls have one id. -/
theorem nested_calls_collide :
    (∃ s, Runs.run step start twoBelow = some s ∧ InsideAlone s 2 ∧ InsideAlone s 3 ∧
      ¬ Below s 2 3 ∧ ¬ Below s 3 2) ∧
    (∃ s, Runs.run step start leftRunning = some s ∧ s.holder = some 3 ∧ InsideAlone s 2 ∧
      InsideAlone s 3 ∧ ¬ Below s 2 3 ∧ ¬ Below s 3 2) ∧
    ∃ s, Runs.run step start sameIds = some s ∧
      (s.call? 3).map (fun call => (call.parent, call.id)) = some (some 2, "a/1/1".toList) ∧
      (s.call? 4).map (fun call => (call.parent, call.id)) = some (some 1, "a/1/1".toList) := by
  refine ⟨?_, ?_, ?_⟩
  · have hrun : (Runs.run step start twoBelow).map (fun s => (s.view 2, s.view 3)) =
        some (some (some 1, .inside, true), some (some 1, .inside, true)) := by
      decide
    obtain ⟨s, hs, hfacts⟩ := map_eq_some_iff.mp hrun
    obtain ⟨htwo, hthree⟩ := Prod.mk.inj hfacts
    obtain ⟨htwoInside, htwoParent⟩ := insideAlone_of_view htwo
    obtain ⟨hthreeInside, hthreeParent⟩ := insideAlone_of_view hthree
    have htree := tree_of_run hs
    exact ⟨s, hs, htwoInside, hthreeInside, htree.not_below htwoParent (by omega),
      htree.not_below hthreeParent (by omega)⟩
  · have hrun : (Runs.run step start leftRunning).map (fun s => (s.view 2, s.view 3)) =
        some (some (some 1, .inside, true), some (some 0, .inside, true)) := by
      decide
    have hheld : (Runs.run step start leftRunning).map State.holder = some (some 3) := by
      decide
    obtain ⟨s, hs, hfacts⟩ := map_eq_some_iff.mp hrun
    obtain ⟨htwo, hthree⟩ := Prod.mk.inj hfacts
    have hholder : s.holder = some 3 := by
      rw [hs] at hheld
      exact some.inj hheld
    obtain ⟨htwoInside, htwoParent⟩ := insideAlone_of_view htwo
    obtain ⟨hthreeInside, hthreeParent⟩ := insideAlone_of_view hthree
    have htree := tree_of_run hs
    exact ⟨s, hs, hholder, htwoInside, hthreeInside, htree.not_below htwoParent (by omega),
      htree.not_below hthreeParent (by omega)⟩
  · have hrun : (Runs.run step start sameIds).map
        (fun s => [s.call? 3, s.call? 4].map (Option.map fun call => (call.parent, call.id))) =
        some [some (some 2, "a/1/1".toList), some (some 1, "a/1/1".toList)] := by
      decide
    obtain ⟨s, hs, hfacts⟩ := map_eq_some_iff.mp hrun
    exact ⟨s, hs, by simpa using hfacts⟩

end Pidrei.NestedToolCalls
