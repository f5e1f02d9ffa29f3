import Pidrei.NestedCallTree

/-!
The queue keeps calls that take it apart and never keeps a call waiting for one above it, and each
call is heard to start once and to end once.
-/
namespace Pidrei.NestedToolCalls

open Option (bind_eq_some_iff ite_none_right_eq_some some)

variable {s t : State} {c d : ℕ} {call other : Call}

/-! ### The scopes -/

/-- A call whose turn was decided takes the queue when it must run alone and none above it has. -/
def Scoped (s : State) : Prop :=
  ∀ c call p parent, s.call? c = some call → call.parent = some p → s.call? p = some parent →
    call.stage.decided = true →
      call.exclusive = (!parent.holdsQueue && call.alone) ∧
        call.holdsQueue = (parent.holdsQueue || call.exclusive)

/-- A change that says nothing new of the queue. -/
structure Still (old new : Call) : Prop where
  parent : new.parent = old.parent
  alone : new.alone = old.alone
  exclusive : new.exclusive = old.exclusive
  holdsQueue : new.holdsQueue = old.holdsQueue
  decided : new.stage.decided = true → old.stage.decided = true

theorem Scoped.still (h : Scoped s)
    (hold : ∀ d new, t.call? d = some new → ∃ old, s.call? d = some old ∧ Still old new) :
    Scoped t := by
  intro c call p parent hc hp hfound hdecided
  obtain ⟨old, hold', hstill⟩ := hold c call hc
  obtain ⟨oldParent, hparent, hpstill⟩ := hold p parent hfound
  rw [hstill.exclusive, hstill.holdsQueue, hstill.alone, hpstill.holdsQueue]
  exact h c old p oldParent hold' (by rw [← hstill.parent]; exact hp) hparent
    (hstill.decided hdecided)

theorem Still.refl (call : Call) : Still call call := ⟨rfl, rfl, rfl, rfl, fun h => h⟩

variable {new parent : Call} {p a : ℕ} {stage : Stage}

theorem Scoped.setCall (h : Scoped s) (hc : s.call? c = some call) (hstill : Still call new) :
    Scoped (s.setCall c new) := by
  apply h.still
  intro d found hd
  by_cases hdc : d = c
  · subst hdc
    rw [call?_setCall_self hc] at hd
    cases hd
    exact ⟨call, hc, hstill⟩
  · rw [call?_setCall_ne new hdc] at hd
    exact ⟨found, hd, .refl found⟩

theorem Scoped.add (h : Scoped s) (htree : Tree s)
    (hnew : new.parent = none ∨ new.stage.decided = false) : Scoped (s.add new) := by
  intro c call p parent hc hp hfound hdecided
  rw [call?_add] at hc
  split at hc
  · cases hc
    obtain hroot | hundecided := hnew
    · rw [hroot] at hp
      cases hp
    · rw [hundecided] at hdecided
      cases hdecided
  · have hlt := (htree.parent c call p hc hp).1
    have hne : p ≠ s.calls.length := (hlt.trans (call?_lt hc)).ne
    rw [call?_add, if_neg hne] at hfound
    exact h c call p parent hc hp hfound hdecided

theorem Tree.entered_of_parent (h : Tree s) (hc : s.call? c = some call) (hp : call.parent = some p)
    (hfound : s.call? p = some parent) : parent.stage.entered = true := by
  obtain ⟨_, other, hother, hentered, _⟩ := h.parent c call p hc hp
  rw [hfound] at hother
  cases hother
  exact hentered

theorem Scoped.decide (h : Scoped s) (htree : Tree s) (hc : s.call? c = some call)
    (hp : call.parent = some p) (hfound : s.call? p = some parent) (hstage : call.stage = .started)
    (alone : Bool) : Scoped (s.setCall c (call.decide parent.holdsQueue alone)) := by
  intro d other q above hd hq habove hdecided
  have hpc : p ≠ c := (htree.parent c call p hc hp).1.ne
  by_cases hdc : d = c
  · subst hdc
    rw [call?_setCall_self hc] at hd
    cases hd
    have hqp : q = p := by
      have hsame : call.parent = some q := hq
      rw [hp] at hsame
      exact (some.inj hsame).symm
    subst hqp
    rw [call?_setCall_ne _ hpc, hfound] at habove
    cases habove
    exact ⟨rfl, rfl⟩
  · rw [call?_setCall_ne _ hdc] at hd
    have hqc : q ≠ c := by
      rintro rfl
      have hentered := htree.entered_of_parent hd hq hc
      rw [hstage] at hentered
      cases hentered
    rw [call?_setCall_ne _ hqc] at habove
    exact h d other q above hd hq habove hdecided

/-! ### The holder -/

def Call.Holds (call : Call) : Prop := call.exclusive = true ∧ call.stage = .inside

/-- The queue is held by the call inside that took it. -/
def Held (s : State) : Prop :=
  ∀ c, s.holder = some c ↔ ∃ call, s.call? c = some call ∧ call.Holds

theorem Held.setCall (h : Held s) (hc : s.call? c = some call) (hsame : new.Holds ↔ call.Holds) :
    Held (s.setCall c new) := by
  intro d
  apply (h d).trans
  by_cases hdc : d = c
  · subst hdc
    rw [call?_setCall_self hc, hc]
    simp [hsame]
  · rw [call?_setCall_ne new hdc]

theorem Held.acquire (h : Held s) (hc : s.call? c = some call) (hfree : s.holder = none)
    (hholds : new.Holds) : Held { s.setCall c new with holder := some c } := by
  intro d
  change some c = some d ↔ ∃ call, (s.setCall c new).call? d = some call ∧ call.Holds
  by_cases hdc : d = c
  · subst hdc
    rw [call?_setCall_self hc]
    simp [hholds]
  · rw [call?_setCall_ne new hdc]
    constructor
    · intro heq
      exact absurd (some.inj heq).symm hdc
    · intro hother
      have hheld := (h d).mpr hother
      rw [hfree] at hheld
      cases hheld

theorem Held.release (h : Held s) (hc : s.call? c = some call) (hnot : ¬ new.Holds) :
    Held ((s.setCall c new).release c) := by
  have hmine : ¬ ∃ found, (s.setCall c new).call? c = some found ∧ found.Holds := by
    rw [call?_setCall_self hc]
    rintro ⟨_, heq, hholds⟩
    cases heq
    exact hnot hholds
  have hothers : ∀ d, d ≠ c →
      (s.holder = some d ↔ ∃ found, (s.setCall c new).call? d = some found ∧ found.Holds) := by
    intro d hdc
    rw [call?_setCall_ne new hdc]
    exact h d
  unfold State.release
  split
  · next hheld =>
    intro d
    change none = some d ↔ ∃ found, (s.setCall c new).call? d = some found ∧ found.Holds
    by_cases hdc : d = c
    · subst hdc
      exact ⟨nofun, fun hfound => absurd hfound hmine⟩
    · refine ⟨nofun, fun hfound => ?_⟩
      have hd := (hothers d hdc).mpr hfound
      have hcheld : s.holder = some c := hheld
      rw [hcheld] at hd
      exact absurd (some.inj hd).symm hdc
  · next hother =>
    intro d
    by_cases hdc : d = c
    · subst hdc
      exact ⟨fun hheld => absurd hheld hother, fun hfound => absurd hfound hmine⟩
    · exact hothers d hdc

theorem Held.add (h : Held s) (hnot : ¬ new.Holds) : Held (s.add new) := by
  intro d
  change s.holder = some d ↔ _
  rw [h d, call?_add]
  split
  · next hlast =>
    constructor
    · rintro ⟨found, hfound, _⟩
      exact absurd hlast (call?_lt hfound).ne
    · rintro ⟨_, heq, hholds⟩
      cases heq
      exact absurd hholds hnot
  · exact .rfl

/-! ### Runs -/

/-- A call the model issued runs at once and takes no queue; one that waits takes it. -/
def Plain (call : Call) : Prop :=
  (call.parent = none → call.holdsQueue = false ∧ call.exclusive = false ∧
    (call.stage = .inside ∨ call.stage = .ended)) ∧
  (call.stage = .queued → call.exclusive = true)

structure Queue (s : State) : Prop where
  tree : Tree s
  scopes : Scoped s
  held : Held s
  plain : ∀ c call, s.call? c = some call → Plain call

theorem plain_setCall (h : ∀ d found, s.call? d = some found → Plain found)
    (hc : s.call? c = some call) (hnew : Plain new) :
    ∀ d found, (s.setCall c new).call? d = some found → Plain found := by
  intro d found hd
  by_cases hdc : d = c
  · subst hdc
    rw [call?_setCall_self hc] at hd
    cases hd
    exact hnew
  · rw [call?_setCall_ne new hdc] at hd
    exact h d found hd

theorem plain_add (h : ∀ d found, s.call? d = some found → Plain found) (hnew : Plain new) :
    ∀ d found, (s.add new).call? d = some found → Plain found := by
  intro d found hd
  rw [call?_add] at hd
  split at hd
  · cases hd
    exact hnew
  · exact h d found hd

theorem Queue.scope_still (h : Queue s) (hc : s.call? c = some call)
    (hdecided : stage.decided = true → call.stage.decided = true) :
    Scoped (s.setCall c { call with stage := stage }) :=
  h.scopes.setCall hc ⟨rfl, rfl, rfl, rfl, hdecided⟩

theorem Queue.plain_still (h : Queue s) (hc : s.call? c = some call)
    (hroot : call.stage = .inside ∨ call.stage = .ended → call.parent = none →
      stage = .inside ∨ stage = .ended)
    (hstage : stage = .queued → call.stage = .queued) :
    ∀ d found, (s.setCall c { call with stage := stage }).call? d = some found → Plain found := by
  obtain ⟨hplain, hqueued⟩ := h.plain c call hc
  apply plain_setCall h.plain hc
  refine ⟨fun hnone => ?_, fun heq => hqueued (hstage heq)⟩
  obtain ⟨hholds, hexclusive, hplace⟩ := hplain hnone
  exact ⟨hholds, hexclusive, hroot hplace hnone⟩

theorem Queue.of_calls (htree : Tree t) (hcalls : t.calls = s.calls) (hscope : Scoped s)
    (hplain : ∀ c call, s.call? c = some call → Plain call) (hheld : Held t) : Queue t := by
  have hcall : t.call? = s.call? := by
    unfold State.call?
    rw [hcalls]
  refine ⟨htree, ?_, hheld, by rw [hcall]; exact hplain⟩
  intro c call p parent hc hp hfound
  rw [hcall] at hc hfound
  exact hscope c call p parent hc hp hfound

theorem release_calls (s : State) (c : ℕ) : (s.release c).calls = s.calls := by
  unfold State.release
  split <;> rfl

theorem Held.of_emit (h : Held s) (c : ℕ) (call : Call) (type : EventType) :
    Held (s.emit c call type) := h

theorem not_holds (h : stage ≠ .inside) : ¬ Call.Holds { call with stage := stage } :=
  fun hholds => h hholds.2

theorem Queue.step (h : Queue s) {action : Action} (hstep : step s action = some t) : Queue t := by
  have htree := h.tree.step hstep
  cases action with
  | issue id name =>
    cases hstep
    exact ⟨htree, h.scopes.add h.tree (.inl rfl), h.held.add nofun,
      plain_add h.plain ⟨fun _ => ⟨rfl, rfl, .inl rfl⟩, nofun⟩⟩
  | execute p name =>
    obtain ⟨parent, hp, hguard⟩ := bind_eq_some_iff.mp hstep
    obtain ⟨hentered, ht⟩ := ite_none_right_eq_some.mp hguard
    cases ht
    have hset : Queue (s.setCall p { parent with nextId := parent.nextId + 1 }) := by
      refine ⟨h.tree.extends (extends_setCall hp ⟨rfl, rfl, rfl, rfl, Nat.le_succ _, fun h => h⟩),
        h.scopes.setCall hp ⟨rfl, rfl, rfl, rfl, fun h => h⟩, h.held.setCall hp .rfl, ?_⟩
      exact plain_setCall h.plain hp (h.plain p parent hp)
    exact ⟨htree, hset.scopes.add hset.tree (.inr rfl), hset.held.add nofun,
      plain_add hset.plain ⟨nofun, nofun⟩⟩
  | announce c =>
    obtain ⟨call, hc, hguard⟩ := bind_eq_some_iff.mp hstep
    obtain ⟨hstage, ht⟩ := ite_none_right_eq_some.mp hguard
    cases ht
    apply Queue.of_calls htree rfl (h.scope_still hc nofun) (h.plain_still hc (by simp [hstage]) nofun)
    apply (h.held.setCall hc _).of_emit
    simp [Call.Holds, hstage]
  | decide c isSequential tools =>
    obtain ⟨call, hc, hbind⟩ := bind_eq_some_iff.mp hstep
    obtain ⟨parent, hparent, hguard⟩ := bind_eq_some_iff.mp hbind
    obtain ⟨p, hp, hfound⟩ := bind_eq_some_iff.mp hparent
    obtain ⟨hstage, ht⟩ := ite_none_right_eq_some.mp hguard
    cases ht
    refine ⟨htree, h.scopes.decide h.tree hc hp hfound hstage _, h.held.setCall hc ?_,
      plain_setCall h.plain hc ⟨fun hroot => ?_, fun hqueued => ?_⟩⟩
    · simp [Call.Holds, Call.decide, hstage]
    · have hnone : call.parent = none := hroot
      rw [hp] at hnone
      cases hnone
    · by_contra hnot
      have hinside : (call.decide parent.holdsQueue (runsAlone isSequential tools call.name)).stage =
          .inside := if_neg hnot
      rw [hqueued] at hinside
      cases hinside
  | acquire c =>
    obtain ⟨call, hc, hguard⟩ := bind_eq_some_iff.mp hstep
    obtain ⟨⟨hstage, hfree⟩, ht⟩ := ite_none_right_eq_some.mp hguard
    cases ht
    apply Queue.of_calls htree rfl (h.scope_still hc _)
      (h.plain_still hc (by simp [hstage]) nofun)
    · exact h.held.acquire hc hfree ⟨(h.plain c call hc).2 hstage, rfl⟩
    · rw [hstage]
      exact fun _ => rfl
  | finish c =>
    obtain ⟨call, hc, hguard⟩ := bind_eq_some_iff.mp hstep
    obtain ⟨hstage, ht⟩ := ite_none_right_eq_some.mp hguard
    cases ht
    apply Queue.of_calls htree (release_calls _ c) (h.scope_still hc _) (h.plain_still hc _ _)
    · apply h.held.release hc (not_holds _)
      split <;> nofun
    · rw [hstage]
      exact fun _ => rfl
    · rintro _ hnone
      rw [hnone]
      exact .inr rfl
    · split <;> nofun
  | conclude c =>
    obtain ⟨call, hc, hguard⟩ := bind_eq_some_iff.mp hstep
    obtain ⟨hstage, ht⟩ := ite_none_right_eq_some.mp hguard
    cases ht
    apply Queue.of_calls htree rfl (h.scope_still hc _)
      (h.plain_still hc (by simp [hstage]) nofun)
    · apply (h.held.setCall hc _).of_emit
      simp [Call.Holds, hstage]
    · rw [hstage]
      exact fun _ => rfl
  | leave c =>
    obtain ⟨call, hc, hguard⟩ := bind_eq_some_iff.mp hstep
    obtain ⟨hstage, ht⟩ := ite_none_right_eq_some.mp hguard
    cases ht
    apply Queue.of_calls htree (release_calls _ c) (h.scope_still hc _) (h.plain_still hc _ nofun)
    · exact h.held.release hc (not_holds nofun)
    · intro hdecided
      simp_all [Stage.decided, Stage.entered]
    · rintro _ hnone
      rw [hnone] at hstage
      cases hstage.1

theorem queue_start : Queue start where
  tree := tree_start
  scopes := by
    intro c call p parent hc
    cases hc
  held := by
    intro c
    refine ⟨nofun, ?_⟩
    rintro ⟨call, hc, _⟩
    cases hc
  plain := by
    intro c call hc
    cases hc

/-! ### Above a call -/

/-- Inside `run_tool_call` for a call that must not run beside others. -/
def InsideAlone (s : State) (c : ℕ) : Prop :=
  ∃ call, s.call? c = some call ∧ call.parent.isSome = true ∧ call.stage = .inside ∧
    call.alone = true

def Takes (s : State) (c : ℕ) : Prop := ∃ call, s.call? c = some call ∧ call.exclusive = true

theorem decided_of_entered (h : stage.entered = true) : stage.decided = true := by
  unfold Stage.decided
  rw [h, Bool.or_true]

theorem below_iff {c : ℕ} : Below s c a ↔ ∃ p, Parent s c p ∧ (p = a ∨ Below s p a) := by
  constructor
  · intro h
    obtain ⟨p, hp, hrest⟩ := Relation.TransGen.head'_iff.mp h
    obtain heq | hbelow := Relation.reflTransGen_iff_eq_or_transGen.mp hrest
    · exact ⟨p, hp, .inl heq.symm⟩
    · exact ⟨p, hp, .inr hbelow⟩
  · rintro ⟨p, hp, rfl | hbelow⟩
    · exact .single hp
    · exact .head hp hbelow

theorem Queue.not_exclusive_root (h : Queue s) (hc : s.call? c = some call)
    (hexclusive : call.exclusive = true) : ∃ p, call.parent = some p := by
  cases hp : call.parent with
  | none =>
    rw [((h.plain c call hc).1 hp).2.1] at hexclusive
    cases hexclusive
  | some p => exact ⟨p, rfl⟩

theorem Queue.holdsQueue_of_below (h : Queue s) (ha : Takes s a) (hbelow : Below s c a)
    (hc : s.call? c = some call) (hp : call.parent = some p) (hfound : s.call? p = some parent) :
    parent.holdsQueue = true := by
  induction c using Nat.strong_induction_on generalizing call p parent with
  | h c ih =>
    have hdecided := decided_of_entered (h.tree.entered_of_parent hc hp hfound)
    have hscope : ∀ {q : ℕ} {above : Call}, parent.parent = some q → s.call? q = some above →
        parent.holdsQueue = (above.holdsQueue || parent.exclusive) :=
      fun hq habove => (h.scopes p parent _ _ hfound hq habove hdecided).2
    obtain ⟨_, ⟨other, hother, hparent⟩, hcase⟩ := below_iff.mp hbelow
    rw [hc] at hother
    cases hother
    rw [hp] at hparent
    cases hparent
    obtain rfl | hpbelow := hcase
    · obtain ⟨taker, htaker, hexclusive⟩ := ha
      rw [hfound] at htaker
      cases htaker
      obtain ⟨q, hq⟩ := h.not_exclusive_root hfound hexclusive
      obtain ⟨_, above, habove, _⟩ := h.tree.parent p parent q hfound hq
      rw [hscope hq habove, hexclusive, Bool.or_true]
    · obtain ⟨q, ⟨found, hsame, hq⟩, _⟩ := below_iff.mp hpbelow
      rw [hfound] at hsame
      cases hsame
      obtain ⟨_, above, habove, _⟩ := h.tree.parent p parent q hfound hq
      have hlt := (h.tree.parent c call p hc hp).1
      rw [hscope hq habove, ih p hlt hpbelow hfound hq habove, Bool.true_or]

theorem Queue.takes_of_holdsQueue (h : Queue s) (hfound : s.call? p = some parent)
    (hentered : parent.stage.entered = true) (hholds : parent.holdsQueue = true) :
    ∃ a, Takes s a ∧ (p = a ∨ Below s p a) := by
  induction p using Nat.strong_induction_on generalizing parent with
  | h p ih =>
    cases hq : parent.parent with
    | none =>
      rw [((h.plain p parent hfound).1 hq).1] at hholds
      cases hholds
    | some q =>
      obtain ⟨hlt, above, habove, haentered, _⟩ := h.tree.parent p parent q hfound hq
      have hscope := (h.scopes p parent q above hfound hq habove (decided_of_entered hentered)).2
      rw [hholds] at hscope
      obtain habovequeue | hexclusive := Bool.or_eq_true_iff.mp hscope.symm
      · obtain ⟨a, ha, hcase⟩ := ih q hlt habove haentered habovequeue
        exact ⟨a, ha, .inr (below_iff.mpr ⟨q, ⟨parent, hfound, hq⟩, hcase⟩)⟩
      · exact ⟨p, ⟨parent, hfound, hexclusive⟩, .inl rfl⟩

theorem Queue.insideAlone (h : Queue s) (hc : InsideAlone s c) :
    s.holder = some c ∨ ∃ a, Takes s a ∧ Below s c a := by
  obtain ⟨call, hcall, hnested, hstage, halone⟩ := hc
  obtain ⟨p, hp⟩ := Option.isSome_iff_exists.mp hnested
  obtain ⟨_, parent, hfound, hentered, _⟩ := h.tree.parent c call p hcall hp
  have hdecided : call.stage.decided = true := by
    rw [hstage]
    rfl
  have hexclusive := (h.scopes c call p parent hcall hp hfound hdecided).1
  rw [halone, Bool.and_true] at hexclusive
  cases hholds : parent.holdsQueue with
  | false =>
    rw [hholds] at hexclusive
    exact .inl ((h.held c).mpr ⟨call, hcall, hexclusive, hstage⟩)
  | true =>
    obtain ⟨a, ha, hcase⟩ := h.takes_of_holdsQueue hfound hentered hholds
    exact .inr ⟨a, ha, below_iff.mpr ⟨p, ⟨call, hcall, hp⟩, hcase⟩⟩

theorem Queue.apart (h : Queue s) (hne : c ≠ d) (hc : InsideAlone s c) (hd : InsideAlone s d) :
    Below s c d ∨ Below s d c ∨ (∃ a, s.holder = some a ∧ Below s c a ∧ Below s d a) ∨
      ∃ a, Takes s a ∧ s.holder ≠ some a ∧ (Below s c a ∨ Below s d a) := by
  obtain hcheld | ⟨a, ha, hca⟩ := h.insideAlone hc
  · obtain hdheld | ⟨b, hb, hdb⟩ := h.insideAlone hd
    · rw [hcheld] at hdheld
      exact absurd (some.inj hdheld) hne
    · by_cases hbheld : s.holder = some b
      · rw [hcheld] at hbheld
        cases hbheld
        exact .inr (.inl hdb)
      · exact .inr (.inr (.inr ⟨b, hb, hbheld, .inr hdb⟩))
  · by_cases haheld : s.holder = some a
    · obtain hdheld | ⟨b, hb, hdb⟩ := h.insideAlone hd
      · rw [haheld] at hdheld
        cases hdheld
        exact .inl hca
      · by_cases hbheld : s.holder = some b
        · rw [haheld] at hbheld
          cases hbheld
          exact .inr (.inr (.inl ⟨a, haheld, hca, hdb⟩))
        · exact .inr (.inr (.inr ⟨b, hb, hbheld, .inr hdb⟩))
    · exact .inr (.inr (.inr ⟨a, ha, haheld, .inl hca⟩))

theorem Queue.not_below_of_queued (h : Queue s) (hc : s.call? c = some call)
    (hqueued : call.stage = .queued) (ha : Takes s a) : ¬ Below s c a := by
  intro hbelow
  obtain ⟨p, ⟨other, hother, hp⟩, _⟩ := below_iff.mp hbelow
  rw [hc] at hother
  cases hother
  obtain ⟨_, parent, hfound, _⟩ := h.tree.parent c call p hc hp
  have hdecided : call.stage.decided = true := by
    rw [hqueued]
    rfl
  have hexclusive := (h.scopes c call p parent hc hp hfound hdecided).1
  rw [h.holdsQueue_of_below ha hbelow hc hp hfound, (h.plain c call hc).2 hqueued] at hexclusive
  cases hexclusive

theorem Queue.takes_of_holder (h : Queue s) (ha : s.holder = some a) : Takes s a := by
  obtain ⟨call, hcall, hholds⟩ := (h.held a).mp ha
  exact ⟨call, hcall, hholds.1⟩

/-! ### Progress -/

/-- A nested call that has neither ended nor been left. -/
def InProgress (s : State) (c : ℕ) : Prop :=
  ∃ call, s.call? c = some call ∧ call.parent.isSome = true ∧ call.stage.inProgress = true

/-- The next step of a call that nobody leaves. -/
def Action.advances : Action → Option ℕ
  | .announce c | .decide c _ _ | .acquire c | .finish c | .conclude c => some c
  | _ => none

theorem Queue.can_advance (h : Queue s) (hc : s.call? c = some call)
    (hnested : call.parent.isSome = true) (hprogress : call.stage.inProgress = true)
    (hfree : call.stage = .queued → s.holder = none) :
    ∃ action, action.advances = some c ∧ (NestedToolCalls.step s action).isSome = true := by
  cases hstage : call.stage with
  | numbered => exact ⟨.announce c, rfl, by simp [NestedToolCalls.step, hc, hstage]⟩
  | started =>
    obtain ⟨p, hp⟩ := Option.isSome_iff_exists.mp hnested
    obtain ⟨_, parent, hfound, _⟩ := h.tree.parent c call p hc hp
    exact ⟨.decide c false [], rfl, by simp [NestedToolCalls.step, hc, hp, hfound, hstage]⟩
  | queued => exact ⟨.acquire c, rfl, by simp [NestedToolCalls.step, hc, hstage, hfree hstage]⟩
  | inside => exact ⟨.finish c, rfl, by simp [NestedToolCalls.step, hc, hstage]⟩
  | returned => exact ⟨.conclude c, rfl, by simp [NestedToolCalls.step, hc, hstage]⟩
  | ended | left =>
    rw [hstage] at hprogress
    cases hprogress

theorem exists_last (kind : ℕ → Prop) (h : ∃ c, InProgress s c ∧ kind c) :
    ∃ c, (InProgress s c ∧ kind c) ∧ ∀ d, InProgress s d ∧ kind d → d ≤ c := by
  classical
  obtain ⟨c, hc⟩ := h
  have hbound : ∀ d, InProgress s d ∧ kind d → d ≤ s.calls.length := by
    rintro d ⟨⟨call, hcall, _⟩, _⟩
    exact (call?_lt hcall).le
  have hspec := Nat.findGreatest_spec (P := fun d => InProgress s d ∧ kind d) (hbound c hc) hc
  exact ⟨_, hspec, fun d hd => Nat.le_findGreatest (hbound d hd) hd⟩

theorem Queue.progress (h : Queue s) (hsome : ∃ c, InProgress s c) :
    ∃ c, InProgress s c ∧ (∀ d, InProgress s d → ¬ Parent s d c) ∧
      ∃ action, action.advances = some c ∧ (NestedToolCalls.step s action).isSome = true := by
  cases hholder : s.holder with
  | none =>
    obtain ⟨c, ⟨hc, _⟩, hlast⟩ := exists_last (fun _ => True)
      (hsome.imp fun _ hc => ⟨hc, trivial⟩)
    refine ⟨c, hc, fun d hd hparent => ?_, ?_⟩
    · have hlt := h.tree.lt_of_below (.single hparent)
      have hle := hlast d ⟨hd, trivial⟩
      omega
    · obtain ⟨call, hcall, hnested, hprogress⟩ := hc
      exact h.can_advance hcall hnested hprogress fun _ => hholder
  | some a =>
    have htakes := h.takes_of_holder hholder
    have hinside : InProgress s a := by
      obtain ⟨call, hcall, hexclusive, hstage⟩ := (h.held a).mp hholder
      obtain ⟨p, hp⟩ := h.not_exclusive_root hcall hexclusive
      exact ⟨call, hcall, by rw [hp]; rfl, by rw [hstage]; rfl⟩
    obtain ⟨c, ⟨hc, hkind⟩, hlast⟩ := exists_last (fun c => c = a ∨ Below s c a)
      ⟨a, hinside, .inl rfl⟩
    refine ⟨c, hc, fun d hd hparent => ?_, ?_⟩
    · have hlt := h.tree.lt_of_below (.single hparent)
      have hle := hlast d ⟨hd, .inr (below_iff.mpr ⟨c, hparent, hkind⟩)⟩
      omega
    · obtain ⟨call, hcall, hnested, hprogress⟩ := hc
      apply h.can_advance hcall hnested hprogress
      intro hqueued
      obtain rfl | hbelow := hkind
      · obtain ⟨_, hsame, _, hstage⟩ := (h.held c).mp hholder
        rw [hcall] at hsame
        cases hsame
        rw [hqueued] at hstage
        cases hstage
      · exact absurd hbelow (h.not_below_of_queued hcall hqueued htakes)

end Pidrei.NestedToolCalls
