import Mathlib.Tactic.Common

/-!
Computations that leave a trace of actions. A computation asks its surroundings
for answers, one tick at a time, and ends with a value, with an error, or cut off
after a bounded number of steps. A protocol is a relation that says which actions
are allowed in which stage; a computation follows the protocol from a stage when
its actions are steps from there. The rules compose this over the computation.
-/

/-- How a computation ends when it does not end with a value. -/
inductive Stop where
  | raised (error : String)
  | cut
  deriving DecidableEq

/-- `ticks` counts the answers that were asked for. -/
structure Ran (ε α : Type) where
  actions : List ε
  ticks : Nat
  ending : Except Stop α

def Traced (ε α : Type) : Type := Nat → Ran ε α

namespace Traced

variable {ε α β σ : Type}

/-- Do something that is seen. -/
def act (a : ε) : Traced ε Unit := fun _ => ⟨[a], 0, .ok ()⟩

def ask (answer : Nat → α) : Traced ε α := fun tick => ⟨[], 1, .ok (answer tick)⟩

def stop (reason : Stop) : Traced ε α := fun _ => ⟨[], 0, .error reason⟩

def andThen (m : Traced ε α) (f : α → Traced ε β) : Traced ε β := fun tick =>
  match (m tick).ending with
  | .ok a =>
    let later := f a (tick + (m tick).ticks)
    ⟨(m tick).actions ++ later.actions, (m tick).ticks + later.ticks, later.ending⟩
  | .error reason => ⟨(m tick).actions, (m tick).ticks, .error reason⟩

instance : Monad (Traced ε) where
  pure a := fun _ => ⟨[], 0, .ok a⟩
  bind := andThen

/-- Run to an end and look at the error, if there is one. -/
def attempt (m : Traced ε α) : Traced ε (Except String α) := fun tick =>
  match (m tick).ending with
  | .ok a => ⟨(m tick).actions, (m tick).ticks, .ok (.ok a)⟩
  | .error (.raised error) => ⟨(m tick).actions, (m tick).ticks, .ok (.error error)⟩
  | .error .cut => ⟨(m tick).actions, (m tick).ticks, .error .cut⟩

/-- Ask something that may raise. -/
def call (answer : Nat → Except String α) : Traced ε α := do
  match ← ask answer with
  | .ok a => pure a
  | .error error => stop (.raised error)

/-! Protocols. -/

/-- The actions lead from one stage to another. -/
inductive Steps (step : σ → ε → σ → Prop) : σ → List ε → σ → Prop
  | nil (s : σ) : Steps step s [] s
  | cons {s t u : σ} {a : ε} {rest : List ε} (first : step s a t) (more : Steps step t rest u) :
    Steps step s (a :: rest) u

section Rules

variable {step : σ → ε → σ → Prop} {s t u : σ} {xs ys : List ε} {a : ε} {answer : Nat → α}
  {f : α → Traced ε β}

theorem Steps.append (hxs : Steps step s xs t) (hys : Steps step t ys u) :
    Steps step s (xs ++ ys) u := by
  induction hxs with
  | nil => exact hys
  | cons first _ ih => exact .cons first (ih hys)

theorem Steps.split (h : Steps step s (xs ++ ys) u) :
    ∃ t, Steps step s xs t ∧ Steps step t ys u := by
  induction xs generalizing s with
  | nil => exact ⟨s, .nil s, h⟩
  | cons x xs ih =>
    cases h with
    | cons first more =>
      obtain ⟨t, hxs, hys⟩ := ih more
      exact ⟨t, .cons first hxs, hys⟩

/-- What each step keeps holds after every run. -/
theorem Steps.invariant {keeps : σ → Prop} (hstep : ∀ s a t, step s a t → keeps s → keeps t)
    (h : Steps step s xs t) (hs : keeps s) : keeps t := by
  induction h with
  | nil => exact hs
  | cons first _ ih => exact ih (hstep _ _ _ first hs)

/-- From stage `s` the computation takes allowed actions; it reaches a stage as `done` says when
it ends with a value and as `stopped` says when it does not. Only runs whose answers all come
before the horizon count. -/
def Follows (step : σ → ε → σ → Prop) (horizon : Nat) (s : σ) (m : Traced ε α)
    (done : σ → α → Prop) (stopped : σ → Stop → Prop) : Prop :=
  ∀ tick, tick + (m tick).ticks ≤ horizon → ∃ t, Steps step s (m tick).actions t ∧
    match (m tick).ending with
    | .ok a => done t a
    | .error reason => stopped t reason

variable {horizon : Nat} {s : σ} {m : Traced ε α} {done : σ → α → Prop}
  {stopped : σ → Stop → Prop}

theorem Follows.mono {later : σ → α → Prop} {halted : σ → Stop → Prop}
    (h : Follows step horizon s m done stopped) (hdone : ∀ t a, done t a → later t a)
    (hstopped : ∀ t reason, stopped t reason → halted t reason) :
    Follows step horizon s m later halted := by
  intro tick htick
  obtain ⟨t, hsteps, hending⟩ := h tick htick
  refine ⟨t, hsteps, ?_⟩
  cases hresult : (m tick).ending with
  | ok a =>
    rw [hresult] at hending
    exact hdone t a hending
  | error reason =>
    rw [hresult] at hending
    exact hstopped t reason hending

theorem Follows.reaches (h : Follows step horizon s m done stopped) (tick : Nat)
    (htick : tick + (m tick).ticks ≤ horizon) :
    ∃ t, Steps step s (m tick).actions t ∧ (∀ a, (m tick).ending = .ok a → done t a) ∧
      ∀ reason, (m tick).ending = .error reason → stopped t reason := by
  obtain ⟨t, hsteps, hending⟩ := h tick htick
  refine ⟨t, hsteps, ?_, ?_⟩
  · intro a hvalue
    rwa [hvalue] at hending
  · intro reason hstop
    rwa [hstop] at hending

theorem Follows.pure {a : α} (h : done s a) :
    Follows step horizon s (Pure.pure a : Traced ε α) done stopped := fun _ _ => ⟨s, .nil s, h⟩

theorem Follows.stop {reason : Stop} (h : stopped s reason) :
    Follows step horizon s (Traced.stop reason : Traced ε α) done stopped :=
  fun _ _ => ⟨s, .nil s, h⟩

theorem Follows.act {done : σ → Unit → Prop} (h : step s a t) (ht : done t ()) :
    Follows step horizon s (Traced.act a) done stopped := fun _ _ => ⟨t, .cons h (.nil t), ht⟩

theorem Follows.ask (h : ∀ tick < horizon, done s (answer tick)) :
    Follows step horizon s (Traced.ask answer : Traced ε α) done stopped :=
  fun tick htick => ⟨s, .nil s, h tick (Nat.lt_of_succ_le htick)⟩

theorem Follows.bind {later : σ → β → Prop} (hm : Follows step horizon s m done stopped)
    (hf : ∀ t a, done t a → Follows step horizon t (f a) later stopped) :
    Follows step horizon s (m >>= f) later stopped := by
  intro tick htick
  change tick + (andThen m f tick).ticks ≤ horizon at htick
  change ∃ u, Steps step s (andThen m f tick).actions u ∧
    match (andThen m f tick).ending with
    | .ok b => later u b
    | .error reason => stopped u reason
  cases hresult : (m tick).ending with
  | ok a =>
    simp only [andThen, hresult] at htick ⊢
    obtain ⟨t, hsteps, hending⟩ := hm tick (by omega)
    rw [hresult] at hending
    obtain ⟨u, hmore, hlater⟩ := hf t a hending (tick + (m tick).ticks) (by omega)
    exact ⟨u, hsteps.append hmore, hlater⟩
  | error reason =>
    simp only [andThen, hresult] at htick ⊢
    obtain ⟨t, hsteps, hending⟩ := hm tick htick
    rw [hresult] at hending
    exact ⟨t, hsteps, hending⟩

/-- Nothing that is only asked changes the stage. -/
theorem Follows.askBind {later : σ → β → Prop}
    (hf : ∀ tick < horizon, Follows step horizon s (f (answer tick)) later stopped) :
    Follows step horizon s (Traced.ask answer >>= f) later stopped := by
  have hask : Follows step horizon s (Traced.ask answer : Traced ε α)
      (fun t a => t = s ∧ ∃ tick < horizon, a = answer tick) stopped :=
    Follows.ask fun tick htick => ⟨rfl, tick, htick, rfl⟩
  refine hask.bind ?_
  rintro t a ⟨rfl, tick, htick, rfl⟩
  exact hf tick htick

theorem Follows.actBind {f : Unit → Traced ε β} {later : σ → β → Prop} (h : step s a t)
    (hf : Follows step horizon t (f ()) later stopped) :
    Follows step horizon s (Traced.act a >>= f) later stopped := by
  have hact : Follows step horizon s (Traced.act a) (fun u _ => u = t) stopped := Follows.act h rfl
  refine hact.bind ?_
  rintro u ⟨⟩ rfl
  exact hf

/-- An answer leaves the stage as it is, also when it is an error. -/
theorem Follows.callBind {answer : Nat → Except String α} {later : σ → β → Prop}
    (hraised : ∀ error, stopped s (.raised error))
    (hf : ∀ tick a, answer tick = .ok a → Follows step horizon s (f a) later stopped) :
    Follows step horizon s (Traced.call answer >>= f) later stopped := by
  have hcall : Follows step horizon s (Traced.call answer : Traced ε α)
      (fun t a => t = s ∧ ∃ tick, answer tick = .ok a) stopped := by
    refine Follows.askBind fun tick _ => ?_
    cases hanswer : answer tick with
    | ok a => exact Follows.pure ⟨rfl, tick, hanswer⟩
    | error error => exact Follows.stop (hraised error)
  refine hcall.bind ?_
  rintro t a ⟨rfl, tick, hanswer⟩
  exact hf tick a hanswer

/-- A computation whose error is looked at. -/
theorem Follows.attemptBind {f : Except String α → Traced ε β} {later : σ → β → Prop}
    {halted : σ → Stop → Prop} (hm : Follows step horizon s m done halted)
    (hcut : ∀ t, halted t .cut → stopped t .cut)
    (hvalue : ∀ t a, done t a → Follows step horizon t (f (.ok a)) later stopped)
    (herror : ∀ t error, halted t (.raised error) →
      Follows step horizon t (f (.error error)) later stopped) :
    Follows step horizon s (Traced.attempt m >>= f) later stopped := by
  have hattempt : Follows step horizon s (Traced.attempt m)
      (fun t result => match result with
        | .ok a => done t a
        | .error error => halted t (.raised error)) stopped := by
    intro tick htick
    have hticks : (Traced.attempt m tick).ticks = (m tick).ticks := by
      unfold Traced.attempt
      split <;> rfl
    obtain ⟨t, hsteps, hending⟩ := hm tick (hticks ▸ htick)
    unfold Traced.attempt
    split
    · rename_i a hresult
      rw [hresult] at hending
      exact ⟨t, hsteps, hending⟩
    · rename_i error hresult
      rw [hresult] at hending
      exact ⟨t, hsteps, hending⟩
    · rename_i hresult
      rw [hresult] at hending
      exact ⟨t, hsteps, hcut t hending⟩
  refine hattempt.bind ?_
  intro t result hresult
  cases result with
  | ok a => exact hvalue t a hresult
  | error error => exact herror t error hresult

/-- A protocol inside a larger one: its stages are some of the larger one's. -/
theorem Follows.lift {τ : Type} {inner : τ → ε → τ → Prop} {embed : τ → σ}
    (hembed : ∀ u a v, inner u a v → step (embed u) a (embed v)) {u : τ} {done : τ → α → Prop}
    {stopped : τ → Stop → Prop} (h : Follows inner horizon u m done stopped) :
    Follows step horizon (embed u) m (fun t a => ∃ v, t = embed v ∧ done v a)
      (fun t reason => ∃ v, t = embed v ∧ stopped v reason) := by
  have hsteps : ∀ {u v xs}, Steps inner u xs v → Steps step (embed u) xs (embed v) := by
    intro u v xs hrun
    induction hrun with
    | nil => exact .nil _
    | cons first _ ih => exact .cons (hembed _ _ _ first) ih
  intro tick htick
  obtain ⟨v, hrun, hending⟩ := h tick htick
  refine ⟨embed v, hsteps hrun, ?_⟩
  cases hresult : (m tick).ending with
  | ok | error =>
    rw [hresult] at hending
    exact ⟨v, rfl, hending⟩

end Rules

end Traced
