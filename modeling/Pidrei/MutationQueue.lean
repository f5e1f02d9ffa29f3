import Mathlib.Algebra.GroupWithZero.Nat
import Pidrei.Library.Runs

/-!
The queue of file mutations. A call takes its place in line by putting its own
event in the map and keeping the one that was there; its body runs detached, waits
for that event, and afterwards clears the map entry when it is still its own and
sets its event. The caller only waits for the event. Calls, bodies and callers of
any keys interleave.
-/
namespace Pidrei.MutationQueue

open List
open Option (bind_eq_some_iff mem_toList some)

/-- Where the detached run of a body is. `stored` is the outcome; none when the body was left
by an exception that is no `Exception`. -/
inductive Phase (ω : Type)
  | waiting
  | running
  | ended (stored : Option ω)
  | cleaned (stored : Option ω)
  | done (stored : Option ω)

inductive Caller (ω : Type)
  | joining
  | cancelled
  | resumed (stored : Option ω)

/-- One call. `previous` is the call whose event it found in the map. -/
structure Mutation (κ ω : Type) where
  key : κ
  previous : Option ℕ
  phase : Phase ω
  caller : Caller ω

/-- The calls in the order of registration, and the map from keys to the event at the end of
their line. -/
structure State (κ ω : Type) where
  mutations : List (Mutation κ ω)
  queues : κ → Option ℕ

def start (κ ω : Type) : State κ ω := ⟨[], fun _ => none⟩

inductive Action (κ ω : Type)
  | register (key : κ)
  | beginBody (i : ℕ)
  | endBody (i : ℕ) (stored : Option ω)
  | cleanUp (i : ℕ)
  | setDone (i : ℕ)
  | cancelCaller (i : ℕ)
  | resumeCaller (i : ℕ)

variable {κ ω : Type}

namespace State

def setQueue [DecidableEq κ] (s : State κ ω) (key : κ) (entry : Option ℕ) : State κ ω :=
  { s with queues := fun other => if other = key then entry else s.queues other }

def setPhase (s : State κ ω) (i : ℕ) (phase : Phase ω) : State κ ω :=
  { s with mutations := s.mutations.modify i fun mutation => { mutation with phase } }

def setCaller (s : State κ ω) (i : ℕ) (caller : Caller ω) : State κ ω :=
  { s with mutations := s.mutations.modify i fun mutation => { mutation with caller } }

def isSet (s : State κ ω) (i : ℕ) : Bool :=
  match s.mutations[i]? with
  | some { phase := .done _, .. } => true
  | _ => false

end State

section Operations

variable [DecidableEq κ]

/-- `with_file_mutation_queue` up to its return: the registration under the guard. -/
def withFileMutationQueue (s : State κ ω) (key : κ) : State κ ω :=
  let mutation : Mutation κ ω := ⟨key, s.queues key, .waiting, .joining⟩
  let registered : State κ ω := { s with mutations := s.mutations ++ [mutation] }
  registered.setQueue key (some s.mutations.length)

/-- `await previous.wait()` returns and the body is called. -/
def beginBody (s : State κ ω) (i : ℕ) (mutation : Mutation κ ω) : Option (State κ ω) :=
  match mutation.phase with
  | .waiting =>
    if mutation.previous.all s.isSet then some (s.setPhase i .running) else none
  | _ => none

def endBody (s : State κ ω) (i : ℕ) (mutation : Mutation κ ω) (stored : Option ω) :
    Option (State κ ω) :=
  match mutation.phase with
  | .running => some (s.setPhase i (.ended stored))
  | _ => none

/-- The guarded part of `finally`. -/
def cleanUp (s : State κ ω) (i : ℕ) (mutation : Mutation κ ω) : Option (State κ ω) :=
  match mutation.phase with
  | .ended stored =>
    let s := s.setPhase i (.cleaned stored)
    some (if s.queues mutation.key = some i then s.setQueue mutation.key none else s)
  | _ => none

def setDone (s : State κ ω) (i : ℕ) (mutation : Mutation κ ω) : Option (State κ ω) :=
  match mutation.phase with
  | .cleaned stored => some (s.setPhase i (.done stored))
  | _ => none

def cancelCaller (s : State κ ω) (i : ℕ) (mutation : Mutation κ ω) : Option (State κ ω) :=
  match mutation.caller with
  | .joining => some (s.setCaller i .cancelled)
  | _ => none

/-- `join` after `await done.wait()`. -/
def resumeCaller (s : State κ ω) (i : ℕ) (mutation : Mutation κ ω) : Option (State κ ω) :=
  match mutation.caller, mutation.phase with
  | .joining, .done stored => some (s.setCaller i (.resumed stored))
  | _, _ => none

def step (s : State κ ω) : Action κ ω → Option (State κ ω)
  | .register key => some (withFileMutationQueue s key)
  | .beginBody i => s.mutations[i]?.bind (beginBody s i)
  | .endBody i stored => s.mutations[i]?.bind fun mutation => endBody s i mutation stored
  | .cleanUp i => s.mutations[i]?.bind (cleanUp s i)
  | .setDone i => s.mutations[i]?.bind (setDone s i)
  | .cancelCaller i => s.mutations[i]?.bind (cancelCaller s i)
  | .resumeCaller i => s.mutations[i]?.bind (resumeCaller s i)

end Operations

section Calls

/-- How far the run of a body has come. -/
@[simp] def Phase.stage : Phase ω → ℕ
  | .waiting => 0
  | .running => 1
  | .ended _ => 2
  | .cleaned _ => 3
  | .done _ => 4

/-- The call with its place in line. -/
def State.At (s : State κ ω) (i : ℕ) (mutation : Mutation κ ω) : Prop :=
  s.mutations[i]? = some mutation

/-- Both states have the same calls, none of them further back in the second. -/
structure Advances (s t : State κ ω) : Prop where
  forward : ∀ {i m}, s.At i m → ∃ m', t.At i m' ∧ m'.key = m.key ∧ m'.previous = m.previous ∧
    m.phase.stage ≤ m'.phase.stage
  backward : ∀ {i m'}, t.At i m' → ∃ m, s.At i m ∧ m'.key = m.key ∧ m'.previous = m.previous ∧
    m.phase.stage ≤ m'.phase.stage

variable {s : State κ ω} {i : ℕ} {m m' : Mutation κ ω}

theorem at_unique (h : s.At i m) (h' : s.At i m') : m = m' := some.inj (h.symm.trans h')

variable {j : ℕ} {phase : Phase ω}

theorem at_setPhase : (s.setPhase i phase).At j m' ↔
      (i = j ∧ ∃ m, s.At j m ∧ m' = { m with phase := phase }) ∨ (i ≠ j ∧ s.At j m') := by
  unfold State.At State.setPhase
  rw [getElem?_modify]
  by_cases hij : i = j
  · simp only [hij, if_true, true_and, ne_eq, not_true_eq_false, false_and, or_false]
    cases s.mutations[j]? <;> simp [eq_comm]
  · simp [hij]

theorem at_setCaller {caller : Caller ω} : (s.setCaller i caller).At j m' ↔
      (i = j ∧ ∃ m, s.At j m ∧ m' = { m with caller := caller }) ∨ (i ≠ j ∧ s.At j m') := by
  unfold State.At State.setCaller
  rw [getElem?_modify]
  by_cases hij : i = j
  · simp only [hij, if_true, true_and, ne_eq, not_true_eq_false, false_and, or_false]
    cases s.mutations[j]? <;> simp [eq_comm]
  · simp [hij]

theorem setPhase_advances (h : s.At i m) (hstage : m.phase.stage ≤ phase.stage) :
    Advances s (s.setPhase i phase) where
  forward := by
    intro j n hn
    by_cases hij : i = j
    · subst hij
      obtain rfl := at_unique h hn
      exact ⟨_, at_setPhase.mpr (.inl ⟨rfl, m, h, rfl⟩), rfl, rfl, hstage⟩
    · exact ⟨n, at_setPhase.mpr (.inr ⟨hij, hn⟩), rfl, rfl, Nat.le_refl _⟩
  backward := by
    intro j n' hn'
    rcases at_setPhase.mp hn' with ⟨rfl, n, hn, rfl⟩ | ⟨_, hn⟩
    · obtain rfl := at_unique h hn
      exact ⟨m, h, rfl, rfl, hstage⟩
    · exact ⟨n', hn, rfl, rfl, Nat.le_refl _⟩

theorem setCaller_advances (s : State κ ω) (i : ℕ) (caller : Caller ω) :
    Advances s (s.setCaller i caller) where
  forward := by
    intro j n hn
    by_cases hij : i = j
    · exact ⟨_, at_setCaller.mpr (.inl ⟨hij, n, hn, rfl⟩), rfl, rfl, Nat.le_refl _⟩
    · exact ⟨n, at_setCaller.mpr (.inr ⟨hij, hn⟩), rfl, rfl, Nat.le_refl _⟩
  backward := by
    intro j n' hn'
    rcases at_setCaller.mp hn' with ⟨rfl, n, hn, rfl⟩ | ⟨_, hn⟩
    · exact ⟨n, hn, rfl, rfl, Nat.le_refl _⟩
    · exact ⟨n', hn, rfl, rfl, Nat.le_refl _⟩

theorem at_lt (h : s.At i m) : i < s.mutations.length := (List.getElem?_eq_some_iff.mp h).1

theorem isSet_iff (s : State κ ω) (i : ℕ) :
    s.isSet i = true ↔ ∃ m, s.At i m ∧ 4 ≤ m.phase.stage := by
  unfold State.isSet State.At
  cases hm : s.mutations[i]? with
  | none => simp
  | some m =>
    obtain ⟨key, previous, phase, caller⟩ := m
    cases phase <;> simp [Phase.stage]

theorem Advances.isSet {t : State κ ω} (h : Advances s t) (hset : s.isSet i = true) :
    t.isSet i = true := by
  obtain ⟨m, hm, hstage⟩ := (isSet_iff s i).mp hset
  obtain ⟨m', hm', _, _, hle⟩ := h.forward hm
  exact (isSet_iff t i).mpr ⟨m', hm', by omega⟩

end Calls

section Lines

/-- The lines of the keys. A call waits for the last one of its key that was not cleaned up at
its registration, and the map entry of a key is its last call that is not cleaned up. -/
structure Sound (s : State κ ω) : Prop where
  earlier : ∀ {i m j}, s.At i m → m.previous = some j → j < i ∧
    (∃ p, s.At j p ∧ p.key = m.key) ∧ ∀ {l n}, s.At l n → n.key = m.key → l < i → l ≤ j
  alone : ∀ {i m}, s.At i m → m.previous = none →
    ∀ {l n}, s.At l n → n.key = m.key → l < i → 3 ≤ n.phase.stage
  turn : ∀ {i m j}, s.At i m → 0 < m.phase.stage → m.previous = some j → s.isSet j = true
  entry : ∀ {key i}, s.queues key = some i →
    (∃ m, s.At i m ∧ m.key = key ∧ m.phase.stage < 3) ∧
      ∀ {l n}, s.At l n → n.key = key → l ≤ i
  free : ∀ {key}, s.queues key = none → ∀ {l n}, s.At l n → n.key = key → 3 ≤ n.phase.stage

theorem sound_start : Sound (start κ ω) where
  earlier := fun h => absurd h (by simp [start, State.At])
  alone := fun h => absurd h (by simp [start, State.At])
  turn := fun h => absurd h (by simp [start, State.At])
  entry := fun h => absurd h (by simp [start])
  free := fun _ _ _ h => absurd h (by simp [start, State.At])

variable {s : State κ ω} {i : ℕ} {m : Mutation κ ω}

theorem Sound.earlier_over (hs : Sound s) (hm : s.At i m) (hbegun : 0 < m.phase.stage) {l : ℕ}
    {n : Mutation κ ω} (hn : s.At l n) (hkey : n.key = m.key) (hl : l < i) : 3 ≤ n.phase.stage := by
  induction i using Nat.strongRecOn generalizing m with
  | ind i ih =>
    cases hprevious : m.previous with
    | none => exact hs.alone hm hprevious hn hkey hl
    | some j =>
      obtain ⟨hj, ⟨p, hp, hpkey⟩, hlast⟩ := hs.earlier hm hprevious
      obtain ⟨p', hp', hset⟩ := (isSet_iff s j).mp (hs.turn hm hbegun hprevious)
      obtain rfl := at_unique hp hp'
      have hle := hlast hn hkey hl
      by_cases hlj : l = j
      · subst hlj
        obtain rfl := at_unique hp hn
        omega
      · exact ih j hj hp (by omega) (hkey.trans hpkey.symm) (by omega)

/-- What a step that registers nothing has to keep. -/
theorem Sound.of_advances {t : State κ ω} (hs : Sound s) (h : Advances s t)
    (hturn : ∀ {i m j}, t.At i m → 0 < m.phase.stage → m.previous = some j → s.isSet j = true)
    (hentry : ∀ {key i}, t.queues key = some i →
      s.queues key = some i ∧ ∀ {m}, t.At i m → m.phase.stage < 3)
    (hfree : ∀ {key}, t.queues key = none → ∀ {l n}, t.At l n → n.key = key →
      3 ≤ n.phase.stage) : Sound t where
  earlier := by
    intro i m' j hm' hprevious'
    obtain ⟨m, hm, hkey, hprevious, _⟩ := h.backward hm'
    obtain ⟨hj, ⟨p, hp, hpkey⟩, hlast⟩ := hs.earlier hm (hprevious.symm.trans hprevious')
    obtain ⟨p', hp', hpkey', _, _⟩ := h.forward hp
    refine ⟨hj, ⟨p', hp', by rw [hpkey', hpkey, hkey]⟩, fun {l n'} hn' hnkey hl => ?_⟩
    obtain ⟨n, hn, hnkey', _, _⟩ := h.backward hn'
    exact hlast hn (by rw [← hnkey', hnkey, hkey]) hl
  alone := by
    intro i m' hm' hprevious' l n' hn' hnkey hl
    obtain ⟨m, hm, hkey, hprevious, _⟩ := h.backward hm'
    obtain ⟨n, hn, hnkey', _, hstage⟩ := h.backward hn'
    have := hs.alone hm (hprevious.symm.trans hprevious') hn (by rw [← hnkey', hnkey, hkey]) hl
    omega
  turn := by
    intro i m j hm hbegun hprevious
    exact h.isSet (hturn hm hbegun hprevious)
  entry := by
    intro key i hqueue
    obtain ⟨hbefore, hstage⟩ := hentry hqueue
    obtain ⟨⟨m, hm, hkey, _⟩, hlast⟩ := hs.entry hbefore
    obtain ⟨m', hm', hkey', _, _⟩ := h.forward hm
    refine ⟨⟨m', hm', hkey'.trans hkey, hstage hm'⟩, fun {l n'} hn' hnkey => ?_⟩
    obtain ⟨n, hn, hnkey', _, _⟩ := h.backward hn'
    exact hlast hn (hnkey'.symm.trans hnkey)
  free := hfree

theorem Sound.setPhase (hs : Sound s) {phase : Phase ω} (hm : s.At i m)
    (hstage : m.phase.stage ≤ phase.stage) (hturn : ∀ j, m.previous = some j → s.isSet j = true)
    (hentry : s.queues m.key = some i → phase.stage < 3) : Sound (s.setPhase i phase) := by
  have hadvances := setPhase_advances hm hstage
  apply hs.of_advances hadvances
  · intro k n j hn hbegun hprevious
    rcases at_setPhase.mp hn with ⟨rfl, n, hold, rfl⟩ | ⟨_, hn⟩
    · obtain rfl := at_unique hm hold
      exact hturn j hprevious
    · exact hs.turn hn hbegun hprevious
  · intro key k hqueue
    refine ⟨hqueue, fun {n} hn => ?_⟩
    obtain ⟨⟨n', hn', hkey, hunfinished⟩, _⟩ := hs.entry hqueue
    rcases at_setPhase.mp hn with ⟨rfl, n, hold, rfl⟩ | ⟨_, hn⟩
    · obtain rfl := at_unique hm hold
      obtain rfl := at_unique hm hn'
      rw [← hkey] at hqueue
      exact hentry hqueue
    · rwa [at_unique hn hn']
  · intro key hqueue l n' hn' hkey
    obtain ⟨n, hn, hnkey, _, hle⟩ := hadvances.backward hn'
    have := hs.free hqueue hn (hnkey.symm.trans hkey)
    omega

theorem Sound.setCaller (hs : Sound s) (i : ℕ) (caller : Caller ω) :
    Sound (s.setCaller i caller) := by
  have hadvances := setCaller_advances s i caller
  apply hs.of_advances hadvances
  · intro k n j hn hbegun hprevious
    rcases at_setCaller.mp hn with ⟨rfl, n, hold, rfl⟩ | ⟨_, hn⟩
    · exact hs.turn hold hbegun hprevious
    · exact hs.turn hn hbegun hprevious
  · intro key k hqueue
    refine ⟨hqueue, fun {n} hn => ?_⟩
    obtain ⟨⟨n', hn', _, hunfinished⟩, _⟩ := hs.entry hqueue
    rcases at_setCaller.mp hn with ⟨rfl, n, hold, rfl⟩ | ⟨_, hn⟩
    · rwa [at_unique hn' hold] at hunfinished
    · rwa [at_unique hn hn']
  · intro key hqueue l n' hn' hkey
    obtain ⟨n, hn, hnkey, _, hle⟩ := hadvances.backward hn'
    have := hs.free hqueue hn (hnkey.symm.trans hkey)
    omega

end Lines

section Stages

/-- The call whose run acts, and the stage it reaches. -/
def Action.reaches : Action κ ω → Option (ℕ × ℕ)
  | .beginBody i => some (i, 1)
  | .endBody i _ => some (i, 2)
  | .cleanUp i => some (i, 3)
  | .setDone i => some (i, 4)
  | .register _ | .cancelCaller _ | .resumeCaller _ => none

/-- The stages that the runs have reached, in the order of the actions. -/
def reached (actions : List (Action κ ω)) : List (ℕ × ℕ) := actions.filterMap Action.reaches

theorem reached_append (actions : List (Action κ ω)) (action : Action κ ω) :
    reached (actions ++ [action]) = reached actions ++ action.reaches.toList := by
  rw [reached, filterMap_append]
  cases h : action.reaches <;> simp [reached, h]

/-- Every stage up to the present one was reached once, and no other. -/
structure Traced (actions : List (Action κ ω)) (s : State κ ω) : Prop where
  once : ∀ {i m}, s.At i m → ∀ k, 0 < k →
    (reached actions).count (i, k) = if k ≤ m.phase.stage then 1 else 0
  none : ∀ i k, s.mutations.length ≤ i → (i, k) ∉ reached actions

theorem stage_le (phase : Phase ω) : phase.stage ≤ 4 := by
  cases phase <;> simp

variable {s : State κ ω} {i : ℕ} {m : Mutation κ ω} {phase : Phase ω}

theorem setPhase_stage {action : Action κ ω} (hm : s.At i m)
    (hphase : phase.stage = m.phase.stage + 1) (haction : action.reaches = some (i, phase.stage))
    {j : ℕ} {n' : Mutation κ ω} (hn' : (s.setPhase i phase).At j n') : ∃ n, s.At j n ∧
      ((action.reaches = some (j, n'.phase.stage) ∧ n'.phase.stage = n.phase.stage + 1) ∨
        ((∀ k, action.reaches ≠ some (j, k)) ∧ n'.phase.stage = n.phase.stage)) := by
  rcases at_setPhase.mp hn' with ⟨rfl, n, hn, rfl⟩ | ⟨hij, hn⟩
  · obtain rfl := at_unique hm hn
    exact ⟨m, hm, .inl ⟨haction, hphase⟩⟩
  · refine ⟨n', hn, .inr ⟨fun k hk => hij ?_, rfl⟩⟩
    rw [haction] at hk
    exact congrArg Prod.fst (some.inj hk)

/-- The steps left to the runs of the calls. -/
def remaining (s : State κ ω) : ℕ :=
  (s.mutations.map fun m => 4 - m.phase.stage).sum

theorem sum_modify {α : Type} (f : α → ℕ) (g : α → α) {l : List α} {a : α} (h : l[i]? = some a) :
    ((l.modify i g).map f).sum + f a = (l.map f).sum + f (g a) := by
  induction l generalizing i with
  | nil => cases h
  | cons b l ih =>
    cases i with
    | zero =>
      obtain rfl : b = a := some.inj h
      simp only [modify_zero_cons, map_cons, sum_cons]
      omega
    | succ i =>
      have := ih h
      simp only [modify_succ_cons, map_cons, sum_cons]
      omega

theorem remaining_setPhase (hm : s.At i m) (hphase : phase.stage = m.phase.stage + 1) :
    remaining (s.setPhase i phase) + 1 = remaining s := by
  have hsum := sum_modify (fun m : Mutation κ ω => 4 - m.phase.stage)
    (fun m => { m with phase }) hm
  have hle := stage_le phase
  change remaining (s.setPhase i phase) + (4 - m.phase.stage) =
    remaining s + (4 - phase.stage) at hsum
  omega

theorem remaining_setCaller (hm : s.At i m) (caller : Caller ω) :
    remaining (s.setCaller i caller) = remaining s := by
  have hsum := sum_modify (fun m : Mutation κ ω => 4 - m.phase.stage)
    (fun m => { m with caller }) hm
  exact Nat.add_right_cancel hsum

/-- What every action keeps. -/
structure Kept (actions : List (Action κ ω)) (s : State κ ω) : Prop where
  sound : Sound s
  traced : Traced actions s
  bounded : remaining s + (reached actions).length = 4 * s.mutations.length

theorem kept_start : Kept [] (start κ ω) where
  sound := sound_start
  traced := ⟨fun h => absurd h (by simp [start, State.At]), fun _ _ _ => not_mem_nil⟩
  bounded := rfl

end Stages

variable [DecidableEq κ]

section Steps

variable {s t : State κ ω} {i : ℕ} {action : Action κ ω} {key : κ} {m : Mutation κ ω} {j : ℕ}

theorem at_register : (withFileMutationQueue s key).At i m ↔
      s.At i m ∨ (i = s.mutations.length ∧ m = ⟨key, s.queues key, .waiting, .joining⟩) := by
  change (s.mutations ++ [_])[i]? = some m ↔ _
  rcases Nat.lt_trichotomy i s.mutations.length with hlt | heq | hgt
  · rw [getElem?_append_left hlt]
    refine ⟨.inl, fun h => h.resolve_right fun hnew => ?_⟩
    omega
  · subst heq
    rw [getElem?_append_right (Nat.le_refl _), Nat.sub_self]
    constructor
    · intro h
      exact .inr ⟨rfl, (some.inj h).symm⟩
    · rintro (h | ⟨_, rfl⟩)
      · exact absurd h (by simp [State.At])
      · rfl
  · rw [getElem?_append_right (by omega)]
    constructor
    · intro h
      rw [getElem?_eq_none (by rw [length_singleton]; omega)] at h
      cases h
    · rintro (h | ⟨rfl, _⟩)
      · rw [State.At, getElem?_eq_none (by omega)] at h
        cases h
      · omega

/-- What one action does, besides a registration. -/
inductive Moves (s : State κ ω) : Action κ ω → State κ ω → Prop
  | begin {i : ℕ} {m : Mutation κ ω} (hm : s.At i m) (hphase : m.phase = .waiting)
      (hturn : ∀ j, m.previous = some j → s.isSet j = true) :
      Moves s (.beginBody i) (s.setPhase i .running)
  | end {i : ℕ} {m : Mutation κ ω} (stored : Option ω) (hm : s.At i m)
      (hphase : m.phase = .running) :
      Moves s (.endBody i stored) (s.setPhase i (.ended stored))
  | clear {i : ℕ} {m : Mutation κ ω} {stored : Option ω} (hm : s.At i m)
      (hphase : m.phase = .ended stored) (hentry : s.queues m.key = some i) :
      Moves s (.cleanUp i) ((s.setPhase i (.cleaned stored)).setQueue m.key none)
  | keep {i : ℕ} {m : Mutation κ ω} {stored : Option ω} (hm : s.At i m)
      (hphase : m.phase = .ended stored) (hentry : s.queues m.key ≠ some i) :
      Moves s (.cleanUp i) (s.setPhase i (.cleaned stored))
  | set {i : ℕ} {m : Mutation κ ω} {stored : Option ω} (hm : s.At i m)
      (hphase : m.phase = .cleaned stored) : Moves s (.setDone i) (s.setPhase i (.done stored))
  | cancel {i : ℕ} {m : Mutation κ ω} (hm : s.At i m) (hcaller : m.caller = .joining) :
      Moves s (.cancelCaller i) (s.setCaller i .cancelled)
  | resume {i : ℕ} {m : Mutation κ ω} {stored : Option ω} (hm : s.At i m)
      (hcaller : m.caller = .joining) (hphase : m.phase = .done stored) :
      Moves s (.resumeCaller i) (s.setCaller i (.resumed stored))

theorem step_cases (h : step s action = some t) :
    (∃ key, action = .register key ∧ t = withFileMutationQueue s key) ∨ Moves s action t := by
  cases action with
  | register key => exact .inl ⟨key, rfl, (some.inj h).symm⟩
  | beginBody i =>
    right
    obtain ⟨m, hm, hbegin⟩ := bind_eq_some_iff.mp h
    unfold beginBody at hbegin
    split at hbegin
    next hphase =>
      split at hbegin
      next hturn =>
        rw [← some.inj hbegin]
        apply Moves.begin hm hphase
        intro j hj
        rw [hj] at hturn
        exact hturn
      next => cases hbegin
    next => cases hbegin
  | endBody i stored =>
    right
    obtain ⟨m, hm, hend⟩ := bind_eq_some_iff.mp h
    unfold endBody at hend
    split at hend
    next hphase =>
      rw [← some.inj hend]
      exact Moves.end stored hm hphase
    next => cases hend
  | cleanUp i =>
    right
    obtain ⟨m, hm, hclean⟩ := bind_eq_some_iff.mp h
    unfold cleanUp at hclean
    split at hclean
    next stored hphase =>
      rw [← some.inj hclean]
      by_cases hentry : s.queues m.key = some i
      · rw [if_pos (show (s.setPhase i (.cleaned stored)).queues m.key = some i from hentry)]
        exact Moves.clear hm hphase hentry
      · rw [if_neg (show (s.setPhase i (.cleaned stored)).queues m.key ≠ some i from hentry)]
        exact Moves.keep hm hphase hentry
    next => cases hclean
  | setDone i =>
    right
    obtain ⟨m, hm, hset⟩ := bind_eq_some_iff.mp h
    unfold setDone at hset
    split at hset
    next stored hphase =>
      rw [← some.inj hset]
      exact Moves.set hm hphase
    next => cases hset
  | cancelCaller i =>
    right
    obtain ⟨m, hm, hcancel⟩ := bind_eq_some_iff.mp h
    unfold cancelCaller at hcancel
    split at hcancel
    next hcaller =>
      rw [← some.inj hcancel]
      exact Moves.cancel hm hcaller
    next => cases hcancel
  | resumeCaller i =>
    right
    obtain ⟨m, hm, hresume⟩ := bind_eq_some_iff.mp h
    unfold resumeCaller at hresume
    split at hresume
    next stored hcaller hphase =>
      rw [← some.inj hresume]
      exact Moves.resume hm hcaller hphase
    next => cases hresume

theorem Sound.clear (hs : Sound s) {stored : Option ω} (hm : s.At i m)
    (hphase : m.phase = .ended stored) (hentry : s.queues m.key = some i) :
    Sound ((s.setPhase i (.cleaned stored)).setQueue m.key none) := by
  have hadvances : Advances s ((s.setPhase i (.cleaned stored)).setQueue m.key none) := by
    have h : Advances s (s.setPhase i (.cleaned stored)) :=
      setPhase_advances hm (by simp [hphase])
    exact ⟨h.forward, h.backward⟩
  have hbegun : 0 < m.phase.stage := by simp [hphase]
  apply hs.of_advances hadvances
  · intro k n j hn hpos hprevious
    rcases at_setPhase.mp hn with ⟨rfl, n, hold, rfl⟩ | ⟨_, hn⟩
    · obtain rfl := at_unique hm hold
      exact hs.turn hm hbegun hprevious
    · exact hs.turn hn hpos hprevious
  · intro key k hqueue
    by_cases hkey : key = m.key
    · exact absurd hqueue (by simp [State.setQueue, hkey])
    · have hbefore : s.queues key = some k := by
        simpa [State.setQueue, hkey, State.setPhase] using hqueue
      refine ⟨hbefore, fun {n} hn => ?_⟩
      obtain ⟨⟨n', hn', hnkey, hunfinished⟩, _⟩ := hs.entry hbefore
      rcases at_setPhase.mp hn with ⟨rfl, n, hn, rfl⟩ | ⟨_, hn⟩
      · exact absurd hnkey (by rw [at_unique hn' hm]; exact fun h => hkey h.symm)
      · rwa [at_unique hn hn']
  · intro key hqueue l n hn hnkey
    rcases at_setPhase.mp hn with ⟨rfl, n, hn, rfl⟩ | ⟨hne, hn⟩
    · exact Nat.le_refl 3
    · by_cases hkey : key = m.key
      · have hle := (hs.entry hentry).2 hn (hnkey.trans hkey)
        exact hs.earlier_over hm hbegun hn (hnkey.trans hkey) (by omega)
      · have hbefore : s.queues key = none := by
          simpa [State.setQueue, hkey, State.setPhase] using hqueue
        exact hs.free hbefore hn hnkey

theorem isSet_register (h : s.isSet i = true) : (withFileMutationQueue s key).isSet i = true := by
  obtain ⟨m, hm, hstage⟩ := (isSet_iff s i).mp h
  exact (isSet_iff _ i).mpr ⟨m, at_register.mpr (.inl hm), hstage⟩

theorem Sound.register (hs : Sound s) (key : κ) : Sound (withFileMutationQueue s key) where
  earlier := by
    intro i m j hm hprevious
    rcases at_register.mp hm with hm | ⟨rfl, rfl⟩
    · obtain ⟨hj, ⟨p, hp, hpkey⟩, hlast⟩ := hs.earlier hm hprevious
      refine ⟨hj, ⟨p, at_register.mpr (.inl hp), hpkey⟩, fun {l n} hn hnkey hl => ?_⟩
      rcases at_register.mp hn with hn | ⟨rfl, _⟩
      · exact hlast hn hnkey hl
      · have := at_lt hm
        omega
    · obtain ⟨⟨p, hp, hpkey, _⟩, hlast⟩ := hs.entry hprevious
      refine ⟨at_lt hp, ⟨p, at_register.mpr (.inl hp), hpkey⟩, fun {l n} hn hnkey hl => ?_⟩
      rcases at_register.mp hn with hn | ⟨rfl, _⟩
      · exact hlast hn hnkey
      · omega
  alone := by
    intro i m hm hprevious l n hn hnkey hl
    rcases at_register.mp hm with hm | ⟨rfl, rfl⟩
    · rcases at_register.mp hn with hn | ⟨rfl, _⟩
      · exact hs.alone hm hprevious hn hnkey hl
      · have := at_lt hm
        omega
    · rcases at_register.mp hn with hn | ⟨rfl, _⟩
      · exact hs.free hprevious hn hnkey
      · omega
  turn := by
    intro i m j hm hbegun hprevious
    rcases at_register.mp hm with hm | ⟨rfl, rfl⟩
    · exact isSet_register (hs.turn hm hbegun hprevious)
    · exact absurd hbegun (Nat.lt_irrefl 0)
  entry := by
    intro other i hqueue
    by_cases hkey : other = key
    · subst hkey
      have hi : i = s.mutations.length := by
        simpa [withFileMutationQueue, State.setQueue, eq_comm] using hqueue
      subst hi
      refine ⟨⟨_, at_register.mpr (.inr ⟨rfl, rfl⟩), rfl, by simp⟩, fun {l n} hn _ => ?_⟩
      rcases at_register.mp hn with hn | ⟨rfl, _⟩
      · exact Nat.le_of_lt (at_lt hn)
      · exact Nat.le_refl _
    · have hbefore : s.queues other = some i := by
        simpa [withFileMutationQueue, State.setQueue, hkey] using hqueue
      obtain ⟨⟨m, hm, hmkey, hunfinished⟩, hlast⟩ := hs.entry hbefore
      refine ⟨⟨m, at_register.mpr (.inl hm), hmkey, hunfinished⟩, fun {l n} hn hnkey => ?_⟩
      rcases at_register.mp hn with hn | ⟨_, rfl⟩
      · exact hlast hn hnkey
      · exact absurd hnkey.symm hkey
  free := by
    intro other hqueue l n hn hnkey
    by_cases hkey : other = key
    · exact absurd hqueue (by simp [withFileMutationQueue, State.setQueue, hkey])
    · have hbefore : s.queues other = none := by
        simpa [withFileMutationQueue, State.setQueue, hkey] using hqueue
      rcases at_register.mp hn with hn | ⟨_, rfl⟩
      · exact hs.free hbefore hn hnkey
      · exact absurd hnkey.symm hkey

theorem Sound.step {s t : State κ ω} {action : Action κ ω} (hs : Sound s)
    (h : step s action = some t) : Sound t := by
  rcases step_cases h with ⟨key, _, rfl⟩ | h
  · exact hs.register key
  · cases h with
    | begin hm hphase hturn =>
      exact hs.setPhase hm (by simp [hphase]) hturn fun _ => by simp
    | «end» stored hm hphase =>
      apply hs.setPhase hm (by simp [hphase]) _ fun _ => by simp
      intro j hprevious
      exact hs.turn hm (by simp [hphase]) hprevious
    | clear hm hphase hentry => exact hs.clear hm hphase hentry
    | keep hm hphase hentry =>
      apply hs.setPhase hm (by simp [hphase]) _ fun h => absurd h hentry
      intro j hprevious
      exact hs.turn hm (by simp [hphase]) hprevious
    | @set i m stored hm hphase =>
      have hcleaned : 3 ≤ m.phase.stage := by simp [hphase]
      apply hs.setPhase hm (by simp [hphase])
      · intro j hprevious
        exact hs.turn hm (by omega) hprevious
      · intro hqueue
        obtain ⟨⟨m', hm', _, hunfinished⟩, _⟩ := hs.entry hqueue
        rw [at_unique hm' hm] at hunfinished
        omega
    | cancel hm hcaller => exact hs.setCaller _ _
    | resume hm hcaller hphase => exact hs.setCaller _ _

theorem Moves.stage (h : Moves s action t) {n' : Mutation κ ω} (hn' : t.At j n') : ∃ n, s.At j n ∧
      ((action.reaches = some (j, n'.phase.stage) ∧ n'.phase.stage = n.phase.stage + 1) ∨
        ((∀ k, action.reaches ≠ some (j, k)) ∧ n'.phase.stage = n.phase.stage)) := by
  cases h with
  | begin hm hphase _ => exact setPhase_stage hm (by simp [hphase]) rfl hn'
  | «end» stored hm hphase => exact setPhase_stage hm (by simp [hphase]) rfl hn'
  | clear hm hphase _ => exact setPhase_stage hm (by simp [hphase]) rfl hn'
  | keep hm hphase _ => exact setPhase_stage hm (by simp [hphase]) rfl hn'
  | set hm hphase => exact setPhase_stage hm (by simp [hphase]) rfl hn'
  | cancel | resume =>
    rcases at_setCaller.mp hn' with ⟨rfl, n, hn, rfl⟩ | ⟨_, hn⟩
    · exact ⟨n, hn, .inr ⟨fun _ => nofun, rfl⟩⟩
    · exact ⟨n', hn, .inr ⟨fun _ => nofun, rfl⟩⟩

theorem Moves.length_eq (h : Moves s action t) : t.mutations.length = s.mutations.length := by
  cases h <;> exact length_modify _ _ _

theorem Moves.lt_of_reaches (h : Moves s action t) {k : ℕ}
    (hreaches : action.reaches = some (j, k)) : j < s.mutations.length := by
  cases h with
  | begin hm _ _ | «end» _ hm _ | clear hm _ _ | keep hm _ _ | set hm _ =>
    obtain rfl : _ = j := congrArg Prod.fst (some.inj hreaches)
    exact at_lt hm
  | cancel | resume => cases hreaches

theorem Traced.step {actions : List (Action κ ω)} {s t : State κ ω} {action : Action κ ω}
    (hs : Traced actions s) (h : step s action = some t) : Traced (actions ++ [action]) t := by
  rcases step_cases h with ⟨key, rfl, rfl⟩ | h
  · have hreached : reached (actions ++ [Action.register key]) = reached actions :=
      (reached_append actions _).trans (append_nil _)
    refine ⟨fun {i m} hm k hk => ?_, fun i k hi => ?_⟩
    · rw [hreached]
      rcases at_register.mp hm with hm | ⟨rfl, rfl⟩
      · exact hs.once hm k hk
      · rw [count_eq_zero.mpr (hs.none _ _ (Nat.le_refl _)), if_neg]
        exact Nat.not_le.mpr hk
    · rw [hreached]
      apply hs.none
      have hlength : (withFileMutationQueue s key).mutations.length = s.mutations.length + 1 :=
        length_append
      omega
  · refine ⟨fun {j n'} hn' k hk => ?_, fun i k hi hmem => ?_⟩
    · obtain ⟨n, hn, hcase⟩ := h.stage hn'
      rw [reached_append, count_append, hs.once hn k hk]
      rcases hcase with ⟨hreaches, hstage⟩ | ⟨hother, hstage⟩
      · rw [hreaches, hstage, Option.toList_some, count_singleton]
        by_cases heq : k = n.phase.stage + 1
        · subst heq
          rw [if_pos (beq_self_eq_true _), if_neg (by omega), if_pos (Nat.le_refl _)]
        · rw [if_neg (show ¬ ((j, n.phase.stage + 1) == (j, k)) = true by
            rw [beq_iff_eq, Prod.mk.injEq]
            exact fun h => heq h.2.symm)]
          by_cases hle : k ≤ n.phase.stage
          · rw [if_pos hle, if_pos (by omega)]
          · rw [if_neg hle, if_neg (by omega)]
      · rw [count_eq_zero.mpr, hstage]
        · rfl
        · intro hmem
          exact hother k (mem_toList.mp hmem)
    · rw [reached_append, mem_append] at hmem
      rw [h.length_eq] at hi
      rcases hmem with hmem | hmem
      · exact hs.none i k hi hmem
      · have := h.lt_of_reaches (mem_toList.mp hmem)
        omega

theorem Moves.remaining (h : Moves s action t) :
    remaining t + action.reaches.toList.length = remaining s := by
  cases h with
  | begin hm hphase _ => exact remaining_setPhase hm (by simp [hphase])
  | «end» stored hm hphase => exact remaining_setPhase hm (by simp [hphase])
  | clear hm hphase _ => exact remaining_setPhase hm (by simp [hphase])
  | keep hm hphase _ => exact remaining_setPhase hm (by simp [hphase])
  | set hm hphase => exact remaining_setPhase hm (by simp [hphase])
  | cancel hm _ => exact remaining_setCaller hm _
  | resume hm _ _ => exact remaining_setCaller hm _

theorem remaining_step {actions : List (Action κ ω)}
    (hs : remaining s + (reached actions).length = 4 * s.mutations.length)
    (h : step s action = some t) :
    remaining t + (reached (actions ++ [action])).length = 4 * t.mutations.length := by
  rw [reached_append, length_append]
  rcases step_cases h with ⟨key, rfl, rfl⟩ | h
  · have hlength : (withFileMutationQueue s key).mutations.length = s.mutations.length + 1 :=
      length_append
    have hremaining : remaining (withFileMutationQueue s key) = remaining s + 4 := by
      change ((s.mutations ++ [_]).map _).sum = _
      rw [map_append, sum_append]
      rfl
    rw [hlength, hremaining]
    change remaining s + 4 + ((reached actions).length + 0) = _
    omega
  · have := h.remaining
    rw [h.length_eq]
    omega

theorem Kept.step (actions : List (Action κ ω)) (s : State κ ω) (action : Action κ ω)
    (t : State κ ω) (hs : Kept actions s) (h : step s action = some t) :
    Kept (actions ++ [action]) t :=
  ⟨hs.sound.step h, hs.traced.step h, remaining_step hs.bounded h⟩

end Steps

section Progress

variable {s : State κ ω} {i : ℕ} {m : Mutation κ ω}

theorem Sound.begin (hs : Sound s) (hm : s.At i m) (hwaiting : m.phase = .waiting)
    (hdone : ∀ {j n}, s.At j n → n.key = m.key → j < i → n.phase.stage = 4) :
    (MutationQueue.step s (.beginBody i)).isSome = true := by
  have hturn : m.previous.all s.isSet = true := by
    cases hprevious : m.previous with
    | none => rfl
    | some j =>
      obtain ⟨hj, ⟨p, hp, hkey⟩, _⟩ := hs.earlier hm hprevious
      have hstage := hdone hp hkey hj
      exact (isSet_iff s j).mpr ⟨p, hp, by omega⟩
  change (s.mutations[i]?.bind (beginBody s i)).isSome = true
  rw [show s.mutations[i]? = some m from hm, Option.bind_some, beginBody, hwaiting]
  simp only [hturn, if_true, Option.isSome_some]

theorem Sound.progress (hs : Sound s) (hm : s.At i m) (hpending : m.phase.stage < 4) :
    ∃ j n action, j ≤ i ∧ s.At j n ∧
      n.key = m.key ∧ action.reaches = some (j, n.phase.stage + 1) ∧
      (MutationQueue.step s action).isSome = true := by
  induction i using Nat.strongRecOn generalizing m with
  | ind i ih =>
    have hcall : s.mutations[i]? = some m := hm
    cases hphase : m.phase with
    | waiting =>
      cases hprevious : m.previous with
      | none =>
        refine ⟨i, m, .beginBody i, Nat.le_refl i, hm, rfl, by simp [Action.reaches, hphase], ?_⟩
        simp [MutationQueue.step, hcall, beginBody, hphase, hprevious]
      | some j =>
        obtain ⟨hj, ⟨p, hp, hkey⟩, _⟩ := hs.earlier hm hprevious
        by_cases hset : s.isSet j = true
        · refine ⟨i, m, .beginBody i, Nat.le_refl i, hm, rfl,
            by simp [Action.reaches, hphase], ?_⟩
          simp [MutationQueue.step, hcall, beginBody, hphase, hprevious, hset]
        · have hbehind : p.phase.stage < 4 := by
            by_contra hstage
            exact hset ((isSet_iff s j).mpr ⟨p, hp, by omega⟩)
          obtain ⟨l, n, action, hl, hn, hnkey, hact⟩ := ih j hj hp hbehind
          exact ⟨l, n, action, by omega, hn, hnkey.trans hkey, hact⟩
    | running =>
      refine ⟨i, m, .endBody i none, Nat.le_refl i, hm, rfl, by simp [Action.reaches, hphase], ?_⟩
      simp [MutationQueue.step, hcall, endBody, hphase]
    | ended stored =>
      refine ⟨i, m, .cleanUp i, Nat.le_refl i, hm, rfl, by simp [Action.reaches, hphase], ?_⟩
      simp [MutationQueue.step, hcall, cleanUp, hphase]
    | cleaned stored =>
      refine ⟨i, m, .setDone i, Nat.le_refl i, hm, rfl, by simp [Action.reaches, hphase], ?_⟩
      simp [MutationQueue.step, hcall, setDone, hphase]
    | done stored => simp [hphase] at hpending

end Progress

/-- What the queue promises at the end of a run. -/
structure Guarantees (actions : List (Action κ ω)) (s : State κ ω) : Prop where
  /-- At most one body of a key runs, or has ended without its clean-up. -/
  exclusive : ∀ {i j m n}, s.At i m → s.At j n → m.key = n.key → 0 < m.phase.stage →
    m.phase.stage < 3 → 0 < n.phase.stage → n.phase.stage < 3 → i = j
  /-- A body has begun only after the earlier bodies of its key have ended. -/
  ordered : ∀ {i j m n}, s.At i m → s.At j n → n.key = m.key → j < i → 0 < m.phase.stage →
    3 ≤ n.phase.stage
  once : ∀ {i m}, s.At i m → ∀ k, 0 < k →
    (reached actions).count (i, k) = if k ≤ m.phase.stage then 1 else 0
  /-- Only the earlier calls of its key can keep a body waiting, and only until they are done. -/
  unblocked : ∀ {i m}, s.At i m → m.phase = .waiting →
    (∀ {j n}, s.At j n → n.key = m.key → j < i → n.phase.stage = 4) →
    (step s (.beginBody i)).isSome = true
  /-- The line of a call that is not done moves on by itself. -/
  progress : ∀ {i m}, s.At i m → m.phase.stage < 4 → ∃ j n action, j ≤ i ∧ s.At j n ∧
    n.key = m.key ∧ action.reaches = some (j, n.phase.stage + 1) ∧ (step s action).isSome = true
  /-- The runs make four steps for each call and then nothing is left. -/
  bounded : remaining s + (reached actions).length = 4 * s.mutations.length
  entry : ∀ key, (s.queues key).isSome = true ↔
    ∃ i m, s.At i m ∧ m.key = key ∧ m.phase.stage < 3

theorem guarantees_of_run {actions : List (Action κ ω)} {s : State κ ω}
    (h : Runs.run step (start κ ω) actions = some s) : Guarantees actions s := by
  obtain ⟨hsound, htraced, hbounded⟩ : Kept actions s :=
    Runs.run_induction kept_start Kept.step h
  have hordered : ∀ {i j m n}, s.At i m → s.At j n → n.key = m.key → j < i →
      0 < m.phase.stage → 3 ≤ n.phase.stage := by
    intro i j m n hm hn hkey hj hbegun
    exact hsound.earlier_over hm hbegun hn hkey hj
  refine ⟨?_, hordered, htraced.once, hsound.begin, hsound.progress, hbounded, ?_⟩
  · intro i j m n hm hn hkey hbegunm hopenm hbegunn hopenn
    rcases Nat.lt_trichotomy i j with hij | hij | hij
    · have := hordered hn hm hkey hij hbegunn
      omega
    · exact hij
    · have := hordered hm hn hkey.symm hij hbegunm
      omega
  · intro key
    constructor
    · intro hsome
      obtain ⟨i, hi⟩ := Option.isSome_iff_exists.mp hsome
      obtain ⟨⟨m, hm, hkey, hopen⟩, _⟩ := hsound.entry hi
      exact ⟨i, m, hm, hkey, hopen⟩
    · rintro ⟨i, m, hm, hkey, hopen⟩
      by_contra hnone
      have := hsound.free (Option.not_isSome_iff_eq_none.mp hnone) hm hkey
      omega

/-- Three calls of one key and one of another: the first body is torn down, the caller of the
second gives up, and the third is registered between the clean-up and the event of the first. -/
def tangled : List (Action Bool ℕ) :=
  [.register false, .register false, .register true, .beginBody 0, .beginBody 2,
    .cancelCaller 1, .endBody 0 none, .cleanUp 0, .register false, .setDone 0, .beginBody 1,
    .endBody 1 (some 5), .cleanUp 1, .setDone 1, .beginBody 3]

theorem guarantees_of_run_tangled : ∃ s, Runs.run step (start Bool ℕ) tangled = some s ∧
    Guarantees tangled s := ⟨_, rfl, guarantees_of_run rfl⟩

end Pidrei.MutationQueue
