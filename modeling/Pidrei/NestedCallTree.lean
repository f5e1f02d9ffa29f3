import Mathlib.Data.List.Basic
import Mathlib.Order.Nat
import Pidrei.NestedToolCalls

/-!
The tree that nested calls form, the queue that calls of the tree take, and the events that a
listener hears of each call.
-/
namespace Pidrei.NestedToolCalls

open PythonText
open Option (bind_eq_some_iff ite_none_right_eq_some)

/-! ### Calls in the list -/

/-- What no step takes back from a call. -/
structure Keeps (old new : Call) : Prop where
  parent : new.parent = old.parent
  id : new.id = old.id
  name : new.name = old.name
  number : new.number = old.number
  nextId : old.nextId ≤ new.nextId
  entered : old.stage.entered = true → new.stage.entered = true

theorem Keeps.refl (call : Call) : Keeps call call := ⟨rfl, rfl, rfl, rfl, le_rfl, fun h => h⟩

theorem keeps_stage (call : Call) {stage : Stage}
    (h : call.stage.entered = true → stage.entered = true) :
    Keeps call { call with stage := stage } :=
  ⟨rfl, rfl, rfl, rfl, le_rfl, h⟩

variable {s t : State} {c d : ℕ} {call other : Call}

theorem call?_setCall_self (h : s.call? c = some call) (new : Call) :
    (s.setCall c new).call? c = some new := by
  obtain ⟨hlt, _⟩ := List.getElem?_eq_some_iff.mp h
  exact List.getElem?_set_self hlt

theorem call?_setCall_ne (new : Call) (h : d ≠ c) : (s.setCall c new).call? d = s.call? d :=
  List.getElem?_set_ne h.symm

/-- The calls of the one state are the calls of the other, each further on. -/
structure Extends (s t : State) : Prop where
  old : ∀ d new, t.call? d = some new → ∃ old, s.call? d = some old ∧ Keeps old new
  new : ∀ d old, s.call? d = some old → ∃ new, t.call? d = some new ∧ Keeps old new

theorem extends_setCall (h : s.call? c = some call) {new : Call} (hkeeps : Keeps call new) :
    Extends s (s.setCall c new) where
  old := by
    intro d found hd
    by_cases hdc : d = c
    · subst hdc
      rw [call?_setCall_self h] at hd
      cases hd
      exact ⟨call, h, hkeeps⟩
    · rw [call?_setCall_ne new hdc] at hd
      exact ⟨found, hd, .refl found⟩
  new := by
    intro d found hd
    by_cases hdc : d = c
    · subst hdc
      rw [h] at hd
      cases hd
      exact ⟨new, call?_setCall_self h new, hkeeps⟩
    · exact ⟨found, by rw [call?_setCall_ne new hdc]; exact hd, .refl found⟩

/-! ### The tree -/

structure Tree (s : State) : Prop where
  parent : ∀ c call p, s.call? c = some call → call.parent = some p →
    p < c ∧ ∃ parent, s.call? p = some parent ∧ parent.stage.entered = true ∧
      call.id = parent.id ++ '/' :: str call.number ∧ call.number < parent.nextId
  number : ∀ c d call other p, s.call? c = some call → s.call? d = some other →
    call.parent = some p → other.parent = some p → call.number = other.number → c = d

theorem Tree.extends (h : Tree s) (ht : Extends s t) : Tree t where
  parent := by
    intro c call p hc hp
    obtain ⟨old, hold, hkeeps⟩ := ht.old c call hc
    rw [hkeeps.parent] at hp
    obtain ⟨hlt, parent, hparent, hentered, hid, hnumber⟩ := h.parent c old p hold hp
    obtain ⟨new, hnew, hpkeeps⟩ := ht.new p parent hparent
    refine ⟨hlt, new, hnew, hpkeeps.entered hentered, ?_, ?_⟩
    · rw [hkeeps.id, hpkeeps.id, hkeeps.number]
      exact hid
    · rw [hkeeps.number]
      exact hnumber.trans_le hpkeeps.nextId
  number := by
    intro c d call other p hc hd hp hq hnumber
    obtain ⟨old, hold, hkeeps⟩ := ht.old c call hc
    obtain ⟨another, hanother, hakeeps⟩ := ht.old d other hd
    rw [hkeeps.parent] at hp
    rw [hakeeps.parent] at hq
    rw [hkeeps.number, hakeeps.number] at hnumber
    exact h.number c d old another p hold hanother hp hq hnumber

/-- One more call at the end of the list. -/
def State.add (s : State) (call : Call) : State := { s with calls := s.calls ++ [call] }

theorem call?_add (s : State) (call : Call) (d : ℕ) :
    (s.add call).call? d = if d = s.calls.length then some call else s.call? d := by
  unfold State.add State.call?
  split
  · next h =>
    rw [h]
    exact List.getElem?_concat_length
  · next h =>
    obtain hlt | hgt := Nat.lt_or_gt_of_ne h
    · exact List.getElem?_append_left hlt
    · rw [List.getElem?_eq_none, List.getElem?_eq_none hgt.le]
      rw [List.length_append]
      exact hgt

theorem call?_lt (h : s.call? c = some call) : c < s.calls.length :=
  (List.getElem?_eq_some_iff.mp h).1

theorem Tree.add (h : Tree s) {new : Call}
    (hparent : ∀ p, new.parent = some p → ∃ parent, s.call? p = some parent ∧
      parent.stage.entered = true ∧ new.id = parent.id ++ '/' :: str new.number ∧
      new.number < parent.nextId)
    (hnumber : ∀ d other p, s.call? d = some other → new.parent = some p →
      other.parent = some p → new.number ≠ other.number) : Tree (s.add new) := by
  have hkept : ∀ p parent, s.call? p = some parent → (s.add new).call? p = some parent := by
    intro p parent hp
    rw [call?_add, if_neg (call?_lt hp).ne]
    exact hp
  constructor
  · intro c call p hc hp
    rw [call?_add] at hc
    split at hc
    · next hlast =>
      cases hc
      obtain ⟨parent, hfound, hrest⟩ := hparent p hp
      exact ⟨by rw [hlast]; exact call?_lt hfound, parent, hkept p parent hfound, hrest⟩
    · obtain ⟨hlt, parent, hfound, hrest⟩ := h.parent c call p hc hp
      exact ⟨hlt, parent, hkept p parent hfound, hrest⟩
  · intro c d call other p hc hd hp hq heq
    rw [call?_add] at hc hd
    split at hc
    · next hlast =>
      cases hc
      split at hd
      · next hdlast => rw [hlast, hdlast]
      · exact absurd heq (hnumber d other p hd hp hq)
    · split at hd
      · cases hd
        exact absurd heq.symm (hnumber c call p hc hq hp)
      · exact h.number c d call other p hc hd hp hq heq

def Parent (s : State) (c p : ℕ) : Prop := ∃ call, s.call? c = some call ∧ call.parent = some p

/-- The call was made by the other's tool, or by the tool of a call made below it. -/
def Below (s : State) : ℕ → ℕ → Prop := Relation.TransGen (Parent s)

theorem Tree.lt_of_below (h : Tree s) {c a : ℕ} (hbelow : Below s c a) : a < c := by
  induction hbelow with
  | single hparent =>
    obtain ⟨call, hcall, hp⟩ := hparent
    exact (h.parent _ call _ hcall hp).1
  | tail _ hparent ih =>
    obtain ⟨call, hcall, hp⟩ := hparent
    exact (h.parent _ call _ hcall hp).1.trans ih

theorem stepExecute_eq (s : State) (p : ℕ) (parent : Call) (name : String) :
    stepExecute s p parent name = (s.setCall p { parent with nextId := parent.nextId + 1 }).add
      { parent := some p, id := nextCallId parent, name, number := parent.nextId,
        stage := .numbered } := rfl

theorem Tree.execute (h : Tree s) {p : ℕ} {parent : Call} (hp : s.call? p = some parent)
    (hentered : parent.stage.entered = true) (name : String) :
    Tree (stepExecute s p parent name) := by
  have hkeeps : Keeps parent { parent with nextId := parent.nextId + 1 } :=
    ⟨rfl, rfl, rfl, rfl, Nat.le_succ _, fun h => h⟩
  have hextends := extends_setCall hp hkeeps
  rw [stepExecute_eq]
  apply (h.extends hextends).add
  · intro q hq
    cases hq
    exact ⟨_, call?_setCall_self hp _, hentered, rfl, Nat.lt_succ_self _⟩
  · intro d other q hd hq hother heq
    cases hq
    obtain ⟨old, hold, hokeeps⟩ := hextends.old d other hd
    rw [hokeeps.parent] at hother
    obtain ⟨_, found, hfound, _, _, hlt⟩ := h.parent d old p hold hother
    rw [hp] at hfound
    cases hfound
    rw [← hokeeps.number, ← heq] at hlt
    exact absurd hlt (lt_irrefl _)

/-! ### Steps -/

theorem step_cases {action : Action} (h : step s action = some t) :
    (∃ id name, action = .issue id name ∧
      t = s.add { parent := none, id, name, stage := .inside }) ∨
    (∃ p parent name, action = .execute p name ∧ s.call? p = some parent ∧
      parent.stage.entered = true ∧ t = stepExecute s p parent name) ∨
    ∃ c call new, s.call? c = some call ∧ Keeps call new ∧ t.calls = (s.setCall c new).calls := by
  have hrelease : ∀ (u : State) c, (u.release c).calls = u.calls := by
    intro u c
    unfold State.release
    split <;> rfl
  cases action with
  | issue id name =>
    cases h
    exact .inl ⟨id, name, rfl, rfl⟩
  | execute p name =>
    obtain ⟨parent, hp, hstep⟩ := bind_eq_some_iff.mp h
    obtain ⟨hentered, ht⟩ := ite_none_right_eq_some.mp hstep
    exact .inr (.inl ⟨p, parent, name, rfl, hp, hentered, (Option.some.inj ht).symm⟩)
  | decide c isSequential tools =>
    obtain ⟨call, hc, hstep⟩ := bind_eq_some_iff.mp h
    obtain ⟨parent, _, hguard⟩ := bind_eq_some_iff.mp hstep
    obtain ⟨hstage, ht⟩ := ite_none_right_eq_some.mp hguard
    cases ht
    refine .inr (.inr ⟨c, call, call.decide parent.holdsQueue (runsAlone isSequential tools call.name),
      hc, ⟨rfl, rfl, rfl, rfl, le_rfl, fun hentered => ?_⟩, rfl⟩)
    rw [hstage] at hentered
    cases hentered
  | announce c | acquire c | conclude c =>
    obtain ⟨call, hc, hstep⟩ := bind_eq_some_iff.mp h
    obtain ⟨hstage, ht⟩ := ite_none_right_eq_some.mp hstep
    cases ht
    exact .inr (.inr ⟨c, call, _, hc, keeps_stage call (by simp_all [Stage.entered]), rfl⟩)
  | finish c =>
    obtain ⟨call, hc, hstep⟩ := bind_eq_some_iff.mp h
    obtain ⟨_, ht⟩ := ite_none_right_eq_some.mp hstep
    cases ht
    refine .inr (.inr ⟨c, call, _, hc, keeps_stage call fun _ => ?_, hrelease _ _⟩)
    split <;> rfl
  | leave c =>
    obtain ⟨call, hc, hstep⟩ := bind_eq_some_iff.mp h
    obtain ⟨_, ht⟩ := ite_none_right_eq_some.mp hstep
    cases ht
    have hkeeps : Keeps call { call with stage := .left call.stage.entered } :=
      keeps_stage call fun hentered => hentered
    exact .inr (.inr ⟨c, call, _, hc, hkeeps, hrelease _ _⟩)

theorem Tree.step (h : Tree s) {action : Action} (hstep : step s action = some t) : Tree t := by
  obtain ⟨id, name, _, rfl⟩ | ⟨p, parent, name, _, hp, hentered, rfl⟩ |
    ⟨c, call, new, hc, hkeeps, hcalls⟩ := step_cases hstep
  · apply h.add
    · intro p hp
      cases hp
    · intro d other p _ hp
      cases hp
  · exact h.execute hp hentered name
  · have hset := h.extends (extends_setCall hc hkeeps)
    have hcall : t.call? = (s.setCall c new).call? := by
      unfold State.call?
      rw [hcalls]
    exact ⟨by rw [hcall]; exact hset.parent, by rw [hcall]; exact hset.number⟩

theorem tree_start : Tree start := by
  constructor
  · intro c call p hc
    cases hc
  · intro c d call other p hc
    cases hc

/-! ### Ids -/

theorem slash_not_mem_str (n : ℕ) : '/' ∉ str n := by
  intro h
  have hdigit := isDigit_of_mem_str h
  revert hdigit
  decide

theorem append_slash_inj {a b : List Char} {m n : ℕ} (h : a ++ '/' :: str m = b ++ '/' :: str n) :
    a = b ∧ m = n := by
  have hempty : ∀ {between : List Char} {m n : ℕ}, '/' :: str m = between ++ '/' :: str n →
      between = [] := by
    intro between m n hbetween
    cases between with
    | nil => rfl
    | cons c rest =>
      have hrest : str m = rest ++ '/' :: str n := (List.cons.inj hbetween).2
      apply absurd _ (slash_not_mem_str m)
      rw [hrest]
      exact List.mem_append_right _ List.mem_cons_self
  have hstr : ∀ {m n : ℕ}, '/' :: str m = '/' :: str n → m = n := by
    intro m n heq
    rw [← int_str m, (List.cons.inj heq).2, int_str]
  obtain ⟨between, rfl, hbetween⟩ | ⟨between, rfl, hbetween⟩ := List.append_eq_append_iff.mp h
  · obtain rfl := hempty hbetween
    exact ⟨(List.append_nil a).symm, hstr hbetween⟩
  · obtain rfl := hempty hbetween
    exact ⟨List.append_nil b, (hstr hbetween).symm⟩

/-- The id of a call made below another, by the numbers on the way. -/
def nestedId (id : List Char) (numbers : List ℕ) : List Char :=
  numbers.foldl (fun id n => id ++ '/' :: str n) id

/-- The ids that the model issued differ, and none is a nested id of another. -/
def Separate (s : State) : Prop :=
  ∀ c d call other, s.call? c = some call → s.call? d = some other → call.parent = none →
    other.parent = none → c ≠ d → ∀ numbers, other.id ≠ nestedId call.id numbers

theorem Tree.exists_root (h : Tree s) (hc : s.call? c = some call) :
    ∃ r root numbers, s.call? r = some root ∧ root.parent = none ∧
      call.id = nestedId root.id numbers ∧ (call.parent.isSome = true → numbers ≠ []) := by
  induction c using Nat.strong_induction_on generalizing call with
  | h c ih =>
    cases hparent : call.parent with
    | none => exact ⟨c, call, [], hc, hparent, rfl, nofun⟩
    | some p =>
      obtain ⟨hlt, parent, hp, _, hid, _⟩ := h.parent c call p hc hparent
      obtain ⟨r, root, numbers, hr, hroot, hnumbers, _⟩ := ih p hlt hp
      refine ⟨r, root, numbers ++ [call.number], hr, hroot, ?_, fun _ => by simp⟩
      rw [hid, hnumbers, nestedId, nestedId, List.foldl_append]
      rfl

theorem length_lt_nestedId (id : List Char) {numbers : List ℕ} (h : numbers ≠ []) :
    id.length < (nestedId id numbers).length := by
  obtain ⟨before, last, rfl⟩ := List.eq_nil_or_concat' numbers |>.resolve_left h
  have hle : ∀ (numbers : List ℕ) (id : List Char), id.length ≤ (nestedId id numbers).length := by
    intro numbers
    induction numbers with
    | nil => exact fun _ => le_rfl
    | cons n rest ih =>
      intro id
      apply le_trans _ (ih _)
      rw [List.length_append]
      omega
  have := hle before id
  rw [nestedId, List.foldl_append]
  change _ < (nestedId id before ++ '/' :: str last).length
  rw [List.length_append, List.length_cons]
  omega

theorem Tree.id_ne_root (h : Tree s) (hs : Separate s) (hc : s.call? c = some call)
    (hd : s.call? d = some other) (hnested : call.parent.isSome = true)
    (hroot : other.parent = none) : call.id ≠ other.id := by
  obtain ⟨r, root, numbers, hr, hrroot, hid, hnumbers⟩ := h.exists_root hc
  intro heq
  by_cases hrd : r = d
  · subst hrd
    rw [hr] at hd
    cases hd
    have hlt := length_lt_nestedId other.id (hnumbers hnested)
    rw [← hid, heq] at hlt
    exact lt_irrefl _ hlt
  · apply hs r d root other hr hd hrroot hroot hrd numbers
    rw [← heq]
    exact hid

theorem Tree.id_injective (h : Tree s) (hs : Separate s) (hc : s.call? c = some call)
    (hd : s.call? d = some other) (hid : call.id = other.id) : c = d := by
  induction c using Nat.strong_induction_on generalizing d call other with
  | h c ih =>
    cases hcparent : call.parent with
    | none =>
      cases hdparent : other.parent with
      | none =>
        by_contra hne
        exact hs c d call other hc hd hcparent hdparent hne [] hid.symm
      | some q =>
        have hnested : other.parent.isSome = true := by rw [hdparent]; rfl
        exact absurd hid.symm (h.id_ne_root hs hd hc hnested hcparent)
    | some p =>
      cases hdparent : other.parent with
      | none =>
        have hnested : call.parent.isSome = true := by rw [hcparent]; rfl
        exact absurd hid (h.id_ne_root hs hc hd hnested hdparent)
      | some q =>
        obtain ⟨hlt, parent, hp, _, hcid, _⟩ := h.parent c call p hc hcparent
        obtain ⟨_, another, hq, _, hdid, _⟩ := h.parent d other q hd hdparent
        rw [hcid, hdid] at hid
        obtain ⟨hparents, hnumber⟩ := append_slash_inj hid
        obtain rfl := ih p hlt hp hq hparents
        exact h.number c d call other p hc hd hcparent hdparent hnumber

end Pidrei.NestedToolCalls
