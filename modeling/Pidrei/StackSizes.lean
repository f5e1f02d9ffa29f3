import Mathlib.Algebra.GroupWithZero.Nat
import Mathlib.Data.Int.Notation
import Mathlib.Data.List.Forall2

/-!
The sizes of the children of a stack: each starts at its basis, and what is left over or
missing is handed out in rounds, by weight.
-/
namespace Pidrei.Layout

open List

/-- The options of a child that its size depends on; no basis is `"auto"`. -/
structure StackEntry where
  basis : Option ℤ := none
  grow : Option ℕ := none
  shrink : Option ℕ := none
  minSize : Option ℕ := none
  maxSize : Option ℕ := none

namespace StackEntry

def maxSafe : ℕ := 2 ^ 53 - 1

def growWeight (e : StackEntry) : ℕ := e.grow.getD 0

def shrinkWeight (e : StackEntry) : ℕ := e.shrink.getD 1

def minimum (e : StackEntry) : ℕ := e.minSize.getD 0

def maximum (e : StackEntry) : ℕ := e.maxSize.getD maxSafe

def clampSize (size : ℤ) (e : StackEntry) : ℕ :=
  max e.minimum (min (max e.minimum e.maximum) size.toNat)

end StackEntry

inductive Mode
  | grow
  | shrink

/-- A child with its size. -/
abbrev Slot := StackEntry × ℕ

def total (slots : List Slot) : ℕ := (slots.map Prod.snd).sum

namespace Mode

def isCandidate : Mode → Slot → Bool
  | .grow, (e, size) => 0 < e.growWeight && size < e.maximum
  | .shrink, (e, size) => 0 < e.shrinkWeight && e.minimum < size

def weightOf : Mode → Slot → ℕ
  | .grow, (e, _) => e.growWeight
  | .shrink, (e, size) => e.shrinkWeight * max 1 size

def capacity : Mode → Slot → ℕ
  | .grow, (e, size) => e.maximum - size
  | .shrink, (e, size) => size - e.minimum

def resize : Mode → Slot → ℕ → Slot
  | .grow, (e, size), delta => (e, size + delta)
  | .shrink, (e, size), delta => (e, size - delta)

end Mode

section Distribution

-- `share remaining weight totalWeight` is the floor of the quotient that Python computes in
-- floating point
variable (share : ℕ → ℕ → ℕ → ℕ) (mode : Mode)

/-- What a child gets of what remains; nothing when nothing remains. -/
def deltaOf (totalWeight remaining : ℕ) (slot : Slot) : ℕ :=
  if mode.isCandidate slot then
    min remaining (min (max 1 (share remaining (mode.weightOf slot) totalWeight))
      (mode.capacity slot))
  else 0

/-- One round over the children, with what still remains behind it. -/
def handOut (totalWeight : ℕ) : ℕ → List Slot → List Slot × ℕ
  | remaining, [] => ([], remaining)
  | remaining, slot :: slots =>
    let delta := deltaOf share mode totalWeight remaining slot
    let (resized, left) := handOut totalWeight (remaining - delta) slots
    (mode.resize slot delta :: resized, left)

theorem handOut_le (totalWeight remaining : ℕ) (slots : List Slot) :
    (handOut share mode totalWeight remaining slots).2 ≤ remaining := by
  induction slots generalizing remaining with
  | nil => exact Nat.le_refl _
  | cons slot slots ih => exact Nat.le_trans (ih _) (Nat.sub_le _ _)

def totalWeight (slots : List Slot) : ℕ := ((slots.filter mode.isCandidate).map mode.weightOf).sum

/-- Rounds until nothing remains, no child can be resized, or a round hands nothing out. -/
def distribute (slots : List Slot) (remaining : ℕ) : List Slot :=
  if remaining = 0 ∨ slots.any mode.isCandidate = false then slots
  else if (handOut share mode (totalWeight mode slots) remaining slots).2 = remaining then
    (handOut share mode (totalWeight mode slots) remaining slots).1
  else
    distribute (handOut share mode (totalWeight mode slots) remaining slots).1
      (handOut share mode (totalWeight mode slots) remaining slots).2
termination_by remaining
decreasing_by
  have hle := handOut_le share mode (totalWeight mode slots) remaining slots
  omega

/-- The sizes that the children start with. -/
def basisSizes : List StackEntry → List ℤ → List Slot
  | [], _ => []
  | e :: entries, intrinsicSizes =>
    (e, e.clampSize (e.basis.getD (intrinsicSizes.headD 0))) ::
      basisSizes entries intrinsicSizes.tail

def contentSize (entries : List StackEntry) (availableSize gap : ℤ) : ℕ :=
  (availableSize - max 0 ((entries.length : ℤ) - 1) * gap).toNat

/-- The children with the sizes that `allocate_stack_sizes` returns. -/
def allocateStackSizes (entries : List StackEntry) (intrinsicSizes : List ℤ)
    (availableSize : Option ℤ) (gap : ℤ) : List Slot :=
  let slots := basisSizes entries intrinsicSizes
  match availableSize with
  | none => slots
  | some availableSize =>
    let content := contentSize entries availableSize gap
    if total slots < content then distribute share .grow slots (content - total slots)
    else if content < total slots then distribute share .shrink slots (total slots - content)
    else slots

end Distribution

/-- A size goes one way, and not beyond its bound. -/
def Moves : Mode → Slot → Slot → Prop
  | .grow, before, after =>
    after.1 = before.1 ∧ before.2 ≤ after.2 ∧ after.2 ≤ max before.2 before.1.maximum
  | .shrink, before, after =>
    after.1 = before.1 ∧ after.2 ≤ before.2 ∧ min before.2 before.1.minimum ≤ after.2

/-- The total changes by what has been handed out. -/
def Balanced : Mode → (before after remaining left : ℕ) → Prop
  | .grow, before, after, remaining, left => after + left = before + remaining
  | .shrink, before, after, remaining, left => after + remaining = before + left

variable {share : ℕ → ℕ → ℕ → ℕ} {mode : Mode} {slots next : List Slot} {slot : Slot}

theorem Moves.refl (slot : Slot) : Moves mode slot slot := by
  cases mode <;> exact ⟨rfl, by omega, by omega⟩

theorem Moves.trans {a b c : Slot} (hab : Moves mode a b) (hbc : Moves mode b c) :
    Moves mode a c := by
  obtain ⟨e, size⟩ := a
  cases mode <;> simp only [Moves] at * <;> rw [hab.1] at hbc <;> exact ⟨hbc.1, by omega, by omega⟩

theorem deltaOf_le (totalWeight remaining : ℕ) (slot : Slot) :
    deltaOf share mode totalWeight remaining slot ≤ min remaining (mode.capacity slot) := by
  unfold deltaOf
  split <;> omega

theorem deltaOf_pos (totalWeight : ℕ) {remaining : ℕ} (hslot : mode.isCandidate slot = true)
    (hremaining : remaining ≠ 0) : 0 < deltaOf share mode totalWeight remaining slot := by
  have hcapacity : 0 < mode.capacity slot := by
    cases mode <;> simp [Mode.isCandidate] at hslot <;> simp only [Mode.capacity] <;> omega
  rw [deltaOf, if_pos hslot]
  omega

theorem moves_resize {delta : ℕ} (h : delta ≤ mode.capacity slot) :
    Moves mode slot (mode.resize slot delta) := by
  cases mode <;> simp only [Mode.capacity] at h <;>
    exact ⟨rfl, by simp only [Mode.resize]; omega, by simp only [Mode.resize]; omega⟩

theorem handOut_spec (totalWeight remaining : ℕ) (slots : List Slot) :
    Forall₂ (Moves mode) slots (handOut share mode totalWeight remaining slots).1 ∧
      Balanced mode (total slots) (total (handOut share mode totalWeight remaining slots).1)
        remaining (handOut share mode totalWeight remaining slots).2 := by
  induction slots generalizing remaining with
  | nil => exact ⟨.nil, by cases mode <;> rfl⟩
  | cons slot slots ih =>
    have hdelta := @deltaOf_le share mode totalWeight remaining slot
    rw [handOut]
    generalize deltaOf share mode totalWeight remaining slot = delta at hdelta ⊢
    obtain ⟨hmoves, hbalanced⟩ := ih (remaining - delta)
    have hcapacity : delta ≤ mode.capacity slot := by omega
    refine ⟨.cons (moves_resize hcapacity) hmoves, ?_⟩
    cases mode <;> simp only [Balanced, Mode.capacity, Mode.resize, total, map_cons, sum_cons] at * <;>
      omega

theorem forall₂_trans {a b c : List Slot} (hab : Forall₂ (Moves mode) a b)
    (hbc : Forall₂ (Moves mode) b c) : Forall₂ (Moves mode) a c := by
  induction hab generalizing c with
  | nil => exact hbc
  | cons hslot _ ih =>
    cases hbc with
    | cons hnext hrest => exact .cons (hslot.trans hnext) (ih hrest)

theorem Balanced.trans {a b c remaining left rest : ℕ} (hab : Balanced mode a b remaining left)
    (hbc : Balanced mode b c left rest) : Balanced mode a c remaining rest := by
  cases mode <;> simp only [Balanced] at * <;> omega

theorem handOut_lt (totalWeight : ℕ) {remaining : ℕ} (hremaining : remaining ≠ 0)
    (hslots : ∃ slot ∈ slots, mode.isCandidate slot = true) :
    (handOut share mode totalWeight remaining slots).2 < remaining := by
  induction slots generalizing remaining with
  | nil => simp at hslots
  | cons slot slots ih =>
    have hle := handOut_le share mode totalWeight
      (remaining - deltaOf share mode totalWeight remaining slot) slots
    rw [handOut]
    by_cases hslot : mode.isCandidate slot = true
    · have hpos := @deltaOf_pos share mode slot totalWeight remaining hslot hremaining
      simp only
      omega
    · rw [deltaOf, if_neg hslot]
      exact ih hremaining (by simpa [hslot] using hslots)

/-- The rounds end when nothing remains or no child can be resized. -/
theorem distribute_spec (slots : List Slot) (remaining : ℕ) :
    ∃ left, Forall₂ (Moves mode) slots (distribute share mode slots remaining) ∧
      Balanced mode (total slots) (total (distribute share mode slots remaining)) remaining left ∧
      (left = 0 ∨ ∀ slot ∈ distribute share mode slots remaining,
        mode.isCandidate slot = false) := by
  fun_induction distribute share mode slots remaining with
  | case1 slots remaining hdone =>
    refine ⟨remaining, forall₂_same.mpr fun slot _ => .refl slot, by cases mode <;> rfl, ?_⟩
    rcases hdone with hzero | hnone
    · exact .inl hzero
    · exact .inr (by simpa using hnone)
  | case2 slots remaining hgoes hsame =>
    rw [not_or, Bool.not_eq_false, any_eq_true] at hgoes
    exact absurd hsame (Nat.ne_of_lt (handOut_lt _ hgoes.1 hgoes.2))
  | case3 slots remaining hgoes hless ih =>
    obtain ⟨hround, hbalanced⟩ :=
      @handOut_spec share mode (totalWeight mode slots) remaining slots
    obtain ⟨left, hmoves, hrest, hend⟩ := ih
    exact ⟨left, forall₂_trans hround hmoves, hbalanced.trans hrest, hend⟩

/-- Every child keeps to its bounds, the total is met unless no child can be resized any more,
and all sizes go the same way. -/
structure Allocates (entries : List StackEntry) (intrinsicSizes : List ℤ)
    (availableSize : Option ℤ) (gap : ℤ) (slots : List Slot) : Prop where
  children : slots.map Prod.fst = entries
  bounded : ∀ slot ∈ slots, slot.1.minimum ≤ slot.2 ∧ slot.2 ≤ slot.1.maximum
  filled : ∀ size, availableSize = some size →
    total slots = contentSize entries size gap ∨
    (total slots < contentSize entries size gap ∧
      ∀ slot ∈ slots, 0 < slot.1.growWeight → slot.2 = slot.1.maximum) ∨
    (contentSize entries size gap < total slots ∧
      ∀ slot ∈ slots, 0 < slot.1.shrinkWeight → slot.2 = slot.1.minimum)
  oneWay : ∃ mode, Forall₂ (Moves mode) (basisSizes entries intrinsicSizes) slots

theorem basisSizes_entries (entries : List StackEntry) (intrinsicSizes : List ℤ) :
    (basisSizes entries intrinsicSizes).map Prod.fst = entries := by
  induction entries generalizing intrinsicSizes with
  | nil => rfl
  | cons e entries ih => rw [basisSizes, map_cons, ih]

theorem basisSizes_bounded (entries : List StackEntry) (intrinsicSizes : List ℤ)
    (h : ∀ e ∈ entries, e.minimum ≤ e.maximum) :
    ∀ slot ∈ basisSizes entries intrinsicSizes,
      slot.1.minimum ≤ slot.2 ∧ slot.2 ≤ slot.1.maximum := by
  induction entries generalizing intrinsicSizes with
  | nil => exact nofun
  | cons e entries ih =>
    obtain ⟨he, hentries⟩ := forall_mem_cons.mp h
    refine forall_mem_cons.mpr ⟨?_, ih _ hentries⟩
    simp only [StackEntry.clampSize]
    omega

theorem moves_entries {slots next : List Slot} (h : Forall₂ (Moves mode) slots next) :
    next.map Prod.fst = slots.map Prod.fst := by
  induction h with
  | nil => rfl
  | cons hslot _ ih =>
    cases mode <;> rw [map_cons, map_cons, ih, hslot.1]

theorem moves_bounded {slots next : List Slot} (h : Forall₂ (Moves mode) slots next)
    (hslots : ∀ slot ∈ slots, slot.1.minimum ≤ slot.2 ∧ slot.2 ≤ slot.1.maximum) :
    ∀ slot ∈ next, slot.1.minimum ≤ slot.2 ∧ slot.2 ≤ slot.1.maximum := by
  induction h with
  | nil => exact nofun
  | cons hslot _ ih =>
    obtain ⟨hfirst, hslots⟩ := forall_mem_cons.mp hslots
    refine forall_mem_cons.mpr ⟨?_, ih hslots⟩
    cases mode <;> simp only [Moves] at hslot <;> rw [hslot.1] <;> omega

theorem allocateStackSizes_spec (share : ℕ → ℕ → ℕ → ℕ) (entries : List StackEntry)
    (intrinsicSizes : List ℤ) (availableSize : Option ℤ) (gap : ℤ)
    (h : ∀ e ∈ entries, e.minimum ≤ e.maximum) :
    Allocates entries intrinsicSizes availableSize gap
      (allocateStackSizes share entries intrinsicSizes availableSize gap) := by
  have hentries := basisSizes_entries entries intrinsicSizes
  have hbounded := basisSizes_bounded entries intrinsicSizes h
  have hmoved : ∀ mode remaining,
      (∀ size, availableSize = some size → Balanced mode
        (total (basisSizes entries intrinsicSizes)) (contentSize entries size gap) remaining 0) →
      Allocates entries intrinsicSizes availableSize gap
        (distribute share mode (basisSizes entries intrinsicSizes) remaining) := by
    intro mode remaining hsize
    obtain ⟨left, hmoves, hbalanced, hend⟩ :=
      @distribute_spec share mode (basisSizes entries intrinsicSizes) remaining
    have hin := moves_bounded hmoves hbounded
    refine ⟨(moves_entries hmoves).trans hentries, hin, fun size hsome => ?_, ⟨mode, hmoves⟩⟩
    have hcontent := hsize size hsome
    rcases Nat.eq_zero_or_pos left with rfl | hleft
    · left
      cases mode <;> simp only [Balanced] at * <;> omega
    · right
      have hstuck := hend.resolve_left (by omega)
      cases mode with
      | grow =>
        refine .inl ⟨by simp only [Balanced] at *; omega, fun slot hslot hgrow => ?_⟩
        have hfull := hstuck slot hslot
        simp only [Mode.isCandidate, hgrow, decide_true, Bool.true_and] at hfull
        have := hin slot hslot
        simp at hfull
        omega
      | shrink =>
        refine .inr ⟨by simp only [Balanced] at *; omega, fun slot hslot hshrink => ?_⟩
        have hfull := hstuck slot hslot
        simp only [Mode.isCandidate, hshrink, decide_true, Bool.true_and] at hfull
        have := hin slot hslot
        simp at hfull
        omega
  have hsame : (∀ size, availableSize = some size →
      total (basisSizes entries intrinsicSizes) = contentSize entries size gap) →
      Allocates entries intrinsicSizes availableSize gap (basisSizes entries intrinsicSizes) :=
    fun hsize => ⟨hentries, hbounded, fun size hsome => .inl (hsize size hsome),
      ⟨.grow, forall₂_same.mpr fun slot _ => Moves.refl slot⟩⟩
  cases availableSize with
  | none => exact hsame nofun
  | some availableSize =>
    simp only [allocateStackSizes]
    split_ifs with hless hmore
    · refine hmoved .grow _ fun size hsome => ?_
      cases hsome
      simp only [Balanced]
      omega
    · refine hmoved .shrink _ fun size hsome => ?_
      cases hsome
      simp only [Balanced]
      omega
    · refine hsame fun size hsome => ?_
      cases hsome
      omega

/-- Seven columns and a gap for children of one column, of which the first may grow to three. -/
theorem allocateStackSizes_spec_capped :
    (∀ e ∈ [{ basis := some 1, grow := some 1, maxSize := some 3 }, { basis := some 1 }],
      StackEntry.minimum e ≤ e.maximum) ∧
    Allocates [{ basis := some 1, grow := some 1, maxSize := some 3 }, { basis := some 1 }] []
      (some 7) 1 (allocateStackSizes (fun remaining weight total => remaining * weight / total)
        [{ basis := some 1, grow := some 1, maxSize := some 3 }, { basis := some 1 }] []
        (some 7) 1) :=
  ⟨by decide, allocateStackSizes_spec _ _ _ _ _ (by decide)⟩

end Pidrei.Layout
