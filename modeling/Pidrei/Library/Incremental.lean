import Mathlib.Data.List.Basic

/-!
Incremental readers. A step takes one item off the front of a buffer, or asks for
more input. When more input after the buffer cannot change what the step has
read, a buffer that is drained after each chunk gives the items of the whole
input. Some readers are stable at most boundaries only: `safe` names these.
-/
namespace Incremental

variable {α β : Type*}

def drainFuel (step : List α → Option (β × List α)) : ℕ → List α → List β × List α
  | 0, buffer => ([], buffer)
  | fuel + 1, buffer =>
    match step buffer with
    | none => ([], buffer)
    | some (item, rest) =>
      let (items, tail) := drainFuel step fuel rest
      (item :: items, tail)

/-- Take items off the buffer until the step asks for more. -/
def drain (step : List α → Option (β × List α)) (buffer : List α) : List β × List α :=
  drainFuel step buffer.length buffer

structure Lawful (step : List α → Option (β × List α)) (safe : List α → List α → Prop) :
    Prop where
  shrinks : ∀ {buffer item rest}, step buffer = some (item, rest) → rest.length < buffer.length
  stable : ∀ {buffer item rest more}, step buffer = some (item, rest) → safe buffer more →
    step (buffer ++ more) = some (item, rest ++ more)
  safe_rest : ∀ {buffer item rest more}, step buffer = some (item, rest) → safe buffer more →
    safe rest more

variable {step : List α → Option (β × List α)} {safe : List α → List α → Prop} {buffer : List α}

theorem drainFuel_succ {fuel : ℕ} {item : β} {rest : List α} (h : step buffer = some (item, rest)) :
    drainFuel step (fuel + 1) buffer =
      (item :: (drainFuel step fuel rest).1, (drainFuel step fuel rest).2) := by
  simp only [drainFuel, h]

theorem drain_none (h : step buffer = none) : drain step buffer = ([], buffer) := by
  unfold drain
  cases buffer.length with
  | zero => rfl
  | succ fuel => simp only [drainFuel, h]

namespace Lawful

variable {buffer : List α}

/-- Fuel for every element of the buffer is enough. -/
theorem drainFuel_eq (law : Lawful step safe) {fuel : ℕ} (h : buffer.length ≤ fuel) :
    drainFuel step fuel buffer = drain step buffer := by
  induction fuel using Nat.strongRecOn generalizing buffer with
  | _ fuel ih =>
    cases hstep : step buffer with
    | none =>
      rw [drain_none hstep]
      cases fuel with
      | zero => rfl
      | succ fuel => simp only [drainFuel, hstep]
    | some pair =>
      obtain ⟨item, rest⟩ := pair
      have hlt := law.shrinks hstep
      obtain ⟨fuel, rfl⟩ : ∃ k, fuel = k + 1 := ⟨fuel - 1, by omega⟩
      obtain ⟨size, hsize⟩ : ∃ k, buffer.length = k + 1 := ⟨buffer.length - 1, by omega⟩
      have hleft : drainFuel step fuel rest = drain step rest := ih fuel (by omega) (by omega)
      have hright : drainFuel step size rest = drain step rest := by
        rcases Nat.lt_or_ge size (fuel + 1) with hs | hs
        · exact ih size hs (by omega)
        · omega
      unfold drain
      rw [hsize, drainFuel_succ hstep, drainFuel_succ hstep, hleft, hright]

theorem drain_some (law : Lawful step safe) {item : β} {rest : List α}
    (h : step buffer = some (item, rest)) :
    drain step buffer = (item :: (drain step rest).1, (drain step rest).2) := by
  have hlt := law.shrinks h
  obtain ⟨size, hsize⟩ : ∃ k, buffer.length = k + 1 := ⟨buffer.length - 1, by omega⟩
  have hfuel : drainFuel step size rest = drain step rest := law.drainFuel_eq (by omega)
  rw [← hfuel, ← drainFuel_succ h, ← hsize]
  rfl

theorem induction (law : Lawful step safe) {motive : List α → Prop}
    (hnone : ∀ buffer, step buffer = none → motive buffer)
    (hsome : ∀ buffer item rest, step buffer = some (item, rest) → motive rest → motive buffer)
    (buffer : List α) : motive buffer := by
  induction hn : buffer.length using Nat.strongRecOn generalizing buffer with
  | _ n ih =>
    cases hstep : step buffer with
    | none => exact hnone buffer hstep
    | some pair =>
      obtain ⟨item, rest⟩ := pair
      have hlt := law.shrinks hstep
      exact hsome buffer item rest hstep (ih rest.length (by omega) rest rfl)

theorem step_tail (law : Lawful step safe) (buffer : List α) :
    step (drain step buffer).2 = none := by
  induction buffer using law.induction with
  | hnone buffer hstep =>
    rw [drain_none hstep]
    exact hstep
  | hsome buffer item rest hstep ih =>
    rw [law.drain_some hstep]
    exact ih

/-- At a safe boundary the items read so far stand, and reading goes on from the tail. -/
theorem drain_append (law : Lawful step safe) {more : List α} (h : safe buffer more) :
    drain step (buffer ++ more) =
      ((drain step buffer).1 ++ (drain step ((drain step buffer).2 ++ more)).1,
        (drain step ((drain step buffer).2 ++ more)).2) := by
  induction buffer using law.induction with
  | hnone buffer hstep =>
    rw [drain_none hstep]
    rfl
  | hsome buffer item rest hstep ih =>
    have hrest := ih (law.safe_rest hstep h)
    rw [law.drain_some hstep, law.drain_some (law.stable hstep h), hrest]
    rfl

end Lawful

end Incremental
