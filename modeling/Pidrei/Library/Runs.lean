import Mathlib.Data.List.Induction

/-!
Runs of a machine that acts on one input after another. A condition on the steps
is exact for a property of the states when an invariant carries it: the invariant
gives the property, a step that meets the condition keeps the invariant, and a
step that does not ends in a state without the property.
-/
namespace Runs

variable {σ α : Type*}

/-- The states of a run: the start and the state after each input. -/
def states (step : σ → α → σ) : σ → List α → List σ
  | s, [] => [s]
  | s, input :: rest => s :: states step (step s input) rest

/-- Every step of the run meets the condition. -/
def Along (step : σ → α → σ) (meets : σ → α → Prop) : σ → List α → Prop
  | _, [] => True
  | s, input :: rest => meets s input ∧ Along step meets (step s input) rest

instance decidableAlong (step : σ → α → σ) (meets : σ → α → Prop)
    [∀ s input, Decidable (meets s input)] :
    ∀ s inputs, Decidable (Along step meets s inputs)
  | _, [] => .isTrue trivial
  | s, input :: rest =>
    have := decidableAlong step meets (step s input) rest
    inferInstanceAs (Decidable (meets s input ∧ Along step meets (step s input) rest))

variable {step : σ → α → σ} {meets : σ → α → Prop} {invariant good : σ → Prop}

theorem start_mem_states (s : σ) (inputs : List α) : s ∈ states step s inputs := by
  cases inputs with
  | nil => exact List.mem_singleton_self s
  | cons input rest => exact List.mem_cons_self

theorem foldl_mem_states (s : σ) (inputs : List α) : inputs.foldl step s ∈ states step s inputs := by
  induction inputs generalizing s with
  | nil => exact start_mem_states s []
  | cons input rest ih => exact List.mem_cons_of_mem _ (ih (step s input))

theorem invariant_of_along (hstep : ∀ s input, invariant s → meets s input →
    invariant (step s input)) {s : σ} {inputs : List α} (hs : invariant s)
    (h : Along step meets s inputs) : ∀ t ∈ states step s inputs, invariant t := by
  induction inputs generalizing s with
  | nil =>
    intro t ht
    rw [List.mem_singleton.mp ht]
    exact hs
  | cons input rest ih =>
    intro t ht
    rcases List.mem_cons.mp ht with rfl | ht
    · exact hs
    · exact ih (hstep s input hs h.1) h.2 t ht

/-- The property holds in every state of a run exactly when every step meets the condition.
`inputs` may be restricted to the ones that `allowed` lets through. -/
theorem good_iff_along {allowed : α → Prop} (hgood : ∀ s, invariant s → good s)
    (hstep : ∀ s input, allowed input → invariant s → meets s input → invariant (step s input))
    (hbad : ∀ s input, allowed input → invariant s → ¬ meets s input → ¬ good (step s input))
    {s : σ} {inputs : List α} (hs : invariant s) (hinputs : ∀ input ∈ inputs, allowed input) :
    (∀ t ∈ states step s inputs, good t) ↔ Along step meets s inputs := by
  induction inputs generalizing s with
  | nil =>
    refine ⟨fun _ => trivial, fun _ t ht => ?_⟩
    rw [List.mem_singleton.mp ht]
    exact hgood s hs
  | cons input rest ih =>
    have hinput := hinputs input List.mem_cons_self
    have hrest := fun other hother => hinputs other (List.mem_cons_of_mem _ hother)
    constructor
    · intro hall
      have hmeets : meets s input := by
        by_contra hnot
        exact hbad s input hinput hs hnot
          (hall _ (List.mem_cons_of_mem _ (start_mem_states _ rest)))
      exact ⟨hmeets, (ih (hstep s input hinput hs hmeets) hrest).mp
        (fun t ht => hall t (List.mem_cons_of_mem _ ht))⟩
    · rintro ⟨hmeets, halong⟩ t ht
      rcases List.mem_cons.mp ht with rfl | ht
      · exact hgood t hs
      · exact (ih (hstep s input hinput hs hmeets) hrest).mpr halong t ht

section Partial

/-- The state after the inputs, when every one of them is possible in its turn. -/
def run (step : σ → α → Option σ) : σ → List α → Option σ
  | s, [] => some s
  | s, input :: rest => (step s input).bind fun t => run step t rest

variable {step : σ → α → Option σ}

theorem run_append (s : σ) (inputs more : List α) :
    run step s (inputs ++ more) = (run step s inputs).bind fun t => run step t more := by
  induction inputs generalizing s with
  | nil => rfl
  | cons input inputs ih =>
    rw [List.cons_append, run, run, Option.bind_assoc]
    exact congrArg _ (funext fun t => ih t)

/-- A relation between the inputs so far and the state holds after every run, when it holds at
the start and every possible step keeps it. -/
theorem run_induction {start : σ} {holds : List α → σ → Prop} (hstart : holds [] start)
    (hstep : ∀ inputs s input t, holds inputs s → step s input = some t →
      holds (inputs ++ [input]) t) {inputs : List α} {s : σ} (h : run step start inputs = some s) :
    holds inputs s := by
  induction inputs using List.reverseRecOn generalizing s with
  | nil => rwa [← Option.some.inj h]
  | append_singleton inputs input ih =>
    rw [run_append] at h
    obtain ⟨t, ht, hlast⟩ := Option.bind_eq_some_iff.mp h
    obtain ⟨u, hu, hs⟩ := Option.bind_eq_some_iff.mp hlast
    rw [← Option.some.inj hs]
    exact hstep inputs t input u (ih ht) hu

end Partial

section Reachable

inductive Reaches (step : σ → α → Option σ) (meets : σ → α → Prop) (start : σ) : σ → Prop
  | start : Reaches step meets start start
  | next {s t : σ} {input : α} (before : Reaches step meets start s) (hmeets : meets s input)
      (hstep : step s input = some t) : Reaches step meets start t

variable {step : σ → α → Option σ} {meets : σ → α → Prop} {start : σ}

/-- What the start has and every step that meets the condition keeps is in every state reached. -/
theorem Reaches.kept {holds : σ → Prop} (hstart : holds start)
    (hkeeps : ∀ s input t, holds s → meets s input → step s input = some t → holds t) {t : σ}
    (h : Reaches step meets start t) : holds t := by
  induction h with
  | start => exact hstart
  | next _ hmeets hstep ih => exact hkeeps _ _ _ ih hmeets hstep

theorem Reaches.of_run [∀ s input, Decidable (meets s input)] {inputs : List α} {t : σ}
    (h : run (fun s input => if meets s input then step s input else none) start inputs = some t) :
    Reaches step meets start t := by
  have hnext : ∀ (_ : List α) s input t, Reaches step meets start s →
      (if meets s input then step s input else none) = some t → Reaches step meets start t := by
    intro _ s input t hs hstep
    by_cases hmeets : meets s input
    · exact hs.next hmeets (by rwa [if_pos hmeets] at hstep)
    · rw [if_neg hmeets] at hstep
      cases hstep
  exact run_induction .start hnext h

end Reachable

end Runs
