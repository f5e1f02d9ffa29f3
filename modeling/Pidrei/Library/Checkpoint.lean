import Mathlib.Data.List.Basic

/-!
Checkpoints of a replayed log. A log is replayed from a start state; some of its
messages update the state and the others pass by. A checkpoint is one message
that stands for all updates of a prefix. What later replays can see of a state
is a relation: a checkpoint restores the state up to this relation only, and
the relation is kept by every step, so replacing the updates of any prefix by
the checkpoint changes nothing that a later replay can see.
-/
namespace Checkpoint

variable {σ : Type*} {μ : Type*}

def replay (step : σ → μ → σ) (init : σ) (log : List μ) : σ := log.foldl step init

variable (step : σ → μ → σ)

theorem replay_append (init : σ) (xs ys : List μ) :
    replay step init (xs ++ ys) = replay step (replay step init xs) ys := List.foldl_append

/-- Indistinguishable states stay so under the same log. -/
theorem replay_rel (rel : σ → σ → Prop) (hstep : ∀ s t m, rel s t → rel (step s m) (step t m))
    {s t : σ} (h : rel s t) (log : List μ) : rel (replay step s log) (replay step t log) :=
  List.foldl_rel h (fun m _ a b hab => hstep a b m hab)

theorem replay_filter (updates : μ → Bool) (hpass : ∀ s m, updates m = false → step s m = s)
    (s : σ) (log : List μ) : replay step s (log.filter updates) = replay step s log := by
  induction log generalizing s with
  | nil => rfl
  | cons m rest ih =>
    cases hm : updates m with
    | true =>
      simp only [List.filter_cons, hm, if_true]
      exact ih (step s m)
    | false =>
      have hs : step s m = s := hpass s m hm
      simp only [List.filter_cons, hm, Bool.false_eq_true, if_false]
      change replay step s (rest.filter updates) = replay step (step s m) rest
      rw [hs, ih]

theorem replay_of_no_updates (updates : μ → Bool)
    (hpass : ∀ s m, updates m = false → step s m = s) (s : σ) (log : List μ)
    (hlog : ∀ m ∈ log, updates m = false) : replay step s log = s := by
  rw [← replay_filter step updates hpass, List.filter_eq_nil_iff.mpr]
  · rfl
  · intro m hm
    simp [hlog m hm]

/-- Put a checkpoint message, when there is one, before the other messages of a log. -/
def collapse (updates : μ → Bool) (head : Option μ) (log : List μ) : List μ :=
  head.toList ++ log.filter (fun m => !updates m)

/-- The updates of a prefix can be replaced by a message that restores its state. -/
theorem replay_collapse_append (init : σ) (rel : σ → σ → Prop)
    (hstep : ∀ s t m, rel s t → rel (step s m) (step t m)) (updates : μ → Bool)
    (hpass : ∀ s m, updates m = false → step s m = s) (head : Option μ) (log later : List μ)
    (hhead : rel (replay step init head.toList) (replay step init log)) :
    rel (replay step init (collapse updates head log ++ later))
      (replay step init (log ++ later)) := by
  have hrest : ∀ s, replay step s (log.filter (fun m => !updates m)) = s := by
    intro s
    apply replay_of_no_updates step updates hpass
    intro m hm
    simpa using (List.mem_filter.mp hm).2
  rw [collapse, replay_append, replay_append step init log, replay_append, hrest]
  exact replay_rel step rel hstep hhead later

end Checkpoint
