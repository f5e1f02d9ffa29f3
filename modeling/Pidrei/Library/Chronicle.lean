import Mathlib.Data.List.Induction

/-!
Append-only logs in which every entry is justified by what stands before it. What an
entry says of the past never changes, so it is enough to justify it when it is written.
-/
namespace Chronicle

variable {α : Type*}

/-- Every entry is justified by the entries before it. -/
def Justified (justifies : List α → α → Prop) (log : List α) : Prop :=
  ∀ before entry after, log = before ++ entry :: after → justifies before entry

variable {justifies : List α → α → Prop}

theorem justified_nil : Justified justifies [] := by
  intro before entry after h
  cases before <;> cases h

theorem justified_concat {log : List α} {entry : α} :
    Justified justifies (log ++ [entry]) ↔ Justified justifies log ∧ justifies log entry := by
  constructor
  · intro h
    refine ⟨fun before other after hlog => ?_, h log entry [] rfl⟩
    apply h before other (after ++ [entry])
    rw [hlog, List.append_assoc, List.cons_append]
  · rintro ⟨hlog, hentry⟩ before other after h
    obtain rfl | ⟨after, last, rfl⟩ := after.eq_nil_or_concat
    · obtain ⟨rfl, hother⟩ := List.append_inj' h rfl
      rw [← (List.cons.inj hother).1]
      exact hentry
    · rw [List.concat_eq_append, ← List.cons_append, ← List.append_assoc] at h
      exact hlog before other after (List.append_inj' h rfl).1

theorem Justified.concat {log : List α} {entry : α} (h : Justified justifies log)
    (hentry : justifies log entry) : Justified justifies (log ++ [entry]) :=
  justified_concat.mpr ⟨h, hentry⟩

end Chronicle
