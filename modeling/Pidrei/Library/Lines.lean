import Mathlib.Data.List.Basic

/-!
Text cut at a separator, and its pieces joined again. The pieces of a
concatenation are read off at a separator: what stands behind one is a block of
the last pieces.
-/
namespace Lines

open List

variable {α : Type*} [DecidableEq α] {sep : α}

omit [DecidableEq α] in
theorem join_append {front back : List (List α)} (hfront : front ≠ []) (hback : back ≠ []) :
    [sep].intercalate (front ++ back) =
      [sep].intercalate front ++ sep :: [sep].intercalate back := by
  induction front with
  | nil => exact absurd rfl hfront
  | cons line front ih =>
    by_cases hnil : front = []
    · subst hnil
      rw [singleton_append, intercalate_cons_of_ne_nil hback, intercalate_singleton, append_assoc]
      rfl
    · have happend : front ++ back ≠ [] := append_ne_nil_of_left_ne_nil hnil _
      rw [cons_append, intercalate_cons_of_ne_nil happend, intercalate_cons_of_ne_nil hnil, ih hnil]
      simp only [append_assoc, cons_append, nil_append]

theorem length_splitOn (text : List α) : (text.splitOn sep).length = text.count sep + 1 := by
  induction text with
  | nil => rfl
  | cons c text ih =>
    rw [splitOn_cons_eq_if_modifyHead]
    by_cases hc : c = sep
    · subst hc
      rw [if_pos (beq_self_eq_true c), length_cons, ih, count_cons_self]
    · rw [if_neg (fun h => hc (eq_of_beq h)), length_modifyHead, ih, count_cons_of_ne hc]

theorem splitOn_concat_sep (text : List α) :
    (text ++ [sep]).splitOn sep = text.splitOn sep ++ [[]] :=
  splitOn_append_cons_self text []

/-- No piece holds the separator. -/
theorem not_mem_of_mem_splitOn {text line : List α} (h : line ∈ text.splitOn sep) : sep ∉ line := by
  induction text generalizing line with
  | nil =>
    rw [mem_singleton.mp h]
    exact not_mem_nil
  | cons c text ih =>
    rw [splitOn_cons_eq_if_modifyHead] at h
    by_cases hc : c = sep
    · subst hc
      rw [if_pos (beq_self_eq_true c)] at h
      rcases mem_cons.mp h with rfl | h
      · exact not_mem_nil
      · exact ih h
    · rw [if_neg (fun h => hc (eq_of_beq h))] at h
      cases hlines : text.splitOn sep with
      | nil => exact absurd hlines (splitOn_ne_nil sep text)
      | cons first lines =>
        rw [hlines, modifyHead_cons] at h
        rcases mem_cons.mp h with rfl | h
        · intro hmem
          rcases mem_cons.mp hmem with rfl | hmem
          · exact hc rfl
          · exact ih (hlines ▸ mem_cons_self) hmem
        · exact ih (hlines ▸ mem_cons_of_mem _ h)

omit [DecidableEq α] in
theorem join_concat_append (lines : List (List α)) (last back : List α) :
    [sep].intercalate (lines ++ [last]) ++ back = [sep].intercalate (lines ++ [last ++ back]) := by
  by_cases hlines : lines = []
  · subst hlines
    simp only [nil_append, intercalate_singleton]
  · rw [join_append hlines (cons_ne_nil _ _), join_append hlines (cons_ne_nil _ _)]
    simp only [intercalate_singleton, append_assoc, cons_append]

/-- Text without the separator lengthens the last piece. -/
theorem splitOn_append_of_not_mem (front : List α) {back : List α} (h : sep ∉ back) :
    ∃ lines last, front.splitOn sep = lines ++ [last] ∧
      (front ++ back).splitOn sep = lines ++ [last ++ back] := by
  obtain ⟨lines, last, hlines⟩ :=
    (eq_nil_or_concat (front.splitOn sep)).resolve_left (splitOn_ne_nil sep front)
  rw [concat_eq_append] at hlines
  refine ⟨lines, last, hlines, ?_⟩
  have hjoin : [sep].intercalate (lines ++ [last ++ back]) = front ++ back := by
    rw [← join_concat_append, ← hlines, intercalate_splitOn]
  rw [← hjoin]
  apply splitOn_intercalate
  · intro line hline
    rcases mem_append.mp hline with hline | hline
    · exact not_mem_of_mem_splitOn (hlines ▸ mem_append_left _ hline)
    · rw [mem_singleton.mp hline]
      intro hmem
      rcases mem_append.mp hmem with hmem | hmem
      · have hlast : last ∈ front.splitOn sep :=
          hlines ▸ mem_append_right _ (mem_singleton_self last)
        exact not_mem_of_mem_splitOn hlast hmem
      · exact h hmem
  · exact append_ne_nil_of_right_ne_nil _ (cons_ne_nil _ _)

/-- More text goes on from the last piece. -/
theorem splitOn_append_last (front : List α) : ∃ lines last, front.splitOn sep = lines ++ [last] ∧
    ∀ back, (front ++ back).splitOn sep = lines ++ (last ++ back).splitOn sep := by
  induction front with
  | nil => exact ⟨[], [], rfl, fun _ => rfl⟩
  | cons c front ih =>
    obtain ⟨lines, last, hfront, hback⟩ := ih
    by_cases hc : c = sep
    · subst hc
      have hcons : ∀ text : List α, (c :: text).splitOn c = [] :: text.splitOn c := by
        intro text
        rw [splitOn_cons_eq_if_modifyHead, if_pos (beq_self_eq_true c)]
      refine ⟨[] :: lines, last, by rw [hcons, hfront]; rfl, ?_⟩
      intro back
      rw [cons_append, hcons, hback, cons_append]
    · have hcons : ∀ text : List α,
          (c :: text).splitOn sep = (text.splitOn sep).modifyHead (c :: ·) := by
        intro text
        rw [splitOn_cons_eq_if_modifyHead, if_neg fun h => hc (eq_of_beq h)]
      cases lines with
      | nil =>
        refine ⟨[], c :: last, by rw [hcons, hfront]; rfl, ?_⟩
        intro back
        rw [cons_append, hcons, hback, cons_append, hcons]
        rfl
      | cons line lines =>
        refine ⟨(c :: line) :: lines, last, by rw [hcons, hfront]; rfl, ?_⟩
        intro back
        rw [cons_append, hcons, hback]
        rfl

/-- Text without the separator lengthens the first piece. -/
theorem splitOn_of_not_mem_append {front : List α} (h : sep ∉ front) (back : List α) :
    (front ++ back).splitOn sep = (back.splitOn sep).modifyHead (front ++ ·) := by
  induction front with
  | nil =>
    cases hback : back.splitOn sep with
    | nil => exact absurd hback (splitOn_ne_nil sep back)
    | cons line lines => exact hback
  | cons c front ih =>
    rw [mem_cons, not_or] at h
    rw [cons_append, splitOn_cons_eq_if_modifyHead,
      if_neg fun heq => h.1 (eq_of_beq heq).symm, ih h.2]
    cases back.splitOn sep <;> rfl

/-- Only a final separator leaves an empty last piece. -/
theorem getLast?_splitOn_eq_nil_iff {text : List α} (htext : text ≠ []) :
    (text.splitOn sep).getLast? = some [] ↔ text.getLast? = some sep := by
  obtain ⟨front, c, rfl⟩ := (eq_nil_or_concat text).resolve_left htext
  rw [concat_eq_append, getLast?_concat]
  by_cases hc : c = sep
  · subst hc
    rw [splitOn_concat_sep, getLast?_concat]
    exact ⟨fun _ => rfl, fun _ => rfl⟩
  · have hback : sep ∉ [c] := fun h => hc (mem_singleton.mp h).symm
    obtain ⟨lines, last, _, hsplit⟩ := splitOn_append_of_not_mem front hback
    rw [hsplit, getLast?_concat]
    simp [hc]

end Lines
