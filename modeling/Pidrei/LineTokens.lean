import Pidrei.EditDiff
import Pidrei.Library.Lines

/-!
The lines of a text with their line ends. Only the last may have none.
-/
namespace Pidrei.LineTokens

open EditDiff List

/-- What texts are cut into. -/
inductive Lined : List (List Char) → Prop
  | nil : Lined []
  | unended {line : List Char} (hne : line ≠ []) (hline : '\n' ∉ line) : Lined [line]
  | ended {line : List Char} {lines : List (List Char)} (hline : '\n' ∉ line)
      (hlines : Lined lines) : Lined ((line ++ ['\n']) :: lines)

attribute [local simp] splitLinesWithEndings in
theorem lined_splitLinesWithEndings (text : List Char) : Lined (splitLinesWithEndings text) := by
  induction text with
  | nil => exact .nil
  | cons c text ih =>
    rw [splitLinesWithEndings]
    by_cases hc : c = '\n'
    · rw [if_pos hc]
      exact Lined.ended not_mem_nil ih
    · have hfree : ∀ {line : List Char}, '\n' ∉ line → '\n' ∉ c :: line := by
        intro line hline hmem
        rcases mem_cons.mp hmem with rfl | hmem
        · exact hc rfl
        · exact hline hmem
      rw [if_neg hc]
      generalize splitLinesWithEndings text = lines at ih
      cases ih with
      | nil => exact .unended (cons_ne_nil _ _) (hfree not_mem_nil)
      | unended _ hline => exact .unended (cons_ne_nil _ _) (hfree hline)
      | ended hline hlines => exact .ended (hfree hline) hlines

@[simp] theorem flatten_splitLinesWithEndings (text : List Char) :
    (splitLinesWithEndings text).flatten = text := by
  induction text with
  | nil => rfl
  | cons c text ih =>
    rw [splitLinesWithEndings]
    split_ifs with hc
    · rw [flatten_cons, ih, hc]
      rfl
    · split
      next hnil =>
        rw [hnil] at ih
        rw [← ih]
        rfl
      next line lines hlines =>
        rw [hlines, flatten_cons] at ih
        rw [flatten_cons, cons_append, ih]

variable {line : List Char} {lines : List (List Char)}

theorem split_unended (hne : line ≠ []) (hline : '\n' ∉ line) :
    splitLinesWithEndings line = [line] := by
  induction line with
  | nil => exact absurd rfl hne
  | cons c line ih =>
    rw [mem_cons, not_or] at hline
    rw [splitLinesWithEndings, if_neg (Ne.symm hline.1)]
    by_cases hnil : line = []
    · subst hnil
      rfl
    · rw [ih hnil hline.2]

theorem split_ended (hline : '\n' ∉ line) (rest : List Char) :
    splitLinesWithEndings (line ++ '\n' :: rest) =
      (line ++ ['\n']) :: splitLinesWithEndings rest := by
  induction line with
  | nil => rw [nil_append, splitLinesWithEndings, if_pos rfl]; rfl
  | cons c line ih =>
    rw [mem_cons, not_or] at hline
    rw [cons_append, splitLinesWithEndings, if_neg (Ne.symm hline.1), ih hline.2]
    rfl

theorem Lined.split_flatten (h : Lined lines) : splitLinesWithEndings lines.flatten = lines := by
  induction h with
  | nil => rfl
  | unended hne hline => rw [flatten_singleton, split_unended hne hline]
  | ended hline _ ih =>
    rw [flatten_cons, append_assoc, singleton_append, split_ended hline, ih]

theorem Lined.left {front back : List (List Char)} (h : Lined (front ++ back)) : Lined front := by
  induction front with
  | nil => exact .nil
  | cons line front ih =>
    rw [cons_append] at h
    generalize htail : front ++ back = tail at h
    cases h with
    | unended hne hline =>
      rw [(append_eq_nil_iff.mp htail).1]
      exact .unended hne hline
    | ended hline hlines => exact .ended hline (ih (htail ▸ hlines))

theorem Lined.right {front back : List (List Char)} (h : Lined (front ++ back)) : Lined back := by
  induction front with
  | nil => exact h
  | cons line front ih =>
    rw [cons_append] at h
    generalize htail : front ++ back = tail at h
    cases h with
    | unended _ _ =>
      rw [(append_eq_nil_iff.mp htail).2]
      exact .nil
    | ended _ hlines => exact ih (htail ▸ hlines)

def chomp (line : List Char) : List Char :=
  if line.getLast? = some '\n' then line.dropLast else line

@[simp] theorem chomp_ended (line : List Char) : chomp (line ++ ['\n']) = line := by
  rw [chomp, getLast?_concat, if_pos rfl, dropLast_concat]

theorem chomp_unended (h : '\n' ∉ line) : chomp line = line :=
  if_neg fun hlast => h (mem_of_getLast? hlast)

theorem Lined.chomp_free (h : Lined lines) : ∀ line ∈ lines, '\n' ∉ chomp line := by
  induction h with
  | nil => exact nofun
  | unended _ hfree =>
    intro line hline
    rw [mem_singleton.mp hline, chomp_unended hfree]
    exact hfree
  | ended hfree _ ih =>
    intro line hline
    rcases mem_cons.mp hline with rfl | hline
    · rw [chomp_ended]
      exact hfree
    · exact ih line hline

/-- `value.split("\n")` without the empty piece behind a final newline. -/
def rawLines (value : List Char) : List (List Char) :=
  if (value.splitOn '\n').getLast? = some [] then (value.splitOn '\n').dropLast
  else value.splitOn '\n'

theorem Lined.rawLines_flatten (h : Lined lines) : rawLines lines.flatten = lines.map chomp := by
  induction h with
  | nil => rfl
  | @unended line hne hline =>
    rw [flatten_singleton, rawLines, splitOn_eq_singleton hline, getLast?_singleton,
      if_neg fun heq => hne (Option.some.inj heq), map_singleton, chomp_unended hline]
  | @ended line lines hline _ ih =>
    have hsplit : ((line ++ ['\n']) :: lines).flatten.splitOn '\n' =
        line :: lines.flatten.splitOn '\n' := by
      rw [flatten_cons, append_assoc, singleton_append,
        splitOn_append_cons_self, splitOn_eq_singleton hline]
      rfl
    have hne := splitOn_ne_nil '\n' lines.flatten
    rw [map_cons, chomp_ended, ← ih, rawLines, rawLines, hsplit, getLast?_cons,
      getLast?_eq_some_getLast hne, Option.getD_some, dropLast_cons_of_ne_nil hne]
    split_ifs <;> rfl

end Pidrei.LineTokens
