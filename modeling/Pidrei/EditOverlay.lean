import Pidrei.EditExact
import Pidrei.LineTokens

/-!
Replacements found in a base text, laid over the lines of another text of as
many lines. The replacements are grouped by the lines they touch; lines between
the groups come from the other text.
-/
namespace Pidrei.EditOverlay

open EditDiff LineTokens List

section Regions

/-- The replacements follow each other between the two positions. -/
inductive Fits : ℕ → List TextReplacement → ℕ → Prop
  | nil {start stop : ℕ} (h : start ≤ stop) : Fits start [] stop
  | cons {start stop : ℕ} {replacement : TextReplacement} {replacements : List TextReplacement}
      (hstart : start ≤ replacement.matchIndex)
      (hrest : Fits (replacement.matchIndex + replacement.matchLength) replacements stop) :
      Fits start (replacement :: replacements) stop

variable {start stop offset : ℕ} {replacements : List TextReplacement}

theorem Fits.le (h : Fits start replacements stop) : start ≤ stop := by
  induction h with
  | nil h => exact h
  | cons hstart _ ih => omega

theorem Fits.widen_start {earlier : ℕ} (h : Fits start replacements stop)
    (hearlier : earlier ≤ start) : Fits earlier replacements stop := by
  cases h with
  | nil h => exact .nil (hearlier.trans h)
  | cons hstart hrest => exact .cons (hearlier.trans hstart) hrest

variable {front back : List TextReplacement} {replacement : TextReplacement} {text : List Char}

theorem Fits.append {middle : ℕ} (hfront : Fits start front middle)
    (hback : Fits middle back stop) : Fits start (front ++ back) stop := by
  induction hfront with
  | nil h => exact hback.widen_start h
  | cons hstart _ ih => exact .cons hstart (ih hback)

theorem Fits.split (h : Fits start (front ++ back) stop) :
    ∃ middle, Fits start front middle ∧ Fits middle back stop := by
  induction front generalizing start with
  | nil => exact ⟨start, .nil (Nat.le_refl start), h⟩
  | cons replacement front ih =>
    cases h with
    | cons hstart hrest =>
      obtain ⟨middle, hfront, hback⟩ := ih hrest
      exact ⟨middle, .cons hstart hfront, hback⟩

theorem Fits.cut (h : Fits offset (replacement :: replacements) (offset + text.length)) :
    ∃ front old back, text = front ++ (old ++ back) ∧
      replacement.matchIndex = offset + front.length ∧ replacement.matchLength = old.length ∧
      Fits (offset + front.length + old.length) replacements
        (offset + front.length + old.length + back.length) := by
  cases h with
  | cons hstart hrest =>
    have hbound := hrest.le
    refine ⟨text.take (replacement.matchIndex - offset),
      (text.drop (replacement.matchIndex - offset)).take replacement.matchLength,
      (text.drop (replacement.matchIndex - offset)).drop replacement.matchLength, ?_, ?_, ?_, ?_⟩
    · rw [take_append_drop, take_append_drop]
    · rw [length_take]
      omega
    · rw [length_take, length_drop]
      omega
    · have hstart' : offset + (text.take (replacement.matchIndex - offset)).length +
          ((text.drop (replacement.matchIndex - offset)).take replacement.matchLength).length =
            replacement.matchIndex + replacement.matchLength := by
        simp only [length_take, length_drop]
        omega
      have hstop : replacement.matchIndex + replacement.matchLength +
          ((text.drop (replacement.matchIndex - offset)).drop replacement.matchLength).length =
            offset + text.length := by
        simp only [length_drop]
        omega
      rw [hstart', hstop]
      exact hrest

end Regions

section Spans

/-- Where the line begins. -/
def lineOffset (lines : List (List Char)) (i : ℕ) : ℕ := (lines.take i).flatten.length

variable (front lines : List (List Char)) (offset : ℕ)

theorem lineOffset_add (i j : ℕ) :
    lineOffset lines (i + j) = lineOffset lines i + ((lines.drop i).take j).flatten.length := by
  rw [lineOffset, lineOffset, take_add, flatten_append, length_append]

variable {i : ℕ}

theorem lineOffset_mono {j : ℕ} (h : i ≤ j) : lineOffset lines i ≤ lineOffset lines j := by
  obtain ⟨k, rfl⟩ := Nat.exists_eq_add_of_le h
  rw [lineOffset_add]
  exact Nat.le_add_right _ _

theorem lineOffset_all : lineOffset lines lines.length = lines.flatten.length := by
  rw [lineOffset, take_length]

end Spans

def Overlaps (lines : List (List Char)) (replacement : TextReplacement) (i : ℕ) : Prop :=
  lineOffset lines i < replacement.matchIndex + replacement.matchLength ∧
    replacement.matchIndex < lineOffset lines (i + 1)

/-- The lines from the first to before the last hold the replaced text, and each has a part
of it. -/
structure Covers (lines : List (List Char)) (replacement : TextReplacement)
    (startLine endLine : ℕ) : Prop where
  nonempty : startLine < endLine
  bound : endLine ≤ lines.length
  start_le : lineOffset lines startLine ≤ replacement.matchIndex
  le_stop : replacement.matchIndex + replacement.matchLength ≤ lineOffset lines endLine
  touches : ∀ i, startLine ≤ i → i < endLine → Overlaps lines replacement i

section Groups

/-- A group of replacements, each of whose lines one of them touches. -/
structure GroupFits (lines : List (List Char)) (group : Group) : Prop where
  nonempty : group.startLine < group.endLine
  bound : group.endLine ≤ lines.length
  fits : Fits (lineOffset lines group.startLine) group.replacements
    (lineOffset lines group.endLine)
  touched : ∀ i, group.startLine ≤ i → i < group.endLine →
    ∃ replacement ∈ group.replacements, Overlaps lines replacement i

/-- The groups follow each other and share no line. -/
inductive Sequenced (lines : List (List Char)) : ℕ → List Group → Prop
  | nil (i : ℕ) : Sequenced lines i []
  | cons {i : ℕ} {group : Group} {groups : List Group} (hstart : i ≤ group.startLine)
      (hgroup : GroupFits lines group) (hgroups : Sequenced lines group.endLine groups) :
      Sequenced lines i (group :: groups)

def replacementsOf (groups : List Group) : List TextReplacement :=
  groups.flatMap Group.replacements

variable {lines : List (List Char)} {replacement : TextReplacement} {startLine endLine : ℕ}
  {replacements : List TextReplacement}

theorem Covers.group (h : Covers lines replacement startLine endLine) :
    GroupFits lines ⟨startLine, endLine, [replacement]⟩ where
  nonempty := h.nonempty
  bound := h.bound
  fits := .cons h.start_le (.nil h.le_stop)
  touched := fun i hlow hhigh => ⟨replacement, mem_singleton_self _, h.touches i hlow hhigh⟩

theorem GroupFits.join {group : Group} (hgroup : GroupFits lines group)
    (hcovers : Covers lines replacement startLine endLine) (hjoins : startLine < group.endLine)
    (hbefore : Fits (lineOffset lines group.startLine) group.replacements replacement.matchIndex) :
    GroupFits lines { group with
      endLine := max group.endLine endLine
      replacements := group.replacements ++ [replacement] } where
  nonempty := lt_of_lt_of_le hgroup.nonempty (Nat.le_max_left _ _)
  bound := Nat.max_le.mpr ⟨hgroup.bound, hcovers.bound⟩
  fits := by
    have hlater := lineOffset_mono lines (Nat.le_max_right group.endLine endLine)
    exact hbefore.append (.cons (Nat.le_refl _) (.nil (hcovers.le_stop.trans hlater)))
  touched := by
    intro i hlow hhigh
    by_cases hold : i < group.endLine
    · obtain ⟨other, hother, hoverlaps⟩ := hgroup.touched i hlow hold
      exact ⟨other, mem_append_left _ hother, hoverlaps⟩
    · refine ⟨replacement, mem_append_right _ (mem_singleton_self _), ?_⟩
      have hend : i < max group.endLine endLine := hhigh
      apply hcovers.touches
      · omega
      · omega

theorem Sequenced.fits {i : ℕ} {groups : List Group} (h : Sequenced lines i groups)
    (hi : i ≤ lines.length) :
    Fits (lineOffset lines i) (replacementsOf groups) lines.flatten.length := by
  induction h with
  | nil i =>
    rw [← lineOffset_all]
    exact .nil (lineOffset_mono lines hi)
  | cons hstart hgroup _ ih =>
    have hbefore := lineOffset_mono lines hstart
    exact (hgroup.fits.widen_start hbefore).append (ih hgroup.bound)

end Groups

section Overlay

/-- The lines in order in a text, with something else in the places of touched lines only. -/
inductive KeepsLines (touched : ℕ → Prop) : ℕ → List (List Char) → List Char → Prop
  | done (i : ℕ) : KeepsLines touched i [] []
  | kept {i : ℕ} {lines : List (List Char)} {text : List Char} (line : List Char)
      (hrest : KeepsLines touched (i + 1) lines text) :
      KeepsLines touched i (line :: lines) (line ++ text)
  | changed {i : ℕ} {lines : List (List Char)} {text : List Char} (line newText : List Char)
      (htouched : touched i) (hrest : KeepsLines touched (i + 1) lines text) :
      KeepsLines touched i (line :: lines) (newText ++ text)

/-- Two texts made of pairs of lines, with the same changes in both. -/
inductive Rewrites (touched : ℕ → Prop) :
    ℕ → List (List Char × List Char) → List Char → List Char → Prop
  | done (i : ℕ) : Rewrites touched i [] [] []
  | kept {i : ℕ} {lines : List (List Char × List Char)} {text baseText : List Char}
      (line : List Char × List Char) (hrest : Rewrites touched (i + 1) lines text baseText) :
      Rewrites touched i (line :: lines) (line.1 ++ text) (line.2 ++ baseText)
  | changed {i : ℕ} {lines : List (List Char × List Char)} {text baseText : List Char}
      (line : List Char × List Char) (newText : List Char) (htouched : touched i)
      (hrest : Rewrites touched (i + 1) lines text baseText) :
      Rewrites touched i (line :: lines) (newText ++ text) (newText ++ baseText)

variable {touched : ℕ → Prop} {i j : ℕ} {text baseText : List Char}
  {lines : List (List Char × List Char)}

theorem Rewrites.keeps (h : Rewrites touched i lines text baseText) :
    KeepsLines touched i (lines.map Prod.fst) text := by
  induction h with
  | done i => exact .done i
  | kept line _ ih => exact .kept line.1 ih
  | changed line newText htouched _ ih => exact .changed line.1 newText htouched ih

theorem Rewrites.keep {i j : ℕ} {lines : List (List Char × List Char)}
    {text baseText : List Char} (front : List (List Char × List Char))
    (hj : i + front.length = j) (h : Rewrites touched j lines text baseText) :
    Rewrites touched i (front ++ lines) ((front.map Prod.fst).flatten ++ text)
      ((front.map Prod.snd).flatten ++ baseText) := by
  induction front generalizing i with
  | nil =>
    rw [length_nil, Nat.add_zero] at hj
    rw [hj]
    exact h
  | cons line front ih =>
    rw [length_cons] at hj
    simp only [map_cons, flatten_cons, append_assoc, cons_append]
    exact .kept line (ih (by omega))

theorem Rewrites.replace (front : List (List Char × List Char)) (hj : i + front.length = j)
    (hij : i < j) (htouched : ∀ k, i ≤ k → k < j → touched k) (newText : List Char)
    (h : Rewrites touched j lines text baseText) :
    Rewrites touched i (front ++ lines) (newText ++ text) (newText ++ baseText) := by
  induction front generalizing i newText with
  | nil =>
    rw [length_nil] at hj
    omega
  | cons line front ih =>
    rw [length_cons] at hj
    have hhere := htouched i (Nat.le_refl i) hij
    rw [cons_append]
    by_cases hlast : i + 1 = j
    · obtain rfl : front = [] := eq_nil_of_length_eq_zero (by omega)
      rw [← hlast] at h
      exact .changed line newText hhere h
    · have hlater := @ih (i + 1) (by omega) (by omega)
        (fun k hlow hhigh => htouched k (by omega) hhigh) []
      exact .changed line newText hhere hlater

variable {originalLines lines : List (List Char)}

end Overlay

end Pidrei.EditOverlay
