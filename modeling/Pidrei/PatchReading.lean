import Pidrei.UnifiedPatch

/-!
What applying a generated patch comes to. The patch is read back as the script of its hunks,
with the last newline taken from the lines that a marker follows.
-/
namespace Pidrei.PatchReading

open EditDiff LineTokens EditScript UnifiedPatch List
open PythonText hiding slice
open Option (bind_eq_bind bind_some getD_some map_some some)

section Ranges

variable {rest : List Char}

theorem readNumber_str (n : ℕ) (hrest : ∀ c ∈ rest.head?, c.isDigit = false) :
    readNumber (str n ++ rest) = some (n, rest) := by
  have hdigits : ∀ c ∈ str n, c.isDigit = true := fun c hc =>
    Nat.isDigit_of_mem_toDigits (by omega) (by omega) hc
  have hstop : rest.takeWhile Char.isDigit = [] ∧ rest.dropWhile Char.isDigit = rest := by
    cases rest with
    | nil => exact ⟨rfl, rfl⟩
    | cons c rest =>
      have hc := hrest c rfl
      rw [takeWhile_cons, dropWhile_cons, hc]
      exact ⟨rfl, rfl⟩
  have hne : str n ≠ [] := Nat.toDigits_ne_nil
  rw [readNumber, takeWhile_append_of_pos hdigits, dropWhile_append_of_pos hdigits,
    hstop.1, hstop.2, append_nil]
  split
  · exact absurd ‹_› hne
  · rw [int_str]

def rangeStart (start stop : ℕ) : ℕ := if stop - start = 0 then start else start + 1

theorem readRange_formatRangeUnified (start stop : ℕ)
    (hrest : ∀ c ∈ rest.head?, c.isDigit = false ∧ c ≠ ',') :
    readRange (formatRangeUnified start stop ++ rest) =
      some (rangeStart start stop, stop - start, rest) := by
  have hstop : ∀ c ∈ rest.head?, c.isDigit = false := fun c hc => (hrest c hc).1
  have hcomma : ∀ n length, readRange ((str n ++ ',' :: str length) ++ rest) =
      some (n, length, rest) := by
    intro n length
    have hnumber : readNumber (str n ++ (',' :: (str length ++ rest))) =
        some (n, ',' :: (str length ++ rest)) := by
      apply readNumber_str
      intro c hc
      rw [← some.inj hc]
      rfl
    rw [append_assoc, cons_append, readRange, hnumber]
    exact congrArg (Option.map fun read => (n, read.1, read.2)) (readNumber_str length hstop)
  rw [formatRangeUnified, rangeStart]
  by_cases hone : stop - start = 1
  · rw [if_pos hone, if_neg (by omega), readRange, readNumber_str _ hstop, hone]
    split
    · simp_all
    · next heq =>
      cases heq
      exact absurd rfl (hrest ',' rfl).2
    · next heq =>
      cases heq
      rfl
  · rw [if_neg hone]
    by_cases hzero : stop - start = 0
    · rw [if_pos hzero, if_pos hzero, hcomma, Nat.add_sub_cancel]
    · rw [if_neg hzero, if_neg hzero, hcomma]

theorem dropPrefix?_append (front rest : List Char) : (front ++ rest).dropPrefix? front = some rest :=
  dropPrefix?_eq_some_iff.mpr ⟨front, rfl, beq_self_eq_true front⟩

theorem readHunkHeader_hunkHeader {group : List Opcode} {first last : Opcode}
    (hfirst : group.head? = some first) (hlast : group.getLast? = some last) :
    readHunkHeader (hunkHeader group) =
      some (rangeStart first.oldStart last.oldEnd, last.oldEnd - first.oldStart,
        last.newEnd - first.newStart) := by
  have hrange : ∀ start stop {rest : List Char}, rest.head? = some ' ' →
      readRange (formatRangeUnified start stop ++ rest) =
        some (rangeStart start stop, stop - start, rest) := by
    intro start stop rest hrest
    apply readRange_formatRangeUnified
    intro c hc
    rw [hrest] at hc
    rw [← some.inj hc]
    exact ⟨rfl, by decide⟩
  simp only [hunkHeader, hfirst, hlast, readHunkHeader, dropPrefix?_append,
    bind_eq_bind, bind_some]
  rw [hrange _ _ rfl]
  simp only [bind_some, dropPrefix?_append]
  rw [hrange _ _ rfl]
  simp

end Ranges

section Script

variable (oldMissing newMissing : Bool) (oldLast newLast : List Char)

/-- A step whose line loses its newline. -/
def chompStep : Step (List Char) → Step (List Char)
  | .keep line => .keep (chomp line)
  | .remove line => .remove (chomp line)
  | .add line => .add (chomp line)

/-- Lines with a marker behind the last of its kind, read back. -/
def claimLines : List (List Char) → List (List Char)
  | [] => []
  | line :: lines =>
    (if line ∉ lines ∧ matchesLast oldMissing newMissing oldLast newLast line then chomp line
      else line) :: claimLines lines

/-- The steps of a hunk as they are read back; `later` are those of the hunks behind it. -/
def claimSteps (later : List (Step (List Char))) : List (Step (List Char)) → List (Step (List Char))
  | [] => []
  | step :: steps =>
    (if step ∉ steps ++ later ∧
        matchesLast oldMissing newMissing oldLast newLast (diffLine step) then chompStep step
      else step) :: claimSteps later steps

variable {oldMissing newMissing : Bool} {oldLast newLast : List Char}

theorem isMarker_noNewlineMarker : isMarker noNewlineMarker = true := rfl

variable {lines : List (List Char)} {step : Step (List Char)}

theorem unmark_cons {line : List Char} (h : ∀ next ∈ lines.head?, isMarker next = false) :
    unmark (line :: lines) = line :: unmark lines := by
  cases lines with
  | nil => rfl
  | cons next lines =>
    rw [unmark, h next rfl]
    rfl

theorem claimLines_cons (line : List Char) (lines : List (List Char)) :
    claimLines oldMissing newMissing oldLast newLast (line :: lines) =
      (if line ∉ lines ∧ matchesLast oldMissing newMissing oldLast newLast line then chomp line
        else line) :: claimLines oldMissing newMissing oldLast newLast lines := rfl

theorem unmark_annotate (h : ∀ line ∈ lines, isMarker line = false) :
    unmark (annotate oldMissing newMissing oldLast newLast lines) =
      claimLines oldMissing newMissing oldLast newLast lines := by
  induction lines with
  | nil => rfl
  | cons line lines ih =>
    have hrest := ih fun other hother => h other (mem_cons_of_mem _ hother)
    rw [annotate, claimLines_cons]
    split_ifs with hmark
    · rw [unmark, isMarker_noNewlineMarker, if_pos rfl, hrest]
    · rw [unmark_cons, hrest]
      intro next hnext
      cases lines with
      | nil => exact nomatch hnext
      | cons other lines =>
        have hother := h other (mem_cons_of_mem _ mem_cons_self)
        rw [annotate] at hnext
        split_ifs at hnext
        · exact some.inj hnext ▸ hother
        · exact some.inj hnext ▸ hother

theorem annotate_none (lines : List (List Char)) :
    annotate false false oldLast newLast lines = lines := by
  induction lines with
  | nil => rfl
  | cons line lines ih =>
    rw [annotate, ih, if_neg]
    rintro ⟨-, hmatch⟩
    exact Bool.false_ne_true hmatch

theorem diffLine_injective {other : Step (List Char)} (h : diffLine step = diffLine other) :
    step = other := by
  cases step <;> cases other <;> simp_all [diffLine]

def Ended (line : List Char) : Prop := ∃ front, '\n' ∉ front ∧ line = front ++ ['\n']

def lineOf : Step (List Char) → List Char
  | .keep line => line
  | .remove line => line
  | .add line => line

theorem chomp_diffLine (h : Ended (lineOf step)) :
    chomp (diffLine step) = diffLine (chompStep step) := by
  have hcons : ∀ (c : Char) {line : List Char}, Ended line → chomp (c :: line) = c :: chomp line := by
    rintro c line ⟨front, -, rfl⟩
    rw [chomp_ended, ← cons_append, chomp_ended]
  cases step with
  | keep line => exact hcons ' ' h
  | remove line => exact hcons '-' h
  | add line => exact hcons '+' h

theorem claimLines_body {steps later : List (Step (List Char))} {lines : List (List Char)}
    (hsteps : ∀ step ∈ steps, Ended (lineOf step))
    (hlines : ∀ step, diffLine step ∈ lines ↔ step ∈ later) :
    claimLines oldMissing newMissing oldLast newLast (steps.map diffLine ++ lines) =
      (claimSteps oldMissing newMissing oldLast newLast later steps).map diffLine ++
        claimLines oldMissing newMissing oldLast newLast lines := by
  induction steps with
  | nil => rfl
  | cons step steps ih =>
    have hmem : diffLine step ∈ steps.map diffLine ++ lines ↔ step ∈ steps ++ later := by
      rw [mem_append, mem_append, hlines, mem_map]
      constructor
      · rintro (⟨other, hother, heq⟩ | hlater)
        · exact .inl (diffLine_injective heq ▸ hother)
        · exact .inr hlater
      · rintro (hstep | hlater)
        · exact .inl ⟨step, hstep, rfl⟩
        · exact .inr hlater
    rw [map_cons, cons_append, claimLines_cons, claimSteps,
      ih fun other hother => hsteps other (mem_cons_of_mem _ hother), map_cons, cons_append]
    simp only [hmem]
    split_ifs
    · rw [chomp_diffLine (hsteps step mem_cons_self)]
    · rfl

end Script

section Run

theorem olds_claimSteps_length (oldMissing newMissing : Bool) (oldLast newLast : List Char)
    (later steps : List (Step (List Char))) :
    (olds (claimSteps oldMissing newMissing oldLast newLast later steps)).length =
        (olds steps).length ∧
      (news (claimSteps oldMissing newMissing oldLast newLast later steps)).length =
        (news steps).length := by
  induction steps with
  | nil => exact ⟨rfl, rfl⟩
  | cons step steps ih =>
    rw [claimSteps]
    cases step <;> split_ifs <;>
      simpa only [olds, news, filterMap_cons, Step.old?, Step.new?, chompStep,
        length_cons, Nat.add_right_cancel_iff] using ih

variable (position : ℕ) (first line : List Char) (unread output : List (List Char))
  (oldLeft newLeft : ℕ)

theorem applyLine_keep :
    applyLine ⟨position, first :: unread, output, oldLeft + 1, newLeft + 1⟩ (diffLine (.keep line)) =
      if line = first then some ⟨position + 1, unread, output ++ [first], oldLeft, newLeft⟩
      else none := rfl

theorem applyLine_remove :
    applyLine ⟨position, first :: unread, output, oldLeft + 1, newLeft⟩ (diffLine (.remove line)) =
      if line = first then some ⟨position + 1, unread, output, oldLeft, newLeft⟩ else none := rfl

theorem applyLine_add :
    applyLine ⟨position, unread, output, oldLeft, newLeft + 1⟩ (diffLine (.add line)) =
      some ⟨position, unread, output ++ [line], oldLeft, newLeft⟩ := by
  rw [applyLine, if_neg fun h => nomatch h.2]
  rfl

theorem foldlM_body (steps : List (Step (List Char))) :
    (steps.map diffLine).foldlM applyLine
        ⟨position, unread, output, (olds steps).length, (news steps).length⟩ =
      if olds steps <+: unread then
        some ⟨position + (olds steps).length, unread.drop (olds steps).length,
          output ++ news steps, 0, 0⟩
      else none := by
  induction steps generalizing position unread output with
  | nil => simp [olds, news]
  | cons step steps ih =>
    rw [map_cons, foldlM_cons, bind_eq_bind]
    cases step with
    | keep line =>
      have holds : olds (.keep line :: steps) = line :: olds steps := rfl
      have hnews : news (.keep line :: steps) = line :: news steps := rfl
      rw [holds, hnews]
      cases unread with
      | nil => rfl
      | cons first unread =>
        rw [length_cons, length_cons, applyLine_keep]
        by_cases hline : line = first
        · subst hline
          rw [if_pos rfl, bind_some, ih]
          simp only [cons_prefix_cons, true_and, drop_succ_cons, append_assoc,
            singleton_append, Nat.add_assoc, Nat.add_comm 1]
        · rw [if_neg hline, if_neg fun h => hline (cons_prefix_cons.mp h).1]
          rfl
    | remove line =>
      have holds : olds (.remove line :: steps) = line :: olds steps := rfl
      have hnews : news (.remove line :: steps) = news steps := rfl
      rw [holds, hnews]
      cases unread with
      | nil => rfl
      | cons first unread =>
        rw [length_cons, applyLine_remove]
        by_cases hline : line = first
        · subst hline
          rw [if_pos rfl, bind_some, ih]
          simp only [cons_prefix_cons, true_and, drop_succ_cons, Nat.add_assoc, Nat.add_comm 1]
        · rw [if_neg hline, if_neg fun h => hline (cons_prefix_cons.mp h).1]
          rfl
    | add line =>
      have holds : olds (.add line :: steps) = olds steps := rfl
      have hnews : news (.add line :: steps) = line :: news steps := rfl
      rw [holds, hnews, length_cons, applyLine_add, bind_some, ih]
      simp only [append_assoc, singleton_append]

end Run

section Walk

variable (oldMissing newMissing : Bool) (oldLast newLast : List Char)

def groupStart (group : List Opcode) : ℕ := (group.head?.map Opcode.oldStart).getD 0

def groupStop (group : List Opcode) : ℕ := (group.getLast?.map Opcode.oldEnd).getD 0

/-- The script from a position on, each step with whether a hunk shows it. -/
def walk (old new : List (List Char)) : ℕ → List (List Opcode) → List (Step (List Char) × Bool)
  | i, [] => (old.drop i).map fun line => (.keep line, false)
  | i, group :: groups =>
    ((slice old i (groupStart group)).map fun line => (.keep line, false)) ++
      (((script old new group).map fun step => (step, true)) ++
        walk old new (groupStop group) groups)

def steps (items : List (Step (List Char) × Bool)) : List (Step (List Char)) := items.map Prod.fst

def shownSteps (items : List (Step (List Char) × Bool)) : List (Step (List Char)) :=
  items.filterMap fun item => if item.2 then some item.1 else none

/-- Whether a step has lost its newline when the patch is read back: a shown one by a marker, a
hidden one as the old text has it. -/
def Unended (rest : List (Step (List Char) × Bool)) (item : Step (List Char) × Bool) : Prop :=
  item.2 = true ∧ item.1 ∉ shownSteps rest ∧
      matchesLast oldMissing newMissing oldLast newLast (diffLine item.1) = true ∨
    item.2 = false ∧ oldMissing = true ∧ olds (steps rest) = []

instance (rest : List (Step (List Char) × Bool)) (item : Step (List Char) × Bool) :
    Decidable (Unended oldMissing newMissing oldLast newLast rest item) :=
  inferInstanceAs (Decidable (_ ∨ _))

/-- The script that the patch stands for. -/
def settle : List (Step (List Char) × Bool) → List (Step (List Char))
  | [] => []
  | item :: rest =>
    (if Unended oldMissing newMissing oldLast newLast rest item then chompStep item.1
      else item.1) :: settle rest

/-- Lines, the last one without its newline if that is missing. -/
def real (missing : Bool) : List (List Char) → List (List Char)
  | [] => []
  | line :: lines => (if missing = true ∧ lines = [] then chomp line else line) :: real missing lines

variable {oldMissing newMissing : Bool} {oldLast newLast : List Char} (missing : Bool)
  (front back : List (Step (List Char) × Bool)) (shown : List (Step (List Char)))
  (kept : List (List Char))

@[simp] theorem length_real (lines : List (List Char)) :
    (real missing lines).length = lines.length := by
  induction lines with
  | nil => rfl
  | cons line lines ih => rw [real, length_cons, ih, length_cons]

theorem real_false (lines : List (List Char)) : real false lines = lines := by
  induction lines with
  | nil => rfl
  | cons line lines ih => rw [real, ih, if_neg fun h => Bool.false_ne_true h.1]

theorem real_append (front back : List (List Char)) :
    real missing (front ++ back) = real (missing && back.isEmpty) front ++ real missing back := by
  induction front with
  | nil => rfl
  | cons line front ih =>
    rw [cons_append, real, real, ih, cons_append]
    congr 1
    simp only [append_eq_nil_iff, Bool.and_eq_true, List.isEmpty_iff]
    congr 1
    exact propext ⟨fun h => ⟨⟨h.1, h.2.2⟩, h.2.1⟩, fun h => ⟨h.1.1, h.2, h.1.2⟩⟩

theorem shownSteps_append :
    shownSteps (front ++ back) = shownSteps front ++ shownSteps back := filterMap_append

theorem shownSteps_shown : shownSteps (shown.map fun step => (step, true)) = shown := by
  induction shown with
  | nil => rfl
  | cons step shown ih => exact congrArg _ ih

theorem shownSteps_hidden : shownSteps (kept.map fun line => (.keep line, false)) = [] := by
  induction kept with
  | nil => rfl
  | cons line kept ih => exact ih

@[simp] theorem steps_append : steps (front ++ back) = steps front ++ steps back := map_append

@[simp] theorem steps_shown : steps (shown.map fun step => (step, true)) = shown := by
  rw [steps, map_map]
  exact map_id _

@[simp] theorem steps_hidden :
    steps (kept.map fun line => (.keep line, false)) = kept.map Step.keep := by
  rw [steps, map_map]
  rfl

theorem settle_shown (rest : List (Step (List Char) × Bool)) :
    settle oldMissing newMissing oldLast newLast ((shown.map fun step => (step, true)) ++ rest) =
      claimSteps oldMissing newMissing oldLast newLast (shownSteps rest) shown ++
        settle oldMissing newMissing oldLast newLast rest := by
  induction shown with
  | nil => rfl
  | cons step shown ih =>
    rw [map_cons, cons_append, settle, ih, claimSteps, cons_append]
    congr 2
    rw [Unended, shownSteps_append, shownSteps_shown]
    simp

theorem settle_hidden (kept : List (List Char)) (rest : List (Step (List Char) × Bool)) :
    settle oldMissing newMissing oldLast newLast
        ((kept.map fun line => (.keep line, false)) ++ rest) =
      (real (oldMissing && (olds (steps rest)).isEmpty) kept).map Step.keep ++
        settle oldMissing newMissing oldLast newLast rest := by
  induction kept with
  | nil => rfl
  | cons line kept ih =>
    rw [map_cons, cons_append, settle, ih, real, map_cons, cons_append]
    congr 1
    have hiff : Unended oldMissing newMissing oldLast newLast
        ((kept.map fun line => (.keep line, false)) ++ rest) (.keep line, false) ↔
          (oldMissing && (olds (steps rest)).isEmpty) = true ∧ kept = [] := by
      rw [Unended, steps_append, steps_hidden, olds_append, olds_keep, append_eq_nil_iff,
        Bool.and_eq_true, List.isEmpty_iff]
      constructor
      · rintro (⟨h, -⟩ | ⟨-, hmissing, hkept, hrest⟩)
        · exact absurd h Bool.false_ne_true
        · exact ⟨⟨hmissing, hrest⟩, hkept⟩
      · rintro ⟨⟨hmissing, hrest⟩, hkept⟩
        exact .inr ⟨rfl, hmissing, hkept, hrest⟩
    split_ifs <;> tauto

def hunksLines (old new : List (List Char)) (groups : List (List Opcode)) : List (List Char) :=
  groups.flatMap fun group => hunkHeader group :: (script old new group).map diffLine

theorem shownSteps_walk (old new : List (List Char)) (groups : List (List Opcode)) (i : ℕ) :
    shownSteps (walk old new i groups) = groups.flatMap (script old new) := by
  induction groups generalizing i with
  | nil => exact shownSteps_hidden _
  | cons group groups ih =>
    rw [walk, shownSteps_append, shownSteps_append, shownSteps_hidden, shownSteps_shown, ih]
    rfl

variable {group : List Opcode}

theorem head?_hunkHeader (h : group ≠ []) : (hunkHeader group).head? = some '@' := by
  obtain ⟨first, codes, rfl⟩ := exists_cons_of_ne_nil h
  rfl

theorem head?_diffLine_ne (step : Step (List Char)) : (diffLine step).head? ≠ some '@' := by
  cases step <;> exact fun h => absurd (some.inj h) (by decide)

theorem diffLine_mem_hunksLines {old new : List (List Char)} {groups : List (List Opcode)}
    (h : ∀ group ∈ groups, group ≠ []) (step : Step (List Char)) :
    diffLine step ∈ hunksLines old new groups ↔ step ∈ groups.flatMap (script old new) := by
  rw [hunksLines, mem_flatMap, mem_flatMap]
  constructor
  · rintro ⟨group, hgroup, hline⟩
    refine ⟨group, hgroup, ?_⟩
    rcases mem_cons.mp hline with heq | hline
    · exact absurd (heq ▸ head?_hunkHeader (h group hgroup)) (head?_diffLine_ne step)
    · obtain ⟨other, hother, heq⟩ := mem_map.mp hline
      exact diffLine_injective heq ▸ hother
  · rintro ⟨group, hgroup, hstep⟩
    exact ⟨group, hgroup, mem_cons_of_mem _ (mem_map.mpr ⟨step, hstep, rfl⟩)⟩

theorem claimLines_header (h : group ≠ []) (lines : List (List Char)) :
    claimLines oldMissing newMissing oldLast newLast (hunkHeader group :: lines) =
      hunkHeader group :: claimLines oldMissing newMissing oldLast newLast lines := by
  have hhead := head?_hunkHeader h
  have hnone : matchesLast oldMissing newMissing oldLast newLast (hunkHeader group) = false := by
    obtain ⟨rest, hrest⟩ := head?_eq_some_iff.mp hhead
    simp [matchesLast, hrest]
  rw [claimLines_cons, if_neg]
  rintro ⟨-, hmatch⟩
  exact Bool.false_ne_true (hnone.symm.trans hmatch)

theorem applyLine_header {group : List Opcode} {first last : Opcode} {kept old new : List (List Char)}
    {i : ℕ} (hfirst : group.head? = some first) (hlast : group.getLast? = some last)
    (hstart : first.oldStart = i + kept.length)
    (hstop : last.oldEnd = i + kept.length + old.length)
    (hnew : last.newEnd = first.newStart + new.length) (unread output : List (List Char))
    (hunread : kept.length ≤ unread.length) :
    applyLine ⟨i, unread, output, 0, 0⟩ (hunkHeader group) =
      some ⟨i + kept.length, unread.drop kept.length, output ++ unread.take kept.length,
        old.length, new.length⟩ := by
  have hold : last.oldEnd - first.oldStart = old.length := by omega
  have hnews : last.newEnd - first.newStart = new.length := by omega
  rw [applyLine, if_pos ⟨rfl, rfl⟩, beginHunk, readHunkHeader_hunkHeader hfirst hlast]
  dsimp only
  have hposition : (if last.oldEnd - first.oldStart = 0 then
      rangeStart first.oldStart last.oldEnd else rangeStart first.oldStart last.oldEnd - 1) =
        i + kept.length := by
    rw [rangeStart]
    split_ifs <;> omega
  rw [hposition, Nat.add_sub_cancel_left, if_pos ⟨Nat.le_add_right _ _, hunread⟩, hold, hnews]

/-- What is left when the lines of a patch are read. -/
def finish (s : Applying) : Option (List (List Char)) :=
  if s.oldLeft = 0 ∧ s.newLeft = 0 then some (s.output ++ s.unread) else none

theorem walk_hunk {i j : ℕ} {kept old new old' new' : List (List Char)} {group : List Opcode}
    (hne : group ≠ []) (hgroup : Turns (i + kept.length) (j + kept.length) old new group)
    {front front' : List (List Char)} (hi : front.length = i) (hj : front'.length = j)
    (groups : List (List Opcode)) :
    ∃ shown, script (front ++ (kept ++ (old ++ old'))) (front' ++ (kept ++ (new ++ new'))) group =
        shown ∧ olds shown = old ∧ news shown = new ∧
      walk (front ++ (kept ++ (old ++ old'))) (front' ++ (kept ++ (new ++ new'))) i
          (group :: groups) =
        (kept.map fun line => (.keep line, false)) ++
          ((shown.map fun step => (step, true)) ++
            walk (front ++ (kept ++ (old ++ old'))) (front' ++ (kept ++ (new ++ new')))
              (i + kept.length + old.length) groups) := by
  obtain ⟨first, last, hfirst, hlast, hstart, -, hstop, -⟩ := hgroup.ends hne
  have hfront : (front ++ kept).length = i + kept.length := by rw [length_append, hi]
  have hfront' : (front' ++ kept).length = j + kept.length := by rw [length_append, hj]
  have hscript := @Turns.script_eq _ _ _ _ _ _ hgroup _ old' _ new' hfront hfront'
  rw [append_assoc, append_assoc] at hscript
  refine ⟨_, rfl, hscript.1, hscript.2, ?_⟩
  rw [walk, groupStart, groupStop, hfirst, hlast, map_some, getD_some, map_some,
    getD_some, hstart, hstop, slice_append hi]

theorem steps_walk {i j : ℕ} {old new : List (List Char)} {groups : List (List Opcode)}
    (h : Hunks i j old new groups) {front front' : List (List Char)} (hi : front.length = i)
    (hj : front'.length = j) :
    olds (steps (walk (front ++ old) (front' ++ new) i groups)) = old ∧
      news (steps (walk (front ++ old) (front' ++ new) i groups)) = new := by
  induction h generalizing front front' with
  | done kept =>
    rw [walk, ← hi, drop_left, steps_hidden, olds_keep, news_keep]
    exact ⟨rfl, rfl⟩
  | @hunk i j old new old' new' group groups kept hne hgroup rest ih =>
    obtain ⟨shown, -, hold, hnew, hwalk⟩ := @walk_hunk i j kept old new old' new' group hne hgroup
      front front' hi hj groups
    have hfront : (front ++ kept ++ old).length = i + kept.length + old.length := by
      rw [length_append, length_append, hi]
    have hfront' : (front' ++ kept ++ new).length = j + kept.length + new.length := by
      rw [length_append, length_append, hj]
    have hrest := ih hfront hfront'
    simp only [append_assoc] at hrest
    rw [hwalk, steps_append, steps_append, steps_hidden, steps_shown]
    simp only [olds_append, news_append, olds_keep, news_keep, hold, hnew, hrest, and_self]

theorem lineOf_mem {shown : List (Step (List Char))} {step : Step (List Char)} (h : step ∈ shown) :
    lineOf step ∈ olds shown ∨ lineOf step ∈ news shown := by
  cases step with
  | keep | remove => exact .inl (mem_filterMap.mpr ⟨_, h, rfl⟩)
  | add line => exact .inr (mem_filterMap.mpr ⟨_, h, rfl⟩)

theorem foldlM_hunks {i j : ℕ} {old new : List (List Char)} {groups : List (List Opcode)}
    (h : Hunks i j old new groups) {front front' : List (List Char)} (hi : front.length = i)
    (hj : front'.length = j) (hold : ∀ line ∈ old, Ended line) (hnew : ∀ line ∈ new, Ended line)
    (output : List (List Char)) :
    ((claimLines oldMissing newMissing oldLast newLast
        (hunksLines (front ++ old) (front' ++ new) groups)).foldlM applyLine
          ⟨i, real oldMissing old, output, 0, 0⟩).bind finish =
      if olds (settle oldMissing newMissing oldLast newLast
          (walk (front ++ old) (front' ++ new) i groups)) = real oldMissing old then
        some (output ++ news (settle oldMissing newMissing oldLast newLast
          (walk (front ++ old) (front' ++ new) i groups)))
      else none := by
  induction h generalizing front front' output with
  | @done i j kept =>
    have hsettle := @settle_hidden oldMissing newMissing oldLast newLast kept []
    have hlast : (oldMissing && (olds (steps [])).isEmpty) = oldMissing := Bool.and_true _
    rw [append_nil, hlast, settle, append_nil] at hsettle
    rw [walk, ← hi, drop_left, hsettle, olds_keep, news_keep, if_pos rfl]
    rfl
  | @hunk i j old new old' new' group groups kept hne hgroup rest ih =>
    obtain ⟨shown, hscript, holds, hnews, hwalk⟩ := @walk_hunk i j kept old new old' new' group hne
      hgroup front front' hi hj groups
    obtain ⟨first, last, hfirst, hlast, hstart, hstart', hstop, hstop'⟩ := hgroup.ends hne
    have hfront : (front ++ kept ++ old).length = i + kept.length + old.length := by
      rw [length_append, length_append, hi]
    have hfront' : (front' ++ kept ++ new).length = j + kept.length + new.length := by
      rw [length_append, length_append, hj]
    have hrest := ih hfront hfront'
      (fun line hline => hold line (mem_append_right _ (mem_append_right _ hline)))
      (fun line hline => hnew line (mem_append_right _ (mem_append_right _ hline)))
    have hsteps := (steps_walk rest hfront hfront').1
    simp only [append_assoc] at hrest hsteps
    have hended : ∀ step ∈ shown, Ended (lineOf step) := by
      intro step hstep
      rcases lineOf_mem hstep with hline | hline
      · exact hold _ (mem_append_right _ (mem_append_left _ (holds ▸ hline)))
      · exact hnew _ (mem_append_right _ (mem_append_left _ (hnews ▸ hline)))
    generalize front ++ (kept ++ (old ++ old')) = O at hscript hwalk hrest hsteps ⊢
    generalize front' ++ (kept ++ (new ++ new')) = N at hscript hwalk hrest hsteps ⊢
    have hbody := @claimLines_body oldMissing newMissing oldLast newLast shown _ _ hended
      (@diffLine_mem_hunksLines O N groups rest.ne_nil)
    rw [← shownSteps_walk O N groups (i + kept.length + old.length)] at hbody
    have hlines : hunksLines O N (group :: groups) =
        hunkHeader group :: (shown.map diffLine ++ hunksLines O N groups) := by
      rw [hunksLines, flatMap_cons, hscript]
      rfl
    have hkept : real oldMissing (kept ++ (old ++ old')) =
        real (oldMissing && (old ++ old').isEmpty) kept ++
          (real (oldMissing && old'.isEmpty) old ++ real oldMissing old') := by
      rw [real_append, real_append oldMissing old]
    have hsettle := @settle_hidden oldMissing newMissing oldLast newLast kept
      ((shown.map fun step => (step, true)) ++ walk O N (i + kept.length + old.length) groups)
    rw [settle_shown, steps_append, steps_shown, olds_append, holds, hsteps] at hsettle
    obtain ⟨hclaimed, hclaimed'⟩ := olds_claimSteps_length oldMissing newMissing oldLast newLast
      (shownSteps (walk O N (i + kept.length + old.length) groups)) shown
    rw [holds] at hclaimed
    rw [hnews] at hclaimed'
    have hhead := @applyLine_header group first last kept old new i hfirst hlast hstart hstop
      (by rw [hstop', hstart']) (real oldMissing (kept ++ (old ++ old'))) output (by simp)
    rw [hlines, claimLines_header hne, hbody, foldlM_cons, bind_eq_bind, hhead,
      bind_some, foldlM_append, bind_eq_bind, hwalk, hsettle, hkept]
    generalize walk O N (i + kept.length + old.length) groups = more at *
    generalize claimSteps oldMissing newMissing oldLast newLast (shownSteps more) shown =
      claimed at *
    have hlength : (real (oldMissing && (old ++ old').isEmpty) kept).length = kept.length :=
      length_real _ _
    have hlength' : (real (oldMissing && old'.isEmpty) old).length = old.length := length_real _ _
    generalize real (oldMissing && (old ++ old').isEmpty) kept = realKept at *
    generalize real (oldMissing && old'.isEmpty) old = realOld at *
    rw [← hlength, drop_left, take_left, hlength]
    have hrun := foldlM_body (i + kept.length) (realOld ++ real oldMissing old')
      (output ++ realKept) claimed
    rw [hclaimed, hclaimed'] at hrun
    rw [hrun]
    by_cases hclaim : olds claimed = realOld
    · rw [if_pos (hclaim ▸ prefix_append _ _), bind_some, ← hlength', drop_left,
        hlength', hrest]
      simp only [olds_append, news_append, olds_keep, news_keep, hclaim, append_cancel_left_eq,
        append_assoc]
    · have hprefix : ¬ olds claimed <+: realOld ++ real oldMissing old' := by
        rintro ⟨back, hback⟩
        exact hclaim (append_inj hback (hclaimed.trans hlength'.symm)).1
      have hwhole : ¬ olds (realKept.map Step.keep ++ (claimed ++
          settle oldMissing newMissing oldLast newLast more)) =
            realKept ++ (realOld ++ real oldMissing old') := by
        rw [olds_append, olds_append, olds_keep, append_cancel_left_eq]
        exact fun heq => hclaim (append_inj heq (hclaimed.trans hlength'.symm)).1
      rw [if_neg hprefix, if_neg hwhole]
      rfl

end Walk

section Patch

variable {lines tokens : List (List Char)}

theorem Ended.lined (h : ∀ line ∈ lines, Ended line) : Lined lines := by
  induction lines with
  | nil => exact .nil
  | cons line lines ih =>
    obtain ⟨front, hfront, rfl⟩ := h line mem_cons_self
    exact .ended hfront (ih fun other hother => h other (mem_cons_of_mem _ hother))

theorem Ended.cons {c : Char} {line : List Char} (h : Ended line) (hc : c ≠ '\n') :
    Ended (c :: line) := by
  obtain ⟨front, hfront, rfl⟩ := h
  refine ⟨c :: front, ?_, rfl⟩
  intro hmem
  rcases mem_cons.mp hmem with heq | hmem
  · exact hc heq.symm
  · exact hfront hmem

theorem ended_diffLine {step : Step (List Char)} (h : Ended (lineOf step)) :
    Ended (diffLine step) := by
  cases step with
  | keep | remove | add => exact Ended.cons h (by decide)

theorem ended_noNewlineMarker : Ended noNewlineMarker :=
  ⟨"\\ No newline at end of file".toList, by decide, by decide⟩

theorem newline_notMem_str (n : ℕ) : '\n' ∉ str n := fun h =>
  absurd (Nat.isDigit_of_mem_toDigits (by omega) (by omega) h) (by decide)

theorem newline_notMem_formatRangeUnified (start stop : ℕ) :
    '\n' ∉ formatRangeUnified start stop := by
  have hcomma : ∀ n m, '\n' ∉ str n ++ ',' :: str m := by
    intro n m hmem
    rcases mem_append.mp hmem with hmem | hmem
    · exact newline_notMem_str n hmem
    · rcases mem_cons.mp hmem with heq | hmem
      · exact absurd heq (by decide)
      · exact newline_notMem_str m hmem
  rw [formatRangeUnified]
  split_ifs
  · exact newline_notMem_str _
  · exact hcomma _ _
  · exact hcomma _ _

theorem ended_hunkHeader {group : List Opcode} (h : group ≠ []) : Ended (hunkHeader group) := by
  obtain ⟨first, codes, rfl⟩ := exists_cons_of_ne_nil h
  obtain ⟨last, hlast⟩ : ∃ last, (first :: codes).getLast? = some last :=
    ⟨_, getLast?_eq_some_getLast h⟩
  refine ⟨"@@ -".toList ++ (formatRangeUnified first.oldStart last.oldEnd ++ (" +".toList ++
    (formatRangeUnified first.newStart last.newEnd ++ " @@".toList))), ?_, ?_⟩
  · intro hmem
    rcases mem_append.mp hmem with hmem | hmem
    · exact absurd hmem (by decide)
    rcases mem_append.mp hmem with hmem | hmem
    · exact newline_notMem_formatRangeUnified _ _ hmem
    rcases mem_append.mp hmem with hmem | hmem
    · exact absurd hmem (by decide)
    rcases mem_append.mp hmem with hmem | hmem
    · exact newline_notMem_formatRangeUnified _ _ hmem
    · exact absurd hmem (by decide)
  · rw [hunkHeader, hlast]
    simp only [head?_cons, append_assoc]
    rfl

variable {oldMissing newMissing : Bool} {oldLast newLast : List Char}

theorem ended_annotate (h : ∀ line ∈ lines, Ended line) :
    ∀ line ∈ annotate oldMissing newMissing oldLast newLast lines, Ended line := by
  induction lines with
  | nil => exact nofun
  | cons line lines ih =>
    have hrest := ih fun other hother => h other (mem_cons_of_mem _ hother)
    intro other hother
    rw [annotate] at hother
    split_ifs at hother
    · rcases mem_cons.mp hother with rfl | hother
      · exact h _ mem_cons_self
      rcases mem_cons.mp hother with rfl | hother
      · exact ended_noNewlineMarker
      · exact hrest other hother
    · rcases mem_cons.mp hother with rfl | hother
      · exact h _ mem_cons_self
      · exact hrest other hother

theorem skipMarker_annotate (line : List Char)
    (h : (annotate oldMissing newMissing oldLast newLast lines).flatten.head? ≠ some '\\') :
    ∃ rest, (annotate oldMissing newMissing oldLast newLast (line :: lines)).flatten = line ++ rest ∧
      skipMarker rest = (annotate oldMissing newMissing oldLast newLast lines).flatten := by
  rw [annotate]
  split_ifs
  · refine ⟨_, by rw [flatten_cons, flatten_cons], ?_⟩
    rfl
  · refine ⟨_, by rw [flatten_cons], ?_⟩
    rw [skipMarker, if_neg h]

theorem head?_annotate {line : List Char} {lines : List (List Char)} {c : Char}
    (h : line.head? = some c) :
    (annotate oldMissing newMissing oldLast newLast (line :: lines)).flatten.head? = some c := by
  obtain ⟨rest, rfl⟩ := head?_eq_some_iff.mp h
  rw [annotate]
  split_ifs <;> rfl

theorem hunkLines_annotate (path : List Char) {lines : List (List Char)} {first : List Char}
    (hfirst : lines.head? = some first) (hhead : first.head? = some '@')
    (hended : ∀ line ∈ lines, Ended line) (hmarker : ∀ line ∈ lines, isMarker line = false) :
    hunkLines path (annotate oldMissing newMissing oldLast newLast
        (("--- ".toList ++ path ++ ['\n']) :: ("+++ ".toList ++ path ++ ['\n']) :: lines)).flatten =
      some (claimLines oldMissing newMissing oldLast newLast lines) := by
  obtain ⟨more, rfl⟩ := head?_eq_some_iff.mp hfirst
  have hat : (annotate oldMissing newMissing oldLast newLast (first :: more)).flatten.head? ≠
      some '\\' := by
    rw [head?_annotate hhead]
    decide
  have hplus : (annotate oldMissing newMissing oldLast newLast
      (("+++ ".toList ++ path ++ ['\n']) :: first :: more)).flatten.head? ≠ some '\\' := by
    rw [head?_annotate (c := '+') rfl]
    decide
  obtain ⟨rest, hrest, hskip⟩ := skipMarker_annotate ("--- ".toList ++ path ++ ['\n']) hplus
  obtain ⟨rest', hrest', hskip'⟩ := skipMarker_annotate ("+++ ".toList ++ path ++ ['\n']) hat
  rw [hunkLines, hrest, dropPrefix?_append, bind_eq_bind, bind_some, hskip, hrest',
    dropPrefix?_append, bind_some, hskip',
    (Ended.lined (ended_annotate hended)).split_flatten, unmark_annotate hmarker]

variable {front oldTokens newTokens : List (List Char)} {last : List Char}
   {getOpcodes : List (List Char) → List (List Char) → List Opcode}

theorem Lined.ended_dropLast (h : Lined tokens) (htokens : tokens = front ++ [last]) :
    ∀ line ∈ front, Ended line := by
  induction h generalizing front with
  | nil => exact absurd (congrArg length htokens) (by simp)
  | unended _ _ =>
    have hlength := congrArg length htokens
    rw [length_append, length_singleton, length_singleton] at hlength
    rw [length_eq_zero_iff.mp (by omega : front.length = 0)]
    exact nofun
  | @ended line lines hfree hlines ih =>
    cases front with
    | nil => exact nofun
    | cons first front =>
      obtain ⟨rfl, hrest⟩ := cons.inj htokens
      intro other hother
      rcases mem_cons.mp hother with rfl | hother
      · exact ⟨line, hfree, rfl⟩
      · exact ih hrest other hother

theorem Lined.last_free (h : Lined tokens) (htokens : tokens = front ++ [last]) :
    Ended last ∨ '\n' ∉ last ∧ last ≠ [] := by
  subst htokens
  have hlast := LineTokens.Lined.right h
  generalize hsingle : [last] = single at hlast
  cases hlast with
  | nil => exact nomatch hsingle
  | unended hne hfree =>
    obtain rfl := singleton_inj.mp hsingle
    exact .inr ⟨hfree, hne⟩
  | @ended line lines hfree _ =>
    obtain ⟨rfl, -⟩ := cons.inj hsingle
    exact .inl ⟨line, hfree, rfl⟩

theorem completed_spec (h : Lined tokens) : (∀ line ∈ completed tokens, Ended line) ∧
      real (missingNewline tokens) (completed tokens) = tokens := by
  rcases eq_nil_or_concat tokens with rfl | ⟨front, last, htokens⟩
  · exact ⟨(nofun), rfl⟩
  · rw [concat_eq_append] at htokens
    have hfront := Lined.ended_dropLast h htokens
    have hmissing : missingNewline tokens = decide (last.getLast? ≠ some '\n') := by
      rw [missingNewline, htokens, getLast?_concat]
      rfl
    rw [completed, hmissing, htokens, getLast?_concat]
    rcases Lined.last_free h htokens with hended | ⟨hfree, -⟩
    · obtain ⟨line, hfree, rfl⟩ := hended
      have hno : decide ((line ++ ['\n']).getLast? ≠ some '\n') = false := by
        rw [getLast?_concat]
        rfl
      rw [hno, real_false]
      refine ⟨?_, rfl⟩
      intro other hother
      rcases mem_append.mp hother with hother | hother
      · exact hfront other hother
      · exact ⟨line, hfree, mem_singleton.mp hother⟩
    · have hyes : decide (last.getLast? ≠ some '\n') = true :=
        decide_eq_true fun hlast => hfree (mem_of_getLast? hlast)
      rw [hyes]
      simp only [if_true, dropLast_concat]
      constructor
      · intro other hother
        rcases mem_append.mp hother with hother | hother
        · exact hfront other hother
        · exact ⟨last, hfree, mem_singleton.mp hother⟩
      · rw [real_append, isEmpty_cons, Bool.and_false, real_false, real, if_pos ⟨rfl, rfl⟩,
          chomp_ended, real]

theorem Hunks.ended {old new : List (List Char)} {groups : List (List Opcode)}
    (h : Hunks 0 0 old new groups) (hold : ∀ line ∈ old, Ended line)
    (hnew : ∀ line ∈ new, Ended line) : ∀ line ∈ hunksLines old new groups, Ended line := by
  have hsteps := @steps_walk _ _ _ _ _ h [] [] rfl rfl
  intro line hline
  obtain ⟨group, hgroup, hmem⟩ := mem_flatMap.mp hline
  rcases mem_cons.mp hmem with rfl | hmem
  · exact ended_hunkHeader (h.ne_nil group hgroup)
  · obtain ⟨step, hstep, rfl⟩ := mem_map.mp hmem
    have hshown : step ∈ shownSteps (walk old new 0 groups) := by
      rw [shownSteps_walk]
      exact mem_flatMap.mpr ⟨group, hgroup, hstep⟩
    obtain ⟨item, hitem, heq⟩ := mem_filterMap.mp hshown
    have hmemSteps : step ∈ steps (walk old new 0 groups) := by
      split_ifs at heq
      exact mem_map.mpr ⟨item, hitem, some.inj heq⟩
    apply ended_diffLine
    rcases lineOf_mem hmemSteps with hline | hline
    · exact hold _ (hsteps.1 ▸ hline)
    · exact hnew _ (hsteps.2 ▸ hline)

variable (path : List Char)

theorem applyPatch_hunks
    {old : List (List Char)} {contextLines : ℕ} {text : List Char}
    (hgroups : ∀ group ∈ groupedOpcodes contextLines (getOpcodes oldTokens newTokens), group ≠ [])
    (hended : ∀ line ∈ hunksLines oldTokens newTokens
      (groupedOpcodes contextLines (getOpcodes oldTokens newTokens)), Ended line)
    (htext : splitLinesWithEndings text = old) :
    applyPatch path (annotate oldMissing newMissing oldLast newLast
        (unifiedDiff getOpcodes oldTokens newTokens path contextLines)).flatten text =
      (((claimLines oldMissing newMissing oldLast newLast (hunksLines oldTokens newTokens
        (groupedOpcodes contextLines (getOpcodes oldTokens newTokens)))).foldlM applyLine
          ⟨0, old, [], 0, 0⟩).bind finish).map List.flatten := by
  cases hcodes : groupedOpcodes contextLines (getOpcodes oldTokens newTokens) with
  | nil =>
    rw [unifiedDiff, hcodes]
    have hflatten := flatten_splitLinesWithEndings text
    rw [htext] at hflatten
    exact congrArg some hflatten.symm
  | cons group groups =>
    rw [hcodes] at hgroups hended
    have hgroup := hgroups group mem_cons_self
    have hmarker : ∀ line ∈ hunksLines oldTokens newTokens (group :: groups),
        isMarker line = false := by
      intro line hline
      obtain ⟨other, hother, hmem⟩ := mem_flatMap.mp hline
      rcases mem_cons.mp hmem with rfl | hmem
      · rw [isMarker, head?_hunkHeader (hgroups other hother)]
        rfl
      · obtain ⟨step, -, rfl⟩ := mem_map.mp hmem
        cases step <;> rfl
    have hlines := @hunkLines_annotate oldMissing newMissing oldLast newLast path
      (hunksLines oldTokens newTokens (group :: groups)) (hunkHeader group) rfl
      (head?_hunkHeader hgroup) hended hmarker
    have hne : (annotate oldMissing newMissing oldLast newLast
        (("--- ".toList ++ path ++ ['\n']) :: ("+++ ".toList ++ path ++ ['\n']) ::
          hunksLines oldTokens newTokens (group :: groups))).flatten ≠ [] := by
      intro hnil
      have hhead := @head?_annotate oldMissing newMissing oldLast newLast
        ("--- ".toList ++ path ++ ['\n']) (("+++ ".toList ++ path ++ ['\n']) ::
          hunksLines oldTokens newTokens (group :: groups)) '-' rfl
      rw [hnil] at hhead
      exact nomatch hhead
    have hdiff : unifiedDiff getOpcodes oldTokens newTokens path contextLines =
        ("--- ".toList ++ path ++ ['\n']) :: ("+++ ".toList ++ path ++ ['\n']) ::
          hunksLines oldTokens newTokens (group :: groups) := by
      rw [unifiedDiff, hcodes]
      rfl
    rw [hdiff, applyPatch, if_neg hne, hlines, htext, bind_eq_bind, bind_some]
    cases (claimLines oldMissing newMissing oldLast newLast
      (hunksLines oldTokens newTokens (group :: groups))).foldlM applyLine ⟨0, old, [], 0, 0⟩ with
    | none => rfl
    | some s =>
      simp only [bind_eq_bind, bind_some, finish]
      split_ifs <;> rfl

theorem applyPatch_generateUnifiedPatch
    (path old new : List Char) (contextLines : ℕ)
    (hold : oldTokens = completed (splitLinesWithEndings old))
    (hnew : newTokens = completed (splitLinesWithEndings new))
    (h : Turns 0 0 oldTokens newTokens (getOpcodes oldTokens newTokens))
    {script : List (Step (List Char))}
    (hscript : script = settle (missingNewline (splitLinesWithEndings old))
      (missingNewline (splitLinesWithEndings new)) (oldTokens.getLast?.getD [])
      (newTokens.getLast?.getD []) (walk oldTokens newTokens 0
        (groupedOpcodes contextLines (getOpcodes oldTokens newTokens)))) :
    applyPatch path (generateUnifiedPatch getOpcodes path old new contextLines) old =
      if olds script = splitLinesWithEndings old then some (news script).flatten else none := by
  obtain ⟨hended, hreal⟩ := completed_spec (lined_splitLinesWithEndings old)
  obtain ⟨hended', -⟩ := completed_spec (lined_splitLinesWithEndings new)
  have hpatch : generateUnifiedPatch getOpcodes path old new contextLines =
      (annotate (missingNewline (splitLinesWithEndings old))
        (missingNewline (splitLinesWithEndings new)) (oldTokens.getLast?.getD [])
        (newTokens.getLast?.getD [])
        (unifiedDiff getOpcodes oldTokens newTokens path contextLines)).flatten := by
    rw [generateUnifiedPatch, ← hold, ← hnew]
    by_cases hmissing : (missingNewline (splitLinesWithEndings old) ||
        missingNewline (splitLinesWithEndings new)) = true
    · rw [if_pos hmissing]
    · rw [Bool.not_eq_true, Bool.or_eq_false_iff] at hmissing
      rw [hmissing.1, hmissing.2, annotate_none]
      rfl
  rw [← hold] at hended hreal
  rw [← hnew] at hended'
  have hhunks := hunks_groupedOpcodes contextLines h
  have hrun := @foldlM_hunks (missingNewline (splitLinesWithEndings old))
    (missingNewline (splitLinesWithEndings new)) (oldTokens.getLast?.getD [])
    (newTokens.getLast?.getD []) _ _ _ _ _ hhunks [] [] rfl rfl hended hended' []
  rw [nil_append, nil_append, nil_append, ← hscript, hreal] at hrun
  rw [hpatch, applyPatch_hunks path hhunks.ne_nil ?_ rfl, hrun]
  · split_ifs <;> rfl
  · exact Hunks.ended hhunks hended hended'

end Patch

end Pidrei.PatchReading
