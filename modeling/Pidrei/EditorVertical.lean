import Pidrei.EditorCursor
import Pidrei.Library.Runs

/-!
The cursor of the editor stays on a line and in its text, in every run in which three
things do not happen: a vertical move from a snapped column that is no longer in its line, a
move that skips the rest of a marker from a row that begins further right, and the
deletion of a marker whose renumbering shortens the line by more than the cursor can give.
-/
namespace Pidrei.Editor

open PythonText
open Option (some)

namespace State

variable {s : State}

section Vertical

/-- The column that a snapped cursor came from is one of the current line. -/
def SnapFits (s : State) : Prop :=
  ∀ col ∈ s.snappedFromCursorCol, col ≤ s.buffer.currentLine.length

instance (s : State) : Decidable (SnapFits s) :=
  inferInstanceAs (Decidable (∀ col ∈ s.snappedFromCursorCol, _))

/-- A move that skips the rest of a marker, without a snapped column to start from, starts in a
visual line that begins no further right than the place where the cursor first lands. -/
def SkipFits (metrics : Metrics) (s : State) (visualLines : List VisualLine) (current target : ℕ) :
    Prop :=
  ∀ currentVl ∈ visualLines[current]?, ∀ targetVl ∈ visualLines[target]?,
    s.snappedFromCursorCol = none →
    let landed := s.land visualLines current target currentVl targetVl
    ∀ seg ∈ atomicSegmentAt landed.buffer.cursorCol
        (landed.graphemes metrics landed.buffer.currentLine),
      seg.index < targetVl.startCol ∧ current < target ∧
        skipContinuation visualLines target targetVl (seg.index + seg.segment.length) <
          visualLines.length → currentVl.startCol ≤ landed.buffer.cursorCol

instance (metrics : Metrics) (s : State) (visualLines : List VisualLine) (current target : ℕ) :
    Decidable (SkipFits metrics s visualLines current target) :=
  inferInstanceAs (Decidable (∀ currentVl ∈ visualLines[current]?, _))

/-- A vertical move starts from a column of its own line. -/
def VerticalFits (metrics : Metrics) (s : State) (target : List VisualLine → ℕ → ℤ) : Prop :=
  SnapFits s ∧ ∀ visualLines ∈ s.visualLines metrics,
    SkipFits metrics s.forget visualLines (s.findCurrentVisualLine visualLines)
      (target visualLines (s.findCurrentVisualLine visualLines)).toNat

instance (metrics : Metrics) (s : State) (target : List VisualLine → ℕ → ℤ) :
    Decidable (VerticalFits metrics s target) :=
  inferInstanceAs (Decidable (SnapFits s ∧ ∀ visualLines ∈ s.visualLines metrics, _))

theorem maxVisualCol_nonneg (visualLines : List VisualLine) (index : ℕ) (vl : VisualLine) :
    0 ≤ maxVisualCol visualLines index vl := by
  unfold maxVisualCol
  split
  · exact Int.natCast_nonneg _
  · exact Int.le_max_left _ _

theorem computeVerticalMoveColumn_nonneg {preferred : Option ℤ}
    (hpreferred : ∀ col, preferred = some col → 0 ≤ col) {current targetMax : ℤ}
    (sourceMax : ℤ) (hcurrent : 0 ≤ current) (htarget : 0 ≤ targetMax) :
    (∀ col, (computeVerticalMoveColumn preferred current sourceMax targetMax).1 = some col →
      0 ≤ col) ∧ 0 ≤ (computeVerticalMoveColumn preferred current sourceMax targetMax).2 := by
  unfold computeVerticalMoveColumn
  cases preferred with
  | none =>
    simp only
    split
    · exact ⟨fun col hcol => some.inj hcol ▸ hcurrent, htarget⟩
    · refine ⟨?_, hcurrent⟩
      rintro col ⟨⟩
  | some column =>
    have hcolumn := hpreferred column rfl
    simp only
    split
    · split
      · exact ⟨fun col hcol => some.inj hcol ▸ hcurrent, htarget⟩
      · refine ⟨?_, hcurrent⟩
        rintro col ⟨⟩
    · split
      · exact ⟨fun col hcol => some.inj hcol ▸ hcolumn, htarget⟩
      · refine ⟨?_, hcolumn⟩
        rintro col ⟨⟩

section Landing

variable {metrics : Metrics} {visualLines : List VisualLine} {current target : ℕ}
  {currentVl targetVl : VisualLine}

theorem land_valid (current : ℕ) (hs : s.buffer.Valid) (hstored : s.Stored) (hcolumns : s.Columns)
    (hlines : s.visualLines metrics = some visualLines) (htarget : visualLines[target]? = some targetVl)
    (hcol : 0 ≤ s.currentVisualCol visualLines currentVl) :
    let landed := s.land visualLines current target currentVl targetVl
    landed.buffer.Valid ∧ (targetVl.startCol : ℤ) ≤ landed.buffer.cursorCol ∧ landed.Columns := by
  obtain ⟨_, line, hline, hstop⟩ :=
    mem_buildVisualLineMap hstored.width hlines (List.mem_of_getElem? htarget)
  rw [Nat.sub_zero] at hline
  have hlt : targetVl.logicalLine < s.buffer.lines.length :=
    (List.getElem?_eq_some_iff.mp hline).1
  have hcurrent : lineAt s.buffer.lines targetVl.logicalLine = line := by
    rw [lineAt, place_natCast, hline]
    rfl
  have hmoved := computeVerticalMoveColumn_nonneg hcolumns.preferred
    (maxVisualCol visualLines current currentVl) hcol (maxVisualCol_nonneg visualLines target targetVl)
  obtain ⟨hpreferred, hmove⟩ := hmoved
  intro landed
  obtain ⟨column, hcolumn, hlandedCol⟩ : ∃ column : ℤ, 0 ≤ column ∧
      landed.buffer.cursorCol = min (targetVl.startCol + column) line.length :=
    ⟨_, hmove, by rw [← hcurrent]; rfl⟩
  refine ⟨⟨hs.nonempty, Int.natCast_nonneg _, Int.ofNat_lt.mpr hlt, ?_, ?_⟩, ?_,
    ⟨hpreferred, hcolumns.snapped⟩⟩
  · rw [hlandedCol]
    omega
  · show landed.buffer.cursorCol ≤ (lineAt s.buffer.lines targetVl.logicalLine).length
    rw [hlandedCol, hcurrent]
    exact Int.min_le_right _ _
  · rw [hlandedCol]
    omega

theorem atomicSegmentAt_mem {col : ℤ} {segments : List Segment} {seg : Segment}
    (h : atomicSegmentAt col segments = some seg) :
    seg.index ≤ col ∧ col < seg.index + seg.segment.length := by
  induction segments with
  | nil => cases h
  | cons first rest ih =>
    rw [atomicSegmentAt] at h
    split at h
    · cases h
    · split at h
      · exact ih h
      · split at h
        · cases h
          omega
        · exact ih h

theorem skipContinuation_startCol (hwidth : 0 < s.lastWidth)
    (hlines : s.visualLines metrics = some visualLines) (htarget : visualLines[target]? = some targetVl)
    {segEnd : ℕ} {nextVl : VisualLine}
    (hnext : visualLines[skipContinuation visualLines target targetVl segEnd]? = some nextVl) :
    nextVl.startCol = 0 ∨ segEnd ≤ nextVl.startCol := by
  unfold skipContinuation at hnext
  generalize hgoes : (fun vl : VisualLine =>
    decide (vl.logicalLine = targetVl.logicalLine) && decide (vl.startCol < segEnd)) = goes at hnext
  have hgoesIff : ∀ vl, goes vl = true ↔ vl.logicalLine = targetVl.logicalLine ∧
      vl.startCol < segEnd := by
    intro vl
    rw [← hgoes]
    simp
  generalize hrest : visualLines.drop (target + 1) = rest at hnext
  have hindex : ∀ i, visualLines[target + 1 + i]? = rest[i]? := by
    intro i
    rw [← hrest, List.getElem?_drop]
  have hstops : goes nextVl = false := by
    rw [hindex] at hnext
    have hsplit : rest[(rest.takeWhile goes).length]? = (rest.dropWhile goes).head? := by
      conv_lhs => rw [← List.takeWhile_append_dropWhile (p := goes) (l := rest)]
      rw [List.getElem?_append_right (by simp), List.head?_eq_getElem?]
      simp
    rw [hsplit] at hnext
    have hnot := List.head?_dropWhile_not goes rest
    rw [hnext] at hnot
    simpa using hnot
  by_cases hline : nextVl.logicalLine = targetVl.logicalLine
  · right
    by_contra hlt
    rw [(hgoesIff nextVl).mpr ⟨hline, by omega⟩] at hstops
    cases hstops
  · left
    cases hn : (rest.takeWhile goes).length with
    | zero =>
      rw [hn] at hnext
      exact startCol_of_change hwidth hlines htarget hnext hline
    | succ n =>
      rw [hn] at hnext
      have hlt : n < (rest.takeWhile goes).length := by omega
      have hprevious : rest[n]? = some (rest.takeWhile goes)[n] := by
        conv_lhs => rw [← List.takeWhile_append_dropWhile (p := goes) (l := rest)]
        rw [List.getElem?_append_left hlt, List.getElem?_eq_getElem hlt]
      have hgoing := (hgoesIff _).mp (List.mem_takeWhile_imp (List.getElem_mem hlt))
      rw [← hindex] at hprevious
      refine startCol_of_change hwidth hlines hprevious hnext ?_
      rw [hgoing.1]
      exact hline

end Landing

/-- Where a move starts does not change while it skips the rest of a marker. -/
theorem currentVisualCol_land {visualLines : List VisualLine} {current target : ℕ}
    {currentVl targetVl : VisualLine} (hcol : 0 ≤ s.currentVisualCol visualLines currentVl)
    (hskip : s.snappedFromCursorCol = none → (currentVl.startCol : ℤ) ≤
      (s.land visualLines current target currentVl targetVl).buffer.cursorCol) :
    0 ≤ (s.land visualLines current target currentVl targetVl).currentVisualCol visualLines
      currentVl := by
  have hsnapped : (s.land visualLines current target currentVl targetVl).snappedFromCursorCol =
      s.snappedFromCursorCol := rfl
  unfold State.currentVisualCol at hcol ⊢
  rw [hsnapped]
  cases hcase : s.snappedFromCursorCol with
  | some col =>
    rw [hcase] at hcol
    exact hcol
  | none =>
    have hle := hskip hcase
    show 0 ≤ (s.land visualLines current target currentVl targetVl).buffer.cursorCol -
      currentVl.startCol
    omega

theorem Inv.moveToVisualLine {metrics : Metrics} {visualLines : List VisualLine} {current : ℕ}
    (depth target : ℕ) (h : s.Inv) (haction : s.lastAction = none)
    (hlines : s.visualLines metrics = some visualLines)
    (hcol : ∀ currentVl, visualLines[current]? = some currentVl →
      0 ≤ s.currentVisualCol visualLines currentVl)
    (hskip : SkipFits metrics s visualLines current target) :
    (s.moveToVisualLine metrics visualLines current depth target).Inv := by
  induction depth generalizing s target with
  | zero => exact h
  | succ depth ih =>
    rw [State.moveToVisualLine]
    cases hcurrentVl : visualLines[current]? with
    | none => exact h
    | some currentVl =>
      cases htargetVl : visualLines[target]? with
      | none => exact h
      | some targetVl =>
        simp only
        obtain ⟨hvalid, hstart, hcolumns⟩ := land_valid current h.buffer h.stored
          h.columns hlines htargetVl (hcol currentVl hcurrentVl)
        have hstored : (s.land visualLines current target currentVl targetVl).Stored :=
          h.stored.of_eq rfl rfl rfl
        have hnone : (s.land visualLines current target currentVl targetVl).lastAction = none :=
          haction
        have hsame : (s.land visualLines current target currentVl targetVl).visualLines metrics =
            some visualLines := hlines
        have hsnapped : (s.land visualLines current target currentVl targetVl).snappedFromCursorCol =
            s.snappedFromCursorCol := rfl
        have hkept : (s.snappedFromCursorCol = none → (currentVl.startCol : ℤ) ≤
              (s.land visualLines current target currentVl targetVl).buffer.cursorCol) →
            0 ≤ (s.land visualLines current target currentVl targetVl).currentVisualCol visualLines
              currentVl := currentVisualCol_land (hcol currentVl hcurrentVl)
        have hskipHere := fun hcurrent htarget => hskip currentVl hcurrent targetVl htarget
        generalize s.land visualLines current target currentVl targetVl = landed at *
        split
        · rename_i seg hseg
          obtain ⟨hbefore, hinside⟩ := atomicSegmentAt_mem hseg
          split
          · rename_i hskips
            have hfits : s.snappedFromCursorCol = none →
                (currentVl.startCol : ℤ) ≤ landed.buffer.cursorCol := fun hnosnap =>
              hskipHere hcurrentVl htargetVl hnosnap seg hseg hskips
            have hcolLanded := hkept hfits
            refine ih _ ⟨hvalid, hstored, hcolumns, fun hyank => ?_⟩ hnone hsame ?_ ?_
            · rw [hnone] at hyank
              cases hyank
            · intro other hother
              obtain rfl := some.inj (hcurrentVl.symm.trans hother)
              exact hcolLanded
            · -- behind the marker the row begins behind the place where the cursor has landed
              intro other hother nextVl hnextVl hnosnap landedNext nextSeg _ hcontinues
              obtain rfl := some.inj (hcurrentVl.symm.trans hother)
              obtain ⟨_, hnextStart, _⟩ := land_valid current
                hvalid hstored hcolumns hsame hnextVl hcolLanded
              have hle := hfits (hsnapped ▸ hnosnap)
              rcases skipContinuation_startCol hstored.width hsame htargetVl hnextVl with h0 | hend
              · omega
              · change (nextVl.startCol : ℤ) ≤ landedNext.buffer.cursorCol at hnextStart
                omega
          · refine ⟨⟨hvalid.nonempty, hvalid.line_nonneg, hvalid.line_lt, Int.natCast_nonneg _, ?_⟩,
              hstored.of_eq rfl rfl rfl, ⟨hcolumns.preferred, fun col hcol => ?_⟩, fun hyank => ?_⟩
            · exact Int.le_trans hbefore hvalid.col_le
            · cases hcol
              exact hvalid.col_nonneg
            · change landed.lastAction = some .yank at hyank
              rw [hnone] at hyank
              cases hyank
        · refine ⟨hvalid, hstored.of_eq rfl rfl rfl, ⟨hcolumns.preferred, fun col hcol => ?_⟩,
            fun hyank => ?_⟩
          · cases hcol
          · change landed.lastAction = some .yank at hyank
            rw [hnone] at hyank
            cases hyank

theorem Inv.moveVertically (h : s.Inv) (metrics : Metrics) (target : List VisualLine → ℕ → ℤ)
    (hfits : VerticalFits metrics s target) : (s.moveVertically metrics target).Inv := by
  obtain ⟨hsnap, hskip⟩ := hfits
  unfold State.moveVertically
  simp only
  split
  · rename_i visualLines hlines
    split
    · refine h.forget.moveToVisualLine _ _ rfl hlines (fun currentVl hcurrentVl => ?_)
        (hskip visualLines hlines)
      obtain ⟨vl, hfound, hline, hle⟩ := exists_visualLine h.buffer h.stored.width hlines
        h.buffer.col_nonneg h.buffer.col_le
      obtain rfl := some.inj (hfound.symm.trans hcurrentVl)
      unfold State.currentVisualCol
      have hsnapped : s.forget.snappedFromCursorCol = s.snappedFromCursorCol := rfl
      rw [hsnapped]
      cases hcase : s.snappedFromCursorCol with
      | some col =>
        obtain ⟨other, hother, _, hstart⟩ := exists_visualLine h.buffer h.stored.width hlines
          (h.columns.snapped col hcase) (hsnap col hcase)
        rw [← hline] at hother
        simp only [startColAt, hother, Option.map_some, Option.getD_some]
        omega
      | none =>
        show 0 ≤ s.buffer.cursorCol - (vl.startCol : ℤ)
        omega
    · exact h.forget
  · exact h.forget

end Vertical

end State

/-- The three things that take the cursor out of its line do not happen: a vertical move from a
column that is no longer in the line or from a row too far right, and a deletion whose
renumbering takes too much from the line. -/
def Steady (host : Host) (s : State) : Command → Prop
  | .backspace => State.RenumberFits host.toMetrics s
  | .moveCursorVertically delta => State.VerticalFits host.toMetrics s (rowTarget delta)
  | .pageScroll direction => State.VerticalFits host.toMetrics s (pageTarget s.terminalRows direction)
  | _ => True

instance (host : Host) (s : State) : ∀ command, Decidable (Steady host s command)
  | .backspace => inferInstanceAs (Decidable (State.RenumberFits _ _))
  | .moveCursorVertically _ => inferInstanceAs (Decidable (State.VerticalFits _ _ _))
  | .pageScroll _ => inferInstanceAs (Decidable (State.VerticalFits _ _ _))
  | .jumpToChar _ _ | .paste _ | .undo | .deleteToEndOfLine | .deleteToStartOfLine
  | .deleteWordBackwards | .deleteWordForward | .forwardDelete | .yank | .yankPop
  | .navigateHistory _ | .moveToLineStart | .moveToLineEnd | .moveWordBackwards | .moveWordForwards
  | .addNewLine | .submitValue | .moveRight | .moveLeft | .setJumpMode _ | .insertCharacter _
  | .setText _ | .insertTextAtCursor _ => .isTrue trivial

theorem inv_perform (host : Host) (s : State) (command : Command) (h : s.Inv)
    (hsteady : Steady host s command) : (perform host s command).Inv := by
  cases command with
  | jumpToChar char direction => exact h.jumpToChar char direction
  | paste pastedText => exact h.handlePaste pastedText
  | undo => exact h.undo
  | deleteToEndOfLine => exact h.deleteToEndOfLine
  | deleteToStartOfLine => exact h.deleteToStartOfLine
  | deleteWordBackwards => exact h.deleteWordBackwards host.toMetrics
  | deleteWordForward => exact h.deleteWordForward host.toMetrics
  | backspace => exact h.handleBackspace host.toMetrics hsteady
  | forwardDelete => exact h.handleForwardDelete host.toMetrics
  | yank => exact h.yank
  | yankPop => exact h.yankPop
  | navigateHistory direction => exact h.navigateHistory direction
  | moveToLineStart => exact h.moveToLineStart
  | moveToLineEnd => exact h.moveToLineEnd
  | moveWordBackwards => exact h.moveWordBackwards host.toMetrics
  | moveWordForwards => exact h.moveWordForwards host.toMetrics
  | addNewLine => exact h.addNewLine
  | submitValue => exact h.submitValue
  | moveCursorVertically delta =>
    exact h.moveVertically host.toMetrics (rowTarget delta) hsteady
  | moveRight => exact h.moveRight host.toMetrics
  | moveLeft => exact h.moveLeft host.toMetrics
  | pageScroll direction =>
    exact h.moveVertically host.toMetrics (pageTarget s.terminalRows direction) hsteady
  | setJumpMode direction =>
    exact ⟨h.buffer, h.stored.of_eq rfl rfl rfl, ⟨h.columns.preferred, h.columns.snapped⟩, h.yanked⟩
  | insertCharacter char => exact h.insertCharacter char
  | setText text => exact h.setText text
  | insertTextAtCursor text => exact h.insertTextAtCursor text

/-- Every operation that a call leads to is steady in the state it is made in. -/
def SteadyStep (host : Host) (s : State) (action : Action) : Prop :=
  ∀ event ∈ events host s action, Steady host event.1 event.2

instance (host : Host) (s : State) (action : Action) : Decidable (SteadyStep host s action) :=
  inferInstanceAs (Decidable (∀ event ∈ events host s action, _))

/-- In every run whose operations are steady the cursor is on a line and in its text. -/
theorem valid_of_steady (host : Host) (terminalRows paddingX : ℕ) (actions : List Action)
    (h : Runs.Along (step host) (SteadyStep host) (initial terminalRows paddingX) actions) :
    ∀ s ∈ Runs.states (step host) (initial terminalRows paddingX) actions, s.buffer.Valid := by
  have hinv : ∀ s ∈ Runs.states (step host) (initial terminalRows paddingX) actions, s.Inv := by
    refine Runs.invariant_of_along (fun s action hs hsteady => ?_)
      (State.inv_initial terminalRows paddingX) h
    exact kept_of_events (fun _ _ hquiet h => h.quiet hquiet)
      (fun s command h hsteady => inv_perform host s command h hsteady) hs hsteady
  exact fun s hs => (hinv s hs).buffer

/-- A large paste is put in, left upwards and entered again, and its marker deleted. -/
def steadyRun : List Action :=
  [bracketed "a\nb", bracketed "1\n2\n3\n4\n5\n6\n7\n8\n9\n10\n11", .render 12, keys "\x1b[A",
    keys "\x1b[B", keys "\x7f"]

theorem valid_in_steadyRun :
    Runs.Along (step asciiHost) (SteadyStep asciiHost) (initial 24 0) steadyRun ∧
    ∀ s ∈ Runs.states (step asciiHost) (initial 24 0) steadyRun, s.buffer.Valid := by
  have hsteady : Runs.Along (step asciiHost) (SteadyStep asciiHost) (initial 24 0) steadyRun := by
    decide +kernel
  exact ⟨hsteady, valid_of_steady asciiHost 24 0 steadyRun hsteady⟩

/-- A text that looks like the marker of a second paste, a first paste, and its deletion: the
text is renumbered to a shorter one and the cursor stays behind the end of the line. -/
def overrun : List Action :=
  [bracketed "[paste #00000000000000000000002]", bracketed "1\n2\n3\n4\n5\n6\n7\n8\n9\n10\n11",
    keys "\x7f"]

theorem overrun_invalid :
    ¬ ∀ s ∈ Runs.states (step asciiHost) (initial 24 0) overrun, s.buffer.Valid := by
  intro h
  have hlast := h (overrun.foldl (step asciiHost) (initial 24 0)) (by simp [overrun, Runs.states])
  have hle := hlast.col_le
  revert hle
  decide

end Pidrei.Editor
