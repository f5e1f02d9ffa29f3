import Pidrei.EditorBuffer
import Pidrei.EditorInput
import Pidrei.EditorRows

/-!
What the operations that do not move vertically keep: the cursor is on a line and in its
text, and so are the states that undo and the history would put back.
-/
namespace Pidrei.Editor

open PythonText List

namespace State

/-- What is kept apart from the text is valid too. -/
structure Stored (s : State) : Prop where
  width : 0 < s.lastWidth
  undo : ∀ snapshot ∈ s.undoStack, snapshot.state.Valid
  draft : ∀ draft, s.historyDraft = some draft → draft.Valid

structure Columns (s : State) : Prop where
  preferred : ∀ col, s.preferredVisualCol = some col → 0 ≤ col
  snapped : ∀ col, s.snappedFromCursorCol = some col → 0 ≤ col

structure Inv (s : State) : Prop where
  buffer : s.buffer.Valid
  stored : s.Stored
  columns : s.Columns
  yanked : s.lastAction = some .yank → ∀ text, s.killRing.getLast? = some text →
    s.buffer.HoldsYanked text

variable {s : State}

theorem Stored.exit (h : s.Stored) : s.exitHistoryBrowsing.Stored :=
  ⟨h.width, h.undo, fun draft hdraft => by cases hdraft⟩

theorem Stored.push (h : s.Stored) (hb : s.buffer.Valid) : s.pushUndoSnapshot.Stored := by
  refine ⟨h.width, fun snapshot hsnapshot => ?_, h.draft⟩
  rcases mem_cons.mp hsnapshot with rfl | hsnapshot
  · exact hb
  · exact h.undo snapshot hsnapshot

variable {t : State}

theorem Stored.of_eq (h : s.Stored) (hwidth : t.lastWidth = s.lastWidth)
    (hundo : t.undoStack = s.undoStack) (hdraft : t.historyDraft = s.historyDraft) : t.Stored := by
  refine ⟨hwidth ▸ h.width, ?_, ?_⟩
  · rw [hundo]
    exact h.undo
  · rw [hdraft]
    exact h.draft

theorem Columns.of_none (hpreferred : s.preferredVisualCol = none)
    (hsnapped : s.snappedFromCursorCol = none) : s.Columns := by
  refine ⟨fun col hcol => ?_, fun col hcol => ?_⟩
  · rw [hpreferred] at hcol
    cases hcol
  · rw [hsnapped] at hcol
    cases hcol

theorem Stored.edit (h : s.Stored) {b : Buffer} (hb : b.Valid)
    (haction : s.lastAction ≠ some .yank) : (s.edit b).Inv where
  buffer := hb
  stored := h.of_eq rfl rfl rfl
  columns := Columns.of_none rfl rfl
  yanked hyank := absurd hyank haction

theorem Stored.keepColumns (h : t.Stored) (hb : t.buffer.Valid) (hcolumns : s.Columns)
    (hpreferred : t.preferredVisualCol = s.preferredVisualCol)
    (hsnapped : t.snappedFromCursorCol = s.snappedFromCursorCol)
    (haction : t.lastAction ≠ some .yank) : t.Inv where
  buffer := hb
  stored := h
  columns := by
    refine ⟨?_, ?_⟩
    · rw [hpreferred]
      exact hcolumns.preferred
    · rw [hsnapped]
      exact hcolumns.snapped
  yanked hyank := absurd hyank haction

theorem Inv.exit (h : s.Inv) : s.exitHistoryBrowsing.Inv :=
  ⟨h.buffer, h.stored.exit, ⟨h.columns.preferred, h.columns.snapped⟩, h.yanked⟩

theorem Inv.forget (h : s.Inv) : s.forget.Inv :=
  ⟨h.buffer, h.stored.of_eq rfl rfl rfl, ⟨h.columns.preferred, h.columns.snapped⟩,
    fun hyank => by cases hyank⟩

theorem inv_initial (terminalRows paddingX : ℕ) : (initial terminalRows paddingX).Inv where
  buffer := (Buffer.valid_placed : (Buffer.placed [] [] [] []).Valid)
  stored := by
    refine ⟨Nat.succ_pos 79, fun snapshot hsnapshot => ?_, fun draft hdraft => ?_⟩
    · cases hsnapshot
    · cases hdraft
  columns := Columns.of_none rfl rfl
  yanked hyank := by cases hyank

theorem Inv.quiet (h : s.Inv) (hquiet : Quiet s t) : t.Inv := by
  obtain ⟨hbuffer, _, _, hdraft, hring, haction, hpreferred, hsnapped, hundo, _, hwidth⟩ := hquiet
  refine ⟨hbuffer ▸ h.buffer, ⟨hwidth h.stored.width, ?_, ?_⟩, ⟨?_, ?_⟩, ?_⟩
  · rw [hundo]
    exact h.stored.undo
  · rw [hdraft]
    exact h.stored.draft
  · rw [hpreferred]
    exact h.columns.preferred
  · rw [hsnapped]
    exact h.columns.snapped
  · rw [haction, hring, hbuffer]
    exact h.yanked

theorem valid_setTextInternal (text : Text) (atStart : Bool) :
    Buffer.Valid ⟨splitLines text, if atStart then 0 else (splitLines text).length - 1,
      if atStart then 0
      else (lineAt (splitLines text) (if atStart then 0 else (splitLines text).length - 1)).length⟩ := by
  have hne := splitLines_ne_nil text
  have hpos := length_pos_iff.mpr hne
  cases atStart with
  | true =>
    obtain ⟨first, rest, hcons⟩ := exists_cons_of_ne_nil hne
    rw [hcons]
    have hfirst : Buffer.Valid ⟨[] ++ first :: rest, ([] : List Text).length, 0⟩ :=
      Buffer.valid_of_line (Int.le_refl 0) (Int.natCast_nonneg _)
    exact hfirst
  | false =>
    refine ⟨hne, ?_, ?_, ?_, ?_⟩
    · show (0 : ℤ) ≤ (splitLines text).length - 1
      omega
    · show ((splitLines text).length : ℤ) - 1 < (splitLines text).length
      omega
    · show (0 : ℤ) ≤ (lineAt _ _).length
      omega
    · exact Int.le_refl _

theorem Stored.setTextInternal (h : s.Stored) (haction : s.lastAction ≠ some .yank) (text : Text)
    (atStart : Bool) : (s.setTextInternal text atStart).Inv :=
  h.edit (valid_setTextInternal text atStart) haction

theorem Inv.setText (h : s.Inv) (text : Text) : (s.setText text).Inv := by
  have hstored : s.forget.exitHistoryBrowsing.Stored := h.forget.stored.exit
  unfold State.setText
  simp only
  split
  · refine Stored.setTextInternal ?_ ?_ _ _
    · exact hstored.of_eq rfl rfl rfl
    · rintro ⟨⟩
  · refine Stored.setTextInternal ?_ ?_ _ _
    · exact (hstored.push h.buffer).of_eq rfl rfl rfl
    · rintro ⟨⟩

theorem Stored.insertTextInternal (h : s.Stored) (hb : s.buffer.Valid) (hcolumns : s.Columns)
    (haction : s.lastAction ≠ some .yank) (text : Text) : (s.insertTextInternal text).Inv := by
  unfold State.insertTextInternal
  split
  · exact h.keepColumns hb hcolumns rfl rfl haction
  · exact h.edit (hb.insertText text) haction

theorem Inv.insertTextAtCursor (h : s.Inv) (text : Text) : (s.insertTextAtCursor text).Inv := by
  unfold State.insertTextAtCursor
  split
  · exact h
  · refine Stored.insertTextInternal ?_ ?_ ?_ ?_ text
    · exact Stored.exit ((h.stored.push h.buffer).of_eq rfl rfl rfl)
    · exact h.buffer
    · exact ⟨h.columns.preferred, h.columns.snapped⟩
    · rintro ⟨⟩

theorem valid_insert {b : Buffer} (h : b.Valid) (text : Text) :
    Buffer.Valid { b.setCurrent (b.before ++ (text ++ b.after)) with
      cursorCol := b.cursorCol + text.length } := by
  obtain ⟨front, pre, post, back, rfl⟩ := h.exists_placed
  have hplaced : (Buffer.placed front (pre ++ text) post back).Valid := Buffer.valid_placed
  rw [Buffer.setCurrent_placed, Buffer.before_placed, Buffer.after_placed, Buffer.cursorCol_placed]
  rw [Buffer.placed, append_assoc, length_append] at hplaced
  exact hplaced

theorem Inv.insertCharacter (h : s.Inv) (char : Text) : (s.insertCharacter char).Inv := by
  unfold State.insertCharacter
  simp only
  split
  · refine Stored.edit ?_ (valid_insert h.buffer char) ?_
    · exact (h.stored.exit.push h.buffer).of_eq rfl rfl rfl
    · rintro ⟨⟩
  · refine Stored.edit ?_ (valid_insert h.buffer char) ?_
    · exact h.stored.exit.of_eq rfl rfl rfl
    · rintro ⟨⟩

theorem Inv.addNewLine (h : s.Inv) : s.addNewLine.Inv := by
  have hstored := Stored.push h.exit.forget.stored h.buffer
  refine hstored.edit ?_ (by rintro ⟨⟩)
  show Buffer.Valid ⟨insertLine (setLine s.buffer.lines s.buffer.cursorLine s.buffer.before)
    (s.buffer.cursorLine + 1) s.buffer.after, s.buffer.cursorLine + 1, 0⟩
  obtain ⟨front, pre, post, back, heq⟩ := h.buffer.exists_placed
  rw [heq, Buffer.before_placed, Buffer.after_placed, Buffer.lines_placed, Buffer.cursorLine_placed,
    setLine_front]
  have hlines : front ++ pre :: back = (front ++ [pre]) ++ back := by simp
  have hindex : (front.length : ℤ) + 1 = (front ++ [pre]).length := by simp
  rw [hlines, hindex, insertLine_front]
  exact Buffer.valid_of_line (by decide) (by omega)

theorem Inv.handlePaste (h : s.Inv) (pastedText : Text) : (s.handlePaste pastedText).Inv := by
  have hstored := Stored.push h.exit.forget.stored h.buffer
  have hcolumns : s.exitHistoryBrowsing.forget.pushUndoSnapshot.Columns :=
    ⟨h.columns.preferred, h.columns.snapped⟩
  unfold State.handlePaste
  simp only
  split
  · refine Stored.insertTextInternal ?_ ?_ ?_ ?_ _
    · exact hstored.of_eq rfl rfl rfl
    · exact h.buffer
    · exact ⟨hcolumns.preferred, hcolumns.snapped⟩
    · rintro ⟨⟩
  · refine Stored.insertTextInternal hstored h.buffer hcolumns ?_ _
    rintro ⟨⟩

theorem Inv.submitValue (h : s.Inv) : s.submitValue.Inv where
  buffer := (Buffer.valid_placed : (Buffer.placed [] [] [] []).Valid)
  stored := by
    refine ⟨h.stored.width, fun snapshot hsnapshot => ?_, fun draft hdraft => ?_⟩
    · cases hsnapshot
    · cases hdraft
  columns := ⟨h.columns.preferred, h.columns.snapped⟩
  yanked hyank := by cases hyank

theorem Inv.deleteToStartOfLine (h : s.Inv) : s.deleteToStartOfLine.Inv := by
  have hstored := Stored.push h.exit.stored h.buffer
  unfold State.deleteToStartOfLine
  simp only
  split
  · refine Stored.edit ?_ ?_ ?_
    · exact hstored.of_eq rfl rfl rfl
    · exact h.buffer.setCurrent (Int.le_refl 0) (Int.natCast_nonneg _)
    · rintro ⟨⟩
  · split
    · rename_i hline
      refine Stored.edit ?_ (h.buffer.mergePrevious hline) ?_
      · exact hstored.of_eq rfl rfl rfl
      · rintro ⟨⟩
    · exact h.exit

theorem valid_setBefore {b : Buffer} (h : b.Valid) (text : Text) :
    (b.setCurrent (b.before ++ text)).Valid := by
  obtain ⟨front, pre, post, back, rfl⟩ := h.exists_placed
  rw [Buffer.setCurrent_placed, Buffer.before_placed]
  exact Buffer.valid_of_line (by omega) (length_le_append pre text)

theorem Inv.deleteToEndOfLine (h : s.Inv) : s.deleteToEndOfLine.Inv := by
  have hstored := Stored.push h.exit.stored h.buffer
  unfold State.deleteToEndOfLine
  simp only
  split
  · refine Stored.keepColumns (hstored.of_eq rfl rfl rfl) ?_ h.columns rfl rfl (by rintro ⟨⟩)
    have hvalid := valid_setBefore h.buffer []
    rwa [append_nil] at hvalid
  · split
    · rename_i hline
      exact Stored.keepColumns (hstored.of_eq rfl rfl rfl) (h.buffer.mergeNext hline) h.columns rfl rfl
        (by rintro ⟨⟩)
    · exact h.exit

theorem Inv.handleForwardDelete (h : s.Inv) (metrics : Metrics) :
    (s.handleForwardDelete metrics).Inv := by
  have hstored := Stored.push h.exit.forget.stored h.buffer
  unfold State.handleForwardDelete
  simp only
  split
  · exact Stored.keepColumns (hstored.of_eq rfl rfl rfl) (valid_setBefore h.buffer _) h.columns rfl rfl
      (by rintro ⟨⟩)
  · split
    · rename_i hline
      exact Stored.keepColumns (hstored.of_eq rfl rfl rfl) (h.buffer.mergeNext hline) h.columns rfl rfl
        (by rintro ⟨⟩)
    · exact h.exit.forget

theorem Stored.insertYankedText (h : s.Stored) (hb : s.buffer.Valid) {text : Text}
    (htext : ∀ other, s.killRing.getLast? = some other → other = text) :
    ((s.insertYankedText text).act .yank).Inv where
  buffer := hb.insertYanked text
  stored := h.exit.of_eq rfl rfl rfl
  columns := Columns.of_none rfl rfl
  yanked _ other hother := by
    obtain rfl := htext other hother
    exact hb.holdsYanked other

theorem Inv.yank (h : s.Inv) : s.yank.Inv := by
  unfold State.yank
  cases hring : s.killRing.getLast? with
  | none => exact h
  | some text =>
    refine Stored.insertYankedText (h.stored.push h.buffer) h.buffer fun other hother => ?_
    rw [show s.pushUndoSnapshot.killRing = s.killRing from rfl, hring] at hother
    exact (Option.some.inj hother).symm

theorem Inv.yankPop (h : s.Inv) : s.yankPop.Inv := by
  unfold State.yankPop
  split
  · exact h
  · rename_i hcond
    rw [not_or, not_not] at hcond
    have hstored := h.stored.push h.buffer
    have hdeleted : s.pushUndoSnapshot.deleteYankedText.Stored ∧
        s.pushUndoSnapshot.deleteYankedText.buffer.Valid := by
      unfold State.deleteYankedText
      cases hring : s.killRing.getLast? with
      | none =>
        rw [show s.pushUndoSnapshot.killRing = s.killRing from rfl, hring]
        exact ⟨hstored, h.buffer⟩
      | some text =>
        rw [show s.pushUndoSnapshot.killRing = s.killRing from rfl, hring]
        simp only
        split
        · exact ⟨hstored, h.buffer⟩
        · exact ⟨hstored.of_eq rfl rfl rfl, h.buffer.deleteYanked (h.yanked hcond.1 text hring)⟩
    simp only
    refine Stored.insertYankedText ?_ ?_ fun other hother => ?_
    · exact hdeleted.1.of_eq rfl rfl rfl
    · exact hdeleted.2
    · rw [hother]
      rfl

theorem Inv.undo (h : s.Inv) : s.undo.Inv := by
  unfold State.undo
  simp only
  split
  · exact h.exit
  · rename_i snapshot rest hstack
    have hundo : ∀ other ∈ snapshot :: rest, other.state.Valid := by
      rw [← hstack]
      exact h.stored.undo
    refine ⟨hundo snapshot mem_cons_self, ⟨h.stored.width, fun other hother => ?_, ?_⟩,
      ⟨?_, h.columns.snapped⟩, ?_⟩
    · exact hundo other (mem_cons_of_mem _ hother)
    · rintro draft ⟨⟩
    · rintro col ⟨⟩
    · rintro ⟨⟩

theorem Inv.navigateHistory (h : s.Inv) (direction : ℤ) : (s.navigateHistory direction).Inv := by
  unfold State.navigateHistory
  simp only
  split
  · exact h.forget
  · split
    · exact h.forget
    · have hentered : ∀ t : State, t = (if s.forget.historyIndex = -1 ∧
            0 ≤ s.forget.historyIndex - direction then
          { s.forget.pushUndoSnapshot with historyDraft := some s.forget.buffer } else s.forget) →
          t.Stored ∧ t.lastAction = none := by
        intro t ht
        split at ht
        · subst ht
          refine ⟨⟨h.stored.width, (h.forget.stored.push h.buffer).undo, ?_⟩, rfl⟩
          intro draft hdraft
          cases hdraft
          exact h.buffer
        · subst ht
          exact ⟨h.forget.stored, rfl⟩
      generalize (if s.forget.historyIndex = -1 ∧ 0 ≤ s.forget.historyIndex - direction then
          { s.forget.pushUndoSnapshot with historyDraft := some s.forget.buffer } else s.forget) = t
        at hentered
      obtain ⟨hstored, haction⟩ := hentered t rfl
      have hne : t.lastAction ≠ some .yank := by rw [haction]; rintro ⟨⟩
      split
      · split
        · rename_i draft hdraft
          refine Stored.edit ?_ (hstored.draft draft hdraft) ?_
          · refine ⟨hstored.width, hstored.undo, ?_⟩
            rintro other ⟨⟩
          · exact hne
        · refine Stored.setTextInternal ?_ ?_ _ _
          · exact hstored.of_eq rfl rfl rfl
          · exact hne
      · refine Stored.setTextInternal ?_ ?_ _ _
        · exact hstored.of_eq rfl rfl rfl
        · exact hne

section Moves

variable {col : ℤ} {char line : Text}

theorem Inv.setCursorCol (h : s.Inv) (haction : s.lastAction ≠ some .yank) (h0 : 0 ≤ col)
    (hcol : col ≤ s.buffer.currentLine.length) : (s.setCursorCol col).Inv where
  buffer := ⟨h.buffer.nonempty, h.buffer.line_nonneg, h.buffer.line_lt, h0, hcol⟩
  stored := h.stored.of_eq rfl rfl rfl
  columns := Columns.of_none rfl rfl
  yanked hyank := absurd hyank haction

theorem Inv.goTo (h : s.Inv) (haction : s.lastAction ≠ some .yank) {line : ℤ} (hline : 0 ≤ line)
    (hlt : line < s.buffer.lines.length) (h0 : 0 ≤ col)
    (hcol : col ≤ (lineAt s.buffer.lines line).length) : (s.goTo line col).Inv :=
  h.stored.edit ⟨h.buffer.nonempty, hline, hlt, h0, hcol⟩ haction

theorem Inv.moveToLineStart (h : s.Inv) : s.moveToLineStart.Inv :=
  h.forget.setCursorCol (by rintro ⟨⟩) (Int.le_refl 0) (Int.natCast_nonneg _)

theorem Inv.moveToLineEnd (h : s.Inv) : s.moveToLineEnd.Inv :=
  h.forget.setCursorCol (by rintro ⟨⟩) (Int.natCast_nonneg _) (Int.le_refl _)

theorem Inv.goUp (h : s.Inv) (haction : s.lastAction ≠ some .yank) (hline : 0 < s.buffer.cursorLine) :
    (s.goTo (s.buffer.cursorLine - 1)
      (lineAt s.buffer.lines (s.buffer.cursorLine - 1)).length).Inv := by
  have hlt := h.buffer.line_lt
  exact h.goTo haction (by omega) (by omega) (Int.natCast_nonneg _) (Int.le_refl _)

theorem Inv.goDown (h : s.Inv) (haction : s.lastAction ≠ some .yank)
    (hline : s.buffer.cursorLine < s.buffer.lines.length - 1) :
    (s.goTo (s.buffer.cursorLine + 1) 0).Inv := by
  have hnonneg := h.buffer.line_nonneg
  exact h.goTo haction (by omega) (by omega) (Int.le_refl 0) (Int.natCast_nonneg _)

theorem length_before (h : s.buffer.Valid) : (s.buffer.before.length : ℤ) = s.buffer.cursorCol := by
  obtain ⟨front, pre, post, back, heq⟩ := h.exists_placed
  rw [heq, Buffer.before_placed]
  rfl

theorem length_after (h : s.buffer.Valid) :
    s.buffer.cursorCol + s.buffer.after.length = s.buffer.currentLine.length := by
  obtain ⟨front, pre, post, back, heq⟩ := h.exists_placed
  rw [heq, Buffer.after_placed, Buffer.currentLine_placed, Buffer.cursorCol_placed, length_append]
  omega

theorem graphemeLength_le {text : Text} (htext : 0 < text.length) {segments : List Segment}
    (h : Laid text.length 0 segments) {seg : Option Segment} (hseg : ∀ one, seg = some one → one ∈ segments) :
    graphemeLength seg ≤ text.length := by
  cases seg with
  | none => exact htext
  | some one =>
    have hmem := (h.mem (hseg one rfl)).2
    show one.segment.length ≤ text.length
    omega

theorem lastGrapheme_le (metrics : Metrics) (h : s.buffer.Valid) (hcol : 0 < s.buffer.cursorCol) :
    (graphemeLength (s.lastGrapheme metrics) : ℤ) ≤ s.buffer.cursorCol := by
  have hlength := length_before h
  have hle : graphemeLength (s.lastGrapheme metrics) ≤ s.buffer.before.length := by
    refine graphemeLength_le (by omega)
      (laid_segmentWithMarkers metrics.graphemes s.buffer.before s.validPasteIds) fun one hone => ?_
    exact mem_of_getLast? hone
  omega

theorem exists_visualLine {metrics : Metrics} (h : s.buffer.Valid) (hwidth : 0 < s.lastWidth)
    {visualLines : List VisualLine} (hlines : s.visualLines metrics = some visualLines)
    (h0 : 0 ≤ col) (hcol : col ≤ s.buffer.currentLine.length) :
    ∃ vl, visualLines[findVisualLineAt s.buffer.cursorLine col visualLines]? = some vl ∧
      (vl.logicalLine : ℤ) = s.buffer.cursorLine ∧ (vl.startCol : ℤ) ≤ col := by
  obtain ⟨l, hl⟩ := Int.eq_ofNat_of_zero_le h.line_nonneg
  obtain ⟨c, rfl⟩ := Int.eq_ofNat_of_zero_le h0
  have hlt := h.line_lt
  rw [hl] at hlt ⊢
  have hline : s.buffer.lines[l]? = some s.buffer.currentLine := by
    have hget := getElem?_eq_getElem (l := s.buffer.lines) (i := l) (by omega)
    rw [hget, Buffer.currentLine, lineAt, hl, place_natCast, hget]
    rfl
  obtain ⟨vl, hfound, hlogical, hle⟩ := find_buildVisualLineMap hwidth hlines hline (Int.ofNat_le.mp hcol)
  rw [Nat.zero_add] at hfound hlogical
  exact ⟨vl, hfound, by rw [hlogical], by exact_mod_cast hle⟩

theorem Inv.moveRight (h : s.Inv) (metrics : Metrics) : (s.moveRight metrics).Inv := by
  have hforget : s.forget.lastAction ≠ some .yank := by rintro ⟨⟩
  unfold State.moveRight
  simp only
  split
  · rename_i visualLines hlines
    split
    · rename_i hcol
      have hafter := length_after (s := s.forget) h.buffer
      have hle : graphemeLength (s.forget.graphemes metrics s.buffer.after).head? ≤
          s.buffer.after.length := by
        refine graphemeLength_le ?_
          (laid_segmentWithMarkers metrics.graphemes s.buffer.after s.validPasteIds) fun one hone => ?_
        · change s.buffer.cursorCol < s.buffer.currentLine.length at hcol
          change s.buffer.cursorCol + s.buffer.after.length = s.buffer.currentLine.length at hafter
          omega
        · exact mem_of_mem_head? hone
      have hnonneg := h.buffer.col_nonneg
      refine h.forget.setCursorCol hforget ?_ ?_
      · show 0 ≤ s.buffer.cursorCol + _
        omega
      · show s.buffer.cursorCol + _ ≤ (s.buffer.currentLine.length : ℤ)
        change s.buffer.cursorCol + s.buffer.after.length = s.buffer.currentLine.length at hafter
        change s.buffer.cursorCol + graphemeLength
          (s.forget.graphemes metrics s.buffer.after).head? ≤ s.buffer.currentLine.length
        omega
    · split
      · rename_i hline
        exact h.forget.goDown hforget hline
      · split
        · rename_i currentVl hcurrent
          obtain ⟨vl, hfound, _, hle⟩ := exists_visualLine (s := s.forget) h.buffer h.stored.width hlines
            h.buffer.col_nonneg h.buffer.col_le
          obtain rfl := Option.some.inj (hcurrent.symm.trans hfound)
          refine ⟨h.buffer, h.stored.of_eq rfl rfl rfl, ⟨fun col hcol => ?_, h.columns.snapped⟩, ?_⟩
          · cases hcol
            change (currentVl.startCol : ℤ) ≤ s.forget.buffer.cursorCol at hle
            omega
          · rintro ⟨⟩
        · exact h.forget
  · exact h.forget

theorem Inv.moveLeft (h : s.Inv) (metrics : Metrics) : (s.moveLeft metrics).Inv := by
  have hforget : s.forget.lastAction ≠ some .yank := by rintro ⟨⟩
  unfold State.moveLeft
  simp only
  split
  · split
    · rename_i hcol
      have hle := lastGrapheme_le metrics (s := s.forget) h.buffer hcol
      have hcolLe := h.buffer.col_le
      refine h.forget.setCursorCol hforget (by omega) ?_
      change s.buffer.cursorCol - _ ≤ (s.buffer.currentLine.length : ℤ)
      omega
    · split
      · rename_i hline
        exact h.forget.goUp hforget hline
      · exact h.forget
  · exact h.forget

theorem totalLength_append (front back : List Segment) :
    totalLength (front ++ back) = totalLength front + totalLength back := by
  simp [totalLength]

theorem totalLength_reverse (segments : List Segment) :
    totalLength segments.reverse = totalLength segments := by
  simp [totalLength]

theorem wordDistance_le (value : Text → Text) (hvalue : ∀ text, (value text).length = text.length)
    (segments : List Segment) : wordDistance value segments ≤ totalLength segments := by
  have hsplit : totalLength segments =
      totalLength (segments.takeWhile isBlank) + totalLength (segments.dropWhile isBlank) := by
    rw [← totalLength_append, takeWhile_append_dropWhile]
  have hcons : ∀ seg rest, totalLength (seg :: rest) = seg.segment.length + totalLength rest :=
    fun _ _ => rfl
  unfold wordDistance
  simp only
  rw [hsplit]
  cases segments.dropWhile isBlank with
  | nil => exact Nat.le_refl _
  | cons seg rest =>
    have hword := ( takeWhile_prefix (fun c => !isPunctuation c) (l := value seg.segment)).length_le
    rw [hvalue] at hword
    have hrun : totalLength ((seg :: rest).takeWhile isSeparator) ≤ totalLength (seg :: rest) := by
      have hboth : totalLength (seg :: rest) = totalLength ((seg :: rest).takeWhile isSeparator) +
          totalLength ((seg :: rest).dropWhile isSeparator) := by
        rw [← totalLength_append, takeWhile_append_dropWhile]
      omega
    have hfirst := hcons seg rest
    show totalLength _ + (if isPasteMarker seg.segment then _ else if seg.isWordLike then _ else _) ≤ _
    split
    · omega
    · split <;> omega

theorem wordBackwards_bounds (metrics : Metrics) (h : s.buffer.Valid) :
    0 ≤ findWordBackward s.buffer.cursorCol (s.words metrics s.buffer.before) ∧
      findWordBackward s.buffer.cursorCol (s.words metrics s.buffer.before) ≤ s.buffer.cursorCol := by
  have hlength := length_before h
  have hlaid := (laid_segmentWithMarkers metrics.words s.buffer.before s.validPasteIds).totalLength_le
  have hdistance := wordDistance_le reverse (fun _ => length_reverse)
    (s.words metrics s.buffer.before).reverse
  rw [totalLength_reverse] at hdistance
  have hnonneg := h.col_nonneg
  change 0 + totalLength (s.words metrics s.buffer.before) ≤ _ at hlaid
  unfold findWordBackward
  split <;> omega

theorem wordForwards_bounds (metrics : Metrics) (h : s.buffer.Valid) :
    0 ≤ findWordForward s.buffer.currentLine s.buffer.cursorCol (s.words metrics s.buffer.after) ∧
      findWordForward s.buffer.currentLine s.buffer.cursorCol (s.words metrics s.buffer.after) ≤
        s.buffer.currentLine.length := by
  have hlength := length_after h
  have hlaid := (laid_segmentWithMarkers metrics.words s.buffer.after s.validPasteIds).totalLength_le
  have hdistance := wordDistance_le id (fun _ => rfl) (s.words metrics s.buffer.after)
  have hnonneg := h.col_nonneg
  change 0 + totalLength (s.words metrics s.buffer.after) ≤ _ at hlaid
  unfold findWordForward
  split <;> omega

theorem Inv.moveWordBackwards (h : s.Inv) (metrics : Metrics) : (s.moveWordBackwards metrics).Inv := by
  have hforget : s.forget.lastAction ≠ some .yank := by rintro ⟨⟩
  unfold State.moveWordBackwards
  simp only
  split
  · split
    · rename_i hline
      exact h.forget.goUp hforget hline
    · exact h.forget
  · obtain ⟨h0, hle⟩ := wordBackwards_bounds metrics (s := s.forget) h.buffer
    have hcol := h.buffer.col_le
    refine h.forget.setCursorCol hforget h0 ?_
    exact Int.le_trans hle hcol

theorem Inv.moveWordForwards (h : s.Inv) (metrics : Metrics) : (s.moveWordForwards metrics).Inv := by
  have hforget : s.forget.lastAction ≠ some .yank := by rintro ⟨⟩
  unfold State.moveWordForwards
  simp only
  split
  · split
    · rename_i hline
      exact h.forget.goDown hforget hline
    · exact h.forget
  · obtain ⟨h0, hle⟩ := wordForwards_bounds metrics (s := s.forget) h.buffer
    exact h.forget.setCursorCol hforget h0 hle

theorem Inv.deleteWordBackwards (h : s.Inv) (metrics : Metrics) :
    (s.deleteWordBackwards metrics).Inv := by
  have hstored := Stored.push h.exit.stored h.buffer
  unfold State.deleteWordBackwards
  simp only
  split
  · split
    · rename_i hline
      refine Stored.edit ?_ (h.buffer.mergePrevious hline) ?_
      · exact hstored.of_eq rfl rfl rfl
      · rintro ⟨⟩
    · exact h.exit
  · rename_i hcol
    refine Stored.edit ?_ ?_ ?_
    · exact hstored.of_eq rfl rfl rfl
    · obtain ⟨h0, hle⟩ := wordBackwards_bounds metrics (s := s.exitHistoryBrowsing.forget) h.buffer
      have hfrom : (s.exitHistoryBrowsing.moveWordBackwards metrics).buffer.cursorCol =
          findWordBackward s.buffer.cursorCol
            (s.exitHistoryBrowsing.forget.words metrics s.buffer.before) := by
        have hne : ¬ s.exitHistoryBrowsing.forget.buffer.cursorCol = 0 := hcol
        unfold State.moveWordBackwards
        simp only
        rw [if_neg hne]
        rfl
      have hcolLe := h.buffer.col_le
      rw [hfrom]
      refine h.buffer.setCurrent h0 ?_
      have hlength := length_upTo h0 (Int.le_trans hle hcolLe)
      calc _ = _ := hlength.symm
        _ ≤ _ := length_le_append _ _
    · rintro ⟨⟩

theorem Inv.deleteWordForward (h : s.Inv) (metrics : Metrics) : (s.deleteWordForward metrics).Inv := by
  have hstored := Stored.push h.exit.stored h.buffer
  unfold State.deleteWordForward
  simp only
  split
  · split
    · rename_i hline
      refine Stored.keepColumns ?_ (h.buffer.mergeNext hline) h.columns rfl rfl ?_
      · exact hstored.of_eq rfl rfl rfl
      · rintro ⟨⟩
    · exact h.exit
  · refine Stored.edit ?_ ?_ ?_
    · exact hstored.of_eq rfl rfl rfl
    · exact valid_setBefore h.buffer _
    · rintro ⟨⟩

theorem findAfter_le {start col : ℕ} (h : findAfter char line start = some col) :
    col ≤ line.length := by
  unfold findAfter at h
  split at h
  · rename_i hstart
    obtain ⟨found, hfound, rfl⟩ := Option.map_eq_some_iff.mp h
    obtain ⟨before, after, hsplit, rfl⟩ := TextSearch.find_occursAt hfound
    have hlength := congrArg length hsplit
    rw [length_drop, length_append] at hlength
    omega
  · cases h

theorem findBefore_le {stop col : ℕ} (h : findBefore char line stop = some col) :
    col ≤ line.length := by
  have hmem := mem_of_find?_eq_some h
  rw [mem_reverse, mem_range] at hmem
  have htake := length_take_le stop line
  have hle := length_take_le' stop line
  omega

theorem Inv.jumpToChar (h : s.Inv) (char : Text) (direction : Direction) :
    (s.jumpToChar char direction).Inv := by
  have hforget : s.forget.lastAction ≠ some .yank := by rintro ⟨⟩
  obtain ⟨l, hl⟩ := Int.eq_ofNat_of_zero_le h.buffer.line_nonneg
  have hlt := h.buffer.line_lt
  unfold State.jumpToChar
  simp only
  split
  · rename_i line col hplace
    have hbounds : line < s.buffer.lines.length ∧ col ≤ (lineAt s.buffer.lines line).length := by
      cases direction with
      | forward =>
        obtain ⟨i, hi, hfound⟩ := exists_of_findSome?_eq_some hplace
        obtain ⟨found, hfound, heq⟩ := Option.map_eq_some_iff.mp hfound
        cases heq
        exact ⟨mem_range.mp (mem_of_mem_drop hi), findAfter_le hfound⟩
      | backward =>
        obtain ⟨i, hi, hfound⟩ := exists_of_findSome?_eq_some hplace
        obtain ⟨found, hfound, heq⟩ := Option.map_eq_some_iff.mp hfound
        cases heq
        rw [mem_reverse, mem_range] at hi
        change line < s.buffer.cursorLine.toNat + 1 at hi
        exact ⟨by omega, findBefore_le hfound⟩
    obtain ⟨hline, hcol⟩ := hbounds
    refine h.forget.goTo hforget (Int.natCast_nonneg _) ?_ (Int.natCast_nonneg _) ?_
    · exact Int.ofNat_lt.mpr hline
    · exact Int.ofNat_le.mpr hcol
  · exact h.forget

end Moves

/-- Deleting the marker before the cursor leaves the current line, renumbered, long enough for
the cursor. -/
def RenumberFits (metrics : Metrics) (s : State) : Prop :=
  ∀ targetId ∈ s.markerBefore metrics,
    s.buffer.cursorCol - graphemeLength (s.lastGrapheme metrics) ≤
      (renumber targetId s.buffer.currentLine).length

instance (metrics : Metrics) (s : State) : Decidable (RenumberFits metrics s) :=
  inferInstanceAs (Decidable (∀ targetId ∈ s.markerBefore metrics, _))

theorem valid_deleteBefore {b : Buffer} (h : b.Valid) (f : Text → Text) {col : ℤ} (h0 : 0 ≤ col)
    (hcol : col ≤ (f b.currentLine).length) :
    let renumbered : Buffer := { b with lines := b.lines.map f }
    Buffer.Valid { renumbered.setCurrent (upTo col renumbered.currentLine ++ renumbered.after) with
      cursorCol := col } := by
  obtain ⟨front, pre, post, back, rfl⟩ := h.exists_placed
  rw [Buffer.currentLine_placed] at hcol
  have hlines : (Buffer.placed front pre post back).lines.map f =
      front.map f ++ f (pre ++ post) :: back.map f := by simp
  have hindex : (Buffer.placed front pre post back).cursorLine = (front.map f).length := by simp
  intro renumbered
  have hcurrent : renumbered.currentLine = f (pre ++ post) := by
    show lineAt ((Buffer.placed front pre post back).lines.map f)
      (Buffer.placed front pre post back).cursorLine = _
    rw [hlines, hindex, lineAt_front]
  have hset : ∀ line, { renumbered.setCurrent line with cursorCol := col } =
      (⟨front.map f ++ line :: back.map f, (front.map f).length, col⟩ : Buffer) := by
    intro line
    show (⟨setLine ((Buffer.placed front pre post back).lines.map f)
      (Buffer.placed front pre post back).cursorLine line,
      (Buffer.placed front pre post back).cursorLine, col⟩ : Buffer) = _
    rw [hlines, hindex, setLine_front]
  rw [hcurrent, hset]
  refine Buffer.valid_of_line h0 ?_
  have hlength := length_upTo h0 hcol
  calc col = _ := hlength.symm
    _ ≤ _ := length_le_append _ _

theorem Inv.handleBackspace (h : s.Inv) (metrics : Metrics) (hfits : RenumberFits metrics s) :
    (s.handleBackspace metrics).Inv := by
  have hstored := Stored.push h.exit.forget.stored h.buffer
  unfold State.handleBackspace
  simp only
  split
  · rename_i hcol
    have hle := lastGrapheme_le metrics (s := s) h.buffer hcol
    have hlast : s.exitHistoryBrowsing.forget.pushUndoSnapshot.lastGrapheme metrics =
        s.lastGrapheme metrics := rfl
    have hmarker : s.exitHistoryBrowsing.forget.pushUndoSnapshot.markerBefore metrics =
        s.markerBefore metrics := rfl
    have hcolLe := h.buffer.col_le
    rw [hlast, hmarker]
    cases hcase : s.markerBefore metrics with
    | none =>
      refine Stored.edit ?_ ?_ ?_
      · exact hstored
      · refine h.buffer.setCurrent ?_ ?_
        · show 0 ≤ s.buffer.cursorCol - _
          omega
        · have hcolLe := h.buffer.col_le
          have hlength := length_upTo
            (show 0 ≤ s.buffer.cursorCol - graphemeLength (s.lastGrapheme metrics) by omega)
            (show s.buffer.cursorCol - graphemeLength (s.lastGrapheme metrics) ≤
              s.buffer.currentLine.length by omega)
          calc _ = _ := hlength.symm
            _ ≤ _ := length_le_append _ _
      · rintro ⟨⟩
    | some targetId =>
      have hnonneg : 0 ≤ s.buffer.cursorCol - graphemeLength (s.lastGrapheme metrics) := by omega
      refine Stored.edit ?_ ?_ ?_
      · exact hstored.of_eq rfl rfl rfl
      · exact valid_deleteBefore h.buffer (renumber targetId) hnonneg (hfits targetId hcase)
      · rintro ⟨⟩
  · split
    · rename_i hline
      refine Stored.edit hstored ?_ ?_
      · exact h.buffer.mergePrevious hline
      · rintro ⟨⟩
    · exact h.exit.forget

end State

end Pidrei.Editor
