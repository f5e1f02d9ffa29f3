import Pidrei.Library.Runs
import Pidrei.MainScreen

/-!
What the terminal shows after each frame. The screen is a view of the frame's lines
from the top of the viewport on, and every branch of the renderer keeps it one, as long
as the cursor is put into a row of the screen.
-/
namespace Pidrei.MainScreen

open Terminal List

variable {α : Type*}

section Moves

variable {d : Device Text α} {s : Screen α} {doc : ℕ → ℕ → α} {top line next : ℕ}

theorem view_moveRows (hs : View d doc top line s) (htop : top ≤ next)
    (hbottom : next < top + d.height) : View d doc top next (d.run s (moveRows (next - line))) := by
  unfold moveRows
  split
  · exact hs.down _ (by omega) hbottom
  · split
    · exact hs.up _ (by omega) htop
    · rw [show next = line by omega]
      exact hs

def cursorRow (hardwareCursorRow : ℕ) (cursorPos : Option Cursor) (totalLines : ℕ) : ℕ :=
  match cursorPos with
  | none => hardwareCursorRow
  | some cursor => if totalLines = 0 then hardwareCursorRow else min cursor.row (totalLines - 1)

variable (cursorPos : Option Cursor)

theorem positionHardwareCursor_fst (totalLines : ℕ) (shown : Bool) :
    (positionHardwareCursor line cursorPos totalLines shown).1 =
      cursorRow line cursorPos totalLines := by
  cases cursorPos with
  | none => rfl
  | some cursor =>
    by_cases hlines : totalLines = 0
    · simp only [positionHardwareCursor, cursorRow, if_pos hlines]
    · simp only [positionHardwareCursor, cursorRow, if_neg hlines]

theorem view_position (hs : View d doc top line s) (cursorPos : Option Cursor) (totalLines : ℕ)
    (shown : Bool) (htop : top ≤ cursorRow line cursorPos totalLines)
    (hbottom : cursorRow line cursorPos totalLines < top + d.height) :
    View d doc top (cursorRow line cursorPos totalLines)
      (d.run s (positionHardwareCursor line cursorPos totalLines shown).2) := by
  unfold positionHardwareCursor
  unfold cursorRow at htop hbottom ⊢
  cases cursorPos with
  | none => exact hs
  | some cursor =>
    simp only at htop hbottom ⊢
    split
    · exact hs
    · rename_i hlines
      rw [if_neg hlines] at htop hbottom
      rw [run_append]
      have hmoved := (view_moveRows hs htop hbottom).column (cursor.col + 1)
      cases shown <;> exact hmoved

theorem view_positioned {cursorPos : Option Cursor} {totalLines : ℕ} (shown : Bool)
    (hs : View d doc top line s) (hlines : totalLines ≤ top + d.height)
    (hcursor : ∀ cursor ∈ cursorPos, top ≤ cursor.row ∧ cursor.row < totalLines) :
    View d doc top (positionHardwareCursor line cursorPos totalLines shown).1
      (d.run s (positionHardwareCursor line cursorPos totalLines shown).2) := by
  have hline := hs.line_mem
  rw [positionHardwareCursor_fst]
  have hrow : top ≤ cursorRow line cursorPos totalLines ∧
      cursorRow line cursorPos totalLines < top + d.height := by
    cases cursorPos with
    | none => exact hline
    | some cursor =>
      obtain ⟨htop, hlt⟩ := hcursor cursor rfl
      rw [cursorRow, if_neg (by omega)]
      omega
  exact view_position hs cursorPos totalLines shown hrow.1 hrow.2

theorem position_of_empty (shown : Bool) :
    (positionHardwareCursor line cursorPos 0 shown) = (line, [.resetMode 25]) := by
  cases cursorPos <;> rfl

end Moves

section Documents

def document (d : Device Text α) (lines : List Text) : ℕ → ℕ → α := d.over (fun _ => d.blankRow) 0 lines

variable {d : Device Text α} {lines old new : List Text} {first last j : ℕ}

theorem document_eq (j : ℕ) : document d lines j = (lines[j]?.map d.rowOf).getD d.blankRow := by
  rw [document, Device.over, if_pos (Nat.zero_le j), Nat.sub_zero]

theorem document_blank (h : lines.length ≤ j) : document d lines j = d.blankRow := by
  rw [document_eq, getElem?_eq_none h]
  rfl

theorem find?_reverse_range {n i : ℕ} {p : ℕ → Bool} (h : (List.range n).reverse.find? p = some i) :
    p i = true ∧ i < n ∧ ∀ j, i < j → j < n → p j = false := by
  induction n with
  | zero => cases h
  | succ n ih =>
    rw [range_succ, reverse_append, reverse_singleton, singleton_append, find?_cons] at h
    split at h
    · rename_i hp
      cases h
      exact ⟨hp, by omega, fun j _ _ => by omega⟩
    · rename_i hp
      obtain ⟨hi, hlt, hlater⟩ := ih h
      refine ⟨hi, by omega, fun j hj hn => ?_⟩
      rcases Nat.lt_or_eq_of_le (Nat.le_of_lt_succ hn) with hlt | rfl
      · exact hlater j hj hlt
      · exact hp

theorem getElem?_of_getD (hold : ∀ line ∈ old, line ≠ []) (hnew : ∀ line ∈ new, line ≠ [])
    (h : old.getD j [] = new.getD j []) : old[j]? = new[j]? := by
  rw [getD_eq_getElem?_getD, getD_eq_getElem?_getD] at h
  cases ho : old[j]? with
  | none =>
    cases hn : new[j]? with
    | none => rfl
    | some line =>
      rw [ho, hn] at h
      exact absurd h.symm (hnew line (mem_of_getElem? hn))
  | some line =>
    cases hn : new[j]? with
    | none =>
      rw [ho, hn] at h
      exact absurd h (hold line (mem_of_getElem? ho))
    | some other =>
      rw [ho, hn] at h
      exact congrArg some h

theorem eq_of_changedRange (hold : ∀ line ∈ old, line ≠ []) (hnew : ∀ line ∈ new, line ≠ [])
    (h : changedRange old new = none) : new = old := by
  have hempty : ((range (max new.length old.length)).filter fun i =>
      decide (old.getD i [] ≠ new.getD i [])) = [] := by
    unfold changedRange at h
    simp only at h
    split at h
    · cases h
    · split at h
      · cases h
      · rename_i hnone
        by_contra hne
        exact hnone _ _ (head?_eq_some_head hne) (getLast?_eq_some_getLast hne)
  refine ext_getElem? fun j => ?_
  by_cases hj : j < max new.length old.length
  · have hsame := filter_eq_nil_iff.mp hempty j (mem_range.mpr hj)
    refine (getElem?_of_getD hold hnew ?_).symm
    simpa only [decide_eq_true_eq, ne_eq, not_not] using hsame
  · rw [getElem?_eq_none (by omega), getElem?_eq_none (by omega)]

/-- A range outside of which nothing has changed. -/
structure Covers (old new : List Text) (first last : ℕ) : Prop where
  before : ∀ j < first, old[j]? = new[j]?
  after : ∀ j, last < j → old[j]? = new[j]?
  order : first ≤ last
  within : last < max new.length old.length
  first : first ≤ old.length
  appended : old.length < new.length → last = new.length - 1

theorem covers_of_changedRange (hold : ∀ line ∈ old, line ≠ []) (hnew : ∀ line ∈ new, line ≠ [])
    (h : changedRange old new = some (first, last)) : Covers old new first last := by
  have hsame : ∀ j, decide (old.getD j [] ≠ new.getD j []) = false → old[j]? = new[j]? := by
    intro j hj
    refine getElem?_of_getD hold hnew ?_
    simpa only [decide_eq_false_iff_not, ne_eq, not_not] using hj
  unfold changedRange at h
  simp only [head?_filter, getLast?_filter] at h
  split at h
  · rename_i happended
    have hend : ∀ j, new.length - 1 < j → old[j]? = new[j]? := by
      intro j hj
      rw [getElem?_eq_none (by omega), getElem?_eq_none (by omega)]
    cases hfirst : (range (max new.length old.length)).find? fun i =>
        decide (old.getD i [] ≠ new.getD i []) with
    | none =>
      rw [hfirst] at h
      cases h
      rw [find?_range_eq_none] at hfirst
      have hbefore : ∀ j < old.length, old[j]? = new[j]? := fun j hj =>
        hsame j ((Bool.not_eq_true' _).mp (hfirst j (by omega)))
      exact ⟨hbefore, hend, by simp only [Option.getD_none]; omega, by omega, Nat.le_refl _,
        fun _ => rfl⟩
    | some changed =>
      rw [hfirst] at h
      cases h
      rw [find?_range_eq_some] at hfirst
      obtain ⟨-, hmem, hbefore⟩ := hfirst
      have hmem := mem_range.mp hmem
      have hbefore : ∀ j < changed, old[j]? = new[j]? := fun j hj =>
        hsame j ((Bool.not_eq_true' _).mp (hbefore j hj))
      have hfirst : changed ≤ old.length := by
        by_contra hlt
        have hmissing := hbefore old.length (by omega)
        rw [getElem?_eq_none (Nat.le_refl _), getElem?_eq_getElem happended] at hmissing
        cases hmissing
      exact ⟨hbefore, hend, by simp only [Option.getD_some]; omega, by omega, hfirst, fun _ => rfl⟩
  · rename_i hnot
    split at h
    · rename_i first' last' hfirst hlast
      cases h
      rw [find?_range_eq_some] at hfirst
      obtain ⟨hchanged, hmem, hbefore⟩ := hfirst
      obtain ⟨hlastChanged, hlt, hafter⟩ := find?_reverse_range hlast
      have horder : first ≤ last := by
        by_contra hgt
        have hnot := (Bool.not_eq_true' _).mp (hbefore last (by omega))
        rw [hlastChanged] at hnot
        cases hnot
      refine ⟨fun j hj => hsame j ((Bool.not_eq_true' _).mp (hbefore j hj)), fun j hj => ?_,
        horder, hlt, by omega, fun h => absurd h hnot⟩
      by_cases hin : j < max new.length old.length
      · exact hsame j (hafter j hj hin)
      · rw [getElem?_eq_none (by omega), getElem?_eq_none (by omega)]
    · cases h

end Documents

section Branches

variable {d : Device Text α} {s : Screen α} {r : Renderer} {frame : Frame} {new : List Text}
  {doc : ℕ → ℕ → α} {top line next first last : ℕ}

theorem view_printLines (hs : View d (fun _ => d.blankRow) 0 0 s) (hcol : s.col = 0)
    (hfits : ∀ line ∈ new, (d.cells line).length ≤ d.width) :
    View d (document d new) (new.length - d.height) (new.length - 1) (d.run s (printLines new)) := by
  have hheight := hs.bound
  cases new with
  | nil =>
    rw [document, over_nil, length_nil, Nat.zero_sub, Nat.zero_sub]
    exact hs
  | cons first rest =>
    have hfirst := hs.print hcol (hfits first mem_cons_self) rfl
    have hrest := hfirst.placeBelow false
      (fun line hline => hfits line (mem_cons_of_mem _ hline)) fun j hj _ =>
        Function.update_of_ne (by omega) ..
    rw [← over_cons, show max 0 (0 + rest.length + 1 - d.height) = rest.length + 1 - d.height by omega,
      show 0 + rest.length = rest.length + 1 - 1 by omega] at hrest
    exact hrest

/-- What a branch leaves on the screen. -/
def Lands (d : Device Text α) (s : Screen α) (new : List Text)
    (result : Renderer × List (Op Text)) : Prop :=
  View d (document d new) result.1.previousViewportTop result.1.hardwareCursorRow
    (d.run s result.2)

theorem lands_full (clear : Bool) (hheight : 0 < d.height) (hframe : frame.height = d.height)
    (hfits : ∀ line ∈ new, (d.cells line).length ≤ d.width)
    (hcursor : ∀ cursor ∈ frame.cursorPos,
      new.length - d.height ≤ cursor.row ∧ cursor.row < new.length)
    (hclean : clear = false → View d (fun _ => d.blankRow) 0 0 s ∧ s.col = 0) :
    Lands d s new (fullRender r frame new clear) := by
  have hstart : ∃ start, d.run (d.run s [.setMode 2026])
      (if clear then [Op.eraseScreen, Op.home, Op.eraseScrollback] else []) = start ∧
        View d (fun _ => d.blankRow) 0 0 start ∧ start.col = 0 := by
    cases clear with
    | false => exact ⟨s, rfl, hclean rfl⟩
    | true => exact ⟨_, rfl, view_home hheight, rfl⟩
  obtain ⟨start, hrun, hview, hcol⟩ := hstart
  have htop : max frame.height new.length - frame.height = new.length - d.height := by omega
  have hprinted := view_printLines hview hcol hfits
  have hpositioned := view_positioned frame.showHardwareCursor hprinted (by omega) hcursor
  rw [Lands, fullRender]
  simp only [run_append, htop]
  rw [hrun]
  exact hpositioned

variable {old : List Text}

theorem lands_still (hs : View d (document d old) r.previousViewportTop r.hardwareCursorRow s)
    (hlines : old.length ≤ r.previousViewportTop + d.height)
    (hcursor : ∀ cursor ∈ frame.cursorPos,
      r.previousViewportTop ≤ cursor.row ∧ cursor.row < old.length) :
    Lands d s old (renderStill r frame old) :=
  view_positioned frame.showHardwareCursor hs hlines hcursor

variable (count total : ℕ)

theorem col_clearRows : (d.run s (clearRows (count + 1))).col = 0 := by
  induction count generalizing s with
  | zero => rfl
  | succ count ih => exact ih

theorem view_clearRows (hs : View d doc top line s) (hbottom : line + count < top + d.height) :
    View d (d.blanked doc line (count + 1)) top (line + count)
      (d.run s (clearRows (count + 1))) := by
  induction count generalizing s doc line with
  | zero =>
    rw [blanked_succ, blanked_zero]
    exact hs.carriageReturn.eraseLine
  | succ count ih =>
    have hnext := hs.carriageReturn.eraseLine.down 1 rfl (by omega)
    rw [blanked_succ, show line + (count + 1) = line + 1 + count by omega]
    exact ih hnext (by omega)

theorem view_upIf (hs : View d doc top line s) (htop : top ≤ next) (hnext : next + count = line) :
    View d doc top next (d.run s (if 0 < count then [Op.up count] else [])) := by
  split
  · exact hs.up count hnext htop
  · rw [show next = line by omega]
    exact hs

theorem col_upIf : (d.run s (if 0 < count then [Op.up count] else [])).col = s.col := by
  split <;> rfl

theorem view_clearExtra (total extra : ℕ) (hs : View d doc top (total - 1) s)
    (hbottom : total + extra < top + d.height) :
    View d (d.blanked doc total (extra + 1)) top (total - 1)
      (d.run (d.run (d.run s
        (if 0 < extra + 1 ∧ 0 < (if total = 0 then 0 else 1) then
          [Op.down (if total = 0 then 0 else 1)] else []))
        (clearRows (extra + 1)))
        (if 0 < extra + 1 - 1 + (if total = 0 then 0 else 1) then
          [Op.up (extra + 1 - 1 + (if total = 0 then 0 else 1))] else [])) := by
  have hline := hs.line_mem
  by_cases htotal : total = 0
  · subst htotal
    exact view_upIf _ (view_clearRows extra hs (by omega)) hline.1 rfl
  · simp only [if_neg htotal]
    rw [if_pos ⟨Nat.succ_pos _, Nat.one_pos⟩]
    have hdown : View d doc top total (d.exec s (.down 1)) := hs.down 1 (by omega) (by omega)
    exact view_upIf _ (view_clearRows extra hdown (by omega)) hline.1 (by omega)

theorem lands_deleted
    (hs : View d (document d old) r.previousViewportTop r.hardwareCursorRow s)
    (hold : r.previousLines = old) (hlines : old.length ≤ r.previousViewportTop + d.height)
    (hshorter : new.length < old.length) (htop : r.previousViewportTop ≤ new.length - 1)
    (hsame : ∀ j < new.length, old[j]? = new[j]?)
    (hcursor : ∀ cursor ∈ frame.cursorPos,
      r.previousViewportTop ≤ cursor.row ∧ cursor.row < new.length) :
    Lands d s new (renderDeleted r frame new) := by
  have hheight := hs.line_mem
  have hmoved := (view_moveRows hs htop (by omega)).carriageReturn
  obtain ⟨extra, hextra⟩ : ∃ extra, old.length - new.length = extra + 1 :=
    ⟨old.length - new.length - 1, by omega⟩
  have hcleared := view_clearExtra new.length extra hmoved (by omega)
  have hdocument : d.blanked (document d old) new.length (extra + 1) = document d new := by
    funext j
    rw [Device.blanked]
    rcases Nat.lt_or_ge j new.length with hlt | hge
    · rw [if_neg (by omega), document_eq, document_eq, hsame j hlt]
    · rw [document_blank hge]
      split
      · rfl
      · exact document_blank (by omega)
  rw [hdocument] at hcleared
  have hpositioned := view_positioned frame.showHardwareCursor hcleared (by omega) hcursor
  rw [Lands, renderDeleted, hold, hextra]
  simp only [run_append]
  exact hpositioned

theorem view_rewriteLines {texts : List Text} (hs : View d doc top line s) (hcol : s.col = 0)
    (htexts : texts ≠ []) (hfits : ∀ text ∈ texts, (d.cells text).length ≤ d.width)
    (hblank : ∀ j, top + d.height ≤ j → doc j = d.blankRow) :
    View d (d.over doc line texts) (max top (line + texts.length - d.height))
      (line + texts.length - 1) (d.run s (rewriteLines texts)) := by
  have hline := hs.line_mem
  cases texts with
  | nil => exact absurd rfl htexts
  | cons text texts =>
    have hfirst := hs.place true hcol (hfits text mem_cons_self) nofun
    have hrest := hfirst.placeBelow true
      (fun later hlater => hfits later (mem_cons_of_mem _ hlater)) ?_
    · rw [over_cons, length_cons, show line + (texts.length + 1) - 1 = line + texts.length by omega]
      exact hrest
    · rintro j hj (hfalse | hbottom)
      · cases hfalse
      · rw [Function.update_of_ne (by omega)]
        exact hblank j hbottom

theorem view_toFirst (appendStart : Prop) [Decidable appendStart] (hs : View d doc top line s)
    (htop : top ≤ first) (hbottom : first < top + d.height ∨ appendStart ∧ first = top + d.height)
    (happend : appendStart → top < first) (hblank : ∀ j, top + d.height ≤ j → doc j = d.blankRow) :
    View d doc (max top (first + 1 - d.height)) first
      (d.run (d.run s (moveRows ((if appendStart then first - 1 else first : ℕ) - line)))
        (if appendStart then [Op.carriageReturn, Op.lineFeed] else [Op.carriageReturn])) := by
  have hline := hs.line_mem
  by_cases hstart : appendStart
  · have hgt := happend hstart
    simp only [if_pos hstart]
    have hmoved : View d doc top (first - 1) _ := view_moveRows hs (by omega) (by omega)
    have hnext := hmoved.carriageReturn.lineFeed fun h => hblank _ (by omega)
    rw [show first - 1 + 2 - d.height = first + 1 - d.height by omega,
      show first - 1 + 1 = first by omega] at hnext
    exact hnext
  · have hfirst : first < top + d.height := hbottom.resolve_right fun h => hstart h.1
    simp only [if_neg hstart]
    rw [show max top (first + 1 - d.height) = top by omega]
    exact (view_moveRows hs htop hfirst).carriageReturn

theorem col_toFirst {appendStart : Prop} [Decidable appendStart] : (d.run s
    (if appendStart then [Op.carriageReturn, Op.lineFeed] else [Op.carriageReturn])).col = 0 := by
  split
  · exact col_lineFeed
  · rfl

theorem over_rewritten (hcovers : Covers old new first last) (hfirst : first < new.length) :
    (∀ j < new.length, d.over (document d old) first
      ((new.drop first).take (min last (new.length - 1) + 1 - first)) j = document d new j) ∧
    ∀ j, new.length ≤ j → d.over (document d old) first
      ((new.drop first).take (min last (new.length - 1) + 1 - first)) j = document d old j := by
  have horder := hcovers.order
  refine ⟨fun j hj => ?_, fun j hj => ?_⟩
  · rw [Device.over]
    rcases Nat.lt_or_ge j first with hlt | hge
    · rw [if_neg (by omega), document_eq, document_eq, hcovers.before j hlt]
    · rw [if_pos hge, getElem?_take, getElem?_drop, show first + (j - first) = j by omega]
      split
      · rw [getElem?_eq_getElem hj, document_eq, document_eq, getElem?_eq_getElem hj]
        rfl
      · rw [document_eq, document_eq, hcovers.after j (by omega)]
        rfl
  · rw [Device.over, if_pos (by omega), getElem?_take, getElem?_drop,
      show first + (j - first) = j by omega, getElem?_eq_none hj, ite_self]
    rfl

theorem view_clearLonger (total previous : ℕ) (hs : View d doc top line s) (htotal : line < total)
    (hbottom : total < previous → previous ≤ top + d.height) :
    View d (if total < previous then d.blanked doc total (previous - total) else doc) top
      (if total < previous then total - 1 else line)
      (d.run s (if total < previous then moveRows ((total : ℤ) - 1 - line) ++
          (List.replicate (previous - total) [Op.carriageReturn, .lineFeed, .eraseLine]).flatten ++
          [Op.up (previous - total)]
        else [])) := by
  have hline := hs.line_mem
  split
  · rename_i hshrunk
    have hprevious := hbottom hshrunk
    have hmoved : View d doc top (total - 1) (d.run s (moveRows ((total - 1 : ℕ) - line))) :=
      view_moveRows hs (by omega) (by omega)
    rw [show ((total - 1 : ℕ) : ℤ) - line = (total : ℤ) - 1 - line by omega] at hmoved
    have herased := hmoved.eraseBelow (previous - total) (by omega)
    rw [show total - 1 + 1 = total by omega] at herased
    rw [run_append, run_append]
    exact herased.up _ (by omega) (by omega)
  · exact hs

/-- How the old frame stands to the new one where some of its lines on the screen changed. -/
structure Changed (r : Renderer) (old new : List Text) (first last height : ℕ) : Prop where
  covers : Covers old new first last
  previous : r.previousLines = old
  inside : first < new.length
  top : r.previousViewportTop ≤ first
  lines : old.length ≤ r.previousViewportTop + height
  shown : r.previousViewportTop < old.length

/-- What is left of `renderChanged` where the first changed line is on the screen. -/
theorem renderChanged_eq {layout : Layout α} {moveTargetRow finalCursorRow : ℕ}
    (hfits : (((new.drop first).take (min last (new.length - 1) + 1 - first)).any fun line =>
      decide (frame.width < layout.visibleWidth line)) = false)
    (hmove : moveTargetRow = if r.previousLines.length < new.length ∧
      first = r.previousLines.length ∧ 0 < first then first - 1 else first)
    (hfinal : finalCursorRow = if new.length < r.previousLines.length then new.length - 1
      else min last (new.length - 1))
    (hscroll : moveTargetRow ≤ r.previousViewportTop + frame.height - 1) :
    renderChanged layout r frame new first last = some
      ({ previousLines := new
         previousWidth := frame.width
         previousHeight := frame.height
         hardwareCursorRow := (positionHardwareCursor finalCursorRow frame.cursorPos new.length
           frame.showHardwareCursor).1
         maxLinesRendered := max r.maxLinesRendered new.length
         previousViewportTop := max r.previousViewportTop (finalCursorRow + 1 - frame.height) },
        [Op.setMode 2026] ++ moveRows (moveTargetRow - r.hardwareCursorRow) ++
          (if r.previousLines.length < new.length ∧ first = r.previousLines.length ∧ 0 < first
            then [Op.carriageReturn, Op.lineFeed] else [Op.carriageReturn]) ++
          rewriteLines ((new.drop first).take (min last (new.length - 1) + 1 - first)) ++
          (if new.length < r.previousLines.length then
            moveRows ((new.length : ℤ) - 1 - (min last (new.length - 1) : ℕ)) ++
              (List.replicate (r.previousLines.length - new.length)
                [Op.carriageReturn, .lineFeed, .eraseLine]).flatten ++
              [Op.up (r.previousLines.length - new.length)]
          else []) ++ [Op.resetMode 2026] ++
          (positionHardwareCursor finalCursorRow frame.cursorPos new.length
            frame.showHardwareCursor).2) := by
  have hnot : ¬ r.previousViewportTop + frame.height - 1 < moveTargetRow := by omega
  have hzero : moveTargetRow - (r.previousViewportTop + frame.height - 1) = 0 := by omega
  rw [renderChanged]
  simp only [hfits, Bool.false_eq_true, if_false, ← hmove, ← hfinal, if_neg hnot, hzero,
    Nat.add_zero, append_nil]

structure Leaves (frame : Frame) (new : List Text) (top : ℕ) (r : Renderer) : Prop where
  lines : r.previousLines = new
  width : r.previousWidth = frame.width
  height : r.previousHeight = frame.height
  top : r.previousViewportTop = top
  row : ∃ line, r.hardwareCursorRow = cursorRow line frame.cursorPos new.length

theorem lands_changed (layout : Layout α)
    (hs : View d (document d old) r.previousViewportTop r.hardwareCursorRow s)
    (hchanged : Changed r old new first last d.height) (hframe : frame.height = d.height)
    (hfits : ∀ line ∈ new, (d.cells line).length ≤ d.width)
    (hwidth : ∀ line ∈ new, layout.visibleWidth line ≤ frame.width) :
    ∃ result, renderChanged layout r frame new first last = some result ∧
      Leaves frame new (max r.previousViewportTop (new.length - d.height)) result.1 ∧
      ((∀ cursor ∈ frame.cursorPos, max r.previousViewportTop (new.length - d.height) ≤ cursor.row ∧
        cursor.row < new.length) → Lands d s new result) := by
  have horder := hchanged.covers.order
  have hwithin := hchanged.covers.within
  have hfirst := hchanged.inside
  have hfirstOld := hchanged.covers.first
  have htop := hchanged.top
  have hlines := hchanged.lines
  have hshown := hchanged.shown
  have hblank : ∀ j, r.previousViewportTop + d.height ≤ j → document d old j = d.blankRow :=
    fun j hj => document_blank (by omega)
  have hrewritten : ∀ line ∈ (new.drop first).take (min last (new.length - 1) + 1 - first),
      line ∈ new := fun line hline => mem_of_mem_drop (mem_of_mem_take hline)
  have hnone : ((new.drop first).take (min last (new.length - 1) + 1 - first)).any
      (fun line => decide (frame.width < layout.visibleWidth line)) = false := by
    rw [any_eq_false]
    intro line hline
    have hle := hwidth line (hrewritten line hline)
    rw [decide_eq_true_eq]
    omega
  have hmoved := view_toFirst (r.previousLines.length < new.length ∧
    first = r.previousLines.length ∧ 0 < first) hs htop (by rw [hchanged.previous]; omega)
    (by rw [hchanged.previous]; omega) hblank
  have hlength : ((new.drop first).take (min last (new.length - 1) + 1 - first)).length =
      min last (new.length - 1) + 1 - first := by
    rw [length_take, length_drop]
    omega
  have hne : (new.drop first).take (min last (new.length - 1) + 1 - first) ≠ [] := by
    intro hnil
    rw [hnil, length_nil] at hlength
    omega
  have hwritten := view_rewriteLines hmoved col_toFirst hne
    (fun line hline => hfits line (hrewritten line hline))
    fun j hj => document_blank (by omega)
  rw [hlength, show first + (min last (new.length - 1) + 1 - first) - 1 =
    min last (new.length - 1) by omega] at hwritten
  have hscroll : (if r.previousLines.length < new.length ∧ first = r.previousLines.length ∧
      0 < first then first - 1 else first) ≤ r.previousViewportTop + frame.height - 1 := by
    rw [hchanged.previous, hframe]
    split <;> omega
  have hrows := over_rewritten (d := d) hchanged.covers hfirst
  have hcleared := view_clearLonger new.length old.length hwritten (by omega) (by omega)
  have hdocument : (if new.length < old.length then
      d.blanked (d.over (document d old) first
        ((new.drop first).take (min last (new.length - 1) + 1 - first))) new.length
          (old.length - new.length)
      else d.over (document d old) first
        ((new.drop first).take (min last (new.length - 1) + 1 - first))) = document d new := by
    funext j
    rcases Nat.lt_or_ge j new.length with hlt | hge
    · rw [← hrows.1 j hlt]
      split
      · rw [Device.blanked, if_neg (by omega)]
      · rfl
    · rw [document_blank hge]
      split
      · rw [Device.blanked]
        split
        · rfl
        · rw [hrows.2 j hge]
          exact document_blank (by omega)
      · rw [hrows.2 j hge]
        exact document_blank (by omega)
  rw [hdocument] at hcleared
  have htopEq : max (max r.previousViewportTop (first + 1 - d.height))
      (first + (min last (new.length - 1) + 1 - first) - d.height) =
        max r.previousViewportTop (new.length - d.height) := by
    rw [show first + (min last (new.length - 1) + 1 - first) = min last (new.length - 1) + 1 by omega]
    rcases Nat.lt_or_ge old.length new.length with happended | hnot
    · rw [hchanged.covers.appended happended, Nat.min_self, Nat.sub_add_cancel (Nat.zero_lt_of_lt hfirst),
        Nat.max_assoc, Nat.max_eq_right (Nat.sub_le_sub_right hfirst _)]
    · have hle : ∀ k ≤ new.length, k - d.height ≤ r.previousViewportTop := fun k hk => by omega
      rw [Nat.max_eq_left (hle _ hfirst), Nat.max_eq_left (hle _ (by omega)), Nat.max_eq_left (hle _ (Nat.le_refl _))]
  rw [htopEq] at hcleared
  refine ⟨_, renderChanged_eq hnone rfl rfl hscroll, ?_⟩
  have hfinalTop : max r.previousViewportTop ((if new.length < old.length then new.length - 1
      else min last (new.length - 1)) + 1 - frame.height) =
        max r.previousViewportTop (new.length - d.height) := by
    rcases Nat.lt_or_ge old.length new.length with happended | hnot
    · have hlast := hchanged.covers.appended happended
      rw [if_neg (Nat.not_lt.mpr (Nat.le_of_lt happended))]
      omega
    · have hle : ∀ k ≤ new.length, k - d.height ≤ r.previousViewportTop := fun k hk => by omega
      rw [hframe, Nat.max_eq_left (hle _ (by split <;> omega)), Nat.max_eq_left (hle _ (Nat.le_refl _))]
  rw [← hchanged.previous] at hfinalTop
  refine ⟨⟨rfl, rfl, rfl, hfinalTop, _, positionHardwareCursor_fst ..⟩, fun hcursor => ?_⟩
  have hpositioned := view_positioned frame.showHardwareCursor hcleared (by omega) hcursor
  unfold Lands
  simp only [run_append]
  rw [hfinalTop, hchanged.previous]
  rw [hchanged.previous] at hpositioned
  exact hpositioned

end Branches

end Pidrei.MainScreen
