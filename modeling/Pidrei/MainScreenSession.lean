import Pidrei.MainScreenDisplay

/-!
Frame after frame on one terminal. The screen shows each frame, and the row of the
cursor is known, exactly when no frame puts the cursor above the screen.
-/
namespace Pidrei.MainScreen

open Terminal

variable {α : Type*}

/-- A renderer with its terminal, and the lines of the last frame. -/
structure Session (α : Type*) where
  renderer : Renderer
  screen : Screen α
  shown : List Text

section Sessions

variable (layout : Layout α) (width height : ℕ)

def Layout.device : Device Text α := ⟨width, height, layout.blank, layout.cells⟩

def Session.start : Session α := ⟨Renderer.start, (layout.device width height).clean, []⟩

/-- One frame; a line that is too wide raises before anything is sent. -/
def Session.next (s : Session α) (rendered : Rendered) : Session α :=
  let frame := composeFrame layout width height rendered
  match writeFrame layout s.renderer frame with
  | some (renderer, ops) => ⟨renderer, (layout.device width height).run s.screen ops,
      applyLineResets layout frame.lines⟩
  | none => s

/-- The frame's lines from the top of the viewport on are on the screen, with blank rows after
them, and the cursor is in the row where it is taken to be. -/
structure InStep (s : Session α) : Prop where
  rows : ∀ k < height, s.screen.rows k =
    document (layout.device width height) s.shown (s.renderer.previousViewportTop + k)
  cursor : s.renderer.hardwareCursorRow = s.renderer.previousViewportTop + s.screen.row

def Fits (rendered : Rendered) : Prop :=
  ∀ line ∈ applyLineResets layout (composeFrame layout width height rendered).lines,
    layout.visibleWidth line ≤ width

/-- The frame is written in full, or its cursor is not above the screen. -/
def CursorOnScreen (s : Session α) (rendered : Rendered) : Prop :=
  let frame := composeFrame layout width height rendered
  (∃ clear, plan s.renderer frame (applyLineResets layout frame.lines) = .full clear) ∨
    ∀ cursor ∈ frame.cursorPos, s.renderer.previousViewportTop ≤ cursor.row

/-- What holds between the frames. -/
structure Synced (s : Session α) : Prop where
  view : View (layout.device width height) (document (layout.device width height) s.shown)
    s.renderer.previousViewportTop s.renderer.hardwareCursorRow s.screen
  previous : s.renderer.previousLines = s.shown
  lines : s.shown.length ≤ s.renderer.previousViewportTop + height
  top : s.renderer.previousViewportTop < s.shown.length ∨ s.shown = [] ∧
    s.renderer.previousViewportTop = 0 ∧ s.renderer.hardwareCursorRow = 0 ∧ s.screen.col = 0
  width : s.renderer.previousWidth = 0 ∨ s.renderer.previousWidth = width
  height : s.renderer.previousHeight = 0 ∨ s.renderer.previousHeight = height
  nonempty : ∀ line ∈ s.shown, line ≠ []

end Sessions

section Frames

variable {layout : Layout α} {width height : ℕ} {s : Session α} {rendered : Rendered} {r : Renderer}
  {frame : Frame} {new : List Text}

theorem length_extractCursorPosition (lines : List Text) (height : ℕ) :
    (extractCursorPosition layout lines height).1.length = lines.length := by
  unfold extractCursorPosition
  simp only
  split
  · exact List.length_set
  · rfl

variable {cursor : Cursor} {first last : ℕ} {p : Plan}

theorem row_of_extract {lines : List Text}
    (h : cursor ∈ (extractCursorPosition layout lines height).2) :
    lines.length - height ≤ cursor.row ∧ cursor.row < lines.length := by
  unfold extractCursorPosition at h
  simp only at h
  split at h
  · rename_i row index hfound
    cases h
    obtain ⟨found, hmem, hsome⟩ := List.exists_of_findSome?_eq_some hfound
    obtain ⟨position, -, heq⟩ := Option.map_eq_some_iff.mp hsome
    cases heq
    rw [List.mem_reverse, List.mem_iff_getElem] at hmem
    obtain ⟨k, hk, hrow⟩ := hmem
    rw [List.length_drop, List.length_range] at hk
    rw [List.getElem_drop, List.getElem_range] at hrow
    simp only
    omega
  · cases h

theorem cursor_composeFrame (h : cursor ∈ (composeFrame layout width height rendered).cursorPos) :
    (applyLineResets layout (composeFrame layout width height rendered).lines).length - height ≤
        cursor.row ∧
      cursor.row < (applyLineResets layout (composeFrame layout width height rendered).lines).length := by
  rw [applyLineResets, List.length_map, composeFrame, length_extractCursorPosition]
  exact row_of_extract h

theorem applyLineResets_ne_nil (lines : List Text) :
    ∀ line ∈ applyLineResets layout lines, line ≠ [] := by
  intro line hline
  obtain ⟨text, -, rfl⟩ := List.mem_map.mp hline
  intro hnil
  cases (List.append_eq_nil_iff.mp hnil).2

inductive Branch (r : Renderer) (frame : Frame) (new : List Text) : Plan → Prop
  | fresh (lines : r.previousLines = []) : Branch r frame new (.full false)
  | cleared (lines : r.previousLines ≠ []) : Branch r frame new (.full true)
  | still (lines : r.previousLines ≠ []) (range : changedRange r.previousLines new = none) :
      Branch r frame new .still
  | deleted {first last : ℕ} (lines : r.previousLines ≠ [])
      (range : changedRange r.previousLines new = some (first, last)) (beyond : new.length ≤ first)
      (top : r.previousViewportTop ≤ new.length - 1) : Branch r frame new .deleted
  | changed {first last : ℕ} (lines : r.previousLines ≠ [])
      (range : changedRange r.previousLines new = some (first, last)) (inside : first < new.length)
      (top : r.previousViewportTop ≤ first) : Branch r frame new (.changed first last)

theorem branch_of_plan (hwidth : r.previousWidth = 0 ∨ r.previousWidth = frame.width)
    (hheight : r.previousHeight = 0 ∨ r.previousHeight = frame.height) :
    Branch r frame new (plan r frame new) := by
  have hnotWidth : ¬ (r.previousWidth ≠ 0 ∧ r.previousWidth ≠ frame.width) := by omega
  have hnotHeight : ¬ (r.previousHeight ≠ 0 ∧ r.previousHeight ≠ frame.height) := by omega
  unfold plan
  simp only [if_neg hnotWidth, if_neg hnotHeight]
  split
  · rename_i hfresh
    exact .fresh hfresh.1
  · rename_i hlines
    have hlines : r.previousLines ≠ [] := fun h => hlines ⟨h, hnotWidth, hnotHeight⟩
    split
    · exact .cleared hlines
    · split
      · exact .still hlines ‹_›
      · rename_i first last hrange
        split
        · rename_i hbeyond
          split
          · exact .cleared hlines
          · rename_i htop
            split
            · exact .cleared hlines
            · exact .deleted hlines hrange hbeyond (by omega)
        · rename_i hinside
          split
          · exact .cleared hlines
          · exact .changed hlines hrange (by omega) (by omega)

/-- What a branch leaves, put together. -/
theorem synced_of_lands {result : Renderer × List (Op Text)}
    (hlands : Lands (layout.device width height) s.screen new result)
    (hprevious : result.1.previousLines = new)
    (hlines : new.length ≤ result.1.previousViewportTop + height)
    (htop : result.1.previousViewportTop < new.length ∨ new = [] ∧
      result.1.previousViewportTop = 0 ∧ result.1.hardwareCursorRow = 0 ∧
        ((layout.device width height).run s.screen result.2).col = 0)
    (hwidth : result.1.previousWidth = 0 ∨ result.1.previousWidth = width)
    (hheight : result.1.previousHeight = 0 ∨ result.1.previousHeight = height)
    (hnonempty : ∀ line ∈ new, line ≠ []) :
    Synced layout width height ⟨result.1, (layout.device width height).run s.screen result.2, new⟩ :=
  ⟨hlands, hprevious, hlines, htop, hwidth, hheight, hnonempty⟩

theorem cells_le (hfits : ∀ line ∈ new, layout.visibleWidth line ≤ width) :
    ∀ line ∈ new, ((layout.device width height).cells line).length ≤ width := by
  intro line hline
  have hcells := layout.length_cells line
  have hwidth := hfits line hline
  change (layout.cells line).length ≤ width
  omega

variable (hheight : 0 < height) (hframe : frame.width = width ∧ frame.height = height)
  (hnonempty : ∀ line ∈ new, line ≠ [])
  (hfits : ∀ line ∈ new, layout.visibleWidth line ≤ width)
  (hcursor : ∀ cursor ∈ frame.cursorPos, new.length - height ≤ cursor.row ∧ cursor.row < new.length)

include hheight hframe hnonempty hfits hcursor

theorem synced_full (clear : Bool)
    (hclean : clear = false → View (layout.device width height)
      (fun _ => (layout.device width height).blankRow) 0 0 s.screen ∧ s.screen.col = 0) :
    Synced layout width height ⟨(fullRender r frame new clear).1,
      (layout.device width height).run s.screen (fullRender r frame new clear).2, new⟩ := by
  have htop : (fullRender r frame new clear).1.previousViewportTop = new.length - height := by
    rw [fullRender]
    simp only
    omega
  refine synced_of_lands (lands_full clear hheight hframe.2 (cells_le hfits) hcursor hclean) rfl ?_ ?_
    (.inr hframe.1) (.inr hframe.2) hnonempty
  · rw [htop]
    omega
  · rw [htop]
    rcases Nat.eq_zero_or_pos new.length with hzero | hpos
    · have hnil := List.length_eq_zero_iff.mp hzero
      subst hnil
      refine .inr ⟨rfl, Nat.zero_sub _, ?_, ?_⟩
      · rw [fullRender, List.length_nil, position_of_empty]
      · rw [fullRender, List.length_nil, position_of_empty]
        cases clear with
        | false => exact (hclean rfl).2
        | true => rfl
    · omega

omit hheight hfits in
theorem synced_deleted (hs : Synced layout width height s)
    (hrange : changedRange s.shown new = some (first, last)) (hbeyond : new.length ≤ first)
    (htop : s.renderer.previousViewportTop ≤ new.length - 1)
    (hrow : ∀ cursor ∈ frame.cursorPos, s.renderer.previousViewportTop ≤ cursor.row) :
    Synced layout width height ⟨(renderDeleted s.renderer frame new).1,
      (layout.device width height).run s.screen (renderDeleted s.renderer frame new).2, new⟩ := by
  have hcovers := covers_of_changedRange hs.nonempty hnonempty hrange
  have horder := hcovers.order
  have hwithin := hcovers.within
  have hlands := lands_deleted hs.view hs.previous hs.lines (by omega) htop
    (fun j hj => hcovers.before j (by omega)) fun cursor hin => ⟨hrow cursor hin, (hcursor cursor hin).2⟩
  have hlines := hs.lines
  refine synced_of_lands hlands rfl ?_ ?_ (.inr hframe.1) (.inr hframe.2) hnonempty
  · change new.length ≤ s.renderer.previousViewportTop + height
    omega
  · change s.renderer.previousViewportTop < new.length ∨ _
    obtain ⟨extra, hextra⟩ : ∃ extra, s.renderer.previousLines.length - new.length = extra + 1 :=
      ⟨s.shown.length - new.length - 1, by rw [hs.previous]; omega⟩
    rcases Nat.eq_zero_or_pos new.length with hzero | hpos
    · have hnil := List.length_eq_zero_iff.mp hzero
      subst hnil
      refine .inr ⟨rfl, Nat.le_zero.mp htop, ?_, ?_⟩
      · rw [renderDeleted, List.length_nil, position_of_empty]
      · rw [List.length_nil] at hextra
        rw [renderDeleted, List.length_nil, position_of_empty, hextra]
        simp only [run_append]
        exact (col_upIf _).trans (col_clearRows extra)
    · omega

omit hheight in
theorem synced_changed (hs : Synced layout width height s)
    (hrange : changedRange s.shown new = some (first, last)) (hinside : first < new.length)
    (htop : s.renderer.previousViewportTop ≤ first) (hshown : s.shown ≠ [])
    (hrow : ∀ cursor ∈ frame.cursorPos, s.renderer.previousViewportTop ≤ cursor.row) :
    ∃ result, renderChanged layout s.renderer frame new first last = some result ∧
      Synced layout width height ⟨result.1, (layout.device width height).run s.screen result.2, new⟩ := by
  have hcovers := covers_of_changedRange hs.nonempty hnonempty hrange
  have hchanged : Changed s.renderer s.shown new first last height :=
    ⟨hcovers, hs.previous, hinside, htop, hs.lines, hs.top.resolve_right fun h => hshown h.1⟩
  have hfirst := hcovers.first
  have hlines := hs.lines
  have hshownTop := hchanged.shown
  have hcells : ∀ line ∈ new, ((layout.device width height).cells line).length ≤ width :=
    cells_le hfits
  obtain ⟨result, hresult, hleaves, hlands⟩ := lands_changed layout hs.view hchanged
    hframe.2 hcells (hframe.1 ▸ hfits)
  have hlands := hlands fun cursor hin =>
    ⟨Nat.max_le.mpr ⟨hrow cursor hin, (hcursor cursor hin).1⟩, (hcursor cursor hin).2⟩
  have hnew : max s.renderer.previousViewportTop (new.length - height) < new.length := by omega
  refine ⟨result, hresult, synced_of_lands hlands hleaves.lines ?_ (.inl ?_)
    (.inr (hleaves.width.trans hframe.1)) (.inr (hleaves.height.trans hframe.2)) hnonempty⟩
  · rw [hleaves.top]
    change new.length ≤ max s.renderer.previousViewportTop (new.length - height) + height
    omega
  · rw [hleaves.top]
    exact hnew

theorem synced_render (hs : Synced layout width height s)
    (hbranch : Branch s.renderer frame new p)
    (hmeets : (∃ clear, p = .full clear) ∨
      ∀ cursor ∈ frame.cursorPos, s.renderer.previousViewportTop ≤ cursor.row) :
    ∃ result, render layout s.renderer frame new p = some result ∧
      Synced layout width height ⟨result.1, (layout.device width height).run s.screen result.2, new⟩ := by
  cases hbranch with
  | fresh lines =>
    rw [hs.previous] at lines
    refine ⟨_, rfl, synced_full hheight hframe hnonempty hfits hcursor false fun _ => ?_⟩
    have htop := hs.top
    rw [lines] at htop
    obtain ⟨-, htop, hrow, hcol⟩ := htop.resolve_left (Nat.not_lt_zero _)
    have hview := hs.view
    rw [lines, htop, hrow, document, over_nil] at hview
    exact ⟨hview, hcol⟩
  | cleared =>
    exact ⟨_, rfl, synced_full hheight hframe hnonempty hfits hcursor true (fun h => by cases h)⟩
  | still lines range =>
    rw [hs.previous] at lines range
    have hrow := hmeets.resolve_left (by rintro ⟨_, h⟩; cases h)
    obtain rfl := eq_of_changedRange hs.nonempty hnonempty range
    have hlands := lands_still hs.view hs.lines fun cursor hin =>
      ⟨hrow cursor hin, (hcursor cursor hin).2⟩
    exact ⟨_, rfl, synced_of_lands hlands hs.previous hs.lines
      (.inl (hs.top.resolve_right fun h => lines h.1)) hs.width (.inr hframe.2) hnonempty⟩
  | deleted lines range beyond top =>
    rw [hs.previous] at range
    have hrow := hmeets.resolve_left (by rintro ⟨_, h⟩; cases h)
    exact ⟨_, rfl, synced_deleted hframe hnonempty hcursor hs range beyond top hrow⟩
  | changed lines range inside top =>
    rw [hs.previous] at lines range
    have hrow := hmeets.resolve_left (by rintro ⟨_, h⟩; cases h)
    exact synced_changed hframe hnonempty hfits hcursor hs range inside top lines hrow

omit hheight in
theorem row_lt_top (hs : Synced layout width height s) (hbranch : Branch s.renderer frame new p)
    (hfull : ∀ clear, p ≠ .full clear) (hin : cursor ∈ frame.cursorPos)
    (habove : cursor.row < s.renderer.previousViewportTop) :
    ∃ result, render layout s.renderer frame new p = some result ∧
      result.1.hardwareCursorRow < result.1.previousViewportTop := by
  have hlast := (hcursor cursor hin).2
  have hrow : ∀ line, cursorRow line frame.cursorPos new.length = cursor.row := by
    intro line
    rw [Option.mem_def.mp hin, cursorRow, if_neg (by omega)]
    omega
  cases hbranch with
  | fresh => exact absurd rfl (hfull false)
  | cleared => exact absurd rfl (hfull true)
  | still =>
    refine ⟨_, rfl, ?_⟩
    rw [renderStill, positionHardwareCursor_fst, hrow]
    exact habove
  | deleted =>
    refine ⟨_, rfl, ?_⟩
    rw [renderDeleted, positionHardwareCursor_fst, hrow]
    exact habove
  | changed lines range inside top =>
    rw [hs.previous] at lines range
    have hcovers := covers_of_changedRange hs.nonempty hnonempty range
    have hchanged : Changed s.renderer s.shown new _ _ height :=
      ⟨hcovers, hs.previous, inside, top, hs.lines, hs.top.resolve_right fun h => lines h.1⟩
    obtain ⟨result, hresult, hleaves, -⟩ := lands_changed layout hs.view hchanged hframe.2
      (cells_le hfits) (hframe.1 ▸ hfits)
    refine ⟨result, hresult, ?_⟩
    obtain ⟨line, hline⟩ := hleaves.row
    rw [hleaves.top, hline, hrow]
    omega

end Frames

section Runs

variable {layout : Layout α} {width height : ℕ} {s : Session α} {rendered : Rendered}

theorem next_of_render {result : Renderer × List (Op Text)}
    (h : writeFrame layout s.renderer (composeFrame layout width height rendered) = some result) :
    s.next layout width height rendered = ⟨result.1,
      (layout.device width height).run s.screen result.2,
      applyLineResets layout (composeFrame layout width height rendered).lines⟩ := by
  rw [Session.next]
  simp only [h]

theorem size_composeFrame : (composeFrame layout width height rendered).width = width ∧
    (composeFrame layout width height rendered).height = height := ⟨rfl, rfl⟩

theorem Synced.inStep (hs : Synced layout width height s) : InStep layout width height s :=
  ⟨hs.view.rows, hs.view.cursor⟩

theorem Synced.branch (hs : Synced layout width height s) :
    Branch s.renderer (composeFrame layout width height rendered)
      (applyLineResets layout (composeFrame layout width height rendered).lines)
      (plan s.renderer (composeFrame layout width height rendered)
        (applyLineResets layout (composeFrame layout width height rendered).lines)) :=
  branch_of_plan hs.width hs.height

theorem synced_next (hheight : 0 < height) (hs : Synced layout width height s)
    (hfits : Fits layout width height rendered)
    (hmeets : CursorOnScreen layout width height s rendered) :
    Synced layout width height (s.next layout width height rendered) := by
  obtain ⟨result, hresult, hsynced⟩ := synced_render hheight size_composeFrame
    (applyLineResets_ne_nil _) hfits (fun _ => cursor_composeFrame) hs hs.branch hmeets
  rw [next_of_render hresult]
  exact hsynced

theorem not_inStep_next (hs : Synced layout width height s)
    (hfits : Fits layout width height rendered)
    (hnot : ¬ CursorOnScreen layout width height s rendered) :
    ¬ InStep layout width height (s.next layout width height rendered) := by
  rw [CursorOnScreen, not_or, not_exists] at hnot
  obtain ⟨hfull, hcursor⟩ := hnot
  simp only [not_forall, Nat.not_le] at hcursor
  obtain ⟨cursor, hin, habove⟩ := hcursor
  obtain ⟨result, hresult, hlt⟩ := row_lt_top size_composeFrame (applyLineResets_ne_nil _) hfits
    (fun _ => cursor_composeFrame) hs hs.branch hfull hin habove
  rw [next_of_render hresult]
  intro h
  have hrow := h.cursor
  simp only at hrow
  omega

theorem synced_start (hheight : 0 < height) :
    Synced layout width height (Session.start layout width height) := by
  refine ⟨⟨fun k _ => ?_, rfl, hheight⟩, rfl, Nat.zero_le _, .inr ⟨rfl, rfl, rfl, rfl⟩, .inl rfl,
    .inl rfl, nofun⟩
  rw [document, Session.start, over_nil]
  rfl

/-- Over any frames of lines that fit: the screen shows every frame and the row of the cursor is
right after it exactly when no frame that is not written in full puts its cursor above the
screen. -/
theorem inStep_iff (hheight : 0 < height) (frames : List Rendered)
    (hfits : ∀ rendered ∈ frames, Fits layout width height rendered) :
    (∀ s ∈ Runs.states (Session.next layout width height) (Session.start layout width height) frames,
      InStep layout width height s) ↔
    Runs.Along (Session.next layout width height) (CursorOnScreen layout width height)
      (Session.start layout width height) frames := by
  have hgood : ∀ s, Synced layout width height s → InStep layout width height s :=
    fun _ => Synced.inStep
  have hstep : ∀ s rendered, Fits layout width height rendered → Synced layout width height s →
      CursorOnScreen layout width height s rendered →
        Synced layout width height (s.next layout width height rendered) :=
    fun _ _ hfits hs hmeets => synced_next hheight hs hfits hmeets
  have hbad : ∀ s rendered, Fits layout width height rendered → Synced layout width height s →
      ¬ CursorOnScreen layout width height s rendered →
        ¬ InStep layout width height (s.next layout width height rendered) :=
    fun _ _ hfits hs hnot => not_inStep_next hs hfits hnot
  exact Runs.good_iff_along hgood hstep hbad (synced_start hheight) hfits

end Runs

/-- Texts without escape sequences but for the reset at their end. -/
def plainLayout : Layout Char where
  normalize := id
  visibleWidth := fun line => (line.takeWhile (· ≠ '\x1b')).length
  blank := ' '
  cells := fun line => line.takeWhile (· ≠ '\x1b')
  length_cells := fun _ => rfl

def renderedLines (lines : List Text) : Rendered := ⟨lines, false, false, true⟩

def threeLines : Rendered := renderedLines [['a'], ['b'], ['c']]

def cursorBelow : Rendered := renderedLines [['a'], 'b' :: cursorMarker]

def cursorAbove : Rendered := renderedLines ['a' :: cursorMarker, ['b']]

/-- On a screen of two rows a third line scrolls the first away; after it is gone the cursor is
still put into a row of the screen. -/
theorem inStep_cursorBelow :
    (∀ rendered ∈ [threeLines, cursorBelow], Fits plainLayout 4 2 rendered) ∧
    ∀ s ∈ Runs.states (Session.next plainLayout 4 2) (Session.start plainLayout 4 2)
      [threeLines, cursorBelow], InStep plainLayout 4 2 s := by
  have hfits : ∀ rendered ∈ [threeLines, cursorBelow], Fits plainLayout 4 2 rendered := by
    unfold Fits
    decide
  refine ⟨hfits, (inStep_iff (by decide) _ hfits).mpr ⟨.inl ⟨false, by decide⟩, .inr ?_, trivial⟩⟩
  intro cursor hin
  cases hin
  decide

/-- The cursor is put into the row that has scrolled away: the terminal stops at the top, and the
renderer is a row off from then on. -/
theorem lost_cursorAbove :
    (∀ rendered ∈ [threeLines, cursorAbove], Fits plainLayout 4 2 rendered) ∧
      ¬ ∀ s ∈ Runs.states (Session.next plainLayout 4 2) (Session.start plainLayout 4 2)
        [threeLines, cursorAbove], InStep plainLayout 4 2 s := by
  refine ⟨by unfold Fits; decide, fun hall => ?_⟩
  have hlast := (hall _ (List.mem_cons_of_mem _ (List.mem_cons_of_mem _ (List.mem_singleton_self _)))).cursor
  exact absurd hlast (by decide)

end Pidrei.MainScreen
