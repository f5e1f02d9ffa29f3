import Pidrei.EditorMotion
import Pidrei.Library.Lines

/-!
A text with a cursor inside it, as the lines before, the line cut at the cursor and
the lines after. Each edit of such a text gives one again.
-/
namespace Pidrei.Editor

open PythonText List

namespace Buffer

/-- The cursor is on a line and in or behind its text. -/
structure Valid (b : Buffer) : Prop where
  nonempty : b.lines ≠ []
  line_nonneg : 0 ≤ b.cursorLine
  line_lt : b.cursorLine < b.lines.length
  col_nonneg : 0 ≤ b.cursorCol
  col_le : b.cursorCol ≤ b.currentLine.length

/-- The cursor stands between `pre` and `post`. -/
def placed (front : List Text) (pre post : Text) (back : List Text) : Buffer :=
  ⟨front ++ (pre ++ post) :: back, front.length, pre.length⟩

end Buffer

section Indices

variable {α : Type*}

theorem place_natCast (length n : ℕ) : place length n = n := by
  simp [place]

theorem sliceIndex_natCast {length n : ℕ} (h : n ≤ length) : sliceIndex length n = n := by
  simp [sliceIndex, h]

variable (front : List Text) (pre post : Text)

theorem lineAt_front (line : Text) (back : List Text) :
    lineAt (front ++ line :: back) front.length = line := by
  simp [lineAt, place_natCast]

theorem setLine_front (line new : Text) (back : List Text) :
    setLine (front ++ line :: back) front.length new = front ++ new :: back := by
  simp [setLine, place_natCast]

theorem deleteLine_front (line : Text) (back : List Text) :
    deleteLine (front ++ line :: back) front.length = front ++ back := by
  rw [deleteLine, place_natCast, eraseIdx_append_of_length_le (Nat.le_refl _), Nat.sub_self]
  rfl

theorem insertLine_front (line : Text) (back : List Text) :
    insertLine (front ++ back) front.length line = front ++ line :: back := by
  have hle : front.length ≤ (front ++ back).length := by simp
  rw [insertLine, sliceIndex_natCast hle, take_left, drop_left]

theorem upTo_left : upTo pre.length (pre ++ post) = pre := by
  have hle : pre.length ≤ (pre ++ post).length := by simp
  rw [upTo, sliceIndex_natCast hle, take_left]

theorem onward_left : onward pre.length (pre ++ post) = post := by
  have hle : pre.length ≤ (pre ++ post).length := by simp
  rw [onward, sliceIndex_natCast hle, drop_left]

theorem length_upTo {col : ℤ} {text : Text} (h0 : 0 ≤ col) (h : col ≤ text.length) :
    ((upTo col text).length : ℤ) = col := by
  obtain ⟨n, rfl⟩ := Int.eq_ofNat_of_zero_le h0
  have hn : n ≤ text.length := by omega
  rw [upTo, sliceIndex_natCast hn, length_take_of_le hn]

theorem length_le_append : (pre.length : ℤ) ≤ (pre ++ post).length := by
  rw [length_append]
  omega

theorem splitLines_ne_nil (text : Text) : splitLines text ≠ [] := by
  intro h
  have hlength : (text.splitOn '\n').length = text.count '\n' + 1 := Lines.length_splitOn text
  rw [show text.splitOn '\n' = [] from h] at hlength
  cases hlength

end Indices

namespace Buffer

variable {front back : List Text} {pre post : Text} {b : Buffer} {line : Text} {col : ℤ}
  {inserted : List Text}

theorem valid_of_line (h0 : 0 ≤ col) (hcol : col ≤ line.length) :
    Valid ⟨front ++ line :: back, front.length, col⟩ := by
  refine ⟨by simp, by simp, ?_, h0, ?_⟩
  · show (front.length : ℤ) < (front ++ line :: back).length
    rw [length_append, length_cons]
    omega
  show col ≤ (lineAt (front ++ line :: back) front.length).length
  rw [lineAt_front]
  exact hcol

theorem valid_placed : Valid (placed front pre post back) :=
  valid_of_line (by omega) (length_le_append pre post)

theorem Valid.exists_placed (h : b.Valid) : ∃ front pre post back, b = placed front pre post back := by
  obtain ⟨lines, cursorLine, cursorCol⟩ := b
  obtain ⟨_, hline, hlt, hcol, hle⟩ := h
  obtain ⟨l, rfl⟩ := Int.eq_ofNat_of_zero_le hline
  obtain ⟨c, rfl⟩ := Int.eq_ofNat_of_zero_le hcol
  have hl : l < lines.length := Int.ofNat_lt.mp hlt
  have hsplit : lines = lines.take l ++ lines[l] :: lines.drop (l + 1) := by
    rw [cons_getElem_drop_succ, take_append_drop]
  have htake : (lines.take l).length = l := length_take_of_le (Nat.le_of_lt hl)
  have hcurrent : currentLine ⟨lines, l, c⟩ = lines[l] := by
    show lineAt lines l = _
    rw [lineAt, place_natCast, getElem?_eq_getElem hl]
    rfl
  rw [hcurrent] at hle
  have hc : c ≤ lines[l].length := Int.ofNat_le.mp hle
  refine ⟨lines.take l, lines[l].take c, lines[l].drop c, lines.drop (l + 1), ?_⟩
  rw [placed, take_append_drop, ← hsplit, htake, length_take_of_le hc]

@[simp] theorem currentLine_placed : (placed front pre post back).currentLine = pre ++ post :=
  lineAt_front _ _ _

@[simp] theorem before_placed : (placed front pre post back).before = pre := by
  rw [before, currentLine_placed]
  exact upTo_left pre post

@[simp] theorem after_placed : (placed front pre post back).after = post := by
  rw [after, currentLine_placed]
  exact onward_left pre post

@[simp] theorem lines_placed : (placed front pre post back).lines = front ++ (pre ++ post) :: back :=
  rfl

@[simp] theorem cursorLine_placed : (placed front pre post back).cursorLine = front.length := rfl

@[simp] theorem cursorCol_placed : (placed front pre post back).cursorCol = pre.length := rfl

theorem setCurrent_placed (line : Text) : (placed front pre post back).setCurrent line =
    ⟨front ++ line :: back, front.length, pre.length⟩ := by
  rw [setCurrent, lines_placed, cursorLine_placed, setLine_front]
  rfl

theorem Valid.setCurrent (h : b.Valid) (h0 : 0 ≤ col) (hcol : col ≤ line.length) :
    Valid { b.setCurrent line with cursorCol := col } := by
  obtain ⟨front, pre, post, back, rfl⟩ := h.exists_placed
  rw [setCurrent_placed]
  exact valid_of_line h0 hcol

theorem Valid.mergePrevious (h : b.Valid) (hline : 0 < b.cursorLine) : b.mergePrevious.Valid := by
  obtain ⟨front, pre, post, back, rfl⟩ := h.exists_placed
  obtain ⟨init, last, rfl⟩ : ∃ init last, front = init ++ [last] := by
    have hne : front ≠ [] := by
      rintro rfl
      simp at hline
    exact ⟨_, _, (dropLast_append_getLast hne).symm⟩
  have hindex : ((init ++ [last]).length : ℤ) - 1 = init.length := by simp
  have hlines : (init ++ [last]) ++ (pre ++ post) :: back =
      init ++ last :: (pre ++ post) :: back := by simp
  have hset : ∀ line : Text, init ++ line :: (pre ++ post) :: back =
      (init ++ [line]) ++ (pre ++ post) :: back := by simp
  have hlength : ∀ line : Text, ((init ++ [last]).length : ℤ) = (init ++ [line]).length := by simp
  have hmerged : (placed (init ++ [last]) pre post back).mergePrevious =
      ⟨init ++ (last ++ (pre ++ post)) :: back, init.length, last.length⟩ := by
    rw [mergePrevious, cursorLine_placed, lines_placed, currentLine_placed, hindex, hlines,
      lineAt_front, setLine_front, hset, hlength (last ++ (pre ++ post)), deleteLine_front]
    simp
  rw [hmerged]
  exact valid_of_line (by omega) (length_le_append last _)

theorem Valid.mergeNext (h : b.Valid) (hline : b.cursorLine < b.lines.length - 1) :
    b.mergeNext.Valid := by
  obtain ⟨front, pre, post, back, rfl⟩ := h.exists_placed
  obtain ⟨next, rest, rfl⟩ : ∃ next rest, back = next :: rest := by
    cases back with
    | nil => simp at hline
    | cons next rest => exact ⟨next, rest, rfl⟩
  have hindex : ∀ line : Text, (front.length : ℤ) + 1 = (front ++ [line]).length := by simp
  have hlines : ∀ line : Text, front ++ line :: next :: rest =
      (front ++ [line]) ++ next :: rest := by simp
  have hmerged : (placed front pre post (next :: rest)).mergeNext =
      ⟨front ++ (pre ++ post ++ next) :: rest, front.length, pre.length⟩ := by
    have hnext : lineAt (front ++ (pre ++ post) :: next :: rest) (front.length + 1) = next := by
      rw [hlines, hindex (pre ++ post), lineAt_front]
    rw [mergeNext, cursorLine_placed, lines_placed, currentLine_placed, hnext, setLine_front, hlines,
      hindex (pre ++ post ++ next), deleteLine_front]
    simp [placed]
  rw [hmerged]
  refine valid_of_line (by omega) ?_
  rw [append_assoc]
  exact length_le_append pre _

/-- Several lines put in at the cursor: the first one behind `pre`, the last one before `post`. -/
def insertedLines (front : List Text) (pre post : Text) (back : List Text) (inserted : List Text) :
    Buffer :=
  ⟨front ++ (pre ++ inserted.head?.getD []) :: (inserted.dropLast.drop 1 ++
      (inserted.getLast?.getD [] ++ post) :: back),
    front.length + (inserted.length - 1), (inserted.getLast?.getD []).length⟩

theorem length_middle (h : 1 < inserted.length) :
    ((inserted.dropLast.drop 1).length : ℤ) + 2 = inserted.length := by
  rw [length_drop, length_dropLast]
  omega

theorem valid_insertedLines (h : 1 < inserted.length) :
    (insertedLines front pre post back inserted).Valid := by
  have hfront : insertedLines front pre post back inserted =
      ⟨(front ++ (pre ++ inserted.head?.getD []) :: inserted.dropLast.drop 1) ++
        (inserted.getLast?.getD [] ++ post) :: back,
        (front ++ (pre ++ inserted.head?.getD []) :: inserted.dropLast.drop 1).length,
        (inserted.getLast?.getD []).length⟩ := by
    have hmiddle := length_middle h
    have hline : (front.length : ℤ) + (inserted.length - 1) =
        (front ++ (pre ++ inserted.head?.getD []) :: inserted.dropLast.drop 1).length := by
      rw [length_append, length_cons]
      omega
    rw [insertedLines, hline]
    simp
  rw [hfront]
  exact valid_of_line (by omega) (length_le_append _ post)

theorem one_lt_length_splitLines {text : Text} (h : ¬ (splitLines text).length = 1) :
    1 < (splitLines text).length := by
  have hpos := length_pos_iff.mpr (splitLines_ne_nil text)
  omega

variable (text : Text)

theorem insertText_placed : (placed front pre post back).insertText text =
    if (splitLines (normalizeText text)).length = 1 then
      placed front (pre ++ normalizeText text) post back
    else insertedLines front pre post back (splitLines (normalizeText text)) := by
  unfold Buffer.insertText
  simp only [before_placed, after_placed, setCurrent_placed, cursorCol_placed, cursorLine_placed,
    lines_placed]
  split
  · rw [placed, append_assoc, length_append]
    rfl
  · have htake : sliceIndex (front ++ (pre ++ post) :: back).length front.length = front.length :=
      sliceIndex_natCast (by simp)
    have hdrop : sliceIndex (front ++ (pre ++ post) :: back).length ((front.length : ℤ) + 1) =
        front.length + 1 := sliceIndex_natCast (n := front.length + 1) (by simp)
    rw [htake, hdrop, take_left, insertedLines]
    simp

theorem Valid.insertText (h : b.Valid) (text : Text) : (b.insertText text).Valid := by
  obtain ⟨front, pre, post, back, rfl⟩ := h.exists_placed
  rw [insertText_placed]
  split
  · exact valid_placed
  · rename_i hlines
    exact valid_insertedLines (one_lt_length_splitLines hlines)

theorem foldl_insertLine (front middle back : List Text) :
    middle.foldl (fun (done : List Text × ℤ) line => (insertLine done.1 done.2 line, done.2 + 1))
      (front ++ back, (front.length : ℤ)) =
      (front ++ (middle ++ back), (front.length : ℤ) + middle.length) := by
  induction middle generalizing front with
  | nil => simp
  | cons line rest ih =>
    have hnext : (front.length : ℤ) + 1 = (front ++ [line]).length := by simp
    have hlines : front ++ line :: back = (front ++ [line]) ++ back := by simp
    rw [foldl_cons]
    show foldl _ (insertLine (front ++ back) front.length line, (front.length : ℤ) + 1) rest = _
    rw [insertLine_front, hnext, hlines, ih, ← hnext]
    simp only [append_assoc, cons_append, nil_append, length_cons]
    refine Prod.ext rfl ?_
    show (front.length : ℤ) + 1 + rest.length = front.length + (rest.length + 1 : ℕ)
    omega

theorem insertYanked_placed : (placed front pre post back).insertYanked text =
    if (splitLines text).length = 1 then placed front (pre ++ text) post back
    else insertedLines front pre post back (splitLines text) := by
  unfold Buffer.insertYanked
  simp only [before_placed, after_placed, setCurrent_placed, cursorCol_placed, cursorLine_placed,
    lines_placed]
  split
  · rw [placed, append_assoc, length_append]
    rfl
  · rename_i hlines
    have hmiddle := length_middle (one_lt_length_splitLines hlines)
    have hhead : ∀ first : Text, front ++ first :: back = (front ++ [first]) ++ back := by simp
    have hindex : ∀ first : Text, (front.length : ℤ) + 1 = (front ++ [first]).length := by simp
    rw [setLine_front, hhead, hindex, foldl_insertLine]
    have hlast : (front.length : ℤ) + (splitLines text).length - 1 =
        ((front ++ [pre ++ (splitLines text).head?.getD []]) ++
          (splitLines text).dropLast.drop 1).length := by
      rw [length_append, length_append, length_singleton]
      omega
    simp only [hlast]
    rw [← append_assoc, insertLine_front, ← hlast, insertedLines]
    have hline : (front.length : ℤ) + (splitLines text).length - 1 =
        front.length + ((splitLines text).length - 1) := by omega
    rw [hline]
    simp

theorem Valid.insertYanked (h : b.Valid) (text : Text) : (b.insertYanked text).Valid := by
  obtain ⟨front, pre, post, back, rfl⟩ := h.exists_placed
  rw [insertYanked_placed]
  split
  · exact valid_placed
  · rename_i hlines
    exact valid_insertedLines (one_lt_length_splitLines hlines)

def HoldsYanked (b : Buffer) (yankedText : Text) : Prop :=
  if (splitLines yankedText).length = 1 then (yankedText.length : ℤ) ≤ b.cursorCol
  else (splitLines yankedText).length - 1 ≤ b.cursorLine ∧
    ((splitLines yankedText).head?.getD []).length ≤
      (lineAt b.lines (b.cursorLine - ((splitLines yankedText).length - 1))).length

theorem Valid.holdsYanked (h : b.Valid) (text : Text) : (b.insertYanked text).HoldsYanked text := by
  obtain ⟨front, pre, post, back, rfl⟩ := h.exists_placed
  rw [insertYanked_placed, HoldsYanked]
  split
  · rw [cursorCol_placed, length_append]
    omega
  · have hstart : (insertedLines front pre post back (splitLines text)).cursorLine -
        ((splitLines text).length - 1) = front.length := by
      show (front.length : ℤ) + ((splitLines text).length - 1) - ((splitLines text).length - 1) = _
      omega
    have hline : lineAt (insertedLines front pre post back (splitLines text)).lines front.length =
        pre ++ (splitLines text).head?.getD [] := lineAt_front _ _ _
    rw [hstart, hline, length_append]
    refine ⟨?_, Nat.le_add_left _ _⟩
    show ((splitLines text).length : ℤ) - 1 ≤ front.length + ((splitLines text).length - 1)
    omega

theorem Valid.deleteYanked (h : b.Valid) {yankedText : Text} (hyanked : b.HoldsYanked yankedText) :
    (b.deleteYanked yankedText).Valid := by
  unfold HoldsYanked at hyanked
  unfold Buffer.deleteYanked
  simp only
  split
  · rename_i hone
    rw [if_pos hone] at hyanked
    have hcol := h.col_le
    have hlength : ((upTo (b.cursorCol - yankedText.length) b.currentLine).length : ℤ) =
        b.cursorCol - yankedText.length := length_upTo (by omega) (by omega)
    refine h.setCurrent (by omega) ?_
    calc b.cursorCol - yankedText.length = _ := hlength.symm
      _ ≤ _ := length_le_append _ _
  · rename_i hone
    rw [if_neg hone] at hyanked
    obtain ⟨hline, hcol⟩ := hyanked
    have hlt := h.line_lt
    have hpos := one_lt_length_splitLines hone
    obtain ⟨l, hl⟩ := Int.eq_ofNat_of_zero_le
      (show 0 ≤ b.cursorLine - ((splitLines yankedText).length - 1) by omega)
    rw [hl] at hcol ⊢
    have hle : l ≤ b.lines.length := by omega
    have htake : (b.lines.take l).length = l := length_take_of_le hle
    have hstart : (((lineAt b.lines l).length : ℤ) - ((splitLines yankedText).head?.getD []).length) ≥ 0 := by
      omega
    rw [sliceIndex_natCast hle]
    have hvalid : Valid ⟨b.lines.take l ++
        (upTo ((lineAt b.lines l).length - ((splitLines yankedText).head?.getD []).length)
          (lineAt b.lines l) ++ b.after) ::
            b.lines.drop (sliceIndex b.lines.length (l + (splitLines yankedText).length)),
        (b.lines.take l).length,
        (lineAt b.lines l).length - ((splitLines yankedText).head?.getD []).length⟩ := by
      refine valid_of_line hstart ?_
      have hlength := length_upTo hstart (show ((lineAt b.lines l).length : ℤ) -
        ((splitLines yankedText).head?.getD []).length ≤ (lineAt b.lines l).length by omega)
      calc _ = _ := hlength.symm
        _ ≤ _ := length_le_append _ _
    rw [htake] at hvalid
    exact hvalid

end Buffer

end Pidrei.Editor
