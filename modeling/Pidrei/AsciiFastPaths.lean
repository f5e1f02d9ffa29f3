import Pidrei.ColumnSlices

/-!
The fast paths for printable ASCII against the walk over the clusters. One character of a run
is one step of the walk, so the slice that a fast path takes is what the walk collects.
-/
namespace Pidrei.Tui.TerminalText

open Option (map_map map_some some)

section Runs

variable {u : UnicodeData} {text : List Char} {col startCol endCol : ℤ} {c : Char} {last : ℤ}
  {s : Slice} {strict : Bool}

theorem columnsOf_cons (h : col + 1 ≤ last) :
    columnsOf (c :: text) col col last = c :: columnsOf text (col + 1) (col + 1) last := by
  obtain ⟨n, rfl⟩ : ∃ n : ℕ, last = col + 1 + n := ⟨(last - (col + 1)).toNat, by omega⟩
  have hlast : (col + 1 + (n : ℤ) - col).toNat = n + 1 := by omega
  have hrest : (col + 1 + (n : ℤ) - (col + 1)).toNat = n := by omega
  simp only [columnsOf, hlast, hrest, sub_self, Int.toNat_zero, List.drop_zero, List.take_succ_cons]

theorem columnsOf_tail {first : ℤ} (h : col + 1 ≤ first) :
    columnsOf (c :: text) col first last = columnsOf text (col + 1) first last := by
  obtain ⟨n, rfl⟩ : ∃ n : ℕ, first = col + 1 + n := ⟨(first - (col + 1)).toNat, by omega⟩
  have hfirst : (col + 1 + (n : ℤ) - col).toNat = n + 1 := by omega
  have hrest : (col + 1 + (n : ℤ) - (col + 1)).toNat = n := by omega
  simp only [columnsOf, hfirst, hrest]
  by_cases hlast : col < last
  · obtain ⟨m, rfl⟩ : ∃ m : ℕ, last = col + 1 + m := ⟨(last - (col + 1)).toNat, by omega⟩
    have hlast' : (col + 1 + (m : ℤ) - col).toNat = m + 1 := by omega
    have hrest' : (col + 1 + (m : ℤ) - (col + 1)).toNat = m := by omega
    rw [hlast', hrest', List.take_succ_cons, List.drop_succ_cons]
  · have hlast' : (last - col).toNat = 0 := by omega
    have hrest' : (last - (col + 1)).toNat = 0 := by omega
    rw [hlast', hrest', List.take_zero, List.take_zero, List.drop_nil, List.drop_nil]

theorem Slice.add_add (s : Slice) (text more : List Char) (width other : ℤ) :
    (s.add text width).add more other = s.add (text ++ more) (width + other) := by
  simp only [Slice.add, List.append_assoc, List.append_nil, Int.add_assoc]

theorem sliceAscii_eq (strict : Bool) (htext : isPrintableAscii text = true) (hcol : col < endCol) :
    sliceAscii startCol endCol s col text =
      sliceSegments u startCol endCol strict s col (text.map fun c => [c]) := by
  induction text generalizing s col with
  | nil =>
    have hempty : min endCol (col + ((([] : List Char).length : ℕ) : ℤ)) = col := by
      simp only [List.length_nil]
      omega
    simp only [sliceAscii, hempty, List.map_nil, sliceSegments]
    rw [if_neg (by omega)]
  | cons c text ih =>
    obtain ⟨hc, htext⟩ :=
      List.forall_mem_cons.mp (UnicodeData.isPrintableAscii_iff.mp htext)
    have hwidth : (u.graphemeWidth [c] : ℤ) = 1 := by
      rw [UnicodeData.graphemeWidth_ascii hc]
      rfl
    have hfits : strict = false ∨ col + 1 ≤ endCol := .inr (by omega)
    have hlength : (((c :: text).length : ℕ) : ℤ) = text.length + 1 := by
      rw [List.length_cons]
      rfl
    simp only [List.map_cons, sliceSegments, hwidth, hfits, and_true, hcol]
    by_cases hend : endCol ≤ col + 1
    · have hlast : min endCol (col + (((c :: text).length : ℕ) : ℤ)) = col + 1 := by omega
      simp only [sliceAscii, hlast, if_pos hend]
      by_cases hstart : startCol ≤ col
      · have hfirst : max startCol col = col := by omega
        rw [if_pos hstart, hfirst, if_pos (by omega), columnsOf_cons (by omega)]
        simp [columnsOf]
      · rw [if_neg hstart, if_neg (by omega)]
    · rw [if_neg hend, ← ih (UnicodeData.isPrintableAscii_iff.mpr htext) (by omega)]
      have hlast : min endCol (col + (((c :: text).length : ℕ) : ℤ)) =
          min endCol (col + 1 + text.length) := by omega
      simp only [sliceAscii, hlast]
      by_cases hstart : startCol ≤ col
      · have hfirst : max startCol col = col := by omega
        have hfirst' : max startCol (col + 1) = col + 1 := by omega
        rw [if_pos hstart, hfirst, hfirst', if_pos (by omega), columnsOf_cons (by omega)]
        by_cases hmore : col + 1 < min endCol (col + 1 + text.length)
        · rw [if_pos hmore, Slice.add_add]
          congr 2
          omega
        · have hnone : min endCol (col + 1 + (text.length : ℤ)) = col + 1 := by omega
          rw [if_neg hmore, hnone]
          simp [columnsOf]
      · have hfirst : max startCol col = startCol := by omega
        have hfirst' : max startCol (col + 1) = startCol := by omega
        rw [if_neg hstart, hfirst, hfirst', columnsOf_tail (by omega)]

/-- Behind the range the walk over the clusters takes nothing more. -/
theorem sliceSegments_behind (hcol : endCol ≤ col) (segments : List (List Char)) :
    (sliceSegments u startCol endCol strict s col segments).1 = s ∧
      endCol ≤ (sliceSegments u startCol endCol strict s col segments).2 := by
  cases segments with
  | nil => exact ⟨rfl, hcol⟩
  | cons segment rest =>
    have hnext : endCol ≤ col + (u.graphemeWidth segment : ℤ) := by omega
    simp only [sliceSegments, if_pos hnext]
    exact ⟨if_neg fun h => absurd h.1.2 (by omega), hnext⟩

theorem sliceTokens_eq (hu : u.Lawful) (s : Slice) (col : ℤ) (ts : List Token) :
    sliceTokens u isPrintableAscii startCol endCol strict s col ts =
      sliceTokens u (fun _ => false) startCol endCol strict s col ts := by
  induction ts generalizing s col with
  | nil => rfl
  | cons token ts ih =>
    cases token with
    | code code => exact ih _ _
    | text run =>
      simp only [sliceTokens, Bool.false_eq_true, if_false]
      by_cases hrun : isPrintableAscii run = true
      · rw [if_pos hrun, hu.graphemes_ascii run hrun]
        by_cases hcol : col < endCol
        · rw [sliceAscii_eq (u := u) strict hrun hcol]
          split
          · rfl
          · exact ih _ _
        · have hbehind :
              (sliceSegments u startCol endCol strict s col (run.map fun c => [c])).1 = s ∧
                endCol ≤ (sliceSegments u startCol endCol strict s col (run.map fun c => [c])).2 :=
            sliceSegments_behind (by omega) _
          have hfast : sliceAscii startCol endCol s col run = (s, endCol) := by
            have hlast : min endCol (col + (run.length : ℤ)) = endCol := by omega
            simp only [sliceAscii, hlast]
            rw [if_neg (by omega)]
          rw [hfast, if_pos (by omega), if_pos hbehind.2, hbehind.1]
      · rw [if_neg hrun]
        split
        · rfl
        · exact ih _ _

theorem SegmentState.addBefore_addBefore (s : SegmentState) (text more : List Char)
    (width other : ℤ) : (s.addBefore text width).addBefore more other =
      s.addBefore (text ++ more) (width + other) := by
  simp only [SegmentState.addBefore, List.append_assoc, List.append_nil, Int.add_assoc]

theorem SegmentState.addAfter_addAfter (s : SegmentState) (text more : List Char)
    (width other : ℤ) : (s.addAfter text width).addAfter more other =
      s.addAfter (text ++ more) (width + other) := by
  simp only [SegmentState.addAfter, if_true, List.append_assoc, List.nil_append, Int.add_assoc]

theorem segmentLimit_cases (beforeEnd afterStart afterLen : ℤ) :
    segmentLimit beforeEnd afterStart afterLen = beforeEnd ∧ afterLen ≤ 0 ∨
      segmentLimit beforeEnd afterStart afterLen = afterStart + afterLen := by
  unfold segmentLimit
  split
  · exact .inl ⟨rfl, ‹_›⟩
  · exact .inr rfl

theorem segmentAscii_eq {beforeEnd afterStart afterLen : ℤ} (strictAfter : Bool)
    (htext : isPrintableAscii text = true) {s : SegmentState}
    (hcol : col < segmentLimit beforeEnd afterStart afterLen) :
    segmentAscii beforeEnd afterStart afterLen s col text =
      segmentSegments u beforeEnd afterStart afterLen strictAfter s col
        (text.map fun c => [c]) := by
  have hlimit := segmentLimit_cases beforeEnd afterStart afterLen
  induction text generalizing s col with
  | nil =>
    have hempty : col + min ((([] : List Char).length : ℕ) : ℤ)
        (max 0 (segmentLimit beforeEnd afterStart afterLen - col)) = col := by
      simp only [List.length_nil]
      omega
    simp only [segmentAscii, hempty, List.map_nil, segmentSegments]
    rw [if_neg (by omega), if_neg (by omega)]
  | cons c text ih =>
    obtain ⟨hc, htext⟩ :=
      List.forall_mem_cons.mp (UnicodeData.isPrintableAscii_iff.mp htext)
    have hwidth : (u.graphemeWidth [c] : ℤ) = 1 := by
      rw [UnicodeData.graphemeWidth_ascii hc]
      rfl
    have hlength : (((c :: text).length : ℕ) : ℤ) = text.length + 1 := by
      rw [List.length_cons]
      rfl
    have hone : columnsOf text (col + 1) (col + 1) (col + 1) = [] := by simp [columnsOf]
    simp only [List.map_cons, segmentSegments, hwidth]
    generalize hL : segmentLimit beforeEnd afterStart afterLen = limit at hcol hlimit ih ⊢
    -- The run ends in the same column, whether its first character is taken off or not.
    have hend : col + min (((c :: text).length : ℕ) : ℤ) (max 0 (limit - col)) =
        min (col + 1 + text.length) limit := by omega
    have hend' : col + 1 + min (text.length : ℤ) (max 0 (limit - (col + 1))) =
        min (col + 1 + text.length) limit := by omega
    have hrest : ∀ s : SegmentState, ¬ limit ≤ col + 1 →
        segmentSegments u beforeEnd afterStart afterLen strictAfter s (col + 1)
          (text.map fun c => [c]) = segmentAscii beforeEnd afterStart afterLen s (col + 1) text :=
      fun s hstop => (ih (UnicodeData.isPrintableAscii_iff.mpr htext) (by omega)).symm
    simp only [segmentAscii, hL, hend, hend'] at hrest ⊢
    clear hend hend' hlength
    generalize hE : min (col + 1 + (text.length : ℤ)) limit = runEnd at hrest ⊢
    by_cases hbefore : col < beforeEnd
    · have hcols : col < min runEnd beforeEnd := by omega
      have htaken : col < beforeEnd ∧ col + 1 ≤ beforeEnd := ⟨hbefore, by omega⟩
      have hfirst : max (col + 1) (max beforeEnd afterStart) =
          max col (max beforeEnd afterStart) := by omega
      have hadd : s.addBefore (columnsOf (c :: text) col col (min runEnd beforeEnd))
          (min runEnd beforeEnd - col) =
          if col + 1 < min runEnd beforeEnd then
            (s.addBefore [c] 1).addBefore
              (columnsOf text (col + 1) (col + 1) (min runEnd beforeEnd))
              (min runEnd beforeEnd - (col + 1))
          else s.addBefore [c] 1 := by
        rw [columnsOf_cons (by omega)]
        split
        · rw [SegmentState.addBefore_addBefore]
          congr 1
          omega
        · have hlast : min runEnd beforeEnd = col + 1 := by omega
          rw [hlast, hone]
          congr 1
          omega
      rw [if_pos hcols, if_pos htaken, hadd, columnsOf_tail (by omega)]
      by_cases hstop : limit ≤ col + 1
      · have hnomore : ¬ col + 1 < min runEnd beforeEnd := by omega
        have hnoafter :
            ¬ max col (max beforeEnd afterStart) < min runEnd (afterStart + afterLen) := by omega
        rw [if_pos hstop, if_neg hnomore, if_neg hnoafter]
        congr 1
        omega
      · rw [if_neg hstop, hrest _ hstop, hfirst]
    · have hcols : ¬ col < min runEnd beforeEnd := by omega
      have hcols' : ¬ col + 1 < min runEnd beforeEnd := by omega
      have hnotaken : ¬ (col < beforeEnd ∧ col + 1 ≤ beforeEnd) := fun h => hbefore h.1
      rw [if_neg hcols, if_neg hnotaken]
      by_cases hstart : afterStart ≤ col
      · have hafter : (afterStart ≤ col ∧ col < afterStart + afterLen) ∧
            (strictAfter = false ∨ col + 1 ≤ afterStart + afterLen) :=
          ⟨⟨hstart, by omega⟩, .inr (by omega)⟩
        have hfirst : max col (max beforeEnd afterStart) = col := by omega
        have hfirst' : max (col + 1) (max beforeEnd afterStart) = col + 1 := by omega
        have hsome : col < min runEnd (afterStart + afterLen) := by omega
        rw [if_pos hafter, hfirst, if_pos hsome, columnsOf_cons (by omega)]
        by_cases hstop : limit ≤ col + 1
        · have hlast : min runEnd (afterStart + afterLen) = col + 1 := by omega
          have hend : runEnd = col + 1 := by omega
          rw [if_pos hstop, hlast, hone, hend]
          congr 2
          omega
        · rw [if_neg hstop, hrest _ hstop, if_neg hcols', hfirst']
          split
          · rw [SegmentState.addAfter_addAfter]
            congr 2
            omega
          · have hlast : min runEnd (afterStart + afterLen) = col + 1 := by omega
            rw [hlast, hone]
            congr 2
            omega
      · have hnoafter : ¬ ((afterStart ≤ col ∧ col < afterStart + afterLen) ∧
            (strictAfter = false ∨ col + 1 ≤ afterStart + afterLen)) := fun h => hstart h.1.1
        have hfirst : max col (max beforeEnd afterStart) = afterStart := by omega
        have hfirst' : max (col + 1) (max beforeEnd afterStart) = afterStart := by omega
        rw [if_neg hnoafter, hfirst, columnsOf_tail (by omega)]
        by_cases hstop : limit ≤ col + 1
        · have hnone : ¬ afterStart < min runEnd (afterStart + afterLen) := by omega
          rw [if_pos hstop, if_neg hnone]
          congr 1
          omega
        · rw [if_neg hstop, hrest _ hstop, if_neg hcols', hfirst']

end Runs

section Lines

variable {u : UnicodeData} {beforeEnd afterStart afterLen col : ℤ} {strictAfter : Bool}
  {s : SegmentState}

theorem segmentSegments_behind (hbefore : beforeEnd ≤ col)
    (hcol : segmentLimit beforeEnd afterStart afterLen ≤ col) (segments : List (List Char)) :
    (segmentSegments u beforeEnd afterStart afterLen strictAfter s col segments).1 = s ∧
      segmentLimit beforeEnd afterStart afterLen ≤
        (segmentSegments u beforeEnd afterStart afterLen strictAfter s col segments).2 := by
  cases segments with
  | nil => exact ⟨rfl, hcol⟩
  | cons segment rest =>
    have hafter : ¬ (afterStart ≤ col ∧ col < afterStart + afterLen) := by
      unfold segmentLimit at hcol
      split at hcol
      · omega
      · omega
    have hnext : segmentLimit beforeEnd afterStart afterLen ≤
        col + (u.graphemeWidth segment : ℤ) := by omega
    simp only [segmentSegments, if_pos hnext]
    rw [if_neg (fun h => absurd h.1 (by omega)), if_neg (fun h => hafter h.1)]
    exact ⟨rfl, hnext⟩

theorem segmentAscii_behind (hcol : segmentLimit beforeEnd afterStart afterLen ≤ col)
    (run : List Char) : segmentAscii beforeEnd afterStart afterLen s col run = (s, col) := by
  have hlimit := segmentLimit_cases beforeEnd afterStart afterLen
  have hend : col + min (run.length : ℤ)
      (max 0 (segmentLimit beforeEnd afterStart afterLen - col)) = col := by omega
  simp only [segmentAscii, hend]
  rw [if_neg (by omega), if_neg (by omega)]

theorem segmentTokens_eq (hu : u.Lawful) (s : SegmentState) (ts : List Token)
    (hcol : col < segmentLimit beforeEnd afterStart afterLen ∨ beforeEnd ≤ col) :
    segmentTokens u isPrintableAscii beforeEnd afterStart afterLen strictAfter s col ts =
      segmentTokens u (fun _ => false) beforeEnd afterStart afterLen strictAfter s col ts := by
  induction ts generalizing s col with
  | nil => rfl
  | cons token ts ih =>
    cases token with
    | code code => exact ih _ hcol
    | text run =>
      simp only [segmentTokens, Bool.false_eq_true, if_false]
      by_cases hrun : isPrintableAscii run = true
      · rw [if_pos hrun, hu.graphemes_ascii run hrun]
        by_cases hlimit : col < segmentLimit beforeEnd afterStart afterLen
        · rw [segmentAscii_eq (u := u) strictAfter hrun hlimit]
          split
          · rfl
          · exact ih _ (.inl (by omega))
        · have hbehind : (segmentSegments u beforeEnd afterStart afterLen strictAfter s col
                (run.map fun c => [c])).1 = s ∧
              segmentLimit beforeEnd afterStart afterLen ≤
                (segmentSegments u beforeEnd afterStart afterLen strictAfter s col
                  (run.map fun c => [c])).2 :=
            segmentSegments_behind (by omega) (by omega) _
          rw [segmentAscii_behind (by omega), if_pos (by omega), if_pos hbehind.2, hbehind.1]
      · rw [if_neg hrun]
        split
        · rfl
        · exact ih _ (.inl (by omega))

theorem cellRangeAscii_eq {column : ℤ} {text : List Char} (htext : isPrintableAscii text = true)
    (col : ℤ) : (cellRangeAscii column col text).1 =
        (cellRangeSegments u column col (text.map fun c => [c])).1 ∧
      ((cellRangeAscii column col text).1 = none → (cellRangeAscii column col text).2 =
        (cellRangeSegments u column col (text.map fun c => [c])).2) := by
  induction text generalizing col with
  | nil =>
    have hempty : ¬ (col ≤ column ∧ column < col + ((([] : List Char).length : ℕ) : ℤ)) := by
      simp only [List.length_nil]
      omega
    simp only [cellRangeAscii, if_neg hempty]
    exact ⟨rfl, fun _ => by simp [cellRangeSegments]⟩
  | cons c text ih =>
    obtain ⟨hc, htext⟩ :=
      List.forall_mem_cons.mp (UnicodeData.isPrintableAscii_iff.mp htext)
    have hwidth : (u.graphemeWidth [c] : ℤ) = 1 := by
      rw [UnicodeData.graphemeWidth_ascii hc]
      rfl
    have hlength : (((c :: text).length : ℕ) : ℤ) = text.length + 1 := by
      rw [List.length_cons]
      rfl
    have hrest := ih (UnicodeData.isPrintableAscii_iff.mpr htext) (col + 1)
    simp only [List.map_cons, cellRangeSegments, hwidth]
    simp only [cellRangeAscii] at hrest ⊢
    by_cases hhere : 0 < (1 : ℤ) ∧ col ≤ column ∧ column < col + 1
    · have hcolumn : column = col := by omega
      rw [if_pos hhere, if_pos (by omega), hcolumn]
      exact ⟨rfl, nofun⟩
    · rw [if_neg hhere]
      by_cases hthere : col + 1 ≤ column ∧ column < col + 1 + (text.length : ℤ)
      · rw [if_pos hthere] at hrest
        rw [if_pos (by omega)]
        exact ⟨hrest.1, nofun⟩
      · rw [if_neg hthere] at hrest
        rw [if_neg (by omega)]
        refine ⟨hrest.1, fun _ => ?_⟩
        rw [← hrest.2 rfl]
        simp only [hlength]
        omega

theorem cellRangeTokens_eq (hu : u.Lawful) {column : ℤ} (col : ℤ) (ts : List Token) :
    cellRangeTokens u isPrintableAscii column col ts =
      cellRangeTokens u (fun _ => false) column col ts := by
  induction ts generalizing col with
  | nil => rfl
  | cons token ts ih =>
    cases token with
    | code code => exact ih col
    | text run =>
      simp only [cellRangeTokens, Bool.false_eq_true, if_false]
      by_cases hrun : isPrintableAscii run = true
      · obtain ⟨hrange, hnext⟩ := @cellRangeAscii_eq u column run hrun col
        rw [if_pos hrun, hu.graphemes_ascii run hrun, ← hrange]
        split
        · rfl
        · rename_i hnone
          rw [← hnext hnone]
          exact ih _
      · rw [if_neg hrun]
        split
        · rfl
        · exact ih _

end Lines

section Tabs

open UnicodeData

variable {u : UnicodeData}

theorem expandTabs_cons (c : Char) (text : List Char) :
    expandTabs (c :: text) = (if c = '\t' then [' ', ' ', ' '] else [c]) ++ expandTabs text := rfl

theorem expandTabs_char {c : Char} (hc : c ≠ '\t') (text : List Char) :
    expandTabs (c :: text) = c :: expandTabs text := by
  rw [expandTabs_cons, if_neg hc]
  rfl

theorem expandTabs_append (text more : List Char) :
    expandTabs (text ++ more) = expandTabs text ++ expandTabs more := List.flatMap_append

variable (text : List Char) (ts : List Token)

theorem csiRest_expandTabs : csiRest (expandTabs text) =
      (csiRest text).map fun (code, after) => (expandTabs code, expandTabs after) := by
  induction text with
  | nil => rfl
  | cons c text ih =>
    by_cases hc : c = '\t'
    · subst hc
      have htab : csiRest ('\t' :: text) =
          (csiRest text).map fun (code, after) => ('\t' :: code, after) := rfl
      have hblank : ∀ rest, csiRest (' ' :: rest) =
          (csiRest rest).map fun (code, after) => (' ' :: code, after) := fun _ => rfl
      rw [htab, expandTabs_cons, if_pos rfl]
      simp only [List.cons_append, List.nil_append, hblank, ih, map_map]
      rfl
    · rw [expandTabs_char hc]
      simp only [csiRest]
      split
      · rw [map_some, expandTabs_char hc]
        rfl
      · rw [ih, map_map, map_map]
        congr 1
        funext pair
        simp only [Function.comp_apply, expandTabs_char hc]

theorem head?_expandTabs : (expandTabs text).head? = some '\\' ↔ text.head? = some '\\' := by
  cases text with
  | nil => rfl
  | cons c text =>
    by_cases hc : c = '\t'
    · subst hc
      rw [expandTabs_cons, if_pos rfl]
      simp
    · rw [expandTabs_char hc]
      rfl

theorem stringRest_expandTabs : stringRest (expandTabs text) =
      (stringRest text).map fun (code, after) => (expandTabs code, expandTabs after) := by
  induction text with
  | nil => rfl
  | cons c text ih =>
    by_cases hc : c = '\t'
    · subst hc
      have htab : stringRest ('\t' :: text) =
          (stringRest text).map fun (code, after) => ('\t' :: code, after) := by
        simp [stringRest, bel, esc]
      have hblank : ∀ rest, stringRest (' ' :: rest) =
          (stringRest rest).map fun (code, after) => (' ' :: code, after) := by
        intro rest
        simp [stringRest, bel, esc]
      rw [htab, expandTabs_cons, if_pos rfl]
      simp only [List.cons_append, List.nil_append, hblank, ih, map_map]
      rfl
    · rw [expandTabs_char hc]
      simp only [stringRest, head?_expandTabs]
      split
      · rw [map_some, expandTabs_char hc]
        rfl
      · split
        · rename_i hend
          obtain ⟨rest, rfl⟩ := List.head?_eq_some_iff.mp hend.2
          rw [map_some, expandTabs_char hc, expandTabs_char (by decide)]
          rfl
        · rw [ih, map_map, map_map]
          congr 1
          funext pair
          simp only [Function.comp_apply, expandTabs_char hc]

/-- Tabs that become spaces make no escape sequence and destroy none. -/
theorem extractAnsiCode_expandTabs : extractAnsiCode (expandTabs text) =
      (extractAnsiCode text).map fun (code, after) => (expandTabs code, expandTabs after) := by
  match text with
  | [] => rfl
  | [c] =>
    by_cases hc : c = '\t'
    · subst hc
      rfl
    · rw [expandTabs_char hc]
      rfl
  | c :: d :: rest =>
    by_cases hc : c = '\t'
    · subst hc
      rw [expandTabs_cons, if_pos rfl]
      simp [extractAnsiCode, esc]
    · rw [expandTabs_char hc]
      by_cases hd : d = '\t'
      · subst hd
        rw [expandTabs_cons, if_pos rfl]
        simp [extractAnsiCode]
      · rw [expandTabs_char hd]
        simp only [extractAnsiCode, csiRest_expandTabs, stringRest_expandTabs, map_map]
        split
        · rfl
        · split
          · rw [map_map]
            congr 1
            funext pair
            simp only [Function.comp_apply, expandTabs_char hc, expandTabs_char hd]
          · split
            · rw [map_map]
              congr 1
              funext pair
              simp only [Function.comp_apply, expandTabs_char hc, expandTabs_char hd]
            · rfl

def expandToken : Token → Token
  | .code code => .code (expandTabs code)
  | .text run => .text (expandTabs run)

theorem render_expandToken : render (ts.map expandToken) = expandTabs (render ts) := by
  induction ts with
  | nil => rfl
  | cons token ts ih =>
    rw [List.map_cons, render_cons, render_cons, expandTabs_append, ih]
    cases token <;> rfl

theorem visibleText_expandToken :
    visibleText (ts.map expandToken) = expandTabs (visibleText ts) := by
  induction ts with
  | nil => rfl
  | cons token ts ih =>
    cases token with
    | code code => exact ih
    | text run =>
      rw [List.map_cons, visibleText_text, expandTabs_append, ← ih]
      rfl

variable {run : List Char}

theorem expandTabs_suffix {front back : List Char} (h : expandTabs run = front ++ back)
    (hback : back ≠ []) : (∃ rest, back = ' ' :: rest) ∨
      ∃ front' back', run = front' ++ back' ∧ back' ≠ [] ∧ back = expandTabs back' := by
  induction run generalizing front with
  | nil => exact absurd (List.append_eq_nil_iff.mp h.symm).2 hback
  | cons c run ih =>
    by_cases hfront : front = []
    · subst hfront
      exact .inr ⟨[], c :: run, rfl, by simp, h.symm⟩
    · by_cases hc : c = '\t'
      · subst hc
        rw [expandTabs_cons, if_pos rfl] at h
        match front, hfront, h with
        | [_], _, h => exact .inl ⟨_, (List.cons.inj h).2.symm⟩
        | [_, _], _, h => exact .inl ⟨_, (List.cons.inj (List.cons.inj h).2).2.symm⟩
        | _ :: _ :: _ :: front, _, h =>
          refine (ih (List.cons.inj (List.cons.inj (List.cons.inj h).2).2).2).imp_right ?_
          rintro ⟨front', back', rfl, hne, hexpand⟩
          exact ⟨'\t' :: front', back', rfl, hne, hexpand⟩
      · rw [expandTabs_char hc] at h
        obtain ⟨d, front, rfl⟩ := List.exists_cons_of_ne_nil hfront
        refine (ih (List.cons.inj h).2).imp_right ?_
        rintro ⟨front', back', rfl, hne, hexpand⟩
        exact ⟨c :: front', back', rfl, hne, hexpand⟩

theorem expandTabs_ne_nil (h : run ≠ []) : expandTabs run ≠ [] := by
  obtain ⟨c, run, rfl⟩ := List.exists_cons_of_ne_nil h
  rw [expandTabs_cons]
  split <;> simp

theorem isTokens_expandToken {ts : List Token} (h : IsTokens ts) :
    IsTokens (ts.map expandToken) := by
  induction h with
  | nil => exact .nil
  | @code code ts hcode hts ih =>
    have hexpanded : extractAnsiCode (expandTabs code) = some (expandTabs code, []) := by
      have hnil := hcode []
      rw [List.append_nil] at hnil
      rw [extractAnsiCode_expandTabs, hnil]
      rfl
    exact .code (extractAnsiCode_split hexpanded).2.2 ih
  | @text run ts hrun htext hend hts ih =>
    refine .text (expandTabs_ne_nil hrun) (fun front back hsplit hback => ?_) ?_ ih
    · rw [render_expandToken]
      rcases expandTabs_suffix hsplit hback with ⟨rest, rfl⟩ | ⟨front', back', rfl, hne, rfl⟩
      · exact extractAnsiCode_text (by decide) _
      · rw [← expandTabs_append, extractAnsiCode_expandTabs, htext front' back' rfl hne]
        rfl
    · intro next hnext
      cases ts with
      | nil => cases hnext
      | cons token ts =>
        obtain ⟨code, rfl⟩ := hend token rfl
        exact ⟨expandTabs code, (some.inj hnext).symm⟩

theorem stripCodes_expandTabs (line : List Char) :
    stripCodes (expandTabs line) = expandTabs (stripCodes line) := by
  obtain ⟨htokens, hrender⟩ := isTokens_tokens line
  have hexpanded : tokens (expandTabs line) = (tokens line).map expandToken := by
    conv_lhs => rw [← hrender, ← render_expandToken]
    exact (isTokens_expandToken htokens).tokens_render
  rw [stripCodes, hexpanded, visibleText_expandToken]
  rfl

theorem length_expandTabs : (expandTabs text).length = text.length + 2 * text.count '\t' := by
  induction text with
  | nil => rfl
  | cons c text ih =>
    by_cases hc : c = '\t'
    · subst hc
      rw [expandTabs_cons, if_pos rfl, List.length_append, ih, List.count_cons_self]
      simp only [List.length_cons, List.length_nil]
      omega
    · rw [expandTabs_char hc, List.length_cons, ih, List.count_cons_of_ne hc, List.length_cons]
      omega

theorem visibleWidth_eq (hu : u.Lawful) (s : List Char) : u.visibleWidth s = u.clustersWidth s := by
  have hascii : ∀ w, asciiVisibleWidth s = some w → w = u.clustersWidth s := by
    intro w hw
    simp only [asciiVisibleWidth] at hw
    split at hw
    · cases hw
    · split at hw
      · rename_i hprintable
        rw [List.all_eq_true] at hprintable
        have hexpanded : isPrintableAscii (expandTabs (stripCodes s)) = true := by
          refine isPrintableAscii_iff.mpr fun c hc => ?_
          obtain ⟨d, hd, hcd⟩ := List.mem_flatMap.mp hc
          split at hcd
          · simp only [List.mem_cons, List.not_mem_nil, or_false, or_self] at hcd
            rw [hcd]
            rfl
          · rename_i htab
            rw [List.mem_singleton.mp hcd]
            simpa [htab] using hprintable d hd
        rw [clustersWidth, stripCodes_expandTabs, hu.graphemes_ascii _ hexpanded,
          segmentsWidth_ascii hexpanded, length_expandTabs]
        exact (some.inj hw).symm
      · cases hw
  unfold visibleWidth
  cases hwidth : asciiVisibleWidth s with
  | none => rfl
  | some w => exact hascii w hwidth

end Tabs

end Pidrei.Tui.TerminalText
