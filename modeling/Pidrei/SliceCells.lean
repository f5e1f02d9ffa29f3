import Mathlib.Data.List.SplitBy
import Pidrei.SliceContents

/-!
The clusters of a line with the columns they begin in. A slice takes the clusters that begin in
its range, so that slices next to each other share the clusters of the line out among them.
-/
namespace Pidrei.Tui.TerminalText

open List

variable (u : UnicodeData)

section Cells

/-- Each cluster with the column it begins in. -/
def segmentCells (col : ℤ) : List (List Char) → List (ℤ × List Char)
  | [] => []
  | segment :: rest => (col, segment) :: segmentCells (col + (u.graphemeWidth segment : ℤ)) rest

def tokenCells (col : ℤ) : List Token → List (ℤ × List Char)
  | [] => []
  | .code _ :: rest => tokenCells col rest
  | .text run :: rest =>
    segmentCells u col (u.graphemes run) ++
      tokenCells (col + (u.segmentsWidth (u.graphemes run) : ℤ)) rest

/-- The clusters of a line and the columns they begin in. -/
def cells (line : List Char) : List (ℤ × List Char) := tokenCells u 0 (tokens line)

def cellsText (placed : List (ℤ × List Char)) : List Char := (placed.map Prod.snd).flatten

/-- The strict slices of the given lengths, one behind the other. -/
def consecutiveSlices (line : List Char) (startCol : ℤ) : List ℕ → List (List Char)
  | [] => []
  | length :: rest =>
    sliceByColumn u line startCol length true ::
      consecutiveSlices line (startCol + (length : ℤ)) rest

/-- Whether a slice takes a cluster. -/
def inSlice (startCol endCol : ℤ) (strict : Bool) (cell : ℤ × List Char) : Bool :=
  decide ((startCol ≤ cell.1 ∧ cell.1 < endCol) ∧
    (strict = false ∨ cell.1 + (u.graphemeWidth cell.2 : ℤ) ≤ endCol))

variable {u} {startCol endCol : ℤ} {strict : Bool} {col : ℤ} {placed : List (ℤ × List Char)}

theorem le_segmentCells {segments : List (List Char)} :
    ∀ cell ∈ segmentCells u col segments, col ≤ cell.1 := by
  induction segments generalizing col with
  | nil => exact fun _ h => nomatch h
  | cons segment rest ih =>
    intro cell hcell
    obtain rfl | hcell := mem_cons.mp hcell
    · exact Int.le_refl col
    · have hle := ih cell hcell
      omega

theorem le_tokenCells {ts : List Token} : ∀ cell ∈ tokenCells u col ts, col ≤ cell.1 := by
  induction ts generalizing col with
  | nil => exact fun _ h => nomatch h
  | cons token ts ih =>
    cases token with
    | code code => exact ih
    | text run =>
      intro cell hcell
      obtain hcell | hcell := mem_append.mp hcell
      · exact le_segmentCells cell hcell
      · have hle := ih cell hcell
        omega

theorem filter_inSlice_behind (h : ∀ cell ∈ placed, endCol ≤ cell.1) :
    placed.filter (inSlice u startCol endCol strict) = [] := by
  apply filter_eq_nil_iff.mpr
  intro cell hcell
  have hle := h cell hcell
  simp only [inSlice, decide_eq_true_eq]
  omega

theorem keptSegments_next (col : ℤ) (segments : List (List Char)) :
    (keptSegments u startCol endCol strict col segments).2 ≤
        col + (u.segmentsWidth segments : ℤ) ∧
      ((keptSegments u startCol endCol strict col segments).2 < endCol →
        (keptSegments u startCol endCol strict col segments).2 =
          col + (u.segmentsWidth segments : ℤ)) := by
  induction segments generalizing col with
  | nil => simp [keptSegments, UnicodeData.segmentsWidth]
  | cons segment rest ih =>
    have hwidth : u.segmentsWidth (segment :: rest) =
        u.graphemeWidth segment + u.segmentsWidth rest := rfl
    obtain ⟨hle, heq⟩ := ih (col + (u.graphemeWidth segment : ℤ))
    simp only [keptSegments]
    by_cases hstop : endCol ≤ col + (u.graphemeWidth segment : ℤ)
    · rw [if_pos hstop]
      exact ⟨by omega, fun h => absurd hstop (by omega)⟩
    · rw [if_neg hstop]
      exact ⟨by omega, fun h => by rw [heq h]; omega⟩

theorem keptSegments_cells (col : ℤ) (segments : List (List Char)) :
    (keptSegments u startCol endCol strict col segments).1 =
      ((segmentCells u col segments).filter (inSlice u startCol endCol strict)).map Prod.snd := by
  induction segments generalizing col with
  | nil => rfl
  | cons segment rest ih =>
    have hrest : endCol ≤ col + (u.graphemeWidth segment : ℤ) →
        (segmentCells u (col + (u.graphemeWidth segment : ℤ)) rest).filter
          (inSlice u startCol endCol strict) = [] := fun hstop =>
      filter_inSlice_behind fun cell hcell => by
        have hle := le_segmentCells cell hcell
        omega
    simp only [keptSegments, segmentCells, filter_cons, inSlice, decide_eq_true_eq]
    by_cases hstop : endCol ≤ col + (u.graphemeWidth segment : ℤ)
    · rw [if_pos hstop]
      split
      · exact congrArg _ (map_eq_nil_iff.mpr (hrest hstop)).symm
      · exact (map_eq_nil_iff.mpr (hrest hstop)).symm
    · rw [if_neg hstop]
      split
      · exact congrArg _ (ih _)
      · exact ih _

theorem visibleText_kept (pending : List (List Char)) (col : ℤ) (ts : List Token) :
    visibleText (keptTokens u startCol endCol strict pending col ts) =
      cellsText ((tokenCells u col ts).filter (inSlice u startCol endCol strict)) := by
  have hcodes : ∀ codes, visibleText (codeTokens codes) = [] := by
    intro codes
    induction codes with
    | nil => rfl
    | cons code codes ih => exact ih
  induction ts generalizing pending col with
  | nil => rfl
  | cons token ts ih =>
    cases token with
    | code code =>
      simp only [keptTokens, tokenCells]
      split
      · simp [hcodes, ih]
      · split
        · exact ih _ _
        · exact ih _ _
    | text run =>
      have hkept := @keptSegments_cells u startCol endCol strict col (u.graphemes run)
      obtain ⟨hle, heq⟩ :=
        @keptSegments_next u startCol endCol strict col (u.graphemes run)
      have hbehind : endCol ≤ (keptSegments u startCol endCol strict col (u.graphemes run)).2 →
          (tokenCells u (col + (u.segmentsWidth (u.graphemes run) : ℤ)) ts).filter
            (inSlice u startCol endCol strict) = [] := fun hstop =>
        filter_inSlice_behind fun cell hcell => by
          have hcol := le_tokenCells cell hcell
          omega
      simp only [keptTokens, tokenCells, filter_append, cellsText, map_append,
        flatten_append, ← hkept]
      generalize keptSegments u startCol endCol strict col (u.graphemes run) = pair
        at hle heq hbehind ⊢
      obtain ⟨kept, next⟩ := pair
      simp only at hle heq hbehind ⊢
      by_cases hstop : endCol ≤ next
      · rw [hbehind hstop, if_pos hstop, if_pos hstop]
        split
        · rename_i hempty
          simp [isEmpty_iff.mp hempty]
        · simp [hcodes]
      · rw [if_neg hstop, if_neg hstop, ← heq (by omega)]
        split
        · rename_i hempty
          simp [isEmpty_iff.mp hempty, ih, cellsText]
        · simp [hcodes, ih, cellsText]

/-- Neighbouring ranges take what one range takes. -/
theorem filter_inSlice_append {middle : ℤ}
    (hsorted : placed.Pairwise fun cell later => cell.1 ≤ later.1)
    (hunit : ∀ cell ∈ placed, u.graphemeWidth cell.2 ≤ 1) (hfirst : startCol ≤ middle)
    (hlast : middle ≤ endCol) : placed.filter (inSlice u startCol endCol true) =
      placed.filter (inSlice u startCol middle true) ++
        placed.filter (inSlice u middle endCol true) := by
  induction placed with
  | nil => rfl
  | cons cell placed ih =>
    obtain ⟨hlater, hsorted⟩ := pairwise_cons.mp hsorted
    obtain ⟨hwidth, hunit⟩ := forall_mem_cons.mp hunit
    simp only [filter_cons, ih hsorted hunit]
    by_cases hmiddle : middle ≤ cell.1
    · have hnone : placed.filter (inSlice u startCol middle true) = [] :=
        filter_inSlice_behind fun other hother => Int.le_trans hmiddle (hlater other hother)
      have hsame : inSlice u startCol middle true cell = false := by
        simp only [inSlice, decide_eq_false_iff_not]
        omega
      have hboth : inSlice u startCol endCol true cell = inSlice u middle endCol true cell := by
        simp only [inSlice, decide_eq_decide]
        omega
      rw [hnone, hsame, hboth]
      rfl
    · have hsame : inSlice u middle endCol true cell = false := by
        simp only [inSlice, decide_eq_false_iff_not]
        omega
      have hboth : inSlice u startCol endCol true cell = inSlice u startCol middle true cell := by
        simp only [inSlice, decide_eq_decide]
        omega
      rw [hsame, hboth]
      split
      · rfl
      · rfl

theorem pairwise_segmentCells (col : ℤ) (segments : List (List Char)) :
    (segmentCells u col segments).Pairwise (fun cell later => cell.1 ≤ later.1) ∧
      ∀ cell ∈ segmentCells u col segments, cell.1 ≤ col + (u.segmentsWidth segments : ℤ) := by
  induction segments generalizing col with
  | nil => exact ⟨.nil, fun _ h => nomatch h⟩
  | cons segment rest ih =>
    have hwidth : u.segmentsWidth (segment :: rest) =
        u.graphemeWidth segment + u.segmentsWidth rest := rfl
    obtain ⟨hsorted, hle⟩ := ih (col + (u.graphemeWidth segment : ℤ))
    refine ⟨pairwise_cons.mpr ⟨fun later hlater => ?_, hsorted⟩, fun cell hcell => ?_⟩
    · have hcol := le_segmentCells later hlater
      omega
    · obtain rfl | hcell := mem_cons.mp hcell
      · simp only
        omega
      · have hcol := hle cell hcell
        omega

theorem pairwise_tokenCells (col : ℤ) (ts : List Token) :
    (tokenCells u col ts).Pairwise fun cell later => cell.1 ≤ later.1 := by
  induction ts generalizing col with
  | nil => exact .nil
  | cons token ts ih =>
    cases token with
    | code code => exact ih col
    | text run =>
      obtain ⟨hsorted, hle⟩ := pairwise_segmentCells (u := u) col (u.graphemes run)
      refine pairwise_append.mpr ⟨hsorted, ih _, fun cell hcell later hlater => ?_⟩
      exact Int.le_trans (hle cell hcell) (le_tokenCells later hlater)

theorem cellsText_segmentCells (col : ℤ) (segments : List (List Char)) :
    cellsText (segmentCells u col segments) = segments.flatten := by
  induction segments generalizing col with
  | nil => rfl
  | cons segment rest ih => exact congrArg _ (ih _)

theorem cellsText_tokenCells (hu : u.Lawful) (col : ℤ) (ts : List Token) :
    cellsText (tokenCells u col ts) = visibleText ts := by
  induction ts generalizing col with
  | nil => rfl
  | cons token ts ih =>
    cases token with
    | code code => exact ih col
    | text run =>
      have hrun := cellsText_segmentCells (u := u) col (u.graphemes run)
      rw [hu.flatten_graphemes] at hrun
      have hrest := ih (col + (u.segmentsWidth (u.graphemes run) : ℤ))
      simp only [cellsText] at hrun hrest
      simp only [cellsText, tokenCells, map_append, flatten_append, hrun, hrest, visibleText_text]

end Cells

section Results

variable {u}

theorem sliceWithWidth_kept (hu : u.Lawful) (line : List Char) (startCol length : ℤ)
    (strict : Bool) (hlength : 0 < length) :
    sliceWithWidth u line startCol length strict =
      (render (keptTokens u startCol (startCol + length) strict [] 0 (tokens line)),
        (tokensWidth u
          (keptTokens u startCol (startCol + length) strict [] 0 (tokens line)) : ℤ)) := by
  have hnot : ¬ length ≤ 0 := by omega
  obtain ⟨hresult, hwidth⟩ := @sliceTokens_kept u startCol (startCol + length) strict hu
    { result := [], resultWidth := 0, pendingAnsi := [] } [] rfl 0 (tokens line)
  simp only [sliceWithWidth, sliceWith, if_neg hnot]
  rw [sliceTokens_eq hu, hresult, hwidth, nil_append, Int.zero_add]

theorem tokens_slice (hu : u.Lawful) (line : List Char) (startCol endCol : ℤ) (strict : Bool) :
    tokens (render (keptTokens u startCol endCol strict [] 0 (tokens line))) =
      keptTokens u startCol endCol strict [] 0 (tokens line) :=
  (isTokens_kept hu 0 (isTokens_tokens line).1).tokens_render

theorem columns_slice (hu : u.Lawful) (line : List Char) (startCol length : ℤ) (strict : Bool) :
    (sliceWithWidth u line startCol length strict).2 =
        columns u (sliceWithWidth u line startCol length strict).1 ∧
      (strict = true → (sliceWithWidth u line startCol length strict).2 ≤ max 0 length) := by
  by_cases hlength : 0 < length
  · rw [sliceWithWidth_kept hu line startCol length strict hlength]
    refine ⟨by rw [columns, tokens_slice hu], fun hstrict => ?_⟩
    obtain rfl := hstrict
    have hwidth := @tokensWidth_kept u startCol (startCol + length) hu [] 0 (tokens line)
    simp only
    omega
  · have hnone : sliceWithWidth u line startCol length strict = ([], 0) := if_pos (by omega)
    rw [hnone]
    exact ⟨rfl, fun _ => Int.le_max_left 0 length⟩

theorem stripCodes_slice (hu : u.Lawful) (line : List Char) (startCol : ℤ) (length : ℕ) :
    stripCodes (sliceByColumn u line startCol length true) =
      cellsText ((cells u line).filter (inSlice u startCol (startCol + length) true)) := by
  by_cases hlength : 0 < length
  · rw [sliceByColumn, sliceWithWidth_kept hu line startCol length true (by omega), stripCodes,
      tokens_slice hu]
    exact visibleText_kept [] 0 (tokens line)
  · obtain rfl : length = 0 := by omega
    have hnone : sliceByColumn u line startCol ((0 : ℕ) : ℤ) true = [] := rfl
    have hempty : (cells u line).filter (inSlice u startCol (startCol + (0 : ℕ)) true) = [] := by
      apply filter_eq_nil_iff.mpr
      intro cell _
      simp only [inSlice, decide_eq_true_eq]
      omega
    rw [hnone, hempty]
    rfl

/-- Slices next to each other hold the clusters of their common range. -/
theorem stripCodes_consecutive (hu : u.Lawful) (line : List Char) (startCol : ℤ)
    (lengths : List ℕ) (hunit : ∀ cell ∈ cells u line, u.graphemeWidth cell.2 ≤ 1) :
    (consecutiveSlices u line startCol lengths).flatMap stripCodes =
      cellsText ((cells u line).filter
        (inSlice u startCol (startCol + (lengths.sum : ℕ)) true)) := by
  induction lengths generalizing startCol with
  | nil =>
    have hnone := @stripCodes_slice u hu line startCol 0
    exact hnone
  | cons length rest ih =>
    have hsum : startCol + ((length :: rest).sum : ℕ) =
        startCol + (length : ℤ) + (rest.sum : ℕ) := by
      rw [sum_cons]
      omega
    have hsplit := filter_inSlice_append (pairwise_tokenCells (u := u) 0 (tokens line)) hunit
      (show startCol ≤ startCol + (length : ℤ) by omega)
      (show startCol + (length : ℤ) ≤ startCol + (length : ℤ) + (rest.sum : ℕ) by omega)
    rw [← cells] at hsplit
    rw [consecutiveSlices, flatMap_cons, ih, stripCodes_slice hu, hsum, hsplit]
    simp only [cellsText, map_append, flatten_append]

theorem filter_inSlice_all {line : List Char} {startCol endCol : ℤ}
    (hunit : ∀ cell ∈ cells u line, u.graphemeWidth cell.2 ≤ 1) (hfirst : startCol ≤ 0)
    (hlast : ∀ cell ∈ cells u line, cell.1 < endCol) :
    (cells u line).filter (inSlice u startCol endCol true) = cells u line := by
  apply filter_eq_self.mpr
  intro cell hcell
  have hle := le_tokenCells cell hcell
  have hlt := hlast cell hcell
  have hwidth := hunit cell hcell
  simp only [inSlice, decide_eq_true_eq]
  omega

/-- The fast paths agree with the walk over the clusters, a slice reports its own width, and
strict slices one behind the other share out a line of narrow clusters. Segments differ only where
the range behind the overlay ends before the line begins. -/
theorem fastPaths_agree (hu : u.Lawful) (line : List Char) :
    (∀ startCol length strict, sliceWithWidth u line startCol length strict =
      sliceWith u (fun _ => false) line startCol length strict) ∧
    (∀ beforeEnd afterStart afterLen strictAfter,
      ¬ (0 < beforeEnd ∧ 0 < afterLen ∧ afterStart + afterLen ≤ 0) →
      extractSegments u line beforeEnd afterStart afterLen strictAfter =
        segmentsWith u (fun _ => false) beforeEnd afterStart afterLen strictAfter line) ∧
    (∀ column, getGraphemeCellRange u line column = cellRangeWith u (fun _ => false) column line) ∧
    u.visibleWidth line = u.clustersWidth line ∧
    (∀ startCol length strict,
      (sliceWithWidth u line startCol length strict).2 =
          columns u (sliceWithWidth u line startCol length strict).1 ∧
        (strict = true → (sliceWithWidth u line startCol length strict).2 ≤ max 0 length)) ∧
    ((∀ cell ∈ cells u line, u.graphemeWidth cell.2 ≤ 1) →
      ∀ (startCol : ℤ) (lengths : List ℕ), startCol ≤ 0 →
        (∀ cell ∈ cells u line, cell.1 < startCol + (lengths.sum : ℕ)) →
        (consecutiveSlices u line startCol lengths).flatMap stripCodes = stripCodes line) := by
  refine ⟨fun startCol length strict => ?_, fun beforeEnd afterStart afterLen strictAfter h => ?_,
    fun column => cellRangeTokens_eq hu 0 (tokens line), visibleWidth_eq hu line,
    columns_slice hu line, fun hunit startCol lengths hfirst hlast => ?_⟩
  · simp only [sliceWithWidth, sliceWith, sliceTokens_eq hu]
  · have hlimit : 0 < segmentLimit beforeEnd afterStart afterLen ∨ beforeEnd ≤ 0 := by
      unfold segmentLimit
      split
      · omega
      · omega
    simp only [extractSegments, segmentsWith, segmentTokens_eq hu _ _ hlimit]
  · rw [stripCodes_consecutive hu line startCol lengths hunit,
      filter_inSlice_all hunit hfirst hlast]
    exact cellsText_tokenCells hu 0 (tokens line)

end Results

def isKeycapMark (c : Char) : Bool := c = '\ufe0f' || c = '\u20e3'

/-- Characters one by one, with the keycap marks attached to the character before them. -/
def keycapData : UnicodeData where
  category c := if isKeycapMark c then "Mn" else if c = '\u200b' then "Cf" else "Lo"
  isWide _ := false
  graphemes text := text.splitBy fun _ c => isKeycapMark c

theorem lawful_keycapData : keycapData.Lawful where
  flatten_graphemes := flatten_splitBy _
  ne_nil _ _ h := ne_nil_of_mem_splitBy h
  graphemes_infix text segments h := by
    apply splitBy_flatten
    · exact fun hnil => nil_notMem_splitBy _ text (h.subset hnil)
    · exact fun segment hsegment => isChain_of_mem_splitBy (h.subset hsegment)
    · have hchain := isChain_getLast_head_splitBy (fun _ c => isKeycapMark c) text
      exact hchain.infix h
  graphemes_ascii text h := by
    have hchain : (text.map fun c => [c]).IsChain
        fun a b => ∃ (_ : a ≠ []) (hb : b ≠ []), isKeycapMark (b.head hb) = false := by
      induction text with
      | nil => exact .nil
      | cons c text ih =>
        obtain ⟨_, htext⟩ := forall_mem_cons.mp (UnicodeData.isPrintableAscii_iff.mp h)
        refine isChain_cons.mpr ⟨fun segment hsegment => ?_,
          ih (UnicodeData.isPrintableAscii_iff.mpr htext)⟩
        cases text with
        | nil => cases hsegment
        | cons d text =>
          obtain rfl := Option.some.inj hsegment
          refine ⟨cons_ne_nil _ _, cons_ne_nil _ _, ?_⟩
          have hd := htext d mem_cons_self
          cases hmark : isKeycapMark d with
          | false => exact hmark
          | true =>
            obtain hd' | hd' : d = '\ufe0f' ∨ d = '\u20e3' := by
              simpa only [isKeycapMark, Bool.or_eq_true, decide_eq_true_eq] using hmark
            · exact absurd hd (by rw [hd']; decide)
            · exact absurd hd (by rw [hd']; decide)
    have hflat := splitBy_flatten (r := fun _ c => isKeycapMark c)
      (by simp) (by simp) hchain
    simpa [keycapData, ← flatMap_def] using hflat

def styledLine : List Char := "\x1b[1mab\x1b[0m!".toList

/-- Two columns and two more of a line with codes. -/
theorem fastPaths_agree_styled :
    sliceWithWidth keycapData styledLine 1 2 true =
        sliceWith keycapData (fun _ => false) styledLine 1 2 true ∧
      extractSegments keycapData styledLine 1 2 5 true =
        segmentsWith keycapData (fun _ => false) 1 2 5 true styledLine ∧
      (consecutiveSlices keycapData styledLine 0 [2, 2]).flatMap stripCodes = "ab!".toList := by
  obtain ⟨hslice, hsegments, _, _, _, hconsecutive⟩ :=
    fastPaths_agree lawful_keycapData styledLine
  refine ⟨hslice 1 2 true, hsegments 1 2 5 true (by decide), ?_⟩
  have htext := hconsecutive (by decide) 0 [2, 2] (by decide) (by decide)
  rw [htext]
  decide

def keycapLine : List Char := ['1', esc, '[', '1', 'm', '\ufe0f', '\u20e3']

/-- Before the line begins the two walks part; a sequence inside a cluster parts the width that a
slice reports from that of its text; a slice as wide as the line loses the character without width
at its end; and a code is in every slice behind it. -/
theorem fastPaths_differ :
    keycapData.Lawful ∧
      extractSegments keycapData ['a'] 1 (-5) 2 false ≠
        segmentsWith keycapData (fun _ => false) 1 (-5) 2 false ['a'] ∧
      ((sliceWithWidth keycapData keycapLine 0 5 true).2 = 1 ∧
        keycapData.visibleWidth (sliceWithWidth keycapData keycapLine 0 5 true).1 = 2) ∧
      (keycapData.visibleWidth ['x', '\u200b'] = 1 ∧
        (consecutiveSlices keycapData ['x', '\u200b'] 0 [1]).flatten ≠ ['x', '\u200b']) ∧
      (consecutiveSlices keycapData styledLine 0 [1, 2]).flatten ≠ styledLine :=
  ⟨lawful_keycapData, by decide, by decide, by decide, by decide⟩

end Pidrei.Tui.TerminalText
