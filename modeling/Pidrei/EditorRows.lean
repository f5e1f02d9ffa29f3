import Pidrei.EditorMotion

/-!
What the layout keeps: segments stand one behind the other within their text, the
chunks of a wrapped line join without a gap, and the visual line found for a place in
the text begins at or before that place.
-/
namespace Pidrei.Editor

open PythonText Substitution List

section Segments

/-- The segments stand one behind the other between the two places. -/
def Laid (stop : ℕ) : ℕ → List Segment → Prop
  | start, [] => start ≤ stop
  | start, seg :: rest => start ≤ seg.index ∧ Laid stop (seg.index + seg.segment.length) rest

/-- The segments are nonempty and leave no gap. -/
def Contiguous (stop : ℕ) : ℕ → List Segment → Prop
  | start, [] => start = stop
  | start, seg :: rest =>
    seg.index = start ∧ 0 < seg.segment.length ∧ Contiguous stop (start + seg.segment.length) rest

/-- Spans that do not overlap, one behind the other. -/
def Spaced (stop : ℕ) : ℕ → List (ℕ × ℕ) → Prop
  | _, [] => True
  | start, span :: rest =>
    start ≤ span.1 ∧ span.1 < span.2 ∧ span.2 ≤ stop ∧ Spaced stop span.2 rest

theorem contiguous_records (pieces : List (Text × Bool)) (start : ℕ)
    (h : ∀ piece ∈ pieces, piece.1 ≠ []) :
    Contiguous (start + (pieces.map Prod.fst).flatten.length) start (records start pieces) := by
  induction pieces generalizing start with
  | nil => rfl
  | cons piece pieces ih =>
    have hpos := length_pos_iff.mpr (h piece mem_cons_self)
    have hrest := ih (start + piece.1.length) fun other hother =>
      h other (mem_cons_of_mem _ hother)
    refine ⟨rfl, hpos, ?_⟩
    rw [map_cons, flatten_cons, length_append, ← Nat.add_assoc]
    exact hrest

theorem Segmenter.contiguous (base : Segmenter) (text : Text) :
    Contiguous text.length 0 (base.segment text) := by
  have hrecords := contiguous_records (base.pieces text) 0 (base.nonempty text)
  rwa [base.joined, Nat.zero_add] at hrecords

variable {stop start bound position : ℕ} {segments : List Segment} {found : List (ℕ × ℕ)}

theorem Laid.mono {later : ℕ} (h : Laid stop later segments) (hle : start ≤ later) :
    Laid stop start segments := by
  cases segments with
  | nil => exact Nat.le_trans hle h
  | cons seg rest => exact ⟨Nat.le_trans hle h.1, h.2⟩

theorem Contiguous.laid (h : Contiguous stop start segments) : Laid stop start segments := by
  induction segments generalizing start with
  | nil => exact Nat.le_of_eq h
  | cons seg rest ih =>
    obtain ⟨rfl, _, hrest⟩ := h
    exact ⟨Nat.le_refl _, ih hrest⟩

theorem Laid.start_le (h : Laid stop start segments) : start ≤ stop := by
  induction segments generalizing start with
  | nil => exact h
  | cons seg rest ih =>
    obtain ⟨hstart, hrest⟩ := h
    have hle := ih hrest
    omega

theorem Spaced.mono {earlier : ℕ} (h : Spaced stop start found) (hle : earlier ≤ start) :
    Spaced stop earlier found := by
  cases found with
  | nil => trivial
  | cons span rest => exact ⟨Nat.le_trans hle h.1, h.2⟩

theorem Spaced.filter (h : Spaced stop start found) (p : ℕ × ℕ → Bool) :
    Spaced stop start (found.filter p) := by
  induction found generalizing start with
  | nil => trivial
  | cons span rest ih =>
    obtain ⟨hstart, hlt, hstop, hrest⟩ := h
    rw [filter_cons]
    split
    · exact ⟨hstart, hlt, hstop, ih hrest⟩
    · exact (ih hrest).mono (by omega)

theorem Spaced.dropWhile (h : Spaced stop start found) (p : ℕ × ℕ → Bool) :
    Spaced stop start (found.dropWhile p) := by
  induction found generalizing start with
  | nil => trivial
  | cons span rest ih =>
    obtain ⟨hstart, hlt, hstop, hrest⟩ := h
    rw [dropWhile_cons]
    split
    · exact (ih hrest).mono (by omega)
    · exact ⟨hstart, hlt, hstop, hrest⟩

theorem spaced_spansFrom {α : Type*} (W : Words α) (text : List α) (position skip : ℕ)
    (hskip : skip ≤ text.length) :
    Spaced (position + text.length) (position + skip) (spansFrom W position skip text) := by
  induction text generalizing position skip with
  | nil => cases skip <;> trivial
  | cons x rest ih =>
    rw [length_cons] at hskip
    have hstop : position + (x :: rest).length = position + 1 + rest.length := by
      rw [length_cons]
      omega
    rw [hstop]
    cases skip with
    | succ skip =>
      have hstart : position + (skip + 1) = position + 1 + skip := by omega
      rw [hstart]
      exact ih (position + 1) skip (by omega)
    | zero =>
      rw [spansFrom]
      cases hlength : W.length (x :: rest) with
      | none => exact (ih (position + 1) 0 (Nat.zero_le _)).mono (by omega)
      | some n =>
        obtain ⟨_, _, _, _, hpos, hle, _⟩ := W.opened hlength
        rw [length_cons] at hle
        have hrest := ih (position + 1) (n - 1) (by omega)
        refine ⟨by omega, by show position < position + n; omega, by show position + n ≤ _; omega, ?_⟩
        exact hrest.mono (by show position + n ≤ _; omega)

theorem spaced_markerSpans (validIds : List ℕ) (text : Text) :
    Spaced text.length 0 (markerSpans validIds text) := by
  have hspans := spaced_spansFrom markers text 0 0 (Nat.zero_le _)
  rw [Nat.zero_add] at hspans
  exact hspans.filter _

/-- The last segment put out ends at `bound`: before the next one, or with the marker that the
next one is in. -/
def Emitted (bound position : ℕ) (found : List (ℕ × ℕ)) : Prop :=
  bound ≤ position ∨ ∃ start rest, found = (start, bound) :: rest ∧ start < position

theorem emitted_dropWhile (h : Emitted bound position found) :
    Emitted bound position (found.dropWhile fun marker => marker.2 ≤ position) := by
  rcases h with hle | ⟨start, rest, rfl, hstart⟩
  · exact .inl hle
  · by_cases hbound : bound ≤ position
    · exact .inl hbound
    · right
      refine ⟨start, rest, ?_, hstart⟩
      rw [dropWhile_cons_of_neg (by simpa using hbound)]

theorem Emitted.le (h : Emitted bound position found)
    (houtside : ∀ start stop rest, found = (start, stop) :: rest →
      ¬ (start < position ∧ position < stop)) : bound ≤ position := by
  rcases h with hle | ⟨start, rest, rfl, hstart⟩
  · exact hle
  · have hout := houtside start bound rest rfl
    omega

theorem laid_mergeMarkers {text : Text} (hsegments : Contiguous text.length position segments)
    (hfound : Spaced text.length start found) (hemitted : Emitted bound position found)
    (hbound : bound ≤ text.length) : Laid text.length bound (mergeMarkers text found segments) := by
  induction segments generalizing found position bound start with
  | nil => exact hbound
  | cons seg rest ih =>
    obtain ⟨rfl, hpos, hrest⟩ := hsegments
    have hstop := hrest.laid.start_le
    rw [mergeMarkers]
    have hkept := emitted_dropWhile hemitted
    have hspaced := hfound.dropWhile fun marker => marker.2 ≤ seg.index
    have hinside : ∀ first more, (found.dropWhile fun marker => decide (marker.2 ≤ seg.index)) =
        first :: more → seg.index < first.2 := by
      intro first more heq
      have hnot := head?_dropWhile_not (fun marker => decide (marker.2 ≤ seg.index)) found
      rw [heq] at hnot
      simpa using hnot
    generalize (found.dropWhile fun marker => decide (marker.2 ≤ seg.index)) = left
      at hkept hspaced hinside
    have hnext : Emitted (seg.index + seg.segment.length) (seg.index + seg.segment.length) left :=
      .inl (Nat.le_refl _)
    cases left with
    | nil =>
      have hle := hkept.le fun _ _ _ h => by cases h
      exact ⟨hle, ih hrest hspaced hnext hstop⟩
    | cons span more =>
      obtain ⟨first, last⟩ := span
      have hspan := hspaced.2.1
      have hlast := hspaced.2.2.1
      have hbefore := hinside _ _ rfl
      by_cases hin : first ≤ seg.index ∧ seg.index < last
      · simp only [if_pos hin]
        by_cases hhead : seg.index = first
        · -- the marker begins here and is put out as a whole
          rw [if_pos hhead]
          have hle := hkept.le fun s t r h => by
            obtain ⟨h, _⟩ := cons.inj h
            have hs := congrArg Prod.fst h
            simp only at hs
            omega
          have hlength : ((text.take last).drop first).length = last - first := by
            rw [length_drop, length_take]
            omega
          refine ⟨by show bound ≤ first; omega, ?_⟩
          show Laid text.length (first + ((text.take last).drop first).length) _
          rw [hlength, Nat.add_sub_cancel' (Nat.le_of_lt hspan)]
          exact ih hrest hspaced (.inr ⟨first, more, rfl, by omega⟩) hlast
        · rw [if_neg hhead]
          refine ih hrest hspaced ?_ hbound
          rcases hkept with hle | ⟨s, r, heq, hs⟩
          · exact .inl (by omega)
          · exact .inr ⟨s, r, heq, by omega⟩
      · simp only [if_neg hin]
        have hle := hkept.le fun s t r h => by
          obtain ⟨h, _⟩ := cons.inj h
          have hs := congrArg Prod.fst h
          have ht := congrArg Prod.snd h
          simp only at hs ht
          omega
        exact ⟨hle, ih hrest hspaced hnext hstop⟩

theorem laid_segmentWithMarkers (base : Segmenter) (text : Text) (validIds : List ℕ) :
    Laid text.length 0 (segmentWithMarkers text base.segment validIds) := by
  unfold segmentWithMarkers
  simp only
  split
  · exact (base.contiguous text).laid
  · exact laid_mergeMarkers (base.contiguous text) (spaced_markerSpans validIds text)
      (.inl (Nat.le_refl 0)) (Nat.zero_le _)

theorem Laid.mem (h : Laid stop start segments) {seg : Segment} (hseg : seg ∈ segments) :
    start ≤ seg.index ∧ seg.index + seg.segment.length ≤ stop := by
  induction segments generalizing start with
  | nil => cases hseg
  | cons first rest ih =>
    obtain ⟨hstart, hrest⟩ := h
    rcases mem_cons.mp hseg with rfl | hseg
    · exact ⟨hstart, hrest.start_le⟩
    · obtain ⟨hle, hstop⟩ := ih hrest hseg
      exact ⟨by omega, hstop⟩

theorem Laid.totalLength_le (h : Laid stop start segments) :
    start + totalLength segments ≤ stop := by
  induction segments generalizing start with
  | nil => exact h
  | cons seg rest ih =>
    obtain ⟨hstart, hrest⟩ := h
    have hle := ih hrest
    have hsum : totalLength (seg :: rest) = seg.segment.length + totalLength rest := rfl
    omega

end Segments

section Chunks

/-- The chunks join without a gap from the first place to the last. -/
def Covers (stop : ℕ) : ℕ → List Chunk → Prop
  | start, [] => start = stop
  | start, c :: rest => c.startIndex = start ∧ start ≤ c.endIndex ∧ Covers stop c.endIndex rest

variable {stop start maxWidth : ℕ} {front chunks : List Chunk} {rest : List Segment}
  {visibleWidth : Text → ℕ} {line : Text}

theorem Covers.append {middle : ℕ} {back : List Chunk} (hfront : Covers middle start front)
    (hback : Covers stop middle back) : Covers stop start (front ++ back) := by
  induction front generalizing start with
  | nil =>
    obtain rfl : start = middle := hfront
    exact hback
  | cons c rest ih =>
    obtain ⟨hstart, hle, hrest⟩ := hfront
    exact ⟨hstart, hle, ih hrest⟩

theorem Covers.concat {last : Chunk} (h : Covers stop start (front ++ [last])) :
    Covers last.startIndex start front ∧ last.startIndex ≤ stop := by
  induction front generalizing start with
  | nil =>
    obtain ⟨hstart, hle, hend⟩ := h
    obtain hend : last.endIndex = stop := hend
    exact ⟨hstart.symm, by omega⟩
  | cons c rest ih =>
    obtain ⟨hstart, hle, hrest⟩ := h
    obtain ⟨hcovers, hlast⟩ := ih hrest
    exact ⟨⟨hstart, hle, hcovers⟩, hlast⟩

theorem Covers.shift (h : Covers stop start chunks) (offset : ℕ) :
    Covers (offset + stop) (offset + start) (chunks.map fun c =>
      ⟨c.text, offset + c.startIndex, offset + c.endIndex⟩) := by
  induction chunks generalizing start with
  | nil =>
    obtain rfl : start = stop := h
    rfl
  | cons c rest ih =>
    obtain ⟨hstart, hle, hrest⟩ := h
    exact ⟨by show offset + _ = _; omega, by show _ ≤ offset + _; omega, ih hrest⟩

theorem covers_chunk (line : Text) (h : start ≤ stop) :
    Covers stop start [chunk line start stop] := ⟨rfl, h, rfl⟩

/-- What the wrapping loop keeps before the segment at `limit`. -/
structure Wrap.Good (w : Wrap) (limit : ℕ) : Prop where
  covers : Covers w.chunkStart 0 w.chunks
  start_le : w.chunkStart ≤ limit
  opportunity : ∀ opp, w.wrapOpp = some opp → w.chunkStart ≤ opp.1 ∧ opp.1 ≤ limit

variable {w : Wrap} {limit : ℕ}

theorem Wrap.Good.later {later : ℕ} (h : w.Good limit) (hle : limit ≤ later) : w.Good later where
  covers := h.covers
  start_le := Nat.le_trans h.start_le hle
  opportunity opp hopp := ⟨(h.opportunity opp hopp).1, Nat.le_trans (h.opportunity opp hopp).2 hle⟩

theorem good_forceBreak (line : Text) (h : w.Good limit) :
    (forceBreak line limit w).Good limit ∧ (forceBreak line limit w).chunkStart = limit := by
  have hstart := h.start_le
  unfold forceBreak
  split
  · refine ⟨⟨h.covers.append (covers_chunk line hstart), Nat.le_refl _, ?_⟩, rfl⟩
    rintro opp ⟨⟩
  · refine ⟨⟨h.covers, hstart, ?_⟩, by show w.chunkStart = limit; omega⟩
    rintro opp ⟨⟩

theorem good_breakBefore (line : Text) (maxWidth gWidth : ℕ) (h : w.Good limit) :
    (breakBefore line maxWidth gWidth limit w).Good limit := by
  unfold breakBefore
  split
  · split
    · rename_i index width hopp
      obtain ⟨hle, hlimit⟩ := h.opportunity _ hopp
      split
      · refine ⟨h.covers.append (covers_chunk line hle), hlimit, ?_⟩
        rintro opp ⟨⟩
      · exact (good_forceBreak line h).1
    · exact (good_forceBreak line h).1
  · exact h

theorem breakBefore_wide (line : Text) {gWidth : ℕ} (h : w.Good limit) (hwide : maxWidth < gWidth) :
    (breakBefore line maxWidth gWidth limit w).chunkStart = limit := by
  have hforce := (good_forceBreak line h).2
  unfold breakBefore
  rw [if_pos (by omega)]
  split
  · rw [if_neg (by omega)]
    exact hforce
  · exact hforce

theorem good_noteOpportunity (seg : Segment) (h : w.Good limit) (hrest : Laid stop limit rest) :
    (noteOpportunity seg rest w).Good ((rest.head?.map Segment.index).getD stop) := by
  unfold noteOpportunity
  cases rest with
  | nil => exact h.later hrest
  | cons next rest =>
    have hlater := h.later hrest.1
    show (if canBreak seg next then _ else w).Good next.index
    split
    · refine ⟨hlater.covers, hlater.start_le, ?_⟩
      rintro opp ⟨⟩
      exact ⟨hlater.start_le, Nat.le_refl _⟩
    · exact hlater

theorem good_rewrap {subChunks : List Chunk} {length : ℕ} (h : w.Good limit)
    (hstart : w.chunkStart = limit) (hsub : Covers length 0 subChunks) (hne : subChunks ≠ [])
    (hrest : Laid stop (limit + length) rest) :
    (rewrap visibleWidth limit subChunks w).Good ((rest.head?.map Segment.index).getD stop) := by
  obtain ⟨front, last, rfl⟩ : ∃ front last, subChunks = front ++ [last] :=
    ⟨_, _, (dropLast_append_getLast hne).symm⟩
  obtain ⟨hfront, hlast⟩ := hsub.concat
  have hopen := h.covers
  rw [hstart] at hopen
  have hcovers := hopen.append (hfront.shift limit)
  have hlimit : limit + last.startIndex ≤ (rest.head?.map Segment.index).getD stop := by
    cases rest with
    | nil =>
      have hstop : limit + length ≤ stop := hrest
      show limit + last.startIndex ≤ stop
      omega
    | cons next rest =>
      have hnext : limit + length ≤ next.index := hrest.1
      show limit + last.startIndex ≤ next.index
      omega
  have heq : rewrap visibleWidth limit (front ++ [last]) w =
      ⟨w.chunks ++ front.map (fun sc => ⟨sc.text, limit + sc.startIndex, limit + sc.endIndex⟩),
        visibleWidth last.text, limit + last.startIndex, none⟩ := by
    simp [rewrap]
  rw [heq]
  exact ⟨hcovers, hlimit, fun opp hopp => by cases hopp⟩

theorem good_wrapSegments {inner : Text → Option (List Chunk)}
    (hinner : ∀ text chunks, inner text = some chunks → chunks ≠ [] ∧ Covers text.length 0 chunks)
    {segments : List Segment} (hsegments : Laid stop start segments)
    (hw : w.Good ((segments.head?.map Segment.index).getD stop)) {result : Wrap}
    (h : wrapSegments visibleWidth inner line maxWidth w segments = some result) :
    result.Good stop := by
  induction segments generalizing w start with
  | nil =>
    cases h
    exact hw
  | cons seg rest ih =>
    have hrest := hsegments.2
    have hbroken : (breakBefore line maxWidth (visibleWidth seg.segment) seg.index w).Good seg.index :=
      good_breakBefore line _ _ hw
    rw [wrapSegments] at h
    split at h
    · rename_i hwide
      obtain ⟨subChunks, hsub, h⟩ := Option.bind_eq_some_iff.mp h
      obtain ⟨hne, hcovers⟩ := hinner _ _ hsub
      exact ih hrest (good_rewrap hbroken (breakBefore_wide line hw hwide) hcovers hne hrest) h
    · refine ih hrest (good_noteOpportunity seg ?_ (hrest.mono (Nat.le_add_right _ _))) h
      exact ⟨hbroken.covers, hbroken.start_le, hbroken.opportunity⟩

theorem covers_wordWrapLine (metrics : Metrics) {depth : ℕ} (hwidth : 0 < maxWidth)
    {segments : Option (List Segment)}
    (hsegments : ∀ given, segments = some given → Laid line.length 0 given)
    (h : wordWrapLine metrics depth line maxWidth segments = some chunks) :
    chunks ≠ [] ∧ Covers line.length 0 chunks := by
  induction depth generalizing line segments chunks with
  | zero => cases h
  | succ depth ih =>
    rw [wordWrapLine] at h
    split at h
    · rename_i hempty
      cases h
      obtain rfl : line = [] := hempty.resolve_right (Nat.pos_iff_ne_zero.mp hwidth)
      exact ⟨by simp, rfl, Nat.le_refl _, rfl⟩
    · split at h
      · cases h
        exact ⟨by simp, rfl, Nat.zero_le _, rfl⟩
      · simp only at h
        obtain ⟨w, hw, rfl⟩ := Option.map_eq_some_iff.mp h
        have hlaid : Laid line.length 0 (segments.getD (metrics.graphemes.segment line)) := by
          cases segments with
          | none => exact (metrics.graphemes.contiguous line).laid
          | some given => exact hsegments given rfl
        have hgood : w.Good line.length := by
          refine good_wrapSegments ?_ hlaid ?_ hw
          · intro text chunks hchunks
            exact ih (fun given h => by cases h) hchunks
          · exact ⟨rfl, Nat.zero_le _, fun opp hopp => by cases hopp⟩
        exact ⟨by simp, hgood.covers.append (covers_chunk line hgood.start_le)⟩

end Chunks

section Rows

def RowsOf (logicalLine stop : ℕ) : ℕ → List VisualLine → Prop
  | start, [] => start = stop
  | start, vl :: rest =>
    vl.logicalLine = logicalLine ∧ vl.startCol = start ∧
      RowsOf logicalLine stop (start + vl.length) rest

variable {logicalLine stop start : ℕ} {rows : List VisualLine}

theorem RowsOf.mem (h : RowsOf logicalLine stop start rows) {vl : VisualLine} (hvl : vl ∈ rows) :
    vl.logicalLine = logicalLine ∧ start ≤ vl.startCol ∧ vl.startCol + vl.length ≤ stop := by
  induction rows generalizing start with
  | nil => cases hvl
  | cons first rest ih =>
    obtain ⟨hline, hstart, hrest⟩ := h
    have hle : ∀ {start rows}, RowsOf logicalLine stop start rows → start ≤ stop := by
      intro start rows hrows
      induction rows generalizing start with
      | nil => exact Nat.le_of_eq hrows
      | cons row rows ih =>
        have hle := ih hrows.2.2
        omega
    rcases mem_cons.mp hvl with rfl | hvl
    · have hstop := hle hrest
      exact ⟨hline, by omega, by omega⟩
    · obtain ⟨hother, hge, hstop⟩ := ih hrest hvl
      exact ⟨hother, by omega, hstop⟩

theorem rowsOf_chunks {chunks : List Chunk} (h : Covers stop start chunks) :
    RowsOf logicalLine stop start (chunks.map fun c =>
      ⟨logicalLine, c.startIndex, c.endIndex - c.startIndex⟩) := by
  induction chunks generalizing start with
  | nil => exact h
  | cons c rest ih =>
    obtain ⟨hstart, hle, hrest⟩ := h
    have hend : start + (c.endIndex - c.startIndex) = c.endIndex := by omega
    refine ⟨rfl, hstart, ?_⟩
    show RowsOf logicalLine stop (start + (c.endIndex - c.startIndex)) _
    rw [hend]
    exact ih hrest

theorem rowsOf_visualLinesOf {metrics : Metrics} {validIds : List ℕ} {width : ℕ}
    (hwidth : 0 < width) {line : Text}
    (h : visualLinesOf metrics validIds width logicalLine line = some rows) :
    rows ≠ [] ∧ RowsOf logicalLine line.length 0 rows := by
  unfold visualLinesOf at h
  split at h
  · rename_i hempty
    cases h
    exact ⟨by simp, rfl, rfl, hempty.symm⟩
  · split at h
    · cases h
      exact ⟨by simp, rfl, rfl, Nat.zero_add _⟩
    · obtain ⟨chunks, hchunks, rfl⟩ := Option.map_eq_some_iff.mp h
      obtain ⟨hne, hcovers⟩ := covers_wordWrapLine metrics hwidth (fun given hgiven => by
        cases hgiven
        exact laid_segmentWithMarkers metrics.graphemes line validIds) hchunks
      exact ⟨by simpa using hne, rowsOf_chunks hcovers⟩

variable {back : List VisualLine}

theorem find_rowsOf (h : RowsOf logicalLine stop start rows) (hne : rows ≠ [])
    (hback : ∀ vl, back.head? = some vl → vl.logicalLine ≠ logicalLine) {col : ℕ}
    (hstart : start ≤ col) (hstop : col ≤ stop) :
    ∃ vl ∈ rows, (rows ++ back)[findVisualLineAt logicalLine col (rows ++ back)]? = some vl ∧
      vl.startCol ≤ col := by
  induction rows generalizing start with
  | nil => exact absurd rfl hne
  | cons vl rest ih =>
    obtain ⟨hline, hcol, hrest⟩ := h
    rw [cons_append, findVisualLineAt]
    split
    · exact ⟨vl, mem_cons_self, rfl, by omega⟩
    · rename_i hnot
      rw [not_or] at hnot
      by_cases hinside : col < start + vl.length
      · exfalso
        apply hnot.2
        simp only [holdsPosition, Bool.and_eq_true, Bool.or_eq_true, decide_eq_true_eq]
        refine ⟨⟨by exact_mod_cast hline, by omega⟩, .inl (by omega)⟩
      · have hmore : rest ≠ [] := by
          rintro rfl
          obtain hend : start + vl.length = stop := hrest
          apply hnot.2
          have hlast : isLastSegment vl ([] ++ back) = true := by
            rw [nil_append]
            unfold isLastSegment
            split
            · rename_i next hnext
              have hother := hback next hnext
              rw [hline]
              simpa using hother
            · rfl
          simp only [holdsPosition, hlast, Bool.and_eq_true, Bool.or_eq_true, decide_eq_true_eq]
          exact ⟨⟨by exact_mod_cast hline, by omega⟩, .inr ⟨trivial, by omega⟩⟩
        obtain ⟨found, hmem, hfound, hle⟩ := ih hrest hmore (by omega)
        exact ⟨found, mem_cons_of_mem _ hmem, hfound, hle⟩

theorem find_append {line col : ℤ} {front : List VisualLine}
    (hfront : ∀ vl ∈ front, (vl.logicalLine : ℤ) ≠ line) (hback : back ≠ []) :
    findVisualLineAt line col (front ++ back) = front.length + findVisualLineAt line col back := by
  induction front with
  | nil => rw [nil_append, length_nil, Nat.zero_add]
  | cons vl rest ih =>
    have hother := hfront vl mem_cons_self
    have hnot : holdsPosition line col vl (rest ++ back) = false := by
      simp [holdsPosition, hother]
    rw [cons_append, findVisualLineAt, if_neg (by simp [hnot, hback]),
      ih fun other hmem => hfront other (mem_cons_of_mem _ hmem), length_cons]
    omega

section Map

variable {metrics : Metrics} {validIds : List ℕ} {width : ℕ} {k : ℕ} {visualLines : List VisualLine}
  {lines : List Text} {line : Text} {vl : VisualLine}

theorem buildVisualLineMap_cons {rest : List Text}
    (h : buildVisualLineMap metrics validIds width k (line :: rest) = some visualLines) :
    ∃ rows more, visualLinesOf metrics validIds width k line = some rows ∧
      buildVisualLineMap metrics validIds width (k + 1) rest = some more ∧
      visualLines = rows ++ more := by
  obtain ⟨rows, hrows, h⟩ := Option.bind_eq_some_iff.mp h
  obtain ⟨more, hmore, h⟩ := Option.bind_eq_some_iff.mp h
  exact ⟨rows, more, hrows, hmore, (Option.some.inj h).symm⟩

theorem mem_buildVisualLineMap (hwidth : 0 < width)
    (h : buildVisualLineMap metrics validIds width k lines = some visualLines)
    (hvl : vl ∈ visualLines) : k ≤ vl.logicalLine ∧ ∃ line, lines[vl.logicalLine - k]? = some line ∧
      vl.startCol + vl.length ≤ line.length := by
  induction lines generalizing k visualLines with
  | nil =>
    cases h
    cases hvl
  | cons line rest ih =>
    obtain ⟨rows, more, hrows, hmore, rfl⟩ := buildVisualLineMap_cons h
    rcases mem_append.mp hvl with hvl | hvl
    · obtain ⟨hline, _, hstop⟩ := (rowsOf_visualLinesOf hwidth hrows).2.mem hvl
      refine ⟨by omega, line, ?_, hstop⟩
      rw [hline, Nat.sub_self]
      rfl
    · obtain ⟨hge, other, hother, hstop⟩ := ih hmore hvl
      refine ⟨by omega, other, ?_, hstop⟩
      have hindex : vl.logicalLine - k = vl.logicalLine - (k + 1) + 1 := by omega
      rw [hindex, getElem?_cons_succ]
      exact hother

theorem head_buildVisualLineMap (hwidth : 0 < width)
    (h : buildVisualLineMap metrics validIds width k lines = some visualLines)
    (hvl : visualLines.head? = some vl) : vl.startCol = 0 := by
  cases lines with
  | nil =>
    cases h
    cases hvl
  | cons line rest =>
    obtain ⟨rows, more, hrows, _, rfl⟩ := buildVisualLineMap_cons h
    obtain ⟨hne, hrowsOf⟩ := rowsOf_visualLinesOf hwidth hrows
    obtain ⟨first, others, rfl⟩ := exists_cons_of_ne_nil hne
    cases hvl
    exact hrowsOf.2.1

theorem startCol_of_change (hwidth : 0 < width)
    (h : buildVisualLineMap metrics validIds width k lines = some visualLines) {i : ℕ}
    {a b : VisualLine} (ha : visualLines[i]? = some a) (hb : visualLines[i + 1]? = some b)
    (hne : b.logicalLine ≠ a.logicalLine) : b.startCol = 0 := by
  induction lines generalizing k visualLines i with
  | nil =>
    cases h
    cases ha
  | cons line rest ih =>
    obtain ⟨rows, more, hrows, hmore, rfl⟩ := buildVisualLineMap_cons h
    have hrowsOf := (rowsOf_visualLinesOf hwidth hrows).2
    by_cases hi : i + 1 < rows.length
    · rw [getElem?_append_left (by omega)] at ha
      rw [getElem?_append_left hi] at hb
      have hla := (hrowsOf.mem (mem_of_getElem? ha)).1
      have hlb := (hrowsOf.mem (mem_of_getElem? hb)).1
      exact absurd (hlb.trans hla.symm) hne
    · rw [getElem?_append_right (by omega)] at hb
      by_cases hboundary : i + 1 = rows.length
      · rw [hboundary, Nat.sub_self] at hb
        exact head_buildVisualLineMap hwidth hmore (by rw [head?_eq_getElem?]; exact hb)
      · rw [getElem?_append_right (by omega)] at ha
        have hindex : i + 1 - rows.length = i - rows.length + 1 := by omega
        rw [hindex] at hb
        exact ih hmore ha hb

theorem find_buildVisualLineMap (hwidth : 0 < width)
    (h : buildVisualLineMap metrics validIds width k lines = some visualLines) {l col : ℕ}
    (hline : lines[l]? = some line) (hcol : col ≤ line.length) :
    ∃ vl, visualLines[findVisualLineAt (k + l : ℕ) col visualLines]? = some vl ∧
      vl.logicalLine = k + l ∧ vl.startCol ≤ col := by
  induction lines generalizing k visualLines l with
  | nil => cases hline
  | cons first rest ih =>
    obtain ⟨rows, more, hrows, hmore, rfl⟩ := buildVisualLineMap_cons h
    obtain ⟨hne, hrowsOf⟩ := rowsOf_visualLinesOf hwidth hrows
    cases l with
    | zero =>
      cases hline
      have hback : ∀ vl, more.head? = some vl → vl.logicalLine ≠ k := by
        intro vl hvl
        have hge := (mem_buildVisualLineMap hwidth hmore (mem_of_mem_head? hvl)).1
        omega
      obtain ⟨vl, hmem, hfound, hle⟩ := find_rowsOf hrowsOf hne hback (Nat.zero_le col) hcol
      exact ⟨vl, hfound, (hrowsOf.mem hmem).1, hle⟩
    | succ l =>
      obtain ⟨vl, hfound, hlogical, hle⟩ := ih hmore hline
      have hmoreNe : more ≠ [] := by
        rintro rfl
        cases hfound
      have hkl : k + (l + 1) = k + 1 + l := by omega
      have hfind : findVisualLineAt (k + (l + 1) : ℕ) col (rows ++ more) =
          rows.length + findVisualLineAt (k + 1 + l : ℕ) col more := by
        rw [hkl]
        refine find_append (fun other hother => ?_) hmoreNe
        have hlineOther := (hrowsOf.mem hother).1
        omega
      refine ⟨vl, ?_, by omega, hle⟩
      rw [hfind, getElem?_append_right (Nat.le_add_right _ _), Nat.add_sub_cancel_left]
      exact hfound

end Map

end Rows

end Pidrei.Editor
