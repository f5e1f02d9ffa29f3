import Pidrei.Library.Utf8
import Pidrei.Truncate

/-!
Reading a text file in pages. A page that is not the last one carries a notice
with the offset of the next. Followed from the first line on, the pages of a file
joined by newlines are the file, unless the caller's own limit admits no line.
-/
namespace Pidrei.ReadTool

open Truncate List

inductive ReadFailure
  | beyondEnd (offset : Option ℤ) (totalFileLines : ℕ)
  | indexError

/-- The notice at the end of a page. -/
inductive Notice
  | showing (byLines : Bool) (startLine endLine : ℤ) (totalFileLines : ℕ) (nextOffset : ℤ)
  | moreLines (remaining nextOffset : ℤ)

inductive ReadOutput
  | lineTooLong (startLine : ℤ) (firstLineSize : ℕ) (details : TruncationResult)
  | page (content : Text) (notice : Option Notice) (details : Option TruncationResult)

def Notice.nextOffset : Notice → ℤ
  | .showing _ _ _ _ nextOffset => nextOffset
  | .moreLines _ nextOffset => nextOffset

/-- The tenths of `size / unit`, rounded half to even. -/
def roundTenths (size unit : ℕ) : ℕ :=
  let tenths := 10 * size / unit
  let rest := 10 * size % unit
  if unit < 2 * rest ∨ (2 * rest = unit ∧ tenths % 2 = 1) then tenths + 1 else tenths

def formatSize (sizeBytes : ℕ) : String :=
  if sizeBytes < 1024 then s!"{sizeBytes}B"
  else if sizeBytes < 1024 * 1024 then
    let tenths := roundTenths sizeBytes 1024
    s!"{tenths / 10}.{tenths % 10}KB"
  else
    let tenths := roundTenths sizeBytes (1024 * 1024)
    s!"{tenths / 10}.{tenths % 10}MB"

def ReadFailure.message : ReadFailure → String
  | .beyondEnd none totalFileLines =>
    s!"Offset None is beyond end of file ({totalFileLines} lines total)"
  | .beyondEnd (some offset) totalFileLines =>
    s!"Offset {offset} is beyond end of file ({totalFileLines} lines total)"
  | .indexError => "list index out of range"

def Notice.text : Notice → String
  | .showing true startLine endLine totalFileLines nextOffset =>
    s!"[Showing lines {startLine}-{endLine} of {totalFileLines}. " ++
      s!"Use offset={nextOffset} to continue.]"
  | .showing false startLine endLine totalFileLines nextOffset =>
    s!"[Showing lines {startLine}-{endLine} of {totalFileLines} " ++
      s!"({formatSize defaultMaxBytes.toNat} limit). Use offset={nextOffset} to continue.]"
  | .moreLines remaining nextOffset =>
    s!"[{remaining} more lines in file. Use offset={nextOffset} to continue.]"

/-- `output_text`. -/
def ReadOutput.text (path : String) : ReadOutput → Text
  | .lineTooLong startLine firstLineSize _ =>
    codePoints (s!"[Line {startLine} is {formatSize firstLineSize}, exceeds " ++
      s!"{formatSize defaultMaxBytes.toNat} limit. Use bash: sed -n '{startLine}p' " ++
      s!"{path} | head -c {defaultMaxBytes}]").toList
  | .page content none _ => content
  | .page content (some notice) _ => content ++ codePoints ("\n\n" ++ notice.text).toList

def fileText (buffer : List UInt8) : Text := codePoints (Utf8.decodeReplace buffer)

def fileLines (buffer : List UInt8) : List Text := (fileText buffer).splitOn newline

/-- The output for what `truncate_head` has left of the selected lines. -/
def present (allLines : List Text) (startLine : ℤ) (userLimitedLines : Option ℤ)
    (truncation : TruncationResult) : ReadOutput :=
  if truncation.firstLineExceedsLimit then
    .lineTooLong (startLine + 1) (utf8ByteLength (allLines[startLine.toNat]?.getD [])) truncation
  else if truncation.truncated then
    let endLine := startLine + 1 + truncation.outputLines - 1
    .page truncation.content
      (some (.showing (truncation.truncatedBy = some .lines) (startLine + 1) endLine
        allLines.length (endLine + 1)))
      (some truncation)
  else
    match userLimitedLines with
    | some userLimitedLines =>
      if startLine + userLimitedLines < allLines.length then
        .page truncation.content
          (some (.moreLines (allLines.length - (startLine + userLimitedLines))
            (startLine + userLimitedLines + 1)))
          none
      else .page truncation.content none none
    | none => .page truncation.content none none

/-- `start_line`: from the 1-indexed offset to an index. -/
def startLine : Option ℤ → ℤ
  | none => 0
  | some offset => if offset = 0 then 0 else max 0 (offset - 1)

/-- The text branch of `execute`; the offset and the limit are what `int` makes of them. -/
def readText (buffer : List UInt8) (offset limit : Option ℤ) :
    Except ReadFailure ReadOutput :=
  let allLines := fileLines buffer
  let startLine := startLine offset
  if allLines.length ≤ startLine then .error (.beyondEnd offset allLines.length)
  else
    let endLine : Option ℤ := limit.map fun limit => min (startLine + limit) allLines.length
    let selected := PythonText.slice allLines startLine (endLine.getD allLines.length)
    match truncateHead (joinLines selected) defaultMaxLines defaultMaxBytes with
    | none => .error .indexError
    | some truncation =>
      .ok (present allLines startLine (endLine.map (· - startLine)) truncation)

/-- The pages from an offset on, each notice followed to the last page, with growing offsets. -/
inductive Pages (buffer : List UInt8) (limit : Option ℤ) : ℤ → List Text → Prop
  | last {offset content details}
      (h : readText buffer (some offset) limit = .ok (.page content none details)) :
      Pages buffer limit offset [content]
  | next {offset content notice details contents}
      (h : readText buffer (some offset) limit = .ok (.page content (some notice) details))
      (hgrows : offset < notice.nextOffset)
      (hrest : Pages buffer limit notice.nextOffset contents) :
      Pages buffer limit offset (content :: contents)

section Rebuild

variable {buffer : List UInt8} {limit : Option ℤ}

theorem fileLines_ne_nil (buffer : List UInt8) : fileLines buffer ≠ [] :=
  splitOn_ne_nil _ _

/-- The number of lines that the caller's limit leaves of the rest. -/
def window (limit : Option ℤ) (rest : ℕ) : ℕ :=
  match limit with
  | none => rest
  | some limit => min limit.toNat rest

variable {lines : List Text} {start : ℕ} {truncation : TruncationResult}

theorem slice_window (hstart : start < lines.length) (hlimit : ∀ n, limit = some n → 0 < n) :
    PythonText.slice lines (start : ℤ)
      ((limit.map fun limit => min ((start : ℤ) + limit) lines.length).getD lines.length) =
        (lines.drop start).take (window limit (lines.length - start)) := by
  have hfrom : PythonText.sliceIndex lines.length (start : ℤ) = start := by
    rw [PythonText.sliceIndex, if_neg (by omega), Int.toNat_natCast]
    omega
  rw [PythonText.slice, hfrom, drop_take]
  congr 1
  cases limit with
  | none =>
    change PythonText.sliceIndex lines.length (lines.length : ℤ) - start = lines.length - start
    rw [PythonText.sliceIndex, if_neg (by omega), Int.toNat_natCast, Nat.min_self]
  | some n =>
    have hn := hlimit n rfl
    change PythonText.sliceIndex lines.length (min ((start : ℤ) + n) lines.length) - start =
      min n.toNat (lines.length - start)
    rw [PythonText.sliceIndex, if_neg (by omega)]
    omega

theorem window_pos {rest : ℕ} (hrest : 0 < rest) (hlimit : ∀ n, limit = some n → 0 < n) :
    0 < window limit rest ∧ window limit rest ≤ rest := by
  cases limit with
  | none => exact ⟨hrest, Nat.le_refl rest⟩
  | some n =>
    have hn := hlimit n rfl
    change 0 < min n.toNat rest ∧ min n.toNat rest ≤ rest
    omega

/-- What the caller's limit leaves out is announced. -/
theorem present_whole (hstart : start < lines.length) (hlimit : ∀ n, limit = some n → 0 < n)
    (hfits : truncation.firstLineExceedsLimit = false) (htruncated : truncation.truncated = false) :
    ∃ notice, present lines start
        ((limit.map fun limit => min ((start : ℤ) + limit) lines.length).map (· - (start : ℤ)))
        truncation = .page truncation.content notice none ∧
      ((notice = none ∧ start + window limit (lines.length - start) = lines.length) ∨
        ∃ shown, notice = some shown ∧
          shown.nextOffset = (start + window limit (lines.length - start) : ℕ) + 1 ∧
          start + window limit (lines.length - start) < lines.length) := by
  unfold present
  rw [hfits, htruncated, if_neg Bool.false_ne_true, if_neg Bool.false_ne_true]
  cases limit with
  | none => exact ⟨none, rfl, .inl ⟨rfl, by rw [window]; omega⟩⟩
  | some n =>
    have hn := hlimit n rfl
    simp only [Option.map_some, window]
    by_cases hmore : (start : ℤ) + (min ((start : ℤ) + n) lines.length - start) < lines.length
    · rw [if_pos hmore]
      refine ⟨_, rfl, .inr ⟨_, rfl, ?_, by omega⟩⟩
      rw [Notice.nextOffset]
      omega
    · rw [if_neg hmore]
      exact ⟨none, rfl, .inl ⟨rfl, by omega⟩⟩

theorem present_truncated (lines : List Text) (start : ℕ) (userLimitedLines : Option ℤ)
    (hfits : truncation.firstLineExceedsLimit = false) (htruncated : truncation.truncated = true) :
    ∃ shown,
      present lines start userLimitedLines truncation =
        .page truncation.content (some shown) (some truncation) ∧
      shown.nextOffset = (start + truncation.outputLines : ℕ) + 1 := by
  unfold present
  rw [hfits, htruncated, if_neg Bool.false_ne_true, if_pos rfl]
  refine ⟨_, rfl, ?_⟩
  rw [Notice.nextOffset]
  omega

theorem readText_page (hlines : ∀ line ∈ fileLines buffer, utf8ByteLength line ≤ defaultMaxBytes)
    (hlimit : ∀ n, limit = some n → 0 < n) (hstart : start < (fileLines buffer).length) :
    ∃ size notice details, 0 < size ∧ size ≤ (fileLines buffer).length - start ∧
      readText buffer (some (start + 1)) limit =
        .ok (.page (joinLines (((fileLines buffer).drop start).take size)) notice details) ∧
      ((notice = none ∧ start + size = (fileLines buffer).length) ∨
        ∃ shown, notice = some shown ∧ shown.nextOffset = (start + size : ℕ) + 1 ∧
          start + size < (fileLines buffer).length) := by
  have hrest : 0 < (fileLines buffer).length - start := Nat.sub_pos_of_lt hstart
  obtain ⟨hpos, hle⟩ := window_pos hrest hlimit
  set lines := fileLines buffer with hfile
  set block := (lines.drop start).take (window limit (lines.length - start)) with hblock
  have hlength : block.length = window limit (lines.length - start) := by
    rw [hblock, length_take, length_drop]
    omega
  have hmem : ∀ line ∈ block, line ∈ lines := fun line hline =>
    mem_of_mem_drop (mem_of_mem_take hline)
  have hne : block ≠ [] := by
    intro hnil
    rw [hnil, length_nil] at hlength
    omega
  obtain ⟨truncation, htruncation, hfits, hkept⟩ :
      ∃ result, truncateHead (joinLines block) defaultMaxLines defaultMaxBytes = some result ∧
        KeepsHead block result :=
    truncateHead_block hne (fun line hline => Lines.not_mem_of_mem_splitOn (hmem line hline))
      (by decide) (by decide) (fun line hline => hlines line (hmem line hline))
  have hread : readText buffer (some (start + 1)) limit = .ok (present lines start
      ((limit.map fun limit => min ((start : ℤ) + limit) lines.length).map (· - (start : ℤ)))
      truncation) := by
    have hoffset : startLine (some ((start : ℤ) + 1)) = start := by
      rw [startLine, if_neg (by omega)]
      omega
    have hinside : ¬ (lines.length : ℤ) ≤ start := by omega
    unfold readText
    simp only [hoffset, ← hfile, if_neg hinside, slice_window hstart hlimit, ← hblock, htruncation]
  rw [hread]
  rcases hkept with ⟨htruncated, hcontent⟩ | ⟨htruncated, hsome, hall, hcontent⟩
  · obtain ⟨notice, hpresent, hnotice⟩ := present_whole hstart hlimit hfits htruncated
    rw [hpresent, hcontent]
    exact ⟨_, notice, none, hpos, hle, rfl, hnotice⟩
  · have htaken : block.take truncation.outputLines =
        (lines.drop start).take truncation.outputLines := by
      rw [hblock, take_take]
      congr 1
      omega
    rw [htaken] at hcontent
    obtain ⟨shown, hpresent, hnext⟩ := present_truncated lines start
      ((limit.map fun limit => min ((start : ℤ) + limit) lines.length).map (· - (start : ℤ)))
      hfits htruncated
    rw [hpresent, hcontent]
    exact ⟨_, _, _, hsome, by omega, rfl, .inr ⟨shown, rfl, hnext, by omega⟩⟩

theorem pages_from (hlines : ∀ line ∈ fileLines buffer, utf8ByteLength line ≤ defaultMaxBytes)
    (hlimit : ∀ n, limit = some n → 0 < n) (hstart : start < (fileLines buffer).length) :
    ∃ contents, Pages buffer limit (start + 1) contents ∧ contents ≠ [] ∧
      joinLines contents = joinLines ((fileLines buffer).drop start) ∧
      contents.flatMap (List.splitOn newline) = (fileLines buffer).drop start := by
  induction hrest : (fileLines buffer).length - start using Nat.strongRecOn generalizing start with
  | ind rest ih =>
    obtain ⟨size, notice, details, hsize, hle, hread, hnotice⟩ :=
      readText_page hlines hlimit hstart
    set lines := fileLines buffer with hfile
    have hne : (lines.drop start).take size ≠ [] := by
      intro hnil
      have hlength := congrArg length hnil
      rw [length_take, length_drop, length_nil] at hlength
      omega
    have hsplit : (joinLines ((lines.drop start).take size)).splitOn newline =
        (lines.drop start).take size :=
      splitOn_joinLines hne fun line hline => Lines.not_mem_of_mem_splitOn
        (mem_of_mem_drop (mem_of_mem_take hline))
    have hdrop : (lines.drop start).take size ++ lines.drop (start + size) = lines.drop start := by
      rw [← drop_drop, take_append_drop]
    rcases hnotice with ⟨rfl, hend⟩ | ⟨shown, rfl, hnext, hmore⟩
    · have hlast : lines.drop (start + size) = [] := drop_eq_nil_of_le (by omega)
      rw [hlast, append_nil] at hdrop
      refine ⟨_, Pages.last hread, cons_ne_nil _ _, ?_, ?_⟩
      · rw [joinLines, intercalate_singleton, hdrop]
      · rw [flatMap_singleton, hsplit, hdrop]
    · obtain ⟨contents, hpages, hcontents, hjoin, hflat⟩ := ih _ (by omega) hmore rfl
      have hback : lines.drop (start + size) ≠ [] := by
        intro hnil
        have := drop_eq_nil_iff.mp hnil
        omega
      rw [← hnext] at hpages
      refine ⟨_, Pages.next hread (by omega) hpages, cons_ne_nil _ _, ?_, ?_⟩
      · rw [joinLines_cons hcontents, hjoin]
        exact (Lines.join_append hne hback).symm.trans (congrArg joinLines hdrop)
      · rw [flatMap_cons, hsplit, hflat, hdrop]

theorem readText_ok {offset : Option ℤ} {output : ReadOutput}
    (h : readText buffer offset limit = .ok output) :
    ∃ (start : ℤ) (truncation : TruncationResult), start < (fileLines buffer).length ∧
      output = present (fileLines buffer) start ((limit.map fun limit =>
        min (start + limit) (fileLines buffer).length).map (· - start)) truncation := by
  unfold readText at h
  by_cases hend : (fileLines buffer).length ≤ startLine offset
  · simp only [if_pos hend, reduceCtorEq] at h
  · simp only [if_neg hend] at h
    split at h
    · cases h
    · exact ⟨startLine offset, _, by omega, (Except.ok.inj h).symm⟩

/-- Without a positive limit of the caller every page announces another one. -/
theorem present_notice {start n : ℤ} {content : Text} {details : Option TruncationResult}
    (hn : start + n < lines.length) :
    present lines start (some n) truncation ≠ .page content none details := by
  intro h
  unfold present at h
  split at h
  · cases h
  · split at h
    · cases h
    · simp only [if_pos hn] at h
      cases h

theorem no_pages {n : ℤ} (hn : n ≤ 0) {offset : ℤ} {contents : List Text} :
    ¬ Pages buffer (some n) offset contents := by
  intro h
  induction h with
  | last h =>
    obtain ⟨start, truncation, hstart, hpage⟩ := readText_ok h
    refine present_notice ?_ hpage.symm
    change start + (min (start + n) (fileLines buffer).length - start) < (fileLines buffer).length
    omega
  | next h hgrows hrest ih => exact ih

/-- Reading a file page by page ends and gives the file exactly when the caller's limit, if there
is one, admits a line. -/
theorem pages_rebuild_iff (buffer : List UInt8) (limit : Option ℤ)
    (hlines : ∀ line ∈ fileLines buffer, utf8ByteLength line ≤ defaultMaxBytes) :
    (∃ contents, Pages buffer limit 1 contents ∧ joinLines contents = fileText buffer ∧
      contents.flatMap (List.splitOn newline) = fileLines buffer) ↔
        ∀ n, limit = some n → 0 < n := by
  constructor
  · rintro ⟨contents, hpages, _⟩ n rfl
    by_contra hn
    exact no_pages (by omega) hpages
  · intro hlimit
    have hstart : 0 < (fileLines buffer).length :=
      length_pos_of_ne_nil (fileLines_ne_nil buffer)
    obtain ⟨contents, hpages, _, hjoin, hflat⟩ := pages_from hlines hlimit hstart
    refine ⟨contents, hpages, ?_, hflat⟩
    rw [hjoin]
    exact intercalate_splitOn newline

theorem pages_rebuild_iff_twoLines : (∃ contents, Pages [97, 10, 98] (some 1) 1 contents ∧
    joinLines contents = fileText [97, 10, 98] ∧
    contents.flatMap (List.splitOn newline) = fileLines [97, 10, 98]) ↔
      ∀ n : ℤ, some 1 = some n → 0 < n :=
  pages_rebuild_iff [97, 10, 98] (some 1) (by decide)

/-- With a limit of no lines the notice sends the reader back to the same offset. -/
theorem zero_limit_repeats : (∀ line ∈ fileLines [97], utf8ByteLength line ≤ defaultMaxBytes) ∧
    ¬ ∃ contents, Pages [97] (some 0) 1 contents ∧ joinLines contents = fileText [97] := by
  refine ⟨by decide, ?_⟩
  rintro ⟨contents, hpages, _⟩
  exact no_pages (Int.le_refl 0) hpages

end Rebuild

end Pidrei.ReadTool
