import Mathlib.Algebra.GroupWithZero.Nat
import Pidrei.Library.Lines
import Pidrei.Library.PythonText

/-!
Truncation of tool outputs to a number of lines and a number of bytes. A text is
the list of its code points: a Python string may hold lone surrogates, and the
byte counts pair the surrogates of a text as UTF-16 does.
-/
namespace Pidrei.Truncate

open List

abbrev Text := List ℕ

def codePoints (text : List Char) : Text := text.map Char.toNat

def newline : ℕ := 10

def defaultMaxLines : ℤ := 2000

def defaultMaxBytes : ℤ := 50 * 1024

inductive TruncatedBy
  | lines
  | bytes
  deriving DecidableEq

structure TruncationResult where
  content : Text
  truncated : Bool
  truncatedBy : Option TruncatedBy
  totalLines : ℕ
  totalBytes : ℕ
  outputLines : ℕ
  outputBytes : ℕ
  lastLinePartial : Bool
  firstLineExceedsLimit : Bool
  maxLines : ℤ
  maxBytes : ℤ

def isHighSurrogate (code : ℕ) : Bool := 0xD800 ≤ code && code ≤ 0xDBFF

def isLowSurrogate (code : ℕ) : Bool := 0xDC00 ≤ code && code ≤ 0xDFFF

/-- The bytes of a code point on its own; an unpaired surrogate counts as U+FFFD. -/
def codeBytes (code : ℕ) : ℕ :=
  if code ≤ 0x7F then 1 else if code ≤ 0x7FF then 2 else if code ≤ 0xFFFF then 3 else 4

def utf8ByteLength : Text → ℕ
  | [] => 0
  | [code] => codeBytes code
  | code :: next :: rest =>
    if isHighSurrogate code && isLowSurrogate next then 4 + utf8ByteLength rest
    else codeBytes code + utf8ByteLength (next :: rest)

def splitLinesForCounting (content : Text) : List Text :=
  if content = [] then []
  else if content.getLast? = some newline then (content.splitOn newline).dropLast
  else content.splitOn newline

def replaceUnpairedSurrogates : Text → Text
  | [] => []
  | [code] => if isHighSurrogate code || isLowSurrogate code then [0xFFFD] else [code]
  | code :: next :: rest =>
    if isHighSurrogate code && isLowSurrogate next then
      code :: next :: replaceUnpairedSurrogates rest
    else if isHighSurrogate code || isLowSurrogate code then
      0xFFFD :: replaceUnpairedSurrogates (next :: rest)
    else code :: replaceUnpairedSurrogates (next :: rest)

/-- `"\n".join`. -/
def joinLines (lines : List Text) : Text := [newline].intercalate lines

def whole (content : Text) (totalLines totalBytes : ℕ) (maxLines maxBytes : ℤ) :
    TruncationResult where
  content
  truncated := false
  truncatedBy := none
  totalLines
  totalBytes
  outputLines := totalLines
  outputBytes := totalBytes
  lastLinePartial := false
  firstLineExceedsLimit := false
  maxLines
  maxBytes

/-- What a loop over the lines has collected when it stops. -/
structure Collected where
  lines : List Text
  bytes : ℕ
  truncatedBy : TruncatedBy
  lastLinePartial : Bool

/-- The reason after the loop: the line limit wins when both are reached. -/
def Collected.reason (collected : Collected) (maxLines maxBytes : ℤ) : TruncatedBy :=
  if maxLines ≤ collected.lines.length ∧ collected.bytes ≤ maxBytes then .lines
  else collected.truncatedBy

/-- The loop of `truncate_head` from the line at `index` on. -/
def collectHead (maxBytes : ℤ) : List Text → List Text → ℕ → Collected
  | [], output, bytes => ⟨output, bytes, .lines, false⟩
  | line :: rest, output, bytes =>
    let lineBytes := utf8ByteLength line + if output = [] then 0 else 1
    if maxBytes < (bytes + lineBytes : ℕ) then ⟨output, bytes, .bytes, false⟩
    else collectHead maxBytes rest (output ++ [line]) (bytes + lineBytes)

/-- None when `lines[0]` raises: no limit of the defaults' sign gets there. -/
def truncateHead (content : Text) (maxLines maxBytes : ℤ) : Option TruncationResult :=
  let totalBytes := utf8ByteLength content
  let lines := splitLinesForCounting content
  let totalLines := lines.length
  if totalLines ≤ maxLines ∧ totalBytes ≤ maxBytes then
    some (whole content totalLines totalBytes maxLines maxBytes)
  else
    match lines with
    | [] => none
    | first :: _ =>
      if maxBytes < utf8ByteLength first then
        some {
          content := []
          truncated := true
          truncatedBy := some .bytes
          totalLines
          totalBytes
          outputLines := 0
          outputBytes := 0
          lastLinePartial := false
          firstLineExceedsLimit := true
          maxLines
          maxBytes }
      else
        let collected := collectHead maxBytes (PythonText.slice lines 0 maxLines) [] 0
        let outputContent := joinLines collected.lines
        some {
          content := outputContent
          truncated := true
          truncatedBy := some (collected.reason maxLines maxBytes)
          totalLines
          totalBytes
          outputLines := collected.lines.length
          outputBytes := utf8ByteLength outputContent
          lastLinePartial := false
          firstLineExceedsLimit := false
          maxLines
          maxBytes }

/-- The characters kept from the end, last first, and whether an unpaired surrogate is among
them. -/
def takeFromEnd (maxBytes : ℤ) : ℕ → List ℕ → List ℕ × Bool
  | _, [] => ([], false)
  | used, [code] =>
    if maxBytes < (used + codeBytes code : ℕ) then ([], false)
    else ([code], isHighSurrogate code || isLowSurrogate code)
  | used, code :: before :: rest =>
    if isLowSurrogate code && isHighSurrogate before then
      if maxBytes < (used + 4 : ℕ) then ([], false)
      else
        let (kept, unpaired) := takeFromEnd maxBytes (used + 4) rest
        (code :: before :: kept, unpaired)
    else if maxBytes < (used + codeBytes code : ℕ) then ([], false)
    else
      let (kept, unpaired) := takeFromEnd maxBytes (used + codeBytes code) (before :: rest)
      (code :: kept, unpaired || isHighSurrogate code || isLowSurrogate code)

def truncateStringToBytesFromEnd (content : Text) (maxBytes : ℤ) : Text :=
  if maxBytes ≤ 0 then []
  else
    let (kept, needsReplacement) := takeFromEnd maxBytes 0 content.reverse
    if needsReplacement then replaceUnpairedSurrogates kept.reverse else kept.reverse

/-- The loop of `truncate_tail` over the lines from the last one. -/
def collectTail (maxLines maxBytes : ℤ) : List Text → List Text → ℕ → Collected
  | [], output, bytes => ⟨output, bytes, .lines, false⟩
  | line :: rest, output, bytes =>
    if maxLines ≤ output.length then ⟨output, bytes, .lines, false⟩
    else
      let lineBytes := utf8ByteLength line + if output = [] then 0 else 1
      if maxBytes < (bytes + lineBytes : ℕ) then
        if output = [] then
          let truncatedLine := truncateStringToBytesFromEnd line maxBytes
          ⟨[truncatedLine], utf8ByteLength truncatedLine, .bytes, true⟩
        else ⟨output, bytes, .bytes, false⟩
      else collectTail maxLines maxBytes rest (line :: output) (bytes + lineBytes)

def truncateTail (content : Text) (maxLines maxBytes : ℤ) : TruncationResult :=
  let totalBytes := utf8ByteLength content
  let lines := splitLinesForCounting content
  let totalLines := lines.length
  if totalLines ≤ maxLines ∧ totalBytes ≤ maxBytes then
    whole content totalLines totalBytes maxLines maxBytes
  else
    let collected := collectTail maxLines maxBytes lines.reverse [] 0
    let outputContent := joinLines collected.lines
    { content := outputContent
      truncated := true
      truncatedBy := some (collected.reason maxLines maxBytes)
      totalLines
      totalBytes
      outputLines := collected.lines.length
      outputBytes := utf8ByteLength outputContent
      lastLinePartial := collected.lastLinePartial
      firstLineExceedsLimit := false
      maxLines
      maxBytes }

attribute [local simp] utf8ByteLength in
theorem utf8ByteLength_cons {code : ℕ} {text : Text}
    (h : (isHighSurrogate code && text.head?.any isLowSurrogate) = false) :
    utf8ByteLength (code :: text) = codeBytes code + utf8ByteLength text := by
  cases text with
  | nil => rfl
  | cons next rest =>
    rw [utf8ByteLength, if_neg]
    rw [head?_cons, Option.any_some] at h
    rw [h]
    exact Bool.false_ne_true

theorem isHighSurrogate_newline : isHighSurrogate newline = false := by decide

theorem isLowSurrogate_newline : isLowSurrogate newline = false := by decide

theorem utf8ByteLength_newline (xs ys : Text) :
    utf8ByteLength (xs ++ newline :: ys) = utf8ByteLength xs + 1 + utf8ByteLength ys := by
  have hnewline : utf8ByteLength (newline :: ys) = 1 + utf8ByteLength ys := by
    rw [utf8ByteLength_cons (by rw [isHighSurrogate_newline, Bool.false_and])]
    rfl
  induction xs using utf8ByteLength.induct with
  | case1 =>
    rw [nil_append, hnewline]
    simp only [utf8ByteLength, Nat.zero_add]
  | case2 code =>
    rw [singleton_append, utf8ByteLength_cons, hnewline, utf8ByteLength]
    · omega
    · rw [head?_cons, Option.any_some, isLowSurrogate_newline, Bool.and_false]
  | case3 code next rest hpair ih =>
    rw [cons_append, cons_append, utf8ByteLength, if_pos hpair, ih, utf8ByteLength, if_pos hpair]
    omega
  | case4 code next rest hpair ih =>
    rw [cons_append, cons_append, utf8ByteLength, if_neg hpair, ← cons_append, ih,
      utf8ByteLength, if_neg hpair]
    omega

theorem joinLines_cons {line : Text} {lines : List Text} (h : lines ≠ []) :
    joinLines (line :: lines) = line ++ newline :: joinLines lines := by
  rw [joinLines, intercalate_cons_of_ne_nil h, append_assoc]
  rfl

theorem utf8ByteLength_joinLines_cons (line : Text) (lines : List Text) :
    utf8ByteLength (joinLines (line :: lines)) =
      utf8ByteLength (joinLines lines) + (utf8ByteLength line + if lines = [] then 0 else 1) := by
  by_cases hnil : lines = []
  · subst hnil
    simp [joinLines, utf8ByteLength]
  · rw [joinLines_cons hnil, utf8ByteLength_newline, if_neg hnil]
    omega

theorem utf8ByteLength_joinLines_concat (lines : List Text) (line : Text) :
    utf8ByteLength (joinLines (lines ++ [line])) =
      utf8ByteLength (joinLines lines) + (utf8ByteLength line + if lines = [] then 0 else 1) := by
  by_cases hnil : lines = []
  · subst hnil
    simp [joinLines, utf8ByteLength]
  · rw [joinLines, Lines.join_append hnil (cons_ne_nil _ _), intercalate_singleton,
      utf8ByteLength_newline, if_neg hnil]
    exact Nat.add_right_comm _ _ _

section Head

attribute [local simp] collectHead in
/-- The loop of `truncate_head` collects a block of lines whose text fits. -/
theorem collectHead_spec (maxBytes : ℤ) (lines output : List Text)
    (h : utf8ByteLength (joinLines output) ≤ maxBytes) : ∃ k, k ≤ lines.length ∧
      (collectHead maxBytes lines output (utf8ByteLength (joinLines output))).lines =
        output ++ lines.take k ∧
      utf8ByteLength (joinLines (output ++ lines.take k)) ≤ maxBytes := by
  induction lines generalizing output with
  | nil =>
    refine ⟨0, Nat.le_refl 0, (append_nil output).symm, ?_⟩
    rw [take_zero, append_nil]
    exact h
  | cons line rest ih =>
    rw [collectHead]
    by_cases hfits : maxBytes < (utf8ByteLength (joinLines output) +
        (utf8ByteLength line + if output = [] then 0 else 1) : ℕ)
    · rw [if_pos hfits]
      refine ⟨0, Nat.zero_le _, (append_nil output).symm, ?_⟩
      rw [take_zero, append_nil]
      exact h
    · rw [if_neg hfits, ← utf8ByteLength_joinLines_concat]
      rw [← utf8ByteLength_joinLines_concat] at hfits
      obtain ⟨k, hk, hlines, hbytes⟩ := ih (output ++ [line]) (by omega)
      refine ⟨k + 1, by rw [length_cons]; omega, ?_, ?_⟩
      · rw [hlines, take_succ_cons, append_assoc, singleton_append]
      · rw [take_succ_cons, ← singleton_append, ← append_assoc]
        exact hbytes

variable {maxBytes maxLines : ℤ}

theorem collectHead_first {first : Text} (rest : List Text) (h : utf8ByteLength first ≤ maxBytes) :
    ∃ k, k ≤ rest.length ∧
      (collectHead maxBytes (first :: rest) [] 0).lines = (first :: rest).take (k + 1) ∧
      utf8ByteLength (joinLines ((first :: rest).take (k + 1))) ≤ maxBytes := by
  have hjoin : joinLines [first] = first := intercalate_singleton
  have hstep : collectHead maxBytes (first :: rest) [] 0 =
      collectHead maxBytes rest [first] (utf8ByteLength (joinLines [first])) := by
    rw [hjoin, collectHead, if_pos rfl, Nat.zero_add, Nat.add_zero, if_neg (by omega)]
    rfl
  obtain ⟨k, hk, hlines, hbytes⟩ := collectHead_spec maxBytes rest [first] (by rwa [hjoin])
  rw [hstep]
  exact ⟨k, hk, hlines, hbytes⟩

variable {block : List Text}

theorem splitOn_joinLines (hblock : block ≠ []) (hlines : ∀ line ∈ block, newline ∉ line) :
    (joinLines block).splitOn newline = block :=
  splitOn_intercalate newline hlines hblock

theorem splitLinesForCounting_ne_nil {content : Text} (h : content ≠ []) :
    splitLinesForCounting content ≠ [] := by
  unfold splitLinesForCounting
  rw [if_neg h]
  by_cases hend : content.getLast? = some newline
  · rw [if_pos hend]
    intro hnil
    have hlength := congrArg length hnil
    rw [length_dropLast, Lines.length_splitOn, length_nil] at hlength
    have hmem : newline ∈ content := mem_of_getLast? hend
    have := count_pos_iff.mpr hmem
    omega
  · rw [if_neg hend]
    exact splitOn_ne_nil _ _

theorem splitLinesForCounting_block (hblock : block ≠ [])
    (hlines : ∀ line ∈ block, newline ∉ line) : splitLinesForCounting (joinLines block) =
      if block.getLast? = some [] then block.dropLast else block := by
  have hsplit := splitOn_joinLines hblock hlines
  unfold splitLinesForCounting
  by_cases hnil : joinLines block = []
  · rw [hnil, splitOn_nil] at hsplit
    rw [if_pos hnil, ← hsplit]
    rfl
  · have hlast : ((joinLines block).splitOn newline).getLast? = some [] ↔
        (joinLines block).getLast? = some newline := Lines.getLast?_splitOn_eq_nil_iff hnil
    rw [hsplit] at hlast
    rw [if_neg hnil, hsplit]
    by_cases hend : block.getLast? = some []
    · rw [if_pos hend, if_pos (hlast.mp hend)]
    · rw [if_neg hend, if_neg fun h => hend (hlast.mpr h)]

theorem slice_fromStart (lines : List Text) (h : 0 ≤ maxLines) :
    PythonText.slice lines 0 maxLines = lines.take maxLines.toNat := by
  have hstart : PythonText.sliceIndex lines.length 0 = 0 := by simp [PythonText.sliceIndex]
  rw [PythonText.slice, hstart, drop_zero, PythonText.sliceIndex, if_neg (by omega)]
  by_cases hlong : maxLines.toNat ≤ lines.length
  · rw [Nat.min_eq_left hlong]
  · rw [Nat.min_eq_right (by omega), take_of_length_le (Nat.le_refl _),
      take_of_length_le (by omega)]

/-- What `truncate_head` keeps of a block of lines none of which is over the byte limit: all of
it, or the text of its first lines, at least one of them and not all. -/
structure KeepsHead (block : List Text) (result : TruncationResult) : Prop where
  fits : result.firstLineExceedsLimit = false
  kept : (result.truncated = false ∧ result.content = joinLines block) ∨
    (result.truncated = true ∧ 0 < result.outputLines ∧ result.outputLines < block.length ∧
      result.content = joinLines (block.take result.outputLines))

theorem truncateHead_block (hblock : block ≠ []) (hlines : ∀ line ∈ block, newline ∉ line)
    (hpos : 0 < maxLines) (hbytes : 0 ≤ maxBytes)
    (hfit : ∀ line ∈ block, utf8ByteLength line ≤ maxBytes) :
    ∃ result, truncateHead (joinLines block) maxLines maxBytes = some result ∧
      KeepsHead block result := by
  have hcounted := splitLinesForCounting_block hblock hlines
  unfold truncateHead
  by_cases hwhole : (splitLinesForCounting (joinLines block)).length ≤ maxLines ∧
      utf8ByteLength (joinLines block) ≤ maxBytes
  · exact ⟨_, if_pos hwhole, rfl, .inl ⟨rfl, rfl⟩⟩
  · simp only [if_neg hwhole]
    -- the counted lines are the block, or the block without an empty last line
    obtain ⟨size, hsize, htake⟩ : ∃ size, size ≤ block.length ∧
        splitLinesForCounting (joinLines block) = block.take size := by
      by_cases hend : block.getLast? = some []
      · refine ⟨block.length - 1, by omega, ?_⟩
        rw [hcounted, if_pos hend, dropLast_eq_take]
      · refine ⟨block.length, Nat.le_refl _, ?_⟩
        rw [hcounted, if_neg hend, take_length]
    have hshort : size = block.length → ¬ ((block.length : ℤ) ≤ maxLines ∧
        utf8ByteLength (joinLines block) ≤ maxBytes) := by
      intro heq hboth
      rw [htake, heq, take_length] at hwhole
      exact hwhole hboth
    cases hlist : splitLinesForCounting (joinLines block) with
    | nil =>
      have hnil : joinLines block = [] := by
        by_contra hne
        exact splitLinesForCounting_ne_nil hne hlist
      rw [hlist, hnil] at hwhole
      exact absurd ⟨by rw [length_nil]; omega, by rw [utf8ByteLength]; omega⟩ hwhole
    | cons first rest =>
      have hfirst : first ∈ block := by
        apply mem_of_mem_take
        rw [← htake, hlist]
        exact mem_cons_self
      have hfits := hfit first hfirst
      simp only [if_neg (Int.not_lt.mpr hfits)]
      refine ⟨_, rfl, rfl, .inr ⟨rfl, ?_⟩⟩
      obtain ⟨bound, hbound⟩ : ∃ bound, maxLines.toNat = bound + 1 :=
        ⟨maxLines.toNat - 1, by omega⟩
      rw [slice_fromStart _ (by omega), hbound, take_succ_cons]
      obtain ⟨k, hk, hcollected, hjoined⟩ := collectHead_first (rest.take bound) hfits
      rw [length_take] at hk
      have hlength := congrArg length (htake.symm.trans hlist)
      rw [length_take, length_cons] at hlength
      have htaken : (first :: rest.take bound).take (k + 1) = block.take (k + 1) := by
        rw [← take_succ_cons, ← hlist, htake, take_take, take_take]
        congr 1
        omega
      rw [htaken] at hcollected hjoined
      have hkept : (collectHead maxBytes (first :: take bound rest) [] 0).lines.length =
          k + 1 := by
        rw [hcollected, length_take]
        omega
      refine ⟨?_, ?_, ?_⟩
      · exact Nat.lt_of_lt_of_eq (Nat.succ_pos k) hkept.symm
      · by_contra hall
        change ¬ (collectHead maxBytes (first :: take bound rest) [] 0).lines.length <
          block.length at hall
        have heq : k + 1 = block.length := by omega
        rw [heq, take_length] at hjoined
        exact hshort (by omega) ⟨by omega, hjoined⟩
      · change joinLines (collectHead maxBytes (first :: take bound rest) [] 0).lines =
          joinLines (block.take
            (collectHead maxBytes (first :: take bound rest) [] 0).lines.length)
        rw [hkept, hcollected]

end Head

section Tail

variable {maxLines maxBytes : ℤ}

theorem utf8ByteLength_joinLines_le (front back : List Text) :
    utf8ByteLength (joinLines back) ≤ utf8ByteLength (joinLines (front ++ back)) := by
  induction front with
  | nil => exact Nat.le_refl _
  | cons line front ih =>
    rw [cons_append, utf8ByteLength_joinLines_cons]
    omega

variable {lines output : List Text}

theorem collectTail_full {bytes : ℕ} (h : maxLines ≤ output.length) :
    collectTail maxLines maxBytes lines output bytes = ⟨output, bytes, .lines, false⟩ := by
  cases lines with
  | nil => rfl
  | cons line lines => exact if_pos h

/-- What the loop returns at a line that does not fit. -/
def stopAt (maxBytes : ℤ) (line : Text) (output : List Text) : Collected :=
  if output = [] then
    let truncatedLine := truncateStringToBytesFromEnd line maxBytes
    ⟨[truncatedLine], utf8ByteLength truncatedLine, .bytes, true⟩
  else ⟨output, utf8ByteLength (joinLines output), .bytes, false⟩

theorem collectTail_cons {line : Text} {rest : List Text} (h : ¬ maxLines ≤ output.length) :
    collectTail maxLines maxBytes (line :: rest) output (utf8ByteLength (joinLines output)) =
      if maxBytes < utf8ByteLength (joinLines (line :: output)) then stopAt maxBytes line output
      else collectTail maxLines maxBytes rest (line :: output)
        (utf8ByteLength (joinLines (line :: output))) := by
  rw [utf8ByteLength_joinLines_cons]
  exact if_neg h

variable (above : List Text)

/-- Lines that are over a limit stop the loop of `truncate_tail` before the lines above them. -/
theorem collectTail_stops
    (h : maxLines < lines.length + output.length ∨
      (lines ≠ [] ∧ maxBytes < utf8ByteLength (joinLines (lines.reverse ++ output)))) :
    collectTail maxLines maxBytes (lines ++ above) output (utf8ByteLength (joinLines output)) =
      collectTail maxLines maxBytes lines output (utf8ByteLength (joinLines output)) := by
  induction lines generalizing output with
  | nil =>
    rcases h with h | ⟨h, _⟩
    · rw [length_nil] at h
      rw [collectTail_full (by omega), collectTail_full (by omega)]
    · exact absurd rfl h
  | cons line rest ih =>
    by_cases hfull : maxLines ≤ output.length
    · rw [collectTail_full hfull, collectTail_full hfull]
    · rw [cons_append, collectTail_cons hfull, collectTail_cons hfull]
      by_cases hover : maxBytes < utf8ByteLength (joinLines (line :: output))
      · rw [if_pos hover, if_pos hover]
      · rw [if_neg hover, if_neg hover]
        apply ih
        rcases h with h | ⟨_, h⟩
        · left
          rw [length_cons] at h ⊢
          omega
        · right
          rw [reverse_cons, append_assoc, singleton_append] at h
          refine ⟨fun hnil => hover ?_, h⟩
          rwa [hnil] at h

theorem collectTail_fits (hlines : lines.length + output.length ≤ maxLines)
    (hbytes : lines ≠ [] → utf8ByteLength (joinLines (lines.reverse ++ output)) ≤ maxBytes) :
    collectTail maxLines maxBytes (lines ++ above) output (utf8ByteLength (joinLines output)) =
      collectTail maxLines maxBytes above (lines.reverse ++ output)
        (utf8ByteLength (joinLines (lines.reverse ++ output))) := by
  induction lines generalizing output with
  | nil => rfl
  | cons line rest ih =>
    have hwhole := hbytes (cons_ne_nil line rest)
    rw [reverse_cons, append_assoc, singleton_append] at hwhole ⊢
    have hle := utf8ByteLength_joinLines_le rest.reverse (line :: output)
    rw [length_cons] at hlines
    rw [cons_append, collectTail_cons (by omega), if_neg (by omega)]
    apply ih
    · rw [length_cons]
      omega
    · exact fun _ => hwhole

end Tail

section FromEnd

variable (c : Char)

theorem codeBytes_toNat : codeBytes c.toNat = c.utf8Size := by
  simp only [codeBytes, Char.utf8Size, UInt32.le_iff_toNat_le]
  rfl

theorem isHighSurrogate_toNat : isHighSurrogate c.toNat = false := by
  have hvalid : c.toNat < 0xD800 ∨ 0xDFFF < c.toNat ∧ c.toNat < 0x110000 := c.valid
  rw [isHighSurrogate, Bool.and_eq_false_iff, decide_eq_false_iff_not, decide_eq_false_iff_not]
  omega

theorem isLowSurrogate_toNat : isLowSurrogate c.toNat = false := by
  have hvalid : c.toNat < 0xD800 ∨ 0xDFFF < c.toNat ∧ c.toNat < 0x110000 := c.valid
  rw [isLowSurrogate, Bool.and_eq_false_iff, decide_eq_false_iff_not, decide_eq_false_iff_not]
  omega

theorem utf8ByteLength_codePoints (text : List Char) :
    utf8ByteLength (codePoints text) = (text.map Char.utf8Size).sum := by
  induction text with
  | nil => rfl
  | cons c text ih =>
    change utf8ByteLength (c.toNat :: codePoints text) = _
    rw [utf8ByteLength_cons (by rw [isHighSurrogate_toNat, Bool.false_and]), codeBytes_toNat, ih]
    rfl

/-- `takeFromEnd` where no surrogate is met. -/
def charsFromEnd (maxBytes : ℤ) : ℕ → List Char → List Char
  | _, [] => []
  | used, c :: rest =>
    if maxBytes < (used + c.utf8Size : ℕ) then []
    else c :: charsFromEnd maxBytes (used + c.utf8Size) rest

theorem takeFromEnd_codePoints (maxBytes : ℤ) (used : ℕ) (text : List Char) :
    takeFromEnd maxBytes used (codePoints text) =
      (codePoints (charsFromEnd maxBytes used text), false) := by
  induction text generalizing used with
  | nil => rfl
  | cons c text ih =>
    rw [charsFromEnd]
    cases text with
    | nil =>
      change takeFromEnd maxBytes used [c.toNat] = _
      rw [takeFromEnd, codeBytes_toNat, isHighSurrogate_toNat, isLowSurrogate_toNat]
      by_cases hover : maxBytes < (used + c.utf8Size : ℕ)
      · rw [if_pos hover, if_pos hover]
        rfl
      · rw [if_neg hover, if_neg hover]
        rfl
    | cons before text =>
      change takeFromEnd maxBytes used (c.toNat :: before.toNat :: codePoints text) = _
      rw [takeFromEnd, codeBytes_toNat, isHighSurrogate_toNat, isLowSurrogate_toNat,
        Bool.false_and, if_neg Bool.false_ne_true]
      by_cases hover : maxBytes < (used + c.utf8Size : ℕ)
      · rw [if_pos hover, if_pos hover]
        rfl
      · have hrest := ih (used + c.utf8Size)
        change takeFromEnd maxBytes (used + c.utf8Size) (before.toNat :: codePoints text) = _
          at hrest
        rw [if_neg hover, if_neg hover, hrest, isHighSurrogate_toNat]
        rfl

theorem truncateStringToBytesFromEnd_codePoints (text : List Char) (maxBytes : ℤ) :
    truncateStringToBytesFromEnd (codePoints text) maxBytes =
      if maxBytes ≤ 0 then []
      else codePoints (charsFromEnd maxBytes 0 text.reverse).reverse := by
  rw [truncateStringToBytesFromEnd, codePoints, ← map_reverse]
  change (if maxBytes ≤ 0 then [] else
    let (kept, needsReplacement) := takeFromEnd maxBytes 0 (codePoints text.reverse)
    if needsReplacement then replaceUnpairedSurrogates kept.reverse else kept.reverse) = _
  rw [takeFromEnd_codePoints]
  simp only [Bool.false_eq_true, if_false, codePoints, map_reverse]

variable {maxBytes : ℤ} {used : ℕ} {text : List Char}

theorem charsFromEnd_stops (above : List Char)
    (h : maxBytes < (used + (text.map Char.utf8Size).sum : ℕ)) :
    charsFromEnd maxBytes used (text ++ above) = charsFromEnd maxBytes used text := by
  induction text generalizing used with
  | nil =>
    rw [map_nil, sum_nil] at h
    cases above with
    | nil => rfl
    | cons c above => exact if_pos (by omega)
  | cons c text ih =>
    rw [cons_append, charsFromEnd, charsFromEnd]
    by_cases hover : maxBytes < (used + c.utf8Size : ℕ)
    · rw [if_pos hover, if_pos hover]
    · rw [if_neg hover, if_neg hover, ih]
      rw [map_cons, sum_cons] at h
      omega

theorem charsFromEnd_fits (above : List Char)
    (h : (used + (text.map Char.utf8Size).sum : ℕ) ≤ maxBytes)
    (hcut : maxBytes < (used + (text.map Char.utf8Size).sum + c.utf8Size : ℕ)) :
    charsFromEnd maxBytes used (text ++ c :: above) = text := by
  induction text generalizing used with
  | nil =>
    rw [map_nil, sum_nil] at hcut
    exact if_pos (by omega)
  | cons d text ih =>
    rw [map_cons, sum_cons] at h hcut
    rw [cons_append, charsFromEnd, if_neg (by omega), ih (by omega) (by omega)]

end FromEnd

end Pidrei.Truncate
