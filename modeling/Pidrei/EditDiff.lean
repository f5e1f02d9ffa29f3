import Pidrei.Library.PythonText
import Pidrei.Library.TextSearch
import Mathlib.Data.List.Sort

/-!
The edit engine: replacements of exact texts in LF-normalized content, with a
fuzzy view of the content where no exact text is found. `nfkc` is the Unicode
compatibility normalization.
-/
namespace Pidrei.EditDiff

open PythonText TextSearch

inductive LineEnding
  | crlf
  | lf

def detectLineEnding (content : List Char) : LineEnding :=
  match find ['\r', '\n'] content, find ['\n'] content with
  | _, none => .lf
  | none, some _ => .lf
  | some crlfIdx, some lfIdx => if crlfIdx < lfIdx then .crlf else .lf

def normalizeToLf (text : List Char) : List Char :=
  replace ['\r'] ['\n'] (replace ['\r', '\n'] ['\n'] text)

def restoreLineEndings (text : List Char) : LineEnding → List Char
  | .crlf => replace ['\n'] ['\r', '\n'] text
  | .lf => text

/-- `line.rstrip()` -/
def rstrip (line : List Char) : List Char := (line.reverse.dropWhile isSpace).reverse

/-- The substitutions of quotes, dashes and special spaces. -/
def plainChar (c : Char) : Char :=
  if 0x2018 ≤ c.toNat ∧ c.toNat ≤ 0x201B then '\''
  else if 0x201C ≤ c.toNat ∧ c.toNat ≤ 0x201F then '"'
  else if (0x2010 ≤ c.toNat ∧ c.toNat ≤ 0x2015) ∨ c.toNat = 0x2212 then '-'
  else if c.toNat = 0xA0 ∨ (0x2002 ≤ c.toNat ∧ c.toNat ≤ 0x200A) ∨ c.toNat = 0x202F ∨
      c.toNat = 0x205F ∨ c.toNat = 0x3000 then ' '
  else c

def normalizeForFuzzyMatch (nfkc : List Char → List Char) (text : List Char) : List Char :=
  (['\n'].intercalate (((nfkc text).splitOn '\n').map rstrip)).map plainChar

/-- The lines with their line ends; the last one may have none. -/
def splitLinesWithEndings : List Char → List (List Char)
  | [] => []
  | c :: rest =>
    if c = '\n' then ['\n'] :: splitLinesWithEndings rest
    else
      match splitLinesWithEndings rest with
      | [] => [[c]]
      | line :: lines => (c :: line) :: lines

structure LineSpan where
  start : ℕ
  «end» : ℕ

structure TextReplacement where
  matchIndex : ℕ
  matchLength : ℕ
  newText : List Char
  deriving DecidableEq

structure MatchedEdit extends TextReplacement where
  editIndex : ℕ

def lineSpansFrom : ℕ → List (List Char) → List LineSpan
  | _, [] => []
  | offset, line :: lines =>
    ⟨offset, offset + line.length⟩ :: lineSpansFrom (offset + line.length) lines

def getLineSpans (content : List Char) : List LineSpan :=
  lineSpansFrom 0 (splitLinesWithEndings content)

def getReplacementLineRange (lines : List LineSpan) (replacement : TextReplacement) :
    Except String (ℕ × ℕ) :=
  let replacementStart := replacement.matchIndex
  let replacementEnd := replacement.matchIndex + replacement.matchLength
  match lines.findIdx? (fun line => line.start ≤ replacementStart && replacementStart < line.end) with
  | none => .error "Replacement range is outside the base content."
  | some startLine =>
    let endLine := startLine +
      ((lines.drop startLine).takeWhile fun line => line.end < replacementEnd).length
    if endLine ≥ lines.length then .error "Replacement range is outside the base content."
    else .ok (startLine, endLine + 1)

/-- The last replacement first, so that the positions of the others stay valid. -/
def applyReplacements (content : List Char) (replacements : List TextReplacement)
    (offset : ℕ) : List Char :=
  replacements.foldr (fun replacement result =>
    let matchIndex := replacement.matchIndex - offset
    result.take matchIndex ++ (replacement.newText ++
      result.drop (matchIndex + replacement.matchLength))) content

structure Group where
  startLine : ℕ
  endLine : ℕ
  replacements : List TextReplacement

/-- Replacements that touch a common line go into one group; `groups` is newest first. -/
def groupReplacements (baseLines : List LineSpan) :
    List Group → List TextReplacement → Except String (List Group)
  | groups, [] => .ok groups.reverse
  | groups, replacement :: replacements => do
    let (startLine, endLine) ← getReplacementLineRange baseLines replacement
    match groups with
    | current :: earlier =>
      if startLine < current.endLine then
        groupReplacements baseLines
          ({ current with
              endLine := max current.endLine endLine
              replacements := current.replacements ++ [replacement] } :: earlier) replacements
      else
        groupReplacements baseLines
          (⟨startLine, endLine, [replacement]⟩ :: current :: earlier) replacements
    | [] => groupReplacements baseLines [⟨startLine, endLine, [replacement]⟩] replacements

def overlayGroups (originalLines : List (List Char)) (baseContent : List Char)
    (baseLines : List LineSpan) : ℕ → List Group → List Char
  | originalLineIndex, [] => (originalLines.drop originalLineIndex).flatten
  | originalLineIndex, group :: groups =>
    let groupStartOffset := (baseLines.getD group.startLine ⟨0, 0⟩).start
    let groupEndOffset := (baseLines.getD (group.endLine - 1) ⟨0, 0⟩).end
    ((originalLines.take group.startLine).drop originalLineIndex).flatten ++
      (applyReplacements ((baseContent.take groupEndOffset).drop groupStartOffset)
        group.replacements groupStartOffset ++
      overlayGroups originalLines baseContent baseLines group.endLine groups)

def applyReplacementsPreservingUnchangedLines (originalContent baseContent : List Char)
    (replacements : List TextReplacement) : Except String (List Char) := do
  let originalLines := splitLinesWithEndings originalContent
  let baseLines := getLineSpans baseContent
  if originalLines.length ≠ baseLines.length then
    .error "Cannot preserve unchanged lines because the base content has a different line count."
  else
    let groups ← groupReplacements baseLines [] 
      (replacements.insertionSort fun a b => a.matchIndex ≤ b.matchIndex)
    return overlayGroups originalLines baseContent baseLines 0 groups

structure FuzzyMatchResult where
  found : Bool
  index : ℤ
  matchLength : ℕ
  usedFuzzyMatch : Bool
  contentForReplacement : List Char

structure Edit where
  oldText : List Char
  newText : List Char
  deriving DecidableEq

structure AppliedEditsResult where
  baseContent : List Char
  newContent : List Char
  deriving DecidableEq

/-- The exact text first; where it is not found, the fuzzy view of both. -/
def fuzzyFindText (nfkc : List Char → List Char) (content oldText : List Char) :
    FuzzyMatchResult :=
  match find oldText content with
  | some exactIndex => ⟨true, exactIndex, oldText.length, false, content⟩
  | none =>
    let fuzzyContent := normalizeForFuzzyMatch nfkc content
    let fuzzyOldText := normalizeForFuzzyMatch nfkc oldText
    match find fuzzyOldText fuzzyContent with
    | none => ⟨false, -1, 0, false, content⟩
    | some fuzzyIndex => ⟨true, fuzzyIndex, fuzzyOldText.length, true, fuzzyContent⟩

def countOccurrences (nfkc : List Char → List Char) (content oldText : List Char) : ℕ :=
  count (normalizeForFuzzyMatch nfkc oldText) (normalizeForFuzzyMatch nfkc content)

def notFoundError (path : String) (editIndex totalEdits : ℕ) : String :=
  if totalEdits = 1 then
    s!"Could not find the exact text in {path}. The old text must match exactly including all whitespace and newlines."
  else
    s!"Could not find edits[{editIndex}] in {path}. The oldText must match exactly including all whitespace and newlines."

def duplicateError (path : String) (editIndex totalEdits occurrences : ℕ) : String :=
  if totalEdits = 1 then
    s!"Found {occurrences} occurrences of the text in {path}. The text must be unique. Please provide more context to make it unique."
  else
    s!"Found {occurrences} occurrences of edits[{editIndex}] in {path}. Each oldText must be unique. Please provide more context to make it unique."

def emptyOldTextError (path : String) (editIndex totalEdits : ℕ) : String :=
  if totalEdits = 1 then s!"oldText must not be empty in {path}."
  else s!"edits[{editIndex}].oldText must not be empty in {path}."

def noChangeError (path : String) (totalEdits : ℕ) : String :=
  if totalEdits = 1 then
    s!"No changes made to {path}. The replacement produced identical content. This might indicate an issue with special characters or the text not existing as expected."
  else s!"No changes made to {path}. The replacements produced identical content."

def overlapError (path : String) (previousIndex currentIndex : ℕ) : String :=
  s!"edits[{previousIndex}] and edits[{currentIndex}] overlap in {path}. Merge them into one edit or target disjoint regions."

def normalizeEdit (edit : Edit) : Edit := ⟨normalizeToLf edit.oldText, normalizeToLf edit.newText⟩

/-- Match every edit against the same base; the first edit that fails ends the loop. -/
def matchEdits (nfkc : List Char → List Char) (base : List Char) (path : String)
    (totalEdits : ℕ) : ℕ → List Edit → Except String (List MatchedEdit)
  | _, [] => .ok []
  | index, edit :: edits =>
    let matchResult := fuzzyFindText nfkc base edit.oldText
    if !matchResult.found then .error (notFoundError path index totalEdits)
    else
      let occurrences := countOccurrences nfkc base edit.oldText
      if occurrences > 1 then .error (duplicateError path index totalEdits occurrences)
      else do
        let rest ← matchEdits nfkc base path totalEdits (index + 1) edits
        return ⟨⟨matchResult.index.toNat, matchResult.matchLength, edit.newText⟩, index⟩ :: rest

/-- The first two neighbours that overlap. -/
def overlapping : List MatchedEdit → Option (MatchedEdit × MatchedEdit)
  | previous :: current :: rest =>
    if previous.matchIndex + previous.matchLength > current.matchIndex then
      some (previous, current)
    else overlapping (current :: rest)
  | _ => none

def applyEditsToNormalizedContent (nfkc : List Char → List Char) (normalizedContent : List Char)
    (edits : List Edit) (path : String) : Except String AppliedEditsResult := do
  let normalizedEdits := edits.map normalizeEdit
  match normalizedEdits.findIdx? (fun edit => edit.oldText.isEmpty) with
  | some index => .error (emptyOldTextError path index normalizedEdits.length)
  | none =>
    let usedFuzzyMatch := normalizedEdits.any fun edit =>
      (fuzzyFindText nfkc normalizedContent edit.oldText).usedFuzzyMatch
    let replacementBaseContent :=
      if usedFuzzyMatch then normalizeForFuzzyMatch nfkc normalizedContent else normalizedContent
    let matchedEdits ← matchEdits nfkc replacementBaseContent path normalizedEdits.length 0
      normalizedEdits
    let matchedEdits := matchedEdits.insertionSort fun a b => a.matchIndex ≤ b.matchIndex
    match overlapping matchedEdits with
    | some (previous, current) => .error (overlapError path previous.editIndex current.editIndex)
    | none =>
      let replacements := matchedEdits.map MatchedEdit.toTextReplacement
      let newContent ←
        if usedFuzzyMatch then
          applyReplacementsPreservingUnchangedLines normalizedContent replacementBaseContent
            replacements
        else .ok (applyReplacements replacementBaseContent replacements 0)
      if normalizedContent = newContent then .error (noChangeError path normalizedEdits.length)
      else return ⟨normalizedContent, newContent⟩

end Pidrei.EditDiff
