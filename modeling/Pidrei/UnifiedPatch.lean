import Pidrei.Library.Hunks
import Pidrei.LineTokens

/-!
The unified patch of two texts, as the differ's hunks are written out, and what the standard
format makes of a patch when it is applied to a text. The differ is the host's.
-/
namespace Pidrei.UnifiedPatch

open EditDiff LineTokens EditScript
open PythonText hiding slice

def formatRangeUnified (start stop : ℕ) : List Char :=
  let beginning := start + 1
  let length := stop - start
  if length = 1 then str beginning
  else if length = 0 then str (beginning - 1) ++ ',' :: str length
  else str beginning ++ ',' :: str length

def diffLine : Step (List Char) → List Char
  | .keep line => ' ' :: line
  | .remove line => '-' :: line
  | .add line => '+' :: line

def hunkHeader (group : List Opcode) : List Char :=
  match group.head?, group.getLast? with
  | some first, some last =>
    "@@ -".toList ++ (formatRangeUnified first.oldStart last.oldEnd ++
      (" +".toList ++ (formatRangeUnified first.newStart last.newEnd ++ " @@\n".toList)))
  | _, _ => []

/-- `difflib.unified_diff` without dates. -/
def unifiedDiff (getOpcodes : List (List Char) → List (List Char) → List Opcode)
    (a b : List (List Char)) (file : List Char) (n : ℕ) : List (List Char) :=
  match groupedOpcodes n (getOpcodes a b) with
  | [] => []
  | groups =>
    ("--- ".toList ++ file ++ ['\n']) :: ("+++ ".toList ++ file ++ ['\n']) ::
      groups.flatMap fun group => hunkHeader group :: (script a b group).map diffLine

/-- The text has lines and its last one has no newline. -/
def missingNewline (tokens : List (List Char)) : Bool :=
  tokens.getLast?.any fun line => line.getLast? ≠ some '\n'

/-- The lines with a newline put behind the last one where it is missing. -/
def completed (tokens : List (List Char)) : List (List Char) :=
  match tokens.getLast? with
  | some last => if missingNewline tokens then tokens.dropLast ++ [last ++ ['\n']] else tokens
  | none => tokens

def noNewlineMarker : List Char := "\\ No newline at end of file\n".toList

/-- Whether a line of the diff stands for a last line without newline, by its text. -/
def matchesLast (oldMissing newMissing : Bool) (oldLast newLast line : List Char) : Bool :=
  oldMissing && (line = '-' :: oldLast || line = ' ' :: oldLast) ||
    newMissing && (line = '+' :: newLast || line = ' ' :: newLast)

/-- The marker behind the last diff line of its kind. -/
def annotate (oldMissing newMissing : Bool) (oldLast newLast : List Char) :
    List (List Char) → List (List Char)
  | [] => []
  | line :: lines =>
    if line ∉ lines ∧ matchesLast oldMissing newMissing oldLast newLast line then
      line :: noNewlineMarker :: annotate oldMissing newMissing oldLast newLast lines
    else line :: annotate oldMissing newMissing oldLast newLast lines

def generateUnifiedPatch (getOpcodes : List (List Char) → List (List Char) → List Opcode)
    (path oldContent newContent : List Char) (contextLines : ℕ) : List Char :=
  let oldMissing := missingNewline (splitLinesWithEndings oldContent)
  let newMissing := missingNewline (splitLinesWithEndings newContent)
  let oldTokens := completed (splitLinesWithEndings oldContent)
  let newTokens := completed (splitLinesWithEndings newContent)
  let oldLast := oldTokens.getLast?.getD []
  let newLast := newTokens.getLast?.getD []
  let lines := unifiedDiff getOpcodes oldTokens newTokens path contextLines
  if oldMissing || newMissing then (annotate oldMissing newMissing oldLast newLast lines).flatten
  else lines.flatten

def readNumber (text : List Char) : Option (ℕ × List Char) :=
  match text.takeWhile Char.isDigit with
  | [] => none
  | digits => some (int digits, text.dropWhile Char.isDigit)

/-- A start and a length; a length of one may be left out. -/
def readRange (text : List Char) : Option (ℕ × ℕ × List Char) :=
  match readNumber text with
  | none => none
  | some (start, ',' :: rest) => (readNumber rest).map fun (length, rest) => (start, length, rest)
  | some (start, rest) => some (start, 1, rest)

/-- Where a hunk stands in the old text, and how many old and new lines it has. -/
def readHunkHeader (line : List Char) : Option (ℕ × ℕ × ℕ) := do
  let ranges ← line.dropPrefix? "@@ -".toList
  let (start, oldLength, rest) ← readRange ranges
  let rest ← rest.dropPrefix? " +".toList
  let (_, newLength, rest) ← readRange rest
  if rest = " @@\n".toList then some (start, oldLength, newLength) else none

/-- A patch being applied: the old lines not yet passed, the new lines written, and what is
left of the current hunk. -/
structure Applying where
  position : ℕ
  unread : List (List Char)
  output : List (List Char)
  oldLeft : ℕ
  newLeft : ℕ

def beginHunk (s : Applying) (line : List Char) : Option Applying :=
  match readHunkHeader line with
  | none => none
  | some (start, oldLength, newLength) =>
    let first := if oldLength = 0 then start else start - 1
    if s.position ≤ first ∧ first - s.position ≤ s.unread.length then
      some ⟨first, s.unread.drop (first - s.position),
        s.output ++ s.unread.take (first - s.position), oldLength, newLength⟩
    else none

/-- A line of a hunk: context and removed lines must be those of the old text. -/
def hunkLine (s : Applying) (line : List Char) : Option Applying :=
  match line, s.unread, s.oldLeft, s.newLeft with
  | ' ' :: text, first :: unread, oldLeft + 1, newLeft + 1 =>
    if text = first then some ⟨s.position + 1, unread, s.output ++ [first], oldLeft, newLeft⟩
    else none
  | '-' :: text, first :: unread, oldLeft + 1, newLeft =>
    if text = first then some ⟨s.position + 1, unread, s.output, oldLeft, newLeft⟩ else none
  | '+' :: text, _, _, newLeft + 1 =>
    some { s with output := s.output ++ [text], newLeft := newLeft }
  | _, _, _, _ => none

def applyLine (s : Applying) (line : List Char) : Option Applying :=
  if s.oldLeft = 0 ∧ s.newLeft = 0 then beginHunk s line else hunkLine s line

def isMarker (line : List Char) : Bool := line.head? = some '\\'

/-- A line before a marker has no newline. -/
def unmark : List (List Char) → List (List Char)
  | [] => []
  | [line] => [line]
  | line :: next :: lines =>
    if isMarker next then chomp line :: unmark lines else line :: unmark (next :: lines)

/-- A marker behind a header line says nothing. -/
def skipMarker (text : List Char) : List Char :=
  if text.head? = some '\\' then (text.dropWhile (· ≠ '\n')).drop 1 else text

/-- The lines behind the two header lines, which name the file. -/
def hunkLines (path patch : List Char) : Option (List (List Char)) := do
  let rest ← patch.dropPrefix? ("--- ".toList ++ path ++ ['\n'])
  let rest ← (skipMarker rest).dropPrefix? ("+++ ".toList ++ path ++ ['\n'])
  some (unmark (splitLinesWithEndings (skipMarker rest)))

/-- A patch of the file at `path`, applied to its text. An empty patch changes nothing. -/
def applyPatch (path patch old : List Char) : Option (List Char) :=
  if patch = [] then some old
  else do
    let lines ← hunkLines path patch
    let s ← lines.foldlM applyLine ⟨0, splitLinesWithEndings old, [], 0, 0⟩
    if s.oldLeft = 0 ∧ s.newLeft = 0 then some (s.output ++ s.unread).flatten else none

end Pidrei.UnifiedPatch
