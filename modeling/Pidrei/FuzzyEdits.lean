import Pidrei.EditOverlay
import Pidrei.FuzzyNormalization

/-!
Edits matched in the fuzzy view of the content. Each old text stands there once
and the places are apart; the lines that no place reaches into are kept as they
are in the content, unless the last line of the content is lost in the view.
-/
namespace Pidrei.FuzzyEdits

open TextSearch EditDiff EditExact LineTokens FuzzyNormalization EditOverlay

section Places

/-- Some old text is found through the fuzzy view only. -/
def usesFuzzyMatch (nfkc : List Char → List Char) (content : List Char) (edits : List Edit) :
    Bool :=
  edits.any fun edit => (fuzzyFindText nfkc content edit.oldText).usedFuzzyMatch

/-- The text the old texts are looked up in. -/
def replacementBase (nfkc : List Char → List Char) (content : List Char) (edits : List Edit) :
    List Char :=
  if usesFuzzyMatch nfkc content edits then normalizeForFuzzyMatch nfkc content else content

/-- Where the old text is found, and what comes there. -/
def place (nfkc : List Char → List Char) (base : List Char) (edit : Edit) : TextReplacement :=
  ⟨(fuzzyFindText nfkc base edit.oldText).index.toNat,
    (fuzzyFindText nfkc base edit.oldText).matchLength, edit.newText⟩

def places (nfkc : List Char → List Char) (content : List Char) (edits : List Edit) :
    List TextReplacement :=
  edits.map (place nfkc (replacementBase nfkc content edits))

variable {nfkc : List Char → List Char} {content base : List Char} {edits : List Edit}
  {pattern text oldText : List Char} {edit : Edit}

end Places

section Order

variable {replacements : List TextReplacement}

end Order

section Application

variable {nfkc : List Char → List Char} {content : List Char} {edits : List Edit}

/-- A place has a character of the line. -/
def Reached (nfkc : List Char → List Char) (content : List Char) (edits : List Edit) (i : ℕ) :
    Prop :=
  ∃ replacement ∈ places nfkc content edits,
    Overlaps (splitLinesWithEndings (replacementBase nfkc content edits)) replacement i

end Application

end Pidrei.FuzzyEdits
