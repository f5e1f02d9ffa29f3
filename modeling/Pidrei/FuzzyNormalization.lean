import Pidrei.LineTokens
import Mathlib.Data.List.TakeWhile

/-!
What the fuzzy view of a text does to its lines. It is taken line by line, a
line that is its own view changes nothing in front of other text, and only a
last line of spaces is lost.
-/
namespace Pidrei.FuzzyNormalization

open PythonText EditDiff LineTokens List

/-- What the fuzzy view relies on in the Unicode compatibility normalization. -/
structure CompatibilityForm (nfkc : List Char → List Char) : Prop where
  lines : ∀ front back, nfkc (front ++ '\n' :: back) = nfkc front ++ '\n' :: nfkc back
  free : ∀ text, '\n' ∉ text → '\n' ∉ nfkc text
  concat : ∀ front back, nfkc (front ++ nfkc back) = nfkc (front ++ back)
  spaces : ∀ text : List Char, (∀ c ∈ text, isSpace c = true) →
    ∀ c ∈ nfkc text, isSpace c = true
  trailing : ∀ front back : List Char, (∀ c ∈ back, isSpace c = true) →
    nfkc (front ++ back) = nfkc front ++ nfkc back
  plain : ∀ front back : List Char,
    (nfkc (front ++ back.map plainChar)).map plainChar = (nfkc (front ++ back)).map plainChar

variable {nfkc : List Char → List Char}

theorem CompatibilityForm.nil (form : CompatibilityForm nfkc) : nfkc [] = [] := by
  have hempty := form.trailing [] [] nofun
  rw [append_nil] at hempty
  exact self_eq_append_right.mp hempty

section View

variable {line piece : List Char}

end View

section LineCount

variable {lines : List (List Char)}

end LineCount

end Pidrei.FuzzyNormalization
