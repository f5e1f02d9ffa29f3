import Mathlib.Data.Int.Notation
import Mathlib.Tactic.Common

/-!
Python string functions that have no counterpart of the same behaviour in the
standard library.
-/
namespace PythonText

/-- The characters `str.strip()` takes off. -/
def isSpace (c : Char) : Bool :=
  (9 ≤ c.toNat && c.toNat ≤ 13) || (28 ≤ c.toNat && c.toNat ≤ 32) || c.toNat = 0x85 ||
    c.toNat = 0xA0 || c.toNat = 0x1680 || (0x2000 ≤ c.toNat && c.toNat ≤ 0x200A) ||
    c.toNat = 0x2028 || c.toNat = 0x2029 || c.toNat = 0x202F || c.toNat = 0x205F ||
    c.toNat = 0x3000

def strip (s : String) : String :=
  String.ofList ((s.toList.dropWhile isSpace).reverse.dropWhile isSpace).reverse

/-- `strip()` of a list of characters. -/
def stripped (text : List Char) : List Char :=
  ((text.dropWhile isSpace).reverse.dropWhile isSpace).reverse

def isLineBreak (c : Char) : Bool := c.toNat = 10 || c.toNat = 13

/-- Replace every run of line breaks by one space; the flag says whether a run is open. -/
def joinLines : Bool → List Char → List Char
  | _, [] => []
  | inRun, c :: rest =>
    if isLineBreak c then
      if inRun then joinLines true rest else ' ' :: joinLines true rest
    else c :: joinLines false rest

def sliceIndex (length : ℕ) (bound : ℤ) : ℕ :=
  if bound < 0 then (length + bound).toNat else min bound.toNat length

/-- `items[start:stop]`. -/
def slice {α : Type*} (items : List α) (start stop : ℤ) : List α :=
  (items.take (sliceIndex items.length stop)).drop (sliceIndex items.length start)

/-- `items[index]` names this place; a negative index counts from the end. -/
def place (length : ℕ) (index : ℤ) : ℕ :=
  if index < 0 then (length + index).toNat else index.toNat

/-- The zeros of the decimal digits that are not ASCII. -/
def otherZeros : List ℕ :=
  [0x660, 0x6F0, 0x7C0, 0x966, 0x9E6, 0xA66, 0xAE6, 0xB66, 0xBE6, 0xC66, 0xCE6, 0xD66,
    0xDE6, 0xE50, 0xED0, 0xF20, 0x1040, 0x1090, 0x17E0, 0x1810, 0x1946, 0x19D0, 0x1A80, 0x1A90,
    0x1B50, 0x1BB0, 0x1C40, 0x1C50, 0xA620, 0xA8D0, 0xA900, 0xA9D0, 0xA9F0, 0xAA50, 0xABF0,
    0xFF10, 0x104A0, 0x10D30, 0x10D40, 0x11066, 0x110F0, 0x11136, 0x111D0, 0x112F0, 0x11450,
    0x114D0, 0x11650, 0x116C0, 0x116D0, 0x116DA, 0x11730, 0x118E0, 0x11950, 0x11BF0, 0x11C50,
    0x11D50, 0x11DA0, 0x11F50, 0x16130, 0x16A60, 0x16AC0, 0x16B50, 0x16D70, 0x1CCF0, 0x1D7CE,
    0x1D7D8, 0x1D7E2, 0x1D7EC, 0x1D7F6, 0x1E140, 0x1E2F0, 0x1E4F0, 0x1E5F1, 0x1E950, 0x1FBF0]

/-- The nine other digits of each kind follow its zero. -/
def digitValue (c : Char) : Option ℕ :=
  (('0'.toNat :: otherZeros).find? fun z => z ≤ c.toNat && c.toNat < z + 10).map (c.toNat - ·)

/-- `\d` in a pattern. -/
def isDigit (c : Char) : Bool := (digitValue c).isSome

/-- `sys.get_int_max_str_digits()`, the most digits that `int` takes. -/
def maxStrDigits : ℕ := 4300

/-- `int(digits)`. -/
def int (digits : List Char) : ℕ :=
  digits.foldl (fun n c => 10 * n + (digitValue c).getD 0) 0

/-- `str(n)`. -/
def str (n : ℕ) : List Char := Nat.toDigits 10 n

theorem digitValue_of_isDigit {c : Char} (h : c.isDigit = true) :
    digitValue c = some (c.toNat - '0'.toNat) := by
  have hrange : 48 ≤ c.toNat ∧ c.toNat ≤ 57 := Char.isDigit_iff_toNat.mp h
  have hfirst : (decide ('0'.toNat ≤ c.toNat) && decide (c.toNat < '0'.toNat + 10)) = true := by
    rw [Bool.and_eq_true, decide_eq_true_iff, decide_eq_true_iff]
    exact ⟨hrange.1, Nat.lt_succ_of_le hrange.2⟩
  have hfound : ('0'.toNat :: otherZeros).find? (fun z => z ≤ c.toNat && c.toNat < z + 10) =
      some '0'.toNat := List.find?_cons_of_pos hfirst
  rw [digitValue, hfound]
  rfl

/-- The digits that `str` writes are read back by `int`. -/
theorem int_str (n : ℕ) : int (str n) = n := by
  have hfold : ∀ (digits : List Char) (start : ℕ), (∀ c ∈ digits, c.isDigit = true) →
      digits.foldl (fun n c => 10 * n + (digitValue c).getD 0) start =
        digits.foldl (fun n c => 10 * n + (c.toNat - '0'.toNat)) start := by
    intro digits
    induction digits with
    | nil => exact fun _ _ => rfl
    | cons c rest ih =>
      intro start h
      rw [List.foldl_cons, List.foldl_cons, digitValue_of_isDigit (h c List.mem_cons_self)]
      exact ih _ fun d hd => h d (List.mem_cons_of_mem _ hd)
  rw [int, str, hfold _ 0 fun c hc => Nat.isDigit_of_mem_toDigits (by omega) (by omega) hc,
    ← Nat.ofDigitChars_eq_foldl]
  exact Nat.ofDigitChars_ten_toDigits

theorem isDigit_of_mem_str {n : ℕ} {c : Char} (h : c ∈ str n) : isDigit c = true := by
  rw [isDigit, digitValue_of_isDigit (Nat.isDigit_of_mem_toDigits (by omega) (by omega) h)]
  rfl

/-- The boundary does not cut a CRLF pair. -/
def Apart (text more : List Char) : Prop :=
  ¬ (text.getLast? = some '\r' ∧ more.head? = some '\n')

end PythonText
