import Mathlib.Data.List.TakeWhile
import Pidrei.Library.OrderedMap
import Pidrei.Library.PythonText
import Pidrei.Library.Substitution

/-!
Paste markers such as `[paste #1 +123 lines]`: how they are found in a text, the
segments that hold a marker as a whole, and what takes a marker's place.
-/
namespace Pidrei.Editor

open PythonText Substitution List

abbrev Text := List Char

/-- What a marker says about the size of its paste. -/
inductive Size where
  | none
  | lines (count : Text)
  | chars (count : Text)

def Size.text : Size → Text
  | .none => []
  | .lines count => " +".toList ++ (count ++ " lines".toList)
  | .chars count => " ".toList ++ (count ++ " chars".toList)

structure Marker where
  number : Text
  size : Size

def opening : Text := "[paste #".toList

def Marker.text (m : Marker) : Text := opening ++ (m.number ++ (m.size.text ++ [']']))

def Marker.id (m : Marker) : ℕ := int m.number

/-- The longest run of digits at the head, when there is one and `close` follows it. -/
def matchDigits (close text : Text) : Option Text :=
  let digits := text.takeWhile isDigit
  if !digits.isEmpty && close.isPrefixOf (text.drop digits.length) then some digits else none

def matchSize : Text → Option Size
  | ']' :: _ => some .none
  | ' ' :: '+' :: rest => (matchDigits " lines]".toList rest).map .lines
  | ' ' :: rest => (matchDigits " chars]".toList rest).map .chars
  | _ => none

/-- `PASTE_MARKER_REGEX` at the head of a text. -/
def matchMarker (text : Text) : Option Marker :=
  if opening.isPrefixOf text then do
    let rest := text.drop opening.length
    let number ← matchDigits [] rest
    let size ← matchSize (rest.drop number.length)
    some ⟨number, size⟩
  else none

section Shape

def Digits (digits : Text) : Prop := digits ≠ [] ∧ ∀ c ∈ digits, isDigit c = true

def Size.Valid : Size → Prop
  | .none => True
  | .lines count => Digits count
  | .chars count => Digits count

def Marker.Valid (m : Marker) : Prop := Digits m.number ∧ m.size.Valid

variable {digits text : Text} {size : Size} {m : Marker}

theorem takeWhile_digits (h : ∀ c ∈ digits, isDigit c = true) {c : Char} (hc : isDigit c = false)
    (rest : Text) : (digits ++ c :: rest).takeWhile isDigit = digits := by
  rw [takeWhile_append_of_pos h, takeWhile_cons_of_neg (by rw [hc]; simp), append_nil]

theorem matchDigits_eq_some {close : Text} (h : matchDigits close text = some digits) :
    Digits digits ∧ ∃ rest, text = digits ++ (close ++ rest) := by
  simp only [matchDigits] at h
  split at h
  · rename_i hcond
    cases h
    obtain ⟨hne, hclose⟩ := Bool.and_eq_true_iff.mp hcond
    obtain ⟨rest, hrest⟩ := isPrefixOf_iff_prefix.mp hclose
    refine ⟨⟨by simpa using hne, fun c hc => mem_takeWhile_imp hc⟩, rest, ?_⟩
    rw [hrest]
    have htake := prefix_iff_eq_take.mp ( takeWhile_prefix isDigit (l := text))
    calc text = text.take (text.takeWhile isDigit).length ++ _ := (take_append_drop _ _).symm
      _ = _ := by rw [← htake]
  · cases h

theorem matchDigits_append {close : Text} (h : Digits digits) {c : Char} (hc : isDigit c = false)
    (rest : Text) (hclose : close.isPrefixOf (c :: rest) = true) :
    matchDigits close (digits ++ c :: rest) = some digits := by
  have hne : digits.isEmpty = false := by
    rw [isEmpty_eq_false_iff]
    exact h.1
  simp only [matchDigits, takeWhile_digits h.2 hc, hne, drop_left, hclose]
  rfl

attribute [local simp] Size.text in
theorem matchSize_eq_some (h : matchSize text = some size) :
    size.Valid ∧ ∃ rest, text = size.text ++ (']' :: rest) := by
  unfold matchSize at h
  split at h
  · cases h
    exact ⟨trivial, _, rfl⟩
  · obtain ⟨count, hcount, rfl⟩ := Option.map_eq_some_iff.mp h
    obtain ⟨hdigits, rest, rfl⟩ := matchDigits_eq_some hcount
    refine ⟨hdigits, rest, ?_⟩
    simp [Size.text]
  · obtain ⟨count, hcount, rfl⟩ := Option.map_eq_some_iff.mp h
    obtain ⟨hdigits, rest, rfl⟩ := matchDigits_eq_some hcount
    refine ⟨hdigits, rest, ?_⟩
    simp [Size.text]
  · cases h

theorem matchSize_append (h : size.Valid) (rest : Text) :
    matchSize (size.text ++ (']' :: rest)) = some size := by
  cases size with
  | none => rfl
  | lines count =>
    have hdigits : matchDigits " lines]".toList (count ++ ' ' :: ("lines]".toList ++ rest)) =
        some count := matchDigits_append h rfl _ rfl
    have htext : Size.text (.lines count) ++ (']' :: rest) =
        ' ' :: '+' :: (count ++ ' ' :: ("lines]".toList ++ rest)) := by simp [Size.text]
    rw [htext]
    show (matchDigits _ _).map Size.lines = _
    rw [hdigits]
    rfl
  | chars count =>
    have hdigits : matchDigits " chars]".toList (count ++ ' ' :: ("chars]".toList ++ rest)) =
        some count := matchDigits_append h rfl _ rfl
    have htext : Size.text (.chars count) ++ (']' :: rest) =
        ' ' :: (count ++ ' ' :: ("chars]".toList ++ rest)) := by simp [Size.text]
    obtain ⟨c, more, rfl⟩ := exists_cons_of_ne_nil h.1
    have hplus : c ≠ '+' := by
      rintro rfl
      have hdigit := h.2 '+' mem_cons_self
      revert hdigit
      decide
    rw [htext, cons_append]
    rw [cons_append] at hdigits
    rw [matchSize]
    · rw [hdigits]
      rfl
    · intro rest hrest
      exact hplus (List.cons.inj hrest).1

theorem matchMarker_eq_some (h : matchMarker text = some m) :
    m.Valid ∧ ∃ rest, text = m.text ++ rest := by
  unfold matchMarker at h
  split at h
  · rename_i hopening
    obtain ⟨rest, rfl⟩ := isPrefixOf_iff_prefix.mp hopening
    rw [drop_left] at h
    obtain ⟨number, hnumber, h⟩ := Option.bind_eq_some_iff.mp h
    obtain ⟨size, hsize, h⟩ := Option.bind_eq_some_iff.mp h
    cases h
    obtain ⟨hdigits, more, rfl⟩ := matchDigits_eq_some hnumber
    rw [drop_left, nil_append] at hsize
    obtain ⟨hvalid, more, rfl⟩ := matchSize_eq_some hsize
    refine ⟨⟨hdigits, hvalid⟩, more, ?_⟩
    simp [Marker.text]
  · cases h

theorem size_head (size : Size) (rest : Text) :
    ∃ c more, size.text ++ (']' :: rest) = c :: more ∧ isDigit c = false := by
  cases size with
  | none => exact ⟨']', rest, rfl, rfl⟩
  | lines | chars => exact ⟨' ', _, rfl, rfl⟩

theorem matchMarker_append (h : m.Valid) (rest : Text) : matchMarker (m.text ++ rest) = some m := by
  obtain ⟨c, more, hhead, hc⟩ := size_head m.size rest
  have htext : m.text ++ rest = opening ++ (m.number ++ (m.size.text ++ (']' :: rest))) := by
    simp [Marker.text]
  have hnumber : matchDigits [] (m.number ++ (m.size.text ++ (']' :: rest))) = some m.number := by
    rw [hhead]
    exact matchDigits_append h.1 hc more rfl
  have hopening : opening.isPrefixOf (m.text ++ rest) = true :=
    isPrefixOf_iff_prefix.mpr ⟨_, htext.symm⟩
  rw [matchMarker, if_pos hopening, htext, drop_left]
  show (matchDigits [] _).bind _ = _
  rw [hnumber]
  show (matchSize (drop _ _)).bind _ = _
  rw [drop_left, matchSize_append h.2]
  rfl

def Marker.tail (m : Marker) : Text := "paste #".toList ++ (m.number ++ (m.size.text ++ [']']))

theorem Marker.text_cons (m : Marker) : m.text = '[' :: m.tail := rfl

theorem ne_bracket_of_digits (h : Digits digits) : '[' ∉ digits := by
  intro hmem
  have hdigit := h.2 '[' hmem
  revert hdigit
  decide

theorem Size.notMem_text (h : size.Valid) : '[' ∉ size.text := by
  cases size with
  | none => exact not_mem_nil
  | lines | chars =>
    simp only [Size.text, mem_append, not_or]
    exact ⟨by decide, ne_bracket_of_digits h, by decide⟩

theorem Marker.notMem_tail (h : m.Valid) : '[' ∉ m.tail := by
  have hword : '[' ∉ "paste #".toList := by decide
  have hnumber := ne_bracket_of_digits h.1
  have hsize := Size.notMem_text h.2
  have hclose : '[' ∉ [']'] := by decide
  unfold Marker.tail
  intro hmem
  rcases mem_append.mp hmem with hmem | hmem
  · exact hword hmem
  · rcases mem_append.mp hmem with hmem | hmem
    · exact hnumber hmem
    · rcases mem_append.mp hmem with hmem | hmem
      · exact hsize hmem
      · exact hclose hmem

end Shape

def markers : Words Char where
  opens c := c = '['
  length text := (matchMarker text).map fun m => m.text.length
  opened := by
    intro text n h
    obtain ⟨m, hm, rfl⟩ := Option.map_eq_some_iff.mp h
    obtain ⟨hvalid, rest, rfl⟩ := matchMarker_eq_some hm
    have hcons : m.text ++ rest = '[' :: (m.tail ++ rest) := by
      rw [Marker.text_cons, cons_append]
    have hlength : m.text.length = m.tail.length + 1 := by
      rw [Marker.text_cons, length_cons]
    refine ⟨'[', m.tail ++ rest, hcons, rfl, by omega, ?_, fun y hy => ?_⟩
    · rw [length_append]
      exact Nat.le_add_right _ _
    have hmem : y ∈ m.tail := by
      rwa [hlength, Nat.add_sub_cancel, take_left] at hy
    have hne : y ≠ '[' := by
      rintro rfl
      exact Marker.notMem_tail hvalid hmem
    simpa using hne
  stable := by
    intro text n more h
    obtain ⟨m, hm, rfl⟩ := Option.map_eq_some_iff.mp h
    obtain ⟨hvalid, rest, rfl⟩ := matchMarker_eq_some hm
    rw [take_left, matchMarker_append hvalid]
    rfl

/-- `PASTE_MARKER_SINGLE`; its `$` lets one line break follow. -/
def singleMarker (segment : Text) : Option Marker :=
  (matchMarker segment).filter fun m =>
    let rest := segment.drop m.text.length
    rest = [] || rest = ['\n']

def isPasteMarker (segment : Text) : Bool := 10 ≤ segment.length && (singleMarker segment).isSome

structure Segment where
  segment : Text
  index : ℕ
  isWordLike : Bool

def markerSpans (validIds : List ℕ) (text : Text) : List (ℕ × ℕ) :=
  (spans markers text).filter fun span =>
    ((matchMarker (text.drop span.1)).map Marker.id).any (· ∈ validIds)

/-- Put one segment in the place of those that begin inside a marker. -/
def mergeMarkers (text : Text) : List (ℕ × ℕ) → List Segment → List Segment
  | _, [] => []
  | found, seg :: rest =>
    let found := found.dropWhile fun marker => marker.2 ≤ seg.index
    match found with
    | (start, stop) :: _ =>
      if start ≤ seg.index ∧ seg.index < stop then
        if seg.index = start then
          ⟨(text.take stop).drop start, start, false⟩ :: mergeMarkers text found rest
        else mergeMarkers text found rest
      else seg :: mergeMarkers text found rest
    | [] => seg :: mergeMarkers text found rest

def segmentWithMarkers (text : Text) (baseSegment : Text → List Segment) (validIds : List ℕ) :
    List Segment :=
  let found := markerSpans validIds text
  if found.isEmpty then baseSegment text else mergeMarkers text found (baseSegment text)

/-- Renumber the markers with ids greater than the removed one. -/
def renumber (targetId : ℕ) (line : Text) : Text :=
  sub markers (fun word =>
    match matchMarker word with
    | some m => if m.id ≤ targetId then word else Marker.text ⟨str (m.id - 1), m.size⟩
    | none => word) line

/-- The marker is written with this id. -/
def spelled (pasteId : ℕ) (word : Text) : Bool :=
  (matchMarker word).map Marker.number = some (str pasteId)

def expandPasteMarkers (pastes : OrderedMap ℕ Text) (text : Text) : Text :=
  pastes.entries.foldl (fun result paste =>
    sub markers (fun word => if spelled paste.1 word then paste.2 else word) result) text

end Pidrei.Editor
