import Pidrei.Library.Utf8
import Pidrei.Truncate

/-!
Truncation of a text in its middle: the start and the end are kept, half of the byte
limit each, and a marker between them says how many characters are gone. Both cuts are
searched in the encoded bytes, from the middle outwards.
-/
namespace Pidrei.MiddleTruncation

open Utf8 Truncate List

structure MiddleTruncationResult where
  content : List Char
  truncated : Bool
  removedChars : ℕ
  totalBytes : ℕ
  totalLines : ℕ

/-- Whether a character starts at `index`, or the text ends there. -/
def isBoundary (buf : List UInt8) (index : ℕ) : Bool :=
  (buf[index]?).all fun b => !isContinuation b

/-- `head_end`, moved back from a position to a boundary. -/
def headEnd (buf : List UInt8) : ℕ → ℕ
  | 0 => 0
  | index + 1 => if isBoundary buf (index + 1) then index + 1 else headEnd buf index

/-- `…N chars truncated…`. -/
def marker (removedChars : ℕ) : List Char :=
  '…' :: (toString removedChars).toList ++ " chars truncated…".toList

/-- The tail starts behind the continuation bytes at its position. -/
def truncateMiddle (content : List Char) (maxBytes : ℕ) : MiddleTruncationResult :=
  let buf := encode content
  let totalLines := (splitLinesForCounting (codePoints content)).length
  if buf.length ≤ maxBytes then
    { content
      truncated := false
      removedChars := 0
      totalBytes := buf.length
      totalLines }
  else
    let headEnd := headEnd buf (maxBytes / 2)
    let tailStart := boundary buf (buf.length - (maxBytes - maxBytes / 2))
    let head := decodeReplace (buf.take headEnd)
    let tail := decodeReplace (buf.drop tailStart)
    let removedChars := (decodeReplace ((buf.take tailStart).drop headEnd)).length
    { content := head ++ marker removedChars ++ tail
      truncated := true
      removedChars
      totalBytes := buf.length
      totalLines }

theorem isBoundary_encode_append (front back : List Char) :
    isBoundary (encode (front ++ back)) (encode front).length = true := by
  rw [isBoundary, encode_append, getElem?_append_right (Nat.le_refl _), Nat.sub_self]
  cases back with
  | nil => rfl
  | cons c back =>
    obtain ⟨first, rest, hencode, hfirst, _⟩ := utf8EncodeChar_cons c
    rw [encode_cons, hencode]
    simp [hfirst]

theorem isBoundary_inside {front back : List Char} {c : Char} {index : ℕ}
    (hafter : (encode front).length < index) (hbefore : index < (encode (front ++ [c])).length) :
    isBoundary (encode (front ++ c :: back)) index = false := by
  obtain ⟨first, rest, hencode, _, hrest⟩ := utf8EncodeChar_cons c
  have hone : encode [c] = first :: rest := by rw [encode_cons, hencode]; exact append_nil _
  rw [encode_append, hone, length_append, length_cons] at hbefore
  obtain ⟨offset, rfl⟩ : ∃ offset, index = (encode front).length + (offset + 1) :=
    ⟨index - (encode front).length - 1, by omega⟩
  have hbyte : (encode (front ++ c :: back))[(encode front).length + (offset + 1)]? =
      some (rest.get ⟨offset, by omega⟩) := by
    rw [encode_append, getElem?_append_right (by omega), Nat.add_sub_cancel_left, encode_cons,
      hencode, cons_append, getElem?_cons_succ, getElem?_append_left (by omega),
      getElem?_eq_getElem (by omega)]
    rfl
  rw [isBoundary, hbyte, Option.all_some, hrest _ (get_mem _ _)]
  rfl

theorem headEnd_encode (text : List Char) {limit : ℕ} (hlimit : limit ≤ (encode text).length) :
    ∃ front back, text = front ++ back ∧ headEnd (encode text) limit = (encode front).length ∧
      (encode front).length ≤ limit ∧
      ∀ c rest, back = c :: rest → limit < (encode (front ++ [c])).length := by
  induction limit with
  | zero =>
    refine ⟨[], text, rfl, rfl, Nat.le_refl 0, ?_⟩
    intro c rest _
    obtain ⟨first, others, hencode, _⟩ := utf8EncodeChar_cons c
    rw [nil_append, encode_cons, hencode]
    exact Nat.succ_pos _
  | succ limit ih =>
    obtain ⟨front, back, htext, hend, hfits, hnext⟩ := ih (by omega)
    cases back with
    | nil =>
      rw [append_nil] at htext
      rw [htext] at hlimit
      omega
    | cons c rest =>
      have hpast := hnext c rest rfl
      by_cases hinside : limit + 1 < (encode (front ++ [c])).length
      · refine ⟨front, c :: rest, htext, ?_, by omega, ?_⟩
        · rw [headEnd, htext, isBoundary_inside (by omega) hinside, if_neg Bool.false_ne_true,
            ← htext]
          exact hend
        · intro d others heq
          rw [← (cons.inj heq).1]
          exact hinside
      · have hexact : (encode (front ++ [c])).length = limit + 1 := by omega
        have hsplit : text = (front ++ [c]) ++ rest := by rw [htext, append_assoc]; rfl
        refine ⟨front ++ [c], rest, hsplit, ?_, by omega, ?_⟩
        · have hboundary := isBoundary_encode_append (front ++ [c]) rest
          rw [hexact, ← hsplit] at hboundary
          rw [headEnd, if_pos hboundary]
          exact hexact.symm
        · intro d others _
          obtain ⟨first, later, hencode, _⟩ := utf8EncodeChar_cons d
          rw [encode_append, length_append, hexact, encode_cons, hencode]
          exact Nat.lt_add_of_pos_right (Nat.succ_pos _)

section Longest

/-- The longest prefix of a text that is encoded in at most `limit` bytes. -/
def LongestPrefix (limit : ℕ) (text front : List Char) : Prop :=
  front <+: text ∧ (encode front).length ≤ limit ∧
    ∀ other, other <+: text → (encode other).length ≤ limit → other.length ≤ front.length

/-- The longest suffix of a text that is encoded in at most `limit` bytes. -/
def LongestSuffix (limit : ℕ) (text back : List Char) : Prop :=
  back <:+ text ∧ (encode back).length ≤ limit ∧
    ∀ other, other <:+ text → (encode other).length ≤ limit → other.length ≤ back.length

theorem length_encode_le {front other : List Char} (h : front <+: other) :
    (encode front).length ≤ (encode other).length := by
  obtain ⟨rest, rfl⟩ := h
  rw [encode_append, length_append]
  omega

variable {back front : List Char} {limit : ℕ}

theorem length_encode_of_suffix {other : List Char} (h : back <:+ other) :
    (encode back).length ≤ (encode other).length := by
  obtain ⟨rest, rfl⟩ := h
  rw [encode_append, length_append]
  omega

theorem longestPrefix_of_next (hfits : (encode front).length ≤ limit)
    (hnext : ∀ c rest, back = c :: rest → limit < (encode (front ++ [c])).length) :
    LongestPrefix limit (front ++ back) front := by
  refine ⟨prefix_append _ _, hfits, ?_⟩
  intro other hother hbytes
  by_contra hlonger
  have hfront : front <+: other :=
    prefix_of_prefix_length_le (prefix_append _ _) hother (by omega)
  obtain ⟨more, rfl⟩ := hfront
  have hmore := (prefix_append_right_inj front).mp hother
  cases more with
  | nil =>
    apply hlonger
    exact Nat.le_of_eq (by rw [append_nil])
  | cons c more =>
    obtain ⟨rest, hrest⟩ := hmore
    have hover := hnext c (more ++ rest) hrest.symm
    have hle := @length_encode_le (front ++ [c]) (front ++ c :: more)
      ⟨more, by rw [append_assoc]; rfl⟩
    omega

theorem longestSuffix_of_next {c : Char} (hfits : (encode back).length ≤ limit)
    (hnext : limit < (encode (c :: back)).length) :
    LongestSuffix limit (front ++ c :: back) back := by
  refine ⟨⟨front ++ [c], by rw [append_assoc]; rfl⟩, hfits, ?_⟩
  intro other hother hbytes
  by_contra hlonger
  have hcut : c :: back <:+ other :=
    suffix_of_suffix_length_le (suffix_append front (c :: back)) hother
      (by rw [length_cons]; omega)
  have hle := length_encode_of_suffix hcut
  omega

end Longest

theorem decode_between (front middle back : List Char) :
    decodeReplace (((encode (front ++ middle ++ back)).take (encode (front ++ middle)).length).drop
      (encode front).length) = middle := by
  rw [encode_append (front ++ middle), take_left', encode_append front, drop_left',
    decodeReplace_encode]
  · rfl
  · rfl

/-- What `truncate_middle` promises: the text in three parts, the middle one counted, the outer
ones as long as their halves of the limit allow; or the text as it is. -/
def LosesOnlyTheMiddle (text : List Char) (maxBytes : ℕ) (result : MiddleTruncationResult) : Prop :=
  if result.truncated then
    ∃ head middle tail, text = head ++ middle ++ tail ∧
      result.content = head ++ marker result.removedChars ++ tail ∧
      LongestPrefix (maxBytes / 2) text head ∧
      LongestSuffix (maxBytes - maxBytes / 2) text tail ∧
      result.removedChars + (head.length + tail.length) = text.length
  else result.content = text ∧ (encode text).length ≤ maxBytes

theorem truncateMiddle_loses_only_the_middle (text : List Char) (maxBytes : ℕ) :
    LosesOnlyTheMiddle text maxBytes (truncateMiddle text maxBytes) := by
  unfold LosesOnlyTheMiddle truncateMiddle
  by_cases hwhole : (encode text).length ≤ maxBytes
  · simp only [if_pos hwhole, Bool.false_eq_true, if_false]
    exact ⟨trivial, hwhole⟩
  · simp only [if_neg hwhole, if_true]
    obtain ⟨head, afterHead, hhead, hheadEnd, hfits, hnext⟩ :=
      @headEnd_encode text (maxBytes / 2) (by omega)
    obtain ⟨front, c, tail, htail, htailStart, hcut⟩ := @boundary_encode text
      ((encode text).length - (maxBytes - maxBytes / 2)) (by omega) (Nat.sub_le _ _)
    have hsplit : text = (front ++ [c]) ++ tail := by rw [htail, append_assoc]; rfl
    have htotal : (encode text).length = (encode (front ++ [c])).length + (encode tail).length := by
      rw [← length_append, ← encode_append, ← hsplit]
    have hlate : (encode text).length - (maxBytes - maxBytes / 2) ≤
        (encode (front ++ [c])).length := by
      rw [← htailStart]
      exact Nat.le_add_right _ _
    -- the head ends before the tail starts
    have hapart : head <+: front ++ [c] := by
      have hheadText : head <+: text := ⟨afterHead, hhead.symm⟩
      have hfrontText : front ++ [c] <+: text := ⟨tail, hsplit.symm⟩
      rcases prefix_or_prefix_of_prefix hheadText hfrontText with hbefore | hafter
      · exact hbefore
      · have hle := length_encode_le hafter
        omega
    obtain ⟨middle, hmiddle⟩ := hapart
    have hparts : text = head ++ middle ++ tail := by rw [hmiddle]; exact hsplit
    rw [hheadEnd, htailStart, ← hmiddle]
    refine ⟨head, middle, tail, hparts, ?_, ?_, ?_, ?_⟩
    · have hfirst : (encode text).take (encode head).length = encode head := by
        rw [hhead, encode_append, take_left]
      have hlast : (encode text).drop (encode (head ++ middle)).length = encode tail := by
        rw [hparts, encode_append (head ++ middle), drop_left]
      rw [hfirst, hlast, decodeReplace_encode, decodeReplace_encode]
    · rw [hhead]
      exact longestPrefix_of_next hfits hnext
    · rw [htail]
      exact longestSuffix_of_next (by omega) (by omega)
    · rw [hparts, decode_between, length_append, length_append]
      omega

end Pidrei.MiddleTruncation
