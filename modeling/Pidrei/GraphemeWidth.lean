import Mathlib.Algebra.GroupWithZero.Nat
import Mathlib.Algebra.BigOperators.Group.List.Basic
import Pidrei.AnsiCodes

/-!
The width of text in terminal columns. The segmenter and the character database belong to
libraries; the widths of clusters are computed from them.
-/
namespace Pidrei.Tui.TerminalText

/-- `unicodedata.category`, whether `unicodedata.east_asian_width` is `W` or `F`, and the
clusters of a text. -/
structure UnicodeData where
  category : Char → String
  isWide : Char → Bool
  graphemes : List Char → List (List Char)

def isPrintableAscii (text : List Char) : Bool :=
  text.all fun c => 0x20 ≤ c.toNat && c.toNat ≤ 0x7E

/-- What the functions on lines rely on: the clusters are the text, clusters side by side are
clusters by themselves, and a printable ASCII character is a cluster of its own in ASCII text. -/
structure UnicodeData.Lawful (u : UnicodeData) : Prop where
  flatten_graphemes : ∀ text, (u.graphemes text).flatten = text
  ne_nil : ∀ text, ∀ segment ∈ u.graphemes text, segment ≠ []
  graphemes_infix : ∀ text segments, segments <:+: u.graphemes text →
    u.graphemes segments.flatten = segments
  graphemes_ascii : ∀ text, isPrintableAscii text = true →
    u.graphemes text = text.map fun c => [c]

namespace UnicodeData

section Characters

def defaultIgnorableRanges : List (ℕ × ℕ) :=
  [(0x00AD, 0x00AD), (0x034F, 0x034F), (0x061C, 0x061C), (0x115F, 0x1160), (0x17B4, 0x17B5),
    (0x180B, 0x180F), (0x200B, 0x200F), (0x202A, 0x202E), (0x2060, 0x206F), (0x3164, 0x3164),
    (0xFE00, 0xFE0F), (0xFEFF, 0xFEFF), (0xFFA0, 0xFFA0), (0xFFF0, 0xFFF8), (0x1BCA0, 0x1BCA3),
    (0x1D173, 0x1D17A), (0xE0000, 0xE0FFF)]

def isDefaultIgnorable (c : Char) : Bool :=
  defaultIgnorableRanges.any fun (start, stop) => start ≤ c.toNat && c.toNat ≤ stop

def utf16Length (text : List Char) : ℕ := (text.map fun c => if 0xFFFF < c.toNat then 2 else 1).sum

def isEmojiBlock (c : Char) : Bool :=
  (0x1F000 ≤ c.toNat && c.toNat ≤ 0x1FBFF) || (0x2300 ≤ c.toNat && c.toNat ≤ 0x23FF) ||
    (0x2600 ≤ c.toNat && c.toNat ≤ 0x27BF) || (0x2B50 ≤ c.toNat && c.toNat ≤ 0x2B55)

def isRegionalIndicator (c : Char) : Bool := 0x1F1E6 ≤ c.toNat && c.toNat ≤ 0x1F1FF

def couldBeEmoji (segment : List Char) : Bool :=
  segment.head?.any isEmojiBlock || segment.any (fun c => c.toNat = 0xFE0F) ||
    2 < utf16Length segment

def isEmojiSequence (segment : List Char) : Bool :=
  segment.any (fun c => c.toNat = 0xFE0F) ||
    (segment.any (fun c => c.toNat = 0x200D) && segment.head?.any isEmojiBlock) ||
    2 ≤ segment.length &&
      (segment.all isRegionalIndicator ||
        segment.tail.any (fun c => 0x1F3FB ≤ c.toNat && c.toNat ≤ 0x1F3FF) ||
        segment.getLast?.any (fun c =>
          c.toNat = 0x20E3 || (0xE0020 ≤ c.toNat && c.toNat ≤ 0xE007F)))

def spacingMarkExclusions : List ℕ := [0x1734, 0x302E, 0x302F]

def terminalSpacingMarkExtras : List ℕ :=
  [0x065F, 0x0F7F, 0x102B, 0x102C, 0x1031, 0x1033, 0x1034, 0x1035, 0x1038, 0x103A, 0x103B, 0x103C,
    0x103D, 0x103E]

variable (u : UnicodeData)

def isMark (c : Char) : Bool := "M".toList.isPrefixOf (u.category c).toList

def isZeroWidthCluster (segment : List Char) : Bool :=
  !segment.isEmpty && segment.all fun c =>
    u.category c = "Cc" || u.category c = "Cs" || u.isMark c || isDefaultIgnorable c

def isNonPrinting (c : Char) : Bool :=
  u.category c = "Cc" || u.category c = "Cf" || u.category c = "Cs" || u.isMark c ||
    isDefaultIgnorable c

def isTerminalSpacingMarkChar (c : Char) : Bool :=
  terminalSpacingMarkExtras.contains c.toNat ||
    (u.category c = "Mc" && !spacingMarkExclusions.contains c.toNat)

def isTerminalSpacingMark (segment : List Char) : Bool :=
  !segment.isEmpty && segment.all u.isTerminalSpacingMarkChar

def stripLeadingNonPrinting (segment : List Char) : List Char := segment.dropWhile u.isNonPrinting

def eastAsianWidth (c : Char) : ℕ := if u.isWide c then 2 else 1

end Characters

section Widths

variable (u : UnicodeData)

/-- The cells of the characters behind the base of a cluster. -/
def trailingWidth : Bool → List Char → ℕ
  | _, [] => 0
  | followsMark, c :: rest =>
    if u.isTerminalSpacingMarkChar c then trailingWidth false rest + 1
    else if u.isMark c then trailingWidth true rest
    else if u.isNonPrinting c then trailingWidth followsMark rest
    else if followsMark || (0xFF00 ≤ c.toNat && c.toNat ≤ 0xFFEF) then
      trailingWidth false rest + u.eastAsianWidth c
    else if c.toNat = 0x0E33 || c.toNat = 0x0EB3 then trailingWidth false rest + 1
    else trailingWidth false rest

def clusterWidth (segment : List Char) : ℕ :=
  if u.isTerminalSpacingMark segment then segment.length
  else if u.isZeroWidthCluster segment then 0
  else if couldBeEmoji segment && isEmojiSequence segment then 2
  else
    match u.stripLeadingNonPrinting segment with
    | [] => 0
    | c :: rest =>
      if isRegionalIndicator c then 2 else u.eastAsianWidth c + u.trailingWidth false rest

/-- The terminal width of a single cluster. -/
def graphemeWidth (segment : List Char) : ℕ :=
  match segment with
  | [c] =>
    if 0x20 ≤ c.toNat ∧ c.toNat ≤ 0x7E then 1 else if c = '\t' then 3 else u.clusterWidth [c]
  | _ => u.clusterWidth segment

def segmentsWidth (segments : List (List Char)) : ℕ := (segments.map u.graphemeWidth).sum

def isAscii (text : List Char) : Bool := text.all fun c => c.toNat < 0x80

def expandTabs (text : List Char) : List Char :=
  text.flatMap fun c => if c = '\t' then [' ', ' ', ' '] else [c]

/-- The width of printable ASCII, tabs and escape sequences; nothing for other text. -/
def asciiVisibleWidth (s : List Char) : Option ℕ :=
  if !isAscii s then none
  else
    let stripped := stripCodes s
    if stripped.all fun c => isPrintableAscii [c] || c = '\t' then
      some (stripped.length + 2 * stripped.count '\t')
    else none

/-- Take the tabs and escape sequences out, and add the widths of the clusters. -/
def clustersWidth (s : List Char) : ℕ := u.segmentsWidth (u.graphemes (stripCodes (expandTabs s)))

/-- The width of a string in columns. The cache of earlier results is left out. -/
def visibleWidth (s : List Char) : ℕ := (asciiVisibleWidth s).getD (u.clustersWidth s)

end Widths

section Ascii

variable {u : UnicodeData}

theorem graphemeWidth_ascii {c : Char} (h : isPrintableAscii [c] = true) :
    u.graphemeWidth [c] = 1 := by
  simp only [isPrintableAscii, List.all_cons, List.all_nil, Bool.and_true, Bool.and_eq_true,
    decide_eq_true_eq] at h
  exact if_pos h

theorem isPrintableAscii_iff {text : List Char} :
    isPrintableAscii text = true ↔ ∀ c ∈ text, isPrintableAscii [c] = true := by
  simp only [isPrintableAscii, List.all_eq_true, List.all_cons, List.all_nil, Bool.and_true]

theorem segmentsWidth_ascii {text : List Char} (h : isPrintableAscii text = true) :
    u.segmentsWidth (text.map fun c => [c]) = text.length := by
  have hall := isPrintableAscii_iff.mp h
  induction text with
  | nil => rfl
  | cons c text ih =>
    obtain ⟨hc, htext⟩ := List.forall_mem_cons.mp hall
    have hrest := ih (isPrintableAscii_iff.mpr htext) htext
    simp only [segmentsWidth, List.map_cons, List.sum_cons, graphemeWidth_ascii hc] at hrest ⊢
    rw [hrest, List.length_cons, Nat.add_comm]

end Ascii

end UnicodeData

end Pidrei.Tui.TerminalText
