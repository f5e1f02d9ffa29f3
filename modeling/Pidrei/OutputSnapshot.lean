import Pidrei.OutputStream
import Mathlib.Data.List.Count

/-!
A snapshot of the accumulator against `truncate_tail` of the whole text. They agree
while nothing was cut from the tail. Afterwards the snapshot shows the tail without
its first line when that is cut, and it agrees with the whole text when this shown
part is over a limit by itself, up to a few cases at the limits.
-/
namespace Pidrei.OutputAccumulator

open Truncate List

theorem newline_eq : Char.toNat '\n' = newline := rfl

theorem byteLength_eq (text : List Char) : utf8ByteLength (codePoints text) = byteLength text := by
  rw [utf8ByteLength_codePoints]
  induction text with
  | nil => rfl
  | cons c text ih => rw [map_cons, sum_cons, ih, byteLength_cons]

theorem codePoints_behind (front back : List Char) :
    codePoints (front ++ '\n' :: back) = codePoints front ++ newline :: codePoints back := by
  rw [codePoints, map_append, map_cons]
  rfl

theorem newline_mem_codePoints {text : List Char} : newline ∈ codePoints text ↔ '\n' ∈ text := by
  rw [codePoints, ← newline_eq, mem_map]
  constructor
  · rintro ⟨c, hc, heq⟩
    rwa [← Char.toNat_inj.mp heq]
  · exact fun h => ⟨_, h, rfl⟩

theorem splitOn_codePoints (text : List Char) :
    (codePoints text).splitOn newline = (text.splitOn '\n').map codePoints := by
  induction text with
  | nil => rfl
  | cons c text ih =>
    change (c.toNat :: codePoints text).splitOn newline = _
    rw [splitOn_cons_eq_if_modifyHead, splitOn_cons_eq_if_modifyHead, ih]
    by_cases hc : c = '\n'
    · rw [hc]
      rfl
    · have hcode : ¬ (c.toNat == newline) = true := by
        rw [beq_iff_eq, ← newline_eq]
        exact fun h => hc (Char.toNat_inj.mp h)
      rw [if_neg hcode, if_neg (fun h => hc (beq_iff_eq.mp h))]
      cases text.splitOn '\n' with
      | nil | cons => rfl

theorem joinLines_counted {text : Text} (h : text ≠ []) :
    text = joinLines (splitLinesForCounting text) ++
      if text.getLast? = some newline then [newline] else [] := by
  unfold splitLinesForCounting
  rw [if_neg h]
  by_cases hend : text.getLast? = some newline
  · obtain ⟨front, rfl⟩ := getLast?_eq_some_iff.mp hend
    rw [if_pos hend, if_pos hend, Lines.splitOn_concat_sep, dropLast_concat, joinLines,
      intercalate_splitOn]
  · rw [if_neg hend, if_neg hend, append_nil, joinLines, intercalate_splitOn]

theorem splitLinesForCounting_behind (front back : Text) :
    splitLinesForCounting (front ++ newline :: back) =
      front.splitOn newline ++ splitLinesForCounting back := by
  have hne : front ++ newline :: back ≠ [] :=
    append_ne_nil_of_right_ne_nil _ (cons_ne_nil _ _)
  rw [splitLinesForCounting, if_neg hne, splitOn_append_cons_self]
  by_cases hback : back = []
  · subst hback
    rw [getLast?_concat, if_pos rfl, splitOn_nil, dropLast_concat]
    exact (append_nil _).symm
  · have hlast : (front ++ newline :: back).getLast? = back.getLast? := by
      rw [getLast?_append_of_ne_nil _ (cons_ne_nil _ _), getLast?_cons_of_ne_nil hback]
    rw [hlast, splitLinesForCounting, if_neg hback]
    by_cases hend : back.getLast? = some newline
    · rw [if_pos hend, if_pos hend, dropLast_append_of_ne_nil (splitOn_ne_nil _ _)]
    · rw [if_neg hend, if_neg hend]

theorem length_counted (text : Text) : (splitLinesForCounting text).length =
    text.count newline + if text ≠ [] ∧ text.getLast? ≠ some newline then 1 else 0 := by
  unfold splitLinesForCounting
  by_cases hnil : text = []
  · rw [if_pos hnil, if_neg (fun h => h.1 hnil), hnil]
    rfl
  · by_cases hend : text.getLast? = some newline
    · rw [if_neg hnil, if_pos hend, if_neg (fun h => h.2 hend), length_dropLast,
        Lines.length_splitOn]
      rfl
    · rw [if_neg hnil, if_neg hend, if_pos ⟨hnil, hend⟩, Lines.length_splitOn]

section Shown

variable {maxLines maxBytes : ℤ}

/-- What the shown part of a cut tail has to be like for the truncation of the whole text to show
the same for the same reason. `lastLine` is the last line of the whole text. -/
def ShowsTail (maxLines maxBytes : ℤ) (shown lastLine : Text) : Prop :=
  let lines := splitLinesForCounting shown
  let bytes := utf8ByteLength (joinLines lines)
  if shown = [] then
    maxLines < 0 ∨ (maxLines = 0 ∧ maxBytes < 0) ∨
      (2 ≤ maxLines ∧ 0 ≤ maxBytes ∧ ∀ code ∈ lastLine.getLast?, maxBytes < codeBytes code)
  else
    maxLines < lines.length ∨ maxBytes < bytes ∨
      if shown.getLast? = some newline then lines.length = maxLines ∧ bytes = maxBytes
      else lines.length < maxLines

/-- The two truncations show the same text for the same reason, when the whole text is over the
byte limit. -/
structure Same (maxLines maxBytes : ℤ) (shown text : Text) : Prop where
  content : (truncateTail shown maxLines maxBytes).content =
    (truncateTail text maxLines maxBytes).content
  reason : some ((truncateTail shown maxLines maxBytes).truncatedBy.getD .bytes) =
    (truncateTail text maxLines maxBytes).truncatedBy

def collected (maxLines maxBytes : ℤ) (text : Text) : Collected :=
  collectTail maxLines maxBytes (splitLinesForCounting text).reverse [] 0

variable {text : Text} {front back : List Char}

theorem truncateTail_over
    (h : maxLines < (splitLinesForCounting text).length ∨ maxBytes < utf8ByteLength text) :
    (truncateTail text maxLines maxBytes).content =
        joinLines (collected maxLines maxBytes text).lines ∧
      (truncateTail text maxLines maxBytes).truncatedBy =
        some ((collected maxLines maxBytes text).reason maxLines maxBytes) := by
  have hover : ¬ ((splitLinesForCounting text).length ≤ maxLines ∧
      utf8ByteLength text ≤ maxBytes) := by omega
  unfold truncateTail
  simp only [if_neg hover]
  exact ⟨rfl, rfl⟩

theorem truncateTail_whole (hlines : (splitLinesForCounting text).length ≤ maxLines)
    (hbytes : utf8ByteLength text ≤ maxBytes) :
    (truncateTail text maxLines maxBytes).content = text ∧
      (truncateTail text maxLines maxBytes).truncatedBy = none := by
  unfold truncateTail
  rw [if_pos ⟨hlines, hbytes⟩]
  exact ⟨rfl, rfl⟩

variable {shown line : Text} {above : List Text} {c : Char}

theorem same_iff {content : Text} {reason : TruncatedBy}
    (hcontent : (truncateTail shown maxLines maxBytes).content = content)
    (hreason : (truncateTail shown maxLines maxBytes).truncatedBy.getD .bytes = reason)
    (htext : maxBytes < utf8ByteLength text) : Same maxLines maxBytes shown text ↔
      content = joinLines (collected maxLines maxBytes text).lines ∧
        reason = (collected maxLines maxBytes text).reason maxLines maxBytes := by
  have hover : maxLines < (splitLinesForCounting text).length ∨
      maxBytes < utf8ByteLength text := .inr htext
  obtain ⟨htcontent, htreason⟩ := truncateTail_over hover
  rw [← hcontent, ← hreason]
  constructor
  · intro h
    exact ⟨h.content.trans htcontent, Option.some.inj (h.reason.trans htreason)⟩
  · intro h
    exact ⟨h.1.trans htcontent.symm, (congrArg some h.2).trans htreason.symm⟩

theorem same_iff_over (htext : maxBytes < utf8ByteLength text)
    (hshown : maxLines < (splitLinesForCounting shown).length ∨ maxBytes < utf8ByteLength shown) :
    Same maxLines maxBytes shown text ↔
      joinLines (collected maxLines maxBytes shown).lines =
          joinLines (collected maxLines maxBytes text).lines ∧
        (collected maxLines maxBytes shown).reason maxLines maxBytes =
          (collected maxLines maxBytes text).reason maxLines maxBytes := by
  obtain ⟨hcontent, hreason⟩ := truncateTail_over hshown
  apply same_iff hcontent _ htext
  rw [hreason]
  rfl

theorem same_iff_whole (htext : maxBytes < utf8ByteLength text)
    (hlines : (splitLinesForCounting shown).length ≤ maxLines)
    (hbytes : utf8ByteLength shown ≤ maxBytes) : Same maxLines maxBytes shown text ↔
      shown = joinLines (collected maxLines maxBytes text).lines ∧
        .bytes = (collected maxLines maxBytes text).reason maxLines maxBytes := by
  obtain ⟨hcontent, hreason⟩ := truncateTail_whole hlines hbytes
  apply same_iff hcontent _ htext
  rw [hreason]
  rfl

theorem collected_fits {text : List Text} (hlines : text.length ≤ maxLines)
    (hbytes : text ≠ [] → utf8ByteLength (joinLines text) ≤ maxBytes) :
    collectTail maxLines maxBytes (text.reverse ++ above) [] 0 =
      collectTail maxLines maxBytes above text (utf8ByteLength (joinLines text)) := by
  have hlength : text.reverse.length + ([] : List Text).length ≤ maxLines := by
    rw [length_reverse, length_nil]
    omega
  have hjoin : text.reverse ≠ [] →
      utf8ByteLength (joinLines (text.reverse.reverse ++ [])) ≤ maxBytes := by
    rw [reverse_reverse, append_nil]
    exact fun hne => hbytes fun hnil => hne (reverse_eq_nil_iff.mpr hnil)
  have h := collectTail_fits above hlength hjoin
  rw [reverse_reverse, append_nil] at h
  exact h

theorem collected_stops {text : List Text} (above : List Text)
    (h : maxLines < text.length ∨ (text ≠ [] ∧ maxBytes < utf8ByteLength (joinLines text))) :
    collectTail maxLines maxBytes (text.reverse ++ above) [] 0 =
      collectTail maxLines maxBytes text.reverse [] 0 := by
  have hover : maxLines < text.reverse.length + ([] : List Text).length ∨ (text.reverse ≠ [] ∧
      maxBytes < utf8ByteLength (joinLines (text.reverse.reverse ++ []))) := by
    rw [length_reverse, reverse_reverse, append_nil, length_nil]
    rcases h with h | ⟨hne, h⟩
    · left
      omega
    · exact .inr ⟨fun hnil => hne (reverse_eq_nil_iff.mp hnil), h⟩
  exact collectTail_stops above hover

theorem length_joinLines_counted (h : text ≠ []) :
    utf8ByteLength text = utf8ByteLength (joinLines (splitLinesForCounting text)) +
      if text.getLast? = some newline then 1 else 0 := by
  have hjoin := congrArg utf8ByteLength (joinLines_counted h)
  by_cases hend : text.getLast? = some newline
  · rw [if_pos hend, utf8ByteLength_newline] at hjoin
    rw [if_pos hend]
    exact hjoin
  · rw [if_neg hend, append_nil] at hjoin
    rw [if_neg hend]
    exact hjoin

theorem collected_behind (hne : splitLinesForCounting shown ≠ [])
    (hcounted : splitLinesForCounting text = (above ++ [line]) ++ splitLinesForCounting shown)
    (hline : maxBytes < utf8ByteLength (joinLines (line :: splitLinesForCounting shown)))
    (hfew : (splitLinesForCounting shown).length ≤ maxLines)
    (hfits : utf8ByteLength (joinLines (splitLinesForCounting shown)) ≤ maxBytes) :
    (collected maxLines maxBytes text).lines = splitLinesForCounting shown ∧
      (collected maxLines maxBytes text).reason maxLines maxBytes =
        if (splitLinesForCounting shown).length = maxLines then .lines else .bytes := by
  have hreverse : (splitLinesForCounting text).reverse =
      (splitLinesForCounting shown).reverse ++ line :: above.reverse := by
    rw [hcounted, reverse_append, reverse_append]
    rfl
  rw [collected, hreverse, collected_fits hfew fun _ => hfits]
  by_cases hfull : (splitLinesForCounting shown).length = maxLines
  · rw [collectTail_full (Int.le_of_eq hfull.symm), if_pos hfull]
    exact ⟨rfl, if_pos ⟨Int.le_of_eq hfull.symm, hfits⟩⟩
  · rw [collectTail_cons (by omega), if_pos hline, stopAt, if_neg hne, if_neg hfull]
    exact ⟨rfl, if_neg fun h => hfull (Int.le_antisymm hfew h.1)⟩

theorem collected_whole (hfew : (splitLinesForCounting shown).length ≤ maxLines)
    (hfits : utf8ByteLength (joinLines (splitLinesForCounting shown)) ≤ maxBytes) :
    (collected maxLines maxBytes shown).lines = splitLinesForCounting shown ∧
      (collected maxLines maxBytes shown).reason maxLines maxBytes = .lines := by
  have h : collectTail maxLines maxBytes ((splitLinesForCounting shown).reverse ++ []) [] 0 = _ :=
    collected_fits hfew fun _ => hfits
  rw [append_nil] at h
  rw [collected, h]
  exact ⟨rfl, ite_self _⟩

theorem same_iff_behind (lastLine : Text) (hshown : shown ≠ [])
    (htext : maxBytes < utf8ByteLength text)
    (hcounted : splitLinesForCounting text = (above ++ [line]) ++ splitLinesForCounting shown)
    (hline : maxBytes < utf8ByteLength (joinLines (line :: splitLinesForCounting shown))) :
    Same maxLines maxBytes shown text ↔ ShowsTail maxLines maxBytes shown lastLine := by
  have hne := splitLinesForCounting_ne_nil hshown
  have hjoin := joinLines_counted hshown
  have hlength := length_joinLines_counted hshown
  unfold ShowsTail
  simp only [if_neg hshown]
  by_cases hstops : maxLines < (splitLinesForCounting shown).length ∨
      maxBytes < utf8ByteLength (joinLines (splitLinesForCounting shown))
  · have hsame : collected maxLines maxBytes text = collected maxLines maxBytes shown := by
      rw [collected, hcounted, reverse_append]
      exact collected_stops _ (hstops.imp_right fun h => ⟨hne, h⟩)
    rw [same_iff_over htext (by omega), hsame]
    exact ⟨fun _ => hstops.imp_right .inl, fun _ => ⟨rfl, rfl⟩⟩
  · have hfew : (splitLinesForCounting shown).length ≤ maxLines := by omega
    have hfits : utf8ByteLength (joinLines (splitLinesForCounting shown)) ≤ maxBytes := by omega
    obtain ⟨hcollected, hreason⟩ := collected_behind hne hcounted hline hfew hfits
    obtain ⟨hown, hownReason⟩ := collected_whole hfew hfits
    by_cases hend : shown.getLast? = some newline
    · rw [if_pos hend] at hlength
      rw [if_pos hend]
      by_cases hwhole : utf8ByteLength shown ≤ maxBytes
      · -- the snapshot keeps the final newline, the truncation drops it
        rw [same_iff_whole htext hfew hwhole, hcollected]
        constructor
        · intro h
          have := congrArg utf8ByteLength h.1
          omega
        · intro h
          omega
      · rw [same_iff_over htext (by omega), hcollected, hown, hreason, hownReason]
        by_cases hfull : (splitLinesForCounting shown).length = maxLines
        · rw [if_pos hfull]
          exact ⟨fun _ => .inr (.inr ⟨hfull, by omega⟩), fun _ => ⟨rfl, rfl⟩⟩
        · rw [if_neg hfull]
          constructor
          · intro h
            cases h.2
          · intro h
            omega
    · rw [if_neg hend] at hlength
      rw [if_neg hend, append_nil] at hjoin
      rw [if_neg hend, same_iff_whole htext hfew (by omega), hcollected, hreason]
      by_cases hfull : (splitLinesForCounting shown).length = maxLines
      · rw [if_pos hfull]
        constructor
        · intro h
          cases h.2
        · intro h
          omega
      · rw [if_neg hfull]
        exact ⟨fun _ => .inr (.inr (by omega)), fun _ => ⟨hjoin, rfl⟩⟩

theorem collected_partial (hlines : 0 < maxLines)
    (hcounted : splitLinesForCounting text = above ++ [line])
    (hline : maxBytes < utf8ByteLength line) :
    (collected maxLines maxBytes text).lines = [truncateStringToBytesFromEnd line maxBytes] ∧
      (collected maxLines maxBytes text).reason maxLines maxBytes =
        if maxLines ≤ 1 ∧
          utf8ByteLength (truncateStringToBytesFromEnd line maxBytes) ≤ maxBytes then .lines
        else .bytes := by
  have hjoin : joinLines [line] = line := intercalate_singleton
  have hstop : collected maxLines maxBytes text = stopAt maxBytes line [] := by
    rw [collected, hcounted, reverse_append]
    have hcons : collectTail maxLines maxBytes (line :: above.reverse) []
        (utf8ByteLength (joinLines [])) = _ := collectTail_cons (by rw [length_nil]; omega)
    rw [hjoin, if_pos hline] at hcons
    exact hcons
  rw [hstop]
  exact ⟨rfl, rfl⟩

theorem collected_none (hlines : maxLines ≤ 0) : (collected maxLines maxBytes text).lines = [] ∧
      (collected maxLines maxBytes text).reason maxLines maxBytes = .lines := by
  rw [collected, collectTail_full (by rw [length_nil]; omega)]
  exact ⟨rfl, ite_self _⟩

/-- Nothing is left of a line when its last character is wider than the limit. -/
theorem truncateString_eq_nil_iff (front : List Char) (c : Char) :
    truncateStringToBytesFromEnd (codePoints (front ++ [c])) maxBytes = [] ↔
      maxBytes < codeBytes c.toNat := by
  have hsize := Char.utf8Size_pos c
  rw [truncateStringToBytesFromEnd_codePoints, codeBytes_toNat, reverse_append,
    reverse_singleton, singleton_append, charsFromEnd, Nat.zero_add]
  by_cases hnone : maxBytes ≤ 0
  · rw [if_pos hnone]
    exact ⟨fun _ => by omega, fun _ => rfl⟩
  · rw [if_neg hnone]
    by_cases hwide : maxBytes < c.utf8Size
    · rw [if_pos hwide]
      exact ⟨fun _ => hwide, fun _ => rfl⟩
    · rw [if_neg hwide]
      simp [codePoints, hwide]

theorem same_iff_empty (htext : maxBytes < utf8ByteLength text)
    (hcounted : splitLinesForCounting text = above ++ [codePoints (front ++ [c])])
    (hline : maxBytes < utf8ByteLength (codePoints (front ++ [c]))) :
    Same maxLines maxBytes [] text ↔
      ShowsTail maxLines maxBytes [] (codePoints (front ++ [c])) := by
  have hlast : (codePoints (front ++ [c])).getLast? = some c.toNat := by
    rw [codePoints, map_append]
    exact getLast?_concat
  have hwide : (∀ code ∈ (codePoints (front ++ [c])).getLast?, maxBytes < codeBytes code) ↔
      truncateStringToBytesFromEnd (codePoints (front ++ [c])) maxBytes = [] := by
    rw [hlast, truncateString_eq_nil_iff]
    exact ⟨fun h => h _ rfl, fun h code hcode => Option.some.inj hcode ▸ h⟩
  have hover : maxLines < 0 ∨ maxBytes < 0 → (Same maxLines maxBytes [] text ↔
      [] = joinLines (collected maxLines maxBytes text).lines ∧
        .lines = (collected maxLines maxBytes text).reason maxLines maxBytes) := by
    intro h
    rw [same_iff_over htext h]
    have hreason : (collected maxLines maxBytes []).reason maxLines maxBytes = .lines := ite_self _
    rw [hreason]
    rfl
  have hwhole : 0 ≤ maxLines → 0 ≤ maxBytes → (Same maxLines maxBytes [] text ↔
      [] = joinLines (collected maxLines maxBytes text).lines ∧
        .bytes = (collected maxLines maxBytes text).reason maxLines maxBytes) := by
    intro hlines hbytes
    exact same_iff_whole htext hlines hbytes
  unfold ShowsTail
  simp only [if_true, hwide]
  by_cases hnone : maxLines ≤ 0
  · obtain ⟨hcollected, hreason⟩ : (collected maxLines maxBytes text).lines = [] ∧ _ :=
      collected_none hnone
    by_cases hlimit : maxLines < 0 ∨ maxBytes < 0
    · rw [hover hlimit, hcollected, hreason]
      exact ⟨fun _ => by omega, fun _ => ⟨rfl, rfl⟩⟩
    · rw [hwhole (by omega) (by omega), hreason]
      constructor
      · intro h
        cases h.2
      · intro h
        omega
  · have hpos : 0 < maxLines := by omega
    obtain ⟨hcollected, hreason⟩ := collected_partial hpos hcounted hline
    by_cases hlimit : maxBytes < 0
    · rw [hover (.inr hlimit), hreason, if_neg (by omega)]
      constructor
      · intro h
        cases h.2
      · intro h
        omega
    · have hjoin : joinLines [truncateStringToBytesFromEnd (codePoints (front ++ [c])) maxBytes] =
          truncateStringToBytesFromEnd (codePoints (front ++ [c])) maxBytes :=
        intercalate_singleton
      rw [hwhole (by omega) (by omega), hcollected, hreason, hjoin]
      constructor
      · intro h
        have hlines : ¬ maxLines ≤ 1 := by
          intro hone
          rw [← h.1, if_pos ⟨hone, by rw [utf8ByteLength]; omega⟩] at h
          cases h.2
        exact .inr (.inr ⟨by omega, by omega, h.1.symm⟩)
      · intro h
        rcases h with h | h | ⟨hlines, _, hnil⟩
        · omega
        · omega
        · rw [hnil, if_neg (by omega)]
          exact ⟨rfl, rfl⟩

theorem splitLinesForCounting_line (hline : line ≠ []) (h : newline ∉ line) :
    splitLinesForCounting line = [line] := by
  have hend : line.getLast? ≠ some newline := fun hlast => h (mem_of_getLast? hlast)
  rw [splitLinesForCounting, if_neg hline, if_neg hend, splitOn_eq_singleton h]

theorem sum_sizes_reverse (text : List Char) :
    (text.reverse.map Char.utf8Size).sum = byteLength text := by
  rw [map_reverse, sum_reverse, ← utf8ByteLength_codePoints, byteLength_eq]

theorem truncateString_append (front : List Char) (h : maxBytes < byteLength back) :
    truncateStringToBytesFromEnd (codePoints (front ++ back)) maxBytes =
      truncateStringToBytesFromEnd (codePoints back) maxBytes := by
  rw [truncateStringToBytesFromEnd_codePoints, truncateStringToBytesFromEnd_codePoints,
    reverse_append, charsFromEnd_stops]
  rw [sum_sizes_reverse]
  omega

theorem truncateString_cut (front : List Char) (hpos : 0 < maxBytes)
    (hfits : byteLength back ≤ maxBytes) (hcut : maxBytes < byteLength (c :: back)) :
    truncateStringToBytesFromEnd (codePoints (front ++ c :: back)) maxBytes = codePoints back := by
  rw [byteLength_cons] at hcut
  rw [truncateStringToBytesFromEnd_codePoints, if_neg (by omega), reverse_append, reverse_cons,
    append_assoc, singleton_append, charsFromEnd_fits, reverse_reverse]
  · rw [sum_sizes_reverse]
    omega
  · rw [sum_sizes_reverse]
    omega

theorem same_iff_partial {shown : List Char} (lastLine : Text) (hshown : shown ≠ [])
    (hline : '\n' ∉ shown) (htext : maxBytes < utf8ByteLength text)
    (hcounted : splitLinesForCounting text = above ++ [codePoints (front ++ c :: shown)])
    (hcut : maxBytes < byteLength (c :: shown)) : Same maxLines maxBytes (codePoints shown) text ↔
      ShowsTail maxLines maxBytes (codePoints shown) lastLine := by
  have hcodes : codePoints shown ≠ [] := fun h => hshown (map_eq_nil_iff.mp h)
  have hnewline : newline ∉ codePoints shown := fun h => hline (newline_mem_codePoints.mp h)
  have hown := splitLinesForCounting_line hcodes hnewline
  have hjoin : ∀ line : Text, joinLines [line] = line := fun line => intercalate_singleton
  have hend : (codePoints shown).getLast? ≠ some newline :=
    fun hlast => hnewline (mem_of_getLast? hlast)
  have hlong : maxBytes < utf8ByteLength (codePoints (front ++ c :: shown)) := by
    rw [byteLength_eq, byteLength_append]
    omega
  have hlength : (splitLinesForCounting (codePoints shown)).length = 1 := by
    rw [hown]
    rfl
  unfold ShowsTail
  simp only [if_neg hcodes, hlength, if_neg hend]
  rw [hown, hjoin, byteLength_eq]
  by_cases hnone : maxLines ≤ 0
  · have hover : maxLines < (splitLinesForCounting (codePoints shown)).length := by omega
    obtain ⟨hcollected, hreason⟩ : (collected maxLines maxBytes text).lines = [] ∧ _ :=
      collected_none hnone
    obtain ⟨hshownCollected, hshownReason⟩ :
        (collected maxLines maxBytes (codePoints shown)).lines = [] ∧ _ := collected_none hnone
    rw [same_iff_over htext (.inl hover), hcollected, hreason, hshownCollected, hshownReason]
    exact ⟨fun _ => .inl (by omega), fun _ => ⟨rfl, rfl⟩⟩
  · have hpos : 0 < maxLines := by omega
    obtain ⟨hcollected, hreason⟩ := collected_partial hpos hcounted hlong
    by_cases hstops : maxBytes < byteLength shown
    · have hbytes : maxBytes < utf8ByteLength (codePoints shown) := by rwa [byteLength_eq]
      have hsplit : front ++ c :: shown = (front ++ [c]) ++ shown := by simp
      have halone : splitLinesForCounting (codePoints shown) = [] ++ [codePoints shown] := hown
      obtain ⟨hshownCollected, hshownReason⟩ := collected_partial hpos halone hbytes
      rw [hsplit, truncateString_append _ hstops] at hcollected hreason
      rw [same_iff_over htext (.inr hbytes), hcollected, hreason, hshownCollected, hshownReason]
      exact ⟨fun _ => .inr (.inl hstops), fun _ => ⟨rfl, rfl⟩⟩
    · have hsome : 0 < byteLength shown := by
        cases shown with
        | nil => exact absurd rfl hshown
        | cons d shown =>
          have hsize := Char.utf8Size_pos d
          rw [byteLength_cons]
          omega
      rw [truncateString_cut front (by omega) (by omega) hcut] at hcollected hreason
      rw [same_iff_whole htext (by omega) (by rw [byteLength_eq]; omega), hcollected, hreason,
        hjoin, byteLength_eq]
      by_cases hone : maxLines ≤ 1
      · rw [if_pos ⟨hone, by omega⟩]
        constructor
        · intro h
          cases h.2
        · intro h
          omega
      · rw [if_neg (fun h => hone h.1)]
        exact ⟨fun _ => .inr (.inr (by omega)), fun _ => ⟨rfl, rfl⟩⟩

end Shown

section Snapshots

/-- The parts of a truncation that the snapshot and `truncate_tail` are compared in. -/
structure Agrees (streamed batch : TruncationResult) : Prop where
  content : streamed.content = batch.content
  truncated : streamed.truncated = batch.truncated
  truncatedBy : streamed.truncatedBy = batch.truncatedBy
  totalLines : streamed.totalLines = batch.totalLines
  totalBytes : streamed.totalBytes = batch.totalBytes

/-- Before the snapshot: nothing was cut from the tail, or what is shown of the tail is like the
end of the text. -/
def Faithful (s : Accumulator) (text : List Char) : Prop :=
  s.tailBytes = s.totalDecodedBytes ∨
    ShowsTail s.maxLines s.maxBytes (codePoints (getSnapshotText s))
      ((splitLinesForCounting (codePoints text)).getLast?.getD [])

variable {s : Accumulator} {text : List Char}

theorem Follows.totalLines_eq (hs : Follows s text) :
    s.totalLines = (splitLinesForCounting (codePoints text)).length := by
  have hcount : (codePoints text).count newline = text.count '\n' :=
    count_map_of_injective text Char.toNat (fun _ _ h => Char.toNat_inj.mp h) '\n'
  have hopen : s.hasOpenLine = true ↔
      codePoints text ≠ [] ∧ (codePoints text).getLast? ≠ some newline := by
    have hlast : text.getLast?.map Char.toNat = some newline ↔ text.getLast? = some '\n' := by
      rw [← newline_eq, ← Option.map_some]
      exact (Option.map_injective fun _ _ h => Char.toNat_inj.mp h).eq_iff
    rw [hs.openLine, codePoints, getLast?_map, ne_eq, ne_eq, ne_eq, ne_eq, hlast, map_eq_nil_iff]
  rw [hs.lines, hs.completed, length_counted, hcount]
  by_cases h : s.hasOpenLine = true
  · rw [if_pos h, if_pos (hopen.mp h)]
  · rw [if_neg h, if_neg fun h' => h (hopen.mpr h')]

theorem Follows.totalBytes_eq (hs : Follows s text) :
    s.totalDecodedBytes = utf8ByteLength (codePoints text) := by
  rw [hs.total, byteLength_eq]

theorem truncateTail_totals (content : Text) (maxLines maxBytes : ℤ) :
    (truncateTail content maxLines maxBytes).totalLines = (splitLinesForCounting content).length ∧
      (truncateTail content maxLines maxBytes).totalBytes = utf8ByteLength content ∧
      (truncateTail content maxLines maxBytes).truncated =
        (decide (maxLines < (splitLinesForCounting content).length) ||
          decide (maxBytes < utf8ByteLength content)) := by
  unfold truncateTail
  by_cases h : (splitLinesForCounting content).length ≤ maxLines ∧
      utf8ByteLength content ≤ maxBytes
  · rw [if_pos h]
    refine ⟨rfl, rfl, ?_⟩
    rw [decide_eq_false (by omega), decide_eq_false (by omega)]
    rfl
  · rw [if_neg h]
    refine ⟨rfl, rfl, ?_⟩
    rw [eq_comm, Bool.or_eq_true, decide_eq_true_eq, decide_eq_true_eq]
    omega

/-- The counts of a snapshot are right; what it shows and why is left to compare. -/
theorem agrees_iff (hs : Follows s text) :
    Agrees (snapshot s false).1 (truncateTail (codePoints text) s.maxLines s.maxBytes) ↔
      (snapshot s false).1.content =
          (truncateTail (codePoints text) s.maxLines s.maxBytes).content ∧
        (snapshot s false).1.truncatedBy =
          (truncateTail (codePoints text) s.maxLines s.maxBytes).truncatedBy := by
  obtain ⟨hlines, hbytes, htruncated⟩ :=
    truncateTail_totals (codePoints text) s.maxLines s.maxBytes
  constructor
  · exact fun h => ⟨h.content, h.truncatedBy⟩
  · intro h
    refine ⟨h.1, ?_, h.2, ?_, ?_⟩
    · rw [htruncated, ← hs.totalLines_eq, ← hs.totalBytes_eq]
      rfl
    · rw [hlines]
      exact hs.totalLines_eq
    · rw [hbytes]
      exact hs.totalBytes_eq

theorem snapshot_truncatedBy (hs : Follows s text) : (snapshot s false).1.truncatedBy =
    if s.maxLines < (splitLinesForCounting (codePoints text)).length ∨
        s.maxBytes < utf8ByteLength (codePoints text) then
      some ((truncateTail (codePoints (getSnapshotText s)) s.maxLines s.maxBytes).truncatedBy.getD
        (if s.maxBytes < utf8ByteLength (codePoints text) then .bytes else .lines))
    else none := by
  rw [← hs.totalLines_eq, ← hs.totalBytes_eq]
  change (if (decide _ || decide _) = true then _ else _) = _
  simp only [Bool.or_eq_true, decide_eq_true_eq]

theorem agrees_of_whole (hs : Follows s text) (hshown : getSnapshotText s = text) :
    Agrees (snapshot s false).1 (truncateTail (codePoints text) s.maxLines s.maxBytes) := by
  have hcontent : (snapshot s false).1.content =
      (truncateTail (codePoints (getSnapshotText s)) s.maxLines s.maxBytes).content := rfl
  rw [agrees_iff hs, snapshot_truncatedBy hs, hcontent, hshown]
  refine ⟨rfl, ?_⟩
  by_cases hover : s.maxLines < (splitLinesForCounting (codePoints text)).length ∨
      s.maxBytes < utf8ByteLength (codePoints text)
  · rw [if_pos hover, (truncateTail_over hover).2]
    rfl
  · obtain ⟨_, hnone⟩ : _ ∧ (truncateTail (codePoints text) s.maxLines s.maxBytes).truncatedBy =
        none := truncateTail_whole (by omega) (by omega)
    rw [if_neg hover, hnone]

theorem agrees_iff_same (hs : Follows s text)
    (hover : s.maxBytes < utf8ByteLength (codePoints text)) :
    Agrees (snapshot s false).1 (truncateTail (codePoints text) s.maxLines s.maxBytes) ↔
      Same s.maxLines s.maxBytes (codePoints (getSnapshotText s)) (codePoints text) := by
  have hcontent : (snapshot s false).1.content =
      (truncateTail (codePoints (getSnapshotText s)) s.maxLines s.maxBytes).content := rfl
  rw [agrees_iff hs, snapshot_truncatedBy hs, hcontent, if_pos (.inr hover), if_pos hover]
  exact ⟨fun h => ⟨h.1, h.2⟩, fun h => ⟨h.1, h.2⟩⟩

theorem getSnapshotText_cut (hflag : s.tailStartsAtLineBoundary = false) :
    ('\n' ∉ s.tailText ∧ getSnapshotText s = s.tailText) ∨
      ∃ rest, '\n' ∉ rest ∧ s.tailText = rest ++ '\n' :: getSnapshotText s := by
  have hshown : ∀ found, s.tailText.idxOf? '\n' = found → getSnapshotText s =
      found.elim s.tailText fun firstNewline => s.tailText.drop (firstNewline + 1) := by
    rintro _ rfl
    unfold getSnapshotText
    rw [hflag, if_neg Bool.false_ne_true]
    cases s.tailText.idxOf? '\n' <;> rfl
  by_cases hmem : '\n' ∈ s.tailText
  · right
    obtain ⟨rest, back, htail, hrest⟩ := eq_append_cons_of_mem hmem
    have hindex : s.tailText.idxOf? '\n' = some rest.length := by
      rw [htail, idxOf?_eq_some_iff]
      refine ⟨by rw [length_append, length_cons]; omega, ?_, ?_⟩
      · rw [getElem_append_right (Nat.le_refl _)]
        simp
      · intro j hj heq
        rw [getElem_append_left hj] at heq
        exact hrest (heq ▸ getElem_mem hj)
    refine ⟨rest, hrest, ?_⟩
    rw [hshown _ hindex, htail]
    simp
  · left
    rw [hshown _ (idxOf?_eq_none_iff.mpr hmem)]
    exact ⟨hmem, rfl⟩

theorem kept_cases {limit : ℤ} {tail : List Char} {flag : Bool} (h : Kept limit tail flag text) :
    (flag = true ∧ text = tail) ∨ ∃ front c, flag = decide (c = '\n') ∧
      text = front ++ c :: tail ∧ limit < byteLength (c :: tail) := by
  cases h with
  | whole => exact .inl ⟨rfl, rfl⟩
  | cut front c hcut => exact .inr ⟨front, c, rfl, rfl, hcut⟩

variable {front : List Char} {c : Char}

theorem shown_cases (hflag : s.tailStartsAtLineBoundary = decide (c = '\n'))
    (hcut : maxRollingBytes s < byteLength (c :: s.tailText)) : (∃ line, '\n' ∉ line ∧
        front ++ c :: s.tailText = front ++ line ++ '\n' :: getSnapshotText s ∧
        maxRollingBytes s ≤ byteLength line + byteLength (getSnapshotText s)) ∨
      (c ≠ '\n' ∧ '\n' ∉ s.tailText ∧ getSnapshotText s = s.tailText) := by
  have hnewline : Char.utf8Size '\n' = 1 := by decide
  by_cases hc : c = '\n'
  · left
    rw [decide_eq_true hc] at hflag
    have hshown : getSnapshotText s = s.tailText := if_pos hflag
    rw [byteLength_cons, hc, hnewline] at hcut
    refine ⟨[], not_mem_nil, ?_, ?_⟩
    · rw [hshown, append_nil, hc]
    · rw [hshown]
      omega
  · rw [decide_eq_false hc] at hflag
    rcases getSnapshotText_cut hflag with ⟨hmem, hshown⟩ | ⟨rest, hrest, htail⟩
    · exact .inr ⟨hc, hmem, hshown⟩
    · left
      refine ⟨c :: rest, ?_, ?_, ?_⟩
      · intro h
        rcases mem_cons.mp h with h | h
        · exact hc h.symm
        · exact hrest h
      · rw [append_assoc, cons_append, ← htail]
      · rw [htail, ← cons_append, byteLength_append, byteLength_cons '\n', hnewline] at hcut
        omega

theorem counted_end (front : List Char) {back : List Char} (hne : back ≠ []) (hback : '\n' ∉ back) :
    ∃ above last, splitLinesForCounting (codePoints (front ++ back)) =
      above ++ [codePoints (last ++ back)] := by
  obtain ⟨lines, last, _, hsplit⟩ := Lines.splitOn_append_of_not_mem front hback
  refine ⟨lines.map codePoints, last, ?_⟩
  have hcodes : codePoints (front ++ back) ≠ [] := by
    intro h
    exact append_ne_nil_of_right_ne_nil _ hne (map_eq_nil_iff.mp h)
  have hend : (codePoints (front ++ back)).getLast? ≠ some newline := by
    rw [codePoints, map_append, getLast?_append_of_ne_nil _ fun h => hne (map_eq_nil_iff.mp h)]
    exact fun h => hback (newline_mem_codePoints.mp (mem_of_getLast? h))
  rw [splitLinesForCounting, if_neg hcodes, if_neg hend, splitOn_codePoints, hsplit, map_append]
  rfl

theorem counted_behind (front : List Char) {line : List Char} (hline : '\n' ∉ line)
    (back : List Char) : ∃ above last,
      splitLinesForCounting (codePoints (front ++ line ++ '\n' :: back)) =
        (above ++ [codePoints (last ++ line)]) ++ splitLinesForCounting (codePoints back) := by
  obtain ⟨lines, last, _, hsplit⟩ := Lines.splitOn_append_of_not_mem front hline
  refine ⟨lines.map codePoints, last, ?_⟩
  rw [codePoints_behind, splitLinesForCounting_behind, splitOn_codePoints, hsplit, map_append]
  rfl

theorem same_of_cut (htext : text = front ++ c :: s.tailText)
    (hflag : s.tailStartsAtLineBoundary = decide (c = '\n'))
    (hcut : maxRollingBytes s < byteLength (c :: s.tailText))
    (hover : s.maxBytes < utf8ByteLength (codePoints text)) :
    Same s.maxLines s.maxBytes (codePoints (getSnapshotText s)) (codePoints text) ↔
      ShowsTail s.maxLines s.maxBytes (codePoints (getSnapshotText s))
        ((splitLinesForCounting (codePoints text)).getLast?.getD []) := by
  rcases shown_cases hflag hcut with ⟨line, hline, hsplit, hlong⟩ | ⟨hc, hmem, hshown⟩
  · obtain ⟨above, last, hcounted⟩ := counted_behind front hline (getSnapshotText s)
    rw [← hsplit, ← htext] at hcounted
    have hsum := byteLength_append last line
    unfold maxRollingBytes at hlong
    by_cases hnil : getSnapshotText s = []
    · rw [hnil] at hcounted hlong ⊢
      have hnone : byteLength [] = 0 := rfl
      have hne : line ≠ [] := by
        intro h
        rw [h] at hlong
        omega
      obtain ⟨init, d, hconcat⟩ := (eq_nil_or_concat line).resolve_left hne
      rw [concat_eq_append] at hconcat
      rw [show splitLinesForCounting (codePoints []) = [] from rfl, append_nil, hconcat,
        ← append_assoc] at hcounted
      rw [hcounted, getLast?_concat]
      apply same_iff_empty hover hcounted
      rw [append_assoc, ← hconcat, byteLength_eq]
      omega
    · have hcodes : codePoints (getSnapshotText s) ≠ [] := fun h => hnil (map_eq_nil_iff.mp h)
      have hbytes := length_joinLines_counted hcodes
      have hcons := utf8ByteLength_joinLines_cons (codePoints (last ++ line))
        (splitLinesForCounting (codePoints (getSnapshotText s)))
      rw [if_neg (splitLinesForCounting_ne_nil hcodes), byteLength_eq] at hcons
      rw [byteLength_eq] at hbytes
      have hend :
          (if (codePoints (getSnapshotText s)).getLast? = some newline then 1 else 0) ≤ 1 := by
        split <;> omega
      apply same_iff_behind _ hcodes hover hcounted
      omega
  · have hline : '\n' ∉ c :: s.tailText := by
      intro h
      rcases mem_cons.mp h with h | h
      · exact hc h.symm
      · exact hmem h
    obtain ⟨above, last, hcounted⟩ := counted_end front (cons_ne_nil c s.tailText) hline
    rw [← htext] at hcounted
    unfold maxRollingBytes at hcut
    rw [hshown]
    by_cases hnil : s.tailText = []
    · rw [hnil] at hcounted hcut ⊢
      rw [hcounted, getLast?_concat]
      apply same_iff_empty hover hcounted
      rw [byteLength_eq, byteLength_append]
      omega
    · exact same_iff_partial _ hnil hmem hover hcounted (by omega)

theorem snapshot_agrees_iff (hs : Follows s text) :
    Agrees (snapshot s false).1 (truncateTail (codePoints text) s.maxLines s.maxBytes) ↔
      Faithful s text := by
  rcases kept_cases hs.kept with ⟨hflag, htext⟩ | ⟨front, c, hflag, htext, hcut⟩
  · have hshown : getSnapshotText s = text := by
      rw [htext]
      exact if_pos hflag
    refine ⟨fun _ => .inl ?_, fun _ => agrees_of_whole hs hshown⟩
    rw [hs.tailBytes, hs.total, htext]
  · have hsize := Char.utf8Size_pos c
    have htotal : byteLength text = byteLength front + byteLength (c :: s.tailText) := by
      rw [htext, byteLength_append]
    have hdropped : s.tailBytes ≠ s.totalDecodedBytes := by
      rw [hs.tailBytes, hs.total, htotal, byteLength_cons]
      omega
    have hover : s.maxBytes < utf8ByteLength (codePoints text) := by
      unfold maxRollingBytes at hcut
      rw [byteLength_eq]
      omega
    rw [agrees_iff_same hs hover, same_of_cut htext hflag hcut hover]
    exact ⟨.inr, fun h => h.resolve_left hdropped⟩

/-- For all chunks and limits: streaming agrees with the truncation of the decoded whole exactly
when the finished accumulator is faithful. -/
theorem stream_agrees_iff (maxLines maxBytes : Option ℤ) (chunks : List (List UInt8))
    (persistIfTruncated : Bool) : ∃ s, stream (create maxLines maxBytes) chunks = .ok s ∧
      (Agrees (snapshot s persistIfTruncated).1
        (truncateTail (codePoints (Utf8.decodeReplace chunks.flatten))
          (maxLines.getD defaultMaxLines) (maxBytes.getD defaultMaxBytes)) ↔
        Faithful s (Utf8.decodeReplace chunks.flatten)) := by
  obtain ⟨s, hstream, hfollows, hlines, hbytes⟩ := stream_follows maxLines maxBytes chunks
  refine ⟨s, hstream, ?_⟩
  rw [← hlines, ← hbytes]
  exact snapshot_agrees_iff hfollows

/-- A line of 9 bytes and its newline, limits of 5 lines and 2 bytes: the snapshot is empty where
the truncation shows the end of the line. -/
theorem long_line_vanishes : ∃ s,
    stream (create (some 5) (some 2)) [[97, 97, 97, 97, 97, 97, 97, 97, 97, 10]] = .ok s ∧
      (snapshot s false).1.content = [] ∧
      ¬ Agrees (snapshot s false).1 (truncateTail (codePoints (Utf8.decodeReplace
        [97, 97, 97, 97, 97, 97, 97, 97, 97, 10])) 5 2) := by
  refine ⟨_, rfl, by decide, fun h => ?_⟩
  have hcontent := h.content
  exact absurd hcontent (by decide)

end Snapshots

end Pidrei.OutputAccumulator
