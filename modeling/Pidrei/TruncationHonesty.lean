import Mathlib.Data.List.Induction
import Pidrei.OutputSnapshot

/-!
Truncation at the head and at the tail against what it reports: the lines kept are as many as
the limits allow, the counts are those of the texts, and the named limit is one that the text
exceeds, but for two kinds of texts.
-/
namespace Pidrei.TruncationHonesty

open Truncate OutputAccumulator List
open Option (any_some some)

section Boundaries

/-- No surrogate pair is cut between the two texts. -/
def AtBoundary (front back : Text) : Prop :=
  (front.getLast?.any isHighSurrogate && back.head?.any isLowSurrogate) = false

variable {code : ℕ} {front back : Text}

theorem isHighSurrogate_of_isLowSurrogate (h : isLowSurrogate code = true) :
    isHighSurrogate code = false := by
  simp only [isLowSurrogate, isHighSurrogate, Bool.and_eq_true, decide_eq_true_eq] at h ⊢
  simp only [Bool.and_eq_false_iff, decide_eq_false_iff_not]
  omega

theorem isLowSurrogate_of_isHighSurrogate (h : isHighSurrogate code = true) :
    isLowSurrogate code = false := by
  by_contra hlow
  rw [isHighSurrogate_of_isLowSurrogate (Bool.of_not_eq_false hlow)] at h
  cases h

theorem atBoundary_nil (front : Text) : AtBoundary front [] := by
  rw [AtBoundary, head?_nil, Option.any_none, Bool.and_false]

theorem atBoundary_of_head (h : isLowSurrogate code = false) : AtBoundary front (code :: back) := by
  rw [AtBoundary, head?_cons, any_some, h, Bool.and_false]

theorem atBoundary_tail {next : ℕ} (h : AtBoundary (code :: next :: front) back) :
    AtBoundary (next :: front) back := by
  rwa [AtBoundary, getLast?_cons_cons] at h

theorem utf8ByteLength_append (h : AtBoundary front back) :
    utf8ByteLength (front ++ back) = utf8ByteLength front + utf8ByteLength back := by
  induction front using utf8ByteLength.induct with
  | case1 => rw [nil_append, utf8ByteLength, Nat.zero_add]
  | case2 code =>
    rw [singleton_append, utf8ByteLength_cons, utf8ByteLength]
    exact h
  | case3 code next rest hpair ih =>
    have hrest : AtBoundary rest back := by
      cases rest with
      | nil => rfl
      | cons first rest => exact atBoundary_tail (atBoundary_tail h)
    rw [cons_append, cons_append, utf8ByteLength, if_pos hpair, ih hrest, utf8ByteLength,
      if_pos hpair, Nat.add_assoc]
  | case4 code next rest hpair ih =>
    rw [cons_append, cons_append, utf8ByteLength, if_neg hpair, ← cons_append,
      ih (atBoundary_tail h), utf8ByteLength, if_neg hpair, Nat.add_assoc]

theorem replaceUnpairedSurrogates_cons {text : Text} (h : AtBoundary [code] text) :
    replaceUnpairedSurrogates (code :: text) =
      replaceUnpairedSurrogates [code] ++ replaceUnpairedSurrogates text := by
  cases text with
  | nil => exact (append_nil _).symm
  | cons next rest =>
    have hpair : ¬ (isHighSurrogate code && isLowSurrogate next) = true := by
      rw [Bool.not_eq_true]
      exact h
    rw [replaceUnpairedSurrogates.eq_3, if_neg hpair, replaceUnpairedSurrogates.eq_2]
    split_ifs <;> rfl

theorem replaceUnpairedSurrogates_append (h : AtBoundary front back) :
    replaceUnpairedSurrogates (front ++ back) =
      replaceUnpairedSurrogates front ++ replaceUnpairedSurrogates back := by
  induction front using utf8ByteLength.induct with
  | case1 => rfl
  | case2 code => exact replaceUnpairedSurrogates_cons h
  | case3 code next rest hpair ih =>
    have hrest : AtBoundary rest back := by
      cases rest with
      | nil => rfl
      | cons first rest => exact atBoundary_tail (atBoundary_tail h)
    rw [cons_append, cons_append, replaceUnpairedSurrogates, if_pos hpair, ih hrest,
      replaceUnpairedSurrogates, if_pos hpair]
    rfl
  | case4 code next rest hpair ih =>
    rw [Bool.not_eq_true] at hpair
    rw [cons_append, replaceUnpairedSurrogates_cons (by exact hpair), ih (atBoundary_tail h),
      ← append_assoc, ← replaceUnpairedSurrogates_cons (by exact hpair)]

theorem codeBytes_surrogate (h : (isHighSurrogate code || isLowSurrogate code) = true) :
    codeBytes code = 3 := by
  simp only [isLowSurrogate, isHighSurrogate, Bool.or_eq_true, Bool.and_eq_true,
    decide_eq_true_eq] at h
  unfold codeBytes
  rw [if_neg (by omega), if_neg (by omega), if_pos (by omega)]

theorem utf8ByteLength_replaceUnpairedSurrogates (text : Text) :
    utf8ByteLength (replaceUnpairedSurrogates text) = utf8ByteLength text := by
  induction text using utf8ByteLength.induct with
  | case1 => rfl
  | case2 code =>
    rw [replaceUnpairedSurrogates]
    by_cases hsurrogate : (isHighSurrogate code || isLowSurrogate code) = true
    · rw [if_pos hsurrogate]
      exact (codeBytes_surrogate hsurrogate).symm
    · rw [if_neg hsurrogate]
  | case3 code next rest hpair ih =>
    rw [replaceUnpairedSurrogates, if_pos hpair, utf8ByteLength, if_pos hpair, ih, utf8ByteLength,
      if_pos hpair]
  | case4 code next rest hpair ih =>
    rw [replaceUnpairedSurrogates, if_neg hpair]
    by_cases hsurrogate : (isHighSurrogate code || isLowSurrogate code) = true
    · rw [if_pos hsurrogate, utf8ByteLength_cons (by rfl), ih, utf8ByteLength, if_neg hpair,
        codeBytes_surrogate hsurrogate]
      rfl
    · rw [if_neg hsurrogate]
      rw [Bool.not_eq_true, Bool.or_eq_false_iff] at hsurrogate
      rw [utf8ByteLength_cons (by rw [hsurrogate.1, Bool.false_and]), ih, utf8ByteLength,
        if_neg hpair]

end Boundaries

section LineEnds

/-- The longest end of a line that starts at a character and has at most `maxBytes` bytes. -/
def LongestEnd (maxBytes : ℤ) (line cut : Text) : Prop :=
  (∃ front, line = front ++ cut ∧ AtBoundary front cut) ∧ utf8ByteLength cut ≤ maxBytes ∧
    ∀ front other, line = front ++ other → AtBoundary front other →
      utf8ByteLength other ≤ maxBytes → other.length ≤ cut.length

variable {code before used : ℕ} {rest : List ℕ}

theorem utf8ByteLength_reverse_pair (more : Text) (hlow : isLowSurrogate code = true)
    (hhigh : isHighSurrogate before = true) :
    utf8ByteLength (code :: before :: more).reverse = utf8ByteLength more.reverse + 4 := by
  have hpair : utf8ByteLength [before, code] = 4 := by
    rw [utf8ByteLength, hhigh, hlow]
    rfl
  rw [reverse_cons, reverse_cons, append_assoc, singleton_append,
    utf8ByteLength_append (atBoundary_of_head (isLowSurrogate_of_isHighSurrogate hhigh)), hpair]

variable {more : Text} {maxBytes : ℤ} {kept : List ℕ}

theorem utf8ByteLength_reverse_cons (h : AtBoundary more.reverse [code]) :
    utf8ByteLength (code :: more).reverse = utf8ByteLength more.reverse + codeBytes code := by
  rw [reverse_cons, utf8ByteLength_append h, utf8ByteLength]

theorem atBoundary_of_append {front back : Text} (h : AtBoundary front (more ++ back)) :
    AtBoundary front more := by
  cases more with
  | nil => exact atBoundary_nil front
  | cons code more => exact h

/-- What `takeFromEnd` keeps of a reversed line, with `used` bytes taken before. -/
structure TakesFromEnd (maxBytes : ℤ) (used : ℕ) (line kept : List ℕ) : Prop where
  split : ∃ rest, line = kept ++ rest ∧ AtBoundary rest.reverse kept.reverse
  fits : (used + utf8ByteLength kept.reverse : ℕ) ≤ maxBytes
  longest : ∀ other rest, line = other ++ rest → AtBoundary rest.reverse other.reverse →
    (used + utf8ByteLength other.reverse : ℕ) ≤ maxBytes → other.length ≤ kept.length

theorem TakesFromEnd.stop
    (hused : used ≤ maxBytes)
    (h : ∀ more others, rest = more ++ others → AtBoundary others.reverse (code :: more).reverse →
      maxBytes < (used + utf8ByteLength (code :: more).reverse : ℕ)) :
    TakesFromEnd maxBytes used (code :: rest) [] where
  split := ⟨code :: rest, rfl, atBoundary_nil _⟩
  fits := hused
  longest := by
    intro other others hsplit hboundary hfits
    cases other with
    | nil => exact Nat.le_refl 0
    | cons first other =>
      obtain ⟨rfl, hrest⟩ := cons.inj hsplit
      have hover := h other others hrest hboundary
      omega

theorem TakesFromEnd.nil (hused : used ≤ maxBytes) : TakesFromEnd maxBytes used [] [] where
  split := ⟨[], rfl, atBoundary_nil _⟩
  fits := hused
  longest := by
    intro other rest hsplit _ _
    obtain rfl := (append_eq_nil_iff.mp hsplit.symm).1
    exact Nat.le_refl 0

/-- The character in front is no second half of a pair. -/
def Single (code : ℕ) (rest : List ℕ) : Prop :=
  (isLowSurrogate code && rest.head?.any isHighSurrogate) = false

theorem Single.atBoundary {more others : List ℕ} (h : Single code (more ++ others)) :
    AtBoundary more.reverse [code] := by
  cases more with
  | nil => rfl
  | cons before more =>
    rw [AtBoundary, getLast?_reverse, head?_cons, head?_cons, any_some,
      any_some, Bool.and_comm]
    exact h

theorem TakesFromEnd.stop_single (hsingle : Single code rest) (hused : used ≤ maxBytes)
    (hover : maxBytes < (used + codeBytes code : ℕ)) :
    TakesFromEnd maxBytes used (code :: rest) [] := by
  apply TakesFromEnd.stop hused
  intro more others hrest _
  rw [hrest] at hsingle
  rw [utf8ByteLength_reverse_cons hsingle.atBoundary]
  omega

theorem TakesFromEnd.keep_single (hsingle : Single code rest)
    (h : TakesFromEnd maxBytes (used + codeBytes code) rest kept) :
    TakesFromEnd maxBytes used (code :: rest) (code :: kept) := by
  obtain ⟨left, hleft, hboundary⟩ := h.split
  have hkept : AtBoundary kept.reverse [code] := by
    rw [hleft] at hsingle
    exact hsingle.atBoundary
  refine ⟨⟨left, by rw [hleft]; rfl, ?_⟩, ?_, ?_⟩
  · rw [reverse_cons]
    cases hnil : kept.reverse with
    | nil =>
      rw [reverse_eq_nil_iff.mp hnil, nil_append] at hleft
      rw [hleft] at hsingle
      have hcode : Single code (left ++ []) := by rwa [append_nil]
      exact hcode.atBoundary
    | cons first others =>
      rw [hnil] at hboundary
      exact hboundary
  · have hfits := h.fits
    rw [utf8ByteLength_reverse_cons hkept]
    omega
  · intro other others hsplit hother hfits
    cases other with
    | nil => exact Nat.zero_le _
    | cons first other =>
      obtain ⟨rfl, hrest⟩ := cons.inj hsplit
      have hsecond : AtBoundary other.reverse [code] := by
        rw [hrest] at hsingle
        exact hsingle.atBoundary
      rw [utf8ByteLength_reverse_cons hsecond] at hfits
      rw [reverse_cons] at hother
      have hlength := h.longest other others hrest (atBoundary_of_append hother) (by omega)
      rw [length_cons, length_cons]
      omega

theorem TakesFromEnd.stop_pair (hlow : isLowSurrogate code = true)
    (hhigh : isHighSurrogate before = true) (hused : used ≤ maxBytes)
    (hover : maxBytes < (used + 4 : ℕ)) :
    TakesFromEnd maxBytes used (code :: before :: rest) [] := by
  apply TakesFromEnd.stop hused
  intro more others hrest hboundary
  cases more with
  | nil =>
    -- a cut inside the pair is no boundary
    rw [← (show before :: rest = others from hrest), AtBoundary, getLast?_reverse,
      head?_cons, any_some, hhigh] at hboundary
    rw [reverse_singleton, head?_cons, any_some, hlow] at hboundary
    cases hboundary
  | cons first more =>
    obtain ⟨rfl, -⟩ := cons.inj hrest
    rw [utf8ByteLength_reverse_pair more hlow hhigh]
    omega

theorem TakesFromEnd.keep_pair (hlow : isLowSurrogate code = true)
    (hhigh : isHighSurrogate before = true) (h : TakesFromEnd maxBytes (used + 4) rest kept) :
    TakesFromEnd maxBytes used (code :: before :: rest) (code :: before :: kept) := by
  obtain ⟨left, hleft, hboundary⟩ := h.split
  refine ⟨⟨left, by rw [hleft]; rfl, ?_⟩, ?_, ?_⟩
  · rw [reverse_cons, reverse_cons, append_assoc, singleton_append]
    cases hnil : kept.reverse with
    | nil => exact atBoundary_of_head (isLowSurrogate_of_isHighSurrogate hhigh)
    | cons first others =>
      rw [hnil] at hboundary
      exact hboundary
  · have hfits := h.fits
    rw [utf8ByteLength_reverse_pair kept hlow hhigh]
    omega
  · intro other others hsplit hother hfits
    match other, hsplit, hother, hfits with
    | [], _, _, _ => exact Nat.zero_le _
    | [first], _, _, _ => exact Nat.succ_le_succ (Nat.zero_le _)
    | first :: second :: other, hsplit, hother, hfits =>
      obtain ⟨rfl, hbehind⟩ := cons.inj hsplit
      obtain ⟨rfl, hrest⟩ := cons.inj hbehind
      rw [utf8ByteLength_reverse_pair other hlow hhigh] at hfits
      rw [reverse_cons, reverse_cons, append_assoc] at hother
      have hlength := h.longest other others hrest (atBoundary_of_append hother) (by omega)
      simp only [length_cons]
      omega

theorem takeFromEnd_takes {maxBytes : ℤ} {used : ℕ} {line : List ℕ} (hused : used ≤ maxBytes) :
    TakesFromEnd maxBytes used line (takeFromEnd maxBytes used line).1 := by
  induction used, line using takeFromEnd.induct maxBytes with
  | case1 used => exact .nil hused
  | case2 used code hover =>
    rw [takeFromEnd, if_pos hover]
    exact .stop_single (Bool.and_false _) hused hover
  | case3 used code hfits =>
    rw [takeFromEnd, if_neg hfits]
    exact .keep_single (Bool.and_false _) (.nil (by omega))
  | case4 used code before rest hpair hover =>
    rw [takeFromEnd, if_pos hpair, if_pos hover]
    rw [Bool.and_eq_true] at hpair
    exact .stop_pair hpair.1 hpair.2 hused hover
  | case5 used code before rest hpair hfits kept unpaired heq ih =>
    rw [takeFromEnd, if_pos hpair, if_neg hfits]
    rw [Bool.and_eq_true] at hpair
    exact .keep_pair hpair.1 hpair.2 (ih (by omega))
  | case6 used code before rest hpair hover =>
    rw [takeFromEnd, if_neg hpair, if_pos hover]
    exact .stop_single ((Bool.not_eq_true _).mp hpair) hused hover
  | case7 used code before rest hpair hfits kept unpaired heq ih =>
    rw [takeFromEnd, if_neg hpair, if_neg hfits]
    exact .keep_single ((Bool.not_eq_true _).mp hpair) (ih (by omega))

theorem takeFromEnd_paired {maxBytes : ℤ} {used : ℕ} {line : List ℕ}
    (h : (takeFromEnd maxBytes used line).2 = false) :
    replaceUnpairedSurrogates (takeFromEnd maxBytes used line).1.reverse =
      (takeFromEnd maxBytes used line).1.reverse := by
  have hplain : ∀ {code : ℕ} {kept : List ℕ}, (isHighSurrogate code || isLowSurrogate code) = false →
      replaceUnpairedSurrogates kept.reverse = kept.reverse →
      replaceUnpairedSurrogates (code :: kept).reverse = (code :: kept).reverse := by
    intro code kept hcode hkept
    have hlow := (Bool.or_eq_false_iff.mp hcode).2
    rw [reverse_cons, replaceUnpairedSurrogates_append (atBoundary_of_head hlow), hkept,
      replaceUnpairedSurrogates, hcode, if_neg Bool.false_ne_true]
  induction used, line using takeFromEnd.induct maxBytes with
  | case1 used => rfl
  | case2 used code hover =>
    rw [takeFromEnd, if_pos hover]
    rfl
  | case3 used code hfits =>
    rw [takeFromEnd, if_neg hfits] at h ⊢
    exact @hplain _ [] h rfl
  | case4 used code before rest hpair hover =>
    rw [takeFromEnd, if_pos hpair, if_pos hover]
    rfl
  | case5 used code before rest hpair hfits kept unpaired heq ih =>
    rw [takeFromEnd, if_pos hpair, if_neg hfits] at h ⊢
    rw [Bool.and_eq_true] at hpair
    have hend : replaceUnpairedSurrogates [before, code] = [before, code] := by
      rw [replaceUnpairedSurrogates, hpair.1, hpair.2]
      rfl
    have hboundary := isLowSurrogate_of_isHighSurrogate hpair.2
    rw [reverse_cons, reverse_cons, append_assoc, singleton_append,
      replaceUnpairedSurrogates_append (atBoundary_of_head hboundary), hend, ih h]
  | case6 used code before rest hpair hover =>
    rw [takeFromEnd, if_neg hpair, if_pos hover]
    rfl
  | case7 used code before rest hpair hfits kept unpaired heq ih =>
    rw [takeFromEnd, if_neg hpair, if_neg hfits] at h ⊢
    dsimp only at h ⊢
    rw [Bool.or_assoc, Bool.or_eq_false_iff] at h
    exact hplain h.2 (ih h.1)

theorem truncateStringToBytesFromEnd_longest (hpos : 0 < maxBytes) (line : Text) :
    ∃ cut, LongestEnd maxBytes line cut ∧
      truncateStringToBytesFromEnd line maxBytes = replaceUnpairedSurrogates cut := by
  have htakes := @takeFromEnd_takes maxBytes 0 line.reverse (by omega)
  have hpaired := @takeFromEnd_paired maxBytes 0 line.reverse
  refine ⟨(takeFromEnd maxBytes 0 line.reverse).1.reverse, ⟨?_, ?_, ?_⟩, ?_⟩
  · obtain ⟨rest, hrest, hboundary⟩ := htakes.split
    refine ⟨rest.reverse, ?_, hboundary⟩
    rw [← reverse_append, ← hrest, reverse_reverse]
  · have hfits := htakes.fits
    rwa [Nat.zero_add] at hfits
  · intro front other hsplit hboundary hfits
    rw [length_reverse, ← @length_reverse _ other]
    apply htakes.longest other.reverse front.reverse
    · rw [hsplit, reverse_append]
    · rwa [reverse_reverse, reverse_reverse]
    · rwa [reverse_reverse, Nat.zero_add]
  · rw [truncateStringToBytesFromEnd, if_neg (by omega)]
    by_cases hflag : (takeFromEnd maxBytes 0 line.reverse).2 = true
    · exact if_pos hflag
    · rw [Bool.not_eq_true] at hflag
      rw [hpaired hflag]
      dsimp only
      rw [hflag]
      rfl

end LineEnds

section Blocks

variable {maxLines maxBytes : ℤ}

def Fits (maxLines maxBytes : ℤ) (kept : List Text) : Prop :=
  kept.length ≤ maxLines ∧ utf8ByteLength (joinLines kept) ≤ maxBytes

/-- The longest block of lines at the start that respects both limits. -/
def LongestHead (maxLines maxBytes : ℤ) (lines kept : List Text) : Prop :=
  kept <+: lines ∧ Fits maxLines maxBytes kept ∧
    ∀ other, other <+: lines → Fits maxLines maxBytes other → other.length ≤ kept.length

/-- The longest block of lines at the end that respects both limits. -/
def LongestTail (maxLines maxBytes : ℤ) (lines kept : List Text) : Prop :=
  kept <:+ lines ∧ Fits maxLines maxBytes kept ∧
    ∀ other, other <:+ lines → Fits maxLines maxBytes other → other.length ≤ kept.length

theorem utf8ByteLength_joinLines_front (front back : List Text) :
    utf8ByteLength (joinLines front) ≤ utf8ByteLength (joinLines (front ++ back)) := by
  induction back using reverseRecOn with
  | nil => exact Nat.le_of_eq (by rw [append_nil])
  | append_singleton back line ih =>
    rw [← append_assoc, utf8ByteLength_joinLines_concat]
    omega

theorem Fits.front {front back : List Text} (h : Fits maxLines maxBytes (front ++ back)) :
    Fits maxLines maxBytes front := by
  obtain ⟨hlines, hbytes⟩ := h
  have hle := utf8ByteLength_joinLines_front front back
  rw [length_append] at hlines
  exact ⟨by omega, by omega⟩

theorem Fits.back {front back : List Text} (h : Fits maxLines maxBytes (front ++ back)) :
    Fits maxLines maxBytes back := by
  obtain ⟨hlines, hbytes⟩ := h
  have hle := utf8ByteLength_joinLines_le front back
  rw [length_append] at hlines
  exact ⟨by omega, by omega⟩

theorem longestHead_of_next {kept rest : List Text} (hfits : Fits maxLines maxBytes kept)
    (hnext : ∀ line more, rest = line :: more → ¬ Fits maxLines maxBytes (kept ++ [line])) :
    LongestHead maxLines maxBytes (kept ++ rest) kept := by
  refine ⟨prefix_append _ _, hfits, ?_⟩
  intro other hother hboth
  by_contra hlonger
  obtain ⟨more, rfl⟩ :=
    prefix_of_prefix_length_le (prefix_append kept rest) hother (by omega)
  have hmore := (prefix_append_right_inj kept).mp hother
  cases more with
  | nil => exact hlonger (Nat.le_of_eq (congrArg length (append_nil kept)))
  | cons line more =>
    obtain ⟨others, hrest⟩ := hmore
    apply hnext line (more ++ others) hrest.symm
    apply @Fits.front _ _ _ more
    rwa [append_assoc]

theorem longestTail_of_next {rest kept : List Text} (hfits : Fits maxLines maxBytes kept)
    (hnext : ∀ above line, rest = above ++ [line] → ¬ Fits maxLines maxBytes (line :: kept)) :
    LongestTail maxLines maxBytes (rest ++ kept) kept := by
  refine ⟨suffix_append _ _, hfits, ?_⟩
  intro other hother hboth
  by_contra hlonger
  obtain ⟨more, rfl⟩ :=
    suffix_of_suffix_length_le (suffix_append rest kept) hother (by omega)
  rcases eq_nil_or_concat more with rfl | ⟨above, line, rfl⟩
  · exact hlonger (Nat.le_refl _)
  · obtain ⟨others, hrest⟩ := hother
    rw [← append_assoc] at hrest
    apply hnext (others ++ above) line
    · rw [← append_cancel_right hrest, concat_eq_append, append_assoc]
    · apply @Fits.back _ _ above
      rwa [concat_eq_append, append_assoc] at hboth

/-- Where the loop of `truncate_head` stops: at the end of its lines or at a line that is too
long. -/
theorem collectHead_collects (lines output : List Text)
    (h : utf8ByteLength (joinLines output) ≤ maxBytes) : ∃ taken rest, lines = taken ++ rest ∧
      (collectHead maxBytes lines output (utf8ByteLength (joinLines output))).lines =
        output ++ taken ∧
      (utf8ByteLength (joinLines (output ++ taken)) : ℤ) ≤ maxBytes ∧
      (rest = [] ∧
          (collectHead maxBytes lines output (utf8ByteLength (joinLines output))).truncatedBy =
            .lines ∨
        (∃ line more, rest = line :: more ∧
            maxBytes < utf8ByteLength (joinLines (output ++ taken ++ [line]))) ∧
          (collectHead maxBytes lines output (utf8ByteLength (joinLines output))).truncatedBy =
            .bytes) := by
  induction lines generalizing output with
  | nil =>
    refine ⟨[], [], rfl, (append_nil output).symm, ?_, .inl ⟨rfl, rfl⟩⟩
    rwa [append_nil]
  | cons line rest ih =>
    rw [collectHead]
    by_cases hover : maxBytes < (utf8ByteLength (joinLines output) +
        (utf8ByteLength line + if output = [] then 0 else 1) : ℕ)
    · rw [if_pos hover]
      refine ⟨[], line :: rest, rfl, (append_nil output).symm, by rwa [append_nil],
        .inr ⟨⟨line, rest, rfl, ?_⟩, rfl⟩⟩
      rwa [append_nil, utf8ByteLength_joinLines_concat]
    · rw [if_neg hover, ← utf8ByteLength_joinLines_concat]
      rw [← utf8ByteLength_joinLines_concat] at hover
      obtain ⟨taken, others, hsplit, hlines, hbytes, hstop⟩ := ih (output ++ [line]) (by omega)
      rw [append_assoc, singleton_append] at hlines hbytes hstop
      exact ⟨line :: taken, others, by rw [hsplit]; rfl, hlines, hbytes, hstop⟩

/-- Where the loop of `truncate_tail` stops when the last line is not too long. -/
theorem collectTail_collects {lines output : List Text} (houtput : Fits maxLines maxBytes output)
    (hlast : output = [] → ∀ line more, lines = line :: more → utf8ByteLength line ≤ maxBytes) :
    ∃ taken rest, lines = taken ++ rest ∧
      (collectTail maxLines maxBytes lines output (utf8ByteLength (joinLines output))).lines =
        taken.reverse ++ output ∧
      Fits maxLines maxBytes (taken.reverse ++ output) ∧
      ((rest = [] ∨ maxLines ≤ (taken.reverse ++ output).length) ∧
          (collectTail maxLines maxBytes lines output
            (utf8ByteLength (joinLines output))).truncatedBy = .lines ∨
        ((taken.reverse ++ output).length < maxLines ∧ ∃ line more, rest = line :: more ∧
            maxBytes < utf8ByteLength (joinLines (line :: (taken.reverse ++ output)))) ∧
          (collectTail maxLines maxBytes lines output
            (utf8ByteLength (joinLines output))).truncatedBy = .bytes) := by
  induction lines generalizing output with
  | nil => exact ⟨[], [], rfl, rfl, houtput, .inl ⟨.inl rfl, rfl⟩⟩
  | cons line rest ih =>
    by_cases hfull : maxLines ≤ output.length
    · rw [collectTail_full hfull]
      exact ⟨[], line :: rest, rfl, rfl, houtput, .inl ⟨.inr hfull, rfl⟩⟩
    · rw [collectTail_cons hfull]
      by_cases hover : maxBytes < utf8ByteLength (joinLines (line :: output))
      · have hne : output ≠ [] := by
          intro hnil
          have hfits := hlast hnil line rest rfl
          rw [hnil, joinLines, intercalate_singleton] at hover
          omega
        rw [if_pos hover, stopAt, if_neg hne]
        exact ⟨[], line :: rest, rfl, rfl, houtput,
          .inr ⟨⟨by rw [reverse_nil, nil_append]; omega, line, rest, rfl, hover⟩, rfl⟩⟩
      · rw [if_neg hover]
        obtain ⟨taken, others, hsplit, hlines, hfits, hstop⟩ := @ih (line :: output)
          ⟨by rw [length_cons]; omega, by omega⟩ (fun h => by cases h)
        have hreverse : taken.reverse ++ line :: output = (line :: taken).reverse ++ output := by
          rw [reverse_cons, append_assoc, singleton_append]
        rw [hreverse] at hlines hfits hstop
        exact ⟨line :: taken, others, by rw [hsplit]; rfl, hlines, hfits, hstop⟩

end Blocks

section Honesty

variable {content : Text} {maxLines maxBytes : ℤ}

def Exceeds (content : Text) (maxLines maxBytes : ℤ) : TruncatedBy → Prop
  | .lines => maxLines < (splitLinesForCounting content).length
  | .bytes => maxBytes < utf8ByteLength content

def OverByNewline (content : Text) (maxLines maxBytes : ℤ) : Prop :=
  (splitLinesForCounting content).length ≤ maxLines ∧ content.getLast? = some newline ∧
    (utf8ByteLength content : ℤ) = maxBytes + 1

/-- The text is one line that is over the byte limit, and one line is all that may be kept. -/
def OneLongLine (content : Text) (maxLines maxBytes : ℤ) : Prop :=
  maxLines = 1 ∧ ∃ line, splitLinesForCounting content = [line] ∧ maxBytes < utf8ByteLength line

structure Reports (content : Text) (maxLines maxBytes : ℤ) (result : TruncationResult) : Prop where
  truncated : result.truncated = true ↔ ∃ limit, Exceeds content maxLines maxBytes limit
  named : result.truncatedBy.isSome = result.truncated
  exceeded : ∀ limit, result.truncatedBy = some limit → Exceeds content maxLines maxBytes limit
  totalLines : result.totalLines = (splitLinesForCounting content).length
  totalBytes : result.totalBytes = utf8ByteLength content
  outputBytes : result.outputBytes = utf8ByteLength result.content

/-- The content is made of `kept`, and so many lines are reported. -/
def Returns (result : TruncationResult) (kept : List Text) : Prop :=
  result.content = joinLines kept ∧ result.outputLines = kept.length

/-- A text within the limits comes back as it is. -/
def ReturnsWhole (content : Text) (result : TruncationResult) : Prop :=
  result.content = content ∧ result.outputLines = (splitLinesForCounting content).length

structure HonestHead (content : Text) (maxLines maxBytes : ℤ) (result : TruncationResult) :
    Prop extends Reports content maxLines maxBytes result where
  whole : result.truncated = false → ReturnsWhole content result
  kept : result.truncated = true → ∃ kept,
    LongestHead maxLines maxBytes (splitLinesForCounting content) kept ∧ Returns result kept

def LastTooLong (content : Text) (maxBytes : ℤ) (last : Text) : Prop :=
  (splitLinesForCounting content).getLast? = some last ∧ maxBytes < utf8ByteLength last

structure HonestTail (content : Text) (maxLines maxBytes : ℤ) (result : TruncationResult) :
    Prop extends Reports content maxLines maxBytes result where
  whole : result.truncated = false → ReturnsWhole content result
  kept : result.truncated = true → (∀ last, ¬ LastTooLong content maxBytes last) → ∃ kept,
    LongestTail maxLines maxBytes (splitLinesForCounting content) kept ∧ Returns result kept
  cut : ∀ last, LastTooLong content maxBytes last → ∃ cut, LongestEnd maxBytes last cut ∧
    Returns result [replaceUnpairedSurrogates cut]

/-- Both truncations keep all that the limits allow, and report what they did. -/
def Honest (content : Text) (maxLines maxBytes : ℤ) : Prop :=
  (∃ result, truncateHead content maxLines maxBytes = some result ∧
    HonestHead content maxLines maxBytes result) ∧
  HonestTail content maxLines maxBytes (truncateTail content maxLines maxBytes)

theorem joinLines_le_content : utf8ByteLength (joinLines (splitLinesForCounting content)) ≤
    utf8ByteLength content := by
  by_cases hnil : content = []
  · subst hnil
    exact Nat.le_refl _
  · have hlength := length_joinLines_counted hnil
    omega

theorem overByNewline_of_fits (hfits : Fits maxLines maxBytes (splitLinesForCounting content))
    (hover : maxBytes < utf8ByteLength content) : OverByNewline content maxLines maxBytes := by
  have hne : content ≠ [] := by
    intro hnil
    rw [hnil, utf8ByteLength] at hover
    have hbytes := hfits.2
    omega
  have hlength := length_joinLines_counted hne
  have hbytes := hfits.2
  by_cases hend : content.getLast? = some newline
  · rw [if_pos hend] at hlength
    exact ⟨hfits.1, hend, by omega⟩
  · rw [if_neg hend] at hlength
    omega

theorem fits_of_overByNewline (h : OverByNewline content maxLines maxBytes) :
    Fits maxLines maxBytes (splitLinesForCounting content) := by
  obtain ⟨hlines, hend, hbytes⟩ := h
  have hne : content ≠ [] := by
    intro hnil
    rw [hnil] at hend
    cases hend
  have hlength := length_joinLines_counted hne
  rw [if_pos hend] at hlength
  exact ⟨hlines, by omega⟩

theorem exceeds_iff : (∃ limit, Exceeds content maxLines maxBytes limit) ↔
    ¬ ((splitLinesForCounting content).length ≤ maxLines ∧ utf8ByteLength content ≤ maxBytes) := by
  constructor
  · rintro ⟨limit, h⟩ ⟨hlines, hbytes⟩
    cases limit with
    | lines => exact absurd hlines (Int.not_le.mpr h)
    | bytes => exact absurd hbytes (Int.not_le.mpr h)
  · intro h
    by_cases hlines : (splitLinesForCounting content).length ≤ maxLines
    · exact ⟨.bytes, Int.not_le.mp fun hbytes => h ⟨hlines, hbytes⟩⟩
    · exact ⟨.lines, Int.not_le.mp hlines⟩

theorem reports_whole (h : (splitLinesForCounting content).length ≤ maxLines ∧
    utf8ByteLength content ≤ maxBytes) : Reports content maxLines maxBytes
      (whole content (splitLinesForCounting content).length (utf8ByteLength content) maxLines
        maxBytes) where
  truncated := ⟨fun htrue => (nomatch htrue), fun hover => absurd h (exceeds_iff.mp hover)⟩
  named := rfl
  exceeded := nofun
  totalLines := rfl
  totalBytes := rfl
  outputBytes := rfl

theorem exceeds_bytes_of_block {kept front back : List Text}
    (hsplit : splitLinesForCounting content = front ++ kept ++ back)
    (h : maxBytes < utf8ByteLength (joinLines kept)) :
    Exceeds content maxLines maxBytes .bytes := by
  have hback := utf8ByteLength_joinLines_front (front ++ kept) back
  have hfront := utf8ByteLength_joinLines_le front kept
  have hcontent := @joinLines_le_content content
  rw [hsplit] at hcontent
  change maxBytes < utf8ByteLength content
  omega

/-- The lines that the loop of `truncate_head` keeps, and the reason it leaves. -/
theorem head_kept (hlines : 0 < maxLines) (hbytes : 0 < maxBytes)
    (hover : ∃ limit, Exceeds content maxLines maxBytes limit) {collected : Collected}
    (hcollected : collected = collectHead maxBytes
      (PythonText.slice (splitLinesForCounting content) 0 maxLines) [] 0) :
    LongestHead maxLines maxBytes (splitLinesForCounting content) collected.lines ∧
      (Exceeds content maxLines maxBytes (collected.reason maxLines maxBytes) ↔
        ¬ OverByNewline content maxLines maxBytes) := by
  rw [slice_fromStart _ (by omega)] at hcollected
  obtain ⟨taken, rest, htake, hkept, hfits, hstop⟩ := @collectHead_collects maxBytes
    ((splitLinesForCounting content).take maxLines.toNat) [] (Int.le_of_lt hbytes)
  change (collectHead maxBytes (take _ _) [] 0).lines = _ at hkept
  change _ ∧ (collectHead maxBytes (take _ _) [] 0).truncatedBy = _ ∨
    _ ∧ (collectHead maxBytes (take _ _) [] 0).truncatedBy = _ at hstop
  rw [← hcollected, nil_append] at hkept
  rw [← hcollected] at hstop
  rw [nil_append] at hfits hstop
  have hsplit : splitLinesForCounting content =
      taken ++ (rest ++ (splitLinesForCounting content).drop maxLines.toNat) := by
    rw [← append_assoc, ← htake, take_append_drop]
  have hlength := congrArg length htake
  rw [length_take, length_append] at hlength
  have hboth : Fits maxLines maxBytes taken := ⟨by omega, hfits⟩
  rw [hkept]
  rcases hstop with ⟨hend, hreason⟩ | ⟨⟨line, more, hnext, hlong⟩, hreason⟩
  · -- the loop went through all the lines that the line limit allows
    have hlines : collected.reason maxLines maxBytes = .lines := by
      rw [Collected.reason, hreason, ite_self]
    rw [hend, length_nil] at hlength
    constructor
    · rw [hsplit, hend, nil_append]
      apply longestHead_of_next hboth
      intro line more hnext hfitsNext
      have hleft := congrArg length hnext
      have hmost := hfitsNext.1
      rw [length_drop, length_cons] at hleft
      rw [length_append, length_singleton] at hmost
      omega
    · rw [hlines]
      constructor
      · intro hmany hnewline
        exact absurd hnewline.1 (Int.not_le.mpr hmany)
      · intro hnewline
        by_contra hfew
        have hall : taken = splitLinesForCounting content := by
          rw [hsplit, hend, nil_append, drop_eq_nil_of_le, append_nil]
          exact Int.ofNat_le.mp (by rw [Int.toNat_of_nonneg (by omega)]; exact Int.not_lt.mp hfew)
        rw [hall] at hboth
        obtain ⟨limit, hlimit⟩ := hover
        cases limit with
        | lines => exact hfew hlimit
        | bytes => exact hnewline (overByNewline_of_fits hboth hlimit)
  · -- the next line is over the byte limit
    rw [hnext, length_cons] at hlength
    have hbytes : collected.reason maxLines maxBytes = .bytes := by
      rw [Collected.reason, hreason, hkept, if_neg (by omega)]
    have hexceeds : Exceeds content maxLines maxBytes .bytes := by
      apply @exceeds_bytes_of_block _ _ _ (taken ++ [line]) [] _ _ hlong
      · exact more ++ (splitLinesForCounting content).drop maxLines.toNat
      · rw [nil_append, append_assoc, singleton_append]
        rw [hnext] at hsplit
        exact hsplit
    constructor
    · rw [hsplit, hnext]
      apply longestHead_of_next hboth
      intro other others heq hfitsNext
      rw [← (cons.inj heq).1] at hfitsNext
      exact absurd hfitsNext.2 (Int.not_le.mpr hlong)
    · rw [hbytes]
      refine ⟨fun _ hnewline => ?_, fun _ => hexceeds⟩
      have hall := (fits_of_overByNewline hnewline).2
      have hle := utf8ByteLength_joinLines_front (taken ++ [line])
        (more ++ (splitLinesForCounting content).drop maxLines.toNat)
      rw [append_assoc, singleton_append] at hle
      rw [hnext] at hsplit
      rw [hsplit, cons_append] at hall
      omega

theorem joinLines_singleton (line : Text) : joinLines [line] = line := intercalate_singleton

theorem over_ne_nil (hlines : 0 < maxLines) (hbytes : 0 < maxBytes)
    (hover : ∃ limit, Exceeds content maxLines maxBytes limit) :
    splitLinesForCounting content ≠ [] := by
  apply splitLinesForCounting_ne_nil
  rintro rfl
  apply exceeds_iff.mp hover
  exact ⟨Int.le_of_lt hlines, Int.le_of_lt hbytes⟩

variable {first last : Text}

theorem longestHead_nil (rest : List Text) (hlines : 0 < maxLines) (hbytes : 0 < maxBytes)
    (hfirst : maxBytes < utf8ByteLength first) :
    LongestHead maxLines maxBytes (first :: rest) [] := by
  apply @longestHead_of_next _ _ []
  · exact ⟨Int.le_of_lt hlines, Int.le_of_lt hbytes⟩
  · intro line more heq hfits
    have hbytes := hfits.2
    rw [nil_append, joinLines_singleton, ← (cons.inj heq).1] at hbytes
    omega

theorem first_fits {rest : List Text} (hfits : Fits maxLines maxBytes (first :: rest)) :
    utf8ByteLength first ≤ maxBytes := by
  have hbytes := (@Fits.front _ _ [first] _ hfits).2
  rwa [joinLines_singleton] at hbytes

theorem truncateHead_honest_iff (hlines : 0 < maxLines) (hbytes : 0 < maxBytes) :
    ∃ result, truncateHead content maxLines maxBytes = some result ∧
      (HonestHead content maxLines maxBytes result ↔ ¬ OverByNewline content maxLines maxBytes) := by
  unfold truncateHead
  by_cases hwithin : (splitLinesForCounting content).length ≤ maxLines ∧
      utf8ByteLength content ≤ maxBytes
  · simp only [if_pos hwithin]
    refine ⟨_, rfl, ?_⟩
    constructor
    · intro _ hnewline
      have hbytes := hnewline.2.2
      omega
    · intro _
      exact { reports_whole hwithin with
        whole := fun _ => ⟨rfl, rfl⟩
        kept := fun htrue => (nomatch htrue) }
  · have hover := exceeds_iff.mpr hwithin
    simp only [if_neg hwithin]
    cases hsplit : splitLinesForCounting content with
    | nil => exact absurd hsplit (over_ne_nil hlines hbytes hover)
    | cons first rest =>
      dsimp only
      by_cases hfirst : maxBytes < utf8ByteLength first
      · rw [if_pos hfirst]
        refine ⟨_, rfl, ?_⟩
        constructor
        · intro _ hnewline
          have hfits := fits_of_overByNewline hnewline
          rw [hsplit] at hfits
          have hshort := first_fits hfits
          omega
        · intro _
          refine { truncated := ⟨fun _ => hover, fun _ => rfl⟩, named := rfl, exceeded := ?_,
                   totalLines := by rw [hsplit], totalBytes := rfl, outputBytes := rfl,
                   whole := fun hfalse => (nomatch hfalse), kept := fun _ => ⟨[], ?_, rfl, rfl⟩ }
          · intro limit hlimit
            rw [← some.inj hlimit]
            apply @exceeds_bytes_of_block _ _ _ [first] [] rest
            · rw [hsplit]
              rfl
            · rwa [joinLines_singleton]
          · rw [hsplit]
            exact longestHead_nil rest hlines hbytes hfirst
      · rw [if_neg hfirst]
        refine ⟨_, rfl, ?_⟩
        obtain ⟨hlongest, hreason⟩ := @head_kept _ _ _ hlines hbytes hover
          (collectHead maxBytes (PythonText.slice (first :: rest) 0 maxLines) [] 0) (by rw [hsplit])
        rw [← hreason]
        constructor
        · intro h
          exact h.exceeded _ rfl
        · intro hexceeds
          refine { truncated := ⟨fun _ => hover, fun _ => rfl⟩, named := rfl, exceeded := ?_,
                   totalLines := by rw [hsplit], totalBytes := rfl, outputBytes := rfl,
                   whole := fun hfalse => (nomatch hfalse), kept := fun _ => ⟨_, hlongest, rfl, rfl⟩ }
          intro limit hlimit
          rw [← some.inj hlimit]
          exact hexceeds

/-- The lines that the loop of `truncate_tail` keeps when the last one is not too long, and the
reason it leaves. -/
theorem tail_kept (hlines : 0 < maxLines) (hbytes : 0 < maxBytes)
    (hover : ∃ limit, Exceeds content maxLines maxBytes limit)
    (hlast : ∀ last, ¬ LastTooLong content maxBytes last) :
    LongestTail maxLines maxBytes (splitLinesForCounting content)
        (collected maxLines maxBytes content).lines ∧
      (Exceeds content maxLines maxBytes
          ((collected maxLines maxBytes content).reason maxLines maxBytes) ↔
        ¬ OverByNewline content maxLines maxBytes) := by
  obtain ⟨taken, rest, htake, hkept, hboth, hstop⟩ := @collectTail_collects maxLines
    maxBytes (splitLinesForCounting content).reverse []
    ⟨Int.le_of_lt hlines, Int.le_of_lt hbytes⟩ (by
      intro _ line more heq
      by_contra hlong
      apply hlast line
      refine ⟨?_, Int.not_le.mp hlong⟩
      rw [← head?_reverse, heq, head?_cons])
  change (collected maxLines maxBytes content).lines = _ at hkept
  change _ ∧ (collected maxLines maxBytes content).truncatedBy = _ ∨
    _ ∧ (collected maxLines maxBytes content).truncatedBy = _ at hstop
  rw [append_nil] at hkept hboth hstop
  have hsplit : splitLinesForCounting content = rest.reverse ++ taken.reverse := by
    rw [← reverse_append, ← htake, reverse_reverse]
  rw [hkept]
  rcases hstop with ⟨hend, hreason⟩ | ⟨⟨hroom, line, more, hnext, hlong⟩, hreason⟩
  · have hlines : (collected maxLines maxBytes content).reason maxLines maxBytes = .lines := by
      rw [Collected.reason, hreason, ite_self]
    constructor
    · rw [hsplit]
      apply longestTail_of_next hboth
      intro above line hnext hfitsNext
      have hmost := hfitsNext.1
      rw [length_cons] at hmost
      rcases hend with hend | hfull
      · rw [hend, reverse_nil] at hnext
        exact absurd hnext.symm (append_ne_nil_of_right_ne_nil _ (cons_ne_nil _ _))
      · omega
    · rw [hlines]
      constructor
      · intro hmany hnewline
        exact absurd hnewline.1 (Int.not_le.mpr hmany)
      · intro hnewline
        by_contra hfew
        have hall : rest = [] := by
          rcases hend with hend | hfull
          · exact hend
          · have hlength := congrArg length hsplit
            rw [length_append, length_reverse] at hlength
            apply length_eq_zero_iff.mp
            have hmost : ((splitLinesForCounting content).length : ℤ) ≤ maxLines :=
              Int.not_lt.mp hfew
            omega
        rw [hall, reverse_nil, nil_append] at hsplit
        rw [← hsplit] at hboth
        obtain ⟨limit, hlimit⟩ := hover
        cases limit with
        | lines => exact hfew hlimit
        | bytes => exact hnewline (overByNewline_of_fits hboth hlimit)
  · -- the line above is over the byte limit
    have hbytes : (collected maxLines maxBytes content).reason maxLines maxBytes = .bytes := by
      rw [Collected.reason, hreason, hkept, if_neg (by omega)]
    have habove : splitLinesForCounting content = more.reverse ++ (line :: taken.reverse) := by
      rw [hsplit, hnext, reverse_cons, append_assoc, singleton_append]
    have hexceeds : Exceeds content maxLines maxBytes .bytes := by
      apply @exceeds_bytes_of_block _ _ _ _ more.reverse [] _ hlong
      rw [append_nil, habove]
    constructor
    · rw [hsplit, hnext]
      apply longestTail_of_next hboth
      intro above other heq hfitsNext
      rw [reverse_cons] at heq
      rw [← singleton_inj.mp (append_inj_right' heq rfl)] at hfitsNext
      exact absurd hfitsNext.2 (Int.not_le.mpr hlong)
    · rw [hbytes]
      refine ⟨fun _ hnewline => ?_, fun _ => hexceeds⟩
      have hall := fits_of_overByNewline hnewline
      rw [habove] at hall
      exact absurd hall.back.2 (Int.not_le.mpr hlong)

theorem lastTooLong_exceeds (h : LastTooLong content maxBytes last) :
    Exceeds content maxLines maxBytes .bytes := by
  obtain ⟨above, hsplit⟩ := getLast?_eq_some_iff.mp h.1
  apply @exceeds_bytes_of_block _ _ _ [last] above []
  · rw [hsplit, append_nil]
  · rw [joinLines_singleton]
    exact h.2

theorem OneLongLine.lastTooLong (h : OneLongLine content maxLines maxBytes) :
    ∃ last, LastTooLong content maxBytes last := by
  obtain ⟨_, line, hsplit, hlong⟩ := h
  refine ⟨line, ?_, hlong⟩
  rw [hsplit, getLast?_singleton]

theorem tail_cut (hlines : 0 < maxLines) (hbytes : 0 < maxBytes)
    (hlast : LastTooLong content maxBytes last) : ∃ cut, LongestEnd maxBytes last cut ∧
      (collected maxLines maxBytes content).lines = [replaceUnpairedSurrogates cut] ∧
      (Exceeds content maxLines maxBytes
          ((collected maxLines maxBytes content).reason maxLines maxBytes) ↔
        ¬ OneLongLine content maxLines maxBytes) := by
  obtain ⟨above, hsplit⟩ := getLast?_eq_some_iff.mp hlast.1
  obtain ⟨cut, hcut, htruncated⟩ := truncateStringToBytesFromEnd_longest hbytes last
  obtain ⟨hkept, hreason⟩ := collected_partial hlines hsplit hlast.2
  rw [htruncated] at hkept
  rw [htruncated, utf8ByteLength_replaceUnpairedSurrogates] at hreason
  refine ⟨cut, hcut, hkept, ?_⟩
  by_cases hone : maxLines ≤ 1
  · rw [hreason, if_pos ⟨hone, hcut.2.1⟩]
    have hlength := congrArg length hsplit
    rw [length_append, length_singleton] at hlength
    constructor
    · intro hmany hlong
      obtain ⟨_, line, hline, _⟩ := hlong
      rw [Exceeds, hline, length_singleton] at hmany
      omega
    · intro hlong
      change maxLines < (splitLinesForCounting content).length
      cases above with
      | nil => exact absurd ⟨by omega, last, hsplit, hlast.2⟩ hlong
      | cons line above =>
        rw [length_cons] at hlength
        omega
  · rw [hreason, if_neg fun h => hone h.1]
    refine ⟨fun _ hlong => ?_, fun _ => lastTooLong_exceeds hlast⟩
    have hmaxLines := hlong.1
    omega

theorem truncateTail_honest_iff (hlines : 0 < maxLines) (hbytes : 0 < maxBytes) :
    HonestTail content maxLines maxBytes (truncateTail content maxLines maxBytes) ↔
      ¬ OverByNewline content maxLines maxBytes ∧ ¬ OneLongLine content maxLines maxBytes := by
  unfold truncateTail
  by_cases hwithin : (splitLinesForCounting content).length ≤ maxLines ∧
      utf8ByteLength content ≤ maxBytes
  · rw [if_pos hwithin]
    have hshort : ∀ last, ¬ LastTooLong content maxBytes last := by
      intro last hlast
      have hover : Exceeds content maxLines maxBytes .bytes := lastTooLong_exceeds hlast
      exact absurd hwithin (exceeds_iff.mp ⟨_, hover⟩)
    constructor
    · intro _
      refine ⟨fun hnewline => ?_, fun hlong => ?_⟩
      · have hbytes := hnewline.2.2
        omega
      · obtain ⟨last, hlast⟩ := hlong.lastTooLong
        exact hshort last hlast
    · intro _
      exact { reports_whole hwithin with
        whole := fun _ => ⟨rfl, rfl⟩
        kept := fun htrue => (nomatch htrue)
        cut := fun last hlast => absurd hlast (hshort last) }
  · have hover := exceeds_iff.mpr hwithin
    rw [if_neg hwithin]
    by_cases hlast : ∃ last, LastTooLong content maxBytes last
    · obtain ⟨last, hlast⟩ := hlast
      obtain ⟨cut, hcut, hkept, hreason⟩ := tail_cut hlines hbytes hlast
      have hnewline : ¬ OverByNewline content maxLines maxBytes := by
        intro hnewline
        obtain ⟨above, hsplit⟩ := getLast?_eq_some_iff.mp hlast.1
        have hfits := fits_of_overByNewline hnewline
        rw [hsplit] at hfits
        have hshort := hfits.back.2
        rw [joinLines_singleton] at hshort
        exact absurd hshort (Int.not_le.mpr hlast.2)
      rw [← hreason]
      constructor
      · intro h
        exact ⟨hnewline, h.exceeded _ rfl⟩
      · intro h
        refine { truncated := ⟨fun _ => hover, fun _ => rfl⟩, named := rfl, exceeded := ?_,
                 totalLines := rfl, totalBytes := rfl, outputBytes := rfl,
                 whole := fun hfalse => (nomatch hfalse),
                 kept := fun _ hshort => absurd hlast (hshort last), cut := ?_ }
        · intro limit hlimit
          rw [← some.inj hlimit]
          exact h.2
        · intro other hother
          rw [← some.inj (hlast.1.symm.trans hother.1)]
          refine ⟨cut, hcut, ?_, ?_⟩
          · exact congrArg joinLines hkept
          · exact congrArg length hkept
    · have hshort : ∀ last, ¬ LastTooLong content maxBytes last :=
        fun last h => hlast ⟨last, h⟩
      obtain ⟨hlongest, hreason⟩ := tail_kept hlines hbytes hover hshort
      have hone : ¬ OneLongLine content maxLines maxBytes := fun h => hlast h.lastTooLong
      rw [← hreason]
      constructor
      · intro h
        exact ⟨h.exceeded _ rfl, hone⟩
      · intro h
        refine { truncated := ⟨fun _ => hover, fun _ => rfl⟩, named := rfl, exceeded := ?_,
                 totalLines := rfl, totalBytes := rfl, outputBytes := rfl,
                 whole := fun hfalse => (nomatch hfalse),
                 kept := fun _ _ => ⟨_, hlongest, rfl, rfl⟩,
                 cut := fun last h => absurd h (hshort last) }
        intro limit hlimit
        rw [← some.inj hlimit]
        exact h.1

theorem truncation_honest_iff (hlines : 0 < maxLines) (hbytes : 0 < maxBytes) :
    Honest content maxLines maxBytes ↔
      ¬ OverByNewline content maxLines maxBytes ∧ ¬ OneLongLine content maxLines maxBytes := by
  obtain ⟨result, hresult, hhead⟩ := @truncateHead_honest_iff content _ _ hlines hbytes
  rw [Honest, truncateTail_honest_iff hlines hbytes]
  constructor
  · exact fun h => h.2
  · intro h
    exact ⟨⟨result, hresult, hhead.mpr h.1⟩, h⟩

/-- A line that just fits loses its newline, and the line limit gets the blame. -/
theorem newline_blamed_on_lines : ¬ Honest (codePoints "ab\n".toList) 5 2 := by
  rintro ⟨⟨result, hresult, hhead⟩, -⟩
  have hreason : (truncateHead (codePoints "ab\n".toList) 5 2).bind
      TruncationResult.truncatedBy = some .lines := by decide
  rw [hresult] at hreason
  have hmany : 5 < ((splitLinesForCounting (codePoints "ab\n".toList)).length : ℤ) :=
    hhead.exceeded .lines hreason
  exact absurd hmany (by decide)

theorem truncation_honest_iff_twoLines :
    Honest (codePoints "ab\ncd".toList) 1 9 ↔
      ¬ OverByNewline (codePoints "ab\ncd".toList) 1 9 ∧
        ¬ OneLongLine (codePoints "ab\ncd".toList) 1 9 :=
  truncation_honest_iff (by decide) (by decide)

end Honesty

end Pidrei.TruncationHonesty
