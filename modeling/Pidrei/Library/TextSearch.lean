import Mathlib.Data.List.Basic

/-!
Searching and replacing a pattern as `str.find`, `str.count` and `str.replace` do,
and texts that differ in some regions only.
-/
namespace TextSearch

open List

variable {α : Type*} [DecidableEq α]

/-- The first position of the pattern. -/
def find (pattern : List α) : List α → Option ℕ
  | [] => if pattern.isEmpty then some 0 else none
  | c :: rest =>
    if pattern.isPrefixOf (c :: rest) then some 0 else (find pattern rest).map (· + 1)

/-- Count matches from left to right; `skip` elements still belong to the last match. -/
def countFrom (pattern : List α) : ℕ → List α → ℕ
  | _, [] => 0
  | skip + 1, _ :: rest => countFrom pattern skip rest
  | 0, c :: rest =>
    if pattern.isPrefixOf (c :: rest) then countFrom pattern (pattern.length - 1) rest + 1
    else countFrom pattern 0 rest

/-- The number of matches that do not overlap; the empty pattern is everywhere. -/
def count (pattern text : List α) : ℕ :=
  if pattern.isEmpty then text.length + 1 else countFrom pattern 0 text

def replaceFrom (pattern replacement : List α) : ℕ → List α → List α
  | _, [] => []
  | skip + 1, _ :: rest => replaceFrom pattern replacement skip rest
  | 0, c :: rest =>
    if pattern.isPrefixOf (c :: rest) then
      replacement ++ replaceFrom pattern replacement (pattern.length - 1) rest
    else c :: replaceFrom pattern replacement 0 rest

def replace (pattern replacement text : List α) : List α := replaceFrom pattern replacement 0 text

def OccursAt (pattern text : List α) (position : ℕ) : Prop :=
  ∃ before after, text = before ++ (pattern ++ after) ∧ before.length = position

variable {pattern text : List α} {position : ℕ}

omit [DecidableEq α] in
theorem occursAt_cons (c : α) (h : OccursAt pattern text position) :
    OccursAt pattern (c :: text) (position + 1) := by
  obtain ⟨before, after, rfl, rfl⟩ := h
  exact ⟨c :: before, after, rfl, rfl⟩

theorem occursAt_zero (h : pattern.isPrefixOf text = true) : OccursAt pattern text 0 := by
  obtain ⟨after, rfl⟩ := isPrefixOf_iff_prefix.mp h
  exact ⟨[], after, rfl, rfl⟩

theorem find_occursAt (h : find pattern text = some position) : OccursAt pattern text position := by
  induction text generalizing position with
  | nil =>
    simp only [find] at h
    split at h
    · rename_i hempty
      cases h
      exact ⟨[], [], by rw [isEmpty_iff.mp hempty]; rfl, rfl⟩
    · cases h
  | cons c text ih =>
    simp only [find] at h
    split at h
    · rename_i hprefix
      cases h
      exact occursAt_zero hprefix
    · obtain ⟨found, hfound, rfl⟩ := Option.map_eq_some_iff.mp h
      exact occursAt_cons c (ih hfound)

theorem find_isSome (h : OccursAt pattern text position) : (find pattern text).isSome := by
  induction text generalizing position with
  | nil =>
    obtain ⟨before, after, htext, rfl⟩ := h
    obtain ⟨_, hpattern⟩ := append_eq_nil_iff.mp htext.symm
    rw [(append_eq_nil_iff.mp hpattern).1]
    rfl
  | cons c text ih =>
    obtain ⟨before, after, htext, hposition⟩ := h
    simp only [find]
    split
    · rfl
    · rename_i hprefix
      cases before with
      | nil =>
        exact absurd ( isPrefixOf_iff_prefix.mpr ⟨after, htext.symm⟩) hprefix
      | cons d before =>
        obtain ⟨_, htext⟩ := cons.inj htext
        rw [Option.isSome_map]
        exact ih ⟨before, after, htext, rfl⟩

theorem find_eq_none_iff :
    find pattern text = none ↔ ∀ position, ¬ OccursAt pattern text position := by
  constructor
  · intro h position hposition
    have hsome := find_isSome hposition
    rw [h] at hsome
    cases hsome
  · intro h
    cases hfind : find pattern text with
    | none => rfl
    | some position => exact absurd (find_occursAt hfind) (h position)

omit [DecidableEq α] in
theorem occursAt_succ_iff (c : α) :
    OccursAt pattern (c :: text) (position + 1) ↔ OccursAt pattern text position := by
  constructor
  · rintro ⟨before, after, htext, hposition⟩
    cases before with
    | nil => cases hposition
    | cons d before =>
      exact ⟨before, after, (cons.inj htext).2, Nat.succ.inj hposition⟩
  · exact occursAt_cons c

theorem occursAt_zero_iff : OccursAt pattern text 0 ↔ pattern.isPrefixOf text = true := by
  constructor
  · rintro ⟨before, after, htext, hposition⟩
    rw [eq_nil_of_length_eq_zero hposition] at htext
    exact isPrefixOf_iff_prefix.mpr ⟨after, htext.symm⟩
  · exact occursAt_zero

omit [DecidableEq α] in
theorem occursAt_nil (h : OccursAt pattern [] position) : pattern = [] := by
  obtain ⟨before, after, htext, _⟩ := h
  exact (append_eq_nil_iff.mp (append_eq_nil_iff.mp htext.symm).2).1

attribute [local simp] countFrom in
/-- Behind the elements to skip, a match is counted just when there is a position. -/
theorem countFrom_pos_iff (hpattern : pattern ≠ []) (skip : ℕ) (text : List α) :
    0 < countFrom pattern skip text ↔ ∃ position, skip ≤ position ∧
      OccursAt pattern text position := by
  induction text generalizing skip with
  | nil =>
    constructor
    · intro h
      cases skip <;> exact absurd h (Nat.lt_irrefl 0)
    · rintro ⟨position, _, hposition⟩
      exact absurd (occursAt_nil hposition) hpattern
  | cons c text ih =>
    cases skip with
    | succ skip =>
      rw [countFrom, ih]
      constructor
      · rintro ⟨position, hskip, hposition⟩
        exact ⟨position + 1, by omega, occursAt_cons c hposition⟩
      · rintro ⟨position, hskip, hposition⟩
        obtain ⟨position, rfl⟩ : ∃ k, position = k + 1 := ⟨position - 1, by omega⟩
        exact ⟨position, by omega, (occursAt_succ_iff c).mp hposition⟩
    | zero =>
      rw [countFrom]
      split
      · rename_i hprefix
        exact ⟨fun _ => ⟨0, Nat.le_refl 0, occursAt_zero hprefix⟩, fun _ => Nat.succ_pos _⟩
      · rename_i hprefix
        rw [ih]
        constructor
        · rintro ⟨position, _, hposition⟩
          exact ⟨position + 1, Nat.zero_le _, occursAt_cons c hposition⟩
        · rintro ⟨position, _, hposition⟩
          cases position with
          | zero => exact absurd (occursAt_zero_iff.mp hposition) hprefix
          | succ position =>
            exact ⟨position, Nat.zero_le _, (occursAt_succ_iff c).mp hposition⟩

/-- Two positions whose matches do not overlap. -/
def OccursTwice (pattern text : List α) : Prop :=
  ∃ p q, p < q ∧ p + pattern.length ≤ q ∧ OccursAt pattern text p ∧ OccursAt pattern text q

theorem one_lt_countFrom_iff (hpattern : pattern ≠ []) (text : List α) :
    1 < countFrom pattern 0 text ↔ OccursTwice pattern text := by
  have hlength := length_pos_of_ne_nil hpattern
  induction text with
  | nil =>
    constructor
    · intro h
      exact absurd h (Nat.not_lt_zero 1)
    · rintro ⟨p, _, _, _, hp, _⟩
      exact absurd (occursAt_nil hp) hpattern
  | cons c text ih =>
    rw [countFrom]
    split
    · rename_i hprefix
      rw [Nat.lt_add_left_iff_pos, countFrom_pos_iff hpattern]
      constructor
      · rintro ⟨position, hskip, hposition⟩
        exact ⟨0, position + 1, by omega, by omega, occursAt_zero hprefix,
          occursAt_cons c hposition⟩
      · rintro ⟨p, q, hpq, hapart, _, hq⟩
        obtain ⟨q, rfl⟩ : ∃ k, q = k + 1 := ⟨q - 1, by omega⟩
        exact ⟨q, by omega, (occursAt_succ_iff c).mp hq⟩
    · rename_i hprefix
      refine ih.trans ?_
      constructor
      · rintro ⟨p, q, hpq, hapart, hp, hq⟩
        exact ⟨p + 1, q + 1, by omega, by omega, occursAt_cons c hp, occursAt_cons c hq⟩
      · rintro ⟨p, q, hpq, hapart, hp, hq⟩
        cases p with
        | zero => exact absurd (occursAt_zero_iff.mp hp) hprefix
        | succ p =>
          obtain ⟨q, rfl⟩ : ∃ k, q = k + 1 := ⟨q - 1, by omega⟩
          exact ⟨p, q, by omega, by omega, (occursAt_succ_iff c).mp hp,
            (occursAt_succ_iff c).mp hq⟩

/-- The count tells an ambiguous pattern only by two positions that do not overlap. -/
theorem one_lt_count_iff (pattern text : List α) :
    1 < count pattern text ↔ OccursTwice pattern text := by
  by_cases hpattern : pattern = []
  · subst hpattern
    rw [count, isEmpty_nil, if_pos rfl]
    constructor
    · intro h
      cases text with
      | nil => exact absurd h (Nat.lt_irrefl 1)
      | cons c text =>
        exact ⟨0, 1, Nat.zero_lt_one, Nat.zero_le _, ⟨[], c :: text, rfl, rfl⟩,
          ⟨[c], text, rfl, rfl⟩⟩
    · rintro ⟨p, q, hpq, _, _, ⟨before, after, htext, hbefore⟩⟩
      rw [htext, length_append]
      omega
  · rw [count, if_neg (by rwa [List.isEmpty_iff])]
    exact one_lt_countFrom_iff hpattern text

omit [DecidableEq α] in
/-- Two texts with the same gaps around the regions of the list: each region holds the first
of its two texts on the left and the second on the right. -/
inductive Edited : List (List α × List α) → List α → List α → Prop
  | unchanged (gap : List α) : Edited [] gap gap
  | region (gap : List α) (change : List α × List α) {changes : List (List α × List α)}
      {rest rest' : List α} (h : Edited changes rest rest') :
      Edited (change :: changes) (gap ++ (change.1 ++ rest)) (gap ++ (change.2 ++ rest'))

section Markers

variable {head : α} {tail : List α} {pattern text before : List α} {first : ℕ} {after : List α}

theorem find_le (hfind : find pattern text = some first) (h : OccursAt pattern text position) :
    first ≤ position := by
  induction text generalizing first position with
  | nil =>
    simp only [find] at hfind
    split at hfind
    · cases hfind
      omega
    · cases hfind
  | cons c text ih =>
    simp only [find] at hfind
    split at hfind
    · cases hfind
      omega
    · rename_i hprefix
      obtain ⟨found, hfound, rfl⟩ := Option.map_eq_some_iff.mp hfind
      cases position with
      | zero => exact absurd (occursAt_zero_iff.mp h) hprefix
      | succ position =>
        have hle := ih hfound ((occursAt_succ_iff c).mp h)
        omega

omit [DecidableEq α] in
theorem infix_iff_occursAt : pattern <:+: text ↔ ∃ position, OccursAt pattern text position := by
  constructor
  · rintro ⟨before, after, rfl⟩
    exact ⟨before.length, before, after, append_assoc .., rfl⟩
  · rintro ⟨_, before, after, rfl, _⟩
    exact ⟨before, after, append_assoc ..⟩

theorem find_eq_none_iff_infix : find pattern text = none ↔ ¬ pattern <:+: text := by
  rw [find_eq_none_iff, infix_iff_occursAt, not_exists]

/-- What stands before the first match holds no match. -/
theorem find_some_split (hpattern : pattern ≠ []) (h : find pattern text = some first) :
    ∃ before after, text = before ++ (pattern ++ after) ∧ before.length = first ∧
      ¬ pattern <:+: before := by
  obtain ⟨before, after, rfl, rfl⟩ := find_occursAt h
  refine ⟨before, after, rfl, rfl, fun hinside => ?_⟩
  obtain ⟨left, right, rfl⟩ := hinside
  have hle : _ ≤ left.length := find_le h
    ⟨left, right ++ (pattern ++ after), by simp only [append_assoc], rfl⟩
  have hpos : 0 < pattern.length := length_pos_iff.mpr hpattern
  simp only [length_append] at hle
  omega

theorem exists_first_split (hpattern : pattern ≠ []) (h : pattern <:+: text) :
    ∃ before after, text = before ++ (pattern ++ after) ∧ ¬ pattern <:+: before := by
  have hfind : find pattern text ≠ none := fun hnone => find_eq_none_iff_infix.mp hnone h
  obtain ⟨first, hfirst⟩ := Option.ne_none_iff_exists'.mp hfind
  obtain ⟨before, after, htext, _, hbefore⟩ := find_some_split hpattern hfirst
  exact ⟨before, after, htext, hbefore⟩

omit [DecidableEq α] in
/-- A marker whose first element stands nowhere else in it never overlaps itself. -/
theorem le_position_of_occursAt (hhead : head ∉ tail) (hbefore : ¬ head :: tail <:+: before)
    (h : OccursAt (head :: tail) (before ++ (head :: tail ++ after)) position) :
    before.length ≤ position := by
  obtain ⟨left, right, htext, rfl⟩ := h
  by_contra hlt
  rcases append_eq_append_iff.mp htext with ⟨between, rfl, _⟩ | ⟨between, rfl, hright⟩
  · simp only [length_append] at hlt
    omega
  · rcases append_eq_append_iff.mp hright with ⟨rest, rfl, _⟩ | ⟨rest, hmarker, hrest⟩
    · exact hbefore ⟨left, rest, by simp only [append_assoc]⟩
    · cases between with
      | nil =>
        simp only [append_nil] at hlt
        omega
      | cons c between =>
        cases hmarker
        cases rest with
        | nil =>
          exact hbefore ⟨left, [], by simp⟩
        | cons d rest =>
          obtain ⟨rfl, _⟩ := cons.inj hrest
          exact hhead (mem_append_right _ mem_cons_self)

/-- The search finds the marker right behind a text without it. -/
theorem find_marker (hhead : head ∉ tail) (after : List α) (hbefore : ¬ head :: tail <:+: before) :
    find (head :: tail) (before ++ (head :: tail ++ after)) = some before.length := by
  have hoccurs : OccursAt (head :: tail) (before ++ (head :: tail ++ after)) before.length :=
    ⟨before, after, rfl, rfl⟩
  obtain ⟨first, hfirst⟩ := Option.isSome_iff_exists.mp (find_isSome hoccurs)
  have hle := find_le hfirst hoccurs
  have hge := le_position_of_occursAt hhead hbefore (find_occursAt hfirst)
  rw [hfirst]
  exact congrArg some (by omega)

end Markers

end TextSearch
