import Mathlib.Data.List.Infix

/-!
Replacing the words of a text by a function of the word, from left to right. A
word opens with an element that stands nowhere else in a word, so words never
overlap and a kept word is passed as a whole. Two substitutions made one after the
other are one substitution when the second finds no word that uses an element the
first has put in. Two substitutions with one result agree on the words, when what
they put in shows from its first element on where they do not.
-/
namespace Substitution

open List

/-- How the word at the head of a text is found, and how many elements it takes. -/
structure Words (α : Type*) where
  opens : α → Bool
  length : List α → Option ℕ
  opened : ∀ {text : List α} {n : ℕ}, length text = some n → ∃ x rest, text = x :: rest ∧
    opens x = true ∧ 0 < n ∧ n ≤ text.length ∧ ∀ y ∈ rest.take (n - 1), opens y = false
  stable : ∀ {text : List α} {n : ℕ} (more : List α), length text = some n →
    length (text.take n ++ more) = some n

variable {α : Type*} (W : Words α)

/-- Replace the words; `skip` elements still belong to the last word. -/
def subFrom (f : List α → List α) : ℕ → List α → List α
  | _, [] => []
  | skip + 1, _ :: rest => subFrom f skip rest
  | 0, x :: rest =>
    match W.length (x :: rest) with
    | some n => f ((x :: rest).take n) ++ subFrom f (n - 1) rest
    | none => x :: subFrom f 0 rest

def sub (f : List α → List α) (text : List α) : List α := subFrom W f 0 text

/-- The places of the words, as positions of their first element and after their last one. -/
def spansFrom : ℕ → ℕ → List α → List (ℕ × ℕ)
  | _, _, [] => []
  | position, skip + 1, _ :: rest => spansFrom (position + 1) skip rest
  | position, 0, x :: rest =>
    match W.length (x :: rest) with
    | some n => (position, position + n) :: spansFrom (position + 1) (n - 1) rest
    | none => spansFrom (position + 1) 0 rest

def spans (text : List α) : List (ℕ × ℕ) := spansFrom W 0 0 text

def IsWord (word : List α) : Prop := W.length word = some word.length

/-- No word stands at the head of the text. -/
def Plain (text : List α) : Prop := W.length text = none

variable {W} {word text : List α} {span : ℕ × ℕ}

theorem IsWord.length_append (h : IsWord W word) (more : List α) :
    W.length (word ++ more) = some word.length := by
  have hstable := W.stable more h
  rwa [take_length] at hstable

theorem isWord_of_length {n : ℕ} (h : W.length text = some n) :
    IsWord W (text.take n) ∧ (text.take n).length = n := by
  obtain ⟨x, rest, rfl, _, _, hle, _⟩ := W.opened h
  have hn : ((x :: rest).take n).length = n := by
    rw [length_take]
    omega
  have hstable := W.stable [] h
  rw [append_nil] at hstable
  refine ⟨?_, hn⟩
  show W.length _ = some ((x :: rest).take n).length
  rw [hstable, hn]

theorem IsWord.cons {word : List α} (h : IsWord W word) :
    ∃ x rest, word = x :: rest ∧ W.opens x = true ∧ ∀ y ∈ rest, W.opens y = false := by
  obtain ⟨x, rest, rfl, hx, _, _, hrest⟩ := W.opened h
  refine ⟨x, rest, rfl, hx, fun y hy => hrest y ?_⟩
  have hlength : (x :: rest).length - 1 = rest.length := by simp
  rwa [hlength, take_length]

theorem plain_of_not_opens {x : α} (h : W.opens x = false) (text : List α) :
    Plain W (x :: text) := by
  cases hlength : W.length (x :: text) with
  | none => exact hlength
  | some n =>
    obtain ⟨y, rest, heq, hy, _⟩ := W.opened hlength
    rw [(cons.inj heq).1, hy] at h
    cases h

theorem Plain.not_word {more : List α} (h : Plain W (word ++ more)) : ¬ IsWord W word := by
  intro hword
  rw [Plain, hword.length_append] at h
  cases h

section Sub

variable {f g h : List α → List α}

theorem subFrom_skip (skip : ℕ) (text : List α) :
    subFrom W f skip text = sub W f (text.drop skip) := by
  induction text generalizing skip with
  | nil => cases skip <;> rfl
  | cons x rest ih =>
    cases skip with
    | zero => rfl
    | succ skip => exact ih skip

variable {word text : List α} {x : α}

theorem sub_word (hword : IsWord W word) (more : List α) :
    sub W f (word ++ more) = f word ++ sub W f more := by
  obtain ⟨x, rest, rfl, _, _⟩ := hword.cons
  have hlength := hword.length_append more
  rw [cons_append] at hlength ⊢
  show subFrom W f 0 (x :: (rest ++ more)) = _
  rw [subFrom, hlength]
  show f _ ++ _ = _
  rw [subFrom_skip, ← cons_append, take_left, length_cons, Nat.add_sub_cancel, drop_left]

theorem sub_plain (hplain : Plain W (x :: text)) : sub W f (x :: text) = x :: sub W f text := by
  show subFrom W f 0 (x :: text) = _
  rw [subFrom, hplain]
  rfl

theorem scan {holds : List α → Prop} (hnil : holds [])
    (hword : ∀ word more, IsWord W word → holds more → holds (word ++ more))
    (hplain : ∀ x text, Plain W (x :: text) → holds text → holds (x :: text))
    (text : List α) : holds text := by
  induction hn : text.length using Nat.strong_induction_on generalizing text with
  | h n ih =>
    subst hn
    cases text with
    | nil => exact hnil
    | cons x rest =>
      cases hlength : W.length (x :: rest) with
      | none => exact hplain x rest hlength (ih rest.length (by simp) rest rfl)
      | some n =>
        obtain ⟨hw, hwlength⟩ := isWord_of_length hlength
        obtain ⟨_, _, _, _, hpos, _, _⟩ := W.opened hlength
        rw [← take_append_drop n (x :: rest)]
        refine hword _ _ hw (ih _ ?_ _ rfl)
        rw [length_drop, length_cons]
        omega

/-- Elements that open no word are passed one by one. -/
theorem sub_closed {front : List α} (hfront : ∀ x ∈ front, W.opens x = false) (more : List α) :
    sub W f (front ++ more) = front ++ sub W f more := by
  induction front with
  | nil => rfl
  | cons x front ih =>
    rw [cons_append, sub_plain (plain_of_not_opens (hfront x mem_cons_self) _),
      ih fun y hy => hfront y (mem_cons_of_mem _ hy)]
    rfl

theorem sub_self (text : List α) : sub W (fun word => word) text = text := by
  induction text using scan (W := W) with
  | hnil => rfl
  | hword word more hw ih => rw [sub_word hw, ih]
  | hplain x text hx ih => rw [sub_plain hx, ih]

/-- Two substitutions that agree on the words of a text, wherever they stand in it. -/
theorem sub_congr
    (h : ∀ front word more, text = front ++ (word ++ more) → IsWord W word → f word = g word) :
    sub W f text = sub W g text := by
  induction text using scan (W := W) with
  | hnil => rfl
  | hword word more hw ih =>
    have hfirst := h [] word more rfl hw
    have hmore := ih fun front other rest heq =>
      h (word ++ front) other rest (by rw [heq, append_assoc])
    rw [sub_word hw, sub_word hw, hfirst, hmore]
  | hplain x more hplain ih =>
    have hmore := ih fun front other rest heq => h (x :: front) other rest (by rw [heq]; rfl)
    rw [sub_plain hplain, sub_plain hplain, hmore]

theorem forall_mem_sub {holds : α → Prop} (htext : ∀ x ∈ text, holds x)
    (hf : ∀ word, IsWord W word → (∀ x ∈ word, x ∈ text) → ∀ x ∈ f word, holds x) :
    ∀ x ∈ sub W f text, holds x := by
  induction text using scan (W := W) with
  | hnil => exact htext
  | hword word more hw ih =>
    intro x hx
    rw [sub_word hw] at hx
    rcases mem_append.mp hx with hx | hx
    · exact hf word hw (fun y hy => mem_append_left _ hy) x hx
    · exact ih (fun y hy => htext y (mem_append_right _ hy))
        (fun other hother hmem => hf other hother fun y hy => mem_append_right _ (hmem y hy)) x hx
  | hplain y more hplain ih =>
    intro x hx
    rw [sub_plain hplain] at hx
    rcases mem_cons.mp hx with rfl | hx
    · exact htext x mem_cons_self
    · exact ih (fun z hz => htext z (mem_cons_of_mem _ hz))
        (fun other hother hmem => hf other hother fun z hz => mem_cons_of_mem _ (hmem z hz)) x hx

theorem exists_mem_sub {holds : α → Prop}
    (hf : ∀ word, IsWord W word → (∃ x ∈ word, holds x) → ∃ x ∈ f word, holds x)
    (h : ∃ x ∈ text, holds x) : ∃ x ∈ sub W f text, holds x := by
  induction text using scan (W := W) with
  | hnil => exact h
  | hword word more hw ih =>
    simp only [sub_word hw, mem_append, or_and_right, exists_or] at h ⊢
    exact h.imp (hf word hw) ih
  | hplain y more hplain ih =>
    simp only [sub_plain hplain, mem_cons, or_and_right, exists_or] at h ⊢
    exact h.imp id ih

/-- What stands before an opening element is replaced on its own. -/
theorem sub_append (hx : W.opens x = true) (front more : List α) :
    sub W f (front ++ (x :: more)) = sub W f front ++ sub W f (x :: more) := by
  induction front using scan (W := W) with
  | hnil => rfl
  | hword word front hw ih =>
    rw [append_assoc, sub_word hw, sub_word hw, ih, append_assoc]
  | hplain y front hy ih =>
    have hplain : Plain W (y :: (front ++ (x :: more))) := by
      cases hlength : W.length (y :: (front ++ (x :: more))) with
      | none => exact hlength
      | some n =>
        exfalso
        obtain ⟨z, rest, heq, _, hpos, _, hinner⟩ := W.opened hlength
        cases heq
        by_cases hshort : n ≤ front.length + 1
        · obtain ⟨hw, _⟩ := isWord_of_length hlength
          have hsame : (y :: (front ++ (x :: more))).take n ++ (y :: front).drop n = y :: front := by
            rw [← cons_append, take_append_of_le_length (by simpa using hshort), take_append_drop]
          rw [← hsame] at hy
          exact hy.not_word hw
        · -- the word would have the opening element inside
          have hmem : x ∈ (front ++ (x :: more)).take (n - 1) := by
            rw [take_append, mem_append]
            right
            obtain ⟨k, hk⟩ : ∃ k, n - 1 - front.length = k + 1 := ⟨n - 2 - front.length, by omega⟩
            rw [hk]
            exact mem_cons_self
          rw [hinner x hmem] at hx
          cases hx
    rw [cons_append, sub_plain hplain, sub_plain hy, ih, cons_append]

theorem sub_around (hword : IsWord W word) (front more : List α) :
    sub W f (front ++ (word ++ more)) = sub W f front ++ (f word ++ sub W f more) := by
  obtain ⟨x, rest, hcons, hx, _⟩ := hword.cons
  rw [← sub_word hword, hcons]
  exact sub_append hx front (rest ++ more)

/-- The replacements agree, or what they put in differs from the first element on. -/
def Distinct (f g : List α → List α) (word : List α) : Prop :=
  f word = g word ∨ ∃ x y xs ys, f word = x :: xs ∧ g word = y :: ys ∧ x ≠ y

theorem Distinct.eq (h : Distinct f g word) {left right : List α} (heq : f word ++ left = g word ++ right) :
    f word = g word := by
  rcases h with h | ⟨x, y, xs, ys, hf, hg, hne⟩
  · exact h
  · rw [hf, hg] at heq
    exact absurd (cons.inj heq).1 hne

theorem sub_append_cancel {front left right : List α}
    (h : ∀ word, IsWord W word → (∀ x ∈ word, x ∈ front) → Distinct f g word)
    (heq : sub W f front ++ left = sub W g front ++ right) : left = right := by
  induction front using scan (W := W) with
  | hnil => exact heq
  | hword word more hw ih =>
    rw [sub_word hw, sub_word hw, append_assoc, append_assoc] at heq
    have hsame := (h word hw fun x hx => mem_append_left _ hx).eq heq
    rw [hsame, append_cancel_left_eq] at heq
    exact ih (fun other hother hmem => h other hother fun x hx => mem_append_right _ (hmem x hx)) heq
  | hplain x more hplain ih =>
    rw [sub_plain hplain, sub_plain hplain] at heq
    exact ih (fun other hother hmem => h other hother fun y hy => mem_cons_of_mem _ (hmem y hy))
      (cons.inj heq).2

/-- Substitutions that give one result agree on the words of the text. -/
theorem eq_of_sub_eq {front word more : List α}
    (h : ∀ other, IsWord W other → (∀ x ∈ other, x ∈ front ++ (word ++ more)) → Distinct f g other)
    (heq : sub W f (front ++ (word ++ more)) = sub W g (front ++ (word ++ more)))
    (hword : IsWord W word) : f word = g word := by
  rw [sub_around hword, sub_around hword] at heq
  have hrest := sub_append_cancel
    (fun other hother hmem => h other hother fun x hx => mem_append_left _ (hmem x hx)) heq
  exact (h word hword fun x hx => mem_append_right _ (mem_append_left _ hx)).eq hrest

end Sub

section Composition

variable {f g h : List α → List α} {fresh : α → Prop} {text front more : List α}

theorem sub_prefix
    (hf : ∀ word, IsWord W word → f word = word ∨ ∃ x rest, f word = x :: rest ∧ fresh x)
    (heq : sub W f text = front ++ more) (hfront : ∀ x ∈ front, ¬ fresh x) :
    ∃ rest, text = front ++ rest := by
  induction text using scan (W := W) generalizing front more with
  | hnil =>
    have hnil := (append_eq_nil_iff.mp heq.symm).1
    exact ⟨[], by rw [hnil]; rfl⟩
  | hword word later hw ih =>
    rw [sub_word hw] at heq
    rcases hf word hw with hkept | ⟨x, rest, hput, hx⟩
    · rw [hkept] at heq
      rcases append_eq_append_iff.mp heq with ⟨middle, rfl, hmore⟩ | ⟨middle, rfl, _⟩
      · obtain ⟨rest, hrest⟩ := ih hmore fun x hx => hfront x (mem_append_right _ hx)
        exact ⟨rest, by rw [hrest, append_assoc]⟩
      · exact ⟨middle ++ later, by rw [append_assoc]⟩
    · cases front with
      | nil => exact ⟨word ++ later, rfl⟩
      | cons y front =>
        rw [hput] at heq
        obtain ⟨rfl, _⟩ := cons.inj heq
        exact absurd hx (hfront x mem_cons_self)
  | hplain x later hplain ih =>
    cases front with
    | nil => exact ⟨x :: later, rfl⟩
    | cons y front =>
      rw [sub_plain hplain] at heq
      obtain ⟨rfl, hlater⟩ := cons.inj heq
      obtain ⟨rest, hrest⟩ := ih hlater fun z hz => hfront z (mem_cons_of_mem _ hz)
      exact ⟨rest, by rw [hrest]; rfl⟩

/-- A word that the replacement keeps is passed element by element. -/
theorem sub_pass {x : α}
    (hkept : ∀ word rest, x :: text = word ++ rest → IsWord W word → g word = word) :
    sub W g (x :: text) = x :: sub W g text := by
  cases hlength : W.length (x :: text) with
  | none => exact sub_plain hlength
  | some n =>
    obtain ⟨hword, _⟩ := isWord_of_length hlength
    obtain ⟨y, inner, hcons, _, hinner⟩ := hword.cons
    have hsplit : x :: text = (x :: text).take n ++ (x :: text).drop n :=
      (take_append_drop n _).symm
    have hsame := hkept _ _ hsplit hword
    rw [hcons, cons_append] at hsplit
    obtain ⟨rfl, htext⟩ := cons.inj hsplit
    calc sub W g (x :: text) = sub W g ((x :: text).take n ++ (x :: text).drop n) := by
          rw [take_append_drop]
      _ = (x :: text).take n ++ sub W g ((x :: text).drop n) := by rw [sub_word hword, hsame]
      _ = x :: (inner ++ sub W g ((x :: text).drop n)) := by rw [hcons]; rfl
      _ = x :: sub W g text := by rw [← sub_closed hinner, ← htext]

theorem sub_pass_all
    (hkept : ∀ before after word rest, front = before ++ after → after ≠ [] →
      after ++ more = word ++ rest → IsWord W word → g word = word) :
    sub W g (front ++ more) = front ++ sub W g more := by
  induction front with
  | nil => rfl
  | cons x front ih =>
    have hfirst : sub W g (x :: (front ++ more)) = x :: sub W g (front ++ more) :=
      sub_pass fun word rest heq => hkept [] (x :: front) word rest rfl (by simp) heq
    have hrest := ih fun before after word rest heq =>
      hkept (x :: before) after word rest (by rw [heq]; rfl)
    rw [cons_append, hfirst, hrest]
    rfl

variable (fresh) in
/-- Two substitutions as one: the first puts in fresh elements only, and a word that the second
one replaces in the result has none of them. -/
theorem sub_sub (hf : ∀ word, IsWord W word →
      (f word = word ∧ h word = g word) ∨ (f word ≠ [] ∧ (∀ x ∈ f word, fresh x) ∧ h word = f word)) (htext : ∀ x ∈ text, ¬ fresh x)
    (happart : ∀ front word more, sub W f text = front ++ (word ++ more) → IsWord W word →
      g word ≠ word → ∀ x ∈ word, ¬ fresh x) :
    sub W g (sub W f text) = sub W h text := by
  have hput : ∀ word, IsWord W word →
      f word = word ∨ ∃ x rest, f word = x :: rest ∧ fresh x := by
    intro word hword
    rcases hf word hword with ⟨hkept, _⟩ | ⟨hne, hfresh, _⟩
    · exact .inl hkept
    · obtain ⟨x, rest, heq⟩ := exists_cons_of_ne_nil hne
      exact .inr ⟨x, rest, heq, hfresh x (heq ▸ mem_cons_self)⟩
  induction text using scan (W := W) with
  | hnil => rfl
  | hword word more hw ih =>
    have hmore := ih (fun x hx => htext x (mem_append_right _ hx)) fun front other rest heq =>
      happart (f word ++ front) other rest (by rw [sub_word hw, heq, append_assoc])
    rcases hf word hw with ⟨hkept, hsame⟩ | ⟨hne, hfresh, hsame⟩
    · rw [sub_word hw, hkept, sub_word hw, sub_word hw, hsame, hmore]
    · rw [sub_word hw, sub_word hw, hsame, sub_pass_all, hmore]
      -- inside what was put in, the second substitution has nothing to replace
      intro before after other rest heq hafter hrest hother
      by_contra hchanges
      obtain ⟨x, after, rfl⟩ := exists_cons_of_ne_nil hafter
      obtain ⟨y, inner, rfl, _, _⟩ := hother.cons
      obtain ⟨rfl, _⟩ := cons.inj hrest
      refine happart before (x :: inner) rest ?_ hother hchanges x mem_cons_self
        (hfresh x (heq ▸ by simp))
      rw [sub_word hw, heq, append_assoc, hrest]
  | hplain x more hplain ih =>
    have hmore := ih (fun y hy => htext y (mem_cons_of_mem _ hy)) fun front other rest heq =>
      happart (x :: front) other rest (by rw [sub_plain hplain, heq]; rfl)
    rw [sub_plain hplain, sub_plain hplain, sub_pass, hmore]
    intro word rest heq hword
    by_contra hchanges
    have holds := happart [] word rest (by rw [sub_plain hplain, heq]; rfl) hword hchanges
    have hfirst : sub W f (x :: more) = word ++ rest := by
      rw [sub_plain hplain]
      exact heq
    obtain ⟨later, hlater⟩ := sub_prefix hput hfirst holds
    rw [hlater] at hplain
    exact hplain.not_word hword

end Composition

section Map

variable {β : Type*} {f : List α → List α}

/-- The same words in texts whose elements carry more. -/
def Words.comap (W : Words α) (erase : β → α) : Words β where
  opens x := W.opens (erase x)
  length text := W.length (text.map erase)
  opened := by
    intro text n h
    obtain ⟨x, rest, heq, hx, hpos, hle, hinner⟩ := W.opened h
    obtain ⟨y, more, rfl, rfl, rfl⟩ := map_eq_cons_iff.mp heq
    refine ⟨y, more, rfl, hx, hpos, by simpa using hle, fun z hz => hinner _ ?_⟩
    rw [← map_take]
    exact mem_map_of_mem hz
  stable := by
    intro text n more h
    have hstable := W.stable (more.map erase) h
    rwa [map_append, map_take]

theorem map_sub (W : Words α) (erase : β → α) {g : List β → List β}
    (h : ∀ word, (g word).map erase = f (word.map erase)) (text : List β) :
    (sub (W.comap erase) g text).map erase = sub W f (text.map erase) := by
  suffices hskip : ∀ skip, (subFrom (W.comap erase) g skip text).map erase =
      subFrom W f skip (text.map erase) from hskip 0
  induction text with
  | nil =>
    intro skip
    cases skip <;> rfl
  | cons x rest ih =>
    intro skip
    cases skip with
    | succ skip => exact ih skip
    | zero =>
      rw [map_cons, subFrom, subFrom]
      have hlength : (W.comap erase).length (x :: rest) = W.length (erase x :: rest.map erase) := rfl
      rw [hlength]
      cases W.length (erase x :: rest.map erase) with
      | none =>
        show erase x :: _ = _
        rw [ih 0]
      | some n =>
        show (g _ ++ _).map erase = f _ ++ _
        rw [map_append, h, map_take, ih (n - 1), map_cons]

end Map

end Substitution
