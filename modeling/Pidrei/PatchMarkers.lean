import Pidrei.PatchReading

/-!
Whether the newline markers of a generated patch stand where the texts lack their final newline.
A marker is placed by the text of a line, so it fits only where no other line of the same mark
has that text.
-/
namespace Pidrei.PatchMarkers

open EditDiff LineTokens EditScript UnifiedPatch PatchReading List

variable {oldMissing newMissing : Bool} {oldLast newLast : List Char}

/-- The last lines of both texts and the lines that the patch shows agree on where the final
newlines are missing. -/
structure MarkersFit (oldMissing newMissing : Bool) (items : List (Step (List Char) × Bool)) :
    Prop where
  /-- A kept line is an unterminated last line of both texts or of none. -/
  kept : ∀ front line shown back, items = front ++ (.keep line, shown) :: back →
    (oldMissing = true ∧ olds (steps back) = [] ↔ newMissing = true ∧ news (steps back) = [])
  /-- If a removed or context line of the patch has the text of an unterminated last old line,
  that last line is itself shown, with the same mark. -/
  old : oldMissing = true → ∀ step line, (step, true) ∈ items → step.old? = some line →
    (olds (steps items)).getLast? = some line →
      ∃ front back, items = front ++ (step, true) :: back ∧ olds (steps back) = []
  new : newMissing = true → ∀ step line, (step, true) ∈ items → step.new? = some line →
    (news (steps items)).getLast? = some line →
      ∃ front back, items = front ++ (step, true) :: back ∧ news (steps back) = []

/-- Every line loses its newline when the patch is read back exactly if the text lacks it. -/
def ReadBack (oldMissing newMissing : Bool) (oldLast newLast : List Char)
    (items : List (Step (List Char) × Bool)) : Prop :=
  ∀ front item back, items = front ++ item :: back →
    (item.1.old?.isSome → (Unended oldMissing newMissing oldLast newLast back item ↔
      oldMissing = true ∧ olds (steps back) = [])) ∧
    (item.1.new?.isSome → (Unended oldMissing newMissing oldLast newLast back item ↔
      newMissing = true ∧ news (steps back) = []))

section Sides

variable {side : Step (List Char) → Option (List Char)}
  {items front back : List (Step (List Char) × Bool)} {step : Step (List Char)} {line : List Char}

theorem mem_shownSteps : step ∈ shownSteps items ↔ (step, true) ∈ items := by
  rw [shownSteps, mem_filterMap]
  constructor
  · rintro ⟨⟨other, shown⟩, hitem, heq⟩
    cases shown with
    | false => exact nomatch heq
    | true => exact Option.some.inj heq ▸ hitem
  · exact fun h => ⟨_, h, rfl⟩

variable {shown : Bool}

theorem mem_side (h : (step, shown) ∈ items) (hside : side step = some line) :
    line ∈ (steps items).filterMap side :=
  mem_filterMap.mpr ⟨step, mem_map.mpr ⟨_, h, rfl⟩, hside⟩

theorem notMem_shownSteps (hside : side step = some line)
    (h : (steps back).filterMap side = []) : step ∉ shownSteps back := by
  intro hmem
  have hline := mem_side (mem_shownSteps.mp hmem) hside
  rw [h] at hline
  exact nomatch hline

theorem getLast?_side (hitems : items = front ++ (step, shown) :: back)
    (hside : side step = some line) (h : (steps back).filterMap side = []) :
    ((steps items).filterMap side).getLast? = some line := by
  subst hitems
  have hcons : steps (front ++ (step, shown) :: back) = steps front ++ step :: steps back := by
    rw [steps_append]
    rfl
  rw [hcons, filterMap_append, filterMap_cons_some hside, h, getLast?_concat]

theorem last_of_shown (hitems : items = front ++ (step, true) :: back)
    (hnot : step ∉ shownSteps back) (hside : side step = some line)
    (h : ∃ front' back', items = front' ++ (step, true) :: back' ∧
      (steps back').filterMap side = []) : (steps back).filterMap side = [] := by
  obtain ⟨front', back', hitems', hback'⟩ := h
  rw [hitems] at hitems'
  rcases append_eq_append_iff.mp hitems' with ⟨more, rfl, hmore⟩ | ⟨more, rfl, hmore⟩
  · cases more with
    | nil =>
      obtain ⟨-, rfl⟩ := cons.inj hmore
      exact hback'
    | cons item more =>
      obtain ⟨-, rfl⟩ := cons.inj hmore
      exact absurd (mem_shownSteps.mpr (mem_append_right _ mem_cons_self)) hnot
  · cases more with
    | nil =>
      obtain ⟨-, rfl⟩ := cons.inj hmore
      exact hback'
    | cons item more =>
      obtain ⟨-, rfl⟩ := cons.inj hmore
      have hstep : (step, true) ∈ more ++ (step, true) :: back :=
        mem_append_right _ mem_cons_self
      have hmem := mem_side hstep hside
      rw [append_eq] at hback'
      rw [hback'] at hmem
      exact nomatch hmem

theorem last_occurrence (h : (step, true) ∈ items) :
    ∃ front back, items = front ++ (step, true) :: back ∧ step ∉ shownSteps back := by
  induction items with
  | nil => exact nomatch h
  | cons item items ih =>
    by_cases hlater : (step, true) ∈ items
    · obtain ⟨front, back, rfl, hnot⟩ := ih hlater
      exact ⟨item :: front, back, rfl, hnot⟩
    · rcases mem_cons.mp h with rfl | h
      · exact ⟨[], items, rfl, fun hmem => hlater (mem_shownSteps.mp hmem)⟩
      · exact absurd h hlater

end Sides

theorem matchesLast_diffLine (step : Step (List Char)) :
    matchesLast oldMissing newMissing oldLast newLast (diffLine step) = true ↔
      oldMissing = true ∧ step.old? = some oldLast ∨
        newMissing = true ∧ step.new? = some newLast := by
  cases step <;> simp [matchesLast, diffLine, Step.old?, Step.new?]

section Fit

variable {items : List (Step (List Char) × Bool)}

theorem ReadBack.markersFit (hold : oldLast = (olds (steps items)).getLast?.getD [])
    (hnew : newLast = (news (steps items)).getLast?.getD [])
    (h : ReadBack oldMissing newMissing oldLast newLast items) :
    MarkersFit oldMissing newMissing items := by
  constructor
  · intro front line shown back hitems
    obtain ⟨hfold, hfnew⟩ := h front (.keep line, shown) back hitems
    exact (hfold rfl).symm.trans (hfnew rfl)
  · intro hmissing step line hstep hline hlast
    obtain ⟨front, back, hitems, hnot⟩ := last_occurrence hstep
    refine ⟨front, back, hitems, ?_⟩
    have hunended : Unended oldMissing newMissing oldLast newLast back (step, true) := by
      refine .inl ⟨rfl, hnot, (matchesLast_diffLine step).mpr (.inl ⟨hmissing, ?_⟩)⟩
      rw [hold, hlast, hline, Option.getD_some]
    exact (((h front (step, true) back hitems).1 (by rw [hline]; rfl)).mp hunended).2
  · intro hmissing step line hstep hline hlast
    obtain ⟨front, back, hitems, hnot⟩ := last_occurrence hstep
    refine ⟨front, back, hitems, ?_⟩
    have hunended : Unended oldMissing newMissing oldLast newLast back (step, true) := by
      refine .inl ⟨rfl, hnot, (matchesLast_diffLine step).mpr (.inr ⟨hmissing, ?_⟩)⟩
      rw [hnew, hlast, hline, Option.getD_some]
    exact (((h front (step, true) back hitems).2 (by rw [hline]; rfl)).mp hunended).2

theorem MarkersFit.readBack (hidden : ∀ step, (step, false) ∈ items → ∃ line, step = .keep line)
    (hold : oldLast = (olds (steps items)).getLast?.getD [])
    (hnew : newLast = (news (steps items)).getLast?.getD [])
    (h : MarkersFit oldMissing newMissing items) :
    ReadBack oldMissing newMissing oldLast newLast items := by
  rintro front ⟨step, shown⟩ back hitems
  have hmem : (step, shown) ∈ items := hitems ▸ mem_append_right _ mem_cons_self
  cases shown with
  | false =>
    obtain ⟨line, rfl⟩ := hidden step hmem
    have hunended : Unended oldMissing newMissing oldLast newLast back (.keep line, false) ↔
        oldMissing = true ∧ olds (steps back) = [] :=
      ⟨fun h => (h.resolve_left fun h => Bool.false_ne_true h.1).2, fun h => .inr ⟨rfl, h⟩⟩
    exact ⟨fun _ => hunended, fun _ => hunended.trans (h.kept front line false back hitems)⟩
  | true =>
    have hunended : Unended oldMissing newMissing oldLast newLast back (step, true) ↔
        step ∉ shownSteps back ∧ (oldMissing = true ∧ step.old? = some oldLast ∨
          newMissing = true ∧ step.new? = some newLast) := by
      rw [← matchesLast_diffLine]
      exact ⟨fun h => (h.resolve_right fun h => Bool.false_ne_true h.1.symm).2,
        fun h => .inl ⟨rfl, h⟩⟩
    have hlast : ∀ {side : Step (List Char) → Option (List Char)} {last : List Char},
        last = ((steps items).filterMap side).getLast?.getD [] → side step = some last →
          ((steps items).filterMap side).getLast? = some last := by
      intro side last hlast hside
      have hne := ne_nil_of_mem (mem_side hmem hside)
      rw [getLast?_eq_some_getLast hne, Option.getD_some] at hlast
      rw [getLast?_eq_some_getLast hne, ← hlast]
    have hfold : step ∉ shownSteps back → oldMissing = true → step.old? = some oldLast →
        olds (steps back) = [] := fun hnot hmissing hside =>
      last_of_shown hitems hnot hside (h.old hmissing step oldLast hmem hside (hlast hold hside))
    have hfnew : step ∉ shownSteps back → newMissing = true → step.new? = some newLast →
        news (steps back) = [] := fun hnot hmissing hside =>
      last_of_shown hitems hnot hside (h.new hmissing step newLast hmem hside (hlast hnew hside))
    have hkept : step.old?.isSome → step.new?.isSome →
        (oldMissing = true ∧ olds (steps back) = [] ↔
          newMissing = true ∧ news (steps back) = []) := by
      intro hside hside'
      cases step with
      | keep line => exact h.kept front line true back hitems
      | remove line => exact absurd hside' Bool.false_ne_true
      | add line => exact absurd hside Bool.false_ne_true
    rw [hunended]
    constructor
    · intro hside
      obtain ⟨line, hline⟩ := Option.isSome_iff_exists.mp hside
      constructor
      · rintro ⟨hnot, ⟨hmissing, hmatch⟩ | ⟨hmissing, hmatch⟩⟩
        · exact ⟨hmissing, hfold hnot hmissing hmatch⟩
        · exact (hkept hside (by rw [hmatch]; rfl)).mpr ⟨hmissing, hfnew hnot hmissing hmatch⟩
      · rintro ⟨hmissing, hback⟩
        refine ⟨notMem_shownSteps hline hback, .inl ⟨hmissing, ?_⟩⟩
        rw [hold, olds, getLast?_side hitems hline hback, hline, Option.getD_some]
    · intro hside
      obtain ⟨line, hline⟩ := Option.isSome_iff_exists.mp hside
      constructor
      · rintro ⟨hnot, ⟨hmissing, hmatch⟩ | ⟨hmissing, hmatch⟩⟩
        · exact (hkept (by rw [hmatch]; rfl) hside).mp ⟨hmissing, hfold hnot hmissing hmatch⟩
        · exact ⟨hmissing, hfnew hnot hmissing hmatch⟩
      · rintro ⟨hmissing, hback⟩
        refine ⟨notMem_shownSteps hline hback, .inr ⟨hmissing, ?_⟩⟩
        rw [hnew, news, getLast?_side hitems hline hback, hline, Option.getD_some]

end Fit

section Settled

variable {items : List (Step (List Char) × Bool)} {line : List Char}
  {lines others : List (List Char)}

theorem chomp_ne (h : Ended line) : chomp line ≠ line := by
  obtain ⟨front, -, rfl⟩ := h
  rw [chomp_ended]
  exact fun heq => absurd (congrArg length heq) (by simp)

theorem ite_chomp_eq_iff (h : Ended line) (p q : Prop) [Decidable p] [Decidable q] :
    (if p then chomp line else line) = (if q then chomp line else line) ↔ (p ↔ q) := by
  have hne := chomp_ne h
  have hne' := Ne.symm hne
  split_ifs <;> simp_all

theorem readBack_cons {item : Step (List Char) × Bool} :
    ReadBack oldMissing newMissing oldLast newLast (item :: items) ↔
      ((item.1.old?.isSome → (Unended oldMissing newMissing oldLast newLast items item ↔
          oldMissing = true ∧ olds (steps items) = [])) ∧
        (item.1.new?.isSome → (Unended oldMissing newMissing oldLast newLast items item ↔
          newMissing = true ∧ news (steps items) = []))) ∧
      ReadBack oldMissing newMissing oldLast newLast items := by
  constructor
  · intro h
    refine ⟨h [] item items rfl, ?_⟩
    intro front other back hitems
    exact h (item :: front) other back (by rw [hitems]; rfl)
  · rintro ⟨hitem, hitems⟩ front other back heq
    cases front with
    | nil =>
      cases heq
      exact hitem
    | cons first front =>
      obtain ⟨-, hrest⟩ := cons.inj heq
      exact hitems front other back hrest

theorem settle_eq_iff (hended : ∀ step ∈ steps items, Ended (lineOf step)) :
    (olds (settle oldMissing newMissing oldLast newLast items) =
        real oldMissing (olds (steps items)) ∧
      news (settle oldMissing newMissing oldLast newLast items) =
        real newMissing (news (steps items))) ↔
      ReadBack oldMissing newMissing oldLast newLast items := by
  induction items with
  | nil =>
    refine ⟨?_, fun _ => ⟨rfl, rfl⟩⟩
    intro _ front item back hitems
    exact absurd (congrArg length hitems) (by simp)
  | cons item items ih =>
    obtain ⟨step, shown⟩ := item
    have hline : Ended (lineOf step) := hended step mem_cons_self
    have hrest := ih fun other hother => hended other (mem_cons_of_mem _ hother)
    have hsteps : steps ((step, shown) :: items) = step :: steps items := rfl
    rw [readBack_cons, ← hrest, hsteps, settle]
    cases step with
    | keep line =>
      change Ended line at hline
      have hstep : (if Unended oldMissing newMissing oldLast newLast items (.keep line, shown) then
          chompStep (.keep line) else .keep line) =
            .keep (if Unended oldMissing newMissing oldLast newLast items (.keep line, shown) then
              chomp line else line) := by
        split_ifs <;> rfl
      have hold : ∀ (line : List Char) more, olds (.keep line :: more) = line :: olds more :=
        fun _ _ => rfl
      have hnew : ∀ (line : List Char) more, news (.keep line :: more) = line :: news more :=
        fun _ _ => rfl
      rw [hstep, hold, hnew, hold, hnew, real, real, cons.injEq, cons.injEq,
        ite_chomp_eq_iff hline, ite_chomp_eq_iff hline]
      exact ⟨fun h => ⟨⟨fun _ => h.1.1, fun _ => h.2.1⟩, h.1.2, h.2.2⟩,
        fun h => ⟨⟨h.1.1 rfl, h.2.1⟩, h.1.2 rfl, h.2.2⟩⟩
    | remove line =>
      change Ended line at hline
      have hstep : (if Unended oldMissing newMissing oldLast newLast items (.remove line, shown) then
          chompStep (.remove line) else .remove line) =
            .remove (if Unended oldMissing newMissing oldLast newLast items (.remove line, shown)
              then chomp line else line) := by
        split_ifs <;> rfl
      have hold : ∀ (line : List Char) more, olds (.remove line :: more) = line :: olds more :=
        fun _ _ => rfl
      have hnew : ∀ (line : List Char) more, news (.remove line :: more) = news more :=
        fun _ _ => rfl
      rw [hstep, hold, hnew, hold, hnew, real, cons.injEq, ite_chomp_eq_iff hline]
      exact ⟨fun h => ⟨⟨fun _ => h.1.1, (fun h => by cases h)⟩, h.1.2, h.2⟩,
        fun h => ⟨⟨h.1.1 rfl, h.2.1⟩, h.2.2⟩⟩
    | add line =>
      change Ended line at hline
      have hstep : (if Unended oldMissing newMissing oldLast newLast items (.add line, shown) then
          chompStep (.add line) else .add line) =
            .add (if Unended oldMissing newMissing oldLast newLast items (.add line, shown) then
              chomp line else line) := by
        split_ifs <;> rfl
      have hold : ∀ (line : List Char) more, olds (.add line :: more) = olds more :=
        fun _ _ => rfl
      have hnew : ∀ (line : List Char) more, news (.add line :: more) = line :: news more :=
        fun _ _ => rfl
      rw [hstep, hold, hnew, hold, hnew, real, cons.injEq, ite_chomp_eq_iff hline]
      exact ⟨fun h => ⟨⟨(fun h => by cases h), fun _ => h.2.1⟩, h.1, h.2.2⟩,
        fun h => ⟨h.2.1, h.1.2 rfl, h.2.2⟩⟩

/-- Lines that may have lost their newline. -/
def Chomped (lines others : List (List Char)) : Prop :=
  List.Forall₂ (fun line other => other = line ∨ other = chomp line) lines others

theorem chomped_settle (items : List (Step (List Char) × Bool)) :
    Chomped (news (steps items)) (news (settle oldMissing newMissing oldLast newLast items)) := by
  induction items with
  | nil => exact .nil
  | cons item items ih =>
    obtain ⟨step, shown⟩ := item
    have hsteps : steps ((step, shown) :: items) = step :: steps items := rfl
    rw [hsteps, settle]
    cases step with
    | keep | add =>
      split_ifs
      · exact .cons (.inr rfl) ih
      · exact .cons (.inl rfl) ih
    | remove line => split_ifs <;> exact ih

theorem count_ended (h : Ended line) : line.count '\n' = 1 ∧ (chomp line).count '\n' = 0 := by
  obtain ⟨front, hfront, rfl⟩ := h
  rw [chomp_ended, count_append, count_eq_zero.mpr hfront]
  exact ⟨rfl, rfl⟩

theorem Chomped.count_le (h : Chomped lines others) (hended : ∀ line ∈ lines, Ended line) :
    others.flatten.count '\n' ≤ lines.length ∧
      (others.flatten.count '\n' = lines.length → others = lines) := by
  induction h with
  | nil => exact ⟨Nat.le_refl _, fun _ => rfl⟩
  | @cons line other lines others hline _ ih =>
    obtain ⟨hle, heq⟩ := ih fun line hline => hended line (mem_cons_of_mem _ hline)
    obtain ⟨hcount, hchomp⟩ := count_ended (hended line mem_cons_self)
    rw [flatten_cons, count_append, length_cons]
    rcases hline with rfl | rfl
    · refine ⟨by omega, fun h => ?_⟩
      rw [heq (by omega)]
    · exact ⟨by omega, fun h => absurd h (by omega)⟩

theorem count_flatten_ended (hended : ∀ line ∈ lines, Ended line) :
    lines.flatten.count '\n' = lines.length := by
  induction lines with
  | nil => rfl
  | cons line lines ih =>
    rw [flatten_cons, count_append, (count_ended (hended line mem_cons_self)).1,
      ih fun other hother => hended other (mem_cons_of_mem _ hother), length_cons]
    omega

theorem Chomped.concat {front : List (List Char)} {last : List Char}
    (h : Chomped (front ++ [last]) others) : ∃ others' other, others = others' ++ [other] ∧
      Chomped front others' ∧ (other = last ∨ other = chomp last) := by
  induction front generalizing others with
  | nil =>
    cases h with
    | cons hother hrest =>
      cases hrest
      exact ⟨[], _, rfl, .nil, hother⟩
  | cons line front ih =>
    cases h with
    | cons hother hrest =>
      obtain ⟨others', other, rfl, hfront, hlast⟩ := ih hrest
      exact ⟨_ :: others', other, rfl, .cons hother hfront, hlast⟩

theorem Chomped.eq_of_flatten {missing : Bool} (h : Chomped lines others)
    (hended : ∀ line ∈ lines, Ended line)
    (hlast : missing = true → ∀ line ∈ lines.getLast?, chomp line ≠ [])
    (hflatten : others.flatten = (real missing lines).flatten) : others = real missing lines := by
  cases missing with
  | false =>
    rw [real_false] at hflatten ⊢
    apply (h.count_le hended).2
    rw [hflatten, count_flatten_ended hended]
  | true =>
    rcases eq_nil_or_concat lines with rfl | ⟨front, last, rfl⟩
    · cases h
      rfl
    · rw [concat_eq_append] at h hended hlast hflatten ⊢
      obtain ⟨others', other, rfl, hfront, hother⟩ := h.concat
      have hlastEnded := hended last (mem_append_right _ (mem_singleton_self _))
      have hreal : real true (front ++ [last]) = front ++ [chomp last] := by
        rw [real_append, isEmpty_cons, Bool.and_false, real_false, real, if_pos ⟨rfl, rfl⟩, real]
      rw [hreal, flatten_append, flatten_append, flatten_singleton, flatten_singleton] at hflatten
      have hne : chomp last ≠ [] := hlast rfl last (by rw [getLast?_concat]; rfl)
      obtain ⟨line, hfree, rfl⟩ := hlastEnded
      rw [chomp_ended] at hother hflatten hne hreal
      rcases hother with rfl | rfl
      · have hend := congrArg getLast? hflatten
        rw [← append_assoc, getLast?_concat, getLast?_append_of_ne_nil _ hne] at hend
        exact absurd (mem_of_getLast? hend.symm) hfree
      · have hcancel := append_cancel_right hflatten
        have hendedFront : ∀ line ∈ front, Ended line := fun line hline =>
          hended line (mem_append_left _ hline)
        rw [hreal, (hfront.count_le hendedFront).2]
        rw [hcancel, count_flatten_ended hendedFront]

end Settled

section Patch

theorem hidden_kept (old new : List (List Char)) (groups : List (List Opcode)) (i : ℕ) :
    ∀ step, (step, false) ∈ walk old new i groups → ∃ line, step = .keep line := by
  have hkeep : ∀ (kept : List (List Char)) (step : Step (List Char)),
      (step, false) ∈ kept.map (fun line => (Step.keep line, false)) → ∃ line, step = .keep line := by
    intro kept step h
    obtain ⟨line, -, heq⟩ := mem_map.mp h
    exact ⟨line, (Prod.mk.inj heq).1.symm⟩
  induction groups generalizing i with
  | nil => exact hkeep _
  | cons group groups ih =>
    intro step h
    rw [walk] at h
    rcases mem_append.mp h with h | h
    · exact hkeep _ step h
    rcases mem_append.mp h with h | h
    · obtain ⟨other, -, heq⟩ := mem_map.mp h
      exact absurd (Prod.mk.inj heq).2 (by decide)
    · exact ih _ step h

theorem completed_last {tokens : List (List Char)} (h : Lined tokens)
    (hmissing : missingNewline tokens = true) :
    ∀ line ∈ (completed tokens).getLast?, chomp line ≠ [] := by
  intro line hline
  rcases eq_nil_or_concat tokens with rfl | ⟨front, last, htokens⟩
  · exact nomatch hline
  · rw [concat_eq_append] at htokens
    have hlast : tokens.getLast? = some last := by rw [htokens, getLast?_concat]
    rw [completed, hlast] at hline
    simp only [hmissing, if_true, getLast?_concat, Option.mem_some_iff] at hline
    rw [← hline, chomp_ended]
    rintro rfl
    rcases Lined.last_free h htokens with ⟨front, -, heq⟩ | ⟨-, hne⟩
    · exact absurd (congrArg length heq) (by simp)
    · exact hne rfl

variable {getOpcodes : List (List Char) → List (List Char) → List Opcode}

/-- The lines of two texts with the newlines put in, along the script of the differ's hunks. -/
def patchWalk (getOpcodes : List (List Char) → List (List Char) → List Opcode)
    (old new : List Char) (contextLines : ℕ) : List (Step (List Char) × Bool) :=
  let oldTokens := completed (splitLinesWithEndings old)
  let newTokens := completed (splitLinesWithEndings new)
  walk oldTokens newTokens 0 (groupedOpcodes contextLines (getOpcodes oldTokens newTokens))

/-- A generated patch turns the old text into the new one exactly if its markers fit. -/
theorem applyPatch_eq_some_iff (path old new : List Char) (contextLines : ℕ)
    (h : Correct (completed (splitLinesWithEndings old)) (completed (splitLinesWithEndings new))
      (getOpcodes (completed (splitLinesWithEndings old))
        (completed (splitLinesWithEndings new)))) :
    applyPatch path (generateUnifiedPatch getOpcodes path old new contextLines) old = some new ↔
      MarkersFit (missingNewline (splitLinesWithEndings old))
        (missingNewline (splitLinesWithEndings new))
        (patchWalk getOpcodes old new contextLines) := by
  have hlined := lined_splitLinesWithEndings new
  obtain ⟨hended, hreal⟩ := completed_spec (lined_splitLinesWithEndings old)
  obtain ⟨hended', hreal'⟩ := completed_spec hlined
  have hhunks := hunks_groupedOpcodes contextLines h.turns
  obtain ⟨holds, hnews⟩ := @steps_walk _ _ _ _ _ hhunks [] [] rfl rfl
  obtain ⟨settled, hsettled⟩ : ∃ settled, settled = settle
      (missingNewline (splitLinesWithEndings old)) (missingNewline (splitLinesWithEndings new))
      ((completed (splitLinesWithEndings old)).getLast?.getD [])
      ((completed (splitLinesWithEndings new)).getLast?.getD [])
      (patchWalk getOpcodes old new contextLines) := ⟨_, rfl⟩
  have hpatch := applyPatch_generateUnifiedPatch path old new contextLines rfl rfl h.turns hsettled
  have hnew : (splitLinesWithEndings new).flatten = new := flatten_splitLinesWithEndings new
  have hsteps : ∀ step ∈ steps (patchWalk getOpcodes old new contextLines),
      Ended (lineOf step) := by
    intro step hstep
    rcases lineOf_mem hstep with hline | hline
    · exact hended _ (holds ▸ hline)
    · exact hended' _ (hnews ▸ hline)
  have hsettle := @settle_eq_iff (missingNewline (splitLinesWithEndings old))
    (missingNewline (splitLinesWithEndings new))
    ((completed (splitLinesWithEndings old)).getLast?.getD [])
    ((completed (splitLinesWithEndings new)).getLast?.getD [])
    (patchWalk getOpcodes old new contextLines) hsteps
  have hchomped := @chomped_settle (missingNewline (splitLinesWithEndings old))
    (missingNewline (splitLinesWithEndings new))
    ((completed (splitLinesWithEndings old)).getLast?.getD [])
    ((completed (splitLinesWithEndings new)).getLast?.getD [])
    (patchWalk getOpcodes old new contextLines)
  have holdLast : (completed (splitLinesWithEndings old)).getLast?.getD [] =
      (olds (steps (patchWalk getOpcodes old new contextLines))).getLast?.getD [] :=
    congrArg (fun lines => lines.getLast?.getD []) holds.symm
  have hnewLast : (completed (splitLinesWithEndings new)).getLast?.getD [] =
      (news (steps (patchWalk getOpcodes old new contextLines))).getLast?.getD [] :=
    congrArg (fun lines => lines.getLast?.getD []) hnews.symm
  have hfit : MarkersFit (missingNewline (splitLinesWithEndings old))
      (missingNewline (splitLinesWithEndings new)) (patchWalk getOpcodes old new contextLines) ↔
        ReadBack (missingNewline (splitLinesWithEndings old))
          (missingNewline (splitLinesWithEndings new)) _ _
          (patchWalk getOpcodes old new contextLines) :=
    ⟨MarkersFit.readBack (hidden_kept _ _ _ _) holdLast hnewLast,
      ReadBack.markersFit holdLast hnewLast⟩
  change olds (steps (patchWalk getOpcodes old new contextLines)) = _ at holds
  change news (steps (patchWalk getOpcodes old new contextLines)) = _ at hnews
  rw [holds, hnews, hreal, hreal', ← hsettled] at hsettle
  rw [hnews, ← hsettled] at hchomped
  rw [hfit, ← hsettle, hpatch]
  constructor
  · intro happlied
    split_ifs at happlied with happlies
    have htext := Option.some.inj happlied
    refine ⟨happlies, ?_⟩
    have hequal := Chomped.eq_of_flatten hchomped hended'
      (fun hmissing => completed_last hlined hmissing) (by rw [hreal', hnew]; exact htext)
    rw [hequal, hreal']
  · rintro ⟨happlies, hwrites⟩
    rw [if_pos happlies]
    exact congrArg some ((congrArg flatten hwrites).trans hnew)

/-- The middle line of an unterminated text replaced. -/
theorem applyPatch_eq_some_iff_replaced :
    let old := ['a', '\n', 'b', '\n', 'c']
    let new := ['a', '\n', 'x', '\n', 'c']
    let getOpcodes (_ _ : List (List Char)) : List Opcode :=
      [⟨.equal, 0, 1, 0, 1⟩, ⟨.replace, 1, 2, 1, 2⟩, ⟨.equal, 2, 3, 2, 3⟩]
    applyPatch ['f'] (generateUnifiedPatch getOpcodes ['f'] old new 4) old = some new ↔
      MarkersFit (missingNewline (splitLinesWithEndings old))
        (missingNewline (splitLinesWithEndings new)) (patchWalk getOpcodes old new 4) := by
  apply applyPatch_eq_some_iff
  constructor
  · exact Turns.equal [['a', '\n']] (Turns.change [['b', '\n']] [['x', '\n']] trivial
      (Turns.equal [['c', '\n']] (.done 3 3)))
  · decide
  · exact fun h => absurd h (by decide)

/-- A line appended to an unterminated text is joined to its last line. -/
theorem appended_line_joined :
    let old := ['a']
    let new := ['a', '\n', 'b', '\n']
    let getOpcodes (_ _ : List (List Char)) : List Opcode :=
      [⟨.equal, 0, 1, 0, 1⟩, ⟨.insert, 1, 1, 1, 2⟩]
    Correct (completed (splitLinesWithEndings old)) (completed (splitLinesWithEndings new))
      (getOpcodes (completed (splitLinesWithEndings old))
        (completed (splitLinesWithEndings new))) ∧
      applyPatch ['f'] (generateUnifiedPatch getOpcodes ['f'] old new 4) old =
        some ['a', 'b', '\n'] := by
  refine ⟨⟨?_, ?_, ?_⟩, by decide⟩
  · exact Turns.equal [['a', '\n']] (Turns.change [] [['b', '\n']] rfl (.done 1 2))
  · decide
  · exact fun h => absurd h (by decide)

end Patch

end Pidrei.PatchMarkers
