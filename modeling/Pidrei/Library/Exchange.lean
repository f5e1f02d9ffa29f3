import Mathlib.Data.List.Nodup

/-!
Questions and answers in a sequence of messages. A message asks for a list of things, and
what it asks for is answered at once: by the message behind it, or by the run of answers
behind it. Nothing is answered that was not asked just before.
-/
namespace Pidrei.Exchange

open List

variable {ι M : Type*} [DecidableEq ι]

/-- One answer for each question, and no other answer. -/
def Matches (asked answered : List ι) : Prop :=
  (∀ id ∈ asked, answered.count id = 1) ∧ ∀ id ∈ answered, id ∈ asked

instance (asked answered : List ι) : Decidable (Matches asked answered) :=
  inferInstanceAs (Decidable (_ ∧ _))

@[simp] theorem matches_nil_right (asked : List ι) : Matches asked [] ↔ asked = [] := by
  simp [Matches, eq_nil_iff_forall_not_mem]

@[simp] theorem matches_nil_left (answered : List ι) : Matches [] answered ↔ answered = [] := by
  simp [Matches, eq_nil_iff_forall_not_mem]

/-- Each message answers exactly what the message before it asks, and nothing stays open. -/
def AnsweredNext (asks answers : M → List ι) : List ι → List M → Prop
  | pending, [] => pending = []
  | pending, m :: rest => Matches pending (answers m) ∧ AnsweredNext asks answers (asks m) rest

instance decidableAnsweredNext (asks answers : M → List ι) :
    ∀ pending messages, Decidable (AnsweredNext asks answers pending messages)
  | pending, [] => inferInstanceAs (Decidable (pending = []))
  | pending, m :: rest =>
    have := decidableAnsweredNext asks answers (asks m) rest
    inferInstanceAs (Decidable (Matches pending (answers m) ∧ _))

/-- What a message asks is answered by the run of answers behind it: `given` are the answers
of the run so far. -/
def AnsweredInRun (asks : M → List ι) (answer : M → Option ι) : List ι → List ι → List M → Prop
  | pending, given, [] => Matches pending given
  | pending, given, m :: rest =>
    match answer m with
    | some id => AnsweredInRun asks answer pending (given ++ [id]) rest
    | none => Matches pending given ∧ AnsweredInRun asks answer (asks m) [] rest

section Next

variable {asks answers : M → List ι}

attribute [local simp] AnsweredNext in
/-- Messages that ask and answer nothing may stand before an exchange. -/
theorem answeredNext_plain {plain : List M} (h : ∀ m ∈ plain, asks m = [] ∧ answers m = [])
    (rest : List M) :
    AnsweredNext asks answers [] (plain ++ rest) ↔ AnsweredNext asks answers [] rest := by
  induction plain with
  | nil => exact .rfl
  | cons m plain ih =>
    obtain ⟨hasks, hanswers⟩ := h m mem_cons_self
    rw [cons_append, AnsweredNext, hasks, hanswers,
      ih fun other hother => h other (mem_cons_of_mem _ hother)]
    simp

theorem answeredNext_exchange {call reply : M} (hcall : answers call = [])
    (hreply : asks reply = []) (rest : List M) :
    AnsweredNext asks answers [] (call :: reply :: rest) ↔
      Matches (asks call) (answers reply) ∧ AnsweredNext asks answers [] rest := by
  simp [AnsweredNext, hcall, hreply]

variable {w : M}

theorem answeredNext_silent_before {m : M} (hasks : asks w = []) (hanswers : answers w = [])
    (hm : answers m = []) (pending : List ι) (rest : List M) :
    AnsweredNext asks answers pending (w :: m :: rest) ↔
      AnsweredNext asks answers pending (m :: rest) := by
  simp [AnsweredNext, hasks, hanswers, hm]

theorem answeredNext_silent_last (hasks : asks w = []) (hanswers : answers w = [])
    (pending : List ι) (messages : List M) : AnsweredNext asks answers pending (messages ++ [w]) ↔
      AnsweredNext asks answers pending messages := by
  induction messages generalizing pending with
  | nil => simp [AnsweredNext, hasks, hanswers]
  | cons m rest ih => simp [AnsweredNext, ih]

theorem answeredNext_congr {messages others : List M}
    (h : List.Forall₂ (fun m n => asks m = asks n ∧ answers m = answers n) messages others)
    (pending : List ι) :
    AnsweredNext asks answers pending messages ↔ AnsweredNext asks answers pending others := by
  induction h generalizing pending with
  | nil => exact .rfl
  | cons hhead _ ih =>
    rw [AnsweredNext, AnsweredNext, hhead.1, hhead.2, ih]

end Next

section Runs

variable {asks : M → List ι} {answer : M → Option ι}

/-- The run of answers ends where the messages go on. -/
def StartsPlain (answer : M → Option ι) (messages : List M) : Prop :=
  ∀ m ∈ messages.head?, answer m = none

variable {rest replies : List M} {ids : List ι}

attribute [local simp] AnsweredInRun in
theorem answeredInRun_startsPlain (h : StartsPlain answer rest) (pending given : List ι) :
    AnsweredInRun asks answer pending given rest ↔
      Matches pending given ∧ AnsweredInRun asks answer [] [] rest := by
  cases rest with
  | nil => simp [AnsweredInRun]
  | cons m rest =>
    have hm : answer m = none := h m rfl
    simp [AnsweredInRun, hm]

theorem answeredInRun_replies (h : replies.map answer = ids.map some) (pending given : List ι)
    (rest : List M) : AnsweredInRun asks answer pending given (replies ++ rest) ↔
      AnsweredInRun asks answer pending (given ++ ids) rest := by
  induction ids generalizing replies given with
  | nil =>
    rw [map_nil, map_eq_nil_iff] at h
    simp [h]
  | cons id ids ih =>
    obtain ⟨reply, others, rfl, hreply, hothers⟩ := map_eq_cons_iff.mp h
    rw [cons_append, AnsweredInRun, hreply]
    simpa using ih hothers (given ++ [id])

theorem answeredInRun_plain {plain : List M} (h : ∀ m ∈ plain, asks m = [] ∧ answer m = none)
    (rest : List M) :
    AnsweredInRun asks answer [] [] (plain ++ rest) ↔ AnsweredInRun asks answer [] [] rest := by
  induction plain with
  | nil => exact .rfl
  | cons m plain ih =>
    obtain ⟨hasks, hanswer⟩ := h m mem_cons_self
    rw [cons_append, AnsweredInRun, hanswer]
    simpa [hasks] using ih fun other hother => h other (mem_cons_of_mem _ hother)

theorem answeredInRun_exchange {call : M} (hcall : answer call = none)
    (hreplies : replies.map answer = ids.map some) (hrest : StartsPlain answer rest) :
    AnsweredInRun asks answer [] [] (call :: (replies ++ rest)) ↔
      Matches (asks call) ids ∧ AnsweredInRun asks answer [] [] rest := by
  rw [AnsweredInRun, hcall]
  simp only [matches_nil_left, true_and]
  rw [answeredInRun_replies hreplies, nil_append, answeredInRun_startsPlain hrest]

end Runs

/-- The answers that a run gives, when each of its messages gives one. -/
theorem filterMap_eq_of_map_eq {α β : Type*} {f : α → Option β} {xs : List α} {ys : List β}
    (h : xs.map f = ys.map some) : xs.filterMap f = ys := by
  have hid := congrArg (filterMap id) h
  simpa [filterMap_map] using hid

/-- Results that are passed on, with one more for each question they leave open, match the
questions when they are distinct and all of them asked. -/
theorem matches_completed_iff {asked results : List ι} (h : asked.Nodup) :
    Matches asked (results ++ asked.filter (· ∉ results)) ↔
      results.Nodup ∧ ∀ id ∈ results, id ∈ asked := by
  constructor
  · rintro ⟨hcount, hmem⟩
    have hasked : ∀ id ∈ results, id ∈ asked := fun id hid =>
      hmem id (mem_append_left _ hid)
    refine ⟨nodup_iff_count_le_one.mpr fun id => ?_, hasked⟩
    by_cases hid : id ∈ results
    · have honce := hcount id (hasked id hid)
      rw [count_append] at honce
      omega
    · rw [count_eq_zero.mpr hid]
      omega
  · rintro ⟨hnodup, hasked⟩
    have hall : (results ++ asked.filter (· ∉ results)).Nodup := by
      refine nodup_append.mpr ⟨hnodup, h.filter _, ?_⟩
      intro id hid other hother heq
      subst heq
      simp [hid] at hother
    refine ⟨fun id hid => count_eq_one_of_mem hall ?_, fun id hid => ?_⟩
    · by_cases hresult : id ∈ results
      · exact mem_append_left _ hresult
      · exact mem_append_right _ (mem_filter.mpr ⟨hid, by simpa using hresult⟩)
    · rcases mem_append.mp hid with hresult | hopen
      · exact hasked id hresult
      · exact (mem_filter.mp hopen).1

end Pidrei.Exchange
