import Pidrei.AgentRun
import Pidrei.DeferredContext
import Pidrei.Library.Chronicle
import Pidrei.Library.Runs

/-!
Context messages are recorded once, in the order in which they were deferred, and never between a
response and a tool result of its turn. Every message sent is in one place: with a writer, in a
list, in the hands of a flush, or on the branch. The writers and the flushes of a release only
append where no run has passed the lock, and the flushes of a run only where no turn is open.
-/
namespace Pidrei.DeferredContext

open Messages AgentTypes Chronicle List
open Option (elim some)
open Function (update update_of_ne update_self)
open Prod (mk)

/-- The message in the hands of a writer. -/
def writing : Option Holder → List Note
  | some (.deciding note) | some (.appending note) => [note]
  | _ => []

def releaseHand (kind : Kind) : Option Holder → List Note
  | some (.releasing held hand) => if held = kind then hand else []
  | _ => []

/-- What the flush of a run holds. -/
def runHand (kind : Kind) : Phase → List Note
  | .flushing point hand => if point.kind = kind then hand else []
  | _ => []

def inHand (s : State) (kind : Kind) : List Note :=
  releaseHand kind s.admission ++ runHand kind s.phase

/-- Who holds the lock where. -/
def Fits (phase : Phase) : Option Holder → Prop
  | some (.appending _) | some (.releasing ..) => phase = .idle ∨ phase = .claimed
  | some .clearing => phase = .ending
  | _ => True

/-- A run that passed the lock and is not ending leaves the lock to writers that only decide. -/
theorem Fits.move {phase : Phase} {admission : Option Holder} (h : Fits phase admission)
    (hphase : phase ≠ .idle ∧ phase ≠ .claimed ∧ phase ≠ .ending) (next : Phase) :
    Fits next admission := by
  unfold Fits at h ⊢
  split at h
  · exact absurd h (not_or.mpr ⟨hphase.1, hphase.2.1⟩)
  · exact absurd h (not_or.mpr ⟨hphase.1, hphase.2.1⟩)
  · exact absurd h hphase.2.2
  · trivial

/-- The release under way has yet to find the list of this kind empty. -/
def willFlush : Option Holder → Kind → Bool
  | some (.releasing .bash _), _ => true
  | some (.releasing .custom _), .custom => true
  | _, _ => false

/-- No context message stands after the response of the turn. -/
def Clean (turn : Nat) (log : List Entry) : Prop :=
  ∀ before response between, log = before ++ .message turn (.assistant response) :: between →
    ∀ entry ∈ between, entry.isContext = false

/-- A tool result may be appended where the response of its turn has no context message after it. -/
def Joins (log : List Entry) (entry : Entry) : Prop :=
  ∀ turn result, entry = .message turn (.toolResult result) → Clean turn log

/-- Every message sent is in one place, and the deferred ones keep their order. -/
structure Balanced (s : State) (hands : Kind → List Note) : Prop where
  accounted : ∀ note, s.waiting.count note + (writing s.admission).count note +
    ((s.pending note.kind).count note + (hands note.kind).count note) +
    (recorded s.log).count note = s.sent.count note
  ordered : ∀ kind, s.deferred.filter (·.kind = kind) =
    (flushed s.log).filter (·.kind = kind) ++ hands kind ++ s.pending kind

structure Invariant (s : State) : Prop where
  numbered : s.sent.map Note.number = List.range s.sent.length
  balanced : Balanced s (inHand s)
  active : s.isAgentRunActive = true ↔ s.phase ≠ .idle
  fits : Fits s.phase s.admission
  settled : s.phase = .idle → ∀ kind, willFlush s.admission kind = false → s.pending kind = []
  turns : ∀ turn response, .message turn (.assistant response) ∈ s.log → turn ≤ s.turn
  joined : Justified Joins s.log
  opened : s.answering = true → s.phase = .running ∧ Clean s.turn s.log

variable {log : List Entry} {turn : Nat} {s t : State} {kind : Kind} {hand : List Note}

theorem unsplit_iff_justified : Unsplit log ↔ Justified Joins log := by
  constructor
  · intro h before entry after hlog turn result hentry prior response between hbefore
    subst hentry hbefore
    exact h prior turn response between result after hlog
  · intro h before turn response between result after hlog
    exact h _ _ after hlog turn result rfl before response between rfl

theorem Clean.concat (h : Clean turn log) {entry : Entry} (hentry : entry.isContext = false) :
    Clean turn (log ++ [entry]) := by
  intro before response between hlog other hother
  obtain rfl | ⟨between, last, rfl⟩ := between.eq_nil_or_concat
  · exact nomatch hother
  · rw [concat_eq_append, ← cons_append, ← append_assoc] at hlog
    obtain ⟨hinit, hlast⟩ := append_inj' hlog rfl
    obtain rfl := (cons.inj hlast).1
    rw [concat_eq_append, mem_append, mem_singleton] at hother
    obtain hother | rfl := hother
    · exact h before response between hinit other hother
    · exact hentry

theorem clean_of_begins {message : AssistantMessage}
    (h : ∀ response, .message turn (.assistant response) ∉ log) :
    Clean turn (log ++ [Entry.message turn (.assistant message)]) := by
  apply Clean.concat _ rfl
  intro before response between hlog
  apply absurd (hlog ▸ _) (h response)
  exact mem_append_right _ mem_cons_self

@[simp] theorem recorded_concat_context (log : List Entry) (note : Note) (late : Bool) :
    recorded (log ++ [Entry.context note late]) = recorded log ++ [note] := by
  simp [recorded, Entry.note?]

@[simp] theorem recorded_concat_message (log : List Entry) (turn : Nat) (message : Message) :
    recorded (log ++ [Entry.message turn message]) = recorded log := by
  simp [recorded, Entry.note?]

@[simp] theorem flushed_concat_late (log : List Entry) (note : Note) :
    flushed (log ++ [Entry.context note true]) = flushed log ++ [note] := by
  simp [flushed, Entry.flushed?]

@[simp] theorem flushed_concat_direct (log : List Entry) (note : Note) :
    flushed (log ++ [Entry.context note false]) = flushed log := by
  simp [flushed, Entry.flushed?]

@[simp] theorem flushed_concat_message (log : List Entry) (turn : Nat) (message : Message) :
    flushed (log ++ [Entry.message turn message]) = flushed log := by
  simp [flushed, Entry.flushed?]

theorem invariant_start : Invariant start where
  numbered := rfl
  balanced := ⟨fun _ => rfl, fun _ => rfl⟩
  active := by simp [start]
  fits := trivial
  settled := fun _ _ _ => rfl
  turns := fun _ _ h => nomatch h
  joined := justified_nil
  opened := nofun

section Balance

variable {s : State} {hands : Kind → List Note}

theorem count_update_pending (pending : Kind → List Note) (note other : Note) :
    (update pending note.kind (pending note.kind ++ [note]) other.kind).count other =
      (pending other.kind).count other + [note].count other := by
  by_cases hkind : other.kind = note.kind
  · rw [hkind, update_self, count_append]
  · rw [update_of_ne hkind, count_singleton, if_neg, Nat.add_zero]
    intro h
    exact hkind (congrArg Note.kind (eq_of_beq h).symm)

theorem Balanced.defer (h : Balanced s hands) (note : Note) {sent waiting : List Note}
    {admission : Option Holder}
    (hmoves : ∀ other, waiting.count other + (writing admission).count other + s.sent.count other +
      [note].count other = s.waiting.count other + (writing s.admission).count other +
      sent.count other) :
    Balanced { defer s note with sent := sent, waiting := waiting, admission := admission }
      hands where
  accounted other := by
    have hold := h.accounted other
    have hmove := hmoves other
    have hpending := count_update_pending s.pending note other
    simp only [DeferredContext.defer] at *
    omega
  ordered kind := by
    have hold := h.ordered kind
    simp only [DeferredContext.defer, filter_append, hold]
    by_cases hkind : kind = note.kind
    · subst hkind
      simp
    · rw [update_of_ne hkind]
      simp [Ne.symm hkind]

variable {kind : Kind} {note : Note}

theorem Balanced.kind_of_mem_hand (h : Balanced s hands) (hnote : note ∈ hands kind) :
    note.kind = kind := by
  have hmem : note ∈ s.deferred.filter (·.kind = kind) := by
    rw [h.ordered kind]
    exact mem_append_left _ (mem_append_right _ hnote)
  simpa using (mem_filter.mp hmem).2

theorem Balanced.record (h : Balanced s hands) {rest : List Note}
    (hhand : hands kind = note :: rest) :
    Balanced (record s note true) (update hands kind rest) where
  accounted other := by
    have hold := h.accounted other
    have hnote : note.kind = kind := h.kind_of_mem_hand (hhand ▸ mem_cons_self)
    simp only [DeferredContext.record, recorded_concat_context, count_append] at *
    by_cases hkind : other.kind = kind
    · rw [hkind, update_self]
      rw [hkind, hhand, ← singleton_append, count_append] at hold
      omega
    · have hother : [note].count other = 0 := by
        rw [count_eq_zero, mem_singleton]
        intro heq
        exact hkind (heq ▸ hnote)
      rw [update_of_ne hkind]
      omega
  ordered other := by
    have hold := h.ordered other
    have hnote : note.kind = kind := h.kind_of_mem_hand (hhand ▸ mem_cons_self)
    simp only [DeferredContext.record, flushed_concat_late, filter_append]
    by_cases hkind : other = kind
    · rw [hkind, hhand] at hold
      rw [hkind, update_self, hold]
      simp [hnote]
    · rw [update_of_ne hkind, hold]
      simp [hnote, Ne.symm hkind]

theorem Balanced.take (h : Balanced s hands) (hhand : hands kind = []) :
    Balanced { s with pending := update s.pending kind [] }
      (update hands kind (s.pending kind)) where
  accounted note := by
    have hold := h.accounted note
    dsimp only
    by_cases hkind : note.kind = kind
    · rw [hkind, hhand] at hold
      rw [hkind, update_self, update_self]
      omega
    · rw [update_of_ne hkind, update_of_ne hkind]
      exact hold
  ordered other := by
    have hold := h.ordered other
    dsimp only
    by_cases hkind : other = kind
    · rw [hkind, hhand] at hold
      rw [hkind, update_self, update_self, hold]
      simp
    · rw [update_of_ne hkind, update_of_ne hkind]
      exact hold

theorem Balanced.flush (h : Balanced s hands) (kind : Kind) {hand : List Note}
    (hhand : hands kind = hand) :
    Balanced (flush s kind hand).1
      (update hands kind ((flush s kind hand).2.getD [])) := by
  cases hand with
  | cons note rest => exact h.record hhand
  | nil =>
    by_cases hpending : s.pending kind = []
    · have hsame : update hands kind [] = hands := by
        rw [← hhand, Function.update_eq_self]
      simpa [DeferredContext.flush, hpending, hsame] using h
    · simpa [DeferredContext.flush, hpending] using h.take hhand

end Balance

section Steps

variable {s : State} (hs : Invariant s)

include hs

variable {phase : Phase} {admission : Option Holder} {answering : Bool} {note : Note} {t : State}
   {left : Option (List Note)} {kind : Kind} {hand : List Note}

/-- A step that moves no message and opens no turn. -/
theorem Invariant.quiet {active : Bool} (hactive : active = true ↔ phase ≠ .idle)
    (hfits : Fits phase admission) (hrun : ∀ kind, runHand kind phase = runHand kind s.phase)
    (hrelease : ∀ kind, releaseHand kind admission = releaseHand kind s.admission)
    (hwriting : writing admission = writing s.admission)
    (hsettled : phase = .idle → ∀ kind, willFlush admission kind = false → s.pending kind = [])
    (hopened : answering = true → s.answering = true ∧ phase = .running) : Invariant { s with
      isAgentRunActive := active, admission := admission, phase := phase,
      answering := answering } where
  numbered := hs.numbered
  balanced := by
    refine ⟨fun note => ?_, fun kind => ?_⟩
    · have h := hs.balanced.accounted note
      rw [inHand, hrun, hrelease, hwriting]
      exact h
    · have h := hs.balanced.ordered kind
      rw [inHand, hrun, hrelease]
      exact h
  active := hactive
  fits := hfits
  settled := hsettled
  turns := hs.turns
  joined := hs.joined
  opened h := ⟨(hopened h).2, (hs.opened (hopened h).1).2⟩

/-- An agent's turn is open only while the agent runs. -/
theorem Invariant.closed (h : s.phase ≠ .running) : s.answering = false := by
  by_contra hopen
  exact h (hs.opened (by simpa using hopen)).1

theorem Invariant.call (message : ContextMessage) :
    Invariant { s with
      sent := s.sent ++ [⟨s.sent.length, message⟩],
      waiting := s.waiting ++ [⟨s.sent.length, message⟩] } where
  numbered := by simp [hs.numbered, range_succ]
  balanced := by
    refine ⟨fun note => ?_, hs.balanced.ordered⟩
    have hold := hs.balanced.accounted note
    simp only [inHand, count_append] at *
    omega
  active := hs.active
  fits := hs.fits
  settled := hs.settled
  turns := hs.turns
  joined := hs.joined
  opened := hs.opened

theorem Invariant.dispatch (m : CustomMessage) : Invariant (dispatchCustomMessage s m) := by
  unfold dispatchCustomMessage
  split
  next hactive =>
    refine { hs with numbered := ?_, balanced := ?_, settled := ?_ }
    · simp [DeferredContext.defer, hs.numbered, range_succ]
    · refine hs.balanced.defer (s := s) ⟨s.sent.length, .custom m⟩ ?_
      intro other
      simp only [count_append]
      omega
    · intro hidle
      exact absurd hidle (hs.active.mp hactive)
  next => exact hs.call (.custom m)

theorem Invariant.acquire (hfree : s.admission = none) (hnote : note ∈ s.waiting) :
    Invariant { s with
      admission := some (.deciding note), waiting := s.waiting.erase note } where
  numbered := hs.numbered
  balanced := by
    have hhands : ∀ kind, inHand { s with
        admission := some (.deciding note), waiting := s.waiting.erase note } kind =
        inHand s kind := by
      intro kind
      simp [inHand, hfree, releaseHand]
    refine ⟨fun other => ?_, fun kind => ?_⟩
    · have hold := hs.balanced.accounted other
      have hcount := count_pos_iff.mpr hnote
      rw [hhands, count_erase]
      simp only [hfree, writing, count_nil, count_singleton] at *
      by_cases hother : note = other
      · subst hother
        simp only [beq_self_eq_true, if_true]
        omega
      · simp only [beq_eq_false_iff_ne.mpr hother, Bool.false_eq_true, if_false]
        omega
    · rw [hhands]
      exact hs.balanced.ordered kind
  active := hs.active
  fits := trivial
  settled := by
    intro hidle kind _
    exact hs.settled hidle kind (by rw [hfree]; rfl)
  turns := hs.turns
  joined := hs.joined
  opened := hs.opened

theorem Invariant.decide (hholder : s.admission = some (.deciding note)) :
    Invariant (decideWrite s note) := by
  unfold decideWrite
  split
  next hactive =>
    have hhands : inHand { defer s note with admission := none } = inHand s := by
      funext kind
      simp [inHand, hholder, releaseHand, DeferredContext.defer]
    refine { hs with balanced := ?_, fits := trivial, settled := ?_ }
    · rw [hhands]
      refine hs.balanced.defer (s := s) note ?_
      intro other
      simp only [hholder, writing, count_nil, DeferredContext.defer]
      omega
    · intro hidle
      exact absurd hidle (hs.active.mp hactive)
  next hactive =>
    have hidle : s.phase = .idle := by
      by_contra hbusy
      exact hactive (hs.active.mpr hbusy)
    refine hs.quiet hs.active (.inl hidle) (fun _ => rfl) ?_ ?_ ?_ ?_
    · intro kind
      rw [hholder]
      rfl
    · rw [hholder]
      rfl
    · intro _ kind _
      exact hs.settled hidle kind (by rw [hholder]; rfl)
    · intro hopen
      exact ⟨hopen, (hs.opened hopen).1⟩

/-- A context message is appended where no turn is open. -/
theorem Invariant.joined_record (note : Note) (late : Bool) :
    Justified Joins (record s note late).log :=
  hs.joined.concat fun _ _ h => nomatch h

theorem Invariant.turns_record (note : Note) (late : Bool) (turn : Nat)
    (response : AssistantMessage)
    (h : .message turn (.assistant response) ∈ (record s note late).log) : turn ≤ s.turn := by
  rcases mem_append.mp h with hlog | hlast
  · exact hs.turns turn response hlog
  · simp at hlast

theorem Invariant.append (hholder : s.admission = some (.appending note)) :
    Invariant { record s note false with admission := none } where
  numbered := hs.numbered
  balanced := by
    have hhands : inHand { record s note false with admission := none } = inHand s := by
      funext kind
      simp [inHand, hholder, releaseHand, DeferredContext.record]
    rw [hhands]
    refine ⟨fun other => ?_, fun kind => ?_⟩
    · have hold := hs.balanced.accounted other
      simp only [DeferredContext.record, recorded_concat_context, count_append, hholder,
        writing, count_nil] at *
      omega
    · have hold := hs.balanced.ordered kind
      simpa only [DeferredContext.record, flushed_concat_direct] using hold
  active := hs.active
  fits := trivial
  settled := by
    intro hidle kind _
    exact hs.settled hidle kind (by rw [hholder]; rfl)
  turns := hs.turns_record note false
  joined := hs.joined_record note false
  opened := by
    intro hopen
    have hfits := hs.fits
    rw [hholder] at hfits
    have hrunning := (hs.opened hopen).1
    rcases hfits with h | h <;> rw [h] at hrunning <;> cases hrunning

omit hs in
/-- A flush step changes a list or appends one message, and nothing else. -/
theorem flush_shape (hflush : flush s kind hand = (t, left)) :
    ∃ log pending, t = { s with log := log, pending := pending } ∧
      (log = s.log ∨ ∃ note, log = (record s note true).log) := by
  cases hand with
  | cons note rest =>
    obtain ⟨rfl, -⟩ := mk.inj hflush
    exact ⟨(record s note true).log, s.pending, rfl, .inr ⟨note, rfl⟩⟩
  | nil =>
    by_cases hpending : s.pending kind = []
    · obtain ⟨rfl, -⟩ := mk.inj ((if_pos hpending).symm.trans hflush)
      exact ⟨s.log, s.pending, rfl, .inl rfl⟩
    · obtain ⟨rfl, -⟩ := mk.inj ((if_neg hpending).symm.trans hflush)
      exact ⟨s.log, update s.pending kind [], rfl, .inl rfl⟩

omit hs in
theorem flush_pending (hflush : flush s kind hand = (t, left)) :
    (left = none → t.pending kind = []) ∧ ∀ other, other ≠ kind → t.pending other = s.pending other := by
  cases hand with
  | cons note rest =>
    obtain ⟨rfl, rfl⟩ := mk.inj hflush
    exact ⟨(nofun), fun _ _ => rfl⟩
  | nil =>
    by_cases hpending : s.pending kind = []
    · obtain ⟨rfl, -⟩ := mk.inj ((if_pos hpending).symm.trans hflush)
      exact ⟨fun _ => hpending, fun _ _ => rfl⟩
    · obtain ⟨rfl, rfl⟩ := mk.inj ((if_neg hpending).symm.trans hflush)
      exact ⟨(nofun), fun other hother => update_of_ne hother _ _⟩

theorem Invariant.flushed
    (hflush : flush s kind hand = (t, left))
    (hrunning : s.phase ≠ .running) (hhand : inHand s kind = hand)
    (hwriting : writing admission = writing s.admission)
    (hhands : ∀ other, releaseHand other admission ++ runHand other phase =
      update (inHand s) kind (left.getD []) other)
    (hidle : s.phase = .idle ↔ phase = .idle) (hfits : Fits phase admission)
    (hsettled : phase = .idle → ∀ other, willFlush admission other = false →
      t.pending other = []) :
    Invariant { t with phase := phase, admission := admission } := by
  have hclosed := hs.closed hrunning
  have hbalanced := hs.balanced.flush kind hhand
  obtain ⟨log, pending, rfl, hlog⟩ := flush_shape hflush
  rw [hflush, ← funext hhands] at hbalanced
  refine { hs with
    balanced := ⟨fun note => ?_, hbalanced.ordered⟩
    active := hs.active.trans (not_congr hidle)
    fits := hfits
    settled := hsettled
    turns := ?_
    joined := ?_
    opened := fun hopen => absurd hclosed (by simp [show s.answering = true from hopen]) }
  · have hold := hbalanced.accounted note
    simp only [hwriting]
    exact hold
  · obtain rfl | ⟨note, rfl⟩ := hlog
    · exact hs.turns
    · exact hs.turns_record note true
  · obtain rfl | ⟨note, rfl⟩ := hlog
    · exact hs.joined
    · exact hs.joined_record note true

/-- While a release flushes, no run has passed the lock. -/
theorem Invariant.releaseHand_eq_nil (h₁ : s.phase ≠ .idle) (h₂ : s.phase ≠ .claimed)
    (kind : Kind) : releaseHand kind s.admission = [] := by
  have hfits := hs.fits
  generalize s.admission = admission at hfits
  unfold releaseHand
  split
  · exact absurd hfits (not_or.mpr ⟨h₁, h₂⟩)
  · rfl

theorem Invariant.flushRun {point : Point} (hphase : s.phase = .flushing point hand) :
    Invariant (flushRun s point hand) := by
  have hrelease := hs.releaseHand_eq_nil (by simp [hphase]) (by simp [hphase])
  have hfits := hs.fits.move (by simp [hphase])
  unfold DeferredContext.flushRun
  rcases hflush : flush s point.kind hand with ⟨t, left⟩
  have hnext : left.elim point.next (.flushing point) ≠ .idle := by
    cases left <;> cases point <;> simp [Point.next]
  have hnew : Invariant { t with
      phase := left.elim point.next (.flushing point), admission := s.admission } := by
    refine hs.flushed hflush (by simp [hphase]) ?_ rfl ?_ ?_ (hfits _) (absurd · hnext)
    · simp [inHand, hrelease, hphase, runHand]
    · intro other
      rw [hrelease]
      by_cases hkind : other = point.kind
      · rw [hkind, update_self]
        cases left with
        | none => cases point <;> rfl
        | some left => simp [runHand]
      · rw [update_of_ne hkind]
        have hnone : runHand other (left.elim point.next (.flushing point)) = [] := by
          cases left with
          | none => cases point <;> simp [Point.next, runHand]
          | some left => simp [runHand, Ne.symm hkind]
        rw [hnone, inHand, hrelease, hphase]
        simp [runHand, Ne.symm hkind]
    · simp [hphase, hnext]
  obtain ⟨log, pending, rfl, -⟩ := flush_shape hflush
  exact hnew

theorem Invariant.flushRelease (hholder : s.admission = some (.releasing kind hand)) :
    Invariant (flushRelease s kind hand) := by
  have hplace := hs.fits
  rw [hholder] at hplace
  have hrun : ∀ other, runHand other s.phase = [] := by
    intro other
    rcases hplace with h | h <;> rw [h] <;> rfl
  unfold DeferredContext.flushRelease
  rcases hflush : flush s kind hand with ⟨t, left⟩
  have hnew : Invariant { t with
      phase := s.phase
      admission := left.elim (releaseNext kind) fun hand => some (.releasing kind hand) } := by
    refine hs.flushed hflush ?_ ?_ ?_ ?_ .rfl ?_ ?_
    · rcases hplace with h | h <;> simp [h]
    · simp [inHand, hrun, hholder, releaseHand]
    · rw [hholder]
      cases left with
      | none => cases kind <;> rfl
      | some left => rfl
    · intro other
      rw [hrun, append_nil]
      by_cases hkind : other = kind
      · rw [hkind, update_self]
        cases left with
        | none => cases kind <;> rfl
        | some left => simp [releaseHand]
      · rw [update_of_ne hkind]
        have hnone : releaseHand other (left.elim (releaseNext kind)
            fun hand => some (.releasing kind hand)) = [] := by
          cases left with
          | none => cases kind <;> simp [releaseNext, releaseHand]
          | some left => simp [releaseHand, Ne.symm hkind]
        rw [hnone, inHand, hrun, hholder]
        simp [releaseHand, Ne.symm hkind]
    · cases left with
      | none =>
        cases kind with
        | bash => exact hplace
        | custom => trivial
      | some left => exact hplace
    · intro hidle other hdone
      have hsettled := hs.settled hidle
      rw [hholder] at hsettled
      obtain ⟨hdrained, hframe⟩ := flush_pending hflush
      by_cases hkind : other = kind
      · subst hkind
        cases left with
        | none => exact hdrained rfl
        | some left => cases other <;> cases hdone
      · rw [hframe other hkind]
        apply hsettled
        cases kind with
        | custom =>
          cases other with
          | custom => exact absurd rfl hkind
          | bash => rfl
        | bash =>
          cases other with
          | custom => cases left <;> cases hdone
          | bash => exact absurd rfl hkind
  obtain ⟨log, pending, rfl, -⟩ := flush_shape hflush
  exact hnew

theorem Invariant.clear (hholder : s.admission = some .clearing) :
    Invariant { s with
      isAgentRunActive := false, phase := .idle, admission := some (.releasing .bash []) } := by
  have hphase := hs.fits
  rw [hholder] at hphase
  have hclosed := hs.closed (by simp [show s.phase = .ending from hphase])
  refine hs.quiet (by simp) (.inl rfl) ?_ ?_ ?_ ?_ ?_
  · intro kind
    rw [show s.phase = .ending from hphase]
    rfl
  · intro kind
    rw [hholder]
    simp [releaseHand]
  · rw [hholder]
    rfl
  · intro _ kind hdone
    cases kind <;> cases hdone
  · intro hopen
    exact absurd hopen (by simp [hclosed])

theorem Invariant.message (hrunning : s.phase = .running) {turn : Nat} {message : Message}
    (hturn : s.turn ≤ turn) (hturns : ∀ response, message = .assistant response → s.turn < turn)
    (hjoins : Joins s.log (.message turn message))
    (hopened : answering = true → Clean turn (s.log ++ [Entry.message turn message])) :
    Invariant { s with
      turn := turn, answering := answering, log := s.log ++ [Entry.message turn message] } := by
  refine { hs with
    balanced := ⟨fun note => ?_, fun kind => ?_⟩
    turns := fun other response hmem => ?_
    joined := hs.joined.concat hjoins
    opened := fun hopen => ⟨hrunning, hopened hopen⟩ }
  · have hold := hs.balanced.accounted note
    simp only [recorded_concat_message]
    exact hold
  · have hold := hs.balanced.ordered kind
    simp only [flushed_concat_message]
    exact hold
  · rcases mem_append.mp hmem with hlog | hlast
    · exact Nat.le_trans (hs.turns other response hlog) hturn
    · obtain ⟨rfl, -⟩ := Entry.message.inj (mem_singleton.mp hlast)
      exact Nat.le_refl _

theorem Invariant.otherMessage (hrunning : s.phase = .running) {message : Message}
    (hassistant : ∀ response, message ≠ .assistant response)
    (hresult : ∀ result, message ≠ .toolResult result) :
    Invariant { s with log := s.log ++ [Entry.message s.turn message] } := by
  refine hs.message hrunning (Nat.le_refl _) (fun response h => absurd h (hassistant response)) ?_ ?_
  · intro turn result h
    exact absurd (Entry.message.inj h).2 (hresult result)
  · intro hopen
    exact (hs.opened hopen).2.concat rfl

theorem Invariant.agentEvent {event : AgentEvent} (hrunning : s.phase = .running)
    (hnext : nextAnswering s.answering event = some answering) :
    Invariant (handleAgentEvent s event answering) := by
  cases event with
  | messageEnd message =>
    cases message with
    | assistant response =>
      refine hs.message hrunning (Nat.le_succ _) (fun _ _ => Nat.lt_succ_self _) ?_ ?_
      · intro turn result h
        exact nomatch h
      · intro _
        apply clean_of_begins
        intro other hmem
        exact Nat.not_succ_le_self _ (hs.turns _ other hmem)
    | toolResult result =>
      have hopen : s.answering = true := by
        by_contra hclosed
        simp [nextAnswering, hclosed] at hnext
      have hclean := (hs.opened hopen).2
      refine hs.message hrunning (Nat.le_refl _) (fun _ h => nomatch h) ?_ ?_
      · intro turn other h
        rw [← (Entry.message.inj h).1]
        exact hclean
      · intro _
        exact hclean.concat rfl
    | _ =>
      obtain rfl := some.inj hnext
      first
        | exact hs
        | exact hs.otherMessage hrunning (fun _ h => nomatch h) (fun _ h => nomatch h)
  | turnEnd message results =>
    cases hnext
    refine hs.quiet ?_ (hs.fits.move (by simp [hrunning]) _) ?_ (fun _ => rfl) rfl
      (nofun) (nofun)
    · simp [hs.active, hrunning]
    · intro kind
      simp [hrunning, runHand]
  | _ =>
    cases hnext
    exact hs

theorem Invariant.move (hphase : s.phase ≠ .idle ∧ s.phase ≠ .claimed ∧ s.phase ≠ .ending)
    (hnext : phase ≠ .idle) (hhand : ∀ kind, runHand kind s.phase = [])
    (hnextHand : ∀ kind, runHand kind phase = []) (hclosed : s.answering = false) :
    Invariant { s with phase := phase } := by
  refine hs.quiet ?_ (hs.fits.move hphase phase) ?_ (fun _ => rfl) rfl (absurd · hnext) ?_
  · simp [hs.active, hphase.1, hnext]
  · intro kind
    rw [hhand, hnextHand]
  · intro hopen
    exact absurd hopen (by simp [hclosed])

end Steps

theorem guarded {p : Prop} [Decidable p] (h : (if p then some s else none) = some t) :
    p ∧ t = s := by
  split at h
  next hp => exact ⟨hp, (some.inj h).symm⟩
  next => cases h

theorem Invariant.step {s t : State} {action : Action} (hs : Invariant s)
    (h : DeferredContext.step s action = some t) : Invariant t := by
  cases action with
  | dispatchCustomMessage m =>
    obtain rfl := some.inj h
    exact hs.dispatch m
  | recordBashResult m =>
    obtain rfl := some.inj h
    exact hs.call (.bash m)
  | acquire note =>
    obtain ⟨⟨hfree, hnote⟩, rfl⟩ := guarded h
    exact hs.acquire hfree hnote
  | decide =>
    simp only [DeferredContext.step] at h
    split at h
    next note hholder =>
      obtain rfl := some.inj h
      exact hs.decide hholder
    next => cases h
  | append =>
    simp only [DeferredContext.step] at h
    split at h
    next note hholder =>
      cases h
      exact hs.append hholder
    next => cases h
  | claim =>
    obtain ⟨hactive, rfl⟩ := guarded h
    have hidle : s.phase = .idle := by
      by_contra hbusy
      simp [hs.active.mpr hbusy] at hactive
    have hfits := hs.fits
    refine hs.quiet (by simp) ?_ ?_ (fun _ => rfl) rfl (fun h => by cases h) ?_
    · unfold Fits at hfits ⊢
      split at hfits <;> simp_all
    · intro kind
      rw [hidle]
      rfl
    · intro hopen
      rw [hs.closed (by simp [hidle])] at hopen
      cases hopen
  | admitRun =>
    obtain ⟨⟨hphase, hfree⟩, rfl⟩ := guarded h
    refine hs.quiet ?_ ?_ ?_ (fun _ => rfl) rfl (fun h => by cases h) ?_
    · simp [hs.active, hphase]
    · rw [hfree]
      trivial
    · intro kind
      rw [hphase]
      rfl
    · intro hopen
      rw [hs.closed (by simp [hphase])] at hopen
      cases hopen
  | prepared | prompt | «continue» | beforeSettle | endRun =>
    obtain ⟨hphase, rfl⟩ := guarded h
    exact hs.move (by simp [hphase]) (by simp) (by simp [hphase, runHand]) (by simp [runHand])
      (hs.closed (by simp [hphase]))
  | fail =>
    obtain ⟨hphase, rfl⟩ := guarded h
    have hclosed := hs.closed (by rcases hphase with h | h <;> simp [h])
    refine hs.move ?_ (by simp) ?_ (by simp [runHand]) hclosed
    · rcases hphase with h | h <;> simp [h]
    · rcases hphase with h | h <;> simp [h, runHand]
  | flush =>
    simp only [DeferredContext.step] at h
    split at h
    next point hand hphase =>
      cases h
      exact hs.flushRun hphase
    next => cases h
  | agentEvent event =>
    simp only [DeferredContext.step, Option.ite_none_right_eq_some] at h
    obtain ⟨hphase, hevent⟩ := h
    obtain ⟨answering, hnext, rfl⟩ := Option.map_eq_some_iff.mp hevent
    exact hs.agentEvent hphase hnext
  | agentReturn =>
    obtain ⟨hphase, rfl⟩ := guarded h
    refine hs.quiet ?_ (hs.fits.move (by simp [hphase]) _) ?_ (fun _ => rfl) rfl
      (fun h => by cases h) (fun h => by cases h)
    · simp [hs.active, hphase]
    · simp [hphase, runHand]
  | release =>
    obtain ⟨⟨hphase, hfree⟩, rfl⟩ := guarded h
    refine hs.quiet hs.active hphase (fun _ => rfl) ?_ ?_ ?_ ?_
    · simp [hfree, releaseHand]
    · rw [hfree]
      rfl
    · simp [hphase]
    · intro hopen
      exact ⟨hopen, (hs.opened hopen).1⟩
  | clear =>
    obtain ⟨hholder, rfl⟩ := guarded h
    exact hs.clear hholder
  | flushRelease =>
    simp only [DeferredContext.step] at h
    split at h
    next kind hand hholder =>
      cases h
      exact hs.flushRelease hholder
    next => cases h

theorem Invariant.sent_nodup (hs : Invariant s) : s.sent.Nodup := by
  apply List.Nodup.of_map Note.number
  rw [hs.numbered]
  exact nodup_range

theorem Invariant.recorded_le (hs : Invariant s) (note : Note) :
    (recorded s.log).count note ≤ s.sent.count note := by
  have h := hs.balanced.accounted note
  omega

theorem Invariant.drained (hs : Invariant s) (hrest : AtRest s) (kind : Kind) :
    s.pending kind = [] := by
  obtain ⟨hactive, hfree, -⟩ := hrest
  have hidle : s.phase = .idle := by
    by_contra hbusy
    simp [hs.active.mpr hbusy] at hactive
  exact hs.settled hidle kind (by rw [hfree]; rfl)

theorem Invariant.hands_empty (hs : Invariant s) (hrest : AtRest s) (kind : Kind) :
    inHand s kind = [] := by
  obtain ⟨hactive, hfree, -⟩ := hrest
  have hidle : s.phase = .idle := by
    by_contra hbusy
    simp [hs.active.mpr hbusy] at hactive
  simp [inHand, hfree, hidle, releaseHand, runHand]

theorem Invariant.recorded_perm (hs : Invariant s) (hrest : AtRest s) :
    (recorded s.log).Perm s.sent := by
  rw [perm_iff_count]
  intro note
  have h := hs.balanced.accounted note
  rw [hs.drained hrest, hs.hands_empty hrest, hrest.2.1, hrest.2.2] at h
  simpa [writing] using h

def pointWork : Point → Nat
  | .boundary => 7
  | .turnEnd => 9
  | .startCustom => 10
  | .startBash => 11

/-- The work of a run that only goes on to its end. -/
def phaseWork : Phase → Nat
  | .idle => 0
  | .ending => 5
  | .between => 6
  | .running => 8
  | .ready => 9
  | .flushing point hand => pointWork point + 2 * hand.length
  | .preparing => 12
  | .claimed => 13

def holderWork : Option Holder → Nat
  | some .clearing => 0
  | none => 1
  | some (.appending _) => 2
  | some (.releasing .custom hand) => 2 + 2 * hand.length
  | some (.releasing .bash hand) => 3 + 2 * hand.length
  | some (.deciding _) => 6

def listWork (pending : Kind → List Note) : Nat :=
  3 * ((pending .custom).length + (pending .bash).length)

/-- What the session has left to do by itself. -/
def work (s : State) : Nat :=
  6 * s.waiting.length + listWork s.pending + holderWork s.admission + phaseWork s.phase

theorem listWork_take {pending : Kind → List Note} (h : pending kind ≠ []) :
    listWork (update pending kind []) + 2 * (pending kind).length < listWork pending := by
  have hpos := length_pos_iff.mpr h
  cases kind <;> simp [listWork, update] <;> omega

theorem flush_work {left : Option (List Note)} (hflush : flush s kind hand = (t, left)) :
    (t = s ∧ left = none ∧ hand = []) ∨ ∃ rest, left = some rest ∧
      listWork t.pending + 2 * rest.length < listWork s.pending + 2 * hand.length := by
  cases hand with
  | cons note rest =>
    cases hflush
    exact .inr ⟨rest, rfl, by simp [record]⟩
  | nil =>
    by_cases hpending : s.pending kind = []
    · obtain ⟨rfl, rfl⟩ := mk.inj ((if_pos hpending).symm.trans hflush)
      exact .inl ⟨rfl, rfl, rfl⟩
    · obtain ⟨rfl, rfl⟩ := mk.inj ((if_neg hpending).symm.trans hflush)
      exact .inr ⟨s.pending kind, rfl, listWork_take hpending⟩

theorem listWork_defer (s : State) (note : Note) :
    listWork (defer s note).pending = listWork s.pending + 3 := by
  unfold defer
  cases note.kind <;> simp [listWork, update] <;> omega

theorem flushRun_work {point : Point} (hphase : s.phase = .flushing point hand) :
    work (flushRun s point hand) < work s := by
  unfold flushRun
  rcases hflush : flush s point.kind hand with ⟨t, left⟩
  obtain ⟨log, pending, rfl, -⟩ := flush_shape hflush
  rcases flush_work hflush with ⟨ht, rfl, rfl⟩ | ⟨rest, rfl, hless⟩
  · have hpending : pending = s.pending := congrArg State.pending ht
    cases point <;> simp [work, hphase, hpending, Point.next, phaseWork, pointWork]
  · simp only [work, hphase, phaseWork, elim] at hless ⊢
    omega

theorem flushRun_sent (s : State) (point : Point) (hand : List Note) :
    (flushRun s point hand).sent = s.sent := by
  unfold flushRun
  rcases hflush : flush s point.kind hand with ⟨t, left⟩
  obtain ⟨log, pending, rfl, -⟩ := flush_shape hflush
  rfl

theorem flushRelease_sent (s : State) (kind : Kind) (hand : List Note) :
    (flushRelease s kind hand).sent = s.sent := by
  unfold flushRelease
  rcases hflush : flush s kind hand with ⟨t, left⟩
  obtain ⟨log, pending, rfl, -⟩ := flush_shape hflush
  rfl

theorem flushRelease_work (hholder : s.admission = some (.releasing kind hand)) :
    work (flushRelease s kind hand) < work s := by
  unfold flushRelease
  rcases hflush : flush s kind hand with ⟨t, left⟩
  obtain ⟨log, pending, rfl, -⟩ := flush_shape hflush
  rcases flush_work hflush with ⟨ht, rfl, rfl⟩ | ⟨rest, rfl, hless⟩
  · have hpending : pending = s.pending := congrArg State.pending ht
    cases kind <;> simp [work, hholder, hpending, releaseNext, holderWork]
  · cases kind <;> simp only [work, hholder, holderWork, elim] at hless ⊢ <;> omega

theorem progress (hs : Invariant s) (hbusy : ¬ AtRest s) :
    ∃ action t, action.isOwn = true ∧ step s action = some t ∧ t.sent = s.sent ∧
      work t < work s := by
  rcases hholder : s.admission with _ | holder
  · rcases hwaiting : s.waiting with _ | ⟨note, rest⟩
    · have hactive : s.isAgentRunActive = true := by
        by_contra hidle
        exact hbusy ⟨by simpa using hidle, hholder, hwaiting⟩
      cases hphase : s.phase with
      | idle => exact absurd hphase (hs.active.mp hactive)
      | claimed =>
        refine ⟨.admitRun, _, rfl, if_pos ⟨hphase, hholder⟩, rfl, ?_⟩
        simp [work, hphase, phaseWork]
      | preparing =>
        refine ⟨.prepared, _, rfl, if_pos hphase, rfl, ?_⟩
        simp [work, hphase, phaseWork, pointWork]
      | flushing point hand =>
        exact ⟨.flush, flushRun s point hand, rfl, by simp only [step, hphase], flushRun_sent s point hand,
          flushRun_work hphase⟩
      | ready =>
        refine ⟨.prompt, _, rfl, if_pos hphase, rfl, ?_⟩
        simp [work, hphase, phaseWork]
      | running =>
        refine ⟨.agentReturn, _, rfl, if_pos hphase, rfl, ?_⟩
        simp [work, hphase, phaseWork]
      | between =>
        refine ⟨.endRun, _, rfl, if_pos hphase, rfl, ?_⟩
        simp [work, hphase, phaseWork]
      | ending =>
        refine ⟨.release, _, rfl, if_pos ⟨hphase, hholder⟩, rfl, ?_⟩
        simp [work, hholder, holderWork]
    · have hmem : note ∈ s.waiting := by
        rw [hwaiting]
        exact mem_cons_self
      refine ⟨.acquire note, _, rfl, if_pos ⟨hholder, hmem⟩, rfl, ?_⟩
      simp only [work, hholder, holderWork, hwaiting, erase_cons_head, length_cons]
      omega
  · cases holder with
    | deciding note =>
      refine ⟨.decide, decideWrite s note, rfl, by simp only [step, hholder], ?_, ?_⟩
      · unfold decideWrite
        split <;> rfl
      · have hlist := listWork_defer s note
        unfold decideWrite
        split
        · simp only [work, hholder, holderWork, hlist]
          simp only [defer]
          omega
        · simp [work, hholder, holderWork]
    | appending note =>
      refine ⟨.append, { record s note false with admission := none }, rfl,
        by simp only [step, hholder], rfl, ?_⟩
      simp [work, hholder, holderWork, record]
    | clearing =>
      have hphase : s.phase = .ending := by
        have hfits := hs.fits
        rwa [hholder] at hfits
      refine ⟨.clear, _, rfl, if_pos hholder, rfl, ?_⟩
      simp [work, hholder, holderWork, hphase, phaseWork]
    | releasing kind hand =>
      exact ⟨.flushRelease, flushRelease s kind hand, rfl, by simp only [step, hholder],
        flushRelease_sent s kind hand, flushRelease_work hholder⟩

theorem comes_to_rest (hs : Invariant s) :
    ∃ actions t, (∀ action ∈ actions, action.isOwn = true) ∧ Runs.run step s actions = some t ∧
      t.sent = s.sent ∧ AtRest t := by
  induction hwork : work s using Nat.strongRecOn generalizing s with
  | ind n ih =>
    by_cases hrest : AtRest s
    · exact ⟨[], s, by simp, rfl, rfl, hrest⟩
    · obtain ⟨action, t, hown, hstep, hkept, hless⟩ := progress hs hrest
      obtain ⟨actions, u, hall, hrun, hsent, hu⟩ := ih (work t) (hwork ▸ hless) (hs.step hstep) rfl
      refine ⟨action :: actions, u, ?_, ?_, hsent.trans hkept, hu⟩
      · intro other hmem
        rcases mem_cons.mp hmem with rfl | hmem
        · exact hown
        · exact hall other hmem
      · rw [Runs.run, hstep]
        exact hrun

/-- Whatever calls, claims, turns, boundaries and releases interleave: a context message is
recorded at most once and at rest exactly once, and rest can always be reached; those that were
deferred are appended in their order, kind by kind; and none stands between a response and a tool
result of its turn. -/
theorem context_recorded_once {actions : List Action} {s : State}
    (h : Runs.run step start actions = some s) :
    (recorded s.log).Nodup ∧ (∀ note ∈ recorded s.log, note ∈ s.sent) ∧
      (AtRest s → (recorded s.log).Perm s.sent) ∧
      (∃ more t, (∀ action ∈ more, action.isOwn = true) ∧ Runs.run step s more = some t ∧
        t.sent = s.sent ∧ AtRest t) ∧
      (∀ kind, (flushed s.log).filter (·.kind = kind) <+: s.deferred.filter (·.kind = kind)) ∧
      Unsplit s.log := by
  have hs : Invariant s := @Runs.run_induction State Action step start (fun _ s => Invariant s)
    invariant_start (fun _ _ _ _ hs hstep => hs.step hstep) actions s h
  refine ⟨?_, ?_, hs.recorded_perm, comes_to_rest hs, ?_, unsplit_iff_justified.mpr hs.joined⟩
  · rw [nodup_iff_count_le_one]
    intro note
    exact Nat.le_trans (hs.recorded_le note) (nodup_iff_count_le_one.mp hs.sent_nodup note)
  · intro note hnote
    rw [← count_pos_iff] at hnote ⊢
    exact Nat.lt_of_lt_of_le hnote (hs.recorded_le note)
  · intro kind
    rw [hs.balanced.ordered kind, append_assoc]
    exact prefix_append _ _

section Sample

open AgentRun (sampleMessage sampleCall)

def sampleCustom : CustomMessage := ⟨"note", .text "context", true, 0, .null⟩

def sampleBash : BashExecutionMessage := ⟨"ls", "", some 0, false, false, 0, none, none⟩

def sampleResponse : AssistantMessage := sampleMessage [sampleCall "call"] .toolUse

def sampleResult : ToolResultMessage := ⟨"call", "tool", .blocks [], false, 0, .null, none, none, none⟩

/-- Two custom messages and a bash result arrive while a run answers a tool call. -/
def sampleRun : List Action :=
  [.claim, .admitRun, .prepared, .flush, .flush, .prompt,
    .agentEvent (.messageEnd (.assistant sampleResponse)), .dispatchCustomMessage sampleCustom,
    .recordBashResult sampleBash, .dispatchCustomMessage sampleCustom,
    .acquire ⟨1, .bash sampleBash⟩, .decide,
    .agentEvent (.messageEnd (.toolResult sampleResult)),
    .agentEvent (.turnEnd sampleResponse [sampleResult]), .flush, .flush, .flush, .flush,
    .agentReturn, .endRun, .release, .clear, .flushRelease, .flushRelease, .flushRelease,
    .flushRelease]

/-- How many messages were sent and deferred, whether the session is at rest, and the numbers of
the recorded ones. -/
def account (s : State) : (Nat × Nat × Bool) × List Nat :=
  ((s.sent.length, s.deferred.length,
    s.isAgentRunActive == false && s.admission == none && s.waiting == []),
    (recorded s.log).map Note.number)

theorem context_recorded_once_sample :
    ∃ s, Runs.run step start sampleRun = some s ∧ account s = ((3, 3, true), [0, 2, 1]) ∧
      (recorded s.log).Perm s.sent ∧ Unsplit s.log := by
  have hrun : (Runs.run step start sampleRun).map account = some ((3, 3, true), [0, 2, 1]) := by
    decide
  obtain ⟨s, hs, hfacts⟩ := Option.map_eq_some_iff.mp hrun
  obtain ⟨-, -, hall, -, -, hunsplit⟩ := context_recorded_once hs
  have hrest : AtRest s := by
    have hquiet := congrArg (·.1.2.2) hfacts
    simpa [account, AtRest, and_assoc] using hquiet
  exact ⟨s, hs, hfacts, hall hrest, hunsplit⟩

end Sample

end Pidrei.DeferredContext
