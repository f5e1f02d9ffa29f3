import Pidrei.SettingsSteps

/-!
Writes that fail. The marks of a scope outlive a write that fails, so that the next
write carries its fields again, but any write that succeeds clears them all.
-/
namespace Pidrei.SettingsManager

open Settings

/-- The scope whose write ends with the action, and whether it succeeds. -/
def State.ended (s : State) (action : Action) : Option (Scope × Bool) :=
  match action, s.writer with
  | .land, .writing scope _ => some (scope, true)
  | .failWrite, .writing scope _ => some (scope, false)
  | _, _ => none

/-- A manager and whether the last write of each scope succeeded. -/
structure Watched where
  state : State
  succeeded : Scope → Bool

def watch (w : Watched) (action : Action) : Option Watched :=
  (step w.state action).map fun t =>
    match w.state.ended action with
    | some (scope, ok) => ⟨t, Function.update w.succeeded scope ok⟩
    | none => ⟨t, w.succeeded⟩

def watchStart (files : Scope → Option Dict) (trusted : Bool) (ok : Scope → Bool) : Watched :=
  ⟨start files trusted ok, fun _ => false⟩

/-- Setter calls, steps of the writer and flushes. -/
def Action.writes : Action → Bool
  | .call _ | .receive | .land | .failWrite | .settle | .flush => true
  | .reload | .trust _ | .sample | .read _ | .publish => false

/-- Whatever the write carries is still marked, or a later write of its scope carries it. -/
def State.Remembers (s : State) (scope : Scope) (write : Write) : Prop :=
  ∀ slot ∈ write.marks.slots, (s.scopes scope).marks.Covers slot ∨
    ∃ later ∈ s.queue.filterMap (Item.write? scope), later.marks.Covers slot

def Action.fails : Action → Bool
  | .failWrite => true
  | _ => false

def Writer.writing? : Writer → Option (Scope × Write)
  | .writing scope write => some (scope, write)
  | .waiting | .written _ => none

def FailsMarked (w : Watched) (action : Action) : Prop :=
  action.writes ∧ (action.fails →
    ∀ failing ∈ w.state.writer.writing?, w.state.Remembers failing.1 failing.2)

instance (s : State) (scope : Scope) (write : Write) : Decidable (s.Remembers scope write) :=
  inferInstanceAs (Decidable (∀ slot ∈ write.marks.slots, (s.scopes scope).marks.Covers slot ∨
    ∃ later ∈ s.queue.filterMap (Item.write? scope), later.marks.Covers slot))

instance (w : Watched) (action : Action) : Decidable (FailsMarked w action) :=
  inferInstanceAs (Decidable (action.writes ∧ (action.fails →
    ∀ failing ∈ w.state.writer.writing?, w.state.Remembers failing.1 failing.2)))

section Failures

variable {s t : State} {w v : Watched} {scope : Scope} {action : Action} {slot : Slot}

theorem state_of_watch (h : watch w action = some v) : step w.state action = some v.state := by
  obtain ⟨t, ht, rfl⟩ := Option.map_eq_some_iff.mp h
  rw [ht]
  split <;> rfl

theorem succeeded_of_watch (h : watch w action = some v) : v.succeeded scope =
    match w.state.ended action with
    | some (other, ok) => if scope = other then ok else w.succeeded scope
    | none => w.succeeded scope := by
  obtain ⟨t, ht, rfl⟩ := Option.map_eq_some_iff.mp h
  split
  · exact Function.update_apply ..
  · rfl

theorem ended_land {write : Write} (hwriter : s.writer = .writing scope write) :
    s.ended .land = some (scope, true) := by
  simp only [State.ended, hwriter]

theorem ended_failWrite {write : Write} (hwriter : s.writer = .writing scope write) :
    s.ended .failWrite = some (scope, false) := by
  simp only [State.ended, hwriter]

theorem succeeded_of_other (h : watch w action = some v)
    (hother : action.ends → ∀ write, w.state.writer ≠ .writing scope write) :
    v.succeeded scope = w.succeeded scope := by
  rw [succeeded_of_watch h]
  split
  · rename_i other ok hended
    refine if_neg ?_
    rintro rfl
    unfold State.ended at hended
    split at hended <;> cases hended
    · exact hother rfl _ ‹_›
    · exact hother rfl _ ‹_›
  · rfl

/-- What is marked is on its way, and once everything has reached the file it agrees with the
settings in memory, but for what is marked after a failed write. -/
structure Remembered (scope : Scope) (w : Watched) : Prop where
  tidy : Tidy scope w.state
  quiet : (w.state.scopes scope).loadError = true ∨ w.state.refuses scope = true →
    w.state.pending scope = [] ∧ w.succeeded scope = false
  last : ∀ slot, (w.state.scopes scope).marks.Covers slot →
    ∀ write ∈ (w.state.pending scope).getLast?, write.marks.Covers slot
  written : w.state.writer = .written scope → w.succeeded scope = true
  agrees : (w.state.scopes scope).loadError = false → w.state.refuses scope = false →
    ∀ slot : Slot, slot.Settable →
      held (parseSettings (w.state.drained scope)) slot = held (w.state.scopes scope).settings slot ∨
        (w.state.scopes scope).marks.Covers slot ∧ w.succeeded scope = false ∧
          ∀ write ∈ w.state.pending scope, ¬ write.marks.Covers slot

theorem written_of_step (hwrites : action.writes) (h : step s action = some t) (hwritten : t.writer = .written scope) :
    s.writer = .written scope ∨ s.ended action = some (scope, true) := by
  cases action with
  | call setter =>
    cases h
    left
    revert hwritten
    unfold call
    split
    · exact id
    · split
      · unfold update
        simp only
        split <;> exact id
      · exact id
      · exact id
  | receive =>
    rw [step, receive] at h
    split at h
    · cases h
      left
      revert hwritten
      unfold setTicket
      split <;> exact id
    · rename_i hwriter _
      cases h
      split at hwritten
      · exact .inl hwritten
      · cases hwritten
    · cases h
  | land =>
    rw [step, land] at h
    split at h <;> cases h
    rename_i other write hwriter
    cases hwritten
    exact .inr (ended_land hwriter)
  | failWrite =>
    rw [step, failWrite] at h
    split at h <;> cases h
    cases hwritten
  | settle =>
    rw [step, settle] at h
    split at h <;> cases h
    cases hwritten
  | flush =>
    cases h
    left
    revert hwritten
    unfold flush
    split <;> exact id
  | _ => cases hwrites

theorem Remembered.written_step (hs : Remembered scope w) (hwrites : action.writes)
    (h : watch w action = some v)
    (hwritten : v.state.writer = .written scope) : v.succeeded scope = true := by
  rcases written_of_step hwrites (state_of_watch h) hwritten with hbefore | hended
  · have hother := hs.written hbefore
    rwa [succeeded_of_other h]
    intro _ write hwriter
    rw [hbefore] at hwriter
    cases hwriter
  · rw [succeeded_of_watch h, hended]
    exact if_pos rfl

/-- What every step of the writes keeps. -/
structure Follows (scope : Scope) (w v : Watched) : Prop where
  tidy : Tidy scope v.state
  written : v.state.writer = .written scope → v.succeeded scope = true
  refuses : v.state.refuses scope = w.state.refuses scope

theorem Remembered.follows (hs : Remembered scope w) (hwrites : action.writes)
    (h : watch w action = some v) : Follows scope w v := by
  have hstep := state_of_watch h
  refine ⟨hs.tidy.step hstep, hs.written_step hwrites h, ?_⟩
  have htrusted := trusted_of_step hstep fun trusted heq => by rw [heq] at hwrites; cases hwrites
  rw [State.refuses, State.refuses, htrusted]

theorem Remembered.silent (hs : Remembered scope w) (hv : Follows scope w v)
    (hsucceeded : v.succeeded scope = w.succeeded scope)
    (hscopes : v.state.scopes scope = w.state.scopes scope)
    (hpending : v.state.pending scope = w.state.pending scope)
    (hfiles : v.state.files scope = w.state.files scope) : Remembered scope v := by
  have hdrained := drained_of_eq hpending hfiles
  refine ⟨hv.tidy, ?_, ?_, hv.written, ?_⟩
  · rw [hscopes, hv.refuses, hpending, hsucceeded]
    exact hs.quiet
  · rw [hscopes, hpending]
    exact hs.last
  · rw [hscopes, hv.refuses, hpending, hsucceeded, hdrained]
    exact hs.agrees

theorem Remembered.changed {setter : Setter} {change : Change} (hs : Remembered scope w) (hv : Follows scope w v)
    (hsucceeded : v.succeeded scope = w.succeeded scope)
    (hallowed : w.state.refuses scope = false)
    (houtcome : setter.outcome (w.state.scopes scope).settings = .changed change)
    (hscopes : v.state.scopes scope = ⟨((w.state.scopes scope).writeOf change).snapshot,
      ((w.state.scopes scope).writeOf change).marks, (w.state.scopes scope).loadError⟩)
    (hpending : v.state.pending scope = w.state.pending scope ++
      if (w.state.scopes scope).loadError then [] else [(w.state.scopes scope).writeOf change])
    (hfiles : v.state.files scope = w.state.files scope) : Remembered scope v := by
  have hvalid := Setter.valid houtcome
  have hwrite : ((w.state.scopes scope).writeOf change).Proper := hs.tidy.proper.next hvalid
  refine ⟨hv.tidy, ?_, ?_, hv.written, ?_⟩
  · rw [hscopes, hv.refuses, hpending, hsucceeded, hallowed]
    rintro (herror | hfalse)
    · obtain ⟨hnone, hnot⟩ := hs.quiet (.inl herror)
      rw [hnone, if_pos herror]
      exact ⟨rfl, hnot⟩
    · cases hfalse
  · intro slot hslot write hlast
    rw [hscopes] at hslot
    rw [hpending] at hlast
    split at hlast
    · rename_i herror
      rw [(hs.quiet (.inl herror)).1] at hlast
      cases hlast
    · rw [List.getLast?_concat] at hlast
      cases hlast
      exact hslot
  · rw [hscopes]
    intro herror _ slot hslot
    left
    have hdrained : v.state.drained scope =
        some (((w.state.scopes scope).writeOf change).persist (w.state.drained scope)) := by
      rw [State.drained, State.drained, hpending, hfiles, herror]
      exact drain_append_singleton
    rw [hdrained]
    by_cases hcovers : ((w.state.scopes scope).writeOf change).marks.Covers slot
    · exact held_persist_of_covers hwrite hslot hcovers
    · have hnot := fun h => hcovers ((covers_mark hvalid hslot).mpr h)
      rw [held_persist_of_not_covers hwrite hslot hcovers]
      refine Eq.trans ?_ (held_apply hslot (fun h => hnot (.inl h)) hvalid).symm
      rcases hs.agrees herror hallowed slot hslot with hsame | ⟨hmarked, -⟩
      · exact hsame
      · exact absurd (.inr hmarked) hnot

theorem Remembered.landed {write : Write} (hs : Remembered scope w) (hv : Follows scope w v)
    (hscopes : v.state.scopes scope = w.state.scopes scope)
    (hpending : w.state.pending scope = write :: v.state.pending scope)
    (hfiles : v.state.files scope = some (write.persist (w.state.files scope))) :
    Remembered scope v := by
  have hdrained : v.state.drained scope = w.state.drained scope := by
    rw [State.drained, State.drained, hpending, hfiles]
    rfl
  have hactive : ¬ ((w.state.scopes scope).loadError = true ∨ w.state.refuses scope = true) := by
    intro h
    have hnone := (hs.quiet h).1
    rw [hpending] at hnone
    cases hnone
  have hlast : ∀ slot, (w.state.scopes scope).marks.Covers slot →
      ∃ last ∈ w.state.pending scope, last.marks.Covers slot := by
    intro slot hmarked
    have hne : w.state.pending scope ≠ [] := by
      rw [hpending]
      exact List.cons_ne_nil _ _
    have hsome := List.getLast?_eq_some_getLast hne
    exact ⟨_, List.getLast_mem hne, hs.last slot hmarked _ hsome⟩
  refine ⟨hv.tidy, ?_, ?_, hv.written, ?_⟩
  · rw [hscopes, hv.refuses]
    exact fun h => absurd h hactive
  · rw [hscopes]
    intro slot hmarked last hin
    refine hs.last slot hmarked last ?_
    rw [hpending]
    exact List.mem_getLast?_cons hin
  · rw [hscopes, hv.refuses, hdrained]
    intro herror hallowed slot hslot
    rcases hs.agrees herror hallowed slot hslot with hsame | ⟨hmarked, -, hnone⟩
    · exact .inl hsame
    · obtain ⟨last, hin, hcovers⟩ := hlast slot hmarked
      exact absurd hcovers (hnone last hin)

theorem Remembered.failed {write : Write} (hs : Remembered scope w) (hv : Follows scope w v)
    (hsucceeded : v.succeeded scope = false)
    (hkept : ∀ slot : Slot, write.marks.Covers slot → (w.state.scopes scope).marks.Covers slot ∨
      ∃ later ∈ v.state.pending scope, later.marks.Covers slot)
    (hscopes : v.state.scopes scope = w.state.scopes scope)
    (hpending : w.state.pending scope = write :: v.state.pending scope)
    (hfiles : v.state.files scope = w.state.files scope) : Remembered scope v := by
  have hproper := hs.tidy.pending
  rw [hpending] at hproper
  refine ⟨hv.tidy, ?_, ?_, hv.written, ?_⟩
  · rw [hscopes, hv.refuses]
    intro h
    have hnone := (hs.quiet h).1
    rw [hpending] at hnone
    cases hnone
  · rw [hscopes]
    intro slot hmarked last hin
    refine hs.last slot hmarked last ?_
    rw [hpending]
    exact List.mem_getLast?_cons hin
  · rw [hscopes, hv.refuses]
    intro herror hallowed slot hslot
    by_cases hlost : write.marks.Covers slot ∧
        ∀ later ∈ v.state.pending scope, ¬ later.marks.Covers slot
    · obtain ⟨hcovers, hnone⟩ := hlost
      rcases hkept slot hcovers with hmarked | ⟨later, hin, hlater⟩
      · exact .inr ⟨hmarked, hsucceeded, hnone⟩
      · exact absurd hlater (hnone later hin)
    · have hdrained : held (parseSettings (v.state.drained scope)) slot =
          held (parseSettings (w.state.drained scope)) slot := by
        rw [State.drained, State.drained, hpending, hfiles]
        refine held_drain_congr (fun later hin => hproper later (List.mem_cons_of_mem _ hin)) hslot
          fun hnone => (held_persist_of_not_covers (hproper write List.mem_cons_self) hslot
            fun hcovers => hlost ⟨hcovers, hnone⟩).symm
      rw [hdrained]
      rcases hs.agrees herror hallowed slot hslot with hsame | ⟨hmarked, -, hnone⟩
      · exact .inl hsame
      · refine .inr ⟨hmarked, hsucceeded, fun later hin => hnone later ?_⟩
        rw [hpending]
        exact List.mem_cons_of_mem _ hin

theorem Remembered.settled (hs : Remembered scope w) (hv : Follows scope w v)
    (hsucceeded : v.succeeded scope = w.succeeded scope) (hwriter : w.state.writer = .written scope)
    (hscopes : v.state.scopes scope = { w.state.scopes scope with marks := .empty })
    (hpending : v.state.pending scope = w.state.pending scope)
    (hfiles : v.state.files scope = w.state.files scope) : Remembered scope v := by
  have hdrained := drained_of_eq hpending hfiles
  have hempty : ∀ slot, ¬ Marks.empty.Covers slot := by
    rintro (_ | _) h <;> cases h
  refine ⟨hv.tidy, ?_, ?_, hv.written, ?_⟩
  · rw [hscopes, hv.refuses, hpending, hsucceeded]
    exact hs.quiet
  · rw [hscopes]
    exact fun slot hslot => absurd hslot (hempty slot)
  · rw [hscopes, hv.refuses, hdrained]
    intro herror hallowed slot hslot
    rcases hs.agrees herror hallowed slot hslot with hsame | ⟨-, hnot, -⟩
    · exact .inl hsame
    · rw [hs.written hwriter] at hnot
      cases hnot

theorem Remembered.step (hs : Remembered scope w) (hmeets : FailsMarked w action)
    (h : watch w action = some v) : Remembered scope v := by
  have hv := hs.follows hmeets.1 h
  cases effect_of_step scope (state_of_watch h) with
  | silent scopes pending files other =>
    exact hs.silent hv (succeeded_of_other h other) scopes pending files
  | changed _ allowed outcome scopes pending files =>
    exact hs.changed hv (succeeded_of_other h (fun h => by cases h)) allowed outcome scopes pending files
  | landed _ scopes pending files => exact hs.landed hv scopes pending files
  | @failed write _ writer scopes pending files =>
    have hsucceeded : v.succeeded scope = false := by
      rw [succeeded_of_watch h, ended_failWrite writer]
      exact if_pos rfl
    have hqueue : w.state.queue.filterMap (Item.write? scope) = v.state.pending scope := by
      rw [State.pending, writer, Writer.inFlight, if_pos rfl] at pending
      exact (List.cons.inj pending).2
    have hremembers := hmeets.2 rfl (scope, write) (by rw [writer]; rfl)
    rw [State.Remembers, hqueue] at hremembers
    have hkept := fun slot hslot => hremembers slot (mem_slots.mpr hslot)
    exact hs.failed hv hsucceeded hkept scopes pending files
  | refused refuses _ pending =>
    have hnone := (hs.quiet (.inr refuses)).1
    rw [pending] at hnone
    cases hnone
  | settled writer scopes pending files =>
    exact hs.settled hv (succeeded_of_other h (fun h => by cases h)) writer scopes pending files
  | reloaded => cases hmeets.1
  | trustedProject => cases hmeets.1
  | trusting => cases hmeets.1

theorem remembered_watchStart (files : Scope → Option Dict) (trusted : Bool) (ok : Scope → Bool)
    (scope : Scope) : Remembered scope (watchStart files trusted ok) := by
  refine ⟨tidy_start, fun _ => ⟨rfl, rfl⟩, fun slot hslot => ?_, fun h => (nomatch h), ?_⟩
  · intro write hwrite
    cases hwrite
  · intro herror hallowed slot hslot
    left
    exact congrArg (held · slot) (settings_start hallowed herror).symm

/-- Where no write fails after its marks are cleared, a success that drains the queue leaves
in the file what the settings in memory hold, also of the writes that failed. -/
theorem held_file_of_reaches (files : Scope → Option Dict) (trusted : Bool) (ok : Scope → Bool)
    (h : Runs.Reaches watch FailsMarked (watchStart files trusted ok) w)
    (hsucceeded : w.succeeded scope = true) (hdrained : w.state.pending scope = [])
    (hslot : slot.Settable) : held (parseSettings (w.state.files scope)) slot =
      held (w.state.scopes scope).settings slot := by
  have hs : Remembered scope w := h.kept (remembered_watchStart files trusted ok scope)
    fun _ _ _ hs hmeets => hs.step hmeets
  have hactive : ¬ ((w.state.scopes scope).loadError = true ∨ w.state.refuses scope = true) := by
    intro h
    rw [(hs.quiet h).2] at hsucceeded
    cases hsucceeded
  rw [not_or, Bool.not_eq_true, Bool.not_eq_true] at hactive
  have hagrees := hs.agrees hactive.1 hactive.2 slot hslot
  rw [hsucceeded, State.drained, hdrained] at hagrees
  rcases hagrees with hsame | ⟨-, hfalse, -⟩
  · exact hsame
  · cases hfalse

end Failures

/-- The write of the model fails, and the one of the provider carries it. -/
theorem held_file_after_failure : ∃ w : Watched,
    Runs.Reaches watch FailsMarked (watchStart (fun _ => none) true fun _ => true) w ∧
      w.succeeded .global = true ∧ w.state.pending .global = [] ∧
      held (parseSettings (w.state.files .global)) (.field "defaultModel") =
        held (w.state.scopes .global).settings (.field "defaultModel") := by
  have hrun : Runs.run (fun w action => if FailsMarked w action then watch w action else none)
      (watchStart (fun _ => none) true fun _ => true)
      [.call (.defaultModel "m"), .receive, .failWrite, .call (.defaultProvider "p"), .receive,
        .land, .settle] = some _ := rfl
  have hreaches := Runs.Reaches.of_run hrun
  exact ⟨_, hreaches, rfl, rfl, held_file_of_reaches _ true _ hreaches rfl rfl (by decide)⟩

/-- A write that succeeds after a setter was called clears the marks of that setter too; when
its own write then fails, no later write carries its field. -/
theorem model_forgotten : ∃ w : Watched,
    Runs.run watch (watchStart (fun _ => none) true fun _ => true)
      [.call (.theme "dark"), .receive, .call (.defaultModel "m"), .land, .settle, .receive,
        .failWrite, .call (.defaultProvider "p"), .receive, .land, .settle] = some w ∧
      w.succeeded .global = true ∧ w.state.pending .global = [] ∧
      held (w.state.scopes .global).settings (.field "defaultModel") = .setting (.str "m") ∧
      held (parseSettings (w.state.files .global)) (.field "defaultModel") = .setting .null := by
  have htheme := Setter.valid (show (Setter.theme "dark").outcome ∅ = .changed _ from rfl)
  have hmodel := Setter.valid (show (Setter.defaultModel "m").outcome ∅ = .changed _ from rfl)
  have hprovider := Setter.valid (show (Setter.defaultProvider "p").outcome ∅ = .changed _ from rfl)
  have hfirst := (proper_empty migrated_empty).next htheme
  have hlast := (proper_empty ((migrated_empty.apply htheme).apply hmodel)).next hprovider
  have hslot : (Slot.field "defaultModel").Settable := by decide
  refine ⟨_, rfl, rfl, rfl, ?_, ?_⟩
  · refine (held_apply hslot (by decide) hprovider).trans ?_
    exact held_insert
  · refine (held_persist_of_not_covers hlast hslot (by decide)).trans ?_
    refine (held_persist_of_not_covers hfirst hslot (by decide)).trans ?_
    rfl

end Pidrei.SettingsManager
