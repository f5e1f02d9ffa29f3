import Pidrei.SettingsSteps

/-!
Loads among setters. What a load publishes replaces the settings in memory, so it has
to hold what the setters wrote: their writes have to be in the file when it is read,
unless the counter tells that a setter came in between.
-/
namespace Pidrei.SettingsManager

open Settings

/-- A manager with what was last set in each slot, and for each scope whether none of its
writes was under way when a load last read its file. -/
structure Recorded where
  state : State
  last : Scope → Slot → Option Held
  quiet : Scope → Bool

/-- The scope whose file the load reads next. -/
def State.readScope (s : State) : Scope :=
  match s.load with
  | some ⟨.reload, .sampled _⟩ => .global
  | _ => .project

def State.quietAfter (s : State) (quiet : Scope → Bool) : Action → Scope → Bool
  | .read _ => Function.update quiet s.readScope (s.pending s.readScope).isEmpty
  | _ => quiet

def State.lastAfter (s : State) (last : Scope → Slot → Option Held) (action : Action)
    (scope : Scope) (slot : Slot) : Option Held :=
  match s.change? scope action with
  | some change =>
    if change.Sets slot then some (held (change.apply (s.scopes scope).settings) slot)
    else last scope slot
  | none => last scope slot

def record (w : Recorded) (action : Action) : Option Recorded :=
  (step w.state action).map fun t =>
    ⟨t, w.state.lastAfter w.last action, w.state.quietAfter w.quiet action⟩

def recordStart (files : Scope → Option Dict) (trusted : Bool) (ok : Scope → Bool) : Recorded :=
  ⟨start files trusted ok, fun _ _ => none, fun _ => false⟩

/-- The load read the file of the scope while no write of it was under way. -/
def Recorded.ReadDrained (w : Recorded) (scope : Scope) : Prop :=
  (w.state.content? scope).isSome → w.quiet scope = true

def State.HasProject (s : State) : Prop :=
  s.load.map Load.kind = some .trust → (s.content? .project).isSome

/-- No write fails and no project loses its trust; a setter is called on a scope whose file could
be read; and what a load publishes it read while no write was under way. -/
def PublishesDrained (w : Recorded) : Action → Prop
  | .call setter => (w.state.scopes setter.scope).loadError = false
  | .failWrite => False
  | .trust trusted => trusted = true
  | .publish => w.state.sampled? = some w.state.mutations →
    w.ReadDrained .global ∧ w.ReadDrained .project ∧ w.state.HasProject
  | _ => True

instance (w : Recorded) : (action : Action) → Decidable (PublishesDrained w action)
  | .call setter => inferInstanceAs (Decidable ((w.state.scopes setter.scope).loadError = false))
  | .failWrite => .isFalse id
  | .trust trusted => inferInstanceAs (Decidable (trusted = true))
  | .publish =>
    inferInstanceAs (Decidable (w.state.sampled? = some w.state.mutations →
      ((w.state.content? .global).isSome → w.quiet .global = true) ∧
        ((w.state.content? .project).isSome → w.quiet .project = true) ∧
          (w.state.load.map Load.kind = some .trust → (w.state.content? .project).isSome)))
  | .receive | .land | .settle | .flush | .reload | .sample | .read _ => .isTrue trivial

section Loads

variable {s t : State} {w v : Recorded} {scope : Scope} {action : Action} {slot : Slot}

theorem state_of_record (h : record w action = some v) : step w.state action = some v.state := by
  obtain ⟨t, ht, rfl⟩ := Option.map_eq_some_iff.mp h
  exact ht

theorem last_of_record (h : record w action = some v) :
    v.last = w.state.lastAfter w.last action := by
  obtain ⟨t, ht, rfl⟩ := Option.map_eq_some_iff.mp h
  rfl

theorem quiet_of_record (h : record w action = some v) :
    v.quiet = w.state.quietAfter w.quiet action := by
  obtain ⟨t, ht, rfl⟩ := Option.map_eq_some_iff.mp h
  rfl

/-- What was last set in the slots is in memory, will be in the file, and is in what a load
read and still is to publish. -/
structure Holds (scope : Scope) (w : Recorded) (slot : Slot) (value : Held) : Prop where
  memory : held (w.state.scopes scope).settings slot = value
  file : held (parseSettings (w.state.drained scope)) slot = value
  loaded : ∀ settings, w.state.content? scope = some settings →
    w.state.sampled? = some w.state.mutations → w.quiet scope = true →
      held settings slot = value

structure Current (scope : Scope) (w : Recorded) : Prop where
  tidy : Tidy scope w.state
  refused : w.state.refuses scope = true →
    w.state.pending scope = [] ∧ ∀ slot, w.last scope slot = none
  sampled : ∀ m, w.state.sampled? = some m → m ≤ w.state.mutations
  holds : ∀ slot value, slot.Settable → w.last scope slot = some value → Holds scope w slot value

theorem sampled_step (hsampled : ∀ m, s.sampled? = some m → m ≤ s.mutations)
    (h : step s action = some t) : ∀ m, t.sampled? = some m → m ≤ t.mutations := by
  intro m hm
  cases loadEffect_of_step h with
  | same load mutations =>
    rw [State.sampled?, load] at hm
    exact (hsampled m hm).trans mutations
  | restarted _ sampled =>
    rw [sampled] at hm
    cases hm
  | sampled _ sampled mutations =>
    rw [sampled] at hm
    cases hm
    exact mutations.ge
  | readGlobal _ _ sampled mutations =>
    rw [sampled] at hm
    rw [mutations]
    exact hsampled m hm
  | readProject _ _ sampled mutations =>
    rw [sampled] at hm
    rw [mutations]
    exact hsampled m hm

theorem refuses_of_record (hmeets : PublishesDrained w action) (h : record w action = some v)
    (hrefuses : v.state.refuses scope = true) : w.state.refuses scope = true := by
  have hstep := state_of_record h
  by_cases htrust : ∃ trusted, action = .trust trusted
  · obtain ⟨trusted, rfl⟩ := htrust
    have htrusted : trusted = true := hmeets
    rw [State.refuses, trusted_of_trust hstep, htrusted, Bool.not_true, Bool.and_false] at hrefuses
    cases hrefuses
  · rw [not_exists] at htrust
    rwa [State.refuses, trusted_of_step hstep htrust] at hrefuses

theorem last_of_unchanged (h : record w action = some v)
    (hunchanged : w.state.change? scope action = none) : v.last scope = w.last scope := by
  rw [last_of_record h]
  funext slot
  rw [State.lastAfter, hunchanged]

theorem change?_of_refuses (hrefuses : s.refuses scope = true) : s.change? scope action = none := by
  cases action with
  | call setter =>
    refine if_neg fun h => ?_
    rw [hrefuses] at h
    cases h.2
  | _ => rfl

theorem Current.refused_step (hs : Current scope w) (hmeets : PublishesDrained w action)
    (h : record w action = some v) (hrefuses : v.state.refuses scope = true) :
    v.state.pending scope = [] ∧ ∀ slot, v.last scope slot = none := by
  have hbefore := refuses_of_record hmeets h hrefuses
  obtain ⟨hpending, hlast⟩ := hs.refused hbefore
  rw [last_of_unchanged h (change?_of_refuses hbefore)]
  exact ⟨pending_nil_of_step (state_of_record h) (change?_of_refuses hbefore) hpending, hlast⟩

variable {value : Held}

theorem Holds.of_read {ok : Bool} {settings : Dict} (hw : Holds scope w slot value)
    (hallowed : w.state.refuses scope = false) (hquiet : (w.state.pending scope).isEmpty = true)
    (hcontent : content w.state scope ok = some settings) : held settings slot = value := by
  have hdrained : w.state.drained scope = w.state.files scope := by
    rw [State.drained, List.isEmpty_iff.mp hquiet]
    rfl
  rw [content, hallowed] at hcontent
  cases ok with
  | false => cases hcontent
  | true =>
    cases hcontent
    rw [← hdrained]
    exact hw.file

theorem Current.content_step (hs : Current scope w) (hallowed : w.state.refuses scope = false)
    (hw : Holds scope w slot value) (h : record w action = some v) :
    ∀ settings, v.state.content? scope = some settings →
      v.state.sampled? = some v.state.mutations → v.quiet scope = true →
        held settings slot = value := by
  intro settings hcontent hsampled hquiet
  rw [quiet_of_record h] at hquiet
  cases loadEffect_of_step (state_of_record h) with
  | same load mutations other =>
    have hsame : v.state.sampled? = w.state.sampled? := by
      rw [State.sampled?, State.sampled?, load]
    rw [hsame] at hsampled
    have hmutations := (hs.sampled _ hsampled).antisymm mutations
    rw [State.content?, load] at hcontent
    rw [hmutations] at hsampled
    refine hw.loaded settings hcontent hsampled ?_
    cases action with
    | read ok => exact absurd rfl (other ok)
    | _ => exact hquiet
  | restarted content =>
    rw [content] at hcontent
    cases hcontent
  | sampled content =>
    rw [content] at hcontent
    cases hcontent
  | readGlobal global project sampled mutations load =>
    obtain ⟨m, hm⟩ := load
    have hscope : w.state.readScope = .global := by
      rw [State.readScope, hm]
    cases scope with
    | global =>
      rw [State.quietAfter, hscope, Function.update_self] at hquiet
      exact hw.of_read hallowed hquiet (global.symm.trans hcontent)
    | project =>
      rw [project] at hcontent
      cases hcontent
  | readProject global project sampled mutations load =>
    have hscope : w.state.readScope = .project := by
      unfold State.readScope
      split
      · exact absurd ‹_› (load _)
      · rfl
    cases scope with
    | global =>
      rw [State.quietAfter, hscope, Function.update_of_ne (by decide)] at hquiet
      rw [sampled, mutations] at hsampled
      exact hw.loaded settings (global.symm.trans hcontent) hsampled hquiet
    | project =>
      rw [State.quietAfter, hscope, Function.update_self] at hquiet
      exact hw.of_read hallowed hquiet (project.symm.trans hcontent)

theorem Current.changed_step {change : Change}
    (hs : Current scope w) (herror : (w.state.scopes scope).loadError = false)
    (hslot : slot.Settable) (hvalid : change.Valid)
    (hlast : (if change.Sets slot
      then some (held (change.apply (w.state.scopes scope).settings) slot)
      else w.last scope slot) = some value)
    (hscopes : v.state.scopes scope = ⟨((w.state.scopes scope).writeOf change).snapshot,
      ((w.state.scopes scope).writeOf change).marks, (w.state.scopes scope).loadError⟩)
    (hpending : v.state.pending scope = w.state.pending scope ++
      if (w.state.scopes scope).loadError then [] else [(w.state.scopes scope).writeOf change])
    (hfiles : v.state.files scope = w.state.files scope) :
    held (v.state.scopes scope).settings slot = value ∧
      held (parseSettings (v.state.drained scope)) slot = value := by
  have hwrite : ((w.state.scopes scope).writeOf change).Proper := hs.tidy.proper.next hvalid
  have hdrained : v.state.drained scope =
      some (((w.state.scopes scope).writeOf change).persist (w.state.drained scope)) := by
    rw [State.drained, State.drained, hpending, hfiles, herror]
    exact drain_append_singleton
  have hmemory : held ((w.state.scopes scope).writeOf change).snapshot slot = value := by
    by_cases hsets : change.Sets slot
    · rw [if_pos hsets] at hlast
      exact Option.some.inj hlast
    · rw [if_neg hsets] at hlast
      exact (held_apply hslot hsets hvalid).trans (hs.holds slot value hslot hlast).memory
  rw [hscopes, hdrained]
  refine ⟨hmemory, ?_⟩
  by_cases hcovers : ((w.state.scopes scope).writeOf change).marks.Covers slot
  · rw [held_persist_of_covers hwrite hslot hcovers]
    exact hmemory
  · have hsets : ¬ change.Sets slot := fun h => hcovers ((covers_mark hvalid hslot).mpr (.inl h))
    rw [if_neg hsets] at hlast
    rw [held_persist_of_not_covers hwrite hslot hcovers]
    exact (hs.holds slot value hslot hlast).file

theorem Holds.memory_reloaded {mutations : ℕ} {global project content : Option Dict}
    (hw : Holds scope w slot value)
    (hload : w.state.load = some ⟨.reload, .read mutations global project⟩)
    (hunraced : w.state.mutations = mutations) (hread : w.ReadDrained scope)
    (hcontent : content = w.state.content? scope) :
    held ((w.state.scopes scope).reloaded content).settings slot = value := by
  cases hsome : content with
  | none => exact hw.memory
  | some settings =>
    rw [hsome] at hcontent
    refine hw.loaded settings hcontent.symm ?_ (hread (by rw [← hcontent]; rfl))
    rw [State.sampled?, hload, hunraced]
    rfl

theorem Current.kept_step (hs : Current scope w) (hmeets : PublishesDrained w action)
    (h : record w action = some v) (hslot : slot.Settable)
    (hlast : v.last scope slot = some value) : held (v.state.scopes scope).settings slot = value ∧
      held (parseSettings (v.state.drained scope)) slot = value := by
  have hunchanged : ∀ {other : Action}, action = other → w.state.change? scope other = none →
      Holds scope w slot value := by
    rintro _ rfl hnone
    rw [last_of_unchanged h hnone] at hlast
    exact hs.holds slot value hslot hlast
  cases effect_of_step scope (state_of_record h) with
  | silent scopes pending files other unchanged =>
    have hw := hunchanged rfl unchanged
    rw [scopes, drained_of_eq pending files]
    exact ⟨hw.memory, hw.file⟩
  | @changed setter change _ of allowed outcome scopes pending files =>
    have hchange : w.state.change? scope (.call setter) = some change := by
      rw [change?_of_eq of allowed, outcome]
    rw [last_of_record h, State.lastAfter, hchange] at hlast
    have herror : (w.state.scopes setter.scope).loadError = false := hmeets
    rw [of] at herror
    exact hs.changed_step herror hslot (Setter.valid outcome) hlast scopes pending files
  | landed _ scopes pending files =>
    have hw := hunchanged rfl rfl
    refine ⟨by rw [scopes]; exact hw.memory, ?_⟩
    have hfile := hw.file
    rw [State.drained, pending] at hfile
    rw [State.drained, files]
    exact hfile
  | failed => cases hmeets
  | refused refuses =>
    have hnone := (hs.refused refuses).2 slot
    rw [last_of_unchanged h rfl, hnone] at hlast
    cases hlast
  | settled _ scopes pending files =>
    have hw := hunchanged rfl rfl
    rw [scopes, drained_of_eq pending files]
    exact ⟨hw.memory, hw.file⟩
  | @reloaded mutations global project content _ load unraced of scopes pending files =>
    have hw := hunchanged rfl rfl
    rw [scopes, drained_of_eq pending files]
    refine ⟨hw.memory_reloaded load unraced ?_ (of.trans (content?_of_load load).symm), hw.file⟩
    have hsampled : w.state.sampled? = some w.state.mutations := by
      rw [State.sampled?, load, unraced]
      rfl
    obtain ⟨hglobal, hproject, -⟩ := hmeets hsampled
    cases scope with
    | global => exact hglobal
    | project => exact hproject
  | @trustedProject mutations global project _ of load unraced scopes pending files =>
    have hw := hunchanged rfl rfl
    rw [scopes, drained_of_eq pending files]
    refine ⟨?_, hw.file⟩
    have hsampled : w.state.sampled? = some w.state.mutations := by
      rw [State.sampled?, load, unraced]
      rfl
    obtain ⟨-, hproject, hhas⟩ := hmeets hsampled
    subst of
    have hsome := hhas (by rw [load]; rfl)
    obtain ⟨settings, hsettings⟩ := Option.isSome_iff_exists.mp hsome
    have hcontent := (content?_of_load load).symm.trans hsettings
    rw [show project = some settings from hcontent]
    exact hw.loaded settings hsettings hsampled (hproject hsome)
  | @trusting trusted _ of scopes pending files =>
    have hw := hunchanged rfl rfl
    have htrusted : trusted = true := hmeets
    rw [scopes, htrusted, drained_of_eq pending files]
    exact ⟨hw.memory, hw.file⟩

/-- A setter moves the counter away from what a load has sampled. -/
theorem Current.change?_of_sampled (hs : Current scope w) (h : step w.state action = some t)
    (hsampled : t.sampled? = some t.mutations) : w.state.change? scope action = none := by
  cases effect_of_step scope h with
  | silent _ _ _ _ unchanged => exact unchanged
  | @changed setter _ _ _ _ _ _ _ _ mutations =>
    have hload : t.load = w.state.load := by
      rw [← Option.some.inj h]
      exact load_call setter
    rw [State.sampled?, hload, mutations] at hsampled
    exact absurd (hs.sampled _ hsampled) (Nat.not_succ_le_self _)
  | _ => rfl

theorem Current.step (hs : Current scope w) (hmeets : PublishesDrained w action)
    (h : record w action = some v) : Current scope v := by
  have hstep := state_of_record h
  refine ⟨hs.tidy.step hstep, hs.refused_step hmeets h, sampled_step hs.sampled hstep, ?_⟩
  intro slot value hslot hlast
  obtain ⟨hmemory, hfile⟩ := hs.kept_step hmeets h hslot hlast
  refine ⟨hmemory, hfile, fun settings hcontent hsampled => ?_⟩
  rw [last_of_unchanged h (hs.change?_of_sampled hstep hsampled)] at hlast
  have hallowed : w.state.refuses scope = false := by
    refine eq_false_of_ne_true fun hrefuses => ?_
    rw [(hs.refused hrefuses).2 slot] at hlast
    cases hlast
  exact hs.content_step hallowed (hs.holds slot value hslot hlast) h settings hcontent hsampled

theorem current_recordStart (files : Scope → Option Dict) (trusted : Bool) (ok : Scope → Bool)
    (scope : Scope) : Current scope (recordStart files trusted ok) :=
  ⟨tidy_start, fun _ => ⟨rfl, fun _ => rfl⟩, fun _ h => (nomatch h), fun _ _ _ h => (nomatch h)⟩

/-- Where loads publish only what they read with no write under way, every slot holds what was
last set in it, while loads are going on and after. -/
theorem held_of_reaches (files : Scope → Option Dict) (trusted : Bool) (ok : Scope → Bool)
    (h : Runs.Reaches record PublishesDrained (recordStart files trusted ok) w)
    (hslot : slot.Settable) {value : Held} (hlast : w.last scope slot = some value) :
    held (w.state.scopes scope).settings slot = value :=
  ((h.kept (current_recordStart files trusted ok scope) fun _ _ _ hs hmeets =>
    hs.step hmeets).holds slot value hslot hlast).memory

end Loads

/-- The writer had taken the setter's write when the ticket of the load was sent. -/
theorem held_after_reload : ∃ w : Recorded,
    Runs.Reaches record PublishesDrained (recordStart (fun _ => none) true fun _ => true) w ∧
      w.state.load.isNone ∧
      held (w.state.scopes .global).settings (.field "theme") = .setting (.str "dark") := by
  have hrun : Runs.run (fun w action => if PublishesDrained w action then record w action else none)
      (recordStart (fun _ => none) true fun _ => true)
      [.call (.theme "dark"), .reload, .receive, .land, .settle, .receive, .sample, .read true,
        .read true, .publish] = some _ := rfl
  have hreaches := Runs.Reaches.of_run hrun
  refine ⟨_, hreaches, rfl, held_of_reaches _ true _ hreaches (by decide) ?_⟩
  exact congrArg some held_insert

/-- A setter that comes after the ticket of the load and before the counter is sampled: its write
has not reached the file when the load reads it, and the counter does not tell. -/
theorem theme_lost : ∃ w : Recorded,
    Runs.run record (recordStart (fun _ => none) true fun _ => true)
      [.call (.theme "dark"), .receive, .land, .settle, .reload, .receive, .call (.theme "light"),
        .sample, .read true, .read true, .publish] = some w ∧
      w.state.load.isNone ∧ w.last .global (.field "theme") = some (.setting (.str "light")) ∧
      held (w.state.scopes .global).settings (.field "theme") = .setting (.str "dark") := by
  have htheme := Setter.valid (show (Setter.theme "dark").outcome ∅ = .changed _ from rfl)
  have hwrite := (proper_empty migrated_empty).next htheme
  refine ⟨_, rfl, rfl, congrArg some held_insert, ?_⟩
  exact (held_persist_of_covers hwrite (by decide) (by decide)).trans held_insert

end Pidrei.SettingsManager
