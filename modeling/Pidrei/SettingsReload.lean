import Pidrei.SettingsSteps
import Pidrei.SettingsPresence

/-!
A manager whose writes all succeed, and its reloads. Nothing is written while a load is
on its way, so that what it reads is what the settings in memory were.
-/
namespace Pidrei.SettingsManager

open Settings

/-- A manager with the changes that the global setters have made. -/
structure Logged where
  state : State
  changes : List Change

def log (w : Logged) (action : Action) : Option Logged :=
  (step w.state action).map fun t =>
    ⟨t, w.changes ++ (w.state.change? .global action).toList⟩

def logStart (files : Scope → Option Dict) (trusted : Bool) : Logged :=
  ⟨start files trusted fun _ => true, []⟩

/-- The setter gets what it takes, and leaves at least one override. -/
def State.Takes (s : State) (initial : Dict) (setter : Setter) : Prop :=
  s.refuses setter.scope = false ∧ setter.accepts = true ∧ setter.fits initial = true ∧
    setter.dropsLast (s.scopes setter.scope).settings = false

/-- All writes and reads succeed, the trust stays as it is, and setters are called between the
loads, each with what it takes. -/
def Orderly (initial : Dict) (w : Logged) : Action → Prop
  | .call setter => w.state.load.isNone ∧ w.state.Takes initial setter
  | .failWrite | .trust _ => False
  | .read ok => ok = true
  | _ => True

instance (initial : Dict) (w : Logged) : (action : Action) → Decidable (Orderly initial w action)
  | .call setter =>
    inferInstanceAs (Decidable (w.state.load.isNone ∧ w.state.refuses setter.scope = false ∧
      setter.accepts = true ∧ setter.fits initial = true ∧
        setter.dropsLast (w.state.scopes setter.scope).settings = false))
  | .failWrite | .trust _ => .isFalse id
  | .read ok => inferInstanceAs (Decidable (ok = true))
  | .receive | .land | .settle | .flush | .reload | .sample | .publish => .isTrue trivial

def Item.isWrite : Item → Bool
  | .write _ _ => true
  | .ticket _ => false

def Item.ofLoad : Item → Bool
  | .ticket ofLoad => ofLoad
  | .write _ _ => false

/-- The ticket of a load, with no write behind it. -/
def TicketLast : List Item → Prop
  | [] => False
  | item :: rest =>
    if item.ofLoad then ∀ later ∈ rest, later.ofLoad = false ∧ later.isWrite = false
    else TicketLast rest

/-- Where a load is: its ticket is in the queue, or it was answered and nothing is under way. -/
inductive Turn (s : State) : Prop
  | idle (load : s.load = none) (queue : ∀ item ∈ s.queue, item.ofLoad = false)
  | flushing (load : s.load = some ⟨.reload, .flushing⟩) (queue : TicketLast s.queue)
  | answered {phase : LoadPhase} (load : s.load = some ⟨.reload, phase⟩)
      (other : phase ≠ .flushing) (queue : ∀ item ∈ s.queue, item.ofLoad = false)
      (pending : ∀ scope, s.pending scope = [])

/-- Before the first item the writer has nothing. -/
def Unstarted (s : State) : Prop := s.started = false → s.queue = [] ∧ s.writer = .waiting

section Turns

variable {s t : State} {w v : Logged} {scope : Scope} {action : Action} {items : List Item}
  {item : Item} {initial : Dict}

attribute [local simp] TicketLast in
theorem ticketLast_append (h : TicketLast items) : TicketLast (items ++ [Item.ticket false]) := by
  induction items with
  | nil => cases h
  | cons item rest ih =>
    rw [List.cons_append, TicketLast]
    rw [TicketLast] at h
    split at h
    · rename_i hload
      rw [if_pos hload]
      intro later hlater
      rcases List.mem_append.mp hlater with hin | hlast
      · exact h later hin
      · rw [List.mem_singleton.mp hlast]
        exact ⟨rfl, rfl⟩
    · rename_i hload
      rw [if_neg hload]
      exact ih h

theorem ticketLast_send (h : ∀ item ∈ items, item.ofLoad = false) :
    TicketLast (items ++ [Item.ticket true]) := by
  induction items with
  | nil => exact nofun
  | cons item rest ih =>
    rw [List.cons_append, TicketLast, if_neg (by rw [h item List.mem_cons_self]; nofun)]
    exact ih fun later hlater => h later (List.mem_cons_of_mem _ hlater)

theorem ticketLast_tail (h : TicketLast (item :: items)) (hload : item.ofLoad = false) :
    TicketLast items := by
  rwa [TicketLast, if_neg (by rw [hload]; nofun)] at h

theorem pending_of_idle (hwriter : s.writer = .waiting) (hqueue : ∀ item ∈ s.queue, item.isWrite = false) :
    s.pending scope = [] := by
  rw [State.pending, hwriter]
  refine List.filterMap_eq_nil_iff.mpr fun item hitem => ?_
  cases item with
  | write other queued => cases hqueue _ hitem
  | ticket ofLoad => rfl

theorem Turn.same (hs : Turn s) (h : step s action = some t)
    (hunchanged : ∀ scope, s.change? scope action = none) (hload : t.load = s.load)
    (hqueue : t.queue = s.queue) : Turn t := by
  cases hs with
  | idle load queue => exact .idle (hload.trans load) (hqueue ▸ queue)
  | flushing load queue => exact .flushing (hload.trans load) (hqueue ▸ queue)
  | answered load other queue pending =>
    exact .answered (hload.trans load) other (hqueue ▸ queue) fun scope =>
      pending_nil_of_step h (hunchanged scope) (pending scope)

theorem Turn.flush (hs : Turn s) : Turn (flush s) := by
  have hlater : (∀ item ∈ s.queue, item.ofLoad = false) →
      ∀ item ∈ s.queue ++ [Item.ticket false], item.ofLoad = false := by
    intro hqueue item hitem
    rcases List.mem_append.mp hitem with hin | hlast
    · exact hqueue item hin
    · rw [List.mem_singleton.mp hlast]
      rfl
  unfold SettingsManager.flush
  split
  · cases hs with
    | idle load queue => exact .idle load (hlater queue)
    | flushing load queue => exact .flushing load (ticketLast_append queue)
    | answered load other queue pending =>
      refine .answered load other (hlater queue) fun scope => ?_
      rw [pending_send_ticket]
      exact pending scope
  · exact hs

theorem turn_beginTurn (hunstarted : Unstarted s)
    (hqueue : ∀ item ∈ s.queue, item.ofLoad = false) : Turn (beginTurn s .reload) := by
  unfold beginTurn
  split
  · exact .flushing rfl (ticketLast_send hqueue)
  · rename_i hstarted
    obtain ⟨hnil, hwriter⟩ := hunstarted (eq_false_of_ne_true hstarted)
    refine .answered rfl nofun hqueue fun scope => pending_of_idle hwriter fun item hitem => ?_
    rw [show (s.setPhase .reload .flushed).queue = s.queue from rfl, hnil] at hitem
    cases hitem

variable {kind : LoadKind} {setter : Setter}

theorem setTicket_flushing (hload : s.load = some ⟨kind, .flushing⟩) :
    setTicket s true = s.setPhase kind .flushed := by
  simp only [setTicket, hload]

theorem Turn.ticket {ofLoad : Bool} {rest : List Item} (hs : Turn s)
    (hwriter : s.writer = .waiting) (hqueue : s.queue = .ticket ofLoad :: rest) :
    Turn (setTicket { s with queue := rest } ofLoad) := by
  have hrest : ∀ {property : Item → Prop}, (∀ item ∈ s.queue, property item) →
      ∀ item ∈ rest, property item := by
    intro property hall item hitem
    refine hall item ?_
    rw [hqueue]
    exact List.mem_cons_of_mem _ hitem
  have hfirst : (.ticket ofLoad : Item) ∈ s.queue := by
    rw [hqueue]
    exact List.mem_cons_self
  cases hs with
  | idle load queue =>
    obtain rfl : ofLoad = false := queue _ hfirst
    exact .idle load (hrest queue)
  | flushing load queue =>
    rw [hqueue] at queue
    cases ofLoad with
    | false => exact .flushing load (ticketLast_tail queue rfl)
    | true =>
      have hlater : ∀ later ∈ rest, later.ofLoad = false ∧ later.isWrite = false := queue
      rw [setTicket_flushing (s := { s with queue := rest }) load]
      exact .answered rfl nofun (fun item hitem => (hlater item hitem).1) fun scope =>
        pending_of_idle hwriter fun item hitem => (hlater item hitem).2
  | answered load other queue pending =>
    obtain rfl : ofLoad = false := queue _ hfirst
    refine .answered load other (hrest queue) fun scope => ?_
    rw [← pending scope]
    simp [State.pending, setTicket, hqueue, Item.write?, List.filterMap_cons]

theorem Turn.receive (hs : Turn s) (h : receive s = some t) : Turn t := by
  unfold SettingsManager.receive at h
  split at h
  · rename_i ofLoad rest hwriter hqueue
    cases h
    exact hs.ticket hwriter hqueue
  · rename_i scope write rest hwriter hqueue
    have hload : t.load = s.load ∧ t.queue = rest := by
      cases h
      split <;> exact ⟨rfl, rfl⟩
    have hrest : (∀ item ∈ s.queue, item.ofLoad = false) → ∀ item ∈ t.queue, item.ofLoad = false := by
      rw [hload.2, hqueue]
      exact fun hall item hitem => hall item (List.mem_cons_of_mem _ hitem)
    cases hs with
    | idle load queue => exact .idle (hload.1.trans load) (hrest queue)
    | flushing load queue =>
      rw [hqueue] at queue
      refine .flushing (hload.1.trans load) ?_
      rw [hload.2]
      exact ticketLast_tail queue rfl
    | answered load other queue pending =>
      have hpending := pending scope
      simp [State.pending, hwriter, hqueue, Writer.inFlight, Item.write?] at hpending
  · cases h

theorem Turn.publish (hs : Turn s) (hunstarted : Unstarted s)
    (h : publish s = some t) : Turn t := by
  unfold SettingsManager.publish at h
  split at h
  · rename_i kind mutations global project hload
    have hqueue : kind = .reload ∧ ∀ item ∈ s.queue, item.ofLoad = false := by
      cases hs with
      | idle load => rw [hload] at load; cases load
      | flushing load => rw [hload] at load; cases load
      | answered load other queue =>
        rw [hload] at load
        cases load
        exact ⟨rfl, queue⟩
    obtain ⟨rfl, hqueue⟩ := hqueue
    split at h
    · cases h
      exact turn_beginTurn hunstarted hqueue
    · cases h
      exact .idle rfl hqueue
  · cases h

theorem unstarted_beginTurn (hs : Unstarted s) : Unstarted (beginTurn s kind) := by
  unfold beginTurn
  split
  · exact nofun
  · exact hs

theorem unstarted_call (hs : Unstarted s) : Unstarted (call s setter) := by
  unfold call
  split
  · exact hs
  · split
    · unfold update
      simp only
      split
      · exact hs
      · exact nofun
    · exact hs
    · exact hs

attribute [local simp] read in
theorem unstarted_step (hs : Unstarted s) (h : step s action = some t) : Unstarted t := by
  cases action with
  | call setter =>
    cases h
    exact unstarted_call hs
  | receive =>
    rw [step, receive] at h
    have hqueue : s.queue = [] → False := by
      intro hnil
      rw [hnil] at h
      split at h
      · rename_i hcons
        cases hcons
      · rename_i hcons
        cases hcons
      · cases h
    have hstarted : t.started = s.started := by
      split at h <;> cases h
      · unfold setTicket
        split <;> rfl
      · split <;> rfl
    exact fun h => absurd (hs (hstarted.symm.trans h)).1 hqueue
  | land =>
    rw [step, land] at h
    split at h <;> cases h
    rename_i hwriter
    intro hstarted
    rw [(hs hstarted).2] at hwriter
    cases hwriter
  | failWrite =>
    rw [step, failWrite] at h
    split at h <;> cases h
    exact fun hstarted => ⟨(hs hstarted).1, rfl⟩
  | settle =>
    rw [step, settle] at h
    split at h <;> cases h
    exact fun hstarted => ⟨(hs hstarted).1, rfl⟩
  | flush =>
    cases h
    unfold flush
    split
    · exact (fun h => by cases h)
    · exact hs
  | reload =>
    rw [step, reload] at h
    split at h <;> cases h
    exact unstarted_beginTurn hs
  | trust trusted =>
    rw [step, trust] at h
    split at h
    · cases h
    · split at h
      · cases h
        exact hs
      · split at h <;> cases h
        · exact unstarted_beginTurn hs
        · exact hs
  | sample =>
    rw [step, sample] at h
    split at h <;> cases h
    exact hs
  | read ok =>
    rw [step, read] at h
    split at h <;> cases h <;> exact hs
  | publish =>
    rw [step, publish] at h
    split at h
    · split at h <;> cases h
      · exact unstarted_beginTurn hs
      · split <;> exact hs
    · cases h

theorem mem_queue_call (hitem : item ∈ (call s setter).queue) :
    item ∈ s.queue ∨ ∃ scope write, item = .write scope write := by
  revert hitem
  unfold call
  split
  · exact .inl
  · split
    · unfold update
      simp only
      split
      · exact .inl
      · intro hitem
        rcases List.mem_append.mp hitem with hin | hlast
        · exact .inl hin
        · exact .inr ⟨_, _, List.mem_singleton.mp hlast⟩
    · exact .inl
    · exact .inl

theorem Turn.setPhase {phase next : LoadPhase} (hs : Turn s) (hload : s.load = some ⟨kind, phase⟩)
    (hphase : phase ≠ .flushing) (hnext : next ≠ .flushing) : Turn (s.setPhase kind next) := by
  cases hs with
  | idle load => rw [hload] at load; cases load
  | flushing load =>
    rw [hload] at load
    cases load
    exact absurd rfl hphase
  | answered load _ queue pending =>
    rw [hload] at load
    cases load
    exact .answered rfl hnext queue pending

theorem Turn.step (hs : Turn w.state) (hunstarted : Unstarted w.state)
    (horderly : Orderly initial w action) (h : step w.state action = some t) : Turn t := by
  cases action with
  | call setter =>
    obtain ⟨hload, -⟩ : w.state.load.isNone ∧ _ := horderly
    cases h
    cases hs with
    | idle load queue =>
      refine .idle ((load_call setter).trans load) fun item hitem => ?_
      rcases mem_queue_call hitem with hin | ⟨scope, write, rfl⟩
      · exact queue item hin
      · rfl
    | flushing load => rw [load] at hload; cases hload
    | answered load => rw [load] at hload; cases hload
  | receive => exact hs.receive h
  | land =>
    refine hs.same h (fun _ => rfl) ?_ ?_ <;> rw [SettingsManager.step, land] at h <;>
      split at h <;> cases h <;> rfl
  | failWrite | trust => cases horderly
  | settle =>
    refine hs.same h (fun _ => rfl) ?_ ?_ <;> rw [SettingsManager.step, settle] at h <;>
      split at h <;> cases h <;> rfl
  | flush =>
    cases h
    exact hs.flush
  | reload =>
    rw [SettingsManager.step, reload] at h
    split at h <;> cases h
    rename_i hload
    cases hs with
    | idle load queue => exact turn_beginTurn hunstarted queue
    | flushing load => rw [hload] at load; cases load
    | answered load => rw [hload] at load; cases load
  | sample =>
    rw [SettingsManager.step, sample] at h
    split at h <;> cases h
    rename_i hload
    exact hs.setPhase hload (fun h => by cases h) (fun h => by cases h)
  | read ok =>
    rw [SettingsManager.step, read] at h
    split at h <;> cases h
    · rename_i hload
      exact hs.setPhase hload (fun h => by cases h) (fun h => by cases h)
    · rename_i hload
      exact hs.setPhase hload (fun h => by cases h) (fun h => by cases h)
    · rename_i hload
      exact hs.setPhase hload (fun h => by cases h) (fun h => by cases h)
  | publish => exact hs.publish hunstarted h

end Turns

section Agreement

/-- What the load has read of the global file. -/
def LoadPhase.global? : LoadPhase → Option (Option Dict)
  | .readGlobal _ global | .read _ global _ => some global
  | .flushing | .flushed | .sampled _ => none

variable {w v : Logged} {t : State} {action : Action} {initial : Dict} {slot : Slot}

theorem state_of_log (h : log w action = some v) : step w.state action = some v.state := by
  obtain ⟨t, ht, rfl⟩ := Option.map_eq_some_iff.mp h
  exact ht

theorem changes_of_log (h : log w action = some v) :
    v.changes = w.changes ++ (w.state.change? .global action).toList := by
  obtain ⟨t, ht, rfl⟩ := Option.map_eq_some_iff.mp h
  rfl

/-- The file comes to hold exactly the settings in memory. -/
structure Exact (initial : Dict) (s : State) : Prop where
  error : (s.scopes .global).loadError = false
  agrees : parseSettings (s.drained .global) = (s.scopes .global).settings
  present : (s.scopes .global).marks.Present (s.scopes .global).settings
  levels : LevelsKept initial (s.scopes .global).settings

/-- Besides, a load has read just these. -/
structure Agreeing (initial : Dict) (s : State) : Prop extends Exact initial s where
  tidy : Tidy .global s
  unstarted : Unstarted s
  turn : Turn s
  loaded : ∀ load global, s.load = some load → load.phase.global? = some global →
    global = some (s.scopes .global).settings

variable {s : State}

theorem Agreeing.content (hs : Agreeing initial s) {m : ℕ}
    (hload : s.load = some ⟨.reload, .sampled m⟩) :
    content s .global true = some (s.scopes .global).settings := by
  have hpending : s.pending .global = [] := by
    cases hs.turn with
    | idle load => rw [hload] at load; cases load
    | flushing load => rw [hload] at load; cases load
    | answered _ _ _ pending => exact pending .global
  have hagrees := hs.agrees
  rw [State.drained, hpending] at hagrees
  exact congrArg some hagrees

/-- What is published is what was there. -/
theorem Agreeing.settings_step (hs : Agreeing initial w.state) (horderly : Orderly initial w action)
    (h : step w.state action = some t) :
    (t.scopes .global).settings = match w.state.change? .global action with
      | some change => change.apply (w.state.scopes .global).settings
      | none => (w.state.scopes .global).settings := by
  cases effect_of_step .global h with
  | silent scopes _ _ _ unchanged => rw [scopes, unchanged]
  | changed of allowed outcome scopes =>
    rw [scopes, change?_of_eq of allowed, outcome]
    rfl
  | landed _ scopes => rw [scopes]; rfl
  | failed => cases horderly
  | refused _ scopes => rw [scopes]; rfl
  | settled _ scopes => rw [scopes]; rfl
  | @reloaded _ global _ content _ load _ of scopes =>
    have hglobal := hs.loaded _ global load rfl
    rw [scopes, of, hglobal]
    rfl
  | trustedProject of => cases of
  | trusting => cases horderly

theorem mutations?_ne_none {phase : LoadPhase} {global : Option Dict}
    (h : phase.global? = some global) : phase.mutations? ≠ none := by
  cases phase with
  | readGlobal | read => exact Option.some_ne_none _
  | _ => cases h

theorem Agreeing.loaded_step (hs : Agreeing initial w.state) (horderly : Orderly initial w action)
    (h : step w.state action = some t) : ∀ load global, t.load = some load →
      load.phase.global? = some global → global = some (t.scopes .global).settings := by
  intro load global hload hglobal
  have hkept : (t.scopes .global).settings = (w.state.scopes .global).settings →
      t.load = w.state.load → global = some (t.scopes .global).settings := by
    intro hsettings hsame
    rw [hsettings]
    exact hs.loaded load global (hsame.symm.trans hload) hglobal
  have hsettings := hs.settings_step horderly h
  have hsampled : t.sampled? ≠ none := by
    rw [State.sampled?, hload]
    exact mutations?_ne_none hglobal
  cases action with
  | call setter =>
    obtain ⟨hnone, -⟩ : w.state.load.isNone ∧ _ := horderly
    cases h
    rw [load_call, Option.isNone_iff_eq_none.mp hnone] at hload
    cases hload
  | receive =>
    cases loadEffect_receive h with
    | same same => exact hkept hsettings same
    | restarted _ sampled => exact absurd sampled hsampled
  | land =>
    rw [SettingsManager.step, land] at h
    split at h <;> cases h
    exact hkept hsettings rfl
  | failWrite | trust => cases horderly
  | settle =>
    rw [SettingsManager.step, settle] at h
    split at h <;> cases h
    exact hkept hsettings rfl
  | flush =>
    cases h
    refine hkept hsettings ?_
    unfold flush
    split <;> rfl
  | reload =>
    rw [SettingsManager.step, reload] at h
    split at h <;> cases h
    exact absurd (sampled?_beginTurn .reload) hsampled
  | sample =>
    rw [SettingsManager.step, sample] at h
    split at h <;> cases h
    cases hload
    cases hglobal
  | read ok =>
    obtain rfl : ok = true := horderly
    rw [hsettings]
    rw [SettingsManager.step, read] at h
    split at h <;> cases h
    · rename_i hbefore
      cases hload
      cases hglobal
      exact hs.content hbefore
    · rename_i hbefore
      cases hs.turn with
      | idle load => rw [hbefore] at load; cases load
      | flushing load => rw [hbefore] at load; cases load
      | answered load => rw [hbefore] at load; cases load
    · rename_i hbefore
      cases hload
      cases hglobal
      exact hs.loaded _ _ hbefore rfl
  | publish =>
    cases loadEffect_publish h with
    | same same => exact hkept hsettings same
    | restarted _ sampled => exact absurd sampled hsampled

theorem Exact.changed {setter : Setter} {change : Change} (hs : Agreeing initial s)
    (htakes : s.Takes initial setter) (hof : setter.scope = .global)
    (houtcome : setter.outcome (s.scopes .global).settings = .changed change)
    (hscopes : t.scopes .global = ⟨((s.scopes .global).writeOf change).snapshot,
      ((s.scopes .global).writeOf change).marks, (s.scopes .global).loadError⟩)
    (hpending : t.pending .global = s.pending .global ++
      if (s.scopes .global).loadError then [] else [(s.scopes .global).writeOf change])
    (hfiles : t.files .global = s.files .global) : Exact initial t := by
  obtain ⟨-, -, hfits, hdrops⟩ := htakes
  rw [hof] at hdrops
  have hvalid := Setter.valid houtcome
  have hproper : ((s.scopes .global).writeOf change).Proper := hs.tidy.proper.next hvalid
  have hpresent := hs.present.next hs.tidy.proper hvalid (not_dropped hdrops hfits hs.levels houtcome)
  have hdrained : t.drained .global =
      some (((s.scopes .global).writeOf change).persist (s.drained .global)) := by
    rw [State.drained, State.drained, hpending, hfiles, hs.error]
    exact drain_append_singleton
  refine ⟨?_, ?_, ?_, ?_⟩
  · rw [hscopes]
    exact hs.error
  · rw [hdrained, hscopes, hproper.parse_persist, Write.persist, hs.agrees]
    exact merge_change hvalid hproper hpresent
  · rw [hscopes]
    exact hpresent
  · rw [hscopes]
    exact levelsKept_apply hdrops hfits hs.levels houtcome

theorem Exact.same (hs : Exact initial s) (hdrained : t.drained .global = s.drained .global)
    (herror : (t.scopes .global).loadError = false)
    (hsettings : (t.scopes .global).settings = (s.scopes .global).settings)
    (hmarks : (t.scopes .global).marks.Present (s.scopes .global).settings) : Exact initial t := by
  refine ⟨herror, ?_, ?_, ?_⟩
  · rw [hdrained, hsettings]
    exact hs.agrees
  · rw [hsettings]
    exact hmarks
  · rw [hsettings]
    exact hs.levels

theorem Agreeing.exact_step (hs : Agreeing initial w.state) (horderly : Orderly initial w action)
    (h : step w.state action = some t) : Exact initial t := by
  have hempty : Marks.empty.Present (w.state.scopes .global).settings :=
    ⟨fun _ hin => (nomatch hin), fun _ _ hin => (nomatch hin)⟩
  have hsettings := hs.settings_step horderly h
  cases effect_of_step .global h with
  | silent scopes pending files =>
    refine hs.toExact.same (drained_of_eq pending files) ?_ ?_ ?_ <;> rw [scopes]
    · exact hs.error
    · exact hs.present
  | changed of allowed outcome scopes pending files =>
    exact Exact.changed hs horderly.2 of outcome scopes pending files
  | landed _ scopes pending files =>
    refine hs.toExact.same ?_ ?_ ?_ ?_
    · rw [State.drained, State.drained, pending, files]
      rfl
    all_goals rw [scopes]
    · exact hs.error
    · exact hs.present
  | failed => cases horderly
  | refused refuses => cases refuses
  | settled _ scopes pending files =>
    refine hs.toExact.same (drained_of_eq pending files) ?_ ?_ ?_ <;> rw [scopes]
    · exact hs.error
    · exact hempty
  | @reloaded _ global _ content _ load _ of scopes pending files =>
    have hglobal := hs.loaded _ global load rfl
    refine hs.toExact.same (drained_of_eq pending files) ?_ hsettings ?_ <;> rw [scopes, of, hglobal]
    · rfl
    · exact hempty
  | trustedProject of => cases of
  | trusting => cases horderly

theorem Agreeing.step (hs : Agreeing initial w.state) (horderly : Orderly initial w action)
    (h : SettingsManager.step w.state action = some t) : Agreeing initial t :=
  ⟨hs.exact_step horderly h, hs.tidy.step h, unstarted_step hs.unstarted h,
    hs.turn.step hs.unstarted horderly h, hs.loaded_step horderly h⟩

theorem agreeing_start (files : Scope → Option Dict) (trusted : Bool) :
    Agreeing (parseSettings (files .global)) (start files trusted fun _ => true) where
  error := rfl
  agrees := rfl
  present := ⟨fun _ hin => (nomatch hin), fun _ _ hin => (nomatch hin)⟩
  levels := .inl rfl
  tidy := tidy_start
  unstarted := fun _ => ⟨rfl, rfl⟩
  turn := .idle rfl nofun
  loaded := nofun

/-- Fields and slots that no change has touched are what they were. -/
structure Untouched (initial : Dict) (w : Logged) : Prop where
  fields : ∀ name, (∀ change ∈ w.changes, name ∉ change.names) →
    (w.state.scopes .global).settings[name]? = initial[name]?
  slots : ∀ slot : Slot, slot.Settable → (∀ change ∈ w.changes, ¬ change.Sets slot) →
    held (w.state.scopes .global).settings slot = held initial slot

theorem Untouched.step (hs : Untouched initial w) (hagreeing : Agreeing initial w.state)
    (horderly : Orderly initial w action) (h : log w action = some v) : Untouched initial v := by
  have hstep := state_of_log h
  have hsettings := hagreeing.settings_step horderly hstep
  have hchanges := changes_of_log h
  cases hchange : w.state.change? .global action with
  | none =>
    rw [hchange] at hsettings hchanges
    refine ⟨?_, ?_⟩ <;> rw [hsettings, hchanges, Option.toList_none, List.append_nil]
    · exact hs.fields
    · exact hs.slots
  | some change =>
    rw [hchange] at hsettings hchanges
    rw [Option.toList_some] at hchanges
    have hvalid := valid_of_change? hchange
    have hold : ∀ {property : Change → Prop}, (∀ other ∈ v.changes, property other) →
        property change ∧ ∀ other ∈ w.changes, property other := by
      intro property hall
      rw [hchanges] at hall
      exact ⟨hall change (List.mem_append_right _ (List.mem_singleton_self _)),
        fun other hin => hall other (List.mem_append_left _ hin)⟩
    refine ⟨fun name hall => ?_, fun slot hslot hall => ?_⟩ <;> obtain ⟨hnew, hbefore⟩ := hold hall <;>
      rw [hsettings]
    · exact (get?_apply hnew).trans (hs.fields name hbefore)
    · exact (held_apply hslot hnew hvalid).trans (hs.slots slot hslot hbefore)

def Regular (initial : Dict) (w : Logged) : Prop := Agreeing initial w.state ∧ Untouched initial w

/-- After every orderly run: once nothing is under way the file reads back as the settings in
memory, which is what a reload publishes; no setter that gets what it takes raises; and what no
setter touched is as it was. -/
theorem agreement_of_reaches (files : Scope → Option Dict) (trusted : Bool)
    (h : Runs.Reaches log (Orderly (parseSettings (files .global))) (logStart files trusted) w) :
    (w.state.pending .global = [] →
        parseSettings (w.state.files .global) = (w.state.scopes .global).settings) ∧
      (∀ t, publish w.state = some t →
        (t.scopes .global).settings = (w.state.scopes .global).settings) ∧
      (∀ setter, w.state.Takes (parseSettings (files .global)) setter → ¬ Raises w.state setter) ∧
      Untouched (parseSettings (files .global)) w := by
  have hstart : Regular (parseSettings (files .global)) (logStart files trusted) :=
    ⟨agreeing_start files trusted, fun _ _ => rfl, fun _ _ _ => rfl⟩
  have hall : Regular (parseSettings (files .global)) w :=
    h.kept hstart fun _ _ _ hs horderly hstep =>
      ⟨hs.1.step horderly (state_of_log hstep), hs.2.step hs.1 horderly hstep⟩
  obtain ⟨hagreeing, huntouched⟩ := hall
  refine ⟨fun hpending => ?_, fun t ht => ?_, fun setter htakes => ?_, huntouched⟩
  · have hagrees := hagreeing.agrees
    rwa [State.drained, hpending] at hagrees
  · exact hagreeing.settings_step (show Orderly _ w .publish from trivial) ht
  · obtain ⟨hrefuses, haccepts, hfits, -⟩ := htakes
    rintro (hyes | hraised)
    · rw [hrefuses] at hyes
      cases hyes
    · cases hscope : setter.scope with
      | global =>
        rw [hscope] at hraised
        exact outcome_ne_raised haccepts hfits hagreeing.levels hraised
      | project => exact Setter.project_ne_raised hscope hraised

end Agreement

/-- One of two overrides is removed, and a load reads the other back. -/
theorem agreement_after_removal : ∃ w : Logged,
    Runs.Reaches log (Orderly ∅) (logStart (fun _ => none) true) w ∧ w.state.load.isNone ∧
      parseSettings (w.state.files .global) = (w.state.scopes .global).settings := by
  have hrun : Runs.run (fun w action => if Orderly ∅ w action then log w action else none)
      (logStart (fun _ => none) true)
      [.call (.modelThinkingLevel "p" "m" "high"), .call (.modelThinkingLevel "p" "n" "low"),
        .call (.removedModelThinkingLevel "p" "m"), .reload, .receive, .land, .settle, .receive,
        .land, .settle, .receive, .land, .settle, .receive, .sample, .read true, .read true,
        .publish] = some _ := rfl
  have hreaches := Runs.Reaches.of_run hrun
  exact ⟨_, hreaches, rfl, (agreement_of_reaches (fun _ => none) true hreaches).1 rfl⟩

/-- The last override is removed: the field is gone from memory and null in the file, so that a
reload finds null there, and the next setter of an override raises. -/
theorem override_left_null : ∃ s t : State,
    Runs.run step (start (fun _ => none) true fun _ => true)
      [.call (.modelThinkingLevel "p" "m" "high"), .call (.removedModelThinkingLevel "p" "m"),
        .reload, .receive, .land, .settle, .receive, .land, .settle, .receive, .sample, .read true,
        .read true] = some s ∧ publish s = some t ∧
      (s.scopes .global).settings["modelThinkingLevels"]? = none ∧
      (t.scopes .global).settings["modelThinkingLevels"]? = some .null ∧
      Raises t (.modelThinkingLevel "p" "m" "high") := by
  refine ⟨_, _, rfl, rfl, ?_, ?_, ?_⟩
  · rfl
  · rfl
  · exact .inr rfl

end Pidrei.SettingsManager
