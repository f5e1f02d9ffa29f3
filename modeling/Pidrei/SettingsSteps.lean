import Pidrei.SettingsManager

/-!
What one step of the settings manager does to one scope: to its settings and marks, to
the writes that are still to come, and to its file.
-/
namespace Pidrei.SettingsManager

open Settings

def Item.write? (scope : Scope) : Item → Option Write
  | .write other queued => if other = scope then some queued else none
  | .ticket _ => none

def Writer.inFlight (scope : Scope) : Writer → List Write
  | .writing other write => if other = scope then [write] else []
  | .waiting | .written _ => []

/-- The writes of the scope that have not reached the file, in their order. -/
def State.pending (s : State) (scope : Scope) : List Write :=
  s.writer.inFlight scope ++ s.queue.filterMap (Item.write? scope)

def drain (writes : List Write) (file : Option Dict) : Option Dict :=
  writes.foldl (fun file write => some (write.persist file)) file

/-- The file of the scope once all its writes have reached it. -/
def State.drained (s : State) (scope : Scope) : Option Dict := drain (s.pending scope) (s.files scope)

def ScopeState.writeOf (state : ScopeState) (change : Change) : Write :=
  ⟨change.apply state.settings, change.mark state.marks⟩

def Action.ends : Action → Bool
  | .land | .failWrite => true
  | _ => false

def State.change? (s : State) (scope : Scope) : Action → Option Change
  | .call setter =>
    if setter.scope = scope ∧ s.refuses scope = false then
      match setter.outcome (s.scopes scope).settings with
      | .changed change => some change
      | .raised | .unchanged => none
    else none
  | _ => none

/-- What a step can do to a scope. -/
inductive Effect (scope : Scope) (s : State) : Action → State → Prop
  | silent {action : Action} {t : State} (scopes : t.scopes scope = s.scopes scope)
      (pending : t.pending scope = s.pending scope) (files : t.files scope = s.files scope)
      (other : action.ends → ∀ write, s.writer ≠ .writing scope write)
      (unchanged : s.change? scope action = none) :
      Effect scope s action t
  | changed {setter : Setter} {change : Change} {t : State} (of : setter.scope = scope)
      (allowed : s.refuses scope = false)
      (outcome : setter.outcome (s.scopes scope).settings = .changed change)
      (scopes : t.scopes scope = ⟨((s.scopes scope).writeOf change).snapshot,
        ((s.scopes scope).writeOf change).marks, (s.scopes scope).loadError⟩)
      (pending : t.pending scope = s.pending scope ++
        if (s.scopes scope).loadError then [] else [(s.scopes scope).writeOf change])
      (files : t.files scope = s.files scope) (mutations : t.mutations = s.mutations + 1) :
      Effect scope s (.call setter) t
  | landed {write : Write} {t : State} (writer : s.writer = .writing scope write)
      (scopes : t.scopes scope = s.scopes scope)
      (pending : s.pending scope = write :: t.pending scope)
      (files : t.files scope = some (write.persist (s.files scope))) : Effect scope s .land t
  | failed {write : Write} {t : State} (writer : s.writer = .writing scope write)
      (scopes : t.scopes scope = s.scopes scope)
      (pending : s.pending scope = write :: t.pending scope)
      (files : t.files scope = s.files scope) : Effect scope s .failWrite t
  | refused {write : Write} {t : State} (refuses : s.refuses scope)
      (scopes : t.scopes scope = s.scopes scope)
      (pending : s.pending scope = write :: t.pending scope)
      (files : t.files scope = s.files scope) : Effect scope s .receive t
  | settled {t : State} (writer : s.writer = .written scope)
      (scopes : t.scopes scope = { s.scopes scope with marks := .empty })
      (pending : t.pending scope = s.pending scope) (files : t.files scope = s.files scope) :
      Effect scope s .settle t
  | reloaded {mutations : ℕ} {global project content : Option Dict} {t : State}
      (load : s.load = some ⟨.reload, .read mutations global project⟩)
      (unraced : s.mutations = mutations)
      (of : content = match scope with
        | .global => global
        | .project => project)
      (scopes : t.scopes scope = (s.scopes scope).reloaded content)
      (pending : t.pending scope = s.pending scope) (files : t.files scope = s.files scope) :
      Effect scope s .publish t
  | trustedProject {mutations : ℕ} {global project : Option Dict} {t : State}
      (of : scope = .project) (load : s.load = some ⟨.trust, .read mutations global project⟩)
      (unraced : s.mutations = mutations)
      (scopes : t.scopes scope = ⟨project.getD ∅, (s.scopes scope).marks, project.isNone⟩)
      (pending : t.pending scope = s.pending scope) (files : t.files scope = s.files scope) :
      Effect scope s .publish t
  | trusting {trusted : Bool} {t : State} (of : scope = .project)
      (scopes : t.scopes scope = if trusted then { s.scopes scope with marks := .empty }
        else ⟨∅, .empty, false⟩)
      (pending : t.pending scope = s.pending scope) (files : t.files scope = s.files scope) :
      Effect scope s (.trust trusted) t

section Steps

variable {s t : State} {scope other : Scope} (kind : LoadKind)

@[simp] theorem pending_setPhase (phase : LoadPhase) :
    (s.setPhase kind phase).pending scope = s.pending scope := rfl

@[simp] theorem pending_send_ticket (ofLoad : Bool) :
    (s.send (.ticket ofLoad)).pending scope = s.pending scope := by
  simp [State.pending, State.send, Item.write?]

theorem pending_send_write (write : Write) : (s.send (.write other write)).pending scope =
    s.pending scope ++ if other = scope then [write] else [] := by
  rw [State.pending, State.send, List.filterMap_append, ← List.append_assoc]
  refine congrArg _ ?_
  by_cases h : other = scope
  · rw [if_pos h, List.filterMap_cons, Item.write?, if_pos h]
    rfl
  · rw [if_neg h, List.filterMap_cons, Item.write?, if_neg h]
    rfl

variable {setter : Setter} {action : Action} {change : Change} {trusted : Bool}

theorem change?_of_ne (hscope : setter.scope ≠ scope) : s.change? scope (.call setter) = none :=
  if_neg fun h => hscope h.1

theorem change?_of_eq (hscope : setter.scope = scope) (hallowed : s.refuses scope = false) :
    s.change? scope (.call setter) =
      match setter.outcome (s.scopes scope).settings with
      | .changed change => some change
      | .raised | .unchanged => none :=
  if_pos ⟨hscope, hallowed⟩

theorem valid_of_change? (h : s.change? scope action = some change) : change.Valid := by
  cases action with
  | call setter =>
    by_cases hof : setter.scope = scope ∧ s.refuses scope = false
    · rw [change?_of_eq hof.1 hof.2] at h
      split at h <;> cases h
      exact Setter.valid ‹_›
    · rw [State.change?, if_neg hof] at h
      cases h
  | _ => cases h

theorem effect_update (hallowed : s.refuses setter.scope = false)
    (houtcome : setter.outcome (s.scopes setter.scope).settings = .changed change) :
    Effect scope s (.call setter) (update s setter.scope change) := by
  have hscopes : (update s setter.scope change).scopes scope =
      if scope = setter.scope then ⟨((s.scopes setter.scope).writeOf change).snapshot,
        ((s.scopes setter.scope).writeOf change).marks, (s.scopes setter.scope).loadError⟩
      else s.scopes scope := by
    unfold update
    by_cases herror : (s.scopes setter.scope).loadError
    · simp only [herror, if_true]
      rfl
    · simp only [herror]
      rfl
  have hpending : (update s setter.scope change).pending scope = s.pending scope ++
      if (s.scopes setter.scope).loadError then []
      else if setter.scope = scope then [(s.scopes setter.scope).writeOf change] else [] := by
    unfold update
    by_cases herror : (s.scopes setter.scope).loadError
    · simp only [herror, if_true, List.append_nil]
      rfl
    · simp only [herror]
      exact pending_send_write _
  have hrest : (update s setter.scope change).files = s.files ∧
      (update s setter.scope change).mutations = s.mutations + 1 := by
    unfold update
    by_cases herror : (s.scopes setter.scope).loadError
    · simp only [herror, if_true]
      exact ⟨rfl, rfl⟩
    · simp only [herror]
      exact ⟨rfl, rfl⟩
  by_cases hscope : setter.scope = scope
  · subst hscope
    rw [if_pos rfl] at hscopes
    rw [if_pos rfl] at hpending
    exact .changed rfl hallowed houtcome hscopes hpending (congrFun hrest.1 _) hrest.2
  · rw [if_neg fun h => hscope h.symm] at hscopes
    rw [if_neg hscope, ite_self, List.append_nil] at hpending
    exact .silent hscopes hpending (congrFun hrest.1 _) nofun (change?_of_ne hscope)

theorem effect_call (setter : Setter) : Effect scope s (.call setter) (call s setter) := by
  have hsilent : s.refuses setter.scope = true ∨ (∀ change,
      setter.outcome (s.scopes setter.scope).settings ≠ .changed change) →
      Effect scope s (.call setter) s := by
    refine fun h => .silent rfl rfl rfl nofun ?_
    by_cases hof : setter.scope = scope ∧ s.refuses scope = false
    · obtain ⟨rfl, hallowed⟩ := hof
      rw [hallowed] at h
      rw [change?_of_eq rfl hallowed]
      split
      · rename_i change houtcome
        exact absurd houtcome (h.resolve_left Bool.false_ne_true change)
      · rfl
      · rfl
    · exact if_neg hof
  unfold call
  split
  · rename_i hrefuses
    exact hsilent (.inl hrefuses)
  · rename_i hrefuses
    split
    · rename_i houtcome
      exact effect_update (eq_false_of_ne_true hrefuses) houtcome
    · rename_i houtcome
      exact hsilent (.inr fun change h => by rw [houtcome] at h; cases h)
    · rename_i houtcome
      exact hsilent (.inr fun change h => by rw [houtcome] at h; cases h)

theorem effect_receive (h : receive s = some t) : Effect scope s .receive t := by
  unfold receive at h
  split at h
  · rename_i ofLoad rest hwriter hqueue
    have hpending : ({ s with queue := rest } : State).pending scope = s.pending scope := by
      simp [State.pending, hqueue, Item.write?, List.filterMap_cons]
    cases h
    unfold setTicket
    split <;> exact .silent rfl hpending rfl nofun rfl
  · rename_i other write rest hwriter hqueue
    cases h
    by_cases hscope : other = scope
    · subst hscope
      have hbefore : s.pending other = write :: rest.filterMap (Item.write? other) := by
        simp [State.pending, hwriter, hqueue, Writer.inFlight, Item.write?]
      split
      · rename_i hrefuses
        have hpending : s.pending other =
            write :: ({ s with queue := rest } : State).pending other := by
          rw [hbefore, State.pending, hwriter]
          rfl
        exact .refused hrefuses rfl hpending rfl
      · refine .silent rfl ?_ rfl nofun rfl
        rw [hbefore]
        simp [State.pending, Writer.inFlight]
    · have hpending : s.pending scope = rest.filterMap (Item.write? scope) := by
        simp [State.pending, hwriter, hqueue, Writer.inFlight, Item.write?, hscope]
      split
      · refine .silent rfl ?_ rfl nofun rfl
        rw [hpending, State.pending, hwriter]
        rfl
      · refine .silent rfl ?_ rfl nofun rfl
        rw [hpending]
        simp [State.pending, Writer.inFlight, hscope]
  · cases h

theorem effect_land (h : land s = some t) : Effect scope s .land t := by
  unfold land at h
  split at h <;> cases h
  rename_i other write hwriter
  by_cases hscope : other = scope
  · subst hscope
    refine .landed hwriter rfl ?_ (if_pos rfl)
    simp [State.pending, State.setFile, hwriter, Writer.inFlight]
  · refine .silent rfl ?_ (if_neg fun h => hscope h.symm) (fun _ write => ?_) rfl
    · simp [State.pending, State.setFile, hwriter, Writer.inFlight, hscope]
    · simp [hwriter, hscope]

theorem effect_failWrite (h : failWrite s = some t) : Effect scope s .failWrite t := by
  unfold failWrite at h
  split at h <;> cases h
  rename_i other write hwriter
  by_cases hscope : other = scope
  · subst hscope
    have hpending : s.pending other =
        write :: ({ s with writer := .waiting } : State).pending other := by
      simp [State.pending, hwriter, Writer.inFlight]
    exact .failed hwriter rfl hpending rfl
  · refine .silent rfl ?_ rfl (fun _ write => ?_) rfl
    · simp [State.pending, hwriter, Writer.inFlight, hscope]
    · simp [hwriter, hscope]

theorem effect_settle (h : settle s = some t) : Effect scope s .settle t := by
  unfold settle at h
  split at h <;> cases h
  rename_i other hwriter
  have hpending : ({ s with writer := .waiting } : State).pending scope = s.pending scope := by
    simp [State.pending, hwriter, Writer.inFlight]
  by_cases hscope : scope = other
  · subst hscope
    exact .settled hwriter (if_pos rfl) hpending rfl
  · exact .silent (if_neg hscope) hpending rfl nofun rfl

@[simp] theorem pending_beginTurn : (beginTurn s kind).pending scope = s.pending scope := by
  unfold beginTurn
  split
  · rw [pending_setPhase]
    exact pending_send_ticket true
  · rfl

@[simp] theorem scopes_beginTurn : (beginTurn s kind).scopes = s.scopes := by
  unfold beginTurn
  split <;> rfl

@[simp] theorem files_beginTurn : (beginTurn s kind).files = s.files := by
  unfold beginTurn
  split <;> rfl

theorem effect_beginTurn (hends : action.ends = false) (hchange : s.change? scope action = none)
    (kind : LoadKind) : Effect scope s action (beginTurn s kind) :=
  .silent (congrFun (scopes_beginTurn kind) scope) (pending_beginTurn kind)
    (congrFun (files_beginTurn kind) scope) (fun h => absurd (hends.symm.trans h) Bool.false_ne_true) hchange

theorem effect_trust (h : trust s trusted = some t) : Effect scope s (.trust trusted) t := by
  unfold trust at h
  split at h
  · cases h
  · split at h
    · cases h
      exact .silent rfl rfl rfl nofun rfl
    · cases trusted with
      | true =>
        cases h
        by_cases hscope : scope = .project
        · subst hscope
          refine .trusting rfl ?_ (pending_beginTurn .trust) ?_
          · rw [scopes_beginTurn]
            rfl
          · rw [files_beginTurn]
            rfl
        · refine .silent ?_ (pending_beginTurn .trust) ?_ nofun rfl
          · rw [scopes_beginTurn]
            exact if_neg hscope
          · rw [files_beginTurn]
            rfl
      | false =>
        cases h
        by_cases hscope : scope = .project
        · subst hscope
          exact .trusting rfl rfl rfl rfl
        · exact .silent (if_neg hscope) rfl rfl nofun rfl

theorem effect_read {ok : Bool} (h : read s ok = some t) : Effect scope s (.read ok) t := by
  unfold read at h
  split at h <;> cases h <;> exact .silent rfl rfl rfl nofun rfl

theorem effect_publish (h : publish s = some t) : Effect scope s .publish t := by
  unfold publish at h
  split at h
  · rename_i kind mutations global project hload
    split at h
    · cases h
      exact effect_beginTurn rfl rfl kind
    · rename_i hunraced
      cases h
      cases kind with
      | reload =>
        refine .reloaded hload (not_not.mp hunraced) rfl ?_ rfl rfl
        cases scope <;> rfl
      | trust =>
        by_cases hscope : scope = .project
        · subst hscope
          exact .trustedProject rfl hload (not_not.mp hunraced) rfl rfl rfl
        · exact .silent (if_neg hscope) rfl rfl nofun rfl
  · cases h

theorem effect_of_step (scope : Scope) (h : step s action = some t) : Effect scope s action t := by
  cases action with
  | call setter =>
    cases h
    exact effect_call setter
  | receive => exact effect_receive h
  | land => exact effect_land h
  | failWrite => exact effect_failWrite h
  | settle => exact effect_settle h
  | flush =>
    cases h
    unfold flush
    split
    · exact .silent rfl (pending_send_ticket false) rfl nofun rfl
    · exact .silent rfl rfl rfl nofun rfl
  | reload =>
    rw [step, reload] at h
    split at h <;> cases h
    exact effect_beginTurn rfl rfl .reload
  | trust trusted => exact effect_trust h
  | sample =>
    rw [step, sample] at h
    split at h <;> cases h
    exact .silent rfl rfl rfl nofun rfl
  | read ok => exact effect_read h
  | publish => exact effect_publish h

/-- Without a setter no write comes under way. -/
theorem pending_nil_of_step (h : step s action = some t)
    (hunchanged : s.change? scope action = none) (hpending : s.pending scope = []) :
    t.pending scope = [] := by
  have hnone : ∀ {write : Write} {rest : List Write}, s.pending scope ≠ write :: rest := by
    rw [hpending]
    exact nofun
  cases effect_of_step scope h with
  | silent _ pending => rw [pending, hpending]
  | changed of allowed outcome =>
    rw [change?_of_eq of allowed, outcome] at hunchanged
    cases hunchanged
  | landed _ _ pending => exact absurd pending hnone
  | failed _ _ pending => exact absurd pending hnone
  | refused _ _ pending => exact absurd pending hnone
  | settled _ _ pending => rw [pending, hpending]
  | reloaded _ _ _ _ pending => rw [pending, hpending]
  | trustedProject _ _ _ _ pending => rw [pending, hpending]
  | trusting _ _ pending => rw [pending, hpending]

theorem trusted_beginTurn : (beginTurn s kind).trusted = s.trusted := by
  unfold beginTurn
  split <;> rfl

theorem trusted_publish (h : publish s = some t) : t.trusted = s.trusted := by
  unfold publish at h
  split at h
  · split at h <;> cases h
    · exact trusted_beginTurn _
    · split <;> rfl
  · cases h

/-- Only `set_project_trusted` changes the trust. -/
theorem trusted_of_step (h : step s action = some t) (htrust : ∀ trusted, action ≠ .trust trusted) :
    t.trusted = s.trusted := by
  cases action with
  | call setter =>
    cases h
    unfold call
    split
    · rfl
    · split
      · unfold update
        simp only
        split <;> rfl
      · rfl
      · rfl
  | receive =>
    rw [step, receive] at h
    split at h
    · cases h
      unfold setTicket
      split <;> rfl
    · cases h
      split <;> rfl
    · cases h
  | land =>
    rw [step, land] at h
    split at h <;> cases h
    rfl
  | failWrite =>
    rw [step, failWrite] at h
    split at h <;> cases h
    rfl
  | settle =>
    rw [step, settle] at h
    split at h <;> cases h
    rfl
  | flush =>
    cases h
    unfold flush
    split <;> rfl
  | reload =>
    rw [step, reload] at h
    split at h <;> cases h
    exact trusted_beginTurn .reload
  | trust trusted => exact absurd rfl (htrust trusted)
  | sample =>
    rw [step, sample] at h
    split at h <;> cases h
    rfl
  | read ok =>
    rw [step, read] at h
    split at h <;> cases h <;> rfl
  | publish => exact trusted_publish h

theorem trusted_of_trust (h : trust s trusted = some t) : t.trusted = trusted := by
  unfold trust at h
  split at h
  · cases h
  · split at h
    · rename_i hsame
      cases h
      exact hsame
    · split at h <;> cases h
      · rename_i htrusted
        exact (trusted_beginTurn .trust).trans rfl
      · rfl

theorem drained_of_eq (hpending : t.pending scope = s.pending scope)
    (hfiles : t.files scope = s.files scope) : t.drained scope = s.drained scope := by
  rw [State.drained, State.drained, hpending, hfiles]

end Steps

section Drain

variable {write : Write} {writes : List Write} {file other : Option Dict} {slot : Slot}

theorem drain_append_singleton :
    drain (writes ++ [write]) file = some (write.persist (drain writes file)) :=
  List.foldl_append

theorem held_persist_of_covers (hwrite : write.Proper) (hslot : slot.Settable)
    (hcovers : write.marks.Covers slot) :
    held (parseSettings (some (write.persist file))) slot = held write.snapshot slot := by
  rw [hwrite.parse_persist, Write.persist, held_merge_of_covers hwrite hslot hcovers]

theorem held_persist_of_not_covers (hwrite : write.Proper) (hslot : slot.Settable)
    (hcovers : ¬ write.marks.Covers slot) :
    held (parseSettings (some (write.persist file))) slot = held (parseSettings file) slot := by
  rw [hwrite.parse_persist, Write.persist, held_merge_of_not_covers hwrite hslot hcovers]

theorem held_drain_congr (hwrites : ∀ write ∈ writes, write.Proper) (hslot : slot.Settable)
    (hsame : (∀ write ∈ writes, ¬ write.marks.Covers slot) →
      held (parseSettings file) slot = held (parseSettings other) slot) :
    held (parseSettings (drain writes file)) slot = held (parseSettings (drain writes other)) slot := by
  induction writes generalizing file other with
  | nil => exact hsame nofun
  | cons write writes ih =>
    have hwrite := hwrites write List.mem_cons_self
    refine ih (fun later hlater => hwrites later (List.mem_cons_of_mem _ hlater)) fun hlater => ?_
    by_cases hcovers : write.marks.Covers slot
    · rw [held_persist_of_covers hwrite hslot hcovers, held_persist_of_covers hwrite hslot hcovers]
    · rw [held_persist_of_not_covers hwrite hslot hcovers,
        held_persist_of_not_covers hwrite hslot hcovers]
      refine hsame fun earlier hearlier => ?_
      rcases List.mem_cons.mp hearlier with rfl | hin
      · exact hcovers
      · exact hlater earlier hin

end Drain

section Contents

def LoadPhase.content? : LoadPhase → Scope → Option Dict
  | .readGlobal _ global, .global | .read _ global _, .global => global
  | .read _ _ project, .project => project
  | .readGlobal _ _, .project => none
  | .flushing, _ | .flushed, _ | .sampled _, _ => none

def State.content? (s : State) (scope : Scope) : Option Dict :=
  s.load.bind fun load => load.phase.content? scope

/-- The counter as the load sampled it. -/
def LoadPhase.mutations? : LoadPhase → Option ℕ
  | .sampled mutations | .readGlobal mutations _ | .read mutations _ _ => some mutations
  | .flushing | .flushed => none

def State.sampled? (s : State) : Option ℕ := s.load.bind fun load => load.phase.mutations?

variable {s t : State} {scope : Scope} {action : Action} (kind : LoadKind) (change : Change)
  (setter : Setter)

theorem content?_beginTurn : (beginTurn s kind).content? scope = none := by
  unfold beginTurn
  split <;> rfl

theorem sampled?_beginTurn : (beginTurn s kind).sampled? = none := by
  unfold beginTurn
  split <;> rfl

theorem load_update : (update s scope change).load = s.load := by
  unfold update
  simp only
  split <;> rfl

theorem load_call : (call s setter).load = s.load := by
  unfold call
  split
  · rfl
  · split
    · exact load_update _
    · rfl
    · rfl

theorem mutations_update : (update s scope change).mutations = s.mutations + 1 := by
  unfold update
  simp only
  split <;> rfl

theorem mutations_le_call : s.mutations ≤ (call s setter).mutations := by
  unfold call
  split
  · exact le_rfl
  · split
    · rw [mutations_update]
      exact Nat.le_succ _
    · exact le_rfl
    · exact le_rfl

/-- A step leaves the load as it is, moves it on without contents, or reads. -/
inductive LoadEffect (s : State) : Action → State → Prop
  | same {action : Action} {t : State} (load : t.load = s.load)
      (mutations : s.mutations ≤ t.mutations) (other : ∀ ok, action ≠ .read ok) :
      LoadEffect s action t
  | restarted {action : Action} {t : State} (content : ∀ scope, t.content? scope = none)
      (sampled : t.sampled? = none) (mutations : t.mutations = s.mutations) : LoadEffect s action t
  | sampled {t : State} (content : ∀ scope, t.content? scope = none)
      (sampled : t.sampled? = some s.mutations) (mutations : t.mutations = s.mutations) :
      LoadEffect s .sample t
  | readGlobal {ok : Bool} {t : State} (global : t.content? .global = content s .global ok)
      (project : t.content? .project = none) (sampled : t.sampled? = s.sampled?)
      (mutations : t.mutations = s.mutations)
      (load : ∃ m, s.load = some ⟨.reload, .sampled m⟩) : LoadEffect s (.read ok) t
  | readProject {ok : Bool} {t : State} (global : t.content? .global = s.content? .global)
      (project : t.content? .project = content s .project ok) (sampled : t.sampled? = s.sampled?)
      (mutations : t.mutations = s.mutations)
      (load : ∀ m, s.load ≠ some ⟨.reload, .sampled m⟩) : LoadEffect s (.read ok) t

theorem loadEffect_beginTurn : LoadEffect s action (beginTurn s kind) := by
  refine .restarted (fun _ => content?_beginTurn kind) (sampled?_beginTurn kind) ?_
  unfold beginTurn
  split <;> rfl

theorem loadEffect_receive (h : receive s = some t) : LoadEffect s .receive t := by
  unfold receive at h
  split at h
  · cases h
    unfold setTicket
    split
    · exact .restarted (fun _ => rfl) rfl rfl
    · exact .same rfl le_rfl nofun
  · cases h
    split <;> exact .same rfl le_rfl nofun
  · cases h

theorem loadEffect_trust {trusted : Bool} (h : trust s trusted = some t) :
    LoadEffect s (.trust trusted) t := by
  unfold trust at h
  split at h
  · cases h
  · rename_i hload
    split at h
    · cases h
      exact .same rfl le_rfl nofun
    · split at h <;> cases h
      · refine .restarted (fun _ => content?_beginTurn .trust) (sampled?_beginTurn .trust) ?_
        unfold beginTurn
        split <;> rfl
      · exact .same rfl le_rfl nofun

theorem loadEffect_read {ok : Bool} (h : read s ok = some t) : LoadEffect s (.read ok) t := by
  unfold read at h
  split at h <;> cases h
  · rename_i mutations hload
    refine .readGlobal rfl rfl ?_ rfl ⟨mutations, hload⟩
    rw [State.sampled?, State.sampled?, hload]
    rfl
  · rename_i mutations hload
    refine .readProject ?_ rfl ?_ rfl fun m hne => ?_
    · rw [State.content?, State.content?, hload]
      rfl
    · rw [State.sampled?, State.sampled?, hload]
      rfl
    · rw [hload] at hne
      cases hne
  · rename_i kind mutations global hload
    refine .readProject ?_ rfl ?_ rfl fun m hne => ?_
    · rw [State.content?, State.content?, hload]
      rfl
    · rw [State.sampled?, State.sampled?, hload]
      rfl
    · rw [hload] at hne
      cases hne

theorem loadEffect_publish (h : publish s = some t) : LoadEffect s .publish t := by
  unfold publish at h
  split at h
  · split at h <;> cases h
    · exact loadEffect_beginTurn _
    · split <;> exact .restarted (fun _ => rfl) rfl rfl
  · cases h

theorem loadEffect_of_step (h : step s action = some t) : LoadEffect s action t := by
  cases action with
  | call setter =>
    cases h
    exact .same (load_call setter) (mutations_le_call setter) nofun
  | receive => exact loadEffect_receive h
  | land =>
    rw [step, land] at h
    split at h <;> cases h
    exact .same rfl le_rfl nofun
  | failWrite =>
    rw [step, failWrite] at h
    split at h <;> cases h
    exact .same rfl le_rfl nofun
  | settle =>
    rw [step, settle] at h
    split at h <;> cases h
    exact .same rfl le_rfl nofun
  | flush =>
    cases h
    unfold flush
    split <;> exact .same rfl le_rfl nofun
  | reload =>
    rw [step, reload] at h
    split at h <;> cases h
    exact loadEffect_beginTurn .reload
  | trust trusted => exact loadEffect_trust h
  | sample =>
    rw [step, sample] at h
    split at h <;> cases h
    exact .sampled (fun _ => rfl) rfl rfl
  | read ok => exact loadEffect_read h
  | publish => exact loadEffect_publish h

end Contents

section Tidy

/-- The settings and marks of a scope, the writes that are to come and what a load has read are
as the migration and the setters leave them. -/
structure Tidy (scope : Scope) (s : State) : Prop where
  proper : Write.Proper ⟨(s.scopes scope).settings, (s.scopes scope).marks⟩
  pending : ∀ write ∈ s.pending scope, write.Proper
  content : ∀ settings, s.content? scope = some settings → Migrated settings
  plain : scope = .project → ∀ field, (s.scopes scope).marks.keys field = []

variable {s t : State} {scope : Scope} {action : Action} {settings : Dict}
  {files : Scope → Option Dict} {trusted : Bool} {ok : Scope → Bool}

theorem proper_empty (h : Migrated settings) : Write.Proper ⟨settings, .empty⟩ :=
  ⟨h, Marks.proper_empty, fun _ hne => absurd rfl hne⟩

theorem migrated_content {ok : Bool} (h : content s scope ok = some settings) :
    Migrated settings := by
  unfold content at h
  split at h
  · cases h
    exact migrated_empty
  · split at h <;> cases h
    exact migrated_parseSettings _

theorem proper_reloaded {state : ScopeState} {content : Option Dict}
    (hstate : Write.Proper ⟨state.settings, state.marks⟩)
    (hcontent : ∀ settings, content = some settings → Migrated settings) :
    Write.Proper ⟨(state.reloaded content).settings, (state.reloaded content).marks⟩ := by
  cases content with
  | none => exact proper_empty hstate.migrated
  | some settings => exact proper_empty (hcontent settings rfl)

theorem Tidy.content_step (hs : Tidy scope s) (h : step s action = some t) :
    ∀ settings, t.content? scope = some settings → Migrated settings := by
  intro settings hcontent
  cases loadEffect_of_step h with
  | same load =>
    rw [State.content?, load] at hcontent
    exact hs.content settings hcontent
  | restarted content =>
    rw [content scope] at hcontent
    cases hcontent
  | sampled content =>
    rw [content scope] at hcontent
    cases hcontent
  | readGlobal global project =>
    cases scope with
    | global => exact migrated_content (global.symm.trans hcontent)
    | project =>
      rw [project] at hcontent
      cases hcontent
  | readProject global project =>
    cases scope with
    | global => exact hs.content settings (global.symm.trans hcontent)
    | project => exact migrated_content (project.symm.trans hcontent)

theorem content?_of_load {kind : LoadKind} {mutations : ℕ} {global project : Option Dict}
    (hload : s.load = some ⟨kind, .read mutations global project⟩) :
    s.content? scope = match scope with
      | .global => global
      | .project => project := by
  rw [State.content?, hload]
  cases scope <;> rfl

theorem Tidy.plain_step (hs : Tidy scope s) (h : SettingsManager.step s action = some t) :
    scope = .project → ∀ field, (t.scopes scope).marks.keys field = [] := by
  intro hproject field
  have hplain := hs.plain hproject field
  cases effect_of_step scope h with
  | silent scopes => rw [scopes, hplain]
  | changed of _ outcome scopes =>
    rw [scopes]
    refine List.eq_nil_iff_forall_not_mem.mpr fun key hkey => ?_
    rcases mem_keys_mark_change.mp hkey with hsets | hold
    · exact Setter.not_sets_key (of.trans hproject) outcome hsets
    · rw [hplain] at hold
      cases hold
  | landed _ scopes => rw [scopes, hplain]
  | failed _ scopes => rw [scopes, hplain]
  | refused _ scopes => rw [scopes, hplain]
  | settled _ scopes =>
    rw [scopes]
    rfl
  | @reloaded _ _ _ content _ _ _ _ scopes =>
    rw [scopes]
    cases content <;> rfl
  | trustedProject _ _ _ scopes => rw [scopes, hplain]
  | trusting _ scopes =>
    rw [scopes]
    split <;> rfl

theorem Tidy.step (hs : Tidy scope s) (h : step s action = some t) : Tidy scope t := by
  have hcontent := hs.content_step h
  have hplain := hs.plain_step h
  cases effect_of_step scope h with
  | silent scopes pending =>
    exact ⟨by rw [scopes]; exact hs.proper, by rw [pending]; exact hs.pending, hcontent, hplain⟩
  | changed of _ outcome scopes pending =>
    have hnext := hs.proper.next (Setter.valid outcome)
    refine ⟨by rw [scopes]; exact hnext, ?_, hcontent, hplain⟩
    rw [pending]
    intro write hwrite
    rcases List.mem_append.mp hwrite with hold | hnew
    · exact hs.pending write hold
    · split at hnew
      · cases hnew
      · rw [List.mem_singleton.mp hnew]
        exact hnext
  | landed _ scopes pending =>
    refine ⟨by rw [scopes]; exact hs.proper, fun write hwrite => hs.pending write ?_, hcontent, hplain⟩
    rw [pending]
    exact List.mem_cons_of_mem _ hwrite
  | failed _ scopes pending =>
    refine ⟨by rw [scopes]; exact hs.proper, fun write hwrite => hs.pending write ?_, hcontent, hplain⟩
    rw [pending]
    exact List.mem_cons_of_mem _ hwrite
  | refused _ scopes pending =>
    refine ⟨by rw [scopes]; exact hs.proper, fun write hwrite => hs.pending write ?_, hcontent, hplain⟩
    rw [pending]
    exact List.mem_cons_of_mem _ hwrite
  | settled _ scopes pending =>
    refine ⟨?_, by rw [pending]; exact hs.pending, hcontent, hplain⟩
    rw [scopes]
    exact proper_empty hs.proper.migrated
  | reloaded load _ of scopes pending =>
    refine ⟨?_, by rw [pending]; exact hs.pending, hcontent, hplain⟩
    rw [scopes]
    refine proper_reloaded hs.proper fun settings hsettings => hs.content settings ?_
    rw [content?_of_load load, ← of, hsettings]
  | @trustedProject _ _ project _ of load _ scopes pending =>
    refine ⟨?_, by rw [pending]; exact hs.pending, hcontent, hplain⟩
    rw [scopes]
    refine ⟨?_, hs.proper.marks, fun field hne => absurd (hs.plain of field) hne⟩
    cases hproject : project with
    | none => exact migrated_empty
    | some settings =>
      refine hs.content settings ?_
      rw [content?_of_load load, of]
      exact hproject
  | trusting of scopes pending =>
    refine ⟨?_, by rw [pending]; exact hs.pending, hcontent, hplain⟩
    rw [scopes]
    split
    · exact proper_empty hs.proper.migrated
    · exact proper_empty migrated_empty

theorem scopes_start (files : Scope → Option Dict) (trusted : Bool) (ok : Scope → Bool) :
    (start files trusted ok).scopes scope = ScopeState.reloaded ⟨∅, .empty, false⟩
      (content (start files trusted ok) scope (ok scope)) := by
  cases scope <;> rfl

theorem tidy_start : Tidy scope (start files trusted ok) := by
  refine ⟨?_, fun _ h => (nomatch h), fun _ h => (nomatch h), fun _ field => ?_⟩
  · rw [scopes_start]
    exact proper_reloaded (proper_empty migrated_empty) fun settings h => migrated_content h
  · rw [scopes_start]
    cases content (start files trusted ok) scope (ok scope) <;> rfl

theorem settings_start (hallowed : (start files trusted ok).refuses scope = false)
    (herror : ((start files trusted ok).scopes scope).loadError = false) :
    ((start files trusted ok).scopes scope).settings = parseSettings (files scope) := by
  rw [scopes_start, content, hallowed] at herror ⊢
  cases hok : ok scope with
  | true => rfl
  | false =>
    rw [hok] at herror
    cases herror

end Tidy

end Pidrei.SettingsManager
