import Pidrei.McpClient

/-!
Every request is settled once, and the server is told of a cancellation at most once and
after the request. The invariant looks at one request at a time: a step moves one request
on and leaves the others as they were.
-/
namespace Pidrei.Mcp

open Values List
open Option (bind_eq_some_iff ite_none_right_eq_some map_eq_some_iff ne_none_iff_exists' some)

def isReply : Outcome → Prop
  | .ok _ => True
  | .error (.mcp _ _ _) => True
  | .error _ => False

/-- The message is a response with the id of request `i`. -/
def RespondsTo (message : Value) (i : ℕ) : Prop :=
  isJsonRpcResponse message ∧ (getField message "id").any (sameId · (.num (.int i)))

namespace McpClient

/-- The messages about request `i`, in the order in which they were queued. -/
def notes (c : McpClient) (i : ℕ) : List Outgoing := c.outgoing.filter fun message => message.id = i

structure Correlated (c : McpClient) (i : ℕ) (r : Request) : Prop where
  once : (if i ∈ c.pending then 1 else 0) + r.claims.length + r.settlements.length = 1
  returned : ∀ outcome, r.phase = .returned outcome → r.settlements = [outcome]
  answered : ∀ value, .ok value ∈ r.settlements →
    ∃ message ∈ c.received, RespondsTo message i ∧ getField message "result" = some value
  queued : c.notes i = [] ∨ (∃ params, c.notes i = [.request i r.method params]) ∨
    ∃ params reason, c.notes i = [.request i r.method params, .cancelled i reason]
  uncancelled : ∀ reason, .cancelled i reason ∈ c.outgoing →
    r.method ≠ "initialize" ∧ ∀ outcome ∈ r.settlements, ¬ isReply outcome

structure Good (c : McpClient) : Prop where
  requests : ∀ i r, c.requests i = some r → Correlated c i r
  known : ∀ i, c.requests i = none → c.notes i = []
  closed : c.state = .closed → c.pending = []
  settled : c.state = .closed → ∀ i r, c.requests i = some r → r.claims = [] →
    ∃ outcome, r.settlements = [outcome]

def Sent (c : McpClient) (i : ℕ) (r : Request) : Prop :=
  (∃ params, c.notes i = [.request i r.method params]) ∨ c.shut = true ∧ c.notes i = []

def Told (c : McpClient) (i : ℕ) (r : Request) : Prop :=
  ∃ params reason, c.notes i = [.request i r.method params, .cancelled i reason]

def Backed (c : McpClient) (i : ℕ) (outcome : Outcome) : Prop :=
  isReply outcome → ∃ message ∈ c.received, RespondsTo message i ∧ outcomeOf message = outcome

/-- The two stages of a request, in the map and out of it. -/
inductive Legal (c : McpClient) (i : ℕ) (r : Request) : Prop
  | pending (hpending : i ∈ c.pending) (hclaims : r.claims = []) (hsettled : r.settlements = [])
      (hnotes : Sent c i r) (hphase : ∀ outcome, r.phase ≠ .returned outcome)
  | ended (outcome : Outcome) (hpending : i ∉ c.pending)
      (hone : r.claims ++ r.settlements = [outcome]) (hbacked : Backed c i outcome)
      (hnotes : Sent c i r ∨ Told c i r ∧ r.cancellable = true ∧ ¬ isReply outcome)
      (hphase : ∀ other, r.phase = .returned other → r.settlements = [other])

structure Invariant (c : McpClient) : Prop where
  unknown : ∀ i, c.requests i = none → i ∉ c.pending ∧ c.notes i = []
  legal : ∀ i r, c.requests i = some r → Legal c i r
  fresh : ∀ i, c.nextRequestId ≤ i → c.requests i = none
  nodup : c.pending.Nodup
  closed : c.state = .closed → c.pending = []

variable {i : ℕ} {c : McpClient} {r : Request}

theorem requestKey_sameId {id : Value} (h : requestKey id = some i) :
    sameId id (.num (.int i)) := by
  cases id with
  | num n =>
    obtain ⟨⟨hden, hnum⟩, hi⟩ := ite_none_right_eq_some.mp h
    have hint : ((numberValue n).num.toNat : ℤ) = (numberValue n).num := Int.toNat_of_nonneg hnum
    have hvalue : numberValue n = (i : ℚ) := by
      rw [← some.inj hi, ← Int.cast_natCast, hint]
      exact (Rat.den_eq_one_iff _).mp hden |>.symm
    exact decide_eq_true (hvalue.trans (by simp [numberValue]))
  | null | bool | str | list | dict | record => cases h

theorem result_of_outcomeOf {message value : Value} (hresponse : isJsonRpcResponse message)
    (h : outcomeOf message = .ok value) : getField message "result" = some value := by
  unfold outcomeOf at h
  split at h
  · cases h
  · rename_i hnone
    simp only [isJsonRpcResponse, hnone, Option.any_none, Bool.if_false_right, Bool.and_eq_true]
      at hresponse
    obtain ⟨_, hresult, _⟩ := hresponse
    obtain ⟨found, hfound⟩ := Option.isSome_iff_exists.mp (of_decide_eq_true hresult)
    rw [hfound, ← Except.ok.inj h, hfound]
    rfl

theorem Sent.told_free (h : Sent c i r) (reason : Option String) :
    .cancelled i reason ∉ c.notes i := by
  obtain ⟨params, hnotes⟩ | ⟨_, hnotes⟩ := h
  · rw [hnotes]
    intro hmem
    cases mem_singleton.mp hmem
  · rw [hnotes]
    exact not_mem_nil

theorem mem_notes {message : Outgoing} (h : message ∈ c.outgoing) : message ∈ c.notes message.id :=
  mem_filter.mpr ⟨h, decide_eq_true rfl⟩

/-- What a request went through says all that is promised about it. -/
theorem Legal.correlated (h : Legal c i r) : Correlated c i r := by
  have hsent : Sent c i r → c.notes i = [] ∨ (∃ params, c.notes i = [.request i r.method params]) ∨
      ∃ params reason, c.notes i = [.request i r.method params, .cancelled i reason] := by
    intro h
    obtain h | ⟨_, h⟩ := h
    · exact .inr (.inl h)
    · exact .inl h
  cases h with
  | pending hpending hclaims hsettled hnotes hphase =>
    refine ⟨?_, fun outcome h => absurd h (hphase outcome), ?_, hsent hnotes, ?_⟩
    · rw [if_pos hpending, hclaims, hsettled]
      rfl
    · intro value hmem
      rw [hsettled] at hmem
      cases hmem
    · intro reason hmem
      exact absurd (mem_notes hmem) (hnotes.told_free reason)
  | ended outcome hpending hone hbacked hnotes hphase =>
    have hlength : r.claims.length + r.settlements.length = 1 := by
      rw [← length_append, hone]
      rfl
    have hsettled : ∀ o ∈ r.settlements, o = outcome := by
      intro o ho
      have hmem : o ∈ r.claims ++ r.settlements := mem_append_right _ ho
      rw [hone] at hmem
      exact mem_singleton.mp hmem
    refine ⟨?_, hphase, ?_, ?_, ?_⟩
    · rw [if_neg hpending]
      omega
    · intro value hmem
      have hvalue := hsettled _ hmem
      obtain ⟨message, hmessage, hresponds, houtcome⟩ := hbacked (hvalue ▸ trivial)
      exact ⟨message, hmessage, hresponds,
        result_of_outcomeOf hresponds.1 (houtcome.trans hvalue.symm)⟩
    · obtain h | ⟨h, _⟩ := hnotes
      · exact hsent h
      · exact .inr (.inr h)
    · intro reason hmem
      obtain h | ⟨_, hcancellable, hreply⟩ := hnotes
      · exact absurd (mem_notes hmem) (h.told_free reason)
      · refine ⟨of_decide_eq_true hcancellable, fun o ho => ?_⟩
        rw [hsettled o ho]
        exact hreply

theorem Invariant.good (h : Invariant c) : Good c where
  requests := fun i r hr => (h.legal i r hr).correlated
  known := fun i hi => (h.unknown i hi).2
  closed := h.closed
  settled := by
    intro hclosed i r hr hclaims
    cases h.legal i r hr with
    | pending hpending =>
      rw [h.closed hclosed] at hpending
      cases hpending
    | ended outcome _ hone =>
      rw [hclaims, nil_append] at hone
      exact ⟨outcome, hone⟩

section Frames

/-- The request is the same one, and its caller has not returned meanwhile. -/
structure SameRequest (r r' : Request) : Prop where
  method : r'.method = r.method
  claims : r'.claims = r.claims
  settlements : r'.settlements = r.settlements
  phase : ∀ outcome, r'.phase = .returned outcome → r.phase = .returned outcome

structure Agrees (c d : McpClient) (i : ℕ) : Prop where
  known : d.requests i = none ↔ c.requests i = none
  same : ∀ r', d.requests i = some r' → ∃ r, c.requests i = some r ∧ SameRequest r r'
  pending : i ∈ d.pending ↔ i ∈ c.pending
  notes : d.notes i = c.notes i

/-- The clients agree on these requests, and the rest has only grown. -/
structure Frame (on : ℕ → Prop) (c d : McpClient) : Prop where
  agrees : ∀ i, on i → Agrees c d i
  shut : c.shut = true → d.shut = true
  received : c.received ⊆ d.received
  next : d.nextRequestId = c.nextRequestId
  state : d.state = c.state
  pending : List.Sublist d.pending c.pending

variable {c d e : McpClient} {i : ℕ} {on : ℕ → Prop}

theorem SameRequest.refl (r : Request) : SameRequest r r := ⟨rfl, rfl, rfl, fun _ h => h⟩

variable {r : Request}

theorem SameRequest.trans {s t : Request} (hrs : SameRequest r s) (hst : SameRequest s t) :
    SameRequest r t :=
  ⟨hst.method.trans hrs.method, hst.claims.trans hrs.claims,
    hst.settlements.trans hrs.settlements, fun o h => hrs.phase o (hst.phase o h)⟩

theorem Agrees.refl (c : McpClient) (i : ℕ) : Agrees c c i :=
  ⟨.rfl, fun r h => ⟨r, h, .refl r⟩, .rfl, rfl⟩

theorem Agrees.trans (hcd : Agrees c d i) (hde : Agrees d e i) : Agrees c e i where
  known := hde.known.trans hcd.known
  same := by
    intro t ht
    obtain ⟨s, hs, hst⟩ := hde.same t ht
    obtain ⟨r, hr, hrs⟩ := hcd.same s hs
    exact ⟨r, hr, hrs.trans hst⟩
  pending := hde.pending.trans hcd.pending
  notes := hde.notes.trans hcd.notes

theorem Frame.refl (c : McpClient) : Frame on c c :=
  ⟨fun i _ => .refl c i, id, fun _ h => h, rfl, rfl, .refl _⟩

theorem Frame.trans (hcd : Frame on c d) (hde : Frame on d e) : Frame on c e :=
  ⟨fun i hi => (hcd.agrees i hi).trans (hde.agrees i hi), fun h => hde.shut (hcd.shut h),
    fun _ h => hde.received (hcd.received h), hde.next.trans hcd.next, hde.state.trans hcd.state,
    hde.pending.trans hcd.pending⟩

theorem Frame.mono {less : ℕ → Prop} (h : Frame on c d) (hless : ∀ i, less i → on i) :
    Frame less c d :=
  ⟨fun i hi => h.agrees i (hless i hi), h.shut, h.received, h.next, h.state, h.pending⟩

/-- Nothing about any request. -/
abbrev Still (c d : McpClient) : Prop := Frame (fun _ => True) c d

theorem Still.but (h : Still c d) : Frame (· ≠ i) c d := h.mono fun _ _ => trivial

theorem still_of_eq (hrequests : d.requests = c.requests) (hpending : d.pending = c.pending)
    (houtgoing : d.outgoing = c.outgoing) (hreceived : c.received ⊆ d.received)
    (hshut : c.shut = true → d.shut = true) (hnext : d.nextRequestId = c.nextRequestId)
    (hstate : d.state = c.state) : Still c d where
  agrees := fun i _ =>
    ⟨by rw [hrequests], fun r h => ⟨r, hrequests ▸ h, .refl r⟩, by rw [hpending],
      by rw [notes, houtgoing]; rfl⟩
  shut := hshut
  received := hreceived
  next := hnext
  state := hstate
  pending := by rw [hpending]

theorem still_cancelTimer (generation : Option ℕ) (c : McpClient) :
    Still c (cancelTimer generation c) := by
  cases generation with
  | none => exact .refl c
  | some g => exact still_of_eq rfl rfl rfl (fun _ h => h) id rfl rfl

theorem still_unsubscribe (i : ℕ) (token : Option ℕ) (c : McpClient) :
    Still c (unsubscribe i token c) := by
  cases token with
  | none => exact .refl c
  | some t => exact still_of_eq rfl rfl rfl (fun _ h => h) id rfl rfl

theorem requests_modifyRequest (i j : ℕ) (change : Request → Request) (c : McpClient) :
    (modifyRequest i change c).requests j =
      if j = i then (c.requests i).map change else c.requests j :=
  Function.update_apply _ _ _ _

theorem requests_modifyRequest_self (change : Request → Request) (h : c.requests i = some r) :
    (modifyRequest i change c).requests i = some (change r) := by
  rw [requests_modifyRequest, if_pos rfl, h]
  rfl

theorem frame_modifyRequest (i : ℕ) (change : Request → Request) (c : McpClient) :
    Frame (· ≠ i) c (modifyRequest i change c) where
  agrees := fun j hj => by
    have hrequests : (modifyRequest i change c).requests j = c.requests j := by
      rw [requests_modifyRequest, if_neg hj]
    exact ⟨by rw [hrequests], fun r h => ⟨r, hrequests ▸ h, .refl r⟩, .rfl, rfl⟩
  shut := id
  received := fun _ h => h
  next := rfl
  state := rfl
  pending := .refl _

theorem still_modifyRequest (i : ℕ) {change : Request → Request}
    (h : ∀ r, SameRequest r (change r)) (c : McpClient) : Still c (modifyRequest i change c) where
  agrees := fun j _ => by
    by_cases hj : j = i
    · subst j
      refine ⟨?_, ?_, .rfl, rfl⟩
      · rw [requests_modifyRequest, if_pos rfl, Option.map_eq_none_iff]
      · intro r' hr'
        rw [requests_modifyRequest, if_pos rfl] at hr'
        obtain ⟨r, hr, rfl⟩ := map_eq_some_iff.mp hr'
        exact ⟨r, hr, h r⟩
    · exact (frame_modifyRequest i change c).agrees j hj
  shut := id
  received := fun _ h => h
  next := rfl
  state := rfl
  pending := .refl _

theorem still_armTimeout (i : ℕ) (c : McpClient) : Still c (armTimeout i c) := by
  have hunarmed : ∀ d, Still d (modifyRequest i
      (fun r => { r with timer := none, generation := none }) d) :=
    still_modifyRequest i fun r => ⟨rfl, rfl, rfl, fun _ h => h⟩
  unfold armTimeout
  split
  · exact .refl c
  · rename_i r _
    have hcancelled := still_cancelTimer r.timer c
    split
    · exact hcancelled.trans (hunarmed _)
    · split
      · exact hcancelled.trans (hunarmed _)
      · refine hcancelled.trans (Frame.trans ?_ (still_modifyRequest i ?_ _))
        · exact still_of_eq rfl rfl rfl (fun _ h => h) id rfl rfl
        · exact fun r => ⟨rfl, rfl, rfl, fun _ h => h⟩

/-- Taking a request out of the map changes nothing else about it. -/
theorem still_removePending (i : ℕ) (c : McpClient) :
    Still { c with pending := c.pending.filter (· ≠ i) } (removePending i c) := by
  unfold removePending
  dsimp only
  split
  · exact .refl _
  · rename_i r _
    have hcleared : ∀ d, Still d (modifyRequest i
        (fun r => { r with timer := none, generation := none, unsubscribe := false }) d) :=
      still_modifyRequest i fun r => ⟨rfl, rfl, rfl, fun _ h => h⟩
    refine ((still_cancelTimer r.timer _).trans ?_).trans (hcleared _)
    cases r.progressToken with
    | none =>
      split
      · exact still_unsubscribe i r.cancel _
      · exact .refl _
    | some token =>
      have hprogress : ∀ d : McpClient, Still d
          { d with progressRequests := Function.update d.progressRequests token none } :=
        fun d => still_of_eq rfl rfl rfl (fun _ h => h) id rfl rfl
      split
      · exact (hprogress _).trans (still_unsubscribe i r.cancel _)
      · exact hprogress _

theorem frame_removePending (i : ℕ) (c : McpClient) : Frame (· ≠ i) c (removePending i c) := by
  refine Frame.trans (d := { c with pending := c.pending.filter (· ≠ i) }) ?_
    (still_removePending i c).but
  refine ⟨fun j hj => ⟨.rfl, fun r h => ⟨r, h, .refl r⟩, ?_, rfl⟩, id, fun _ h => h, rfl, rfl,
    filter_sublist⟩
  rw [mem_filter]
  exact and_iff_left (decide_eq_true hj)

theorem notMem_removePending (i : ℕ) (c : McpClient) : i ∉ (removePending i c).pending := by
  intro h
  have hmem := (still_removePending i c).pending.subset h
  exact absurd rfl (of_decide_eq_true (mem_filter.mp hmem).2)

end Frames

section Steps

variable {c d : McpClient} {i : ℕ} {r : Request} {sending : Sending} {r' : Request} {token : ℕ}

theorem Legal.of_agrees (h : Legal c i r) (ha : Agrees c d i)
    (hshut : c.shut = true → d.shut = true) (hreceived : c.received ⊆ d.received)
    (hsame : SameRequest r r') : Legal d i r' := by
  have hsent : Sent c i r → Sent d i r' := by
    rintro (⟨params, h⟩ | ⟨hs, h⟩)
    · exact .inl ⟨params, by rw [ha.notes, hsame.method, h]⟩
    · exact .inr ⟨hshut hs, ha.notes.trans h⟩
  cases h with
  | pending hpending hclaims hsettled hnotes hphase =>
    exact .pending (ha.pending.mpr hpending) (hsame.claims.trans hclaims)
      (hsame.settlements.trans hsettled) (hsent hnotes) fun o h => hphase o (hsame.phase o h)
  | ended outcome hpending hone hbacked hnotes hphase =>
    refine .ended outcome (fun h => hpending (ha.pending.mp h)) ?_ ?_ ?_ ?_
    · rw [hsame.claims, hsame.settlements, hone]
    · intro hreply
      obtain ⟨message, hmem, hmessage⟩ := hbacked hreply
      exact ⟨message, hreceived hmem, hmessage⟩
    · obtain h | ⟨⟨params, reason, h⟩, hcancellable, hreply⟩ := hnotes
      · exact .inl (hsent h)
      · refine .inr ⟨⟨params, reason, ?_⟩, ?_, hreply⟩
        · rw [ha.notes, hsame.method, h]
        · rw [Request.cancellable, hsame.method]
          exact hcancellable
    · intro other h
      rw [hsame.settlements]
      exact hphase other (hsame.phase other h)

theorem Invariant.of_frame {on : ℕ → Prop} (hc : Invariant c) (hframe : Frame on c d)
    (hmoved : ∀ j, on j ∨ ∃ r r', c.requests j = some r ∧ d.requests j = some r' ∧ Legal d j r') :
    Invariant d := by
  constructor
  · intro j hj
    obtain hon | ⟨_, r', _, hr', _⟩ := hmoved j
    · have ha := hframe.agrees j hon
      obtain ⟨hpending, hnotes⟩ := hc.unknown j (ha.known.mp hj)
      exact ⟨fun h => hpending (ha.pending.mp h), ha.notes.trans hnotes⟩
    · rw [hr'] at hj
      cases hj
  · intro j s hs
    obtain hon | ⟨_, r', _, hr', hlegal⟩ := hmoved j
    · have ha := hframe.agrees j hon
      obtain ⟨old, hold, hsame⟩ := ha.same s hs
      exact (hc.legal j old hold).of_agrees ha hframe.shut hframe.received hsame
    · rw [← some.inj (hr'.symm.trans hs)]
      exact hlegal
  · intro j hj
    rw [hframe.next] at hj
    obtain hon | ⟨r, _, hr, _⟩ := hmoved j
    · exact (hframe.agrees j hon).known.mpr (hc.fresh j hj)
    · rw [hc.fresh j hj] at hr
      cases hr
  · exact hc.nodup.sublist hframe.pending
  · intro hclosed
    rw [hframe.state] at hclosed
    have hpending := hframe.pending
    rw [hc.closed hclosed] at hpending
    exact sublist_nil.mp hpending

theorem Invariant.still (hc : Invariant c) (hstill : Still c d) : Invariant d :=
  hc.of_frame hstill fun _ => .inl trivial

/-- A step that moves only request `i`. -/
theorem Invariant.moved (hc : Invariant c) (hframe : Frame (· ≠ i) c d) (hr : c.requests i = some r)
    (hr' : d.requests i = some r') (hlegal : Legal d i r') : Invariant d := by
  apply hc.of_frame hframe
  intro j
  by_cases hj : j = i
  · subst j
    exact .inr ⟨r, r', hr, hr', hlegal⟩
  · exact .inl hj

theorem Invariant.modify (hc : Invariant c) {change : Request → Request}
    (h : ∀ r, SameRequest r (change r)) : Invariant (modifyRequest i change c) :=
  hc.still (still_modifyRequest i h c)

theorem notes_append_self {message : Outgoing} (h : message.id = i) :
    notes { c with outgoing := c.outgoing ++ [message] } i = c.notes i ++ [message] := by
  rw [notes, filter_append, filter_singleton, decide_eq_true h]
  rfl

theorem frame_outgoing (message : Outgoing) :
    Frame (· ≠ message.id) c { c with outgoing := c.outgoing ++ [message] } := by
  refine ⟨fun j hj => ⟨.rfl, fun r h => ⟨r, h, .refl r⟩, .rfl, ?_⟩, id, fun _ h => h, rfl,
    rfl, .refl _⟩
  rw [notes, filter_append, filter_singleton, decide_eq_false (Ne.symm hj)]
  exact append_nil _

theorem Invariant.ended {outcome : Outcome} {r : Request} (hc : Invariant c)
    (hr : c.requests i = some r) (hi : i ∈ c.pending) (hbacked : Backed c i outcome)
    (hd : d = removePending i c ∨ ∃ reason, (removePending i c).shut = false ∧
      r.cancellable = true ∧ ¬ isReply outcome ∧ d = { removePending i c with
        outgoing := (removePending i c).outgoing ++ [Outgoing.cancelled i reason] }) :
    Invariant (claim i outcome d) := by
  have hremoved := (still_removePending i c).agrees i trivial
  have hold : (removePending i c).notes i = c.notes i := hremoved.notes
  have hrequests : d.requests = (removePending i c).requests := by
    obtain rfl | ⟨_, _, _, _, rfl⟩ := hd <;> rfl
  have hgone : i ∉ d.pending := by
    obtain rfl | ⟨_, _, _, _, rfl⟩ := hd <;> exact notMem_removePending i c
  have hframe : Frame (· ≠ i) c d := by
    apply (frame_removePending i c).trans
    obtain rfl | ⟨reason, _, _, _, rfl⟩ := hd
    · exact .refl _
    · exact frame_outgoing (.cancelled i reason)
  obtain ⟨s, hs⟩ : ∃ s, d.requests i = some s := by
    apply ne_none_iff_exists'.mp
    intro h
    rw [hrequests] at h
    rw [hremoved.known.mp h] at hr
    cases hr
  obtain ⟨before, hbefore, hsame⟩ := hremoved.same s (hrequests ▸ hs)
  obtain rfl := some.inj (hr.symm.trans hbefore)
  have hclaimed := requests_modifyRequest_self
    (fun r => { r with claims := r.claims ++ [outcome] }) hs
  have hall := hframe.trans (frame_modifyRequest i
    (fun r => { r with claims := r.claims ++ [outcome] }) d)
  apply hc.moved hall hr hclaimed
  cases hc.legal i r hr with
  | ended _ hnot => exact absurd hi hnot
  | pending _ hclaims hsettled hsent hphase =>
    refine .ended outcome hgone ?_ ?_ ?_ ?_
    · rw [hsame.claims, hsame.settlements, hclaims, hsettled]
      rfl
    · intro hreply
      obtain ⟨message, hmem, hmessage⟩ := hbacked hreply
      exact ⟨message, hall.received hmem, hmessage⟩
    · obtain rfl | ⟨reason, hopen, hcancellable, hreply, rfl⟩ := hd
      · obtain ⟨params, h⟩ | ⟨hs, h⟩ := hsent
        · exact .inl (.inl ⟨params, by rw [hsame.method]; exact hold.trans h⟩)
        · exact .inl (.inr ⟨hall.shut hs, hold.trans h⟩)
      · obtain ⟨params, h⟩ | ⟨hshut, _⟩ := hsent
        · refine .inr ⟨⟨params, reason, ?_⟩, ?_, hreply⟩
          · have hid : (Outgoing.cancelled i reason).id = i := rfl
            have hnotes := notes_append_self (c := removePending i c) hid
            rw [hold, h] at hnotes
            rw [hsame.method]
            exact hnotes
          · rw [Request.cancellable, hsame.method]
            exact hcancellable
        · have hgiven := (frame_removePending i c).shut hshut
          rw [hopen] at hgiven
          cases hgiven
    · intro other h
      exact absurd (hsame.phase other h) (hphase other)

/-- What `_cancel_pending` may come to, when the call of `send` returns. -/
theorem Invariant.cancelPending (hc : Invariant c) (error : RequestError) {notifyServer : Bool}
    (reason : Option String) (generation : Option ℕ)
    (hsending : notifyServer = true → sending ≠ .raised)
    (hnotify : notifyServer = true → ∀ r, c.requests i = some r → r.cancellable = true)
    (herror : ¬ isReply (.error error)) :
    (cancelPending i error notifyServer reason generation sending c).1 = true ∧
      Invariant (cancelPending i error notifyServer reason generation sending c).2 := by
  have hbacked : Backed c i (.error error) := fun h => absurd h herror
  unfold McpClient.cancelPending
  split
  · exact ⟨rfl, hc⟩
  · rename_i r hr
    split
    · exact ⟨rfl, hc⟩
    · rename_i hpending
      have hi : i ∈ c.pending := by
        by_contra h
        exact hpending (.inl h)
      dsimp only
      split
      · rename_i hboth
        obtain ⟨hnotified, -⟩ := Bool.and_eq_true_iff.mp hboth
        unfold send
        cases sending with
        | raised => exact absurd rfl (hsending hnotified)
        | taken done =>
          dsimp only
          by_cases h : (removePending i c).shut = true
          · rw [if_pos h]
            exact ⟨rfl, hc.ended hr hi hbacked (.inl rfl)⟩
          · rw [if_neg h]
            exact ⟨rfl, hc.ended hr hi hbacked
              (.inr ⟨_, Bool.eq_false_iff.mpr h, hnotify hnotified r hr, herror, rfl⟩)⟩
      · exact ⟨rfl, hc.ended hr hi hbacked (.inl rfl)⟩

theorem Invariant.issued (hc : Invariant c) (hopen : c.state ≠ .closed)
    (hothers : ∀ j, j ≠ c.nextRequestId → Agrees c d j) (hshut : c.shut = true → d.shut = true)
    (hreceived : c.received ⊆ d.received) (hnext : d.nextRequestId = c.nextRequestId + 1)
    (hnodup : d.pending.Nodup) (hstate : d.state = c.state)
    (hr : d.requests c.nextRequestId = some r) (hlegal : Legal d c.nextRequestId r) :
    Invariant d := by
  have hnone : ∀ j, d.requests j = none → j ≠ c.nextRequestId := by
    intro j hj h
    rw [h, hr] at hj
    cases hj
  constructor
  · intro j hj
    have ha := hothers j (hnone j hj)
    obtain ⟨hpending, hnotes⟩ := hc.unknown j (ha.known.mp hj)
    exact ⟨fun h => hpending (ha.pending.mp h), ha.notes.trans hnotes⟩
  · intro j s hs
    by_cases hj : j = c.nextRequestId
    · subst j
      rw [← some.inj (hr.symm.trans hs)]
      exact hlegal
    · obtain ⟨old, hold, hsame⟩ := (hothers j hj).same s hs
      exact (hc.legal j old hold).of_agrees (hothers j hj) hshut hreceived hsame
  · intro j hj
    exact (hothers j (by omega)).known.mpr (hc.fresh j (by omega))
  · exact hnodup
  · intro hclosed
    exact absurd (hstate.symm.trans hclosed) hopen

theorem not_closed_of_hasTransport {allowConnecting : Bool}
    (h : hasTransport allowConnecting c = true) : c.state ≠ .closed := by
  intro hclosed
  simp [hasTransport, hclosed] at h

theorem agrees_publish (call : RequestCall) {j : ℕ} (hj : j ≠ c.nextRequestId) :
    Agrees c (publish call c) j := by
  have hrequests : (publish call c).requests j = c.requests j := Function.update_of_ne hj _ _
  refine ⟨by rw [hrequests], fun r hr => ⟨r, hrequests ▸ hr, .refl r⟩, ?_, rfl⟩
  change j ∈ c.pending ++ [c.nextRequestId] ↔ j ∈ c.pending
  simp [hj]

theorem newRequest_phase (call : RequestCall) (outcome : Outcome) :
    (newRequest call c).phase ≠ .returned outcome := by
  unfold newRequest
  cases call.cancel <;> exact RequestPhase.noConfusion

theorem published (call : RequestCall) :
    ∃ r, (armTimeout c.nextRequestId (publish call c)).requests c.nextRequestId = some r ∧
      SameRequest (newRequest call c) r := by
  have ha := (still_armTimeout c.nextRequestId (publish call c)).agrees c.nextRequestId trivial
  have hentry : (publish call c).requests c.nextRequestId = some (newRequest call c) :=
    Function.update_self _ _ _
  obtain ⟨r, hr⟩ : ∃ r,
      (armTimeout c.nextRequestId (publish call c)).requests c.nextRequestId = some r := by
    apply ne_none_iff_exists'.mp
    intro h
    rw [ha.known.mp h] at hentry
    cases hentry
  obtain ⟨entry, hold, hsame⟩ := ha.same r hr
  obtain rfl := some.inj (hentry.symm.trans hold)
  exact ⟨r, hr, hsame⟩

theorem Invariant.sent {call : RequestCall} {outgoing : List Outgoing} (hc : Invariant c)
    (hopen : c.state ≠ .closed) (sent : SendResult) (params : Option Items)
    (h : (armTimeout c.nextRequestId (publish call c)).shut = true ∧ outgoing = c.outgoing ∨
      outgoing = c.outgoing ++ [.request c.nextRequestId call.method params]) :
    Invariant (modifyRequest c.nextRequestId (fun r => { r with sent })
      { armTimeout c.nextRequestId (publish call c) with outgoing }) := by
  have hfresh := (hc.unknown _ (hc.fresh c.nextRequestId (Nat.le_refl _))).2
  have harmed := still_armTimeout c.nextRequestId (publish call c)
  obtain ⟨r, hr, hsame⟩ := published (c := c) call
  have hframe : ∀ e : McpClient, Still e (modifyRequest c.nextRequestId (fun r => { r with sent }) e) :=
    still_modifyRequest _ fun r => ⟨rfl, rfl, rfl, fun _ h => h⟩
  have hnotes : ∀ j, j ≠ c.nextRequestId →
      outgoing.filter (fun message => message.id = j) = c.notes j := by
    intro j hj
    obtain ⟨_, rfl⟩ | rfl := h
    · rfl
    · have hid : Outgoing.id (.request c.nextRequestId call.method params) ≠ j := Ne.symm hj
      rw [filter_append, filter_singleton, decide_eq_false hid]
      exact append_nil _
  apply hc.issued hopen (r := { r with sent })
  · intro j hj
    refine Agrees.trans (Agrees.trans (agrees_publish call hj) ?_) ((hframe _).agrees j trivial)
    have ha := harmed.agrees j trivial
    exact ⟨ha.known, ha.same, ha.pending, hnotes j hj⟩
  · exact harmed.shut
  · exact harmed.received
  · exact harmed.next
  · apply List.Nodup.sublist harmed.pending
    have hnew := (hc.unknown _ (hc.fresh _ (Nat.le_refl c.nextRequestId))).1
    have happend := hc.nodup.concat hnew
    rwa [concat_eq_append] at happend
  · exact harmed.state
  · exact requests_modifyRequest_self _ hr
  · refine .pending ?_ hsame.claims hsame.settlements ?_ ?_
    · apply (harmed.agrees c.nextRequestId trivial).pending.mpr
      exact mem_append_right _ (mem_singleton_self _)
    · obtain ⟨hshut, rfl⟩ | rfl := h
      · exact .inr ⟨hshut, hfresh⟩
      · refine .inl ⟨params, ?_⟩
        have hid : Outgoing.id (.request c.nextRequestId call.method params) = c.nextRequestId := rfl
        have happend := notes_append_self (c := c) hid
        rw [hfresh] at happend
        exact happend.trans (by rw [hsame.method]; rfl)
    · intro outcome h
      exact newRequest_phase call outcome (hsame.phase outcome h)

theorem outgoing_armTimeout (i : ℕ) (c : McpClient) : (armTimeout i c).outgoing = c.outgoing := by
  unfold armTimeout
  split
  · rfl
  · rename_i r _
    have hcancelled : (cancelTimer r.timer c).outgoing = c.outgoing := by
      cases r.timer <;> rfl
    split
    · exact hcancelled
    · split <;> exact hcancelled

theorem Invariant.requestInternal {call : RequestCall} (hc : Invariant c)
    (hsending : sending ≠ .raised) (h : requestInternal call sending c = some d) : Invariant d := by
  have harmed : (armTimeout c.nextRequestId (publish call c)).outgoing = c.outgoing :=
    outgoing_armTimeout _ _
  unfold McpClient.requestInternal at h
  split at h
  · rename_i hallowed
    obtain ⟨htransport, _⟩ := Bool.and_eq_true_iff.mp hallowed
    have hopen := not_closed_of_hasTransport htransport
    have hsent := fun outgoing sent => @Invariant.sent c call outgoing hc hopen sent
      (requestParams call.params (progressToken call c))
    dsimp only at h
    generalize armTimeout c.nextRequestId (publish call c) = armed at h harmed hsent
    unfold send at h
    cases sending with
    | raised => exact absurd rfl hsending
    | taken done =>
      dsimp only at h
      by_cases hshut : armed.shut = true
      · rw [if_pos hshut] at h
        rw [← some.inj h]
        exact hsent armed.outgoing _ (.inl ⟨hshut, harmed⟩)
      · rw [if_neg hshut] at h
        rw [← some.inj h]
        exact hsent _ _ (.inr (by rw [harmed]))
  · cases h

theorem Invariant.connection (hc : Invariant c) (hrequests : d.requests = c.requests)
    (hpending : d.pending = c.pending) (houtgoing : d.outgoing = c.outgoing)
    (hreceived : d.received = c.received) (hnext : d.nextRequestId = c.nextRequestId)
    (hshut : c.shut = true → d.shut = true) (hclosed : d.state = .closed → d.pending = []) :
    Invariant d := by
  have ha : ∀ i, Agrees c d i := fun i =>
    ⟨by rw [hrequests], fun r h => ⟨r, hrequests ▸ h, .refl r⟩, by rw [hpending],
      by rw [notes, houtgoing]; rfl⟩
  constructor
  · intro i hi
    obtain ⟨hout, hnotes⟩ := hc.unknown i ((ha i).known.mp hi)
    exact ⟨fun h => hout ((ha i).pending.mp h), (ha i).notes.trans hnotes⟩
  · intro i r hr
    rw [hrequests] at hr
    exact (hc.legal i r hr).of_agrees (ha i) hshut (by rw [hreceived]; exact fun _ h => h) (.refl r)
  · intro i hi
    rw [hnext] at hi
    exact (ha i).known.mpr (hc.fresh i hi)
  · rw [hpending]
    exact hc.nodup
  · exact hclosed

/-- Everything in the map fails, and then the client is closed. -/
theorem Invariant.markClosed (hc : Invariant c) : Invariant (markClosed c) := by
  have hall : ∀ (keys : List ℕ) (e : McpClient), Invariant e → keys.Nodup →
      (∀ j, j ∈ e.pending ↔ j ∈ keys) →
      Invariant (keys.foldl (fun c i => claim i (.error .connectionClosed) (removePending i c)) e) ∧
      (keys.foldl (fun c i => claim i (.error .connectionClosed) (removePending i c)) e).pending = [] := by
    intro keys
    induction keys with
    | nil =>
      intro e he _ hkeys
      refine ⟨he, eq_nil_iff_forall_not_mem.mpr fun j hj => ?_⟩
      exact absurd ((hkeys j).mp hj) not_mem_nil
    | cons i keys ih =>
      intro e he hnodup hkeys
      obtain ⟨hout, hnodup⟩ := nodup_cons.mp hnodup
      have hi : i ∈ e.pending := (hkeys i).mpr mem_cons_self
      obtain ⟨r, hr⟩ : ∃ r, e.requests i = some r := by
        apply ne_none_iff_exists'.mp
        intro h
        exact (he.unknown i h).1 hi
      refine ih _ (he.ended hr hi (fun h => absurd h id) (.inl rfl)) hnodup ?_
      intro j
      change j ∈ (removePending i e).pending ↔ j ∈ keys
      by_cases hj : j = i
      · subst j
        exact iff_of_false (notMem_removePending i e) hout
      · rw [((frame_removePending i e).agrees j hj).pending, hkeys]
        exact mem_cons.trans (or_iff_right hj)
  obtain ⟨hinv, hempty⟩ := hall c.pending c hc hc.nodup fun _ => .rfl
  exact hinv.connection rfl rfl rfl rfl rfl id fun _ => hempty

theorem Invariant.onCancel (hc : Invariant c) (hr : c.requests i = some r)
    (hsending : sending ≠ .raised) : Invariant (onCancel i r token sending c) := by
  have hstoring : ∀ (returned : Bool) (s : Request), SameRequest s
      { s with phase := if returned then .storing else .raised } := by
    intro returned s
    refine ⟨rfl, rfl, rfl, ?_⟩
    intro outcome h
    cases returned <;> cases h
  unfold McpClient.onCancel
  dsimp only
  split
  · have hcancelled := hc.cancelPending (i := i) .abort (some (c.tokens token).reason) none
      (fun _ => hsending) (fun hnotify s hs => some.inj (hr.symm.trans hs) ▸ hnotify) id
    exact hcancelled.2.modify (hstoring _)
  · refine Invariant.still hc (Frame.trans ?_ (still_modifyRequest i (hstoring true) _))
    exact still_of_eq rfl rfl rfl (fun _ h => h) id rfl rfl

theorem Invariant.storeUnsubscribe (hc : Invariant c) : Invariant (storeUnsubscribe i r c) := by
  unfold McpClient.storeUnsubscribe
  split
  · exact hc.modify fun r => ⟨rfl, rfl, rfl, nofun⟩
  · exact (hc.still (still_unsubscribe i r.cancel c)).modify fun r => ⟨rfl, rfl, rfl, nofun⟩

theorem Invariant.failedSend (hc : Invariant c) (error : SendError) (sending : Sending) :
    Invariant (McpClient.cancelPending i (.send error) false none none sending c).2 :=
  (hc.cancelPending (.send error) none none (fun h => absurd h Bool.false_ne_true)
    (fun h => absurd h Bool.false_ne_true) id).2

theorem Invariant.checkSent (hc : Invariant c) (sending : Sending) :
    Invariant (checkSent i r sending c) := by
  unfold McpClient.checkSent
  split
  · exact hc.modify fun r => ⟨rfl, rfl, rfl, nofun⟩
  · exact hc.modify fun r => ⟨rfl, rfl, rfl, nofun⟩
  · exact (hc.failedSend _ sending).modify fun r => ⟨rfl, rfl, rfl, nofun⟩

theorem Invariant.watchRequestSend (hc : Invariant c)
    (h : watchRequestSend i r sending c = some d) : Invariant d := by
  unfold McpClient.watchRequestSend at h
  split at h
  · cases h
  · rw [← some.inj h]
    exact hc.modify fun r => ⟨rfl, rfl, rfl, fun _ h => h⟩
  · rw [← some.inj h]
    exact (hc.failedSend _ sending).modify fun r => ⟨rfl, rfl, rfl, fun _ h => h⟩

theorem Invariant.abandon (hc : Invariant c) (hr : c.requests i = some r)
    (hsending : sending ≠ .raised) : Invariant (abandon i r sending c) := by
  unfold McpClient.abandon
  split
  · have hcancelled := hc.cancelPending (i := i) .abort none none (fun _ => hsending)
      (fun hnotify s hs => some.inj (hr.symm.trans hs) ▸ hnotify) id
    exact hcancelled.2.modify fun r => ⟨rfl, rfl, rfl, nofun⟩
  · exact hc.modify fun r => ⟨rfl, rfl, rfl, nofun⟩

theorem cancellable_of_any (hr : c.requests i = some r)
    (h : (c.requests i).any Request.cancellable = true) : r.cancellable = true := by
  rw [hr] at h
  exact h

theorem Invariant.runCallback (hc : Invariant c) (hsending : sending ≠ .raised)
    (h : runCallback token sending c = some d) : Invariant d := by
  unfold McpClient.runCallback at h
  dsimp only at h
  split at h
  · cases h
  · rename_i j _ _
    have hcancelled := hc.cancelPending (i := j) .abort (some (c.tokens token).reason) none
      (fun _ => hsending) (fun hnotify s hs => cancellable_of_any hs hnotify) id
    rw [← some.inj h]
    exact hcancelled.2.still (still_of_eq rfl rfl rfl (fun _ h => h) id rfl rfl)

theorem Invariant.fireTimer {g : ℕ} (hc : Invariant c) (hsending : sending ≠ .raised)
    (h : fireTimer g sending c = some d) : Invariant d := by
  unfold McpClient.fireTimer at h
  split at h
  · cases h
  · rename_i timer _
    split at h
    · have hgone : Invariant { c with timers := Function.update c.timers g none } :=
        hc.still (still_of_eq rfl rfl rfl (fun _ h => h) id rfl rfl)
      rw [← some.inj h]
      exact (hgone.cancelPending (i := timer.request) (.timeout timer.ms) _ _ (fun _ => hsending)
        (fun hnotify s hs => cancellable_of_any hs hnotify) id).2
    · cases h

theorem Invariant.settle (hc : Invariant c) (h : settle i c = some d) : Invariant d := by
  obtain ⟨r, hr, hsettle⟩ := bind_eq_some_iff.mp h
  split at hsettle
  · cases hsettle
  · rename_i outcome rest hclaims
    rw [← some.inj hsettle]
    apply hc.moved (frame_modifyRequest i _ c) hr (requests_modifyRequest_self _ hr)
    cases hc.legal i r hr with
    | pending _ hnone =>
      rw [hnone] at hclaims
      cases hclaims
    | ended other hpending hone hbacked hnotes hphase =>
      rw [hclaims, cons_append] at hone
      obtain ⟨rfl, hempty⟩ := cons.inj hone
      obtain ⟨rfl, hsettled⟩ := append_eq_nil_iff.mp hempty
      refine .ended outcome hpending ?_ hbacked hnotes ?_
      · rw [hsettled]
        rfl
      · intro late hlate
        have hwrong := hphase late hlate
        rw [hsettled] at hwrong
        cases hwrong

theorem Invariant.wake (hc : Invariant c) (h : wake i c = some d) : Invariant d := by
  obtain ⟨r, hr, hwake⟩ := bind_eq_some_iff.mp h
  obtain ⟨_, hlast⟩ := ite_none_right_eq_some.mp hwake
  obtain ⟨outcome, houtcome, rfl⟩ := map_eq_some_iff.mp hlast
  apply hc.moved (frame_modifyRequest i _ c) hr (requests_modifyRequest_self _ hr)
  cases hc.legal i r hr with
  | pending _ _ hnone =>
    rw [hnone] at houtcome
    cases houtcome
  | ended other hpending hone hbacked hnotes hphase =>
    refine .ended other hpending hone hbacked hnotes ?_
    intro late hlate
    obtain rfl := RequestPhase.returned.inj hlate
    obtain ⟨before, hbefore⟩ := getLast?_eq_some_iff.mp houtcome
    have hlength : r.claims.length + r.settlements.length = 1 := by
      rw [← length_append, hone]
      rfl
    rw [hbefore, length_append, length_singleton] at hlength
    have hempty : before = [] := eq_nil_of_length_eq_zero (by omega)
    rw [hbefore, hempty]
    rfl

theorem Invariant.settleSend {error : Option String} (hc : Invariant c)
    (h : settleSend i error c = some d) : Invariant d := by
  obtain ⟨r, hr, hsettle⟩ := bind_eq_some_iff.mp h
  obtain ⟨_, hsent⟩ := ite_none_right_eq_some.mp hsettle
  rw [← some.inj hsent]
  exact hc.modify fun r => ⟨rfl, rfl, rfl, fun _ h => h⟩

theorem Invariant.handleResponse {message : Value} (hc : Invariant c)
    (hresponse : isJsonRpcResponse message = true) : Invariant (handleResponse message c) := by
  have hreceived : Invariant { c with received := c.received ++ [message] } :=
    hc.still (still_of_eq rfl rfl rfl (subset_append_left _ _) id rfl rfl)
  unfold McpClient.handleResponse
  dsimp only
  split
  · exact hreceived
  · rename_i j hkey
    obtain ⟨id, hid, hj⟩ := bind_eq_some_iff.mp hkey
    split
    · rename_i hpending
      have hknown : ∃ r, c.requests j = some r := by
        apply ne_none_iff_exists'.mp
        intro h
        exact (hc.unknown j h).1 hpending
      obtain ⟨r, hr⟩ := hknown
      refine hreceived.ended hr hpending ?_ (.inl rfl)
      intro _
      refine ⟨message, mem_append_right _ (mem_singleton_self _), ⟨hresponse, ?_⟩, rfl⟩
      rw [hid]
      exact requestKey_sameId hj
    · exact hreceived

theorem Invariant.handleMessage (message : Value) (hc : Invariant c) :
    Invariant (handleMessage message c) := by
  unfold McpClient.handleMessage
  split
  · rename_i hresponse
    exact hc.handleResponse hresponse
  · split
    · exact hc
    · split
      · unfold handleProgress
        split
        · exact hc
        · split
          · exact hc
          · split
            · exact hc.still (still_armTimeout _ c)
            · exact hc
      · exact hc

theorem callerStep_some {phase : RequestPhase} {next : Request → McpClient}
    (h : callerStep i phase next c = some d) : ∃ r, c.requests i = some r ∧ next r = d := by
  obtain ⟨r, hr, hnext⟩ := bind_eq_some_iff.mp h
  obtain ⟨_, hd⟩ := ite_none_right_eq_some.mp hnext
  exact ⟨r, hr, some.inj hd⟩

/-- A step in which no call of `send` raises. -/
theorem Invariant.step {action : ClientAction} (hc : Invariant c) (hsending : action.SendReturns)
    (h : step c action = some d) : Invariant d := by
  have hstill : ∀ e : McpClient, e.requests = c.requests → e.pending = c.pending →
      e.outgoing = c.outgoing → e.received = c.received → e.shut = c.shut →
      e.nextRequestId = c.nextRequestId → e.state = c.state → Invariant e := by
    intro e hrequests hpending houtgoing hreceived hshut hnext hstate
    exact hc.connection hrequests hpending houtgoing hreceived hnext (hshut ▸ id)
      fun h => hpending.trans (hc.closed (hstate.symm.trans h))
  have hreturns : ∀ sending, action.sending? = some sending → sending ≠ .raised := by
    intro sending hsome hraised
    exact hsending (hraised ▸ hsome)
  cases action with
  | connect | establish =>
    obtain ⟨_, hd⟩ := ite_none_right_eq_some.mp h
    rw [← some.inj hd]
    exact hc.connection rfl rfl rfl rfl rfl id nofun
  | request call sending => exact hc.requestInternal (hreturns sending rfl) h
  | onCancel j sending =>
    obtain ⟨r, hr, hd⟩ := callerStep_some h
    rw [← hd]
    cases r.cancel with
    | none => exact hc
    | some token => exact hc.onCancel hr (hreturns sending rfl)
  | storeUnsubscribe j =>
    obtain ⟨r, hr, hd⟩ := callerStep_some h
    rw [← hd]
    exact hc.storeUnsubscribe
  | checkSent j sending =>
    obtain ⟨r, hr, hd⟩ := callerStep_some h
    rw [← hd]
    exact hc.checkSent sending
  | settleSend j error => exact hc.settleSend h
  | watchRequestSend j sending =>
    obtain ⟨r, hr, hwatch⟩ := bind_eq_some_iff.mp h
    obtain ⟨_, hd⟩ := ite_none_right_eq_some.mp hwatch
    exact hc.watchRequestSend hd
  | cancelToken token reason =>
    obtain ⟨_, hd⟩ := Option.ite_none_left_eq_some.mp h
    rw [← some.inj hd]
    exact hstill _ rfl rfl rfl rfl rfl rfl rfl
  | callback token sending => exact hc.runCallback (hreturns sending rfl) h
  | timerDue g =>
    obtain ⟨timer, _, hd⟩ := bind_eq_some_iff.mp h
    rw [← some.inj hd]
    exact hstill _ rfl rfl rfl rfl rfl rfl rfl
  | timerFire g sending => exact hc.fireTimer (hreturns sending rfl) h
  | message message =>
    rw [← some.inj h]
    exact hc.handleMessage message
  | abandon j sending =>
    obtain ⟨r, hr, hd⟩ := callerStep_some h
    rw [← hd]
    exact hc.abandon hr (hreturns sending rfl)
  | settle j => exact hc.settle h
  | wake j => exact hc.wake h
  | dropTransport =>
    rw [← some.inj h]
    exact hstill _ rfl rfl rfl rfl rfl rfl rfl
  | markClosed =>
    rw [← some.inj h]
    exact hc.markClosed
  | shut =>
    rw [← some.inj h]
    exact hc.connection rfl rfl rfl rfl rfl (fun _ => rfl) hc.closed

theorem invariant_new (requestTimeoutMs : Option Milliseconds) : Invariant (new requestTimeoutMs) where
  unknown := fun _ _ => ⟨not_mem_nil, rfl⟩
  legal := fun _ _ h => by cases h
  fresh := fun _ _ => rfl
  nodup := nodup_nil
  closed := fun _ => rfl

/-- Every request is settled once and told of at most once after itself, whatever the order of the
steps, as long as no call of `transport.send` raises. -/
theorem requests_correlated {requestTimeoutMs : Option Milliseconds} {c : McpClient}
    (h : Runs.Reaches step (fun _ action => action.SendReturns) (new requestTimeoutMs) c) : Good c :=
  (h.kept (invariant_new _) fun _ _ _ hc hsending hstep => hc.step hsending hstep).good

end Steps

def response (id : ℕ) (result : String) : Value :=
  .dict [("jsonrpc", .str "2.0"), ("id", .num (.int id)), ("result", .str result)]

/-- A client that has got the answer to `initialize`. -/
def connecting : List ClientAction :=
  [.connect, .request { method := "initialize", allowConnecting := true } (.taken false),
    .checkSent 1 (.taken true), .settleSend 1 none, .message (response 1 "hello"), .settle 1, .wake 1,
    .establish]

/-- A call whose token fires, and whose response comes too late. -/
def cancelledCall : List ClientAction :=
  connecting ++ [.request { method := "tools/call", cancel := some 7 } (.taken false),
    .onCancel 2 (.taken true), .storeUnsubscribe 2, .checkSent 2 (.taken true),
    .cancelToken 7 "stop", .callback 7 (.taken true), .message (response 2 "late"), .settle 2,
    .wake 2, .dropTransport, .markClosed]

theorem requests_correlated_cancelled :
    ∃ c, Runs.Reaches step (fun _ action => action.SendReturns) (new none) c ∧ Good c ∧
      c.notes 2 = [.request 2 "tools/call" none, .cancelled 2 (some "stop")] ∧
      (c.requests 2).map Request.settlements = some [.error .abort] := by
  have hrun : (Runs.run (fun c action => if action.SendReturns then step c action else none)
      (new none) cancelledCall).map (fun c => (c.notes 2, (c.requests 2).map Request.settlements)) =
      some ([.request 2 "tools/call" none, .cancelled 2 (some "stop")],
        some [.error .abort]) := by
    decide +kernel
  obtain ⟨c, hc, hfacts⟩ := map_eq_some_iff.mp hrun
  obtain ⟨hnotes, hsettled⟩ := Prod.mk.inj hfacts
  have hreaches := Runs.Reaches.of_run hc
  exact ⟨c, hreaches, requests_correlated hreaches, hnotes, hsettled⟩

/-- A call with an argument that no UTF-8 text can hold, until its timer runs. -/
def unsentCall : List ClientAction :=
  connecting ++ [.request { method := "tools/call" } .raised, .timerDue 1,
    .timerFire 1 (.taken true)]

/-- The cancellation is queued, and the request never was. -/
theorem unsent_cancelled : ¬ ∀ c, Runs.Reaches step (fun _ _ => True) (new none) c → Good c := by
  intro hall
  have hrun : (Runs.run (fun c action => if True then step c action else none) (new none)
      unsentCall).map (fun c => (c.notes 2, (c.requests 2).isSome)) =
      some ([.cancelled 2 (some "Request timed out")], true) := by
    decide +kernel
  obtain ⟨c, hc, hfacts⟩ := map_eq_some_iff.mp hrun
  obtain ⟨hnotes, hsome⟩ := Prod.mk.inj hfacts
  obtain ⟨r, hr⟩ := Option.isSome_iff_exists.mp hsome
  have hgood := (hall c (Runs.Reaches.of_run hc)).requests 2 r hr
  obtain h | ⟨params, h⟩ | ⟨params, reason, h⟩ := hgood.queued
  all_goals
    rw [hnotes] at h
    cases h

end McpClient

end Pidrei.Mcp
