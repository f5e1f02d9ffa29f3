import Mathlib.Data.List.Induction
import Mathlib.Data.List.Perm.Subperm
import Pidrei.AgentRun

/-!
The record of the nested calls of one tool call. Their messages come through a feed and
are folded in the order they were sent; calls beyond the count are dropped, and arguments
over a size are left out.
-/
namespace Pidrei.NestedCallRecord

open Values Messages AgentLoop List

section Fold

structure NestedCallLimits where
  maxCalls : ℕ
  maxArgumentBytesPerCall : ℕ
  maxArgumentBytesTotal : ℕ
  maxErrorChars : ℕ

def nestedCallLimits : NestedCallLimits where
  maxCalls := 256
  maxArgumentBytesPerCall := 8 * 1024
  maxArgumentBytesTotal := 32 * 1024
  maxErrorChars := 500

variable {α : Type}

structure NestedCallStarted (α : Type) where
  id : String
  name : String
  arguments : Option α

structure NestedCallFinished where
  id : String
  isError : Bool
  errorText : String
  durationMs : Int
  usage : Option Usage

inductive NestedCallMessage (α : Type)
  | started (call : NestedCallStarted α)
  | finished (call : NestedCallFinished)

structure NestedCallSummary where
  calls : Option NestedToolCalls
  usage : Option Usage

/-- `json.dumps`, as code points and `none` where it raises, of arguments and of `{}`, and
`json.loads`. -/
structure JsonText (α : Type) where
  empty : α
  dumps : α → Option (List ℕ)
  loads : String → Items

/-- `text.encode("utf-8")`, which raises for a surrogate. -/
def encode (text : List ℕ) : Option String :=
  if text.all fun code => decide code.isValidChar then some (String.ofList (text.map Char.ofNat))
  else none

/-- `byId` says where the record of an id stands. -/
structure Fold where
  records : List NestedToolCallRecord
  byId : OrderedMap String ℕ
  complete : Bool
  argumentBytes : ℕ
  usage : Option Usage

def Fold.start : Fold := ⟨[], .empty, true, 0, none⟩

variable (limits : NestedCallLimits) (json : JsonText α) (host : Host)

/-- The text of the arguments, when it can be measured. -/
def NestedCallStarted.text (call : NestedCallStarted α) : Option String :=
  (json.dumps (call.arguments.getD json.empty)).bind encode

def Fold.overLimits (s : Fold) (size : ℕ) : Bool :=
  limits.maxArgumentBytesPerCall < size || limits.maxArgumentBytesTotal < s.argumentBytes + size

def recordStarted (call : NestedCallStarted α) (text : String) (omitted : Bool) :
    NestedToolCallRecord where
  id := call.id
  name := call.name
  status := .unfinished
  arguments := if omitted then none else some (json.loads text)
  argumentsBytes := if omitted then some text.utf8ByteSize else none
  durationMs := none
  error := none

def Fold.enter (s : Fold) (call : NestedCallStarted α) (text : String) : Fold :=
  let size := text.utf8ByteSize
  let omitted := s.overLimits limits size
  { s with
    records := s.records ++ [recordStarted json call text omitted]
    byId := s.byId.set call.id s.records.length
    complete := s.complete && !omitted
    argumentBytes := if omitted then s.argumentBytes else s.argumentBytes + size }

def Fold.started (s : Fold) (call : NestedCallStarted α) : Option Fold :=
  if limits.maxCalls ≤ s.records.length then some { s with complete := false }
  else (call.text json).map (s.enter limits json call)

def recordFinished (call : NestedCallFinished) (record : NestedToolCallRecord) :
    NestedToolCallRecord :=
  { record with
    status := if call.isError then .error else .ok
    durationMs := some call.durationMs
    error := if call.isError && call.errorText ≠ "" then
        some (String.ofList (call.errorText.toList.take limits.maxErrorChars))
      else record.error }

/-- The usage of every nested result counts, also of calls that the record does not list. -/
def Fold.addUsage (s : Fold) (usage : Option Usage) : Fold :=
  match s.usage, usage with
  | _, none => s
  | none, some more => { s with usage := some more }
  | some sum, some more => { s with usage := some (combineUsage host sum more) }

def Fold.finished (s : Fold) (call : NestedCallFinished) : Fold :=
  let s := s.addUsage host call.usage
  match s.byId.get? call.id with
  | none => s
  | some index => { s with records := s.records.modify index (recordFinished limits call) }

def Fold.step (s : Fold) : NestedCallMessage α → Option Fold
  | .started call => s.started limits json call
  | .finished call => some (s.finished limits host call)

def Fold.summary (s : Fold) : NestedCallSummary :=
  if s.records.isEmpty && s.complete then ⟨none, s.usage⟩
  else
    ⟨some ⟨s.records, s.complete && s.records.all fun call => call.status ≠ .unfinished⟩, s.usage⟩

/-- The messages in the order they were sent; nothing catches what a text raises. -/
def foldNestedCalls (messages : List (NestedCallMessage α)) : Option NestedCallSummary :=
  (messages.foldlM (Fold.step limits json host) .start).map Fold.summary

end Fold

section Messages

variable {α : Type}

def startedCalls (messages : List (NestedCallMessage α)) : List (NestedCallStarted α) :=
  messages.filterMap fun
    | .started call => some call
    | .finished _ => none

def finishedCalls (messages : List (NestedCallMessage α)) : List NestedCallFinished :=
  messages.filterMap fun
    | .started _ => none
    | .finished call => some call

/-- The ids of started calls are distinct, and a finished call has been started before. -/
structure WellFormed (messages : List (NestedCallMessage α)) : Prop where
  distinct : ((startedCalls messages).map NestedCallStarted.id).Nodup
  before : ∀ earlier call later, messages = earlier ++ .finished call :: later →
    call.id ∈ (startedCalls earlier).map NestedCallStarted.id

def statusOf (messages : List (NestedCallMessage α)) (id : String) : NestedStatus :=
  match (finishedCalls messages).reverse.find? (·.id = id) with
  | none => .unfinished
  | some call => if call.isError then .error else .ok

def sumUsage (host : Host) (messages : List (NestedCallMessage α)) : Option Usage :=
  match (finishedCalls messages).filterMap NestedCallFinished.usage with
  | [] => none
  | first :: rest => some (rest.foldl (combineUsage host) first)

variable {messages : List (NestedCallMessage α)}

theorem startedCalls_append (messages more : List (NestedCallMessage α)) :
    startedCalls (messages ++ more) = startedCalls messages ++ startedCalls more :=
  filterMap_append

theorem finishedCalls_append (messages more : List (NestedCallMessage α)) :
    finishedCalls (messages ++ more) = finishedCalls messages ++ finishedCalls more :=
  filterMap_append

theorem WellFormed.init {message : NestedCallMessage α} (h : WellFormed (messages ++ [message])) :
    WellFormed messages := by
  refine ⟨?_, fun earlier call later heq => ?_⟩
  · have hdistinct := h.distinct
    rw [startedCalls_append, map_append] at hdistinct
    exact hdistinct.of_append_left
  · refine h.before earlier call (later ++ [message]) ?_
    rw [heq, append_assoc, cons_append]

theorem WellFormed.finished_mem (h : WellFormed messages) {call : NestedCallFinished}
    (hcall : call ∈ finishedCalls messages) :
    call.id ∈ (startedCalls messages).map NestedCallStarted.id := by
  obtain ⟨message, hmessage, hsome⟩ := mem_filterMap.mp hcall
  cases message with
  | started other => cases hsome
  | finished other =>
    obtain rfl := Option.some.inj hsome
    obtain ⟨earlier, later, heq⟩ := append_of_mem hmessage
    have hbefore := h.before earlier other later heq
    rw [heq, startedCalls_append, map_append]
    exact mem_append_left _ hbefore

theorem statusOf_started (call : NestedCallStarted α) (id : String) :
    statusOf (messages ++ [NestedCallMessage.started call]) id = statusOf messages id := by
  unfold statusOf
  rw [finishedCalls_append]
  simp [finishedCalls]

theorem statusOf_finished (call : NestedCallFinished) (id : String) :
    statusOf (messages ++ [NestedCallMessage.finished call]) id =
      if call.id = id then (if call.isError then .error else .ok) else statusOf messages id := by
  unfold statusOf
  rw [finishedCalls_append]
  by_cases hid : call.id = id
  · simp [finishedCalls, hid]
  · simp [finishedCalls, hid]

theorem statusOf_eq_unfinished {id : String} :
    statusOf messages id = .unfinished ↔ ∀ call ∈ finishedCalls messages, call.id ≠ id := by
  unfold statusOf
  cases hfind : (finishedCalls messages).reverse.find? (·.id = id) with
  | none =>
    refine ⟨fun _ call hcall hid => ?_, fun _ => rfl⟩
    have hnone := find?_eq_none.mp hfind call (mem_reverse.mpr hcall)
    exact hnone (decide_eq_true hid)
  | some call =>
    have hfound := find?_some hfind
    have hid : call.id = id := of_decide_eq_true hfound
    have hmem := mem_reverse.mp (mem_of_find?_eq_some hfind)
    refine ⟨fun h => ?_, fun h => absurd hid (h call hmem)⟩
    dsimp only at h
    split_ifs at h

end Messages

section Record

variable {α : Type} (limits : NestedCallLimits) (json : JsonText α) (host : Host)

def NestedCallSummary.records (summary : NestedCallSummary) : List NestedToolCallRecord :=
  (summary.calls.map NestedToolCalls.calls).getD []

/-- A summary without calls has nothing missing. -/
def NestedCallSummary.complete (summary : NestedCallSummary) : Bool :=
  (summary.calls.map NestedToolCalls.complete).getD true

/-- The record is of this call and has its arguments, or their size where they are left out. -/
structure RecordOf (call : NestedCallStarted α) (record : NestedToolCallRecord) : Prop where
  id : record.id = call.id
  name : record.name = call.name
  stored : ∀ arguments, record.arguments = some arguments → ∃ text, call.text json = some text ∧
    arguments = json.loads text ∧ text.utf8ByteSize ≤ limits.maxArgumentBytesPerCall
  omitted : record.arguments = none → ∃ text, call.text json = some text ∧
    record.argumentsBytes = some ↑text.utf8ByteSize

def storedSize (call : NestedCallStarted α) (record : NestedToolCallRecord) : ℕ :=
  if record.arguments.isSome then ((call.text json).map String.utf8ByteSize).getD 0 else 0

structure Recorded (messages : List (NestedCallMessage α)) (summary : NestedCallSummary) : Prop where
  listed : List.Forall₂ (RecordOf limits json) ((startedCalls messages).take limits.maxCalls)
    summary.records
  status : ∀ record ∈ summary.records, record.status = statusOf messages record.id
  total : (List.zipWith (storedSize json) ((startedCalls messages).take limits.maxCalls)
    summary.records).sum ≤ limits.maxArgumentBytesTotal
  usage : summary.usage = sumUsage host messages
  complete : summary.complete = true ↔ ∀ call ∈ startedCalls messages,
    ∃ record ∈ summary.records, record.id = call.id ∧ record.arguments.isSome = true ∧
      ∃ finished ∈ finishedCalls messages, finished.id = call.id

structure Holds (messages : List (NestedCallMessage α)) (s : Fold) : Prop where
  listed : List.Forall₂ (RecordOf limits json) ((startedCalls messages).take limits.maxCalls)
    s.records
  index : ∀ id i, s.byId.get? id = some i ↔ (s.records.map NestedToolCallRecord.id)[i]? = some id
  status : ∀ record ∈ s.records, record.status = statusOf messages record.id
  bytes : (List.zipWith (storedSize json) ((startedCalls messages).take limits.maxCalls)
    s.records).sum = s.argumentBytes
  total : s.argumentBytes ≤ limits.maxArgumentBytesTotal
  usage : s.usage = sumUsage host messages
  complete : s.complete = true ↔ (startedCalls messages).length ≤ limits.maxCalls ∧
    ∀ record ∈ s.records, record.arguments.isSome = true

variable {limits json host} {messages : List (NestedCallMessage α)} {s : Fold}

theorem holds_start : Holds limits json host [] .start where
  listed := by
    rw [startedCalls, filterMap_nil, take_nil]
    exact .nil
  index := by simp [Fold.start]
  status := nofun
  bytes := by simp [startedCalls, Fold.start]
  total := Nat.zero_le _
  usage := rfl
  complete := by simp [Fold.start, startedCalls]

variable (call : NestedCallStarted α)

theorem sumUsage_started :
    sumUsage host (messages ++ [NestedCallMessage.started call]) = sumUsage host messages := by
  unfold sumUsage
  rw [finishedCalls_append]
  simp [finishedCalls]

theorem sumUsage_finished (call : NestedCallFinished) :
    sumUsage host (messages ++ [NestedCallMessage.finished call]) =
      match sumUsage host messages, call.usage with
      | sum, none => sum
      | none, some more => some more
      | some sum, some more => some (combineUsage host sum more) := by
  unfold sumUsage
  rw [finishedCalls_append, filterMap_append]
  cases hmore : call.usage with
  | none => simp [finishedCalls, hmore]
  | some more =>
    cases (finishedCalls messages).filterMap NestedCallFinished.usage with
    | nil | cons => simp [finishedCalls, hmore]

theorem Holds.length (h : Holds limits json host messages s) :
    s.records.length = min limits.maxCalls (startedCalls messages).length := by
  rw [← h.listed.length_eq, length_take]

theorem Holds.dropped (h : Holds limits json host messages s) (call : NestedCallStarted α)
    (hfull : limits.maxCalls ≤ s.records.length) :
    Holds limits json host (messages ++ [NestedCallMessage.started call]) { s with complete := false } := by
  have hlength := h.length
  have htake : (startedCalls (messages ++ [NestedCallMessage.started call])).take limits.maxCalls =
      (startedCalls messages).take limits.maxCalls := by
    rw [startedCalls_append]
    exact take_append_of_le_length (by omega)
  refine ⟨by rw [htake]; exact h.listed, h.index, fun record hrecord => ?_,
    by rw [htake]; exact h.bytes, h.total, h.usage.trans (sumUsage_started call).symm, ?_⟩
  · rw [statusOf_started]
    exact h.status record hrecord
  · refine ⟨fun hfalse => (nomatch hfalse), fun hcomplete => ?_⟩
    have hle := hcomplete.1
    rw [startedCalls_append, length_append] at hle
    simp only [startedCalls, filterMap_cons, filterMap_nil, length_cons, length_nil] at hle hlength
    omega

theorem Holds.ids (h : Holds limits json host messages s) :
    s.records.map NestedToolCallRecord.id =
      ((startedCalls messages).take limits.maxCalls).map NestedCallStarted.id := by
  have hids := rel_map (fun _ _ hof => RecordOf.id hof) h.listed.flip
  exact forall₂_eq_eq_eq ▸ hids

theorem index_append {byId : OrderedMap String ℕ} {ids : List String}
    (h : ∀ id i, byId.get? id = some i ↔ ids[i]? = some id) {id : String} (hfresh : id ∉ ids)
    (other : String) (i : ℕ) :
    (byId.set id ids.length).get? other = some i ↔ (ids ++ [id])[i]? = some other := by
  rw [OrderedMap.get?_set]
  by_cases hother : other = id
  · subst hother
    rw [if_pos rfl, Option.some.injEq]
    refine ⟨fun hlast => by rw [← hlast, getElem?_concat_length], fun hget => ?_⟩
    by_contra hne
    have hlt : i < ids.length := by
      have hbound := (List.getElem?_eq_some_iff.mp hget).1
      rw [length_append, length_singleton] at hbound
      omega
    rw [getElem?_append_left hlt] at hget
    exact hfresh (mem_of_getElem? hget)
  · rw [if_neg hother, h]
    by_cases hlt : i < ids.length
    · rw [getElem?_append_left hlt]
    · rw [getElem?_eq_none (by omega), getElem?_append_right (by omega)]
      refine ⟨nofun, fun hget => ?_⟩
      have hmem := mem_singleton.mp (mem_of_getElem? hget)
      exact absurd hmem hother

variable {text : String}

theorem recordOf_started (omitted : Bool) (htext : call.text json = some text)
    (hsize : omitted = false → text.utf8ByteSize ≤ limits.maxArgumentBytesPerCall) :
    RecordOf limits json call (recordStarted json call text omitted) := by
  cases omitted with
  | true => exact ⟨rfl, rfl, fun _ hnone => (nomatch hnone), fun _ => ⟨text, htext, rfl⟩⟩
  | false =>
    refine ⟨rfl, rfl, fun arguments hsome => ?_, fun hnone => (nomatch hnone)⟩
    exact ⟨text, htext, (Option.some.inj hsome).symm, hsize rfl⟩

theorem storedSize_started (omitted : Bool) (htext : call.text json = some text) :
    storedSize json call (recordStarted json call text omitted) =
      if omitted then 0 else text.utf8ByteSize := by
  unfold storedSize
  rw [htext]
  cases omitted <;> rfl

theorem startedCalls_concat (messages : List (NestedCallMessage α)) (call : NestedCallStarted α) :
    startedCalls (messages ++ [.started call]) = startedCalls messages ++ [call] :=
  startedCalls_append messages [.started call]

theorem WellFormed.fresh {call : NestedCallStarted α} (h : WellFormed (messages ++ [.started call])) :
    call.id ∉ (startedCalls messages).map NestedCallStarted.id := by
  have hdistinct := h.distinct
  rw [startedCalls_concat, map_append] at hdistinct
  exact fun hmem => (nodup_append.mp hdistinct).2.2 _ hmem _ mem_cons_self rfl

theorem WellFormed.unfinished {call : NestedCallStarted α}
    (h : WellFormed (messages ++ [.started call])) : statusOf messages call.id = .unfinished := by
  refine statusOf_eq_unfinished.mpr fun finished hfinished hid => h.fresh ?_
  rw [← hid]
  exact h.init.finished_mem hfinished

theorem fits_of_overLimits {size : ℕ} (h : s.overLimits limits size = false) :
    size ≤ limits.maxArgumentBytesPerCall ∧ s.argumentBytes + size ≤ limits.maxArgumentBytesTotal := by
  simp only [Fold.overLimits, Bool.or_eq_false_iff, decide_eq_false_iff_not] at h
  omega

theorem recordStarted_stored (call : NestedCallStarted α) (text : String) (omitted : Bool) :
    (recordStarted json call text omitted).arguments.isSome = true ↔ (!omitted) = true := by
  cases omitted <;> simp [recordStarted]

theorem Holds.entered (h : Holds limits json host messages s) {call : NestedCallStarted α}
    (hwf : WellFormed (messages ++ [NestedCallMessage.started call]))
    (hroom : s.records.length < limits.maxCalls) (htext : call.text json = some text) :
    Holds limits json host (messages ++ [NestedCallMessage.started call])
      (s.enter limits json call text) := by
  have hlength := h.length
  have hstarted := startedCalls_concat messages call
  have hbefore : (startedCalls messages).take limits.maxCalls = startedCalls messages :=
    take_of_length_le (by omega)
  have hafter : (startedCalls (messages ++ [NestedCallMessage.started call])).take limits.maxCalls =
      startedCalls messages ++ [call] := by
    rw [hstarted]
    refine take_of_length_le ?_
    rw [length_append, length_singleton]
    omega
  have hlisted := h.listed
  have hbytes := h.bytes
  rw [hbefore] at hlisted hbytes
  have hids := h.ids
  rw [hbefore] at hids
  unfold Fold.enter
  refine ⟨?_, fun id i => ?_, fun record hrecord => ?_, ?_, ?_,
    h.usage.trans (sumUsage_started call).symm, ?_⟩
  · rw [hafter]
    exact rel_append hlisted
      (.cons (recordOf_started call _ htext fun hwithin => (fits_of_overLimits hwithin).1) .nil)
  · have hindex := index_append h.index (by rw [hids]; exact hwf.fresh) id i
    rw [length_map] at hindex
    rw [map_append]
    exact hindex
  · rw [statusOf_started]
    cases mem_append.mp hrecord with
    | inl hold => exact h.status record hold
    | inr hnew =>
      rw [mem_singleton.mp hnew]
      exact hwf.unfinished.symm
  · rw [hafter, zipWith_append hlisted.length_eq, sum_append, hbytes]
    rw [zipWith_cons_cons, zipWith_nil_left, sum_singleton, storedSize_started call _ htext]
    dsimp only
    split_ifs
    · exact Nat.add_zero _
    · rfl
  · have htotal := h.total
    dsimp only
    split_ifs with homitted
    · exact htotal
    · exact (fits_of_overLimits ((Bool.not_eq_true _).mp homitted)).2
  · have hcomplete := h.complete
    rw [hstarted, length_append, length_singleton, Bool.and_eq_true_iff, hcomplete,
      forall_mem_append, forall_mem_singleton]
    rw [← recordStarted_stored call text]
    constructor
    · intro hall
      exact ⟨by omega, hall.1.2, hall.2⟩
    · intro hall
      exact ⟨⟨by omega, hall.2.1⟩, hall.2.2⟩

def applyFinished (limits : NestedCallLimits) (call : NestedCallFinished)
    (record : NestedToolCallRecord) : NestedToolCallRecord :=
  if record.id = call.id then recordFinished limits call record else record

theorem applyFinished_id (call : NestedCallFinished) (record : NestedToolCallRecord) :
    (applyFinished limits call record).id = record.id := by
  unfold applyFinished
  split_ifs <;> rfl

theorem applyFinished_arguments (call : NestedCallFinished) (record : NestedToolCallRecord) :
    (applyFinished limits call record).arguments = record.arguments := by
  unfold applyFinished
  split_ifs <;> rfl

theorem RecordOf.finished {start : NestedCallStarted α} {record : NestedToolCallRecord}
    (h : RecordOf limits json start record) (call : NestedCallFinished) :
    RecordOf limits json start (applyFinished limits call record) := by
  unfold applyFinished
  split_ifs
  · exact ⟨h.id, h.name, h.stored, h.omitted⟩
  · exact h

theorem Holds.records_finished (h : Holds limits json host messages s) (call : NestedCallFinished) :
    (s.finished limits host call).records = s.records.map (applyFinished limits call) := by
  have hindex : (s.addUsage host call.usage).byId = s.byId := by
    unfold Fold.addUsage
    split <;> rfl
  have hrecords : (s.addUsage host call.usage).records = s.records := by
    unfold Fold.addUsage
    split <;> rfl
  unfold Fold.finished
  dsimp only
  rw [hindex]
  refine ext_getElem? fun i => ?_
  have hmem : ∀ record, s.records[i]? = some record → record.id = call.id →
      s.byId.get? call.id = some i := by
    intro record hget hid
    rw [h.index, getElem?_map, hget, ← hid]
    rfl
  rw [getElem?_map]
  cases hfind : s.byId.get? call.id with
  | none =>
    dsimp only
    rw [hrecords]
    cases hget : s.records[i]? with
    | none => rfl
    | some record =>
      have hne : record.id ≠ call.id := fun hid => by
        rw [hmem record hget hid] at hfind
        cases hfind
      rw [Option.map_some, applyFinished, if_neg hne]
  | some index =>
    dsimp only
    rw [hrecords, getElem?_modify]
    cases hget : s.records[i]? with
    | none => split_ifs <;> rfl
    | some record =>
      by_cases hid : record.id = call.id
      · have hi := hmem record hget hid
        rw [hfind] at hi
        rw [Option.map_eq_map, Option.map_some, Option.map_some, if_pos (Option.some.inj hi),
          applyFinished, if_pos hid]
      · have hne : index ≠ i := by
          rintro rfl
          have hat := (h.index call.id index).mp hfind
          rw [getElem?_map, hget] at hat
          exact hid (Option.some.inj hat)
        rw [Option.map_eq_map, Option.map_some, Option.map_some, if_neg hne, applyFinished,
          if_neg hid]

theorem Holds.finished (h : Holds limits json host messages s) (call : NestedCallFinished) :
    Holds limits json host (messages ++ [NestedCallMessage.finished call]) (s.finished limits host call) := by
  have hstarted : startedCalls (messages ++ [NestedCallMessage.finished call]) = startedCalls messages := by
    rw [startedCalls_append]
    exact append_nil _
  have hrecords := h.records_finished call
  have hkept : (s.finished limits host call).byId = s.byId ∧
      (s.finished limits host call).complete = s.complete ∧
      (s.finished limits host call).argumentBytes = s.argumentBytes ∧
      (s.finished limits host call).usage = (s.addUsage host call.usage).usage := by
    unfold Fold.finished Fold.addUsage
    dsimp only
    split <;> split <;> exact ⟨rfl, rfl, rfl, rfl⟩
  obtain ⟨hindex, hcomplete, hbytes, husage⟩ := hkept
  refine ⟨?_, fun id i => ?_, fun record hrecord => ?_, ?_, ?_, ?_, ?_⟩
  · rw [hstarted, hrecords, forall₂_map_right_iff]
    exact h.listed.imp fun _ _ hof => hof.finished call
  · have hids : (s.records.map (applyFinished limits call)).map NestedToolCallRecord.id =
        s.records.map NestedToolCallRecord.id := by
      rw [map_map]
      exact map_congr_left fun record _ => applyFinished_id call record
    rw [hindex, hrecords, hids]
    exact h.index id i
  · rw [hrecords] at hrecord
    obtain ⟨old, hold, rfl⟩ := mem_map.mp hrecord
    rw [applyFinished_id, statusOf_finished]
    unfold applyFinished
    by_cases hid : old.id = call.id
    · rw [if_pos hid, if_pos hid.symm]
      rfl
    · rw [if_neg hid, if_neg (Ne.symm hid)]
      exact h.status old hold
  · have hsize : ∀ start record,
        storedSize json start (applyFinished limits call record) =
          storedSize json start record := by
      intro start record
      rw [storedSize, applyFinished_arguments, storedSize]
    rw [hstarted, hrecords, zipWith_map_right, hbytes, ← h.bytes]
    simp only [hsize]
  · rw [hbytes]
    exact h.total
  · rw [husage, sumUsage_finished, ← h.usage]
    unfold Fold.addUsage
    split <;> simp_all
  · rw [hstarted, hrecords, hcomplete, h.complete, forall_mem_map]
    simp only [applyFinished_arguments]

end Record

section Summary

variable {α : Type} {limits : NestedCallLimits} {json : JsonText α} {host : Host}
  {messages : List (NestedCallMessage α)}

/-- The arguments of every listed call have a text that UTF-8 can encode. -/
def Measured (limits : NestedCallLimits) (json : JsonText α)
    (messages : List (NestedCallMessage α)) : Prop :=
  ∀ call ∈ (startedCalls messages).take limits.maxCalls, (call.text json).isSome = true

theorem measured_append (more : List (NestedCallMessage α))
    (h : Measured limits json (messages ++ more)) : Measured limits json messages := by
  intro call hcall
  refine h call ?_
  rw [startedCalls_append]
  exact ((prefix_append _ _).take _).subset hcall

theorem fold_cases (hwf : WellFormed messages) :
    (∃ s, messages.foldlM (Fold.step limits json host) .start = some s ∧
      Holds limits json host messages s ∧ Measured limits json messages) ∨
    messages.foldlM (Fold.step limits json host) .start = none ∧
      ¬ Measured limits json messages := by
  induction messages using reverseRecOn with
  | nil =>
    refine .inl ⟨_, rfl, holds_start, fun call hcall => ?_⟩
    rw [startedCalls, filterMap_nil, take_nil] at hcall
    cases hcall
  | append_singleton messages message ih =>
    rw [foldlM_append]
    rcases ih hwf.init with ⟨s, hs, hseen, hmeasured⟩ | ⟨hnone, hmeasured⟩
    · have hlast : (do
          let s ← messages.foldlM (Fold.step limits json host) .start
          [message].foldlM (Fold.step limits json host) s) = s.step limits json host message := by
        rw [hs]
        simp
      rw [hlast]
      cases message with
      | finished call =>
        refine .inl ⟨_, rfl, hseen.finished call, ?_⟩
        unfold Measured
        rw [startedCalls_append]
        exact (append_nil (startedCalls messages)).symm ▸ hmeasured
      | started call =>
        have hlength := hseen.length
        by_cases hfull : limits.maxCalls ≤ s.records.length
        · refine .inl ⟨_, if_pos hfull, hseen.dropped call hfull, ?_⟩
          unfold Measured
          rw [startedCalls_append, take_append_of_le_length (by omega)]
          exact hmeasured
        · have hafter : (startedCalls (messages ++ [NestedCallMessage.started call])).take
              limits.maxCalls = startedCalls messages ++ [call] := by
            rw [startedCalls_append]
            exact take_of_length_le (by simp [startedCalls] at hlength ⊢; omega)
          have hstep : s.step limits json host (.started call) =
              (call.text json).map (s.enter limits json call) := if_neg hfull
          rw [hstep]
          cases htext : call.text json with
          | none =>
            refine .inr ⟨rfl, fun hall => ?_⟩
            have hlast := hall call (by rw [hafter]; simp)
            rw [htext] at hlast
            cases hlast
          | some text =>
            refine .inl ⟨_, rfl, hseen.entered hwf (by omega) htext, ?_⟩
            unfold Measured
            rw [hafter, forall_mem_append, forall_mem_singleton, htext]
            refine ⟨fun other hother => hmeasured other ?_, rfl⟩
            rwa [take_of_length_le (by omega)]
    · refine .inr ⟨by rw [hnone]; rfl, fun hall => hmeasured (measured_append [message] hall)⟩

variable (s : Fold)

theorem summary_records : s.summary.records = s.records := by
  unfold Fold.summary NestedCallSummary.records
  split_ifs with hnone
  · exact (isEmpty_iff.mp (Bool.and_eq_true_iff.mp hnone).1).symm
  · rfl

theorem summary_complete : s.summary.complete = true ↔
      s.complete = true ∧ ∀ record ∈ s.records, record.status ≠ .unfinished := by
  unfold Fold.summary NestedCallSummary.complete
  split_ifs with hnone
  · obtain ⟨hempty, hcomplete⟩ := Bool.and_eq_true_iff.mp hnone
    rw [isEmpty_iff.mp hempty]
    exact ⟨fun _ => ⟨hcomplete, nofun⟩, fun _ => rfl⟩
  · rw [Option.map_some, Option.getD_some, Bool.and_eq_true_iff, all_eq_true]
    simp only [decide_eq_true_eq]

theorem Holds.recorded {s : Fold} (h : Holds limits json host messages s)
    (hwf : WellFormed messages) : Recorded limits json host messages s.summary := by
  have hrecords := summary_records s
  have hids := h.ids
  refine ⟨by rw [hrecords]; exact h.listed, by rw [hrecords]; exact h.status, ?_, ?_, ?_⟩
  · rw [hrecords, h.bytes]
    exact h.total
  · rw [← h.usage]
    unfold Fold.summary
    split_ifs <;> rfl
  · rw [summary_complete, h.complete, hrecords]
    constructor
    · intro hall call hcall
      obtain ⟨⟨hlength, hstored⟩, hfinished⟩ := hall
      rw [take_of_length_le hlength] at hids
      have hmem : call.id ∈ s.records.map NestedToolCallRecord.id := by
        rw [hids]
        exact mem_map_of_mem hcall
      obtain ⟨record, hrecord, hid⟩ := mem_map.mp hmem
      have hne := hfinished record hrecord
      rw [h.status record hrecord, Ne, statusOf_eq_unfinished, hid] at hne
      push Not at hne
      exact ⟨record, hrecord, hid, hstored record hrecord, hne⟩
    · intro hall
      have hsubset : (startedCalls messages).map NestedCallStarted.id ⊆
          s.records.map NestedToolCallRecord.id := by
        intro id hid
        obtain ⟨call, hcall, rfl⟩ := mem_map.mp hid
        obtain ⟨record, hrecord, hsame, _⟩ := hall call hcall
        exact mem_map.mpr ⟨record, hrecord, hsame⟩
      have hlength := (hwf.distinct.subperm hsubset).length_le
      have hcount := h.length
      rw [length_map, length_map] at hlength
      have hle : (startedCalls messages).length ≤ limits.maxCalls := by omega
      rw [take_of_length_le hle] at hids
      have hnodup : (s.records.map NestedToolCallRecord.id).Nodup := hids ▸ hwf.distinct
      -- the record of a call is the one with its id
      have hrecord : ∀ record ∈ s.records, record.arguments.isSome = true ∧
          ∃ finished ∈ finishedCalls messages, finished.id = record.id := by
        intro record hrecord
        have hmem : record.id ∈ (startedCalls messages).map NestedCallStarted.id := by
          rw [← hids]
          exact mem_map_of_mem hrecord
        obtain ⟨call, hcall, hid⟩ := mem_map.mp hmem
        obtain ⟨other, hother, hsame, hstored, hfinished⟩ := hall call hcall
        have heq := inj_on_of_nodup_map hnodup hother hrecord (hsame.trans hid)
        rw [heq] at hstored
        rw [hid] at hfinished
        exact ⟨hstored, hfinished⟩
      refine ⟨⟨hle, fun record hmem => (hrecord record hmem).1⟩, fun record hmem => ?_⟩
      obtain ⟨finished, hfinished, hid⟩ := (hrecord record hmem).2
      rw [h.status record hmem, Ne, statusOf_eq_unfinished]
      exact fun hnone => hnone finished hfinished hid

/-- The nested calls of a tool call leave their record just when the arguments of the listed
ones can be measured. -/
theorem foldNestedCalls_recorded_iff (hwf : WellFormed messages) :
    (∃ summary, foldNestedCalls limits json host messages = some summary ∧
      Recorded limits json host messages summary) ↔ Measured limits json messages := by
  unfold foldNestedCalls
  rcases @fold_cases α limits json host messages hwf with
    ⟨s, hs, hholds, hmeasured⟩ | ⟨hnone, hmeasured⟩
  · rw [hs]
    exact iff_of_true ⟨_, rfl, hholds.recorded hwf⟩ hmeasured
  · rw [hnone]
    exact iff_of_false (by rintro ⟨summary, hsummary, _⟩; cases hsummary) hmeasured

/-- The text of `{"q": query}` for a query without characters that JSON escapes. -/
def queryText : JsonText (List ℕ) where
  empty := []
  dumps query := some ("\x7b\"q\":\"".toList.map Char.toNat ++ (query ++ "\"\x7d".toList.map Char.toNat))
  loads _ := []

/-- A call that fails and a call that is still running. -/
def twoCalls : List (NestedCallMessage (List ℕ)) :=
  [.started ⟨"a/1", "read", some [97]⟩, .started ⟨"a/2", "read", some [98]⟩,
    .finished ⟨"a/1", true, "no such file", 3, some zeroUsage⟩]

theorem foldNestedCalls_recorded_two : WellFormed twoCalls ∧
    ∃ summary, foldNestedCalls nestedCallLimits queryText AgentRun.sampleHost twoCalls =
      some summary ∧ Recorded nestedCallLimits queryText AgentRun.sampleHost twoCalls summary := by
  have hwf : WellFormed twoCalls := by
    refine ⟨by decide, fun earlier call later heq => ?_⟩
    match earlier with
    | [] => cases heq
    | [_] => cases heq
    | [_, _] =>
      cases heq
      decide
    | _ :: _ :: _ :: rest => cases rest <;> cases heq
  refine ⟨hwf, (foldNestedCalls_recorded_iff hwf).mpr ?_⟩
  unfold Measured
  decide

/-- Nothing is left of a call whose query is a lone surrogate. -/
theorem surrogate_unrecorded :
    WellFormed [NestedCallMessage.started ⟨"a/1", "grep", some [0xD800]⟩] ∧
      foldNestedCalls nestedCallLimits queryText AgentRun.sampleHost
        [.started ⟨"a/1", "grep", some [0xD800]⟩] = none := by
  refine ⟨⟨by decide, fun earlier call later heq => ?_⟩, by decide⟩
  cases earlier with
  | nil => cases heq
  | cons _ rest => cases rest <;> cases heq

end Summary

end Pidrei.NestedCallRecord
