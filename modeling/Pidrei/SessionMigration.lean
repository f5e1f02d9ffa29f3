import Pidrei.SessionInvariant

/-!
Migration of session files of older versions. The entries of version 1 have no ids and name
the first entry that a compaction keeps by its position; those of version 2 call the custom
messages hook messages. An entry is its JSON object.
-/
namespace Pidrei.SessionMigration

open Values SessionEntries SessionManager SessionInvariant List
open Option (bind_eq_bind bind_some some)
open OrderedMap (get? upsert)

abbrev WireEntry := OrderedMap String Value

def currentSessionVersion : ℤ := 3

def isSession (entry : WireEntry) : Bool := entry.get? "type" = some (.str "session")

/-- `isinstance(value, int)`; a bool is one. -/
def asInt : Option Value → Option ℤ
  | some (.num (.int n)) => some n
  | some (.bool b) => some (if b then 1 else 0)
  | _ => none

/-- The loop variables of `migrateV1ToV2`. -/
structure Migrating where
  ids : List String
  prevId : Option String
  drawn : ℕ

def parentValue : Option String → Value
  | none => .null
  | some id => .str id

def keptIndex (entry : WireEntry) : Option ℤ :=
  if entry.get? "type" = some (.str "compaction") then asInt (entry.get? "firstKeptEntryIndex")
  else none

/-- `entries[index]` within the bounds. -/
def entryAt (entries : List WireEntry) (index : ℤ) : Option WireEntry :=
  if 0 ≤ index then entries[index.toNat]? else none

/-- `none` is the KeyError of an entry without an id. -/
def convertFirstKept (entries : List WireEntry) (entry : WireEntry) : Option WireEntry :=
  match keptIndex entry with
  | none => some entry
  | some index =>
    match entryAt entries index with
    | none => some (entry.erase "firstKeptEntryIndex")
    | some target =>
      if !target.isEmpty && !isSession target then do
        let id ← target.get? "id"
        return (entry.set "firstKeptEntryId" id).erase "firstKeptEntryIndex"
      else some (entry.erase "firstKeptEntryIndex")

def withId (entry : WireEntry) (id : String) (prevId : Option String) : WireEntry :=
  (entry.set "id" (.str id)).set "parentId" (parentValue prevId)

/-- The loop over the entries, the ones before `rest` being done. -/
def assignIds (env : Environment) (done : List WireEntry) (s : Migrating) :
    List WireEntry → Option (List WireEntry)
  | [] => some done
  | entry :: rest =>
    if isSession entry then assignIds env (done ++ [entry.set "version" (.num (.int 2))]) s rest
    else do
      let (id, drawn) := generateId env (fun other => other ∈ s.ids) s.drawn
      let entry := withId entry id s.prevId
      let converted ← convertFirstKept (done ++ entry :: rest) entry
      assignIds env (done ++ [converted]) ⟨id :: s.ids, some id, drawn⟩ rest

def migrateV1ToV2 (env : Environment) (drawn : ℕ) (entries : List WireEntry) :
    Option (List WireEntry) :=
  assignIds env [] ⟨[], none, drawn⟩ entries

/-- A dict with one of its values replaced. -/
def setItem (key : String) (value : Value) (items : Items) : Items :=
  upsert key value items

def renameHookMessage : Value → Value
  | .dict message =>
    if message.lookup "role" = some (.str "hookMessage")
    then .dict (setItem "role" (.str "custom") message) else .dict message
  | message => message

def migrateEntryV2ToV3 (entry : WireEntry) : WireEntry :=
  if isSession entry then entry.set "version" (.num (.int 3))
  else if entry.get? "type" = some (.str "message") then
    match entry.get? "message" with
    | some message => entry.set "message" (renameHookMessage message)
    | none => entry
  else entry

def migrateV2ToV3 (entries : List WireEntry) : List WireEntry := entries.map migrateEntryV2ToV3

/-- The version of a session by its header; an inner `none` is a version that compares with no
number. -/
def sessionVersion (entries : List WireEntry) : Option ℤ :=
  match entries.find? isSession with
  | none => some 1
  | some header =>
    match header.get? "version" with
    | none | some .null => some 1
    | version => asInt version

/-- Whether anything was migrated, and the entries; `none` is an exception. -/
def migrateToCurrentVersion (env : Environment) (drawn : ℕ) (entries : List WireEntry) :
    Option (Bool × List WireEntry) := do
  let version ← sessionVersion entries
  if currentSessionVersion ≤ version then return (false, entries)
  let numbered ← if version < 2 then migrateV1ToV2 env drawn entries else some entries
  return (true, if version < 3 then migrateV2ToV3 numbered else numbered)

section Chains

/-- Old and new entries side by side: headers as `header` says, and every other entry with the
next id and the id before it as its parent. -/
inductive Chain (header : WireEntry → WireEntry → Prop)
    (entry : Option String → String → WireEntry → WireEntry → Prop) :
    Option String → List WireEntry → List WireEntry → List String → Prop
  | nil (prevId : Option String) : Chain header entry prevId [] [] []
  | header {prevId : Option String} {old new : WireEntry} {olds news : List WireEntry}
      {ids : List String} (hold : isSession old = true) (hnew : header old new)
      (rest : Chain header entry prevId olds news ids) :
      Chain header entry prevId (old :: olds) (new :: news) ids
  | entry {prevId : Option String} {id : String} {old new : WireEntry}
      {olds news : List WireEntry} {ids : List String} (hold : isSession old = false)
      (hnew : entry prevId id old new) (rest : Chain header entry (some id) olds news ids) :
      Chain header entry prevId (old :: olds) (new :: news) (id :: ids)

variable {header header' : WireEntry → WireEntry → Prop}
  {entry entry' : Option String → String → WireEntry → WireEntry → Prop}
  {prevId : Option String} {olds news : List WireEntry} {ids : List String}

theorem Chain.length_eq (h : Chain header entry prevId olds news ids) :
    news.length = olds.length := by
  induction h with
  | nil => rfl
  | header _ _ _ ih => rw [length_cons, length_cons, ih]
  | entry _ _ _ ih => rw [length_cons, length_cons, ih]

theorem Chain.map (h : Chain header entry prevId olds news ids) (f : WireEntry → WireEntry)
    (hheader : ∀ old new, isSession old = true → header old new → header' old (f new))
    (hentry : ∀ prevId id old new, isSession old = false → entry prevId id old new →
      entry' prevId id old (f new)) : Chain header' entry' prevId olds (news.map f) ids := by
  induction h with
  | nil prevId => exact .nil prevId
  | header hold hnew _ ih => exact .header hold (hheader _ _ hold hnew) ih
  | entry hold hnew _ ih => exact .entry hold (hentry _ _ _ _ hold hnew) ih

variable {i : ℕ} {old : WireEntry}

theorem Chain.session (h : Chain header entry prevId olds news ids)
    (hheader : ∀ old new, isSession old = true → header old new → isSession new = true)
    {new : WireEntry} (hold : olds[i]? = some old) (hnew : news[i]? = some new)
    (hsession : isSession old = true) : isSession new = true := by
  induction h generalizing i with
  | nil => cases hold
  | header hfirst hmigrated _ ih =>
    cases i with
    | zero =>
      rw [← some.inj hnew]
      exact hheader _ _ hfirst hmigrated
    | succ i => exact ih hold hnew
  | entry hfirst _ _ ih =>
    cases i with
    | zero =>
      rw [some.inj hold, hsession] at hfirst
      cases hfirst
    | succ i => exact ih hold hnew

theorem Chain.at (h : Chain header entry prevId olds news ids) (hold : olds[i]? = some old)
    (hplain : isSession old = false) :
    ∃ prevId id new, news[i]? = some new ∧ entry prevId id old new := by
  induction h generalizing i with
  | nil => cases hold
  | header hsession _ _ ih =>
    cases i with
    | zero =>
      rw [some.inj hold, hplain] at hsession
      cases hsession
    | succ i => exact ih hold
  | entry _ hmigrated _ ih =>
    cases i with
    | zero =>
      rw [← some.inj hold]
      exact ⟨_, _, _, rfl, hmigrated⟩
    | succ i => exact ih hold

end Chains

section Numbering

def keptId (entries : List WireEntry) (index : ℤ) : Option Value :=
  (entryAt entries index).bind fun target => if isSession target then none else target.get? "id"

/-- An entry whose index of the first kept entry has become the id of that entry. -/
def resolveKept (kept : ℤ → Option Value) (entry : WireEntry) : WireEntry :=
  match keptIndex entry with
  | none => entry
  | some index =>
    (match kept index with
      | some id => entry.set "firstKeptEntryId" id
      | none => entry).erase "firstKeptEntryIndex"

variable {entry other target : WireEntry} {key : String} {entries done rest : List WireEntry}
   {index : ℤ}

theorem isEmpty_of_get? {value : Value} (h : entry.get? key = some value) :
    entry.isEmpty = false := by
  cases hentries : entry.entries with
  | nil =>
    rw [get?, hentries] at h
    cases h
  | cons item items => rw [OrderedMap.isEmpty, hentries, isEmpty_cons]

theorem convertFirstKept_eq
    (h : ∀ index target, keptIndex entry = some index → entryAt entries index = some target →
      isSession target = false → (target.get? "id").isSome) :
    convertFirstKept entries entry = some (resolveKept (keptId entries) entry) := by
  rw [convertFirstKept, resolveKept]
  cases hindex : keptIndex entry with
  | none => rfl
  | some index =>
    dsimp only
    rw [keptId]
    cases hat : entryAt entries index with
    | none => rfl
    | some target =>
      dsimp only [bind_some]
      cases hsession : isSession target with
      | true => rw [Bool.not_true, Bool.and_false]; rfl
      | false =>
        obtain ⟨id, hid⟩ := Option.isSome_iff_exists.mp (h index target hindex hat hsession)
        rw [isEmpty_of_get? hid, hid]
        rfl

/-- What the conversion leaves alone. -/
theorem get?_resolveKept (kept : ℤ → Option Value) (entry : WireEntry)
    (hid : key ≠ "firstKeptEntryId") (hindex : key ≠ "firstKeptEntryIndex") :
    (resolveKept kept entry).get? key = entry.get? key := by
  rw [resolveKept]
  cases keptIndex entry with
  | none => rfl
  | some index =>
    rw [OrderedMap.get?_erase, if_neg hindex]
    cases kept index with
    | none => rfl
    | some id => exact OrderedMap.get?_set_of_ne _ _ hid

theorem get?_withId {id : String} {prevId : Option String} (hid : key ≠ "id")
    (hparent : key ≠ "parentId") : (withId entry id prevId).get? key = entry.get? key := by
  rw [withId, OrderedMap.get?_set_of_ne _ _ hparent, OrderedMap.get?_set_of_ne _ _ hid]

theorem get?_withId_id (entry : WireEntry) (id : String) (prevId : Option String) :
    (withId entry id prevId).get? "id" = some (.str id) := by
  rw [withId, OrderedMap.get?_set_of_ne _ _ (by decide), OrderedMap.get?_set_self]

theorem isSession_congr (h : entry.get? "type" = other.get? "type") :
    isSession entry = isSession other := by
  rw [isSession, isSession, h]

theorem keptIndex_congr (htype : entry.get? "type" = other.get? "type")
    (hindex : entry.get? "firstKeptEntryIndex" = other.get? "firstKeptEntryIndex") :
    keptIndex entry = keptIndex other := by
  rw [keptIndex, keptIndex, htype, hindex]

theorem keptIndex_withId (entry : WireEntry) (id : String) (prevId : Option String) :
    keptIndex (withId entry id prevId) = keptIndex entry :=
  keptIndex_congr (get?_withId (by decide) (by decide)) (get?_withId (by decide) (by decide))

theorem resolveKept_congr {kept kept' : ℤ → Option Value}
    (h : ∀ index, keptIndex entry = some index → kept index = kept' index) :
    resolveKept kept entry = resolveKept kept' entry := by
  rw [resolveKept, resolveKept]
  cases hindex : keptIndex entry with
  | none => rfl
  | some index =>
    dsimp only
    rw [h index hindex]

theorem entryAt_eq_some (h : entryAt entries index = some target) :
    0 ≤ index ∧ entries[index.toNat]? = some target := by
  rw [entryAt] at h
  split_ifs at h with hpos
  exact ⟨hpos, h⟩

def NamesNothingBehind (entries : List WireEntry) : Prop :=
  ∀ (i : ℕ) entry index target, entries[i]? = some entry → keptIndex entry = some index →
    (i : ℤ) < index → entryAt entries index = some target → isSession target = true

theorem keptId_agree {tail : List WireEntry} {converted : WireEntry}
    (hsession : isSession entry = isSession converted)
    (hid : entry.get? "id" = converted.get? "id") (hlength : tail.length = rest.length)
    (hbehind : ∀ (i : ℕ) target other, (done.length : ℤ) + 1 + i = index → rest[i]? = some target →
      tail[i]? = some other → isSession target = true ∧ isSession other = true) :
    keptId (done ++ entry :: rest) index = keptId (done ++ converted :: tail) index := by
  rw [keptId, keptId, entryAt, entryAt]
  by_cases hpos : 0 ≤ index
  · rw [if_pos hpos, if_pos hpos]
    rcases Nat.lt_trichotomy index.toNat done.length with hless | hequal | hmore
    · rw [getElem?_append_left hless, getElem?_append_left hless]
    · rw [getElem?_append_right (by omega), getElem?_append_right (by omega), hequal, Nat.sub_self]
      change (if isSession entry then none else entry.get? "id") =
        if isSession converted then none else converted.get? "id"
      rw [hsession, hid]
    · obtain ⟨i, hi⟩ : ∃ i, index.toNat = done.length + 1 + i :=
        ⟨index.toNat - done.length - 1, by omega⟩
      have hcons : ∀ (first : WireEntry) (others : List WireEntry),
          (done ++ first :: others)[index.toNat]? = others[i]? := by
        intro first others
        rw [getElem?_append_right (by omega), hi,
          (by omega : done.length + 1 + i - done.length = i + 1), getElem?_cons_succ]
      rw [hcons, hcons]
      by_cases hin : i < rest.length
      · obtain ⟨target, htarget⟩ : ∃ target, rest[i]? = some target :=
          ⟨_, getElem?_eq_getElem hin⟩
        obtain ⟨other, hother⟩ : ∃ other, tail[i]? = some other :=
          ⟨_, getElem?_eq_getElem (by omega)⟩
        obtain ⟨htargetSession, hotherSession⟩ := hbehind i target other (by omega) htarget hother
        rw [htarget, hother, bind_some, bind_some, htargetSession, hotherSession]
        rfl
      · rw [getElem?_eq_none (by omega), getElem?_eq_none (by omega)]
  · rw [if_neg hpos, if_neg hpos]

def VersionTwo (old new : WireEntry) : Prop := new = old.set "version" (.num (.int 2))

def Numbered (kept : ℤ → Option Value) (prevId : Option String) (id : String)
    (old new : WireEntry) : Prop := new = resolveKept kept (withId old id prevId)

theorem isSession_versionTwo {old new : WireEntry} (h : VersionTwo old new) :
    isSession new = isSession old := by
  rw [h]
  exact isSession_congr (OrderedMap.get?_set_of_ne _ _ (by decide))

theorem entryAt_behind {front done rest : List WireEntry} {old new : WireEntry} {index : ℤ}
    (hlength : done.length = front.length) (h : (front.length : ℤ) < index) :
    entryAt (done ++ new :: rest) index = entryAt (front ++ old :: rest) index := by
  obtain ⟨i, hi⟩ : ∃ i, index.toNat = front.length + (i + 1) :=
    ⟨index.toNat - front.length - 1, by omega⟩
  rw [entryAt, entryAt, hi, getElem?_append_right (by omega), getElem?_append_right (by omega),
    hlength, Nat.add_sub_cancel_left, getElem?_cons_succ, getElem?_cons_succ]

theorem entryAt_cases (h : entryAt (done ++ entry :: rest) index = some target) :
    (∃ i : ℕ, done[i]? = some target) ∨ target = entry ∨
      ((done.length : ℤ) < index ∧ ∀ front old, front.length = done.length →
        entryAt (front ++ old :: rest) index = some target) := by
  obtain ⟨hpos, hat⟩ := entryAt_eq_some h
  rcases Nat.lt_trichotomy index.toNat done.length with hless | hequal | hmore
  · rw [getElem?_append_left hless] at hat
    exact .inl ⟨_, hat⟩
  · rw [getElem?_append_right (by omega), hequal, Nat.sub_self] at hat
    exact .inr (.inl (some.inj hat).symm)
  · refine .inr (.inr ⟨by omega, ?_⟩)
    intro front old hlength
    rw [entryAt_behind hlength (by omega)]
    exact h

theorem assignIds_spec (env : Environment) {front done rest : List WireEntry} {s : Migrating}
    (hlength : done.length = front.length)
    (hids : ∀ (i : ℕ) target, done[i]? = some target → isSession target = false →
      (target.get? "id").isSome)
    (hbehind : NamesNothingBehind (front ++ rest)) (hknown : IdsDrawn env s.ids s.drawn) :
    ∃ tail ids, assignIds env done s rest = some (done ++ tail) ∧
      Chain VersionTwo (Numbered (keptId (done ++ tail))) s.prevId rest tail ids ∧
      ids.Nodup ∧ ∀ id ∈ ids, id ∉ s.ids := by
  induction rest generalizing front done s with
  | nil =>
    refine ⟨[], [], ?_, .nil _, nodup_nil, nofun⟩
    rw [assignIds, append_nil]
  | cons entry rest ih =>
    have hwhole : front ++ entry :: rest = (front ++ [entry]) ++ rest := by
      rw [append_assoc, singleton_append]
    have hnext : ∀ new : WireEntry, (done ++ [new]).length = (front ++ [entry]).length := by
      intro new
      rw [length_append, length_append, hlength]
      rfl
    have hids' : ∀ new : WireEntry, (isSession new = false → (new.get? "id").isSome) →
        ∀ (i : ℕ) target, (done ++ [new])[i]? = some target → isSession target = false →
          (target.get? "id").isSome := by
      intro new hnew i target htarget
      rw [getElem?_append] at htarget
      split_ifs at htarget
      · exact hids i target htarget
      · rw [← mem_singleton.mp (mem_of_getElem? htarget)] at hnew
        exact hnew
    rw [assignIds]
    cases hsession : isSession entry with
    | true =>
      have hversion := @isSession_versionTwo entry _ rfl
      obtain ⟨tail, ids, hrun, hchain, hnodup, hfresh⟩ := ih
        (hnext (entry.set "version" (.num (.int 2))))
        (hids' _ fun hfalse => by rw [hversion, hsession] at hfalse; cases hfalse)
        (hwhole ▸ hbehind) hknown
      rw [append_assoc, singleton_append] at hrun hchain
      exact ⟨_ :: tail, ids, hrun, .header hsession rfl hchain, hnodup, hfresh⟩
    | false =>
      obtain ⟨hnew, hlater, hdrawn⟩ := generateId_fresh env (fun other => other ∈ s.ids) s.drawn
        s.ids hknown fun id hid => decide_eq_true hid
      generalize hid : generateId env (fun other => other ∈ s.ids) s.drawn = drawn at *
      set numbered := withId entry drawn.1 s.prevId with hnumbered
      have hkept : keptIndex numbered = keptIndex entry := keptIndex_withId _ _ _
      have hnumberedId : numbered.get? "id" = some (.str drawn.1) := get?_withId_id _ _ _
      have hat : (front ++ entry :: rest)[front.length]? = some entry := by
        rw [getElem?_append_right (Nat.le_refl _), Nat.sub_self, getElem?_cons_zero]
      have hconverts : convertFirstKept (done ++ numbered :: rest) numbered =
          some (resolveKept (keptId (done ++ numbered :: rest)) numbered) := by
        apply convertFirstKept_eq
        intro index target hindex htarget hplain
        rcases entryAt_cases htarget with ⟨i, hbefore⟩ | rfl | ⟨hlate, hsame⟩
        · exact hids i target hbefore hplain
        · rw [hnumberedId]
          rfl
        · rw [hbehind _ _ _ _ hat (hkept ▸ hindex) (by omega)
            (hsame front entry hlength.symm)] at hplain
          cases hplain
      have hconverted : (resolveKept (keptId (done ++ numbered :: rest)) numbered).get? "id" =
          some (.str drawn.1) := by
        rw [get?_resolveKept _ _ (by decide) (by decide), hnumberedId]
      obtain ⟨tail, ids, hrun, hchain, hnodup, hfresh⟩ := ih
        (s := ⟨drawn.1 :: s.ids, some drawn.1, drawn.2⟩)
        (hnext (resolveKept (keptId (done ++ numbered :: rest)) numbered))
        (hids' _ fun _ => by rw [hconverted]; rfl) (hwhole ▸ hbehind)
        (hdrawn.append (hknown.mono (Nat.le_of_lt hlater)))
      rw [append_assoc, singleton_append] at hrun hchain
      simp only [Bool.false_eq_true, if_false, bind_eq_bind]
      rw [← hnumbered, hconverts, bind_some]
      refine ⟨_ :: tail, drawn.1 :: ids, hrun, .entry hsession ?_ hchain, ?_, ?_⟩
      · apply resolveKept_congr
        intro index hindex
        apply keptId_agree
        · exact (isSession_congr (get?_resolveKept _ _ (by decide) (by decide))).symm
        · rw [hconverted, hnumberedId]
        · exact hchain.length_eq
        · intro i target other hposition htarget hother
          have hheader : isSession target = true := by
            apply hbehind _ _ _ target hat (hkept ▸ hindex) (by omega)
            rw [entryAt, if_pos (by omega), getElem?_append_right (by omega),
              (by omega : index.toNat - front.length = i + 1), getElem?_cons_succ, htarget]
          refine ⟨hheader, hchain.session ?_ htarget hother hheader⟩
          intro old new hold hversion
          rw [isSession_versionTwo hversion, hold]
      · refine nodup_cons.mpr ⟨fun hmem => ?_, hnodup⟩
        exact hfresh _ hmem mem_cons_self
      · intro id hmem
        rcases mem_cons.mp hmem with rfl | hmem
        · exact hnew
        · exact fun hold => hfresh id hmem (mem_cons_of_mem _ hold)

end Numbering

section Renaming

variable {key : String} {entry : WireEntry}

theorem get?_migrateEntryV2ToV3 (entry : WireEntry) (hversion : key ≠ "version")
    (hmessage : key ≠ "message") : (migrateEntryV2ToV3 entry).get? key = entry.get? key := by
  rw [migrateEntryV2ToV3]
  split_ifs
  · exact OrderedMap.get?_set_of_ne _ _ hversion
  · cases entry.get? "message" with
    | none => rfl
    | some message => exact OrderedMap.get?_set_of_ne _ _ hmessage
  · rfl

theorem get?_migrateEntryV2ToV3_plain (hplain : isSession entry = false)
    (hmessage : key ≠ "message") : (migrateEntryV2ToV3 entry).get? key = entry.get? key := by
  by_cases hversion : key = "version"
  · rw [migrateEntryV2ToV3, hplain, if_neg Bool.false_ne_true]
    split_ifs
    · cases entry.get? "message" with
      | none => rfl
      | some message => exact OrderedMap.get?_set_of_ne _ _ hmessage
    · rfl
  · exact get?_migrateEntryV2ToV3 entry hversion hmessage

theorem isSession_migrateEntryV2ToV3 (entry : WireEntry) :
    isSession (migrateEntryV2ToV3 entry) = isSession entry :=
  isSession_congr (get?_migrateEntryV2ToV3 entry (by decide) (by decide))

theorem get?_message_migrateEntryV2ToV3 (h : isSession entry = false) :
    (migrateEntryV2ToV3 entry).get? "message" =
      if entry.get? "type" = some (.str "message") then (entry.get? "message").map renameHookMessage
      else entry.get? "message" := by
  rw [migrateEntryV2ToV3, h, if_neg Bool.false_ne_true]
  split_ifs
  · cases hmessage : entry.get? "message" with
    | none => exact hmessage
    | some message => exact OrderedMap.get?_set_self _ _ _
  · rfl

theorem keptId_migrateV2ToV3 (entries : List WireEntry) :
    keptId (migrateV2ToV3 entries) = keptId entries := by
  funext index
  rw [keptId, keptId, entryAt, entryAt, migrateV2ToV3, getElem?_map]
  split_ifs
  · cases entries[index.toNat]? with
    | none => rfl
    | some target =>
      rw [Option.map_some, bind_some, bind_some, isSession_migrateEntryV2ToV3,
        get?_migrateEntryV2ToV3 _ (by decide) (by decide)]
  · rfl

end Renaming

section Migration

structure MigratedHeader (old new : WireEntry) : Prop where
  version : new.get? "version" = some (.num (.int currentSessionVersion))
  others : ∀ key, key ≠ "version" → new.get? key = old.get? key

/-- What the migration makes of an entry. `kept` gives the id behind an index, where there is
one. -/
structure MigratedEntry (kept : ℤ → Option Value) (prevId : Option String) (id : String)
    (old new : WireEntry) : Prop where
  id : new.get? "id" = some (.str id)
  parentId : new.get? "parentId" = some (parentValue prevId)
  firstKeptEntryIndex : new.get? "firstKeptEntryIndex" =
    if (keptIndex old).isSome then none else old.get? "firstKeptEntryIndex"
  firstKeptEntryId : new.get? "firstKeptEntryId" =
    ((keptIndex old).bind kept).or (old.get? "firstKeptEntryId")
  message : new.get? "message" =
    if old.get? "type" = some (.str "message") then (old.get? "message").map renameHookMessage
    else old.get? "message"
  others : ∀ key, key ∉ ["id", "parentId", "firstKeptEntryIndex", "firstKeptEntryId", "message"] →
    new.get? key = old.get? key

/-- The migration succeeds, numbers the entries in file order and keeps what they say, whatever
ids it draws; a second one changes nothing. -/
def KeepsConversation (entries : List WireEntry) : Prop :=
  ∀ env drawn, ∃ migrated ids,
    migrateToCurrentVersion env drawn entries = some (true, migrated) ∧ ids.Nodup ∧
      Chain MigratedHeader (MigratedEntry (keptId migrated)) none entries migrated ids ∧
      ∀ later, migrateToCurrentVersion env later migrated = some (false, migrated)

/-- A header without a version, or with the first one, and entries without ids behind it. -/
structure VersionOne (entries : List WireEntry) : Prop where
  header : ∃ header rest, entries = header :: rest ∧ isSession header = true
  version : sessionVersion entries = some 1
  withoutIds : ∀ entry ∈ entries, isSession entry = false → entry.get? "id" = none

variable {entries : List WireEntry} {old new entry : WireEntry} {id : String}

theorem migratedHeader_of_versionTwo (hold : isSession old = true) (h : VersionTwo old new) :
    MigratedHeader old (migrateEntryV2ToV3 new) := by
  have hsession : isSession new = true := by rw [isSession_versionTwo h, hold]
  have hnew : migrateEntryV2ToV3 new = new.set "version" (.num (.int 3)) := by
    rw [migrateEntryV2ToV3, hsession, if_pos rfl]
  rw [hnew, h]
  constructor
  · exact OrderedMap.get?_set_self _ _ _
  · intro key hkey
    rw [OrderedMap.get?_set_of_ne _ _ hkey, OrderedMap.get?_set_of_ne _ _ hkey]

variable (kept : ℤ → Option Value) (env : Environment)

theorem get?_resolveKept_index (entry : WireEntry) :
    (resolveKept kept entry).get? "firstKeptEntryIndex" =
      if (keptIndex entry).isSome then none else entry.get? "firstKeptEntryIndex" := by
  rw [resolveKept]
  cases keptIndex entry with
  | none => rfl
  | some index =>
    exact (OrderedMap.get?_erase _ _ _).trans (if_pos rfl)

theorem get?_resolveKept_id (entry : WireEntry) : (resolveKept kept entry).get? "firstKeptEntryId" =
      ((keptIndex entry).bind kept).or (entry.get? "firstKeptEntryId") := by
  rw [resolveKept]
  cases keptIndex entry with
  | none => rfl
  | some index =>
    dsimp only [bind_some]
    rw [OrderedMap.get?_erase, if_neg (by decide)]
    cases kept index with
    | none => rfl
    | some id => exact OrderedMap.get?_set_self _ _ _

theorem migratedEntry_of_numbered {kept : ℤ → Option Value} {prevId : Option String}
    (hold : isSession old = false) (h : Numbered kept prevId id old new) :
    MigratedEntry kept prevId id old (migrateEntryV2ToV3 new) := by
  have hsame : ∀ key, key ∉ ["id", "parentId", "firstKeptEntryIndex", "firstKeptEntryId"] →
      new.get? key = old.get? key := by
    intro key hkey
    simp only [mem_cons, not_mem_nil, or_false, not_or] at hkey
    rw [h, get?_resolveKept _ _ hkey.2.2.2 hkey.2.2.1, get?_withId hkey.1 hkey.2.1]
  have hplain : isSession new = false := by
    rw [isSession_congr (hsame "type" (by decide)), hold]
  constructor
  · rw [get?_migrateEntryV2ToV3 _ (by decide) (by decide), h,
      get?_resolveKept _ _ (by decide) (by decide), get?_withId_id]
  · rw [get?_migrateEntryV2ToV3 _ (by decide) (by decide), h,
      get?_resolveKept _ _ (by decide) (by decide), withId, OrderedMap.get?_set_self]
  · rw [get?_migrateEntryV2ToV3 _ (by decide) (by decide), h, get?_resolveKept_index,
      keptIndex_withId, get?_withId (by decide) (by decide)]
  · rw [get?_migrateEntryV2ToV3 _ (by decide) (by decide), h, get?_resolveKept_id,
      keptIndex_withId, get?_withId (by decide) (by decide)]
  · rw [get?_message_migrateEntryV2ToV3 hplain, hsame "type" (by decide),
      hsame "message" (by decide)]
  · intro key hkey
    simp only [mem_cons, not_mem_nil, or_false, not_or] at hkey
    rw [get?_migrateEntryV2ToV3_plain hplain hkey.2.2.2.2]
    apply hsame
    simp [hkey]

theorem migrate_again (drawn : ℕ) {header : WireEntry} (rest : List WireEntry)
    (hheader : isSession header = true) (h : MigratedHeader header new) :
    migrateToCurrentVersion env drawn (new :: rest) = some (false, new :: rest) := by
  have hsession : isSession new = true := by
    rw [isSession_congr (h.others "type" (by decide)), hheader]
  have hversion : sessionVersion (new :: rest) = some currentSessionVersion := by
    rw [sessionVersion, find?_cons_of_pos hsession]
    dsimp only
    rw [h.version]
    rfl
  rw [migrateToCurrentVersion, hversion]
  rfl

theorem migrate_versionOne (h : VersionOne entries) (env : Environment) (drawn : ℕ) :
    migrateToCurrentVersion env drawn entries =
      (migrateV1ToV2 env drawn entries).map fun numbered => (true, migrateV2ToV3 numbered) := by
  rw [migrateToCurrentVersion, h.version]
  cases migrateV1ToV2 env drawn entries <;> rfl

theorem keepsConversation_of (h : VersionOne entries) (hbehind : NamesNothingBehind entries) :
    KeepsConversation entries := by
  intro env drawn
  obtain ⟨tail, ids, hrun, hchain, hnodup, -⟩ := @assignIds_spec env [] [] entries
    ⟨[], none, drawn⟩ rfl (nofun) hbehind
    (nofun)
  have hmigrated : Chain MigratedHeader (MigratedEntry (keptId (migrateV2ToV3 tail))) none entries
      (migrateV2ToV3 tail) ids := by
    rw [keptId_migrateV2ToV3]
    exact hchain.map migrateEntryV2ToV3 (fun _ _ => migratedHeader_of_versionTwo)
      (fun _ _ _ _ => migratedEntry_of_numbered)
  have hfirst : migrateToCurrentVersion env drawn entries = some (true, migrateV2ToV3 tail) := by
    rw [migrate_versionOne h, migrateV1ToV2, hrun]
    rfl
  generalize migrateV2ToV3 tail = migrated at hmigrated hfirst
  refine ⟨migrated, ids, hfirst, hnodup, hmigrated, ?_⟩
  · intro later
    obtain ⟨header, rest, rfl, hheader⟩ := h.header
    cases hmigrated with
    | header _ hnew _ => exact migrate_again env later _ hheader hnew
    | entry hold _ _ =>
      rw [hheader] at hold
      cases hold

/-- The text begins as a drawn uuid does. -/
def Drawn (env : Environment) (id : String) : Prop :=
  ∃ n, id.toList.head? = (env.uuid n).toList.head?

theorem drawn_generateIdTries (existing : String → Bool) (tries drawn : ℕ) :
    Drawn env (generateIdTries env existing tries drawn).1 := by
  induction tries generalizing drawn with
  | zero => exact ⟨drawn, rfl⟩
  | succ tries ih =>
    rw [generateIdTries]
    split_ifs
    · exact ih (drawn + 1)
    · refine ⟨drawn, ?_⟩
      rw [String.toList_ofList, head?_take, if_neg (by decide)]

/-- What a run has written, whichever way it went: drawn ids, and no id of a first kept entry
where that entry had none yet. -/
structure Written (env : Environment) (whole : List WireEntry) (position : ℕ)
    (old new : WireEntry) : Prop where
  id : ∃ id, new.get? "id" = some (.str id) ∧ Drawn env id
  behind : ∀ index target, keptIndex old = some index → (position : ℤ) < index →
    entryAt whole index = some target → isSession target = false → target.get? "id" = none →
      new.get? "firstKeptEntryId" = old.get? "firstKeptEntryId"

theorem convertFirstKept_some {converted : WireEntry}
    (h : convertFirstKept entries entry = some converted) :
    converted = resolveKept (keptId entries) entry := by
  rw [convertFirstKept] at h
  rw [resolveKept]
  cases hindex : keptIndex entry with
  | none =>
    rw [hindex] at h
    exact (some.inj h).symm
  | some index =>
    rw [hindex] at h
    dsimp only at h ⊢
    rw [keptId]
    cases hat : entryAt entries index with
    | none =>
      rw [hat] at h
      exact (some.inj h).symm
    | some target =>
      rw [hat] at h
      dsimp only [bind_some] at h ⊢
      cases hsession : isSession target with
      | true =>
        rw [hsession, Bool.not_true, Bool.and_false] at h
        exact (some.inj h).symm
      | false =>
        cases hid : target.get? "id" with
        | none =>
          rw [hid] at h
          split_ifs at h
          · cases h
          · exact (some.inj h).symm
        | some id =>
          rw [isEmpty_of_get? hid, hsession, hid] at h
          exact (some.inj h).symm

theorem assignIds_written (env : Environment) {front done rest result : List WireEntry}
    {s : Migrating} (hlength : done.length = front.length)
    (h : assignIds env done s rest = some result) :
    ∃ tail, result = done ++ tail ∧ tail.length = rest.length ∧
      ∀ (j : ℕ) old, rest[j]? = some old → isSession old = false → ∃ new, tail[j]? = some new ∧
        Written env (front ++ rest) (front.length + j) old new := by
  induction rest generalizing front done s with
  | nil =>
    exact ⟨[], by rw [append_nil]; exact (some.inj h).symm, rfl,
      nofun⟩
  | cons entry rest ih =>
    have hwhole : front ++ entry :: rest = (front ++ [entry]) ++ rest := by
      rw [append_assoc, singleton_append]
    have hnext : ∀ new : WireEntry, (done ++ [new]).length = (front ++ [entry]).length := by
      intro new
      rw [length_append, length_append, hlength]
      rfl
    -- the entries behind the first are those of the rest of the run
    have hlater : ∀ (new : WireEntry) (tail : List WireEntry) (j : ℕ),
        (∀ (j : ℕ) old, rest[j]? = some old → isSession old = false → ∃ new, tail[j]? = some new ∧
          Written env (front ++ [entry] ++ rest) ((front ++ [entry]).length + j) old new) →
        ∀ old, (entry :: rest)[j + 1]? = some old → isSession old = false →
          ∃ new', (new :: tail)[j + 1]? = some new' ∧
            Written env (front ++ entry :: rest) (front.length + (j + 1)) old new' := by
      intro new tail j hrest old hold hplain
      obtain ⟨new', hnew', hwritten⟩ := hrest j old hold hplain
      rw [← hwhole, length_append, length_singleton, Nat.add_assoc,
        Nat.add_comm 1 j] at hwritten
      exact ⟨new', hnew', hwritten⟩
    rw [assignIds] at h
    cases hsession : isSession entry with
    | true =>
      rw [hsession, if_pos rfl] at h
      obtain ⟨tail, hresult, htail, hrest⟩ := ih (hnext _) h
      rw [append_assoc, singleton_append] at hresult
      refine ⟨_ :: tail, hresult, by rw [length_cons, length_cons, htail], ?_⟩
      intro j old hold hplain
      cases j with
      | zero =>
        rw [← some.inj hold, hsession] at hplain
        cases hplain
      | succ j => exact hlater _ tail j hrest old hold hplain
    | false =>
      simp only [hsession, Bool.false_eq_true, if_false, bind_eq_bind,
        Option.bind_eq_some_iff] at h
      obtain ⟨converted, hconverted, hrun⟩ := h
      obtain ⟨tail, hresult, htail, hrest⟩ := ih (hnext _) hrun
      rw [append_assoc, singleton_append] at hresult
      refine ⟨_ :: tail, hresult, by rw [length_cons, length_cons, htail], ?_⟩
      intro j old hold hplain
      cases j with
      | succ j => exact hlater _ tail j hrest old hold hplain
      | zero =>
        rw [← some.inj hold]
        have heq := convertFirstKept_some hconverted
        refine ⟨converted, rfl, ⟨?_, ?_⟩⟩
        · rw [heq, get?_resolveKept _ _ (by decide) (by decide), get?_withId_id]
          exact ⟨_, rfl, drawn_generateIdTries env (fun other => other ∈ s.ids) 100 s.drawn⟩
        · intro index target hindex hbehind hat htarget hid
          rw [heq, get?_resolveKept_id, keptIndex_withId, hindex, bind_some, keptId,
            @entryAt_behind _ _ _ entry _ _ hlength (by omega), hat, bind_some, htarget, hid,
            get?_withId (by decide) (by decide)]
          rfl

theorem letterUuid_injective (letter : Char) :
    Function.Injective fun n => String.ofList (List.replicate (9 + n) letter) := by
  intro m n h
  have hlength := congrArg String.length h
  simp only [String.length_ofList, length_replicate] at hlength
  omega

theorem letterUuid_long (letter : Char) (n : ℕ) :
    8 < (String.ofList (List.replicate (9 + n) letter)).length := by
  rw [String.length_ofList, length_replicate]
  omega

def letterEnvironment (letter : Char) : Environment where
  epochMs := fun _ => 0
  uuid := fun n => String.ofList (List.replicate (9 + n) letter)
  uuid_injective := letterUuid_injective letter
  uuid_long := letterUuid_long letter

theorem head_of_drawn {letter : Char} (h : Drawn (letterEnvironment letter) id) :
    id.toList.head? = some letter := by
  obtain ⟨n, hn⟩ := h
  rw [hn]
  change (String.ofList (replicate (9 + n) letter)).toList.head? = some letter
  rw [String.toList_ofList, head?_replicate, if_neg (by omega)]

theorem drawn_before {i : ℕ} {target : WireEntry} {index : ℤ} (h : VersionOne entries)
    (hkeeps : KeepsConversation entries) (hentry : entries[i]? = some entry)
    (hindex : keptIndex entry = some index) (hlate : (i : ℤ) < index)
    (hat : entryAt entries index = some target) (htarget : isSession target = false)
    (env : Environment) : ∃ id, entry.get? "firstKeptEntryId" = some (.str id) ∧ Drawn env id := by
  obtain ⟨migrated, ids, hmigrate, -, hchain, -⟩ := hkeeps env 0
  rw [migrate_versionOne h, Option.map_eq_some_iff] at hmigrate
  obtain ⟨numbered, hrun, heq⟩ := hmigrate
  obtain ⟨_, rfl, -, hwritten⟩ := @assignIds_written env [] [] _ _ _ rfl hrun
  obtain ⟨hpos, hbehind⟩ := entryAt_eq_some hat
  have hplain : isSession entry = false := by
    by_contra hsession
    have htype := of_decide_eq_true (Bool.of_not_eq_false hsession)
    rw [keptIndex, htype, if_neg (by decide)] at hindex
    cases hindex
  have hwithout := h.withoutIds target (mem_of_getElem? hbehind) htarget
  have hmap : migrated = migrateV2ToV3 numbered := (Prod.mk.inj heq).2.symm
  obtain ⟨newEntry, hnewEntry, hone⟩ := hwritten i entry hentry hplain
  obtain ⟨newTarget, hnewTarget, hother⟩ := hwritten index.toNat target hbehind htarget
  obtain ⟨id, hid, hdrawn⟩ := hother.id
  have hkept : keptId migrated index = some (.str id) := by
    have hsession : isSession newTarget = false := by
      obtain ⟨_, _, new, hnew, hmigrated⟩ := hchain.at hbehind htarget
      rw [hmap, migrateV2ToV3, getElem?_map, hnewTarget] at hnew
      rw [← isSession_migrateEntryV2ToV3, some.inj hnew,
        isSession_congr (hmigrated.others "type" (by decide)), htarget]
    rw [hmap, keptId_migrateV2ToV3, keptId, entryAt, if_pos hpos, hnewTarget, bind_some,
      hsession, hid]
    rfl
  obtain ⟨_, _, new, hnew, hmigrated⟩ := hchain.at hentry hplain
  rw [hmap, migrateV2ToV3, getElem?_map, hnewEntry] at hnew
  have hfirst := hmigrated.firstKeptEntryId
  rw [hindex, bind_some, hkept, ← some.inj hnew,
    get?_migrateEntryV2ToV3 _ (by decide) (by decide),
    hone.behind index target hindex (by rw [length_nil]; omega) hat htarget hwithout] at hfirst
  exact ⟨id, hfirst, hdrawn⟩

theorem namesNothingBehind_of (h : VersionOne entries) (hkeeps : KeepsConversation entries) :
    NamesNothingBehind entries := by
  intro i entry index target hentry hindex hlate hat
  by_contra hsession
  have htarget := (Bool.not_eq_true _).mp hsession
  have hdrawn := drawn_before h hkeeps hentry hindex hlate hat htarget
  obtain ⟨id, hid, ha⟩ := hdrawn (letterEnvironment 'a')
  obtain ⟨other, hother, hb⟩ := hdrawn (letterEnvironment 'b')
  have hsame : id = other := Value.str.inj (some.inj (hid.symm.trans hother))
  have hheads := (head_of_drawn ha).symm.trans (hsame ▸ head_of_drawn hb)
  exact absurd hheads (by decide)

theorem keepsConversation_iff (h : VersionOne entries) :
    KeepsConversation entries ↔ NamesNothingBehind entries :=
  ⟨namesNothingBehind_of h, keepsConversation_of h⟩

def sessionEntry (items : Items) : WireEntry := .ofList items

def oldHeader : WireEntry := sessionEntry [("type", .str "session"), ("id", .str "s")]

/-- A compaction that keeps the message behind it. -/
def compactionAhead : List WireEntry :=
  [oldHeader,
    sessionEntry [("type", .str "compaction"), ("firstKeptEntryIndex", .num (.int 2))],
    sessionEntry [("type", .str "message"), ("message", .dict [("role", .str "user")])]]

def compactionBehind : List WireEntry :=
  [oldHeader,
    sessionEntry [("type", .str "message"), ("message", .dict [("role", .str "hookMessage")])],
    sessionEntry [("type", .str "compaction"), ("firstKeptEntryIndex", .num (.int 1))]]

theorem versionOne_ahead : VersionOne compactionAhead :=
  ⟨⟨_, _, rfl, by decide⟩, by decide, by decide⟩

theorem versionOne_behind : VersionOne compactionBehind :=
  ⟨⟨_, _, rfl, by decide⟩, by decide, by decide⟩

/-- The migration raises, and the session is lost. -/
theorem migration_loses_forward_reference :
    VersionOne compactionAhead ∧ ¬ KeepsConversation compactionAhead := by
  refine ⟨versionOne_ahead, fun h => ?_⟩
  obtain ⟨migrated, ids, hmigrate, -⟩ := h plainEnvironment 0
  cases hmigrate

theorem keepsConversation_iff_behind :
    KeepsConversation compactionBehind ↔ NamesNothingBehind compactionBehind :=
  keepsConversation_iff versionOne_behind

end Migration

end Pidrei.SessionMigration
