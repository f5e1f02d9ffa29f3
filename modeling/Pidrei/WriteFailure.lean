import Pidrei.Library.Runs
import Pidrei.SessionReload

/-!
Session files whose writes may raise. The memory is ahead of the file after a
write that raised: an entry can then miss in the file while later entries point
to it, a line can be torn in its middle, and a first flush can leave a file that
the next exclusive create refuses. A run keeps its acknowledged entries readable
exactly as long as no append is written on top of such a state.
-/
namespace Pidrei.WriteFailure

open List

open Values Messages SessionEntries SessionManager SessionInvariant SessionFile EntryRoundTrip
open SessionLoad SessionReload BranchExtraction ParentLog TreeNode

/-- A store with the ids of the entries that successful writes have written, and of the
entries whose append raised before their whole line was in the file. -/
structure Run where
  store : Store
  written : List String
  lost : List String

/-- Whether an appended line is in the file with its newline. -/
def lineLanded (disk : Option File) : Outcome → Bool
  | .done => true
  | .raised _ whole _ => 0 < whole && disk.all (fun file => file.tail.isNone)

def entriesWritten (flushed : Bool) (s : Session) (entry : Entry) : List String :=
  if flushed then [entry.id] else s.entries.map Entry.id

def advance (env : Environment) (r : Run) (input : Operation × Outcome) : Run :=
  match step env r.store input.1 input.2 with
  | (store, .written entry) =>
    { r with
      store := store
      written := r.written ++
        entriesWritten r.store.manager.flushed store.manager.session entry }
  | (store, .raised entry) =>
    { r with
      store := store
      lost := if r.store.manager.flushed && !lineLanded r.store.disk input.2 then
        r.lost ++ [entry.id] else r.lost }
  | (store, _) => { r with store := store }

/-- How an operation is written, `none` when nothing is. -/
def plannedMode (env : Environment) (store : Store) (op : Operation) : Option Mode :=
  match perform env store.manager.session op with
  | .ok (next, some entry) =>
    (planPersist { store.manager with session := next } entry).map Prod.fst
  | _ => none

def parentOf (s : Session) : Operation → Option String
  | .branchWithSummary _ branchFromId _ _ _ _ => branchFromId
  | _ => s.leafId

def parentChain (s : Session) (op : Operation) : List Entry :=
  match parentOf s op with
  | none => []
  | some id => getBranch s (some id)

/-- A first flush that raises leaves no file, and an append succeeds only on a file that ends
with a newline and only below entries none of which is lost. -/
def Meets (env : Environment) (r : Run) (input : Operation × Outcome) : Prop :=
  match plannedMode env r.store input.1, input.2 with
  | some .exclusive, .raised created _ _ => created = false
  | some .append, .done => (r.store.disk.all (fun file => file.tail.isNone)) = true ∧
      ∀ entry ∈ parentChain r.store.manager.session input.1, entry.id ∉ r.lost
  | _, _ => True

/-- Every written entry has the same branch after a reload as in memory. -/
def Readable (r : Run) : Prop :=
  ∀ id ∈ r.written, ∀ fresh drawn, ∃ reopened,
    setSessionFile r.store.disk fresh drawn = .ok reopened ∧
      (getBranch reopened.manager.session (some id)).map Entry.id =
        (getBranch r.store.manager.session (some id)).map Entry.id

/-- No operation fails to write when its own write is not failed by the system. -/
def Accepts (env : Environment) (store : Store) : Prop :=
  ∀ op entry, (step env store op .done).2 ≠ .raised entry

def Intact (env : Environment) (r : Run) : Prop := Readable r ∧ Accepts env r.store

/-! What the file holds along the run. -/

/-- The entries of the session that have a line in the file, and what is known about the rest. -/
structure Landed (s : Session) (written lost : List String) (file : File)
    (landed : List Entry) : Prop where
  subset : ∀ entry ∈ landed, entry ∈ s.entries
  nodup : (ids landed).Nodup
  lines : file.lines.filterMap lineValue = headerItems s.header :: landed.map entryItems
  tail : ∀ line, file.tail = some line → lineValue line = none ∨
    ∃ entry ∈ s.entries, entry.id ∉ ids landed ∧ line = entryLine entry
  complete : ∀ entry ∈ s.entries, entry ∉ landed → entry.id ∈ lost
  lost : ∀ id ∈ lost, id ∈ ids s.entries ∧ id ∉ ids landed
  written : ∀ id ∈ written, ∃ entry path, entry.id = id ∧ RootPath landed entry path

structure Sound (env : Environment) (r : Run) : Prop where
  reachable : Reachable env r.store.manager.session
  typed : ∀ entry ∈ r.store.manager.session.entries, TypedPayload entry.payload
  persist : r.store.manager.persist = true
  deferred : r.store.disk = none →
    r.store.manager.flushed = false ∧ r.written = [] ∧ r.lost = []
  landed : ∀ file, r.store.disk = some file → r.store.manager.flushed = true ∧
    ∃ landed, Landed r.store.manager.session r.written r.lost file landed

section Landed

variable {s next : Session} {written lost : List String} {file : File} {landed : List Entry}

theorem Landed.holds (h : Landed s written lost file landed) :
    ∃ entries, Holds file s.header entries ∧ (∀ entry ∈ landed, entry ∈ entries) ∧
      (∀ entry ∈ entries, entry ∈ s.entries) ∧ (ids entries).Nodup := by
  cases htail : file.tail with
  | none =>
    refine ⟨landed, ?_, fun _ h => h, h.subset, h.nodup⟩
    rw [Holds, htail, Option.toList_none, append_nil]
    exact h.lines
  | some line =>
    rcases h.tail line htail with hnone | ⟨entry, hentry, hfresh, rfl⟩
    · refine ⟨landed, ?_, fun _ h => h, h.subset, h.nodup⟩
      rw [Holds, htail, Option.toList_some, filterMap_append, h.lines,
        filterMap_cons_none hnone, filterMap_nil, append_nil]
    · refine ⟨landed ++ [entry], ?_, fun _ h => mem_append_left _ h, ?_, ?_⟩
      · rw [Holds, htail, Option.toList_some, filterMap_append, h.lines,
          filterMap_cons_some (lineValue_entryLine entry), filterMap_nil, map_append]
        rfl
      · intro other hother
        rcases mem_append.mp hother with hold | hlast
        · exact h.subset other hold
        · rw [mem_singleton.mp hlast]
          exact hentry
      · rw [ids_append]
        refine nodup_append.mpr ⟨h.nodup, nodup_singleton _, ?_⟩
        intro a ha b hb
        obtain rfl := mem_singleton.mp hb
        rintro rfl
        exact hfresh ha

theorem Landed.fresh (h : Landed s written lost file landed) {id : String}
    (hfresh : id ∉ ids s.entries) : id ∉ ids landed := by
  intro hmem
  obtain ⟨other, hother, rfl⟩ := mem_map.mp hmem
  exact hfresh (mem_ids (h.subset other hother))

theorem Landed.congr (h : Landed s written lost file landed) (hentries : next.entries = s.entries)
    (hheader : next.header = s.header) : Landed next written lost file landed := by
  obtain ⟨hsubset, hnodup, hlines, htail, hcomplete, hlost, hwritten⟩ := h
  rw [← hentries] at hsubset htail hcomplete hlost
  rw [← hheader] at hlines
  exact ⟨hsubset, hnodup, hlines, htail, hcomplete, hlost, hwritten⟩

variable {entry : Entry}

theorem Landed.lose (h : Landed s written lost file landed)
    (hfresh : entry.id ∉ ids s.entries) (hentries : next.entries = s.entries ++ [entry])
    (hheader : next.header = s.header) {torn : File}
    (hlines : torn.lines.filterMap lineValue = file.lines.filterMap lineValue)
    (htail : ∀ line, torn.tail = some line → lineValue line = none ∨ file.tail = some line ∨
      line = entryLine entry) :
    Landed next written (lost ++ [entry.id]) torn landed where
  subset other hother := by
    rw [hentries]
    exact mem_append_left _ (h.subset other hother)
  nodup := h.nodup
  lines := by rw [hlines, h.lines, hheader]
  tail line hline := by
    rw [hentries]
    rcases htail line hline with hnone | hold | rfl
    · exact .inl hnone
    · rcases h.tail line hold with hnone | ⟨other, hother, hid, hline⟩
      · exact .inl hnone
      · exact .inr ⟨other, mem_append_left _ hother, hid, hline⟩
    · exact .inr ⟨entry, by simp, h.fresh hfresh, rfl⟩
  complete other hother hnot := by
    rw [hentries] at hother
    rcases mem_append.mp hother with hold | hlast
    · exact mem_append_left _ (h.complete other hold hnot)
    · rw [mem_singleton.mp hlast]
      simp
  lost id hid := by
    rw [hentries, ids_append]
    rcases mem_append.mp hid with hold | hlast
    · exact ⟨mem_append_left _ (h.lost id hold).1, (h.lost id hold).2⟩
    · obtain rfl := mem_singleton.mp hlast
      exact ⟨mem_append_right _ (mem_singleton_self _), h.fresh hfresh⟩
  written := h.written

theorem Landed.land (h : Landed s written lost file landed) (hfresh : entry.id ∉ ids s.entries)
    (hentries : next.entries = s.entries ++ [entry]) (hheader : next.header = s.header) :
    Landed next written lost ⟨file.lines ++ [entryLine entry], none⟩ (landed ++ [entry]) where
  subset other hother := by
    rw [hentries]
    rcases mem_append.mp hother with hold | hlast
    · exact mem_append_left _ (h.subset other hold)
    · exact mem_append_right _ hlast
  nodup := by
    rw [ids_append]
    refine nodup_append.mpr ⟨h.nodup, nodup_singleton _, ?_⟩
    intro a ha b hb
    obtain rfl := mem_singleton.mp hb
    rintro rfl
    exact h.fresh hfresh ha
  lines := by
    rw [filterMap_append, h.lines, filterMap_cons_some (lineValue_entryLine entry),
      filterMap_nil, hheader, map_append]
    rfl
  tail := nofun
  complete other hother hnot := by
    rw [hentries] at hother
    rcases mem_append.mp hother with hold | hlast
    · exact h.complete other hold (fun hmem => hnot (mem_append_left _ hmem))
    · exact absurd (mem_append_right _ hlast) hnot
  lost id hid := by
    rw [hentries, ids_append, ids_append]
    obtain ⟨hknown, hnot⟩ := h.lost id hid
    refine ⟨mem_append_left _ hknown, fun hmem => ?_⟩
    rcases mem_append.mp hmem with hold | hlast
    · exact hnot hold
    · obtain rfl := mem_singleton.mp hlast
      exact hfresh hknown
  written id hid := by
    obtain ⟨other, path, hother, hpath⟩ := h.written id hid
    exact ⟨other, path, hother, hpath.mono _⟩

theorem Landed.acknowledge (h : Landed s written lost file landed) {more : List String}
    (hmore : ∀ id ∈ more, ∃ entry path, entry.id = id ∧ RootPath landed entry path) :
    Landed s (written ++ more) lost file landed :=
  { h with
    written := fun id hid => by
      rcases mem_append.mp hid with hold | hnew
      · exact h.written id hold
      · exact hmore id hnew }

end Landed

/-! Reading the file. -/

variable {header : SessionHeader} {entries : List Entry} {r : Run} {id : String} {drawn : Nat}
  {env : Environment} {s next : Session} {entry : Entry} {op : Operation}

theorem branchIds_loaded (hnodup : (ids entries).Nodup) :
    ∀ x ∈ (getBranch (buildIndex header (entries.map reloadEntry) drawn) (some id)).map Entry.id,
      x ∈ ids entries := by
  intro x hx
  obtain ⟨entry, hentry, rfl⟩ := mem_map.mp hx
  have hmem := mem_of_getBranch (by rw [ids_reload]; exact hnodup) hentry
  rw [← ids_reload]
  exact mem_ids hmem

theorem branchIds_eq (h : Consistent env s) (hsubset : ∀ entry ∈ entries, entry ∈ s.entries)
    (hnodup : (ids entries).Nodup) {path : List Entry} (hpath : RootPath entries entry path)
    (header : SessionHeader) (drawn : Nat) :
    (getBranch (buildIndex header (entries.map reloadEntry) drawn) (some entry.id)).map Entry.id =
      (getBranch s (some entry.id)).map Entry.id := by
  have hmemory := hpath.within (fun x hx => hsubset x (hpath.subset x hx))
  have hreload : RootPath (entries.map reloadEntry) (reloadEntry entry) (path.map reloadEntry) :=
    hpath.map (fun _ => rfl) (fun _ => rfl)
  have hlength : path.length ≤ entries.length :=
    (subperm_of_subset (hmemory.nodup h.grown) hpath.subset).length_le
  have hne : ∀ id ∈ ids (entries.map reloadEntry), id ≠ "" := by
    intro id hid
    rw [ids_reload] at hid
    obtain ⟨other, hother, rfl⟩ := mem_map.mp hid
    exact h.drawn.ne_empty (mem_ids (hsubset other hother))
  have hbranch : getBranch (buildIndex header (entries.map reloadEntry) drawn)
      (some (reloadEntry entry).id) = path.map reloadEntry :=
    getBranch_buildIndex (by rw [ids_reload]; exact hnodup) hne hreload (by simpa using hlength)
  have hid : (reloadEntry entry).id = entry.id := rfl
  rw [hid] at hbranch
  rw [hbranch, h.getBranch_eq hmemory, map_map]
  rfl

theorem Sound.readable (h : Sound env r) : Readable r := by
  intro id hid fresh drawn
  have hs := reachable_consistent h.reachable
  cases hdisk : r.store.disk with
  | none =>
    rw [(h.deferred hdisk).2.1] at hid
    simp at hid
  | some file =>
    obtain ⟨-, landed, hlanded⟩ := h.landed file hdisk
    obtain ⟨entries, hholds, hmore, hsubset, hnodup⟩ := hlanded.holds
    obtain ⟨entry, path, rfl, hpath⟩ := hlanded.written id hid
    have htyped := fun other hother => h.typed other (hsubset other hother)
    exact ⟨_, setSessionFile_of_holds hholds htyped fresh drawn, branchIds_eq hs hsubset hnodup
      (hpath.within (fun x hx => hmore x (hpath.subset x hx))) _ drawn⟩

/-! The steps. -/

theorem append_one (file : File) (value : Value) :
    file.append [value] = ⟨file.lines ++ [file.firstLine value], none⟩ := rfl

section Advance

variable {env : Environment} {session next : Session} {flushed : Bool} {disk : Option File}
  {written lost : List String} {op : Operation} {entry : Entry}

theorem advance_refused {message : String}
    (hop : perform env r.store.manager.session op = .error message) (outcome : Outcome) :
    advance env r (op, outcome) = r := by simp only [advance, step, hop]

theorem advance_moved (hop : perform env r.store.manager.session op = .ok (next, none))
    (outcome : Outcome) : advance env r (op, outcome) =
      { r with store := { r.store with manager := { r.store.manager with session := next } } } := by
  simp only [advance, step, hop]

theorem advance_deferred (hop : perform env session op = .ok (next, some entry))
    (hconversation : hasConversation next = false) (outcome : Outcome) :
    advance env ⟨⟨⟨session, true, false⟩, disk⟩, written, lost⟩ (op, outcome) =
      ⟨⟨⟨next, true, false⟩, disk⟩, written, lost⟩ := by
  simp [advance, step, hop, persistEntry, planPersist, hconversation]

theorem advance_flush (hop : perform env session op = .ok (next, some entry))
    (hconversation : hasConversation next = true) :
    advance env ⟨⟨⟨session, true, false⟩, none⟩, written, lost⟩ (op, .done) =
      ⟨⟨⟨next, true, true⟩, some ⟨fileLines next, none⟩⟩,
        written ++ next.entries.map Entry.id, lost⟩ := by
  have hfile : File.empty.append (sessionLines next) = ⟨fileLines next, none⟩ := by
    rw [File.empty, append_terminated, map_sessionLines, nil_append]
  simp [advance, step, hop, persistEntry, planPersist, hconversation, writeSessionBytes, hfile,
    entriesWritten]

theorem advance_flushRaised (hop : perform env session op = .ok (next, some entry))
    (hconversation : hasConversation next = true) (created : Bool) (whole : Nat) (torn : Torn) :
    advance env ⟨⟨⟨session, true, false⟩, none⟩, written, lost⟩
        (op, .raised created whole torn) =
      ⟨⟨⟨next, true, false⟩,
        if created then some (File.empty.appendPart (sessionLines next) whole torn) else none⟩,
        written, lost⟩ := by
  cases created <;>
    simp [advance, step, hop, persistEntry, planPersist, hconversation, writeSessionBytes]

theorem advance_append (hop : perform env session op = .ok (next, some entry)) (file : File) :
    advance env ⟨⟨⟨session, true, true⟩, some file⟩, written, lost⟩ (op, .done) =
      ⟨⟨⟨next, true, true⟩,
        some ⟨file.lines ++ [file.firstLine (dumpJson (entryToWire entry))], none⟩⟩,
        written ++ [entry.id], lost⟩ := by
  simp [advance, step, hop, persistEntry, planPersist, writeSessionBytes, entriesWritten,
    append_one]

theorem advance_appendRaised (hop : perform env session op = .ok (next, some entry))
    (file : File) (created : Bool) (whole : Nat) (torn : Torn) :
    advance env ⟨⟨⟨session, true, true⟩, some file⟩, written, lost⟩
        (op, .raised created whole torn) =
      ⟨⟨⟨next, true, true⟩,
        some (file.appendPart [dumpJson (entryToWire entry)] whole torn)⟩, written,
        if 0 < whole ∧ file.tail = none then lost else lost ++ [entry.id]⟩ := by
  simp only [advance, step, hop, persistEntry, planPersist, writeSessionBytes, lineLanded]
  by_cases hwhole : 0 < whole <;> cases htail : file.tail <;> simp [hwhole, htail]

end Advance

theorem perform_parent (h : perform env s op = .ok (next, some entry)) :
    entry.parentId = parentOf s op := by
  have hpayload := perform_payload h
  rcases perform_cases h with ⟨hnone, -⟩ | ⟨e, he, hstep⟩
  · cases hnone
  · cases he
    rcases hstep.child with hchild | ⟨fromId, summary, details, usage, fromHook, hsummary⟩
    · cases op with
      | branchWithSummary now branchFromId summary details fromHook usage =>
        simp only [perform, branchWithSummary] at h
        split at h
        · cases h
        · obtain rfl := Option.some.inj (Prod.mk.inj (Except.ok.inj h)).2
          rfl
      | _ => exact hchild
    · rw [hsummary] at hpayload
      cases op with
      | branchWithSummary now branchFromId summary details fromHook usage =>
        simp only [perform, branchWithSummary] at h
        split at h
        · cases h
        · obtain rfl := Option.some.inj (Prod.mk.inj (Except.ok.inj h)).2
          rfl
      | appendContextEdit now targetId replacement =>
        obtain ⟨target, -, hedit⟩ := Option.map_eq_some_iff.mp hpayload
        cases hedit
      | _ => cases hpayload

theorem rootPath_appended (hs : Consistent env s) (h : perform env s op = .ok (next, some entry)) :
    RootPath next.entries entry (parentChain s op ++ [entry]) := by
  have hparent := perform_parent h
  have hentries := (perform_entries h).1
  have hmem : entry ∈ next.entries := by rw [hentries]; simp
  have hnext := (perform_consistent hs h).grown
  unfold parentChain
  cases hof : parentOf s op with
  | none => exact .root hmem (hparent.trans hof)
  | some id =>
    have hid : id ∈ ids s.entries := by
      rcases perform_cases h with ⟨hnone, -⟩ | ⟨e, he, hstep⟩
      · cases hnone
      · cases he
        exact hstep.parent_mem hs (hparent.trans hof)
    obtain ⟨p, hp, rfl⟩ := mem_map.mp hid
    obtain ⟨path, hpath⟩ := hs.grown.exists_rootPath hp
    have hbranch : getBranch s (some (nodeId p)) = path := hs.getBranch_eq hpath
    dsimp only
    rw [hbranch]
    refine .child hmem (hparent.trans hof) ?_
    rw [hentries]
    exact hpath.mono _

theorem Sound.accepts (h : Sound env r) : Accepts env r.store := by
  obtain ⟨⟨⟨session, persist, flushed⟩, disk⟩, written, lost⟩ := r
  obtain ⟨-, -, rfl, hdeferred, hlanded⟩ := h
  intro op entry hraised
  dsimp only at hdeferred hlanded
  cases hop : perform env session op with
  | error message => simp [step, hop] at hraised
  | ok result =>
    obtain ⟨next, appended⟩ := result
    cases appended with
    | none => simp [step, hop] at hraised
    | some appended =>
      cases disk with
      | none =>
        obtain ⟨rfl, -, -⟩ := hdeferred rfl
        cases hconversation : hasConversation next <;>
          simp [step, hop, persistEntry, planPersist, hconversation, writeSessionBytes] at hraised
      | some file =>
        obtain ⟨rfl, -⟩ := hlanded file rfl
        simp [step, hop, persistEntry, planPersist, writeSessionBytes] at hraised

section Append

variable {env : Environment} {s next : Session} {op : Operation} {entry : Entry}
  {written lost : List String} {file : File} {landed : List Entry}

theorem fresh_of_perform (hs : Consistent env s)
    (hop : perform env s op = .ok (next, some entry)) : entry.id ∉ ids s.entries := by
  rcases perform_cases hop with ⟨hnone, -⟩ | ⟨e, he, hstep⟩
  · cases hnone
  · cases he
    exact hstep.fresh hs

theorem landed_fileLines (hs : Consistent env s) :
    Landed s (s.entries.map Entry.id) [] ⟨fileLines s, none⟩ s.entries where
  subset _ h := h
  nodup := hs.grown.nodup_ids
  lines := by
    have hholds := holds_fileLines s
    rwa [Holds, Option.toList_none, append_nil] at hholds
  tail := nofun
  complete _ h hnot := absurd h hnot
  lost := nofun
  written id hid := by
    obtain ⟨entry, hentry, rfl⟩ := mem_map.mp hid
    obtain ⟨path, hpath⟩ := hs.grown.exists_rootPath hentry
    exact ⟨entry, path, rfl, hpath⟩

theorem Landed.append (h : Landed s written lost file landed) (hs : Consistent env s)
    (hop : perform env s op = .ok (next, some entry))
    (hchain : ∀ other ∈ parentChain s op, other.id ∉ lost) :
    Landed next (written ++ [entry.id]) lost ⟨file.lines ++ [entryLine entry], none⟩
      (landed ++ [entry]) := by
  obtain ⟨hentries, hheader⟩ := perform_entries hop
  have hpath := rootPath_appended hs hop
  refine (h.land (fresh_of_perform hs hop) hentries hheader).acknowledge ?_
  intro id hid
  rw [mem_singleton.mp hid]
  refine ⟨entry, _, rfl, hpath.within ?_⟩
  intro x hx
  rcases mem_append.mp hx with habove | hlast
  · refine mem_append_left _ ?_
    have hx' : x ∈ s.entries := by
      have hmem := hpath.subset x hx
      rw [hentries] at hmem
      rcases mem_append.mp hmem with hold | hlast
      · exact hold
      · have hnodup := hpath.nodup (perform_consistent hs hop).grown
        rw [mem_singleton.mp hlast] at habove
        rw [nodup_append] at hnodup
        exact absurd rfl (hnodup.2.2 entry habove entry (by simp))
    by_contra hnot
    exact hchain x habove (h.complete x hx' hnot)
  · exact mem_append_right _ hlast

theorem Landed.appendRaised (h : Landed s written lost file landed) (hs : Consistent env s)
    (hop : perform env s op = .ok (next, some entry)) (whole : Nat) (torn : Torn) :
    ∃ landed', Landed next written
      (if 0 < whole ∧ file.tail = none then lost else lost ++ [entry.id])
      (file.appendPart [dumpJson (entryToWire entry)] whole torn) landed' := by
  obtain ⟨hentries, hheader⟩ := perform_entries hop
  have hfresh := fresh_of_perform hs hop
  have hmalformed : ∀ lines : List Line, (lines ++ [Line.malformed]).filterMap lineValue =
      lines.filterMap lineValue := by
    intro lines
    rw [filterMap_append, filterMap_cons_none rfl, filterMap_nil, append_nil]
  cases whole with
  | zero =>
    rw [if_neg (by simp)]
    refine ⟨landed, h.lose hfresh hentries hheader ?_ ?_⟩
    · cases torn <;> rfl
    · intro line hline
      cases torn with
      | nothing => exact .inr (.inl hline)
      | begun =>
        cases hline
        exact .inl rfl
      | unterminated =>
        cases hline
        change lineValue (file.firstLine _) = none ∨ _
        cases htail : file.tail with
        | none =>
          refine .inr (.inr ?_)
          change file.firstLine _ = _
          simp [File.firstLine, htail, entryLine]
        | some tail => exact .inl (by simp [File.firstLine, htail, lineValue])
  | succ whole =>
    have hpart : file.appendPart [dumpJson (entryToWire entry)] (whole + 1) torn =
        ⟨file.lines ++ [file.firstLine (dumpJson (entryToWire entry))], none⟩ := by
      simp [File.appendPart, append_one]
    rw [hpart]
    cases htail : file.tail with
    | none =>
      have hline : file.firstLine (dumpJson (entryToWire entry)) = entryLine entry := by
        simp [File.firstLine, htail, entryLine]
      rw [hline, if_pos ⟨by omega, rfl⟩]
      exact ⟨_, h.land hfresh hentries hheader⟩
    | some tail =>
      have hline : file.firstLine (dumpJson (entryToWire entry)) = .malformed := by
        simp [File.firstLine, htail]
      rw [hline, if_neg (by simp)]
      exact ⟨landed, h.lose hfresh hentries hheader (hmalformed file.lines) (fun _ h => by cases h)⟩

end Append

theorem Sound.advance (h : Sound env r) (input : Operation × Outcome)
    (htyped : TypedOperation input.1) (hmeets : Meets env r input) :
    Sound env (advance env r input) := by
  obtain ⟨op, outcome⟩ := input
  cases hop : perform env r.store.manager.session op with
  | error message => rwa [advance_refused hop]
  | ok result =>
    obtain ⟨next, appended⟩ := result
    have hreach := h.reachable.step op hop
    obtain ⟨hentries, hheader⟩ := perform_entries hop
    cases appended with
    | none =>
      rw [Option.toList_none, append_nil] at hentries
      rw [advance_moved hop]
      refine ⟨hreach, ?_, h.persist, h.deferred, fun file hfile => ?_⟩
      · change ∀ entry ∈ next.entries, _
        rw [hentries]
        exact h.typed
      · obtain ⟨hflushed, landed, hlanded⟩ := h.landed file hfile
        exact ⟨hflushed, landed, hlanded.congr hentries hheader⟩
    | some entry =>
      have hs := reachable_consistent h.reachable
      have hnext : ∀ other ∈ next.entries, TypedPayload other.payload := by
        intro other hother
        rw [hentries] at hother
        rcases mem_append.mp hother with hold | hlast
        · exact h.typed other hold
        · rw [mem_singleton.mp hlast]
          exact perform_typed htyped hop
      obtain ⟨⟨⟨session, persist, flushed⟩, disk⟩, written, lost⟩ := r
      obtain ⟨-, -, hpersist, hdeferred, hlanded⟩ := h
      dsimp only at hop hs hpersist hdeferred hlanded hentries hheader
      subst hpersist
      cases disk with
      | none =>
        obtain ⟨rfl, rfl, rfl⟩ := hdeferred rfl
        cases hconversation : hasConversation next with
        | false =>
          rw [advance_deferred hop hconversation]
          exact ⟨hreach, hnext, rfl, fun _ => ⟨rfl, rfl, rfl⟩, (fun _ h => by cases h)⟩
        | true =>
          cases outcome with
          | done =>
            rw [advance_flush hop hconversation]
            refine ⟨hreach, hnext, rfl, (fun h => by cases h), fun file hfile => ⟨rfl, next.entries, ?_⟩⟩
            cases hfile
            exact landed_fileLines (reachable_consistent hreach)
          | raised created whole torn =>
            have hcreated : created = false := by
              simpa [Meets, plannedMode, hop, planPersist, hconversation] using hmeets
            rw [advance_flushRaised hop hconversation, hcreated]
            exact ⟨hreach, hnext, rfl, fun _ => ⟨rfl, rfl, rfl⟩, (fun _ h => by cases h)⟩
      | some file =>
        obtain ⟨rfl, landed, hfile⟩ := hlanded file rfl
        cases outcome with
        | done =>
          obtain ⟨hclean, hchain⟩ : file.tail = none ∧
              ∀ other ∈ parentChain session op, other.id ∉ lost := by
            simpa [Meets, plannedMode, hop, planPersist] using hmeets
          have hline : file.firstLine (dumpJson (entryToWire entry)) = entryLine entry := by
            simp [File.firstLine, hclean, entryLine]
          rw [advance_append hop, hline]
          refine ⟨hreach, hnext, rfl, (fun h => by cases h), fun other hother => ⟨rfl, landed ++ [entry], ?_⟩⟩
          cases hother
          exact hfile.append hs hop hchain
        | raised created whole torn =>
          rw [advance_appendRaised hop]
          refine ⟨hreach, hnext, rfl, (fun h => by cases h), fun other hother => ⟨rfl, ?_⟩⟩
          cases hother
          exact hfile.appendRaised hs hop whole torn

theorem Sound.intact (h : Sound env r) : Intact env r :=
  ⟨h.readable, h.accepts⟩

/-! The steps that do not meet the condition. -/

/-- A file left behind by a first flush that raised refuses every later one. -/
theorem not_accepts_of_stuck (env : Environment) (hconversation : hasConversation s = true)
    (file : File) : ¬ Accepts env ⟨⟨s, true, false⟩, some file⟩ := by
  intro haccepts
  have hop : perform env s (.appendMessage "" (.user ⟨.text "", 0⟩)) =
      .ok (appended (appendMessage env s "" (.user ⟨.text "", 0⟩))) := rfl
  have htalks : hasConversation (appendMessage env s "" (.user ⟨.text "", 0⟩)).1 = true := by
    rw [hasConversation_append s _ _ (perform_entries hop).1, hconversation, Bool.true_or]
  refine haccepts (.appendMessage "" (.user ⟨.text "", 0⟩))
    (appendMessage env s "" (.user ⟨.text "", 0⟩)).2 ?_
  simp [step, hop, appended, persistEntry, planPersist, htalks, writeSessionBytes]

theorem not_readable_of_missing {file : File} (hdisk : r.store.disk = some file)
    (hholds : Holds file header entries) (htyped : ∀ entry ∈ entries, TypedPayload entry.payload)
    (hnodup : (ids entries).Nodup) {missing : String} (hwritten : id ∈ r.written)
    (hbranch : missing ∈ (getBranch r.store.manager.session (some id)).map Entry.id)
    (hmissing : missing ∉ ids entries) : ¬ Readable r := by
  intro hreadable
  obtain ⟨reopened, hok, heq⟩ := hreadable id hwritten header 0
  rw [hdisk, setSessionFile_of_holds hholds htyped] at hok
  cases hok
  rw [← heq] at hbranch
  exact hmissing (branchIds_loaded hnodup missing hbranch)

theorem Sound.not_intact (h : Sound env r) (input : Operation × Outcome)
    (htyped : TypedOperation input.1) (hfails : ¬ Meets env r input) :
    ¬ Intact env (WriteFailure.advance env r input) := by
  obtain ⟨op, outcome⟩ := input
  have hnext : ∀ next entry, perform env r.store.manager.session op = .ok (next, some entry) →
      ∀ other ∈ next.entries, TypedPayload other.payload := by
    intro next entry hop other hother
    rw [(perform_entries hop).1] at hother
    rcases mem_append.mp hother with hold | hlast
    · exact h.typed other hold
    · rw [mem_singleton.mp hlast]
      exact perform_typed htyped hop
  have hs := reachable_consistent h.reachable
  obtain ⟨⟨⟨session, persist, flushed⟩, disk⟩, written, lost⟩ := r
  obtain ⟨-, -, hpersist, hdeferred, hlanded⟩ := h
  dsimp only at hs hpersist hdeferred hlanded hnext
  subst hpersist
  cases hop : perform env session op with
  | error message => simp [Meets, plannedMode, hop] at hfails
  | ok result =>
    obtain ⟨next, appended⟩ := result
    cases appended with
    | none => simp [Meets, plannedMode, hop] at hfails
    | some entry =>
      obtain ⟨hentries, hheader⟩ := perform_entries hop
      cases disk with
      | none =>
        obtain ⟨rfl, -, -⟩ := hdeferred rfl
        cases hconversation : hasConversation next with
        | false => simp [Meets, plannedMode, hop, planPersist, hconversation] at hfails
        | true =>
          cases outcome with
          | done => simp [Meets, plannedMode, hop, planPersist, hconversation] at hfails
          | raised created whole torn =>
            have hcreated : created = true := by
              simpa [Meets, plannedMode, hop, planPersist, hconversation] using hfails
            rw [advance_flushRaised hop hconversation, hcreated, if_pos rfl]
            exact fun hintact => not_accepts_of_stuck env hconversation _ hintact.2
      | some file =>
        obtain ⟨rfl, landed, hfile⟩ := hlanded file rfl
        cases outcome with
        | raised created whole torn => simp [Meets, plannedMode, hop, planPersist] at hfails
        | done =>
          have hfresh := fresh_of_perform hs hop
          have hpath := rootPath_appended hs hop
          have hbranch := (perform_consistent hs hop).getBranch_eq hpath
          rw [advance_append hop]
          have hmem : entry.id ∈ written ++ [entry.id] := by simp
          intro hintact
          cases htail : file.tail with
          | some tail =>
            -- The line continues the torn one, so the file does not gain the entry.
            have hline : file.firstLine (dumpJson (entryToWire entry)) = .malformed := by
              simp [File.firstLine, htail]
            have hholds : Holds ⟨file.lines ++ [Line.malformed], none⟩ session.header landed := by
              rw [Holds, Option.toList_none, append_nil, filterMap_append,
                filterMap_cons_none rfl, filterMap_nil, append_nil]
              exact hfile.lines
            have hlast : entry.id ∈ (getBranch next (some entry.id)).map Entry.id := by
              rw [hbranch]
              simp
            rw [hline] at hintact
            exact not_readable_of_missing rfl hholds
              (fun other hother => hnext next entry hop other (by
                rw [hentries]
                exact mem_append_left _ (hfile.subset other hother)))
              hfile.nodup hmem hlast (hfile.fresh hfresh) hintact.1
          | none =>
            obtain ⟨other, hother, hlost⟩ : ∃ other ∈ parentChain session op, other.id ∈ lost := by
              simpa [Meets, plannedMode, hop, planPersist, htail] using hfails
            have hline : file.firstLine (dumpJson (entryToWire entry)) = entryLine entry := by
              simp [File.firstLine, htail, entryLine]
            have hland := hfile.land hfresh hentries hheader
            have hholds : Holds ⟨file.lines ++ [entryLine entry], none⟩ next.header
                (landed ++ [entry]) := by
              rw [Holds, Option.toList_none, append_nil]
              exact hland.lines
            have habove : other.id ∈ (getBranch next (some entry.id)).map Entry.id := by
              rw [hbranch]
              exact mem_map_of_mem (mem_append_left _ hother)
            rw [hline] at hintact
            exact not_readable_of_missing rfl hholds
              (fun other hother => hnext next entry hop other (hland.subset other hother))
              hland.nodup hmem habove (hland.lost other.id hlost).2 hintact.1

theorem sound_start (env : Environment) {disk : Option File} {store : Store}
    (hdisk : disk = none ∨ disk = some .empty)
    (hstart : setSessionFile disk header drawn = .ok store) : Sound env ⟨store, [], []⟩ := by
  rcases hdisk with rfl | rfl
  · cases hstart
    exact ⟨.start header drawn, fun _ h => by simp [newSession] at h, rfl,
      fun _ => ⟨rfl, rfl, rfl⟩, (fun _ h => by cases h)⟩
  · cases hstart
    refine ⟨.start header drawn, fun _ h => by simp [newSession] at h, rfl, (fun h => by cases h),
      fun file hfile => ⟨rfl, [], ?_⟩⟩
    cases hfile
    exact landed_fileLines (consistent_newSession env header drawn)

/-- In every run, each written entry stays readable and no later append is refused, in every
state, exactly when each step meets the condition. -/
theorem writes_intact_iff (env : Environment) {disk : Option File} {header : SessionHeader}
    {drawn : Nat} {store : Store} (hdisk : disk = none ∨ disk = some .empty)
    (hstart : setSessionFile disk header drawn = .ok store)
    (inputs : List (Operation × Outcome)) (hinputs : ∀ input ∈ inputs, TypedOperation input.1) :
    (∀ r ∈ Runs.states (advance env) ⟨store, [], []⟩ inputs, Intact env r) ↔
      Runs.Along (advance env) (Meets env) ⟨store, [], []⟩ inputs :=
  Runs.good_iff_along (fun _ h => h.intact)
    (fun _ input hallowed h hmeets => h.advance input hallowed hmeets)
    (fun _ input hallowed h hfails => h.not_intact input hallowed hfails)
    (sound_start env hdisk hstart) hinputs

def unwritten : Store := ⟨⟨newSession ⟨"s", "t", "/", none⟩ 0, true, false⟩, none⟩

def say (text : String) : Operation := .appendMessage "t" (.user ⟨.text text, 0⟩)

/-- A first flush that cannot create the file is retried, and an append that raises after its
line leaves nothing out. -/
theorem writes_intact_iff_retried :
    setSessionFile none ⟨"s", "t", "/", none⟩ 0 = .ok unwritten ∧
    ∀ r ∈ Runs.states (advance plainEnvironment) ⟨unwritten, [], []⟩
      [(say "a", .raised false 0 .nothing), (say "b", .done), (say "c", .raised false 1 .nothing),
        (say "d", .done)], Intact plainEnvironment r :=
  ⟨rfl, (writes_intact_iff plainEnvironment (.inl rfl) rfl _ (by
    intro input hinput
    simp only [mem_cons, not_mem_nil, or_false] at hinput
    rcases hinput with rfl | rfl | rfl | rfl <;> exact trivial)).mpr (by
      refine ⟨rfl, trivial, trivial, ⟨rfl, ?_⟩, trivial⟩
      decide)⟩

/-- An append below an entry whose write raised: after a reload its branch is cut off. -/
theorem failed_append_cuts_branch :
    ¬ ∀ r ∈ Runs.states (advance plainEnvironment) ⟨unwritten, [], []⟩
      [(say "a", .done), (say "b", .raised false 0 .nothing), (say "c", .done)],
      Intact plainEnvironment r := by
  intro hall
  have hlast := hall _ (mem_cons_of_mem _ (mem_cons_of_mem _ (mem_cons_of_mem _
    mem_cons_self)))
  obtain ⟨reopened, hok, hbranch⟩ := hlast.1 "cccccccc" (by decide) ⟨"s", "t", "/", none⟩ 0
  cases hok
  exact absurd hbranch (by decide)

end Pidrei.WriteFailure
