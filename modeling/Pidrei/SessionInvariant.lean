import Pidrei.SessionManager

/-!
What every reachable session keeps in step: the entries grow as a tree with
fresh ids, the index holds exactly the entries in append order, the labels are
the replay of the label entries, and the leaf is an entry. One case analysis says
what an operation can do; the invariant follows from it.
-/
namespace Pidrei.SessionInvariant

open Values Messages Transcript SessionEntries SessionManager ParentLog TreeNode
open OrderedMap (contains empty get? keys)

def replayLabel (labels : OrderedMap String String) (entry : Entry) : OrderedMap String String :=
  match entry.payload with
  | .label targetId label => setLabel labels targetId label (label.getD "")
  | _ => labels

def replayLabelTimestamp (timestamps : OrderedMap String String) (entry : Entry) :
    OrderedMap String String :=
  match entry.payload with
  | .label targetId label => setLabel timestamps targetId label entry.timestamp
  | _ => timestamps

/-- Ids are short, or full uuids among the ones drawn. -/
def IdsDrawn (env : Environment) (known : List String) (drawn : Nat) : Prop :=
  ∀ id ∈ known, id.length = 8 ∨ ∃ n, n < drawn ∧ id = env.uuid n

structure Consistent (env : Environment) (s : Session) : Prop where
  grown : Grown s.entries
  index : s.byId.entries = s.entries.map (fun entry => (entry.id, entry))
  labels : s.labelsById = s.entries.foldl replayLabel empty
  timestamps : s.labelTimestampsById = s.entries.foldl replayLabelTimestamp empty
  leaf : ∀ id, s.leafId = some id → id ∈ ids s.entries
  drawn : IdsDrawn env (ids s.entries) s.drawn

theorem generateIdTries_spec (env : Environment) (existing : String → Bool) (tries drawn : Nat) :
    drawn < (generateIdTries env existing tries drawn).2 ∧
      ((generateIdTries env existing tries drawn).1.length = 8 ∧
          existing (generateIdTries env existing tries drawn).1 = false ∨
        ∃ n, drawn ≤ n ∧ n < (generateIdTries env existing tries drawn).2 ∧
          (generateIdTries env existing tries drawn).1 = env.uuid n) := by
  induction tries generalizing drawn with
  | zero => exact ⟨by simp [generateIdTries], .inr ⟨drawn, by simp [generateIdTries]⟩⟩
  | succ tries ih =>
    unfold generateIdTries
    dsimp only
    split
    · obtain ⟨hlt, hid⟩ := ih (drawn + 1)
      refine ⟨by omega, ?_⟩
      rcases hid with hshort | ⟨n, hle, hn, hid⟩
      · exact .inl hshort
      · exact .inr ⟨n, by omega, hn, hid⟩
    · rename_i hfree
      refine ⟨by simp, .inl ⟨?_, by simpa using hfree⟩⟩
      have hlong := env.uuid_long drawn
      rw [String.length_ofList, List.length_take, String.length_toList]
      omega

theorem generateId_fresh (env : Environment) (existing : String → Bool) (drawn : Nat)
    (known : List String) (hknown : IdsDrawn env known drawn)
    (hexisting : ∀ id ∈ known, existing id = true) :
    (generateId env existing drawn).1 ∉ known ∧
      drawn < (generateId env existing drawn).2 ∧
      IdsDrawn env [(generateId env existing drawn).1] (generateId env existing drawn).2 := by
  obtain ⟨hlt, hid⟩ := generateIdTries_spec env existing 100 drawn
  change drawn < (generateId env existing drawn).2 at hlt
  refine ⟨?_, hlt, ?_⟩
  · intro hmem
    rcases hid with ⟨-, hfree⟩ | ⟨n, hle, -, hid⟩
    · have htaken := hexisting _ hmem
      rw [generateId, hfree] at htaken
      exact Bool.false_ne_true htaken
    · have hlong := env.uuid_long n
      rw [generateId, hid] at hmem
      rcases hknown _ hmem with hshort | ⟨m, hm, heq⟩
      · omega
      · have hnm := env.uuid_injective heq
        omega
  · intro id hmem
    rw [List.mem_singleton.mp hmem]
    rcases hid with ⟨hshort, -⟩ | ⟨n, -, hn, hid⟩
    · exact .inl hshort
    · exact .inr ⟨n, hn, hid⟩

variable {known : List String} {drawn : Nat} {next : Session} {entry : Entry} {env : Environment}
  {s : Session} {op : Operation}

theorem IdsDrawn.mono {later : Nat} (h : IdsDrawn env known drawn) (hle : drawn ≤ later) :
    IdsDrawn env known later := by
  intro id hid
  rcases h id hid with hshort | ⟨n, hn, heq⟩
  · exact .inl hshort
  · exact .inr ⟨n, by omega, heq⟩

theorem IdsDrawn.append {more : List String} (h : IdsDrawn env known drawn)
    (h' : IdsDrawn env more drawn) : IdsDrawn env (known ++ more) drawn := by
  intro id hid
  rcases List.mem_append.mp hid with hid | hid
  · exact h id hid
  · exact h' id hid

theorem IdsDrawn.ne_empty (h : IdsDrawn env known drawn) {id : String} (hid : id ∈ known) :
    id ≠ "" := by
  rintro rfl
  rcases h "" hid with hshort | ⟨n, -, heq⟩
  · simp at hshort
  · have hlong := env.uuid_long n
    rw [← heq] at hlong
    simp at hlong

/-! The index. -/

section Index

variable {env : Environment} {s : Session}

theorem Consistent.keys_byId (h : Consistent env s) : s.byId.keys = ids s.entries := by
  simp only [keys, h.index, List.map_map, ids]
  rfl

theorem Consistent.get?_eq_some_iff (h : Consistent env s) (id : String) (entry : Entry) :
    s.byId.get? id = some entry ↔ entry ∈ s.entries ∧ entry.id = id := by
  rw [OrderedMap.get?_eq_some_iff_mem, h.index, List.mem_map]
  constructor
  · rintro ⟨other, hother, heq⟩
    cases heq
    exact ⟨hother, rfl⟩
  · rintro ⟨hentry, rfl⟩
    exact ⟨entry, hentry, rfl⟩

theorem Consistent.contains_iff (h : Consistent env s) (id : String) :
    s.byId.contains id = true ↔ id ∈ ids s.entries := by
  rw [contains, OrderedMap.get?_isSome_iff, h.keys_byId]

variable {entry : Entry} {path : List Entry}

theorem Consistent.get?_self (h : Consistent env s) (hentry : entry ∈ s.entries) :
    s.byId.get? entry.id = some entry := (h.get?_eq_some_iff _ _).mpr ⟨hentry, rfl⟩

theorem Consistent.findEntry_self (h : Consistent env s) (hentry : entry ∈ s.entries) :
    findEntry s.byId (some entry.id) = some entry := by
  have hne : entry.id ≠ "" := h.drawn.ne_empty (mem_ids hentry)
  simp only [findEntry]
  rw [if_neg hne, h.get?_self hentry]

theorem Consistent.follows (h : Consistent env s) : Follows (parentEntry s.byId) s.entries := by
  intro entry _
  refine ⟨fun hnone => ?_, fun parent hparent hid => ?_⟩
  · change entry.parentId = none at hnone
    rw [parentEntry, hnone]
    rfl
  · change entry.parentId = some parent.id at hid
    rw [parentEntry, hid]
    exact h.findEntry_self hparent

theorem Consistent.length_byId (h : Consistent env s) :
    s.byId.entries.length = s.entries.length := by rw [h.index, List.length_map]

theorem Consistent.walk_eq (h : Consistent env s) (hpath : RootPath s.entries entry path)
    (fuel : Nat) (hfuel : s.entries.length ≤ fuel) :
    walk (parentEntry s.byId) fuel (some entry) [] = some path := by
  have hlength := (hpath.sublist h.grown).length_le
  rw [walk_rootPath h.follows hpath fuel (by omega), List.append_nil]

theorem Consistent.followParents_eq (h : Consistent env s) (hpath : RootPath s.entries entry path) :
    followParents s.byId (some entry) = path := by
  rw [followParents, h.length_byId, h.walk_eq hpath _ (Nat.le_refl _)]
  rfl

theorem followParents_none (byId : OrderedMap String Entry) : followParents byId none = [] := by
  unfold followParents
  cases byId.entries.length <;> rfl

theorem Consistent.getBranch_eq (h : Consistent env s) (hpath : RootPath s.entries entry path) :
    getBranch s (some entry.id) = path := by
  simp only [getBranch, Option.some_or]
  rw [h.findEntry_self hpath.mem, h.followParents_eq hpath]

theorem Consistent.exists_leaf (h : Consistent env s) {id : String} (hleaf : s.leafId = some id) :
    ∃ leaf ∈ s.entries, leaf.id = id := List.mem_map.mp (h.leaf id hleaf)

theorem getBranch_leaf (s : Session) :
    getBranch s none = match s.leafId with
      | none => []
      | some id => getBranch s (some id) := by
  cases hleaf : s.leafId with
  | none =>
    simp only [getBranch, hleaf, Option.none_or]
    exact followParents_none _
  | some id => simp only [getBranch, hleaf, Option.none_or, Option.some_or]

theorem Consistent.buildSessionPath_eq (h : Consistent env s) :
    buildSessionPath s.entries (.given s.leafId) s.byId = getBranch s none := by
  cases hleaf : s.leafId with
  | none =>
    rw [getBranch_leaf, hleaf]
    rfl
  | some id =>
    obtain ⟨leaf, hmem, rfl⟩ := h.exists_leaf hleaf
    simp only [buildSessionPath, getBranch, hleaf, Option.none_or]
    rw [h.get?_self hmem, h.findEntry_self hmem, Option.some_or]

end Index

/-! What an operation can do. -/

/-- The session after an entry is appended, its label applied when it is one. -/
def appendIndexed (s : Session) (entry : Entry) (drawn : Nat) : Session :=
  { indexEntry s entry with entries := s.entries ++ [entry], drawn := drawn }

/-- Everything an appending operation does and has checked. -/
structure AppendStep (env : Environment) (s : Session) (entry : Entry) (next : Session) :
    Prop where
  id : entry.id = (generateId env s.byId.contains s.drawn).1
  parent : ∀ p, entry.parentId = some p → s.leafId = some p ∨ s.byId.contains p = true
  child : entry.parentId = s.leafId ∨
    ∃ fromId summary details usage fromHook,
      entry.payload = .branchSummary fromId summary details usage fromHook
  edit : ∀ targetId replacement, entry.payload = .contextEdit targetId replacement →
    (∃ target ∈ getBranch s none, target.id = targetId) ∧
      ∃ target, s.byId.get? targetId = some target ∧ isEditable target = true
  next : next = appendIndexed s entry (generateId env s.byId.contains s.drawn).2

theorem indexEntry_of_not_label (s : Session) (entry : Entry)
    (h : ∀ t l, entry.payload ≠ .label t l) :
    indexEntry s entry = { s with byId := s.byId.set entry.id entry, leafId := some entry.id } := by
  unfold indexEntry
  split
  · rename_i t l hpayload
    exact absurd hpayload (h t l)
  · rfl

theorem appendPayload_step (env : Environment) (s : Session) (now : String)
    (payload : String → Payload) (hlabel : ∀ id t l, payload id ≠ .label t l)
    (hedit : ∀ id t r, payload id = .contextEdit t r →
      (∃ target ∈ getBranch s none, target.id = t) ∧
        ∃ target, s.byId.get? t = some target ∧ isEditable target = true) :
    AppendStep env s (appendPayload env s now payload).2 (appendPayload env s now payload).1 where
  id := rfl
  parent := fun _ hp => .inl hp
  child := .inl rfl
  edit := fun t r h => hedit _ t r h
  next := by
    rw [appendIndexed, indexEntry_of_not_label s _ (hlabel _)]
    rfl

theorem perform_cases {entry : Option Entry} (h : perform env s op = .ok (next, entry)) :
    (entry = none ∧ ∃ leafId, next = { s with leafId := leafId } ∧
        ∀ id, leafId = some id → s.byId.contains id = true) ∨
      ∃ e, entry = some e ∧ AppendStep env s e next := by
  cases op with
  | appendMessage | appendThinkingLevelChange | appendModelChange | appendUsage | appendCompaction
    | appendCustomEntry | appendSessionInfo | appendCustomMessageEntry =>
    cases h
    exact .inr ⟨_, rfl, appendPayload_step env s _ _ (by simp) (by simp)⟩
  | appendContextEdit now targetId replacement =>
    simp only [perform, appendContextEdit] at h
    split at h
    · cases h
    · split at h
      · cases h
      · rename_i target htarget
        split at h
        · cases h
        · rename_i hbranch
          split at h
          · cases h
          · rename_i heditable
            cases h
            refine .inr ⟨_, rfl, appendPayload_step env s now _ (by simp) ?_⟩
            intro _ t r heq
            obtain ⟨rfl, -⟩ := Payload.contextEdit.inj heq
            exact ⟨by simpa using hbranch, target, htarget, by simpa using heditable⟩
  | appendLabelChange now targetId label =>
    simp only [perform, appendLabelChange] at h
    split at h
    · cases h
    · cases h
      exact .inr ⟨_, rfl, ⟨rfl, fun _ hp => .inl hp, .inl rfl, (fun _ _ h => by cases h), rfl⟩⟩
  | branch branchFromId =>
    simp only [perform, branch] at h
    split at h
    · cases h
    · rename_i hfound
      cases h
      refine .inl ⟨rfl, _, rfl, ?_⟩
      intro id hid
      rw [← Option.some.inj hid]
      simpa using hfound
  | resetLeaf =>
    cases h
    exact .inl ⟨rfl, none, rfl, (fun _ h => by cases h)⟩
  | branchWithSummary now branchFromId summary details fromHook usage =>
    simp only [perform, branchWithSummary] at h
    split at h
    · cases h
    · rename_i hfound
      cases h
      refine .inr ⟨_, rfl, ⟨rfl, ?_, .inr ⟨_, _, _, _, _, rfl⟩, (fun _ _ h => by cases h), rfl⟩⟩
      rintro p hp
      change branchFromId = some p at hp
      subst hp
      exact .inr (by simpa using hfound)

/-! The invariant. -/

theorem consistent_newSession (env : Environment) (header : SessionHeader) (drawn : Nat) :
    Consistent env (newSession header drawn) :=
  ⟨.nil, rfl, rfl, rfl, nofun, nofun⟩

theorem indexEntry_labels (s : Session) (entry : Entry) :
    (indexEntry s entry).labelsById = replayLabel s.labelsById entry := by
  unfold indexEntry replayLabel
  split <;> simp_all

theorem indexEntry_timestamps (s : Session) (entry : Entry) :
    (indexEntry s entry).labelTimestampsById =
      replayLabelTimestamp s.labelTimestampsById entry := by
  unfold indexEntry replayLabelTimestamp
  split <;> simp_all

theorem indexEntry_byId (s : Session) (entry : Entry) :
    (indexEntry s entry).byId = s.byId.set entry.id entry := by
  unfold indexEntry
  split <;> rfl

theorem indexEntry_leafId (s : Session) (entry : Entry) :
    (indexEntry s entry).leafId = some entry.id := by
  unfold indexEntry
  split <;> rfl

theorem indexEntry_header (s : Session) (entry : Entry) :
    (indexEntry s entry).header = s.header := by
  unfold indexEntry
  split <;> rfl

theorem Consistent.appendIndexed (h : Consistent env s) (hfresh : entry.id ∉ ids s.entries)
    (hparent : ∀ p, entry.parentId = some p → p ∈ ids s.entries) (hle : s.drawn ≤ drawn)
    (hdrawn : IdsDrawn env [entry.id] drawn) : Consistent env (appendIndexed s entry drawn) where
  grown := .snoc h.grown hfresh hparent
  index := by
    have hkeys : entry.id ∉ s.byId.keys := by rwa [h.keys_byId]
    have hentries := OrderedMap.entries_set_of_notMem s.byId entry.id entry hkeys
    change (indexEntry s entry).byId.entries = (s.entries ++ [entry]).map _
    rw [indexEntry_byId, hentries, h.index]
    simp
  labels := by
    change (indexEntry s entry).labelsById = (s.entries ++ [entry]).foldl replayLabel _
    rw [indexEntry_labels, h.labels, List.foldl_append]
    rfl
  timestamps := by
    change (indexEntry s entry).labelTimestampsById =
      (s.entries ++ [entry]).foldl replayLabelTimestamp _
    rw [indexEntry_timestamps, h.timestamps, List.foldl_append]
    rfl
  leaf := by
    intro id hid
    change (indexEntry s entry).leafId = some id at hid
    rw [indexEntry_leafId] at hid
    change id ∈ ids (s.entries ++ [entry])
    rw [← Option.some.inj hid]
    exact mem_ids (by simp)
  drawn := by
    change IdsDrawn env (ids (s.entries ++ [entry])) drawn
    rw [ids_append]
    exact (h.drawn.mono hle).append hdrawn

theorem AppendStep.fresh (h : Consistent env s) (hstep : AppendStep env s entry next) :
    entry.id ∉ ids s.entries := by
  rw [hstep.id]
  exact (generateId_fresh env s.byId.contains s.drawn (ids s.entries) h.drawn
    (fun id hid => (h.contains_iff id).mpr hid)).1

theorem AppendStep.parent_mem (h : Consistent env s) (hstep : AppendStep env s entry next)
    {p : String} (hp : entry.parentId = some p) : p ∈ ids s.entries := by
  rcases hstep.parent p hp with hleaf | hfound
  · exact h.leaf p hleaf
  · exact (h.contains_iff p).mp hfound

theorem AppendStep.consistent (h : Consistent env s) (hstep : AppendStep env s entry next) :
    Consistent env next := by
  obtain ⟨-, hle, hdrawn⟩ := generateId_fresh env s.byId.contains s.drawn (ids s.entries) h.drawn
    (fun id hid => (h.contains_iff id).mpr hid)
  rw [hstep.next]
  rw [← hstep.id] at hdrawn
  exact h.appendIndexed (hstep.fresh h) (fun p hp => hstep.parent_mem h hp) (by omega) hdrawn

theorem Consistent.moveLeaf (h : Consistent env s) {leafId : Option String}
    (hleaf : ∀ id, leafId = some id → s.byId.contains id = true) :
    Consistent env { s with leafId := leafId } :=
  ⟨h.grown, h.index, h.labels, h.timestamps,
    fun id hid => (h.contains_iff id).mp (hleaf id hid), h.drawn⟩

theorem perform_consistent {entry : Option Entry} (h : Consistent env s)
    (hop : perform env s op = .ok (next, entry)) : Consistent env next := by
  rcases perform_cases hop with ⟨-, leafId, rfl, hleaf⟩ | ⟨e, -, hstep⟩
  · exact h.moveLeaf hleaf
  · exact hstep.consistent h

theorem consistent_buildIndex (env : Environment) (header : SessionHeader) (entries : List Entry)
    (drawn : Nat) (hgrown : Grown entries) (hdrawn : IdsDrawn env (ids entries) drawn) :
    Consistent env (buildIndex header entries drawn) := by
  have hfold : ∀ entries, Grown entries → IdsDrawn env (ids entries) drawn →
      Consistent env { entries.foldl indexEntry (newSession header drawn) with
        entries := entries, drawn := drawn } := by
    intro entries hgrown
    induction hgrown with
    | nil => exact fun _ => consistent_newSession env header drawn
    | @snoc log e _ fresh parent ih =>
      intro hids
      rw [ids_append] at hids
      have hlog := ih (fun id hid => hids id (List.mem_append_left _ hid))
      have hlast : IdsDrawn env [e.id] drawn := fun id hid => hids id (List.mem_append_right _ hid)
      have hnext := hlog.appendIndexed fresh parent (Nat.le_refl _) hlast
      have heq : SessionInvariant.appendIndexed
          { log.foldl indexEntry (newSession header drawn) with entries := log, drawn := drawn }
          e drawn =
        { (log ++ [e]).foldl indexEntry (newSession header drawn) with
          entries := log ++ [e], drawn := drawn } := by
        rw [List.foldl_append]
        simp only [SessionInvariant.appendIndexed, List.foldl_cons, List.foldl_nil]
        unfold indexEntry
        cases e.payload <;> rfl
      rwa [heq] at hnext
  have hdrawn' : ∀ (entries : List Entry) (s : Session),
      (entries.foldl indexEntry s).drawn = s.drawn := by
    intro entries
    induction entries with
    | nil => exact fun _ => rfl
    | cons e rest ih =>
      intro s
      rw [List.foldl_cons, ih]
      unfold indexEntry
      cases e.payload <;> rfl
  have hsession := hfold entries hgrown hdrawn
  have heq : buildIndex header entries drawn =
      { entries.foldl indexEntry (newSession header drawn) with
        entries := entries, drawn := drawn } := by
    have hd := hdrawn' entries (newSession header drawn)
    unfold buildIndex
    generalize entries.foldl indexEntry (newSession header drawn) = built at hd ⊢
    change built.drawn = drawn at hd
    rw [← hd]
  rw [heq]
  exact hsession

end Pidrei.SessionInvariant
