import Pidrei.FileTracking

/-!
Summarizing an abandoned branch. The entries between the old leaf and the common
ancestor with the target are collected; a first pass takes the file lists of the
summaries among them, a second pass goes from the newest entry back and keeps
messages until the budget is reached. The second pass never sees a tool result,
and the calls of what lies behind the stop are lost.
-/
namespace Pidrei.BranchSummary

open Values Messages Transcript SessionEntries SessionManager SessionInvariant Compaction List
open BranchExtraction FileTracking ParentLog
open Option (bind_eq_some_iff map_eq_some_iff some)

/-! ### Collecting the entries -/

structure CollectEntriesResult where
  entries : List Entry
  commonAncestorId : Option String

/-- The test of the loop and the entry it reads: `None`, the empty id and the common
ancestor stop it, and so does an unknown id. -/
def entryBelow (byId : OrderedMap String Entry) (commonAncestorId current : Option String) :
    Option Entry :=
  if current = commonAncestorId then none else findEntry byId current

def collectEntriesForBranchSummary (s : Session) (oldLeafId : Option String) (targetId : String) :
    CollectEntriesResult :=
  if oldLeafId.getD "" = "" then ⟨[], none⟩
  else
    let oldPath := (getBranch s oldLeafId).map Entry.id
    let commonAncestorId := ((getBranch s (some targetId)).reverse.find?
      fun entry => entry.id ∈ oldPath).map Entry.id
    let below := entryBelow s.byId commonAncestorId
    ⟨(walk (fun entry => below entry.parentId) s.byId.entries.length (below oldLeafId) []).getD [],
      commonAncestorId⟩

/-! ### Preparing the messages -/

/-- `_get_message_from_entry`: tool results are skipped, summaries are messages. -/
def getMessageFromEntry (env : Environment) (entry : Entry) : Option Message :=
  match entry.payload with
  | .message (.toolResult _) => none
  | .message message => some message
  | .customMessage customType content display details =>
    some (createCustomMessage customType content display details (toEpochMs env entry.timestamp))
  | .branchSummary fromId summary _ _ _ =>
    some (createBranchSummaryMessage summary (some fromId) (toEpochMs env entry.timestamp))
  | .compaction summary _ tokensBefore _ _ _ _ =>
    some (createCompactionSummaryMessage summary tokensBefore (toEpochMs env entry.timestamp))
  | _ => none

def summaryLists (entry : Entry) : Option Value × Option Value :=
  match entry.payload with
  | .branchSummary _ _ (.dict fields) _ _ =>
    (fields.lookup "readFiles", fields.lookup "modifiedFiles")
  | _ => (none, none)

/-- The first pass reads the summaries that no hook made. -/
def isOwnSummary (entry : Entry) : Bool :=
  match entry.payload with
  | .branchSummary _ _ _ _ fromHook => fromHook != some true
  | _ => false

/-- One round of the first pass; `none` is the exception for a file that is no hashable value. -/
def collectSummary (fileOps : FileOperations) (entry : Entry) : Option FileOperations :=
  if isOwnSummary entry then do
    let read ← updateFiles (summaryLists entry).1 fileOps.read
    let edited ← updateFiles (summaryLists entry).2 fileOps.edited
    return { fileOps with read, edited }
  else some fileOps

structure BranchPreparation where
  messages : List Message
  fileOps : FileOperations
  totalTokens : Nat

def isSummaryEntry (entry : Entry) : Bool :=
  match entry.payload with
  | .compaction .. | .branchSummary .. => true
  | _ => false

section Prepare

variable (env : Environment) (stringify : Value → String) (fitsAnyway : Nat → Int → Bool)

/-- The second pass over the entries, newest first. `fitsAnyway` is the comparison
`total_tokens < token_budget * 0.9`, which is made on floating point numbers. -/
def addNewest (tokenBudget : Int) : List Entry → BranchPreparation → Option BranchPreparation
  | [], preparation => some preparation
  | entry :: older, preparation =>
    match getMessageFromEntry env entry with
    | none => addNewest tokenBudget older preparation
    | some message => do
      let fileOps := extractFileOpsFromMessage preparation.fileOps message
      let tokens ← estimateTokens stringify message
      let total := preparation.totalTokens + tokens
      if 0 < tokenBudget ∧ tokenBudget < (total : Nat) then
        if isSummaryEntry entry && fitsAnyway preparation.totalTokens tokenBudget then
          return ⟨message :: preparation.messages, fileOps, total⟩
        else return { preparation with fileOps }
      else addNewest tokenBudget older ⟨message :: preparation.messages, fileOps, total⟩

def prepareBranchEntries (entries : List Entry) (tokenBudget : Int) : Option BranchPreparation := do
  let fileOps ← entries.foldlM collectSummary {}
  addNewest env stringify fitsAnyway tokenBudget entries.reverse ⟨[], fileOps, 0⟩

end Prepare

/-! ### The collected entries -/

theorem entryBelow_stop (byId : OrderedMap String Entry) (current : Option String) :
    entryBelow byId current current = none := if_pos rfl

/-- The path that is left: none without an old leaf. -/
def oldBranch (s : Session) (oldLeafId : Option String) : List Entry :=
  if oldLeafId.getD "" = "" then [] else getBranch s oldLeafId

variable {shared : List Entry} {env : Environment} {s : Session} {leaf : Entry}

theorem find?_reverse_append {theirs : List Entry} {p : Entry → Bool}
    (hshared : ∀ x ∈ shared, p x = true) (htheirs : ∀ x ∈ theirs, p x = false) :
    (shared ++ theirs).reverse.find? p = shared.getLast? := by
  have hnone : theirs.reverse.find? p = none := by
    rw [find?_eq_none]
    intro x hx
    rw [htheirs x (mem_reverse.mp hx)]
    simp
  rw [reverse_append, find?_append, hnone, Option.none_or]
  rcases eq_nil_or_concat shared with rfl | ⟨before, x, rfl⟩
  · rfl
  · rw [concat_eq_append, reverse_append, getLast?_concat]
    exact find?_cons_of_pos (hshared x (by simp))

theorem walk_mine (h : Consistent env s) {mine : List Entry}
    (hpath : RootPath s.entries leaf (shared ++ mine)) :
    let below := entryBelow s.byId (shared.getLast?.map Entry.id)
    (walk (fun entry => below entry.parentId) s.byId.entries.length (below (some leaf.id)) []).getD
      [] = mine := by
  intro below
  have hnodup := ((hpath.sublist h.grown).map Entry.id).nodup h.grown.nodup_ids
  have hlength := (hpath.sublist h.grown).length_le
  rw [length_append] at hlength
  have hfind : ∀ entry ∈ mine, below (some entry.id) = some entry := by
    intro entry hentry
    have hne : some entry.id ≠ shared.getLast?.map Entry.id := by
      intro heq
      obtain ⟨last, hlast, hid⟩ := map_eq_some_iff.mp heq.symm
      rw [map_append, nodup_append] at hnodup
      exact hnodup.2.2 _ (mem_map_of_mem (mem_of_getLast? hlast)) _
        (mem_map_of_mem hentry) hid
    change entryBelow s.byId (shared.getLast?.map Entry.id) (some entry.id) = some entry
    rw [entryBelow, if_neg hne]
    exact h.findEntry_self (hpath.subset entry (mem_append_right _ hentry))
  have hstart : below (some leaf.id) = mine.getLast? := by
    rcases eq_nil_or_concat mine with rfl | ⟨before, last, rfl⟩
    · rw [append_nil] at hpath
      change entryBelow s.byId (shared.getLast?.map Entry.id) (some leaf.id) = none
      rw [hpath.getLast?_eq]
      exact entryBelow_stop _ _
    · rw [concat_eq_append] at hpath hfind ⊢
      have hlast := hpath.getLast?_eq
      rw [← append_assoc, getLast?_concat] at hlast
      obtain rfl := some.inj hlast
      rw [getLast?_concat]
      exact hfind last (by simp)
  have hfirst : ∀ entry, mine.head? = some entry → below entry.parentId = none := by
    intro entry hentry
    obtain ⟨rest, rfl⟩ := head?_eq_some_iff.mp hentry
    have hparent : entry.parentId = shared.getLast?.map Entry.id := by
      rcases eq_nil_or_concat shared with rfl | ⟨before, last, rfl⟩
      · exact hpath.linked.1
      · rw [concat_eq_append, append_assoc] at hpath
        rw [concat_eq_append, getLast?_concat]
        exact hpath.parent_adjacent
    rw [hparent]
    exact entryBelow_stop _ _
  have hstep : ∀ before x y after, mine = before ++ x :: y :: after →
      below y.parentId = some x := by
    rintro before x y after rfl
    rw [← append_assoc] at hpath
    have hparent : y.parentId = some x.id := hpath.parent_adjacent
    rw [hparent]
    exact hfind x (by simp)
  rw [hstart, walk_chain hfirst hstep _ (by rw [h.length_byId]; omega), append_nil]
  rfl

theorem fork_branch (h : Consistent env s) {path other : List Entry}
    (hpath : RootPath s.entries leaf path) (hother : IsBranch s other) :
    ∃ shared mine theirs, path = shared ++ mine ∧ other = shared ++ theirs ∧
      (∀ x ∈ mine, x ∉ other) ∧ ∀ x ∈ theirs, x.id ∉ path.map Entry.id := by
  rcases hother with rfl | ⟨target, hother⟩
  · exact ⟨[], path, [], rfl, rfl, by simp, by simp⟩
  · obtain ⟨shared, mine, theirs, hsplit, hsplit', hmine, htheirs⟩ := hpath.forked h.grown hother
    refine ⟨shared, mine, theirs, hsplit, hsplit', hmine, fun x hx hid => ?_⟩
    obtain ⟨y, hy, heq⟩ := mem_map.mp hid
    have hlog : x ∈ s.entries := hother.subset x (hsplit' ▸ mem_append_right _ hx)
    obtain rfl := h.grown.eq_of_id_eq (hpath.subset y hy) hlog heq
    exact htheirs y hx hy

theorem collectEntries_eq (h : Consistent env s) (oldLeafId : Option String) (targetId : String) :
    (collectEntriesForBranchSummary s oldLeafId targetId).entries =
        (oldBranch s oldLeafId).filter (· ∉ getBranch s (some targetId)) ∧
      (collectEntriesForBranchSummary s oldLeafId targetId).commonAncestorId =
        ((oldBranch s oldLeafId).filter (· ∈ getBranch s (some targetId))).getLast?.map
          Entry.id := by
  unfold collectEntriesForBranchSummary oldBranch
  split
  · exact ⟨rfl, rfl⟩
  rename_i hsome
  obtain ⟨id, rfl⟩ : ∃ id, oldLeafId = some id := by
    cases oldLeafId with
    | none => simp at hsome
    | some id => exact ⟨id, rfl⟩
  have hother := getBranch_isBranch h (some targetId)
  generalize getBranch s (some targetId) = other at hother ⊢
  dsimp only
  cases hleaf : findEntry s.byId (some id) with
  | none =>
    -- An unknown id has no path and collects nothing.
    have hbranch : getBranch s (some id) = [] := by
      rw [getBranch, Option.some_or, hleaf, followParents_none]
    have hbelow : entryBelow s.byId none (some id) = none := by
      rw [entryBelow, if_neg (by simp), hleaf]
    have hcommon : other.reverse.find? (fun entry => decide (entry.id ∈ ([] : List String))) =
        none := by simp
    rw [hbranch, map_nil, hcommon, Option.map_none, hbelow]
    refine ⟨?_, rfl⟩
    cases s.byId.entries.length <;> rfl
  | some leaf =>
    have hne : id ≠ "" := by simpa using hsome
    rw [findEntry, if_neg hne] at hleaf
    obtain ⟨hmem, rfl⟩ := (h.get?_eq_some_iff id leaf).mp hleaf
    obtain ⟨path, hpath⟩ := h.grown.exists_rootPath hmem
    rw [h.getBranch_eq hpath]
    obtain ⟨shared, mine, theirs, rfl, rfl, hmine, htheirs⟩ := fork_branch h hpath hother
    have hcommon : (shared ++ theirs).reverse.find?
        (fun entry => decide (entry.id ∈ (shared ++ mine).map Entry.id)) = shared.getLast? :=
      find?_reverse_append
        (fun x hx => decide_eq_true (mem_map_of_mem (mem_append_left _ hx)))
        (fun x hx => decide_eq_false (htheirs x hx))
    rw [hcommon]
    have hshared : ∀ x ∈ shared, x ∈ shared ++ theirs := fun x hx => mem_append_left _ hx
    refine ⟨?_, ?_⟩
    · rw [walk_mine h hpath, filter_append, filter_eq_nil_iff.mpr fun x hx => by simp [hx],
        filter_eq_self.mpr fun x hx => decide_eq_true (hmine x hx), nil_append]
    · rw [filter_append, filter_eq_self.mpr fun x hx => decide_eq_true (hshared x hx),
        filter_eq_nil_iff.mpr fun x hx => by simpa using hmine x hx, append_nil]

/-! ### What the passes take -/

section Passes

variable {env : Environment} {stringify : Value → String} {fitsAnyway : Nat → Int → Bool}

def tokensOf (env : Environment) (stringify : Value → String) (entries : List Entry) :
    Option Nat := sumTokens stringify (entries.filterMap (getMessageFromEntry env))

/-- The second pass comes to the entry before the newer ones. -/
def Reached (env : Environment) (stringify : Value → String) (tokenBudget : Int)
    (newer : List Entry) : Prop :=
  ∃ tokens, tokensOf env stringify newer = some tokens ∧
    (tokenBudget ≤ 0 ∨ (tokens : Int) ≤ tokenBudget)

def listMembers : Option Value → List Value
  | some (.list names) => names
  | _ => []

def listedBy (tool : String) (entry : Entry) : List Value :=
  match tool with
  | "read" => listMembers (summaryLists entry).1
  | "edit" => listMembers (summaryLists entry).2
  | _ => []

def Names (tool : String) (entry : Entry) (file : Value) : Prop :=
  (∃ message path, entry.payload = .message message ∧ CalledOn tool [message] path ∧
    file = .str path) ∨ file ∈ listedBy tool entry

theorem exists_split_concat {α : Type} (xs : List α) (x : α) (P : α → List α → Prop) :
    (∃ before y after, xs ++ [x] = before ++ y :: after ∧ P y after) ↔
      P x [] ∨ ∃ before y after, xs = before ++ y :: after ∧ P y (after ++ [x]) := by
  constructor
  · rintro ⟨before, y, after, hsplit, hy⟩
    rcases eq_nil_or_concat after with rfl | ⟨after', z, rfl⟩
    · obtain ⟨rfl, hx⟩ := append_inj' hsplit rfl
      obtain ⟨rfl, -⟩ := cons.inj hx
      exact .inl hy
    · rw [concat_eq_append] at hsplit hy
      have hsplit' : xs ++ [x] = (before ++ y :: after') ++ [z] := by simpa using hsplit
      obtain ⟨rfl, hx⟩ := append_inj' hsplit' rfl
      obtain ⟨rfl, -⟩ := cons.inj hx
      exact .inr ⟨before, y, after', rfl, hy⟩
  · rintro (hx | ⟨before, y, after, rfl, hy⟩)
    · exact ⟨xs, x, [], rfl, hx⟩
    · exact ⟨before, y, after ++ [x], by simp, hy⟩

theorem mem_updateFiles {files : Option Value} {known result : Finset Value}
    (h : updateFiles files known = some result) (file : Value) :
    file ∈ result ↔ file ∈ known ∨ file ∈ listMembers files := by
  unfold updateFiles at h
  split at h
  · split at h
    · cases h
      rw [foldl_insert_eq, Finset.mem_union, mem_toFinset]
      rfl
    · cases h
  · rename_i hother
    cases h
    have hnone : listMembers files = [] := by
      unfold listMembers
      split
      · rename_i names
        exact absurd rfl (hother names)
      · rfl
    simp [hnone]

variable {ops result : FileOperations} {entry : Entry} {entries : List Entry}

theorem mem_collectSummary (h : collectSummary ops entry = some result) (tool : String)
    (file : Value) : file ∈ filesOf tool result ↔ file ∈ filesOf tool ops ∨
      (isOwnSummary entry = true ∧ file ∈ listedBy tool entry) := by
  unfold collectSummary at h
  split at h
  · rename_i hown
    obtain ⟨read, hread, h⟩ := bind_eq_some_iff.mp h
    obtain ⟨edited, hedited, h⟩ := bind_eq_some_iff.mp h
    cases h
    have hmem := mem_updateFiles hread file
    have hmem' := mem_updateFiles hedited file
    unfold filesOf listedBy
    split <;> simp_all
  · rename_i hown
    cases h
    simp [hown]

theorem mem_firstPass (h : entries.foldlM collectSummary ops = some result) (tool : String)
    (file : Value) : file ∈ filesOf tool result ↔ file ∈ filesOf tool ops ∨
      ∃ entry ∈ entries, isOwnSummary entry = true ∧ file ∈ listedBy tool entry := by
  induction entries generalizing ops with
  | nil =>
    cases h
    simp
  | cons entry entries ih =>
    rw [foldlM_cons] at h
    obtain ⟨next, hnext, h⟩ := bind_eq_some_iff.mp h
    rw [ih h, mem_collectSummary hnext, or_assoc]
    simp

theorem sumTokens_cons (message : Message) (messages : List Message) :
    sumTokens stringify (message :: messages) =
      (estimateTokens stringify message).bind fun tokens =>
        (sumTokens stringify messages).map (tokens + ·) := by
  unfold sumTokens
  rw [mapM_cons]
  cases estimateTokens stringify message with
  | none => rfl
  | some tokens =>
    cases mapM (estimateTokens stringify) messages with
    | none => rfl
    | some rest => simp

theorem tokensOf_le {older newer : List Entry} {tokens : Nat}
    (h : tokensOf env stringify (older ++ newer) = some tokens) :
    ∃ fewer, tokensOf env stringify newer = some fewer ∧ fewer ≤ tokens := by
  induction older generalizing tokens with
  | nil => exact ⟨tokens, h, Nat.le_refl _⟩
  | cons entry older ih =>
    unfold tokensOf at h ih ⊢
    rw [cons_append, filterMap_cons] at h
    split at h
    · exact ih h
    · rw [sumTokens_cons] at h
      obtain ⟨first, -, h⟩ := bind_eq_some_iff.mp h
      obtain ⟨rest, hrest, rfl⟩ := map_eq_some_iff.mp h
      obtain ⟨fewer, hfewer, hle⟩ := ih hrest
      exact ⟨fewer, hfewer, by omega⟩

def Calls (env : Environment) (tool : String) (entry : Entry) (file : Value) : Prop :=
  ∃ message, getMessageFromEntry env entry = some message ∧
    ∃ path, CalledOn tool [message] path ∧ file = .str path

theorem addNewest_spec {tokenBudget : Int} {older newer : List Entry}
    {preparation result : BranchPreparation}
    (hmessages : preparation.messages = newer.filterMap (getMessageFromEntry env))
    (htotal : tokensOf env stringify newer = some preparation.totalTokens)
    (hfits : tokenBudget ≤ 0 ∨ (preparation.totalTokens : Int) ≤ tokenBudget)
    (h : addNewest env stringify fitsAnyway tokenBudget older.reverse preparation = some result) :
    result.messages <:+ (older ++ newer).filterMap (getMessageFromEntry env) ∧
      ∀ tool ∈ fileTools, ∀ file, file ∈ filesOf tool result.fileOps ↔
        file ∈ filesOf tool preparation.fileOps ∨ ∃ before entry after,
          older = before ++ entry :: after ∧ (Reached env stringify tokenBudget (after ++ newer) ∧
            Calls env tool entry file) := by
  induction older using reverseRecOn generalizing newer preparation with
  | nil =>
    cases h
    exact ⟨by rw [hmessages]; exact suffix_refl _, by simp⟩
  | append_singleton older entry ih =>
    rw [reverse_append, reverse_singleton, singleton_append, addNewest] at h
    have hassoc : older ++ [entry] ++ newer = older ++ entry :: newer := by simp
    have hafter : ∀ after : List Entry, after ++ [entry] ++ newer = after ++ entry :: newer :=
      fun after => by simp
    rw [hassoc]
    cases hmessage : getMessageFromEntry env entry with
    | none =>
      rw [hmessage] at h
      have hsame : (entry :: newer).filterMap (getMessageFromEntry env) =
          newer.filterMap (getMessageFromEntry env) := filterMap_cons_none hmessage
      obtain ⟨hsuffix, hfiles⟩ := ih (by rw [hmessages, hsame])
        (by rw [tokensOf, hsame]; exact htotal) hfits h
      refine ⟨hsuffix, fun tool htool file => ?_⟩
      rw [hfiles tool htool, exists_split_concat older entry fun entry after =>
        Reached env stringify tokenBudget (after ++ newer) ∧ Calls env tool entry file]
      simp only [hafter]
      have hnone : ¬ Calls env tool entry file := by
        rintro ⟨message, hsome, -⟩
        rw [hmessage] at hsome
        cases hsome
      simp [hnone]
    | some message =>
      rw [hmessage] at h
      dsimp only at h
      obtain ⟨tokens, htokens, h⟩ := bind_eq_some_iff.mp h
      have hcons : (entry :: newer).filterMap (getMessageFromEntry env) =
          message :: newer.filterMap (getMessageFromEntry env) :=
        filterMap_cons_some hmessage
      have hmore : tokensOf env stringify (entry :: newer) =
          some (preparation.totalTokens + tokens) := by
        rw [tokensOf, hcons, sumTokens_cons, htokens, Option.bind_some, ← tokensOf, htotal,
          Option.map_some, Nat.add_comm]
      have hown : ∀ tool ∈ fileTools, ∀ file,
          file ∈ filesOf tool (extractFileOpsFromMessage preparation.fileOps message) ↔
            file ∈ filesOf tool preparation.fileOps ∨ Calls env tool entry file := by
        intro tool htool file
        have hone := mem_extracted htool [message] preparation.fileOps file
        rw [foldl_cons, foldl_nil] at hone
        simp only [hone, Calls, hmessage, some.injEq, exists_eq_left']
      have hreached : Reached env stringify tokenBudget newer := ⟨_, htotal, hfits⟩
      split at h
      · rename_i hstop
        have hbehind : ∀ after, ¬ Reached env stringify tokenBudget (after ++ entry :: newer) := by
          rintro after ⟨more, hsum, hfits'⟩
          obtain ⟨fewer, hfewer, hle⟩ := tokensOf_le hsum
          obtain rfl := some.inj (hmore.symm.trans hfewer)
          omega
        have hfileOps : result.fileOps =
            extractFileOpsFromMessage preparation.fileOps message := by
          split at h <;> · cases h; rfl
        refine ⟨?_, fun tool htool file => ?_⟩
        · rw [filterMap_append, hcons]
          refine List.IsSuffix.trans ?_ (suffix_append _ _)
          split at h
          · cases h
            rw [hmessages]
          · cases h
            rw [hmessages]
            exact suffix_cons _ _
        · rw [hfileOps, hown tool htool, exists_split_concat older entry fun entry after =>
            Reached env stringify tokenBudget (after ++ newer) ∧ Calls env tool entry file]
          simp [hafter, hbehind, hreached]
      · rename_i hgo
        obtain ⟨hsuffix, hfiles⟩ := ih (by rw [hmessages, hcons]) hmore
          (by dsimp only; omega) h
        refine ⟨hsuffix, fun tool htool file => ?_⟩
        rw [hfiles tool htool, exists_split_concat older entry fun entry after =>
          Reached env stringify tokenBudget (after ++ newer) ∧ Calls env tool entry file]
        simp [hafter, hown tool htool, hreached, or_assoc]

/-- What the passes take from an entry with the newer ones behind it: the calls of a message
that is no tool result and is reached, the lists of a summary that no hook made. -/
def TakenIn (env : Environment) (stringify : Value → String) (tokenBudget : Int) (entry : Entry)
    (newer : List Entry) : Prop :=
  match entry.payload with
  | .message (.toolResult _) => False
  | .message _ => Reached env stringify tokenBudget newer
  | _ => isOwnSummary entry = true

theorem not_calls {tool : String} {entry : Entry} {message : Message} {file : Value}
    (hmessage : getMessageFromEntry env entry = some message) (hnone : recordedCalls message = []) :
    ¬ Calls env tool entry file := by
  rintro ⟨other, hother, path, ⟨called, hcalled, arguments, hcall, -⟩, -⟩
  obtain rfl := some.inj (hmessage.symm.trans hother)
  rw [mem_singleton.mp hcalled, hnone] at hcall
  simp at hcall

theorem calls_iff (tool : String) (entry : Entry) (file : Value) :
    Calls env tool entry file ↔ ∃ message, entry.payload = .message message ∧
      (∀ m, message ≠ .toolResult m) ∧ ∃ path, CalledOn tool [message] path ∧ file = .str path := by
  obtain ⟨id, parentId, timestamp, payload⟩ := entry
  cases payload with
  | message message => cases message <;> simp [Calls, getMessageFromEntry]
  | customMessage | branchSummary | compaction =>
    simpa using @not_calls env _ _ _ _ rfl rfl
  | _ => simp [Calls, getMessageFromEntry]

theorem listedBy_of_not_summary {tool : String} (h : summaryLists entry = (none, none)) :
    listedBy tool entry = [] := by
  unfold listedBy
  rw [h]
  split <;> rfl

theorem taken_iff (tokenBudget : Int) (tool : String) (entry : Entry) (newer : List Entry)
    (file : Value) :
    TakenIn env stringify tokenBudget entry newer ∧ Names tool entry file ↔
      (isOwnSummary entry = true ∧ file ∈ listedBy tool entry) ∨
        (Reached env stringify tokenBudget newer ∧ Calls env tool entry file) := by
  rw [calls_iff]
  obtain ⟨id, parentId, timestamp, payload⟩ := entry
  unfold Names TakenIn
  cases payload with
  | message message =>
    rw [listedBy_of_not_summary rfl]
    cases message with
    | toolResult m => simp
    | _ => simp
  | _ => simp [isOwnSummary]

/-- Some entry that a pass takes from names the file. -/
def Accounted (env : Environment) (stringify : Value → String) (tokenBudget : Int)
    (entries : List Entry) (tool : String) (file : Value) : Prop :=
  ∃ older entry newer, entries = older ++ entry :: newer ∧
    (TakenIn env stringify tokenBudget entry newer ∧ Names tool entry file)

theorem prepareBranchEntries_spec {tokenBudget : Int} {preparation : BranchPreparation}
    (h : prepareBranchEntries env stringify fitsAnyway entries tokenBudget = some preparation) :
    preparation.messages <:+ entries.filterMap (getMessageFromEntry env) ∧
      ∀ tool ∈ fileTools, ∀ file, file ∈ filesOf tool preparation.fileOps ↔
        Accounted env stringify tokenBudget entries tool file := by
  unfold prepareBranchEntries at h
  obtain ⟨ops, hops, h⟩ := bind_eq_some_iff.mp h
  have hfits : tokenBudget ≤ 0 ∨ ((0 : Nat) : Int) ≤ tokenBudget := by omega
  obtain ⟨hsuffix, hfiles⟩ :=
    @addNewest_spec env stringify fitsAnyway tokenBudget entries [] _ _ rfl rfl hfits h
  rw [append_nil] at hsuffix
  refine ⟨hsuffix, fun tool htool file => ?_⟩
  rw [hfiles tool htool, mem_firstPass hops]
  simp only [Accounted, taken_iff, append_nil]
  have hempty : file ∉ filesOf tool {} := by
    unfold filesOf
    split <;> simp
  constructor
  · rintro ((hold | ⟨entry, hentry, hown⟩) | ⟨older, entry, newer, rfl, hcalls⟩)
    · exact absurd hold hempty
    · obtain ⟨older, newer, rfl⟩ := append_of_mem hentry
      exact ⟨older, entry, newer, rfl, .inl hown⟩
    · exact ⟨older, entry, newer, rfl, .inr hcalls⟩
  · rintro ⟨older, entry, newer, rfl, hown | hcalls⟩
    · exact .inl (.inr ⟨entry, by simp, hown⟩)
    · exact .inr ⟨older, entry, newer, rfl, hcalls⟩

def Covers (entries : List Entry) (fileOps : FileOperations) : Prop :=
  ∀ tool ∈ fileTools, ∀ entry ∈ entries, ∀ file, Names tool entry file →
    file ∈ filesOf tool fileOps

/-- What the passes do not take names only files that they take elsewhere. -/
def NothingLost (env : Environment) (stringify : Value → String) (tokenBudget : Int)
    (entries : List Entry) : Prop :=
  ∀ older entry newer, entries = older ++ entry :: newer →
    ¬ TakenIn env stringify tokenBudget entry newer → ∀ tool ∈ fileTools, ∀ file,
      Names tool entry file → Accounted env stringify tokenBudget entries tool file

/-- The collected entries are those of the abandoned path alone and the kept messages are a
suffix; the file operations cover the entries exactly when nothing is lost that a tool result,
a summary of a hook or an entry behind the budget's stop names alone. -/
theorem prepareBranchEntries_covers {s : Session} (h : Reachable env s) (oldLeafId : Option String)
    (targetId : String) {entries : List Entry} {tokenBudget : Int} {preparation : BranchPreparation}
    (hprep : prepareBranchEntries env stringify fitsAnyway entries tokenBudget = some preparation) :
    ((collectEntriesForBranchSummary s oldLeafId targetId).entries =
        (oldBranch s oldLeafId).filter (· ∉ getBranch s (some targetId)) ∧
      (collectEntriesForBranchSummary s oldLeafId targetId).commonAncestorId =
        ((oldBranch s oldLeafId).filter (· ∈ getBranch s (some targetId))).getLast?.map
          Entry.id) ∧
    preparation.messages <:+ entries.filterMap (getMessageFromEntry env) ∧
    (Covers entries preparation.fileOps ↔ NothingLost env stringify tokenBudget entries) := by
  obtain ⟨hsuffix, hfiles⟩ := prepareBranchEntries_spec hprep
  refine ⟨collectEntries_eq (reachable_consistent h) oldLeafId targetId, hsuffix, ?_⟩
  constructor
  · intro hcovers older entry newer hsplit _ tool htool file hnames
    rw [← hfiles tool htool]
    exact hcovers tool htool entry (by simp [hsplit]) file hnames
  · intro hlost tool htool entry hentry file hnames
    rw [hfiles tool htool]
    obtain ⟨older, newer, hsplit⟩ := append_of_mem hentry
    by_cases htaken : TakenIn env stringify tokenBudget entry newer
    · exact ⟨older, entry, newer, hsplit, htaken, hnames⟩
    · exact hlost older entry newer hsplit htaken tool htool file hnames

end Passes

/-- The comparison on exact numbers. -/
def nineTenths (total : Nat) (tokenBudget : Int) : Bool := 10 * (total : Int) < 9 * tokenBudget

/-- A file is read, and two more messages follow. -/
def readEarlier : Session :=
  run plainEnvironment (newSession ⟨"s", "t0", "/", none⟩ 0)
    [.appendMessage "t1" (.assistant readingMessage),
      .appendMessage "t2" (.user ⟨.text "first", 1⟩),
      .appendMessage "t3" (.user ⟨.text "second", 3⟩)]

theorem prepareBranchEntries_covers_readEarlier : ∃ preparation,
    prepareBranchEntries plainEnvironment (fun _ => "\x7b\x7d") nineTenths readEarlier.entries 0 =
      some preparation ∧
    (Covers readEarlier.entries preparation.fileOps ↔
      NothingLost plainEnvironment (fun _ => "\x7b\x7d") 0 readEarlier.entries) := by
  have hsome : (prepareBranchEntries plainEnvironment (fun _ => "\x7b\x7d") nineTenths
      readEarlier.entries 0).isSome = true := by
    decide
  obtain ⟨preparation, hprep⟩ := Option.isSome_iff_exists.mp hsome
  have hreach : Reachable plainEnvironment readEarlier :=
    (Reachable.start ⟨"s", "t0", "/", none⟩ 0).run _
  exact ⟨preparation, hprep, (prepareBranchEntries_covers hreach none "" hprep).2.2⟩

/-- With a budget of two tokens the newest message fits and the next one stops the pass, so the
file that was read before is lost. -/
theorem readEarlier_loses_file : Reachable plainEnvironment readEarlier ∧ ∃ preparation,
    prepareBranchEntries plainEnvironment (fun _ => "\x7b\x7d") nineTenths readEarlier.entries 2 =
      some preparation ∧ ¬ Covers readEarlier.entries preparation.fileOps := by
  refine ⟨(Reachable.start ⟨"s", "t0", "/", none⟩ 0).run _, ?_⟩
  have hsome : (prepareBranchEntries plainEnvironment (fun _ => "\x7b\x7d") nineTenths
      readEarlier.entries 2).any (fun preparation => preparation.fileOps.read = ∅) = true := by
    decide
  obtain ⟨preparation, hprep, hread⟩ := (Option.any_eq_true _ _).mp hsome
  refine ⟨preparation, hprep, fun hcovers => ?_⟩
  have hfirst : readEarlier.entries.head?.map Entry.payload =
      some (.message (.assistant readingMessage)) := by
    decide
  obtain ⟨entry, hentry, hpayload⟩ := map_eq_some_iff.mp hfirst
  have hcalled : CalledOn "read" [.assistant readingMessage] "a.py" :=
    ⟨_, mem_singleton_self _, [("path", .str "a.py")], by simp [recordedCalls, readingMessage],
      rfl, by decide⟩
  have hmem := hcovers "read" (by decide) entry (mem_of_head? hentry) (.str "a.py")
    (.inl ⟨_, "a.py", hpayload, hcalled, rfl⟩)
  rw [filesOf, of_decide_eq_true hread] at hmem
  simp at hmem

end Pidrei.BranchSummary
