import Mathlib.Data.Finset.Sort
import Mathlib.Data.String.Basic
import Pidrei.CompactionPartition

/-!
The file lists of a compaction. They are folded from the lists of the compaction
before it and the calls of the messages that are summarized, so on a branch whose
compactions were all made here the newest lists name the files of every message
summarized so far. A file that was read first and changed later moves to the
modified ones.
-/
namespace Pidrei.FileTracking

open Values Messages SessionEntries SessionManager SessionInvariant ContextProjection List
open BranchExtraction CompactionEffect Compaction CompactionCut CompactionPartition ParentLog
open Option (bind_eq_some_iff some)

/-! ### The lists -/

def isName : Value → Bool
  | .str _ => true
  | _ => false

def nameOf : Value → String
  | .str name => name
  | _ => ""

/-- `sorted(paths)`; none for a set with a member that is no string. -/
def sortedNames (files : Finset Value) : Option (List String) :=
  if ∀ file ∈ files, isName file = true then some ((files.image nameOf).sort (· ≤ ·)) else none

/-- The files only read, and the modified ones. -/
def computeFileLists (fileOps : FileOperations) : Option (List String × List String) := do
  let modified := fileOps.edited ∪ fileOps.written
  let readOnly ← sortedNames (fileOps.read.filter (· ∉ modified))
  let modified ← sortedNames modified
  return (readOnly, modified)

def fileSection (tag : String) (files : List String) : List String :=
  let names := "\n".intercalate files
  if files.isEmpty then [] else [s!"<{tag}>\n{names}\n</{tag}>"]

def formatFileOperations (readFiles modifiedFiles : List String) : String :=
  let sections := fileSection "read-files" readFiles ++ fileSection "modified-files" modifiedFiles
  if sections.isEmpty then "" else "\n\n" ++ "\n\n".intercalate sections

/-! ### The compaction -/

structure CompactionResult where
  summary : String
  firstKeptEntryId : String
  tokensBefore : Int
  usage : Usage
  details : Value

/-- The requests to the model, which may fail, and the sum of two usages. -/
structure Summarizer where
  generateSummary : List Message → Option String → Option (String × Usage)
  generateTurnPrefixSummary : List Message → Option (String × Usage)
  combineUsage : Usage → Usage → Usage

def fileDetails (readFiles modifiedFiles : List String) : Value :=
  .dict [("readFiles", .list (readFiles.map .str)),
    ("modifiedFiles", .list (modifiedFiles.map .str))]

def mergeSummaries (historyText turnPrefixText : String) : String :=
  s!"{historyText}\n\n---\n\n**Turn Context (split turn):**\n\n{turnPrefixText}"

/-- The summary text before the file lists are appended. -/
def summarize (calls : Summarizer) (preparation : CompactionPreparation) :
    Option (String × Usage) :=
  if preparation.isSplitTurn && !preparation.turnPrefixMessages.isEmpty then do
    if preparation.messagesToSummarize.isEmpty then
      let (turnPrefixText, usage) ←
        calls.generateTurnPrefixSummary preparation.turnPrefixMessages
      return (mergeSummaries (preparation.previousSummary.getD "No prior history.")
        turnPrefixText, usage)
    else
      let (historyText, historyUsage) ←
        calls.generateSummary preparation.messagesToSummarize preparation.previousSummary
      let (turnPrefixText, usage) ←
        calls.generateTurnPrefixSummary preparation.turnPrefixMessages
      return (mergeSummaries historyText turnPrefixText, calls.combineUsage historyUsage usage)
  else calls.generateSummary preparation.messagesToSummarize preparation.previousSummary

/-- `none` is an exception: nothing is appended then. -/
def compact (calls : Summarizer) (preparation : CompactionPreparation) :
    Option CompactionResult := do
  let (text, usage) ← summarize calls preparation
  let (readFiles, modifiedFiles) ← computeFileLists preparation.fileOps
  if preparation.firstKeptEntryId = "" then none
  else
    return {
      summary := text ++ formatFileOperations readFiles modifiedFiles
      firstKeptEntryId := preparation.firstKeptEntryId
      tokensBefore := preparation.tokensBefore
      usage
      details := fileDetails readFiles modifiedFiles }

/-! ### The calls of a message -/

/-- The tool calls of an assistant message and the nested calls recorded on a tool result. -/
def recordedCalls : Message → List (String × Items)
  | .toolResult m => ((m.nestedCalls.map NestedToolCalls.calls).getD []).map fun call =>
      (call.name, call.arguments.getD [])
  | .assistant m =>
    match m.content with
    | .blocks blocks => blocks.filterMap fun block =>
        match block with
        | .toolCall call => some (call.name, call.arguments)
        | _ => none
    | _ => []
  | _ => []

def CalledOn (tool : String) (messages : List Message) (path : String) : Prop :=
  ∃ message ∈ messages, ∃ arguments, (tool, arguments) ∈ recordedCalls message ∧
    arguments.lookup "path" = some (.str path) ∧ path ≠ ""

structure ListsFiles (messages : List Message) (readFiles modifiedFiles : List String) : Prop where
  modified : ∀ path, path ∈ modifiedFiles ↔
    CalledOn "write" messages path ∨ CalledOn "edit" messages path
  read : ∀ path, path ∈ readFiles ↔ CalledOn "read" messages path ∧ path ∉ modifiedFiles

theorem calledOn_nil (tool path : String) : ¬ CalledOn tool [] path := by
  simp [CalledOn]

theorem calledOn_append (tool : String) (messages more : List Message) (path : String) :
    CalledOn tool (messages ++ more) path ↔
      CalledOn tool messages path ∨ CalledOn tool more path := by
  simp only [CalledOn, mem_append, or_and_right, exists_or]

/-! ### What the accumulator holds -/

/-- The member of the accumulator that a tool's files go to. -/
def filesOf (tool : String) (ops : FileOperations) : Finset Value :=
  match tool with
  | "read" => ops.read
  | "write" => ops.written
  | "edit" => ops.edited
  | _ => ∅

def fileTools : List String := ["read", "write", "edit"]

variable {tool : String} {files : Finset Value} {readFiles modifiedFiles : List String}

theorem mem_addFileOp (htool : tool ∈ fileTools) (name : String) (arguments : Items)
    (ops : FileOperations) (file : Value) :
    file ∈ filesOf tool (addFileOp name arguments ops) ↔ file ∈ filesOf tool ops ∨
      (name = tool ∧ ∃ path, arguments.lookup "path" = some (.str path) ∧ path ≠ "" ∧
        file = .str path) := by
  unfold addFileOp
  split
  · rename_i path hpath
    simp only [hpath, some.injEq, Value.str.injEq, exists_eq_left']
    by_cases hempty : path = ""
    · simp [hempty]
    · rw [if_neg hempty]
      simp only [fileTools, mem_cons, not_mem_nil, or_false] at htool
      rcases htool with rfl | rfl | rfl <;> split <;>
        simp_all [filesOf, or_comm]
  · rename_i hnone
    constructor
    · exact .inl
    · rintro (hold | ⟨-, path, hpath, -⟩)
      · exact hold
      · exact absurd hpath (hnone path)

theorem extractFileOps_eq (ops : FileOperations) (message : Message) :
    extractFileOpsFromMessage ops message =
      (recordedCalls message).foldl (fun ops call => addFileOp call.1 call.2 ops) ops := by
  cases message with
  | toolResult m => simp [extractFileOpsFromMessage, recordedCalls, foldl_map]
  | assistant m =>
    cases hcontent : m.content with
    | blocks blocks =>
      simp only [extractFileOpsFromMessage, recordedCalls, hcontent]
      rw [foldl_filterMap]
      congr 1
      funext ops block
      cases block <;> rfl
    | _ => simp only [extractFileOpsFromMessage, recordedCalls, hcontent, foldl_nil]
  | _ => rfl

theorem mem_foldl_addFileOp (htool : tool ∈ fileTools) (calls : List (String × Items))
    (ops : FileOperations) (file : Value) :
    file ∈ filesOf tool (calls.foldl (fun ops call => addFileOp call.1 call.2 ops) ops) ↔
      file ∈ filesOf tool ops ∨ ∃ arguments path, (tool, arguments) ∈ calls ∧
        arguments.lookup "path" = some (.str path) ∧ path ≠ "" ∧ file = .str path := by
  induction calls generalizing ops with
  | nil => simp
  | cons call calls ih =>
    obtain ⟨name, given⟩ := call
    rw [foldl_cons, ih, mem_addFileOp htool]
    constructor
    · rintro ((hold | ⟨rfl, path, hpath⟩) | ⟨arguments, path, hcall, hpath⟩)
      · exact .inl hold
      · exact .inr ⟨given, path, mem_cons_self, hpath⟩
      · exact .inr ⟨arguments, path, mem_cons_of_mem _ hcall, hpath⟩
    · rintro (hold | ⟨arguments, path, hcall, hpath⟩)
      · exact .inl (.inl hold)
      · rcases mem_cons.mp hcall with hfirst | hrest
        · cases hfirst
          exact .inl (.inr ⟨rfl, path, hpath⟩)
        · exact .inr ⟨arguments, path, hrest, hpath⟩

theorem mem_extracted (htool : tool ∈ fileTools) (messages : List Message) (ops : FileOperations)
    (file : Value) : file ∈ filesOf tool (messages.foldl extractFileOpsFromMessage ops) ↔
      file ∈ filesOf tool ops ∨ ∃ path, CalledOn tool messages path ∧ file = .str path := by
  induction messages generalizing ops with
  | nil => simp [calledOn_nil]
  | cons message messages ih =>
    rw [foldl_cons, ih, extractFileOps_eq, mem_foldl_addFileOp htool, or_assoc]
    apply or_congr_right
    constructor
    · rintro (⟨arguments, path, hcall, hpath, hsome, rfl⟩ | ⟨path, hcalled, rfl⟩)
      · exact ⟨path, ⟨message, mem_cons_self, arguments, hcall, hpath, hsome⟩, rfl⟩
      · obtain ⟨other, hother, hrest⟩ := hcalled
        exact ⟨path, ⟨other, mem_cons_of_mem _ hother, hrest⟩, rfl⟩
    · rintro ⟨path, ⟨other, hother, arguments, hcall, hpath, hsome⟩, rfl⟩
      rcases mem_cons.mp hother with rfl | hrest
      · exact .inl ⟨arguments, path, hcall, hpath, hsome, rfl⟩
      · exact .inr ⟨path, ⟨other, hrest, arguments, hcall, hpath, hsome⟩, rfl⟩

/-! ### From the accumulator to the lists and back -/

theorem mem_sortedNames {names : List String} (h : sortedNames files = some names) (path : String) :
    path ∈ names ↔ .str path ∈ files := by
  unfold sortedNames at h
  split at h
  · rename_i hnames
    cases h
    rw [Finset.mem_sort, Finset.mem_image]
    constructor
    · rintro ⟨file, hfile, rfl⟩
      cases file with
      | str name => exact hfile
      | _ => cases hnames _ hfile
    · exact fun hfile => ⟨_, hfile, rfl⟩
  · cases h

theorem sortedNames_some (h : ∀ file ∈ files, ∃ path, file = .str path) :
    ∃ names, sortedNames files = some names := by
  refine ⟨_, if_pos fun file hfile => ?_⟩
  obtain ⟨path, rfl⟩ := h file hfile
  rfl

theorem mem_computeFileLists {ops : FileOperations}
    (h : computeFileLists ops = some (readFiles, modifiedFiles)) :
    (∀ path, path ∈ modifiedFiles ↔ .str path ∈ ops.written ∨ .str path ∈ ops.edited) ∧
      ∀ path, path ∈ readFiles ↔ .str path ∈ ops.read ∧ path ∉ modifiedFiles := by
  unfold computeFileLists at h
  obtain ⟨readOnly, hread, h⟩ := bind_eq_some_iff.mp h
  obtain ⟨modified, hmodified, h⟩ := bind_eq_some_iff.mp h
  cases h
  constructor
  · intro path
    rw [mem_sortedNames hmodified, Finset.mem_union, or_comm]
  · intro path
    rw [mem_sortedNames hread, Finset.mem_filter, mem_sortedNames hmodified]

theorem foldl_insert_eq (files : List Value) (known : Finset Value) :
    files.foldl (fun known file => insert file known) known = known ∪ files.toFinset := by
  induction files generalizing known with
  | nil => simp
  | cons file files ih =>
    rw [foldl_cons, ih, toFinset_cons, Finset.insert_union, Finset.union_insert]

theorem updateFiles_names (names : List String) :
    updateFiles (some (.list (names.map .str))) ∅ = some (names.map Value.str).toFinset := by
  have hall : (names.map Value.str).all isHashable = true := by
    rw [all_map, all_eq_true]
    exact fun _ _ => rfl
  rw [updateFiles, if_pos hall, foldl_insert_eq, Finset.empty_union]

theorem recordedFileOps_fileDetails {compaction : Entry} {summary firstKept : String}
    {tokensBefore : Int} {usage : Option Usage}
    {fromHook : Option Bool} {systemMessage : Option SystemMessage}
    (hpayload : compaction.payload = .compaction summary firstKept tokensBefore
      (fileDetails readFiles modifiedFiles) usage fromHook systemMessage)
    (hhook : fromHook ≠ some true) :
    recordedFileOps compaction = some
      { read := (readFiles.map Value.str).toFinset
        edited := (modifiedFiles.map Value.str).toFinset } := by
  have hread : lookup "readFiles" [("readFiles", Value.list (readFiles.map .str)),
      ("modifiedFiles", .list (modifiedFiles.map .str))] =
        some (.list (readFiles.map .str)) := rfl
  have hmodified : lookup "modifiedFiles" [("readFiles", Value.list (readFiles.map .str)),
      ("modifiedFiles", .list (modifiedFiles.map .str))] =
        some (.list (modifiedFiles.map .str)) := rfl
  simp only [recordedFileOps, hpayload, fileDetails, if_neg hhook, hread, hmodified,
    updateFiles_names]
  rfl

/-! ### Branches of compactions -/

section Branch

variable {env : Environment} {stringify : Value → String} {calls : Summarizer}

/-- A branch whose compactions were all prepared and made here, and the messages they
summarized. Entries may be appended while the summary is generated, but no compaction. -/
inductive Compacted (env : Environment) (stringify : Value → String) (calls : Summarizer) :
    List Entry → List Message → Prop
  | start : Compacted env stringify calls [] []
  | entry {path : List Entry} {messages : List Message} {entry : Entry}
      (before : Compacted env stringify calls path messages)
      (other : entry.isCompaction = false) :
      Compacted env stringify calls (path ++ [entry]) messages
  | compaction {path later : List Entry} {messages : List Message} {settings : CompactionSettings}
      {preparation : CompactionPreparation} {result : CompactionResult} {compaction : Entry}
      {fromHook : Option Bool} {systemMessage : Option SystemMessage}
      (before : Compacted env stringify calls (path ++ later) messages)
      (quiet : ∀ entry ∈ later, entry.isCompaction = false)
      (prepared : prepareCompaction env stringify path settings = some (some preparation))
      (made : compact calls preparation = some result)
      (payload : compaction.payload = .compaction result.summary result.firstKeptEntryId
        result.tokensBefore result.details (some result.usage) fromHook systemMessage)
      (own : fromHook ≠ some true) :
      Compacted env stringify calls (path ++ later ++ [compaction])
        (messages ++ (preparation.messagesToSummarize ++ preparation.turnPrefixMessages))

variable {path : List Entry} {settings : CompactionSettings} {preparation : CompactionPreparation}
   {s : Session} {messages more : List Message} {readFiles modifiedFiles : List String}
   {result : CompactionResult}

theorem latestCompaction_append {later : List Entry}
    (h : ∀ entry ∈ later, entry.isCompaction = false) :
    latestCompaction (path ++ later) = latestCompaction path := by
  induction later using reverseRecOn with
  | nil => rw [append_nil]
  | append_singleton later entry ih =>
    have hentry : entry.isCompaction = false := h entry (by simp)
    rw [← append_assoc, latestCompaction_concat, hentry, if_neg (by simp)]
    exact ih fun other hother => h other (mem_append_left _ hother)

/-- What the newest compaction of a branch recorded. -/
def recordedOn (path : List Entry) : Option FileOperations :=
  match latestCompaction path with
  | some compaction => recordedFileOps compaction
  | none => some {}

theorem previous_eq (hfollow : EditsFollow path) (hnodup : (path.map Entry.id).Nodup) :
    ((prevCompactionIndex (projectPath env path).entries).bind
      ((projectPath env path).entries[·]?)).map ProjectedSessionEntry.sourceEntry =
        latestCompaction path := by
  rcases exists_latestCompaction path with hnone | ⟨before, compaction, after, rfl, hcomp, hafter⟩
  · rw [(latestCompaction_eq_none_iff path).mpr hnone]
    have hindex : prevCompactionIndex (projectPath env path).entries = none := by
      unfold prevCompactionIndex
      rw [findIdx?_eq_none_iff]
      intro item hitem
      have hsource : item.sourceEntry ∈ path := by
        rw [← contextEntriesOfPath_none path hnone, ← sources_projectPath env path]
        exact mem_map_of_mem hitem
      rw [hnone _ hsource, Bool.false_and]
    rw [hindex]
    rfl
  · obtain ⟨hindex, hsource⟩ := @prevCompactionIndex_some env _ _ _ hfollow hnodup hcomp hafter
    rw [hindex, latestCompaction_eq_some before after compaction hcomp hafter]
    exact hsource

theorem extractFileOperations_eq (messages : List Message) (path : List Entry) :
    extractFileOperations messages (latestCompaction path) =
      (recordedOn path).map (messages.foldl extractFileOpsFromMessage ·) := by
  unfold extractFileOperations recordedOn
  cases latestCompaction path with
  | none => rfl
  | some compaction =>
    dsimp only
    cases recordedFileOps compaction <;> rfl

theorem prepareProjection_fileOps {pathEntries : List Entry} (hfollow : EditsFollow path)
    (hnodup : (path.map Entry.id).Nodup)
    (h : prepareProjection env stringify (projectPath env path) pathEntries settings =
      some (some preparation)) :
    preparation.firstKeptEntryId ≠ "" ∧ ∃ recorded, recordedOn path = some recorded ∧
      preparation.fileOps = (preparation.messagesToSummarize ++
        preparation.turnPrefixMessages).foldl extractFileOpsFromMessage recorded := by
  unfold prepareProjection at h
  dsimp only at h
  obtain ⟨estimate, -, h⟩ := bind_eq_some_iff.mp h
  obtain ⟨cut, -, h⟩ := bind_eq_some_iff.mp h
  split at h
  · simp at h
  split at h
  · simp at h
  rename_i hid
  split at h
  · simp at h
  obtain ⟨fileOps, hfileOps, h⟩ := bind_eq_some_iff.mp h
  simp only [Option.pure_def, some.injEq] at h
  subst h
  rw [previous_eq hfollow hnodup, extractFileOperations_eq] at hfileOps
  obtain ⟨recorded, hrecorded, rfl⟩ := Option.map_eq_some_iff.mp hfileOps
  exact ⟨hid, recorded, hrecorded, foldl_append.symm⟩

theorem buildSessionPath_rootPath (h : Reachable env s) {leaf : Entry}
    (hpath : RootPath s.entries leaf path) :
    buildSessionPath path .unset (buildEntryIndex path) = path := by
  have hs := reachable_consistent h
  have hmoved : Reachable env { s with leafId := some leaf.id } := by
    have hknown : s.byId.contains leaf.id = true :=
      (hs.contains_iff leaf.id).mpr (mem_ids hpath.mem)
    have hop : perform env s (.branch leaf.id) = .ok ({ s with leafId := some leaf.id }, none) := by
      simp [perform, branch, hknown, Except.map]
    exact h.step _ hop
  have hbranch : getBranch { s with leafId := some leaf.id } none = path := hs.getBranch_eq hpath
  have hown := buildSessionPath_branch (reachable_consistent hmoved)
  rwa [hbranch] at hown

def IsBranch (s : Session) (path : List Entry) : Prop :=
  path = [] ∨ ∃ leaf, RootPath s.entries leaf path

theorem IsBranch.initial {more : List Entry} (h : IsBranch s (path ++ more)) : IsBranch s path := by
  rcases eq_nil_or_concat path with rfl | ⟨before, last, rfl⟩
  · exact .inl rfl
  · rw [concat_eq_append, append_assoc] at h
    rw [concat_eq_append]
    rcases h with hnil | ⟨leaf, hpath⟩
    · simp at hnil
    · exact .inr ⟨last, hpath.initial⟩

theorem getBranch_isBranch (h : Consistent env s) (fromId : Option String) :
    IsBranch s (getBranch s fromId) := by
  have hfound : ∀ id, IsBranch s (followParents s.byId (findEntry s.byId id)) := by
    intro id
    cases hentry : findEntry s.byId id with
    | none => exact .inl (followParents_none _)
    | some entry =>
      have hmem : entry ∈ s.entries := by
        cases id with
        | none => cases hentry
        | some id =>
          by_cases hempty : id = ""
          · rw [findEntry, if_pos hempty] at hentry
            cases hentry
          · rw [findEntry, if_neg hempty] at hentry
            exact ((h.get?_eq_some_iff _ _).mp hentry).1
      obtain ⟨path, hpath⟩ := h.grown.exists_rootPath hmem
      rw [h.followParents_eq hpath]
      exact .inr ⟨entry, hpath⟩
  exact hfound _

theorem prepareCompaction_fileOps (h : Reachable env s) (hbranch : IsBranch s path)
    (hprep : prepareCompaction env stringify path settings = some (some preparation)) :
    preparation.firstKeptEntryId ≠ "" ∧ ∃ recorded, recordedOn path = some recorded ∧
      preparation.fileOps = (preparation.messagesToSummarize ++
        preparation.turnPrefixMessages).foldl extractFileOpsFromMessage recorded := by
  rw [prepareCompaction] at hprep
  split at hprep
  · cases hprep
  rw [buildSessionProjection] at hprep
  rcases hbranch with rfl | ⟨leaf, hpath⟩
  · have hfollow : EditsFollow [] := fun _ _ _ _ _ hsplit => by simp at hsplit
    exact prepareProjection_fileOps hfollow nodup_nil hprep
  · rw [buildSessionPath_rootPath h hpath] at hprep
    have hgrown := (reachable_consistent h).grown
    exact prepareProjection_fileOps (reachable_editsFollow h leaf path hpath)
      (((hpath.sublist hgrown).map Entry.id).nodup hgrown.nodup_ids) hprep

/-! ### Tracking -/

structure Recorded (messages : List Message) (recorded : FileOperations) : Prop where
  names : ∀ file, file ∈ recorded.read ∨ file ∈ recorded.edited → ∃ path, file = .str path
  written : recorded.written = ∅
  edited : ∀ path, .str path ∈ recorded.edited ↔
    CalledOn "write" messages path ∨ CalledOn "edit" messages path
  read : ∀ path, .str path ∈ recorded.read ↔
    CalledOn "read" messages path ∧ .str path ∉ recorded.edited

theorem Recorded.nothing : Recorded [] {} where
  names file := by simp
  written := rfl
  edited path := by simp [calledOn_nil]
  read path := by simp [calledOn_nil]

theorem mem_map_str (names : List String) (path : String) :
    Value.str path ∈ (names.map Value.str).toFinset ↔ path ∈ names := by
  simp

theorem ListsFiles.recorded (h : ListsFiles messages readFiles modifiedFiles) : Recorded messages
      { read := (readFiles.map Value.str).toFinset
        edited := (modifiedFiles.map Value.str).toFinset } where
  names file hfile := by
    simp only [mem_toFinset, mem_map] at hfile
    obtain ⟨path, -, rfl⟩ | ⟨path, -, rfl⟩ := hfile <;> exact ⟨path, rfl⟩
  written := rfl
  edited path := by rw [mem_map_str, h.modified]
  read path := by rw [mem_map_str, mem_map_str, h.read]

theorem Recorded.lists {recorded : FileOperations}
    (h : Recorded messages recorded)
    (hlists : computeFileLists (more.foldl extractFileOpsFromMessage recorded) =
      some (readFiles, modifiedFiles)) :
    ListsFiles (messages ++ more) readFiles modifiedFiles := by
  have hmember : ∀ tool, tool ∈ fileTools → ∀ path,
      .str path ∈ filesOf tool (more.foldl extractFileOpsFromMessage recorded) ↔
        .str path ∈ filesOf tool recorded ∨ CalledOn tool more path := by
    intro tool htool path
    rw [mem_extracted htool]
    simp
  have hread := hmember "read" (by decide)
  have hwritten := hmember "write" (by decide)
  have hedited := hmember "edit" (by decide)
  simp only [filesOf, h.written, Finset.notMem_empty, false_or] at hread hwritten hedited
  obtain ⟨hmodifiedFiles, hreadFiles⟩ := mem_computeFileLists hlists
  have hmodified : ∀ path, path ∈ modifiedFiles ↔
      CalledOn "write" (messages ++ more) path ∨ CalledOn "edit" (messages ++ more) path := by
    intro path
    rw [hmodifiedFiles, hwritten, hedited, h.edited, calledOn_append, calledOn_append]
    tauto
  refine ⟨hmodified, fun path => ?_⟩
  rw [hreadFiles, hread, h.read, calledOn_append]
  -- A file that was modified before is modified now.
  have hkept : .str path ∈ recorded.edited → path ∈ modifiedFiles := by
    intro hold
    rw [hmodifiedFiles, hedited]
    exact .inr (.inl hold)
  tauto

theorem Recorded.lists_exist {recorded : FileOperations} (h : Recorded messages recorded) :
    ∃ readFiles modifiedFiles,
      computeFileLists (more.foldl extractFileOpsFromMessage recorded) =
        some (readFiles, modifiedFiles) := by
  have hnames : ∀ tool ∈ fileTools, (∀ file ∈ filesOf tool recorded, ∃ path, file = .str path) →
      ∀ file ∈ filesOf tool (more.foldl extractFileOpsFromMessage recorded),
        ∃ path, file = .str path := by
    intro tool htool hold file hfile
    rcases (mem_extracted htool more recorded file).mp hfile with hfile | ⟨path, -, rfl⟩
    · exact hold file hfile
    · exact ⟨path, rfl⟩
  have hread := hnames "read" (by decide) fun file hfile => h.names file (.inl hfile)
  have hedited := hnames "edit" (by decide) fun file hfile => h.names file (.inr hfile)
  have hwritten := hnames "write" (by decide) (by simp [filesOf, h.written])
  simp only [filesOf] at hread hedited hwritten
  generalize more.foldl extractFileOpsFromMessage recorded = ops at hread hedited hwritten ⊢
  have hmodified : ∃ names, sortedNames (ops.edited ∪ ops.written) = some names :=
    sortedNames_some fun file hfile =>
      (Finset.mem_union.mp hfile).elim (hedited file) (hwritten file)
  have hreadOnly : ∃ names, sortedNames (ops.read.filter (· ∉ ops.edited ∪ ops.written)) =
      some names := sortedNames_some fun file hfile => hread file (Finset.mem_filter.mp hfile).1
  obtain ⟨modifiedFiles, hmodifiedFiles⟩ := hmodified
  obtain ⟨readFiles, hreadFiles⟩ := hreadOnly
  refine ⟨readFiles, modifiedFiles, ?_⟩
  simp only [computeFileLists, hreadFiles, hmodifiedFiles]
  rfl

def entryDetails (entry : Entry) : Option Value :=
  match entry.payload with
  | .compaction _ _ _ details _ _ _ => some details
  | _ => none

/-- The newest compaction of a branch accounts for every message summarized on it. -/
structure Tracked (path : List Entry) (messages : List Message) : Prop where
  recorded : ∃ recorded, recordedOn path = some recorded ∧ Recorded messages recorded
  listed : ∀ compaction, latestCompaction path = some compaction →
    ∃ readFiles modifiedFiles,
      entryDetails compaction = some (fileDetails readFiles modifiedFiles) ∧
        ListsFiles messages readFiles modifiedFiles

theorem compact_details (h : compact calls preparation = some result) : ∃ readFiles modifiedFiles,
      computeFileLists preparation.fileOps = some (readFiles, modifiedFiles) ∧
        result.details = fileDetails readFiles modifiedFiles := by
  unfold compact at h
  obtain ⟨text, -, h⟩ := bind_eq_some_iff.mp h
  obtain ⟨⟨readFiles, modifiedFiles⟩, hlists, h⟩ := bind_eq_some_iff.mp h
  dsimp only at h
  split at h
  · cases h
  · cases h
    exact ⟨readFiles, modifiedFiles, hlists, rfl⟩

theorem Tracked.append (h : Tracked path messages) {entry : Entry}
    (hentry : entry.isCompaction = false) : Tracked (path ++ [entry]) messages := by
  have hlatest : latestCompaction (path ++ [entry]) = latestCompaction path :=
    latestCompaction_append (by simpa using hentry)
  refine ⟨?_, ?_⟩
  · rw [recordedOn, hlatest]
    exact h.recorded
  · rw [hlatest]
    exact h.listed

theorem Tracked.compaction
    {recorded : FileOperations} (hrecorded : Recorded messages recorded)
    (hops : preparation.fileOps = more.foldl extractFileOpsFromMessage recorded)
    (hmade : compact calls preparation = some result) {compaction : Entry}
    {fromHook : Option Bool} {systemMessage : Option SystemMessage}
    (hpayload : compaction.payload = .compaction result.summary result.firstKeptEntryId
      result.tokensBefore result.details (some result.usage) fromHook systemMessage)
    (hown : fromHook ≠ some true) : Tracked (path ++ [compaction]) (messages ++ more) := by
  obtain ⟨readFiles, modifiedFiles, hlists, hdetails⟩ := compact_details hmade
  rw [hops] at hlists
  rw [hdetails] at hpayload
  have hfiles := hrecorded.lists hlists
  have hcomp : compaction.isCompaction = true := by rw [Entry.isCompaction, hpayload]
  have hlatest : latestCompaction (path ++ [compaction]) = some compaction := by
    rw [latestCompaction_concat, if_pos hcomp]
  refine ⟨⟨_, ?_, hfiles.recorded⟩, ?_⟩
  · rw [recordedOn, hlatest]
    exact recordedFileOps_fileDetails hpayload hown
  · intro other hother
    obtain rfl := some.inj (hlatest.symm.trans hother)
    exact ⟨readFiles, modifiedFiles, by rw [entryDetails, hpayload], hfiles⟩

theorem Compacted.tracked (h : Reachable env s)
    (hpath : Compacted env stringify calls path messages) (hbranch : IsBranch s path) :
    Tracked path messages := by
  induction hpath with
  | start => exact ⟨⟨_, rfl, .nothing⟩, fun _ hlatest => by cases hlatest⟩
  | entry _ hother ih => exact (ih hbranch.initial).append hother
  | compaction _ quiet prepared made payload own ih =>
    obtain ⟨old, hold, hrecorded⟩ := (ih hbranch.initial).recorded
    rw [recordedOn, latestCompaction_append quiet, ← recordedOn] at hold
    obtain ⟨-, recorded, hstart, hops⟩ :=
      prepareCompaction_fileOps h hbranch.initial.initial prepared
    obtain rfl := some.inj (hold.symm.trans hstart)
    exact Tracked.compaction hrecorded hops made payload own

/-- On every branch whose compactions were all prepared and made here, the lists of the newest
compaction name exactly the files of all messages summarized on the branch. -/
theorem latestCompaction_lists {s : Session} (h : Reachable env s) {fromId : Option String}
    {messages : List Message} (hpath : Compacted env stringify calls (getBranch s fromId) messages)
    {compaction : Entry} (hlatest : latestCompaction (getBranch s fromId) = some compaction) :
    ∃ readFiles modifiedFiles,
      entryDetails compaction = some (fileDetails readFiles modifiedFiles) ∧
        ListsFiles messages readFiles modifiedFiles :=
  (hpath.tracked h (getBranch_isBranch (reachable_consistent h) fromId)).listed compaction hlatest

theorem Compacted.compact_some (h : Reachable env s)
    (hpath : Compacted env stringify calls path messages) (hbranch : IsBranch s path)
    (prepared : prepareCompaction env stringify path settings = some (some preparation))
    {text : String} {usage : Usage} (hsummary : summarize calls preparation = some (text, usage)) :
    ∃ result, compact calls preparation = some result := by
  obtain ⟨old, hold, hrecorded⟩ := (hpath.tracked h hbranch).recorded
  obtain ⟨hid, recorded, hstart, hops⟩ := prepareCompaction_fileOps h hbranch prepared
  obtain rfl := some.inj (hold.symm.trans hstart)
  have hexist : ∃ readFiles modifiedFiles,
      computeFileLists preparation.fileOps = some (readFiles, modifiedFiles) := by
    rw [hops]
    exact hrecorded.lists_exist
  obtain ⟨readFiles, modifiedFiles, hlists⟩ := hexist
  simp [compact, hsummary, hlists, hid]

theorem Compacted.appendCompaction (h : Reachable env s)
    (hpath : Compacted env stringify calls (getBranch s none) messages)
    (prepared : prepareCompaction env stringify (getBranch s none) settings =
      some (some preparation)) (made : compact calls preparation = some result) (now : String) :
    ∃ compaction, compaction.isCompaction = true ∧
      getBranch (SessionManager.appendCompaction env s now result.summary
        (some result.firstKeptEntryId) result.tokensBefore result.details (some false)
        (some result.usage)).1 none = getBranch s none ++ [compaction] ∧
      Compacted env stringify calls (getBranch s none ++ [compaction])
        (messages ++ (preparation.messagesToSummarize ++ preparation.turnPrefixMessages)) := by
  have hstep := appendPayload_step env s now (fun id => .compaction result.summary
    ((some result.firstKeptEntryId).getD id) result.tokensBefore result.details (some result.usage)
    (some false) (compactionSystemMessage env s now)) (by simp) (by simp)
  refine ⟨_, rfl, getBranch_append (reachable_consistent h) hstep rfl, ?_⟩
  have hbefore : Compacted env stringify calls (getBranch s none ++ []) messages := by
    rwa [append_nil]
  rw [← append_nil (getBranch s none)]
  exact .compaction hbefore (by simp) prepared made rfl (by simp)

end Branch

/-- Summaries that say nothing. -/
def quietSummarizer : Summarizer where
  generateSummary := fun _ _ => some ("", zeroUsage)
  generateTurnPrefixSummary := fun _ => some ("", zeroUsage)
  combineUsage := fun first _ => first

def readingMessage : AssistantMessage where
  content := .blocks [.toolCall
    { id := "c", name := "read", arguments := [("path", .str "a.py")] }]
  api := "a"
  provider := "p"
  model := "m"
  usage := zeroUsage
  stopReason := .toolUse
  timestamp := 2

/-- A file is read before the second request. -/
def readOnce : Session :=
  run plainEnvironment (newSession ⟨"s", "t0", "/", none⟩ 0)
    [.appendMessage "t1" (.user ⟨.text "first", 1⟩),
      .appendMessage "t2" (.assistant readingMessage),
      .appendMessage "t3" (.user ⟨.text "second", 3⟩)]

theorem latestCompaction_lists_readOnce : ∃ preparation result,
    prepareCompaction plainEnvironment (fun _ => "\x7b\x7d") (getBranch readOnce none)
      ⟨true, 0, 1⟩ = some (some preparation) ∧
    compact quietSummarizer preparation = some result ∧
    ∃ compaction, latestCompaction (getBranch (SessionManager.appendCompaction plainEnvironment
        readOnce "t4" result.summary (some result.firstKeptEntryId) result.tokensBefore
        result.details (some false) (some result.usage)).1 none) = some compaction ∧
      ∃ readFiles modifiedFiles,
        entryDetails compaction = some (fileDetails readFiles modifiedFiles) ∧
          ListsFiles (preparation.messagesToSummarize ++ preparation.turnPrefixMessages)
            readFiles modifiedFiles := by
  have hreach : Reachable plainEnvironment readOnce :=
    (Reachable.start ⟨"s", "t0", "/", none⟩ 0).run _
  have hpath : Compacted plainEnvironment (fun _ => "\x7b\x7d") quietSummarizer
      (getBranch readOnce none) [] := by
    have hall : ∀ entry ∈ getBranch readOnce none, entry.isCompaction = false := by decide
    generalize getBranch readOnce none = path at hall
    induction path using reverseRecOn with
    | nil => exact .start
    | append_singleton path entry ih =>
      exact (ih fun other hother => hall other (mem_append_left _ hother)).entry
        (hall entry (by simp))
  have hsome : ((prepareCompaction plainEnvironment (fun _ => "\x7b\x7d") (getBranch readOnce none)
      ⟨true, 0, 1⟩).bind id).isSome = true := by
    decide
  obtain ⟨preparation, hbind⟩ := Option.isSome_iff_exists.mp hsome
  obtain ⟨inner, hprep, rfl⟩ := bind_eq_some_iff.mp hbind
  have hsummary : ∃ text usage, summarize quietSummarizer preparation = some (text, usage) := by
    unfold summarize quietSummarizer
    split
    · dsimp only
      split <;> exact ⟨_, _, rfl⟩
    · exact ⟨_, _, rfl⟩
  obtain ⟨text, usage, hsummary⟩ := hsummary
  obtain ⟨result, hmade⟩ := hpath.compact_some hreach
    (getBranch_isBranch (reachable_consistent hreach) none) hprep hsummary
  obtain ⟨compaction, hcomp, hnext, hafter⟩ := hpath.appendCompaction hreach hprep hmade "t4"
  have hmoved := hreach.step (.appendCompaction "t4" result.summary (some result.firstKeptEntryId)
    result.tokensBefore result.details (some false) (some result.usage)) rfl
  have hlatest : latestCompaction (getBranch readOnce none ++ [compaction]) = some compaction := by
    rw [latestCompaction_concat, if_pos hcomp]
  rw [← hnext] at hafter hlatest
  exact ⟨preparation, result, hprep, hmade, compaction, hlatest,
    latestCompaction_lists hmoved hafter hlatest⟩

end Pidrei.FileTracking
