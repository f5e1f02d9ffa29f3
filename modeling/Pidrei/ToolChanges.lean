import Pidrei.AgentTypes
import Pidrei.Transcript

/-!
Tool declarations in the transcript. Before each request the difference between
the tools the transcript declares and the tools the run can execute is put on a
system message. The replay then shows exactly the executable tools, as a map
from name to declaration, unless two executable tools share a name and differ:
then the declaration goes back and forth from one request to the next.
-/
namespace Pidrei.ToolChanges

open Values Messages Transcript AgentTypes List
open OrderedMap (empty erase get? insertAll lookup_filter_const ofList values)

mutual

/-- `json.dumps(.., sort_keys=True)` prints a value with the keys of every dict
in order; two values print alike when they are equal up to the order of keys. -/
def sortKeys : Value → Value
  | .dict items => .dict ((sortItems items).insertionSort (fun a b => a.1 ≤ b.1))
  | .list items => .list (sortList items)
  | .record fields => .record fields
  | .null => .null
  | .bool b => .bool b
  | .num n => .num n
  | .str s => .str s

def sortList : List Value → List Value
  | [] => []
  | v :: rest => sortKeys v :: sortList rest

def sortItems : Items → Items
  | [] => []
  | (k, v) :: rest => (k, sortKeys v) :: sortItems rest

end

/-- The four fields a declaration has. The JSON round trip of the parameters
detaches the copy; a JSON value comes back as it is. -/
def toToolDeclaration (tool : Tool) : Tool :=
  { name := tool.name
    description := tool.description
    parameters := tool.parameters
    constrainedSampling := tool.constrainedSampling }

def samplingJson : ConstrainedSampling → Value
  | .disabled => .bool false
  | .jsonSchema strict =>
    .dict [("type", .str "json_schema"),
      ("strict", .str (match strict with | .prefer => "prefer" | .require => "require"))]
  | .grammar variants =>
    .dict [("type", .str "grammar"),
      ("variants", .dict (variants.map (fun item => (item.1, .str item.2))))]

def declarationJson (tool : Tool) : Value :=
  let declaration := toToolDeclaration tool
  let shape := [("name", .str declaration.name), ("description", .str declaration.description),
    ("parameters", .dict declaration.parameters)]
  sortKeys (.dict (match declaration.constrainedSampling with
    | none => shape
    | some sampling => shape ++ [("constrainedSampling", samplingJson sampling)]))

def declarationsEqual (left right : Tool) : Bool := declarationJson left = declarationJson right

structure ToolStateChanges where
  toolsAdded : List Tool
  toolsRemoved : List ToolReference

/-- `{tool.name: tool for tool in tools}`: the last tool of a name counts. -/
def toolMap (tools : List Tool) : OrderedMap String Tool :=
  ofList (tools.map (fun tool => (tool.name, tool)))

def differsFrom (state : OrderedMap String Tool) (tool : Tool) : Bool :=
  match state.get? tool.name with
  | none => true
  | some other => !declarationsEqual other tool

def getToolStateChanges (previous current : List Tool) : ToolStateChanges :=
  let previousTools := toolMap previous
  let currentTools := toolMap current
  { toolsAdded := (current.filter (differsFrom previousTools)).map toToolDeclaration
    toolsRemoved := (previous.filter (differsFrom currentTools)).map
      (fun tool => ⟨tool.name⟩) }

def noChanges : ToolStateChanges := ⟨[], []⟩

/-- Replace the tool fields of a system message; empty lists omit the field. -/
def withToolChanges (message : SystemMessage) (changes : ToolStateChanges) : SystemMessage :=
  { message with
    toolsAdded := if changes.toolsAdded.isEmpty then none else some changes.toolsAdded
    toolsRemoved := if changes.toolsRemoved.isEmpty then none else some changes.toolsRemoved }

def splitAtLastSystem : List Message → Option (List Message × SystemMessage × List Message)
  | [] => none
  | message :: rest =>
    match splitAtLastSystem rest with
    | some (before, last, after) => some (message :: before, last, after)
    | none =>
      match message with
      | .system m => some ([], m, rest)
      | _ => none

def declareToolChanges (context : AgentContext) (pending : List Message) (now : Int) :
    List Message :=
  let tools := context.tools.map (fun tool => toToolDeclaration tool.toTool)
  match splitAtLastSystem pending with
  | some (before, last, after) =>
    let baseline := before ++ .system (withToolChanges last noChanges) :: after
    let changes := getToolStateChanges (getCurrentTools (context.messages ++ baseline)) tools
    let unchanged := changes.toolsAdded.isEmpty && changes.toolsRemoved.isEmpty
    -- Keep the caller's message when it declares no tool changes already.
    if unchanged && (last.toolsAdded.getD []).isEmpty && (last.toolsRemoved.getD []).isEmpty
    then pending
    else before ++ .system (withToolChanges last changes) :: after
  | none =>
    let changes := getToolStateChanges (getCurrentTools (context.messages ++ pending)) tools
    if changes.toolsAdded.isEmpty && changes.toolsRemoved.isEmpty then pending
    else
      let update := withToolChanges { content := .text "", timestamp := now } changes
      let index := pending.findIdx (fun message => !message.isSystem)
      pending.take index ++ .system update :: pending.drop index

theorem splitAtLastSystem_some (pending before after : List Message) (last : SystemMessage)
    (h : splitAtLastSystem pending = some (before, last, after)) :
    pending = before ++ .system last :: after ∧ ∀ message ∈ after, message.isSystem = false := by
  induction pending generalizing before with
  | nil => simp [splitAtLastSystem] at h
  | cons message rest ih =>
    cases hrest : splitAtLastSystem rest with
    | some found =>
      obtain ⟨before', last', after'⟩ := found
      simp only [splitAtLastSystem, hrest, Option.some.injEq, Prod.mk.injEq] at h
      obtain ⟨rfl, rfl, rfl⟩ := h
      obtain ⟨hsplit, hafter⟩ := ih before' hrest
      exact ⟨by rw [hsplit]; rfl, hafter⟩
    | none =>
      have hnone : ∀ other ∈ rest, other.isSystem = false := by
        clear ih h
        induction rest with
        | nil => simp
        | cons other tail ih =>
          cases htail : splitAtLastSystem tail with
          | some found => simp [splitAtLastSystem, htail] at hrest
          | none =>
            cases other <;> simp [splitAtLastSystem, htail, Message.isSystem] at hrest ⊢ <;>
              exact ih htail
      cases message <;> simp only [splitAtLastSystem, hrest, Option.some.injEq, Prod.mk.injEq,
        reduceCtorEq] at h
      obtain ⟨rfl, rfl, rfl⟩ := h
      exact ⟨rfl, hnone⟩

variable (pending : List Message) (context : AgentContext)

theorem splitAtLastSystem_none :
    splitAtLastSystem pending = none ↔ ∀ message ∈ pending, message.isSystem = false := by
  induction pending with
  | nil => simp [splitAtLastSystem]
  | cons message rest ih =>
    cases hrest : splitAtLastSystem rest with
    | some found =>
      have hnot : ¬ ∀ other ∈ rest, other.isSystem = false := by
        rw [← ih, hrest]
        simp
      simp only [splitAtLastSystem, hrest, reduceCtorEq, forall_mem_cons, hnot, and_false]
    | none =>
      have hall := ih.mp hrest
      cases message <;> simp only [splitAtLastSystem, hrest, Message.isSystem,
        forall_mem_cons, reduceCtorEq, Bool.true_eq_false, false_and, true_and, true_iff]
      all_goals exact hall

def applyChanges (tools : OrderedMap String Tool) (changes : ToolStateChanges) :
    OrderedMap String Tool :=
  replayTools tools (.system (withToolChanges { content := .text "", timestamp := 0 } changes))

theorem applyChanges_eq (tools : OrderedMap String Tool) (changes : ToolStateChanges) :
    applyChanges tools changes =
      ((changes.toolsRemoved.map ToolReference.name).foldl erase tools).insertAll
        (changes.toolsAdded.map (fun tool => (tool.name, tool))) := by
  obtain ⟨added, removed⟩ := changes
  cases added <;> cases removed <;>
    simp [applyChanges, replayTools, withToolChanges, insertAll, foldl_map]

theorem replayTools_withToolChanges (tools : OrderedMap String Tool) (message : SystemMessage)
    (changes : ToolStateChanges) :
    replayTools tools (.system (withToolChanges message changes)) =
      applyChanges tools changes := rfl

theorem applyChanges_noChanges (tools : OrderedMap String Tool) :
    applyChanges tools noChanges = tools := by
  simp [applyChanges_eq, noChanges, insertAll]

variable {tools : OrderedMap String Tool}

theorem toolMap_values (h : NamedTools tools) : toolMap tools.values = tools := by
  have hrebuild := h.rebuild
  simpa only [toolMap, ofList, insertAll, foldl_map] using hrebuild

theorem get?_toolMap (tools : List Tool) (name : String) :
    (toolMap tools).get? name =
      (tools.map (fun tool => (tool.name, tool))).reverse.lookup name :=
  OrderedMap.get?_ofList _ _

theorem mem_of_get?_toolMap {tools : List Tool} {name : String} {tool : Tool}
    (h : (toolMap tools).get? name = some tool) : tool ∈ tools ∧ tool.name = name := by
  rw [get?_toolMap] at h
  have hmem : (name, tool) ∈ (tools.map (fun tool => (tool.name, tool))).reverse := by
    generalize (tools.map (fun tool => (tool.name, tool))).reverse = items at h
    induction items with
    | nil => simp at h
    | cons item rest ih =>
      rw [OrderedMap.lookup_cons_ite] at h
      split at h
      · rename_i hname
        rw [hname, ← Option.some.inj h]
        exact mem_cons_self
      · exact mem_cons_of_mem _ (ih h)
  obtain ⟨other, hother, heq⟩ := mem_map.mp (mem_reverse.mp hmem)
  obtain ⟨hname, rfl⟩ := Prod.mk.inj heq
  exact ⟨hother, hname⟩

theorem get?_toolMap_isSome {tools : List Tool} {tool : Tool} (h : tool ∈ tools) :
    ∃ last, (toolMap tools).get? tool.name = some last := by
  rw [← Option.isSome_iff_exists, get?_toolMap, OrderedMap.lookup_isSome_iff]
  simpa using ⟨tool, h, rfl⟩

/-- No name is declared in two ways by the executable tools. -/
def NoConflict (tools : List Tool) : Prop :=
  ∀ tool ∈ tools, ∀ other ∈ tools, tool.name = other.name →
    declarationJson tool = declarationJson other

/-- Two tool states show the model the same declaration, or none, under every name. -/
def SameDeclarations (left right : OrderedMap String Tool) : Prop :=
  ∀ name, (left.get? name).map declarationJson = (right.get? name).map declarationJson

theorem differsFrom_eq_false_iff (state : OrderedMap String Tool) (tool : Tool) :
    differsFrom state tool = false ↔
      ∃ other, state.get? tool.name = some other ∧
        declarationJson other = declarationJson tool := by
  cases h : state.get? tool.name <;> simp [differsFrom, h, declarationsEqual]

theorem mem_removed_iff (h : NamedTools tools) (current : List Tool) (name : String) :
    name ∈ (getToolStateChanges tools.values current).toolsRemoved.map ToolReference.name ↔
      ∃ tool, tools.get? name = some tool ∧ differsFrom (toolMap current) tool = true := by
  simp only [getToolStateChanges, values, map_map, mem_map, mem_filter,
    Function.comp_apply]
  constructor
  · rintro ⟨tool, ⟨⟨item, hitem, rfl⟩, hdiffers⟩, rfl⟩
    refine ⟨item.2, ?_, hdiffers⟩
    rw [OrderedMap.get?_eq_some_iff_mem, h item hitem]
    exact hitem
  · rintro ⟨tool, hget, hdiffers⟩
    have hitem := (tools.get?_eq_some_iff_mem name tool).mp hget
    exact ⟨tool, ⟨⟨(name, tool), hitem, rfl⟩, hdiffers⟩, h _ hitem⟩

theorem applyChanges_sameDeclarations (h : NamedTools tools) (current : List Tool)
    (hclean : NoConflict current) :
    SameDeclarations (applyChanges tools (getToolStateChanges tools.values current))
      (toolMap current) := by
  intro name
  have hadded : (getToolStateChanges tools.values current).toolsAdded.map
      (fun tool => (tool.name, tool)) =
        (current.map (fun tool => (tool.name, tool))).filter
          (fun item => differsFrom tools item.2) := by
    simp only [getToolStateChanges, toolMap_values h, map_map, filter_map]
    rfl
  have hremoved := mem_removed_iff h current name
  rw [applyChanges_eq, OrderedMap.get?_insertAll, hadded, OrderedMap.get?_foldl_erase,
    ← filter_reverse]
  cases hlast : (toolMap current).get? name with
  | none =>
    -- The name is not executable: nothing is added, and a declared tool is removed.
    have hnone : (current.map (fun tool => (tool.name, tool))).reverse.lookup name = none := by
      rw [← get?_toolMap, hlast]
    have hfilter := lookup_filter_const name (fun item => differsFrom tools item.2)
      false (current.map (fun tool => (tool.name, tool))).reverse (by
        intro item hitem hname
        have hmem : name ∈ ((current.map (fun tool => (tool.name, tool))).reverse).map Prod.fst :=
          mem_map.mpr ⟨item, hitem, hname⟩
        rw [← OrderedMap.lookup_isSome_iff, hnone] at hmem
        simp at hmem)
    simp only [Bool.false_eq_true, if_false] at hfilter
    rw [hfilter]
    cases hold : tools.get? name with
    | none => simp
    | some old =>
      have hname : old.name = name := h _ ((tools.get?_eq_some_iff_mem name old).mp hold)
      have hgone : name ∈ (getToolStateChanges tools.values current).toolsRemoved.map
          ToolReference.name :=
        hremoved.mpr ⟨old, hold, by simp [differsFrom, hname, hlast]⟩
      simp [hgone]
  | some last =>
    obtain ⟨hlastMem, hlastName⟩ := mem_of_get?_toolMap hlast
    have hsame : ∀ item ∈ (current.map (fun tool => (tool.name, tool))).reverse, item.1 = name →
        differsFrom tools item.2 = differsFrom tools last := by
      intro item hitem hname
      obtain ⟨tool, htool, rfl⟩ := mem_map.mp (mem_reverse.mp hitem)
      have heq := hclean tool htool last hlastMem (hname.trans hlastName.symm)
      have hnames : tool.name = last.name := hname.trans hlastName.symm
      simp only [differsFrom, hnames, declarationsEqual, heq]
    have hfilter := lookup_filter_const name (fun item => differsFrom tools item.2)
      (differsFrom tools last) _ hsame
    rw [hfilter, ← get?_toolMap, hlast]
    cases hdiffers : differsFrom tools last with
    | true => simp
    | false =>
      -- The declared tool stays and is declared alike.
      obtain ⟨old, hold, hdecl⟩ := (differsFrom_eq_false_iff tools last).mp hdiffers
      rw [hlastName] at hold
      have hname : old.name = name := h _ ((tools.get?_eq_some_iff_mem name old).mp hold)
      have hstays : name ∉ (getToolStateChanges tools.values current).toolsRemoved.map
          ToolReference.name := by
        rw [hremoved]
        rintro ⟨other, hother, hother'⟩
        rw [hold] at hother
        rw [← Option.some.inj hother] at hother'
        have : differsFrom (toolMap current) old = false :=
          (differsFrom_eq_false_iff _ _).mpr ⟨last, by rw [hname, hlast], hdecl.symm⟩
        rw [this] at hother'
        exact Bool.false_ne_true hother'
      simp [hstays, hold, hdecl]

theorem changes_eq_noChanges_iff (tools : OrderedMap String Tool) (h : NamedTools tools)
    (current : List Tool) :
    getToolStateChanges tools.values current = noChanges ↔
      (∀ tool ∈ current, differsFrom tools tool = false) ∧
        ∀ tool ∈ tools.values, differsFrom (toolMap current) tool = false := by
  simp [getToolStateChanges, noChanges, toolMap_values h, filter_eq_nil_iff]

theorem no_changes_of_same (h : NamedTools tools) (current : List Tool)
    (hclean : NoConflict current) (hsame : SameDeclarations tools (toolMap current)) :
    getToolStateChanges tools.values current = noChanges := by
  rw [changes_eq_noChanges_iff tools h]
  constructor
  · intro tool htool
    obtain ⟨last, hlast⟩ := get?_toolMap_isSome htool
    obtain ⟨hlastMem, hlastName⟩ := mem_of_get?_toolMap hlast
    have hname := hsame tool.name
    rw [hlast, Option.map_some] at hname
    obtain ⟨old, hold, hdecl⟩ := Option.map_eq_some_iff.mp hname
    exact (differsFrom_eq_false_iff tools tool).mpr
      ⟨old, hold, hdecl.trans (hclean last hlastMem tool htool hlastName)⟩
  · intro tool htool
    obtain ⟨item, hitem, rfl⟩ := mem_map.mp htool
    have hget := (tools.get?_eq_some_iff_mem item.1 item.2).mpr hitem
    have hname := hsame item.1
    rw [hget, Option.map_some] at hname
    obtain ⟨last, hlast, hdecl⟩ := Option.map_eq_some_iff.mp hname.symm
    exact (differsFrom_eq_false_iff _ _).mpr ⟨last, by rw [h item hitem, hlast], hdecl⟩

theorem noConflict_of_no_added (tools : OrderedMap String Tool) (current : List Tool)
    (h : ∀ tool ∈ current, differsFrom tools tool = false) : NoConflict current := by
  intro tool htool other hother hname
  obtain ⟨old, hold, hdecl⟩ := (differsFrom_eq_false_iff tools tool).mp (h tool htool)
  obtain ⟨old', hold', hdecl'⟩ := (differsFrom_eq_false_iff tools other).mp (h other hother)
  rw [hname, hold'] at hold
  rw [← hdecl, ← hdecl', Option.some.inj hold]

theorem foldl_replayTools_pass (tools : OrderedMap String Tool) (messages : List Message)
    (h : ∀ message ∈ messages, message.isSystem = false) :
    messages.foldl replayTools tools = tools :=
  Checkpoint.replay_of_no_updates replayTools Message.isSystem (by
    intro s message hm
    cases message with
    | system m => simp [Message.isSystem] at hm
    | _ => rfl) tools messages h

theorem replayTools_of_no_tools (tools : OrderedMap String Tool) (message : SystemMessage)
    (hadded : (message.toolsAdded.getD []).isEmpty) (hremoved : (message.toolsRemoved.getD []).isEmpty) :
    replayTools tools (.system message) = tools := by
  simp [replayTools, isEmpty_iff.mp hadded, isEmpty_iff.mp hremoved]

def declarations (context : AgentContext) : List Tool :=
  context.tools.map (fun tool => toToolDeclaration tool.toTool)

theorem changes_empty_iff (changes : ToolStateChanges) :
    (changes.toolsAdded.isEmpty && changes.toolsRemoved.isEmpty) = true ↔ changes = noChanges := by
  obtain ⟨added, removed⟩ := changes
  simp [noChanges]

theorem declareToolChanges_state (pending : List Message) (now : Int) :
    ∃ tools : OrderedMap String Tool, NamedTools tools ∧
      (context.messages ++ declareToolChanges context pending now).foldl replayTools
          empty =
        applyChanges tools (getToolStateChanges tools.values (declarations context)) := by
  cases hsplit : splitAtLastSystem pending with
  | some found =>
    obtain ⟨before, last, after⟩ := found
    obtain ⟨hpending, hafter⟩ := splitAtLastSystem_some pending before after last hsplit
    refine ⟨(context.messages ++ (before ++ .system (withToolChanges last noChanges) :: after)).foldl
      replayTools empty, namedTools_foldl _, ?_⟩
    have hbase : (context.messages ++ (before ++ .system (withToolChanges last noChanges) :: after)).foldl
        replayTools empty =
          (context.messages ++ before).foldl replayTools empty := by
      rw [← append_assoc, foldl_append, foldl_cons, replayTools_withToolChanges,
        applyChanges_noChanges, foldl_replayTools_pass _ after hafter]
    rw [declareToolChanges, hsplit]
    simp only [show ∀ messages : List Message, getCurrentTools messages =
      (messages.foldl replayTools empty).values from fun _ => rfl]
    generalize hchanges : getToolStateChanges (values
      ((context.messages ++ (before ++ .system (withToolChanges last noChanges) :: after)).foldl
        replayTools empty))
      (context.tools.map (fun tool => toToolDeclaration tool.toTool)) = changes
    by_cases hkeep : (changes.toolsAdded.isEmpty && changes.toolsRemoved.isEmpty &&
        (last.toolsAdded.getD []).isEmpty && (last.toolsRemoved.getD []).isEmpty) = true
    · rw [if_pos hkeep]
      simp only [Bool.and_eq_true] at hkeep
      obtain ⟨⟨hnone, hadded⟩, hremoved⟩ := hkeep
      have hchanges' := (changes_empty_iff changes).mp (Bool.and_eq_true_iff.mpr hnone)
      rw [declarations, hchanges, hchanges', applyChanges_noChanges, hbase, hpending,
        ← append_assoc, foldl_append, foldl_cons,
        replayTools_of_no_tools _ last hadded hremoved, foldl_replayTools_pass _ after hafter]
    · rw [if_neg hkeep, declarations, hchanges, hbase, ← append_assoc, foldl_append,
        foldl_cons, replayTools_withToolChanges, foldl_replayTools_pass _ after hafter]
  | none =>
    have hpass := (splitAtLastSystem_none pending).mp hsplit
    refine ⟨(context.messages ++ pending).foldl replayTools empty, namedTools_foldl _, ?_⟩
    rw [declareToolChanges, hsplit]
    simp only [show ∀ messages : List Message, getCurrentTools messages =
      (messages.foldl replayTools empty).values from fun _ => rfl]
    generalize hchanges : getToolStateChanges (values
      ((context.messages ++ pending).foldl replayTools empty))
      (context.tools.map (fun tool => toToolDeclaration tool.toTool)) = changes
    rw [declarations, hchanges]
    by_cases hkeep : (changes.toolsAdded.isEmpty && changes.toolsRemoved.isEmpty) = true
    · rw [if_pos hkeep, (changes_empty_iff changes).mp hkeep, applyChanges_noChanges]
    · have htake : ∀ index, ∀ message ∈ pending.take index, message.isSystem = false :=
        fun index message hm => hpass message (mem_of_mem_take hm)
      have hdrop : ∀ index, ∀ message ∈ pending.drop index, message.isSystem = false :=
        fun index message hm => hpass message (mem_of_mem_drop hm)
      rw [if_neg hkeep, ← append_assoc, foldl_append, foldl_append, foldl_cons,
        replayTools_withToolChanges, foldl_replayTools_pass _ _ (htake _),
        foldl_replayTools_pass _ _ (hdrop _), foldl_append, foldl_replayTools_pass _ pending hpass]
/-- The messages agree, except that a system message may declare other tools. -/
def SameButTools : Message → Message → Prop
  | .system message, .system other =>
    withToolChanges message noChanges = withToolChanges other noChanges
  | message, other => message = other

theorem SameButTools.refl (message : Message) : SameButTools message message := by
  cases message <;> simp [SameButTools]

theorem forall₂_sameButTools_refl (messages : List Message) :
    List.Forall₂ SameButTools messages messages :=
  forall₂_same.mpr fun message _ => SameButTools.refl message

/-- The pending messages stand in the result in order, one for one, and at most one
system message without text or sections is put between them. -/
def KeepsPending (pending result : List Message) : Prop :=
  ∃ before after : List Message, List.Forall₂ SameButTools pending (before ++ after) ∧
    (result = before ++ after ∨ ∃ update : SystemMessage,
      update.content = .text "" ∧ update.sections = none ∧
        result = before ++ .system update :: after)

theorem declareToolChanges_keeps (pending : List Message) (now : Int) :
    KeepsPending pending (declareToolChanges context pending now) := by
  cases hsplit : splitAtLastSystem pending with
  | some found =>
    obtain ⟨before, last, after⟩ := found
    obtain ⟨hpending, -⟩ := splitAtLastSystem_some pending before after last hsplit
    rw [declareToolChanges, hsplit]
    dsimp only
    split
    · exact ⟨pending, [], by simpa using forall₂_sameButTools_refl pending, .inl (by simp)⟩
    · refine ⟨before, _, ?_, .inl rfl⟩
      rw [hpending]
      exact rel_append (forall₂_sameButTools_refl before)
        (.cons rfl (forall₂_sameButTools_refl after))
  | none =>
    rw [declareToolChanges, hsplit]
    dsimp only
    split
    · exact ⟨pending, [], by simpa using forall₂_sameButTools_refl pending, .inl (by simp)⟩
    · refine ⟨_, _, ?_, .inr ⟨_, ?_, ?_, rfl⟩⟩
      · rw [take_append_drop]
        exact forall₂_sameButTools_refl pending
      · rfl
      · rfl

def DeclaresNothing : Message → Prop
  | .system message =>
    (message.toolsAdded.getD []).isEmpty ∧ (message.toolsRemoved.getD []).isEmpty
  | _ => True

theorem foldl_replayTools_nothing (tools : OrderedMap String Tool) (messages : List Message)
    (h : ∀ message ∈ messages, DeclaresNothing message) :
    messages.foldl replayTools tools = tools := by
  induction messages generalizing tools with
  | nil => rfl
  | cons message rest ih =>
    have hhead : replayTools tools message = tools := by
      have hmessage := h message mem_cons_self
      cases message with
      | system m => exact replayTools_of_no_tools tools m hmessage.1 hmessage.2
      | _ => rfl
    rw [foldl_cons, hhead]
    exact ih tools (fun other hother => h other (mem_cons_of_mem _ hother))

theorem declareToolChanges_of_no_changes (later : List Message)
    (now : Int) (hlater : ∀ message ∈ later, DeclaresNothing message)
    (hnone : getToolStateChanges (getCurrentTools context.messages) (declarations context) =
      noChanges) :
    declareToolChanges context later now = later := by
  have hstate : ∀ extra : List Message, (∀ message ∈ extra, DeclaresNothing message) →
      getToolStateChanges (getCurrentTools (context.messages ++ extra)) (declarations context) =
        noChanges := by
    intro extra hextra
    have htools : getCurrentTools (context.messages ++ extra) =
        getCurrentTools context.messages := by
      unfold getCurrentTools
      rw [foldl_append, foldl_replayTools_nothing _ extra hextra]
    rw [htools, hnone]
  cases hsplit : splitAtLastSystem later with
  | some found =>
    obtain ⟨before, last, after⟩ := found
    obtain ⟨hsystem, -⟩ := splitAtLastSystem_some later before after last hsplit
    have hlast : DeclaresNothing (.system last) := hlater _ (by simp [hsystem])
    have hbaseline := hstate (before ++ .system (withToolChanges last noChanges) :: after) (by
      intro message hmessage
      rcases mem_append.mp hmessage with hbefore | hrest
      · exact hlater message (by simp [hsystem, hbefore])
      · rcases mem_cons.mp hrest with rfl | hafter
        · exact ⟨rfl, rfl⟩
        · exact hlater message (by simp [hsystem, hafter]))
    rw [declarations] at hbaseline
    rw [declareToolChanges, hsplit]
    dsimp only
    rw [hbaseline]
    simp [noChanges, hlast.1, hlast.2]
  | none =>
    have hbaseline := hstate later hlater
    rw [declarations] at hbaseline
    rw [declareToolChanges, hsplit]
    dsimp only
    rw [hbaseline]
    simp [noChanges]

theorem no_changes_of_stable (now : Int) (h : declareToolChanges context [] now = []) :
    getToolStateChanges (getCurrentTools context.messages) (declarations context) =
      noChanges := by
  rw [declareToolChanges, splitAtLastSystem] at h
  dsimp only at h
  rw [append_nil] at h
  split at h
  · rename_i hunchanged
    exact (changes_empty_iff _).mp hunchanged
  · simp at h

/-- What one declaration of the tool changes has to achieve: the transcript then declares
the executable tools, the pending messages are kept in order, and declaring again adds
nothing to messages that declare no tools themselves. -/
structure DeclaresActiveTools (context : AgentContext) (pending : List Message) (now : Int) :
    Prop where
  declared : SameDeclarations
    (toolMap (getCurrentTools (context.messages ++ declareToolChanges context pending now)))
    (toolMap (declarations context))
  kept : KeepsPending pending (declareToolChanges context pending now)
  stable : ∀ (later : List Message) (later' : Int),
    (∀ message ∈ later, DeclaresNothing message) →
      declareToolChanges
        { context with messages := context.messages ++ declareToolChanges context pending now }
        later later' = later

/-- Exactly the tool lists without conflicting declarations of a name are declared. -/
theorem declareToolChanges_active_iff (context : AgentContext) (pending : List Message)
    (now : Int) :
    DeclaresActiveTools context pending now ↔ NoConflict (declarations context) := by
  have hnamed := namedTools_foldl (context.messages ++ declareToolChanges context pending now)
  constructor
  · intro h
    have hnone := no_changes_of_stable _ now (h.stable [] now (by simp))
    have hunchanged := (changes_eq_noChanges_iff _ hnamed (declarations context)).mp hnone
    exact noConflict_of_no_added _ _ hunchanged.1
  · intro hclean
    obtain ⟨tools, htools, hreplay⟩ := declareToolChanges_state context pending now
    have hsame : SameDeclarations
        ((context.messages ++ declareToolChanges context pending now).foldl replayTools
          empty) (toolMap (declarations context)) := by
      rw [hreplay]
      exact applyChanges_sameDeclarations htools (declarations context) hclean
    have hnone := no_changes_of_same hnamed (declarations context) hclean hsame
    refine ⟨?_, declareToolChanges_keeps context pending now, ?_⟩
    · unfold getCurrentTools
      rw [toolMap_values hnamed]
      exact hsame
    · intro later later' hlater
      exact declareToolChanges_of_no_changes _ later later' hlater hnone

/-- Two tools of one name that differ in their description. -/
def conflictingContext : AgentContext :=
  { messages := []
    tools := [
      { name := "read", description := "first", parameters := [], constrainedSampling := none,
        label := "read" },
      { name := "read", description := "second", parameters := [], constrainedSampling := none,
        label := "read" }] }

theorem declareToolChanges_conflict : ¬ DeclaresActiveTools conflictingContext [] 0 := by
  intro h
  have hstable := h.stable [] 0 (by simp)
  revert hstable
  decide

end Pidrei.ToolChanges
