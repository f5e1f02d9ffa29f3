import Pidrei.BranchExtraction

/-!
The tree view of a session. Every entry gets a node, nodes are attached to their
parents in append order, and a stack loop sorts the children of every node by
time. In a reachable session the loops end and the tree holds every entry once.
-/
namespace Pidrei.SessionTree

open Values Messages SessionEntries SessionManager SessionInvariant BranchExtraction List
open ParentLog TreeNode
open OrderedMap (empty get? insertAll keys keys_set_of_get?)

/-- A child is given by its entry; its node is the one under the entry's id. -/
structure SessionTreeNode where
  entry : Entry
  children : List Entry
  label : Option String
  labelTimestamp : Option String

structure Tree where
  nodes : OrderedMap String SessionTreeNode
  roots : List Entry

def freshNode (s : Session) (entry : Entry) : SessionTreeNode :=
  { entry := entry
    children := []
    label := s.labelsById.get? entry.id
    labelTimestamp := s.labelTimestampsById.get? entry.id }

def nodeMap (s : Session) : OrderedMap String SessionTreeNode :=
  s.entries.foldl (fun nodes entry => nodes.set entry.id (freshNode s entry)) empty

/-- Put an entry under its parent; without a parent in the tree it is a root. -/
def attachEntry (tree : Tree) (entry : Entry) : Tree :=
  match entry.parentId with
  | none => { tree with roots := tree.roots ++ [entry] }
  | some parentId =>
    if parentId = entry.id then { tree with roots := tree.roots ++ [entry] }
    else match tree.nodes.get? parentId with
      | none => { tree with roots := tree.roots ++ [entry] }
      | some parent =>
        { tree with
          nodes := tree.nodes.set parentId { parent with children := parent.children ++ [entry] } }

/-- Python's sort is stable. -/
def sortByTime (env : Environment) (children : List Entry) : List Entry :=
  children.insertionSort (fun a b => env.epochMs a.timestamp ≤ env.epochMs b.timestamp)

/-- The stack loop that sorts the children of every node it reaches; the top of the stack
is the head of the list. -/
def sortChildren (env : Environment) : Nat → OrderedMap String SessionTreeNode → List Entry →
    Option (OrderedMap String SessionTreeNode)
  | _, nodes, [] => some nodes
  | 0, _, _ :: _ => none
  | fuel + 1, nodes, entry :: stack =>
    match nodes.get? entry.id with
    | none => sortChildren env fuel nodes stack
    | some node =>
      let children := sortByTime env node.children
      sortChildren env fuel (nodes.set entry.id { node with children := children })
        (children.reverse ++ stack)

def getTree (env : Environment) (s : Session) (fuel : Nat) : Option Tree :=
  let tree := s.entries.foldl attachEntry ⟨nodeMap s, []⟩
  (sortChildren env fuel tree.nodes tree.roots.reverse).map
    (fun nodes => { tree with nodes := nodes })

def Tree.childrenOf (tree : Tree) (entry : Entry) : List Entry :=
  ((tree.nodes.get? entry.id).map SessionTreeNode.children).getD []

/-- A tree that holds the entries of a session, each once and under its parent, the
children of a node in the order of time. -/
structure Tree.Holds (env : Environment) (s : Session) (tree : Tree) : Prop where
  roots : tree.roots = s.entries.filter (fun entry => entry.parentId = none)
  nodes : tree.nodes.keys = ids s.entries
  node : ∀ entry ∈ s.entries, ∃ children,
    tree.nodes.get? entry.id = some { freshNode s entry with children := children } ∧
      children.Perm (s.entries.filter (fun child => child.parentId = some entry.id)) ∧
      children.Pairwise (fun a b => env.epochMs a.timestamp ≤ env.epochMs b.timestamp)
  visit : ∀ fuel, s.entries.length ≤ fuel →
    ∃ visited, preorder tree.childrenOf fuel tree.roots = some visited ∧
      visited.Perm s.entries

theorem sortByTime_perm (env : Environment) (children : List Entry) :
    (sortByTime env children).Perm children := perm_insertionSort _ _

theorem sortByTime_pairwise (env : Environment) (children : List Entry) :
    (sortByTime env children).Pairwise
      (fun a b => env.epochMs a.timestamp ≤ env.epochMs b.timestamp) := by
  have : Std.Total (fun a b : Entry => env.epochMs a.timestamp ≤ env.epochMs b.timestamp) :=
    ⟨fun a b => Rat.le_total⟩
  have : IsTrans Entry (fun a b => env.epochMs a.timestamp ≤ env.epochMs b.timestamp) :=
    ⟨fun a b c => Rat.le_trans⟩
  exact pairwise_insertionSort _ _

theorem sortByTime_sortByTime (env : Environment) (children : List Entry) :
    sortByTime env (sortByTime env children) = sortByTime env children :=
  (sortByTime_pairwise env children).insertionSort_eq

theorem get?_nodeMap (s : Session) (before : List Entry) (entry : Entry)
    (h : entry ∈ before) (hids : ∀ other ∈ before, other.id = entry.id → other = entry) :
    (before.foldl (fun nodes entry => nodes.set entry.id (freshNode s entry))
      empty).get? entry.id = some (freshNode s entry) := by
  induction before using reverseRecOn with
  | nil => simp at h
  | append_singleton before last ih =>
    rw [foldl_append, foldl_cons, foldl_nil, OrderedMap.get?_set]
    by_cases heq : entry.id = last.id
    · rw [if_pos heq, hids last (by simp) heq.symm]
    · rw [if_neg heq]
      refine ih ?_ (fun other hother => hids other (by simp [hother]))
      rcases mem_append.mp h with hmem | hlast
      · exact hmem
      · exact absurd (congrArg Entry.id (mem_singleton.mp hlast)) heq

theorem keys_nodeMap (s : Session) (h : Grown s.entries) : (nodeMap s).keys = ids s.entries := by
  have hfold : (nodeMap s).entries =
      s.entries.map (fun entry => (entry.id, freshNode s entry)) := by
    have hfresh := OrderedMap.entries_insertAll_of_fresh empty
      (s.entries.map (fun entry => (entry.id, freshNode s entry))) (by
        rw [OrderedMap.entries_empty, nil_append, map_map]
        exact h.nodup_ids)
    simpa [nodeMap, insertAll, foldl_map] using hfresh
  simp only [OrderedMap.keys, hfold, map_map, ids]
  rfl

def nodeWith (s : Session) (entry : Entry) (children : List Entry) : SessionTreeNode :=
  { freshNode s entry with children := children }

/-- After some entries are attached, each node has the children among them. -/
structure Attached (s : Session) (done : List Entry) (tree : Tree) : Prop where
  roots : tree.roots = ParentLog.roots done
  keys : tree.nodes.keys = ids s.entries
  node : ∀ entry ∈ s.entries,
    tree.nodes.get? entry.id = some (nodeWith s entry (kids done entry.id))

variable {s : Session} {env : Environment}

theorem attached_nil (h : Grown s.entries) : Attached s [] ⟨nodeMap s, []⟩ where
  roots := rfl
  keys := keys_nodeMap s h
  node := fun entry hentry =>
    get?_nodeMap s s.entries entry hentry (fun _ hother hid => h.eq_of_id_eq hother hentry hid)

theorem Attached.snoc {s : Session} (h : Grown s.entries) {done rest : List Entry}
    {entry : Entry} (hsplit : s.entries = done ++ entry :: rest) {tree : Tree}
    (htree : Attached s done tree) : Attached s (done ++ [entry]) (attachEntry tree entry) := by
  have hroots : ParentLog.roots (done ++ [entry]) =
      ParentLog.roots done ++ if entry.parentId = none then [entry] else [] := by
    simp only [ParentLog.roots, filter_append, filter_cons, filter_nil, decide_eq_true_eq]
    rfl
  have hkids : ∀ id, kids (done ++ [entry]) id =
      kids done id ++ if entry.parentId = some id then [entry] else [] := by
    intro id
    simp only [kids, filter_append, filter_cons, filter_nil, decide_eq_true_eq]
    rfl
  cases hparent : entry.parentId with
  | none =>
    simp only [attachEntry, hparent]
    refine ⟨by rw [hroots, hparent, htree.roots, if_pos rfl], htree.keys, fun other hother => ?_⟩
    rw [hkids, hparent, if_neg (by simp), append_nil]
    exact htree.node other hother
  | some parentId =>
    have hbefore : parentId ∈ ids done := h.parent_before hsplit hparent
    obtain ⟨parent, hparentMem, rfl⟩ := mem_map.mp hbefore
    have hmem : parent ∈ s.entries := by rw [hsplit]; exact mem_append_left _ hparentMem
    have hne : parent.id ≠ entry.id := by
      intro heq
      have hnodup := h.nodup_ids
      rw [hsplit, ids_append] at hnodup
      exact (nodup_append.mp hnodup).2.2 _ hbefore _ (mem_ids mem_cons_self) heq
    have hnode := htree.node parent hmem
    change entry.parentId = some parent.id at hparent
    simp only [attachEntry, hparent]
    rw [if_neg hne, hnode]
    refine ⟨by rw [hroots, hparent, if_neg (by simp), append_nil, htree.roots],
      by rw [keys_set_of_get? _ hnode, htree.keys], fun other hother => ?_⟩
    rw [OrderedMap.get?_set, hkids, hparent]
    by_cases hid : other.id = parent.id
    · obtain rfl := h.eq_of_id_eq hother hmem hid
      rw [if_pos rfl, if_pos rfl]
      rfl
    · rw [if_neg hid, if_neg (fun heq => hid (Option.some.inj heq).symm), append_nil]
      exact htree.node other hother

theorem attached_all (h : Grown s.entries) :
    Attached s s.entries (s.entries.foldl attachEntry ⟨nodeMap s, []⟩) := by
  have hrun : ∀ done rest tree, s.entries = done ++ rest → Attached s done tree →
      Attached s s.entries (rest.foldl attachEntry tree) := by
    intro done rest
    induction rest generalizing done with
    | nil =>
      intro tree hsplit htree
      rw [hsplit, append_nil]
      rw [append_nil] at hsplit
      exact htree
    | cons entry rest ih =>
      intro tree hsplit htree
      exact ih (done ++ [entry]) (attachEntry tree entry) (by simpa using hsplit)
        (htree.snoc h hsplit)
  exact hrun [] s.entries _ rfl (attached_nil h)

/-- Nodes whose children are as attached, or sorted already. -/
structure Sorting (env : Environment) (s : Session) (nodes : OrderedMap String SessionTreeNode) :
    Prop where
  keys : nodes.keys = ids s.entries
  node : ∀ entry ∈ s.entries,
    nodes.get? entry.id = some (nodeWith s entry (kids s.entries entry.id)) ∨
      nodes.get? entry.id = some (nodeWith s entry (sortByTime env (kids s.entries entry.id)))

theorem Sorting.set {env : Environment} {s : Session} (h : Grown s.entries)
    {nodes : OrderedMap String SessionTreeNode} (hnodes : Sorting env s nodes) {entry : Entry}
    (hentry : entry ∈ s.entries) :
    Sorting env s
      (nodes.set entry.id (nodeWith s entry (sortByTime env (kids s.entries entry.id)))) where
  keys := by
    rcases hnodes.node entry hentry with hnode | hnode <;>
      rw [keys_set_of_get? _ hnode, hnodes.keys]
  node := by
    intro other hother
    rw [OrderedMap.get?_set]
    by_cases hid : other.id = entry.id
    · obtain rfl := h.eq_of_id_eq hother hentry hid
      rw [if_pos rfl]
      exact .inr rfl
    · rw [if_neg hid]
      exact hnodes.node other hother

theorem sortChildren_spec (env : Environment) (h : Grown s.entries) (n : Nat) (stack : List Entry)
    (hstack : ∀ x ∈ stack, x ∈ s.entries) (hweight : weight s.entries stack = n)
    (nodes : OrderedMap String SessionTreeNode) (hnodes : Sorting env s nodes) :
    ∃ result, (∀ fuel, n ≤ fuel → sortChildren env fuel nodes stack = some result) ∧
      Sorting env s result ∧ ∀ entry ∈ s.entries,
        (entry ∈ stack.flatMap (below s.entries) ∨ nodes.get? entry.id =
          some (nodeWith s entry (sortByTime env (kids s.entries entry.id)))) →
        result.get? entry.id =
          some (nodeWith s entry (sortByTime env (kids s.entries entry.id))) := by
  induction n generalizing stack nodes with
  | zero =>
    cases stack with
    | nil =>
      refine ⟨nodes, fun fuel _ => by cases fuel <;> rfl, hnodes, fun entry _ hentry => ?_⟩
      rcases hentry with hnone | hsorted
      · simp at hnone
      · exact hsorted
    | cons x stack =>
      have hpop := weight_pop h (hstack x mem_cons_self) (List.Perm.refl _) stack
      omega
  | succ n ih =>
    cases stack with
    | nil => simp [weight] at hweight
    | cons x stack =>
      have hx := hstack x mem_cons_self
      have hsortedPerm := sortByTime_perm env (kids s.entries x.id)
      have hperm : (sortByTime env (kids s.entries x.id)).reverse.Perm
          (kids s.entries (nodeId x)) := (reverse_perm _).trans hsortedPerm
      have hpop := weight_pop h hx hperm stack
      have hsub : ∀ y ∈ (sortByTime env (kids s.entries x.id)).reverse ++ stack,
          y ∈ s.entries := by
        intro y hy
        rcases mem_append.mp hy with hchild | hrest
        · exact (mem_kids.mp (hperm.mem_iff.mp hchild)).1
        · exact hstack y (mem_cons_of_mem _ hrest)
      obtain ⟨result, hresult, hsorting, hdone⟩ := ih _ hsub (by omega) _ (hnodes.set h hx)
      refine ⟨result, ?_, hsorting, ?_⟩
      · intro fuel hfuel
        obtain ⟨fuel, rfl⟩ : ∃ m, fuel = m + 1 := ⟨fuel - 1, by omega⟩
        have hrest := hresult fuel (by omega)
        rcases hnodes.node x hx with hnode | hnode
        · rw [sortChildren, hnode]
          exact hrest
        · rw [sortChildren, hnode]
          simp only [nodeWith, sortByTime_sortByTime]
          exact hrest
      · intro entry hentry hwhich
        refine hdone entry hentry ?_
        rw [OrderedMap.get?_set]
        by_cases hid : entry.id = x.id
        · obtain rfl := h.eq_of_id_eq hentry hx hid
          rw [if_pos rfl]
          exact .inr rfl
        · rw [if_neg hid]
          rcases hwhich with hbelow | hsorted
          · refine .inl ?_
            rw [flatMap_cons] at hbelow
            rw [flatMap_append]
            rcases mem_append.mp hbelow with hunder | hrest
            · have hmem := (below_perm h hx).mem_iff.mp hunder
              rcases mem_cons.mp hmem with rfl | hkid
              · exact absurd rfl hid
              · exact mem_append_left _ (((hperm.flatMap_right _).mem_iff).mpr hkid)
            · exact mem_append_right _ hrest
          · exact .inr hsorted

theorem getTree_holds (h : Consistent env s) :
    ∃ tree, (∀ fuel, s.entries.length ≤ fuel → getTree env s fuel = some tree) ∧
      tree.Holds env s := by
  have hattached := attached_all h.grown
  generalize htree : s.entries.foldl attachEntry ⟨nodeMap s, []⟩ = tree at hattached
  have hstackPerm : tree.roots.reverse.Perm (ParentLog.roots s.entries) := by
    rw [hattached.roots]
    exact reverse_perm _
  have hweight : weight s.entries tree.roots.reverse = s.entries.length := by
    rw [weight_perm s.entries hstackPerm, weight_roots h.grown]
  obtain ⟨nodes, hloop, hsorting, hdone⟩ := sortChildren_spec env h.grown _ tree.roots.reverse
    (fun x hx => (mem_filter.mp (hstackPerm.mem_iff.mp hx)).1) hweight tree.nodes
    ⟨hattached.keys, fun entry hentry => .inl (hattached.node entry hentry)⟩
  have hnode : ∀ entry ∈ s.entries, nodes.get? entry.id =
      some (nodeWith s entry (sortByTime env (kids s.entries entry.id))) := by
    intro entry hentry
    refine hdone entry hentry (.inl ?_)
    have hall := (hstackPerm.flatMap_right (below s.entries)).trans (roots_perm h.grown)
    exact hall.mem_iff.mpr hentry
  refine ⟨{ tree with nodes := nodes }, fun fuel hfuel => ?_, ?_⟩
  · simp only [getTree, htree, hloop fuel hfuel, Option.map_some]
  · refine ⟨hattached.roots, hsorting.keys, fun entry hentry => ?_, fun fuel hfuel => ?_⟩
    · exact ⟨_, hnode entry hentry, sortByTime_perm env _, sortByTime_pairwise env _⟩
    · have hchildren : ∀ x ∈ s.entries, (Tree.childrenOf { tree with nodes := nodes } x).Perm
          (kids s.entries (nodeId x)) := by
        intro x hx
        simp only [Tree.childrenOf, hnode x hx]
        exact sortByTime_perm env _
      have hroots : tree.roots.Perm (ParentLog.roots s.entries) := by rw [hattached.roots]
      obtain ⟨visited, hvisited, hperm⟩ := preorder_perm h.grown hchildren fuel tree.roots
        (fun x hx => (mem_filter.mp (hroots.mem_iff.mp hx)).1)
        (by rw [weight_perm s.entries hroots, weight_roots h.grown]; exact hfuel)
      exact ⟨visited, hvisited,
        hperm.trans ((hroots.flatMap_right _).trans (roots_perm h.grown))⟩

/-- The session is a tree, the redundant structures agree with it, and the walks over it
end with the right result. -/
structure TreeInvariant (env : Environment) (s : Session) : Prop where
  distinct : (s.entries.map Entry.id).Nodup
  parents : ∀ before entry after, s.entries = before ++ entry :: after →
    ∀ p, entry.parentId = some p → p ∈ before.map Entry.id
  leaf : ∀ id, s.leafId = some id → id ∈ s.entries.map Entry.id
  index : ∀ id entry, s.byId.get? id = some entry ↔ entry ∈ s.entries ∧ entry.id = id
  branch : ∀ entry ∈ s.entries, ∃ path, RootPath s.entries entry path ∧
    (∀ other, RootPath s.entries entry other → other = path) ∧
    getBranch s (some entry.id) = path ∧
    ∀ fuel, s.entries.length ≤ fuel →
      walk (parentEntry s.byId) fuel (findEntry s.byId (some entry.id)) [] = some path
  tree : ∃ tree, (∀ fuel, s.entries.length ≤ fuel → getTree env s fuel = some tree) ∧
    tree.Holds env s
  labels : s.labelsById = s.entries.foldl replayLabel empty

theorem treeInvariant_of_consistent (h : Consistent env s) : TreeInvariant env s where
  distinct := h.grown.nodup_ids
  parents := fun _ _ _ hsplit _ hp => h.grown.parent_before hsplit hp
  leaf := h.leaf
  index := h.get?_eq_some_iff
  branch := by
    intro entry hentry
    obtain ⟨path, hpath⟩ := h.grown.exists_rootPath hentry
    refine ⟨path, hpath, fun other hother => hother.unique h.grown hpath, h.getBranch_eq hpath, ?_⟩
    intro fuel hfuel
    rw [h.findEntry_self hentry]
    exact h.walk_eq hpath fuel hfuel
  tree := getTree_holds h
  labels := h.labels

theorem reachable_treeInvariant {env : Environment} {s : Session} (h : Reachable env s) :
    TreeInvariant env s := treeInvariant_of_consistent (reachable_consistent h)

/-- Two branches from one message, a label set and a label cleared. -/
def twoBranches : List Operation :=
  [.appendMessage "t1" (.user ⟨.text "hello", 1⟩),
    .appendThinkingLevelChange "t2" "high",
    .appendLabelChange "t3" "aaaaaaaa" (some "start"),
    .branch "aaaaaaaa",
    .branchWithSummary "t4" (some "aaaaaaaa") "left the first try" .null none none,
    .appendLabelChange "t5" "aaaaaaaa" none]

theorem reachable_treeInvariant_twoBranches :
    (run plainEnvironment (newSession ⟨"s", "t0", "/", none⟩ 0) twoBranches).entries.length = 5 ∧
      TreeInvariant plainEnvironment
        (run plainEnvironment (newSession ⟨"s", "t0", "/", none⟩ 0) twoBranches) :=
  ⟨by decide, reachable_treeInvariant ((Reachable.start ⟨"s", "t0", "/", none⟩ 0).run twoBranches)⟩

end Pidrei.SessionTree
