import Mathlib.Data.List.Induction
import Mathlib.Data.List.Nodup
import Mathlib.Data.List.Perm.Basic

/-!
Append-only trees. A log of nodes grows at its end; each node has an identifier
that is new to the log and points to no parent or to a node already in the log.
Every node of such a log has exactly one path from a root, walking the parent
pointers finds it, and visiting the children of the roots with a stack meets
every node once.
-/

class TreeNode (ν : Type*) (ι : outParam (Type*)) where
  nodeId : ν → ι
  parentId : ν → Option ι

namespace ParentLog

open TreeNode List

variable {ν ι : Type*} [TreeNode ν ι]

def ids (log : List ν) : List ι := log.map nodeId

/-- Logs that can be built by appending nodes. -/
inductive Grown : List ν → Prop
  | nil : Grown []
  | snoc {log : List ν} {e : ν} (before : Grown log) (fresh : nodeId e ∉ ids log)
      (parent : ∀ p, parentId e = some p → p ∈ ids log) : Grown (log ++ [e])

/-- The nodes from a root down to `e`, following parent pointers inside the log. -/
inductive RootPath (log : List ν) : ν → List ν → Prop
  | root {e : ν} (mem : e ∈ log) (parent : parentId e = none) : RootPath log e [e]
  | child {e p : ν} {path : List ν} (mem : e ∈ log) (parent : parentId e = some (nodeId p))
      (above : RootPath log p path) : RootPath log e (path ++ [e])

/-- Every node points to the node before it, the first one to `p`. -/
def Linked : Option ι → List ν → Prop
  | _, [] => True
  | p, e :: rest => parentId e = p ∧ Linked (some (nodeId e)) rest

variable {log path : List ν} {e : ν} {next : ν → Option ν}

theorem mem_ids (h : e ∈ log) : nodeId e ∈ ids log :=
  mem_map_of_mem h

theorem ids_append (xs ys : List ν) : ids (xs ++ ys) = ids xs ++ ids ys := map_append

variable {xs ys above : List ν} {f : ν → ν} {x : ν}

theorem linked_append {p : Option ι} (hxs : Linked p xs)
    (hys : Linked (xs.getLast?.elim p (fun x => some (nodeId x))) ys) : Linked p (xs ++ ys) := by
  induction xs generalizing p with
  | nil => exact hys
  | cons x xs ih =>
    refine ⟨hxs.1, ih hxs.2 ?_⟩
    cases hlast : xs.getLast? <;> simpa [getLast?_cons, hlast] using hys

namespace Grown

variable {log : List ν} {e : ν}

theorem nodup_ids (h : Grown log) : (ids log).Nodup := by
  induction h with
  | nil => exact nodup_nil
  | snoc _ fresh _ ih =>
    rw [ids_append]
    exact nodup_append.mpr ⟨ih, by simp [ids], by
      intro a ha b hb
      simp only [ids, map_cons, map_nil, mem_singleton] at hb
      rintro rfl
      exact fresh (hb ▸ ha)⟩

theorem nodup (h : Grown log) : log.Nodup := h.nodup_ids.of_map nodeId

theorem eq_of_id_eq (h : Grown log) {f : ν} (he : e ∈ log) (hf : f ∈ log)
    (hid : nodeId e = nodeId f) : e = f := inj_on_of_nodup_map h.nodup_ids he hf hid

variable {p : ι}

theorem parent_before (h : Grown log) {before after : List ν} (hlog : log = before ++ e :: after)
    (hp : parentId e = some p) : p ∈ ids before := by
  induction h generalizing before after with
  | nil => simp at hlog
  | @snoc log x _ _ parent ih =>
    rcases eq_nil_or_concat after with rfl | ⟨after', y, rfl⟩
    · obtain ⟨rfl, hx⟩ := append_inj' hlog rfl
      obtain rfl := (cons.inj hx).1
      exact parent p hp
    · have hsplit : log ++ [x] = (before ++ e :: after') ++ [y] := by simpa using hlog
      obtain ⟨hlog', -⟩ := append_inj' hsplit rfl
      exact ih hlog'

end Grown

namespace RootPath

variable {log path : List ν} {e x : ν}

theorem mem (h : RootPath log e path) : e ∈ log := by
  cases h <;> assumption

theorem subset (h : RootPath log e path) : ∀ x ∈ path, x ∈ log := by
  induction h with
  | root he _ => simpa using he
  | child he _ _ ih =>
    intro x hx
    rcases mem_append.mp hx with hpath | hlast
    · exact ih x hpath
    · rw [mem_singleton.mp hlast]
      exact he

theorem getLast?_eq (h : RootPath log e path) : path.getLast? = some e := by
  cases h <;> simp

theorem self_mem (h : RootPath log e path) : e ∈ path :=
  mem_of_getLast? h.getLast?_eq

theorem mono (h : RootPath log e path) (more : List ν) : RootPath (log ++ more) e path := by
  induction h with
  | root he hp => exact .root (mem_append_left _ he) hp
  | child he hp _ ih => exact .child (mem_append_left _ he) hp ih

variable {other before after : List ν}

theorem unique (hlog : Grown log) (h : RootPath log e path) (h' : RootPath log e other) :
    path = other := by
  induction h generalizing other with
  | root _ hp =>
    cases h' with
    | root _ _ => rfl
    | child _ hp' _ =>
      rw [hp] at hp'
      simp at hp'
  | child _ hp above ih =>
    cases h' with
    | root _ hp' =>
      rw [hp'] at hp
      simp at hp
    | child _ hp' above' =>
      rw [hp] at hp'
      have hparent := hlog.eq_of_id_eq above.mem above'.mem (Option.some.inj hp')
      subst hparent
      rw [ih above']

/-- A path lies in every log that has its nodes. -/
theorem within {log other path : List ν} {e : ν} (h : RootPath log e path)
    (hother : ∀ x ∈ path, x ∈ other) : RootPath other e path := by
  induction h with
  | root _ hp => exact .root (hother _ (by simp)) hp
  | child _ hp _ ih =>
    exact .child (hother _ (by simp)) hp (ih (fun x hx => hother x (mem_append_left _ hx)))

theorem map (h : RootPath log e path) {f : ν → ν} (hid : ∀ x, nodeId (f x) = nodeId x)
    (hparent : ∀ x, parentId (f x) = parentId x) : RootPath (log.map f) (f e) (path.map f) := by
  induction h with
  | root he hp => exact .root (mem_map_of_mem he) (by rw [hparent, hp])
  | @child e p path he hp _ ih =>
    rw [map_append]
    exact .child (mem_map_of_mem he) (by rw [hparent, hp, hid]) ih

/-- Each node on a path has the part of the path up to it as its own path. -/
theorem initial (h : RootPath log e (before ++ x :: after)) : RootPath log x (before ++ [x]) := by
  generalize hpath : before ++ x :: after = path at h
  induction h generalizing after with
  | root he hp =>
    rcases append_eq_singleton_iff.mp hpath with ⟨rfl, hx⟩ | ⟨_, hx⟩
    · obtain ⟨rfl, -⟩ := cons.inj hx
      exact .root he hp
    · simp at hx
  | @child e p path he hp above ih =>
    rcases eq_nil_or_concat after with rfl | ⟨after', y, rfl⟩
    · obtain ⟨rfl, hx⟩ := append_inj' hpath rfl
      obtain ⟨rfl, -⟩ := cons.inj hx
      exact .child he hp above
    · have hsplit : (before ++ x :: after') ++ [y] = path ++ [e] := by simpa using hpath
      exact ih (append_inj' hsplit rfl).1

/-- A node on a path follows its parent there. -/
theorem linked (h : RootPath log e path) : Linked none path := by
  induction h with
  | root _ hp => exact ⟨hp, trivial⟩
  | child _ hp above ih =>
    refine linked_append ih ?_
    rw [above.getLast?_eq]
    exact ⟨hp, trivial⟩

/-- A path of an old node does not use a node appended later. -/
theorem restrict (hlog : Grown (log ++ [x])) (he : e ∈ log) (h : RootPath (log ++ [x]) e path) :
    RootPath log e path := by
  induction h with
  | root _ hp => exact .root he hp
  | @child e p path _ hp above ih =>
    obtain ⟨before, after, rfl⟩ := append_of_mem he
    have hlog' : before ++ e :: after ++ [x] = before ++ e :: (after ++ [x]) := by simp
    have hbefore := hlog.parent_before hlog' hp
    obtain ⟨q, hq, hid⟩ := mem_map.mp hbefore
    have hpq : q = p := hlog.eq_of_id_eq (by simp [hq]) above.mem hid
    subst hpq
    exact .child he hp (ih (by simp [hq]))

theorem sublist (hlog : Grown log) (h : RootPath log e path) : path.Sublist log := by
  induction hlog generalizing e path with
  | nil => simpa using h.mem
  | @snoc log x before fresh parent ih =>
    have hgrown : Grown (log ++ [x]) := .snoc before fresh parent
    rcases mem_append.mp h.mem with he | he
    · exact (ih (h.restrict hgrown he)).trans (sublist_append_left _ _)
    · obtain rfl := mem_singleton.mp he
      cases h with
      | root _ _ => exact sublist_append_right _ _
      | @child _ p path _ hp above =>
        have hid := parent (nodeId p) hp
        obtain ⟨q, hq, hqp⟩ := mem_map.mp hid
        have hpq : q = p := hgrown.eq_of_id_eq (by simp [hq]) above.mem hqp
        subst hpq
        exact (ih (above.restrict hgrown hq)).append (List.Sublist.refl _)

theorem nodup (hlog : Grown log) (h : RootPath log e path) :
    path.Nodup := (h.sublist hlog).nodup hlog.nodup

theorem parent_adjacent {y : ν} (h : RootPath log e (before ++ x :: y :: after)) :
    parentId y = some (nodeId x) := by
  have hsplit : before ++ x :: y :: after = (before ++ [x]) ++ y :: after := by simp
  rw [hsplit] at h
  generalize hpath : before ++ [x] ++ [y] = path at h
  have hy := h.initial
  rw [hpath] at hy
  cases hy with
  | root _ _ =>
    have hlength := congrArg length hpath
    simp at hlength
  | child _ hp above =>
    obtain ⟨rfl, -⟩ := append_inj' hpath rfl
    have hlast := above.getLast?_eq
    rw [getLast?_concat] at hlast
    rw [hp, Option.some.inj hlast]

theorem forked {f : ν} (hlog : Grown log) (h : RootPath log e path) (h' : RootPath log f other) :
    ∃ shared mine theirs, path = shared ++ mine ∧
      other = shared ++ theirs ∧ (∀ x ∈ mine, x ∉ other) ∧ ∀ x ∈ theirs, x ∉ path := by
  have hlast : (∀ x ∈ other, x ∉ path) ∨ ∃ pre c post, other = pre ++ c :: post ∧ c ∈ path ∧
      ∀ x ∈ post, x ∉ path := by
    clear h'
    induction other using reverseRecOn with
    | nil => exact .inl (by simp)
    | append_singleton other x ih =>
      by_cases hx : x ∈ path
      · exact .inr ⟨other, x, [], rfl, hx, by simp⟩
      · rcases ih with hnone | ⟨pre, c, post, rfl, hc, hpost⟩
        · left
          intro y hy
          rcases mem_append.mp hy with hold | hnew
          · exact hnone y hold
          · rw [mem_singleton.mp hnew]
            exact hx
        · refine .inr ⟨pre, c, post ++ [x], by simp, hc, fun y hy => ?_⟩
          rcases mem_append.mp hy with hold | hnew
          · exact hpost y hold
          · rw [mem_singleton.mp hnew]
            exact hx
  rcases hlast with hnone | ⟨pre, c, post, rfl, hc, hpost⟩
  · exact ⟨[], path, other, rfl, rfl, fun x hx hother => hnone x hother hx, hnone⟩
  · obtain ⟨before, mine, rfl⟩ := append_of_mem hc
    have hsame : before ++ [c] = pre ++ [c] := h.initial.unique hlog h'.initial
    obtain rfl := append_cancel_right hsame
    have hnodup := h.nodup hlog
    refine ⟨before ++ [c], mine, post, by simp, by simp, fun x hx hother => ?_, hpost⟩
    rw [← singleton_append, ← append_assoc, mem_append] at hother
    rcases hother with hshared | htheirs
    · rw [← singleton_append, ← append_assoc, nodup_append] at hnodup
      exact hnodup.2.2 x hshared x hx rfl
    · exact hpost x htheirs (by simp [hx])

end RootPath

theorem ids_map (hid : ∀ x, nodeId (f x) = nodeId x) : ids (log.map f) = ids log := by
  rw [ids, map_map]
  exact map_congr_left fun x _ => hid x

theorem Grown.map (h : Grown log) (hid : ∀ x, nodeId (f x) = nodeId x)
    (hparent : ∀ x, parentId (f x) = parentId x) : Grown (log.map f) := by
  induction h with
  | nil => exact .nil
  | @snoc log e _ fresh parent ih =>
    rw [map_append]
    refine .snoc ih ?_ ?_
    · rw [ids_map hid, hid]
      exact fresh
    · intro p hp
      rw [hparent] at hp
      rw [ids_map hid]
      exact parent p hp

theorem Grown.exists_rootPath (h : Grown log) (he : e ∈ log) : ∃ path, RootPath log e path := by
  induction h generalizing e with
  | nil => simp at he
  | @snoc log x _ _ parent ih =>
    rcases mem_append.mp he with he | he
    · obtain ⟨path, hpath⟩ := ih he
      exact ⟨path, hpath.mono _⟩
    · obtain rfl := mem_singleton.mp he
      cases hp : parentId e with
      | none => exact ⟨[e], .root (by simp) hp⟩
      | some p =>
        obtain ⟨q, hq, rfl⟩ := mem_map.mp (parent p hp)
        obtain ⟨path, hpath⟩ := ih hq
        exact ⟨path ++ [e], .child (by simp) hp (hpath.mono _)⟩

/-- A list that is linked from no parent is the path of its last node in any log around it. -/
theorem rootPath_of_linked (hlinked : Linked none (path ++ [e]))
    (hsub : ∀ x ∈ path ++ [e], x ∈ log) : RootPath log e (path ++ [e]) := by
  have hinit : ∀ (xs : List ν) (p : Option ι) (x : ν), Linked p (xs ++ [x]) →
      Linked p xs ∧ parentId x = xs.getLast?.elim p (fun y => some (nodeId y)) := by
    intro xs
    induction xs with
    | nil => exact fun p x h => ⟨trivial, h.1⟩
    | cons y ys ih =>
      intro p x h
      obtain ⟨hys, hx⟩ := ih (some (nodeId y)) x h.2
      refine ⟨⟨h.1, hys⟩, ?_⟩
      cases hlast : ys.getLast? <;> simpa [getLast?_cons, hlast] using hx
  induction path using reverseRecOn generalizing e with
  | nil => exact .root (hsub e (by simp)) hlinked.1
  | append_singleton xs x ih =>
    obtain ⟨hxs, he⟩ := hinit (xs ++ [x]) none e hlinked
    have hx : parentId e = some (nodeId x) := by simpa using he
    exact .child (hsub e (by simp)) hx
      (ih hxs (fun y hy => hsub y (mem_append_left _ hy)))

/-- A linked list with distinct identifiers is a log of its own. -/
theorem grown_of_linked (hlinked : Linked none path) (hnodup : (ids path).Nodup) : Grown path := by
  induction path using reverseRecOn with
  | nil => exact .nil
  | append_singleton xs x ih =>
    have hpath : RootPath (xs ++ [x]) x (xs ++ [x]) := rootPath_of_linked hlinked (fun _ h => h)
    rw [ids_append, nodup_append] at hnodup
    have hfresh : nodeId x ∉ ids xs := fun h => hnodup.2.2 _ h _ (by simp [ids]) rfl
    generalize hwhole : xs ++ [x] = whole at hpath
    cases hpath with
    | root _ hp =>
      obtain ⟨rfl, -⟩ : xs = [] ∧ True := by
        rcases append_eq_singleton_iff.mp hwhole with ⟨h, -⟩ | ⟨-, h⟩
        · exact ⟨h, trivial⟩
        · simp at h
      exact .snoc .nil (by simp [ids]) (by simp [hp])
    | child _ hp above =>
      obtain ⟨rfl, -⟩ := append_inj' hwhole rfl
      refine .snoc (ih above.linked hnodup.1) hfresh ?_
      intro q hq
      rw [hp] at hq
      rw [← Option.some.inj hq]
      exact mem_ids above.self_mem

/-! Walking the parent pointers. -/

/-- The loop that collects a node, its parent and so on; the path is kept root first. -/
def walk (next : ν → Option ν) : Nat → Option ν → List ν → Option (List ν)
  | _, none, path => some path
  | 0, some _, _ => none
  | fuel + 1, some e, path => walk next fuel (next e) (e :: path)

/-- `next` finds the parent of every node of the log. -/
def Follows (next : ν → Option ν) (log : List ν) : Prop :=
  ∀ e ∈ log, (parentId e = none → next e = none) ∧
    ∀ p ∈ log, parentId e = some (nodeId p) → next e = some p

theorem walk_rootPath (hnext : Follows next log) (h : RootPath log e path) (fuel : Nat)
    (hfuel : path.length ≤ fuel) (rest : List ν) :
    walk next fuel (some e) rest = some (path ++ rest) := by
  induction h generalizing fuel rest with
  | root he hp =>
    obtain ⟨fuel, rfl⟩ : ∃ n, fuel = n + 1 := ⟨fuel - 1, by simp at hfuel; omega⟩
    rw [walk, (hnext _ he).1 hp]
    cases fuel <;> rfl
  | @child e p path he hp above ih =>
    rw [length_append, length_singleton] at hfuel
    obtain ⟨fuel, rfl⟩ : ∃ n, fuel = n + 1 := ⟨fuel - 1, by omega⟩
    rw [walk, (hnext _ he).2 p above.mem hp, ih fuel (by omega)]
    simp

/-- The loop collects a chain that `next` goes back along and leaves at its start. -/
theorem walk_chain (hfirst : ∀ e, path.head? = some e → next e = none)
    (hstep : ∀ before x y after, path = before ++ x :: y :: after → next y = some x) (fuel : Nat)
    (hfuel : path.length ≤ fuel) (rest : List ν) :
    walk next fuel path.getLast? rest = some (path ++ rest) := by
  induction path using reverseRecOn generalizing fuel rest with
  | nil => cases fuel <;> rfl
  | append_singleton path e ih =>
    rw [length_append, length_singleton] at hfuel
    obtain ⟨fuel, rfl⟩ : ∃ n, fuel = n + 1 := ⟨fuel - 1, by omega⟩
    have hnext : next e = path.getLast? := by
      rcases eq_nil_or_concat path with rfl | ⟨before, x, rfl⟩
      · exact hfirst e rfl
      · rw [concat_eq_append, getLast?_concat]
        exact hstep before x e [] (by simp)
    have hbefore : ∀ before x y after, path = before ++ x :: y :: after → next y = some x := by
      rintro before x y after rfl
      exact hstep before x y (after ++ [e]) (by simp)
    have hhead : ∀ first, path.head? = some first → next first = none := by
      intro first hhead
      refine hfirst first ?_
      rw [head?_append, hhead]
      rfl
    rw [getLast?_concat, walk, hnext, ih hhead hbefore fuel (by omega), append_assoc]
    rfl

/-- The loop collects its start and what `next` finds. -/
theorem mem_of_walk {fuel : Nat} {start : Option ν} {rest : List ν}
    (h : walk next fuel start rest = some path) (hx : x ∈ path) :
    x ∈ rest ∨ start = some x ∨ ∃ y, next y = some x := by
  induction fuel generalizing start rest with
  | zero =>
    cases start with
    | none =>
      cases h
      exact .inl hx
    | some e => simp [walk] at h
  | succ fuel ih =>
    cases start with
    | none =>
      cases h
      exact .inl hx
    | some e =>
      rcases ih h with hmem | hnext | hnext
      · rcases mem_cons.mp hmem with rfl | hmem
        · exact .inr (.inl rfl)
        · exact .inl hmem
      · exact .inr (.inr ⟨e, hnext⟩)
      · exact .inr (.inr hnext)

/-! Visiting the children of the roots with a stack. -/

open Classical in
/-- The nodes whose path goes through `x`. -/
noncomputable def below (log : List ν) (x : ν) : List ν :=
  log.filter (fun e => ∃ path, RootPath log e path ∧ x ∈ path)

theorem mem_below : e ∈ below log x ↔ ∃ path, RootPath log e path ∧ x ∈ path := by
  classical
  simp only [below, mem_filter, decide_eq_true_eq]
  exact ⟨fun h => h.2, fun h => ⟨h.choose_spec.1.mem, h⟩⟩

theorem nodup_below (h : Grown log) (x : ν) : (below log x).Nodup := by
  classical
  exact h.nodup.filter _

theorem below_siblings (h : Grown log) {c d : ν} (hc : RootPath log c (above ++ [c]))
    (hd : RootPath log d (above ++ [d])) (hec : e ∈ below log c) (hed : e ∈ below log d) :
    c = d := by
  obtain ⟨path, hpath, hcmem⟩ := mem_below.mp hec
  obtain ⟨other, hother, hdmem⟩ := mem_below.mp hed
  obtain rfl := hpath.unique h hother
  obtain ⟨pre, post, rfl⟩ := append_of_mem hcmem
  obtain ⟨pre', post', hsplit⟩ := append_of_mem hdmem
  have hpre := (hpath.initial.unique h hc)
  have hpath' : RootPath log e (pre' ++ d :: post') := hsplit ▸ hpath
  have hpre' := (hpath'.initial.unique h hd)
  obtain ⟨rfl, -⟩ := append_inj' hpre rfl
  obtain ⟨rfl, -⟩ := append_inj' hpre' rfl
  exact (cons.inj (append_cancel_left hsplit)).1

theorem nodup_flatMap_below {nodes : List ν} (h : Grown log) (hnodes : nodes.Nodup)
    (habove : ∀ c ∈ nodes, RootPath log c (above ++ [c])) : (nodes.flatMap (below log)).Nodup := by
  rw [nodup_flatMap]
  refine ⟨fun c _ => nodup_below h c, ?_⟩
  refine hnodes.pairwise_of_forall_ne ?_
  intro c hc d hd hne e hec hed
  exact hne (below_siblings h (habove c hc) (habove d hd) hec hed)

def roots (log : List ν) : List ν := log.filter (fun e => parentId e = none)

/-- Every node is below exactly one root. -/
theorem roots_perm (h : Grown log) : ((roots log).flatMap (below log)).Perm log := by
  have hroots : ∀ c ∈ roots log, RootPath log c ([] ++ [c]) := by
    intro c hc
    obtain ⟨hmem, hp⟩ := mem_filter.mp hc
    exact .root hmem (by simpa using hp)
  refine (perm_ext_iff_of_nodup
    (nodup_flatMap_below h (h.nodup.filter _) hroots) h.nodup).mpr ?_
  intro e
  rw [mem_flatMap]
  constructor
  · rintro ⟨c, -, he⟩
    obtain ⟨path, hpath, -⟩ := mem_below.mp he
    exact hpath.mem
  · intro he
    obtain ⟨path, hpath⟩ := h.exists_rootPath he
    cases path with
    | nil => simpa using hpath.getLast?_eq
    | cons c rest =>
      have hpath' : RootPath log e ([] ++ c :: rest) := hpath
      have hc : RootPath log c [c] := hpath'.initial
      exact ⟨c, mem_filter.mpr ⟨hc.mem, by simpa using hc.linked.1⟩,
        mem_below.mpr ⟨_, hpath, by simp⟩⟩

/-- The number of nodes a stack still leads to. -/
noncomputable def weight (log stack : List ν) : Nat := (stack.flatMap (below log)).length

theorem weight_perm (log : List ν) (h : xs.Perm ys) :
    weight log xs = weight log ys := (h.flatMap_right _).length_eq

theorem weight_roots (h : Grown log) : weight log (roots log) = log.length :=
  (roots_perm h).length_eq

section Traversal

variable [DecidableEq ι]

def kids (log : List ν) (i : ι) : List ν := log.filter (fun e => parentId e = some i)

variable {log : List ν} {x : ν}

theorem mem_kids :
    e ∈ kids log (nodeId x) ↔ e ∈ log ∧ parentId e = some (nodeId x) := by simp [kids]

theorem rootPath_kid {c : ν} (hx : RootPath log x path) (hc : c ∈ kids log (nodeId x)) :
    RootPath log c (path ++ [c]) :=
  .child (mem_kids.mp hc).1 (mem_kids.mp hc).2 hx

/-- The nodes below `x` are `x` itself and the nodes below its children. -/
theorem below_perm (h : Grown log) (hx : x ∈ log) :
    (below log x).Perm (x :: (kids log (nodeId x)).flatMap (below log)) := by
  obtain ⟨path, hpath⟩ := h.exists_rootPath hx
  have hkids : ∀ c ∈ kids log (nodeId x), RootPath log c (path ++ [c]) :=
    fun c hc => rootPath_kid hpath hc
  have hnodup : (x :: (kids log (nodeId x)).flatMap (below log)).Nodup := by
    refine nodup_cons.mpr ⟨?_, nodup_flatMap_below h (h.nodup.filter _) hkids⟩
    intro hmem
    obtain ⟨c, hc, hxc⟩ := mem_flatMap.mp hmem
    obtain ⟨other, hother, hcmem⟩ := mem_below.mp hxc
    obtain rfl := hpath.unique h hother
    obtain ⟨pre, post, hsplit⟩ := append_of_mem hcmem
    have hpre := (RootPath.initial (hsplit ▸ hpath)).unique h (hkids c hc)
    have hlength := congrArg length hpre
    have hlength' := congrArg length hsplit
    simp only [length_append, length_cons, length_nil] at hlength hlength'
    omega
  refine (perm_ext_iff_of_nodup (nodup_below h x) hnodup).mpr ?_
  intro e
  simp only [mem_cons, mem_flatMap]
  constructor
  · intro he
    obtain ⟨other, hother, hxmem⟩ := mem_below.mp he
    obtain ⟨pre, post, rfl⟩ := append_of_mem hxmem
    cases post with
    | nil => exact .inl (by simpa using hother.getLast?_eq.symm)
    | cons c post =>
      have hother' : RootPath log e ((pre ++ [x]) ++ c :: post) := by simpa using hother
      have hc : RootPath log c ((pre ++ [x]) ++ [c]) := hother'.initial
      have hlinked := hc.linked
      have hparent : parentId c = some (nodeId x) := by
        clear hother hother' hc hxmem
        have haux : ∀ (p : Option ι) (ys : List ν), Linked p ((ys ++ [x]) ++ [c]) →
            parentId c = some (nodeId x) := by
          intro p ys
          induction ys generalizing p with
          | nil => exact fun hl => hl.2.1
          | cons y ys ih => exact fun hl => ih _ hl.2
        exact haux none pre hlinked
      exact .inr ⟨c, mem_kids.mpr ⟨hc.mem, hparent⟩, mem_below.mpr ⟨_, hother, by simp⟩⟩
  · rintro (rfl | ⟨c, hc, he⟩)
    · exact mem_below.mpr ⟨path, hpath, hpath.self_mem⟩
    · obtain ⟨other, hother, hcmem⟩ := mem_below.mp he
      obtain ⟨pre, post, rfl⟩ := append_of_mem hcmem
      have hpre := hother.initial.unique h (hkids c hc)
      obtain ⟨rfl, -⟩ := append_inj' hpre rfl
      exact mem_below.mpr ⟨_, hother, by simp [hpath.self_mem]⟩

theorem weight_pop (h : Grown log) (hx : x ∈ log) {children : List ν}
    (hchildren : children.Perm (kids log (nodeId x))) (stack : List ν) :
    weight log (x :: stack) = weight log (children ++ stack) + 1 := by
  have hbelow := (below_perm h hx).length_eq
  have hkids := (hchildren.flatMap_right (below log)).length_eq
  simp only [weight, flatMap_cons, flatMap_append, length_append,
    length_cons] at hbelow hkids ⊢
  omega

/-- The nodes in the order a stack meets them, a node's children right after it. -/
def preorder (children : ν → List ν) : Nat → List ν → Option (List ν)
  | _, [] => some []
  | 0, _ :: _ => none
  | fuel + 1, e :: stack => (preorder children fuel (children e ++ stack)).map (e :: ·)

theorem preorder_perm (h : Grown log) {children : ν → List ν}
    (hchildren : ∀ x ∈ log, (children x).Perm (kids log (nodeId x))) (fuel : Nat) (stack : List ν)
    (hstack : ∀ x ∈ stack, x ∈ log) (hfuel : weight log stack ≤ fuel) :
    ∃ visited, preorder children fuel stack = some visited ∧
      visited.Perm (stack.flatMap (below log)) := by
  induction fuel generalizing stack with
  | zero =>
    cases stack with
    | nil => exact ⟨[], rfl, .nil⟩
    | cons x stack =>
      have hx := hstack x mem_cons_self
      have hpop := weight_pop h hx (hchildren x hx) stack
      omega
  | succ fuel ih =>
    cases stack with
    | nil => exact ⟨[], rfl, .nil⟩
    | cons x stack =>
      have hx := hstack x mem_cons_self
      have hpop := weight_pop h hx (hchildren x hx) stack
      have hsub : ∀ y ∈ children x ++ stack, y ∈ log := by
        intro y hy
        rcases mem_append.mp hy with hchild | hrest
        · exact (mem_kids.mp ((hchildren x hx).mem_iff.mp hchild)).1
        · exact hstack y (mem_cons_of_mem _ hrest)
      obtain ⟨visited, hvisited, hperm⟩ := ih (children x ++ stack) hsub (by omega)
      refine ⟨x :: visited, by rw [preorder, hvisited]; rfl, ?_⟩
      have hbelow := below_perm h hx
      have hkids := (hchildren x hx).flatMap_right (below log)
      rw [flatMap_append] at hperm
      rw [flatMap_cons]
      have hchild : ((children x).flatMap (below log) ++ stack.flatMap (below log)).Perm
          ((kids log (nodeId x)).flatMap (below log) ++ stack.flatMap (below log)) :=
        hkids.append_right _
      exact ((hperm.trans hchild).cons x).trans (hbelow.symm.append_right _)

end Traversal

end ParentLog
