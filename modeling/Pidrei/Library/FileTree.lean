import Mathlib.Data.List.Basic

/-!
Directories and files as a tree. A path is the list of its names from the top. What an operation
at one path leaves in place at another is said with the subtree there: a subtree stays where
neither path begins the other, and a directory stays where something below it changes.
-/
namespace FileTree

open List

variable {ν κ : Type*} [DecidableEq ν]

/-- Two paths part ways: they differ in a name that both have at one place. -/
def Diverge : List ν → List ν → Prop
  | name :: rest, other :: more => name ≠ other ∨ Diverge rest more
  | _, _ => False

instance decidableDiverge : ∀ path other : List ν, Decidable (Diverge path other)
  | [], _ => .isFalse id
  | _ :: _, [] => .isFalse id
  | name :: rest, other :: more =>
    have := decidableDiverge rest more
    inferInstanceAs (Decidable (name ≠ other ∨ Diverge rest more))

variable {path : List ν}

omit [DecidableEq ν] in
theorem diverge_iff {other : List ν} :
    Diverge path other ↔ ¬ path <+: other ∧ ¬ other <+: path := by
  induction path generalizing other with
  | nil => exact ⟨False.elim, fun h => h.1 nil_prefix⟩
  | cons name rest ih =>
    cases other with
    | nil => exact ⟨False.elim, fun h => h.2 nil_prefix⟩
    | cons first more =>
      unfold Diverge
      rw [ih, cons_prefix_cons, cons_prefix_cons]
      by_cases hname : name = first
      · simp [hname]
      · simp [hname, Ne.symm hname]

omit [DecidableEq ν] in
/-- Paths below one directory part ways where what follows it does. -/
theorem diverge_append {rest more : List ν} :
    Diverge (path ++ rest) (path ++ more) ↔ Diverge rest more := by
  rw [diverge_iff, diverge_iff, prefix_append_right_inj, prefix_append_right_inj]

inductive Tree (ν κ : Type*) where
  | file (content : κ)
  | dir (entries : List (ν × Tree ν κ))

namespace Tree

def entry (entries : List (ν × Tree ν κ)) (name : ν) : Option (Tree ν κ) :=
  (entries.find? (·.1 = name)).map (·.2)

/-- The subtree at a path. -/
def get : Tree ν κ → List ν → Option (Tree ν κ)
  | tree, [] => some tree
  | .file _, _ :: _ => none
  | .dir entries, name :: rest => (entry entries name).bind fun child => get child rest

def exists? (tree : Tree ν κ) (path : List ν) : Bool := (tree.get path).isSome

def isDir : Tree ν κ → Bool
  | .dir _ => true
  | .file _ => false

def isDirAt (tree : Tree ν κ) (path : List ν) : Bool := (tree.get path).any isDir

def set (entries : List (ν × Tree ν κ)) (name : ν) (child : Tree ν κ) : List (ν × Tree ν κ) :=
  match entries with
  | [] => [(name, child)]
  | (other, old) :: rest =>
    if other = name then (name, child) :: rest else (other, old) :: set rest name child

/-- Put a subtree at a path whose directory is there. -/
def put : Tree ν κ → List ν → Tree ν κ → Tree ν κ
  | _, [], child => child
  | .file content, _ :: _, _ => .file content
  | .dir entries, [name], child => .dir (set entries name child)
  | .dir entries, name :: next :: rest, child =>
    match entry entries name with
    | some inner => .dir (set entries name (put inner (next :: rest) child))
    | none => .dir entries

/-- Remove what is at a path below the top. -/
def remove : Tree ν κ → List ν → Tree ν κ
  | tree, [] => tree
  | .file content, _ :: _ => .file content
  | .dir entries, [name] => .dir (entries.filter (·.1 ≠ name))
  | .dir entries, name :: next :: rest =>
    match entry entries name with
    | some inner => .dir (set entries name (remove inner (next :: rest)))
    | none => .dir entries

/-- Make the directories of a path, unless a file is in the way. -/
def makeDirs : Tree ν κ → List ν → Option (Tree ν κ)
  | .file _, _ => none
  | .dir entries, [] => some (.dir entries)
  | .dir entries, name :: rest =>
    (makeDirs ((entry entries name).getD (.dir [])) rest).map fun child =>
      .dir (set entries name child)

@[simp] theorem get_nil (tree : Tree ν κ) : tree.get [] = some tree := by
  cases tree <;> rfl

theorem entry_set_self (entries : List (ν × Tree ν κ)) (name : ν) (child : Tree ν κ) :
    entry (set entries name child) name = some child := by
  induction entries with
  | nil => simp [set, entry]
  | cons head rest ih =>
    obtain ⟨other, old⟩ := head
    unfold set
    split
    · simp [entry]
    · next hne =>
      unfold entry at ih ⊢
      simpa [find?_cons, hne] using ih

variable {name other : ν} {tree node after : Tree ν κ} {path more : List ν}
   {entries : List (ν × Tree ν κ)}

theorem entry_set_of_ne (entries : List (ν × Tree ν κ)) (h : other ≠ name) (child : Tree ν κ) :
    entry (set entries name child) other = entry entries other := by
  induction entries with
  | nil => simp [set, entry, Ne.symm h]
  | cons head rest ih =>
    obtain ⟨first, old⟩ := head
    unfold set
    split
    · next hfirst =>
      subst hfirst
      simp [entry, Ne.symm h]
    · unfold entry at ih ⊢
      by_cases hfirst : first = other
      · simp [hfirst]
      · simpa [find?_cons, hfirst] using ih

theorem entry_filter_of_ne (entries : List (ν × Tree ν κ)) (h : other ≠ name) :
    entry (entries.filter (·.1 ≠ name)) other = entry entries other := by
  unfold entry
  congr 1
  induction entries with
  | nil => rfl
  | cons head rest ih =>
    by_cases hname : head.1 = name
    · have hother : head.1 ≠ other := fun hsame => h (hsame.symm.trans hname)
      rw [filter_cons_of_neg (by simpa using hname), find?_cons_of_neg (by simpa using hother)]
      exact ih
    · rw [filter_cons_of_pos (by simpa using hname)]
      by_cases hother : head.1 = other
      · rw [find?_cons_of_pos (by simpa using hother), find?_cons_of_pos (by simpa using hother)]
      · rw [find?_cons_of_neg (by simpa using hother), find?_cons_of_neg (by simpa using hother)]
        exact ih

/-- A path exists only where its beginnings do. -/
theorem get_append (h : tree.get (path ++ more) = some node) :
    ∃ middle, tree.get path = some middle ∧ middle.get more = some node := by
  induction path generalizing tree with
  | nil => exact ⟨tree, get_nil tree, h⟩
  | cons name path ih =>
    cases tree with
    | file content => cases h
    | dir entries =>
      obtain ⟨child, hchild, hrest⟩ := Option.bind_eq_some_iff.mp h
      obtain ⟨middle, hmiddle, hmore⟩ := ih hrest
      exact ⟨middle, Option.bind_eq_some_iff.mpr ⟨child, hchild, hmiddle⟩, hmore⟩

theorem get_eq_empty_dir (hempty : tree.get path = some (.dir []))
    (h : tree.get (path ++ more) = some node) : more = [] := by
  obtain ⟨middle, hmiddle, hmore⟩ := get_append h
  obtain rfl := Option.some.inj (hmiddle.symm.trans hempty)
  cases more with
  | nil => rfl
  | cons name more => cases hmore

theorem get_cons (entries : List (ν × Tree ν κ)) (name : ν) (rest : List ν) :
    (Tree.dir entries).get (name :: rest) = (entry entries name).bind fun child => child.get rest :=
  rfl

/-- What changes lies at the path: subtrees elsewhere stay, and so do the directories above. -/
structure Touches (path : List ν) (before after : Tree ν κ) : Prop where
  keeps : ∀ other node, ¬ other <+: path → ¬ path <+: other → before.get other = some node →
    after.get other = some node
  dirs : ∀ other, ¬ path <+: other → before.isDirAt other = true → after.isDirAt other = true

theorem Touches.refl (path : List ν) (tree : Tree ν κ) : Touches path tree tree :=
  ⟨fun _ _ _ _ h => h, fun _ _ h => h⟩

theorem Touches.inside {inner : Tree ν κ} (hinner : entry entries name = some inner)
    (h : Touches path inner after) :
    Touches (name :: path) (.dir entries) (.dir (set entries name after)) where
  keeps other node hother hpath hget := by
    cases other with
    | nil => exact absurd nil_prefix hother
    | cons first rest =>
      rw [get_cons] at hget ⊢
      by_cases hfirst : first = name
      · subst hfirst
        rw [hinner] at hget
        rw [entry_set_self]
        rw [cons_prefix_cons] at hother hpath
        exact h.keeps rest node (fun hp => hother ⟨rfl, hp⟩) (fun hp => hpath ⟨rfl, hp⟩) hget
      · rw [entry_set_of_ne entries hfirst]
        exact hget
  dirs other hpath hdir := by
    cases other with
    | nil => rfl
    | cons first rest =>
      unfold isDirAt at hdir ⊢
      rw [get_cons] at hdir ⊢
      by_cases hfirst : first = name
      · subst hfirst
        rw [hinner] at hdir
        rw [entry_set_self]
        rw [cons_prefix_cons] at hpath
        exact h.dirs rest (fun hp => hpath ⟨rfl, hp⟩) hdir
      · rw [entry_set_of_ne entries hfirst]
        exact hdir

theorem touches_entry {after : List (ν × Tree ν κ)}
    (h : ∀ other, other ≠ name → entry after other = entry entries other) :
    Touches [name] (.dir entries) (.dir after) where
  keeps other node hother hpath hget := by
    cases other with
    | nil => exact absurd nil_prefix hother
    | cons first rest =>
      have hfirst : first ≠ name := by
        rintro rfl
        exact hpath (cons_prefix_cons.mpr ⟨rfl, nil_prefix⟩)
      rw [get_cons, h first hfirst]
      exact hget
  dirs other hpath hdir := by
    cases other with
    | nil => rfl
    | cons first rest =>
      have hfirst : first ≠ name := by
        rintro rfl
        exact hpath (cons_prefix_cons.mpr ⟨rfl, nil_prefix⟩)
      unfold isDirAt at hdir ⊢
      rw [get_cons, h first hfirst]
      exact hdir

theorem touches_put (tree : Tree ν κ) (path : List ν) (child : Tree ν κ) :
    Touches path tree (tree.put path child) := by
  induction path generalizing tree with
  | nil => exact ⟨fun _ _ _ h => absurd nil_prefix h, fun _ h => absurd nil_prefix h⟩
  | cons name path ih =>
    cases tree with
    | file content => exact .refl _ _
    | dir entries =>
      cases path with
      | nil => exact touches_entry fun other h => entry_set_of_ne entries h child
      | cons next rest =>
        unfold put
        split
        next inner hinner => exact .inside hinner (ih inner)
        next => exact .refl _ _

theorem touches_remove (tree : Tree ν κ) (path : List ν) : Touches path tree (tree.remove path) := by
  induction path generalizing tree with
  | nil => exact ⟨fun _ _ _ h => absurd nil_prefix h, fun _ h => absurd nil_prefix h⟩
  | cons name path ih =>
    cases tree with
    | file content => exact .refl _ _
    | dir entries =>
      cases path with
      | nil => exact touches_entry fun other h => entry_filter_of_ne entries h
      | cons next rest =>
        unfold remove
        split
        next inner hinner => exact .inside hinner (ih inner)
        next => exact .refl _ _

/-- Making directories keeps every subtree but the ones on the way, and every directory. -/
theorem makeDirs_keeps (h : tree.makeDirs path = some after) :
    (∀ other node, ¬ other <+: path → tree.get other = some node → after.get other = some node) ∧
      ∀ other, tree.isDirAt other = true → after.isDirAt other = true := by
  induction path generalizing tree after with
  | nil =>
    cases tree with
    | file content => cases h
    | dir entries =>
      cases h
      exact ⟨fun _ _ _ hget => hget, fun _ hdir => hdir⟩
  | cons name path ih =>
    cases tree with
    | file content => cases h
    | dir entries =>
      obtain ⟨child, hchild, rfl⟩ := Option.map_eq_some_iff.mp h
      obtain ⟨hkeeps, hdirs⟩ := ih hchild
      refine ⟨fun other node hother hget => ?_, fun other hdir => ?_⟩
      · cases other with
        | nil => exact absurd nil_prefix hother
        | cons first rest =>
          rw [get_cons] at hget ⊢
          by_cases hfirst : first = name
          · subst hfirst
            obtain ⟨inner, hinner, hget⟩ := Option.bind_eq_some_iff.mp hget
            rw [hinner] at hkeeps
            rw [entry_set_self]
            rw [cons_prefix_cons] at hother
            exact hkeeps rest node (fun hp => hother ⟨rfl, hp⟩) hget
          · rw [entry_set_of_ne entries hfirst]
            exact hget
      · cases other with
        | nil => rfl
        | cons first rest =>
          unfold isDirAt at hdir ⊢
          rw [get_cons] at hdir ⊢
          by_cases hfirst : first = name
          · subst hfirst
            rw [entry_set_self]
            cases hinner : entry entries first with
            | none =>
              rw [hinner] at hdir
              cases hdir
            | some inner =>
              rw [hinner] at hdir hdirs
              exact hdirs rest hdir
          · rw [entry_set_of_ne entries hfirst]
            exact hdir

end Tree

end FileTree
