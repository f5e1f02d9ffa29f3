import Mathlib.Data.List.Basic

/-!
Opcodes that turn one list into another, as a differ gives them, and the script of single
steps they stand for.
-/
namespace EditScript

inductive Tag
  | equal
  | delete
  | insert
  | replace
  deriving DecidableEq

/-- The elements between two positions of the old list stand against those between two
positions of the new one. -/
structure Opcode where
  tag : Tag
  oldStart : ℕ
  oldEnd : ℕ
  newStart : ℕ
  newEnd : ℕ

variable {α : Type*}

def slice (items : List α) (start stop : ℕ) : List α := (items.take stop).drop start

/-- What a tag says of the elements it takes out and puts in. -/
def Tag.Changes : Tag → List α → List α → Prop
  | .equal, _, _ => False
  | .delete, _, added => added = []
  | .insert, removed, _ => removed = []
  | .replace, _, _ => True

/-- The opcodes, from two positions on, turn the rest of the old list into that of the new. -/
inductive Turns : ℕ → ℕ → List α → List α → List Opcode → Prop
  | done (i j : ℕ) : Turns i j [] [] []
  | equal {i j : ℕ} {old new : List α} {codes : List Opcode} (kept : List α)
      (rest : Turns (i + kept.length) (j + kept.length) old new codes) :
      Turns i j (kept ++ old) (kept ++ new)
        (⟨.equal, i, i + kept.length, j, j + kept.length⟩ :: codes)
  | change {i j : ℕ} {old new : List α} {codes : List Opcode} {tag : Tag}
      (removed added : List α) (htag : tag.Changes removed added)
      (rest : Turns (i + removed.length) (j + added.length) old new codes) :
      Turns i j (removed ++ old) (added ++ new)
        (⟨tag, i, i + removed.length, j, j + added.length⟩ :: codes)

/-- A differ's opcodes: no two equal blocks side by side, and no change between equal lists. -/
structure Correct (old new : List α) (codes : List Opcode) : Prop where
  turns : Turns 0 0 old new codes
  separated : codes.IsChain fun code next => ¬ (code.tag = .equal ∧ next.tag = .equal)
  identical : old = new → ∀ code ∈ codes, code.tag = .equal

inductive Step (α : Type*)
  | keep (item : α)
  | remove (item : α)
  | add (item : α)
  deriving DecidableEq

def Step.old? : Step α → Option α
  | .keep item => some item
  | .remove item => some item
  | .add _ => none

def Step.new? : Step α → Option α
  | .keep item => some item
  | .remove _ => none
  | .add item => some item

/-- The list a script starts from. -/
def olds (steps : List (Step α)) : List α := steps.filterMap Step.old?

/-- The list a script ends with. -/
def news (steps : List (Step α)) : List α := steps.filterMap Step.new?

variable (front back : List (Step α)) (items : List α)

@[simp] theorem olds_append :
    olds (front ++ back) = olds front ++ olds back := List.filterMap_append

@[simp] theorem news_append :
    news (front ++ back) = news front ++ news back := List.filterMap_append

@[simp] theorem olds_keep : olds (items.map Step.keep) = items := by
  induction items with
  | nil => rfl
  | cons item items ih => exact congrArg (item :: ·) ih

@[simp] theorem news_keep : news (items.map Step.keep) = items := by
  induction items with
  | nil => rfl
  | cons item items ih => exact congrArg (item :: ·) ih

@[simp] theorem olds_remove : olds (items.map Step.remove) = items := by
  induction items with
  | nil => rfl
  | cons item items ih => exact congrArg (item :: ·) ih

@[simp] theorem news_remove : news (items.map Step.remove) = [] := by
  induction items with
  | nil => rfl
  | cons item items ih => exact ih

@[simp] theorem olds_add : olds (items.map Step.add) = [] := by
  induction items with
  | nil => rfl
  | cons item items ih => exact ih

@[simp] theorem news_add : news (items.map Step.add) = items := by
  induction items with
  | nil => rfl
  | cons item items ih => exact congrArg (item :: ·) ih

/-- The steps of one opcode: what it takes out stands before what it puts in. -/
def Opcode.steps (old new : List α) (code : Opcode) : List (Step α) :=
  match code.tag with
  | .equal => (slice old code.oldStart code.oldEnd).map Step.keep
  | .delete => (slice old code.oldStart code.oldEnd).map Step.remove
  | .insert => (slice new code.newStart code.newEnd).map Step.add
  | .replace => (slice old code.oldStart code.oldEnd).map Step.remove ++
      (slice new code.newStart code.newEnd).map Step.add

def script (old new : List α) (codes : List Opcode) : List (Step α) :=
  codes.flatMap (Opcode.steps old new)

theorem slice_append {front : List α} {i : ℕ} (hi : front.length = i) (items back : List α) :
    slice (front ++ (items ++ back)) i (i + items.length) = items := by
  subst hi
  rw [slice, List.take_length_add_append, List.take_left, List.drop_left]

theorem Opcode.steps_change {tag : Tag} {removed added front back front' back' : List α} {i j : ℕ}
    (htag : tag.Changes removed added) (hi : front.length = i) (hj : front'.length = j) :
    Opcode.steps (front ++ (removed ++ back)) (front' ++ (added ++ back'))
      ⟨tag, i, i + removed.length, j, j + added.length⟩ =
        removed.map Step.remove ++ added.map Step.add := by
  cases tag with
  | equal => exact htag.elim
  | delete =>
    rw [show added = [] from htag]
    exact (congrArg _ (slice_append hi _ _)).trans (List.append_nil _).symm
  | insert =>
    rw [show removed = [] from htag]
    exact congrArg _ (slice_append hj _ _)
  | replace =>
    exact congrArg₂ (· ++ ·) (congrArg _ (slice_append hi _ _)) (congrArg _ (slice_append hj _ _))

theorem Turns.script_eq {i j : ℕ} {old new : List α} {codes : List Opcode}
    (h : Turns i j old new codes) {front back front' back' : List α}
    (hi : front.length = i) (hj : front'.length = j) :
    olds (script (front ++ (old ++ back)) (front' ++ (new ++ back')) codes) = old ∧
      news (script (front ++ (old ++ back)) (front' ++ (new ++ back')) codes) = new := by
  induction h generalizing front front' with
  | done i j => exact ⟨rfl, rfl⟩
  | @equal i j old new codes kept rest ih =>
    have hfront : (front ++ kept).length = i + kept.length := by rw [List.length_append, hi]
    have hfront' : (front' ++ kept).length = j + kept.length := by rw [List.length_append, hj]
    have hrest := ih hfront hfront'
    have hsteps : Opcode.steps (front ++ (kept ++ old ++ back)) (front' ++ (kept ++ new ++ back'))
        ⟨.equal, i, i + kept.length, j, j + kept.length⟩ = kept.map Step.keep := by
      rw [List.append_assoc]
      exact congrArg _ (slice_append hi _ _)
    rw [script, List.flatMap_cons, hsteps, olds_append, news_append, olds_keep, news_keep]
    simp only [List.append_assoc] at hrest ⊢
    exact ⟨congrArg _ hrest.1, congrArg _ hrest.2⟩
  | @change i j old new codes tag removed added htag rest ih =>
    have hfront : (front ++ removed).length = i + removed.length := by rw [List.length_append, hi]
    have hfront' : (front' ++ added).length = j + added.length := by rw [List.length_append, hj]
    have hrest := ih hfront hfront'
    have hsteps : Opcode.steps (front ++ (removed ++ old ++ back))
        (front' ++ (added ++ new ++ back')) ⟨tag, i, i + removed.length, j, j + added.length⟩ =
          removed.map Step.remove ++ added.map Step.add := by
      rw [List.append_assoc, List.append_assoc]
      exact Opcode.steps_change htag hi hj
    rw [script, List.flatMap_cons, hsteps]
    simp only [olds_append, news_append, olds_remove, news_remove, olds_add, news_add,
      List.append_nil, List.nil_append]
    simp only [List.append_assoc] at hrest ⊢
    exact ⟨congrArg _ hrest.1, congrArg _ hrest.2⟩

theorem Turns.eq_of_equal {i j : ℕ} {old new : List α} {codes : List Opcode}
    (h : Turns i j old new codes) (hcodes : ∀ code ∈ codes, code.tag = .equal) : old = new := by
  induction h with
  | done i j => rfl
  | equal kept _ ih => rw [ih fun code hcode => hcodes code (List.mem_cons_of_mem _ hcode)]
  | @change i j old new codes tag removed added htag _ _ =>
    have hequal : tag = .equal := hcodes _ List.mem_cons_self
    subst hequal
    exact htag.elim

end EditScript
