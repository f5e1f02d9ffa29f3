import Mathlib.Data.List.Nodup

/-!
Insertion-ordered finite maps. A new key goes to the end; setting a key that is
present overwrites its value in place; removing a key closes the gap. The key
list has no duplicates by construction, so a lookup is unambiguous and
re-inserting the items of a map in their order rebuilds the same map.
-/

structure OrderedMap (κ : Type*) (ν : Type*) where
  entries : List (κ × ν)
  nodupKeys : (entries.map Prod.fst).Nodup

namespace OrderedMap

open List
open Prod (fst snd)

variable {κ : Type*} {ν : Type*} {ω : Type*} {m : OrderedMap κ ν} {f : ν → Option ω}
  {n : OrderedMap κ ω} {k : κ}

@[ext] theorem ext {n : OrderedMap κ ν} (h : m.entries = n.entries) : m = n := by
  cases m
  cases n
  cases h
  rfl

def empty : OrderedMap κ ν := ⟨[], nodup_nil⟩

def keys (m : OrderedMap κ ν) : List κ := m.entries.map fst

def values (m : OrderedMap κ ν) : List ν := m.entries.map snd

def isEmpty (m : OrderedMap κ ν) : Bool := m.entries.isEmpty

def mapValues (f : ν → ω) (m : OrderedMap κ ν) : OrderedMap κ ω :=
  ⟨m.entries.map (fun item => (item.1, f item.2)), by
    simpa [map_map, Function.comp_def] using m.nodupKeys⟩

@[simp] theorem entries_empty : (empty : OrderedMap κ ν).entries = [] := rfl

/-- Apply a function that may fail to every value. -/
def traverseEntries (f : ν → Option ω) : List (κ × ν) → Option (List (κ × ω))
  | [] => some []
  | (k, v) :: rest => (f v).bind fun w => (traverseEntries f rest).map ((k, w) :: ·)

variable {items : List (κ × ν)} {out : List (κ × ω)} {v : ν}

theorem keys_traverseEntries (h : traverseEntries f items = some out) :
    out.map fst = items.map fst := by
  induction items generalizing out with
  | nil =>
    cases h
    rfl
  | cons item rest ih =>
    obtain ⟨w, _, hrest⟩ := Option.bind_eq_some_iff.mp h
    obtain ⟨more, hmore, rfl⟩ := Option.map_eq_some_iff.mp hrest
    rw [map_cons, map_cons, ih hmore]

def traverse (f : ν → Option ω) (m : OrderedMap κ ν) : Option (OrderedMap κ ω) :=
  match h : traverseEntries f m.entries with
  | some items => some ⟨items, by rw [keys_traverseEntries h]; exact m.nodupKeys⟩
  | none => none

theorem entries_traverse (h : m.traverse f = some n) :
    traverseEntries f m.entries = some n.entries := by
  unfold traverse at h
  split at h
  · rename_i items hitems
    cases h
    exact hitems
  · cases h

variable [DecidableEq κ]

/-- Overwrite the first item with the key, or append a new item. -/
def upsert (k : κ) (v : ν) : List (κ × ν) → List (κ × ν)
  | [] => [(k, v)]
  | item :: rest => if item.1 = k then (k, v) :: rest else item :: upsert k v rest

attribute [local simp] upsert in
theorem mem_keys_upsert (k j : κ) (v : ν) (items : List (κ × ν)) :
    j ∈ (upsert k v items).map fst ↔ j = k ∨ j ∈ items.map fst := by
  induction items with
  | nil => simp [upsert]
  | cons item rest ih =>
    by_cases h : item.1 = k
    · simp [upsert, h]
    · simp only [upsert, h, if_false, map_cons, mem_cons, ih]
      tauto

theorem nodup_upsert (k : κ) (v : ν) (items : List (κ × ν))
    (h : (items.map fst).Nodup) : ((upsert k v items).map fst).Nodup := by
  induction items with
  | nil => simp [upsert]
  | cons item rest ih =>
    simp only [map_cons, nodup_cons] at h
    by_cases hk : item.1 = k
    · subst hk
      simpa [upsert] using h
    · simp only [upsert, hk, if_false, map_cons, nodup_cons]
      refine ⟨?_, ih h.2⟩
      rw [mem_keys_upsert]
      tauto

/-- A key that is not present yet is appended. -/
theorem upsert_of_notMem (k : κ) (v : ν) (items : List (κ × ν))
    (h : k ∉ items.map fst) : upsert k v items = items ++ [(k, v)] := by
  induction items with
  | nil => rfl
  | cons item rest ih =>
    simp only [map_cons, mem_cons, not_or] at h
    have hne : item.1 ≠ k := Ne.symm h.1
    simp [upsert, hne, ih h.2]

/-- Setting a key that is present keeps the keys and their order. -/
theorem keys_upsert_of_mem (k : κ) (v : ν) (items : List (κ × ν)) (h : k ∈ items.map fst) :
    (upsert k v items).map fst = items.map fst := by
  induction items with
  | nil => simp at h
  | cons item rest ih =>
    by_cases hk : item.1 = k
    · simp [upsert, hk]
    · have hrest : k ∈ rest.map fst := by
        rcases mem_cons.mp h with heq | hrest
        · exact absurd heq.symm hk
        · exact hrest
      simp only [upsert, hk, if_false, map_cons, ih hrest]

theorem lookup_cons_ite (k l : κ) (v : ν) (rest : List (κ × ν)) :
    ((l, v) :: rest).lookup k = if k = l then some v else rest.lookup k := by
  by_cases h : k = l
  · simp [h]
  · have hb : (k == l) = false := by simpa using h
    simp [lookup_cons, hb, h]

theorem lookup_upsert (k j : κ) (v : ν) (items : List (κ × ν)) :
    (upsert k v items).lookup j = if j = k then some v else items.lookup j := by
  induction items with
  | nil => simp [upsert, lookup_cons_ite]
  | cons item rest ih =>
    obtain ⟨l, w⟩ := item
    by_cases hl : l = k
    · subst hl
      by_cases hj : j = l <;> simp [upsert, lookup_cons_ite, hj]
    · simp only [upsert, hl, if_false, lookup_cons_ite, ih]
      by_cases hj : j = l
      · subst hj
        simp [hl]
      · simp [hj]

theorem lookup_filter_ne (k j : κ) (items : List (κ × ν)) :
    (items.filter (fun item => item.1 ≠ k)).lookup j =
      if j = k then none else items.lookup j := by
  induction items with
  | nil => simp
  | cons item rest ih =>
    obtain ⟨l, w⟩ := item
    by_cases hl : l = k
    · subst hl
      by_cases hj : j = l
      · subst hj
        simpa using ih
      · simpa [lookup_cons_ite, hj] using ih
    · by_cases hj : j = l
      · subst hj
        simp [hl]
      · simpa [lookup_cons_ite, hj, hl] using ih

theorem lookup_isSome_iff (k : κ) (items : List (κ × ν)) :
    (items.lookup k).isSome ↔ k ∈ items.map fst := by
  induction items with
  | nil => simp
  | cons item rest ih =>
    obtain ⟨l, w⟩ := item
    by_cases h : k = l
    · simp [h]
    · simp only [lookup_cons_ite, h, if_false, ih, map_cons, mem_cons, false_or]

instance [DecidableEq ν] : DecidableEq (OrderedMap κ ν) := fun m n =>
  decidable_of_iff (m.entries = n.entries) ⟨ext, congrArg entries⟩

def get? (m : OrderedMap κ ν) (k : κ) : Option ν := m.entries.lookup k

def set (m : OrderedMap κ ν) (k : κ) (v : ν) : OrderedMap κ ν :=
  ⟨upsert k v m.entries, nodup_upsert k v m.entries m.nodupKeys⟩

def erase (m : OrderedMap κ ν) (k : κ) : OrderedMap κ ν :=
  ⟨m.entries.filter (fun item => item.1 ≠ k),
    m.nodupKeys.sublist (List.Sublist.map fst filter_sublist)⟩

def contains (m : OrderedMap κ ν) (k : κ) : Bool := (m.get? k).isSome

def insertAll (m : OrderedMap κ ν) (items : List (κ × ν)) : OrderedMap κ ν :=
  items.foldl (fun acc item => acc.set item.1 item.2) m

def ofList (items : List (κ × ν)) : OrderedMap κ ν := empty.insertAll items

theorem lookup_filter_const (k : κ) (p : κ × ν → Bool) (b : Bool) (items : List (κ × ν))
    (h : ∀ item ∈ items, item.1 = k → p item = b) :
    (items.filter p).lookup k = if b then items.lookup k else none := by
  induction items with
  | nil => simp
  | cons item rest ih =>
    have hrest := ih (fun other hother => h other (mem_cons_of_mem _ hother))
    obtain ⟨l, v⟩ := item
    by_cases hk : k = l
    · have hp : p (l, v) = b := h (l, v) (by simp) hk.symm
      cases b with
      | true => simp [hp, hk]
      | false => simpa [hp] using hrest
    · cases hp : p (l, v) <;> simp [hp, hk, lookup_cons_ite, hrest]

@[simp] theorem get?_empty (k : κ) : (empty : OrderedMap κ ν).get? k = none := rfl

theorem get?_set (m : OrderedMap κ ν) (k j : κ) (v : ν) :
    (m.set k v).get? j = if j = k then some v else m.get? j := lookup_upsert k j v m.entries

@[simp] theorem get?_set_self (m : OrderedMap κ ν) (k : κ) (v : ν) :
    (m.set k v).get? k = some v := by simp [get?_set]

theorem get?_set_of_ne (m : OrderedMap κ ν) {j : κ} (v : ν) (h : j ≠ k) :
    (m.set k v).get? j = m.get? j := by simp [get?_set, h]

theorem get?_erase (m : OrderedMap κ ν) (k j : κ) :
    (m.erase k).get? j = if j = k then none else m.get? j := lookup_filter_ne k j m.entries

theorem mem_keys_set (m : OrderedMap κ ν) (k j : κ) (v : ν) :
    j ∈ (m.set k v).keys ↔ j = k ∨ j ∈ m.keys := mem_keys_upsert k j v m.entries

theorem get?_isSome_iff (m : OrderedMap κ ν) (k : κ) : (m.get? k).isSome ↔ k ∈ m.keys :=
  lookup_isSome_iff k m.entries

theorem keys_set_of_get? (m : OrderedMap κ ν) (h : m.get? k = some v) (w : ν) :
    (m.set k w).keys = m.keys :=
  keys_upsert_of_mem k w m.entries ((m.get?_isSome_iff k).mp (by rw [h]; rfl))

theorem entries_set_of_notMem (m : OrderedMap κ ν) (k : κ) (v : ν) (h : k ∉ m.keys) :
    (m.set k v).entries = m.entries ++ [(k, v)] := upsert_of_notMem k v m.entries h

theorem get?_eq_some_iff_mem (m : OrderedMap κ ν) (k : κ) (v : ν) :
    m.get? k = some v ↔ (k, v) ∈ m.entries := by
  obtain ⟨items, hnodup⟩ := m
  simp only [get?]
  induction items with
  | nil => simp
  | cons item rest ih =>
    obtain ⟨l, w⟩ := item
    simp only [map_cons, nodup_cons] at hnodup
    by_cases h : k = l
    · subst h
      have hnot : (k, v) ∉ rest := fun hmem => hnodup.1 (mem_map.mpr ⟨(k, v), hmem, rfl⟩)
      simp [hnot, eq_comm]
    · simp [lookup_cons_ite, h, ih hnodup.2]

theorem lookup_traverseEntries (h : traverseEntries f items = some out) (k : κ) :
    out.lookup k = (items.lookup k).bind f := by
  induction items generalizing out with
  | nil =>
    cases h
    rfl
  | cons item rest ih =>
    obtain ⟨l, v⟩ := item
    obtain ⟨w, hw, hrest⟩ := Option.bind_eq_some_iff.mp h
    obtain ⟨more, hmore, rfl⟩ := Option.map_eq_some_iff.mp hrest
    rw [lookup_cons_ite, lookup_cons_ite, ih hmore]
    split
    · exact hw.symm
    · rfl

theorem get?_traverse (h : m.traverse f = some n) (k : κ) : n.get? k = (m.get? k).bind f :=
  lookup_traverseEntries (entries_traverse h) k

/-- When the function has been applied to every value, it has not failed on any of them. -/
theorem get?_of_traverse (h : m.traverse f = some n) (hk : m.get? k = some v) :
    ∃ w, f v = some w ∧ n.get? k = some w := by
  have hn : (n.get? k).isSome := by
    have hkeys : n.keys = m.keys := keys_traverseEntries (entries_traverse h)
    rw [get?_isSome_iff, hkeys, ← get?_isSome_iff, hk]
    rfl
  obtain ⟨w, hw⟩ := Option.isSome_iff_exists.mp hn
  refine ⟨w, ?_, hw⟩
  rw [get?_traverse h, hk] at hw
  exact hw

theorem get?_foldl_erase (m : OrderedMap κ ν) (gone : List κ) (k : κ) :
    (gone.foldl erase m).get? k = if k ∈ gone then none else m.get? k := by
  induction gone generalizing m with
  | nil => simp
  | cons l rest ih =>
    rw [foldl_cons, ih, get?_erase]
    by_cases hk : k = l <;> by_cases hr : k ∈ rest <;> simp [hk, hr]

theorem entries_insertAll_of_fresh (m : OrderedMap κ ν) (items : List (κ × ν))
    (h : ((m.entries ++ items).map fst).Nodup) :
    (m.insertAll items).entries = m.entries ++ items := by
  induction items generalizing m with
  | nil => simp [insertAll]
  | cons item rest ih =>
    have hnot : item.1 ∉ m.keys := by
      simp only [map_append, map_cons, nodup_append, mem_cons] at h
      exact fun hmem => h.2.2 _ hmem _ (.inl rfl) rfl
    have hset := entries_set_of_notMem m item.1 item.2 hnot
    change ((m.set item.1 item.2).insertAll rest).entries = _
    rw [ih _ (by rw [hset]; simpa using h), hset]
    simp

/-- Re-inserting the items of a map in order rebuilds it. -/
theorem ofList_entries (m : OrderedMap κ ν) : ofList m.entries = m :=
  ext (entries_insertAll_of_fresh (empty : OrderedMap κ ν) m.entries m.nodupKeys)

theorem get?_insertAll (m : OrderedMap κ ν) (items : List (κ × ν)) (k : κ) :
    (m.insertAll items).get? k = (items.reverse.lookup k).or (m.get? k) := by
  induction items generalizing m with
  | nil => simp [insertAll]
  | cons item rest ih =>
    obtain ⟨l, w⟩ := item
    change ((m.set l w).insertAll rest).get? k = _
    rw [ih, get?_set, reverse_cons, lookup_append]
    by_cases h : k = l <;> cases rest.reverse.lookup k <;> simp [lookup_cons_ite, h]

theorem get?_ofList (items : List (κ × ν)) (k : κ) :
    (ofList items).get? k = items.reverse.lookup k := by
  simp [ofList, get?_insertAll]

end OrderedMap
