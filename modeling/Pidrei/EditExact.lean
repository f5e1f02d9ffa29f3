import Pidrei.EditDiff
import Mathlib.Data.List.Chain

/-!
Edits whose old texts are all found exactly. The tool takes the first position
of each old text, refuses overlaps, and replaces from the last position to the
first; whether the first position is the only one is left to a count that skips
overlaps and looks at the fuzzy view of both texts.
-/
namespace Pidrei.EditExact

open TextSearch EditDiff List

def Precedes (a b : TextReplacement) : Prop := a.matchIndex + a.matchLength ≤ b.matchIndex

instance : Trans Precedes Precedes Precedes where
  trans := by
    intro a b c hab hbc
    unfold Precedes at hab hbc ⊢
    omega

/-- The first position of the old text, and what comes there. -/
def exactReplacement (content : List Char) (edit : Edit) : TextReplacement :=
  ⟨(find edit.oldText content).getD 0, edit.oldText.length, edit.newText⟩

def inOrder (content : List Char) (edits : List Edit) : List Edit :=
  edits.insertionSort fun a b =>
    (exactReplacement content a).matchIndex ≤ (exactReplacement content b).matchIndex

def change (edit : Edit) : List Char × List Char := (edit.oldText, edit.newText)

theorem applyReplacements_edited {content front rest : List Char} {edits : List Edit}
    (hcontent : content = front ++ rest)
    (hat : ∀ edit ∈ edits,
      OccursAt edit.oldText content (exactReplacement content edit).matchIndex)
    (hfront : ∀ edit ∈ edits, front.length ≤ (exactReplacement content edit).matchIndex)
    (hordered : (edits.map (exactReplacement content)).Pairwise Precedes) :
    ∃ rest', applyReplacements content (edits.map (exactReplacement content)) 0 = front ++ rest' ∧
      Edited (edits.map change) rest rest' := by
  induction edits generalizing front rest with
  | nil => exact ⟨rest, hcontent, .unchanged rest⟩
  | cons edit edits ih =>
    obtain ⟨before, after, hsplit, hbefore⟩ := hat edit mem_cons_self
    obtain ⟨hnext, hordered⟩ := pairwise_cons.mp hordered
    have hend : (before ++ edit.oldText).length =
        (exactReplacement content edit).matchIndex + edit.oldText.length := by
      rw [length_append, hbefore]
    have hbehind : content = (before ++ edit.oldText) ++ after := by
      rw [hsplit, append_assoc]
    obtain ⟨rest', happly, hedited⟩ := ih hbehind
      (fun other hother => hat other (mem_cons_of_mem _ hother))
      (fun other hother => by
        rw [hend]
        exact hnext _ (mem_map_of_mem hother))
      hordered
    have hlength := hfront edit mem_cons_self
    obtain ⟨gap, hgap⟩ : ∃ gap, before = front ++ gap := by
      have hprefix : front <+: before := by
        apply prefix_of_prefix_length_le ⟨rest, hcontent.symm⟩ ⟨_, hsplit.symm⟩
        omega
      obtain ⟨gap, hgap⟩ := hprefix
      exact ⟨gap, hgap.symm⟩
    have hrest : rest = gap ++ (edit.oldText ++ after) := by
      rw [hsplit, hgap, append_assoc] at hcontent
      exact (append_cancel_left hcontent).symm
    refine ⟨gap ++ (edit.newText ++ rest'), ?_, ?_⟩
    · have htake : (before ++ edit.oldText ++ rest').take
          (exactReplacement content edit).matchIndex = before := by
        rw [append_assoc, ← hbefore, take_left]
      have hdrop : (before ++ edit.oldText ++ rest').drop
          ((exactReplacement content edit).matchIndex + edit.oldText.length) = rest' := by
        rw [← hend, drop_left]
      have hstep : applyReplacements content ((edit :: edits).map (exactReplacement content)) 0 =
          (before ++ edit.oldText ++ rest').take (exactReplacement content edit).matchIndex ++
            (edit.newText ++ (before ++ edit.oldText ++ rest').drop
              ((exactReplacement content edit).matchIndex + edit.oldText.length)) := by
        rw [← happly]
        rfl
      rw [hstep, htake, hdrop, hgap, append_assoc]
    · rw [hrest]
      exact .region gap (change edit) hedited

theorem inOrder_perm (content : List Char) (edits : List Edit) :
    (inOrder content edits).Perm edits := perm_insertionSort _ edits

theorem map_inOrder (content : List Char) (edits : List Edit) :
    (inOrder content edits).map (exactReplacement content) =
      (edits.map (exactReplacement content)).insertionSort
        fun a b => a.matchIndex ≤ b.matchIndex :=
  map_insertionSort _ _ _ _ fun _ _ _ _ => .rfl

theorem map_inOrder_perm {content : List Char} {edits other : List Edit}
    (hperm : other.Perm edits) (hnonempty : ∀ edit ∈ edits, edit.oldText ≠ [])
    (hordered : ((inOrder content edits).map (exactReplacement content)).Pairwise Precedes) :
    (inOrder content other).map (exactReplacement content) =
      (inOrder content edits).map (exactReplacement content) := by
  have hregions : ((inOrder content other).map (exactReplacement content)).Perm
      ((inOrder content edits).map (exactReplacement content)) :=
    List.Perm.map _ ((inOrder_perm content other).trans
      (hperm.trans (inOrder_perm content edits).symm))
  have hlength : ∀ region ∈ (inOrder content edits).map (exactReplacement content),
      0 < region.matchLength := by
    intro region hregion
    obtain ⟨edit, hedit, rfl⟩ := mem_map.mp hregion
    exact length_pos_of_ne_nil (hnonempty edit ((inOrder_perm content edits).mem_iff.mp hedit))
  have hdistinct : ((inOrder content edits).map (exactReplacement content)).Pairwise
      fun a b => a.matchIndex ≠ b.matchIndex := by
    apply hordered.imp_of_mem
    intro a b ha _ hab
    have hpos := hlength a ha
    unfold Precedes at hab
    omega
  have hleft : ((inOrder content other).map (exactReplacement content)).Pairwise
      fun a b => a.matchIndex ≤ b.matchIndex := by
    rw [map_inOrder]
    have htotal : Std.Total fun a b : TextReplacement => a.matchIndex ≤ b.matchIndex :=
      ⟨fun a b => Nat.le_total _ _⟩
    have htrans : IsTrans TextReplacement fun a b => a.matchIndex ≤ b.matchIndex :=
      ⟨fun _ _ _ => Nat.le_trans⟩
    exact pairwise_insertionSort _ _
  have hright : ((inOrder content edits).map (exactReplacement content)).Pairwise
      fun a b => a.matchIndex ≤ b.matchIndex := by
    apply hordered.imp
    intro a b hab
    unfold Precedes at hab
    omega
  refine List.Perm.eq_of_pairwise ?_ hleft hright hregions
  intro a b ha hb hab hba
  by_contra hne
  have hsymm : Std.Symm fun a b : TextReplacement => a.matchIndex ≠ b.matchIndex :=
    ⟨fun _ _ h => h.symm⟩
  exact hdistinct.forall (hregions.mem_iff.mp ha) hb hne (Nat.le_antisymm hab hba)

section Acceptance

/-- What the tool has checked of normalized edits that are all found exactly. -/
structure Accepted (nfkc : List Char → List Char) (content : List Char) (edits : List Edit) :
    Prop where
  nonempty : ∀ edit ∈ edits, edit.oldText ≠ []
  found : ∀ edit ∈ edits, (find edit.oldText content).isSome
  counted : ∀ edit ∈ edits, countOccurrences nfkc content edit.oldText ≤ 1
  ordered : ((inOrder content edits).map (exactReplacement content)).Pairwise Precedes

variable {nfkc : List Char → List Char} {content : List Char}

theorem ok_bind {α β : Type} (a : α) (f : α → Except String β) :
    (Except.ok a >>= f) = f a := rfl

variable {matched : List MatchedEdit} {edits : List Edit} {path : String}

theorem overlapping_none (h : overlapping matched = none) :
    (matched.map MatchedEdit.toTextReplacement).Pairwise Precedes := by
  rw [← isChain_iff_pairwise, isChain_map]
  induction matched with
  | nil => exact .nil
  | cons previous rest ih =>
    cases rest with
    | nil => exact .singleton previous
    | cons current rest =>
      simp only [overlapping] at h
      split at h
      · cases h
      · rename_i hbefore
        exact .cons_cons (Nat.le_of_not_gt hbefore) (ih h)

theorem overlapping_of_pairwise
    (h : (matched.map MatchedEdit.toTextReplacement).Pairwise Precedes) :
    overlapping matched = none := by
  induction matched with
  | nil => rfl
  | cons previous rest ih =>
    cases rest with
    | nil => rfl
    | cons current rest =>
      obtain ⟨hprevious, hrest⟩ := pairwise_cons.mp h
      have hbefore : Precedes previous.toTextReplacement current.toTextReplacement :=
        hprevious _ mem_cons_self
      simp only [overlapping]
      rw [if_neg (Nat.not_lt_of_ge hbefore)]
      exact ih hrest

theorem fuzzyFindText_of_find {oldText : List Char} {index : ℕ}
    (h : find oldText content = some index) :
    fuzzyFindText nfkc content oldText = ⟨true, index, oldText.length, false, content⟩ := by
  simp only [fuzzyFindText, h]

theorem find_of_fuzzyFindText {oldText : List Char}
    (hfound : (fuzzyFindText nfkc content oldText).found = true)
    (hexact : (fuzzyFindText nfkc content oldText).usedFuzzyMatch = false) :
    (find oldText content).isSome := by
  cases hfind : find oldText content with
  | some index => rfl
  | none =>
    simp only [fuzzyFindText, hfind] at hfound hexact
    split at hfound
    · cases hfound
    · rename_i hfuzzy
      simp only [hfuzzy] at hexact
      cases hexact

theorem matchEdits_of_found (hfound : ∀ edit ∈ edits, (find edit.oldText content).isSome)
    (hcounted : ∀ edit ∈ edits, countOccurrences nfkc content edit.oldText ≤ 1) (path : String)
    (total index : ℕ) : ∃ matched, matchEdits nfkc content path total index edits = .ok matched ∧
      matched.map MatchedEdit.toTextReplacement = edits.map (exactReplacement content) := by
  induction edits generalizing index with
  | nil => exact ⟨[], rfl, rfl⟩
  | cons edit edits ih =>
    obtain ⟨matched, hmatched, hmap⟩ := ih
      (fun other hother => hfound other (mem_cons_of_mem _ hother))
      (fun other hother => hcounted other (mem_cons_of_mem _ hother)) (index + 1)
    obtain ⟨position, hposition⟩ := Option.isSome_iff_exists.mp (hfound edit mem_cons_self)
    have hcount := hcounted edit mem_cons_self
    refine ⟨⟨⟨position, edit.oldText.length, edit.newText⟩, index⟩ :: matched, ?_, ?_⟩
    · simp only [matchEdits, fuzzyFindText_of_find hposition, hmatched]
      rw [if_neg (by simp), if_neg (by omega)]
      rfl
    · rw [map_cons, map_cons, hmap, exactReplacement, hposition]
      rfl

theorem found_of_matchEdits {total index : ℕ}
    (h : matchEdits nfkc content path total index edits = .ok matched)
    (hexact : ∀ edit ∈ edits, (fuzzyFindText nfkc content edit.oldText).usedFuzzyMatch = false) :
    ∀ edit ∈ edits, (find edit.oldText content).isSome ∧
      countOccurrences nfkc content edit.oldText ≤ 1 := by
  induction edits generalizing matched index with
  | nil => exact nofun
  | cons edit edits ih =>
    simp only [matchEdits] at h
    split at h
    · cases h
    · rename_i hfound
      split at h
      · cases h
      · rename_i hcount
        cases hrest : matchEdits nfkc content path total (index + 1) edits with
        | error message =>
          rw [hrest] at h
          cases h
        | ok rest =>
          intro other hother
          rcases mem_cons.mp hother with rfl | hother
          · refine ⟨find_of_fuzzyFindText (by simpa using hfound)
              (hexact other mem_cons_self), by omega⟩
          · exact ih hrest (fun e he => hexact e (mem_cons_of_mem _ he)) other hother

/-- No edit is matched through the fuzzy view. -/
def AllExact (nfkc : List Char → List Char) (content : List Char) (edits : List Edit) : Prop :=
  ∀ edit ∈ edits, (fuzzyFindText nfkc content edit.oldText).usedFuzzyMatch = false

def replacedContent (content : List Char) (edits : List Edit) : List Char :=
  applyReplacements content ((inOrder content edits).map (exactReplacement content)) 0

theorem sorted_eq
    (h : matched.map MatchedEdit.toTextReplacement = edits.map (exactReplacement content)) :
    (matched.insertionSort fun a b => a.matchIndex ≤ b.matchIndex).map
        MatchedEdit.toTextReplacement =
      (inOrder content edits).map (exactReplacement content) := by
  rw [map_inOrder, ← h]
  exact map_insertionSort _ _ _ _ fun _ _ _ _ => .rfl

theorem findIdx?_empty (h : ∀ edit ∈ edits, edit.oldText ≠ []) :
    edits.findIdx? (fun edit => edit.oldText.isEmpty) = none := by
  rw [findIdx?_eq_none_iff]
  intro edit hedit
  simp [h edit hedit]

theorem any_fuzzy_eq_false (h : AllExact nfkc content edits) :
    (edits.any fun edit => (fuzzyFindText nfkc content edit.oldText).usedFuzzyMatch) = false := by
  rw [any_eq_false]
  intro edit hedit
  simp [h edit hedit]

theorem accepted_of_ok {result : AppliedEditsResult}
    (hexact : AllExact nfkc content (edits.map normalizeEdit))
    (h : applyEditsToNormalizedContent nfkc content edits path = .ok result) :
    Accepted nfkc content (edits.map normalizeEdit) ∧
      result = ⟨content, replacedContent content (edits.map normalizeEdit)⟩ ∧
      content ≠ replacedContent content (edits.map normalizeEdit) := by
  unfold applyEditsToNormalizedContent at h
  simp only [any_fuzzy_eq_false hexact, Bool.false_eq_true, if_false] at h
  split at h
  · cases h
  · rename_i hempty
    have hnonempty : ∀ edit ∈ edits.map normalizeEdit, edit.oldText ≠ [] := by
      intro edit hedit hnil
      have hfalse := findIdx?_eq_none_iff.mp hempty edit hedit
      rw [hnil] at hfalse
      cases hfalse
    cases hmatch : matchEdits nfkc content path (edits.map normalizeEdit).length 0
        (edits.map normalizeEdit) with
    | error message =>
      rw [hmatch] at h
      cases h
    | ok matched =>
      have hchecked := found_of_matchEdits hmatch hexact
      have hfound := fun edit hedit => (hchecked edit hedit).1
      have hcounted := fun edit hedit => (hchecked edit hedit).2
      obtain ⟨matched', hmatch', hmap⟩ := matchEdits_of_found hfound hcounted path
        (edits.map normalizeEdit).length 0
      rw [hmatch] at hmatch'
      cases hmatch'
      simp only [hmatch, ok_bind] at h
      split at h
      · cases h
      · rename_i hoverlap
        have hordered := overlapping_none hoverlap
        rw [sorted_eq hmap] at hordered h
        split at h
        · cases h
        · rename_i hchanged
          exact ⟨⟨hnonempty, hfound, hcounted, hordered⟩, (Except.ok.inj h).symm, hchanged⟩

theorem ok_of_accepted (haccepted : Accepted nfkc content (edits.map normalizeEdit))
    (hexact : AllExact nfkc content (edits.map normalizeEdit))
    (hchanged : content ≠ replacedContent content (edits.map normalizeEdit)) :
    applyEditsToNormalizedContent nfkc content edits path =
      .ok ⟨content, replacedContent content (edits.map normalizeEdit)⟩ := by
  obtain ⟨matched, hmatch, hmap⟩ := matchEdits_of_found haccepted.found haccepted.counted path
    (edits.map normalizeEdit).length 0
  have hsorted := sorted_eq hmap
  have hoverlap := overlapping_of_pairwise (by rw [hsorted]; exact haccepted.ordered)
  unfold applyEditsToNormalizedContent
  simp only [any_fuzzy_eq_false hexact, Bool.false_eq_true, if_false,
    findIdx?_empty haccepted.nonempty, hmatch, ok_bind, hoverlap, hsorted]
  exact if_neg hchanged

theorem Accepted.perm {other : List Edit} (h : Accepted nfkc content edits)
    (hperm : other.Perm edits) : Accepted nfkc content other where
  nonempty := fun edit hedit => h.nonempty edit (hperm.mem_iff.mp hedit)
  found := fun edit hedit => h.found edit (hperm.mem_iff.mp hedit)
  counted := fun edit hedit => h.counted edit (hperm.mem_iff.mp hedit)
  ordered := by
    rw [map_inOrder_perm hperm h.nonempty h.ordered]
    exact h.ordered

theorem Accepted.occursAt (h : Accepted nfkc content edits) {edit : Edit} (hedit : edit ∈ edits) :
    OccursAt edit.oldText content (exactReplacement content edit).matchIndex := by
  obtain ⟨position, hposition⟩ := Option.isSome_iff_exists.mp (h.found edit hedit)
  have hindex : (exactReplacement content edit).matchIndex = position := by
    rw [exactReplacement, hposition]
    rfl
  rw [hindex]
  exact find_occursAt hposition

theorem Accepted.edited (h : Accepted nfkc content edits) :
    Edited ((inOrder content edits).map change) content (replacedContent content edits) := by
  have hat : ∀ edit ∈ inOrder content edits,
      OccursAt edit.oldText content (exactReplacement content edit).matchIndex :=
    fun edit hedit => h.occursAt ((inOrder_perm content edits).mem_iff.mp hedit)
  obtain ⟨rest', happly, hedited⟩ := applyReplacements_edited (nil_append content).symm hat
    (fun _ _ => Nat.zero_le _) h.ordered
  rw [replacedContent, happly]
  exact hedited

end Acceptance

section Uniqueness

/-- The text stands at two positions of the content. -/
def Ambiguous (content oldText : List Char) : Prop :=
  ∃ p q, p ≠ q ∧ OccursAt oldText content p ∧ OccursAt oldText content q

/-- An old text that stands at two positions of the content stands at two positions of the
fuzzy view too, and there they do not overlap. -/
def ShowsAmbiguous (nfkc : List Char → List Char) (content : List Char) (edits : List Edit) :
    Prop :=
  ∀ edit ∈ edits, Ambiguous content edit.oldText →
    OccursTwice (normalizeForFuzzyMatch nfkc edit.oldText) (normalizeForFuzzyMatch nfkc content)

/-- The result changes what the edits name: old texts at one position each, apart from each
other, replaced there and nowhere else, for every order of the edits. -/
structure ChangesExactly (nfkc : List Char → List Char) (content : List Char) (edits : List Edit)
    (path : String) (result : AppliedEditsResult) : Prop where
  once : ∀ edit ∈ edits.map normalizeEdit, ∃! position, OccursAt edit.oldText content position
  apart : (edits.map normalizeEdit).Pairwise fun a b => ∀ p q,
    OccursAt a.oldText content p → OccursAt b.oldText content q →
      p + a.oldText.length ≤ q ∨ q + b.oldText.length ≤ p
  replaced : ∃ ordered : List Edit, ordered.Perm (edits.map normalizeEdit) ∧
    Edited (ordered.map change) content result.newContent
  anyOrder : ∀ other : List Edit, other.Perm edits →
    applyEditsToNormalizedContent nfkc content other path = .ok result

variable {nfkc : List Char → List Char} {content : List Char} {edits : List Edit}

theorem once_of_accepted (h : Accepted nfkc content edits)
    (hshows : ShowsAmbiguous nfkc content edits) {edit : Edit} (hedit : edit ∈ edits) :
    ∀ position, OccursAt edit.oldText content position →
      position = (exactReplacement content edit).matchIndex := by
  intro position hposition
  by_contra hne
  have htwice := hshows edit hedit ⟨_, _, hne, hposition, h.occursAt hedit⟩
  have htwo : 1 < countOccurrences nfkc content edit.oldText := (one_lt_count_iff _ _).mpr htwice
  have hone := h.counted edit hedit
  omega

theorem apart_of_accepted (h : Accepted nfkc content edits) : edits.Pairwise fun a b =>
      Precedes (exactReplacement content a) (exactReplacement content b) ∨
        Precedes (exactReplacement content b) (exactReplacement content a) := by
  have hordered := pairwise_map.mp h.ordered
  have heither := hordered.imp (fun {a b} hab => Or.inl (b :=
    Precedes (exactReplacement content b) (exactReplacement content a)) hab)
  exact (inOrder_perm content edits).pairwise heither (fun {_ _} h => h.symm)

theorem anyOrder_of_accepted {path : String}
    (hexact : AllExact nfkc content (edits.map normalizeEdit))
    (h : Accepted nfkc content (edits.map normalizeEdit))
    (hchanged : content ≠ replacedContent content (edits.map normalizeEdit)) {other : List Edit}
    (hperm : other.Perm edits) : applyEditsToNormalizedContent nfkc content other path =
      .ok ⟨content, replacedContent content (edits.map normalizeEdit)⟩ := by
  have hnormalized := hperm.map normalizeEdit
  have hsame : replacedContent content (other.map normalizeEdit) =
      replacedContent content (edits.map normalizeEdit) := by
    rw [replacedContent, map_inOrder_perm hnormalized h.nonempty h.ordered]
    rfl
  rw [← hsame] at hchanged ⊢
  apply ok_of_accepted (h.perm hnormalized)
  · exact fun edit hedit => hexact edit (hnormalized.mem_iff.mp hedit)
  · exact hchanged

/-- An accepted exact edit changes exactly what it names just when the fuzzy view shows every
ambiguous old text twice without overlap. -/
theorem changesExactly_iff {edits : List Edit} {path : String} {result : AppliedEditsResult}
    (hok : applyEditsToNormalizedContent nfkc content edits path = .ok result)
    (hexact : AllExact nfkc content (edits.map normalizeEdit)) :
    ChangesExactly nfkc content edits path result ↔
      ShowsAmbiguous nfkc content (edits.map normalizeEdit) := by
  obtain ⟨haccepted, rfl, hchanged⟩ := accepted_of_ok hexact hok
  constructor
  · rintro hexactly edit hedit ⟨p, q, hne, hp, hq⟩
    obtain ⟨position, _, honly⟩ := hexactly.once edit hedit
    exact absurd ((honly p hp).trans (honly q hq).symm) hne
  · intro hshows
    refine ⟨?_, ?_, ?_, ?_⟩
    · intro edit hedit
      exact ⟨_, haccepted.occursAt hedit, once_of_accepted haccepted hshows hedit⟩
    · apply (apart_of_accepted haccepted).imp_of_mem
      intro a b ha hb hab p q hp hq
      rw [once_of_accepted haccepted hshows ha p hp, once_of_accepted haccepted hshows hb q hq]
      exact hab
    · exact ⟨_, inOrder_perm _ _, haccepted.edited⟩
    · intro other hperm
      exact anyOrder_of_accepted hexact haccepted hchanged hperm

/-- One edit of a text that stands at one position. -/
theorem changesExactly_iff_word :
    ChangesExactly id ['a', 'b'] [⟨['b'], ['c']⟩] "f" ⟨['a', 'b'], ['a', 'c']⟩ ↔
      ShowsAmbiguous id ['a', 'b'] ([⟨['b'], ['c']⟩].map normalizeEdit) := by
  apply changesExactly_iff
  · decide
  · unfold AllExact
    decide

/-- `aa` stands at two positions of `aaa`, and the edit is applied to the first. -/
theorem overlapping_positions_accepted :
    ¬ ∀ (nfkc : List Char → List Char) (content : List Char) (edits : List Edit) (path : String)
      (result : AppliedEditsResult),
      applyEditsToNormalizedContent nfkc content edits path = .ok result →
      AllExact nfkc content (edits.map normalizeEdit) →
      ChangesExactly nfkc content edits path result := by
  intro h
  have hexactly := h id ['a', 'a', 'a'] [⟨['a', 'a'], ['b']⟩] "f" ⟨['a', 'a', 'a'], ['b', 'a']⟩
    (by decide) (by unfold AllExact; decide)
  have hedit : normalizeEdit ⟨['a', 'a'], ['b']⟩ = ⟨['a', 'a'], ['b']⟩ := by decide
  obtain ⟨position, _, honly⟩ := hexactly.once _ (mem_singleton.mpr rfl)
  rw [hedit] at honly
  have hfirst := honly 0 ⟨[], ['a'], rfl, rfl⟩
  have hsecond := honly 1 ⟨['a'], [], rfl, rfl⟩
  omega

end Uniqueness

end Pidrei.EditExact
