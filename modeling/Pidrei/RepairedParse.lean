import Pidrei.RepairedScan

/-!
The decoder on a text and on its repair. As long as it meets no problem that a
repair can touch, it reads the same characters of both, and any other first
problem stays in the repaired text.
-/
namespace Pidrei.RepairedParse

open JsonDecoder JsonRepair RepairedScan

section Numbers

variable {n m : ℕ} {P : List Char → Prop}

theorem follows_scanSign : Follows (Within n m) 0 scanSign scanSign := by
  unfold scanSign
  apply follows_peek
  intro found
  split
  · next hfound =>
    subst hfound
    exact follows_skip (by decide) (follows_pure _)
  · exact follows_pure _

theorem follows_digits_head {c : Char} (hc : isDigit c = true) :
    Follows (fun text => P text ∧ text.head? = some c) 1 digits digits := by
  constructor
  · intro text rest value htext hok
    obtain ⟨behind, rfl⟩ := eq_cons_of_head? htext.2
    obtain ⟨kept, _, hdigits⟩ := (follows_digits (P := P)).ok htext.1 hok
    cases hok
    refine ⟨kept, ?_, hdigits⟩
    rw [List.dropWhile_cons_of_pos hc, List.length_cons]
    have hshort := List.length_dropWhile_le isDigit behind
    omega
  · intro text error _ herror
    cases herror

theorem follows_scanWhole : Follows (Within n m) 1 scanWhole scanWhole := by
  unfold scanWhole
  apply follows_peek
  intro found
  cases found with
  | none => exact follows_fail _
  | some c =>
    dsimp only
    split_ifs with hzero hdigit
    · subst hzero
      exact follows_advance (by decide) (follows_pure _)
    · exact follows_digits_head hdigit
    · exact follows_fail _

theorem follows_digitsBehind {lead : List Char} (hquote : '"' ∉ lead) :
    Follows P 0 (digitsBehind lead) (digitsBehind lead) :=
  follows_of_total fun text => by
    cases hprefix : lead.isPrefixOf text with
    | false =>
      have hprefix' : lead.isPrefixOf (repairJson text) = false := by
        rw [isPrefixOf_repairJson hquote, hprefix]
      refine ⟨[], text, ?_, Kept.refl text, ?_⟩
      · rw [digitsBehind, hprefix]
        rfl
      · rw [digitsBehind, hprefix']
        rfl
    | true =>
      obtain ⟨behind, rfl⟩ := List.isPrefixOf_iff_prefix.mp hprefix
      have hscan : ∀ rest, digitsBehind lead (lead ++ rest) =
          if (rest.takeWhile isDigit).isEmpty then .ok ([], lead ++ rest)
          else .ok (lead ++ rest.takeWhile isDigit, rest.dropWhile isDigit) := by
        intro rest
        have hlead : lead.isPrefixOf (lead ++ rest) = true :=
          List.isPrefixOf_iff_prefix.mpr (List.prefix_append _ _)
        rw [digitsBehind, hlead, List.drop_left]
        cases (rest.takeWhile isDigit).isEmpty <;> rfl
      have hdigit : isDigit '"' = false := by decide
      obtain ⟨htake, hdrop⟩ := span_repairJson hdigit behind
      cases hempty : (behind.takeWhile isDigit).isEmpty with
      | true =>
        refine ⟨[], lead ++ behind, ?_, Kept.refl _, ?_⟩
        · rw [hscan, if_pos hempty]
        · rw [repairJson_append hquote, hscan, htake, if_pos hempty]
      | false =>
        have hfound : ¬ (behind.takeWhile isDigit).isEmpty = true := by
          rw [hempty]
          exact Bool.false_ne_true
        refine ⟨_, _, by rw [hscan, if_neg hfound], ?_, ?_⟩
        · exact (kept_append hquote behind).trans (kept_dropWhile hdigit behind)
        · rw [repairJson_append hquote, hscan, htake, hdrop, if_neg hfound]

theorem follows_digitsBehindOneOf {leads : List (List Char)} (hquote : ∀ lead ∈ leads, '"' ∉ lead) :
    Follows (Within n m) 0 (digitsBehindOneOf leads) (digitsBehindOneOf leads) := by
  induction leads with
  | nil => exact follows_pure _
  | cons lead leads ih =>
    unfold digitsBehindOneOf
    apply Follows.before (follows_digitsBehind (hquote lead List.mem_cons_self))
    intro found
    split_ifs
    · exact ih fun other hother => hquote other (List.mem_cons_of_mem _ hother)
    · exact follows_pure _

theorem follows_scanNumber (options : Options) :
    Follows (Within n m) 1 (scanNumber options) (scanNumber options) := by
  unfold scanNumber
  apply Follows.before follows_scanSign
  intro sign
  apply Follows.behind follows_scanWhole
  intro whole
  apply Follows.before (follows_digitsBehind (by decide))
  intro fraction
  apply Follows.before (follows_digitsBehindOneOf (by decide))
  intro exponent
  split_ifs
  · exact follows_lift _
  · exact follows_pure _

end Numbers

section Containers

variable {n m : ℕ} {text : List Char}

theorem repairJson_eq_nil (h : repairJson text = []) : text = [] := by
  have hhead := head?_repairJson text
  rw [h] at hhead
  exact List.head?_eq_none_iff.mp hhead.symm

theorem follows_of_nil {α : Type} {P : List Char → Prop} {k : ℕ} {scan scan' : Scanner α}
    (hP : ∀ text, P text → text = []) (hscan : ∃ error, scan [] = .error error)
    (hscan' : ∃ error, scan' [] = .error error) : Follows P k scan scan' := by
  obtain ⟨error, hscan⟩ := hscan
  constructor
  · intro text rest value htext hok
    rw [hP text htext, hscan] at hok
    cases hok
  · intro text _ htext _ _
    rw [hP text htext]
    exact hscan'

theorem within_zero_left (h : Within 0 m text) : text = [] :=
  List.eq_nil_of_length_eq_zero (Nat.le_zero.mp h.1)

theorem within_zero_right (h : Within n 0 text) : text = [] :=
  repairJson_eq_nil (List.eq_nil_of_length_eq_zero (Nat.le_zero.mp h.2))

theorem follows_sized {α : Type} {loop : ℕ → Scanner α}
    (h : ∀ n m, Follows (Within n m) 0 (loop n) (loop m)) :
    Follows (Within n m) 0 (fun text => loop text.length text)
      (fun text => loop text.length text) := by
  constructor
  · intro text rest value _ hok
    exact (h _ _).ok ⟨Nat.le_refl _, Nat.le_refl _⟩ hok
  · intro text error _ herror
    exact (h _ _).error ⟨Nat.le_refl _, Nat.le_refl _⟩ herror

section Entries

variable {α : Type} {close : Char} {trailing missing : String}

theorem follows_afterEntry (hclose : close ≠ '"') {next next' : Scanner (List α)}
    (h : Follows (Within n m) 0 next next') (entry : α) :
    Follows (Within n m) 0 (afterEntry close trailing next entry)
      (afterEntry close trailing next' entry) := by
  unfold afterEntry
  apply Follows.before follows_skipWhitespace
  intro _
  apply follows_peek
  intro found
  cases found with
  | none => exact follows_fail _
  | some c =>
    dsimp only
    split_ifs with hend hcomma
    · subst hend
      exact follows_skip hclose (follows_pure _)
    · subst hcomma
      apply follows_skip (by decide)
      apply Follows.before follows_skipWhitespace
      intro _
      apply follows_peek
      intro found
      split_ifs
      · exact follows_fail _
      · exact (h.before fun entries => follows_pure _).mono (fun _ htext => htext.1)
          (Nat.le_refl 0)
    · exact follows_fail _

theorem scanEntries_nil {scan : Scanner α} (hscan : ∃ error, scan [] = .error error) (n : ℕ) :
    ∃ error, scanEntries close trailing missing scan n [] = .error error := by
  cases n with
  | zero => exact ⟨_, rfl⟩
  | succ n =>
    obtain ⟨error, hscan⟩ := hscan
    exact ⟨error, bind_error hscan⟩

/-- The loops over a text and its repair, each with a bound of its own. -/
theorem follows_scanEntries (hclose : close ≠ '"') {scan : Scanner α}
    (hscan : ∀ n m, Follows (Within n m) 1 scan scan) (n m : ℕ) :
    Follows (Within n m) 0 (scanEntries close trailing missing scan n)
      (scanEntries close trailing missing scan m) := by
  have hnil := @scanEntries_nil _ close trailing missing _
    ((hscan 0 0).nil ⟨Nat.le_refl 0, Nat.le_refl 0⟩)
  induction n generalizing m with
  | zero => exact follows_of_nil (fun _ => within_zero_left) (hnil 0) (hnil m)
  | succ n ih =>
    cases m with
    | zero => exact follows_of_nil (fun _ => within_zero_right) (hnil (n + 1)) (hnil 0)
    | succ m => exact Follows.round (hscan (n + 1) (m + 1)) (follows_afterEntry hclose (ih m))

end Entries

variable {scan : Scanner Json}

theorem follows_scanArray (hscan : ∀ n m, Follows (Within n m) 1 scan scan) :
    Follows (Within n m) 0 (scanArray scan) (scanArray scan) := by
  unfold scanArray
  apply Follows.before follows_skipWhitespace
  intro _
  apply follows_peek
  intro found
  split_ifs with hclose
  · subst hclose
    exact follows_skip (by decide) (follows_pure _)
  · have hitems := @follows_sized n m _ (scanItems scan) (follows_scanEntries (by decide) hscan)
    exact (hitems.before fun items => follows_pure _).mono (fun _ htext => htext.1) (Nat.le_refl 0)

theorem follows_scanMember (hscan : ∀ n m, Follows (Within n m) 1 scan scan) :
    Follows (Within n m) 1 (scanMember scan) (scanMember scan) := by
  unfold scanMember
  apply follows_peek
  intro found
  split_ifs with hquote
  · subst hquote
    refine (follows_literal fun key => ?_).mono (fun _ htext => htext) (Nat.le_refl (1 + 0))
    apply Follows.before follows_skipWhitespace
    intro _
    apply follows_peek
    intro found
    split_ifs with hcolon
    · subst hcolon
      apply follows_skip (by decide)
      apply Follows.before follows_skipWhitespace
      intro _
      exact ((hscan n m).behind fun value => follows_pure _).mono (fun _ h => h) (Nat.zero_le _)
    · exact follows_fail _
  · exact follows_fail _

theorem follows_scanObject (hscan : ∀ n m, Follows (Within n m) 1 scan scan) :
    Follows (Within n m) 0 (scanObject scan) (scanObject scan) := by
  unfold scanObject
  apply Follows.before follows_skipWhitespace
  intro _
  apply follows_peek
  intro found
  split_ifs with hclose
  · subst hclose
    exact follows_skip (by decide) (follows_pure _)
  · have hmembers := @follows_sized n m _ (scanMembers scan)
      (follows_scanEntries (by decide) fun _ _ => follows_scanMember hscan)
    exact (hmembers.before fun members => follows_pure _).mono (fun _ htext => htext.1)
      (Nat.le_refl 0)

end Containers

section Documents

variable {n m : ℕ}

theorem follows_scanValue (options : Options) {object array : Scanner Json}
    (hobject : ∀ n m, Follows (Within n m) 0 object object)
    (harray : ∀ n m, Follows (Within n m) 0 array array) :
    Follows (Within n m) 1 (scanValue options object array) (scanValue options object array) := by
  unfold scanValue
  apply follows_peek
  intro found
  cases found with
  | none => exact follows_fail _
  | some c =>
    dsimp only
    split_ifs with hquote hbrace hbracket
    · subst hquote
      exact follows_literal fun text => follows_pure _
    · subst hbrace
      exact follows_advance (by decide) (hobject n m)
    · subst hbracket
      exact follows_advance (by decide) (harray n m)
    · have hnumber : Follows (fun text => Within n m text ∧ text.head? = some c) 1
          (scanNumber options) (scanNumber options) :=
        (follows_scanNumber options).mono (fun _ htext => htext.1) (Nat.le_refl 1)
      exact follows_orWord (by decide) (by decide) _ (follows_orWord (by decide) (by decide) _
        (follows_orWord (by decide) (by decide) _ (follows_orWord (by decide) (by decide) _
          (follows_orWord (by decide) (by decide) _ (follows_orWord (by decide) (by decide) _
            hnumber)))))

theorem follows_tooDeep {P : List Char → Prop} : Follows P 0 tooDeep tooDeep := by
  constructor
  · intro text rest value _ hok
    cases hok
  · intro text error _ _ _
    exact ⟨_, rfl⟩

theorem follows_scanOnce (options : Options) (depth n m : ℕ) :
    Follows (Within n m) 1 (scanOnce options depth) (scanOnce options depth) := by
  induction depth generalizing n m with
  | zero => exact follows_scanValue options (fun _ _ => follows_tooDeep) fun _ _ => follows_tooDeep
  | succ depth ih =>
    exact follows_scanValue options (fun _ _ => follows_scanObject ih)
      fun _ _ => follows_scanArray ih

theorem follows_scanDocument (options : Options) :
    Follows (Within n m) 0 (scanDocument options) (scanDocument options) := by
  unfold scanDocument
  apply follows_peek
  intro found
  split_ifs
  · exact follows_fail _
  · refine Follows.mono ?_ (fun _ htext => htext.1) (Nat.le_refl 0)
    apply Follows.before follows_skipWhitespace
    intro _
    have hvalue := (follows_scanOnce options options.maxDepth n m).mono (fun _ h => h)
      (Nat.zero_le 1)
    apply hvalue.before
    intro value
    apply Follows.before follows_skipWhitespace
    intro _
    apply follows_peek
    intro found
    cases found with
    | some c => exact follows_fail _
    | none => exact follows_pure _

variable {text : List Char} {options : Options} {rest : List Char} {value : Json}

theorem bind_eq_ok {α β : Type} {scan : Scanner α} {next : α → Scanner β} {value : β}
    (h : (scan >>= next) text = .ok (value, rest)) :
    ∃ first middle, scan text = .ok (first, middle) ∧ next first middle = .ok (value, rest) := by
  cases hscan : scan text with
  | error error =>
    rw [bind_error hscan] at h
    cases h
  | ok found =>
    rw [bind_ok hscan] at h
    exact ⟨found.1, found.2, rfl, h⟩

theorem scanDocument_rest (h : scanDocument options text = .ok (value, rest)) : rest = [] := by
  unfold scanDocument at h
  obtain ⟨_, _, _, h⟩ := bind_eq_ok h
  split_ifs at h
  · cases h
  · obtain ⟨_, _, _, h⟩ := bind_eq_ok h
    obtain ⟨_, _, _, h⟩ := bind_eq_ok h
    obtain ⟨_, _, _, h⟩ := bind_eq_ok h
    obtain ⟨found, middle, hpeek, h⟩ := bind_eq_ok h
    cases found with
    | some c => cases h
    | none =>
      cases h
      obtain ⟨hhead, rfl⟩ := Prod.mk.inj (Except.ok.inj hpeek)
      exact List.head?_eq_none_iff.mp hhead

theorem loads_eq_ok :
    loads options text = .ok value ↔ scanDocument options text = .ok (value, []) := by
  constructor
  · intro h
    unfold loads at h
    cases hscan : scanDocument options text with
    | error error =>
      rw [hscan] at h
      cases h
    | ok found =>
      rw [hscan] at h
      cases h
      have hrest := scanDocument_rest hscan
      rw [← hrest]
  · intro h
    unfold loads
    rw [h]
    rfl

theorem loads_eq_error {error : LoadError} :
    loads options text = .error error ↔ scanDocument options text = .error error := by
  unfold loads
  cases scanDocument options text with
  | error other =>
    constructor
    · exact fun h => congrArg Except.error (Except.error.inj h)
    · exact fun h => congrArg Except.error (Except.error.inj h)
  | ok found =>
    constructor
    · exact nofun
    · exact nofun

end Documents

section Results

/-- A text that the decoder accepts within some limits. -/
def ValidJson (jsonText : List Char) : Prop :=
  ∃ limits value, loadsStrict limits jsonText = .ok value

def parseOrRepaired (limits : Limits) (jsonText : List Char) : Except LoadError Json :=
  match loadsStrict limits jsonText with
  | .ok value => .ok value
  | .error _ => loadsStrict limits (repairJson jsonText)

variable {jsonText : List Char} {error : LoadError}

theorem repairJson_of_valid (h : ValidJson jsonText) : repairJson jsonText = jsonText := by
  obtain ⟨limits, value, hloads⟩ := h
  have hscan := loads_eq_ok.mp hloads
  obtain ⟨⟨front, hfront, hrepaired⟩, _, _⟩ := (@follows_scanDocument jsonText.length
    (repairJson jsonText).length _).ok ⟨Nat.le_refl _, Nat.le_refl _⟩ hscan
  rw [hrepaired, hfront]
  rfl

theorem loadsStrict_repaired {limits : Limits} (h : loadsStrict limits jsonText = .error error)
    (hunrepairable : isRepairable error = false) :
    ∃ error', loadsStrict limits (repairJson jsonText) = .error error' := by
  obtain ⟨error', hscan⟩ := (@follows_scanDocument jsonText.length (repairJson jsonText).length
    _).error ⟨Nat.le_refl _, Nat.le_refl _⟩ (loads_eq_error.mp h) hunrepairable
  exact ⟨error', loads_eq_error.mpr hscan⟩

theorem not_repairable_of_not_valueError (h : isValueError error = false) :
    isRepairable error = false := by
  cases error with
  | recursion => rfl
  | decode _ => cases h
  | value _ => cases h

theorem parseJsonWithRepair_eq_ok (limits : Limits) (jsonText : List Char) (value : Json) :
    parseJsonWithRepair limits jsonText = .ok value ↔
      parseOrRepaired limits jsonText = .ok value := by
  unfold parseJsonWithRepair parseOrRepaired
  cases hloads : loadsStrict limits jsonText with
  | ok found => exact .rfl
  | error error =>
    dsimp only
    cases hrepairable : isRepairable error with
    | false =>
      obtain ⟨error', hrepaired⟩ := loadsStrict_repaired hloads hrepairable
      rw [hrepaired]
      constructor
      · intro h
        rw [Bool.not_false, if_pos rfl] at h
        split_ifs at h
      · intro h
        cases h
    | true =>
      have hvalue : isValueError error = true := by
        by_contra hother
        rw [not_repairable_of_not_valueError (Bool.eq_false_iff.mpr hother)] at hrepairable
        cases hrepairable
      rw [hvalue]
      by_cases hsame : repairJson jsonText = jsonText
      · rw [hsame, hloads]
        simp
      · simp [hsame]

/-- The repair keeps valid texts and repaired texts and leaves legal literals only, and the gate
in front of it changes no outcome. -/
theorem repair_safe (limits : Limits) (jsonText : List Char) :
    (ValidJson jsonText → repairJson jsonText = jsonText) ∧
      repairJson (repairJson jsonText) = repairJson jsonText ∧
      (∀ literal ∈ literals (repairJson jsonText), LegalBody literal) ∧
      ∀ value, parseJsonWithRepair limits jsonText = .ok value ↔
        parseOrRepaired limits jsonText = .ok value := by
  refine ⟨repairJson_of_valid, repairFrom_idem false jsonText, ?_, ?_⟩
  · exact legal_of_mem_literals false jsonText [] legalBody_nil
  · exact parseJsonWithRepair_eq_ok limits jsonText

end Results

end Pidrei.RepairedParse
