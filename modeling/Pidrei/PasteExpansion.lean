import Pidrei.TextOrigins

/-!
When filling in one paste after the other is the same as filling in all at once. A
character that an expansion puts in remembers its paste, and whether the marker that it
was put in for had characters of a paste itself. The expansion is the simultaneous one
exactly when every marker in the text is read as what it is and no marker of a later
paste uses a character of an earlier one.
-/
namespace Pidrei.Editor

open PythonText Substitution List
open Prod (fst)

inductive Source where
  | text (origin : Origin)
  /-- Put in for a marker; `quoted` says that the marker was not one of the text. -/
  | paste (content : Text) (quoted : Bool)

namespace Source

def put : Source → Option Text
  | text _ => none
  | paste content _ => some content

def isQuoted : Source → Bool
  | text _ => false
  | paste _ quoted => quoted

def origin : Source → Origin
  | text origin => origin
  | paste .. => .pasted

end Source

structure Sourced where
  char : Char
  source : Source

def chars (text : List Sourced) : Text := text.map Sourced.char

def lifted (text : List Traced) : List Sourced := text.map fun x => ⟨x.char, .text x.origin⟩

/-- The content takes the place of the marker. -/
def putIn (word : List Sourced) (content : Text) : List Sourced :=
  content.map fun c => ⟨c, .paste content (word.any (·.source.put.isSome))⟩

/-- A marker that stands for nothing stays. -/
def fill (word : List Sourced) (content : Option Text) : List Sourced :=
  (content.map (putIn word)).getD word

def sourcedMarkers : Words Sourced := markers.comap Sourced.char

/-- One round of the expansion. -/
def fillIn (paste : ℕ × Text) (word : List Sourced) : List Sourced :=
  if spelled paste.1 (chars word) then putIn word paste.2 else word

/-- `_expand_paste_markers` on characters that remember where they come from. -/
def expandSourced (pastes : List (ℕ × Text)) (text : List Sourced) : List Sourced :=
  pastes.foldl (fun result paste => sub sourcedMarkers (fillIn paste) result) text

/-- What a marker with a registered id stands for: the marker of a large paste for that paste,
one that was typed for what is registered, and pasted characters for nothing. -/
def meaning (registered : Text) (origin : Origin) : Option Text :=
  match origin with
  | .pasted => none
  | .typed => some registered
  | .marker paste _ => some paste.content

def standsFor (pastes : List (ℕ × Text)) (word : List Sourced) : List Sourced :=
  match matchMarker (chars word) with
  | some m => fill word ((pastes.lookup m.id).bind fun registered =>
      meaning registered (markerOrigin m.id (word.map (·.source.origin))))
  | none => word

def replaceMarkers (pastes : List (ℕ × Text)) (text : List Sourced) : List Sourced :=
  sub sourcedMarkers (standsFor pastes) text

/-- A marker with a registered id is read as what it is: it is written with the id if it stands
for a paste, which is the registered one, and with another spelling if it was pasted. -/
def ReadRight (registered : Text) (m : Marker) (origin : Origin) : Prop :=
  match meaning registered origin with
  | some content => m.number = str m.id ∧ content = registered
  | none => m.number ≠ str m.id

/-- The markers of the text that are registered are read as what they are. -/
def Honest (pastes : List (ℕ × Text)) (text : List Traced) : Prop :=
  ∀ front word back (m : Marker) registered, text = front ++ (word ++ back) → plain word = m.text →
    m.Valid → pastes.lookup m.id = some registered →
      ReadRight registered m (markerOrigin m.id (word.map Traced.origin))

/-- The markers with the id have characters of the text only. -/
def Clear (pasteId : ℕ) (text : List Sourced) : Prop :=
  ∀ front word back, text = front ++ (word ++ back) → IsWord sourcedMarkers word →
    spelled pasteId (chars word) = true → ∀ x ∈ word, x.source.put = none

/-- With the earlier pastes put in, a marker of a later one has characters of the text only. -/
def Apart (pastes : List (ℕ × Text)) (text : List Traced) : Prop :=
  ∀ earlier paste later, pastes = earlier ++ paste :: later →
    Clear paste.1 (replaceMarkers earlier (lifted text))

section Characters

@[simp] theorem chars_lifted (text : List Traced) : chars (lifted text) = plain text := by
  simp [chars, lifted, plain, Function.comp_def]

@[simp] theorem chars_putIn (word : List Sourced) (content : Text) : chars (putIn word content) = content := by
  simp [chars, putIn, Function.comp_def]

@[simp] theorem origins_lifted (text : List Traced) :
    (lifted text).map (·.source.origin) = text.map Traced.origin := by
  simp [lifted, Source.origin, Function.comp_def]

variable {x : Sourced} {word : List Sourced} {m : Marker}

theorem put_of_mem_lifted {text : List Traced} (h : x ∈ lifted text) : x.source.put = none := by
  obtain ⟨c, _, rfl⟩ := mem_map.mp h
  rfl

theorem source_of_mem_putIn {content : Text} (h : x ∈ putIn word content) :
    x.source = .paste content (word.any (·.source.put.isSome)) := by
  obtain ⟨c, _, rfl⟩ := mem_map.mp h
  rfl

theorem chars_expandSourced (pastes : OrderedMap ℕ Text) (text : List Sourced) :
    chars (expandSourced pastes.entries text) = expandPasteMarkers pastes (chars text) := by
  unfold expandSourced expandPasteMarkers
  induction pastes.entries generalizing text with
  | nil => rfl
  | cons paste rest ih =>
    rw [foldl_cons, foldl_cons, ih]
    congr 1
    refine map_sub markers Sourced.char (fun word => ?_) text
    show chars (fillIn paste word) = if spelled paste.1 (chars word) then paste.2 else chars word
    unfold fillIn
    split
    · exact chars_putIn word paste.2
    · rfl

theorem isWord_chars (h : IsWord sourcedMarkers word) :
    ∃ m, matchMarker (chars word) = some m ∧ m.Valid ∧ chars word = m.text := by
  obtain ⟨m, hm, hlength⟩ := Option.map_eq_some_iff.mp h
  obtain ⟨hvalid, rest, hrest⟩ := matchMarker_eq_some hm
  refine ⟨m, hm, hvalid, ?_⟩
  have hnil : rest = [] := by
    have htotal := congrArg length hrest
    rw [length_append, length_map] at htotal
    exact length_eq_zero_iff.mp (by omega)
  rw [hnil, append_nil] at hrest
  exact hrest

theorem spelled_iff {pasteId : ℕ} (hm : matchMarker (chars word) = some m) :
    spelled pasteId (chars word) = true ↔ m.number = str pasteId := by
  simp [spelled, hm]

theorem id_of_spelled {pasteId : ℕ} (h : m.number = str pasteId) : m.id = pasteId := by
  rw [Marker.id, h, int_str]

theorem expandSourced_concat (pastes : List (ℕ × Text)) (paste : ℕ × Text) (text : List Sourced) :
    expandSourced (pastes ++ [paste]) text =
      sub sourcedMarkers (fillIn paste) (expandSourced pastes text) := by
  simp [expandSourced]

end Characters

section Together

/-- The content of the first paste whose id the marker is written with. -/
def fillAny (pastes : List (ℕ × Text)) (word : List Sourced) : List Sourced :=
  match pastes.find? fun paste => spelled paste.1 (chars word) with
  | some paste => putIn word paste.2
  | none => word

variable {pastes : List (ℕ × Text)} {text : List Traced} {word : List Sourced} {m : Marker}

theorem fillAny_append (paste : ℕ × Text) (word : List Sourced) :
    fillAny (pastes ++ [paste]) word =
      if (pastes.find? fun paste => spelled paste.1 (chars word)).isSome then fillAny pastes word
      else fillIn paste word := by
  unfold fillAny fillIn
  rw [find?_append]
  cases hfind : pastes.find? fun paste => spelled paste.1 (chars word) with
  | some found => rfl
  | none =>
    rw [Option.none_or, find?_singleton]
    cases spelled paste.1 (chars word) <;> rfl

theorem expandSourced_eq (hne : ∀ paste ∈ pastes, paste.2 ≠ [])
    (h : ∀ earlier paste later, pastes = earlier ++ paste :: later →
      Clear paste.1 (expandSourced earlier (lifted text))) :
    expandSourced pastes (lifted text) = sub sourcedMarkers (fillAny pastes) (lifted text) := by
  induction pastes using reverseRecOn with
  | nil => exact (sub_self (lifted text)).symm
  | append_singleton pastes paste ih =>
    have hbefore := ih (fun other hother => hne other (mem_append_left _ hother))
      fun earlier other later heq => h earlier other (later ++ [paste]) (by simp [heq])
    have hclear := h pastes paste [] rfl
    rw [hbefore] at hclear
    rw [expandSourced_concat, hbefore]
    refine sub_sub (fun x => x.source.put ≠ none) (fun word _ => ?_)
      (fun x hx => not_not.mpr (put_of_mem_lifted hx)) fun front word more heq hword hchanges x hx => ?_
    · rw [fillAny_append]
      cases hfind : pastes.find? fun paste => spelled paste.1 (chars word) with
      | none =>
        left
        exact ⟨by rw [fillAny, hfind], rfl⟩
      | some found =>
        right
        have hfound : fillAny pastes word = putIn word found.2 := by rw [fillAny, hfind]
        have hcontent := hne found (mem_append_left _ (mem_of_find?_eq_some hfind))
        refine ⟨?_, fun x hx => ?_, rfl⟩
        · rw [hfound]
          simpa [putIn] using hcontent
        · rw [hfound] at hx
          rw [source_of_mem_putIn hx]
          exact Option.some_ne_none _
    · have hspelled : spelled paste.1 (chars word) = true := by
        by_contra hnot
        exact hchanges (if_neg hnot)
      exact not_not.mpr (hclear front word more heq hword hspelled x hx)

/-- What is registered, if the marker is written with its id. -/
def asWritten (m : Marker) (registered : Text) : Option Text :=
  if m.number = str m.id then some registered else none

theorem fillAny_eq (hnodup : (pastes.map fst).Nodup) (hm : matchMarker (chars word) = some m) :
    fillAny pastes word = fill word ((pastes.lookup m.id).bind (asWritten m)) := by
  have hget := OrderedMap.get?_eq_some_iff_mem ⟨pastes, hnodup⟩ m.id
  unfold fillAny
  cases hfind : pastes.find? fun paste => spelled paste.1 (chars word) with
  | some paste =>
    have hspelled := find?_some hfind
    have hnumber := (spelled_iff hm).mp hspelled
    have hid := id_of_spelled hnumber
    have hlookup : pastes.lookup m.id = some paste.2 :=
      (hget paste.2).mpr (hid ▸ mem_of_find?_eq_some hfind)
    rw [hlookup, Option.bind_some, asWritten, if_pos (hid ▸ hnumber)]
    rfl
  | none =>
    cases hlookup : pastes.lookup m.id with
    | none => rfl
    | some registered =>
      have hnot := find?_eq_none.mp hfind (m.id, registered) ((hget registered).mp hlookup)
      rw [Option.bind_some, asWritten, if_neg fun hnumber => hnot ((spelled_iff hm).mpr hnumber)]
      rfl

theorem standsFor_eq (pastes : List (ℕ × Text)) (hm : matchMarker (chars word) = some m) :
    standsFor pastes word = fill word ((pastes.lookup m.id).bind fun registered =>
      meaning registered (markerOrigin m.id (word.map (·.source.origin)))) := by
  rw [standsFor, hm]

end Together

section Meaning

variable {pastes : List (ℕ × Text)} {text : List Traced} {word : List Sourced} {m : Marker}

theorem readRight_iff (registered : Text) (m : Marker) (origin : Origin) :
    ReadRight registered m origin ↔ asWritten m registered = meaning registered origin := by
  unfold ReadRight asWritten
  cases meaning registered origin with
  | none => simp
  | some content =>
    split
    · rename_i hnumber
      simp [hnumber, eq_comm]
    · rename_i hnumber
      simp [hnumber]

theorem meaning_ne {registered : Text} (h : registered ≠ []) (origin : Origin) :
    meaning registered origin ≠ some [] := by
  cases origin with
  | typed => exact fun heq => h (Option.some.inj heq)
  | pasted => exact Option.some_ne_none _ |>.symm
  | marker paste _ => exact fun heq => ne_nil_of_isLargePaste paste.large (Option.some.inj heq)

theorem asWritten_ne {registered : Text} (h : registered ≠ []) (m : Marker) :
    asWritten m registered ≠ some [] := by
  unfold asWritten
  split
  · exact fun heq => h (Option.some.inj heq)
  · exact Option.some_ne_none _ |>.symm

theorem fill_cons {x : Sourced} (hx : x.source.put = none) (rest : List Sourced)
    {content : Option Text} (h : content ≠ some []) :
    ∃ y ys, fill (x :: rest) content = y :: ys ∧ y.source.put = content := by
  cases content with
  | none => exact ⟨x, rest, rfl, hx⟩
  | some content =>
    cases content with
    | nil => exact absurd rfl h
    | cons c cs => exact ⟨_, _, rfl, rfl⟩

theorem fill_distinct (hword : IsWord sourcedMarkers word) (htext : ∀ x ∈ word, x.source.put = none)
    {content other : Option Text} (hcontent : content ≠ some []) (hother : other ≠ some []) :
    content = other ∨ ∃ y z ys zs, fill word content = y :: ys ∧ fill word other = z :: zs ∧ y ≠ z := by
  obtain ⟨x, rest, rfl, _, _⟩ := hword.cons
  have hx := htext x mem_cons_self
  obtain ⟨y, ys, hy, hput⟩ := fill_cons hx rest hcontent
  obtain ⟨z, zs, hz, hput'⟩ := fill_cons hx rest hother
  by_cases heq : content = other
  · exact .inl heq
  · refine .inr ⟨y, z, ys, zs, hy, hz, fun hyz => heq ?_⟩
    rw [← hput, ← hput', hyz]

theorem isWord_lifted {word : List Traced} (h : plain word = m.text) (hvalid : m.Valid) :
    IsWord sourcedMarkers (lifted word) ∧ matchMarker (chars (lifted word)) = some m := by
  have hm : matchMarker (chars (lifted word)) = some m := by
    have happend := matchMarker_append hvalid []
    rwa [append_nil, ← h, ← chars_lifted] at happend
  refine ⟨?_, hm⟩
  show (matchMarker (chars (lifted word))).map _ = _
  rw [hm, Option.map_some, ← h, ← chars_lifted]
  simp [chars]

variable (hnodup : (pastes.map fst).Nodup) (hne : ∀ paste ∈ pastes, paste.2 ≠ [])

include hnodup hne

theorem registered_ne {pasteId : ℕ} {registered : Text} (h : pastes.lookup pasteId = some registered) :
    registered ≠ [] :=
  hne _ ((OrderedMap.get?_eq_some_iff_mem ⟨pastes, hnodup⟩ _ _).mp h)

theorem fillAny_or (hm : matchMarker (chars word) = some m) :
    (fillAny pastes word = word ∧ standsFor pastes word = word ∧ pastes.lookup m.id = none) ∨
    ∃ registered, pastes.lookup m.id = some registered ∧ registered ≠ [] ∧
      fillAny pastes word = fill word (asWritten m registered) ∧
      standsFor pastes word = fill word
        (meaning registered (markerOrigin m.id (word.map (·.source.origin)))) := by
  have hfill := fillAny_eq hnodup hm
  have hstands := standsFor_eq pastes hm
  cases hlookup : pastes.lookup m.id with
  | none =>
    rw [hlookup] at hfill hstands
    exact .inl ⟨hfill, hstands, rfl⟩
  | some registered =>
    rw [hlookup] at hfill hstands
    exact .inr ⟨registered, rfl, registered_ne hnodup hne hlookup, hfill, hstands⟩

theorem distinct_readings (hword : IsWord sourcedMarkers word) (htext : ∀ x ∈ word, x.source.put = none) :
    Distinct (fillAny pastes) (standsFor pastes) word := by
  obtain ⟨m, hm, _, _⟩ := isWord_chars hword
  rcases fillAny_or hnodup hne hm with ⟨hfill, hstands, _⟩ | ⟨registered, _, hregistered, hfill, hstands⟩
  · exact .inl (hfill.trans hstands.symm)
  · unfold Distinct
    rw [hfill, hstands]
    rcases fill_distinct hword htext (asWritten_ne hregistered m) (meaning_ne hregistered _) with heq | hdiffer
    · exact .inl (by rw [heq])
    · exact .inr hdiffer

theorem sub_fillAny_iff : sub sourcedMarkers (fillAny pastes) (lifted text) =
    replaceMarkers pastes (lifted text) ↔ Honest pastes text := by
  constructor
  · intro h front word back m registered heq hplain hvalid hlookup
    obtain ⟨hword, hm⟩ := isWord_lifted hplain hvalid
    have hsplit : lifted text = lifted front ++ (lifted word ++ lifted back) := by
      rw [heq]
      simp [lifted]
    have htext : ∀ other : List Sourced, (∀ x ∈ other, x ∈ lifted front ++ (lifted word ++ lifted back)) →
        ∀ x ∈ other, x.source.put = none := fun other hmem x hx =>
      put_of_mem_lifted (hsplit ▸ hmem x hx)
    rw [hsplit] at h
    have hsame := eq_of_sub_eq (fun other hother hmem =>
      distinct_readings hnodup hne hother (htext other hmem)) h hword
    rcases fillAny_or hnodup hne hm with ⟨_, _, hnone⟩ | ⟨other, hother, hregistered, hfill, hstands⟩
    · rw [hnone] at hlookup
      cases hlookup
    · obtain rfl := Option.some.inj (hother.symm.trans hlookup)
      rw [hfill, hstands, origins_lifted] at hsame
      rw [readRight_iff]
      rcases fill_distinct hword (fun x hx => put_of_mem_lifted hx) (asWritten_ne hregistered m)
        (meaning_ne hregistered _) with heq | ⟨y, z, ys, zs, hy, hz, hyz⟩
      · exact heq
      · rw [hy, hz] at hsame
        exact absurd (cons.inj hsame).1 hyz
  · intro h
    refine sub_congr fun front word more heq hword => ?_
    obtain ⟨m, hm, hvalid, hchars⟩ := isWord_chars hword
    obtain ⟨front, rest, rfl, rfl, hrest⟩ := map_eq_append_iff.mp heq
    obtain ⟨word, back, rfl, rfl, rfl⟩ := map_eq_append_iff.mp hrest
    rcases fillAny_or hnodup hne hm with ⟨hfill, hstands, _⟩ | ⟨registered, hlookup, _, hfill, hstands⟩
    · rw [hfill, hstands]
    · have hplain : plain word = m.text := by
        rw [← chars_lifted]
        exact hchars
      have hright := h front word back m registered rfl hplain hvalid hlookup
      rw [readRight_iff, ← origins_lifted] at hright
      rw [hfill, hright]
      exact hstands.symm

end Meaning

section Quoted

variable {pastes : List (ℕ × Text)} {paste : ℕ × Text} {text : List Sourced}

/-- Something was put in for a marker with characters of a paste. -/
def Quotes (text : List Sourced) : Prop := ∃ x ∈ text, x.source.isQuoted = true

theorem quotes_putIn {word : List Sourced} {content : Text} (hne : content ≠ [])
    (h : ∃ x ∈ word, x.source.put ≠ none) : Quotes (putIn word content) := by
  obtain ⟨x, hx, hput⟩ := h
  obtain ⟨c, hc⟩ := exists_mem_of_ne_nil content hne
  exact ⟨_, mem_map_of_mem hc, any_eq_true.mpr ⟨x, hx, Option.isSome_iff_ne_none.mpr hput⟩⟩

theorem Quotes.round (h : Quotes text) (hne : paste.2 ≠ []) :
    Quotes (sub sourcedMarkers (fillIn paste) text) := by
  refine exists_mem_sub (fun word _ hword => ?_) h
  unfold fillIn
  split
  · obtain ⟨x, hx, hquoted⟩ := hword
    refine quotes_putIn hne ⟨x, hx, fun hnone => ?_⟩
    cases hsource : x.source with
    | text origin =>
      rw [hsource] at hquoted
      cases hquoted
    | paste content quoted =>
      rw [hsource] at hnone
      cases hnone
  · exact hword

/-- A later round does not undo it. -/
theorem Quotes.expand (hne : ∀ paste ∈ pastes, paste.2 ≠ []) (h : Quotes text) :
    Quotes (expandSourced pastes text) := by
  induction pastes generalizing text with
  | nil => exact h
  | cons paste rest ih =>
    exact ih (fun other hother => hne other (mem_cons_of_mem _ hother)) (h.round (hne paste mem_cons_self))

theorem clear_of_not_quotes (hne : paste.2 ≠ [])
    (h : ¬ Quotes (sub sourcedMarkers (fillIn paste) text)) : Clear paste.1 text := by
  intro front word back heq hword hspelled x hx
  by_contra hput
  refine h ?_
  obtain ⟨y, hy, hquoted⟩ := quotes_putIn hne ⟨x, hx, hput⟩
  rw [heq, sub_around hword, fillIn, if_pos hspelled]
  exact ⟨y, mem_append_right _ (mem_append_left _ hy), hquoted⟩

theorem not_quotes_replaceMarkers (pastes : List (ℕ × Text)) (text : List Traced) :
    ¬ Quotes (replaceMarkers pastes (lifted text)) := by
  rintro ⟨x, hx, hquoted⟩
  have hall : ∀ x ∈ replaceMarkers pastes (lifted text), x.source.isQuoted = false := by
    have hlifted : ∀ x ∈ lifted text, x.source.isQuoted = false := by
      intro x hx
      obtain ⟨c, _, rfl⟩ := mem_map.mp hx
      rfl
    refine forall_mem_sub hlifted fun word hword hmem x hx => ?_
    obtain ⟨m, hm, _, _⟩ := isWord_chars hword
    rw [standsFor_eq pastes hm] at hx
    cases hcontent : (pastes.lookup m.id).bind fun registered =>
      meaning registered (markerOrigin m.id (word.map (·.source.origin))) with
    | none =>
      rw [hcontent] at hx
      exact hlifted x (hmem x hx)
    | some content =>
      rw [hcontent] at hx
      rw [source_of_mem_putIn hx]
      refine any_eq_false.mpr fun y hy => ?_
      rw [put_of_mem_lifted (hmem y hy)]
      exact Bool.false_ne_true
  rw [hall x hx] at hquoted
  cases hquoted

end Quoted

section Exact

variable {pastes : List (ℕ × Text)} {text : List Traced}

theorem Honest.earlier {earlier later : List (ℕ × Text)} (h : Honest (earlier ++ later) text) :
    Honest earlier text := by
  intro front word back m registered heq hplain hvalid hlookup
  refine h front word back m registered heq hplain hvalid ?_
  rw [lookup_append, hlookup]
  rfl

/-- In each round the markers have characters of the text only. -/
def Rounds (pastes : List (ℕ × Text)) (text : List Traced) : Prop :=
  ∀ earlier paste later, pastes = earlier ++ paste :: later →
    Clear paste.1 (expandSourced earlier (lifted text))

theorem rounds_of_expandSourced_eq (hne : ∀ paste ∈ pastes, paste.2 ≠ [])
    (h : expandSourced pastes (lifted text) = replaceMarkers pastes (lifted text)) :
    Rounds pastes text := by
  intro earlier paste later heq
  rw [heq] at hne
  refine clear_of_not_quotes (hne paste (mem_append_right _ mem_cons_self)) fun hquotes => ?_
  rw [← expandSourced_concat] at hquotes
  have hlater := hquotes.expand fun other hother =>
    hne other (mem_append_right _ (mem_cons_of_mem paste hother))
  have hall : expandSourced later (expandSourced (earlier ++ [paste]) (lifted text)) =
      expandSourced pastes (lifted text) := by
    rw [heq]
    simp [expandSourced]
  rw [hall, h] at hlater
  exact not_quotes_replaceMarkers pastes text hlater

theorem Rounds.eq_replaceMarkers (h : Rounds pastes text) (hnodup : (pastes.map fst).Nodup)
    (hne : ∀ paste ∈ pastes, paste.2 ≠ []) (hhonest : Honest pastes text) :
    expandSourced pastes (lifted text) = replaceMarkers pastes (lifted text) :=
  (expandSourced_eq hne h).trans ((sub_fillAny_iff hnodup hne).mpr hhonest)

theorem rounds_of_apart (hnodup : (pastes.map fst).Nodup) (hne : ∀ paste ∈ pastes, paste.2 ≠ [])
    (hhonest : Honest pastes text) (h : Apart pastes text) : Rounds pastes text := by
  induction pastes using reverseRecOn with
  | nil =>
    intro earlier paste later heq
    simp at heq
  | append_singleton pastes paste ih =>
    have hnodup' : (pastes.map fst).Nodup := by
      rw [map_append] at hnodup
      exact (nodup_append.mp hnodup).1
    have hne' : ∀ other ∈ pastes, other.2 ≠ [] := fun other hother => hne other (mem_append_left _ hother)
    have hbefore := ih hnodup' hne' hhonest.earlier fun earlier other later heq =>
      h earlier other (later ++ [paste]) (by simp [heq])
    intro earlier other later heq
    rcases eq_nil_or_concat later with rfl | ⟨front, last, rfl⟩
    · obtain ⟨rfl, hlast⟩ := append_inj' heq rfl
      obtain rfl := (cons.inj hlast).1
      rw [hbefore.eq_replaceMarkers hnodup' hne' hhonest.earlier]
      exact h pastes paste [] rfl
    · refine hbefore earlier other front ?_
      rw [concat_eq_append, ← cons_append, ← append_assoc] at heq
      exact (append_inj' heq rfl).1

theorem expandSourced_eq_iff (text : List Traced) (hnodup : (pastes.map fst).Nodup)
    (hne : ∀ paste ∈ pastes, paste.2 ≠ []) :
    expandSourced pastes (lifted text) = replaceMarkers pastes (lifted text) ↔
      Honest pastes text ∧ Apart pastes text := by
  constructor
  · intro h
    have hrounds := rounds_of_expandSourced_eq hne h
    have hhonest : Honest pastes text := by
      rw [← sub_fillAny_iff hnodup hne, ← expandSourced_eq hne hrounds]
      exact h
    refine ⟨hhonest, fun earlier paste later heq => ?_⟩
    have hclear := hrounds earlier paste later heq
    subst heq
    have hbefore : Rounds earlier text := fun first other rest heq =>
      hrounds first other (rest ++ paste :: later) (by simp [heq])
    rw [map_append] at hnodup
    rwa [hbefore.eq_replaceMarkers (nodup_append.mp hnodup).1
      (fun other hother => hne other (mem_append_left _ hother)) hhonest.earlier] at hclear
  · intro h
    exact (rounds_of_apart hnodup hne h.1 h.2).eq_replaceMarkers hnodup hne h.1

end Exact

/-- The expanded text and the submitted text are the text with every marker replaced at once by
what it stands for, and their characters come from where they do in it. -/
structure Faithful (s : State) (o : Origins) : Prop where
  sourced : expandSourced s.pastes.entries (lifted o.text) = replaceMarkers s.pastes.entries (lifted o.text)
  expanded : s.expandedText = chars (replaceMarkers s.pastes.entries (lifted o.text))
  submitted : s.submitValue.submitted =
    s.submitted ++ [stripped (chars (replaceMarkers s.pastes.entries (lifted o.text)))]

/-- The markers in the text are read as what they are, and no marker of a later paste has
characters of an earlier one. -/
def Unambiguous (s : State) (o : Origins) : Prop :=
  Honest s.pastes.entries o.text ∧ Apart s.pastes.entries o.text

theorem faithful_iff_unambiguous (host : Host) (terminalRows paddingX : ℕ) (actions : List Action) :
    Faithful (session host terminalRows paddingX actions).1
        (session host terminalRows paddingX actions).2 ↔
      Unambiguous (session host terminalRows paddingX actions).1
        (session host terminalRows paddingX actions).2 := by
  have hmirrors := mirrors_session host terminalRows paddingX actions
  generalize session host terminalRows paddingX actions = now at hmirrors
  obtain ⟨s, o⟩ := now
  have hne : ∀ paste ∈ s.pastes.entries, paste.2 ≠ [] := by
    intro paste hpaste hnil
    refine hmirrors.filled paste.1 ?_
    rw [← hnil]
    exact (OrderedMap.get?_eq_some_iff_mem s.pastes paste.1 paste.2).mpr hpaste
  have hiff := expandSourced_eq_iff o.text s.pastes.nodupKeys hne
  refine ⟨fun h => hiff.mp h.sourced, fun h => ?_⟩
  have hsourced := hiff.mpr h
  have hexpanded : s.expandedText = chars (replaceMarkers s.pastes.entries (lifted o.text)) := by
    rw [← hsourced, chars_expandSourced, chars_lifted, hmirrors.text]
    rfl
  refine ⟨hsourced, hexpanded, ?_⟩
  show s.submitted ++ [stripped s.expandedText] = _
  rw [hexpanded]

def elevenLines (first : String) : String :=
  first ++ "\n2\n3\n4\n5\n6\n7\n8\n9\n10\n11"

/-- A paste that quotes the marker of the paste after it. -/
def quoting : List Action :=
  [bracketed (elevenLines "[paste #2 +11 lines]"), bracketed (elevenLines "1")]

theorem quoting_interpreted :
    chars (replaceMarkers (session asciiHost 24 0 quoting).1.pastes.entries
        (lifted (session asciiHost 24 0 quoting).2.text)) =
      (elevenLines "[paste #2 +11 lines]" ++ elevenLines "1").toList ∧
    (session asciiHost 24 0 quoting).1.expandedText =
      (elevenLines (elevenLines "1") ++ elevenLines "1").toList ∧
    (session asciiHost 24 0 quoting).1.expandedText ≠
      chars (replaceMarkers (session asciiHost 24 0 quoting).1.pastes.entries
        (lifted (session asciiHost 24 0 quoting).2.text)) := by
  decide +kernel

end Pidrei.Editor
