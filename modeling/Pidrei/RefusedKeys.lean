import Pidrei.StdinChunks

/-!
A Kitty key with too many digits raises while its chunk is read: nothing of the chunk is
delivered, and the reader ends. What the text holds decides where that happens, and so when
input in chunks still sends what the same input sends in one piece.
-/
namespace Pidrei.Tui.StdinBuffer

open List

section Contents

/-- What the text holds: the sequences that are complete outside its pastes, and the pastes that
have ended. -/
inductive Carries : List Char → Event → Prop
  | sequence {text sequence : List Char} (h : ¬ bracketedPasteStart <:+: text)
      (hmem : sequence ∈ (extractCompleteSequences text).1) : Carries text (.data sequence)
  | before {before sequence : List Char} (after : List Char)
      (h : ¬ bracketedPasteStart <:+: before)
      (hmem : sequence ∈ (extractCompleteSequences before).1) :
      Carries (before ++ (bracketedPasteStart ++ after)) (.data sequence)
  | pasted {before content : List Char} (rest : List Char)
      (hbefore : ¬ bracketedPasteStart <:+: before) (hcontent : ¬ bracketedPasteEnd <:+: content) :
      Carries (before ++ (bracketedPasteStart ++ (content ++ (bracketedPasteEnd ++ rest))))
        (.paste content)
  | behind {before content rest : List Char} {event : Event}
      (hbefore : ¬ bracketedPasteStart <:+: before) (hcontent : ¬ bracketedPasteEnd <:+: content)
      (h : Carries rest event) :
      Carries (before ++ (bracketedPasteStart ++ (content ++ (bracketedPasteEnd ++ rest)))) event

/-- The text has a key whose number `int` refuses. -/
def Refused (text : List Char) : Prop :=
  ∃ sequence, Carries text (.data sequence) ∧
    parseUnmodifiedKittyPrintableCodepoint sequence = none

/-- Nothing of the text is complete. -/
def Silent (text : List Char) : Prop := ∀ event, ¬ Carries text event

variable {text : List Char} {event : Event} {sequence : List Char}

theorem carries_of_mem (h : event ∈ (readText text).2) : Carries text event := by
  induction text using text_induction with
  | unmarked text hunmarked =>
    rw [readText_data hunmarked] at h
    obtain ⟨sequence, hsequence, rfl⟩ := data_of_mem_emitDataSequences h
    exact .sequence hunmarked hsequence
  | pasting before content hbefore hcontent =>
    rw [readText_pasting hbefore hcontent] at h
    obtain ⟨sequence, hsequence, rfl⟩ := data_of_mem_emitDataSequences h
    exact .before content hbefore hsequence
  | pasted before content rest hbefore hcontent ih =>
    rw [readText_pasted rest hbefore hcontent] at h
    simp only [following, mem_append, mem_singleton] at h
    rcases h with (h | rfl) | h
    · obtain ⟨sequence, hsequence, rfl⟩ := data_of_mem_emitDataSequences h
      exact .before _ hbefore hsequence
    · exact .pasted rest hbefore hcontent
    · exact .behind hbefore hcontent (ih h)

theorem Carries.events_ne_nil (h : Carries text event) : (readText text).2 ≠ [] := by
  induction h with
  | sequence hunmarked hmem =>
    rw [readText_data hunmarked]
    exact emitDataSequences_ne_nil hmem
  | before after hbefore hmem =>
    rw [readText_marker after hbefore]
    exact append_ne_nil_of_left_ne_nil (emitDataSequences_ne_nil hmem) _
  | pasted rest hbefore hcontent =>
    rw [readText_pasted rest hbefore hcontent]
    simp [following]
  | behind hbefore hcontent _ ih =>
    rw [readText_pasted _ hbefore hcontent]
    exact append_ne_nil_of_right_ne_nil _ ih

theorem Carries.mem (hraises : parseUnmodifiedKittyPrintableCodepoint sequence = none)
    (h : Carries text (.data sequence)) : .data sequence ∈ (readText text).2 := by
  generalize hevent : Event.data sequence = event at h
  induction h with
  | sequence hunmarked hmem =>
    cases hevent
    rw [readText_data hunmarked]
    exact mem_emitDataSequences hmem hraises
  | before after hbefore hmem =>
    cases hevent
    rw [readText_marker after hbefore]
    exact mem_append_left _ (mem_emitDataSequences hmem hraises)
  | pasted => cases hevent
  | behind hbefore hcontent _ ih =>
    rw [readText_pasted _ hbefore hcontent]
    exact mem_append_right _ (ih hevent)

theorem silent_iff : Silent text ↔ (readText text).2 = [] := by
  constructor
  · exact fun hsilent => eq_nil_iff_forall_not_mem.mpr fun event hevent =>
      hsilent event (carries_of_mem hevent)
  · exact fun hnone event hevent => hevent.events_ne_nil hnone

variable {more : List Char}

theorem sequence_mem_append (hraises : parseUnmodifiedKittyPrintableCodepoint sequence = none)
    (h : sequence ∈ (extractCompleteSequences text).1) :
    sequence ∈ (extractCompleteSequences (text ++ more)).1 := by
  by_cases hkeeps : KeepsEscapes text more
  · rw [extractCompleteSequences_append hkeeps]
    exact mem_append_left _ h
  · simp only [KeepsEscapes, Classical.not_imp, Bool.not_eq_false] at hkeeps
    obtain ⟨earlier, later, hearlier, hlater⟩ := extractCompleteSequences_pair hkeeps.1 hkeeps.2
    rw [hearlier, mem_append, mem_singleton] at h
    rcases h with h | rfl
    · rw [hlater]
      exact mem_append_left _ h
    · cases hraises

theorem sequence_mem_startPart {before part rest : List Char}
    (hraises : parseUnmodifiedKittyPrintableCodepoint sequence = none)
    (hmarker : part ++ rest = bracketedPasteStart) (hpart : part ≠ []) (hrest : rest ≠ [])
    (h : sequence ∈ (extractCompleteSequences (before ++ part)).1) :
    sequence ∈ (extractCompleteSequences before).1 := by
  rcases extractCompleteSequences_startPart before hmarker hpart hrest with
    ⟨tail, more, hmore, hlast⟩ | ⟨hsame, _⟩
  · rw [hmore, mem_append] at h
    refine h.resolve_right fun hnew => ?_
    obtain ⟨c, hc, hends⟩ := hlast sequence hnew
    have hmem : c ∈ bracketedPasteStart := hmarker ▸ mem_append_left rest hc
    have hraising := (raising_sequence hraises).2
    rw [hends, Option.some.injEq, Option.some.injEq] at hraising
    rcases hraising with rfl | rfl
    · exact absurd hmem (by decide)
    · exact absurd hmem (by decide)
  · rwa [hsame] at h

theorem Carries.append (hraises : parseUnmodifiedKittyPrintableCodepoint sequence = none)
    (h : Carries text (.data sequence)) : Carries (text ++ more) (.data sequence) := by
  generalize hevent : Event.data sequence = event at h
  induction h with
  | @sequence text _ hunmarked hmem =>
    cases hevent
    by_cases hmarked : bracketedPasteStart <:+: text ++ more
    · obtain ⟨before, after, htext, hbefore⟩ := TextSearch.exists_first_split (by decide) hmarked
      rw [htext]
      rcases marker_position hunmarked htext with
        ⟨gap, rfl, rfl⟩ | ⟨part, rest, rfl, hmarker, hpart, hrest, rfl⟩
      · exact .before after hbefore (sequence_mem_append hraises hmem)
      · exact .before after hbefore (sequence_mem_startPart hraises hmarker hpart hrest hmem)
    · exact .sequence hmarked (sequence_mem_append hraises hmem)
  | before after hbefore hmem =>
    cases hevent
    simp only [append_assoc]
    exact .before _ hbefore hmem
  | pasted => cases hevent
  | behind hbefore hcontent _ ih =>
    simp only [append_assoc]
    exact .behind hbefore hcontent (ih hevent)

theorem Refused.append (more : List Char) (h : Refused text) : Refused (text ++ more) := by
  obtain ⟨sequence, hcarries, hraises⟩ := h
  exact ⟨sequence, hcarries.append hraises, hraises⟩

end Contents

section Delivery

variable (s : StdinBuffer)

end Delivery

section Chunks

variable {chunks : List (List Char)}

end Chunks

end Pidrei.Tui.StdinBuffer
