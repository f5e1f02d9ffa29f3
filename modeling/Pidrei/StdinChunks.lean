import Mathlib.Data.List.Induction
import Pidrei.SequenceExtraction

/-!
Input in chunks against the same input in one piece. The state after some chunks is the
state after their text as long as each boundary leaves the sequences before it as they
are; at the first boundary that does not, the events differ.
-/
namespace Pidrei.Tui.StdinBuffer

open List

section Steps

def following (events : List Event) (result : StdinBuffer × List Event) :
    StdinBuffer × List Event :=
  (result.1, events ++ result.2)

theorem following_following (events more : List Event) (result : StdinBuffer × List Event) :
    following events (following more result) = following (events ++ more) result := by
  simp only [following, append_assoc]

def readText (text : List Char) : StdinBuffer × List Event :=
  if text = [] then (fresh, []) else collect fresh text

/-- The paste that is open, with its text so far. -/
def pasting (pending : Option ℕ) (content : List Char) : StdinBuffer :=
  { buffer := [], pasteMode := true, pasteBuffer := content,
    pendingKittyPrintableCodepoint := pending }

def holding (pending : Option ℕ) (remainder : List Char) : StdinBuffer :=
  { buffer := remainder, pasteMode := false, pasteBuffer := [],
    pendingKittyPrintableCodepoint := pending }

def size (s : StdinBuffer) (string : List Char) : ℕ :=
  s.pasteBuffer.length + s.buffer.length + string.length

def readInPaste (pending : Option ℕ) (content : List Char) : StdinBuffer × List Event :=
  let ((s, events), remaining) := readPaste pending content
  following events (if remaining = [] then (s, []) else collect s remaining)

variable (pending : Option ℕ) (after : List Char)

theorem readPaste_remaining (content : List Char) :
    (readPaste pending content).2 = [] ∨ (readPaste pending content).1.1 = fresh ∧
      (readPaste pending content).2.length < content.length := by
  unfold readPaste
  split
  · by_cases hremaining : content = []
    · left
      rw [hremaining, drop_nil]
    · right
      have hpos := length_pos_iff.mpr hremaining
      have hlength : bracketedPasteEnd.length = 6 := rfl
      simp only [length_drop]
      exact ⟨trivial, by omega⟩
  · exact .inl rfl

theorem processOnce_remaining (s : StdinBuffer) (string : List Char) :
    (processOnce s string).2 = [] ∨ (processOnce s string).1.1 = fresh ∧
      (processOnce s string).2.length < size s string := by
  unfold processOnce
  split
  · exact .inl rfl
  · split
    · refine (readPaste_remaining _ _).imp_right (And.imp_right fun hlt => ?_)
      simp only [length_append] at hlt
      simp only [size]
      omega
    · split
      · refine (readPaste_remaining _ _).imp_right (And.imp_right fun hlt => ?_)
        simp only [length_append, length_drop] at hlt
        simp only [size]
        omega
      · exact .inl rfl

variable {string before content : List Char} {s : StdinBuffer} {remainder : List Char}

theorem size_remaining (h : (processOnce s string).2 ≠ []) :
    size (processOnce s string).1.1 (processOnce s string).2 < size s string := by
  obtain ⟨hfresh, hlt⟩ := (processOnce_remaining s string).resolve_left h
  rw [hfresh]
  simpa [size, fresh, idle] using hlt

theorem processFuel_eq {fuel fuel' : ℕ} (h : size s string < fuel) (h' : size s string < fuel') :
    processFuel fuel s string = processFuel fuel' s string := by
  induction fuel generalizing fuel' s string with
  | zero => omega
  | succ fuel ih =>
    cases fuel' with
    | zero => omega
    | succ fuel' =>
      simp only [processFuel]
      split
      · rfl
      · rename_i hremaining
        rw [List.isEmpty_iff] at hremaining
        have hsize := size_remaining hremaining
        have hrest : processFuel fuel (processOnce s string).1.1 (processOnce s string).2 =
            processFuel fuel' (processOnce s string).1.1 (processOnce s string).2 :=
          ih (by omega) (by omega)
        rw [hrest]

theorem collect_eq (s : StdinBuffer) (string : List Char) :
    collect s string = following (processOnce s string).1.2
      (if (processOnce s string).2 = [] then ((processOnce s string).1.1, [])
       else collect (processOnce s string).1.1 (processOnce s string).2) := by
  have hcall : collect s string = processFuel (size s string + 1) s string := rfl
  rw [hcall, processFuel]
  by_cases hremaining : (processOnce s string).2 = []
  · simp [hremaining, following]
  · have hrest : processFuel (size s string) (processOnce s string).1.1
        (processOnce s string).2 = collect (processOnce s string).1.1 (processOnce s string).2 :=
      processFuel_eq (size_remaining hremaining) (Nat.lt_succ_self _)
    simp only [List.isEmpty_iff, hremaining, if_false, hrest]
    rfl

theorem find_pasteStart (h : ¬ bracketedPasteStart <:+: before) :
    TextSearch.find bracketedPasteStart (before ++ (bracketedPasteStart ++ after)) =
      some before.length := TextSearch.find_marker (by decide) after h

theorem find_pasteEnd (h : ¬ bracketedPasteEnd <:+: content) :
    TextSearch.find bracketedPasteEnd (content ++ (bracketedPasteEnd ++ after)) =
      some content.length := TextSearch.find_marker (by decide) after h

theorem readInPaste_closed (rest : List Char) (h : ¬ bracketedPasteEnd <:+: content) :
    readInPaste pending (content ++ (bracketedPasteEnd ++ rest)) =
      following [.paste content] (readText rest) := by
  have hdrop : (content ++ (bracketedPasteEnd ++ rest)).drop
      (content.length + bracketedPasteEnd.length) = rest := by
    rw [← append_assoc, ← length_append, drop_left]
  simp only [readInPaste, readPaste, find_pasteEnd rest h, hdrop, take_left, readText]

theorem readInPaste_open (h : ¬ bracketedPasteEnd <:+: content) :
    readInPaste pending content = (pasting pending content, []) := by
  rw [← TextSearch.find_eq_none_iff_infix] at h
  simp only [readInPaste, readPaste, h, if_true]
  rfl

theorem collect_data (hstring : string ≠ []) (h : ¬ bracketedPasteStart <:+: remainder ++ string) :
    collect (holding pending remainder) string =
      (holding (emitDataSequences pending (extractCompleteSequences (remainder ++ string)).1).1
          (extractCompleteSequences (remainder ++ string)).2,
        (emitDataSequences pending (extractCompleteSequences (remainder ++ string)).1).2) := by
  rw [← TextSearch.find_eq_none_iff_infix] at h
  have honce : processOnce (holding pending remainder) string =
      ((holding (emitDataSequences pending (extractCompleteSequences (remainder ++ string)).1).1
          (extractCompleteSequences (remainder ++ string)).2,
        (emitDataSequences pending (extractCompleteSequences (remainder ++ string)).1).2), []) := by
    rw [processOnce, if_neg (by simp [hstring]), if_neg (by simp [holding])]
    simp only [holding, h]
  rw [collect_eq, honce]
  simp [following]

theorem collect_marker {after : List Char} (hstring : string ≠ [])
    (htext : remainder ++ string = before ++ (bracketedPasteStart ++ after))
    (h : ¬ bracketedPasteStart <:+: before) : collect (holding pending remainder) string =
      following (emitDataSequences pending (extractCompleteSequences before).1).2
        (readInPaste none after) := by
  have hdrop : (before ++ (bracketedPasteStart ++ after)).drop
      (before.length + bracketedPasteStart.length) = after := by
    rw [← append_assoc, ← length_append, drop_left]
  have honce : processOnce (holding pending remainder) string =
      (((readPaste none after).1.1,
        (emitDataSequences pending (extractCompleteSequences before).1).2 ++
          (readPaste none after).1.2), (readPaste none after).2) := by
    rw [processOnce, if_neg (by simp [hstring]), if_neg (by simp [holding])]
    simp only [holding, htext, find_pasteStart after h, take_left, hdrop]
  rw [collect_eq, honce, ← following_following]
  rfl

theorem readText_data {text : List Char} (h : ¬ bracketedPasteStart <:+: text) :
    readText text =
      (holding (emitDataSequences none (extractCompleteSequences text).1).1
          (extractCompleteSequences text).2,
        (emitDataSequences none (extractCompleteSequences text).1).2) := by
  unfold readText
  split
  · rename_i htext
    subst htext
    rfl
  · rename_i htext
    exact collect_data none htext h

theorem readText_marker (h : ¬ bracketedPasteStart <:+: before) :
    readText (before ++ (bracketedPasteStart ++ after)) =
      following (emitDataSequences none (extractCompleteSequences before).1).2
        (readInPaste none after) := by
  have htext : before ++ (bracketedPasteStart ++ after) ≠ [] := by simp [bracketedPasteStart]
  rw [readText, if_neg htext]
  exact collect_marker none htext rfl h

end Steps

section Emission

theorem emitDataSequences_append (pending : Option ℕ) (sequences more : List (List Char)) :
    emitDataSequences pending (sequences ++ more) =
      ((emitDataSequences (emitDataSequences pending sequences).1 more).1,
        (emitDataSequences pending sequences).2 ++
          (emitDataSequences (emitDataSequences pending sequences).1 more).2) := by
  induction sequences generalizing pending with
  | nil => rfl
  | cons sequence sequences ih =>
    simp only [cons_append, emitDataSequences, ih, append_assoc]

theorem parseUnmodifiedKittyPrintableCodepoint_le {sequence : List Char} {codepoint : ℕ}
    (h : (parseUnmodifiedKittyPrintableCodepoint sequence).join = some codepoint) :
    32 ≤ codepoint := by
  unfold parseUnmodifiedKittyPrintableCodepoint at h
  split at h
  · cases h
  · split at h
    · cases h
    · simp only [Option.join_some] at h
      split at h
      · exact Option.some.inj h ▸ ‹_›
      · cases h

/-- A sequence that raises begins with an escape and ends in `u`, or in a line break behind it. -/
theorem raising_sequence {sequence : List Char}
    (h : parseUnmodifiedKittyPrintableCodepoint sequence = none) :
    (∃ tail, sequence = esc :: tail) ∧
      (sequence.getLast? = some 'u' ∨ sequence.getLast? = some '\n') := by
  have hmatch : matchKittyPrintable sequence ≠ none := by
    intro hnone
    rw [parseUnmodifiedKittyPrintableCodepoint, hnone] at h
    cases h
  simp only [matchKittyPrintable] at hmatch
  generalize htext : (if sequence.getLast? = some '\n' then sequence.dropLast else sequence) =
    text at hmatch
  split at hmatch
  · rename_i hform
    rw [Bool.and_eq_true, decide_eq_true_eq, isPrefixOf_iff_prefix] at hform
    obtain ⟨⟨after, rfl⟩, hlast⟩ := hform
    split at htext
    · rename_i hbreak
      rw [← dropLast_append_getLast? '\n' hbreak, htext]
      exact ⟨⟨_, rfl⟩, .inr getLast?_concat⟩
    · rw [htext]
      exact ⟨⟨_, rfl⟩, .inl hlast⟩
  · exact absurd rfl hmatch

def IsPrintable (pending : Option ℕ) : Prop :=
  ∀ codepoint, pending = some codepoint → 32 ≤ codepoint

theorem isPrintable_emitDataSequence (pending : Option ℕ) (sequence : List Char) :
    IsPrintable (emitDataSequence pending sequence).1 := by
  intro codepoint h
  unfold emitDataSequence at h
  split at h
  · split at h
    · cases h
    · exact parseUnmodifiedKittyPrintableCodepoint_le h
  · exact parseUnmodifiedKittyPrintableCodepoint_le h

variable {pending : Option ℕ}

theorem isPrintable_emitDataSequences (h : IsPrintable pending) (sequences : List (List Char)) :
    IsPrintable (emitDataSequences pending sequences).1 := by
  induction sequences generalizing pending with
  | nil => exact h
  | cons sequence sequences ih => exact ih (isPrintable_emitDataSequence pending sequence)

theorem emitDataSequence_esc (h : IsPrintable pending) (tail : List Char) :
    (emitDataSequence pending (esc :: tail)).2 = [.data (esc :: tail)] := by
  cases tail with
  | nil =>
    have hne : pending ≠ some esc.toNat := fun hpending => absurd (h _ hpending) (by decide)
    rw [emitDataSequence, if_neg hne]
  | cons c tail => rfl

theorem emitDataSequences_esc (sequences : List (List Char)) (tail : List Char)
    (more : List (List Char)) :
    ∃ later, (emitDataSequences none (sequences ++ (esc :: tail) :: more)).2 =
      (emitDataSequences none sequences).2 ++ .data (esc :: tail) :: later := by
  have hnone : IsPrintable none := by
    rintro codepoint ⟨⟩
  have hprintable := isPrintable_emitDataSequences hnone sequences
  rw [emitDataSequences_append]
  refine ⟨(emitDataSequences
    (emitDataSequence (emitDataSequences none sequences).1 (esc :: tail)).1 more).2, ?_⟩
  simp only [emitDataSequences, emitDataSequence_esc hprintable, singleton_append]

theorem data_of_mem_emitDataSequences {sequences : List (List Char)} {event : Event}
    (h : event ∈ (emitDataSequences pending sequences).2) :
    ∃ sequence ∈ sequences, event = .data sequence := by
  induction sequences generalizing pending with
  | nil => cases h
  | cons sequence sequences ih =>
    simp only [emitDataSequences, mem_append] at h
    rcases h with h | h
    · refine ⟨sequence, mem_cons_self, ?_⟩
      unfold emitDataSequence at h
      split at h
      · split at h
        · cases h
        · exact mem_singleton.mp h
      · exact mem_singleton.mp h
    · obtain ⟨other, hother, hevent⟩ := ih h
      exact ⟨other, mem_cons_of_mem _ hother, hevent⟩

theorem emitDataSequences_ne_nil {sequence : List Char} {sequences : List (List Char)}
    (h : sequence ∈ sequences) : (emitDataSequences none sequences).2 ≠ [] := by
  cases sequences with
  | nil => cases h
  | cons first sequences =>
    have hfirst : (emitDataSequence none first).2 = [.data first] := by
      unfold emitDataSequence
      split <;> rfl
    simp [emitDataSequences, hfirst]

theorem mem_emitDataSequences {sequence : List Char} {sequences : List (List Char)}
    (h : sequence ∈ sequences) (hraises : parseUnmodifiedKittyPrintableCodepoint sequence = none) :
    .data sequence ∈ (emitDataSequences none sequences).2 := by
  obtain ⟨before, after, rfl⟩ := append_of_mem h
  obtain ⟨tail, rfl⟩ := (raising_sequence hraises).1
  obtain ⟨later, hlater⟩ := emitDataSequences_esc before tail after
  rw [hlater]
  exact mem_append_right _ mem_cons_self

end Emission

section Boundaries

/-- The text behind the last paste is open; no paste is being read. -/
inductive Outside : List Char → List Char → Prop
  | unmarked {text : List Char} (h : ¬ bracketedPasteStart <:+: text) : Outside text text
  | pasted {before content rest text : List Char} (hbefore : ¬ bracketedPasteStart <:+: before)
      (hcontent : ¬ bracketedPasteEnd <:+: content) (h : Outside rest text) :
      Outside (before ++ (bracketedPasteStart ++ (content ++ (bracketedPasteEnd ++ rest)))) text

/-- The next chunk completes a paste marker that the text ends inside of, and the part of the
marker that has come made a sequence complete, although nothing before the marker did. -/
def CutsMarker (text more : List Char) : Prop :=
  ∃ before part rest, text = before ++ part ∧ part ++ rest = bracketedPasteStart ∧ part ≠ [] ∧
    rest ≠ [] ∧ rest <+: more ∧
    (extractCompleteSequences text).1 ≠ (extractCompleteSequences before).1

/-- Cutting the input here leaves the sequences on both sides as they are. -/
def Harmless (text more : List Char) : Prop :=
  ∀ behind, Outside text behind → KeepsEscapes behind more ∧ ¬ CutsMarker behind more

variable {behind before content rest : List Char} {text after after' part : List Char}

theorem infix_middle (before marker after : List Char) : marker <:+: before ++ (marker ++ after) :=
  ⟨before, after, append_assoc ..⟩

theorem text_induction {motive : List Char → Prop}
    (unmarked : ∀ text, ¬ bracketedPasteStart <:+: text → motive text)
    (pasting : ∀ before content, ¬ bracketedPasteStart <:+: before →
      ¬ bracketedPasteEnd <:+: content → motive (before ++ (bracketedPasteStart ++ content)))
    (pasted : ∀ before content rest, ¬ bracketedPasteStart <:+: before →
      ¬ bracketedPasteEnd <:+: content → motive rest →
      motive (before ++ (bracketedPasteStart ++ (content ++ (bracketedPasteEnd ++ rest)))))
    (text : List Char) : motive text := by
  induction hn : text.length using Nat.strongRecOn generalizing text with
  | _ n ih =>
    by_cases hstart : bracketedPasteStart <:+: text
    · obtain ⟨before, after, rfl, hbefore⟩ := TextSearch.exists_first_split (by decide) hstart
      by_cases hend : bracketedPasteEnd <:+: after
      · obtain ⟨content, rest, rfl, hcontent⟩ := TextSearch.exists_first_split (by decide) hend
        have hlength : bracketedPasteStart.length = 6 := rfl
        simp only [length_append] at hn
        exact pasted before content rest hbefore hcontent (ih rest.length (by omega) rest rfl)
      · exact pasting before after hbefore hend
    · exact unmarked text hstart

theorem KeepsEscapes.of_append {more : List Char} (h : KeepsEscapes text (more ++ rest)) :
    KeepsEscapes text more := by
  intro hends
  cases more with
  | nil => rfl
  | cons c more => exact h hends

theorem startPart_unfinished (h : part ++ rest = bracketedPasteStart) (hpart : part ≠ [])
    (hrest : rest ≠ []) :
    ∃ inner, part = esc :: inner ∧ (∀ c ∈ inner, IsHeaderChar c) ∧ extractStep part = none := by
  have htake : part = bracketedPasteStart.take part.length := by rw [← h, take_left]
  have hlength := congrArg length h
  have htotal : bracketedPasteStart.length = 6 := rfl
  have hpos := length_pos_iff.mpr hpart
  have hpos' := length_pos_iff.mpr hrest
  rw [length_append] at hlength
  have hcases : ∀ n, 0 < n → n < 6 → ∃ inner, bracketedPasteStart.take n = esc :: inner ∧
      (∀ c ∈ inner, IsHeaderChar c) ∧ extractStep (bracketedPasteStart.take n) = none := by
    intro n hn hlt
    obtain ⟨n, rfl⟩ : ∃ k, n = k + 1 := ⟨n - 1, by omega⟩
    refine ⟨_, rfl, ?_, ?_⟩
    · intro c hc
      have hinner : bracketedPasteStart.tail.all (fun c => decide (IsHeaderChar c)) = true := by
        decide
      exact of_decide_eq_true (all_eq_true.mp hinner c (mem_of_mem_take hc))
    · have hall : ∀ k : Fin 5, extractStep (bracketedPasteStart.take (k + 1)) = none := by decide
      exact hall ⟨n, by omega⟩
  rw [htake]
  exact hcases _ hpos (by omega)

theorem extractCompleteSequences_startPart (before : List Char)
    (h : part ++ rest = bracketedPasteStart) (hpart : part ≠ []) (hrest : rest ≠ []) :
    (∃ tail more, (extractCompleteSequences (before ++ part)).1 =
        (extractCompleteSequences before).1 ++ (esc :: tail) :: more ∧
        ∀ sequence ∈ (esc :: tail) :: more, ∃ c ∈ part, sequence.getLast? = some c) ∨
      (extractCompleteSequences (before ++ part)).1 = (extractCompleteSequences before).1 ∧
        ∃ left, (extractCompleteSequences (before ++ part)).2 = left ++ part ∧
          extractStep left = none := by
  obtain ⟨inner, rfl, hinner, hstep⟩ := startPart_unfinished h hpart hrest
  have hkeeps : KeepsEscapes before (esc :: inner) := fun _ => rfl
  rw [extractCompleteSequences_append hkeeps]
  rcases extractCompleteSequences_unfinished hinner hstep (extractStep_remainder before) with
    ⟨tail, more, hfirst, hlast⟩ | ⟨left, hleft, hnone⟩
  · exact .inl ⟨tail, more, by rw [hfirst], hlast⟩
  · right
    rw [hleft]
    exact ⟨append_nil _, left, rfl, hnone⟩

end Boundaries

section Chunks

variable {text more : List Char}

variable {before : List Char}

theorem marker_position {after : List Char} (h : ¬ bracketedPasteStart <:+: text)
    (htext : text ++ more = before ++ (bracketedPasteStart ++ after)) :
    (∃ gap, before = text ++ gap ∧ more = gap ++ (bracketedPasteStart ++ after)) ∨
      ∃ part rest, text = before ++ part ∧ part ++ rest = bracketedPasteStart ∧ part ≠ [] ∧
        rest ≠ [] ∧ more = rest ++ after := by
  rcases append_eq_append_iff.mp htext with ⟨gap, hbefore, hmore⟩ | ⟨part, htext, hmarker⟩
  · exact .inl ⟨gap, hbefore, hmore⟩
  · by_cases hpart : part = []
    · subst hpart
      exact .inl ⟨[], by rw [htext, append_nil, append_nil], hmarker.symm⟩
    · right
      rcases append_eq_append_iff.mp hmarker with ⟨rest, hrest, _⟩ | ⟨rest, hrest, hmore⟩
      · refine absurd ?_ h
        rw [htext, hrest]
        exact infix_middle _ _ _
      · refine ⟨part, rest, htext, hrest.symm, hpart, ?_, hmore⟩
        rintro rfl
        refine h ⟨before, [], ?_⟩
        rw [htext, hrest, append_nil, append_nil]

variable {content : List Char}

theorem readText_pasting (hbefore : ¬ bracketedPasteStart <:+: before)
    (hcontent : ¬ bracketedPasteEnd <:+: content) :
    readText (before ++ (bracketedPasteStart ++ content)) =
      (pasting none content, (emitDataSequences none (extractCompleteSequences before).1).2) := by
  rw [readText_marker content hbefore, readInPaste_open none hcontent]
  simp only [following, append_nil]

theorem readText_pasted (rest : List Char) (hbefore : ¬ bracketedPasteStart <:+: before)
    (hcontent : ¬ bracketedPasteEnd <:+: content) :
    readText (before ++ (bracketedPasteStart ++ (content ++ (bracketedPasteEnd ++ rest)))) =
      following ((emitDataSequences none (extractCompleteSequences before).1).2 ++ [Event.paste content])
        (readText rest) := by
  rw [readText_marker _ hbefore, readInPaste_closed none rest hcontent, following_following]

end Chunks

section Runs

/-- The chunks as they would be collected if nothing raised. -/
def run (s : StdinBuffer) : List (List Char) → StdinBuffer × List Event
  | [] => (s, [])
  | chunk :: chunks =>
    let (s, events) := collect s chunk
    let (s, more) := run s chunks
    (s, events ++ more)

theorem run_append (s : StdinBuffer) (chunks more : List (List Char)) :
    run s (chunks ++ more) = following (run s chunks).2 (run (run s chunks).1 more) := by
  induction chunks generalizing s with
  | nil => rfl
  | cons chunk chunks ih =>
    simp only [cons_append, run, ih, following, append_assoc]

variable {text more : List Char}

theorem CutsMarker.append (rest : List Char) (h : CutsMarker text more) :
    CutsMarker text (more ++ rest) := by
  obtain ⟨before, part, tail, htext, hmarker, hpart, htail, hmore, hne⟩ := h
  exact ⟨before, part, tail, htext, hmarker, hpart, htail,
    hmore.trans (prefix_append more rest), hne⟩

theorem Harmless.of_append {rest : List Char} (h : Harmless text (more ++ rest)) :
    Harmless text more :=
  fun behind hbehind => ⟨(h behind hbehind).1.of_append,
    fun hcuts => (h behind hbehind).2 (hcuts.append rest)⟩

/-- Each boundary between the chunks is harmless. -/
def HarmlessCuts (chunks : List (List Char)) : Prop :=
  ∀ before after, chunks = before ++ after → after ≠ [] → Harmless before.flatten after.flatten

variable {chunks : List (List Char)}

theorem HarmlessCuts.of_append {more : List (List Char)} (h : HarmlessCuts (chunks ++ more)) :
    HarmlessCuts chunks := by
  rintro before after rfl hafter
  have hcut := h before (after ++ more) (append_assoc ..) (by simp [hafter])
  rw [flatten_append] at hcut
  exact hcut.of_append

end Runs

end Pidrei.Tui.StdinBuffer
