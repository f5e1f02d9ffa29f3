import Mathlib.Data.List.ReduceOption
import Pidrei.StdinBuffer

/-!
Taking sequences off a text that may be continued. The scan reads a text the same way with
more text behind it, with one exception: two escapes at the end of the text are one
sequence, although a character behind them may make the second one begin a sequence.
-/
namespace Pidrei.Tui.StdinBuffer

open List
open Option (some some_ne_none)
open Incremental (drain drain_none)

section Headers

/-- A character that a reply header may hold behind its escape. -/
def IsHeaderChar (c : Char) : Prop := 0x20 ≤ c.toNat ∧ c ≠ '\\'

instance : DecidablePred IsHeaderChar := fun c =>
  inferInstanceAs (Decidable (0x20 ≤ c.toNat ∧ c ≠ '\\'))

variable {classes : List (Char → Bool)} {text more : List Char} {c : Char}

theorem beginsWith_append_left (more : List Char) (h : beginsWith classes text = true) :
    beginsWith classes (text ++ more) = true := by
  induction classes generalizing text with
  | nil => rfl
  | cons accepts classes ih =>
    cases text with
    | nil => cases h
    | cons c text =>
      rw [cons_append]
      simp only [beginsWith, Bool.and_eq_true] at h ⊢
      exact ⟨h.1, ih h.2⟩

theorem beginsWith_append (h : beginsWith classes (text ++ more) = true) :
    beginsWith classes text = true ∨ ∀ c ∈ text, ∃ accepts ∈ classes, accepts c = true := by
  induction classes generalizing text with
  | nil => exact .inl rfl
  | cons accepts classes ih =>
    cases text with
    | nil => exact .inr fun c hc => nomatch hc
    | cons c text =>
      simp only [cons_append, beginsWith, Bool.and_eq_true] at h ⊢
      rcases ih h.2 with hrest | hrest
      · exact .inl ⟨h.1, hrest⟩
      · refine .inr (forall_mem_cons.mpr ⟨⟨accepts, mem_cons_self, h.1⟩, ?_⟩)
        intro d hd
        obtain ⟨other, hother, haccepts⟩ := hrest d hd
        exact ⟨other, mem_cons_of_mem _ hother, haccepts⟩

theorem isHeaderChar_of_isDigit (h : c.isDigit = true) : IsHeaderChar c := by
  have hrange : 48 ≤ c.toNat ∧ c.toNat ≤ 57 := Char.isDigit_iff_toNat.mp h
  refine ⟨by omega, ?_⟩
  rintro rfl
  exact absurd hrange (by decide)

theorem isHeaderChar_of_isLower (h : c.isLower = true) : IsHeaderChar c := by
  have hlow : 'a' ≤ c := of_decide_eq_true (Bool.and_eq_true_iff.mp h).1
  have hrange : 97 ≤ c.toNat := hlow
  refine ⟨by omega, ?_⟩
  rintro rfl
  exact absurd hrange (by decide)

variable {accepts : Char → Bool} {position : KeyPosition}

theorem isHeaderChar_of_mem_exactly {text : String}
    (htext : text.toList.all (fun d => decide (IsHeaderChar d)) = true)
    (haccepts : accepts ∈ exactly text) (h : accepts c = true) : IsHeaderChar c := by
  obtain ⟨d, hd, rfl⟩ := mem_map.mp haccepts
  obtain rfl := eq_of_beq h
  exact of_decide_eq_true (all_eq_true.mp htext c hd)

theorem isHeaderChar_of_mem_replyHeaders (hclasses : classes ∈ replyHeaders)
    (haccepts : accepts ∈ classes) (h : accepts c = true) : IsHeaderChar c := by
  simp only [replyHeaders, mem_cons, not_mem_nil, or_false] at hclasses
  rcases hclasses with rfl | rfl | rfl | rfl | rfl | rfl | rfl
  case inr.inr.inl | inr.inr.inr.inl | inr.inr.inr.inr.inl =>
    simp only [mem_append, mem_cons] at haccepts
    have hparts : accepts ∈ exactly "]4;" ∨ accepts = Char.isDigit ∨ accepts ∈ exactly ";" := by
      tauto
    rcases hparts with hfirst | rfl | hlast
    · exact isHeaderChar_of_mem_exactly (by decide) hfirst h
    · exact isHeaderChar_of_isDigit h
    · exact isHeaderChar_of_mem_exactly (by decide) hlast h
  all_goals exact isHeaderChar_of_mem_exactly (by decide) haccepts h

theorem beginsWithKeys_append_left (more : List Char) (h : beginsWithKeys position text = true) :
    beginsWithKeys position (text ++ more) = true := by
  induction text generalizing position with
  | nil => cases position <;> cases h
  | cons c text ih =>
    rw [cons_append]
    cases position with
    | key | equals | number =>
      simp only [beginsWithKeys, Bool.and_eq_true] at h ⊢
      exact ⟨h.1, ih h.2⟩
    | moreDigits =>
      simp only [beginsWithKeys] at h ⊢
      split at h
      · rw [if_pos ‹_›]
        exact ih h
      · rw [if_neg ‹_›]
        split at h
        · rw [if_pos ‹_›]
          exact ih h
        · rwa [if_neg ‹_›]

theorem beginsWithKeys_append (h : beginsWithKeys position (text ++ more) = true) :
    beginsWithKeys position text = true ∨ ∀ c ∈ text, IsHeaderChar c := by
  induction text generalizing position with
  | nil => exact .inr fun c hc => nomatch hc
  | cons c text ih =>
    have hstep : ∀ {next : KeyPosition}, beginsWithKeys next (text ++ more) = true →
        IsHeaderChar c → beginsWithKeys next text = true ∨ ∀ d ∈ c :: text, IsHeaderChar d :=
      fun hnext hc => (ih hnext).imp_right fun hrest => forall_mem_cons.mpr ⟨hc, hrest⟩
    cases position with
    | key =>
      simp only [cons_append, beginsWithKeys, Bool.and_eq_true] at h ⊢
      exact (hstep h.2 (isHeaderChar_of_isLower h.1)).imp_left fun hrest => ⟨h.1, hrest⟩
    | equals =>
      simp only [cons_append, beginsWithKeys, Bool.and_eq_true] at h ⊢
      have hc : IsHeaderChar c := by
        obtain rfl := eq_of_beq h.1
        exact ⟨by decide, by decide⟩
      exact (hstep h.2 hc).imp_left fun hrest => ⟨h.1, hrest⟩
    | number =>
      simp only [cons_append, beginsWithKeys, Bool.and_eq_true] at h ⊢
      exact (hstep h.2 (isHeaderChar_of_isDigit h.1)).imp_left fun hrest => ⟨h.1, hrest⟩
    | moreDigits =>
      simp only [cons_append, beginsWithKeys] at h ⊢
      split at h
      · rw [if_pos ‹_›]
        exact hstep h (isHeaderChar_of_isDigit ‹_›)
      · rw [if_neg ‹_›]
        split at h
        · rename_i _ hcomma
          rw [if_pos hcomma]
          subst hcomma
          exact hstep h ⟨by decide, by decide⟩
        · rw [if_neg ‹_›]
          exact .inl h

theorem isTerminalReplyHeader_append_left (more : List Char)
    (h : isTerminalReplyHeader text = true) : isTerminalReplyHeader (text ++ more) = true := by
  cases text with
  | nil => cases h
  | cons c text =>
    rw [cons_append]
    simp only [isTerminalReplyHeader, Bool.and_eq_true, Bool.or_eq_true, any_eq_true] at h ⊢
    refine ⟨h.1, ?_⟩
    rcases h.2 with ⟨classes, hclasses, htext⟩ | hkeys
    · exact .inl ⟨classes, hclasses, beginsWith_append_left more htext⟩
    · right
      split at hkeys
      · exact beginsWithKeys_append_left more hkeys
      · cases hkeys

theorem isTerminalReplyHeader_append (h : isTerminalReplyHeader (text ++ more) = true) :
    isTerminalReplyHeader text = true ∨ ∀ c ∈ text.tail, IsHeaderChar c := by
  cases text with
  | nil => exact .inr fun c hc => absurd hc not_mem_nil
  | cons c text =>
    simp only [cons_append, isTerminalReplyHeader, Bool.and_eq_true, Bool.or_eq_true,
      any_eq_true, tail_cons] at h ⊢
    rcases h.2 with ⟨classes, hclasses, htext⟩ | hkeys
    · rcases beginsWith_append htext with hleft | hchars
      · exact .inl ⟨h.1, .inl ⟨classes, hclasses, hleft⟩⟩
      · refine .inr fun d hd => ?_
        obtain ⟨accepts, haccepts, hd⟩ := hchars d hd
        exact isHeaderChar_of_mem_replyHeaders hclasses haccepts hd
    · cases text with
      | nil => exact .inr fun d hd => absurd hd not_mem_nil
      | cons d rest =>
        cases rest with
        | nil =>
          right
          split at hkeys
          · rename_i heq
            obtain ⟨rfl, _⟩ := cons.inj heq
            exact fun d hd => mem_singleton.mp hd ▸ ⟨by decide, by decide⟩
          · cases hkeys
        | cons e keys =>
          split at hkeys
          · rename_i heq
            obtain ⟨rfl, htail⟩ := cons.inj heq
            cases htail
            rcases beginsWithKeys_append hkeys with hleft | hchars
            · exact .inl ⟨h.1, .inr hleft⟩
            · refine .inr (forall_mem_cons.mpr ⟨⟨by decide, by decide⟩, ?_⟩)
              exact forall_mem_cons.mpr ⟨⟨by decide, by decide⟩, hchars⟩
          · cases hkeys

end Headers

section Scans

theorem ofBool_eq_incomplete {isComplete : Bool} (h : isComplete = false) :
    ofBool isComplete = .incomplete := by
  rw [h]
  rfl

variable {data : List Char}

theorem endsWithSt_eq_false (h : data.getLast? ≠ some '\\') : endsWithSt data = false := by
  rw [Bool.eq_false_iff]
  intro hends
  obtain ⟨front, rfl⟩ := isSuffixOf_iff_suffix.mp hends
  exact h (by simp)

theorem isCompleteSequence_controlString (h : isControlString data = true)
    (hst : data.getLast? ≠ some '\\') (hbel : data.getLast? ≠ some '\x07') :
    isCompleteSequence data = .incomplete := by
  have hends := endsWithSt_eq_false hst
  match data, h with
  | c :: d :: body, h =>
    simp only [isControlString, Bool.and_eq_true, Bool.or_eq_true, decide_eq_true_eq] at h
    obtain ⟨rfl, (rfl | rfl) | rfl⟩ := h
    · refine ofBool_eq_incomplete ?_
      rw [hends, Bool.false_or]
      exact decide_eq_false hbel
    · exact ofBool_eq_incomplete hends
    · exact ofBool_eq_incomplete hends

variable {terminalReply : Bool} {candidate text rest : List Char} {item : Option (List Char)}

theorem scanSequence_split (h : scanSequence terminalReply candidate text = some (item, rest)) :
    ∃ taken, candidate ++ text = taken ++ rest ∧ taken ≠ [] ∧
      (item = none ∨ item = some taken) := by
  induction text generalizing candidate with
  | nil => cases h
  | cons c text ih =>
    have hshift : candidate ++ c :: text = candidate ++ [c] ++ text := by
      rw [append_assoc, singleton_append]
    simp only [scanSequence] at h
    split at h
    · cases h
      exact ⟨candidate ++ [c], hshift, by simp, .inl rfl⟩
    · split at h
      · rename_i _ haborts
        simp only [Bool.and_eq_true, decide_eq_true_eq] at haborts
        cases h
        refine ⟨candidate, rfl, ?_, .inl rfl⟩
        rintro rfl
        exact absurd haborts.1.1.2 (by decide)
      · split at h
        · obtain ⟨taken, htaken, hne⟩ := ih h
          exact ⟨taken, by rw [hshift, htaken], hne⟩
        · cases h
          exact ⟨candidate ++ [c], hshift, by simp, .inr rfl⟩
        · split at h
          · rename_i hpair
            cases h
            refine ⟨[esc], ?_, by simp, .inr rfl⟩
            rw [hshift, hpair.1]
            rfl
          · cases h
            exact ⟨candidate ++ [c], hshift, by simp, .inr rfl⟩

theorem scanSequence_append (more : List Char)
    (h : scanSequence terminalReply candidate text = some (item, rest))
    (hreply : terminalReply = true → isControlString (candidate ++ text) = true)
    (hpair : candidate ++ text = [esc, esc] → more.head?.any opens = false) :
    scanSequence terminalReply candidate (text ++ more) = some (item, rest ++ more) := by
  induction text generalizing candidate with
  | nil => cases h
  | cons c text ih =>
    have hshift : candidate ++ c :: text = candidate ++ [c] ++ text := by
      rw [append_assoc, singleton_append]
    have hhead : ∀ test : Char → Bool, text ≠ [] →
        (text ++ more).head?.any test = text.head?.any test := by
      intro test hne
      rw [head?_append_of_ne_nil _ hne]
    rw [cons_append]
    simp only [scanSequence] at h ⊢
    split at h
    · cases h
      rw [if_pos ‹_›]
    · rw [if_neg ‹_›]
      split at h
      · rename_i _ haborts
        have hne : text ≠ [] := by
          rintro rfl
          simp at haborts
        cases h
        rw [hhead _ hne, if_pos haborts]
        rfl
      · rename_i _ hgoes
        have hcontinues : isCompleteSequence (candidate ++ [c]) = .incomplete → text ≠ [] := by
          rintro hstatus rfl
          rw [hstatus] at h
          cases h
        have hgoes' : ¬ (terminalReply && 2 ≤ candidate.length && c = esc &&
            (text ++ more).head?.any (· ≠ '\\')) = true := by
          by_cases htext : text = []
          · intro haborts
            simp only [Bool.and_eq_true, decide_eq_true_eq] at haborts
            obtain ⟨⟨⟨hcontrol, _⟩, rfl⟩, _⟩ := haborts
            -- The last escape may begin the terminator, so the scan is not finished here.
            refine hcontinues (isCompleteSequence_controlString ?_ ?_ ?_) htext
            · rw [htext] at hreply
              exact hreply hcontrol
            · rw [getLast?_concat]
              decide
            · rw [getLast?_concat]
              decide
          · rw [hhead _ htext]
            exact hgoes
        rw [if_neg hgoes']
        cases hstatus : isCompleteSequence (candidate ++ [c]) with
        | incomplete =>
          simp only [hstatus] at h ⊢
          exact ih h (by rwa [← hshift]) (by rwa [← hshift])
        | notEscape =>
          simp only [hstatus] at h ⊢
          cases h
          rfl
        | complete =>
          simp only [hstatus] at h ⊢
          have hopens : candidate ++ [c] = [esc, esc] →
              (text ++ more).head?.any opens = text.head?.any opens := by
            intro hcandidate
            by_cases htext : text = []
            · subst htext
              exact hpair hcandidate
            · exact hhead _ htext
          split at h
          · rename_i hopening
            rw [if_pos ⟨hopening.1, by rw [hopens hopening.1]; exact hopening.2⟩]
            cases h
            rfl
          · rename_i hopening
            rw [if_neg fun hmore => hopening ⟨hmore.1, by rw [← hopens hmore.1]; exact hmore.2⟩]
            cases h
            rfl

theorem scanSequence_headerChar {c : Char} (hc : IsHeaderChar c) :
    scanSequence terminalReply candidate (c :: text) =
      match isCompleteSequence (candidate ++ [c]) with
      | .incomplete => scanSequence terminalReply (candidate ++ [c]) text
      | .notEscape => some (some (candidate ++ [c]), text)
      | .complete =>
        if candidate ++ [c] = [esc, esc] ∧ text.head?.any opens then some (some [esc], esc :: text)
        else some (some (candidate ++ [c]), text) := by
  have hne : ∀ d : Char, d.toNat < 0x20 → c ≠ d := by
    rintro d hd rfl
    exact absurd hc.1 (by omega)
  refine (if_neg ?_).trans (if_neg ?_)
  · simp [hne '\x18' (by decide), hne '\x1a' (by decide)]
  · simp [hne esc (by decide)]

theorem scanSequence_headerChars (hcandidate : isControlString candidate = true)
    (htext : ∀ c ∈ text, IsHeaderChar c) : scanSequence terminalReply candidate text = none := by
  induction text generalizing candidate with
  | nil => rfl
  | cons c text ih =>
    obtain ⟨hc, htext⟩ := forall_mem_cons.mp htext
    have hgrown : isControlString (candidate ++ [c]) = true := by
      match candidate, hcandidate with
      | d :: e :: body, hcandidate => exact hcandidate
    have hstatus : isCompleteSequence (candidate ++ [c]) = .incomplete := by
      refine isCompleteSequence_controlString hgrown ?_ ?_
      · rw [getLast?_concat, ne_eq, some.injEq]
        exact hc.2
      · rw [getLast?_concat, ne_eq, some.injEq]
        rintro rfl
        exact absurd hc.1 (by decide)
    rw [scanSequence_headerChar hc, hstatus]
    exact ih hgrown htext

theorem scanSequence_emits (htext : ∀ c ∈ text, IsHeaderChar c)
    (h : scanSequence terminalReply candidate text = some (item, rest)) :
    item ≠ none ∧ rest.length < text.length := by
  induction text generalizing candidate with
  | nil => cases h
  | cons c text ih =>
    obtain ⟨hc, htext⟩ := forall_mem_cons.mp htext
    rw [scanSequence_headerChar hc] at h
    split at h
    · obtain ⟨hitem, hlt⟩ := ih htext h
      exact ⟨hitem, Nat.lt_succ_of_lt hlt⟩
    · cases h
      exact ⟨some_ne_none _, Nat.lt_succ_self _⟩
    · split at h
      · rename_i hpair
        have hlast := congrArg getLast? hpair.1
        rw [getLast?_concat] at hlast
        obtain rfl : c = esc := some.inj hlast
        exact absurd hc.1 (by decide)
      · cases h
        exact ⟨some_ne_none _, Nat.lt_succ_self _⟩

theorem scanSequence_unfinished {part : List Char} (hpart : ∀ c ∈ part, IsHeaderChar c)
    (h : scanSequence terminalReply candidate text = none)
    (hmore : scanSequence terminalReply candidate (text ++ esc :: part) = some (item, rest)) :
    item = some [esc] ∧ rest = esc :: part ∨ item ≠ none ∧ rest.length ≤ part.length ∨
      item = none ∧ (rest = esc :: part ∨ rest = esc :: esc :: part) := by
  induction text generalizing candidate with
  | nil =>
    simp only [nil_append, scanSequence] at hmore
    split at hmore
    · rename_i hcancels
      simp only [Bool.and_eq_true, Bool.or_eq_true, decide_eq_true_eq] at hcancels
      exact absurd hcancels.2 (by decide)
    · split at hmore
      · cases hmore
        exact .inr (.inr ⟨rfl, .inl rfl⟩)
      · cases hstatus : isCompleteSequence (candidate ++ [esc]) with
        | incomplete =>
          simp only [hstatus] at hmore
          obtain ⟨hitem, hlt⟩ := scanSequence_emits hpart hmore
          exact .inr (.inl ⟨hitem, Nat.le_of_lt hlt⟩)
        | notEscape =>
          simp only [hstatus] at hmore
          cases hmore
          exact .inr (.inl ⟨some_ne_none _, Nat.le_refl _⟩)
        | complete =>
          simp only [hstatus] at hmore
          split at hmore
          · cases hmore
            exact .inl ⟨rfl, rfl⟩
          · cases hmore
            exact .inr (.inl ⟨some_ne_none _, Nat.le_refl _⟩)
  | cons c text ih =>
    rw [cons_append] at hmore
    simp only [scanSequence] at h hmore
    split at h
    · cases h
    · rw [if_neg ‹_›] at hmore
      split at h
      · cases h
      · rename_i _ hgoes
        split at hmore
        · rename_i haborts
          -- Only the escape at the end of the text has the new text behind it.
          have htext : text = [] := by
            by_contra hne
            rw [head?_append_of_ne_nil _ hne] at haborts
            exact hgoes haborts
          simp only [Bool.and_eq_true, decide_eq_true_eq] at haborts
          obtain rfl := haborts.1.2
          subst htext
          cases hmore
          exact .inr (.inr ⟨rfl, .inr rfl⟩)
        · cases hstatus : isCompleteSequence (candidate ++ [c]) with
          | incomplete =>
            simp only [hstatus] at h hmore
            exact ih h hmore
          | notEscape => simp [hstatus] at h
          | complete =>
            simp only [hstatus] at h
            split at h <;> cases h

end Scans

section Steps

theorem extractStep_esc (text : List Char) :
    extractStep (esc :: text) =
      scanSequence (isTerminalReply (esc :: text)) [] (esc :: text) := by
  rw [extractStep, if_pos rfl]

variable {c : Char}

theorem extractStep_char (hc : c ≠ esc) (text : List Char) :
    extractStep (c :: text) = some (some [c], text) := by
  rw [extractStep, if_neg hc]

variable {buffer rest : List Char} {item : Option (List Char)}

theorem extractStep_split (h : extractStep buffer = some (item, rest)) :
    ∃ taken, buffer = taken ++ rest ∧ taken ≠ [] ∧ (item = none ∨ item = some taken) := by
  cases buffer with
  | nil => cases h
  | cons c text =>
    by_cases hc : c = esc
    · subst hc
      rw [extractStep_esc] at h
      exact scanSequence_split h
    · rw [extractStep_char hc] at h
      cases h
      exact ⟨[c], rfl, by simp, .inr rfl⟩

theorem scanSequence_singleton (terminalReply : Bool) :
    scanSequence terminalReply [] [esc] = none := by
  cases terminalReply <;> rfl

theorem scanSequence_controlString {terminalReply : Bool} {d : Char} (body : List Char)
    (h : isControlString [c, d] = true) :
    scanSequence terminalReply [] (c :: d :: body) = scanSequence terminalReply [c, d] body := by
  simp only [isControlString, Bool.and_eq_true, Bool.or_eq_true, decide_eq_true_eq] at h
  obtain ⟨rfl, (rfl | rfl) | rfl⟩ := h
  all_goals cases terminalReply <;> rfl

theorem scanSequence_isTerminalReply (text more : List Char) :
    scanSequence (isTerminalReply (esc :: text ++ more)) [] (esc :: text) =
      extractStep (esc :: text) := by
  rw [extractStep_esc]
  match text with
  | [] => rw [scanSequence_singleton, scanSequence_singleton]
  | d :: body =>
    have hcontrol : isControlString (esc :: d :: body ++ more) = isControlString [esc, d] := rfl
    have hcontrol' : isControlString (esc :: d :: body) = isControlString [esc, d] := rfl
    rw [isTerminalReply, isTerminalReply, hcontrol, hcontrol']
    cases hstring : isControlString [esc, d] with
    | false => rfl
    | true =>
      cases hheader : isTerminalReplyHeader (esc :: d :: body) with
      | true => rw [isTerminalReplyHeader_append_left more hheader]
      | false =>
        cases hmore : isTerminalReplyHeader (esc :: d :: body ++ more) with
        | false => rfl
        | true =>
          have hchars : ∀ c ∈ d :: body, IsHeaderChar c := by
            rcases isTerminalReplyHeader_append hmore with hleft | hchars
            · rw [hheader] at hleft
              cases hleft
            · exact hchars
          have hbody := (forall_mem_cons.mp hchars).2
          rw [scanSequence_controlString body hstring, scanSequence_controlString body hstring,
            scanSequence_headerChars hstring hbody, scanSequence_headerChars hstring hbody]

/-- A sequence that is taken off the text is taken off a longer text as well, but for two
escapes at its end. -/
theorem extractStep_append (more : List Char) (h : extractStep buffer = some (item, rest))
    (hpair : buffer = [esc, esc] → more.head?.any opens = false) :
    extractStep (buffer ++ more) = some (item, rest ++ more) := by
  cases buffer with
  | nil => cases h
  | cons c text =>
    by_cases hc : c = esc
    · subst hc
      rw [← scanSequence_isTerminalReply text more] at h
      rw [cons_append, extractStep_esc, ← cons_append]
      refine scanSequence_append more h ?_ hpair
      intro hreply
      match text, h with
      | [], h =>
        rw [scanSequence_singleton] at h
        cases h
      | d :: body, _ => exact (Bool.and_eq_true_iff.mp hreply).1
    · rw [extractStep_char hc] at h
      rw [cons_append, extractStep_char hc]
      cases h
      rfl

theorem extractStep_eq_none (h : extractStep buffer = none) :
    buffer = [] ∨ ∃ text, buffer = esc :: text := by
  cases buffer with
  | nil => exact .inl rfl
  | cons c text =>
    by_cases hc : c = esc
    · exact .inr ⟨text, by rw [hc]⟩
    · rw [extractStep_char hc] at h
      cases h

theorem extractStep_unfinished {part : List Char} (hpart : ∀ c ∈ part, IsHeaderChar c)
    (h : extractStep buffer = none)
    (hmore : extractStep (buffer ++ esc :: part) = some (item, rest)) :
    (∃ tail, item = some (esc :: tail) ∧ (∃ c ∈ esc :: part, (esc :: tail).getLast? = some c) ∧
        rest ⊆ esc :: part) ∨
      item = none ∧ (rest = esc :: part ∨ rest = esc :: esc :: part) := by
  obtain ⟨text, htext⟩ : ∃ text, buffer ++ esc :: part = esc :: text := by
    rcases extractStep_eq_none h with rfl | ⟨text, rfl⟩
    · exact ⟨part, rfl⟩
    · exact ⟨text ++ esc :: part, rfl⟩
  have hscan : scanSequence (isTerminalReply (buffer ++ esc :: part)) [] buffer = none := by
    rcases extractStep_eq_none h with rfl | ⟨text, rfl⟩
    · rfl
    · rw [scanSequence_isTerminalReply, h]
  obtain ⟨taken, htaken, hne, hitem⟩ := extractStep_split hmore
  rw [htext, extractStep_esc, ← htext] at hmore
  have hcases := scanSequence_unfinished hpart hscan hmore
  rcases hitem with rfl | rfl
  · rcases hcases with ⟨hnone, _⟩ | ⟨hnone, _⟩ | hdropped
    · cases hnone
    · exact absurd rfl hnone
    · exact .inr hdropped
  · left
    obtain ⟨tail, rfl⟩ : ∃ tail, taken = esc :: tail := by
      rw [htext] at htaken
      cases taken with
      | nil => exact absurd rfl hne
      | cons c tail =>
        obtain ⟨rfl, _⟩ := cons.inj htaken
        exact ⟨tail, rfl⟩
    refine ⟨tail, rfl, ?_⟩
    have hends : ∀ kept, kept ≠ [] → esc :: part = kept ++ rest → esc :: tail = buffer ++ kept →
        (∃ c ∈ esc :: part, (esc :: tail).getLast? = some c) ∧ rest ⊆ esc :: part := by
      intro kept hkept hsplit hwhole
      rw [hsplit, hwhole, getLast?_append_of_ne_nil _ hkept, getLast?_eq_some_getLast hkept]
      exact ⟨⟨_, mem_append_left _ (getLast_mem hkept), rfl⟩, subset_append_right kept rest⟩
    rcases hcases with ⟨hlone, rfl⟩ | ⟨_, hle⟩ | ⟨hnone, _⟩
    · obtain rfl : tail = [] := (cons.inj (some.inj hlone)).2
      exact ⟨⟨esc, mem_cons_self, rfl⟩, Subset.refl _⟩
    · have hwhole := congrArg length htaken
      simp only [length_append, length_cons] at hwhole
      rcases append_eq_append_iff.mp htaken with ⟨kept, htail, hpart⟩ | ⟨kept, _, hrest⟩
      · refine hends kept ?_ hpart htail
        rintro rfl
        have hsame := congrArg length hpart
        simp only [nil_append, length_cons] at hsame
        omega
      · have hlonger := congrArg length hrest
        simp only [length_append, length_cons] at hlonger
        omega
    · cases hnone

end Steps

section Boundaries

/-- The last sequence of the text is two escapes, and nothing is left over. -/
def endsInEscapes (text : List Char) : Bool :=
  (drain extractStep text).1.getLast? = some (some [esc, esc]) &&
    (drain extractStep text).2.isEmpty

/-- More text does not change the sequences that the text before it ends with. -/
def KeepsEscapes (text more : List Char) : Prop :=
  endsInEscapes text = true → more.head?.any opens = false

variable {buffer rest text : List Char} {item : Option (List Char)}

theorem extractStep_shrinks (h : extractStep buffer = some (item, rest)) :
    rest.length < buffer.length := by
  obtain ⟨taken, rfl, hne, _⟩ := extractStep_split h
  have hpos : 0 < taken.length := length_pos_iff.mpr hne
  rw [length_append]
  omega

theorem lawful_shrinks : Incremental.Lawful extractStep fun _ _ => False where
  shrinks := extractStep_shrinks
  stable _ h := h.elim
  safe_rest _ h := h

theorem endsInEscapes_pair : endsInEscapes [esc, esc] = true := by decide

theorem endsInEscapes_of_rest (h : extractStep buffer = some (item, rest))
    (hrest : endsInEscapes rest = true) : endsInEscapes buffer = true := by
  simp only [endsInEscapes, Bool.and_eq_true, decide_eq_true_eq] at hrest ⊢
  rw [lawful_shrinks.drain_some h]
  refine ⟨?_, hrest.2⟩
  rw [getLast?_cons, hrest.1]
  rfl

theorem lawful_extractStep : Incremental.Lawful extractStep KeepsEscapes where
  shrinks := extractStep_shrinks
  stable h hsafe := by
    refine extractStep_append _ h ?_
    rintro rfl
    exact hsafe endsInEscapes_pair
  safe_rest h hsafe hends := hsafe (endsInEscapes_of_rest h hends)

variable {more : List Char}

theorem extractCompleteSequences_append (h : KeepsEscapes text more) :
    extractCompleteSequences (text ++ more) =
      ((extractCompleteSequences text).1 ++
          (extractCompleteSequences ((extractCompleteSequences text).2 ++ more)).1,
        (extractCompleteSequences ((extractCompleteSequences text).2 ++ more)).2) := by
  simp only [extractCompleteSequences, lawful_extractStep.drain_append h, reduceOption_append]

theorem extractStep_remainder (text : List Char) :
    extractStep (extractCompleteSequences text).2 = none := lawful_extractStep.step_tail text

theorem extractCompleteSequences_none (h : extractStep text = none) :
    extractCompleteSequences text = ([], text) := by
  simp only [extractCompleteSequences]
  rw [drain_none h]
  rfl

theorem extractCompleteSequences_some (h : extractStep text = some (item, rest)) :
    extractCompleteSequences text =
      (item.toList ++ (extractCompleteSequences rest).1, (extractCompleteSequences rest).2) := by
  simp only [extractCompleteSequences, lawful_shrinks.drain_some h]
  cases item <;> rfl

theorem extractStep_pair (more : List Char) :
    extractStep (esc :: esc :: more) =
      if more.head?.any opens then some (some [esc], esc :: more)
      else some (some [esc, esc], more) := by
  have hreply : isTerminalReply (esc :: esc :: more) = false := rfl
  have hstatus : isCompleteSequence [esc] = .incomplete := rfl
  have hpair : isCompleteSequence [esc, esc] = .complete := rfl
  rw [extractStep_esc, hreply]
  simp [scanSequence, hstatus, hpair]

theorem rest_endsInEscapes (h : extractStep text = some (item, rest))
    (hends : endsInEscapes text = true) (hpair : text ≠ [esc, esc]) :
    endsInEscapes rest = true := by
  simp only [endsInEscapes, lawful_shrinks.drain_some h, Bool.and_eq_true,
    decide_eq_true_eq] at hends ⊢
  refine ⟨?_, hends.2⟩
  cases hstep : extractStep rest with
  | some pair =>
    obtain ⟨next, tail⟩ := pair
    have hlast := hends.1
    rw [lawful_shrinks.drain_some hstep, getLast?_cons_cons] at hlast
    rw [lawful_shrinks.drain_some hstep, hlast]
  | none =>
    rw [drain_none hstep] at hends
    obtain ⟨hlast, hrest⟩ := hends
    obtain rfl := isEmpty_iff.mp hrest
    obtain ⟨taken, rfl, _, hitem⟩ := extractStep_split h
    obtain rfl : item = some [esc, esc] := some.inj hlast
    rcases hitem with hnone | hitem
    · cases hnone
    · rw [append_nil, ← some.inj hitem] at hpair
      exact absurd rfl hpair

theorem extractCompleteSequences_pair (hends : endsInEscapes text = true)
    (hmore : more.head?.any opens = true) :
    ∃ earlier later, (extractCompleteSequences text).1 = earlier ++ [[esc, esc]] ∧
      (extractCompleteSequences (text ++ more)).1 = earlier ++ [esc] :: later := by
  induction text using lawful_shrinks.induction with
  | hnone text hstep =>
    simp only [endsInEscapes, drain_none hstep] at hends
    cases hends
  | hsome text item rest hstep ih =>
    by_cases hpair : text = [esc, esc]
    · subst hpair
      have hlone : extractStep ([esc, esc] ++ more) = some (some [esc], esc :: more) :=
        (extractStep_pair more).trans (if_pos hmore)
      refine ⟨[], (extractCompleteSequences (esc :: more)).1, by decide, ?_⟩
      rw [extractCompleteSequences_some hlone]
      rfl
    · have hlonger := extractStep_append more hstep fun h => absurd h hpair
      obtain ⟨earlier, later, hearlier, hlater⟩ := ih (rest_endsInEscapes hstep hends hpair)
      refine ⟨item.toList ++ earlier, later, ?_, ?_⟩
      · rw [extractCompleteSequences_some hstep, hearlier, append_assoc]
      · rw [extractCompleteSequences_some hlonger, hlater, append_assoc]

theorem sequence_subset {text sequence : List Char}
    (h : sequence ∈ (extractCompleteSequences text).1) : sequence ≠ [] ∧ sequence ⊆ text := by
  induction text using lawful_shrinks.induction with
  | hnone text hstep =>
    rw [extractCompleteSequences_none hstep] at h
    cases h
  | hsome text item rest hstep ih =>
    obtain ⟨taken, rfl, hne, hitem⟩ := extractStep_split hstep
    rw [extractCompleteSequences_some hstep, mem_append] at h
    rcases h with h | h
    · rcases hitem with rfl | rfl
      · cases h
      · obtain rfl := mem_singleton.mp h
        exact ⟨hne, subset_append_left _ rest⟩
    · exact ⟨(ih h).1, Subset.trans (ih h).2 (subset_append_right taken rest)⟩

theorem extractCompleteSequences_unfinished {part : List Char} (hpart : ∀ c ∈ part, IsHeaderChar c)
    (hunfinished : extractStep (esc :: part) = none) (h : extractStep buffer = none) :
    (∃ tail more, (extractCompleteSequences (buffer ++ esc :: part)).1 = (esc :: tail) :: more ∧
        ∀ sequence ∈ (esc :: tail) :: more, ∃ c ∈ esc :: part, sequence.getLast? = some c) ∨
      ∃ left, extractCompleteSequences (buffer ++ esc :: part) = ([], left ++ esc :: part) ∧
        extractStep left = none := by
  cases hstep : extractStep (buffer ++ esc :: part) with
  | none => exact .inr ⟨buffer, extractCompleteSequences_none hstep, h⟩
  | some pair =>
    obtain ⟨item, rest⟩ := pair
    have hbehind : ∀ {rest}, rest ⊆ esc :: part →
        ∀ sequence ∈ (extractCompleteSequences rest).1, ∃ c ∈ esc :: part,
          sequence.getLast? = some c := by
      intro rest hrest sequence hsequence
      obtain ⟨hne, hsubset⟩ := sequence_subset hsequence
      exact ⟨_, hrest (hsubset (getLast_mem hne)), getLast?_eq_some_getLast hne⟩
    rw [extractCompleteSequences_some hstep]
    rcases extractStep_unfinished hpart h hstep with ⟨tail, rfl, hlast, hrest⟩ | ⟨rfl, rfl | rfl⟩
    · exact .inl ⟨tail, _, rfl, forall_mem_cons.mpr ⟨hlast, hbehind hrest⟩⟩
    · exact .inr ⟨[], by rw [extractCompleteSequences_none hunfinished]; rfl, rfl⟩
    · left
      have hpair := extractStep_pair part
      split at hpair
      · rw [extractCompleteSequences_some hpair]
        refine ⟨[], _, rfl, forall_mem_cons.mpr ⟨⟨esc, mem_cons_self, rfl⟩, ?_⟩⟩
        exact hbehind (Subset.refl _)
      · rw [extractCompleteSequences_some hpair]
        refine ⟨[esc], _, rfl, forall_mem_cons.mpr ⟨⟨esc, mem_cons_self, rfl⟩, ?_⟩⟩
        exact hbehind (subset_cons_self esc part)

end Boundaries

end Pidrei.Tui.StdinBuffer
