import Pidrei.EditExact
import Pidrei.Library.Utf8

/-!
The edit tool on the bytes of a file: decoding, the byte order mark, one line
ending for the whole file, and what is written back. Outside the replaced
regions the text stays, with every line end written as the detected one.
-/
namespace Pidrei.EditTool

open PythonText TextSearch EditDiff EditExact Utf8

inductive EditFailure
  | undecodable
  | message (text : String)

def byteOrderMark : Char := Char.ofNat 0xFEFF

def splitBom (content : List Char) : List Char × List Char :=
  if content.head? = some byteOrderMark then ([byteOrderMark], content.tail) else ([], content)

/-- From the bytes that were read to the bytes that are written. -/
def execute (nfkc : List Char → List Char) (buffer : List UInt8) (edits : List Edit)
    (path : String) : Except EditFailure (List UInt8) :=
  if edits.isEmpty then
    .error (.message "Edit tool input is invalid. edits must contain at least one replacement.")
  else
    match decodeStrict buffer with
    | none => .error .undecodable
    | some rawContent =>
      let (bom, content) := splitBom rawContent
      let originalEnding := detectLineEnding content
      let normalizedContent := normalizeToLf content
      match applyEditsToNormalizedContent nfkc normalizedContent edits path with
      | .error text => .error (.message text)
      | .ok applied => .ok (encode (bom ++ restoreLineEndings applied.newContent originalEnding))

section LineEnds

attribute [local simp] replaceFrom in
theorem replaceFrom_singleton (a : Char) (replacement text : List Char) :
    replaceFrom [a] replacement 0 text =
      text.flatMap fun c => if c = a then replacement else [c] := by
  induction text with
  | nil => rfl
  | cons c text ih =>
    rw [replaceFrom, List.flatMap_cons]
    by_cases h : c = a
    · subst h
      simp [List.isPrefixOf, ih]
    · have hne : (a == c) = false := by simpa using fun e : a = c => h e.symm
      simp [List.isPrefixOf, hne, h, ih]

attribute [local simp] replace in
theorem restoreLineEndings_append (xs ys : List Char) (ending : LineEnding) :
    restoreLineEndings (xs ++ ys) ending =
      restoreLineEndings xs ending ++ restoreLineEndings ys ending := by
  cases ending with
  | lf => rfl
  | crlf =>
    simp only [restoreLineEndings, replace, replaceFrom_singleton]
    exact List.flatMap_append

attribute [local simp] normalizeToLf in
theorem normalizeToLf_pair (text : List Char) :
    normalizeToLf ('\r' :: '\n' :: text) = '\n' :: normalizeToLf text := by
  simp [normalizeToLf, replace, replaceFrom, List.isPrefixOf]

variable {text : List Char} {c : Char}

theorem normalizeToLf_carriageReturn (h : text.head? ≠ some '\n') :
    normalizeToLf ('\r' :: text) = '\n' :: normalizeToLf text := by
  cases text with
  | nil => rfl
  | cons c text =>
    have hne : ('\n' == c) = false := by
      rw [beq_eq_false_iff_ne]
      exact fun e => h (by rw [← e]; rfl)
    have hfold : replaceFrom ['\r', '\n'] ['\n'] 0 ('\r' :: c :: text) =
        '\r' :: replaceFrom ['\r', '\n'] ['\n'] 0 (c :: text) := by
      rw [replaceFrom, if_neg]
      simp [List.isPrefixOf, hne]
    rw [normalizeToLf, replace, replace, hfold, replaceFrom_singleton, normalizeToLf, replace,
      replace, replaceFrom_singleton]
    rfl

theorem normalizeToLf_other (text : List Char) (h : c ≠ '\r') :
    normalizeToLf (c :: text) = c :: normalizeToLf text := by
  have hne : ('\r' == c) = false := by
    rw [beq_eq_false_iff_ne]
    exact fun e => h e.symm
  have hfold : replaceFrom ['\r', '\n'] ['\n'] 0 (c :: text) =
      c :: replaceFrom ['\r', '\n'] ['\n'] 0 text := by
    rw [replaceFrom, if_neg]
    simp [List.isPrefixOf, hne]
  rw [normalizeToLf, replace, replace, hfold, replaceFrom_singleton, List.flatMap_cons, if_neg h,
    normalizeToLf, replace, replace, replaceFrom_singleton]
  rfl

theorem lineEndInduction {motive : List Char → Prop} (nil : motive [])
    (pair : ∀ text, motive text → motive ('\r' :: '\n' :: text))
    (carriageReturn : ∀ text, text.head? ≠ some '\n' → motive text → motive ('\r' :: text))
    (other : ∀ c text, c ≠ '\r' → motive text → motive (c :: text)) (text : List Char) :
    motive text := by
  induction hn : text.length using Nat.strongRecOn generalizing text with
  | _ n ih =>
    match text, hn with
    | [], _ => exact nil
    | c :: text, hn =>
      rw [List.length_cons] at hn
      by_cases hc : c = '\r'
      · subst hc
        by_cases hnext : text.head? = some '\n'
        · obtain ⟨rest, rfl⟩ := List.head?_eq_some_iff.mp hnext
          rw [List.length_cons] at hn
          exact pair rest (ih rest.length (by omega) rest rfl)
        · exact carriageReturn text hnext (ih text.length (by omega) text rfl)
      · exact other c text hc (ih text.length (by omega) text rfl)

theorem apart_nil (text : List Char) : Apart [] text := fun h => nomatch h.1

variable {more : List Char} {ending : LineEnding}

theorem apart_cons (h : Apart text more) (hc : text = [] → ¬ (c = '\r' ∧ more.head? = some '\n')) :
    Apart (c :: text) more := by
  cases text with
  | nil =>
    rintro ⟨hlast, hmore⟩
    exact hc rfl ⟨Option.some.inj hlast, hmore⟩
  | cons d text =>
    rintro ⟨hlast, hmore⟩
    exact h ⟨hlast, hmore⟩

theorem apart_tail (h : Apart (c :: text) more) : Apart text more := by
  rintro ⟨hlast, hmore⟩
  refine h ⟨?_, hmore⟩
  rw [List.getLast?_cons, hlast]
  rfl

theorem normalizeToLf_split (xs ys : List Char) (h : normalizeToLf text = xs ++ ys) :
    ∃ front back, text = front ++ back ∧ normalizeToLf front = xs ∧ normalizeToLf back = ys ∧
      Apart front back := by
  induction text using lineEndInduction generalizing xs with
  | nil =>
    obtain ⟨rfl, rfl⟩ := List.append_eq_nil_iff.mp h.symm
    exact ⟨[], [], rfl, rfl, rfl, apart_nil []⟩
  | pair text ih =>
    cases xs with
    | nil => exact ⟨[], _, rfl, rfl, h, apart_nil _⟩
    | cons x xs =>
      rw [normalizeToLf_pair] at h
      obtain ⟨rfl, hrest⟩ := List.cons.inj h
      obtain ⟨front, back, rfl, hfront, hback, hapart⟩ := ih xs hrest
      refine ⟨'\r' :: '\n' :: front, back, rfl, by rw [normalizeToLf_pair, hfront], hback, ?_⟩
      exact apart_cons (apart_cons hapart (by simp)) (nofun)
  | carriageReturn text hnext ih =>
    cases xs with
    | nil => exact ⟨[], _, rfl, rfl, h, apart_nil _⟩
    | cons x xs =>
      rw [normalizeToLf_carriageReturn hnext] at h
      obtain ⟨rfl, hrest⟩ := List.cons.inj h
      obtain ⟨front, back, rfl, hfront, hback, hapart⟩ := ih xs hrest
      have hhead : front.head? ≠ some '\n' := by
        intro hhead
        rw [List.head?_append, hhead] at hnext
        exact hnext rfl
      refine ⟨'\r' :: front, back, rfl, ?_, hback, ?_⟩
      · rw [normalizeToLf_carriageReturn hhead, hfront]
      · apply apart_cons hapart
        rintro rfl ⟨_, hback⟩
        exact hnext hback
  | other c text hc ih =>
    cases xs with
    | nil => exact ⟨[], _, rfl, rfl, h, apart_nil _⟩
    | cons x xs =>
      rw [normalizeToLf_other text hc] at h
      obtain ⟨rfl, hrest⟩ := List.cons.inj h
      obtain ⟨front, back, rfl, hfront, hback, hapart⟩ := ih xs hrest
      refine ⟨c :: front, back, rfl, by rw [normalizeToLf_other front hc, hfront], hback, ?_⟩
      exact apart_cons hapart (fun _ hboth => hc hboth.1)

/-- The text with every line end written as the given one. -/
def reline (ending : LineEnding) (text : List Char) : List Char :=
  restoreLineEndings (normalizeToLf text) ending

/-- Every line end of the text is of the kind. -/
inductive LineEndsAre : LineEnding → List Char → Prop
  | nil (ending : LineEnding) : LineEndsAre ending []
  | pair {text : List Char} (h : LineEndsAre .crlf text) : LineEndsAre .crlf ('\r' :: '\n' :: text)
  | newline {text : List Char} (h : LineEndsAre .lf text) : LineEndsAre .lf ('\n' :: text)
  | other {ending : LineEnding} {c : Char} {text : List Char} (hreturn : c ≠ '\r')
      (hnewline : c ≠ '\n') (h : LineEndsAre ending text) : LineEndsAre ending (c :: text)

theorem restore_crlf_cons (c : Char) (text : List Char) :
    restoreLineEndings (c :: text) .crlf =
      (if c = '\n' then ['\r', '\n'] else [c]) ++ restoreLineEndings text .crlf := by
  simp only [restoreLineEndings, replace, replaceFrom_singleton, List.flatMap_cons]

theorem lineEndsAre_other_iff (hreturn : c ≠ '\r') (hnewline : c ≠ '\n') :
    LineEndsAre ending (c :: text) ↔ LineEndsAre ending text := by
  constructor
  · intro h
    cases h with
    | pair => exact absurd rfl hreturn
    | newline => exact absurd rfl hnewline
    | other _ _ h => exact h
  · exact .other hreturn hnewline

theorem reline_lf_eq_iff (text : List Char) : reline .lf text = text ↔ LineEndsAre .lf text := by
  change normalizeToLf text = text ↔ _
  induction text using lineEndInduction with
  | nil => exact ⟨fun _ => .nil _, fun _ => rfl⟩
  | pair text ih =>
    rw [normalizeToLf_pair]
    constructor
    · intro h
      exact absurd (List.cons.inj h).1 (by decide)
    · intro h
      cases h with
      | other hreturn => exact absurd rfl hreturn
  | carriageReturn text hnext ih =>
    rw [normalizeToLf_carriageReturn hnext]
    constructor
    · intro h
      exact absurd (List.cons.inj h).1 (by decide)
    · intro h
      cases h with
      | other hreturn => exact absurd rfl hreturn
  | other c text hc ih =>
    rw [normalizeToLf_other text hc, List.cons_inj_right, ih]
    by_cases hnewline : c = '\n'
    · subst hnewline
      constructor
      · exact .newline
      · intro h
        cases h with
        | newline h => exact h
        | other _ hnewline => exact absurd rfl hnewline
    · exact (lineEndsAre_other_iff hc hnewline).symm

theorem reline_crlf_eq_iff (text : List Char) :
    reline .crlf text = text ↔ LineEndsAre .crlf text := by
  change restoreLineEndings (normalizeToLf text) .crlf = text ↔ _
  induction text using lineEndInduction with
  | nil => exact ⟨fun _ => .nil _, fun _ => rfl⟩
  | pair text ih =>
    rw [normalizeToLf_pair, restore_crlf_cons, if_pos rfl, List.cons_append, List.cons_append,
      List.nil_append, List.cons_inj_right, List.cons_inj_right, ih]
    constructor
    · exact .pair
    · intro h
      cases h with
      | pair h => exact h
      | other hreturn => exact absurd rfl hreturn
  | carriageReturn text hnext ih =>
    rw [normalizeToLf_carriageReturn hnext, restore_crlf_cons, if_pos rfl]
    constructor
    · intro h
      refine absurd ?_ hnext
      rw [← (List.cons.inj h).2]
      rfl
    · intro h
      cases h with
      | pair => exact absurd rfl hnext
      | other hreturn => exact absurd rfl hreturn
  | other c text hc ih =>
    rw [normalizeToLf_other text hc, restore_crlf_cons]
    by_cases hnewline : c = '\n'
    · subst hnewline
      rw [if_pos rfl]
      constructor
      · intro h
        exact absurd (List.cons.inj h).1 (by decide)
      · intro h
        cases h with
        | other _ hnewline => exact absurd rfl hnewline
    · rw [if_neg hnewline, List.singleton_append, List.cons_inj_right, ih]
      exact (lineEndsAre_other_iff hc hnewline).symm

theorem reline_eq_iff (ending : LineEnding) (text : List Char) :
    reline ending text = text ↔ LineEndsAre ending text := by
  cases ending with
  | lf => exact reline_lf_eq_iff text
  | crlf => exact reline_crlf_eq_iff text

theorem LineEndsAre.of_append {front back : List Char} (h : LineEndsAre ending (front ++ back))
    (hapart : Apart front back) : LineEndsAre ending front ∧ LineEndsAre ending back := by
  generalize htext : front ++ back = text at h
  induction h generalizing front with
  | nil ending =>
    obtain ⟨rfl, rfl⟩ := List.append_eq_nil_iff.mp htext
    exact ⟨.nil _, .nil _⟩
  | @pair text h ih =>
    match front, htext with
    | [], htext => exact ⟨.nil _, by rw [show back = _ from htext]; exact .pair h⟩
    | [c], htext =>
      obtain ⟨hc, hback⟩ := List.cons.inj htext
      exact absurd ⟨congrArg some hc, by rw [show back = _ from hback]; rfl⟩ hapart
    | c :: d :: front, htext =>
      obtain ⟨hc, htext⟩ := List.cons.inj htext
      obtain ⟨hd, hrest⟩ := List.cons.inj htext
      obtain ⟨hfront, hback⟩ := ih (apart_tail (apart_tail hapart)) hrest
      rw [hc, hd]
      exact ⟨.pair hfront, hback⟩
  | @newline text h ih =>
    match front, htext with
    | [], htext => exact ⟨.nil _, by rw [show back = _ from htext]; exact .newline h⟩
    | c :: front, htext =>
      obtain ⟨hc, hrest⟩ := List.cons.inj htext
      obtain ⟨hfront, hback⟩ := ih (apart_tail hapart) hrest
      rw [hc]
      exact ⟨.newline hfront, hback⟩
  | @other ending c text hreturn hnewline h ih =>
    match front, htext with
    | [], htext =>
      exact ⟨.nil _, by rw [show back = _ from htext]; exact .other hreturn hnewline h⟩
    | d :: front, htext =>
      obtain ⟨hd, hrest⟩ := List.cons.inj htext
      obtain ⟨hfront, hback⟩ := ih (apart_tail hapart) hrest
      rw [hd]
      exact ⟨.other hreturn hnewline hfront, hback⟩

end LineEnds

section Frame

/-- The bytes that were read and those that are written, stretch by stretch: the gaps are
relined, the regions hold the old texts and get the new ones. -/
inductive Rewritten (ending : LineEnding) :
    List (List Char) → List Edit → List UInt8 → List UInt8 → Prop
  | unchanged (gap : List Char) :
      Rewritten ending [gap] [] (encode gap) (encode (reline ending gap))
  | region (gap region : List Char) {edit : Edit} {gaps : List (List Char)} {edits : List Edit}
      {rest rest' : List UInt8} (hregion : normalizeToLf region = edit.oldText)
      (h : Rewritten ending gaps edits rest rest') :
      Rewritten ending (gap :: gaps) (edit :: edits) (encode gap ++ (encode region ++ rest))
        (encode (reline ending gap) ++ (encode (restoreLineEndings edit.newText ending) ++ rest'))

/-- The same bytes outside the regions; these hold the old texts and get the new ones. -/
inductive Preserved : List Edit → List UInt8 → List UInt8 → Prop
  | unchanged (gap : List UInt8) : Preserved [] gap gap
  | region (gap : List UInt8) (region : List Char) (ending : LineEnding) {edit : Edit}
      {edits : List Edit} {rest rest' : List UInt8}
      (hregion : normalizeToLf region = edit.oldText) (h : Preserved edits rest rest') :
      Preserved (edit :: edits) (gap ++ (encode region ++ rest))
        (gap ++ (encode (restoreLineEndings edit.newText ending) ++ rest'))

variable {ending : LineEnding} {edits : List Edit} {before after : List UInt8}

theorem Rewritten.preserved {gaps : List (List Char)} (h : Rewritten ending gaps edits before after)
    (hgaps : ∀ gap ∈ gaps, LineEndsAre ending gap) : Preserved edits before after := by
  induction h with
  | unchanged gap =>
    rw [(reline_eq_iff ending gap).mpr (hgaps gap List.mem_cons_self)]
    exact .unchanged _
  | region gap region hregion h ih =>
    rw [(reline_eq_iff ending gap).mpr (hgaps gap List.mem_cons_self)]
    have hrest := ih (fun other hother => hgaps other (List.mem_cons_of_mem _ hother))
    exact .region _ region ending hregion hrest

theorem rewritten_of_edited {normalized new content : List Char}
    (h : Edited (edits.map change) normalized new) (hcontent : normalizeToLf content = normalized) :
    ∃ gaps, Rewritten ending gaps edits (encode content)
      (encode (restoreLineEndings new ending)) ∧
      (LineEndsAre ending content → ∀ gap ∈ gaps, LineEndsAre ending gap) := by
  induction edits generalizing content normalized new with
  | nil =>
    cases h
    refine ⟨[content], ?_, ?_⟩
    · rw [← hcontent]
      exact .unchanged content
    · intro hends gap hgap
      rwa [List.mem_singleton.mp hgap]
  | cons edit edits ih =>
    cases h with
    | region gap _ h =>
      obtain ⟨front, back, rfl, hfront, hback, hapart⟩ := normalizeToLf_split _ _ hcontent
      obtain ⟨region, rest, rfl, hregion, hrest, hapart'⟩ := normalizeToLf_split _ _ hback
      obtain ⟨gaps, hrewritten, hgaps⟩ := ih h hrest
      refine ⟨front :: gaps, ?_, ?_⟩
      · rw [restoreLineEndings_append, restoreLineEndings_append, encode_append, encode_append,
          encode_append, encode_append, ← hfront]
        exact .region front region hregion hrewritten
      · intro hends other hother
        obtain ⟨hends, hbackEnds⟩ := hends.of_append hapart
        rcases List.mem_cons.mp hother with rfl | hother
        · exact hends
        · exact hgaps (hbackEnds.of_append hapart').2 other hother

theorem splitBom_append (content : List Char) :
    (splitBom content).1 ++ (splitBom content).2 = content := by
  unfold splitBom
  split
  · rename_i hhead
    obtain ⟨rest, rfl⟩ := List.head?_eq_some_iff.mp hhead
    rfl
  · rfl

/-- The content is written with the edits applied, and its gaps change nothing but the kind of
their line ends: a gap keeps its bytes just when all its line ends are of the given kind, and
all gaps do when the content has this kind only. -/
structure Framed (ending : LineEnding) (content : List Char) (edits ordered : List Edit)
    (gaps : List (List Char)) (before after : List UInt8) : Prop where
  perm : ordered.Perm (edits.map normalizeEdit)
  rewritten : Rewritten ending gaps ordered before after
  kept : ∀ gap ∈ gaps, encode (reline ending gap) = encode gap ↔ LineEndsAre ending gap
  uniform : LineEndsAre ending content → Preserved ordered before after

/-- What the tool writes for exact edits: the byte order mark, and the content with its gaps
framed in the line ending that was detected. -/
theorem execute_frame {nfkc : List Char → List Char} {buffer written : List UInt8}
    {edits : List Edit} {path : String} {rawContent bom content : List Char}
    (hdecoded : decodeStrict buffer = some rawContent) (hbom : splitBom rawContent = (bom, content))
    (hexact : AllExact nfkc (normalizeToLf content) (edits.map normalizeEdit))
    (hwritten : execute nfkc buffer edits path = .ok written) :
    ∃ ordered gaps before after, buffer = encode bom ++ before ∧ written = encode bom ++ after ∧
      Framed (detectLineEnding content) content edits ordered gaps before after := by
  have hraw := splitBom_append rawContent
  rw [hbom] at hraw
  simp only [execute, hdecoded, hbom] at hwritten
  split at hwritten
  · cases hwritten
  · cases happly : applyEditsToNormalizedContent nfkc (normalizeToLf content) edits path with
    | error text =>
      rw [happly] at hwritten
      cases hwritten
    | ok applied =>
      rw [happly] at hwritten
      obtain ⟨haccepted, rfl, _⟩ := accepted_of_ok hexact happly
      have hresult := Except.ok.inj hwritten
      have hedited := haccepted.edited
      obtain ⟨gaps, hrewritten, hgaps⟩ : ∃ gaps, Rewritten (detectLineEnding content) gaps
          (inOrder (normalizeToLf content) (edits.map normalizeEdit)) _ _ ∧ _ :=
        rewritten_of_edited hedited rfl
      refine ⟨_, gaps, _, _, ?_, ?_, inOrder_perm _ _, hrewritten, ?_, ?_⟩
      · rw [← encode_append, hraw, encode_decodeStrict hdecoded]
      · rw [← hresult, encode_append]
      · intro gap _
        rw [← reline_eq_iff]
        exact ⟨encode_injective, congrArg encode⟩
      · intro hends
        exact hrewritten.preserved (hgaps hends)

/-- A CRLF file with a byte order mark: one line is replaced. -/
theorem execute_frame_crlf :
    ∃ ordered gaps before after,
      [0xEF, 0xBB, 0xBF, 97, 13, 10, 98, 13, 10] = encode [byteOrderMark] ++ before ∧
      [0xEF, 0xBB, 0xBF, 97, 13, 10, 99, 13, 10] = encode [byteOrderMark] ++ after ∧
      Framed (detectLineEnding ['a', '\r', '\n', 'b', '\r', '\n'])
        ['a', '\r', '\n', 'b', '\r', '\n'] [⟨['b'], ['c']⟩] ordered gaps before after := by
  have hdecoded : decodeStrict [0xEF, 0xBB, 0xBF, 97, 13, 10, 98, 13, 10] =
      some [byteOrderMark, 'a', '\r', '\n', 'b', '\r', '\n'] := by decide
  have hwritten : execute id [0xEF, 0xBB, 0xBF, 97, 13, 10, 98, 13, 10] [⟨['b'], ['c']⟩] "f" =
      .ok [0xEF, 0xBB, 0xBF, 97, 13, 10, 99, 13, 10] := rfl
  apply execute_frame hdecoded rfl _ hwritten
  unfold AllExact
  decide

theorem Preserved.length_singleton {edit : Edit} (h : Preserved [edit] before after) :
    ∃ region ending, normalizeToLf region = edit.oldText ∧
      before.length + (encode (restoreLineEndings edit.newText ending)).length =
        after.length + (encode region).length := by
  cases h with
  | region gap region ending hregion h =>
    cases h with
    | unchanged rest =>
      refine ⟨region, ending, hregion, ?_⟩
      simp only [List.length_append]
      omega

theorem eq_of_normalizeToLf_singleton {text : List Char} {c : Char}
    (h : normalizeToLf text = [c]) (hc : c ≠ '\n') : text = [c] := by
  induction text using lineEndInduction with
  | nil => cases h
  | pair text _ =>
    rw [normalizeToLf_pair] at h
    exact absurd (List.cons.inj h).1.symm hc
  | carriageReturn text hnext _ =>
    rw [normalizeToLf_carriageReturn hnext] at h
    exact absurd (List.cons.inj h).1.symm hc
  | other d text hd _ =>
    rw [normalizeToLf_other text hd] at h
    obtain ⟨rfl, hrest⟩ := List.cons.inj h
    cases text using lineEndInduction with
    | nil => rfl
    | pair text _ =>
      rw [normalizeToLf_pair] at hrest
      cases hrest
    | carriageReturn text hnext _ =>
      rw [normalizeToLf_carriageReturn hnext] at hrest
      cases hrest
    | other e text he _ =>
      rw [normalizeToLf_other text he] at hrest
      cases hrest

/-- A file with both kinds of line ends: the LF behind the edited line is written as CRLF. -/
theorem mixed_lineEnds_rewritten :
    ¬ ∀ (nfkc : List Char → List Char) (buffer written : List UInt8) (edits : List Edit)
      (path : String) (rawContent bom content : List Char),
      decodeStrict buffer = some rawContent → splitBom rawContent = (bom, content) →
      AllExact nfkc (normalizeToLf content) (edits.map normalizeEdit) →
      execute nfkc buffer edits path = .ok written →
      ∃ ordered : List Edit, ordered.Perm (edits.map normalizeEdit) ∧
        Preserved ordered buffer written := by
  intro h
  have hdecoded : decodeStrict [97, 13, 10, 98, 10, 99] =
      some ['a', '\r', '\n', 'b', '\n', 'c'] := by decide
  have hwritten : execute id [97, 13, 10, 98, 10, 99] [⟨['b'], ['x']⟩] "f" =
      .ok [97, 13, 10, 120, 13, 10, 99] := rfl
  obtain ⟨ordered, hperm, hpreserved⟩ := h id _ _ _ "f" _ [] _ hdecoded rfl
    (by unfold AllExact; decide) hwritten
  have hedit : [(⟨['b'], ['x']⟩ : Edit)].map normalizeEdit = [⟨['b'], ['x']⟩] := by decide
  rw [hedit] at hperm
  obtain rfl := List.perm_singleton.mp hperm
  obtain ⟨region, ending, hregion, hlength⟩ := hpreserved.length_singleton
  rw [eq_of_normalizeToLf_singleton hregion (by decide)] at hlength
  cases ending <;> exact absurd hlength (by decide)

end Frame

end Pidrei.EditTool
