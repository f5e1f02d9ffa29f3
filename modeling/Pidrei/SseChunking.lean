import Pidrei.SseDecoder

/-!
How the chunks of a response matter to its events. A CR at the end of a chunk is
taken as a whole line break, so an LF at the start of the next one reads as a
blank line of its own; no other boundary is visible.
-/
namespace Pidrei.SseChunking

open PythonText SseDecoder List
open Incremental (drain)

section Lines

theorem isLineBreak_iff (c : Char) : isLineBreak c = true ↔ c = '\r' ∨ c = '\n' := by
  have hchar : ∀ d : Char, c.toNat = d.toNat ↔ c = d := fun d => Char.toNat_inj
  simp only [isLineBreak, Bool.or_eq_true, decide_eq_true_eq]
  rw [or_comm]
  exact or_congr (hchar '\r') (hchar '\n')

theorem nextLineBreakIndex_cons (c : Char) (text : List Char) :
    nextLineBreakIndex (c :: text) =
      if isLineBreak c then some 0 else (nextLineBreakIndex text).map (· + 1) := by
  simp only [nextLineBreakIndex, idxOf?_cons]
  by_cases hreturn : c = '\r'
  · subst hreturn
    cases hnewline : text.idxOf? '\n' <;> simp [isLineBreak]
  · by_cases hnewline : c = '\n'
    · subst hnewline
      cases text.idxOf? '\r' <;> simp [isLineBreak]
    · have hbreak : isLineBreak c = false := by
        rw [Bool.eq_false_iff, Ne, isLineBreak_iff]
        exact not_or.mpr ⟨hreturn, hnewline⟩
      simp only [beq_iff_eq, hreturn, hnewline, hbreak, if_false, Bool.false_eq_true]
      cases text.idxOf? '\r' <;> cases text.idxOf? '\n' <;> simp [Nat.add_min_add_right]

theorem nextLineBreakIndex_eq (text : List Char) :
    nextLineBreakIndex text = text.findIdx? isLineBreak := by
  induction text with
  | nil => rfl
  | cons c text ih => rw [nextLineBreakIndex_cons, findIdx?_cons, ih]

variable {text : List Char}

theorem consumeLine_none (h : consumeLine text = none) : ∀ c ∈ text, isLineBreak c = false := by
  unfold consumeLine at h
  split at h
  · rename_i hindex
    rw [nextLineBreakIndex_eq] at hindex
    exact findIdx?_eq_none_iff.mp hindex
  · cases h

theorem consumeLine_of_forall (h : ∀ c ∈ text, isLineBreak c = false) :
    consumeLine text = none := by
  have hindex : nextLineBreakIndex text = none := by
    rw [nextLineBreakIndex_eq]
    exact findIdx?_eq_none_iff.mpr h
  simp only [consumeLine, hindex]

/-- The ways a line can end in front of `rest`. -/
inductive Break : List Char → List Char → Prop
  | newline (rest : List Char) : Break ['\n'] rest
  | pair (rest : List Char) : Break ['\r', '\n'] rest
  | carriageReturn (rest : List Char) (h : rest.head? ≠ some '\n') : Break ['\r'] rest

theorem nextLineBreakIndex_append {line : Line} {c : Char} (rest : List Char)
    (hline : ∀ d ∈ line, isLineBreak d = false) (hc : isLineBreak c = true) :
    nextLineBreakIndex (line ++ c :: rest) = some line.length := by
  rw [nextLineBreakIndex_eq, findIdx?_append, findIdx?_eq_none_iff.mpr hline,
    findIdx?_cons, if_pos hc]
  simp

variable {line rest : List Char}

theorem consumeLine_break {ending : List Char} (hline : ∀ c ∈ line, isLineBreak c = false)
    (h : Break ending rest) : consumeLine (line ++ (ending ++ rest)) = some (line, rest) := by
  unfold consumeLine
  cases h with
  | newline =>
    rw [singleton_append, nextLineBreakIndex_append rest hline (by decide)]
    simp
  | pair =>
    rw [cons_append, nextLineBreakIndex_append _ hline (by decide)]
    simp
  | carriageReturn _ hrest =>
    rw [singleton_append, nextLineBreakIndex_append rest hline (by decide)]
    have hnext : (line ++ '\r' :: rest)[line.length + 1]? = rest.head? := by
      rw [getElem?_append_right (by omega), Nat.add_sub_cancel_left, head?_eq_getElem?]
      rfl
    simp [hnext, hrest]

theorem exists_break (h : ∃ c ∈ text, isLineBreak c = true) :
    ∃ line ending rest, text = line ++ (ending ++ rest) ∧
      (∀ c ∈ line, isLineBreak c = false) ∧ Break ending rest := by
  induction text with
  | nil =>
    obtain ⟨c, hc, _⟩ := h
    cases hc
  | cons c text ih =>
    cases hc : isLineBreak c with
    | true =>
      refine ⟨[], ?_⟩
      rcases (isLineBreak_iff c).mp hc with rfl | rfl
      · by_cases hnext : text.head? = some '\n'
        · obtain ⟨rest, rfl⟩ := head?_eq_some_iff.mp hnext
          exact ⟨['\r', '\n'], rest, rfl, by simp, .pair rest⟩
        · exact ⟨['\r'], text, rfl, by simp, .carriageReturn text hnext⟩
      · exact ⟨['\n'], text, rfl, by simp, .newline text⟩
    | false =>
      obtain ⟨d, hd, hbreak⟩ := h
      have hd' : d ∈ text := by
        rcases mem_cons.mp hd with rfl | hd
        · rw [hc] at hbreak
          cases hbreak
        · exact hd
      obtain ⟨line, ending, rest, rfl, hline, hending⟩ := ih ⟨d, hd', hbreak⟩
      refine ⟨c :: line, ending, rest, rfl, ?_, hending⟩
      intro e he
      rcases mem_cons.mp he with rfl | he
      · exact hc
      · exact hline e he

theorem consumeLine_some (h : consumeLine text = some (line, rest)) :
    ∃ ending, text = line ++ (ending ++ rest) ∧ (∀ c ∈ line, isLineBreak c = false) ∧
      Break ending rest := by
  by_cases hbreak : ∃ c ∈ text, isLineBreak c = true
  · obtain ⟨line', ending, rest', rfl, hline, hending⟩ := exists_break hbreak
    rw [consumeLine_break hline hending] at h
    cases h
    exact ⟨ending, rfl, hline, hending⟩
  · have hnone : ∀ c ∈ text, isLineBreak c = false := by
      intro c hc
      rw [Bool.eq_false_iff]
      exact fun htrue => hbreak ⟨c, hc, htrue⟩
    rw [consumeLine_of_forall hnone] at h
    cases h

theorem consumeLine_lawful : Incremental.Lawful consumeLine Apart where
  shrinks := by
    intro text line rest h
    obtain ⟨ending, rfl, _, hending⟩ := consumeLine_some h
    rw [length_append, length_append]
    cases hending <;> simp only [length_cons] <;> omega
  stable := by
    intro text line rest more h hapart
    obtain ⟨ending, rfl, hline, hending⟩ := consumeLine_some h
    rw [append_assoc, append_assoc]
    apply consumeLine_break hline
    cases hending with
    | newline => exact .newline _
    | pair => exact .pair _
    | carriageReturn _ hrest =>
      refine .carriageReturn _ ?_
      cases rest with
      | nil =>
        intro hmore
        exact hapart ⟨by simp, hmore⟩
      | cons c rest => exact hrest
  safe_rest := by
    intro text line rest more h hapart
    obtain ⟨ending, rfl, _, _⟩ := consumeLine_some h
    rintro ⟨hlast, hmore⟩
    refine hapart ⟨?_, hmore⟩
    rw [← append_assoc, getLast?_append, hlast]
    rfl

theorem drain_carriageReturn (h : text.getLast? = some '\r') :
    (drain consumeLine text).2 = [] ∧
      drain consumeLine (text ++ ['\n']) = drain consumeLine text := by
  induction text using consumeLine_lawful.induction with
  | hnone text hstep =>
    have hbreak := consumeLine_none hstep '\r' (mem_of_getLast? h)
    exact absurd hbreak (by decide)
  | hsome text line rest hstep ih =>
    obtain ⟨ending, rfl, hline, hending⟩ := consumeLine_some hstep
    rcases eq_nil_or_concat rest with rfl | ⟨init, last, hrest⟩
    · have hpair : consumeLine (line ++ (ending ++ []) ++ ['\n']) = some (line, []) := by
        cases hending with
        | newline | pair => simp at h
        | carriageReturn =>
          rw [append_assoc]
          exact consumeLine_break hline (.pair [])
      rw [consumeLine_lawful.drain_some hstep, consumeLine_lawful.drain_some hpair]
      exact ⟨rfl, rfl⟩
    · have hlast : rest.getLast? = some '\r' := by
        rw [hrest, concat_eq_append] at h ⊢
        simpa using h
      obtain ⟨htail, hlines⟩ := ih hlast
      have hmore : consumeLine (line ++ (ending ++ rest) ++ ['\n']) =
          some (line, rest ++ ['\n']) := by
        rw [append_assoc, append_assoc]
        apply consumeLine_break hline
        cases hending with
        | newline => exact .newline _
        | pair => exact .pair _
        | carriageReturn _ hhead =>
          refine .carriageReturn _ ?_
          rw [head?_append_of_ne_nil _ (by simp [hrest])]
          exact hhead
      rw [consumeLine_lawful.drain_some hstep, consumeLine_lawful.drain_some hmore, hlines]
      exact ⟨htail, rfl⟩

end Lines
section Text

theorem decodeSseLines_append (lines more : List Line) (state : SseDecoderState) :
    decodeSseLines (lines ++ more) state =
      ((decodeSseLines lines state).1 ++
          (decodeSseLines more (decodeSseLines lines state).2).1,
        (decodeSseLines more (decodeSseLines lines state).2).2) := by
  induction lines generalizing state with
  | nil => rfl
  | cons line lines ih =>
    simp only [cons_append, decodeSseLines, ih, append_assoc]

/-- The generator has read the text: its lines are decoded and the rest is in the buffer. -/
structure Reads (text : List Char) (iteration : Iteration) : Prop where
  buffer : iteration.buffer = (drain consumeLine text).2
  decoded : decodeSseLines (drain consumeLine text).1 {} =
    (iteration.yielded, iteration.state)

theorem reads_start : Reads [] {} := ⟨rfl, rfl⟩

variable {text more : List Char} {iteration : Iteration}

theorem consumeText_reads (h : Reads text iteration) (hapart : Apart text more) :
    Reads (text ++ more) (consumeText iteration more) := by
  have happend := consumeLine_lawful.drain_append hapart
  have hdecode := decodeSseLines_append (drain consumeLine text).1
    (drain consumeLine ((drain consumeLine text).2 ++ more)).1 {}
  rw [h.decoded] at hdecode
  constructor
  · rw [happend, ← h.buffer]
    rfl
  · rw [happend, hdecode, ← h.buffer]
    rfl

theorem consumeText_reads_split (h : Reads text iteration) (hlast : text.getLast? = some '\r') :
    Reads (text ++ '\n' :: more) (consumeText iteration more) := by
  obtain ⟨htail, hlines⟩ := drain_carriageReturn hlast
  have hreads : Reads (text ++ ['\n']) iteration :=
    ⟨by rw [hlines]; exact h.buffer, by rw [hlines]; exact h.decoded⟩
  have hapart : Apart (text ++ ['\n']) more := by
    rintro ⟨hend, _⟩
    simp at hend
  have hmore := consumeText_reads hreads hapart
  rwa [append_assoc] at hmore

end Text

section Bytes

/-- The chunk behind the bytes, with one more LF when the boundary cuts a CRLF pair. -/
def extend (bytes chunk : List UInt8) : List UInt8 :=
  if bytes.getLast? = some 0x0D ∧ chunk.head? = some 0x0A then bytes ++ 0x0A :: chunk
  else bytes ++ chunk

/-- All chunks as one, with one more LF after each CRLF pair that a boundary cuts. -/
def withSplitPairs (body : List (List UInt8)) : List UInt8 := body.foldl extend []

def decoded (bytes : List UInt8) : List Char × List UInt8 :=
  drain Utf8.replaceStep bytes

theorem decoded_append (bytes more : List UInt8) :
    decoded (bytes ++ more) =
      ((decoded bytes).1 ++ (decoded ((decoded bytes).2 ++ more)).1,
        (decoded ((decoded bytes).2 ++ more)).2) :=
  Utf8.replaceStep_lawful.drain_append trivial

theorem decoded_newline (bytes : List UInt8) :
    decoded (0x0A :: bytes) = ('\n' :: (decoded bytes).1, (decoded bytes).2) :=
  Utf8.replaceStep_lawful.drain_some rfl

structure Received (bytes : List UInt8) (iteration : Iteration) : Prop where
  decoder : iteration.decoder = (decoded bytes).2
  reads : Reads (decoded bytes).1 iteration

variable {bytes : List UInt8} {iteration : Iteration}

theorem getLast?_decoded (h : bytes.getLast? = some 0x0D) :
    (decoded bytes).1.getLast? = some '\r' ∧ (decoded bytes).2 = [] := by
  obtain ⟨init, rfl⟩ := getLast?_eq_some_iff.mp h
  have hascii : (0x0D : UInt8).toNat < 0x80 := by decide
  obtain ⟨text, htext⟩ := Utf8.drain_concat_ascii init hascii
  rw [decoded, htext]
  exact ⟨getLast?_concat, rfl⟩

variable {chunk : List UInt8} {body : List (List UInt8)}

/-- A CRLF that a boundary cuts in the text is one that it cuts in the bytes. -/
theorem apart_of_bytes (h : ¬ (bytes.getLast? = some 0x0D ∧ chunk.head? = some 0x0A)) :
    Apart (decoded bytes).1 (decoded ((decoded bytes).2 ++ chunk)).1 := by
  rintro ⟨hlast, hhead⟩
  obtain ⟨text, htext⟩ := getLast?_eq_some_iff.mp hlast
  obtain ⟨more, hmore⟩ := head?_eq_some_iff.mp hhead
  have hpending : Utf8.NonAscii (decoded bytes).2 :=
    Utf8.replaceStep_none (Utf8.replaceStep_lawful.step_tail bytes)
  have hnext : drain Utf8.replaceStep ((decoded bytes).2 ++ chunk) =
      ('\n' :: more, (decoded ((decoded bytes).2 ++ chunk)).2) := Prod.ext hmore rfl
  obtain ⟨rest, hrest⟩ := Utf8.drain_head_ascii hnext (by decide)
  cases hempty : (decoded bytes).2 with
  | nil =>
    rw [hempty] at hrest
    have hbytes : drain Utf8.replaceStep bytes = (text ++ ['\r'], []) :=
      Prod.ext htext hempty
    obtain ⟨init, hinit⟩ := Utf8.drain_last_ascii hbytes (by decide)
    refine h ⟨?_, ?_⟩
    · rw [hinit]
      exact getLast?_concat
    · rw [nil_append] at hrest
      rw [hrest]
      rfl
  | cons first pending =>
    rw [hempty] at hrest hpending
    have hge := hpending first mem_cons_self
    rw [(cons.inj hrest).1] at hge
    exact absurd hge (by decide)

theorem receive_received (h : Received bytes iteration) :
    Received (extend bytes chunk) (receive iteration chunk) := by
  have hreads : Reads (decoded bytes).1
      { iteration with decoder := (decoded ((decoded bytes).2 ++ chunk)).2 } :=
    ⟨h.reads.buffer, h.reads.decoded⟩
  have hreceive : receive iteration chunk =
      consumeText { iteration with decoder := (decoded ((decoded bytes).2 ++ chunk)).2 }
        (decoded ((decoded bytes).2 ++ chunk)).1 := by
    rw [receive, h.decoder]
    rfl
  rw [hreceive, extend]
  split
  · rename_i hsplit
    obtain ⟨hlast, hpending⟩ := getLast?_decoded hsplit.1
    have hdecoded := decoded_append bytes (0x0A :: chunk)
    rw [hpending, nil_append, decoded_newline] at hdecoded
    rw [hpending, nil_append] at hreads ⊢
    exact ⟨by rw [hdecoded]; rfl, by rw [hdecoded]; exact consumeText_reads_split hreads hlast⟩
  · rename_i hsplit
    have hdecoded := decoded_append bytes chunk
    exact ⟨by rw [hdecoded]; rfl,
      by rw [hdecoded]; exact consumeText_reads hreads (apart_of_bytes hsplit)⟩

theorem foldl_received (body : List (List UInt8)) (h : Received bytes iteration) :
    Received (body.foldl extend bytes) (body.foldl receive iteration) := by
  induction body generalizing bytes iteration with
  | nil => exact h
  | cons chunk body ih => exact ih (receive_received h)

/-- The events of a whole text: its lines, an unfinished line, an unfinished event. -/
def eventsOf (text : List Char) : List ServerSentEvent :=
  let (lines, buffer) := drain consumeLine text
  let (events, state) := decodeSseLines lines {}
  let (event, state) := if buffer.isEmpty then (none, state) else decodeSseLine buffer state
  events ++ event.toList ++ (flushSseEvent state).1.toList

theorem finish_eq (h : Received bytes iteration) :
    finish iteration = eventsOf (Utf8.decodeReplace bytes) := by
  have hapart : Apart (decoded bytes).1 (Utf8.flushPending (decoded bytes).2) := by
    rintro ⟨_, hhead⟩
    unfold Utf8.flushPending at hhead
    split at hhead
    · cases hhead
    · split at hhead <;> exact absurd hhead (by decide)
    · exact absurd hhead (by decide)
  have hreads := consumeText_reads h.reads hapart
  rw [finish, h.decoder]
  change _ = eventsOf ((decoded bytes).1 ++ Utf8.flushPending (decoded bytes).2)
  simp only [eventsOf, ← hreads.buffer, hreads.decoded]

theorem iterateSseMessages_eq (body : List (List UInt8)) :
    iterateSseMessages body = eventsOf (Utf8.decodeReplace (withSplitPairs body)) := by
  have hstart : Received [] {} := ⟨rfl, reads_start⟩
  exact finish_eq (foldl_received body hstart)

/-- No chunk boundary falls between the CR and the LF of a CRLF pair. -/
def KeepsPairs (body : List (List UInt8)) : Prop :=
  ∀ before after, body = before ++ after →
    ¬ (before.flatten.getLast? = some 0x0D ∧ after.flatten.head? = some 0x0A)

theorem foldl_extend_of_keepsPairs (h : KeepsPairs body) (before after : List (List UInt8))
    (hbody : body = before ++ after) : after.foldl extend before.flatten = body.flatten := by
  induction after generalizing before with
  | nil => rw [hbody, append_nil, foldl_nil]
  | cons chunk after ih =>
    have hchunk : extend before.flatten chunk = (before ++ [chunk]).flatten := by
      have hkeeps := h before (chunk :: after) hbody
      rw [extend, if_neg, flatten_append, flatten_singleton]
      rintro ⟨hlast, hhead⟩
      refine hkeeps ⟨hlast, ?_⟩
      rw [flatten_cons, head?_append, hhead]
      rfl
    rw [foldl_cons, hchunk]
    exact ih (before ++ [chunk]) (by rw [hbody, append_assoc]; rfl)

theorem withSplitPairs_of_keepsPairs (h : KeepsPairs body) : withSplitPairs body = body.flatten :=
  foldl_extend_of_keepsPairs h [] body rfl

theorem withSplitPairs_singleton (bytes : List UInt8) : withSplitPairs [bytes] = bytes := by
  rw [withSplitPairs, foldl_cons, foldl_nil, extend, if_neg]
  · rfl
  · rintro ⟨hlast, _⟩
    cases hlast

end Bytes

/-- However the bytes are split, the events are those of one chunk that has one more LF
after each CRLF pair that a boundary cuts. -/
theorem iterateSseMessages_chunks (body : List (List UInt8)) :
    iterateSseMessages body = iterateSseMessages [withSplitPairs body] ∧
      (KeepsPairs body → iterateSseMessages body = iterateSseMessages [body.flatten]) := by
  have hwhole : ∀ bytes, iterateSseMessages [bytes] = eventsOf (Utf8.decodeReplace bytes) := by
    intro bytes
    rw [iterateSseMessages_eq, withSplitPairs_singleton]
  refine ⟨?_, fun hkeeps => ?_⟩
  · rw [hwhole, iterateSseMessages_eq]
  · rw [hwhole, iterateSseMessages_eq, withSplitPairs_of_keepsPairs hkeeps]

/-- `data: è` and its blank line, cut inside the two bytes of the letter. -/
theorem iterateSseMessages_chunks_letter :
    iterateSseMessages [[100, 97, 116, 97, 58, 32, 0xC3], [0xA8, 13, 10, 13, 10]] =
      iterateSseMessages [[100, 97, 116, 97, 58, 32, 0xC3, 0xA8, 13, 10, 13, 10]] := by
  apply (iterateSseMessages_chunks _).2
  rintro before after hbody
  match before, hbody with
  | [], _ => simp
  | [first], hbody =>
    cases hbody
    decide
  | first :: second :: before, hbody =>
    have hafter : before ++ after = [] := (cons.inj (cons.inj hbody).2).2.symm
    obtain ⟨_, rfl⟩ := append_eq_nil_iff.mp hafter
    simp

/-- `event: a` with its CRLF cut by a boundary: the LF flushes the event before its data. -/
theorem splitPair_flushes_early : ¬ ∀ body : List (List UInt8),
    iterateSseMessages body = iterateSseMessages [body.flatten] := by
  intro h
  have hsplit := h [[101, 118, 101, 110, 116, 58, 32, 97, 13],
    [10, 100, 97, 116, 97, 58, 32, 120, 13, 10, 13, 10]]
  revert hsplit
  decide

end Pidrei.SseChunking
