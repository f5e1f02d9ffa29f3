import Pidrei.OutputAccumulator

/-!
What the accumulator knows of the text streamed into it: its size and its lines,
and a tail of it that was cut, if at all, at a character which would not have
fitted any more.
-/
namespace Pidrei.OutputAccumulator

open Truncate List
open Incremental (drain drain_none)

theorem byteLength_append (xs ys : List Char) :
    byteLength (xs ++ ys) = byteLength xs + byteLength ys := by
  rw [byteLength, Utf8.encode_append, length_append]
  rfl

theorem byteLength_cons (c : Char) (text : List Char) :
    byteLength (c :: text) = c.utf8Size + byteLength text := by
  rw [byteLength, Utf8.encode_cons, length_append, String.length_utf8EncodeChar]
  rfl

/-- The tail of a text is all of it, or what is left after a character that was cut away
because it would have made the tail longer than the limit. -/
inductive Kept (limit : ℤ) (tail : List Char) : Bool → List Char → Prop
  | whole : Kept limit tail true tail
  | cut (front : List Char) (c : Char) (h : limit < byteLength (c :: tail)) :
      Kept limit tail (c = '\n') (front ++ c :: tail)

variable {text : List Char} {limit : ℤ} {flag : Bool} {s : Accumulator}

theorem Kept.append {tail : List Char} (h : Kept limit tail flag text) (more : List Char) :
    Kept limit (tail ++ more) flag (text ++ more) := by
  cases h with
  | whole => exact Kept.whole
  | cut front c h =>
    rw [append_assoc, cons_append]
    apply Kept.cut
    rw [← cons_append, byteLength_append]
    omega

theorem Kept.drop {front back : List Char} {c : Char}
    (h : Kept limit (front ++ c :: back) flag text) (hcut : limit < byteLength (c :: back)) :
    Kept limit back (c = '\n') text := by
  cases h with
  | whole => exact Kept.cut front c hcut
  | cut before d _ =>
    have happend : before ++ d :: (front ++ c :: back) = (before ++ d :: front) ++ c :: back := by
      simp
    rw [happend]
    exact Kept.cut _ c hcut

/-- What the accumulator has recorded of the text so far. -/
structure Follows (s : Accumulator) (text : List Char) : Prop where
  total : s.totalDecodedBytes = byteLength text
  completed : s.completedLines = text.count '\n'
  openLine : s.hasOpenLine = true ↔ text ≠ [] ∧ text.getLast? ≠ some '\n'
  lines : s.totalLines = s.completedLines + if s.hasOpenLine then 1 else 0
  tailBytes : s.tailBytes = byteLength s.tailText
  kept : Kept (maxRollingBytes s) s.tailText s.tailStartsAtLineBoundary text

theorem follows_create (maxLines maxBytes : Option ℤ) : Follows (create maxLines maxBytes) [] where
  total := rfl
  completed := rfl
  openLine := by simp [create]
  lines := rfl
  tailBytes := rfl
  kept := Kept.whole

theorem trimTail_cut {s : Accumulator} (h : maxRollingBytes s < byteLength s.tailText) :
    ∃ front c back, s.tailText = front ++ c :: back ∧
      maxRollingBytes s < byteLength (c :: back) ∧
      trimTail s = { s with
        tailStartsAtLineBoundary := c = '\n', tailText := back, tailBytes := byteLength back } := by
  have hlimit : 0 < maxRollingBytes s := by
    unfold maxRollingBytes
    omega
  have hlong : maxRollingBytes s < (Utf8.encode s.tailText).length := h
  have hstart : 0 < (Utf8.encode s.tailText).length - (maxRollingBytes s).toNat := by omega
  obtain ⟨front, c, back, htext, hboundary, hcut⟩ := Utf8.boundary_encode hstart (Nat.sub_le _ _)
  have hback : maxRollingBytes s < byteLength (c :: back) := by
    change maxRollingBytes s < (Utf8.encode (c :: back)).length
    omega
  refine ⟨front, c, back, htext, hback, ?_⟩
  have hbytes : Utf8.encode s.tailText = Utf8.encode (front ++ [c]) ++ Utf8.encode back := by
    rw [← Utf8.encode_append, htext, append_assoc, singleton_append]
  have hpos : 0 < (Utf8.encode (front ++ [c])).length := by
    have hsize := Char.utf8Size_pos c
    rw [Utf8.encode_append, length_append]
    have hone : (Utf8.encode [c]).length = c.utf8Size + 0 := byteLength_cons c []
    omega
  have hlast : (Utf8.encode s.tailText)[(Utf8.encode (front ++ [c])).length - 1]? = some 0x0A ↔
      c = '\n' := by
    rw [hbytes, getElem?_append_left (by omega), ← getLast?_eq_getElem?]
    exact Utf8.getLast?_encode front c
  have hdrop : (Utf8.encode s.tailText).drop (Utf8.encode (front ++ [c])).length =
      Utf8.encode back := by
    rw [hbytes, drop_left]
  unfold trimTail
  simp only [if_neg (Int.not_le.mpr hlong), hboundary, if_neg (Nat.ne_of_gt hpos), hlast, hdrop,
    Utf8.decodeReplace_encode]

theorem extendTail_follows (hbytes : s.tailBytes = byteLength s.tailText)
    (hkept : Kept (maxRollingBytes s) s.tailText s.tailStartsAtLineBoundary text)
    (more : List Char) : ∃ tail flag, Kept (maxRollingBytes s) tail flag (text ++ more) ∧
      extendTail s more = { s with
        totalDecodedBytes := s.totalDecodedBytes + byteLength more
        tailText := tail
        tailBytes := byteLength tail
        tailStartsAtLineBoundary := flag } := by
  have hlimit : 0 < maxRollingBytes s := by
    unfold maxRollingBytes
    omega
  have hmore := hkept.append more
  have hsum : s.tailBytes + byteLength more = byteLength (s.tailText ++ more) := by
    rw [hbytes, byteLength_append]
  unfold extendTail
  simp only [hsum]
  split
  next hlong =>
    have hcut : maxRollingBytes s < byteLength (s.tailText ++ more) := by
      change maxRollingBytes s * 2 < byteLength (s.tailText ++ more) at hlong
      omega
    obtain ⟨front, c, back, htext, hback, htrim⟩ := @trimTail_cut { s with
      totalDecodedBytes := s.totalDecodedBytes + byteLength more
      tailText := s.tailText ++ more
      tailBytes := byteLength (s.tailText ++ more) } hcut
    change s.tailText ++ more = front ++ c :: back at htext
    rw [htext] at hmore
    exact ⟨back, c = '\n', hmore.drop hback, htrim⟩
  next => exact ⟨_, _, hmore, rfl⟩

theorem afterLastNewline_eq_nil_iff (h : text ≠ []) :
    afterLastNewline text = [] ↔ text.getLast? = some '\n' := by
  obtain ⟨front, c, rfl⟩ := (eq_nil_or_concat text).resolve_left h
  rw [concat_eq_append, getLast?_concat, afterLastNewline, reverse_eq_nil_iff,
    reverse_append, reverse_singleton, singleton_append, takeWhile_cons]
  by_cases hc : c = '\n'
  · simp [hc]
  · simp [hc]

/-- The settings and the decoder, which decoded text does not change. -/
structure SameSetup (s t : Accumulator) : Prop where
  maxLines : t.maxLines = s.maxLines
  maxBytes : t.maxBytes = s.maxBytes
  decoder : t.decoder = s.decoder
  finished : t.finished = s.finished

theorem appendDecodedText_follows (hs : Follows s text) (more : List Char) :
    Follows (appendDecodedText s more) (text ++ more) ∧
      SameSetup s (appendDecodedText s more) := by
  unfold appendDecodedText
  by_cases hmore : more = []
  · rw [if_pos hmore, hmore, append_nil]
    exact ⟨hs, rfl, rfl, rfl, rfl⟩
  · obtain ⟨tail, flag, hkept, hextend⟩ := extendTail_follows hs.tailBytes hs.kept more
    have htotal : byteLength (text ++ more) = s.totalDecodedBytes + byteLength more := by
      rw [byteLength_append, hs.total]
    have hlast : (text ++ more).getLast? = more.getLast? :=
      getLast?_append_of_ne_nil _ hmore
    have hne : text ++ more ≠ [] := append_ne_nil_of_right_ne_nil _ hmore
    rw [if_neg hmore, hextend]
    unfold countLines
    by_cases hnewlines : more.count '\n' = 0
    · have hopen : more.getLast? ≠ some '\n' := fun h =>
        absurd (mem_of_getLast? h) (count_eq_zero.mp hnewlines)
      simp only [if_pos hnewlines]
      refine ⟨⟨htotal.symm, ?_, ?_, rfl, rfl, hkept⟩, rfl, rfl, rfl, rfl⟩
      · rw [count_append, hnewlines, hs.completed, Nat.add_zero]
      · rw [hlast]
        exact ⟨fun _ => ⟨hne, hopen⟩, fun _ => rfl⟩
    · simp only [if_neg hnewlines]
      refine ⟨⟨htotal.symm, ?_, ?_, rfl, rfl, hkept⟩, rfl, rfl, rfl, rfl⟩
      · rw [count_append, hs.completed]
      · rw [hlast, decide_eq_true_eq, ne_eq, afterLastNewline_eq_nil_iff hmore]
        exact ⟨fun h => ⟨hne, h⟩, fun h => h.2⟩

section Runs

variable {s : Accumulator} {bytes : List UInt8}

theorem Follows.withFile (h : Follows s text) (raw : List (List UInt8))
    (file : Option (List (List UInt8))) :
    Follows { s with rawChunks := raw, tempFile := file } text :=
  ⟨h.total, h.completed, h.openLine, h.lines, h.tailBytes, h.kept⟩

theorem ensureTempFile_eq (s : Accumulator) :
    ∃ raw file, ensureTempFile s = { s with rawChunks := raw, tempFile := file } := by
  unfold ensureTempFile
  split
  · exact ⟨s.rawChunks, s.tempFile, rfl⟩
  · exact ⟨_, _, rfl⟩

theorem keepChunk_eq (s : Accumulator) (data : List UInt8) :
    ∃ raw file, keepChunk s data = { s with rawChunks := raw, tempFile := file } := by
  unfold keepChunk
  split
  · obtain ⟨raw, file, hensure⟩ := ensureTempFile_eq s
    exact ⟨raw, file.map (· ++ [data]), by rw [hensure]⟩
  · split
    · exact ⟨_, s.tempFile, rfl⟩
    · exact ⟨s.rawChunks, s.tempFile, rfl⟩

/-- An accumulator that is still open, after the bytes. -/
structure Receives (maxLines maxBytes : ℤ) (s : Accumulator) (bytes : List UInt8) : Prop where
  maxLines : s.maxLines = maxLines
  maxBytes : s.maxBytes = maxBytes
  isOpen : s.finished = false
  decoder : s.decoder = (drain Utf8.replaceStep bytes).2
  follows : Follows s (drain Utf8.replaceStep bytes).1

variable {maxLines maxBytes : ℤ}

theorem append_receives (hs : Receives maxLines maxBytes s bytes) (data : List UInt8) :
    ∃ t, append s data = .ok t ∧ Receives maxLines maxBytes t (bytes ++ data) := by
  have hdrain : drain Utf8.replaceStep (bytes ++ data) = _ :=
    Utf8.replaceStep_lawful.drain_append trivial
  rw [← hs.decoder] at hdrain
  set read := drain Utf8.replaceStep (s.decoder ++ data) with hread
  set received : Accumulator := { s with
    totalRawBytes := s.totalRawBytes + data.length, decoder := read.2 } with hreceived
  have hstart : Follows received _ :=
    ⟨hs.follows.total, hs.follows.completed, hs.follows.openLine, hs.follows.lines,
      hs.follows.tailBytes, hs.follows.kept⟩
  have happend : append s data = .ok (keepChunk (appendDecodedText received read.1) data) :=
    if_neg (by rw [hs.isOpen]; exact Bool.false_ne_true)
  obtain ⟨hfollows, hsetup⟩ := appendDecodedText_follows hstart read.1
  obtain ⟨raw, file, hkeep⟩ := keepChunk_eq (appendDecodedText received read.1) data
  refine ⟨_, happend, ?_⟩
  rw [hkeep]
  refine ⟨hsetup.maxLines.trans hs.maxLines, hsetup.maxBytes.trans hs.maxBytes,
    hsetup.finished.trans hs.isOpen, ?_, ?_⟩
  · rw [hdrain]
    exact hsetup.decoder
  · rw [hdrain]
    exact hfollows.withFile raw file

theorem foldlM_receives (hs : Receives maxLines maxBytes s bytes) (chunks : List (List UInt8)) :
    ∃ t, chunks.foldlM append s = .ok t ∧
      Receives maxLines maxBytes t (bytes ++ chunks.flatten) := by
  induction chunks generalizing s bytes with
  | nil => exact ⟨s, rfl, by rwa [flatten_nil, append_nil]⟩
  | cons data chunks ih =>
    obtain ⟨t, happend, ht⟩ := append_receives hs data
    obtain ⟨u, hfold, hu⟩ := ih ht
    refine ⟨u, ?_, ?_⟩
    · rw [foldlM_cons, happend]
      exact hfold
    · rwa [flatten_cons, ← append_assoc]

theorem finish_follows (hs : Receives maxLines maxBytes s bytes) :
    Follows (finish s) (Utf8.decodeReplace bytes) ∧ (finish s).maxLines = maxLines ∧
      (finish s).maxBytes = maxBytes := by
  have hpending : Utf8.decodeReplace s.decoder =
      Utf8.flushPending (drain Utf8.replaceStep bytes).2 := by
    rw [hs.decoder, Utf8.decodeReplace, drain_none
      (Utf8.replaceStep_lawful.step_tail bytes)]
    exact nil_append _
  have hstart : Follows { s with finished := true, decoder := [] } _ :=
    ⟨hs.follows.total, hs.follows.completed, hs.follows.openLine, hs.follows.lines,
      hs.follows.tailBytes, hs.follows.kept⟩
  set ended := appendDecodedText { s with finished := true, decoder := [] }
    (Utf8.decodeReplace s.decoder) with hended
  obtain ⟨hfollows, hsetup⟩ :
      Follows ended (_ ++ Utf8.decodeReplace s.decoder) ∧ SameSetup _ ended :=
    appendDecodedText_follows hstart (Utf8.decodeReplace s.decoder)
  have hfinish : finish s = if shouldUseTempFile ended then ensureTempFile ended else ended :=
    if_neg (by rw [hs.isOpen]; exact Bool.false_ne_true)
  have hlines := hsetup.maxLines.trans hs.maxLines
  have hbytes := hsetup.maxBytes.trans hs.maxBytes
  rw [hpending] at hfollows
  rw [hfinish]
  by_cases hfile : shouldUseTempFile ended = true
  · obtain ⟨raw, file, hensure⟩ := ensureTempFile_eq ended
    rw [if_pos hfile, hensure]
    exact ⟨hfollows.withFile raw file, hlines, hbytes⟩
  · rw [if_neg hfile]
    exact ⟨hfollows, hlines, hbytes⟩

theorem stream_follows (maxLines maxBytes : Option ℤ) (chunks : List (List UInt8)) :
    ∃ s, stream (create maxLines maxBytes) chunks = .ok s ∧
      Follows s (Utf8.decodeReplace chunks.flatten) ∧
      s.maxLines = maxLines.getD defaultMaxLines ∧ s.maxBytes = maxBytes.getD defaultMaxBytes := by
  have hcreate : Receives (maxLines.getD defaultMaxLines) (maxBytes.getD defaultMaxBytes)
      (create maxLines maxBytes) [] := ⟨rfl, rfl, rfl, rfl, follows_create maxLines maxBytes⟩
  obtain ⟨s, hfold, hs⟩ := foldlM_receives hcreate chunks
  refine ⟨finish s, ?_, finish_follows hs⟩
  rw [stream, hfold]
  rfl

end Runs

end Pidrei.OutputAccumulator
