import Pidrei.OutputStream

/-!
The output that is kept for reading in full. Its chunks wait in memory until a limit is
exceeded or a shortened snapshot is to be persisted, and are in the temp file from then
on. Reading gives all of it, or its first and last bytes around a marker; closing the
temp file only ends its writer.
-/
namespace Pidrei.OutputAccumulator

open List
open Incremental (drain)

structure FullOutput where
  content : List Char
  truncated : Bool
  deriving DecidableEq

/-- `file.read(count)` at a position; a negative count reads to the end. -/
def readAt (bytes : List UInt8) (position count : ℤ) : List UInt8 :=
  if count < 0 then bytes.drop position.toNat
  else (bytes.drop position.toNat).take count.toNat

def strInt : ℤ → List Char
  | .ofNat n => PythonText.str n
  | .negSucc n => '-' :: PythonText.str (n + 1)

def omissionMarker (omitted : ℤ) : List Char :=
  "\n\n[... ".toList ++ strInt omitted ++ " bytes omitted ...]\n\n".toList

def readHead (bytes : List UInt8) (maxBytes : ℤ) : List UInt8 := readAt bytes 0 (maxBytes / 2)

def readTail (bytes : List UInt8) (maxBytes : ℤ) : List UInt8 :=
  let tailBytes := maxBytes - maxBytes / 2
  readAt bytes (bytes.length - tailBytes) tailBytes

/-- The decoder holds an incomplete character at the end of the head back, and the tail begins
behind its continuation bytes. -/
def readFullOutputBlocking (bytes : List UInt8) (maxBytes : ℤ) : FullOutput :=
  if bytes.length ≤ maxBytes then ⟨Utf8.decodeReplace bytes, false⟩
  else
    let headText := (drain Utf8.replaceStep (readHead bytes maxBytes)).1
    let tailText := Utf8.decodeReplace ((readTail bytes maxBytes).dropWhile Utf8.isContinuation)
    let omitted := bytes.length - maxBytes / 2 - (maxBytes - maxBytes / 2)
    ⟨headText ++ omissionMarker omitted ++ tailText, true⟩

def readFullOutput (s : Accumulator) (maxBytes : ℤ) : FullOutput :=
  match s.tempFile with
  | none => ⟨Utf8.decodeReplace s.rawChunks.flatten, false⟩
  | some chunks => readFullOutputBlocking chunks.flatten maxBytes

section Sessions

inductive Call
  | append (data : List UInt8)
  | snapshot (persistIfTruncated : Bool)

def Call.data : Call → List UInt8
  | .append data => data
  | .snapshot _ => []

def Call.run (s : Accumulator) : Call → Except String Accumulator
  | .append data => OutputAccumulator.append s data
  | .snapshot persistIfTruncated => .ok (OutputAccumulator.snapshot s persistIfTruncated).2

/-- A limit is exceeded at an append, or a snapshot is truncated and persisted. -/
def Call.triggers (s t : Accumulator) : Call → Prop
  | .append _ => shouldUseTempFile t = true
  | .snapshot persistIfTruncated => persistIfTruncated = true ∧
    (OutputAccumulator.snapshot s persistIfTruncated).1.truncated = true

def Triggered (s : Accumulator) : List Call → Prop
  | [] => False
  | call :: calls => ∃ t, call.run s = .ok t ∧ (call.triggers s t ∨ Triggered t calls)

def keptBytes (s : Accumulator) : List UInt8 := (s.tempFile.getD s.rawChunks).flatten

/-- The bytes so far are kept, and what is in the temp file is no longer in memory. -/
structure Keeps (s : Accumulator) (bytes : List UInt8) : Prop where
  kept : keptBytes s = bytes
  moved : s.tempFile.isSome = true → s.rawChunks = []

variable {s t : Accumulator} {bytes : List UInt8}

theorem appendDecodedText_files (s : Accumulator) (text : List Char) :
    (appendDecodedText s text).tempFile = s.tempFile ∧
      (appendDecodedText s text).rawChunks = s.rawChunks := by
  unfold appendDecodedText countLines extendTail trimTail
  dsimp only
  split_ifs <;> exact ⟨rfl, rfl⟩

theorem Keeps.ensure (h : Keeps s bytes) : Keeps (ensureTempFile s) bytes := by
  unfold ensureTempFile
  cases hfile : s.tempFile with
  | some chunks => exact h
  | none =>
    refine ⟨?_, fun _ => rfl⟩
    have hkept := h.kept
    rw [keptBytes, hfile] at hkept
    exact hkept

theorem ensureTempFile_isSome (s : Accumulator) : (ensureTempFile s).tempFile.isSome = true := by
  unfold ensureTempFile
  cases hfile : s.tempFile with
  | some chunks =>
    dsimp only
    rw [hfile]
    rfl
  | none => rfl

theorem Keeps.keepChunk (h : Keeps s bytes) (data : List UInt8) :
    Keeps (keepChunk s data) (bytes ++ data) := by
  unfold OutputAccumulator.keepChunk
  split_ifs with hfile hdata
  · have hensure := h.ensure
    obtain ⟨chunks, hchunks⟩ := Option.isSome_iff_exists.mp (ensureTempFile_isSome s)
    have hkept := hensure.kept
    rw [keptBytes, hchunks, Option.getD_some] at hkept
    refine ⟨?_, fun _ => hensure.moved (ensureTempFile_isSome s)⟩
    rw [keptBytes]
    dsimp only
    rw [hchunks, Option.map_some, Option.getD_some, flatten_append, hkept, flatten_singleton]
  · have hnone : s.tempFile = none := by
      cases hsome : s.tempFile with
      | none => rfl
      | some chunks =>
        rw [hsome] at hfile
        exact absurd rfl hfile
    have hkept := h.kept
    rw [keptBytes, hnone, Option.getD_none] at hkept
    refine ⟨?_, fun hsome => ?_⟩
    · rw [keptBytes]
      dsimp only
      rw [hnone, Option.getD_none, flatten_append, hkept, flatten_singleton]
    · rw [hnone] at hsome
      cases hsome
  · rw [not_not.mp hdata, append_nil]
    exact h

theorem keepChunk_isSome (s : Accumulator) (data : List UInt8)
    (h : s.tempFile.isSome = true ∨ shouldUseTempFile s = true) :
    (keepChunk s data).tempFile.isSome = true := by
  unfold keepChunk
  rw [if_pos (Bool.or_eq_true_iff.mpr h)]
  dsimp only
  rw [Option.isSome_map]
  exact ensureTempFile_isSome s

/-- What a call leaves: its bytes are kept, a temp file stays one, and a trigger makes one. -/
structure Persists (s t : Accumulator) (call : Call) : Prop where
  keeps : ∀ bytes, Keeps s bytes → Keeps t (bytes ++ call.data)
  stays : s.tempFile.isSome = true → t.tempFile.isSome = true
  triggers : call.triggers s t → t.tempFile.isSome = true

theorem run_persists {call : Call} (h : call.run s = .ok t) : Persists s t call := by
  cases call with
  | append data =>
    have happend : OutputAccumulator.append s data = .ok t := h
    unfold OutputAccumulator.append at happend
    split_ifs at happend
    cases happend
    set received : Accumulator := { s with
      totalRawBytes := s.totalRawBytes + data.length
      decoder := (drain Utf8.replaceStep (s.decoder ++ data)).2 }
    set decoded := appendDecodedText received
      (drain Utf8.replaceStep (s.decoder ++ data)).1
    obtain ⟨hfile, hraw⟩ : decoded.tempFile = s.tempFile ∧ decoded.rawChunks = s.rawChunks :=
      appendDecodedText_files received _
    refine ⟨fun bytes hkeeps => ?_, fun hsome => ?_, fun htrigger => ?_⟩
    · have hdecoded : Keeps decoded bytes := by
        refine ⟨?_, fun hsome => ?_⟩
        · rw [keptBytes, hfile, hraw]
          exact hkeeps.kept
        · rw [hfile] at hsome
          rw [hraw]
          exact hkeeps.moved hsome
      exact hdecoded.keepChunk data
    · refine keepChunk_isSome decoded data (.inl ?_)
      rw [hfile]
      exact hsome
    · refine keepChunk_isSome decoded data (.inr ?_)
      obtain ⟨raw, file, heq⟩ := keepChunk_eq decoded data
      have hexceeded : shouldUseTempFile (keepChunk decoded data) = true := htrigger
      rw [heq] at hexceeded
      exact hexceeded
  | snapshot persistIfTruncated =>
    have hsnapshot : (OutputAccumulator.snapshot s persistIfTruncated).2 = t := Except.ok.inj h
    have hstate : (OutputAccumulator.snapshot s persistIfTruncated).2 =
        if persistIfTruncated && (OutputAccumulator.snapshot s persistIfTruncated).1.truncated then
          ensureTempFile s
        else s := rfl
    rw [hstate] at hsnapshot
    subst hsnapshot
    refine ⟨fun bytes hkeeps => ?_, fun hsome => ?_, fun htrigger => ?_⟩
    · rw [Call.data, append_nil]
      split_ifs
      · exact hkeeps.ensure
      · exact hkeeps
    · split_ifs
      · exact ensureTempFile_isSome s
      · exact hsome
    · rw [if_pos (Bool.and_eq_true_iff.mpr htrigger)]
      exact ensureTempFile_isSome s

theorem foldlM_persists {calls : List Call} (h : calls.foldlM Call.run s = .ok t)
    (hs : Keeps s bytes) : Keeps t (bytes ++ calls.flatMap Call.data) ∧
      (s.tempFile.isSome = true ∨ Triggered s calls → t.tempFile.isSome = true) := by
  induction calls generalizing s bytes with
  | nil =>
    cases h
    refine ⟨by rw [flatMap_nil, append_nil]; exact hs, fun hfile => ?_⟩
    cases hfile with
    | inl hsome => exact hsome
    | inr htriggered => exact htriggered.elim
  | cons call calls ih =>
    rw [foldlM_cons] at h
    cases hrun : call.run s with
    | error message =>
      rw [hrun] at h
      cases h
    | ok u =>
      rw [hrun] at h
      have hpersists := run_persists hrun
      obtain ⟨hkeeps, hfile⟩ := ih h (hpersists.keeps bytes hs)
      rw [flatMap_cons, ← append_assoc]
      refine ⟨hkeeps, fun hsome => hfile ?_⟩
      cases hsome with
      | inl hsome => exact .inl (hpersists.stays hsome)
      | inr htriggered =>
        obtain ⟨v, hv, hlater⟩ := htriggered
        obtain rfl := Except.ok.inj (hrun.symm.trans hv)
        cases hlater with
        | inl hnow => exact .inl (hpersists.triggers hnow)
        | inr hrest => exact .inr hrest

theorem Keeps.finish (h : Keeps s bytes) : Keeps (finish s) bytes := by
  unfold OutputAccumulator.finish
  split_ifs
  · exact h
  · dsimp only
    set decoded := appendDecodedText { s with finished := true, decoder := [] }
      (Utf8.decodeReplace s.decoder)
    obtain ⟨hfile, hraw⟩ : decoded.tempFile = s.tempFile ∧ decoded.rawChunks = s.rawChunks :=
      appendDecodedText_files { s with finished := true, decoder := [] } _
    have hdecoded : Keeps decoded bytes := by
      refine ⟨?_, fun hsome => ?_⟩
      · rw [keptBytes, hfile, hraw]
        exact h.kept
      · rw [hfile] at hsome
        rw [hraw]
        exact h.moved hsome
    split_ifs
    · exact hdecoded.ensure
    · exact hdecoded

theorem finish_isSome (h : s.tempFile.isSome = true) : (finish s).tempFile.isSome = true := by
  unfold finish
  split_ifs
  · exact h
  · dsimp only
    split_ifs
    · exact ensureTempFile_isSome _
    · rw [(appendDecodedText_files _ _).1]
      exact h

/-- The calls, `finish`, and snapshots of the finished output. -/
def session (s : Accumulator) (calls : List Call) (final : List Bool) :
    Except String Accumulator := do
  let s ← calls.foldlM Call.run s
  (final.map Call.snapshot).foldlM Call.run (finish s)

theorem run_ok (h : s.finished = false) (call : Call) :
    ∃ t, call.run s = .ok t ∧ t.finished = false := by
  cases call with
  | append data =>
    refine ⟨_, if_neg (by rw [h]; exact Bool.false_ne_true), ?_⟩
    obtain ⟨raw, file, hkeep⟩ := keepChunk_eq (appendDecodedText _ _) data
    rw [hkeep]
    unfold appendDecodedText countLines extendTail trimTail
    dsimp only
    split_ifs <;> exact h
  | snapshot persistIfTruncated =>
    refine ⟨_, rfl, ?_⟩
    unfold snapshot
    dsimp only
    split_ifs
    · obtain ⟨raw, file, hensure⟩ := ensureTempFile_eq s
      rw [hensure]
      exact h
    · exact h

theorem foldlM_ok (h : s.finished = false) (calls : List Call) :
    ∃ t, calls.foldlM Call.run s = .ok t := by
  induction calls generalizing s with
  | nil => exact ⟨s, rfl⟩
  | cons call calls ih =>
    obtain ⟨t, hrun, ht⟩ := run_ok h call
    obtain ⟨u, hu⟩ := ih ht
    refine ⟨u, ?_⟩
    rw [foldlM_cons, hrun]
    exact hu

theorem snapshots_ok (s : Accumulator) (final : List Bool) :
    ∃ t, (final.map Call.snapshot).foldlM Call.run s = .ok t := by
  induction final generalizing s with
  | nil => exact ⟨s, rfl⟩
  | cons persistIfTruncated final ih =>
    obtain ⟨u, hu⟩ := ih (snapshot s persistIfTruncated).2
    refine ⟨u, ?_⟩
    rw [map_cons, foldlM_cons]
    exact hu

end Sessions

section Omission

theorem strInt_injective {m n : ℤ} (h : strInt m = strInt n) : m = n := by
  have hstr : ∀ {a b : ℕ}, PythonText.str a = PythonText.str b → a = b := by
    intro a b hab
    rw [← PythonText.int_str a, hab, PythonText.int_str]
  have hminus : ∀ {a b : ℕ}, PythonText.str a ≠ '-' :: PythonText.str b := by
    intro a b hab
    have hdigit := PythonText.isDigit_of_mem_str (n := a) (c := '-') (by rw [hab]; simp)
    revert hdigit
    decide
  cases m with
  | ofNat m =>
    cases n with
    | ofNat n => rw [hstr h]
    | negSucc n => exact absurd h hminus
  | negSucc m =>
    cases n with
    | ofNat n => exact absurd h.symm hminus
    | negSucc n =>
      have hsucc := hstr (cons.inj h).2
      rw [Nat.succ.inj hsucc]

theorem omissionMarker_injective {m n : ℤ} (h : omissionMarker m = omissionMarker n) : m = n := by
  unfold omissionMarker at h
  rw [append_assoc, append_assoc] at h
  exact strInt_injective (append_cancel_right (append_cancel_left h))

/-- The first bytes without an incomplete character at their end. -/
def shownHead (bytes : List UInt8) (maxBytes : ℤ) : List UInt8 :=
  let head := readHead bytes maxBytes
  head.take (head.length - (drain Utf8.replaceStep head).2.length)

def shownTail (bytes : List UInt8) (maxBytes : ℤ) : List UInt8 :=
  (readTail bytes maxBytes).dropWhile Utf8.isContinuation

/-- All the bytes, or a decoded prefix and a decoded suffix of them with the number of the bytes
between them. -/
def ShowsOutput (bytes : List UInt8) (maxBytes : ℤ) (output : FullOutput) : Prop :=
  if bytes.length ≤ maxBytes then output = ⟨Utf8.decodeReplace bytes, false⟩
  else ∃ head middle tail, bytes = head ++ middle ++ tail ∧ head = shownHead bytes maxBytes ∧
    tail = shownTail bytes maxBytes ∧
    output = ⟨Utf8.decodeReplace head ++ omissionMarker middle.length ++
      Utf8.decodeReplace tail, true⟩

/-- Neither end of the omission falls inside a character. -/
def CutsNoCharacter (bytes : List UInt8) (maxBytes : ℤ) : Prop :=
  (drain Utf8.replaceStep (readHead bytes maxBytes)).2 = [] ∧
    (readTail bytes maxBytes).takeWhile Utf8.isContinuation = []

/-- All the bytes fit, or they are in the temp file and are cut between characters. -/
def Readable (s : Accumulator) (bytes : List UInt8) (maxBytes : ℤ) : Prop :=
  bytes.length ≤ maxBytes ∨
    s.tempFile.isSome = true ∧ 0 ≤ maxBytes ∧ CutsNoCharacter bytes maxBytes

theorem shownHead_spec (bytes : List UInt8) (maxBytes : ℤ) :
    readHead bytes maxBytes = shownHead bytes maxBytes ++
        (drain Utf8.replaceStep (readHead bytes maxBytes)).2 ∧
      Utf8.decodeReplace (shownHead bytes maxBytes) =
        (drain Utf8.replaceStep (readHead bytes maxBytes)).1 := by
  obtain ⟨given, hhead, hdecode⟩ := Utf8.decodeReplace_given (readHead bytes maxBytes)
  have hcut : ∀ {head given pending : List UInt8}, head = given ++ pending →
      head.take (head.length - pending.length) = given := by
    intro head given pending heq
    rw [heq, length_append, Nat.add_sub_cancel, take_left]
  have htake : shownHead bytes maxBytes = given := hcut hhead
  rw [htake]
  exact ⟨hhead, hdecode⟩

variable {bytes : List UInt8} {maxBytes : ℤ}

theorem ends_split (h : maxBytes < bytes.length) :
    ∃ middle, bytes = readHead bytes maxBytes ++ middle ++ readTail bytes maxBytes ∧
      (0 ≤ maxBytes → (middle.length : ℤ) = bytes.length - maxBytes) := by
  by_cases hneg : maxBytes < 0
  · have hhead : readHead bytes maxBytes = bytes := by
      unfold readHead readAt
      rw [if_pos (by omega)]
      rfl
    have htail : readTail bytes maxBytes = [] := by
      unfold readTail readAt
      dsimp only
      split_ifs
      · exact drop_eq_nil_of_le (by omega)
      · rw [show (maxBytes - maxBytes / 2).toNat = 0 by omega]
        rfl
    exact ⟨[], by rw [hhead, htail, append_nil, append_nil], fun hpos => by omega⟩
  · obtain ⟨limit, rfl⟩ := Int.eq_ofNat_of_zero_le (Int.not_lt.mp hneg)
    have hsize : limit < bytes.length := by omega
    have hhead : readHead bytes limit = bytes.take (limit / 2) := by
      unfold readHead readAt
      rw [if_neg (by omega)]
      congr 1
    have htail : readTail bytes limit = bytes.drop (bytes.length - (limit - limit / 2)) := by
      unfold readTail readAt
      dsimp only
      rw [if_neg (by omega), take_of_length_le]
      · congr 1
        omega
      · rw [length_drop]
        omega
    refine ⟨(bytes.drop (limit / 2)).take (bytes.length - limit), ?_, fun _ => ?_⟩
    · rw [hhead, htail, append_assoc]
      have hdrop : bytes.drop (bytes.length - (limit - limit / 2)) =
          (bytes.drop (limit / 2)).drop (bytes.length - limit) := by
        rw [drop_drop]
        congr 1
        omega
      rw [hdrop, take_append_drop, take_append_drop]
    · rw [length_take, length_drop]
      omega

theorem readFullOutputBlocking_shows_iff :
    ShowsOutput bytes maxBytes (readFullOutputBlocking bytes maxBytes) ↔
      bytes.length ≤ maxBytes ∨ 0 ≤ maxBytes ∧ CutsNoCharacter bytes maxBytes := by
  unfold ShowsOutput readFullOutputBlocking
  split_ifs with hfits
  · exact ⟨fun _ => .inl hfits, fun _ => rfl⟩
  · obtain ⟨gap, hsplit, hgap⟩ := ends_split (Int.not_le.mp hfits)
    obtain ⟨hhead, hdecode⟩ := shownHead_spec bytes maxBytes
    have htail : readTail bytes maxBytes =
        (readTail bytes maxBytes).takeWhile Utf8.isContinuation ++ shownTail bytes maxBytes :=
      takeWhile_append_dropWhile.symm
    have hlength : bytes.length = (shownHead bytes maxBytes).length +
        (drain Utf8.replaceStep (readHead bytes maxBytes)).2.length + gap.length +
        ((readTail bytes maxBytes).takeWhile Utf8.isContinuation).length +
        (shownTail bytes maxBytes).length := by
      have hwhole := congrArg length hsplit
      rw [hhead, htail] at hwhole
      simp only [length_append] at hwhole
      omega
    constructor
    · rintro ⟨head, middle, tail, hbytes, rfl, rfl, houtput⟩
      have hsize := congrArg length hbytes
      simp only [length_append] at hsize
      have hcontent := congrArg FullOutput.content houtput
      dsimp only at hcontent
      rw [hdecode, append_assoc, append_assoc] at hcontent
      have hmarker := append_cancel_right (append_cancel_left hcontent)
      have homitted := omissionMarker_injective hmarker
      have hpos : 0 ≤ maxBytes := by omega
      have hmiddle := hgap hpos
      refine .inr ⟨hpos, eq_nil_of_length_eq_zero ?_, eq_nil_of_length_eq_zero ?_⟩
      · omega
      · omega
    · intro hcuts
      obtain ⟨hpos, hpending, hcontinued⟩ := hcuts.resolve_left hfits
      rw [hpending, append_nil] at hhead
      rw [hcontinued, nil_append] at htail
      refine ⟨shownHead bytes maxBytes, gap, shownTail bytes maxBytes, ?_, rfl, rfl, ?_⟩
      · rw [← hhead, ← htail]
        exact hsplit
      · have hcount : (bytes.length : ℤ) - maxBytes / 2 - (maxBytes - maxBytes / 2) =
            gap.length := by
          rw [hgap hpos]
          omega
        rw [hdecode, hcount]
        rfl

end Omission

structure KeepsOutput (start : Accumulator) (calls : List Call) (final : List Bool)
    (readBytes : ℤ) (s : Accumulator) : Prop where
  kept : keptBytes s = calls.flatMap Call.data
  file : ∀ ended, calls.foldlM Call.run start = .ok ended →
    Triggered start calls ∨ Triggered (finish ended) (final.map Call.snapshot) →
    s.tempFile.isSome = true
  shows : ShowsOutput (calls.flatMap Call.data) readBytes (readFullOutput s readBytes)

theorem readFullOutput_shows_iff {s : Accumulator} {bytes : List UInt8} {readBytes : ℤ}
    (h : keptBytes s = bytes) :
    ShowsOutput bytes readBytes (readFullOutput s readBytes) ↔ Readable s bytes readBytes := by
  unfold readFullOutput Readable
  unfold keptBytes at h
  cases hfile : s.tempFile with
  | some chunks =>
    rw [hfile, Option.getD_some] at h
    dsimp only
    rw [h, readFullOutputBlocking_shows_iff]
    simp only [Option.isSome_some, true_and]
  | none =>
    rw [hfile, Option.getD_none] at h
    dsimp only
    rw [h]
    unfold ShowsOutput
    split_ifs with hfits
    · exact ⟨fun _ => .inl hfits, fun _ => rfl⟩
    · refine ⟨?_, fun hread => ?_⟩
      · rintro ⟨head, middle, tail, _, _, _, houtput⟩
        exact nomatch congrArg FullOutput.truncated houtput
      · obtain ⟨hsome, _⟩ := hread.resolve_left hfits
        cases hsome

/-- In every session nothing is lost before it is persisted; what is read in full shows it exactly
when it fits, or is in the temp file and no character is cut. -/
theorem session_keepsOutput_iff (maxLines maxBytes : Option ℤ) (calls : List Call)
    (final : List Bool) (readBytes : ℤ) :
    ∃ s, session (create maxLines maxBytes) calls final = .ok s ∧
      (KeepsOutput (create maxLines maxBytes) calls final readBytes s ↔
        Readable s (calls.flatMap Call.data) readBytes) := by
  obtain ⟨ended, hcalls⟩ := foldlM_ok (s := create maxLines maxBytes) rfl calls
  obtain ⟨s, hfinal⟩ := snapshots_ok (finish ended) final
  have hsession : session (create maxLines maxBytes) calls final = .ok s := by
    rw [session, hcalls]
    exact hfinal
  have hcreate : Keeps (create maxLines maxBytes) [] := ⟨rfl, fun h => (nomatch h)⟩
  obtain ⟨hkeeps, hfile⟩ := foldlM_persists hcalls hcreate
  obtain ⟨hkept, hlater⟩ := foldlM_persists hfinal hkeeps.finish
  rw [nil_append] at hkept
  have hnone : (final.map Call.snapshot).flatMap Call.data = [] :=
    flatMap_eq_nil_iff.mpr fun call hcall => by
      obtain ⟨persistIfTruncated, _, rfl⟩ := mem_map.mp hcall
      rfl
  rw [hnone, append_nil] at hkept
  refine ⟨s, hsession, fun h => (readFullOutput_shows_iff hkept.kept).mp h.shows, fun hread => ?_⟩
  refine ⟨hkept.kept, fun other hother htriggered => hlater ?_,
    (readFullOutput_shows_iff hkept.kept).mpr hread⟩
  obtain rfl := Except.ok.inj (hcalls.symm.trans hother)
  cases htriggered with
  | inl hcall => exact .inl (finish_isSome (hfile (.inr hcall)))
  | inr hsnapshot => exact .inr hsnapshot

/-- Four bytes are to be read of six; both cuts fall inside a letter of two bytes, and the marker
does not count the bytes that are left of them. -/
theorem marker_counts_too_few : ∃ s,
    session (create none (some 4)) [.append [0x61, 0xC3, 0xA9, 0xC3, 0xA9, 0x62]] [true] = .ok s ∧
      readFullOutput s 4 = ⟨"a\n\n[... 2 bytes omitted ...]\n\nb".toList, true⟩ ∧
      ¬KeepsOutput (create none (some 4))
        [.append [0x61, 0xC3, 0xA9, 0xC3, 0xA9, 0x62]] [true] 4 s := by
  refine ⟨_, rfl, by decide +kernel, fun h => ?_⟩
  have hread := (readFullOutput_shows_iff h.kept).mp h.shows
  cases hread with
  | inl hfits => exact absurd hfits (by decide)
  | inr hcut =>
    have hpending := hcut.2.2.1
    revert hpending
    decide +kernel

end Pidrei.OutputAccumulator
