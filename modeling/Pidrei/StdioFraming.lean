import Pidrei.JsonRpc
import Pidrei.Library.PythonText
import Pidrei.Library.TextSearch
import Pidrei.Library.Utf8

/-!
The lines that a server writes to its stdout. Complete lines are taken off the buffer
after each chunk; a line over the limit is an error, and so is an unterminated rest
over the limit, which is thrown away. What follows of that line is then read as a
line of its own, so that the boundaries of the chunks matter for over-long lines.
-/
namespace Pidrei.Mcp

open Values PythonText List

abbrev Bytes := List UInt8

def newline : UInt8 := 10

inductive StdioEvent where
  | message (value : Value)
  | error

def takeLine (buffer : Bytes) : Option (Bytes × Bytes) :=
  (TextSearch.find [newline] buffer).map fun i => (buffer.take i, buffer.drop (i + 1))

/-- `text.removesuffix("\r")`. -/
def removeReturn (text : List Char) : List Char :=
  if text.getLast? = some '\r' then text.dropLast else text

section Reading

-- `parse_json` is `json.loads` without constants, `none` where it raises.
variable (parseJson : List Char → Option Value) (limit : ℕ)

/-- What is emitted for a complete line. -/
def handleLine (line : Bytes) : Option StdioEvent :=
  if limit < line.length then some .error
  else
    let text := removeReturn (Utf8.decodeReplace line)
    if stripped text = [] then none
    else
      match (parseJson text).bind parseJsonRpcMessage with
      | some message => some (.message message)
      | none => some .error

/-- `_handle_stdout`: the buffer afterwards, and what is emitted. -/
def handleStdout (buffer chunk : Bytes) : Bytes × List StdioEvent :=
  let (lines, rest) := Incremental.drain takeLine (buffer ++ chunk)
  let events := lines.filterMap (handleLine parseJson limit)
  if limit < rest.length then ([], events ++ [StdioEvent.error]) else (rest, events)

/-- All chunks that `_read_stdout` receives. -/
def readStdout : Bytes → List Bytes → List StdioEvent
  | _, [] => []
  | buffer, chunk :: chunks =>
    (handleStdout parseJson limit buffer chunk).2 ++
      readStdout (handleStdout parseJson limit buffer chunk).1 chunks

end Reading

def StdioEvent.message? : StdioEvent → Option Value
  | .message value => some value
  | .error => none

section Messages

variable (parseJson : List Char → Option Value) (limit : ℕ)

/-- The message that a line within the limit stands for. -/
def messageOf (line : Bytes) : Option Value :=
  let text := removeReturn (Utf8.decodeReplace line)
  if limit < line.length ∨ stripped text = [] then none
  else (parseJson text).bind parseJsonRpcMessage

def terminatedLines (stream : Bytes) : List Bytes := (Incremental.drain takeLine stream).1

def unterminated (stream : Bytes) : Bytes := (Incremental.drain takeLine stream).2

/-- Whenever a chunk ends inside a line with more than the limit in the buffer, what later chunks
bring of this line is no message within the limit. -/
def RestsSilent : Bytes → List Bytes → Prop
  | _, [] => True
  | buffer, chunk :: later =>
    if limit < (unterminated (buffer ++ chunk)).length then
      (∀ line rest, later.flatten = line ++ newline :: rest → newline ∉ line →
        messageOf parseJson limit line = none) ∧ RestsSilent [] later
    else RestsSilent (unterminated (buffer ++ chunk)) later

end Messages

theorem occursAt_singleton {b : UInt8} {text : Bytes} :
    (∃ position, TextSearch.OccursAt [b] text position) ↔ b ∈ text := by
  constructor
  · intro h
    obtain ⟨_, before, after, rfl, _⟩ := h
    simp
  · intro h
    obtain ⟨before, after, rfl⟩ := append_of_mem h
    exact ⟨before.length, before, after, rfl, rfl⟩

theorem takeLine_eq_none {buffer : Bytes} : takeLine buffer = none ↔ newline ∉ buffer := by
  rw [takeLine, Option.map_eq_none_iff, TextSearch.find_eq_none_iff, ← occursAt_singleton,
    not_exists]

theorem find_newline {line : Bytes} (h : newline ∉ line) (rest : Bytes) :
    TextSearch.find [newline] (line ++ newline :: rest) = some line.length := by
  induction line with
  | nil => simp [TextSearch.find]
  | cons b line ih =>
    have hb : ¬ newline = b := fun heq => h (heq ▸ mem_cons_self)
    rw [cons_append, TextSearch.find, ih fun hmem => h (mem_cons_of_mem _ hmem)]
    simp [hb]

theorem takeLine_append {line : Bytes} (h : newline ∉ line) (rest : Bytes) :
    takeLine (line ++ newline :: rest) = some (line, rest) := by
  rw [takeLine, find_newline h]
  simp

theorem takeLine_eq_some {buffer line rest : Bytes} :
    takeLine buffer = some (line, rest) ↔ buffer = line ++ newline :: rest ∧ newline ∉ line := by
  constructor
  · intro h
    have hmem : newline ∈ buffer := by
      by_contra hnot
      rw [takeLine_eq_none.mpr hnot] at h
      cases h
    obtain ⟨front, back, rfl, hfront⟩ := eq_append_cons_of_mem hmem
    rw [takeLine_append hfront] at h
    cases h
    exact ⟨rfl, hfront⟩
  · intro h
    rw [h.1]
    exact takeLine_append h.2 rest

theorem takeLine_lawful : Incremental.Lawful takeLine fun _ _ => True where
  shrinks h := by
    rw [(takeLine_eq_some.mp h).1, length_append, length_cons]
    omega
  stable h _ := by
    obtain ⟨rfl, hline⟩ := takeLine_eq_some.mp h
    rw [append_assoc, cons_append]
    exact takeLine_append hline _
  safe_rest _ _ := trivial

section Chunks

variable {parseJson : List Char → Option Value} {limit : ℕ}

theorem message?_handleLine (line : Bytes) :
    (handleLine parseJson limit line).bind StdioEvent.message? = messageOf parseJson limit line := by
  unfold handleLine messageOf
  by_cases hlong : limit < line.length
  · rw [if_pos hlong, if_pos (.inl hlong)]
    rfl
  · rw [if_neg hlong]
    by_cases hblank : stripped (removeReturn (Utf8.decodeReplace line)) = []
    · simp only [if_pos hblank, if_pos (show limit < line.length ∨ _ from .inr hblank)]
      rfl
    · simp only [if_neg hblank, if_neg (not_or.mpr ⟨hlong, hblank⟩)]
      cases (parseJson (removeReturn (Utf8.decodeReplace line))).bind parseJsonRpcMessage <;> rfl

variable (buffer chunk : Bytes)

theorem handleStdout_eq : handleStdout parseJson limit buffer chunk =
    if limit < (unterminated (buffer ++ chunk)).length then
      ([], (terminatedLines (buffer ++ chunk)).filterMap (handleLine parseJson limit) ++ [StdioEvent.error])
    else (unterminated (buffer ++ chunk),
      (terminatedLines (buffer ++ chunk)).filterMap (handleLine parseJson limit)) := rfl

theorem messages_handleStdout :
    (handleStdout parseJson limit buffer chunk).2.filterMap StdioEvent.message? =
      (terminatedLines (buffer ++ chunk)).filterMap (messageOf parseJson limit) := by
  have hlines : ((terminatedLines (buffer ++ chunk)).filterMap (handleLine parseJson limit)).filterMap
      StdioEvent.message? = (terminatedLines (buffer ++ chunk)).filterMap (messageOf parseJson limit) := by
    rw [filterMap_filterMap]
    exact filterMap_congr fun line _ => message?_handleLine line
  rw [← hlines, handleStdout_eq]
  split
  · rw [filterMap_append]
    exact append_nil _
  · rfl

theorem buffer_handleStdout : (handleStdout parseJson limit buffer chunk).1 =
      if limit < (unterminated (buffer ++ chunk)).length then []
      else unterminated (buffer ++ chunk) := by
  rw [handleStdout_eq]
  split <;> rfl

theorem terminatedLines_append (front back : Bytes) :
    terminatedLines (front ++ back) =
      terminatedLines front ++ terminatedLines (unterminated front ++ back) := by
  unfold terminatedLines unterminated
  rw [takeLine_lawful.drain_append trivial]

theorem unterminated_noNewline (stream : Bytes) : newline ∉ unterminated stream :=
  takeLine_eq_none.mp (takeLine_lawful.step_tail stream)

theorem terminatedLines_cons {line : Bytes} (hline : newline ∉ line) (rest : Bytes) :
    terminatedLines (line ++ newline :: rest) = line :: terminatedLines rest := by
  unfold terminatedLines
  rw [takeLine_lawful.drain_some (takeLine_append hline rest)]

theorem terminatedLines_noNewline {stream : Bytes} (h : newline ∉ stream) :
    terminatedLines stream = [] := by
  unfold terminatedLines
  rw [Incremental.drain_none (takeLine_eq_none.mpr h)]

variable (parseJson) in
theorem messages_behind {lost : Bytes} (hlost : newline ∉ lost) (hlimit : limit < lost.length)
    (stream : Bytes) : ∃ first : Option Value,
      (terminatedLines stream).filterMap (messageOf parseJson limit) = first.toList ++
        (terminatedLines (lost ++ stream)).filterMap (messageOf parseJson limit) ∧
      (first = none ↔ ∀ line rest, stream = line ++ newline :: rest → newline ∉ line →
        messageOf parseJson limit line = none) := by
  by_cases hmem : newline ∈ stream
  · obtain ⟨line, rest, rfl, hline⟩ := eq_append_cons_of_mem hmem
    have hboth : newline ∉ lost ++ line := by
      rw [mem_append]
      exact not_or.mpr ⟨hlost, hline⟩
    have hlong : messageOf parseJson limit (lost ++ line) = none := by
      refine if_pos (.inl ?_)
      rw [length_append]
      omega
    refine ⟨messageOf parseJson limit line, ?_, ?_⟩
    · rw [← append_assoc, terminatedLines_cons hline, terminatedLines_cons hboth,
        filterMap_cons, filterMap_cons, hlong]
      cases messageOf parseJson limit line <;> rfl
    · constructor
      · intro hnone other more heq hother
        have hsame := (takeLine_append hline rest).symm.trans (heq ▸ takeLine_append hother more)
        rw [← (Prod.mk.inj (Option.some.inj hsame)).1]
        exact hnone
      · exact fun h => h line rest rfl hline
  · have hboth : newline ∉ lost ++ stream := by
      rw [mem_append]
      exact not_or.mpr ⟨hlost, hmem⟩
    refine ⟨none, ?_, fun _ line rest heq => absurd ?_ hmem, fun _ => rfl⟩
    · rw [terminatedLines_noNewline hmem, terminatedLines_noNewline hboth]
      rfl
    · rw [heq]
      simp

theorem readStdout_from (chunks : List Bytes) (hbuffer : newline ∉ buffer) :
    ((terminatedLines (buffer ++ chunks.flatten)).filterMap (messageOf parseJson limit)).length ≤
        ((readStdout parseJson limit buffer chunks).filterMap StdioEvent.message?).length ∧
      ((readStdout parseJson limit buffer chunks).filterMap StdioEvent.message? =
        (terminatedLines (buffer ++ chunks.flatten)).filterMap (messageOf parseJson limit) ↔
        RestsSilent parseJson limit buffer chunks) := by
  induction chunks generalizing buffer with
  | nil =>
    rw [flatten_nil, append_nil, terminatedLines_noNewline hbuffer]
    exact ⟨Nat.le_refl 0, fun _ => trivial, fun _ => rfl⟩
  | cons chunk later ih =>
    rw [readStdout, filterMap_append, messages_handleStdout, buffer_handleStdout,
      flatten_cons, ← append_assoc, terminatedLines_append, filterMap_append,
      append_right_inj, length_append, length_append]
    have hopen := unterminated_noNewline (buffer ++ chunk)
    rw [RestsSilent]
    by_cases hlong : limit < (unterminated (buffer ++ chunk)).length
    · obtain ⟨hle, hiff⟩ := ih [] not_mem_nil
      rw [nil_append] at hle hiff
      obtain ⟨first, hfirst, hnone⟩ := messages_behind parseJson hopen hlong later.flatten
      rw [if_pos hlong, if_pos hlong, ← hnone, ← hiff]
      rw [hfirst, length_append] at hle
      refine ⟨by omega, fun heq => ?_, fun h => ?_⟩
      · cases first with
        | none =>
          refine ⟨rfl, ?_⟩
          rw [heq, hfirst]
          rfl
        | some value =>
          rw [heq] at hle
          simp only [Option.toList_some, length_singleton] at hle
          omega
      · rw [h.2, hfirst, h.1]
        rfl
    · obtain ⟨hle, hiff⟩ := ih (unterminated (buffer ++ chunk)) hopen
      rw [if_neg hlong, if_neg hlong, ← hiff]
      exact ⟨by omega, .rfl⟩

/-- The messages are those of the lines within the limit, however the stream is cut into chunks,
exactly when the rests of thrown away lines are silent. -/
theorem readStdout_messages_iff (parseJson : List Char → Option Value) (limit : ℕ)
    (chunks : List Bytes) :
    (readStdout parseJson limit [] chunks).filterMap StdioEvent.message? =
        (terminatedLines chunks.flatten).filterMap (messageOf parseJson limit) ↔
      RestsSilent parseJson limit [] chunks :=
  (readStdout_from [] chunks not_mem_nil).2

def notification : Value := .dict [("jsonrpc", .str "2.0"), ("method", .str "m")]

/-- A line of 71 bytes whose last 30 bytes read as a message. -/
def overlong : Bytes × Bytes :=
  (List.replicate 41 120, Utf8.encode "\x7b\"jsonrpc\":\"2.0\",\"method\":\"m\"\x7d\n".toList)

def parseNotification (text : List Char) : Option Value :=
  if text = "\x7b\"jsonrpc\":\"2.0\",\"method\":\"m\"\x7d".toList then some notification else none

/-- With a limit of 40 bytes the end of the line is delivered when the line comes in two chunks. -/
theorem overlong_delivered :
    (readStdout parseNotification 40 [] [overlong.1, overlong.2]).filterMap StdioEvent.message? =
      [notification] ∧
    (readStdout parseNotification 40 [] [overlong.1 ++ overlong.2]).filterMap
      StdioEvent.message? = [] ∧
    (terminatedLines (overlong.1 ++ overlong.2)).filterMap (messageOf parseNotification 40) = [] := by
  decide

end Chunks

end Pidrei.Mcp
