import Mathlib.Data.List.InsertIdx
import Pidrei.EditorInput

/-!
Where the characters of a text come from. Next to the editor runs a copy of its text, draft,
kill ring and undo stack in which each character remembers whether it was typed, came with a
short paste, or belongs to the marker of a large one. Each operation moves the characters of
the copy as it moves those of the text.
-/
namespace Pidrei.Editor

open PythonText Substitution List

structure LargePaste where
  content : Text
  large : isLargePaste content = true
  deriving DecidableEq

inductive Origin where
  /-- Typed, or set by a call. -/
  | typed
  /-- The content of a paste that is not large. -/
  | pasted
  /-- The marker of a large paste, with the id it has. -/
  | marker (paste : LargePaste) (pasteId : ℕ)
  deriving DecidableEq

structure Traced where
  char : Char
  origin : Origin

def plain (text : List Traced) : Text := text.map Traced.char

def traced (origin : Origin) (text : Text) : List Traced := text.map fun c => ⟨c, origin⟩

structure Origins where
  lines : List (List Traced)
  draft : Option (List (List Traced))
  killRing : List (List Traced)
  saved : List (List (List Traced))

/-- Where a marker with the id comes from. One with pasted characters was pasted; it is that of
a large paste if it still has the id it got for it and nothing else in it; otherwise it was typed. -/
def markerOrigin (pasteId : ℕ) (word : List Origin) : Origin :=
  if .pasted ∈ word then .pasted
  else
    match word.head? with
    | some (.marker paste id) =>
      if id = pasteId ∧ ∀ origin ∈ word, origin = .marker paste id then .marker paste id else .typed
    | _ => .typed

/-- The origin of a marker that is written with another id. -/
def Origin.renumbered (pasteId : ℕ) : Origin → Origin
  | .marker paste _ => .marker paste pasteId
  | origin => origin

def renumberTraced (targetId : ℕ) (line : List Traced) : List Traced :=
  sub (markers.comap Traced.char) (fun word =>
    match matchMarker (plain word) with
    | some m =>
      if m.id ≤ targetId then word
      else traced ((markerOrigin m.id (word.map Traced.origin)).renumbered (m.id - 1))
        (Marker.text ⟨str (m.id - 1), m.size⟩)
    | none => word) line

def splitTraced (text : List Traced) : List (List Traced) := text.splitOnP (·.char = '\n')

namespace Origins

variable (o : Origins) (s : State) (b : Buffer)

def text : List Traced := [⟨'\n', .typed⟩].intercalate o.lines

def leave : Origins := { o with draft := none }

def snapshot : Origins := { o with saved := o.lines :: o.saved }

def edit (lines : List (List Traced)) : Origins := { o with lines := lines }

def kill (text : List Traced) (prepend : Bool) : Origins :=
  { o with killRing := killRingPush o.killRing text prepend (s.lastAction = some .kill) }

def current : List Traced := lineAt o.lines b.cursorLine

def before : List Traced := upTo b.cursorCol (o.current b)

def after : List Traced := onward b.cursorCol (o.current b)

def setCurrent (line : List Traced) : Origins := o.edit (setLine o.lines b.cursorLine line)

/-- The second line is joined to the first one. -/
def merge (first second : ℤ) : Origins :=
  o.edit (deleteLine (setLine o.lines first (lineAt o.lines first ++ lineAt o.lines second)) second)

def killNewline (prepend : Bool) : Origins := o.kill s (traced .typed ['\n']) prepend

def insertText (origin : Origin) (text : Text) : Origins :=
  if text = [] then o
  else
    let normalized := normalizeText text
    let inserted := (splitLines normalized).map (traced origin)
    if inserted.length = 1 then
      o.setCurrent b (o.before b ++ (traced origin normalized ++ o.after b))
    else
      let last := inserted.getLast?.getD []
      o.edit (o.lines.take (sliceIndex o.lines.length b.cursorLine) ++
        (o.before b ++ inserted.head?.getD []) :: (inserted.dropLast.drop 1 ++
          (last ++ o.after b) :: o.lines.drop (sliceIndex o.lines.length (b.cursorLine + 1))))

def insertYanked (text : List Traced) : Origins :=
  let lines := splitTraced text
  if lines.length = 1 then o.setCurrent b (o.before b ++ (text ++ o.after b))
  else
    let last := lines.getLast?.getD []
    let first := setLine o.lines b.cursorLine (o.before b ++ lines.head?.getD [])
    let middle := (lines.dropLast.drop 1).foldl (fun (placed : List (List Traced) × ℤ) line =>
      (insertLine placed.1 placed.2 line, placed.2 + 1)) (first, b.cursorLine + 1)
    o.edit (insertLine middle.1 (b.cursorLine + lines.length - 1) (last ++ o.after b))

def setText (text : Text) : Origins := o.edit ((splitLines text).map (traced .typed))

def deleteYanked (yankedText : Text) : Origins :=
  let yankLines := splitLines yankedText
  if yankLines.length = 1 then
    o.setCurrent b (upTo (b.cursorCol - yankedText.length) (o.current b) ++ o.after b)
  else
    let startLine := b.cursorLine - (yankLines.length - 1)
    let startCol : ℤ := (lineAt o.lines startLine).length - (yankLines.head?.getD []).length
    o.edit (o.lines.take (sliceIndex o.lines.length startLine) ++
      (upTo startCol (lineAt o.lines startLine) ++ o.after b) ::
        o.lines.drop (sliceIndex o.lines.length (startLine + yankLines.length)))

def deleteYankedText : Origins :=
  match s.killRing.getLast? with
  | some yankedText => if yankedText = [] then o else o.deleteYanked s.buffer yankedText
  | none => o

def paste (pastedText : Text) : Origins :=
  let o := o.leave.snapshot
  let filteredText := s.buffer.filterPaste pastedText
  if hlarge : isLargePaste filteredText = true then
    let pasteId := s.pasteCounter + 1
    o.insertText s.buffer (.marker ⟨filteredText, hlarge⟩ pasteId)
      (pasteMarker pasteId filteredText).text
  else o.insertText s.buffer .pasted filteredText

def backspace (metrics : Metrics) : Origins :=
  let b := s.buffer
  let o := o.leave
  if 0 < b.cursorCol then
    let o := o.snapshot
    let length := graphemeLength (s.lastGrapheme metrics)
    let o := match s.markerBefore metrics with
      | some targetId => o.edit (o.lines.map (renumberTraced targetId))
      | none => o
    o.setCurrent b (upTo (b.cursorCol - length) (o.current b) ++ o.after b)
  else if 0 < b.cursorLine then o.snapshot.merge (b.cursorLine - 1) b.cursorLine
  else o

def navigateHistory (direction : ℤ) : Origins :=
  if s.history = [] then o
  else
    let newIndex := s.historyIndex - direction
    if newIndex < -1 ∨ s.history.length ≤ newIndex then o
    else
      let o := if s.historyIndex = -1 ∧ 0 ≤ newIndex then { o.snapshot with draft := some o.lines }
        else o
      if newIndex = -1 then
        match o.draft with
        | some lines => o.leave.edit lines
        | none => o.setText []
      else o.setText (s.history[newIndex.toNat]?.getD [])

end Origins

/-- The copy after an operation. -/
def Origins.follow (host : Host) (o : Origins) (event : State × Command) : Origins :=
  let s := event.1
  let b := s.buffer
  match event.2 with
  | .paste pastedText => o.paste s pastedText
  | .undo =>
    match o.saved with
    | [] => o.leave
    | lines :: rest => { o.leave with lines := lines, saved := rest }
  | .deleteToEndOfLine =>
    let o := o.leave
    if b.cursorCol < b.currentLine.length then
      (o.snapshot.kill s (o.after b) false).setCurrent b (o.before b)
    else if b.cursorLine < b.lines.length - 1 then
      (o.snapshot.killNewline s false).merge b.cursorLine (b.cursorLine + 1)
    else o
  | .deleteToStartOfLine =>
    let o := o.leave
    if 0 < b.cursorCol then (o.snapshot.kill s (o.before b) true).setCurrent b (o.after b)
    else if 0 < b.cursorLine then
      (o.snapshot.killNewline s true).merge (b.cursorLine - 1) b.cursorLine
    else o
  | .deleteWordBackwards =>
    let o := o.leave
    if b.cursorCol = 0 then
      if 0 < b.cursorLine then
        (o.snapshot.killNewline s true).merge (b.cursorLine - 1) b.cursorLine
      else o
    else
      let deleteFrom := (s.exitHistoryBrowsing.moveWordBackwards host.toMetrics).buffer.cursorCol
      (o.snapshot.kill s (slice (o.current b) deleteFrom b.cursorCol) true).setCurrent b
        (upTo deleteFrom (o.current b) ++ o.after b)
  | .deleteWordForward =>
    let o := o.leave
    if b.currentLine.length ≤ b.cursorCol then
      if b.cursorLine < b.lines.length - 1 then
        (o.snapshot.killNewline s false).merge b.cursorLine (b.cursorLine + 1)
      else o
    else
      let deleteTo := (s.exitHistoryBrowsing.moveWordForwards host.toMetrics).buffer.cursorCol
      (o.snapshot.kill s (slice (o.current b) b.cursorCol deleteTo) false).setCurrent b
        (o.before b ++ onward deleteTo (o.current b))
  | .backspace => o.backspace s host.toMetrics
  | .forwardDelete =>
    let o := o.leave
    if b.cursorCol < b.currentLine.length then
      let length := graphemeLength (s.graphemes host.toMetrics b.after).head?
      o.snapshot.setCurrent b (o.before b ++ onward (b.cursorCol + length) (o.current b))
    else if b.cursorLine < b.lines.length - 1 then
      o.snapshot.merge b.cursorLine (b.cursorLine + 1)
    else o
  | .yank =>
    match o.killRing.getLast? with
    | some text => o.snapshot.leave.insertYanked b text
    | none => o
  | .yankPop =>
    if s.lastAction ≠ some .yank ∨ s.killRing.length ≤ 1 then o
    else
      let o := o.snapshot.deleteYankedText s
      let o := { o with killRing := killRingRotate o.killRing }
      o.leave.insertYanked s.pushUndoSnapshot.deleteYankedText.buffer (o.killRing.getLast?.getD [])
  | .navigateHistory direction => o.navigateHistory s direction
  | .addNewLine =>
    o.leave.snapshot.edit
      (insertLine (setLine o.lines b.cursorLine (o.before b)) (b.cursorLine + 1) (o.after b))
  | .submitValue => { o.leave with lines := [[]], saved := [] }
  | .insertCharacter char =>
    let o := o.leave
    let o := if isWhitespaceChar char ∨ s.lastAction ≠ some .typeWord then o.snapshot else o
    o.setCurrent b (o.before b ++ (traced .typed char ++ o.after b))
  | .setText text =>
    let o := o.leave
    let normalized := normalizeText text
    let o := if s.text = normalized then o else o.snapshot
    o.setText normalized
  | .insertTextAtCursor text =>
    if text = [] then o else o.snapshot.leave.insertText b .typed text
  | .jumpToChar _ _ | .moveToLineStart | .moveToLineEnd | .moveWordBackwards | .moveWordForwards
  | .moveCursorVertically _ | .moveRight | .moveLeft | .pageScroll _ | .setJumpMode _ => o

section Plain

@[simp] theorem length_plain (text : List Traced) : (plain text).length = text.length := length_map _

@[simp] theorem plain_nil : plain [] = [] := rfl

@[simp] theorem plain_append (text more : List Traced) : plain (text ++ more) = plain text ++ plain more :=
  map_append

theorem plain_append_eq {text more : List Traced} {left right : Text} (htext : plain text = left)
    (hmore : plain more = right) : plain (text ++ more) = left ++ right := by
  rw [plain_append, htext, hmore]

@[simp] theorem plain_traced (origin : Origin) (text : Text) : plain (traced origin text) = text := by
  simp [plain, traced, Function.comp_def]

@[simp] theorem plain_comp_traced (origin : Origin) : plain ∘ traced origin = id :=
  funext (plain_traced origin)

@[simp] theorem plain_upTo (col : ℤ) (text : List Traced) : plain (upTo col text) = upTo col (plain text) := by
  simp [upTo, plain, map_take]

@[simp] theorem plain_onward (col : ℤ) (text : List Traced) :
    plain (onward col text) = onward col (plain text) := by
  simp [onward, plain, map_drop]

theorem plain_slice (text : List Traced) (start stop : ℤ) :
    plain (slice text start stop) = slice (plain text) start stop := by
  simp [slice, plain, map_take, map_drop]

theorem plain_getD (line : Option (List Traced)) : plain (line.getD []) = (line.map plain).getD [] := by
  cases line <;> rfl

variable (lines : List (List Traced)) (index : ℤ) (line : List Traced)

@[simp] theorem lineAt_plain : lineAt (lines.map plain) index = plain (lineAt lines index) := by
  simp [lineAt, plain_getD]

@[simp] theorem plain_setLine :
    (setLine lines index line).map plain = setLine (lines.map plain) index (plain line) := by
  simp [setLine, map_set]

@[simp] theorem plain_insertLine :
    (insertLine lines index line).map plain = insertLine (lines.map plain) index (plain line) := by
  simp [insertLine, map_take, map_drop]

@[simp] theorem plain_deleteLine :
    (deleteLine lines index).map plain = deleteLine (lines.map plain) index := by
  simp [deleteLine, eraseIdx_map]

theorem plain_killRingPush (ring : List (List Traced)) (text : List Traced) (prepend accumulate : Bool) :
    (killRingPush ring text prepend accumulate).map plain =
      killRingPush (ring.map plain) (plain text) prepend accumulate := by
  have hempty : (plain text).isEmpty = text.isEmpty := isEmpty_map
  unfold killRingPush
  rw [hempty, getLast?_map]
  split
  · rfl
  · cases accumulate with
    | false => simp
    | true =>
      cases ring.getLast? with
      | none => simp
      | some last => cases prepend <;> simp [map_dropLast]

theorem plain_killRingRotate (ring : List (List Traced)) :
    (killRingRotate ring).map plain = killRingRotate (ring.map plain) := by
  unfold killRingRotate
  rw [getLast?_map, length_map]
  cases ring.getLast? with
  | none => rfl
  | some last =>
    simp only [Option.map_some]
    split
    · simp [map_dropLast]
    · rfl

theorem plain_insertLines (placed : List (List Traced) × ℤ) :
    (lines.foldl (fun (placed : List (List Traced) × ℤ) line =>
      (insertLine placed.1 placed.2 line, placed.2 + 1)) placed).1.map plain =
    ((lines.map plain).foldl (fun (placed : List Text × ℤ) line =>
      (insertLine placed.1 placed.2 line, placed.2 + 1)) (placed.1.map plain, placed.2)).1 := by
  induction lines generalizing placed with
  | nil => rfl
  | cons line rest ih =>
    rw [foldl_cons, ih, map_cons, foldl_cons, plain_insertLine]

theorem plain_splitTraced (text : List Traced) : (splitTraced text).map plain = splitLines (plain text) := by
  induction text with
  | nil => rfl
  | cons x text ih =>
    have hhead : plain (x :: text) = x.char :: plain text := rfl
    unfold splitTraced splitLines at ih ⊢
    rw [hhead, splitOnP_cons_eq_if_modifyHead, splitOn_cons_eq_if_modifyHead, ← ih]
    by_cases hbreak : x.char = '\n'
    · simp [hbreak]
    · simp only [hbreak, decide_false, beq_iff_eq, if_false, Bool.false_eq_true]
      cases text.splitOnP (·.char = '\n') <;> rfl

theorem plain_renumberTraced (targetId : ℕ) (line : List Traced) :
    plain (renumberTraced targetId line) = renumber targetId (plain line) := by
  refine map_sub markers Traced.char (fun word => ?_) line
  have hword : plain word = word.map Traced.char := rfl
  rw [← hword]
  cases matchMarker (plain word) with
  | none => rfl
  | some m =>
    show plain (if m.id ≤ targetId then word else _) = if m.id ≤ targetId then plain word else _
    split
    · rfl
    · exact plain_traced _ _

end Plain

section Mirror

/-- Every registered paste has a character. -/
def Filled (pastes : OrderedMap ℕ Text) : Prop := ∀ pasteId, pastes.get? pasteId ≠ some []

theorem filled_empty : Filled OrderedMap.empty := fun _ => Option.some_ne_none _ |>.symm

theorem Filled.set {pastes : OrderedMap ℕ Text} (h : Filled pastes) (pasteId : ℕ) {content : Text}
    (hne : content ≠ []) : Filled (pastes.set pasteId content) := by
  intro other hget
  rw [OrderedMap.get?_set] at hget
  split at hget
  · exact hne (Option.some.inj hget)
  · exact h other hget

theorem Filled.erase {pastes : OrderedMap ℕ Text} (h : Filled pastes) (pasteId : ℕ) :
    Filled (pastes.erase pasteId) := by
  intro other hget
  rw [OrderedMap.get?_erase] at hget
  split at hget
  · cases hget
  · exact h other hget

theorem Filled.removePaste {pastes : OrderedMap ℕ Text} (h : Filled pastes) (targetId : ℕ) :
    Filled (removePaste targetId pastes) := by
  refine foldlRecOn _ _ (h.erase targetId) fun shifted hshifted pasteId _ => ?_
  split
  · rename_i content hget
    refine (hshifted.erase pasteId).set _ fun hnil => hshifted pasteId ?_
    rw [hget, hnil]
  · exact hshifted

theorem ne_nil_of_isLargePaste {filteredText : Text} (h : isLargePaste filteredText = true) :
    filteredText ≠ [] := by
  rintro rfl
  revert h
  decide

/-- The copy has the characters of the editor. -/
structure Mirrors (s : State) (o : Origins) : Prop where
  lines : o.lines.map plain = s.buffer.lines
  draft : o.draft.map (·.map plain) = s.historyDraft.map Buffer.lines
  killRing : o.killRing.map plain = s.killRing
  saved : o.saved.map (·.map plain) = s.undoStack.map (·.state.lines)
  filled : Filled s.pastes
  filledSaved : ∀ snapshot ∈ s.undoStack, Filled snapshot.pastes

/-- Nothing of what the copy follows has changed. -/
structure Still (s t : State) : Prop where
  lines : t.buffer.lines = s.buffer.lines
  draft : t.historyDraft = s.historyDraft
  killRing : t.killRing = s.killRing
  undoStack : t.undoStack = s.undoStack
  pastes : t.pastes = s.pastes

namespace Mirrors

variable {s t : State} {o : Origins} {b : Buffer}

theorem still (h : Mirrors s o) (hstill : Still s t) : Mirrors t o where
  lines := h.lines.trans hstill.lines.symm
  draft := by rw [hstill.draft, h.draft]
  killRing := h.killRing.trans hstill.killRing.symm
  saved := by rw [hstill.undoStack, h.saved]
  filled := by
    rw [hstill.pastes]
    exact h.filled
  filledSaved := by
    rw [hstill.undoStack]
    exact h.filledSaved

theorem leave (h : Mirrors s o) : Mirrors s.exitHistoryBrowsing o.leave := { h with draft := rfl }

theorem left (h : Mirrors s o) : Mirrors s.exitHistoryBrowsing.forget o.leave :=
  h.leave.still ⟨rfl, rfl, rfl, rfl, rfl⟩

theorem snapshot (h : Mirrors s o) : Mirrors s.pushUndoSnapshot o.snapshot :=
  { h with
    saved := by
      show o.lines.map plain :: _ = s.buffer.lines :: _
      rw [h.lines, h.saved]
    filledSaved := forall_mem_cons.mpr ⟨h.filled, h.filledSaved⟩ }

theorem kill (h : Mirrors s o) {killed : List Traced} {text : Text} (prepend : Bool)
    (htext : plain killed = text) :
    Mirrors (s.kill text prepend (s.lastAction = some .kill)) (o.kill s killed prepend) :=
  { h with
    killRing := by
      rw [← htext]
      show (killRingPush _ _ _ _).map plain = killRingPush s.killRing _ _ _
      rw [plain_killRingPush, h.killRing] }

theorem killNewline (h : Mirrors s o) (prepend : Bool) :
    Mirrors (s.killNewline prepend) (o.killNewline s prepend) := h.kill prepend rfl

theorem withPastes (h : Mirrors s o) {pastes : OrderedMap ℕ Text} (pasteCounter : ℕ)
    (hfilled : Filled pastes) :
    Mirrors { s with pastes := pastes, pasteCounter := pasteCounter } o := { h with filled := hfilled }

theorem edit (h : Mirrors s o) {lines : List (List Traced)} (hlines : lines.map plain = b.lines) :
    Mirrors { s with buffer := b } (o.edit lines) := { h with lines := hlines }

theorem current (h : Mirrors s o) : plain (o.current s.buffer) = s.buffer.currentLine := by
  rw [Buffer.currentLine, ← h.lines, lineAt_plain]
  rfl

theorem before (h : Mirrors s o) : plain (o.before s.buffer) = s.buffer.before := by
  rw [Buffer.before, ← h.current]
  exact plain_upTo _ _

theorem after (h : Mirrors s o) : plain (o.after s.buffer) = s.buffer.after := by
  rw [Buffer.after, ← h.current]
  exact plain_onward _ _

theorem edited (h : Mirrors s o) {lines : List (List Traced)} (hlines : lines.map plain = b.lines) :
    Mirrors (s.edit b) (o.edit lines) := (h.edit hlines).still ⟨rfl, rfl, rfl, rfl, rfl⟩

theorem setLine (h : Mirrors s o) {line : List Traced} {text : Text} (htext : plain line = text) :
    (setLine o.lines s.buffer.cursorLine line).map plain = (s.buffer.setCurrent text).lines := by
  rw [plain_setLine, htext, h.lines]
  rfl

theorem mergePrevious (h : Mirrors s o) :
    (o.merge (s.buffer.cursorLine - 1) s.buffer.cursorLine).lines.map plain =
      s.buffer.mergePrevious.lines := by
  simp [Origins.merge, Origins.edit, Buffer.mergePrevious, Buffer.currentLine, ← h.lines]

theorem mergeNext (h : Mirrors s o) :
    (o.merge s.buffer.cursorLine (s.buffer.cursorLine + 1)).lines.map plain =
      s.buffer.mergeNext.lines := by
  simp [Origins.merge, Origins.edit, Buffer.mergeNext, Buffer.currentLine, ← h.lines]

theorem upTo (h : Mirrors s o) (col : ℤ) :
    plain (upTo col (o.current s.buffer)) = Editor.upTo col s.buffer.currentLine := by
  rw [plain_upTo, h.current]

theorem onward (h : Mirrors s o) (col : ℤ) :
    plain (onward col (o.current s.buffer)) = Editor.onward col s.buffer.currentLine := by
  rw [plain_onward, h.current]

theorem slice (h : Mirrors s o) (start stop : ℤ) :
    plain (slice (o.current s.buffer) start stop) =
      PythonText.slice s.buffer.currentLine start stop := by
  rw [plain_slice, h.current]

theorem insertText (h : Mirrors s o) (origin : Origin) (text : Text) :
    Mirrors (s.insertTextInternal text) (o.insertText s.buffer origin text) := by
  unfold State.insertTextInternal Origins.insertText
  split
  · exact h
  · unfold Buffer.insertText
    simp only [length_map]
    split
    · refine h.edited (h.setLine ?_)
      simp [h.before, h.after]
    · refine h.edited ?_
      simp [h.before, h.after, ← h.lines, map_take, map_drop, map_dropLast, plain_getD]

theorem insertYanked (h : Mirrors s o) {killed : List Traced} {text : Text} (htext : plain killed = text) :
    Mirrors (s.edit (s.buffer.insertYanked text)) (o.insertYanked s.buffer killed) := by
  have hsplit := plain_splitTraced killed
  rw [htext] at hsplit
  unfold Buffer.insertYanked Origins.insertYanked
  simp only [← hsplit, length_map]
  split
  · refine h.edited (h.setLine ?_)
    simp [h.before, h.after, htext]
  · refine h.edited ?_
    simp [h.before, h.after, ← h.lines, ← map_dropLast, ← map_drop, plain_insertLines, plain_getD]

theorem ite {c : Prop} [Decidable c] {u : State} {o' : Origins} (hpos : c → Mirrors t o)
    (hneg : ¬ c → Mirrors u o') : Mirrors (if c then t else u) (if c then o else o') := by
  split
  · exact hpos ‹_›
  · exact hneg ‹_›

variable (host : Host)

theorem deleteToStartOfLine (h : Mirrors s o) :
    Mirrors s.deleteToStartOfLine (o.follow host (s, .deleteToStartOfLine)) := by
  refine ite (fun _ => ?_) fun _ => ite (fun _ => ?_) fun _ => h.leave
  · exact (h.leave.snapshot.kill true h.before).edited (h.setLine h.after)
  · exact (h.leave.snapshot.killNewline true).edited h.mergePrevious

theorem deleteToEndOfLine (h : Mirrors s o) :
    Mirrors s.deleteToEndOfLine (o.follow host (s, .deleteToEndOfLine)) := by
  refine ite (fun _ => ?_) fun _ => ite (fun _ => ?_) fun _ => h.leave
  · exact (h.leave.snapshot.kill false h.after).edit (h.setLine h.before)
  · exact (h.leave.snapshot.killNewline false).edit h.mergeNext

theorem deleteWordBackwards (h : Mirrors s o) :
    Mirrors (s.deleteWordBackwards host.toMetrics) (o.follow host (s, .deleteWordBackwards)) := by
  refine ite (fun _ => ite (fun _ => ?_) fun _ => h.leave) fun _ => ?_
  · exact (h.leave.snapshot.killNewline true).edited h.mergePrevious
  · exact (h.leave.snapshot.kill true (h.slice _ _)).edited
      (h.setLine (plain_append_eq (h.upTo _) h.after))

theorem deleteWordForward (h : Mirrors s o) :
    Mirrors (s.deleteWordForward host.toMetrics) (o.follow host (s, .deleteWordForward)) := by
  refine ite (fun _ => ite (fun _ => ?_) fun _ => h.leave) fun _ => ?_
  · exact (h.leave.snapshot.killNewline false).edit h.mergeNext
  · exact (h.leave.snapshot.kill false (h.slice _ _)).edited
      (h.setLine (plain_append_eq h.before (h.onward _)))

theorem handleForwardDelete (h : Mirrors s o) :
    Mirrors (s.handleForwardDelete host.toMetrics) (o.follow host (s, .forwardDelete)) := by
  refine ite (fun _ => ?_) fun _ => ite (fun _ => ?_) fun _ => h.left
  · exact h.left.snapshot.edit (h.setLine (plain_append_eq h.before (h.onward _)))
  · exact h.left.snapshot.edit h.mergeNext

theorem typeText (h : Mirrors t o) (hb : t.buffer = b) (char : Text) :
    Mirrors ((t.act .typeWord).edit
      { t.buffer.setCurrent (t.buffer.before ++ (char ++ t.buffer.after)) with
        cursorCol := t.buffer.cursorCol + char.length })
      (o.setCurrent b (o.before b ++ (traced .typed char ++ o.after b))) := by
  subst hb
  have hact : Mirrors (t.act .typeWord) o := h.still ⟨rfl, rfl, rfl, rfl, rfl⟩
  exact hact.edited (h.setLine (plain_append_eq h.before (plain_append_eq (plain_traced _ _) h.after)))

theorem insertCharacter (h : Mirrors s o) (char : Text) :
    Mirrors (s.insertCharacter char) (o.follow host (s, .insertCharacter char)) := by
  refine typeText (ite (fun _ => h.leave.snapshot) fun _ => h.leave) ?_ char
  split <;> rfl

theorem addNewLine (h : Mirrors s o) : Mirrors s.addNewLine (o.follow host (s, .addNewLine)) := by
  refine h.left.snapshot.edited ?_
  rw [plain_insertLine, h.after]
  exact congrArg (insertLine · _ _) (h.setLine h.before)

theorem handlePaste (h : Mirrors s o) (pastedText : Text) :
    Mirrors (s.handlePaste pastedText) (o.follow host (s, .paste pastedText)) := by
  by_cases hlarge : isLargePaste (s.buffer.filterPaste pastedText) = true
  · have hfollow : o.follow host (s, .paste pastedText) = o.leave.snapshot.insertText s.buffer
        (.marker ⟨_, hlarge⟩ (s.pasteCounter + 1))
        (pasteMarker (s.pasteCounter + 1) (s.buffer.filterPaste pastedText)).text := dif_pos hlarge
    have hregistered := h.left.snapshot.withPastes (s.pasteCounter + 1)
      (h.filled.set (s.pasteCounter + 1) (ne_nil_of_isLargePaste hlarge))
    rw [hfollow, State.handlePaste]
    simp only
    rw [if_pos (by exact hlarge)]
    exact hregistered.insertText _ _
  · have hfollow : o.follow host (s, .paste pastedText) =
        o.leave.snapshot.insertText s.buffer .pasted (s.buffer.filterPaste pastedText) := dif_neg hlarge
    rw [hfollow, State.handlePaste]
    simp only
    rw [if_neg (by exact hlarge)]
    exact h.left.snapshot.insertText _ _

theorem setTextInternal (h : Mirrors s o) (text : Text) (atStart : Bool) :
    Mirrors (s.setTextInternal text atStart) (o.setText text) := by
  refine h.edited ?_
  rw [map_map, plain_comp_traced, map_id]

theorem setText (h : Mirrors s o) (text : Text) :
    Mirrors (s.setText text) (o.follow host (s, .setText text)) := by
  have hpushed := ite (c := s.text = normalizeText text) (fun _ => h.left) fun _ => h.left.snapshot
  exact (hpushed.withPastes 0 filled_empty).setTextInternal _ _

theorem insertTextAtCursor (h : Mirrors s o) (text : Text) :
    Mirrors (s.insertTextAtCursor text) (o.follow host (s, .insertTextAtCursor text)) := by
  refine ite (fun _ => h) fun _ => ?_
  exact insertText (s := s.pushUndoSnapshot.forget.exitHistoryBrowsing)
    (h.snapshot.leave.still ⟨rfl, rfl, rfl, rfl, rfl⟩) .typed text

theorem submitValue (h : Mirrors s o) : Mirrors s.submitValue (o.follow host (s, .submitValue)) where
  lines := rfl
  draft := rfl
  killRing := h.killRing
  saved := rfl
  filled := filled_empty
  filledSaved := forall_mem_nil _

theorem undo (h : Mirrors s o) : Mirrors s.undo (o.follow host (s, .undo)) := by
  have hsaved := h.saved
  have hfilled := h.filledSaved
  simp only [State.undo, Origins.follow, State.exitHistoryBrowsing]
  cases hstack : s.undoStack with
  | nil =>
    rw [hstack, map_nil, map_eq_nil_iff] at hsaved
    rw [hsaved]
    exact h.leave.still ⟨rfl, rfl, rfl, hstack.symm, rfl⟩
  | cons snapshot rest =>
    rw [hstack, map_cons] at hsaved
    rw [hstack] at hfilled
    obtain ⟨lines, saved, hcons, hlines, hrest⟩ := map_eq_cons_iff.mp hsaved
    obtain ⟨hsnapshot, hothers⟩ := forall_mem_cons.mp hfilled
    rw [hcons]
    exact ⟨hlines, rfl, h.killRing, hrest, hsnapshot, hothers⟩

theorem getLast?_killRing (h : Mirrors s o) : s.killRing.getLast? = o.killRing.getLast?.map plain := by
  rw [← h.killRing, getLast?_map]

theorem keepDraft (h : Mirrors s o) :
    Mirrors { s with historyDraft := some s.buffer } { o with draft := some o.lines } :=
  { h with draft := congrArg some h.lines }

theorem restore (h : Mirrors s o) {lines : List (List Traced)} (hlines : lines.map plain = b.lines) :
    Mirrors (({ s with historyDraft := none }).edit b) (o.leave.edit lines) :=
  { h with lines := hlines, draft := rfl }

theorem rotate (h : Mirrors s o) :
    Mirrors { s with killRing := killRingRotate s.killRing }
      { o with killRing := killRingRotate o.killRing } :=
  { h with killRing := by rw [plain_killRingRotate, h.killRing] }

theorem yank (h : Mirrors s o) : Mirrors s.yank (o.follow host (s, .yank)) := by
  simp only [State.yank, Origins.follow, h.getLast?_killRing]
  cases o.killRing.getLast? with
  | none => exact h
  | some text =>
    exact (h.snapshot.leave.insertYanked rfl).still ⟨rfl, rfl, rfl, rfl, rfl⟩

theorem deleteYankedText (h : Mirrors s o) : Mirrors s.deleteYankedText (o.deleteYankedText s) := by
  unfold State.deleteYankedText Origins.deleteYankedText
  cases s.killRing.getLast? with
  | none => exact h
  | some yankedText =>
    refine ite (fun _ => h) fun _ => ?_
    simp only [Origins.deleteYanked, Buffer.deleteYanked]
    split
    · exact h.edited (h.setLine (plain_append_eq (h.upTo _) h.after))
    · refine h.edited ?_
      simp [h.after, ← h.lines, map_take, map_drop]

theorem yankPop (h : Mirrors s o) : Mirrors s.yankPop (o.follow host (s, .yankPop)) := by
  refine ite (fun _ => h) fun _ => ?_
  have hdeleted : Mirrors s.pushUndoSnapshot.deleteYankedText (o.snapshot.deleteYankedText s) :=
    h.snapshot.deleteYankedText
  have hrotated := hdeleted.rotate
  refine (hrotated.leave.insertYanked ?_).still ⟨rfl, rfl, rfl, rfl, rfl⟩
  rw [plain_getD, ← hrotated.getLast?_killRing]

theorem navigateHistory (h : Mirrors s o) (direction : ℤ) :
    Mirrors (s.navigateHistory direction) (o.follow host (s, .navigateHistory direction)) := by
  have hforget : Mirrors s.forget o := h.still ⟨rfl, rfl, rfl, rfl, rfl⟩
  refine ite (fun _ => hforget) fun _ => ite (fun _ => hforget) fun _ => ?_
  have hentered : Mirrors
      (if s.forget.historyIndex = -1 ∧ 0 ≤ s.forget.historyIndex - direction then
        { s.forget.pushUndoSnapshot with historyDraft := some s.forget.buffer } else s.forget)
      (if s.historyIndex = -1 ∧ 0 ≤ s.historyIndex - direction then
        { o.snapshot with draft := some o.lines } else o) :=
    ite (fun _ => hforget.snapshot.keepDraft) fun _ => hforget
  have hhistory : (if s.forget.historyIndex = -1 ∧ 0 ≤ s.forget.historyIndex - direction then
      { s.forget.pushUndoSnapshot with historyDraft := some s.forget.buffer } else s.forget).history =
        s.history := by
    split <;> rfl
  generalize (if s.forget.historyIndex = -1 ∧ 0 ≤ s.forget.historyIndex - direction then
      { s.forget.pushUndoSnapshot with historyDraft := some s.forget.buffer } else s.forget) = entered
    at hentered hhistory
  generalize (if s.historyIndex = -1 ∧ 0 ≤ s.historyIndex - direction then
      { o.snapshot with draft := some o.lines } else o) = traced at hentered
  have hmoved : Mirrors { entered with historyIndex := s.historyIndex - direction } traced :=
    hentered.still ⟨rfl, rfl, rfl, rfl, rfl⟩
  refine ite (fun _ => ?_) fun _ => ?_
  · have hdraft := hentered.draft
    simp only
    cases htraced : traced.draft with
    | none =>
      rw [htraced] at hdraft
      have hnone := Option.map_eq_none_iff.mp hdraft.symm
      simp only [hnone]
      refine setTextInternal ?_ _ _
      exact hmoved.still ⟨rfl, hnone.symm, rfl, rfl, rfl⟩
    | some lines =>
      rw [htraced] at hdraft
      obtain ⟨draft, hentered', hlines⟩ := Option.map_eq_some_iff.mp hdraft.symm
      simp only [hentered']
      exact hmoved.restore hlines.symm
  · simp only [← hhistory]
    exact hmoved.setTextInternal _ _

theorem unregister (h : Mirrors s o) (targetId : ℕ) :
    Mirrors (s.unregister targetId) (o.edit (o.lines.map (renumberTraced targetId))) := by
  refine ((h.withPastes (s.pasteCounter - 1) (h.filled.removePaste targetId)).edit ?_)
  rw [map_map, ← h.lines, map_map]
  exact map_congr_left fun line _ => plain_renumberTraced targetId line

theorem deleteBefore (h : Mirrors s o) (length : ℤ) :
    Mirrors (s.edit { s.buffer.setCurrent
        (Editor.upTo (s.buffer.cursorCol - length) s.buffer.currentLine ++ s.buffer.after) with
          cursorCol := s.buffer.cursorCol - length })
      (o.setCurrent s.buffer
        (Editor.upTo (s.buffer.cursorCol - length) (o.current s.buffer) ++ o.after s.buffer)) :=
  h.edited (h.setLine (plain_append_eq (h.upTo _) h.after))

theorem handleBackspace (h : Mirrors s o) :
    Mirrors (s.handleBackspace host.toMetrics) (o.follow host (s, .backspace)) := by
  refine ite (fun _ => ?_) fun _ => ite (fun _ => ?_) fun _ => h.left
  · simp only [show s.exitHistoryBrowsing.forget.pushUndoSnapshot.markerBefore host.toMetrics =
      s.markerBefore host.toMetrics from rfl]
    cases s.markerBefore host.toMetrics with
    | none => exact h.left.snapshot.deleteBefore _
    | some targetId => exact (h.left.snapshot.unregister targetId).deleteBefore _
  · exact h.left.snapshot.edited h.mergePrevious

end Mirrors

section Motions

variable {s t u : State} (metrics : Metrics)

theorem Still.trans (h : Still s t) (hnext : Still t u) : Still s u where
  lines := hnext.lines.trans h.lines
  draft := hnext.draft.trans h.draft
  killRing := hnext.killRing.trans h.killRing
  undoStack := hnext.undoStack.trans h.undoStack
  pastes := hnext.pastes.trans h.pastes

theorem still_jumpToChar (s : State) (char : Text) (direction : Direction) :
    Still s (s.jumpToChar char direction) := by
  unfold State.jumpToChar
  simp only
  split <;> exact ⟨rfl, rfl, rfl, rfl, rfl⟩

theorem still_moveWordBackwards (s : State) : Still s (s.moveWordBackwards metrics) := by
  unfold State.moveWordBackwards
  simp only
  split
  · split <;> exact ⟨rfl, rfl, rfl, rfl, rfl⟩
  · exact ⟨rfl, rfl, rfl, rfl, rfl⟩

theorem still_moveWordForwards (s : State) : Still s (s.moveWordForwards metrics) := by
  unfold State.moveWordForwards
  simp only
  split
  · split <;> exact ⟨rfl, rfl, rfl, rfl, rfl⟩
  · exact ⟨rfl, rfl, rfl, rfl, rfl⟩

theorem still_moveToVisualLine (visualLines : List VisualLine) (current depth target : ℕ)
    (s : State) : Still s (s.moveToVisualLine metrics visualLines current depth target) := by
  induction depth generalizing target s with
  | zero => exact ⟨rfl, rfl, rfl, rfl, rfl⟩
  | succ depth ih =>
    unfold State.moveToVisualLine
    split
    · simp only
      split
      · split
        · refine Still.trans ?_ (ih _ _)
          exact ⟨rfl, rfl, rfl, rfl, rfl⟩
        · exact ⟨rfl, rfl, rfl, rfl, rfl⟩
      · exact ⟨rfl, rfl, rfl, rfl, rfl⟩
    · exact ⟨rfl, rfl, rfl, rfl, rfl⟩

theorem still_moveVertically (s : State) (target : List VisualLine → ℕ → ℤ) :
    Still s (s.moveVertically metrics target) := by
  have hforget : Still s s.forget := ⟨rfl, rfl, rfl, rfl, rfl⟩
  unfold State.moveVertically
  simp only
  split
  · split
    · exact hforget.trans (still_moveToVisualLine metrics _ _ _ _ s.forget)
    · exact hforget
  · exact hforget

theorem still_moveRight (s : State) : Still s (s.moveRight metrics) := by
  unfold State.moveRight
  simp only
  split
  · split
    · exact ⟨rfl, rfl, rfl, rfl, rfl⟩
    · split
      · exact ⟨rfl, rfl, rfl, rfl, rfl⟩
      · split <;> exact ⟨rfl, rfl, rfl, rfl, rfl⟩
  · exact ⟨rfl, rfl, rfl, rfl, rfl⟩

theorem still_moveLeft (s : State) : Still s (s.moveLeft metrics) := by
  unfold State.moveLeft
  simp only
  split
  · split
    · exact ⟨rfl, rfl, rfl, rfl, rfl⟩
    · split <;> exact ⟨rfl, rfl, rfl, rfl, rfl⟩
  · exact ⟨rfl, rfl, rfl, rfl, rfl⟩

end Motions

theorem mirrors_perform (host : Host) (s : State) (o : Origins) (command : Command)
    (h : Mirrors s o) : Mirrors (perform host s command) (o.follow host (s, command)) := by
  cases command with
  | paste pastedText => exact h.handlePaste host pastedText
  | undo => exact h.undo host
  | deleteToEndOfLine => exact h.deleteToEndOfLine host
  | deleteToStartOfLine => exact h.deleteToStartOfLine host
  | deleteWordBackwards => exact h.deleteWordBackwards host
  | deleteWordForward => exact h.deleteWordForward host
  | backspace => exact h.handleBackspace host
  | forwardDelete => exact h.handleForwardDelete host
  | yank => exact h.yank host
  | yankPop => exact h.yankPop host
  | navigateHistory direction => exact h.navigateHistory host direction
  | addNewLine => exact h.addNewLine host
  | submitValue => exact h.submitValue host
  | insertCharacter char => exact h.insertCharacter host char
  | setText text => exact h.setText host text
  | insertTextAtCursor text => exact h.insertTextAtCursor host text
  | jumpToChar char direction => exact h.still (still_jumpToChar s char direction)
  | moveToLineStart | moveToLineEnd | setJumpMode => exact h.still ⟨rfl, rfl, rfl, rfl, rfl⟩
  | moveWordBackwards => exact h.still (still_moveWordBackwards _ s)
  | moveWordForwards => exact h.still (still_moveWordForwards _ s)
  | moveCursorVertically | pageScroll => exact h.still (still_moveVertically _ s _)
  | moveRight => exact h.still (still_moveRight _ s)
  | moveLeft => exact h.still (still_moveLeft _ s)

end Mirror

section Session

def Origins.initial : Origins := ⟨[[]], none, [], []⟩

/-- The editor after the calls, and where its characters come from. -/
def session (host : Host) (terminalRows paddingX : ℕ) (actions : List Action) : State × Origins :=
  actions.foldl (fun (now : State × Origins) action =>
    (step host now.1 action, (events host now.1 action).foldl (Origins.follow host) now.2))
    (Editor.initial terminalRows paddingX, Origins.initial)

theorem mirrors_session (host : Host) (terminalRows paddingX : ℕ) (actions : List Action) :
    Mirrors (session host terminalRows paddingX actions).1
      (session host terminalRows paddingX actions).2 := by
  have hperform : ∀ s o command, Mirrors s o → True →
      Mirrors (perform host s command) (o.follow host (s, command)) :=
    fun s o command h _ => mirrors_perform host s o command h
  have hquiet : ∀ s t o, Quiet s t → Mirrors s o → Mirrors t o := fun s t o hquiet h =>
    h.still ⟨congrArg Buffer.lines hquiet.buffer, hquiet.historyDraft, hquiet.killRing,
      hquiet.undoStack, hquiet.pastes⟩
  have hstep : ∀ (now : State × Origins) action, Mirrors now.1 now.2 → Mirrors (step host now.1 action)
      ((events host now.1 action).foldl (Origins.follow host) now.2) := fun now action hnow =>
    followed_of_events (Origins.follow host) Mirrors hquiet hperform hnow fun _ _ => trivial
  have hinitial : Mirrors (Editor.initial terminalRows paddingX) Origins.initial :=
    ⟨rfl, rfl, rfl, rfl, filled_empty, forall_mem_nil _⟩
  exact foldlRecOn (motive := fun now : State × Origins => Mirrors now.1 now.2) actions _ hinitial
    fun now hnow action _ => hstep now action hnow

theorem plain_intercalate (sep : List Traced) (lines : List (List Traced)) :
    plain (sep.intercalate lines) = (plain sep).intercalate (lines.map plain) := by
  induction lines with
  | nil => rfl
  | cons line rest ih =>
    cases rest with
    | nil => simp
    | cons next rest =>
      simp only [map_cons, intercalate_cons_cons, plain_append] at ih ⊢
      rw [ih]

variable {s : State} {o : Origins}

theorem Mirrors.text (h : Mirrors s o) : plain o.text = s.text := by
  unfold State.text joinLines
  rw [← h.lines]
  exact plain_intercalate _ _

end Session

end Pidrei.Editor
