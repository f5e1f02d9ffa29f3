import Pidrei.EditorMotion

/-!
What the editor does with its input: the chain of tests in `handle_input` as a
decision about operations, bracketed pastes that come in parts, and the other
calls that change the editor.
-/
namespace Pidrei.Editor

open PythonText

/-- The key bindings that the editor asks for. -/
inductive Keybinding where
  | jumpForward
  | jumpBackward
  | copy
  | undo
  | tab
  | deleteToLineEnd
  | deleteToLineStart
  | deleteWordBackward
  | deleteWordForward
  | deleteCharBackward
  | deleteCharForward
  | yank
  | yankPop
  | historyPrevious
  | historyNext
  | cursorLineStart
  | cursorLineEnd
  | cursorWordLeft
  | cursorWordRight
  | newLine
  | submit
  | cursorUp
  | cursorDown
  | cursorRight
  | cursorLeft
  | pageUp
  | pageDown

inductive Key where
  | shiftBackspace
  | shiftDelete
  | enter
  | shiftSpace

/-- What the editor asks about its input, and how it measures texts. `submitOnShiftEnter` says
whether shift+enter is one of the keys that submit. -/
structure Host extends Metrics where
  matchesBinding : Text → Keybinding → Bool
  matchesKey : Text → Key → Bool
  decodePrintableKey : Text → Option Text
  submitOnShiftEnter : Bool

/-- The operations that an input or a call asks for. -/
inductive Command where
  | jumpToChar (char : Text) (direction : Direction)
  | paste (pastedText : Text)
  | undo
  | deleteToEndOfLine
  | deleteToStartOfLine
  | deleteWordBackwards
  | deleteWordForward
  | backspace
  | forwardDelete
  | yank
  | yankPop
  | navigateHistory (direction : ℤ)
  | moveToLineStart
  | moveToLineEnd
  | moveWordBackwards
  | moveWordForwards
  | addNewLine
  | submitValue
  | moveCursorVertically (delta : ℤ)
  | moveRight
  | moveLeft
  | pageScroll (direction : ℤ)
  | setJumpMode (direction : Direction)
  | insertCharacter (char : Text)
  | setText (text : Text)
  | insertTextAtCursor (text : Text)

def perform (host : Host) (s : State) : Command → State
  | .jumpToChar char direction => s.jumpToChar char direction
  | .paste pastedText => s.handlePaste pastedText
  | .undo => s.undo
  | .deleteToEndOfLine => s.deleteToEndOfLine
  | .deleteToStartOfLine => s.deleteToStartOfLine
  | .deleteWordBackwards => s.deleteWordBackwards host.toMetrics
  | .deleteWordForward => s.deleteWordForward host.toMetrics
  | .backspace => s.handleBackspace host.toMetrics
  | .forwardDelete => s.handleForwardDelete host.toMetrics
  | .yank => s.yank
  | .yankPop => s.yankPop
  | .navigateHistory direction => s.navigateHistory direction
  | .moveToLineStart => s.moveToLineStart
  | .moveToLineEnd => s.moveToLineEnd
  | .moveWordBackwards => s.moveWordBackwards host.toMetrics
  | .moveWordForwards => s.moveWordForwards host.toMetrics
  | .addNewLine => s.addNewLine
  | .submitValue => s.submitValue
  | .moveCursorVertically delta => s.moveCursorVertically host.toMetrics delta
  | .moveRight => s.moveRight host.toMetrics
  | .moveLeft => s.moveLeft host.toMetrics
  | .pageScroll direction => s.pageScroll host.toMetrics direction
  | .setJumpMode direction => { s with jumpMode := some direction }
  | .insertCharacter char => s.insertCharacter char
  | .setText text => s.setText text
  | .insertTextAtCursor text => s.insertTextAtCursor text

/-- The character before the cursor is a backslash. -/
def State.afterBackslash (s : State) : Bool :=
  0 < s.buffer.cursorCol &&
    s.buffer.currentLine[place s.buffer.currentLine.length (s.buffer.cursorCol - 1)]? = some '\\'

def State.shouldSubmitOnBackslashEnter (host : Host) (s : State) (data : Text) : Bool :=
  !s.disableSubmit && host.matchesKey data .enter && host.submitOnShiftEnter && s.afterBackslash

def isNewLine (host : Host) (data : Text) : Bool :=
  host.matchesBinding data .newLine || (data.head? = some '\n' && 1 < data.length) ||
    data = ['\x1b', '\r'] || data = "\x1b[13;2~".toList ||
    (1 < data.length && data.contains '\x1b' && data.contains '\r') || data = ['\n']

def State.isEditorEmpty (s : State) : Bool := s.buffer.lines = [[]]

/-- The cursor is on the first visual line, and on the last one; `none` where the layout raises. -/
def State.edgeRows (host : Host) (s : State) : Option (Bool × Bool) :=
  (s.visualLines host.toMetrics).map fun visualLines =>
    let current := s.findCurrentVisualLine visualLines
    (current = 0, current + 1 = visualLines.length)

def State.cursorUp (host : Host) (s : State) : List Command :=
  match s.edgeRows host with
  | none => []
  | some (first, _) =>
    if first && (s.isEditorEmpty || -1 < s.historyIndex || s.buffer.cursorCol = 0) then
      [.navigateHistory (-1)]
    else if first then [.moveToLineStart]
    else [.moveCursorVertically (-1)]

def State.cursorDown (host : Host) (s : State) : List Command :=
  match s.edgeRows host with
  | none => []
  | some (_, last) =>
    if -1 < s.historyIndex && last then [.navigateHistory 1]
    else if last then [.moveToLineEnd]
    else [.moveCursorVertically 1]

def startsPrintable (data : Text) : Bool :=
  match data.head? with
  | some c => 32 ≤ c.toNat
  | none => false

/-- The tests of `handle_input` from the undo key on, in their order. -/
def State.dispatch (host : Host) (s : State) (data : Text) : List Command :=
  if host.matchesBinding data .copy then []
  else if host.matchesBinding data .undo then [.undo]
  else if host.matchesBinding data .tab then []
  else if host.matchesBinding data .deleteToLineEnd then [.deleteToEndOfLine]
  else if host.matchesBinding data .deleteToLineStart then [.deleteToStartOfLine]
  else if host.matchesBinding data .deleteWordBackward then [.deleteWordBackwards]
  else if host.matchesBinding data .deleteWordForward then [.deleteWordForward]
  else if host.matchesBinding data .deleteCharBackward || host.matchesKey data .shiftBackspace then
    [.backspace]
  else if host.matchesBinding data .deleteCharForward || host.matchesKey data .shiftDelete then
    [.forwardDelete]
  else if host.matchesBinding data .yank then [.yank]
  else if host.matchesBinding data .yankPop then [.yankPop]
  else if host.matchesBinding data .historyPrevious then [.navigateHistory (-1)]
  else if host.matchesBinding data .historyNext then [.navigateHistory 1]
  else if host.matchesBinding data .cursorLineStart then [.moveToLineStart]
  else if host.matchesBinding data .cursorLineEnd then [.moveToLineEnd]
  else if host.matchesBinding data .cursorWordLeft then [.moveWordBackwards]
  else if host.matchesBinding data .cursorWordRight then [.moveWordForwards]
  else if isNewLine host data then
    if s.shouldSubmitOnBackslashEnter host data then [.backspace, .submitValue] else [.addNewLine]
  else if host.matchesBinding data .submit then
    if s.disableSubmit then []
    else if s.afterBackslash then [.backspace, .addNewLine]
    else [.submitValue]
  else if host.matchesBinding data .cursorUp then s.cursorUp host
  else if host.matchesBinding data .cursorDown then s.cursorDown host
  else if host.matchesBinding data .cursorRight then [.moveRight]
  else if host.matchesBinding data .cursorLeft then [.moveLeft]
  else if host.matchesBinding data .pageUp then [.pageScroll (-1)]
  else if host.matchesBinding data .pageDown then [.pageScroll 1]
  else if host.matchesBinding data .jumpForward then [.setJumpMode .forward]
  else if host.matchesBinding data .jumpBackward then [.setJumpMode .backward]
  else if host.matchesKey data .shiftSpace then [.insertCharacter [' ']]
  else
    match host.decodePrintableKey data with
    | some printable => [.insertCharacter printable]
    | none => if startsPrintable data then [.insertCharacter data] else []

def pasteStart : Text := "\x1b[200~".toList

def pasteEnd : Text := "\x1b[201~".toList

/-- `data.replace(PASTE_START, "", 1)`. -/
def withoutPasteStart (data : Text) : Text :=
  match TextSearch.find pasteStart data with
  | some i => data.take i ++ data.drop (i + pasteStart.length)
  | none => data

/-- What one call of `handle_input` does itself: the flags it sets, the operations it then makes,
and the input it hands on to a further call. -/
structure Received where
  state : State
  commands : List Command
  remaining : Text

/-- The part of `handle_input` behind the jump mode. -/
def State.receivePaste (host : Host) (s : State) (data : Text) : Received :=
  let starts := (TextSearch.find pasteStart data).isSome
  let s := if starts then { s with isInPaste := true, pasteBuffer := [] } else s
  let data := if starts then withoutPasteStart data else data
  if s.isInPaste then
    let pasteBuffer := s.pasteBuffer ++ data
    match TextSearch.find pasteEnd pasteBuffer with
    | some endIndex =>
      let pasteContent := pasteBuffer.take endIndex
      { state := { s with isInPaste := false, pasteBuffer := [] }
        commands := if pasteContent = [] then [] else [.paste pasteContent]
        remaining := pasteBuffer.drop (endIndex + 6) }
    | none => ⟨{ s with pasteBuffer := pasteBuffer }, [], []⟩
  else ⟨s, s.dispatch host data, []⟩

def State.receive (host : Host) (s : State) (data : Text) : Received :=
  match s.jumpMode with
  | none => s.receivePaste host data
  | some direction =>
    let cancelled := { s with jumpMode := none }
    if host.matchesBinding data .jumpForward || host.matchesBinding data .jumpBackward then
      ⟨cancelled, [], []⟩
    else
      match (host.decodePrintableKey data).or (if startsPrintable data then some data else none) with
      | some printable => ⟨cancelled, [.jumpToChar printable direction], []⟩
      | none => cancelled.receivePaste host data

/-- What remains gets shorter with every call, so that `depth` may be the length of the input. -/
def handleInputTo (host : Host) : ℕ → State → Text → State
  | 0, s, _ => s
  | depth + 1, s, data =>
    let received := s.receive host data
    let made := received.commands.foldl (perform host) received.state
    if received.remaining = [] then made else handleInputTo host depth made received.remaining

def State.handleInput (host : Host) (s : State) (data : Text) : State :=
  handleInputTo host (s.pasteBuffer.length + data.length + 1) s data

/-- The calls that change an editor or what it asks about. -/
inductive Action where
  | input (data : Text)
  | setText (text : Text)
  | insertTextAtCursor (text : Text)
  | addToHistory (text : Text)
  | render (width : ℕ)
  | resize (terminalRows : ℕ)
  | setPaddingX (padding : ℕ)
  | setDisableSubmit (disabled : Bool)

/-- `_last_width` after `render(width)`. -/
def State.render (s : State) (width : ℕ) : State :=
  let paddingX := min s.paddingX ((width - 1) / 2)
  let contentWidth := max 1 (width - paddingX * 2)
  { s with lastWidth := max 1 (contentWidth - if paddingX = 0 then 1 else 0) }

def step (host : Host) (s : State) : Action → State
  | .input data => s.handleInput host data
  | .setText text => perform host s (.setText text)
  | .insertTextAtCursor text => perform host s (.insertTextAtCursor text)
  | .addToHistory text => s.addToHistory text
  | .render width => s.render width
  | .resize terminalRows => { s with terminalRows := terminalRows }
  | .setPaddingX padding => { s with paddingX := padding }
  | .setDisableSubmit disabled => { s with disableSubmit := disabled }

section Events

/-- The operations with the states they are made in. -/
def performed (host : Host) : State → List Command → List (State × Command)
  | _, [] => []
  | s, command :: rest => (s, command) :: performed host (perform host s command) rest

/-- The operations that one input leads to. -/
def rounds (host : Host) : ℕ → State → Text → List (State × Command)
  | 0, _, _ => []
  | depth + 1, s, data =>
    let received := s.receive host data
    let made := received.commands.foldl (perform host) received.state
    performed host received.state received.commands ++
      if received.remaining = [] then [] else rounds host depth made received.remaining

def events (host : Host) (s : State) : Action → List (State × Command)
  | .input data => rounds host (s.pasteBuffer.length + data.length + 1) s data
  | .setText text => [(s, .setText text)]
  | .insertTextAtCursor text => [(s, .insertTextAtCursor text)]
  | _ => []

/-- Nothing that the operations work on has changed but the width, which is positive. -/
structure Quiet (s t : State) : Prop where
  buffer : t.buffer = s.buffer
  pastes : t.pastes = s.pastes
  pasteCounter : t.pasteCounter = s.pasteCounter
  historyDraft : t.historyDraft = s.historyDraft
  killRing : t.killRing = s.killRing
  lastAction : t.lastAction = s.lastAction
  preferred : t.preferredVisualCol = s.preferredVisualCol
  snapped : t.snappedFromCursorCol = s.snappedFromCursorCol
  undoStack : t.undoStack = s.undoStack
  submitted : t.submitted = s.submitted
  width : 0 < s.lastWidth → 0 < t.lastWidth

theorem quiet_receivePaste (host : Host) (s : State) (data : Text) :
    Quiet s (s.receivePaste host data).state := by
  unfold State.receivePaste
  simp only
  split
  · split
    · split <;> exact ⟨rfl, rfl, rfl, rfl, rfl, rfl, rfl, rfl, rfl, rfl, id⟩
    · exact ⟨rfl, rfl, rfl, rfl, rfl, rfl, rfl, rfl, rfl, rfl, id⟩
  · split
    · split <;> exact ⟨rfl, rfl, rfl, rfl, rfl, rfl, rfl, rfl, rfl, rfl, id⟩
    · exact ⟨rfl, rfl, rfl, rfl, rfl, rfl, rfl, rfl, rfl, rfl, id⟩

theorem quiet_receive (host : Host) (s : State) (data : Text) :
    Quiet s (s.receive host data).state := by
  unfold State.receive
  split
  · exact quiet_receivePaste host s data
  · simp only
    split
    · exact ⟨rfl, rfl, rfl, rfl, rfl, rfl, rfl, rfl, rfl, rfl, id⟩
    · split
      · exact ⟨rfl, rfl, rfl, rfl, rfl, rfl, rfl, rfl, rfl, rfl, id⟩
      · obtain ⟨h1, h2, h3, h4, h5, h6, h7, h8, h9, h10, h11⟩ :=
          quiet_receivePaste host { s with jumpMode := none } data
        exact ⟨h1, h2, h3, h4, h5, h6, h7, h8, h9, h10, h11⟩

variable {host : Host} {ω : Type*} {meets : State → Command → Prop}

section Followed

variable (next : ω → State × Command → ω) (holds : State → ω → Prop) {s : State} {w : ω}

theorem followed_of_performed
    (hperform : ∀ s w command, holds s w → meets s command →
      holds (perform host s command) (next w (s, command))) {commands : List Command} (hs : holds s w)
    (h : ∀ event ∈ performed host s commands, meets event.1 event.2) :
    holds (commands.foldl (perform host) s) ((performed host s commands).foldl next w) := by
  induction commands generalizing s w with
  | nil => exact hs
  | cons command rest ih =>
    exact ih (hperform s w command hs (h (s, command) List.mem_cons_self))
      fun event hevent => h event (List.mem_cons_of_mem _ hevent)

theorem followed_of_rounds
    (hquiet : ∀ s t w, Quiet s t → holds s w → holds t w)
    (hperform : ∀ s w command, holds s w → meets s command →
      holds (perform host s command) (next w (s, command)))
    {depth : ℕ} {data : Text} (hs : holds s w)
    (h : ∀ event ∈ rounds host depth s data, meets event.1 event.2) :
    holds (handleInputTo host depth s data) ((rounds host depth s data).foldl next w) := by
  induction depth generalizing s w data with
  | zero => exact hs
  | succ depth ih =>
    have hreceived := hquiet _ _ w (quiet_receive host s data) hs
    simp only [rounds] at h ⊢
    have hmade := followed_of_performed next holds hperform hreceived
      fun event hevent => h event (List.mem_append_left _ hevent)
    rw [handleInputTo, List.foldl_append]
    split
    · exact hmade
    · rename_i hremaining
      rw [if_neg hremaining] at h
      exact ih hmade fun event hevent => h event (List.mem_append_right _ hevent)

theorem followed_of_events
    (hquiet : ∀ s t w, Quiet s t → holds s w → holds t w)
    (hperform : ∀ s w command, holds s w → meets s command →
      holds (perform host s command) (next w (s, command))) {action : Action} (hs : holds s w)
    (h : ∀ event ∈ events host s action, meets event.1 event.2) :
    holds (step host s action) ((events host s action).foldl next w) := by
  cases action with
  | input data => exact followed_of_rounds next holds hquiet hperform hs h
  | setText | insertTextAtCursor => exact hperform s w _ hs (h _ (List.mem_singleton_self _))
  | addToHistory text =>
    refine hquiet s _ w ?_ hs
    unfold step State.addToHistory
    simp only
    split <;> exact ⟨rfl, rfl, rfl, rfl, rfl, rfl, rfl, rfl, rfl, rfl, id⟩
  | render width =>
    refine hquiet s _ w ⟨rfl, rfl, rfl, rfl, rfl, rfl, rfl, rfl, rfl, rfl, fun _ => ?_⟩ hs
    exact Nat.lt_of_lt_of_le Nat.one_pos (Nat.le_max_left 1 _)
  | resize | setPaddingX | setDisableSubmit =>
    exact hquiet s _ w ⟨rfl, rfl, rfl, rfl, rfl, rfl, rfl, rfl, rfl, rfl, id⟩ hs

end Followed

/-- The same without a record. -/
theorem kept_of_events {holds : State → Prop} (hquiet : ∀ s t, Quiet s t → holds s → holds t)
    (hperform : ∀ s command, holds s → meets s command → holds (perform host s command)) {s : State}
    {action : Action} (hs : holds s) (h : ∀ event ∈ events host s action, meets event.1 event.2) :
    holds (step host s action) :=
  followed_of_events (fun (_ : Unit) _ => ()) (fun t _ => holds t) (fun s t _ => hquiet s t)
    (fun s _ command => hperform s command) (w := ()) hs h

end Events

/-- Every character on its own. -/
def characters : Segmenter where
  pieces text := text.map fun c => ([c], c.isAlphanum)
  joined text := by
    induction text with
    | nil => rfl
    | cons c rest ih => exact congrArg (c :: ·) ih
  nonempty text piece h := by
    obtain ⟨c, _, rfl⟩ := List.mem_map.mp h
    exact List.cons_ne_nil c []

/-- A host for printable ASCII text, with a few keys. -/
def asciiHost : Host where
  visibleWidth text := text.length
  graphemes := characters
  words := characters
  recursionLimit := 1000
  matchesBinding data binding :=
    match binding with
    | .deleteCharBackward => data = ['\x7f']
    | .cursorUp => data = "\x1b[A".toList
    | .cursorDown => data = "\x1b[B".toList
    | .submit => data = ['\r']
    | _ => false
  matchesKey _ _ := false
  decodePrintableKey _ := none
  submitOnShiftEnter := false

def keys (text : String) : Action := .input text.toList

def bracketed (text : String) : Action := .input (pasteStart ++ text.toList ++ pasteEnd)

end Pidrei.Editor
