import Mathlib.Data.List.Basic

/-!
The overlays of the terminal UI and the keyboard focus. Each overlay keeps the component
that was focused before it, and one record says which overlay gets the focus back. What a
`visible` callback says, and which components are mounted, may change between any two
operations; a key is routed by what they say then.
-/
namespace Pidrei.Tui.Overlays

variable {κ : Type}

/-- An entry of the overlay stack, which its handle keeps when it is no longer `stacked`. -/
structure Overlay (κ : Type) where
  id : ℕ
  component : κ
  nonCapturing : Bool
  /-- It has a `visible` callback. -/
  callback : Bool
  preFocus : Option κ
  hidden : Bool
  focusOrder : ℕ
  stacked : Bool

inductive Resume (κ : Type)
  | restoreOverlay
  | focusTarget (target : Option κ)

inductive Restore (κ : Type)
  | inactive
  | eligible (overlay : ℕ)
  | blocked (overlay : ℕ) (blockedBy : κ) (resume : Resume κ)

/-- `overlays` are all that were ever shown, in the order of the stack; `admits` is what the
`visible` callbacks say and `mounted` which components are under the roots. `handed` is the
component that the last operation has handed a key to. -/
structure State (κ : Type) where
  overlays : List (Overlay κ)
  focused : Option κ
  restore : Restore κ
  focusOrderCounter : ℕ
  admits : ℕ → Bool
  mounted : κ → Bool
  handed : Option κ

inductive Action (κ : Type)
  | change (admits : ℕ → Bool) (mounted : κ → Bool)
  | showOverlay (component : κ) (nonCapturing callback : Bool)
  | hide (overlay : ℕ)
  | setHidden (overlay : ℕ) (hidden : Bool)
  | focus (overlay : ℕ)
  /-- `options` is the target, where one is given. -/
  | unfocus (overlay : ℕ) (options : Option (Option κ))
  | setFocus (component : Option κ)
  | hideOverlay
  /-- A key; `takes` says which components handle it. -/
  | routeInput (takes : κ → Bool)

namespace Restore

def overlay? : Restore κ → Option ℕ
  | .inactive => none
  | .eligible overlay | .blocked overlay _ _ => some overlay

end Restore

namespace State

/-- `_is_overlay_visible`. -/
def isVisible (s : State κ) (overlay : Overlay κ) : Bool :=
  !overlay.hidden && (!overlay.callback || s.admits overlay.id)

def stack (s : State κ) : List (Overlay κ) := s.overlays.filter Overlay.stacked

def componentOf (s : State κ) (id : ℕ) : Option κ := s.overlays[id]?.map Overlay.component

/-- `_get_topmost_visible_overlay`. -/
def topmost (s : State κ) : Option (Overlay κ) :=
  (s.stack.filter fun overlay => !overlay.nonCapturing && s.isVisible overlay).foldl
    (fun topmost overlay =>
      if topmost.any (overlay.focusOrder ≤ Overlay.focusOrder ·) then topmost else some overlay) none

/-- `_get_visible_overlay_focus_restore`. -/
def visibleRestore (s : State κ) : Restore κ :=
  match s.restore.overlay?.bind (s.overlays[·]?) with
  | some overlay => if overlay.stacked && s.isVisible overlay then s.restore else .inactive
  | none => .inactive

def clearRestore (s : State κ) : State κ := { s with restore := .inactive }

/-- `_clear_overlay_focus_restore_for`. -/
def clearRestoreFor (s : State κ) (id : ℕ) : State κ :=
  if s.restore.overlay? = some id then s.clearRestore else s

def modify (s : State κ) (id : ℕ) (change : Overlay κ → Overlay κ) : State κ :=
  { s with overlays := s.overlays.modify id change }

/-- The overlay's next focus order. -/
def bringForward (s : State κ) (id : ℕ) : State κ :=
  { s with focusOrderCounter := s.focusOrderCounter + 1 }.modify id fun overlay =>
    { overlay with focusOrder := s.focusOrderCounter + 1 }

variable [DecidableEq κ]

def owner (s : State κ) (component : κ) : Option (Overlay κ) :=
  s.stack.find? fun overlay => overlay.component = component

def visibleOwner (s : State κ) (component : κ) : Option (Overlay κ) :=
  s.stack.find? fun overlay => overlay.component = component && s.isVisible overlay

def isOverlay (s : State κ) (component : κ) : Bool :=
  s.stack.any fun overlay => overlay.component = component

/-- Every step but the last visits the component of one more overlay. -/
def isAncestorFrom (s : State κ) (component : κ) : ℕ → Option κ → List κ → Bool
  | fuel + 1, some current, visited =>
    if current ∈ visited then false
    else if current = component then true
    else s.isAncestorFrom component fuel ((s.owner current).bind Overlay.preFocus) (current :: visited)
  | _, _, _ => false

/-- `_is_overlay_focus_ancestor`. -/
def isAncestor (s : State κ) (overlay : Overlay κ) (component : κ) : Bool :=
  s.isAncestorFrom component (s.stack.length + 1) overlay.preFocus []

/-- `_retarget_overlay_pre_focus`. -/
def retarget (s : State κ) (removed : Overlay κ) : State κ :=
  { s with overlays := s.overlays.map fun overlay =>
      if overlay.stacked && overlay.id ≠ removed.id && overlay.preFocus = some removed.component then
        { overlay with preFocus := removed.preFocus }
      else overlay }

/-- `_resolve_blocked_overlay_focus_resume`. -/
def resolveBlocked (s : State κ) (overlay : ℕ) : Resume κ → State κ × Option κ
  | .restoreOverlay => (s, s.componentOf overlay)
  | .focusTarget target => (s.clearRestore, target)

/-- The focused overlay with the record loses the focus to a component that is not below it. -/
def losesTo (s : State κ) (overlay : ℕ) (component : κ) : Bool :=
  (s.focused.bind s.visibleOwner).any fun previous =>
    previous.id = overlay && !s.isAncestor previous component

/-- The record before the focus changes, and the component that is focused then. -/
def nextFocus (s : State κ) (component : Option κ) (clear : Bool) : State κ × Option κ :=
  match component, s.visibleRestore with
  | some c, restore =>
    if s.isOverlay c then (s, some c)
    else
      match restore with
      | .inactive => (s, some c)
      | .eligible overlay =>
        if s.losesTo overlay c then ({ s with restore := .blocked overlay c .restoreOverlay }, some c)
        else (s, some c)
      | .blocked overlay blockedBy resume =>
        if s.focused = some blockedBy then
          match resume with
          | .focusTarget target => s.resolveBlocked overlay (.focusTarget target)
          | .restoreOverlay =>
            if s.mounted blockedBy then
              ({ s with restore := .blocked overlay c .restoreOverlay }, some c)
            else s.resolveBlocked overlay .restoreOverlay
        else if s.losesTo overlay c then
          ({ s with restore := .blocked overlay c .restoreOverlay }, some c)
        else (s, some c)
  | none, .blocked overlay blockedBy resume =>
    if s.focused = some blockedBy then s.resolveBlocked overlay resume
    else (if clear then s.clearRestore else s, none)
  | none, _ => (if clear then s.clearRestore else s, none)

/-- `_set_focus_internal`. -/
def setFocusInternal (s : State κ) (component : Option κ) (clear : Bool) : State κ :=
  let (s, next) := s.nextFocus component clear
  let s := { s with focused := next }
  match next.bind s.visibleOwner with
  | some overlay => { s with restore := .eligible overlay.id }
  | none => s

def setFocus (s : State κ) (component : Option κ) : State κ := s.setFocusInternal component true

/-- The topmost visible overlay, else what was focused before. -/
def focusBehind (s : State κ) (preFocus : Option κ) : State κ :=
  s.setFocus (match s.topmost with
    | some overlay => some overlay.component
    | none => preFocus)

def showOverlay (s : State κ) (component : κ) (nonCapturing callback : Bool) : State κ :=
  let entry : Overlay κ := {
    id := s.overlays.length, component, nonCapturing, callback, preFocus := s.focused, hidden := false
    focusOrder := s.focusOrderCounter + 1, stacked := true }
  let s := { s with
    focusOrderCounter := s.focusOrderCounter + 1, overlays := s.overlays ++ [entry] }
  if !nonCapturing && s.isVisible entry then s.setFocus (some component) else s

/-- Take the overlay off the stack. -/
def remove (s : State κ) (overlay : Overlay κ) : State κ :=
  let s := ((s.clearRestoreFor overlay.id).retarget overlay).modify overlay.id
    fun overlay => { overlay with stacked := false }
  if s.focused = some overlay.component then s.focusBehind overlay.preFocus else s

def hide (s : State κ) (overlay : Overlay κ) : State κ :=
  if overlay.stacked then s.remove overlay else s

def setHidden (s : State κ) (overlay : Overlay κ) (hidden : Bool) : State κ :=
  if overlay.hidden = hidden then s
  else
    let s := s.modify overlay.id fun overlay => { overlay with hidden }
    if hidden then
      let s := s.clearRestoreFor overlay.id
      if s.focused = some overlay.component then s.focusBehind overlay.preFocus else s
    else if !overlay.nonCapturing && s.isVisible { overlay with hidden } then
      (s.bringForward overlay.id).setFocus (some overlay.component)
    else s

def focus (s : State κ) (overlay : Overlay κ) : State κ :=
  if overlay.stacked && s.isVisible overlay then
    (s.bringForward overlay.id).setFocus (some overlay.component)
  else s

/-- The record of an overlay that waits for the focused component, after an `unfocus`. -/
def unfocusBlocked (s : State κ) (overlay : Overlay κ) (blockedBy : κ) :
    Option (Option κ) → State κ
  | some target => { s with restore := .blocked overlay.id blockedBy (.focusTarget target) }
  | none => s.clearRestore

def unfocusFocused (s : State κ) (overlay : Overlay κ) (options : Option (Option κ)) : State κ :=
  let isFocused := s.focused = some overlay.component
  let s := s.clearRestoreFor overlay.id
  if isFocused ∨ options.isSome then
    let fallback := match s.topmost with
      | some top => if top.id ≠ overlay.id then some top.component else overlay.preFocus
      | none => overlay.preFocus
    s.setFocus (options.getD fallback)
  else s

def unfocus (s : State κ) (overlay : Overlay κ) (options : Option (Option κ)) : State κ :=
  if s.focused ≠ some overlay.component ∧ s.restore.overlay? ≠ some overlay.id then s
  else
    match s.restore with
    | .blocked id blockedBy _ =>
      if id = overlay.id ∧ s.focused = some blockedBy then s.unfocusBlocked overlay blockedBy options
      else s.unfocusFocused overlay options
    | _ => s.unfocusFocused overlay options

def hideOverlay (s : State κ) : State κ :=
  match s.stack.getLast? with
  | some overlay => s.remove overlay
  | none => s

/-- A focused overlay that is no longer visible gives the focus away. -/
def redirect (s : State κ) : State κ :=
  match s.focused.bind s.owner with
  | some overlay =>
    if s.isVisible overlay then s
    else
      match s.topmost with
      | some top => s.setFocus (some top.component)
      | none => s.setFocusInternal overlay.preFocus false
  | none => s

/-- A visible overlay gets the focus back that a component outside the overlays has. -/
def restoreFocus (s : State κ) : State κ :=
  if s.focused.any s.isOverlay then s
  else
    match s.visibleRestore with
    | .inactive => s
    | .eligible overlay => s.setFocus (s.componentOf overlay)
    | .blocked overlay blockedBy resume =>
      if s.focused = some blockedBy then s
      else
        match resume with
        | .restoreOverlay => s.setFocus (s.componentOf overlay)
        | .focusTarget target => s.clearRestore.setFocus target

/-- `_route_input`, for input that nothing before the focus has consumed. -/
def routeInput (s : State κ) (takes : κ → Bool) : State κ :=
  let s := s.redirect.restoreFocus
  { s with handed := s.focused.filter takes }

def withOverlay (s : State κ) (id : ℕ) (operation : State κ → Overlay κ → State κ) : State κ :=
  match s.overlays[id]? with
  | some overlay => operation s overlay
  | none => s

/-- An operation that hands no key over. -/
def operate (s : State κ) : Action κ → State κ
  | .change admits mounted => { s with admits, mounted }
  | .showOverlay component nonCapturing callback => s.showOverlay component nonCapturing callback
  | .hide id => s.withOverlay id hide
  | .setHidden id hidden => s.withOverlay id (setHidden · · hidden)
  | .focus id => s.withOverlay id focus
  | .unfocus id options => s.withOverlay id (unfocus · · options)
  | .setFocus component => s.setFocus component
  | .hideOverlay => s.hideOverlay
  | .routeInput _ => s

def step (s : State κ) (action : Action κ) : State κ :=
  match action with
  | .routeInput takes => s.routeInput takes
  | action => { s.operate action with handed := none }

end State

def start (admits : ℕ → Bool) (mounted : κ → Bool) : State κ :=
  ⟨[], none, .inactive, 0, admits, mounted, none⟩

end Pidrei.Tui.Overlays
