import Pidrei.Library.Runs
import Pidrei.Overlays

/-!
To whom a key goes. The redirect away from an overlay that is no longer visible is one
step: where no other overlay takes over, it ends at the component that was focused
before, which may belong to an invisible overlay itself.
-/
namespace Pidrei.Tui.Overlays

variable {κ : Type}

namespace State

/-- The component of an overlay that is not visible now. -/
def Concealed (s : State κ) (component : κ) : Prop :=
  ∃ overlay ∈ s.stack, overlay.component = component ∧ s.isVisible overlay = false

/-- The component that the record gives the focus back to. -/
def resumes (s : State κ) : Option κ :=
  match s.visibleRestore with
  | .inactive => none
  | .eligible overlay | .blocked overlay _ .restoreOverlay => s.componentOf overlay
  | .blocked _ _ (.focusTarget target) => target

variable [DecidableEq κ]

/-- The component that was focused before keeps the focus that an invisible overlay gives to it. -/
def keepsFocus (s : State κ) (preFocus : Option κ) : Bool :=
  match preFocus, s.visibleRestore with
  | _, .inactive => true
  | none, _ => false
  | some c, .eligible overlay => s.losesTo overlay c
  | some c, .blocked overlay blockedBy resume =>
    if s.focused = some blockedBy then
      match resume with
      | .restoreOverlay => s.mounted blockedBy
      | .focusTarget _ => false
    else c = blockedBy || s.losesTo overlay c

/-- The record leaves the focus with a component outside the overlays. -/
def isBlocked (s : State κ) : Bool :=
  match s.visibleRestore with
  | .inactive => true
  | .eligible _ => false
  | .blocked _ blockedBy _ => s.focused = some blockedBy

/-- How a key comes to the component, which is one of an invisible overlay as well. -/
inductive Misdirects (s : State κ) (component : κ) : Prop
  | kept (overlay : Overlay κ) (howner : s.focused.bind s.owner = some overlay)
      (hvisible : s.isVisible overlay = true) (hc : s.focused = some component)
  | topmost (overlay top : Overlay κ) (howner : s.focused.bind s.owner = some overlay)
      (hvisible : s.isVisible overlay = false) (htop : s.topmost = some top)
      (hc : top.component = component)
  | behind (overlay : Overlay κ) (howner : s.focused.bind s.owner = some overlay)
      (hvisible : s.isVisible overlay = false) (htop : s.topmost = none)
      (hc : overlay.preFocus = some component)
  | resumedBehind (overlay : Overlay κ) (howner : s.focused.bind s.owner = some overlay)
      (hvisible : s.isVisible overlay = false) (htop : s.topmost = none)
      (houtside : overlay.preFocus.any s.isOverlay = false)
      (hkeeps : s.keepsFocus overlay.preFocus = false) (hc : s.resumes = some component)
  | resumed (houtside : s.focused.bind s.owner = none) (hblocked : s.isBlocked = false)
      (hc : s.resumes = some component)

end State

section Frame

variable {s t : State κ} {c : κ}

/-- The states differ in nothing that says which overlays there are and which are visible. -/
structure SameOverlays (s t : State κ) : Prop where
  overlays : t.overlays = s.overlays
  admits : t.admits = s.admits

theorem SameOverlays.stack (h : SameOverlays s t) : t.stack = s.stack :=
  congrArg (List.filter Overlay.stacked) h.overlays

theorem SameOverlays.isVisible (h : SameOverlays s t) (overlay : Overlay κ) :
    t.isVisible overlay = s.isVisible overlay := by
  simp only [State.isVisible, h.admits]

theorem SameOverlays.componentOf (h : SameOverlays s t) (id : ℕ) :
    t.componentOf id = s.componentOf id := by
  simp only [State.componentOf, h.overlays]

theorem SameOverlays.concealed (h : SameOverlays s t) : t.Concealed c ↔ s.Concealed c := by
  simp only [State.Concealed, h.stack, h.isVisible]

theorem SameOverlays.visibleRestore (h : SameOverlays s t) (hrestore : t.restore = s.restore) :
    t.visibleRestore = s.visibleRestore := by
  simp only [State.visibleRestore, h.overlays, h.isVisible, hrestore]

theorem visibleRestore_of_overlay {restore : Restore κ} {id : ℕ} (focused : Option κ)
    (h : s.visibleRestore.overlay? = some id) (hrestore : restore.overlay? = some id) :
    { s with focused, restore }.visibleRestore = restore := by
  unfold State.visibleRestore at h
  split at h
  · rename_i overlay hfound
    split at h
    · rename_i hseen
      rw [h] at hfound
      unfold State.visibleRestore
      dsimp only
      rw [hrestore, hfound]
      exact if_pos hseen
    · cases h
  · cases h

theorem mem_of_topmost {overlay : Overlay κ} (h : s.topmost = some overlay) : overlay ∈ s.stack := by
  have hfold : ∀ (overlays : List (Overlay κ)) (top : Option (Overlay κ)),
      overlays.foldl (fun topmost overlay =>
        if topmost.any (overlay.focusOrder ≤ Overlay.focusOrder ·) then topmost else some overlay) top =
        some overlay → overlay ∈ overlays ∨ top = some overlay := by
    intro overlays
    induction overlays with
    | nil => exact fun top htop => .inr htop
    | cons next overlays ih =>
      intro top htop
      rcases ih _ htop with hmem | hpick
      · exact .inl (List.mem_cons_of_mem _ hmem)
      · dsimp only at hpick
        split at hpick
        · exact .inr hpick
        · exact .inl (Option.some.inj hpick ▸ List.mem_cons_self)
  rcases hfold _ none h with hmem | hnone
  · exact List.mem_of_mem_filter hmem
  · cases hnone

variable [DecidableEq κ]

theorem SameOverlays.isOverlay (h : SameOverlays s t) (c : κ) : t.isOverlay c = s.isOverlay c := by
  simp only [State.isOverlay, h.stack]

theorem SameOverlays.visibleOwner (h : SameOverlays s t) (c : κ) :
    t.visibleOwner c = s.visibleOwner c := by
  simp only [State.visibleOwner, h.stack, h.isVisible]

theorem sameOverlays_nextFocus (s : State κ) (component : Option κ) (clear : Bool) :
    SameOverlays s (s.nextFocus component clear).1 := by
  unfold State.nextFocus State.resolveBlocked
  split
  · split
    · exact ⟨rfl, rfl⟩
    split
    · exact ⟨rfl, rfl⟩
    · split <;> exact ⟨rfl, rfl⟩
    · split
      · split
        · exact ⟨rfl, rfl⟩
        · split <;> exact ⟨rfl, rfl⟩
      · split <;> exact ⟨rfl, rfl⟩
  · split
    · split <;> exact ⟨rfl, rfl⟩
    · split <;> exact ⟨rfl, rfl⟩
  · split <;> exact ⟨rfl, rfl⟩

theorem sameOverlays_setFocusInternal (s : State κ) (component : Option κ) (clear : Bool) :
    SameOverlays s (s.setFocusInternal component clear) := by
  have h := sameOverlays_nextFocus s component clear
  unfold State.setFocusInternal
  generalize s.nextFocus component clear = pair at h ⊢
  obtain ⟨t, next⟩ := pair
  dsimp only
  split <;> exact ⟨h.overlays, h.admits⟩

theorem focused_setFocusInternal (s : State κ) (component : Option κ) (clear : Bool) :
    (s.setFocusInternal component clear).focused = (s.nextFocus component clear).2 := by
  unfold State.setFocusInternal
  generalize s.nextFocus component clear = pair
  obtain ⟨t, next⟩ := pair
  dsimp only
  split <;> rfl

theorem restore_setFocusInternal {component : Option κ} {clear : Bool}
    (h : (s.nextFocus component clear).2.bind s.visibleOwner = none) :
    (s.setFocusInternal component clear).restore = (s.nextFocus component clear).1.restore := by
  have hsame := sameOverlays_nextFocus s component clear
  have howner : (s.nextFocus component clear).2.bind
      (State.visibleOwner { (s.nextFocus component clear).1 with
        focused := (s.nextFocus component clear).2 }) = none := by
    rw [← h]
    congr 1
    funext c
    exact SameOverlays.visibleOwner ⟨hsame.overlays, hsame.admits⟩ c
  unfold State.setFocusInternal
  dsimp only
  rw [howner]

theorem isOverlay_iff : s.isOverlay c = true ↔ ∃ overlay ∈ s.stack, overlay.component = c := by
  simp [State.isOverlay]

theorem State.Concealed.isOverlay (h : s.Concealed c) : s.isOverlay c = true := by
  obtain ⟨overlay, hmem, hcomponent, _⟩ := h
  exact isOverlay_iff.mpr ⟨overlay, hmem, hcomponent⟩

theorem visibleOwner_eq_none (h : s.isOverlay c = false) : s.visibleOwner c = none := by
  rw [State.visibleOwner, List.find?_eq_none]
  intro overlay hmem hboth
  have hcomponent : overlay.component = c := by
    have hand := (Bool.and_eq_true _ _).mp hboth
    simpa using hand.1
  rw [isOverlay_iff.mpr ⟨overlay, hmem, hcomponent⟩] at h
  cases h

theorem bind_visibleOwner_eq_none {focused : Option κ} (h : focused.any s.isOverlay = false) :
    focused.bind s.visibleOwner = none := by
  cases focused with
  | none => rfl
  | some c => exact visibleOwner_eq_none h

theorem owner_eq_none_iff {focused : Option κ} :
    focused.bind s.owner = none ↔ focused.any s.isOverlay = false := by
  cases focused with
  | none => simp
  | some c => simp [State.owner, State.isOverlay]

theorem setFocus_isOverlay (h : s.isOverlay c = true) (clear : Bool) :
    (s.setFocusInternal (some c) clear).focused = some c := by
  rw [focused_setFocusInternal]
  simp [State.nextFocus, h]

end Frame

section Landing

variable {κ : Type} [DecidableEq κ] {s : State κ} {c : κ} {id : ℕ} {component : Option κ}
  {clear : Bool} {overlay : Overlay κ}

theorem componentOf_isOverlay (h : s.visibleRestore.overlay? = some id) :
    ∃ c, s.componentOf id = some c ∧ s.isOverlay c = true := by
  unfold State.visibleRestore at h
  split at h
  · rename_i overlay hfound
    split at h
    · rename_i hseen
      rw [h] at hfound
      obtain ⟨hstacked, _⟩ := (Bool.and_eq_true _ _).mp hseen
      have hmem : overlay ∈ s.stack :=
        List.mem_filter.mpr ⟨List.mem_of_getElem? hfound, hstacked⟩
      exact ⟨overlay.component, congrArg (Option.map Overlay.component) hfound,
        isOverlay_iff.mpr ⟨overlay, hmem, rfl⟩⟩
    · cases h
  · cases h

theorem setFocus_componentOf (h : s.visibleRestore.overlay? = some id) :
    (s.setFocus (s.componentOf id)).focused = s.componentOf id := by
  obtain ⟨c, hc, hoverlay⟩ := componentOf_isOverlay h
  rw [hc]
  exact setFocus_isOverlay hoverlay true

variable (target : Option κ)

theorem setFocus_clearRestore : (s.clearRestore.setFocus target).focused = target := by
  have hrestore : s.clearRestore.visibleRestore = .inactive := rfl
  rw [State.setFocus, focused_setFocusInternal]
  unfold State.nextFocus
  rw [hrestore]
  cases target with
  | none => rfl
  | some c =>
    dsimp only
    split <;> rfl

theorem restoreFocus_overlay (h : s.focused.any s.isOverlay = true) : s.restoreFocus = s := by
  unfold State.restoreFocus
  rw [if_pos h]

theorem focused_restoreFocus (h : s.focused.any s.isOverlay = false) :
    s.restoreFocus.focused = if s.isBlocked then s.focused else s.resumes := by
  unfold State.restoreFocus State.isBlocked State.resumes
  rw [if_neg (by simp [h])]
  cases hrestore : s.visibleRestore with
  | inactive => rfl
  | eligible id => exact setFocus_componentOf (by rw [hrestore]; rfl)
  | blocked id blockedBy resume =>
    by_cases hfocus : s.focused = some blockedBy
    · simp [hfocus]
    · cases resume with
      | restoreOverlay =>
        simp only [hfocus, if_false, decide_false, Bool.false_eq_true]
        exact setFocus_componentOf (by rw [hrestore]; rfl)
      | focusTarget target =>
        simp only [hfocus, if_false, decide_false, Bool.false_eq_true]
        exact setFocus_clearRestore target

theorem land_overlay (hnext : (s.nextFocus component clear).2.any s.isOverlay = true) :
    (s.setFocusInternal component clear).restoreFocus.focused = (s.nextFocus component clear).2 := by
  have hsame := sameOverlays_setFocusInternal s component clear
  rw [restoreFocus_overlay, focused_setFocusInternal]
  rw [focused_setFocusInternal, funext hsame.isOverlay]
  exact hnext

theorem land_outside {next : Option κ} {restore : Restore κ}
    (hnext : (s.nextFocus component clear).2 = next) (houtside : next.any s.isOverlay = false)
    (hrestore : (s.nextFocus component clear).1.restore = restore) :
    (s.setFocusInternal component clear).restoreFocus.focused =
      if { s with focused := next, restore }.isBlocked then next else
        { s with focused := next, restore }.resumes := by
  have hsame := sameOverlays_setFocusInternal s component clear
  have hfocused := focused_setFocusInternal s component clear
  have hleft : (s.setFocusInternal component clear).restore =
      (s.nextFocus component clear).1.restore :=
    restore_setFocusInternal (hnext ▸ bind_visibleOwner_eq_none houtside)
  generalize s.setFocusInternal component clear = t at hsame hfocused hleft ⊢
  rw [hnext] at hfocused
  rw [hrestore] at hleft
  have hview : t.visibleRestore = { s with focused := next, restore }.visibleRestore :=
    SameOverlays.visibleRestore ⟨hsame.overlays, hsame.admits⟩ hleft
  rw [focused_restoreFocus (by rw [hfocused, funext hsame.isOverlay]; exact houtside)]
  unfold State.isBlocked State.resumes
  rw [hview, hfocused]
  simp only [hsame.componentOf]
  rfl

theorem land_cleared (hnext : s.nextFocus component clear = (s.clearRestore, target)) :
    (s.setFocusInternal component clear).restoreFocus.focused = target := by
  cases hinside : target.any s.isOverlay with
  | true => rw [land_overlay (by rw [hnext]; exact hinside), hnext]
  | false =>
    rw [land_outside (congrArg Prod.snd hnext) hinside (by rw [hnext])]
    rfl

/-- The focus goes outside, and the record says where it ends. -/
theorem land_kept (next : Option κ) (hnext : s.nextFocus component clear = (s, next))
    (houtside : next.any s.isOverlay = false) :
    (s.setFocusInternal component clear).restoreFocus.focused =
      if { s with focused := next }.isBlocked then next else s.resumes :=
  land_outside (congrArg Prod.snd hnext) houtside (by rw [hnext])

theorem land_blocked (clear : Bool) (houtside : s.isOverlay c = false)
    (hrecord : s.visibleRestore.overlay? = some id)
    (hnext : s.nextFocus (some c) clear =
      ({ s with restore := .blocked id c .restoreOverlay }, some c)) :
    (s.setFocusInternal (some c) clear).restoreFocus.focused = some c := by
  rw [land_outside (congrArg Prod.snd hnext) houtside (by rw [hnext])]
  refine if_pos ?_
  unfold State.isBlocked
  rw [visibleRestore_of_overlay (some c) hrecord rfl]
  exact decide_eq_true rfl

theorem land_restored (hrecord : s.visibleRestore.overlay? = some id)
    (hnext : s.nextFocus component clear = (s, s.componentOf id)) :
    (s.setFocusInternal component clear).restoreFocus.focused = s.componentOf id := by
  obtain ⟨c, hc, hoverlay⟩ := componentOf_isOverlay hrecord
  rw [land_overlay, hnext]
  rw [hnext, hc]
  exact hoverlay

theorem land_none :
    (s.setFocusInternal none false).restoreFocus.focused =
      if s.keepsFocus none then none else s.resumes := by
  cases hrecord : s.visibleRestore with
  | inactive =>
    rw [land_kept none (by simp [State.nextFocus, hrecord]) rfl]
    simp [State.keepsFocus, State.resumes, hrecord]
  | eligible id =>
    rw [land_kept none (by simp [State.nextFocus, hrecord]) rfl]
    have hview : { s with focused := none }.visibleRestore = .eligible id := hrecord
    simp [State.keepsFocus, State.isBlocked, hrecord, hview]
  | blocked id blockedBy resume =>
    have hkeeps : s.keepsFocus none = false := by simp [State.keepsFocus, hrecord]
    rw [hkeeps, if_neg Bool.false_ne_true]
    by_cases hfocus : s.focused = some blockedBy
    · cases resume with
      | restoreOverlay =>
        rw [land_restored (by rw [hrecord]; rfl)
          (by simp [State.nextFocus, hrecord, hfocus, State.resolveBlocked])]
        simp [State.resumes, hrecord]
      | focusTarget target =>
        rw [land_cleared target (by simp [State.nextFocus, hrecord, hfocus, State.resolveBlocked])]
        simp [State.resumes, hrecord]
    · rw [land_kept none (by simp [State.nextFocus, hrecord, hfocus]) rfl]
      have hview : { s with focused := none }.visibleRestore = .blocked id blockedBy resume := hrecord
      simp [State.isBlocked, hview]

theorem land_some (houtside : s.isOverlay c = false) :
    (s.setFocusInternal (some c) false).restoreFocus.focused =
      if s.keepsFocus (some c) then some c else s.resumes := by
  cases hrecord : s.visibleRestore with
  | inactive =>
    rw [land_kept (some c) (by simp [State.nextFocus, hrecord]) houtside]
    have hview : { s with focused := some c }.visibleRestore = .inactive := hrecord
    simp [State.keepsFocus, State.isBlocked, hrecord, hview]
  | eligible id =>
    cases hloses : s.losesTo id c with
    | true =>
      rw [land_blocked false houtside (by rw [hrecord]; rfl)
        (by simp [State.nextFocus, hrecord, houtside, hloses])]
      simp [State.keepsFocus, hrecord, hloses]
    | false =>
      rw [land_kept (some c) (by simp [State.nextFocus, hrecord, houtside, hloses]) houtside]
      have hview : { s with focused := some c }.visibleRestore = .eligible id := hrecord
      simp [State.keepsFocus, State.isBlocked, hrecord, hloses, hview]
  | blocked id blockedBy resume =>
    by_cases hfocus : s.focused = some blockedBy
    · cases resume with
      | restoreOverlay =>
        cases hmounted : s.mounted blockedBy with
        | true =>
          rw [land_blocked false houtside (by rw [hrecord]; rfl)
            (by simp [State.nextFocus, hrecord, houtside, hfocus, hmounted])]
          simp [State.keepsFocus, hrecord, hfocus, hmounted]
        | false =>
          rw [land_restored (by rw [hrecord]; rfl)
            (by simp [State.nextFocus, hrecord, houtside, hfocus, hmounted, State.resolveBlocked])]
          simp [State.keepsFocus, State.resumes, hrecord, hfocus, hmounted]
      | focusTarget target =>
        rw [land_cleared target
          (by simp [State.nextFocus, hrecord, houtside, hfocus, State.resolveBlocked])]
        simp [State.keepsFocus, State.resumes, hrecord, hfocus]
    · cases hloses : s.losesTo id c with
      | true =>
        rw [land_blocked false houtside (by rw [hrecord]; rfl)
          (by simp [State.nextFocus, hrecord, houtside, hfocus, hloses])]
        simp [State.keepsFocus, hrecord, hfocus, hloses]
      | false =>
        rw [land_kept (some c) (by simp [State.nextFocus, hrecord, houtside, hfocus, hloses]) houtside]
        have hview : { s with focused := some c }.visibleRestore = .blocked id blockedBy resume :=
          hrecord
        simp [State.keepsFocus, State.isBlocked, hrecord, hfocus, hloses, hview]

theorem land_preFocus {preFocus : Option κ} (houtside : preFocus.any s.isOverlay = false) :
    (s.setFocusInternal preFocus false).restoreFocus.focused =
      if s.keepsFocus preFocus then preFocus else s.resumes := by
  cases preFocus with
  | none => exact land_none
  | some c => exact land_some houtside

theorem mem_stack_of_owner {focused : Option κ} (h : focused.bind s.owner = some overlay) :
    ∃ c, focused = some c ∧ s.isOverlay c = true := by
  obtain ⟨c, hc, hfound⟩ := Option.bind_eq_some_iff.mp h
  refine ⟨c, hc, isOverlay_iff.mpr ⟨overlay, List.mem_of_find?_eq_some hfound, ?_⟩⟩
  simpa using List.find?_some hfound

/-- Where the focus is when the key is handed over. -/
def State.landing (s : State κ) : Option κ := s.redirect.restoreFocus.focused

theorem landing_kept (howner : s.focused.bind s.owner = some overlay)
    (hvisible : s.isVisible overlay = true) : s.landing = s.focused := by
  have hredirect : s.redirect = s := by
    unfold State.redirect
    rw [howner]
    exact if_pos hvisible
  obtain ⟨c, hc, hoverlay⟩ := mem_stack_of_owner howner
  rw [State.landing, hredirect, restoreFocus_overlay]
  rw [hc]
  exact hoverlay

theorem landing_topmost {top : Overlay κ} (howner : s.focused.bind s.owner = some overlay)
    (hvisible : s.isVisible overlay = false) (htop : s.topmost = some top) :
    s.landing = some top.component := by
  have hredirect : s.redirect = s.setFocusInternal (some top.component) true := by
    unfold State.redirect
    rw [howner]
    dsimp only
    rw [hvisible, htop]
    rfl
  have hoverlay : s.isOverlay top.component = true :=
    isOverlay_iff.mpr ⟨top, mem_of_topmost htop, rfl⟩
  have hnext : (s.nextFocus (some top.component) true).2 = some top.component := by
    simp [State.nextFocus, hoverlay]
  rw [State.landing, hredirect, land_overlay (by rw [hnext]; exact hoverlay), hnext]

theorem redirect_behind (howner : s.focused.bind s.owner = some overlay)
    (hvisible : s.isVisible overlay = false) (htop : s.topmost = none) :
    s.redirect = s.setFocusInternal overlay.preFocus false := by
  unfold State.redirect
  rw [howner]
  dsimp only
  rw [hvisible, htop]
  rfl

theorem landing_behind (howner : s.focused.bind s.owner = some overlay)
    (hvisible : s.isVisible overlay = false) (htop : s.topmost = none)
    (hinside : overlay.preFocus.any s.isOverlay = true) : s.landing = overlay.preFocus := by
  have hnext : (s.nextFocus overlay.preFocus false).2 = overlay.preFocus := by
    obtain ⟨c, hc, hoverlay⟩ := (Option.any_eq_true _ _).mp hinside
    rw [hc]
    simp [State.nextFocus, hoverlay]
  rw [State.landing, redirect_behind howner hvisible htop,
    land_overlay (by rw [hnext]; exact hinside), hnext]

theorem landing_resumedBehind (howner : s.focused.bind s.owner = some overlay)
    (hvisible : s.isVisible overlay = false) (htop : s.topmost = none)
    (houtside : overlay.preFocus.any s.isOverlay = false) :
    s.landing = if s.keepsFocus overlay.preFocus then overlay.preFocus else s.resumes := by
  rw [State.landing, redirect_behind howner hvisible htop, land_preFocus houtside]

theorem landing_resumed (hnone : s.focused.bind s.owner = none) :
    s.landing = if s.isBlocked then s.focused else s.resumes := by
  have hredirect : s.redirect = s := by
    unfold State.redirect
    rw [hnone]
  rw [State.landing, hredirect, focused_restoreFocus (owner_eq_none_iff.mp hnone)]

theorem not_concealed_of_outside {focused : Option κ} (houtside : focused.any s.isOverlay = false)
    (hc : focused = some c) : ¬ s.Concealed c := by
  intro hconcealed
  rw [hc] at houtside
  exact absurd hconcealed.isOverlay (by simpa using houtside)

theorem misdirects_of_landing (hconcealed : s.Concealed c) (h : s.landing = some c) :
    s.Misdirects c := by
  cases howner : s.focused.bind s.owner with
  | none =>
    rw [landing_resumed howner] at h
    cases hblocked : s.isBlocked with
    | true =>
      rw [hblocked] at h
      exact absurd hconcealed (not_concealed_of_outside (owner_eq_none_iff.mp howner) h)
    | false =>
      rw [hblocked] at h
      exact .resumed howner hblocked h
  | some overlay =>
    cases hvisible : s.isVisible overlay with
    | true => exact .kept overlay howner hvisible ((landing_kept howner hvisible).symm.trans h)
    | false =>
      cases htop : s.topmost with
      | some top =>
        rw [landing_topmost howner hvisible htop] at h
        exact .topmost overlay top howner hvisible htop (Option.some.inj h)
      | none =>
        cases hinside : overlay.preFocus.any s.isOverlay with
        | true =>
          rw [landing_behind howner hvisible htop hinside] at h
          exact .behind overlay howner hvisible htop h
        | false =>
          rw [landing_resumedBehind howner hvisible htop hinside] at h
          cases hkeeps : s.keepsFocus overlay.preFocus with
          | true =>
            rw [hkeeps] at h
            exact absurd hconcealed (not_concealed_of_outside hinside h)
          | false =>
            rw [hkeeps] at h
            exact .resumedBehind overlay howner hvisible htop hinside hkeeps h

theorem landing_of_misdirects (hconcealed : s.Concealed c) (h : s.Misdirects c) :
    s.landing = some c := by
  cases h with
  | kept overlay howner hvisible hc => exact (landing_kept howner hvisible).trans hc
  | topmost overlay top howner hvisible htop hc =>
    exact (landing_topmost howner hvisible htop).trans (congrArg some hc)
  | behind overlay howner hvisible htop hc =>
    refine (landing_behind howner hvisible htop ?_).trans hc
    rw [hc]
    exact hconcealed.isOverlay
  | resumedBehind overlay howner hvisible htop houtside hkeeps hc =>
    rw [landing_resumedBehind howner hvisible htop houtside, hkeeps]
    exact hc
  | resumed houtside hblocked hc =>
    rw [landing_resumed houtside, hblocked]
    exact hc

end Landing

section Keys

variable {κ : Type} [DecidableEq κ]

/-- A key that the last operation has routed is not with an invisible overlay. -/
def KeySafe (s : State κ) : Prop := ∀ c, s.handed = some c → ¬ s.Concealed c

/-- Routing a key now does not come to an invisible overlay's component that takes it. -/
def RoutesSafely (s : State κ) (action : Action κ) : Prop :=
  match action with
  | .routeInput takes => ∀ c, s.Concealed c → s.Misdirects c → takes c = false
  | _ => True

variable (s : State κ)

theorem sameOverlays_redirect : SameOverlays s s.redirect := by
  unfold State.redirect
  split
  · split
    · exact ⟨rfl, rfl⟩
    · split <;> exact sameOverlays_setFocusInternal _ _ _
  · exact ⟨rfl, rfl⟩

theorem sameOverlays_restoreFocus : SameOverlays s s.restoreFocus := by
  unfold State.restoreFocus
  split
  · exact ⟨rfl, rfl⟩
  split
  · exact ⟨rfl, rfl⟩
  · exact sameOverlays_setFocusInternal _ _ _
  · split
    · exact ⟨rfl, rfl⟩
    split
    · exact sameOverlays_setFocusInternal _ _ _
    · have h := sameOverlays_setFocusInternal s.clearRestore
      exact ⟨(h _ true).overlays, (h _ true).admits⟩

theorem sameOverlays_routeInput (takes : κ → Bool) : SameOverlays s (s.routeInput takes) := by
  have hredirect := sameOverlays_redirect s
  have hrestore := sameOverlays_restoreFocus s.redirect
  exact ⟨hrestore.overlays.trans hredirect.overlays, hrestore.admits.trans hredirect.admits⟩

theorem keySafe_iff_routesSafely (action : Action κ) :
    KeySafe (s.step action) ↔ RoutesSafely s action := by
  cases action
  case routeInput takes =>
    have hsame := sameOverlays_routeInput s takes
    have hhanded : ∀ c, (s.routeInput takes).handed = some c ↔ s.landing = some c ∧ takes c = true :=
      fun c => Option.filter_eq_some_iff
    constructor
    · intro hsafe c hconcealed hmisdirects
      by_contra htakes
      exact hsafe c ((hhanded c).mpr ⟨landing_of_misdirects hconcealed hmisdirects, by simpa using htakes⟩)
        (hsame.concealed.mpr hconcealed)
    · intro hroutes c hc hconcealed
      obtain ⟨hlanding, htakes⟩ := (hhanded c).mp hc
      have hbefore := hsame.concealed.mp hconcealed
      exact absurd htakes (by simp [hroutes c hbefore (misdirects_of_landing hbefore hlanding)])
  all_goals exact ⟨fun _ => trivial, fun _ => nofun⟩

/-- No key comes to an invisible overlay in a run exactly when it is routed safely whenever one
comes. -/
theorem keys_safe_iff (admits : ℕ → Bool) (mounted : κ → Bool) (actions : List (Action κ)) :
    (∀ s ∈ Runs.states State.step (start admits mounted) actions, KeySafe s) ↔
      Runs.Along State.step RoutesSafely (start admits mounted) actions := by
  have hstep : ∀ (s : State κ) (action : Action κ), True → KeySafe s → RoutesSafely s action →
      KeySafe (s.step action) := fun s action _ _ h => (keySafe_iff_routesSafely s action).mpr h
  have hbad : ∀ (s : State κ) (action : Action κ), True → KeySafe s → ¬ RoutesSafely s action →
      ¬ KeySafe (s.step action) :=
    fun s action _ _ h hsafe => h ((keySafe_iff_routesSafely s action).mp hsafe)
  exact Runs.good_iff_along (fun _ h => h) hstep hbad nofun fun _ _ => trivial

/-- Three overlays over a focused component, which are then hidden in the order in which they were
shown. -/
def hiddenInOrder : List (Action ℕ) :=
  [.setFocus (some 0), .showOverlay 1 false false, .showOverlay 2 false false,
    .showOverlay 3 false false, .setHidden 0 true, .setHidden 1 true, .setHidden 2 true,
    .routeInput fun _ => true]

/-- The key goes to the component of the first overlay, which is hidden. -/
theorem hidden_overlay_gets_key :
    ¬ ∀ (admits : ℕ → Bool) (mounted : ℕ → Bool) (actions : List (Action ℕ)),
      ∀ s ∈ Runs.states State.step (start admits mounted) actions, KeySafe s := by
  intro hall
  have hsafe := hall (fun _ => true) (fun _ => true) hiddenInOrder _ (Runs.foldl_mem_states _ _)
  exact hsafe 1 (by decide) ⟨⟨0, 1, false, false, some 0, true, 1, true⟩, List.mem_cons_self, rfl, rfl⟩

end Keys

end Pidrei.Tui.Overlays
