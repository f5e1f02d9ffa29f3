import Mathlib.Tactic.Common

/-!
A terminal with a screen of fixed size. Cursor moves stop at the edges and a line feed
in the last row scrolls. A view relates the screen to a document that has a row for
every line: the screen shows the rows from `top` on, and the cursor is in row `line`.
-/
namespace Terminal

open Function (update update_idem update_of_ne update_self)

variable {α τ : Type*}

/-- `cells` are what a text puts next to each other on the screen. -/
structure Device (τ α : Type*) where
  width : ℕ
  height : ℕ
  blank : α
  cells : τ → List α

/-- A `col` of the width stands behind the last column. -/
structure Screen (α : Type*) where
  rows : ℕ → ℕ → α
  row : ℕ
  col : ℕ

/-- What a terminal is sent. The modes are such as leave the rows and the cursor alone. -/
inductive Op (τ : Type*)
  | text (text : τ)
  | carriageReturn
  | lineFeed
  | up (count : ℕ)
  | down (count : ℕ)
  | column (number : ℕ)
  | home
  | eraseLine
  | eraseScreen
  | eraseScrollback
  | setMode (mode : ℕ)
  | resetMode (mode : ℕ)

namespace Device

variable (d : Device τ α)

def blankRow : ℕ → α := fun _ => d.blank

/-- The row that shows the text from its first column on. -/
def rowOf (text : τ) : ℕ → α := fun c => (d.cells text)[c]?.getD d.blank

def lineFeed (s : Screen α) : Screen α :=
  if s.row + 1 < d.height then { s with row := s.row + 1 }
  else { s with rows := fun k => if k + 1 < d.height then s.rows (k + 1) else d.blankRow }

/-- One cell, in the next row where this one is full. -/
def put (s : Screen α) (cell : α) : Screen α :=
  let s := if d.width ≤ s.col then { d.lineFeed s with col := 0 } else s
  { s with
    rows := update s.rows s.row (update (s.rows s.row) s.col cell)
    col := s.col + 1 }

def exec (s : Screen α) : Op τ → Screen α
  | .text text => (d.cells text).foldl d.put s
  | .carriageReturn => { s with col := 0 }
  | .lineFeed => d.lineFeed s
  | .up count => { s with row := s.row - count }
  | .down count => { s with row := min (s.row + count) (d.height - 1) }
  | .column number => { s with col := min (number - 1) (d.width - 1) }
  | .home => { s with row := 0, col := 0 }
  | .eraseLine => { s with rows := update s.rows s.row d.blankRow }
  | .eraseScreen => { s with rows := fun _ => d.blankRow }
  | .eraseScrollback | .setMode _ | .resetMode _ => s

def run (s : Screen α) (ops : List (Op τ)) : Screen α := ops.foldl d.exec s

def clean : Screen α := ⟨fun _ => d.blankRow, 0, 0⟩

end Device

/-- The screen shows the document from row `top` on, with the cursor in row `line`. -/
structure View (d : Device τ α) (doc : ℕ → ℕ → α) (top line : ℕ) (s : Screen α) : Prop where
  rows : ∀ k < d.height, s.rows k = doc (top + k)
  cursor : line = top + s.row
  bound : s.row < d.height

section Views

variable {d : Device τ α} {s : Screen α} {doc other : ℕ → ℕ → α} {top line next : ℕ} {text : τ}
  {ops more : List (Op τ)}

theorem run_append : d.run s (ops ++ more) = d.run (d.run s ops) more := List.foldl_append

/-- A text that fits into the rest of the row goes over what is there. -/
theorem foldl_put (cells : List α) (hfits : s.col + cells.length ≤ d.width) :
    cells.foldl d.put s = ⟨update s.rows s.row fun c =>
      if s.col ≤ c then cells[c - s.col]?.getD (s.rows s.row c) else s.rows s.row c,
        s.row, s.col + cells.length⟩ := by
  induction cells generalizing s with
  | nil => simp
  | cons cell cells ih =>
    rw [List.length_cons] at hfits
    have hput : d.put s cell = ⟨update s.rows s.row
        (update (s.rows s.row) s.col cell), s.row, s.col + 1⟩ := by
      rw [Device.put, if_neg (by omega)]
    rw [List.foldl_cons, hput, ih (by simp only; omega)]
    simp only [update_idem, update_self, Screen.mk.injEq, List.length_cons,
      true_and]
    refine ⟨congrArg _ (funext fun c => ?_), by omega⟩
    rcases Nat.lt_trichotomy c s.col with hlt | rfl | hgt
    · rw [if_neg (by omega), if_neg (by omega), update_of_ne (by omega)]
    · rw [if_neg (by omega), if_pos (Nat.le_refl _), update_self, Nat.sub_self]
      rfl
    · obtain ⟨k, rfl⟩ : ∃ k, c = s.col + 1 + k := ⟨c - (s.col + 1), by omega⟩
      rw [if_pos (by omega), if_pos (by omega), update_of_ne (by omega),
        show s.col + 1 + k - (s.col + 1) = k by omega, show s.col + 1 + k - s.col = k + 1 by omega,
        List.getElem?_cons_succ]

theorem exec_text (hcol : s.col = 0) (hfits : (d.cells text).length ≤ d.width)
    (hblank : s.rows s.row = d.blankRow) : d.exec s (.text text) =
      ⟨update s.rows s.row (d.rowOf text), s.row, (d.cells text).length⟩ := by
  rw [Device.exec, foldl_put _ (by omega), hcol, hblank]
  simp only [Nat.zero_le, if_true, Nat.sub_zero, Nat.zero_add]
  rfl

theorem View.line_mem (hs : View d doc top line s) : top ≤ line ∧ line < top + d.height := by
  have hcursor := hs.cursor
  have hbound := hs.bound
  omega

theorem View.carriageReturn (hs : View d doc top line s) :
    View d doc top line (d.exec s .carriageReturn) := ⟨hs.rows, hs.cursor, hs.bound⟩

theorem View.column (hs : View d doc top line s) (number : ℕ) :
    View d doc top line (d.exec s (.column number)) := ⟨hs.rows, hs.cursor, hs.bound⟩

/-- Going up to a row on the screen. -/
theorem View.up (hs : View d doc top line s) (count : ℕ) (hnext : next + count = line)
    (htop : top ≤ next) : View d doc top next (d.exec s (.up count)) := by
  have hcursor := hs.cursor
  have hbound := hs.bound
  refine ⟨hs.rows, ?_, ?_⟩
  · change next = top + (s.row - count)
    omega
  · change s.row - count < d.height
    omega

theorem View.down (hs : View d doc top line s) (count : ℕ) (hnext : next = line + count)
    (hbottom : next < top + d.height) : View d doc top next (d.exec s (.down count)) := by
  have hcursor := hs.cursor
  have hbound := hs.bound
  refine ⟨hs.rows, ?_, ?_⟩
  · change next = top + min (s.row + count) (d.height - 1)
    omega
  · change min (s.row + count) (d.height - 1) < d.height
    omega

theorem View.eraseLine (hs : View d doc top line s) :
    View d (update doc line d.blankRow) top line (d.exec s .eraseLine) := by
  refine ⟨fun k hk => ?_, hs.cursor, hs.bound⟩
  change update s.rows s.row d.blankRow k = _
  have hcursor := hs.cursor
  by_cases hrow : k = s.row
  · rw [hrow, update_self, ← hcursor, update_self]
  · rw [update_of_ne hrow, update_of_ne (by omega)]
    exact hs.rows k hk

theorem View.print (hs : View d doc top line s) (hcol : s.col = 0)
    (hfits : (d.cells text).length ≤ d.width) (hblank : doc line = d.blankRow) :
    View d (update doc line (d.rowOf text)) top line (d.exec s (.text text)) := by
  have hcursor := hs.cursor
  rw [exec_text hcol hfits (by rw [hs.rows _ hs.bound, ← hcursor, hblank])]
  refine ⟨fun k hk => ?_, hcursor, hs.bound⟩
  change update s.rows s.row (d.rowOf text) k = _
  by_cases hrow : k = s.row
  · rw [hrow, update_self, ← hcursor, update_self]
  · rw [update_of_ne hrow, update_of_ne (by omega)]
    exact hs.rows k hk

/-- The next row; a row that comes to the screen is one that the document has blank. -/
theorem View.lineFeed (hs : View d doc top line s)
    (hblank : line + 1 = top + d.height → doc (line + 1) = d.blankRow) :
    View d doc (max top (line + 2 - d.height)) (line + 1) (d.exec s .lineFeed) := by
  have hcursor := hs.cursor
  have hbound := hs.bound
  rw [Device.exec, Device.lineFeed]
  split
  · rw [show max top (line + 2 - d.height) = top by omega]
    exact ⟨hs.rows, by simp only; omega, by assumption⟩
  · rw [show max top (line + 2 - d.height) = top + 1 by omega]
    refine ⟨fun k hk => ?_, by simp only; omega, hbound⟩
    simp only
    split
    · rw [hs.rows (k + 1) ‹_›, show top + (k + 1) = top + 1 + k by omega]
    · rw [show top + 1 + k = line + 1 by omega, hblank (by omega)]

theorem view_home (hheight : 0 < d.height) :
    View d (fun _ => d.blankRow) 0 0 (d.exec (d.exec s .eraseScreen) .home) :=
  ⟨fun _ _ => rfl, rfl, hheight⟩

end Views

section Lines

variable {d : Device τ α} {s : Screen α} {doc : ℕ → ℕ → α} {top line : ℕ} {texts : List τ}

/-- The document with the texts in its rows from `line` on. -/
def Device.over (d : Device τ α) (doc : ℕ → ℕ → α) (line : ℕ) (texts : List τ) : ℕ → ℕ → α :=
  fun j => if line ≤ j then (texts[j - line]?.map d.rowOf).getD (doc j) else doc j

/-- The document with `count` rows from `line` on blank. -/
def Device.blanked (d : Device τ α) (doc : ℕ → ℕ → α) (line count : ℕ) : ℕ → ℕ → α :=
  fun j => if line ≤ j ∧ j < line + count then d.blankRow else doc j

theorem over_nil : d.over doc line [] = doc := by
  funext j
  rw [Device.over]
  split <;> rfl

theorem over_cons (text : τ) : d.over doc line (text :: texts) =
    d.over (update doc line (d.rowOf text)) (line + 1) texts := by
  funext j
  rw [Device.over, Device.over]
  rcases Nat.lt_trichotomy j line with hlt | rfl | hgt
  · rw [if_neg (by omega), if_neg (by omega), update_of_ne (by omega)]
  · rw [if_pos (Nat.le_refl _), if_neg (by omega), Nat.sub_self, update_self]
    rfl
  · obtain ⟨k, rfl⟩ : ∃ k, j = line + 1 + k := ⟨j - (line + 1), by omega⟩
    rw [if_pos (by omega), if_pos (by omega), update_of_ne (by omega),
      show line + 1 + k - line = k + 1 by omega, show line + 1 + k - (line + 1) = k by omega,
      List.getElem?_cons_succ]

theorem blanked_zero : d.blanked doc line 0 = doc := by
  funext j
  rw [Device.blanked, if_neg (by omega)]

theorem blanked_succ (count : ℕ) : d.blanked doc line (count + 1) =
    d.blanked (update doc line d.blankRow) (line + 1) count := by
  funext j
  rw [Device.blanked, Device.blanked]
  rcases Nat.lt_trichotomy j line with hlt | rfl | hgt
  · rw [if_neg (by omega), if_neg (by omega), update_of_ne (by omega)]
  · rw [if_pos (by omega), if_neg (by omega), update_self]
  · rw [update_of_ne (by omega)]
    by_cases hin : j < line + (count + 1)
    · rw [if_pos (by omega), if_pos (by omega)]
    · rw [if_neg (by omega), if_neg (by omega)]

theorem col_lineFeed : (d.lineFeed s).col = s.col := by
  unfold Device.lineFeed
  split <;> rfl

theorem View.place {text : τ} (hs : View d doc top line s) (erase : Bool) (hcol : s.col = 0)
    (hfits : (d.cells text).length ≤ d.width) (hblank : erase = false → doc line = d.blankRow) :
    View d (update doc line (d.rowOf text)) top line
      (d.run s ((if erase then [Op.eraseLine] else []) ++ [Op.text text])) := by
  cases erase with
  | false => exact hs.print hcol hfits (hblank rfl)
  | true =>
    have herased := hs.eraseLine.print hcol hfits (update_self ..)
    rwa [update_idem] at herased

theorem View.placeBelow (hs : View d doc top line s) (erase : Bool)
    (hfits : ∀ text ∈ texts, (d.cells text).length ≤ d.width)
    (hblank : ∀ j, line < j → erase = false ∨ top + d.height ≤ j → doc j = d.blankRow) :
    View d (d.over doc (line + 1) texts) (max top (line + texts.length + 1 - d.height))
      (line + texts.length) (d.run s (texts.flatMap fun text =>
        [Op.carriageReturn, Op.lineFeed] ++ ((if erase then [Op.eraseLine] else []) ++ [Op.text text]))) := by
  induction texts generalizing s doc top line with
  | nil =>
    have hline := hs.line_mem
    rw [over_nil, List.length_nil, Nat.add_zero, show max top (line + 1 - d.height) = top by omega]
    exact hs
  | cons text texts ih =>
    have hline := hs.line_mem
    have hnext := hs.carriageReturn.lineFeed fun hbottom => hblank _ (by omega) (.inr (by omega))
    have hcol : (d.exec (d.exec s .carriageReturn) .lineFeed).col = 0 := col_lineFeed
    have hplaced := hnext.place erase hcol (hfits text List.mem_cons_self)
      fun herase => hblank _ (by omega) (.inl herase)
    have hrest := ih hplaced (fun later hlater => hfits later (List.mem_cons_of_mem _ hlater)) ?_
    · rw [List.flatMap_cons, run_append, run_append, over_cons, List.length_cons]
      rw [show max top (line + (texts.length + 1) + 1 - d.height) =
        max (max top (line + 2 - d.height)) (line + 1 + texts.length + 1 - d.height) by omega,
        show line + (texts.length + 1) = line + 1 + texts.length by omega]
      exact hrest
    · intro j hj hwhere
      rw [update_of_ne (by omega)]
      exact hblank j (by omega) (hwhere.imp_right fun h => by omega)

theorem View.eraseBelow (count : ℕ) (hs : View d doc top line s)
    (hbottom : line + count < top + d.height) :
    View d (d.blanked doc (line + 1) count) top (line + count)
      (d.run s (List.replicate count [.carriageReturn, .lineFeed, .eraseLine]).flatten) := by
  induction count generalizing s doc line with
  | zero =>
    rw [blanked_zero]
    exact hs
  | succ count ih =>
    have hnext := (hs.carriageReturn.lineFeed fun h => by omega).eraseLine
    rw [show max top (line + 2 - d.height) = top by omega] at hnext
    rw [List.replicate_succ, List.flatten_cons, run_append, blanked_succ,
      show line + (count + 1) = line + 1 + count by omega]
    exact ih hnext (by omega)

end Lines

end Terminal
