import Pidrei.Library.EditScript
import Pidrei.LineTokens

/-!
The diff that is shown to a reader: changed lines with their numbers, a few lines around them,
and an ellipsis where lines are left out. The differ is the host's.
-/
namespace Pidrei.DisplayDiff

open EditDiff LineTokens EditScript List
open PythonText hiding slice

/-- One change run. -/
structure DiffPart where
  value : List Char
  added : Bool := false
  removed : Bool := false

def DiffPart.isChange (part : DiffPart) : Bool := part.added || part.removed

/-- The parts of one opcode; a replacement gives the removed run before the added run. -/
def diffParts (oldTokens newTokens : List (List Char)) (code : Opcode) : List DiffPart :=
  let oldRun := (slice oldTokens code.oldStart code.oldEnd).flatten
  let newRun := (slice newTokens code.newStart code.newEnd).flatten
  match code.tag with
  | .equal => [{ value := oldRun }]
  | .delete => [{ value := oldRun, removed := true }]
  | .insert => [{ value := newRun, added := true }]
  | .replace => [{ value := oldRun, removed := true }, { value := newRun, added := true }]

def diffLines (getOpcodes : List (List Char) → List (List Char) → List Opcode)
    (oldContent newContent : List Char) : List DiffPart :=
  let oldTokens := splitLinesWithEndings oldContent
  let newTokens := splitLinesWithEndings newContent
  (getOpcodes oldTokens newTokens).flatMap (diffParts oldTokens newTokens)

section Lines

variable (width : ℕ)

/-- `str(n).rjust(width)` and the line behind it. -/
def gutter (n : ℕ) (line : List Char) : List Char := (str n).leftpad width ' ' ++ ' ' :: line

def contextLine (n : ℕ) (line : List Char) : List Char := ' ' :: gutter width n line

def addedLine (n : ℕ) (line : List Char) : List Char := '+' :: gutter width n line

def removedLine (n : ℕ) (line : List Char) : List Char := '-' :: gutter width n line

def ellipsis : List Char := ' ' :: (([] : List Char).leftpad width ' ' ++ " ...".toList)

/-- The variables of the loop over the parts. -/
structure Display where
  output : List (List Char) := []
  oldLineNum : ℕ := 1
  newLineNum : ℕ := 1
  lastWasChange : Bool := false
  firstChangedLine : Option ℕ := none

def Display.showContext (s : Display) (lines : List (List Char)) : Display :=
  lines.foldl (fun s line =>
    { s with
      output := s.output ++ [contextLine width s.oldLineNum line]
      oldLineNum := s.oldLineNum + 1
      newLineNum := s.newLineNum + 1 }) s

def Display.showAdded (s : Display) (lines : List (List Char)) : Display :=
  lines.foldl (fun s line =>
    { s with
      output := s.output ++ [addedLine width s.newLineNum line]
      newLineNum := s.newLineNum + 1 }) s

def Display.showRemoved (s : Display) (lines : List (List Char)) : Display :=
  lines.foldl (fun s line =>
    { s with
      output := s.output ++ [removedLine width s.oldLineNum line]
      oldLineNum := s.oldLineNum + 1 }) s

def Display.skip (s : Display) (skippedLines : ℕ) : Display :=
  { s with
    output := s.output ++ [ellipsis width]
    oldLineNum := s.oldLineNum + skippedLines
    newLineNum := s.newLineNum + skippedLines }

def Display.skipIfAny (s : Display) (skippedLines : ℕ) : Display :=
  if skippedLines > 0 then s.skip width skippedLines else s

/-- A part that is added or removed; every line of an added part counts as added. -/
def changePart (s : Display) (part : DiffPart) : Display :=
  let raw := rawLines part.value
  let s := { s with firstChangedLine := s.firstChangedLine.or (some s.newLineNum) }
  let s := if part.added then s.showAdded width raw else s.showRemoved width raw
  { s with lastWasChange := true }

/-- A part that both texts have: only a few lines before and after changes. -/
def contextPart (contextLines : ℕ) (s : Display) (nextPartIsChange : Bool)
    (raw : List (List Char)) : Display :=
  let s' :=
    if s.lastWasChange && nextPartIsChange then
      if raw.length ≤ contextLines * 2 then s.showContext width raw
      else
        let leadingLines := raw.take contextLines
        let trailingLines := raw.drop (raw.length - contextLines)
        let skippedLines := raw.length - leadingLines.length - trailingLines.length
        ((s.showContext width leadingLines).skip width skippedLines).showContext width trailingLines
    else if s.lastWasChange then
      let shownLines := raw.take contextLines
      (s.showContext width shownLines).skipIfAny width (raw.length - shownLines.length)
    else if nextPartIsChange then
      let skippedLines := raw.length - contextLines
      (s.skipIfAny width skippedLines).showContext width (raw.drop skippedLines)
    else
      { s with
        oldLineNum := s.oldLineNum + raw.length
        newLineNum := s.newLineNum + raw.length }
  { s' with lastWasChange := false }

def displayParts (contextLines : ℕ) : Display → List DiffPart → Display
  | s, [] => s
  | s, part :: parts =>
    if part.isChange then displayParts contextLines (changePart width s part) parts
    else displayParts contextLines
      (contextPart width contextLines s (parts.head?.any DiffPart.isChange) (rawLines part.value))
      parts

end Lines

/-- The digits of the greatest line number. -/
def lineNumWidth (oldContent newContent : List Char) : ℕ :=
  (str (max (oldContent.splitOn '\n').length (newContent.splitOn '\n').length)).length

def generateDiffString (getOpcodes : List (List Char) → List (List Char) → List Opcode)
    (oldContent newContent : List Char) (contextLines : ℕ) : List Char × Option ℕ :=
  let s := displayParts (lineNumWidth oldContent newContent) contextLines {}
    (diffLines getOpcodes oldContent newContent)
  (['\n'].intercalate s.output, s.firstChangedLine)

section Rows

inductive Row
  | removed (n : ℕ) (line : List Char)
  | added (n : ℕ) (line : List Char)
  | context (n : ℕ) (line : List Char)
  | gap

def Row.render (width : ℕ) : Row → List Char
  | .removed n line => removedLine width n line
  | .added n line => addedLine width n line
  | .context n line => contextLine width n line
  | .gap => ellipsis width

/-- Rows that walk over a script, from two line numbers on. Only a gap passes lines, and only
lines that both texts have. -/
inductive Shows : ℕ → ℕ → List (Step (List Char)) → List Row → Prop
  | done (i j : ℕ) : Shows i j [] []
  | removed {i j : ℕ} {steps : List (Step (List Char))} {rows : List Row} (line : List Char)
      (rest : Shows (i + 1) j steps rows) :
      Shows i j (.remove line :: steps) (.removed i (chomp line) :: rows)
  | added {i j : ℕ} {steps : List (Step (List Char))} {rows : List Row} (line : List Char)
      (rest : Shows i (j + 1) steps rows) :
      Shows i j (.add line :: steps) (.added j (chomp line) :: rows)
  | context {i j : ℕ} {steps : List (Step (List Char))} {rows : List Row} (line : List Char)
      (rest : Shows (i + 1) (j + 1) steps rows) :
      Shows i j (.keep line :: steps) (.context i (chomp line) :: rows)
  | gap {i j : ℕ} {steps : List (Step (List Char))} {rows : List Row} (kept : List (List Char))
      (hkept : kept ≠ []) (rest : Shows (i + kept.length) (j + kept.length) steps rows) :
      Shows i j (kept.map Step.keep ++ steps) (.gap :: rows)

/-- The second display goes on from the first with rows for some steps. -/
def Extends (width : ℕ) (steps : List (Step (List Char))) (s s' : Display) : Prop :=
  s'.newLineNum = s.newLineNum + (news steps).length ∧
  ∃ rows : List Row, s'.output = s.output ++ rows.map (Row.render width) ∧
    ∀ rest more, Shows s'.oldLineNum s'.newLineNum rest more →
      Shows s.oldLineNum s.newLineNum (steps ++ rest) (rows ++ more)

variable {width : ℕ}

theorem Extends.refl (s : Display) : Extends width [] s s :=
  ⟨rfl, [], (append_nil _).symm, fun _ _ h => h⟩

variable {s : Display} {s' : Display} {show' : Display → List Char → Display}
  {kept : List (List Char)}

theorem Extends.trans {steps more : List (Step (List Char))} {s'' : Display}
    (h : Extends width steps s s') (h' : Extends width more s' s'') :
    Extends width (steps ++ more) s s'' := by
  obtain ⟨hnum, rows, houtput, hrows⟩ := h
  obtain ⟨hnum', rows', houtput', hrows'⟩ := h'
  refine ⟨?_, rows ++ rows', ?_, ?_⟩
  · rw [hnum', hnum, news_append, length_append, Nat.add_assoc]
  · rw [houtput', houtput, map_append, append_assoc]
  · intro rest last hlast
    rw [append_assoc, append_assoc]
    exact hrows _ _ (hrows' _ _ hlast)

theorem Extends.single {step : Step (List Char)} (row : Row)
    (hnum : s'.newLineNum = s.newLineNum + (news [step]).length)
    (houtput : s'.output = s.output ++ [row.render width])
    (hrow : ∀ rest more, Shows s'.oldLineNum s'.newLineNum rest more →
      Shows s.oldLineNum s.newLineNum (step :: rest) (row :: more)) :
    Extends width [step] s s' := ⟨hnum, [row], houtput, hrow⟩

theorem extends_foldl {step : List Char → Step (List Char)}
    (h : ∀ s line, Extends width [step line] s (show' s (chomp line))) (lines : List (List Char))
    (s : Display) : Extends width (lines.map step) s ((lines.map chomp).foldl show' s) := by
  induction lines generalizing s with
  | nil => exact Extends.refl s
  | cons line lines ih => exact (h s line).trans (ih _)

theorem extends_showContext (s : Display) (lines : List (List Char)) :
    Extends width (lines.map Step.keep) s (s.showContext width (lines.map chomp)) :=
  extends_foldl (fun s line => Extends.single (.context s.oldLineNum (chomp line)) rfl rfl
    fun _ _ h => .context line h) lines s

theorem extends_showAdded (s : Display) (lines : List (List Char)) :
    Extends width (lines.map Step.add) s (s.showAdded width (lines.map chomp)) :=
  extends_foldl (fun s line => Extends.single (.added s.newLineNum (chomp line)) rfl rfl
    fun _ _ h => .added line h) lines s

theorem extends_showRemoved (s : Display) (lines : List (List Char)) :
    Extends width (lines.map Step.remove) s (s.showRemoved width (lines.map chomp)) :=
  extends_foldl (fun s line => Extends.single (.removed s.oldLineNum (chomp line)) rfl rfl
    fun _ _ h => .removed line h) lines s

theorem extends_skip (s : Display) (hkept : kept ≠ []) :
    Extends width (kept.map Step.keep) s (s.skip width kept.length) :=
  ⟨by rw [news_keep]; rfl, [.gap], rfl, fun _ _ h => .gap kept hkept h⟩

theorem extends_skipIfAny (s : Display) (kept : List (List Char)) :
    Extends width (kept.map Step.keep) s (s.skipIfAny width kept.length) := by
  rw [Display.skipIfAny]
  by_cases hkept : kept = []
  · subst hkept
    exact Extends.refl s
  · rw [if_pos (length_pos_iff.mpr hkept)]
    exact extends_skip s hkept

theorem extends_contextPart {contextLines : ℕ} {s : Display} {nextPartIsChange : Bool}
    (h : s.lastWasChange = true ∨ nextPartIsChange = true) (kept : List (List Char)) :
    Extends width (kept.map Step.keep) s
      (contextPart width contextLines s nextPartIsChange (kept.map chomp)) := by
  have hsplit : ∀ n, kept.map Step.keep =
      (kept.take n).map Step.keep ++ (kept.drop n).map Step.keep := by
    intro n
    rw [← map_append, take_append_drop]
  cases hlast : s.lastWasChange with
  | false =>
    have hnext : nextPartIsChange = true := h.resolve_left (by rw [hlast]; exact Bool.false_ne_true)
    have hskip := @extends_skipIfAny width s (kept.take (kept.length - contextLines))
    rw [length_take_of_le (Nat.sub_le _ _)] at hskip
    have hshow := hskip.trans (extends_showContext _ (kept.drop (kept.length - contextLines)))
    rw [← hsplit, map_drop] at hshow
    simp only [contextPart, hlast, hnext, Bool.false_and, Bool.false_eq_true, if_false, if_true,
      length_map]
    exact hshow
  | true =>
    cases hnext : nextPartIsChange with
    | false =>
      have hskip := (@extends_showContext width s (kept.take contextLines)).trans
        (extends_skipIfAny _ (kept.drop contextLines))
      have hcount : kept.length - (kept.take contextLines).length =
          (kept.drop contextLines).length := by
        rw [length_take, length_drop]
        omega
      rw [← hsplit, map_take, ← hcount] at hskip
      simp only [contextPart, hlast, Bool.and_false, Bool.false_eq_true, if_false, if_true,
        length_map, ← map_take]
      rw [← map_take] at hskip
      exact hskip
    | true =>
      by_cases hshort : kept.length ≤ contextLines * 2
      · simp only [contextPart, hlast, Bool.and_true, if_true, length_map, hshort]
        exact extends_showContext s kept
      · have hmiddle : (kept.drop contextLines).take (kept.length - contextLines - contextLines) ≠
            [] := by
          rw [← length_pos_iff, length_take, length_drop]
          omega
        have hkept : kept = kept.take contextLines ++
            ((kept.drop contextLines).take (kept.length - contextLines - contextLines) ++
              kept.drop (kept.length - contextLines)) := by
          have hdrop : kept.drop (kept.length - contextLines) =
              (kept.drop contextLines).drop (kept.length - contextLines - contextLines) := by
            rw [drop_drop]
            congr 1
            omega
          rw [hdrop, take_append_drop, take_append_drop]
        have hcount : kept.length - (kept.take contextLines).length -
            (kept.drop (kept.length - contextLines)).length =
              ((kept.drop contextLines).take
                (kept.length - contextLines - contextLines)).length := by
          simp only [length_take, length_drop]
          omega
        have hshow := (@extends_showContext width s (kept.take contextLines)).trans
          ((extends_skip _ hmiddle).trans
            (extends_showContext _ (kept.drop (kept.length - contextLines))))
        rw [← map_append, ← map_append, ← hkept, ← hcount] at hshow
        simp only [contextPart, hlast, Bool.and_true, if_true, length_map, hshort, if_false,
          ← map_take, ← map_drop]
        exact hshow

theorem extends_removedPart (s : Display) {removed : List (List Char)} (h : Lined removed) :
    Extends width (removed.map Step.remove) s
      (changePart width s { value := removed.flatten, removed := true }) := by
  have hshow := @extends_showRemoved width
    { s with firstChangedLine := s.firstChangedLine.or (some s.newLineNum) } removed
  rw [← h.rawLines_flatten] at hshow
  exact hshow

theorem extends_addedPart (s : Display) {added : List (List Char)} (h : Lined added) :
    Extends width (added.map Step.add) s
      (changePart width s { value := added.flatten, added := true }) := by
  have hshow := @extends_showAdded width
    { s with firstChangedLine := s.firstChangedLine.or (some s.newLineNum) } added
  rw [← h.rawLines_flatten] at hshow
  exact hshow

theorem foldl_firstChangedLine (h : ∀ s line, (show' s line).firstChangedLine = s.firstChangedLine)
    (lines : List (List Char)) (s : Display) :
    (lines.foldl show' s).firstChangedLine = s.firstChangedLine := by
  induction lines generalizing s with
  | nil => rfl
  | cons line lines ih => exact (ih _).trans (h s line)

@[simp] theorem showContext_firstChangedLine (s : Display) (lines : List (List Char)) :
    (s.showContext width lines).firstChangedLine = s.firstChangedLine := by
  apply foldl_firstChangedLine
  exact fun _ _ => rfl

@[simp] theorem showAdded_firstChangedLine (s : Display) (lines : List (List Char)) :
    (s.showAdded width lines).firstChangedLine = s.firstChangedLine := by
  apply foldl_firstChangedLine
  exact fun _ _ => rfl

@[simp] theorem showRemoved_firstChangedLine (s : Display) (lines : List (List Char)) :
    (s.showRemoved width lines).firstChangedLine = s.firstChangedLine := by
  apply foldl_firstChangedLine
  exact fun _ _ => rfl

@[simp] theorem skip_firstChangedLine (s : Display) (skippedLines : ℕ) :
    (s.skip width skippedLines).firstChangedLine = s.firstChangedLine := rfl

@[simp] theorem skipIfAny_firstChangedLine (s : Display) (skippedLines : ℕ) :
    (s.skipIfAny width skippedLines).firstChangedLine = s.firstChangedLine := by
  rw [Display.skipIfAny]
  split_ifs <;> rfl

@[simp] theorem contextPart_firstChangedLine (contextLines : ℕ) (s : Display)
    (nextPartIsChange : Bool) (raw : List (List Char)) :
    (contextPart width contextLines s nextPartIsChange raw).firstChangedLine =
      s.firstChangedLine := by
  rw [contextPart]
  split_ifs <;> simp

@[simp] theorem changePart_firstChangedLine (s : Display) (part : DiffPart) :
    (changePart width s part).firstChangedLine =
      s.firstChangedLine.or (some s.newLineNum) := by
  rw [changePart]
  split_ifs <;> simp

@[simp] theorem changePart_lastWasChange (s : Display) (part : DiffPart) :
    (changePart width s part).lastWasChange = true := rfl

theorem displayParts_firstChangedLine {contextLines n : ℕ} (parts : List DiffPart)
    (h : s.firstChangedLine = some n) :
    (displayParts width contextLines s parts).firstChangedLine = some n := by
  induction parts generalizing s with
  | nil => exact h
  | cons part parts ih =>
    rw [displayParts]
    split_ifs
    · exact ih (by rw [changePart_firstChangedLine, h, Option.some_or])
    · exact ih (by rw [contextPart_firstChangedLine, h])

theorem displayParts_change {tag : Tag} {removed added : List (List Char)}
    (htag : tag.Changes removed added) (hremoved : Lined removed) (hadded : Lined added)
    {front back front' back' : List (List Char)} {i j : ℕ} (hi : front.length = i)
    (hj : front'.length = j) (contextLines : ℕ) (s : Display) (parts : List DiffPart) :
    ∃ s', Extends width (removed.map Step.remove ++ added.map Step.add) s s' ∧
      s'.lastWasChange = true ∧
      s'.firstChangedLine = s.firstChangedLine.or (some s.newLineNum) ∧
      displayParts width contextLines s
        (diffParts (front ++ (removed ++ back)) (front' ++ (added ++ back'))
          ⟨tag, i, i + removed.length, j, j + added.length⟩ ++ parts) =
        displayParts width contextLines s' parts := by
  have hold := slice_append hi removed back
  have hnew := slice_append hj added back'
  cases tag with
  | equal => exact htag.elim
  | delete =>
    subst htag
    refine ⟨changePart width s { value := removed.flatten, removed := true }, ?_, rfl,
      changePart_firstChangedLine s _, ?_⟩
    · rw [map_nil, append_nil]
      exact extends_removedPart s hremoved
    · simp only [diffParts, hold]
      rfl
  | insert =>
    subst htag
    refine ⟨changePart width s { value := added.flatten, added := true },
      extends_addedPart s hadded, rfl, changePart_firstChangedLine s _, ?_⟩
    simp only [diffParts, hnew]
    rfl
  | replace =>
    refine ⟨changePart width (changePart width s { value := removed.flatten, removed := true })
      { value := added.flatten, added := true },
      (extends_removedPart s hremoved).trans (extends_addedPart _ hadded), rfl, ?_, ?_⟩
    · rw [changePart_firstChangedLine, changePart_firstChangedLine]
      cases s.firstChangedLine <;> rfl
    · simp only [diffParts, hold, hnew]
      rfl

theorem isChange_head?_parts (old new : List (List Char)) (codes : List Opcode) :
    (codes.flatMap (diffParts old new)).head?.any DiffPart.isChange =
      codes.head?.any fun code => code.tag ≠ .equal := by
  cases codes with
  | nil => rfl
  | cons code codes =>
    cases htag : code.tag <;> simp [diffParts, htag, DiffPart.isChange]

theorem displayParts_equal (hkept : Lined kept) {front back : List (List Char)}
    {new : List (List Char)} {i j : ℕ} (hi : front.length = i) (contextLines : ℕ) (s : Display)
    (parts : List DiffPart) : displayParts width contextLines s
        (diffParts (front ++ (kept ++ back)) new ⟨.equal, i, i + kept.length, j, j + kept.length⟩ ++
          parts) =
      displayParts width contextLines (contextPart width contextLines s
        (parts.head?.any DiffPart.isChange) (kept.map chomp)) parts := by
  simp only [diffParts, slice_append hi, singleton_append]
  rw [displayParts, hkept.rawLines_flatten]
  exact if_neg Bool.false_ne_true

theorem displayParts_extends {i j : ℕ} {old new : List (List Char)} {codes : List Opcode}
    (h : Turns i j old new codes) {front back front' back' : List (List Char)}
    (hi : front.length = i) (hj : front'.length = j) (hold : Lined old) (hnew : Lined new)
    (hcodes : codes.IsChain fun code next => ¬ (code.tag = .equal ∧ next.tag = .equal))
    (contextLines : ℕ) {s : Display}
    (hlast : ∀ code, codes = [code] → code.tag = .equal → s.lastWasChange = true) :
    Extends width (script (front ++ (old ++ back)) (front' ++ (new ++ back')) codes) s
      (displayParts width contextLines s
        (codes.flatMap (diffParts (front ++ (old ++ back)) (front' ++ (new ++ back'))))) := by
  induction h generalizing front front' s with
  | done i j => exact Extends.refl s
  | @equal i j old new codes kept rest ih =>
    have hbeside : s.lastWasChange = true ∨
        (codes.head?.any fun code => code.tag ≠ .equal) = true := by
      cases codes with
      | nil => exact .inl (hlast _ rfl rfl)
      | cons next codes =>
        right
        have hnext : next.tag ≠ .equal := by
          intro htag
          exact (isChain_cons_cons.mp hcodes).1 ⟨rfl, htag⟩
        exact decide_eq_true hnext
    have hnext := isChange_head?_parts (front ++ (kept ++ (old ++ back)))
      (front' ++ (kept ++ (new ++ back'))) codes
    rw [← hnext] at hbeside
    have hstep := @extends_contextPart width contextLines s _ hbeside kept
    have hfront : (front ++ kept).length = i + kept.length := by rw [length_append, hi]
    have hfront' : (front' ++ kept).length = j + kept.length := by rw [length_append, hj]
    have hsingle : ∀ (s : Display) (code : Opcode), codes = [code] → code.tag = .equal →
        s.lastWasChange = true := by
      intro s code hcode htag
      subst hcode
      exact absurd ⟨rfl, htag⟩ (isChain_cons_cons.mp hcodes).1
    have hrest := @ih _ _ hfront hfront' hold.right hnew.right
      (isChain_of_isChain_cons hcodes)
    have hsteps : Opcode.steps (front ++ (kept ++ (old ++ back)))
        (front' ++ (kept ++ (new ++ back'))) ⟨.equal, i, i + kept.length, j, j + kept.length⟩ =
          kept.map Step.keep :=
      congrArg _ (slice_append hi _ _)
    simp only [append_assoc] at hrest ⊢
    rw [flatMap_cons, displayParts_equal hold.left hi, script, flatMap_cons, hsteps]
    exact hstep.trans (hrest (hsingle _))
  | @change i j old new codes tag removed added htag rest ih =>
    obtain ⟨s', hstep, hchanged, -, hparts⟩ :=
      @displayParts_change width tag removed added htag hold.left hnew.left front (old ++ back)
        front' (new ++ back') i j hi hj contextLines s
      (codes.flatMap (diffParts (front ++ (removed ++ (old ++ back)))
        (front' ++ (added ++ (new ++ back')))))
    have hfront : (front ++ removed).length = i + removed.length := by rw [length_append, hi]
    have hfront' : (front' ++ added).length = j + added.length := by rw [length_append, hj]
    have hrest := ih hfront hfront' hold.right hnew.right (isChain_of_isChain_cons hcodes)
      fun _ _ _ => hchanged
    have hsteps := @Opcode.steps_change _ tag removed added front (old ++ back) front'
      (new ++ back') i j htag hi hj
    simp only [append_assoc] at hrest ⊢
    rw [flatMap_cons, hparts, script, flatMap_cons, hsteps]
    exact hstep.trans hrest

theorem contextPart_newLineNum (contextLines : ℕ) (s : Display) (nextPartIsChange : Bool)
    (kept : List (List Char)) :
    (contextPart width contextLines s nextPartIsChange (kept.map chomp)).newLineNum =
      s.newLineNum + kept.length := by
  by_cases h : s.lastWasChange = true ∨ nextPartIsChange = true
  · have hnum := (@extends_contextPart width contextLines s _ h kept).1
    rwa [news_keep] at hnum
  · rw [not_or, Bool.not_eq_true, Bool.not_eq_true] at h
    simp only [contextPart, h.1, h.2, Bool.and_false, Bool.false_eq_true, if_false, length_map]

theorem displayParts_first {i j : ℕ} {old new : List (List Char)} {codes : List Opcode}
    (h : Turns i j old new codes) {front back front' back' : List (List Char)}
    (hi : front.length = i) (hj : front'.length = j) (hold : Lined old) (hnew : Lined new)
    (contextLines : ℕ) {s : Display} (hnum : s.newLineNum = j + 1)
    (hfirst : s.firstChangedLine = none) :
    (displayParts width contextLines s (codes.flatMap
      (diffParts (front ++ (old ++ back)) (front' ++ (new ++ back'))))).firstChangedLine =
        (codes.find? fun code => code.tag ≠ .equal).map (·.newStart + 1) := by
  induction h generalizing front front' s with
  | done i j => exact hfirst
  | @equal i j old new codes kept rest ih =>
    have hfront : (front ++ kept).length = i + kept.length := by rw [length_append, hi]
    have hfront' : (front' ++ kept).length = j + kept.length := by rw [length_append, hj]
    have hrest := @ih _ _ hfront hfront' hold.right hnew.right
      (contextPart width contextLines s ((codes.flatMap (diffParts
        (front ++ (kept ++ (old ++ back))) (front' ++ (kept ++ (new ++ back'))))).head?.any
          DiffPart.isChange) (kept.map chomp))
      (by rw [contextPart_newLineNum, hnum, Nat.add_right_comm])
      (by rw [contextPart_firstChangedLine, hfirst])
    simp only [append_assoc] at hrest ⊢
    rw [flatMap_cons, displayParts_equal hold.left hi, hrest]
    rfl
  | @change i j old new codes tag removed added htag rest ih =>
    obtain ⟨s', -, -, hseen, hparts⟩ :=
      @displayParts_change width tag removed added htag hold.left hnew.left front (old ++ back)
        front' (new ++ back') i j hi hj contextLines s
      (codes.flatMap (diffParts (front ++ (removed ++ (old ++ back)))
        (front' ++ (added ++ (new ++ back')))))
    have hne : tag ≠ .equal := by
      rintro rfl
      exact htag
    simp only [append_assoc]
    rw [hfirst, Option.none_or, hnum] at hseen
    rw [flatMap_cons, hparts, displayParts_firstChangedLine _ hseen, find?_cons, decide_eq_true hne]
    rfl

end Rows

section Reading

variable {width : ℕ}

def gutterNumber (text : List Char) : List Char :=
  (text.dropWhile (· = ' ')).takeWhile Char.isDigit

/-- What stands behind the number. -/
def gutterRest (text : List Char) : List Char :=
  (text.dropWhile (· = ' ')).dropWhile Char.isDigit

theorem dropWhile_padding (k : ℕ) (text : List Char) :
    (List.replicate k ' ' ++ text).dropWhile (· = ' ') = text.dropWhile (· = ' ') := by
  induction k with
  | zero => rfl
  | succ k ih => exact ih

variable {n i j : ℕ} {line : List Char} {row : Row} {steps : List (Step (List Char))}
   {rows : List Row}

theorem digit_of_mem_str {c : Char} (h : c ∈ str n) : c.isDigit = true :=
  Nat.isDigit_of_mem_toDigits (by omega) (by omega) h

theorem dropWhile_gutter (n : ℕ) (line : List Char) :
    (gutter width n line).dropWhile (· = ' ') = str n ++ ' ' :: line := by
  rw [gutter, leftpad, append_assoc, dropWhile_padding]
  obtain ⟨c, digits, hdigits⟩ := exists_cons_of_ne_nil (Nat.toDigits_ne_nil (n := n) (b := 10))
  have hc : c ≠ ' ' := by
    rintro rfl
    have hmem : ' ' ∈ str n := by
      rw [str, hdigits]
      exact mem_cons_self
    exact absurd (digit_of_mem_str hmem) (by decide)
  rw [str, hdigits, cons_append, dropWhile_cons_of_neg (by simpa using hc)]

theorem gutterNumber_gutter (n : ℕ) (line : List Char) :
    gutterNumber (gutter width n line) = str n := by
  rw [gutterNumber, dropWhile_gutter, takeWhile_append_of_pos fun _ => digit_of_mem_str]
  exact append_nil _

theorem gutterRest_gutter (n : ℕ) (line : List Char) :
    gutterRest (gutter width n line) = ' ' :: line := by
  rw [gutterRest, dropWhile_gutter, dropWhile_append_of_pos fun _ => digit_of_mem_str]
  rfl

variable {m : ℕ} {front : List Row}

theorem gutter_inj {other : List Char} (h : gutter width n line = gutter width m other) :
    n = m ∧ line = other := by
  have hnumber : str n = str m := by
    rw [← @gutterNumber_gutter width n line, h, gutterNumber_gutter]
  have hrest : ' ' :: line = ' ' :: other := by
    rw [← @gutterRest_gutter width n line, h, gutterRest_gutter]
  refine ⟨?_, (cons.inj hrest).2⟩
  rw [← int_str n, hnumber, int_str]

theorem contextLine_ne_ellipsis (n : ℕ) (line : List Char) :
    contextLine width n line ≠ ellipsis width := by
  intro h
  have hnumber := congrArg gutterNumber (cons.inj h).2
  rw [gutterNumber_gutter, gutterNumber, leftpad, append_nil, dropWhile_padding] at hnumber
  exact Nat.toDigits_ne_nil hnumber

theorem render_eq_removedLine (h : row.render width = removedLine width n line) :
    row = .removed n line := by
  cases row with
  | removed m other =>
    obtain ⟨rfl, rfl⟩ := gutter_inj (cons.inj h).2
    rfl
  | added | context | gap => exact absurd (cons.inj h).1 (by decide)

theorem render_eq_addedLine (h : row.render width = addedLine width n line) :
    row = .added n line := by
  cases row with
  | removed | context | gap => exact absurd (cons.inj h).1 (by decide)
  | added m other =>
    obtain ⟨rfl, rfl⟩ := gutter_inj (cons.inj h).2
    rfl

theorem render_eq_contextLine (h : row.render width = contextLine width n line) :
    row = .context n line := by
  cases row with
  | removed | added => exact absurd (cons.inj h).1 (by decide)
  | context m other =>
    obtain ⟨rfl, rfl⟩ := gutter_inj (cons.inj h).2
    rfl
  | gap => exact absurd h.symm (contextLine_ne_ellipsis n line)

/-- The numbered line of the old text that a row shows. -/
def Row.old? : Row → Option (ℕ × List Char)
  | .removed n line => some (n, line)
  | .context n line => some (n, line)
  | _ => none

/-- The numbered line of the new text that a changed row shows. -/
def Row.new? : Row → Option (ℕ × List Char)
  | .added n line => some (n, line)
  | _ => none

theorem line_first {token : List Char} (lines : List (List Char))
    (h : some (i, chomp token) = some (n, line)) :
    i ≤ n ∧ (chomp token :: lines)[n - i]? = some line := by
  cases h
  refine ⟨Nat.le_refl _, ?_⟩
  rw [Nat.sub_self]
  rfl

theorem line_behind (front : List (List Char)) {lines : List (List Char)}
    (h : i + front.length ≤ n ∧ lines[n - (i + front.length)]? = some line) :
    i ≤ n ∧ (front ++ lines)[n - i]? = some line := by
  refine ⟨by omega, ?_⟩
  rw [getElem?_append_right (by omega), Nat.sub_sub]
  exact h.2

theorem Shows.old_line (h : Shows i j steps rows) (hrow : row ∈ rows)
    (hline : row.old? = some (n, line)) : i ≤ n ∧ ((olds steps).map chomp)[n - i]? = some line := by
  induction h with
  | done i j => exact nomatch hrow
  | @removed i j steps rows token rest ih =>
    rcases mem_cons.mp hrow with rfl | hrow
    · exact line_first _ hline
    · exact line_behind [chomp token] (ih hrow)
  | @added i j steps rows token rest ih =>
    rcases mem_cons.mp hrow with rfl | hrow
    · exact nomatch hline
    · exact ih hrow
  | @context i j steps rows token rest ih =>
    rcases mem_cons.mp hrow with rfl | hrow
    · exact line_first _ hline
    · exact line_behind [chomp token] (ih hrow)
  | @gap i j steps rows kept hkept rest ih =>
    rcases mem_cons.mp hrow with rfl | hrow
    · exact nomatch hline
    · rw [olds_append, olds_keep, map_append]
      exact line_behind _ (by rw [length_map]; exact ih hrow)

theorem Shows.new_line (h : Shows i j steps rows) (hrow : row ∈ rows)
    (hline : row.new? = some (n, line)) : j ≤ n ∧ ((news steps).map chomp)[n - j]? = some line := by
  induction h with
  | done i j => exact nomatch hrow
  | @removed i j steps rows token rest ih =>
    rcases mem_cons.mp hrow with rfl | hrow
    · exact nomatch hline
    · exact ih hrow
  | @added i j steps rows token rest ih =>
    rcases mem_cons.mp hrow with rfl | hrow
    · exact line_first _ hline
    · exact line_behind [chomp token] (ih hrow)
  | @context i j steps rows token rest ih =>
    rcases mem_cons.mp hrow with rfl | hrow
    · exact nomatch hline
    · exact line_behind [chomp token] (ih hrow)
  | @gap i j steps rows kept hkept rest ih =>
    rcases mem_cons.mp hrow with rfl | hrow
    · exact nomatch hline
    · rw [news_append, news_keep, map_append]
      exact line_behind _ (by rw [length_map]; exact ih hrow)

theorem Shows.behind (h : Shows i j steps (front ++ rows)) :
    ∃ i' j' steps', Shows i' j' steps' rows := by
  induction front generalizing i j steps with
  | nil => exact ⟨i, j, steps, h⟩
  | cons row front ih =>
    cases h with
    | removed _ rest => exact ih rest
    | added _ rest => exact ih rest
    | context _ rest => exact ih rest
    | gap _ _ rest => exact ih rest

theorem Shows.adjacent {back : List Row} {next : List Char}
    (h : Shows i j steps (front ++ .context n line :: .context m next :: back)) : m = n + 1 := by
  obtain ⟨i', j', steps', hrest⟩ := h.behind
  cases hrest with
  | context _ rest =>
    cases rest with
    | context _ _ => rfl

/-- Whether a line of the display is marked as removed or added. -/
def isChangeLine (line : List Char) : Bool := line.head? = some '-' || line.head? = some '+'

/-- The removed and added lines of a script, from two line numbers on. -/
def changeLines (width : ℕ) : ℕ → ℕ → List (Step (List Char)) → List (List Char)
  | _, _, [] => []
  | i, j, .keep _ :: steps => changeLines width (i + 1) (j + 1) steps
  | i, j, .remove line :: steps =>
    removedLine width i (chomp line) :: changeLines width (i + 1) j steps
  | i, j, .add line :: steps => addedLine width j (chomp line) :: changeLines width i (j + 1) steps

theorem changeLines_keep (kept : List (List Char)) {i j : ℕ} (steps : List (Step (List Char))) :
    changeLines width i j (kept.map Step.keep ++ steps) =
      changeLines width (i + kept.length) (j + kept.length) steps := by
  induction kept generalizing i j with
  | nil => rfl
  | cons line kept ih =>
    rw [map_cons, cons_append, changeLines, ih, length_cons]
    congr 1 <;> omega

theorem Shows.changes (h : Shows i j steps rows) :
    (rows.map (Row.render width)).filter isChangeLine = changeLines width i j steps := by
  induction h with
  | done i j => rfl
  | removed line _ ih => exact congrArg _ ih
  | added line _ ih => exact congrArg _ ih
  | context line _ ih => exact ih
  | gap kept _ _ ih =>
    rw [changeLines_keep]
    exact ih

theorem Shows.line_mem (h : Shows i j steps rows) (hrow : row ∈ rows)
    (hline : row.old? = some (n, line) ∨ row.new? = some (n, line)) :
    ∃ token, (token ∈ olds steps ∨ token ∈ news steps) ∧ chomp token = line := by
  rcases hline with hline | hline
  · obtain ⟨token, htoken, heq⟩ :=
      mem_map.mp (mem_of_getElem? (h.old_line hrow hline).2)
    exact ⟨token, .inl htoken, heq⟩
  · obtain ⟨token, htoken, heq⟩ :=
      mem_map.mp (mem_of_getElem? (h.new_line hrow hline).2)
    exact ⟨token, .inr htoken, heq⟩

theorem newline_notMem_gutter (h : '\n' ∉ line) : '\n' ∉ gutter width n line := by
  intro hmem
  rw [gutter, leftpad, append_assoc, mem_append, mem_append, mem_cons] at hmem
  rcases hmem with hpad | hdigit | hspace | hline
  · exact absurd (eq_of_mem_replicate hpad) (by decide)
  · exact absurd (digit_of_mem_str hdigit) (by decide)
  · exact absurd hspace (by decide)
  · exact h hline

theorem newline_notMem_ellipsis : '\n' ∉ ellipsis width := by
  intro hmem
  rw [ellipsis, leftpad, append_nil, mem_cons, mem_append] at hmem
  rcases hmem with hspace | hpad | hdots
  · exact absurd hspace (by decide)
  · exact absurd (eq_of_mem_replicate hpad) (by decide)
  · exact absurd hdots (by decide)

theorem Shows.newline_notMem (h : Shows i j steps rows) (hold : Lined (olds steps))
    (hnew : Lined (news steps)) : ∀ line ∈ rows.map (Row.render width), '\n' ∉ line := by
  intro text htext
  obtain ⟨row, hrow, rfl⟩ := mem_map.mp htext
  have hfree : ∀ {n : ℕ} {line : List Char},
      row.old? = some (n, line) ∨ row.new? = some (n, line) → '\n' ∉ line := by
    intro n line hline
    obtain ⟨token, htoken, rfl⟩ := h.line_mem hrow hline
    exact htoken.elim (hold.chomp_free token) (hnew.chomp_free token)
  have hmark : ∀ {c : Char} {n : ℕ} {line : List Char}, c ≠ '\n' → '\n' ∉ line →
      '\n' ∉ c :: gutter width n line := fun hc hline hmem =>
    (mem_cons.mp hmem).elim (fun heq => hc heq.symm) (newline_notMem_gutter hline)
  cases row with
  | removed | context => exact hmark (by decide) (hfree (.inl rfl))
  | added n line => exact hmark (by decide) (hfree (.inr rfl))
  | gap => exact newline_notMem_ellipsis

end Reading

section Faithful

variable {getOpcodes : List (List Char) → List (List Char) → List Opcode}

/-- The steps that the differ's opcodes stand for, on the lines of two texts. -/
def editScript (getOpcodes : List (List Char) → List (List Char) → List Opcode)
    (old new : List Char) : List (Step (List Char)) :=
  script (splitLinesWithEndings old) (splitLinesWithEndings new)
    (getOpcodes (splitLinesWithEndings old) (splitLinesWithEndings new))

def shownLines (display : List Char) : List (List Char) := display.splitOn '\n'

/-- What the numbers and marks of a display say is so. -/
structure Faithful (getOpcodes : List (List Char) → List (List Char) → List Opcode)
    (old new : List Char) (display : List Char) (firstChangedLine : Option ℕ) : Prop where
  removed : ∀ n line, removedLine (lineNumWidth old new) n line ∈ shownLines display →
    1 ≤ n ∧ (rawLines old)[n - 1]? = some line
  added : ∀ n line, addedLine (lineNumWidth old new) n line ∈ shownLines display →
    1 ≤ n ∧ (rawLines new)[n - 1]? = some line
  context : ∀ n line, contextLine (lineNumWidth old new) n line ∈ shownLines display →
    1 ≤ n ∧ (rawLines old)[n - 1]? = some line
  /-- The changes of the script, each once and in order. -/
  changes : (shownLines display).filter isChangeLine =
    changeLines (lineNumWidth old new) 1 1 (editScript getOpcodes old new)
  /-- Context lines that no ellipsis parts are neighbours. -/
  adjacent : ∀ front back n m line next, shownLines display =
    front ++ contextLine (lineNumWidth old new) n line ::
      contextLine (lineNumWidth old new) m next :: back → m = n + 1
  first : firstChangedLine = ((getOpcodes (splitLinesWithEndings old)
    (splitLinesWithEndings new)).find? fun code => code.tag ≠ .equal).map (·.newStart + 1)
  unchanged : firstChangedLine = none ↔ old = new

variable {old new : List Char}

theorem lined_old
    (h : Correct (splitLinesWithEndings old) (splitLinesWithEndings new)
      (getOpcodes (splitLinesWithEndings old) (splitLinesWithEndings new))) :
    olds (editScript getOpcodes old new) = splitLinesWithEndings old ∧
      news (editScript getOpcodes old new) = splitLinesWithEndings new := by
  have hscript := @Turns.script_eq _ _ _ _ _ _ h.turns [] [] [] [] rfl rfl
  simp only [nil_append, append_nil] at hscript
  exact hscript

theorem output_rows (contextLines : ℕ)
    (h : Correct (splitLinesWithEndings old) (splitLinesWithEndings new)
      (getOpcodes (splitLinesWithEndings old) (splitLinesWithEndings new))) :
    ∃ rows : List Row,
      (displayParts (lineNumWidth old new) contextLines {}
        (diffLines getOpcodes old new)).output = rows.map (Row.render (lineNumWidth old new)) ∧
      (Shows 1 1 (editScript getOpcodes old new) rows ∨
        rows = [] ∧
          changeLines (lineNumWidth old new) 1 1 (editScript getOpcodes old new) = []) := by
  have hold := lined_splitLinesWithEndings old
  have hnew := lined_splitLinesWithEndings new
  by_cases hsingle : ∃ code, getOpcodes (splitLinesWithEndings old) (splitLinesWithEndings new) =
      [code] ∧ code.tag = .equal
  · obtain ⟨code, hcodes, htag⟩ := hsingle
    refine ⟨[], ?_, .inr ⟨rfl, ?_⟩⟩
    · rw [diffLines, hcodes, flatMap_singleton]
      simp only [diffParts, htag]
      rfl
    · rw [editScript, hcodes, script, flatMap_singleton, Opcode.steps, htag]
      have hkeep := @changeLines_keep (lineNumWidth old new)
        (slice (splitLinesWithEndings old) code.oldStart code.oldEnd) 1 1 []
      rwa [append_nil] at hkeep
  · have hextends := @displayParts_extends (lineNumWidth old new) _ _ _ _ _ h.turns [] [] [] []
      rfl rfl hold hnew h.separated contextLines {}
      fun code hcodes htag => absurd ⟨code, hcodes, htag⟩ hsingle
    simp only [nil_append, append_nil] at hextends
    obtain ⟨-, rows, houtput, hrows⟩ := hextends
    have hshows := hrows [] [] (.done _ _)
    rw [append_nil, append_nil] at hshows
    exact ⟨rows, houtput, .inl hshows⟩

theorem shown_rows (contextLines : ℕ)
    (h : Correct (splitLinesWithEndings old) (splitLinesWithEndings new)
      (getOpcodes (splitLinesWithEndings old) (splitLinesWithEndings new))) :
    (∃ rows : List Row, Shows 1 1 (editScript getOpcodes old new) rows ∧
      shownLines (generateDiffString getOpcodes old new contextLines).1 =
        rows.map (Row.render (lineNumWidth old new))) ∨
    shownLines (generateDiffString getOpcodes old new contextLines).1 = [[]] ∧
      changeLines (lineNumWidth old new) 1 1 (editScript getOpcodes old new) = [] := by
  obtain ⟨rows, houtput, hrows⟩ := output_rows contextLines h
  rw [generateDiffString, houtput, shownLines]
  by_cases hnil : rows = []
  · subst hnil
    right
    refine ⟨rfl, ?_⟩
    rcases hrows with hshows | ⟨-, hchanges⟩
    · exact hshows.changes.symm
    · exact hchanges
  · left
    have hshows := hrows.resolve_right fun h => hnil h.1
    obtain ⟨hold, hnew⟩ := lined_old h
    refine ⟨rows, hshows, splitOn_intercalate _ (hshows.newline_notMem ?_ ?_) ?_⟩
    · rw [hold]
      exact lined_splitLinesWithEndings old
    · rw [hnew]
      exact lined_splitLinesWithEndings new
    · simpa using hnil

theorem rawLines_eq (text : List Char) :
    rawLines text = (splitLinesWithEndings text).map chomp := by
  rw [← (lined_splitLinesWithEndings text).rawLines_flatten, flatten_splitLinesWithEndings]

/-- With a correct differ the display says what is so. -/
theorem generateDiffString_faithful (old new : List Char) (contextLines : ℕ)
    (h : Correct (splitLinesWithEndings old) (splitLinesWithEndings new)
      (getOpcodes (splitLinesWithEndings old) (splitLinesWithEndings new))) :
    Faithful getOpcodes old new (generateDiffString getOpcodes old new contextLines).1
      (generateDiffString getOpcodes old new contextLines).2 := by
  obtain ⟨hold, hnew⟩ := lined_old h
  have hrow : ∀ line, line ≠ [] →
      line ∈ shownLines (generateDiffString getOpcodes old new contextLines).1 →
        ∃ rows row, Shows 1 1 (editScript getOpcodes old new) rows ∧ row ∈ rows ∧
          Row.render (lineNumWidth old new) row = line := by
    intro line hline hmem
    rcases shown_rows contextLines h with ⟨rows, hshows, hshown⟩ | ⟨hshown, -⟩
    · rw [hshown] at hmem
      obtain ⟨row, hrow, hrender⟩ := mem_map.mp hmem
      exact ⟨rows, row, hshows, hrow, hrender⟩
    · rw [hshown] at hmem
      exact absurd (mem_singleton.mp hmem) hline
  have hfirst : (generateDiffString getOpcodes old new contextLines).2 =
      ((getOpcodes (splitLinesWithEndings old) (splitLinesWithEndings new)).find?
        fun code => code.tag ≠ .equal).map (·.newStart + 1) := by
    have hparts := @displayParts_first (lineNumWidth old new) _ _ _ _ _ h.turns [] [] [] [] rfl rfl
      (lined_splitLinesWithEndings old) (lined_splitLinesWithEndings new) contextLines {} rfl rfl
    simp only [nil_append, append_nil] at hparts
    exact hparts
  constructor
  case removed =>
    intro n line hmem
    obtain ⟨rows, row, hshows, hrow, hrender⟩ := hrow _ (cons_ne_nil _ _) hmem
    rw [rawLines_eq, ← hold]
    exact hshows.old_line hrow (by rw [render_eq_removedLine hrender]; rfl)
  case added =>
    intro n line hmem
    obtain ⟨rows, row, hshows, hrow, hrender⟩ := hrow _ (cons_ne_nil _ _) hmem
    rw [rawLines_eq, ← hnew]
    exact hshows.new_line hrow (by rw [render_eq_addedLine hrender]; rfl)
  case context =>
    intro n line hmem
    obtain ⟨rows, row, hshows, hrow, hrender⟩ := hrow _ (cons_ne_nil _ _) hmem
    rw [rawLines_eq, ← hold]
    exact hshows.old_line hrow (by rw [render_eq_contextLine hrender]; rfl)
  case changes =>
    rcases shown_rows contextLines h with ⟨rows, hshows, hshown⟩ | ⟨hshown, hnone⟩
    · rw [hshown, hshows.changes]
    · rw [hshown, hnone]
      rfl
  case adjacent =>
    intro front back n m line next hlines
    rcases shown_rows contextLines h with ⟨rows, hshows, hshown⟩ | ⟨hshown, -⟩
    · rw [hshown] at hlines
      obtain ⟨rows₁, rows₂, rfl, -, hrest⟩ := map_eq_append_iff.mp hlines
      obtain ⟨row, rows₃, rfl, hrender, hrest⟩ := map_eq_cons_iff.mp hrest
      obtain ⟨row', rows₄, rfl, hrender', -⟩ := map_eq_cons_iff.mp hrest
      rw [render_eq_contextLine hrender, render_eq_contextLine hrender'] at hshows
      exact hshows.adjacent
    · rw [hshown] at hlines
      have hlength := congrArg length hlines
      simp only [length_nil, length_append, length_cons] at hlength
      omega
  case first => exact hfirst
  case unchanged =>
    rw [hfirst, Option.map_eq_none_iff, find?_eq_none]
    constructor
    · intro hequal
      have htokens := h.turns.eq_of_equal fun code hcode => by simpa using hequal code hcode
      rw [← flatten_splitLinesWithEndings old, htokens, flatten_splitLinesWithEndings]
    · rintro rfl code hcode
      simpa using h.identical rfl code hcode

/-- The middle line replaced, the last one without its newline. -/
theorem generateDiffString_faithful_replaced :
    let old := ['a', '\n', 'b', '\n', 'c', '\n']
    let new := ['a', '\n', 'x', '\n', 'c']
    let getOpcodes (_ _ : List (List Char)) : List Opcode :=
      [⟨.equal, 0, 1, 0, 1⟩, ⟨.replace, 1, 3, 1, 3⟩]
    Faithful getOpcodes old new (generateDiffString getOpcodes old new 4).1
      (generateDiffString getOpcodes old new 4).2 := by
  apply generateDiffString_faithful
  constructor
  · exact Turns.equal [['a', '\n']] (Turns.change [['b', '\n'], ['c', '\n']] [['x', '\n'], ['c']]
      trivial (.done 3 3))
  · decide
  · exact fun h => absurd h (by decide)

end Faithful

end Pidrei.DisplayDiff
