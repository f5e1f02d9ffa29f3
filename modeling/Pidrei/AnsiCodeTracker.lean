import Pidrei.AnsiCodes
import Pidrei.Library.PythonText

/-!
The styles that are active behind a text: the attributes and colors that SGR codes set and
the hyperlink that an OSC 8 code opens.
-/
namespace Pidrei.Tui.TerminalText

structure Hyperlink where
  params : List Char
  url : List Char
  terminator : List Char

def osc8Start : List Char := [esc, ']', '8', ';']

def parseOsc8Hyperlink (ansiCode : List Char) : Option (Option Hyperlink) :=
  if !osc8Start.isPrefixOf ansiCode then none
  else
    let endsWithBel := ansiCode.getLast? = some bel
    let terminator := if endsWithBel then [bel] else [esc, '\\']
    let body := (ansiCode.take (ansiCode.length - terminator.length)).drop 4
    match body.idxOf? ';' with
    | none => none
    | some separatorIndex =>
      let url := body.drop (separatorIndex + 1)
      if url.isEmpty then some none
      else some (some { params := body.take separatorIndex, url := url, terminator := terminator })

def formatOsc8Hyperlink (hyperlink : Hyperlink) : List Char :=
  osc8Start ++ hyperlink.params ++ [';'] ++ hyperlink.url ++ hyperlink.terminator

structure AnsiCodeTracker where
  bold : Bool
  dim : Bool
  italic : Bool
  underline : Bool
  blink : Bool
  inverse : Bool
  hidden : Bool
  strikethrough : Bool
  fgColor : Option (List Char)
  bgColor : Option (List Char)
  activeHyperlink : Option Hyperlink

namespace AnsiCodeTracker

/-- Nothing is active. -/
def clear : AnsiCodeTracker :=
  { bold := false, dim := false, italic := false, underline := false, blink := false,
    inverse := false, hidden := false, strikethrough := false, fgColor := none, bgColor := none,
    activeHyperlink := none }

/-- An SGR reset leaves the hyperlink alone. -/
def reset (s : AnsiCodeTracker) : AnsiCodeTracker :=
  { clear with activeHyperlink := s.activeHyperlink }

def setColor (s : AnsiCodeTracker) (code : ℕ) (color : List Char) : AnsiCodeTracker :=
  if code = 38 then { s with fgColor := some color } else { s with bgColor := some color }

/-- A code without arguments. -/
def applyCode (s : AnsiCodeTracker) (code : ℕ) : AnsiCodeTracker :=
  if code = 0 then s.reset
  else if code = 1 then { s with bold := true }
  else if code = 2 then { s with dim := true }
  else if code = 3 then { s with italic := true }
  else if code = 4 then { s with underline := true }
  else if code = 5 then { s with blink := true }
  else if code = 7 then { s with inverse := true }
  else if code = 8 then { s with hidden := true }
  else if code = 9 then { s with strikethrough := true }
  else if code = 21 then { s with bold := false }
  else if code = 22 then { s with bold := false, dim := false }
  else if code = 23 then { s with italic := false }
  else if code = 24 then { s with underline := false }
  else if code = 25 then { s with blink := false }
  else if code = 27 then { s with inverse := false }
  else if code = 28 then { s with hidden := false }
  else if code = 29 then { s with strikethrough := false }
  else if code = 39 then { s with fgColor := none }
  else if code = 49 then { s with bgColor := none }
  else if 30 ≤ code ∧ code ≤ 37 ∨ 90 ≤ code ∧ code ≤ 97 then
    { s with fgColor := some (PythonText.str code) }
  else if 40 ≤ code ∧ code ≤ 47 ∨ 100 ≤ code ∧ code ≤ 107 then
    { s with bgColor := some (PythonText.str code) }
  else s

def codeOf (part : List Char) : ℕ := PythonText.int part

/-- `38;5;N` and `38;2;R;G;B` set the foreground color, with 48 the background. -/
def applyParts : AnsiCodeTracker → List (List Char) → AnsiCodeTracker
  | s, [] => s
  | s, part :: parts =>
    let code := codeOf part
    let isColor := code = 38 ∨ code = 48
    match parts with
    | [] => s.applyCode code
    | [mode] => (s.applyCode code).applyParts [mode]
    | mode :: first :: rest =>
      if isColor ∧ mode = ['5'] then
        (s.setColor code (part ++ ';' :: mode ++ ';' :: first)).applyParts rest
      else
        match rest with
        | second :: third :: more =>
          if isColor ∧ mode = ['2'] then
            let color := part ++ ';' :: mode ++ ';' :: first ++ ';' :: second ++ ';' :: third
            (s.setColor code color).applyParts more
          else (s.applyCode code).applyParts (mode :: first :: second :: third :: more)
        | [second] => (s.applyCode code).applyParts [mode, first, second]
        | [] => (s.applyCode code).applyParts [mode, first]

/-- `\x1b\[([\d;]*)m` at the beginning of the code. -/
def sgrParams : List Char → Option (List Char)
  | c :: '[' :: rest =>
    let params := rest.takeWhile fun d => PythonText.isDigit d || d = ';'
    if c = esc ∧ (rest.drop params.length).head? = some 'm' then some params else none
  | _ => none

def process (s : AnsiCodeTracker) (ansiCode : List Char) : AnsiCodeTracker :=
  match parseOsc8Hyperlink ansiCode with
  | some hyperlink => { s with activeHyperlink := hyperlink }
  | none =>
    if ansiCode.getLast? ≠ some 'm' then s
    else
      match sgrParams ansiCode with
      | none => s
      | some params =>
        if params = [] ∨ params = ['0'] then s.reset else s.applyParts (params.splitOn ';')

def attributeCodes (s : AnsiCodeTracker) : List (List Char) :=
  (if s.bold then [['1']] else []) ++ (if s.dim then [['2']] else []) ++
    (if s.italic then [['3']] else []) ++ (if s.underline then [['4']] else []) ++
    (if s.blink then [['5']] else []) ++ (if s.inverse then [['7']] else []) ++
    (if s.hidden then [['8']] else []) ++ (if s.strikethrough then [['9']] else []) ++
    s.fgColor.toList ++ s.bgColor.toList

def sgrCode (codes : List (List Char)) : List Char :=
  if codes.isEmpty then [] else esc :: '[' :: (List.intercalate [';'] codes ++ ['m'])

def getActiveCodes (s : AnsiCodeTracker) : List Char :=
  sgrCode s.attributeCodes ++
    match s.activeHyperlink with
    | some hyperlink => formatOsc8Hyperlink hyperlink
    | none => []

end AnsiCodeTracker

end Pidrei.Tui.TerminalText
