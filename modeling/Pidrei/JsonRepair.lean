import Pidrei.Library.JsonDecoder
import Mathlib.Data.List.TakeWhile

/-!
The repair of the string literals of a JSON text: control characters are
escaped, and a backslash that begins no legal escape is doubled. The scanner
knows only whether it is inside a literal.
-/
namespace Pidrei.JsonRepair

open JsonDecoder

def validJsonEscapes : List Char := ['"', '\\', '/', 'b', 'f', 'n', 'r', 't']

def isHexDigit (c : Char) : Bool := (hexDigit c).isSome

/-- `f"\\u{ord(char):04x}"`, or the short escape. -/
def escapeControlCharacter (char : Char) : List Char :=
  if char = '\x08' then ['\\', 'b']
  else if char = '\x0c' then ['\\', 'f']
  else if char = '\n' then ['\\', 'n']
  else if char = '\r' then ['\\', 'r']
  else if char = '\t' then ['\\', 't']
  else '\\' :: 'u' :: (Nat.toDigits 16 char.toNat).leftpad 4 '0'

/-- The characters behind a backslash that make a legal escape with it. -/
def escapeLength : List Char → ℕ
  | [] => 0
  | nextChar :: rest =>
    if nextChar = 'u' && (rest.take 4).length = 4 && (rest.take 4).all isHexDigit then 5
    else if nextChar ∈ validJsonEscapes then 1
    else 0

/-- `skip` characters still belong to a legal escape. -/
def repairFrom : (inString : Bool) → (skip : ℕ) → List Char → List Char
  | _, _, [] => []
  | inString, skip + 1, char :: rest => char :: repairFrom inString skip rest
  | false, 0, char :: rest => char :: repairFrom (char = '"') 0 rest
  | true, 0, char :: rest =>
    if char = '"' then char :: repairFrom false 0 rest
    else if char = '\\' then
      if 0 < escapeLength rest then char :: repairFrom true (escapeLength rest) rest
      else '\\' :: '\\' :: repairFrom true 0 rest
    else (if isControl char then escapeControlCharacter char else [char]) ++ repairFrom true 0 rest

def repairJson (jsonText : List Char) : List Char := repairFrom false 0 jsonText

def isRepairable : LoadError → Bool
  | .decode message => ['I', 'n', 'v', 'a', 'l', 'i', 'd'].isPrefixOf message.toList
  | _ => false

/-- What `except ValueError` catches. -/
def isValueError : LoadError → Bool
  | .recursion => false
  | _ => true

def rejectConstant (constant : String) : Except LoadError Json :=
  .error (.value ("Unexpected token " ++ constant))

/-- The interpreter's limits on nesting and on the digits of an integer. -/
structure Limits where
  recursion : ℕ
  digits : ℕ

def loadsStrict (limits : Limits) (jsonText : List Char) : Except LoadError Json :=
  loads ⟨limits.recursion, limits.digits, rejectConstant⟩ jsonText

def parseJsonWithRepair (limits : Limits) (jsonText : List Char) : Except LoadError Json :=
  match loadsStrict limits jsonText with
  | .ok value => .ok value
  | .error error =>
    if !isValueError error then .error error
    else if !isRepairable error then .error error
    else if repairJson jsonText ≠ jsonText then loadsStrict limits (repairJson jsonText)
    else .error error

section Escapes

/-- What may stand behind a backslash in a JSON string. -/
inductive LegalEscape : List Char → Prop
  | short {c : Char} (h : c ∈ validJsonEscapes) : LegalEscape [c]
  | unicode {h₁ h₂ h₃ h₄ : Char} (h : [h₁, h₂, h₃, h₄].all isHexDigit = true) :
      LegalEscape ['u', h₁, h₂, h₃, h₄]

variable {escape rest : List Char}

theorem escapeLength_legal (h : LegalEscape escape) (rest : List Char) :
    escapeLength (escape ++ rest) = escape.length := by
  cases h with
  | @short c hc =>
    have hu : c ≠ 'u' := by
      rintro rfl
      exact absurd hc (by decide)
    simp [escapeLength, hu, hc]
  | unicode hdigits =>
    simp only [escapeLength, List.cons_append, List.nil_append, List.take_succ_cons, List.take_zero,
      hdigits]
    rfl

theorem length_pos_of_legal (h : LegalEscape escape) : 0 < escape.length := by
  cases h with
  | short _ => exact Nat.zero_lt_one
  | unicode _ => exact Nat.succ_pos _

theorem eq_four_of_length (h : (rest.take 4).length = 4) :
    ∃ h₁ h₂ h₃ h₄ behind, rest = h₁ :: h₂ :: h₃ :: h₄ :: behind := by
  match rest, h with
  | h₁ :: h₂ :: h₃ :: h₄ :: behind, _ => exact ⟨h₁, h₂, h₃, h₄, behind, rfl⟩

theorem exists_of_escapeLength_pos (h : 0 < escapeLength rest) :
    ∃ escape behind, rest = escape ++ behind ∧ LegalEscape escape := by
  cases rest with
  | nil => exact absurd h (Nat.lt_irrefl 0)
  | cons c rest =>
    rw [escapeLength] at h
    split_ifs at h with hunicode hshort
    · simp only [Bool.and_eq_true, decide_eq_true_eq] at hunicode
      obtain ⟨⟨rfl, hlength⟩, hdigits⟩ := hunicode
      obtain ⟨h₁, h₂, h₃, h₄, behind, rfl⟩ := eq_four_of_length hlength
      exact ⟨['u', h₁, h₂, h₃, h₄], behind, rfl, .unicode hdigits⟩
    · exact ⟨[c], rest, rfl, .short hshort⟩
    · exact absurd h (Nat.lt_irrefl 0)

theorem escapeControlCharacter_legal {c : Char} (h : isControl c = true) :
    ∃ escape, escapeControlCharacter c = '\\' :: escape ∧ LegalEscape escape := by
  have hsmall : c.toNat < 32 := Nat.lt_succ_of_le (of_decide_eq_true h)
  unfold escapeControlCharacter
  split_ifs
  · exact ⟨['b'], rfl, .short (by decide)⟩
  · exact ⟨['f'], rfl, .short (by decide)⟩
  · exact ⟨['n'], rfl, .short (by decide)⟩
  · exact ⟨['r'], rfl, .short (by decide)⟩
  · exact ⟨['t'], rfl, .short (by decide)⟩
  · have hdigits : ∀ n < 32, ((Nat.toDigits 16 n).leftpad 4 '0').length = 4 ∧
        ((Nat.toDigits 16 n).leftpad 4 '0').all isHexDigit = true := by decide
    obtain ⟨hlength, hall⟩ := hdigits _ hsmall
    refine ⟨_, rfl, ?_⟩
    generalize (Nat.toDigits 16 c.toNat).leftpad 4 '0' = written at hlength hall
    match written, hlength, hall with
    | [h₁, h₂, h₃, h₄], _, hall => exact .unicode hall

end Escapes

section Scan

attribute [local simp] repairFrom in
theorem repairFrom_skip (inString : Bool) (front back : List Char) :
    repairFrom inString front.length (front ++ back) =
      front ++ repairFrom inString 0 back := by
  induction front with
  | nil => rfl
  | cons c front ih =>
    rw [List.length_cons, List.cons_append, repairFrom, ih, List.cons_append]

@[simp] theorem repairFrom_nil (inString : Bool) : repairFrom inString 0 [] = [] := by
  rw [repairFrom]

theorem repairFrom_outside (c : Char) (rest : List Char) :
    repairFrom false 0 (c :: rest) = c :: repairFrom (c = '"') 0 rest := by
  rw [repairFrom]

theorem repairFrom_close (rest : List Char) :
    repairFrom true 0 ('"' :: rest) = '"' :: repairFrom false 0 rest := by
  rw [repairFrom, if_pos rfl]

theorem repairFrom_escape {escape : List Char} (h : LegalEscape escape) (rest : List Char) :
    repairFrom true 0 ('\\' :: (escape ++ rest)) =
      '\\' :: (escape ++ repairFrom true 0 rest) := by
  have hlength := escapeLength_legal h rest
  rw [repairFrom, if_neg (by decide), if_pos rfl, hlength, if_pos (length_pos_of_legal h),
    repairFrom_skip]

theorem repairFrom_stray {rest : List Char} (h : escapeLength rest = 0) :
    repairFrom true 0 ('\\' :: rest) = '\\' :: '\\' :: repairFrom true 0 rest := by
  rw [repairFrom, if_neg (by decide), if_pos rfl, h, if_neg (Nat.lt_irrefl 0)]

variable {c : Char}

theorem ne_of_isControl {d : Char} (h : isControl c = true) (hd : isControl d = false) : c ≠ d := by
  rintro rfl
  rw [h] at hd
  cases hd

theorem repairFrom_control (h : isControl c = true) (rest : List Char) :
    repairFrom true 0 (c :: rest) = escapeControlCharacter c ++ repairFrom true 0 rest := by
  rw [repairFrom, if_neg (ne_of_isControl h (by decide)), if_neg (ne_of_isControl h (by decide)),
    if_pos h]

theorem repairFrom_plain (hquote : c ≠ '"') (hslash : c ≠ '\\') (hcontrol : isControl c = false)
    (rest : List Char) : repairFrom true 0 (c :: rest) = c :: repairFrom true 0 rest := by
  rw [repairFrom, if_neg hquote, if_neg hslash, hcontrol]
  rfl

@[elab_as_elim]
theorem scan_induction {motive : Bool → List Char → Prop} (nil : ∀ inString, motive inString [])
    (outside : ∀ c rest, motive (c = '"') rest → motive false (c :: rest))
    (close : ∀ rest, motive false rest → motive true ('"' :: rest))
    (escape : ∀ escape rest, LegalEscape escape → motive true rest →
      motive true ('\\' :: (escape ++ rest)))
    (stray : ∀ rest, escapeLength rest = 0 → motive true rest → motive true ('\\' :: rest))
    (control : ∀ c rest, isControl c = true → motive true rest → motive true (c :: rest))
    (plain : ∀ c rest, c ≠ '"' → c ≠ '\\' → isControl c = false → motive true rest →
      motive true (c :: rest))
    (inString : Bool) (text : List Char) : motive inString text := by
  induction hlength : text.length using Nat.strong_induction_on generalizing inString text with
  | _ n ih =>
    subst hlength
    cases text with
    | nil => exact nil inString
    | cons c rest =>
      have hrest := fun b => ih rest.length (Nat.lt_succ_self _) b rest rfl
      cases inString with
      | false => exact outside c rest (hrest _)
      | true =>
        by_cases hquote : c = '"'
        · subst hquote
          exact close rest (hrest _)
        · by_cases hslash : c = '\\'
          · subst hslash
            rcases Nat.eq_zero_or_pos (escapeLength rest) with hzero | hpos
            · exact stray rest hzero (hrest _)
            · obtain ⟨legal, behind, rfl, hlegal⟩ := exists_of_escapeLength_pos hpos
              apply escape legal behind hlegal
              apply ih _ _ _ _ rfl
              rw [List.length_cons, List.length_append]
              omega
          · cases hcontrol : isControl c with
            | true => exact control c rest hcontrol (hrest _)
            | false => exact plain c rest hquote hslash hcontrol (hrest _)

theorem repairFrom_idem (inString : Bool) (text : List Char) :
    repairFrom inString 0 (repairFrom inString 0 text) = repairFrom inString 0 text := by
  induction inString, text using scan_induction with
  | nil inString => rw [repairFrom_nil, repairFrom_nil]
  | outside c rest ih => rw [repairFrom_outside, repairFrom_outside, ih]
  | close rest ih => rw [repairFrom_close, repairFrom_close, ih]
  | escape legal rest hlegal ih =>
    rw [repairFrom_escape hlegal, repairFrom_escape hlegal, ih]
  | stray rest hstray ih =>
    have hdoubled := repairFrom_escape (.short (by decide : '\\' ∈ validJsonEscapes))
      (repairFrom true 0 rest)
    rw [repairFrom_stray hstray]
    rw [List.singleton_append, List.singleton_append, ih] at hdoubled
    exact hdoubled
  | control c rest hcontrol ih =>
    obtain ⟨legal, hwritten, hlegal⟩ := escapeControlCharacter_legal hcontrol
    rw [repairFrom_control hcontrol, hwritten, List.cons_append, repairFrom_escape hlegal, ih]
  | plain c rest hquote hslash hcontrol ih =>
    rw [repairFrom_plain hquote hslash hcontrol, repairFrom_plain hquote hslash hcontrol, ih]

/-- A backslash before `H` and a raw tab. -/
example : repairJson ['"', '\\', 'H', '\t', '"'] = ['"', '\\', '\\', 'H', '\\', 't', '"'] := by
  decide

end Scan

section Literals

/-- The bodies of the string literals of a text, the last one perhaps without its end. A
character behind a backslash belongs to the literal. -/
def literalsFrom : (body : Option (List Char)) → (escaped : Bool) → List Char → List (List Char)
  | none, _, [] => []
  | some body, _, [] => [body]
  | none, _, c :: rest => literalsFrom (if c = '"' then some [] else none) false rest
  | some body, true, c :: rest => literalsFrom (some (body ++ [c])) false rest
  | some body, false, c :: rest =>
    if c = '"' then body :: literalsFrom none false rest
    else literalsFrom (some (body ++ [c])) (c = '\\') rest

def literals (text : List Char) : List (List Char) := literalsFrom none false text

inductive LegalPiece : List Char → Prop
  | char {c : Char} (hquote : c ≠ '"') (hslash : c ≠ '\\') (hcontrol : isControl c = false) :
      LegalPiece [c]
  | escape {escape : List Char} (h : LegalEscape escape) : LegalPiece ('\\' :: escape)

/-- Legal escapes, and characters that are neither quotes, backslashes nor control characters. -/
def LegalBody (body : List Char) : Prop :=
  ∃ pieces : List (List Char), (∀ piece ∈ pieces, LegalPiece piece) ∧ pieces.flatten = body

theorem legalBody_nil : LegalBody [] := ⟨[], fun _ h => (nomatch h), rfl⟩

theorem LegalBody.append {body piece : List Char} (hbody : LegalBody body)
    (hpiece : LegalPiece piece) : LegalBody (body ++ piece) := by
  obtain ⟨pieces, hpieces, rfl⟩ := hbody
  refine ⟨pieces ++ [piece], ?_, ?_⟩
  · intro other hother
    rcases List.mem_append.mp hother with hother | hother
    · exact hpieces other hother
    · rw [List.mem_singleton.mp hother]
      exact hpiece
  · rw [List.flatten_append, List.flatten_singleton]

variable {c : Char}

theorem literalsFrom_plain (hquote : c ≠ '"') (hslash : c ≠ '\\') (body rest : List Char) :
    literalsFrom (some body) false (c :: rest) = literalsFrom (some (body ++ [c])) false rest := by
  rw [literalsFrom, if_neg hquote, decide_eq_false hslash]

theorem ne_of_isHexDigit {d : Char} (h : isHexDigit c = true) (hd : isHexDigit d = false) :
    c ≠ d := by
  rintro rfl
  rw [h] at hd
  cases hd

theorem literalsFrom_hex (h : isHexDigit c = true) (body rest : List Char) :
    literalsFrom (some body) false (c :: rest) = literalsFrom (some (body ++ [c])) false rest :=
  literalsFrom_plain (ne_of_isHexDigit h (by decide)) (ne_of_isHexDigit h (by decide)) body rest

theorem literalsFrom_escape {escape : List Char} (h : LegalEscape escape) (body rest : List Char) :
    literalsFrom (some body) false ('\\' :: (escape ++ rest)) =
      literalsFrom (some (body ++ '\\' :: escape)) false rest := by
  have hslash : ∀ c more, literalsFrom (some body) false ('\\' :: c :: more) =
      literalsFrom (some (body ++ ['\\', c])) false more := by
    intro c more
    rw [literalsFrom, if_neg (by decide), decide_eq_true rfl, literalsFrom, List.append_assoc]
    rfl
  cases h with
  | short _ => exact hslash _ rest
  | unicode hdigits =>
    simp only [List.all_cons, List.all_nil, Bool.and_true, Bool.and_eq_true] at hdigits
    obtain ⟨h₁, h₂, h₃, h₄⟩ := hdigits
    simp only [List.cons_append, List.nil_append]
    rw [hslash, literalsFrom_hex h₁, literalsFrom_hex h₂, literalsFrom_hex h₃, literalsFrom_hex h₄]
    simp only [List.append_assoc, List.cons_append, List.nil_append]

theorem legal_of_mem_literals (inString : Bool) (text : List Char) :
    ∀ body, LegalBody body → ∀ literal ∈
      literalsFrom (if inString then some body else none) false (repairFrom inString 0 text),
      LegalBody literal := by
  induction inString, text using scan_induction with
  | nil inString =>
    intro body hbody literal hliteral
    cases inString with
    | false => cases hliteral
    | true =>
      rw [List.mem_singleton.mp hliteral]
      exact hbody
  | outside c rest ih =>
    intro body _ literal hliteral
    apply ih [] legalBody_nil
    rw [repairFrom_outside] at hliteral
    simpa [literalsFrom] using hliteral
  | close rest ih =>
    intro body hbody literal hliteral
    rw [repairFrom_close] at hliteral
    rcases List.mem_cons.mp hliteral with rfl | hliteral
    · exact hbody
    · exact ih [] legalBody_nil literal hliteral
  | escape legal rest hlegal ih =>
    intro body hbody literal hliteral
    rw [repairFrom_escape hlegal, if_pos rfl, literalsFrom_escape hlegal] at hliteral
    exact ih _ (hbody.append (.escape hlegal)) literal hliteral
  | stray rest hstray ih =>
    intro body hbody literal hliteral
    have hlegal : LegalEscape ['\\'] := .short (by decide)
    rw [repairFrom_stray hstray, if_pos rfl] at hliteral
    have hread := literalsFrom_escape hlegal body (repairFrom true 0 rest)
    rw [List.singleton_append] at hread
    rw [hread] at hliteral
    exact ih _ (hbody.append (.escape hlegal)) literal hliteral
  | control c rest hcontrol ih =>
    intro body hbody literal hliteral
    obtain ⟨legal, hwritten, hlegal⟩ := escapeControlCharacter_legal hcontrol
    rw [repairFrom_control hcontrol, hwritten, List.cons_append, if_pos rfl,
      literalsFrom_escape hlegal] at hliteral
    exact ih _ (hbody.append (.escape hlegal)) literal hliteral
  | plain c rest hquote hslash hcontrol ih =>
    intro body hbody literal hliteral
    rw [repairFrom_plain hquote hslash hcontrol, if_pos rfl, literalsFrom_plain hquote hslash]
      at hliteral
    exact ih _ (hbody.append (.char hquote hslash hcontrol)) literal hliteral

end Literals

end Pidrei.JsonRepair
