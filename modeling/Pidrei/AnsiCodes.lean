import Pidrei.Library.Incremental

/-!
A line of terminal text as escape sequences and the runs of visible text between them. An
escape sequence is recognized where it is complete; an escape that begins none is text.
-/
namespace Pidrei.Tui.TerminalText

open List

def esc : Char := '\x1b'

def bel : Char := '\x07'

section Codes

def isCsiFinal (c : Char) : Bool := c = 'm' || c = 'G' || c = 'K' || c = 'H' || c = 'J'

/-- `[^mGKHJ]*[mGKHJ]`, and the text behind it. -/
def csiRest : List Char → Option (List Char × List Char)
  | [] => none
  | c :: rest =>
    if isCsiFinal c then some ([c], rest)
    else (csiRest rest).map fun (code, after) => (c :: code, after)

/-- The body of an OSC or APC sequence up to BEL or `ESC \`. A lone escape does not end it. -/
def stringRest : List Char → Option (List Char × List Char)
  | [] => none
  | c :: rest =>
    if c = bel then some ([c], rest)
    else if c = esc ∧ rest.head? = some '\\' then some ([c, '\\'], rest.tail)
    else (stringRest rest).map fun (code, after) => (c :: code, after)

/-- The escape sequence at the beginning of the text, and the text behind it. -/
def extractAnsiCode : List Char → Option (List Char × List Char)
  | c :: d :: rest =>
    if c ≠ esc then none
    else if d = '[' then (csiRest rest).map fun (code, after) => (c :: d :: code, after)
    else if d = ']' ∨ d = '_' then
      (stringRest rest).map fun (code, after) => (c :: d :: code, after)
    else none
  | _ => none

theorem extractAnsiCode_text {c : Char} (hc : c ≠ esc) (rest : List Char) :
    extractAnsiCode (c :: rest) = none := by
  cases rest with
  | nil => rfl
  | cons d rest => simp only [extractAnsiCode, if_pos hc]

variable {text code after : List Char}

theorem csiRest_split (h : csiRest text = some (code, after)) :
    text = code ++ after ∧ ∀ more, csiRest (code ++ more) = some (code, more) := by
  induction text generalizing code with
  | nil => cases h
  | cons c text ih =>
    simp only [csiRest] at h
    split at h
    · rename_i hfinal
      cases h
      exact ⟨rfl, fun more => by simp [csiRest, hfinal]⟩
    · rename_i hfinal
      obtain ⟨⟨inner, rest⟩, hinner, heq⟩ := Option.map_eq_some_iff.mp h
      cases heq
      obtain ⟨rfl, hmore⟩ := ih hinner
      exact ⟨rfl, fun more => by simp [csiRest, hfinal, hmore]⟩

theorem stringRest_split (h : stringRest text = some (code, after)) :
    text = code ++ after ∧ code ≠ [] ∧
      ∀ more, stringRest (code ++ more) = some (code, more) := by
  induction text generalizing code with
  | nil => cases h
  | cons c text ih =>
    simp only [stringRest] at h
    split at h
    · rename_i hbel
      cases h
      exact ⟨rfl, by simp, fun more => by simp [stringRest, hbel]⟩
    · rename_i hbel
      split at h
      · rename_i hend
        cases h
        obtain ⟨rest, rfl⟩ := head?_eq_some_iff.mp hend.2
        refine ⟨rfl, by simp, fun more => ?_⟩
        rw [hend.1] at hbel ⊢
        simp [stringRest, hbel]
      · rename_i hend
        obtain ⟨⟨inner, rest⟩, hinner, heq⟩ := Option.map_eq_some_iff.mp h
        cases heq
        obtain ⟨rfl, hne, hmore⟩ := ih hinner
        refine ⟨rfl, by simp, fun more => ?_⟩
        rw [head?_append_of_ne_nil _ hne] at hend
        simp only [cons_append, stringRest, if_neg hbel, hmore,
          head?_append_of_ne_nil _ hne, if_neg hend, Option.map_some]

/-- A sequence is recognized by its own characters, whatever follows it. -/
theorem extractAnsiCode_split (h : extractAnsiCode text = some (code, after)) :
    text = code ++ after ∧ code ≠ [] ∧
      ∀ more, extractAnsiCode (code ++ more) = some (code, more) := by
  match text, h with
  | c :: d :: rest, h =>
    simp only [extractAnsiCode] at h
    split at h
    · cases h
    · rename_i hesc
      split at h
      · rename_i hcsi
        obtain ⟨⟨inner, tail⟩, hinner, heq⟩ := Option.map_eq_some_iff.mp h
        cases heq
        obtain ⟨rfl, hmore⟩ := csiRest_split hinner
        exact ⟨rfl, by simp, fun more => by simp [extractAnsiCode, hesc, hcsi, hmore]⟩
      · rename_i hcsi
        split at h
        · rename_i hstring
          obtain ⟨⟨inner, tail⟩, hinner, heq⟩ := Option.map_eq_some_iff.mp h
          cases heq
          obtain ⟨rfl, _, hmore⟩ := stringRest_split hinner
          exact ⟨rfl, by simp, fun more => by simp [extractAnsiCode, hesc, hcsi, hstring, hmore]⟩
        · cases h

theorem extractAnsiCode_cut {more : List Char} (h : extractAnsiCode (text ++ more) = none) :
    extractAnsiCode text = none := by
  cases hcode : extractAnsiCode text with
  | none => rfl
  | some pair =>
    obtain ⟨code, after⟩ := pair
    obtain ⟨rfl, _, hmore⟩ := extractAnsiCode_split hcode
    rw [append_assoc, hmore] at h
    cases h

end Codes

section Tokens

inductive Token
  | code (code : List Char)
  | text (run : List Char)

def Token.chars : Token → List Char
  | .code sequence => sequence
  | .text run => run

def render (tokens : List Token) : List Char := tokens.flatMap Token.chars

/-- The visible text up to the next escape sequence. -/
def textRun : List Char → List Char × List Char
  | [] => ([], [])
  | c :: rest =>
    match extractAnsiCode (c :: rest) with
    | some _ => ([], c :: rest)
    | none => (c :: (textRun rest).1, (textRun rest).2)

def tokenStep : List Char → Option (Token × List Char)
  | [] => none
  | c :: rest =>
    match extractAnsiCode (c :: rest) with
    | some (code, after) => some (.code code, after)
    | none => some (.text (c :: (textRun rest).1), (textRun rest).2)

/-- The escape sequences and text runs that the functions on lines go through. -/
def tokens (line : List Char) : List Token := (Incremental.drain tokenStep line).1

/-- The text of the line without its escape sequences. -/
def visibleText (tokens : List Token) : List Char :=
  tokens.flatMap fun token =>
    match token with
    | .code _ => []
    | .text run => run

def stripCodes (line : List Char) : List Char := visibleText (tokens line)

@[simp] theorem render_nil : render [] = [] := rfl

@[simp] theorem render_cons (token : Token) (ts : List Token) :
    render (token :: ts) = token.chars ++ render ts := rfl

@[simp] theorem render_append (ts more : List Token) :
    render (ts ++ more) = render ts ++ render more := flatMap_append

@[simp] theorem visibleText_nil : visibleText [] = [] := rfl

@[simp] theorem visibleText_code (code : List Char) (ts : List Token) :
    visibleText (.code code :: ts) = visibleText ts := rfl

@[simp] theorem visibleText_text (run : List Char) (ts : List Token) :
    visibleText (.text run :: ts) = run ++ visibleText ts := rfl

@[simp] theorem visibleText_append (ts more : List Token) :
    visibleText (ts ++ more) = visibleText ts ++ visibleText more := flatMap_append

theorem textRun_append (text : List Char) : (textRun text).1 ++ (textRun text).2 = text := by
  induction text with
  | nil => rfl
  | cons c text ih =>
    simp only [textRun]
    split
    · rfl
    · rw [cons_append, ih]

variable {rest : List Char} {token : Token} {ts : List Token} {line run : List Char}
  {more : List Token}

theorem tokenStep_append (h : tokenStep line = some (token, rest)) :
    line = token.chars ++ rest ∧ token.chars ≠ [] := by
  cases line with
  | nil => cases h
  | cons c line =>
    simp only [tokenStep] at h
    split at h
    · rename_i code after hcode
      cases h
      obtain ⟨hline, hne, _⟩ := extractAnsiCode_split hcode
      exact ⟨hline, hne⟩
    · cases h
      exact ⟨congrArg _ (textRun_append line).symm, cons_ne_nil _ _⟩

theorem lawful_tokenStep : Incremental.Lawful tokenStep fun _ _ => False where
  shrinks h := by
    obtain ⟨rfl, hne⟩ := tokenStep_append h
    have hpos := length_pos_iff.mpr hne
    rw [length_append]
    omega
  stable _ h := h.elim
  safe_rest _ h := h

theorem tokens_cons (h : tokenStep line = some (token, rest)) :
    tokens line = token :: tokens rest := by
  simp only [tokens, lawful_tokenStep.drain_some h]

/-- A text run begins an escape sequence nowhere, and ends at one. -/
inductive IsTokens : List Token → Prop
  | nil : IsTokens []
  | code {code : List Char} {ts : List Token}
      (hcode : ∀ more, extractAnsiCode (code ++ more) = some (code, more)) (hts : IsTokens ts) :
      IsTokens (.code code :: ts)
  | text {run : List Char} {ts : List Token} (hrun : run ≠ [])
      (htext : ∀ front back, run = front ++ back → back ≠ [] →
        extractAnsiCode (back ++ render ts) = none)
      (hend : ∀ next ∈ ts.head?, ∃ code, next = .code code) (hts : IsTokens ts) :
      IsTokens (.text run :: ts)

theorem textRun_code {text : List Char} (hne : text ≠ [])
    (h : (extractAnsiCode text).isSome = true) : textRun text = ([], text) := by
  cases text with
  | nil => exact absurd rfl hne
  | cons c text =>
    obtain ⟨pair, hpair⟩ := Option.isSome_iff_exists.mp h
    simp only [textRun, hpair]

theorem textRun_run
    (htext : ∀ front back, run = front ++ back → back ≠ [] →
      extractAnsiCode (back ++ rest) = none)
    (hend : textRun rest = ([], rest)) : textRun (run ++ rest) = (run, rest) := by
  induction run with
  | nil => exact hend
  | cons c run ih =>
    have hc : extractAnsiCode (c :: (run ++ rest)) = none := htext [] (c :: run) rfl (by simp)
    have hrun := ih fun front back hsplit => htext (c :: front) back (by rw [hsplit]; rfl)
    simp only [cons_append, textRun, hc, hrun]

theorem IsTokens.textRun_render (h : IsTokens ts)
    (hend : ∀ next ∈ ts.head?, ∃ code, next = .code code) :
    textRun (render ts) = ([], render ts) := by
  cases h with
  | nil => rfl
  | @code code ts hcode hts =>
    have hne : code ≠ [] := by
      rintro rfl
      exact absurd (hcode []) (by simp [extractAnsiCode])
    refine textRun_code (by simp [Token.chars, hne]) ?_
    rw [render_cons]
    exact Option.isSome_iff_exists.mpr ⟨_, hcode _⟩
  | text hrun htext hnext hts =>
    obtain ⟨code, hcode⟩ := hend _ rfl
    cases hcode

theorem IsTokens.tokens_render (h : IsTokens ts) : tokens (render ts) = ts := by
  induction h with
  | nil => rfl
  | @code code ts hcode hts ih =>
    have hne : code ≠ [] := by
      rintro rfl
      exact absurd (hcode []) (by simp [extractAnsiCode])
    obtain ⟨c, rest, rfl⟩ := exists_cons_of_ne_nil hne
    have hstep : tokenStep (render (.code (c :: rest) :: ts)) =
        some (.code (c :: rest), render ts) := by
      have hfirst := hcode (render ts)
      rw [cons_append] at hfirst
      simp only [render_cons, Token.chars, cons_append, tokenStep, hfirst]
    rw [tokens_cons hstep, ih]
  | @text run ts hrun htext hend hts ih =>
    obtain ⟨c, rest, rfl⟩ := exists_cons_of_ne_nil hrun
    have hstep : tokenStep (render (.text (c :: rest) :: ts)) =
        some (.text (c :: rest), render ts) := by
      have hfirst : extractAnsiCode (c :: (rest ++ render ts)) = none :=
        htext [] (c :: rest) rfl hrun
      have hrest : textRun (rest ++ render ts) = (rest, render ts) :=
        textRun_run (fun front back hsplit => htext (c :: front) back (by rw [hsplit]; rfl))
          (hts.textRun_render hend)
      simp only [render_cons, Token.chars, cons_append, tokenStep, hfirst, hrest]
    rw [tokens_cons hstep, ih]

theorem textRun_spec (text : List Char) :
    (∀ front back, (textRun text).1 = front ++ back → back ≠ [] →
      extractAnsiCode (back ++ (textRun text).2) = none) ∧
    ((textRun text).2 = [] ∨ (extractAnsiCode (textRun text).2).isSome = true) := by
  induction text with
  | nil =>
    refine ⟨fun front back hsplit hback => ?_, .inl rfl⟩
    exact absurd (append_eq_nil_iff.mp hsplit.symm).2 hback
  | cons c text ih =>
    cases hcode : extractAnsiCode (c :: text) with
    | some pair =>
      have hrun : textRun (c :: text) = ([], c :: text) := by simp only [textRun, hcode]
      rw [hrun]
      refine ⟨fun front back hsplit hback => ?_, .inr (by rw [hcode]; rfl)⟩
      exact absurd (append_eq_nil_iff.mp hsplit.symm).2 hback
    | none =>
      have hrun : textRun (c :: text) = (c :: (textRun text).1, (textRun text).2) := by
        simp only [textRun, hcode]
      rw [hrun]
      refine ⟨fun front back hsplit hback => ?_, ih.2⟩
      cases front with
      | nil =>
        obtain rfl := hsplit
        rw [cons_append, textRun_append, hcode]
      | cons d front => exact ih.1 front back (cons.inj hsplit).2 hback

theorem isTokens_tokens (line : List Char) :
    IsTokens (tokens line) ∧ render (tokens line) = line := by
  induction line using lawful_tokenStep.induction with
  | hnone line hstep =>
    cases line with
    | nil => exact ⟨.nil, rfl⟩
    | cons c line =>
      simp only [tokenStep] at hstep
      split at hstep <;> cases hstep
  | hsome line token rest hstep ih =>
    have hline := (tokenStep_append hstep).1
    rw [tokens_cons hstep]
    refine ⟨?_, by rw [render_cons, ih.2, ← hline]⟩
    cases line with
    | nil => cases hstep
    | cons c line =>
      simp only [tokenStep] at hstep
      split at hstep
      · rename_i code after hcode
        cases hstep
        exact .code (extractAnsiCode_split hcode).2.2 ih.1
      · rename_i hcode
        cases hstep
        obtain ⟨htext, hend⟩ := textRun_spec line
        refine .text (cons_ne_nil _ _) ?_ ?_ ih.1
        · rw [ih.2]
          intro front back hsplit hback
          cases front with
          | nil =>
            obtain rfl := hsplit
            rw [cons_append, textRun_append, hcode]
          | cons d front => exact htext front back (cons.inj hsplit).2 hback
        · intro next hnext
          have hrest : (textRun line).2 ≠ [] := by
            intro hnil
            rw [hnil] at hnext
            cases hnext
          obtain ⟨⟨code, after⟩, hcode⟩ := Option.isSome_iff_exists.mp (hend.resolve_left hrest)
          obtain ⟨d, rest, heq⟩ := exists_cons_of_ne_nil hrest
          have hcodeStep : tokenStep (textRun line).2 = some (.code code, after) := by
            rw [heq] at hcode ⊢
            simp only [tokenStep, hcode]
          rw [tokens_cons hcodeStep] at hnext
          exact ⟨code, (Option.some.inj hnext).symm⟩

theorem IsTokens.tail (h : IsTokens (token :: ts)) : IsTokens ts := by
  cases h with
  | code _ hts => exact hts
  | text _ _ _ hts => exact hts

theorem IsTokens.of_append (h : IsTokens (ts ++ more)) : IsTokens more := by
  induction ts with
  | nil => exact h
  | cons token ts ih => exact ih h.tail

theorem IsTokens.run_ne_nil (h : IsTokens (.text run :: ts)) : run ≠ [] := by
  cases h with
  | text hrun _ _ _ => exact hrun

/-- The end of a run stands where the run stood. -/
theorem IsTokens.text_suffix {front back : List Char} (h : IsTokens (.text (front ++ back) :: ts))
    (hback : back ≠ []) : IsTokens (.text back :: ts) := by
  cases h with
  | text _ htext hend hts =>
    refine .text hback (fun before after hsplit hafter => ?_) hend hts
    exact htext (front ++ before) after (by rw [hsplit, append_assoc]) hafter

theorem IsTokens.cut (h : IsTokens (ts ++ more)) : IsTokens ts := by
  induction ts with
  | nil => exact .nil
  | cons token ts ih =>
    rw [cons_append] at h
    cases h with
    | code hcode hts => exact .code hcode (ih hts)
    | text hrun htext hend hts =>
      refine .text hrun (fun front back hsplit hback => ?_) (fun next hnext => ?_) (ih hts)
      · have hnone := htext front back hsplit hback
        rw [render_append, ← append_assoc] at hnone
        exact extractAnsiCode_cut hnone
      · cases ts with
        | nil => cases hnext
        | cons other ts => exact hend next hnext

/-- The line may end inside a run. -/
theorem IsTokens.cut_text {ts more : List Token} {front back : List Char}
    (h : IsTokens (ts ++ .text (front ++ back) :: more)) (hfront : front ≠ []) :
    IsTokens (ts ++ [Token.text front]) := by
  induction ts with
  | nil =>
    cases h with
    | text _ htext _ _ =>
      refine .text hfront (fun before after hsplit hafter => ?_) (nofun) .nil
      have hnone := htext before (after ++ back) (by rw [hsplit, append_assoc])
        (by simp [hafter])
      rw [append_assoc] at hnone
      rw [render_nil, append_nil]
      exact extractAnsiCode_cut hnone
  | cons token ts ih =>
    rw [cons_append] at h ⊢
    cases h with
    | code hcode hts => exact .code hcode (ih hts)
    | text hrun htext hend hts =>
      refine .text hrun (fun before after hsplit hafter => ?_) (fun next hnext => ?_) (ih hts)
      · have hnone := htext before after hsplit hafter
        have hrender : render (ts ++ .text (front ++ back) :: more) =
            render (ts ++ [Token.text front]) ++ (back ++ render more) := by
          simp only [render_append, render_cons, Token.chars, render_nil, append_assoc, append_nil]
        rw [hrender, ← append_assoc] at hnone
        exact extractAnsiCode_cut hnone
      · cases ts with
        | nil =>
          obtain ⟨code, hcode⟩ := hend _ rfl
          cases hcode
        | cons other ts => exact hend next hnext

end Tokens

end Pidrei.Tui.TerminalText
