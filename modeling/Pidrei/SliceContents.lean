import Pidrei.AsciiFastPaths

/-!
What a slice holds. The walk over the clusters keeps a part of the line in one piece, behind
the codes that come before it, so that the slice falls into the same sequences and clusters
as the line.
-/
namespace Pidrei.Tui.TerminalText

variable (u : UnicodeData)

section Kept

variable (startCol endCol : ℤ) (strict : Bool)

/-- The clusters of a run that a slice keeps, and the column behind the last one it looks at. -/
def keptSegments (currentCol : ℤ) : List (List Char) → List (List Char) × ℤ
  | [] => ([], currentCol)
  | segment :: rest =>
    let next := currentCol + (u.graphemeWidth segment : ℤ)
    let kept :=
      if (startCol ≤ currentCol ∧ currentCol < endCol) ∧ (strict = false ∨ next ≤ endCol) then
        [segment]
      else []
    if endCol ≤ next then (kept, next)
    else (kept ++ (keptSegments next rest).1, (keptSegments next rest).2)

def codeTokens (codes : List (List Char)) : List Token := codes.map .code

/-- The tokens of a slice; `pending` are the codes before it. -/
def keptTokens (pending : List (List Char)) (currentCol : ℤ) : List Token → List Token
  | [] => []
  | .code code :: rest =>
    if startCol ≤ currentCol ∧ currentCol < endCol then
      codeTokens pending ++ .code code :: keptTokens [] currentCol rest
    else if currentCol < startCol then keptTokens (pending ++ [code]) currentCol rest
    else keptTokens pending currentCol rest
  | .text run :: rest =>
    let (kept, next) := keptSegments u startCol endCol strict currentCol (u.graphemes run)
    if kept.isEmpty then if endCol ≤ next then [] else keptTokens pending next rest
    else
      codeTokens pending ++ .text kept.flatten ::
        if endCol ≤ next then [] else keptTokens [] next rest

/-- The columns that the walkers count in a line. -/
def tokensWidth (ts : List Token) : ℕ :=
  (ts.map fun token =>
    match token with
    | .code _ => 0
    | .text run => u.segmentsWidth (u.graphemes run)).sum

def columns (line : List Char) : ℕ := tokensWidth u (tokens line)

end Kept

section Render

variable {u} {startCol endCol : ℤ} {strict : Bool}

@[simp] theorem render_codeTokens (codes : List (List Char)) :
    render (codeTokens codes) = codes.flatten := by
  induction codes with
  | nil => rfl
  | cons code codes ih =>
    rw [List.flatten_cons, ← ih]
    rfl

@[simp] theorem tokensWidth_codeTokens (codes : List (List Char)) :
    tokensWidth u (codeTokens codes) = 0 := by
  induction codes with
  | nil => rfl
  | cons code codes ih => exact (Nat.zero_add _).trans ih

@[simp] theorem tokensWidth_nil : tokensWidth u [] = 0 := rfl

theorem tokensWidth_append (ts more : List Token) :
    tokensWidth u (ts ++ more) = tokensWidth u ts + tokensWidth u more := by
  simp only [tokensWidth, List.map_append, List.sum_append]

theorem tokensWidth_text (run : List Char) (ts : List Token) :
    tokensWidth u (.text run :: ts) = u.segmentsWidth (u.graphemes run) + tokensWidth u ts := rfl

theorem tokensWidth_code (code : List Char) (ts : List Token) :
    tokensWidth u (.code code :: ts) = tokensWidth u ts := Nat.zero_add _

theorem sliceSegments_kept (s : Slice) (col : ℤ) (segments : List (List Char)) :
    sliceSegments u startCol endCol strict s col segments =
      (if (keptSegments u startCol endCol strict col segments).1.isEmpty then s
        else s.add (keptSegments u startCol endCol strict col segments).1.flatten
          (u.segmentsWidth (keptSegments u startCol endCol strict col segments).1),
        (keptSegments u startCol endCol strict col segments).2) := by
  induction segments generalizing s col with
  | nil => rfl
  | cons segment rest ih =>
    by_cases hkept : (startCol ≤ col ∧ col < endCol) ∧
        (strict = false ∨ col + (u.graphemeWidth segment : ℤ) ≤ endCol)
    · by_cases hstop : endCol ≤ col + (u.graphemeWidth segment : ℤ)
      · simp only [sliceSegments, keptSegments, if_pos hkept, if_pos hstop]
        simp [UnicodeData.segmentsWidth]
      · simp only [sliceSegments, keptSegments, if_pos hkept, if_neg hstop, ih]
        split
        · rename_i hempty
          simp [List.isEmpty_iff.mp hempty, UnicodeData.segmentsWidth]
        · simp [Slice.add_add, UnicodeData.segmentsWidth]
    · by_cases hstop : endCol ≤ col + (u.graphemeWidth segment : ℤ)
      · simp only [sliceSegments, keptSegments, if_neg hkept, if_pos hstop]
        rfl
      · simp only [sliceSegments, keptSegments, if_neg hkept, if_neg hstop, ih]
        rfl

theorem keptSegments_isPrefix {col : ℤ} (hcol : startCol ≤ col) (segments : List (List Char)) :
    ∃ rest, segments = (keptSegments u startCol endCol strict col segments).1 ++ rest ∧
      ((keptSegments u startCol endCol strict col segments).2 < endCol → rest = []) ∧
      col ≤ (keptSegments u startCol endCol strict col segments).2 := by
  induction segments generalizing col with
  | nil => exact ⟨[], rfl, fun _ => rfl, Int.le_refl col⟩
  | cons segment rest ih =>
    simp only [keptSegments]
    by_cases hstop : endCol ≤ col + (u.graphemeWidth segment : ℤ)
    · rw [if_pos hstop]
      split
      · exact ⟨rest, rfl, fun h => absurd hstop (by omega), by omega⟩
      · exact ⟨segment :: rest, rfl, fun h => absurd hstop (by omega), by omega⟩
    · have hkept : (startCol ≤ col ∧ col < endCol) ∧
          (strict = false ∨ col + (u.graphemeWidth segment : ℤ) ≤ endCol) :=
        ⟨⟨hcol, by omega⟩, .inr (by omega)⟩
      rw [if_neg hstop, if_pos hkept]
      obtain ⟨more, hmore, hall, hle⟩ := @ih (col + (u.graphemeWidth segment : ℤ)) (by omega)
      exact ⟨more, by rw [List.append_assoc, ← hmore]; rfl, hall, by omega⟩

theorem keptSegments_isInfix (col : ℤ) (segments : List (List Char)) :
    ∃ front rest, segments =
        front ++ ((keptSegments u startCol endCol strict col segments).1 ++ rest) ∧
      ((keptSegments u startCol endCol strict col segments).2 < endCol → rest = []) ∧
      ((keptSegments u startCol endCol strict col segments).1 ≠ [] →
        startCol ≤ (keptSegments u startCol endCol strict col segments).2) := by
  induction segments generalizing col with
  | nil => exact ⟨[], [], rfl, fun _ => rfl, fun h => absurd rfl h⟩
  | cons segment rest ih =>
    by_cases hcol : startCol ≤ col
    · obtain ⟨more, hmore, hall, hle⟩ :=
        @keptSegments_isPrefix u startCol endCol strict col hcol (segment :: rest)
      exact ⟨[], more, hmore, hall, fun _ => by omega⟩
    · simp only [keptSegments]
      have hskip : ¬ ((startCol ≤ col ∧ col < endCol) ∧
          (strict = false ∨ col + (u.graphemeWidth segment : ℤ) ≤ endCol)) := fun h => hcol h.1.1
      rw [if_neg hskip]
      by_cases hstop : endCol ≤ col + (u.graphemeWidth segment : ℤ)
      · rw [if_pos hstop]
        exact ⟨[], segment :: rest, rfl, fun h => absurd hstop (by omega), fun h => absurd rfl h⟩
      · rw [if_neg hstop]
        obtain ⟨front, more, hmore, hall, hstart⟩ := ih (col + (u.graphemeWidth segment : ℤ))
        exact ⟨segment :: front, more, congrArg _ hmore, hall, hstart⟩

theorem graphemes_kept (hu : u.Lawful) (col : ℤ) (run : List Char) :
    u.graphemes (keptSegments u startCol endCol strict col (u.graphemes run)).1.flatten =
      (keptSegments u startCol endCol strict col (u.graphemes run)).1 := by
  obtain ⟨front, rest, hsplit, _⟩ :=
    @keptSegments_isInfix u startCol endCol strict col (u.graphemes run)
  exact hu.graphemes_infix run _ ⟨front, rest, by rw [List.append_assoc, ← hsplit]⟩

attribute [local simp] keptTokens in
theorem sliceTokens_kept (hu : u.Lawful) (s : Slice) (pending : List (List Char))
    (hpending : s.pendingAnsi = pending.flatten) (col : ℤ) (ts : List Token) :
    (sliceTokens u (fun _ => false) startCol endCol strict s col ts).result =
        s.result ++ render (keptTokens u startCol endCol strict pending col ts) ∧
      (sliceTokens u (fun _ => false) startCol endCol strict s col ts).resultWidth =
        s.resultWidth + tokensWidth u (keptTokens u startCol endCol strict pending col ts) := by
  induction ts generalizing s pending col with
  | nil => simp [sliceTokens, keptTokens]
  | cons token ts ih =>
    cases token with
    | code code =>
      simp only [sliceTokens, keptTokens, sliceCode]
      by_cases hin : startCol ≤ col ∧ col < endCol
      · rw [if_pos hin, if_pos hin]
        obtain ⟨hresult, hwidth⟩ := @ih { s with
          result := s.result ++ (s.pendingAnsi ++ code), pendingAnsi := [] } [] rfl col
        rw [hresult, hwidth, tokensWidth_append, tokensWidth_code, hpending]
        simp [Token.chars]
      · rw [if_neg hin, if_neg hin]
        by_cases hbefore : col < startCol
        · rw [if_pos hbefore, if_pos hbefore]
          exact ih _ _ (by simp [hpending]) col
        · rw [if_neg hbefore, if_neg hbefore]
          exact ih s pending hpending col
    | text run =>
      simp only [sliceTokens, keptTokens, Bool.false_eq_true, if_false, sliceSegments_kept]
      by_cases hempty :
          (keptSegments u startCol endCol strict col (u.graphemes run)).1.isEmpty = true
      · rw [if_pos hempty, if_pos hempty]
        split
        · simp
        · exact ih s pending hpending _
      · rw [if_neg hempty, if_neg hempty]
        have hkept := @graphemes_kept u startCol endCol strict hu col run
        split
        · rw [tokensWidth_append, tokensWidth_text, hkept]
          simp [Slice.add, hpending, Token.chars]
        · rw [(ih _ [] rfl _).1, (ih _ [] rfl _).2, tokensWidth_append, tokensWidth_text, hkept]
          simp [Slice.add, hpending, Token.chars, Int.add_assoc]

end Render

section Tokens

variable {u} {startCol endCol : ℤ} {strict : Bool}

theorem keptSegments_behind {col : ℤ} (hcol : endCol ≤ col) (segments : List (List Char)) :
    (keptSegments u startCol endCol strict col segments).1 = [] ∧
      endCol ≤ (keptSegments u startCol endCol strict col segments).2 := by
  cases segments with
  | nil => exact ⟨rfl, hcol⟩
  | cons segment rest =>
    have hstop : endCol ≤ col + (u.graphemeWidth segment : ℤ) := by omega
    simp only [keptSegments, if_pos hstop]
    exact ⟨if_neg fun h => absurd h.1.2 (by omega), hstop⟩

theorem keptTokens_behind {col : ℤ} (hcol : endCol ≤ col) (pending : List (List Char))
    (ts : List Token) : keptTokens u startCol endCol strict pending col ts = [] := by
  induction ts generalizing pending with
  | nil => rfl
  | cons token ts ih =>
    cases token with
    | code code =>
      simp only [keptTokens]
      rw [if_neg (by omega), ih, ih, ite_self]
    | text run =>
      obtain ⟨hkept, hstop⟩ :=
        @keptSegments_behind u startCol endCol strict col hcol (u.graphemes run)
      simp only [keptTokens, hkept, List.isEmpty_nil, if_true, if_pos hstop]

/-- The codes before the slice come before the first thing that it keeps. -/
theorem keptTokens_pending (pending : List (List Char)) (col : ℤ) (ts : List Token) :
    keptTokens u startCol endCol strict pending col ts =
      if (keptTokens u startCol endCol strict [] col ts).isEmpty then []
      else codeTokens pending ++ keptTokens u startCol endCol strict [] col ts := by
  induction ts generalizing pending col with
  | nil => rfl
  | cons token ts ih =>
    cases token with
    | code code =>
      by_cases hin : startCol ≤ col ∧ col < endCol
      · simp [keptTokens, hin, codeTokens]
      · by_cases hbefore : col < startCol
        · simp only [keptTokens, if_neg hin, if_pos hbefore, List.nil_append]
          rw [ih (pending ++ [code]), ih [code]]
          split
          · rfl
          · simp [codeTokens]
        · simp only [keptTokens, if_neg hin, if_neg hbefore]
          exact ih pending col
    | text run =>
      simp only [keptTokens]
      split
      · split
        · rfl
        · exact ih pending _
      · simp [codeTokens]

theorem flatten_ne_nil (hu : u.Lawful) {run : List Char} {kept front rest : List (List Char)}
    (h : u.graphemes run = front ++ (kept ++ rest)) (hkept : kept ≠ []) : kept.flatten ≠ [] := by
  obtain ⟨segment, kept, rfl⟩ := List.exists_cons_of_ne_nil hkept
  have hne := hu.ne_nil run segment (by simp [h])
  simp [hne]

/-- From inside the range, a slice is the line cut off somewhere. -/
theorem isTokens_kept_within (hu : u.Lawful) {col : ℤ} (hcol : startCol ≤ col)
    {front ts : List Token} (h : IsTokens (front ++ ts)) :
    IsTokens (front ++ keptTokens u startCol endCol strict [] col ts) := by
  induction ts generalizing front col with
  | nil => exact h
  | cons token ts ih =>
    cases token with
    | code code =>
      by_cases hend : col < endCol
      · have hnext := @ih col hcol (front ++ [Token.code code]) (by simpa using h)
        simpa [keptTokens, hcol, hend, codeTokens] using hnext
      · rw [keptTokens_behind (by omega), List.append_nil]
        exact h.cut
    | text run =>
      obtain ⟨rest, hsplit, hall, hle⟩ :=
        @keptSegments_isPrefix u startCol endCol strict col hcol (u.graphemes run)
      have hrun := hu.flatten_graphemes run
      rw [hsplit, List.flatten_append] at hrun
      simp only [keptTokens]
      generalize keptSegments u startCol endCol strict col (u.graphemes run) = pair
        at hsplit hall hle hrun ⊢
      obtain ⟨kept, next⟩ := pair
      simp only at hsplit hall hle hrun ⊢
      by_cases hempty : kept = []
      · subst hempty
        by_cases hstop : endCol ≤ next
        · simpa [hstop] using h.cut
        · rw [hall (by omega)] at hrun
          exact absurd hrun.symm h.of_append.run_ne_nil
      · have hflat := @flatten_ne_nil u hu run kept [] rest hsplit hempty
        have hnot : ¬ kept.isEmpty = true := by rwa [List.isEmpty_iff]
        rw [if_neg hnot]
        by_cases hstop : endCol ≤ next
        · rw [← hrun] at h
          simpa [hstop, codeTokens] using h.cut_text hflat
        · rw [hall (by omega), List.flatten_nil, List.append_nil] at hrun
          have hnext := @ih next (by omega) (front ++ [Token.text run]) (by simpa using h)
          simpa [hstop, codeTokens, hrun] using hnext

theorem isTokens_kept (hu : u.Lawful) (col : ℤ) {ts : List Token} (h : IsTokens ts) :
    IsTokens (keptTokens u startCol endCol strict [] col ts) := by
  induction ts generalizing col with
  | nil => exact .nil
  | cons token ts ih =>
    by_cases hcol : startCol ≤ col
    · have hwithin := @isTokens_kept_within u startCol endCol strict hu col hcol [] _ h
      exact hwithin
    · cases token with
      | code code =>
        cases h with
        | code hcode hts =>
          simp only [keptTokens]
          rw [if_neg (by omega), if_pos (by omega), keptTokens_pending]
          split
          · exact .nil
          · exact .code hcode (ih col hts)
      | text run =>
        obtain ⟨front, rest, hsplit, hall, hstart⟩ :=
          @keptSegments_isInfix u startCol endCol strict col (u.graphemes run)
        have hrun := hu.flatten_graphemes run
        rw [hsplit, List.flatten_append, List.flatten_append] at hrun
        simp only [keptTokens]
        generalize keptSegments u startCol endCol strict col (u.graphemes run) = pair
          at hsplit hall hstart hrun ⊢
        obtain ⟨kept, next⟩ := pair
        simp only at hsplit hall hstart hrun ⊢
        by_cases hempty : kept = []
        · subst hempty
          by_cases hstop : endCol ≤ next
          · simpa [hstop] using IsTokens.nil
          · simpa [hstop] using ih next h.tail
        · have hflat := flatten_ne_nil hu hsplit hempty
          have hnot : ¬ kept.isEmpty = true := by rwa [List.isEmpty_iff]
          rw [if_neg hnot]
          rw [← hrun] at h
          have hback := h.text_suffix (by simp [hflat])
          by_cases hstop : endCol ≤ next
          · have hcut := @IsTokens.cut_text [] ts _ _ hback hflat
            simpa [hstop, codeTokens] using hcut
          · rw [hall (by omega), List.flatten_nil, List.append_nil] at hback
            have hwithin := @isTokens_kept_within u startCol endCol strict hu next
              (hstart hempty) [.text kept.flatten] ts hback
            simpa [hstop, codeTokens] using hwithin

end Tokens

section Widths

variable {u} {startCol endCol : ℤ}

/-- What a strict slice keeps of a run fits between the columns it lies in. -/
theorem segmentsWidth_kept (col : ℤ) (segments : List (List Char)) :
    (keptSegments u startCol endCol true col segments).1 = [] ∧
        col ≤ (keptSegments u startCol endCol true col segments).2 ∨
      startCol ≤ (keptSegments u startCol endCol true col segments).2 ∧
        max startCol col +
            (u.segmentsWidth (keptSegments u startCol endCol true col segments).1 : ℤ)
          ≤ min endCol (keptSegments u startCol endCol true col segments).2 := by
  induction segments generalizing col with
  | nil => exact .inl ⟨rfl, Int.le_refl col⟩
  | cons segment rest ih =>
    have hnil : (u.segmentsWidth [] : ℤ) = 0 := rfl
    have hcons : ∀ more, (u.segmentsWidth (segment :: more) : ℤ) =
        u.graphemeWidth segment + u.segmentsWidth more := fun more => by
      simp [UnicodeData.segmentsWidth]
    simp only [keptSegments]
    by_cases hkept : (startCol ≤ col ∧ col < endCol) ∧
        (true = false ∨ col + (u.graphemeWidth segment : ℤ) ≤ endCol)
    · have hfits := hkept.2.resolve_left (by decide)
      rw [if_pos hkept]
      by_cases hstop : endCol ≤ col + (u.graphemeWidth segment : ℤ)
      · rw [if_pos hstop, hcons, hnil]
        exact .inr ⟨by omega, by omega⟩
      · rw [if_neg hstop, List.singleton_append, hcons]
        obtain ⟨hempty, hle⟩ | ⟨hle, hwidth⟩ := ih (col + (u.graphemeWidth segment : ℤ))
        · rw [hempty, hnil]
          exact .inr ⟨by simp only; omega, by simp only; omega⟩
        · exact .inr ⟨hle, by simp only at hwidth ⊢; omega⟩
    · rw [if_neg hkept]
      by_cases hstop : endCol ≤ col + (u.graphemeWidth segment : ℤ)
      · rw [if_pos hstop]
        exact .inl ⟨rfl, by simp only; omega⟩
      · rw [if_neg hstop, List.nil_append]
        obtain ⟨hempty, hle⟩ | ⟨hle, hwidth⟩ := ih (col + (u.graphemeWidth segment : ℤ))
        · exact .inl ⟨hempty, by simp only; omega⟩
        · exact .inr ⟨hle, by simp only at hwidth ⊢; omega⟩

/-- A strict slice is no wider than its range. -/
theorem tokensWidth_kept (hu : u.Lawful) (pending : List (List Char)) (col : ℤ) (ts : List Token) :
    (tokensWidth u (keptTokens u startCol endCol true pending col ts) : ℤ) ≤
      max 0 (endCol - max startCol col) := by
  induction ts generalizing pending col with
  | nil => exact Int.le_max_left 0 _
  | cons token ts ih =>
    cases token with
    | code code =>
      simp only [keptTokens]
      split
      · rw [tokensWidth_append, tokensWidth_codeTokens, tokensWidth_code, Nat.zero_add]
        exact ih [] col
      · split
        · exact ih _ col
        · exact ih pending col
    | text run =>
      have hgraphemes := @graphemes_kept u startCol endCol true hu col run
      have hwidth := @segmentsWidth_kept u startCol endCol col (u.graphemes run)
      simp only [keptTokens]
      generalize keptSegments u startCol endCol true col (u.graphemes run) = pair
        at hgraphemes hwidth ⊢
      obtain ⟨kept, next⟩ := pair
      simp only at hgraphemes hwidth ⊢
      have hrest := fun codes => ih codes next
      by_cases hempty : kept = []
      · subst hempty
        rw [List.isEmpty_nil, if_pos rfl]
        split
        · exact Int.le_max_left 0 _
        · have hle := hrest pending
          have hnil : (u.segmentsWidth [] : ℤ) = 0 := rfl
          omega
      · have hnot : ¬ kept.isEmpty = true := by rwa [List.isEmpty_iff]
        obtain ⟨hle, hfits⟩ := hwidth.resolve_left fun h => hempty h.1
        rw [if_neg hnot, tokensWidth_append, tokensWidth_codeTokens, Nat.zero_add,
          tokensWidth_text, hgraphemes]
        split
        · rw [tokensWidth_nil]
          omega
        · have hnext := hrest []
          omega

end Widths

end Pidrei.Tui.TerminalText
