import Pidrei.JsonRepair

/-!
Scanners on a text and on its repair. A scanner that never stands inside a
literal reads the same characters of both; a literal ends at the same place of
both unless the decoder stops in it at a problem that the repair touches.
-/
namespace Pidrei.RepairedScan

open JsonDecoder JsonRepair

section Following

/-- What the decoder has read of the text stands before the rest in the repaired text too. -/
def Kept (text rest : List Char) : Prop :=
  ∃ front, text = front ++ rest ∧ repairJson text = front ++ repairJson rest

/-- The second scanner does on repaired texts what the first does on texts, and each value takes
at least `k` characters, unless the first scanner stops at a problem that a repair can touch. -/
structure Follows {α : Type} (P : List Char → Prop) (k : ℕ) (scan scan' : Scanner α) : Prop where
  ok : ∀ {text rest : List Char} {value : α}, P text → scan text = .ok (value, rest) →
    Kept text rest ∧ rest.length + k ≤ text.length ∧
      scan' (repairJson text) = .ok (value, repairJson rest)
  error : ∀ {text : List Char} {error : LoadError}, P text → scan text = .error error →
    isRepairable error = false → ∃ error', scan' (repairJson text) = .error error'

/-- The text and its repair are not longer than the bounds of the loops. -/
def Within (n m : ℕ) (text : List Char) : Prop :=
  text.length ≤ n ∧ (repairJson text).length ≤ m

variable {α β : Type} {n m k j : ℕ} {P : List Char → Prop}

theorem Kept.refl (text : List Char) : Kept text text := ⟨[], rfl, rfl⟩

variable {text : List Char} {scan scan' : Scanner α} {next next' : α → Scanner β} {rest : List Char}

theorem Kept.trans {middle : List Char} (h : Kept text middle) (h' : Kept middle rest) :
    Kept text rest := by
  obtain ⟨front, rfl, hfront⟩ := h
  obtain ⟨back, rfl, hback⟩ := h'
  refine ⟨front ++ back, ?_, ?_⟩
  · rw [List.append_assoc]
  · rw [hfront, hback, List.append_assoc]

theorem Kept.within {text rest : List Char} (h : Kept text rest)
    (hlength : rest.length + k ≤ text.length) (hwithin : Within (n + k) (m + k) text) :
    Within n m rest := by
  obtain ⟨front, rfl, hfront⟩ := h
  obtain ⟨hn, hm⟩ := hwithin
  rw [hfront] at hm
  rw [List.length_append] at hn hm hlength
  constructor
  · omega
  · omega

theorem bind_ok {value : α} (h : scan text = .ok (value, rest)) :
    (scan >>= next) text = next value rest := by
  change (scan text >>= fun p => next p.1 p.2) = _
  rw [h]
  rfl

theorem bind_error {error : LoadError} (h : scan text = .error error) :
    (scan >>= next) text = .error error := by
  change (scan text >>= fun p => next p.1 p.2) = _
  rw [h]
  rfl

theorem Follows.mono (h : Follows P k scan scan') {Q : List Char → Prop}
    (hQ : ∀ text, Q text → P text) (hj : j ≤ k) : Follows Q j scan scan' := by
  constructor
  · intro text rest value htext hok
    obtain ⟨kept, hlength, hscan⟩ := h.ok (hQ text htext) hok
    exact ⟨kept, by omega, hscan⟩
  · intro text error htext herror hunrepairable
    exact h.error (hQ text htext) herror hunrepairable

/-- What the first part leaves goes to the second. -/
theorem Follows.andThen {Q : List Char → Prop} (h : Follows P k scan scan')
    (hleft : ∀ {text rest}, P text → Kept text rest → rest.length + k ≤ text.length → Q rest)
    (hnext : ∀ value, Follows Q j (next value) (next' value)) :
    Follows P (k + j) (scan >>= next) (scan' >>= next') := by
  constructor
  · intro text rest value htext hok
    cases hscan : scan text with
    | error error =>
      rw [bind_error hscan] at hok
      cases hok
    | ok first =>
      obtain ⟨kept, hlength, hscan'⟩ := h.ok htext hscan
      rw [bind_ok hscan] at hok
      obtain ⟨kept', hlength', hnext'⟩ := (hnext first.1).ok (hleft htext kept hlength) hok
      refine ⟨kept.trans kept', by omega, ?_⟩
      rw [bind_ok hscan', hnext']
  · intro text error htext herror hunrepairable
    cases hscan : scan text with
    | error first =>
      rw [bind_error hscan, Except.error.injEq] at herror
      subst herror
      obtain ⟨error', hscan'⟩ := h.error htext hscan hunrepairable
      exact ⟨error', bind_error hscan'⟩
    | ok first =>
      obtain ⟨kept, hlength, hscan'⟩ := h.ok htext hscan
      rw [bind_ok hscan] at herror
      rw [bind_ok hscan']
      exact (hnext first.1).error (hleft htext kept hlength) herror hunrepairable

theorem Follows.round (h : Follows (Within (n + 1) (m + 1)) 1 scan scan')
    (hnext : ∀ value, Follows (Within n m) 0 (next value) (next' value)) :
    Follows (Within (n + 1) (m + 1)) 0 (scan >>= next) (scan' >>= next') :=
  (h.andThen (fun hwithin kept hlength => kept.within hlength hwithin) hnext).mono
    (fun _ htext => htext) (Nat.zero_le _)

theorem Follows.before (h : Follows (Within n m) 0 scan scan')
    (hnext : ∀ value, Follows (Within n m) j (next value) (next' value)) :
    Follows (Within n m) j (scan >>= next) (scan' >>= next') := by
  have hboth := h.andThen (fun hwithin kept hlength => kept.within hlength hwithin) hnext
  rw [Nat.zero_add] at hboth
  exact hboth

theorem Follows.behind (h : Follows (Within n m) k scan scan')
    (hnext : ∀ value, Follows (Within n m) 0 (next value) (next' value)) :
    Follows (Within n m) k (scan >>= next) (scan' >>= next') := by
  apply h.andThen _ hnext
  intro text rest hwithin kept hlength
  exact @Kept.within _ _ 0 _ _ kept (by omega) hwithin

theorem follows_pure (value : α) : Follows P 0 (pure value : Scanner α) (pure value) := by
  constructor
  · intro text rest value' _ hok
    cases hok
    exact ⟨Kept.refl _, Nat.le_refl _, rfl⟩
  · intro text error _ herror
    cases herror

theorem follows_fail (message : String) :
    Follows P k (failWith message : Scanner α) (failWith message) := by
  constructor
  · intro text rest value _ hok
    cases hok
  · intro text error _ _ _
    exact ⟨_, rfl⟩

/-- An outcome that does not depend on the text. -/
theorem follows_lift (found : Except LoadError α) :
    Follows P 0 (liftM found : Scanner α) (liftM found) := by
  cases found with
  | ok value => exact follows_pure value
  | error error =>
    constructor
    · intro text rest value _ hok
      cases hok
    · intro text error' _ _ _
      exact ⟨_, rfl⟩

theorem follows_of_total
    (h : ∀ text, ∃ value rest, scan text = .ok (value, rest) ∧ Kept text rest ∧
      scan (repairJson text) = .ok (value, repairJson rest)) : Follows P 0 scan scan := by
  constructor
  · intro text rest value _ hok
    obtain ⟨value', rest', hscan, kept, hscan'⟩ := h text
    rw [hscan] at hok
    cases hok
    refine ⟨kept, ?_, hscan'⟩
    obtain ⟨front, rfl, _⟩ := kept
    rw [List.length_append]
    omega
  · intro text error _ herror
    obtain ⟨value', rest', hscan, _, _⟩ := h text
    rw [hscan] at herror
    cases herror

/-- Without text there is no value. -/
theorem Follows.nil (h : Follows P 1 scan scan') (hnil : P []) :
    ∃ error, scan [] = .error error := by
  cases hscan : scan [] with
  | error error => exact ⟨error, rfl⟩
  | ok found =>
    obtain ⟨_, hlength, _⟩ := h.ok hnil hscan
    rw [List.length_nil] at hlength
    omega

end Following

section Primitives

variable {α : Type} {n m k : ℕ} {P : List Char → Prop} {c : Char}

theorem repairJson_cons (h : c ≠ '"') (rest : List Char) :
    repairJson (c :: rest) = c :: repairJson rest := by
  rw [repairJson, repairFrom_outside, decide_eq_false h]
  rfl

theorem head?_repairJson (text : List Char) : (repairJson text).head? = text.head? := by
  cases text with
  | nil => rfl
  | cons c rest => rw [repairJson, repairFrom_outside]; rfl

variable {front : List Char} {p : Char → Bool} {next next' : Scanner α}

theorem repairJson_append (h : '"' ∉ front) (rest : List Char) :
    repairJson (front ++ rest) = front ++ repairJson rest := by
  induction front with
  | nil => rfl
  | cons c front ih =>
    rw [List.mem_cons, not_or] at h
    rw [List.cons_append, repairJson_cons (Ne.symm h.1), ih h.2, List.cons_append]

theorem kept_append (h : '"' ∉ front) (rest : List Char) :
    Kept (front ++ rest) rest := ⟨front, rfl, repairJson_append h rest⟩

theorem span_repairJson (hp : p '"' = false) (text : List Char) :
    (repairJson text).takeWhile p = text.takeWhile p ∧
      (repairJson text).dropWhile p = repairJson (text.dropWhile p) := by
  induction text with
  | nil => exact ⟨rfl, rfl⟩
  | cons c rest ih =>
    cases hc : p c with
    | true =>
      have hquote : c ≠ '"' := by
        rintro rfl
        rw [hc] at hp
        cases hp
      rw [repairJson_cons hquote, List.takeWhile_cons_of_pos hc, List.takeWhile_cons_of_pos hc,
        List.dropWhile_cons_of_pos hc, List.dropWhile_cons_of_pos hc, ih.1, ih.2]
      exact ⟨rfl, rfl⟩
    | false =>
      have hneg : ¬ p c = true := by
        rw [hc]
        exact Bool.false_ne_true
      rw [List.takeWhile_cons_of_neg hneg, List.dropWhile_cons_of_neg hneg, repairJson,
        repairFrom_outside, List.takeWhile_cons_of_neg hneg, List.dropWhile_cons_of_neg hneg]
      exact ⟨rfl, rfl⟩

theorem kept_dropWhile (hp : p '"' = false) (text : List Char) : Kept text (text.dropWhile p) := by
  refine ⟨text.takeWhile p, List.takeWhile_append_dropWhile.symm, ?_⟩
  obtain ⟨htake, hdrop⟩ := span_repairJson hp text
  rw [← htake, ← hdrop, List.takeWhile_append_dropWhile]

theorem follows_skipWhitespace : Follows P 0 skipWhitespace skipWhitespace :=
  follows_of_total fun text => by
    have hquote : isWhitespace '"' = false := by decide
    refine ⟨(), _, rfl, kept_dropWhile hquote text, ?_⟩
    rw [skipWhitespace, (span_repairJson hquote text).2]

theorem follows_digits : Follows P 0 digits digits :=
  follows_of_total fun text => by
    have hquote : isDigit '"' = false := by decide
    refine ⟨_, _, rfl, kept_dropWhile hquote text, ?_⟩
    rw [digits, (span_repairJson hquote text).1, (span_repairJson hquote text).2]

/-- A word without quotes comes next in both texts or in neither. -/
theorem isPrefixOf_repairJson {expected : List Char} (h : '"' ∉ expected) (text : List Char) :
    expected.isPrefixOf (repairJson text) = expected.isPrefixOf text := by
  induction expected generalizing text with
  | nil => rfl
  | cons e expected ih =>
    rw [List.mem_cons, not_or] at h
    cases text with
    | nil => rfl
    | cons c rest =>
      by_cases hc : e = c
      · subst hc
        rw [repairJson_cons (Ne.symm h.1), List.isPrefixOf_cons_cons, List.isPrefixOf_cons_cons,
          ih h.2]
      · rw [repairJson, repairFrom_outside, List.isPrefixOf_cons_cons, List.isPrefixOf_cons_cons,
          beq_false_of_ne hc]
        rfl

theorem follows_peek {next next' : Option Char → Scanner α}
    (h : ∀ found, Follows (fun text => P text ∧ text.head? = found) k (next found) (next' found)) :
    Follows P k (peek >>= next) (peek >>= next') := by
  constructor
  · intro text rest value htext hok
    have hpeek : peek (repairJson text) = .ok (text.head?, repairJson text) := by
      rw [peek, head?_repairJson]
    obtain ⟨kept, hlength, hnext⟩ := (h text.head?).ok ⟨htext, rfl⟩ hok
    refine ⟨kept, hlength, ?_⟩
    rw [bind_ok hpeek, hnext]
  · intro text error htext herror hunrepairable
    have hpeek : peek (repairJson text) = .ok (text.head?, repairJson text) := by
      rw [peek, head?_repairJson]
    rw [bind_ok hpeek]
    exact (h text.head?).error ⟨htext, rfl⟩ herror hunrepairable

theorem eq_cons_of_head? {text : List Char} (h : text.head? = some c) :
    ∃ rest, text = c :: rest := by
  cases text with
  | nil => cases h
  | cons d rest =>
    cases h
    exact ⟨rest, rfl⟩

/-- A character that is no quote is taken from both texts. -/
theorem follows_next (hc : c ≠ '"') :
    Follows (fun text => P text ∧ text.head? = some c) 1 advance advance := by
  constructor
  · intro text rest value htext hok
    obtain ⟨behind, rfl⟩ := eq_cons_of_head? htext.2
    cases hok
    refine ⟨⟨[c], rfl, repairJson_cons hc behind⟩, Nat.le_refl _, ?_⟩
    rw [repairJson_cons hc]
    rfl
  · intro text error _ herror
    cases herror

theorem follows_advance (hc : c ≠ '"') (h : Follows (Within n m) k next next') :
    Follows (fun text => Within n m text ∧ text.head? = some c) (1 + k)
      (advance >>= fun _ => next) (advance >>= fun _ => next') := by
  apply (follows_next hc).andThen _ fun _ => h
  intro text rest htext kept hlength
  exact @Kept.within _ _ 0 _ _ kept (by omega) htext.1

theorem follows_skip (hc : c ≠ '"') (h : Follows (Within n m) 0 next next') :
    Follows (fun text => Within n m text ∧ text.head? = some c) 0
      (advance >>= fun _ => next) (advance >>= fun _ => next') :=
  (follows_advance hc h).mono (fun _ htext => htext) (Nat.zero_le _)

end Primitives

section Strings

variable {c : Char}

theorem unescape_of_valid (h : c ∈ validJsonEscapes) :
    c ≠ 'u' ∧ ∃ unit, unescape c = some unit := by
  have hall : validJsonEscapes.all (fun d => d ≠ 'u' ∧ (unescape d).isSome) = true := by decide
  obtain ⟨hu, hsome⟩ := of_decide_eq_true (List.all_eq_true.mp hall c h)
  exact ⟨hu, Option.isSome_iff_exists.mp hsome⟩

theorem unescape_eq_none (h : c ∉ validJsonEscapes) : unescape c = none := by
  simp only [validJsonEscapes, List.mem_cons, List.not_mem_nil, or_false, not_or] at h
  obtain ⟨hquote, hslash, hsolidus, hb, hf, hn, hr, ht⟩ := h
  simp [unescape, hquote, hslash, hsolidus, hb, hf, hn, hr, ht]

variable {h₁ h₂ h₃ h₄ : Char}

theorem hexUnit_of_all (h : [h₁, h₂, h₃, h₄].all isHexDigit = true) :
    ∃ unit, hexUnit h₁ h₂ h₃ h₄ = some unit := by
  simp only [List.all_cons, List.all_nil, Bool.and_true, Bool.and_eq_true, isHexDigit,
    Option.isSome_iff_exists] at h
  obtain ⟨⟨a, ha⟩, ⟨b, hb⟩, ⟨c, hc⟩, ⟨d, hd⟩⟩ := h
  exact ⟨_, by simp only [hexUnit, ha, hb, hc, hd]; rfl⟩

theorem hexUnit_eq_none (h : [h₁, h₂, h₃, h₄].all isHexDigit = false) :
    hexUnit h₁ h₂ h₃ h₄ = none := by
  cases hunit : hexUnit h₁ h₂ h₃ h₄ with
  | none => rfl
  | some unit =>
    simp only [hexUnit, Option.bind_eq_bind, Option.bind_eq_some_iff] at hunit
    obtain ⟨a, ha, b, hb, c, hc, d, hd, _⟩ := hunit
    simp [isHexDigit, ha, hb, hc, hd] at h

theorem not_legal_of_escapeLength {rest : List Char} (h : escapeLength (c :: rest) = 0) :
    (c = 'u' → ∀ h₁ h₂ h₃ h₄ behind, rest = h₁ :: h₂ :: h₃ :: h₄ :: behind →
      [h₁, h₂, h₃, h₄].all isHexDigit = false) ∧ c ∉ validJsonEscapes := by
  constructor
  · rintro rfl h₁ h₂ h₃ h₄ behind rfl
    rw [← Bool.not_eq_true]
    intro hdigits
    have hlength := escapeLength_legal (.unicode hdigits) behind
    have hcount : escapeLength ('u' :: h₁ :: h₂ :: h₃ :: h₄ :: behind) = 5 := hlength
    omega
  · intro hvalid
    have hlength := escapeLength_legal (.short hvalid) rest
    have hcount : escapeLength (c :: rest) = 1 := hlength
    omega

/-- What the decoder does with the text behind an opening quote, and with its repair. -/
def StringFollows (text : List Char) : Prop :=
  (∀ units rest, scanUnits text = .ok (units, rest) →
    rest.length < text.length ∧
    (∃ front, text = front ++ rest ∧ repairFrom true 0 text = front ++ repairJson rest) ∧
    scanUnits (repairFrom true 0 text) = .ok (units, repairJson rest)) ∧
  ∀ error, scanUnits text = .error error → isRepairable error = false →
    ∃ error', scanUnits (repairFrom true 0 text) = .error error'

theorem StringFollows.piece {front text : List Char} {unit : ℕ} (h : StringFollows text)
    (hrepair : repairFrom true 0 (front ++ text) = front ++ repairFrom true 0 text)
    (hscan : ∀ behind, behind = text ∨ behind = repairFrom true 0 text →
      scanUnits (front ++ behind) = withUnit unit (scanUnits behind)) :
    StringFollows (front ++ text) := by
  obtain ⟨hok, herror⟩ := h
  constructor
  · intro units rest hunits
    rw [hscan text (.inl rfl)] at hunits
    cases hbehind : scanUnits text with
    | error error =>
      rw [hbehind] at hunits
      cases hunits
    | ok first =>
      rw [hbehind] at hunits
      rw [withUnit] at hunits
      cases hunits
      obtain ⟨hlength, ⟨inner, htext, hinner⟩, hrepaired⟩ := hok _ _ hbehind
      refine ⟨?_, ⟨front ++ inner, ?_, ?_⟩, ?_⟩
      · rw [List.length_append]
        omega
      · rw [List.append_assoc, ← htext]
      · rw [hrepair, hinner, List.append_assoc]
      · rw [hrepair, hscan _ (.inr rfl), hrepaired, withUnit]
  · intro error hunits hunrepairable
    rw [hscan text (.inl rfl)] at hunits
    cases hbehind : scanUnits text with
    | ok first =>
      rw [hbehind] at hunits
      cases hunits
    | error first =>
      rw [hbehind, withUnit, Except.error.injEq] at hunits
      subst hunits
      obtain ⟨error', hrepaired⟩ := herror _ hbehind hunrepairable
      refine ⟨error', ?_⟩
      rw [hrepair, hscan _ (.inr rfl), hrepaired, withUnit]

theorem stringFollows_of_repairable {text : List Char} {error : LoadError}
    (h : scanUnits text = .error error) (hrepairable : isRepairable error = true) :
    StringFollows text := by
  constructor
  · intro units rest hunits
    rw [h] at hunits
    cases hunits
  · intro error' herror hunrepairable
    rw [h, Except.error.injEq] at herror
    rw [← herror, hrepairable] at hunrepairable
    cases hunrepairable

theorem repairFrom_true_cons (c : Char) (rest : List Char) :
    ∃ d behind, repairFrom true 0 (c :: rest) = d :: behind := by
  rw [repairFrom]
  split_ifs with hquote hslash hlegal hcontrol
  · exact ⟨_, _, rfl⟩
  · exact ⟨_, _, rfl⟩
  · exact ⟨_, _, rfl⟩
  · obtain ⟨escape, hwritten, _⟩ := escapeControlCharacter_legal hcontrol
    rw [hwritten]
    exact ⟨_, _, rfl⟩
  · exact ⟨_, _, rfl⟩

/-- The decoder and the repair agree on where a literal ends. -/
theorem stringFollows (inString : Bool) (text : List Char) :
    inString = true → StringFollows text := by
  induction inString, text using scan_induction with
  | nil inString =>
    intro _
    constructor
    · intro units rest hunits
      cases hunits
    · intro error _ _
      exact ⟨_, by rw [repairFrom_nil]; rfl⟩
  | outside c rest _ =>
    intro hfalse
    cases hfalse
  | close rest _ =>
    intro _
    constructor
    · intro units rest' hunits
      rw [scanUnits_close] at hunits
      cases hunits
      refine ⟨Nat.lt_succ_self _, ⟨['"'], rfl, repairFrom_close rest⟩, ?_⟩
      rw [repairFrom_close, scanUnits_close]
      rfl
    · intro error herror _
      rw [scanUnits_close] at herror
      cases herror
  | escape legal rest hlegal ih =>
    intro _
    have hrepair := repairFrom_escape hlegal rest
    cases hlegal with
    | @short c hc =>
      obtain ⟨hu, unit, hunit⟩ := unescape_of_valid hc
      have hpiece := @StringFollows.piece ['\\', c] rest unit (ih rfl) hrepair
      exact hpiece fun behind _ => scanUnits_short hu hunit behind
    | @unicode h₁ h₂ h₃ h₄ hdigits =>
      obtain ⟨unit, hunit⟩ := hexUnit_of_all hdigits
      cases rest with
      | nil =>
        -- the decoder asks for a character behind the digits
        apply @stringFollows_of_repairable _ (.decode "Invalid \\uXXXX escape")
        · exact scanUnits_noUnicode fun _ _ _ _ _ _ h => by cases h
        · decide
      | cons next rest =>
        have hpiece := @StringFollows.piece ['\\', 'u', h₁, h₂, h₃, h₄] (next :: rest) unit
          (ih rfl) hrepair
        apply hpiece
        intro behind hbehind
        obtain ⟨d, more, rfl⟩ : ∃ d more, behind = d :: more := by
          rcases hbehind with rfl | rfl
          · exact ⟨next, rest, rfl⟩
          · exact repairFrom_true_cons next rest
        exact scanUnits_unicode hunit d more
  | stray rest hstray ih =>
    intro _
    cases rest with
    | nil =>
      constructor
      · intro units rest' hunits
        cases hunits
      · intro error _ _
        exact ⟨_, by rw [repairFrom_stray hstray, repairFrom_nil]; rfl⟩
    | cons c rest =>
      obtain ⟨hdigits, hvalid⟩ := not_legal_of_escapeLength hstray
      by_cases hu : c = 'u'
      · subst hu
        apply @stringFollows_of_repairable _ (.decode "Invalid \\uXXXX escape")
        · apply scanUnits_noUnicode
          intro h₁ h₂ h₃ h₄ next behind hrest
          exact hexUnit_eq_none (hdigits rfl h₁ h₂ h₃ h₄ (next :: behind) hrest)
        · decide
      · apply @stringFollows_of_repairable _ (.decode "Invalid \\escape")
        · exact scanUnits_unknown hu (unescape_eq_none hvalid) rest
        · decide
  | control c rest hcontrol ih =>
    intro _
    apply stringFollows_of_repairable (scanUnits_control hcontrol rest)
    decide
  | plain c rest hquote hslash hcontrol ih =>
    intro _
    have hpiece := @StringFollows.piece [c] rest c.toNat (ih rfl)
      (repairFrom_plain hquote hslash hcontrol rest)
    exact hpiece fun behind _ => scanUnits_plain hquote hslash hcontrol behind

end Strings

section Literals

variable {α : Type} {n m k : ℕ} {P : List Char → Prop}

theorem follows_quoted :
    Follows (fun text => P text ∧ text.head? = some '"') 1 (advance >>= fun _ => scanString)
      (advance >>= fun _ => scanString) := by
  have hadvance : ∀ rest, advance ('"' :: rest) = .ok ((), rest) := fun _ => rfl
  have hrepaired : ∀ rest, repairJson ('"' :: rest) = '"' :: repairFrom true 0 rest := by
    intro rest
    rw [repairJson, repairFrom_outside]
    rfl
  constructor
  · intro text rest value htext hok
    obtain ⟨behind, rfl⟩ := eq_cons_of_head? htext.2
    obtain ⟨hstring, _⟩ := stringFollows true behind rfl
    rw [bind_ok (hadvance behind), scanString] at hok
    cases hunits : scanUnits behind with
    | error error =>
      rw [hunits] at hok
      cases hok
    | ok found =>
      obtain ⟨hshort, ⟨front, hfront, hinside⟩, hunits'⟩ := hstring _ _ hunits
      rw [hunits, Except.ok.injEq] at hok
      cases hok
      refine ⟨⟨'"' :: front, ?_, ?_⟩, ?_, ?_⟩
      · rw [List.cons_append, ← hfront]
      · rw [hrepaired, hinside, List.cons_append]
      · rw [List.length_cons]
        omega
      · rw [hrepaired, bind_ok (hadvance _), scanString, hunits']
  · intro text error htext herror hunrepairable
    obtain ⟨behind, rfl⟩ := eq_cons_of_head? htext.2
    obtain ⟨_, hbroken⟩ := stringFollows true behind rfl
    rw [bind_ok (hadvance behind), scanString] at herror
    cases hunits : scanUnits behind with
    | ok found =>
      rw [hunits] at herror
      cases herror
    | error broken =>
      rw [hunits, Except.error.injEq] at herror
      subst herror
      obtain ⟨error', hunits'⟩ := hbroken _ hunits hunrepairable
      refine ⟨error', ?_⟩
      rw [hrepaired, bind_ok (hadvance _), scanString, hunits']

theorem follows_literal {next next' : List ℕ → Scanner α}
    (h : ∀ codePoints, Follows (Within n m) k (next codePoints) (next' codePoints)) :
    Follows (fun text => Within n m text ∧ text.head? = some '"') (1 + k)
      (advance >>= fun _ => scanString >>= next) (advance >>= fun _ => scanString >>= next') := by
  have hassoc : ∀ more : List ℕ → Scanner α, (advance >>= fun _ => scanString >>= more) =
      ((advance >>= fun _ => scanString) >>= more) := fun more => (bind_assoc _ _ _).symm
  rw [hassoc, hassoc]
  apply follows_quoted.andThen _ h
  intro text rest htext kept hlength
  exact @Kept.within _ _ 0 _ _ kept (by omega) htext.1

theorem follows_orWord {expected : List Char} (hne : 0 < expected.length)
    (hquote : '"' ∉ expected) (found : Except LoadError Json) {otherwise otherwise' : Scanner Json}
    (h : Follows P 1 otherwise otherwise') :
    Follows P 1 (orWord expected found otherwise) (orWord expected found otherwise') := by
  have hfound : ∀ behind (other : Scanner Json), orWord expected found other (expected ++ behind) =
      (liftM found : Scanner Json) behind := by
    intro behind other
    have hword : word expected (expected ++ behind) = .ok (true, behind) := by
      rw [word, if_pos (List.isPrefixOf_iff_prefix.mpr (List.prefix_append _ _)), List.drop_left]
    rw [orWord, bind_ok hword]
    rfl
  have hother : ∀ text (other : Scanner Json), expected.isPrefixOf text = false →
      orWord expected found other text = other text := by
    intro text other hprefix
    have hword : word expected text = .ok (false, text) := by
      rw [word, hprefix]
      rfl
    rw [orWord, bind_ok hword]
    rfl
  constructor
  · intro text rest value htext hok
    cases hprefix : expected.isPrefixOf text with
    | true =>
      obtain ⟨behind, rfl⟩ := List.isPrefixOf_iff_prefix.mp hprefix
      rw [hfound] at hok
      obtain ⟨kept, _, hlift⟩ := (follows_lift (P := fun _ => True) found).ok trivial hok
      refine ⟨(kept_append hquote behind).trans kept, ?_, ?_⟩
      · obtain ⟨front, rfl, _⟩ := kept
        rw [List.length_append, List.length_append]
        omega
      · rw [repairJson_append hquote, hfound, hlift]
    | false =>
      have hprefix' : expected.isPrefixOf (repairJson text) = false := by
        rw [isPrefixOf_repairJson hquote, hprefix]
      rw [hother _ _ hprefix] at hok
      rw [hother _ _ hprefix']
      exact h.ok htext hok
  · intro text error htext herror hunrepairable
    cases hprefix : expected.isPrefixOf text with
    | true =>
      obtain ⟨behind, rfl⟩ := List.isPrefixOf_iff_prefix.mp hprefix
      rw [hfound] at herror
      rw [repairJson_append hquote, hfound]
      exact (follows_lift (P := fun _ => True) found).error trivial herror hunrepairable
    | false =>
      have hprefix' : expected.isPrefixOf (repairJson text) = false := by
        rw [isPrefixOf_repairJson hquote, hprefix]
      rw [hother _ _ hprefix] at herror
      rw [hother _ _ hprefix']
      exact h.error htext herror hunrepairable

end Literals

end Pidrei.RepairedScan
