import Pidrei.Library.Incremental

/-!
UTF-8 as Python's codecs read it: the longest start of a sequence that is no valid
sequence is one error, an error becomes one replacement character, and a decoder
that may get more input waits for the rest of a sequence that is cut off.
-/
namespace Utf8

open List
open Option (some)
open Incremental (drain drain_none)

/-- What stands at the front of the bytes. -/
inductive Scan
  | char (c : Char) (rest : List UInt8)
  | invalid (rest : List UInt8)
  | incomplete

def isContinuation (b : UInt8) : Bool := 0x80 ≤ b.toNat && b.toNat < 0xC0

/-- Whether the second byte of a sequence of three or four can follow the first. -/
def secondFits (first second : UInt8) : Bool :=
  isContinuation second &&
    (if first.toNat = 0xE0 then 0xA0 ≤ second.toNat
    else if first.toNat = 0xED then second.toNat < 0xA0
    else if first.toNat = 0xF0 then 0x90 ≤ second.toNat
    else if first.toNat = 0xF4 then second.toNat < 0x90
    else true)

def scanTwo (first : UInt8) : List UInt8 → Scan
  | [] => .incomplete
  | second :: rest =>
    if isContinuation second then
      .char (Char.ofNat (first.toNat % 32 * 64 + second.toNat % 64)) rest
    else .invalid (second :: rest)

def scanThree (first : UInt8) : List UInt8 → Scan
  | [] => .incomplete
  | [second] =>
    -- a cut off surrogate waits too, although no third byte can make it valid
    if secondFits first second || (first.toNat = 0xED && isContinuation second) then .incomplete
    else .invalid [second]
  | second :: third :: rest =>
    if !secondFits first second then .invalid (second :: third :: rest)
    else if isContinuation third then
      .char (Char.ofNat
        (first.toNat % 16 * 4096 + second.toNat % 64 * 64 + third.toNat % 64)) rest
    else .invalid (third :: rest)

def scanFour (first : UInt8) : List UInt8 → Scan
  | [] => .incomplete
  | [second] => if secondFits first second then .incomplete else .invalid [second]
  | [second, third] =>
    if !secondFits first second then .invalid [second, third]
    else if isContinuation third then .incomplete
    else .invalid [third]
  | second :: third :: fourth :: rest =>
    if !secondFits first second then .invalid (second :: third :: fourth :: rest)
    else if !isContinuation third then .invalid (third :: fourth :: rest)
    else if isContinuation fourth then
      .char (Char.ofNat (first.toNat % 8 * 262144 + second.toNat % 64 * 4096 +
        third.toNat % 64 * 64 + fourth.toNat % 64)) rest
    else .invalid (fourth :: rest)

def scan : List UInt8 → Scan
  | [] => .incomplete
  | first :: rest =>
    if first.toNat < 0x80 then .char (Char.ofNat first.toNat) rest
    else if first.toNat < 0xC2 then .invalid rest
    else if first.toNat < 0xE0 then scanTwo first rest
    else if first.toNat < 0xF0 then scanThree first rest
    else if first.toNat < 0xF5 then scanFour first rest
    else .invalid rest

def replacement : Char := Char.ofNat 0xFFFD

/-- One step of a decoder with `errors="replace"`. -/
def replaceStep (bytes : List UInt8) : Option (Char × List UInt8) :=
  match scan bytes with
  | .char c rest => some (c, rest)
  | .invalid rest => some (replacement, rest)
  | .incomplete => none

/-- What the incremental decoder makes of its pending bytes when the input ends. -/
def flushPending : List UInt8 → List Char
  | [] => []
  | [first, second] =>
    if first.toNat = 0xED && 0xA0 ≤ second.toNat then [replacement, replacement]
    else [replacement]
  | _ => [replacement]

/-- `bytes.decode("utf-8", errors="replace")`. -/
def decodeReplace (bytes : List UInt8) : List Char :=
  (drain replaceStep bytes).1 ++ flushPending (drain replaceStep bytes).2

variable {n : ℕ}

theorem toNat_ofNat (h : n < 0xD800 ∨ (0xDFFF < n ∧ n < 0x110000)) : (Char.ofNat n).toNat = n := by
  have hvalid : n.isValidChar := h
  rw [Char.ofNat, dif_pos hvalid]
  rfl

theorem ofNat_of_toNat {b : UInt8} (h : n = b.toNat) : UInt8.ofNat n = b := by
  rw [h, UInt8.ofNat_toNat]

theorem isContinuation_iff (b : UInt8) :
    isContinuation b = true ↔ 0x80 ≤ b.toNat ∧ b.toNat < 0xC0 := by
  simp only [isContinuation, Bool.and_eq_true, decide_eq_true_eq]

theorem secondFits_iff (first second : UInt8) : secondFits first second = true ↔
    (0x80 ≤ second.toNat ∧ second.toNat < 0xC0) ∧
      (first.toNat = 0xE0 → 0xA0 ≤ second.toNat) ∧ (first.toNat = 0xED → second.toNat < 0xA0) ∧
      (first.toNat = 0xF0 → 0x90 ≤ second.toNat) ∧ (first.toNat = 0xF4 → second.toNat < 0x90) := by
  rw [secondFits, Bool.and_eq_true, isContinuation_iff]
  refine and_congr_right fun _ => ?_
  split_ifs <;> simp only [decide_eq_true_eq, true_iff] <;> omega

section Encoding

variable {n : ℕ} {tail rest : List UInt8} {c : Char}

theorem encode_one (h : n < 0x80) : String.utf8EncodeChar (Char.ofNat n) = [UInt8.ofNat n] := by
  have hn : (Char.ofNat n).val.toNat = n := toNat_ofNat (by omega)
  simp only [String.utf8EncodeChar, hn]
  rw [if_pos (by omega)]

theorem encode_two (hlow : 0x80 ≤ n) (hhigh : n < 0x800) : String.utf8EncodeChar (Char.ofNat n) =
      [UInt8.ofNat (n / 64 % 32 + 0xC0), UInt8.ofNat (n % 64 + 0x80)] := by
  have hn : (Char.ofNat n).val.toNat = n := toNat_ofNat (by omega)
  simp only [String.utf8EncodeChar, hn]
  rw [if_neg (by omega), if_pos (by omega)]

theorem encode_three (hlow : 0x800 ≤ n) (hhigh : n < 0x10000) (hvalid : n < 0xD800 ∨ 0xDFFF < n) :
    String.utf8EncodeChar (Char.ofNat n) =
      [UInt8.ofNat (n / 4096 % 16 + 0xE0), UInt8.ofNat (n / 64 % 64 + 0x80),
        UInt8.ofNat (n % 64 + 0x80)] := by
  have hn : (Char.ofNat n).val.toNat = n := toNat_ofNat (by omega)
  simp only [String.utf8EncodeChar, hn]
  rw [if_neg (by omega), if_neg (by omega), if_pos (by omega)]

theorem encode_four (hlow : 0x10000 ≤ n) (hhigh : n < 0x110000) :
    String.utf8EncodeChar (Char.ofNat n) =
      [UInt8.ofNat (n / 262144 % 8 + 0xF0), UInt8.ofNat (n / 4096 % 64 + 0x80),
        UInt8.ofNat (n / 64 % 64 + 0x80), UInt8.ofNat (n % 64 + 0x80)] := by
  have hn : (Char.ofNat n).val.toNat = n := toNat_ofNat (by omega)
  simp only [String.utf8EncodeChar, hn]
  rw [if_neg (by omega), if_neg (by omega), if_neg (by omega)]

variable {first : UInt8}

theorem scanTwo_char (hlow : 0xC2 ≤ first.toNat) (hhigh : first.toNat < 0xE0)
    (h : scanTwo first tail = .char c rest) : first :: tail = String.utf8EncodeChar c ++ rest := by
  cases tail with
  | nil => cases h
  | cons second tail =>
    simp only [scanTwo] at h
    split at h
    · rename_i hsecond
      obtain ⟨rfl, rfl⟩ := Scan.char.inj h
      have hs := (isContinuation_iff second).mp hsecond
      rw [encode_two (by omega) (by omega), ofNat_of_toNat (b := first) (by omega),
        ofNat_of_toNat (b := second) (by omega)]
      rfl
    · cases h

theorem scanThree_char (hlow : 0xE0 ≤ first.toNat) (hhigh : first.toNat < 0xF0)
    (h : scanThree first tail = .char c rest) :
    first :: tail = String.utf8EncodeChar c ++ rest := by
  match tail with
  | [] => cases h
  | [second] =>
    simp only [scanThree] at h
    split at h <;> cases h
  | second :: third :: tail =>
    simp only [scanThree] at h
    split at h
    · cases h
    · rename_i hsecond
      split at h
      · rename_i hthird
        obtain ⟨rfl, rfl⟩ := Scan.char.inj h
        have hs := (secondFits_iff first second).mp (by simpa using hsecond)
        have ht := (isContinuation_iff third).mp hthird
        rw [encode_three (by omega) (by omega) (by omega), ofNat_of_toNat (b := first) (by omega),
          ofNat_of_toNat (b := second) (by omega), ofNat_of_toNat (b := third) (by omega)]
        rfl
      · cases h

theorem scanFour_char (hlow : 0xF0 ≤ first.toNat) (hhigh : first.toNat < 0xF5)
    (h : scanFour first tail = .char c rest) : first :: tail = String.utf8EncodeChar c ++ rest := by
  match tail with
  | [] => cases h
  | [second] =>
    simp only [scanFour] at h
    split at h <;> cases h
  | [second, third] =>
    simp only [scanFour] at h
    split at h
    · cases h
    · split at h <;> cases h
  | second :: third :: fourth :: tail =>
    simp only [scanFour] at h
    split at h
    · cases h
    · rename_i hsecond
      split at h
      · cases h
      · rename_i hthird
        split at h
        · rename_i hfourth
          obtain ⟨rfl, rfl⟩ := Scan.char.inj h
          have hs := (secondFits_iff first second).mp (by simpa using hsecond)
          have ht := (isContinuation_iff third).mp (by simpa using hthird)
          have hf := (isContinuation_iff fourth).mp hfourth
          rw [encode_four (by omega) (by omega), ofNat_of_toNat (b := first) (by omega),
            ofNat_of_toNat (b := second) (by omega), ofNat_of_toNat (b := third) (by omega),
            ofNat_of_toNat (b := fourth) (by omega)]
          rfl
        · cases h

/-- A character that is read is encoded by the bytes it was read from. -/
theorem scan_char {bytes : List UInt8} (h : scan bytes = .char c rest) :
    bytes = String.utf8EncodeChar c ++ rest := by
  cases bytes with
  | nil => cases h
  | cons first tail =>
    simp only [scan] at h
    split_ifs at h with h1 h2 h3 h4 h5
    · obtain ⟨rfl, rfl⟩ := Scan.char.inj h
      rw [encode_one h1, UInt8.ofNat_toNat]
      rfl
    · exact scanTwo_char (by omega) (by omega) h
    · exact scanThree_char (by omega) (by omega) h
    · exact scanFour_char (by omega) (by omega) h

end Encoding

section Boundaries

/-- The same reading with more input behind it. -/
def Scan.append (more : List UInt8) : Scan → Scan
  | .char c rest => .char c (rest ++ more)
  | .invalid rest => .invalid (rest ++ more)
  | .incomplete => .incomplete

/-- The bytes behind the first one of a sequence, each with its check. -/
def follow (char : List UInt8 → Char) : List (UInt8 → Bool) → List UInt8 → Scan
  | [], tail => .char (char []) tail
  | _ :: _, [] => .incomplete
  | check :: checks, b :: tail =>
    if check b then follow (fun used => char (b :: used)) checks tail else .invalid (b :: tail)

variable {first : UInt8} {tail : List UInt8} {char : List UInt8 → Char}
  {checks : List (UInt8 → Bool)}

theorem scanTwo_follow (first : UInt8) : ∃ char, scanTwo first = follow char [isContinuation] := by
  refine ⟨fun used => Char.ofNat (first.toNat % 32 * 64 + used.head!.toNat % 64), ?_⟩
  funext tail
  cases tail with
  | nil => rfl
  | cons second tail => rfl

/-- Only a surrogate that is cut off waits although nothing can follow it. -/
theorem scanThree_follow (first : UInt8) :
    ∃ char, ∀ tail, scanThree first tail = follow char [secondFits first, isContinuation] tail ∨
      first.toNat = 0xED ∧ ∃ second, tail = [second] ∧ isContinuation second = true ∧
        scanThree first tail = .incomplete := by
  refine ⟨fun used => Char.ofNat (first.toNat % 16 * 4096 + used.head!.toNat % 64 * 64 +
    used.tail.head!.toNat % 64), fun tail => ?_⟩
  match tail with
  | [] => exact .inl rfl
  | [second] =>
    by_cases hcut : (first.toNat = 0xED && isContinuation second) = true
    · have hboth : first.toNat = 0xED ∧ isContinuation second = true := by simpa using hcut
      exact .inr ⟨hboth.1, second, rfl, hboth.2, by rw [scanThree, hcut, Bool.or_true, if_pos rfl]⟩
    · left
      rw [scanThree, follow, (Bool.not_eq_true _).mp hcut, Bool.or_false]
      rfl
  | second :: third :: tail =>
    left
    cases hsecond : secondFits first second <;> simp [scanThree, follow, hsecond]

theorem scanFour_follow (first : UInt8) : ∃ char,
    scanFour first = follow char [secondFits first, isContinuation, isContinuation] := by
  refine ⟨fun used => Char.ofNat (first.toNat % 8 * 262144 + used.head!.toNat % 64 * 4096 +
    used.tail.head!.toNat % 64 * 64 + used.tail.tail.head!.toNat % 64), ?_⟩
  funext tail
  match tail with
  | [] => rfl
  | [second] => rfl
  | [second, third] =>
    cases hsecond : secondFits first second <;> simp [scanFour, follow, hsecond]
  | second :: third :: fourth :: tail =>
    cases hsecond : secondFits first second
    · simp [scanFour, follow, hsecond]
    · cases hthird : isContinuation third <;> simp [scanFour, follow, hsecond, hthird]

variable (more : List UInt8)

theorem follow_append (h : follow char checks tail ≠ .incomplete) :
    follow char checks (tail ++ more) = (follow char checks tail).append more := by
  induction checks generalizing char tail with
  | nil => rfl
  | cons check checks ih =>
    cases tail with
    | nil => exact absurd rfl h
    | cons b tail =>
      simp only [follow, cons_append] at h ⊢
      split
      · rename_i hcheck
        rw [if_pos hcheck] at h
        exact ih h
      · rfl

theorem scanThree_append (h : scanThree first tail ≠ .incomplete) :
    scanThree first (tail ++ more) = (scanThree first tail).append more := by
  obtain ⟨char, hfollow⟩ := scanThree_follow first
  obtain hscan | ⟨_, _, _, _, hcut⟩ := hfollow tail
  · obtain hmore | ⟨_, second, hone, _, hcut⟩ := hfollow (tail ++ more)
    · rw [hscan] at h
      rw [hmore, hscan, follow_append more h]
    · obtain ⟨htail, _⟩ | ⟨_, hnil⟩ := append_eq_singleton_iff.mp hone
      · exact absurd (htail ▸ rfl) h
      · rw [hnil, append_nil] at hcut
        exact absurd hcut h
  · exact absurd hcut h

/-- What has been read does not depend on the input after it. -/
theorem scan_append {bytes : List UInt8} (h : scan bytes ≠ .incomplete) :
    scan (bytes ++ more) = (scan bytes).append more := by
  cases bytes with
  | nil => exact absurd rfl h
  | cons first tail =>
    simp only [scan, cons_append] at h ⊢
    split_ifs at h ⊢
    · rfl
    · rfl
    · obtain ⟨char, hscan⟩ := scanTwo_follow first
      rw [hscan] at h ⊢
      exact follow_append more h
    · exact scanThree_append more h
    · obtain ⟨char, hscan⟩ := scanFour_follow first
      rw [hscan] at h ⊢
      exact follow_append more h
    · rfl

end Boundaries

section Ascii

/-- Bytes that no ASCII character is among. -/
def NonAscii (bytes : List UInt8) : Prop := ∀ b ∈ bytes, 0x80 ≤ b.toNat

theorem nonAscii_nil : NonAscii [] := nofun

variable {b first : UInt8}

theorem nonAscii_cons {bytes : List UInt8} (hb : 0x80 ≤ b.toNat) (h : NonAscii bytes) :
    NonAscii (b :: bytes) := by
  intro other hother
  rcases mem_cons.mp hother with rfl | hother
  · exact hb
  · exact h other hother

theorem isContinuation_ge (h : isContinuation b = true) : 0x80 ≤ b.toNat :=
  ((isContinuation_iff b).mp h).1

theorem secondFits_ge {second : UInt8} (h : secondFits first second = true) : 0x80 ≤ second.toNat :=
  ((secondFits_iff first second).mp h).1.1

/-- An error ends in front of the first byte that is no continuation, and nothing but
continuations waits for more. -/
def Scan.StopsAtAscii (tail : List UInt8) : Scan → Prop
  | .char _ _ => True
  | .invalid rest => ∃ used, tail = used ++ rest ∧ NonAscii used
  | .incomplete => NonAscii tail

theorem follow_stopsAtAscii {char : List UInt8 → Char} {checks : List (UInt8 → Bool)}
    (hchecks : ∀ check ∈ checks, ∀ b, check b = true → 0x80 ≤ b.toNat) (tail : List UInt8) :
    (follow char checks tail).StopsAtAscii tail := by
  induction checks generalizing char tail with
  | nil => trivial
  | cons check checks ih =>
    obtain ⟨hcheck, hchecks⟩ := forall_mem_cons.mp hchecks
    cases tail with
    | nil => exact nonAscii_nil
    | cons b tail =>
      rw [follow]
      split
      · rename_i hb
        have hstops := @ih (fun used => char (b :: used)) hchecks tail
        cases hscan : follow (fun used => char (b :: used)) checks tail with
        | char c rest => trivial
        | invalid rest =>
          rw [hscan] at hstops
          obtain ⟨used, rfl, hused⟩ := hstops
          exact ⟨b :: used, rfl, nonAscii_cons (hcheck b hb) hused⟩
        | incomplete =>
          rw [hscan] at hstops
          exact nonAscii_cons (hcheck b hb) hstops
      · exact ⟨[], rfl, nonAscii_nil⟩

theorem sequence_checks (first : UInt8) :
    ∀ check ∈ [secondFits first, isContinuation, isContinuation], ∀ b, check b = true →
      0x80 ≤ b.toNat := by
  simp only [mem_cons, not_mem_nil, or_false, or_self, forall_eq_or_imp, forall_eq]
  exact ⟨fun _ => secondFits_ge, fun _ => isContinuation_ge⟩

theorem scan_ascii (h : first.toNat < 0x80) (tail : List UInt8) :
    scan (first :: tail) = .char (Char.ofNat first.toNat) tail := by
  simp only [scan, if_pos h]

theorem scan_stopsAtAscii (first : UInt8) (tail : List UInt8) :
    (scan (first :: tail)).StopsAtAscii tail := by
  simp only [scan]
  split_ifs
  · trivial
  · exact ⟨[], rfl, nonAscii_nil⟩
  · obtain ⟨char, hscan⟩ := scanTwo_follow first
    rw [hscan]
    exact follow_stopsAtAscii (fun check h => sequence_checks first check (by simp_all)) tail
  · obtain ⟨char, hfollow⟩ := scanThree_follow first
    obtain hscan | ⟨_, second, rfl, hcont, hcut⟩ := hfollow tail
    · rw [hscan]
      exact follow_stopsAtAscii (fun check h => sequence_checks first check (by simp_all)) tail
    · rw [hcut]
      exact nonAscii_cons (isContinuation_ge hcont) nonAscii_nil
  · obtain ⟨char, hscan⟩ := scanFour_follow first
    rw [hscan]
    exact follow_stopsAtAscii (sequence_checks first) tail
  · exact ⟨[], rfl, nonAscii_nil⟩

theorem encode_ascii_or (c : Char) :
    (c.toNat < 0x80 ∧ String.utf8EncodeChar c = [UInt8.ofNat c.toNat]) ∨
      (0x80 ≤ c.toNat ∧ NonAscii (String.utf8EncodeChar c)) := by
  have hbyte : ∀ n, 0x80 ≤ n → n < 0x100 → 0x80 ≤ (UInt8.ofNat n).toNat := by
    intro n hlow hhigh
    rw [UInt8.toNat_ofNat_of_lt' hhigh]
    exact hlow
  have hval : c.val.toNat = c.toNat := rfl
  simp only [String.utf8EncodeChar, hval]
  split_ifs
  · exact .inl ⟨by omega, rfl⟩
  all_goals
    refine .inr ⟨by omega, ?_⟩
    repeat' refine nonAscii_cons (hbyte _ (by omega) (by omega)) ?_
    exact nonAscii_nil

end Ascii

section Replacing

/-- A step reads one ASCII byte, or no ASCII byte and no ASCII character. -/
inductive Read (c : Char) : List UInt8 → Prop
  | ascii (b : UInt8) (hb : b.toNat < 0x80) (hc : c = Char.ofNat b.toNat) : Read c [b]
  | other (first : UInt8) (used : List UInt8) (hused : NonAscii (first :: used))
      (hc : 0x80 ≤ c.toNat) : Read c (first :: used)

variable {bytes : List UInt8} {c : Char} {rest : List UInt8} {text : List Char}

theorem replaceStep_some (h : replaceStep bytes = some (c, rest)) :
    ∃ used, bytes = used ++ rest ∧ Read c used := by
  cases bytes with
  | nil => cases h
  | cons first tail =>
    rcases Nat.lt_or_ge first.toNat 0x80 with hfirst | hfirst
    · simp only [replaceStep, scan_ascii hfirst] at h
      obtain ⟨rfl, rfl⟩ := Prod.mk.inj (some.inj h)
      exact ⟨[first], rfl, .ascii first hfirst rfl⟩
    · have hstops := scan_stopsAtAscii first tail
      unfold replaceStep at h
      cases hscan : scan (first :: tail) with
      | char d others =>
        rw [hscan] at h
        obtain ⟨rfl, rfl⟩ := Prod.mk.inj (some.inj h)
        have hbytes := scan_char hscan
        rcases encode_ascii_or d with ⟨hd, hencode⟩ | ⟨hd, hencode⟩
        · rw [hencode] at hbytes
          have hbyte := congrArg UInt8.toNat (cons.inj hbytes).1
          rw [UInt8.toNat_ofNat_of_lt' (by omega : d.toNat < 2 ^ 8)] at hbyte
          omega
        · refine ⟨String.utf8EncodeChar d, hbytes, ?_⟩
          cases hused : String.utf8EncodeChar d with
          | nil =>
            have hlength := String.length_utf8EncodeChar d
            rw [hused] at hlength
            exact absurd hlength.symm (Nat.ne_of_gt (Char.utf8Size_pos d))
          | cons b used => exact .other b used (hused ▸ hencode) hd
      | invalid others =>
        rw [hscan] at h hstops
        cases h
        obtain ⟨used, htail, hused⟩ := hstops
        refine ⟨first :: used, by rw [htail]; rfl, .other first used ?_ (by decide)⟩
        exact nonAscii_cons hfirst hused
      | incomplete =>
        rw [hscan] at h
        cases h

theorem replaceStep_none (h : replaceStep bytes = none) : NonAscii bytes := by
  cases bytes with
  | nil => exact nonAscii_nil
  | cons first tail =>
    rcases Nat.lt_or_ge first.toNat 0x80 with hfirst | hfirst
    · simp only [replaceStep, scan_ascii hfirst] at h
      cases h
    · have hstops := scan_stopsAtAscii first tail
      unfold replaceStep at h
      cases hscan : scan (first :: tail) with
      | char | invalid =>
        rw [hscan] at h
        cases h
      | incomplete =>
        rw [hscan] at hstops
        exact nonAscii_cons hfirst hstops

theorem replaceStep_stable (more : List UInt8) (h : replaceStep bytes = some (c, rest)) :
    replaceStep (bytes ++ more) = some (c, rest ++ more) := by
  have hscan : scan bytes ≠ .incomplete := by
    intro hnone
    simp only [replaceStep, hnone] at h
    cases h
  unfold replaceStep at h ⊢
  rw [scan_append more hscan]
  cases hs : scan bytes with
  | char | invalid =>
    rw [hs] at h
    cases h
    rfl
  | incomplete => exact absurd hs hscan

theorem replaceStep_lawful : Incremental.Lawful replaceStep fun _ _ => True where
  shrinks := by
    intro bytes c rest h
    obtain ⟨used, hbytes, hread⟩ := replaceStep_some h
    rw [hbytes, length_append]
    cases hread with
    | ascii b hb hc =>
      rw [length_singleton]
      omega
    | other first used hused hc =>
      rw [length_cons]
      omega
  stable := fun h _ => replaceStep_stable _ h
  safe_rest := fun _ _ => trivial

/-- An ASCII byte ends what came before it and is read as itself. -/
theorem drain_concat_ascii (bytes : List UInt8) {b : UInt8} (hb : b.toNat < 0x80) :
    ∃ text, drain replaceStep (bytes ++ [b]) =
      (text ++ [Char.ofNat b.toNat], []) := by
  generalize hwhole : bytes ++ [b] = whole
  induction whole using replaceStep_lawful.induction generalizing bytes with
  | hnone whole hstep =>
    have hge := replaceStep_none hstep b (by rw [← hwhole]; simp)
    omega
  | hsome whole c rest hstep ih =>
    obtain ⟨used, hsplit, hread⟩ := replaceStep_some hstep
    rw [replaceStep_lawful.drain_some hstep]
    rcases eq_nil_or_concat rest with hnil | ⟨init, last, hrest⟩
    · have hused : used = bytes ++ [b] := by rw [hwhole, hsplit, hnil, append_nil]
      subst hnil
      cases hread with
      | ascii first hfirst hc =>
        have hone : [] ++ [first] = bytes ++ [b] := hused
        obtain ⟨_, hb'⟩ := append_inj' hone rfl
        obtain rfl := (cons.inj hb').1
        exact ⟨[], by rw [hc]; rfl⟩
      | other first used' hnon hc =>
        have hge := hnon b (by rw [hused]; simp)
        omega
    · have hlast : bytes ++ [b] = (used ++ init) ++ [last] := by
        rw [hwhole, hsplit, hrest, concat_eq_append, append_assoc]
      obtain ⟨hinit, hb'⟩ := append_inj' hlast rfl
      obtain rfl := (cons.inj hb').1
      obtain ⟨text, htext⟩ := ih init (by rw [hrest, concat_eq_append])
      exact ⟨c :: text, by rw [htext]; rfl⟩

theorem drain_head_ascii {tail : List UInt8}
    (h : drain replaceStep bytes = (c :: text, tail)) (hc : c.toNat < 0x80) :
    ∃ rest, bytes = UInt8.ofNat c.toNat :: rest := by
  cases hstep : replaceStep bytes with
  | none =>
    rw [drain_none hstep] at h
    cases h
  | some pair =>
    obtain ⟨d, rest⟩ := pair
    rw [replaceStep_lawful.drain_some hstep] at h
    obtain rfl := (cons.inj (Prod.mk.inj h).1).1
    obtain ⟨used, hsplit, hread⟩ := replaceStep_some hstep
    cases hread with
    | ascii b hb hd =>
      refine ⟨rest, ?_⟩
      rw [hsplit, hd, toNat_ofNat (.inl (by omega)), UInt8.ofNat_toNat]
      rfl
    | other first used hused hd => omega

theorem drain_last_ascii (h : drain replaceStep bytes = (text ++ [c], []))
    (hc : c.toNat < 0x80) : ∃ init, bytes = init ++ [UInt8.ofNat c.toNat] := by
  induction bytes using replaceStep_lawful.induction generalizing text with
  | hnone bytes hstep =>
    rw [drain_none hstep] at h
    exact absurd (Prod.mk.inj h).1.symm (by simp)
  | hsome bytes d rest hstep ih =>
    obtain ⟨used, hsplit, hread⟩ := replaceStep_some hstep
    have hdrain := h
    rw [replaceStep_lawful.drain_some hstep] at h
    obtain ⟨htext, htail⟩ := Prod.mk.inj h
    cases text with
    | nil =>
      obtain ⟨_, hrest⟩ := cons.inj htext
      obtain ⟨others, hbytes⟩ := drain_head_ascii hdrain hc
      have hempty : rest = [] := by
        cases hnext : replaceStep rest with
        | none =>
          rw [drain_none hnext] at htail
          exact htail
        | some pair =>
          rw [replaceStep_lawful.drain_some hnext] at hrest
          cases hrest
      have hused : used = UInt8.ofNat c.toNat :: others := by
        rw [← hbytes, hsplit, hempty, append_nil]
      have hascii : (UInt8.ofNat c.toNat).toNat < 0x80 := by
        rw [UInt8.toNat_ofNat_of_lt' (by omega : c.toNat < 2 ^ 8)]
        exact hc
      cases hread with
      | ascii b hb hd =>
        refine ⟨[], ?_⟩
        rw [hsplit, hempty, hused, (cons.inj hused).2.symm]
        rfl
      | other first used hnon hd =>
        have hge := hnon first mem_cons_self
        rw [(cons.inj hused).1] at hge
        omega
    | cons e text =>
      obtain ⟨init, hinit⟩ := ih (Prod.ext (cons.inj htext).2 htail)
      exact ⟨used ++ init, by rw [hsplit, hinit, append_assoc]⟩

end Replacing

section Strict

def strictStep (bytes : List UInt8) : Option (Char × List UInt8) :=
  match scan bytes with
  | .char c rest => some (c, rest)
  | .invalid _ | .incomplete => none

/-- `bytes.decode("utf-8")`; none is a decoding error. -/
def decodeStrict (bytes : List UInt8) : Option (List Char) :=
  let (text, tail) := drain strictStep bytes
  if tail.isEmpty then some text else none

/-- `text.encode("utf-8")` -/
def encode (text : List Char) : List UInt8 := text.flatMap String.utf8EncodeChar

theorem encode_append (xs ys : List Char) : encode (xs ++ ys) = encode xs ++ encode ys :=
  flatMap_append

variable {bytes : List UInt8}

theorem strictStep_some {rest : List UInt8} {c : Char} (h : strictStep bytes = some (c, rest)) :
    bytes = String.utf8EncodeChar c ++ rest := by
  unfold strictStep at h
  cases hscan : scan bytes with
  | char d others =>
    rw [hscan] at h
    cases h
    exact scan_char hscan
  | invalid | incomplete =>
    rw [hscan] at h
    cases h

theorem strictStep_lawful : Incremental.Lawful strictStep fun _ _ => True where
  shrinks := by
    intro bytes c rest h
    have hpos := Char.utf8Size_pos c
    rw [strictStep_some h, length_append, String.length_utf8EncodeChar]
    omega
  stable := by
    intro bytes c rest more h _
    unfold strictStep at h ⊢
    cases hscan : scan bytes with
    | char d others =>
      have hincomplete : scan bytes ≠ .incomplete := by
        rw [hscan]
        exact Scan.noConfusion
      rw [hscan] at h
      cases h
      rw [scan_append more hincomplete, hscan]
      rfl
    | invalid | incomplete =>
      rw [hscan] at h
      cases h
  safe_rest := fun _ _ => trivial

theorem drain_strict (bytes : List UInt8) :
    bytes = encode (drain strictStep bytes).1 ++
      (drain strictStep bytes).2 := by
  induction bytes using strictStep_lawful.induction with
  | hnone bytes hstep =>
    rw [drain_none hstep]
    rfl
  | hsome bytes c rest hstep ih =>
    rw [strictStep_lawful.drain_some hstep, encode, flatMap_cons, append_assoc]
    change bytes = _ ++ (encode _ ++ _)
    rw [← ih]
    exact strictStep_some hstep

theorem encode_decodeStrict {text : List Char} (h : decodeStrict bytes = some text) :
    encode text = bytes := by
  have hdrain := drain_strict bytes
  simp only [decodeStrict] at h
  split at h
  · rename_i htail
    rw [isEmpty_iff.mp htail, append_nil] at hdrain
    rw [hdrain, some.inj h]
  · cases h

theorem scan_encode (c : Char) (rest : List UInt8) :
    scan (String.utf8EncodeChar c ++ rest) = .char c rest := by
  have hvalid : c.toNat < 0xD800 ∨ 0xDFFF < c.toNat ∧ c.toNat < 0x110000 := c.valid
  have hbyte : ∀ n, n < 0x100 → (UInt8.ofNat n).toNat = n :=
    fun n h => UInt8.toNat_ofNat_of_lt' h
  have hval : c.val.toNat = c.toNat := rfl
  have hchar : ∀ n, n = c.toNat → Char.ofNat n = c := by
    intro n hn
    rw [hn, Char.ofNat_toNat]
  simp only [String.utf8EncodeChar, hval]
  split_ifs with h1 h2 h3
  · rw [singleton_append, scan, hbyte _ (by omega), if_pos (by omega), hchar _ rfl]
  · have hfirst := hbyte (c.toNat / 64 % 32 + 0xC0) (by omega)
    have hsecond := hbyte (c.toNat % 64 + 0x80) (by omega)
    have hcontinues := (isContinuation_iff (UInt8.ofNat (c.toNat % 64 + 0x80))).mpr (by omega)
    simp only [cons_append, nil_append, scan, scanTwo, hcontinues, hfirst, hsecond]
    rw [if_neg (by omega), if_neg (by omega), if_pos (by omega), if_pos trivial, hchar _ (by omega)]
  · have hfirst := hbyte (c.toNat / 4096 % 16 + 0xE0) (by omega)
    have hsecond := hbyte (c.toNat / 64 % 64 + 0x80) (by omega)
    have hthird := hbyte (c.toNat % 64 + 0x80) (by omega)
    have hfits := (secondFits_iff (UInt8.ofNat (c.toNat / 4096 % 16 + 0xE0))
      (UInt8.ofNat (c.toNat / 64 % 64 + 0x80))).mpr (by omega)
    have hcontinues := (isContinuation_iff (UInt8.ofNat (c.toNat % 64 + 0x80))).mpr (by omega)
    simp only [cons_append, nil_append, scan, scanThree, hfits, hcontinues, hfirst, hsecond, hthird]
    rw [if_neg (by omega), if_neg (by omega), if_neg (by omega), if_pos (by omega),
      if_neg (by decide), if_pos trivial, hchar _ (by omega)]
  · have hfirst := hbyte (c.toNat / 262144 % 8 + 0xF0) (by omega)
    have hsecond := hbyte (c.toNat / 4096 % 64 + 0x80) (by omega)
    have hthird := hbyte (c.toNat / 64 % 64 + 0x80) (by omega)
    have hfourth := hbyte (c.toNat % 64 + 0x80) (by omega)
    have hfits := (secondFits_iff (UInt8.ofNat (c.toNat / 262144 % 8 + 0xF0))
      (UInt8.ofNat (c.toNat / 4096 % 64 + 0x80))).mpr (by omega)
    have hcontinues := (isContinuation_iff (UInt8.ofNat (c.toNat / 64 % 64 + 0x80))).mpr (by omega)
    have hends := (isContinuation_iff (UInt8.ofNat (c.toNat % 64 + 0x80))).mpr (by omega)
    simp only [cons_append, nil_append, scan, scanFour, hfits, hcontinues, hends, hfirst,
      hsecond, hthird, hfourth]
    rw [if_neg (by omega), if_neg (by omega), if_neg (by omega), if_neg (by omega),
      if_pos (by omega), if_neg (by decide), if_neg (by decide), if_pos trivial, hchar _ (by omega)]

/-- A text comes back from its bytes. -/
theorem decodeStrict_encode (text : List Char) : decodeStrict (encode text) = some text := by
  have hdrain : drain strictStep (encode text) = (text, []) := by
    induction text with
    | nil => rfl
    | cons c text ih =>
      have hstep : strictStep (encode (c :: text)) = some (c, encode text) := by
        rw [encode, flatMap_cons, strictStep, scan_encode]
        rfl
      rw [strictStep_lawful.drain_some hstep, ih]
  rw [decodeStrict, hdrain]
  rfl

theorem encode_injective {xs ys : List Char} (h : encode xs = encode ys) : xs = ys := by
  have hdecode := decodeStrict_encode xs
  rw [h, decodeStrict_encode] at hdecode
  exact (some.inj hdecode).symm

end Strict

section Cutting

variable (c : Char) (text : List Char)

theorem encode_cons (text : List Char) :
    encode (c :: text) = String.utf8EncodeChar c ++ encode text :=
  flatMap_cons

theorem decodeReplace_encode : decodeReplace (encode text) = text := by
  have hdrain : drain replaceStep (encode text) = (text, []) := by
    induction text with
    | nil => rfl
    | cons c text ih =>
      have hstep : replaceStep (encode (c :: text)) = some (c, encode text) := by
        rw [encode_cons, replaceStep, scan_encode]
      rw [replaceStep_lawful.drain_some hstep, ih]
  rw [decodeReplace, hdrain]
  exact append_nil text

/-- A character begins with a byte that continues nothing, and its other bytes continue it. -/
theorem utf8EncodeChar_cons : ∃ first rest, String.utf8EncodeChar c = first :: rest ∧
    isContinuation first = false ∧ ∀ b ∈ rest, isContinuation b = true := by
  have hval : c.val.toNat = c.toNat := rfl
  have hfirst : ∀ n, n < 0x100 → (n < 0x80 ∨ 0xC0 ≤ n) →
      isContinuation (UInt8.ofNat n) = false := by
    intro n hn hrange
    rw [← Bool.not_eq_true, isContinuation_iff, UInt8.toNat_ofNat_of_lt' hn]
    omega
  have hnext : ∀ n, 0x80 ≤ n → n < 0xC0 → isContinuation (UInt8.ofNat n) = true := by
    intro n hlow hhigh
    rw [isContinuation_iff, UInt8.toNat_ofNat_of_lt' (by omega : n < 2 ^ 8)]
    exact ⟨hlow, hhigh⟩
  simp only [String.utf8EncodeChar, hval]
  split_ifs
  · exact ⟨_, _, rfl, hfirst _ (by omega) (by omega), fun b hb => nomatch hb⟩
  all_goals
    refine ⟨_, _, rfl, hfirst _ (by omega) (by omega), ?_⟩
    simp only [mem_cons, not_mem_nil, or_false, forall_eq_or_imp, forall_eq]
    repeat' apply And.intro
    all_goals exact hnext _ (by omega) (by omega)

theorem takeWhile_encode : (encode text).takeWhile isContinuation = [] := by
  cases text with
  | nil => rfl
  | cons c text =>
    obtain ⟨first, rest, hencode, hfirst, _⟩ := utf8EncodeChar_cons c
    rw [encode_cons, hencode, cons_append, takeWhile_cons, hfirst]
    rfl

/-- The first position from `start` on where no continuation byte stands. -/
def boundary (bytes : List UInt8) (start : ℕ) : ℕ :=
  start + ((bytes.drop start).takeWhile isContinuation).length

/-- A position inside a text is moved to the end of the character that it cuts. -/
theorem boundary_encode {text : List Char} {start : ℕ} (hpos : 0 < start)
    (hle : start ≤ (encode text).length) : ∃ front c back, text = front ++ c :: back ∧
      boundary (encode text) start = (encode (front ++ [c])).length ∧
      (encode text).length < start + (encode (c :: back)).length := by
  induction text generalizing start with
  | nil => exact absurd hpos (Nat.not_lt.mpr hle)
  | cons d text ih =>
    obtain ⟨first, rest, hencode, _, hrest⟩ := utf8EncodeChar_cons d
    have hlength : (encode (d :: text)).length = (first :: rest).length + (encode text).length := by
      rw [encode_cons, hencode, length_append]
    by_cases hinside : start ≤ (first :: rest).length
    · refine ⟨[], d, text, rfl, ?_, by omega⟩
      have hdrop : ((first :: rest).drop start) = rest.drop (start - 1) := by
        obtain ⟨n, rfl⟩ : ∃ n, start = n + 1 := ⟨start - 1, by omega⟩
        rfl
      have htake : ((encode (d :: text)).drop start).takeWhile isContinuation =
          rest.drop (start - 1) := by
        rw [encode_cons, hencode, drop_append_of_le_length hinside, hdrop,
          takeWhile_append_of_pos fun b hb => hrest b (mem_of_mem_drop hb),
          takeWhile_encode, append_nil]
      rw [boundary, htake, nil_append, encode_cons, hencode, length_append, length_drop]
      change start + (rest.length - (start - 1)) = (first :: rest).length + 0
      rw [length_cons] at hinside ⊢
      omega
    · have hpast : 0 < start - (first :: rest).length := by omega
      obtain ⟨front, c, back, htext, hboundary, hcut⟩ := ih hpast (by omega)
      refine ⟨d :: front, c, back, by rw [htext, cons_append], ?_, by omega⟩
      have hdrop : (encode (d :: text)).drop start =
          (encode text).drop (start - (first :: rest).length) := by
        rw [encode_cons, hencode, drop_append, drop_eq_nil_of_le (by omega), nil_append]
      rw [boundary] at hboundary ⊢
      rw [hdrop, cons_append, encode_cons, hencode, length_append]
      omega

theorem getLast?_encode (c : Char) : (encode (text ++ [c])).getLast? = some 0x0A ↔ c = '\n' := by
  have hone : encode [c] = String.utf8EncodeChar c := (encode_cons c []).trans (append_nil _)
  have hlast : (encode (text ++ [c])).getLast? = (String.utf8EncodeChar c).getLast? := by
    obtain ⟨first, rest, hencode, _⟩ := utf8EncodeChar_cons c
    rw [encode_append, hone, hencode, getLast?_append_of_ne_nil _ (cons_ne_nil _ _)]
  rw [hlast]
  rcases encode_ascii_or c with ⟨hascii, hencode⟩ | ⟨hwide, hnon⟩
  · rw [hencode, getLast?_singleton]
    constructor
    · intro h
      have hbyte := congrArg UInt8.toNat (some.inj h)
      rw [UInt8.toNat_ofNat_of_lt' (by omega : c.toNat < 2 ^ 8)] at hbyte
      rw [← Char.ofNat_toNat c, hbyte]
      rfl
    · intro h
      rw [h]
      rfl
  · constructor
    · intro h
      have hge := hnon _ (mem_of_getLast? h)
      exact absurd hge (by decide)
    · intro h
      rw [h] at hwide
      exact absurd hwide (by decide)

end Cutting

section Cuts

variable {bytes : List UInt8} {rest : List UInt8} {first : UInt8}

theorem decodeReplace_char {c : Char} (h : scan bytes = .char c rest) :
    decodeReplace bytes = c :: decodeReplace rest := by
  have hstep : replaceStep bytes = some (c, rest) := by rw [replaceStep, h]
  rw [decodeReplace, replaceStep_lawful.drain_some hstep]
  rfl

theorem decodeReplace_invalid (h : scan bytes = .invalid rest) :
    decodeReplace bytes = replacement :: decodeReplace rest := by
  have hstep : replaceStep bytes = some (replacement, rest) := by rw [replaceStep, h]
  rw [decodeReplace, replaceStep_lawful.drain_some hstep]
  rfl

theorem decodeReplace_incomplete (h : scan bytes = .incomplete) :
    decodeReplace bytes = flushPending bytes := by
  have hstep : replaceStep bytes = none := by rw [replaceStep, h]
  rw [decodeReplace, drain_none hstep]
  rfl

/-- An error stays one error when the input ends somewhere behind it. -/
def Scan.ErrorStays (first : UInt8) (tail : List UInt8) : Scan → Prop
  | .invalid rest => ∃ used, tail = used ++ rest ∧ ∀ kept, kept <+: rest →
    decodeReplace (first :: (used ++ kept)) = replacement :: decodeReplace kept
  | _ => True

theorem decodeReplace_nil : decodeReplace [] = [] := rfl

theorem flushPending_fits {second : UInt8} (h : secondFits first second = true) :
    flushPending [first, second] = [replacement] := by
  have hbound := (secondFits_iff first second).mp h
  rw [flushPending, if_neg]
  simp only [Bool.and_eq_true, decide_eq_true_eq]
  omega

/-- A continuation byte that stands alone is an error. -/
theorem decodeReplace_continuation {b : UInt8} (h : isContinuation b = true) :
    decodeReplace [b] = [replacement] := by
  have hb := (isContinuation_iff b).mp h
  have hscan : scan [b] = .invalid [] := by
    simp only [scan]
    rw [if_neg (by omega), if_pos (by omega)]
  rw [decodeReplace_invalid hscan, decodeReplace_nil]

variable {first : UInt8} {char : List UInt8 → Char} {checks : List (UInt8 → Bool)}
  {tail : List UInt8}

/-- Where a sequence breaks off: it waited in front of that byte, and stays broken off there. -/
theorem follow_invalid (h : follow char checks tail = .invalid rest) :
    ∃ used, tail = used ++ rest ∧ follow char checks used = .incomplete ∧
      ∀ b kept, b :: kept <+: rest →
        follow char checks (used ++ b :: kept) = .invalid (b :: kept) := by
  induction checks generalizing char tail with
  | nil => cases h
  | cons check checks ih =>
    cases tail with
    | nil => cases h
    | cons b tail =>
      rw [follow] at h
      split at h
      · rename_i hb
        obtain ⟨used, rfl, hwaits, hbroken⟩ := ih h
        refine ⟨b :: used, rfl, ?_, fun d kept hkept => ?_⟩
        · rw [follow, if_pos hb, hwaits]
        · rw [cons_append, follow, if_pos hb, hbroken d kept hkept]
      · rename_i hb
        obtain rfl := Scan.invalid.inj h
        refine ⟨[], rfl, rfl, fun d kept hkept => ?_⟩
        rw [nil_append, follow, (cons_prefix_cons.mp hkept).1, if_neg hb]

/-- A cut off surrogate is flushed as two errors. -/
theorem decodeReplace_surrogate {second : UInt8} (hfirst : first.toNat = 0xED)
    (hcont : isContinuation second = true) (hfits : secondFits first second = false)
    (hscan : scan [first, second] = .incomplete) :
    decodeReplace [first, second] = replacement :: decodeReplace [second] := by
  have hunfit := (secondFits_iff first second).not.mp (Bool.eq_false_iff.mp hfits)
  have hb := (isContinuation_iff second).mp hcont
  have hge : 0xA0 ≤ second.toNat := by
    by_contra hlt
    exact hunfit ⟨hb, by omega, by omega, by omega, by omega⟩
  rw [decodeReplace_incomplete hscan, decodeReplace_continuation hcont, flushPending, if_pos]
  simp only [hfirst, Bool.and_eq_true, decide_eq_true_eq]
  exact ⟨trivial, hge⟩

theorem follow_errorStays
    (hread : ∀ tail, scan (first :: tail) = follow char checks tail ∨
      first.toNat = 0xED ∧ ∃ second, tail = [second] ∧ isContinuation second = true ∧
        scan (first :: tail) = .incomplete)
    (hwaits : ∀ b, follow char checks [b] = .incomplete → secondFits first b = true)
    (hbreaks : ∀ b, follow char checks [b] = .invalid [b] → secondFits first b = false)
    (tail : List UInt8) : (scan (first :: tail)).ErrorStays first tail := by
  obtain hscan | ⟨_, _, _, _, hcut⟩ := hread tail
  · rw [hscan]
    cases hfollow : follow char checks tail with
    | char c rest => trivial
    | incomplete => trivial
    | invalid rest =>
      obtain ⟨used, rfl, hwait, hbroken⟩ := follow_invalid hfollow
      refine ⟨used, rfl, fun kept hkept => ?_⟩
      cases kept with
      | nil =>
        have hincomplete : scan (first :: used) = .incomplete := by
          obtain hused | ⟨_, _, _, _, hcut⟩ := hread used
          · rw [hused, hwait]
          · exact hcut
        rw [append_nil, decodeReplace_incomplete hincomplete, decodeReplace_nil]
        match used with
        | [] => rfl
        | [b] => exact flushPending_fits (hwaits b hwait)
        | _ :: _ :: _ => rfl
      | cons b kept =>
        obtain hmore | ⟨hfirst, second, hone, hcont, hcut⟩ := hread (used ++ b :: kept)
        · exact decodeReplace_invalid (hmore.trans (hbroken b kept hkept))
        · obtain ⟨rfl, hlast⟩ : used = [] ∧ b :: kept = [second] := by
            simpa [append_eq_singleton_iff] using hone
          cases hlast
          exact decodeReplace_surrogate hfirst hcont (hbreaks b (hbroken b [] hkept)) hcut
  · rw [hcut]
    trivial

theorem follow_second (checks : List (UInt8 → Bool)) (b : UInt8) :
    (follow char (secondFits first :: isContinuation :: checks) [b] = .incomplete →
      secondFits first b = true) ∧
    (follow char (secondFits first :: isContinuation :: checks) [b] = .invalid [b] →
      secondFits first b = false) := by
  cases hfits : secondFits first b <;> simp [follow, hfits]

theorem scan_errorStays (first : UInt8) (tail : List UInt8) :
    (scan (first :: tail)).ErrorStays first tail := by
  have hskip : ∀ rest, (∀ tail, scan (first :: tail) = .invalid tail) →
      (scan (first :: rest)).ErrorStays first rest := by
    intro rest hscan
    rw [hscan]
    exact ⟨[], rfl, fun kept _ => decodeReplace_invalid (hscan kept)⟩
  by_cases hascii : first.toNat < 0x80
  · rw [scan_ascii hascii]
    trivial
  by_cases hlow : first.toNat < 0xC2
  · exact hskip tail fun rest => by rw [scan, if_neg hascii, if_pos hlow]
  by_cases htwo : first.toNat < 0xE0
  · obtain ⟨char, hchar⟩ := scanTwo_follow first
    have hscan : ∀ rest, scan (first :: rest) = follow char [isContinuation] rest := fun rest => by
      rw [scan, if_neg hascii, if_neg hlow, if_pos htwo, hchar]
    refine follow_errorStays (fun rest => .inl (hscan rest)) (fun b hwait => ?_)
      (fun b hbreak => ?_) tail
    · cases hb : isContinuation b <;> simp [follow, hb] at hwait
    · cases hb : isContinuation b <;> simp_all [follow, secondFits]
  by_cases hthree : first.toNat < 0xF0
  · have hscan : ∀ rest, scan (first :: rest) = scanThree first rest := fun rest => by
      rw [scan, if_neg hascii, if_neg hlow, if_neg htwo, if_pos hthree]
    obtain ⟨char, hchar⟩ := scanThree_follow first
    exact follow_errorStays (by simpa only [hscan] using hchar)
      (fun b => (follow_second [] b).1) (fun b => (follow_second [] b).2) tail
  by_cases hfour : first.toNat < 0xF5
  · obtain ⟨char, hchar⟩ := scanFour_follow first
    have hscan : ∀ rest, scan (first :: rest) =
        follow char [secondFits first, isContinuation, isContinuation] rest := fun rest => by
      rw [scan, if_neg hascii, if_neg hlow, if_neg htwo, if_neg hthree, if_pos hfour, hchar]
    exact follow_errorStays (fun rest => .inl (hscan rest))
      (fun b => (follow_second [isContinuation] b).1)
      (fun b => (follow_second [isContinuation] b).2) tail
  · exact hskip tail fun rest => by
      rw [scan, if_neg hascii, if_neg hlow, if_neg htwo, if_neg hthree, if_neg hfour]

theorem decodeReplace_given (bytes : List UInt8) : ∃ given,
    bytes = given ++ (drain replaceStep bytes).2 ∧
      decodeReplace given = (drain replaceStep bytes).1 := by
  induction bytes using replaceStep_lawful.induction with
  | hnone bytes hstep =>
    rw [drain_none hstep]
    exact ⟨[], rfl, rfl⟩
  | hsome bytes c rest hstep ih =>
    obtain ⟨given, hrest, hdecode⟩ := ih
    rw [replaceStep_lawful.drain_some hstep]
    unfold replaceStep at hstep
    cases hscan : scan bytes with
    | char d others =>
      rw [hscan] at hstep
      obtain ⟨rfl, rfl⟩ := Prod.mk.inj (some.inj hstep)
      refine ⟨String.utf8EncodeChar d ++ given, ?_, ?_⟩
      · rw [append_assoc, ← hrest]
        exact scan_char hscan
      · rw [decodeReplace_char (scan_encode d given), hdecode]
    | invalid others =>
      rw [hscan] at hstep
      cases hstep
      cases bytes with
      | nil => cases hscan
      | cons first tail =>
        have hstays := scan_errorStays first tail
        rw [hscan] at hstays
        obtain ⟨used, htail, hkept⟩ := hstays
        refine ⟨first :: (used ++ given), ?_, ?_⟩
        · rw [htail, cons_append, append_assoc, ← hrest]
        · rw [hkept given ⟨_, hrest.symm⟩, hdecode]
    | incomplete =>
      rw [hscan] at hstep
      cases hstep

end Cuts

end Utf8
