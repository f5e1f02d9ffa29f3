import Pidrei.Library.EditScript

/-!
Opcodes grouped into hunks: every change with a few equal elements around it. What stands
between the hunks is the same in both lists.
-/
namespace EditScript

open List

variable {α : Type*}

/-- An equal block without what precedes its last `n` elements. -/
def Opcode.trimLeading (n : ℕ) (code : Opcode) : Opcode :=
  ⟨code.tag, max code.oldStart (code.oldEnd - n), code.oldEnd,
    max code.newStart (code.newEnd - n), code.newEnd⟩

/-- An equal block without what follows its first `n` elements. -/
def Opcode.trimTrailing (n : ℕ) (code : Opcode) : Opcode :=
  ⟨code.tag, code.oldStart, min code.oldEnd (code.oldStart + n),
    code.newStart, min code.newEnd (code.newStart + n)⟩

def trimFirst (n : ℕ) : List Opcode → List Opcode
  | [] => []
  | code :: codes => (if code.tag = .equal then code.trimLeading n else code) :: codes

def trimLast (n : ℕ) : List Opcode → List Opcode
  | [] => []
  | [code] => [if code.tag = .equal then code.trimTrailing n else code]
  | code :: next :: codes => code :: trimLast n (next :: codes)

/-- `group` is the hunk that is being collected; a long equal block ends it. -/
def groupLoop (n : ℕ) : List Opcode → List Opcode → List (List Opcode)
  | group, [] =>
    if group = [] ∨ group.length = 1 ∧ group.all (·.tag = .equal) then [] else [group]
  | group, code :: codes =>
    if code.tag = .equal ∧ code.oldEnd - code.oldStart > n + n then
      (group ++ [code.trimTrailing n]) :: groupLoop n [code.trimLeading n] codes
    else groupLoop n (group ++ [code]) codes

def groupedOpcodes (n : ℕ) (codes : List Opcode) : List (List Opcode) :=
  let codes := if codes = [] then [⟨.equal, 0, 1, 0, 1⟩] else codes
  groupLoop n [] (trimLast n (trimFirst n codes))

/-- Hunks that turn the rest of one list into that of another, from two positions on. -/
inductive Hunks : ℕ → ℕ → List α → List α → List (List Opcode) → Prop
  | done {i j : ℕ} (kept : List α) : Hunks i j kept kept []
  | hunk {i j : ℕ} {old new old' new' : List α} {group : List Opcode} {groups : List (List Opcode)}
      (kept : List α) (hne : group ≠ [])
      (hgroup : Turns (i + kept.length) (j + kept.length) old new group)
      (rest : Hunks (i + kept.length + old.length) (j + kept.length + new.length) old' new' groups) :
      Hunks i j (kept ++ (old ++ old')) (kept ++ (new ++ new')) (group :: groups)

variable {i j : ℕ} {old new : List α} {codes : List Opcode} {groups : List (List Opcode)}
  {before after : List α} {group : List Opcode}

theorem Hunks.ne_nil (h : Hunks i j old new groups) : ∀ group ∈ groups, group ≠ [] := by
  induction h with
  | done _ => exact nofun
  | hunk _ hne _ _ ih =>
    intro group hgroup
    rcases mem_cons.mp hgroup with rfl | hgroup
    · exact hne
    · exact ih group hgroup

theorem Hunks.keep {i j : ℕ} {old new : List α} {groups : List (List Opcode)} (kept : List α)
    (h : Hunks (i + kept.length) (j + kept.length) old new groups) :
    Hunks i j (kept ++ old) (kept ++ new) groups := by
  generalize hi : i + kept.length = i' at h
  generalize hj : j + kept.length = j' at h
  cases h with
  | done more => exact .done _
  | @hunk _ _ _ _ _ _ _ _ more hne hgroup rest =>
    subst hi hj
    rw [← append_assoc, ← append_assoc kept]
    rw [Nat.add_assoc, Nat.add_assoc j, ← length_append] at hgroup
    rw [Nat.add_assoc i, Nat.add_assoc j, ← length_append] at rest
    exact .hunk (kept ++ more) hne hgroup rest

theorem Turns.append {old' new' : List α} {codes' : List Opcode} (h : Turns i j old new codes)
    (h' : Turns (i + old.length) (j + new.length) old' new' codes') :
    Turns i j (old ++ old') (new ++ new') (codes ++ codes') := by
  induction h with
  | done i j => exact h'
  | equal kept _ ih =>
    rw [append_assoc, append_assoc]
    rw [length_append, length_append, ← Nat.add_assoc, ← Nat.add_assoc] at h'
    exact .equal kept (ih h')
  | change removed added htag _ ih =>
    rw [append_assoc, append_assoc]
    rw [length_append, length_append, ← Nat.add_assoc, ← Nat.add_assoc] at h'
    exact .change removed added htag (ih h')

theorem Turns.ends (h : Turns i j old new codes) (hne : codes ≠ []) :
    ∃ first last, codes.head? = some first ∧ codes.getLast? = some last ∧
      first.oldStart = i ∧ first.newStart = j ∧
        last.oldEnd = i + old.length ∧ last.newEnd = j + new.length := by
  have hstep : ∀ {code : Opcode} {codes : List Opcode} {i' j' : ℕ} {old new : List α},
      Turns i' j' old new codes → code.oldEnd = i' → code.newEnd = j' →
        (codes ≠ [] → ∃ first last, codes.head? = some first ∧ codes.getLast? = some last ∧
          first.oldStart = i' ∧ first.newStart = j' ∧
            last.oldEnd = i' + old.length ∧ last.newEnd = j' + new.length) →
          ∃ last, (code :: codes).getLast? = some last ∧
            last.oldEnd = i' + old.length ∧ last.newEnd = j' + new.length := by
    intro code codes i' j' old new hrest hold hnew ih
    by_cases hnil : codes = []
    · subst hnil
      cases hrest
      exact ⟨code, rfl, hold, hnew⟩
    · obtain ⟨-, last, -, hlast, -, -, hends⟩ := ih hnil
      exact ⟨last, by rw [getLast?_cons, hlast]; rfl, hends⟩
  induction h with
  | done i j => exact absurd rfl hne
  | equal kept rest ih =>
    obtain ⟨last, hlast, hends⟩ := @hstep ⟨.equal, _, _, _, _⟩ _ _ _ _ _ rest rfl rfl ih
    refine ⟨_, last, rfl, hlast, rfl, rfl, ?_⟩
    rw [hends.1, hends.2, length_append, length_append, Nat.add_assoc, Nat.add_assoc]
    exact ⟨rfl, rfl⟩
  | @change _ _ _ _ _ tag removed added htag rest ih =>
    obtain ⟨last, hlast, hends⟩ := @hstep ⟨tag, _, _, _, _⟩ _ _ _ _ _ rest rfl rfl ih
    refine ⟨_, last, rfl, hlast, rfl, rfl, ?_⟩
    rw [hends.1, hends.2, length_append, length_append, Nat.add_assoc, Nat.add_assoc]
    exact ⟨rfl, rfl⟩

theorem Turns.equal_single (kept : List α) :
    Turns i j kept kept [⟨.equal, i, i + kept.length, j, j + kept.length⟩] := by
  have hdone := Turns.equal kept (@Turns.done α (i + kept.length) (j + kept.length))
  rwa [append_nil] at hdone

theorem trimLeading_equal (n i j : ℕ) (kept : List α) :
    Opcode.trimLeading n ⟨.equal, i, i + kept.length, j, j + kept.length⟩ =
      ⟨.equal, i + (kept.length - n), i + (kept.length - n) + (kept.drop (kept.length - n)).length,
        j + (kept.length - n), j + (kept.length - n) + (kept.drop (kept.length - n)).length⟩ := by
  rw [Opcode.trimLeading, length_drop]
  congr 1 <;> dsimp only <;> omega

theorem trimTrailing_equal (n i j : ℕ) (kept : List α) :
    Opcode.trimTrailing n ⟨.equal, i, i + kept.length, j, j + kept.length⟩ =
      ⟨.equal, i, i + (kept.take n).length, j, j + (kept.take n).length⟩ := by
  rw [Opcode.trimTrailing, length_take]
  congr 1 <;> dsimp only <;> omega

/-- The first hunk has at most `n` elements before its first change. -/
theorem turns_trimFirst (n : ℕ) (h : Turns i j old new codes) :
    ∃ lead old' new', old = lead ++ old' ∧ new = lead ++ new' ∧
      Turns (i + lead.length) (j + lead.length) old' new' (trimFirst n codes) := by
  cases h with
  | done i j => exact ⟨[], [], [], rfl, rfl, .done _ _⟩
  | @equal i j old new codes kept rest =>
    refine ⟨kept.take (kept.length - n), kept.drop (kept.length - n) ++ old,
      kept.drop (kept.length - n) ++ new, ?_, ?_, ?_⟩
    · rw [← append_assoc, take_append_drop]
    · rw [← append_assoc, take_append_drop]
    · rw [trimFirst, if_pos rfl, trimLeading_equal, length_take_of_le (Nat.sub_le _ _)]
      refine .equal (kept.drop (kept.length - n)) ?_
      rw [length_drop]
      have hlength : kept.length - n + (kept.length - (kept.length - n)) = kept.length := by omega
      rwa [Nat.add_assoc, hlength, Nat.add_assoc, hlength]
  | @change i j old new codes tag removed added htag rest =>
    have hne : tag ≠ .equal := by
      rintro rfl
      exact htag
    refine ⟨[], _, _, rfl, rfl, ?_⟩
    rw [trimFirst, if_neg hne]
    exact .change removed added htag rest

/-- The last hunk has at most `n` elements behind its last change. -/
theorem turns_trimLast (n : ℕ) (h : Turns i j old new codes) :
    ∃ trail old' new', old = old' ++ trail ∧ new = new' ++ trail ∧
      Turns i j old' new' (trimLast n codes) := by
  induction h with
  | done i j => exact ⟨[], [], [], rfl, rfl, .done _ _⟩
  | @equal i j old new codes kept rest ih =>
    cases codes with
    | nil =>
      cases rest with
      | done =>
        refine ⟨kept.drop n, kept.take n, kept.take n, ?_, ?_, ?_⟩
        · rw [append_nil, take_append_drop]
        · rw [append_nil, take_append_drop]
        · rw [trimLast, if_pos rfl, trimTrailing_equal]
          exact Turns.equal_single _
    | cons next codes =>
      obtain ⟨trail, old', new', rfl, rfl, hturns⟩ := ih
      refine ⟨trail, kept ++ old', kept ++ new', ?_, ?_, .equal kept hturns⟩
      · rw [append_assoc]
      · rw [append_assoc]
  | @change i j old new codes tag removed added htag rest ih =>
    have hne : tag ≠ .equal := by
      rintro rfl
      exact htag
    cases codes with
    | nil =>
      refine ⟨[], _, _, (append_nil _).symm, (append_nil _).symm, ?_⟩
      rw [trimLast, if_neg hne]
      exact .change removed added htag rest
    | cons next codes =>
      obtain ⟨trail, old', new', rfl, rfl, hturns⟩ := ih
      refine ⟨trail, removed ++ old', added ++ new', ?_, ?_, .change removed added htag hturns⟩
      · rw [append_assoc]
      · rw [append_assoc]

theorem turns_leading (n i j : ℕ) (kept : List α) :
    Turns (i + (kept.length - n)) (j + (kept.length - n)) (kept.drop (kept.length - n))
      (kept.drop (kept.length - n))
      [Opcode.trimLeading n ⟨.equal, i, i + kept.length, j, j + kept.length⟩] := by
  rw [trimLeading_equal]
  exact Turns.equal_single _

/-- A long equal block ends one hunk and begins the next. -/
theorem hunks_cut {n : ℕ} {kept : List α} (hlength : n + n < kept.length)
    (hgroup : Turns i j before after group)
    (hrest : Hunks (i + before.length + (kept.length - n)) (j + after.length + (kept.length - n))
      (kept.drop (kept.length - n) ++ old) (kept.drop (kept.length - n) ++ new) groups) :
    Hunks i j (before ++ (kept ++ old)) (after ++ (kept ++ new))
      ((group ++ [Opcode.trimTrailing n ⟨.equal, i + before.length, i + before.length + kept.length,
        j + after.length, j + after.length + kept.length⟩]) :: groups) := by
  have hkept : kept = kept.take n ++
      ((kept.drop n).take (kept.length - n - n) ++ kept.drop (kept.length - n)) := by
    have hdrop : kept.drop (kept.length - n) = (kept.drop n).drop (kept.length - n - n) := by
      rw [drop_drop]
      congr 1
      omega
    rw [hdrop, take_append_drop, take_append_drop]
  have htake : (kept.take n).length = n := length_take_of_le (by omega)
  have hmiddle : ((kept.drop n).take (kept.length - n - n)).length = kept.length - n - n := by
    rw [length_take, length_drop]
    omega
  have hend : Turns i j (before ++ kept.take n) (after ++ kept.take n)
      (group ++ [Opcode.trimTrailing n ⟨.equal, i + before.length,
        i + before.length + kept.length, j + after.length, j + after.length + kept.length⟩]) := by
    rw [trimTrailing_equal]
    exact hgroup.append (Turns.equal_single _)
  have hbehind : Hunks (i + (before ++ kept.take n).length) (j + (after ++ kept.take n).length)
      ((kept.drop n).take (kept.length - n - n) ++ (kept.drop (kept.length - n) ++ old))
      ((kept.drop n).take (kept.length - n - n) ++ (kept.drop (kept.length - n) ++ new)) groups := by
    apply Hunks.keep
    rw [hmiddle, length_append, length_append, htake]
    have hold : i + (before.length + n) + (kept.length - n - n) =
        i + before.length + (kept.length - n) := by omega
    have hnew : j + (after.length + n) + (kept.length - n - n) =
        j + after.length + (kept.length - n) := by omega
    rw [hold, hnew]
    exact hrest
  have hhunk := @Hunks.hunk _ i j _ _ _ _ _ _ [] (append_ne_nil_of_right_ne_nil _
    (cons_ne_nil _ _)) hend hbehind
  have hsplit : ∀ front back : List α, front ++ (kept ++ back) =
      [] ++ (front ++ kept.take n ++ ((kept.drop n).take (kept.length - n - n) ++
        (kept.drop (kept.length - n) ++ back))) := by
    intro front back
    conv_lhs => rw [hkept]
    simp only [nil_append, append_assoc]
  rw [hsplit, hsplit]
  exact hhunk

theorem hunks_groupLoop (n : ℕ) {i' j' : ℕ} {trail : List α}
    (hgroup : Turns i j before after group) (hi : i + before.length = i')
    (hj : j + after.length = j') (hcodes : Turns i' j' old new codes) :
    Hunks i j (before ++ (old ++ trail)) (after ++ (new ++ trail)) (groupLoop n group codes) := by
  induction hcodes generalizing i j before after group with
  | done i' j' =>
    rw [groupLoop]
    split_ifs with hnone
    · have hequal : ∀ code ∈ group, code.tag = .equal := by
        intro code hcode
        rcases hnone with rfl | ⟨-, hall⟩
        · exact nomatch hcode
        · simpa using all_eq_true.mp hall code hcode
      rw [hgroup.eq_of_equal hequal]
      exact .done _
    · exact Hunks.hunk [] (fun h => hnone (.inl h)) hgroup (.done trail)
  | @equal i' j' old new codes kept rest ih =>
    subst hi hj
    rw [groupLoop]
    split_ifs with hlong
    · have hlength : n + n < kept.length := by
        have hgt := hlong.2
        dsimp only at hgt
        omega
      have hbehind : ∀ k : ℕ, k + (kept.length - n) + (kept.drop (kept.length - n)).length =
          k + kept.length := by
        intro k
        rw [length_drop]
        omega
      rw [append_assoc, append_assoc]
      exact hunks_cut hlength hgroup (ih (turns_leading n _ _ kept) (hbehind _) (hbehind _))
    · have hmore := hgroup.append (Turns.equal_single kept)
      have hrest := ih hmore (by rw [length_append, Nat.add_assoc])
        (by rw [length_append, Nat.add_assoc])
      simp only [append_assoc] at hrest ⊢
      exact hrest
  | @change i' j' old new codes tag removed added htag rest ih =>
    subst hi hj
    have hne : tag ≠ .equal := by
      rintro rfl
      exact htag
    rw [groupLoop, if_neg fun h => hne h.1]
    have hsingle := Turns.change removed added htag
      (@Turns.done α (i + before.length + removed.length) (j + after.length + added.length))
    rw [append_nil, append_nil] at hsingle
    have hmore := hgroup.append hsingle
    have hrest := ih hmore (by rw [length_append, Nat.add_assoc])
      (by rw [length_append, Nat.add_assoc])
    simp only [append_assoc] at hrest ⊢
    exact hrest

/-- The hunks of a differ's opcodes, with what stands between them the same in both lists. -/
theorem hunks_groupedOpcodes (n : ℕ) (h : Turns 0 0 old new codes) :
    Hunks 0 0 old new (groupedOpcodes n codes) := by
  by_cases hnil : codes = []
  · subst hnil
    cases h with
    | done =>
      have hnone : groupedOpcodes n [] = [] := by
        have hshort : ¬ (min 1 (max 0 (1 - n) + n) - max 0 (1 - n) > n + n) := by omega
        rw [groupedOpcodes, if_pos rfl, trimFirst, if_pos rfl, trimLast, groupLoop,
          if_neg fun h => hshort h.2]
        rfl
      rw [hnone]
      exact .done []
  · obtain ⟨lead, old', new', rfl, rfl, hfirst⟩ := turns_trimFirst n h
    obtain ⟨trail, old'', new'', rfl, rfl, hlast⟩ := turns_trimLast n hfirst
    rw [groupedOpcodes, if_neg hnil]
    exact Hunks.keep lead (hunks_groupLoop n (.done _ _) rfl rfl hlast)

end EditScript
