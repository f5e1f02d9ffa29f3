import Pidrei.SettingsMigration

/-!
The `defaultTools` setting: merged over the layers of the settings, and resolved to tool names.
-/
namespace Pidrei.DefaultTools

open List Settings Values

/-- Tools enabled at startup when `defaultTools` does not change them. -/
def defaultToolNames : List String := ["read", "bash", "edit", "write"]

/-- `entry.startswith(sign)`. -/
def signed (sign : Char) (entry : String) : Bool := entry.toList.head? = some sign

def isToolModifier (entry : String) : Bool := signed '+' entry || signed '-' entry

/-- `is_tool_modifier` of a value in a settings file. -/
def isModifierValue : Value → Bool
  | .str entry => isToolModifier entry
  | _ => false

/-- `entry[1:]`. -/
def modified (entry : String) : String := String.ofList entry.toList.tail

/-- One entry of `apply_tool_modifiers`. -/
def applyEntry (tools : List String) (entry : String) : List String :=
  if !isToolModifier entry then tools
  else if signed '+' entry ∧ modified entry ≠ "" ∧ modified entry ∉ tools then
    tools ++ [modified entry]
  else if signed '-' entry ∧ modified entry ∈ tools then tools.erase (modified entry)
  else tools

def applyToolModifiers (base entries : List String) : List String := entries.foldl applyEntry base

def mergeDefaultTools : Option Setting → Setting → Setting
  | some (.list base), .list overrides =>
    if overrides.all isModifierValue then .list (base ++ overrides) else .list overrides
  | _, overrides => overrides

def resolveDefaultTools (entries : List String) : List String :=
  let plain := entries.filter fun entry => !isToolModifier entry
  applyToolModifiers (if plain ≠ [] ∨ entries = [] then plain else defaultToolNames) entries

def getDefaultTools : Option Setting → Option (List String)
  | none => none
  | some (.list tools) => some (resolveDefaultTools (tools.filterMap fun | .str name => some name | _ => none))
  | some _ => some (resolveDefaultTools [])

def sessionTools (setting : Option Setting) : List String :=
  (getDefaultTools setting).getD defaultToolNames

section Modifiers

def removes (name entry : String) : Bool := signed '-' entry && modified entry = name

/-- The additions that no later entry takes back, in list order. -/
def lastingAdditions : List String → List String
  | [] => []
  | entry :: rest =>
    if signed '+' entry ∧ modified entry ≠ "" ∧ rest.all (!removes (modified entry) ·) then
      modified entry :: (lastingAdditions rest).filter (· ≠ modified entry)
    else lastingAdditions rest

def kept (entries tools : List String) : List String :=
  tools.filter fun name => entries.all (!removes name ·)

theorem not_removal {entry : String} (h : signed '+' entry = true) : signed '-' entry = false := by
  simp_all [signed]

variable {tools : List String} {entry name : String}

theorem applyEntry_cases (tools : List String) (entry : String) :
    (signed '+' entry = true ∧ modified entry ≠ "" ∧ modified entry ∉ tools ∧
      applyEntry tools entry = tools ++ [modified entry]) ∨
    (signed '-' entry = true ∧ applyEntry tools entry = tools.erase (modified entry)) ∨
    ((signed '+' entry = true → modified entry ≠ "" → modified entry ∈ tools) ∧
      signed '-' entry = false ∧ applyEntry tools entry = tools) := by
  by_cases hplus : signed '+' entry = true
  · have hminus := not_removal hplus
    by_cases hnew : modified entry ≠ "" ∧ modified entry ∉ tools
    · exact .inl ⟨hplus, hnew.1, hnew.2, by simp [applyEntry, isToolModifier, hplus, hnew]⟩
    · refine .inr (.inr ⟨fun _ hname => ?_, hminus, ?_⟩)
      · by_contra hout
        exact hnew ⟨hname, hout⟩
      · simp only [applyEntry, hplus, hminus, true_and, if_neg hnew]
        simp
  · rw [Bool.not_eq_true] at hplus
    by_cases hminus : signed '-' entry = true
    · refine .inr (.inl ⟨hminus, ?_⟩)
      by_cases hin : modified entry ∈ tools
      · simp [applyEntry, isToolModifier, hplus, hminus, hin]
      · simp [applyEntry, isToolModifier, hplus, hminus, hin, erase_of_not_mem hin]
    · rw [Bool.not_eq_true] at hminus
      exact .inr (.inr ⟨fun h => by simp [hplus] at h, hminus,
        by simp [applyEntry, isToolModifier, hplus, hminus]⟩)

theorem applyEntry_nodup (entry : String) (h : tools.Nodup) : (applyEntry tools entry).Nodup := by
  obtain ⟨_, _, hnew, heq⟩ | ⟨_, heq⟩ | ⟨_, _, heq⟩ := applyEntry_cases tools entry
  · rw [heq]
    exact concat_eq_append ▸ h.concat hnew
  · rw [heq]
    exact h.erase _
  · rwa [heq]

theorem mem_kept {entries : List String} :
    name ∈ kept entries tools ↔ name ∈ tools ∧ entries.all (!removes name ·) = true := mem_filter

theorem applyToolModifiers_eq (entries : List String) (h : tools.Nodup) :
    applyToolModifiers tools entries = kept entries tools ++
      (lastingAdditions entries).filter (· ∉ kept entries tools) := by
  induction entries generalizing tools with
  | nil => simp [applyToolModifiers, kept, lastingAdditions]
  | cons entry rest ih =>
    have hstep := ih (applyEntry_nodup entry h)
    rw [applyToolModifiers] at hstep ⊢
    rw [foldl_cons, hstep]
    have hkept : signed '-' entry = false → kept (entry :: rest) tools = kept rest tools := by
      intro hminus
      simp [kept, removes, hminus]
    obtain ⟨hplus, hname, hnew, heq⟩ | ⟨hminus, heq⟩ | ⟨hold, hminus, heq⟩ :=
      applyEntry_cases tools entry
    · rw [heq, hkept (not_removal hplus), lastingAdditions]
      have hout : modified entry ∉ kept rest tools := fun hin => hnew (mem_kept.mp hin).1
      by_cases hlast : rest.all (!removes (modified entry) ·) = true
      · have hadded : kept rest (tools ++ [modified entry]) =
            kept rest tools ++ [modified entry] := by
          rw [kept, filter_append, filter_singleton, hlast]
          rfl
        rw [if_pos ⟨hplus, hname, hlast⟩, hadded, filter_cons_of_pos (by simpa using hout),
          filter_filter, append_assoc, singleton_append]
        simp
      · have hadded : kept rest (tools ++ [modified entry]) = kept rest tools := by
          rw [kept, filter_append, filter_singleton, (Bool.not_eq_true _).mp hlast]
          exact append_nil _
        rw [if_neg fun hall => hlast hall.2.2, hadded]
    · have hplus : signed '+' entry ≠ true := fun hplus => by
        rw [not_removal hplus] at hminus
        cases hminus
      have hfilter : kept rest (tools.erase (modified entry)) = kept (entry :: rest) tools := by
        rw [kept, kept, h.erase_eq_filter, filter_filter]
        refine filter_congr fun name _ => ?_
        by_cases hsame : modified entry = name
        · simp [removes, hminus, hsame]
        · simp [removes, hminus, hsame, Ne.symm hsame]
      rw [heq, lastingAdditions, if_neg fun hall => hplus hall.1, hfilter]
    · rw [heq, hkept hminus, lastingAdditions]
      split_ifs with hall
      · have hin : modified entry ∈ kept rest tools :=
          mem_kept.mpr ⟨hold hall.1 hall.2.1, hall.2.2⟩
        rw [filter_cons_of_neg (by simpa using hin), filter_filter]
        congr 1
        refine filter_congr fun name _ => ?_
        by_cases hsame : name = modified entry
        · simp [hsame, hin]
        · simp [hsame]
      · rfl

theorem count_applyToolModifiers (entries : List String) (name : String) :
    (applyToolModifiers tools entries).count name ≤ 1 ↔
      tools.count name ≤ entries.countP (removes name) + 1 := by
  induction entries generalizing tools with
  | nil => rfl
  | cons entry rest ih =>
    have hstep := @ih (applyEntry tools entry)
    rw [applyToolModifiers] at hstep ⊢
    rw [foldl_cons, hstep, countP_cons]
    obtain ⟨hplus, _, hnew, heq⟩ | ⟨hminus, heq⟩ | ⟨_, hminus, heq⟩ :=
      applyEntry_cases tools entry
    · have hnone := count_eq_zero.mpr hnew
      rw [heq, count_append, count_singleton, removes, not_removal hplus]
      by_cases hname : modified entry = name
      · rw [← hname, hnone]
        simp
      · simp [hname]
    · rw [heq, removes, hminus, count_erase]
      by_cases hname : modified entry = name
      · simp [hname]
      · simp [hname]
    · rw [heq, removes, hminus]
      simp

theorem nodup_lastingAdditions (entries : List String) : (lastingAdditions entries).Nodup := by
  induction entries with
  | nil => exact nodup_nil
  | cons entry rest ih =>
    rw [lastingAdditions]
    split
    · exact nodup_cons.mpr ⟨by simp, ih.filter _⟩
    · exact ih

end Modifiers

section Layers

def names (entries : List String) : Setting := .list (entries.map .str)

def Layers (base : Option (List String)) (overrides : List String) : Prop :=
  if overrides.all isToolModifier then
    sessionTools (some (mergeDefaultTools (base.map names) (names overrides))) =
        applyToolModifiers (sessionTools (base.map names)) overrides ∧
      (sessionTools (some (mergeDefaultTools (base.map names) (names overrides)))).Nodup
  else mergeDefaultTools (base.map names) (names overrides) = names overrides

/-- An absent base is changed by some entry, an empty one by additions that begin with the
default tools that stay, and repeated names of the base are removed again. -/
def Layerable (base : Option (List String)) (overrides : List String) : Prop :=
  (base = none → overrides ≠ []) ∧
    (base = some [] → overrides = [] ∨
      kept overrides defaultToolNames <+: lastingAdditions overrides) ∧
    ∀ name ∈ base.getD [], isToolModifier name = false →
      (base.getD []).count name ≤ (base.getD [] ++ overrides).countP (removes name) + 1

variable {base overrides : List String}

theorem sessionTools_names (entries : List String) :
    sessionTools (some (names entries)) = resolveDefaultTools entries := by
  simp [sessionTools, getDefaultTools, names, filterMap_map]

theorem mergeDefaultTools_names :
    mergeDefaultTools (some (names base)) (names overrides) =
      if overrides.all isToolModifier then names (base ++ overrides) else names overrides := by
  simp [mergeDefaultTools, names, isModifierValue, Function.comp_def]

theorem filter_modifiers (h : overrides.all isToolModifier = true) :
    overrides.filter (fun entry => !isToolModifier entry) = [] := by
  simpa [filter_eq_nil_iff] using h

theorem resolve_append (hbase : base ≠ []) (h : overrides.all isToolModifier = true) :
    resolveDefaultTools (base ++ overrides) =
      applyToolModifiers (resolveDefaultTools base) overrides := by
  simp [resolveDefaultTools, applyToolModifiers, filter_modifiers h, hbase]

theorem resolve_modifiers (hne : overrides ≠ []) (h : overrides.all isToolModifier = true) :
    resolveDefaultTools overrides = applyToolModifiers defaultToolNames overrides := by
  simp [resolveDefaultTools, filter_modifiers h, hne]

theorem nodup_applyToolModifiers_iff {tools : List String} (entries : List String) :
    (applyToolModifiers tools entries).Nodup ↔
      ∀ name ∈ tools, tools.count name ≤ entries.countP (removes name) + 1 := by
  rw [nodup_iff_count_le_one]
  constructor
  · exact fun h name _ => (count_applyToolModifiers entries name).mp (h name)
  · intro h name
    rw [count_applyToolModifiers]
    by_cases hin : name ∈ tools
    · exact h name hin
    · rw [count_eq_zero.mpr hin]
      exact Nat.zero_le _

theorem prefix_iff_eq_append {kept additions : List String} (h : additions.Nodup) :
    kept ++ additions.filter (· ∉ kept) = additions ↔ kept <+: additions := by
  constructor
  · exact fun heq => ⟨_, heq⟩
  · rintro ⟨rest, rfl⟩
    have hrest : (kept ++ rest).filter (· ∉ kept) = rest := by
      rw [filter_append, filter_eq_nil_iff.mpr (by simp), nil_append, filter_eq_self]
      exact fun name hname => decide_eq_true fun hin => (nodup_append.mp h).2.2 name hin name hname rfl
    rw [hrest]

theorem layers_iff (base : Option (List String)) (overrides : List String) :
    Layers base overrides ↔
      (overrides.all isToolModifier = true → Layerable base overrides) := by
  have hdefault : ∀ entries, (applyToolModifiers defaultToolNames entries).Nodup := fun entries =>
    (nodup_applyToolModifiers_iff entries).mpr fun name _ =>
      Nat.le_trans (nodup_iff_count_le_one.mp (by decide) name) (Nat.le_add_left _ _)
  by_cases hall : overrides.all isToolModifier = true
  · rw [Layers, if_pos hall, imp_iff_right hall]
    match base with
    | none =>
      have hmerged : mergeDefaultTools (Option.map names none) (names overrides) =
          names overrides := rfl
      rw [hmerged, sessionTools_names]
      by_cases hne : overrides = []
      · subst hne
        simp [Layerable, resolveDefaultTools, applyToolModifiers, sessionTools, getDefaultTools,
          defaultToolNames]
      · rw [resolve_modifiers hne hall]
        exact iff_of_true ⟨rfl, hdefault overrides⟩ ⟨fun _ => hne, nofun, nofun⟩
    | some [] =>
      rw [Option.map_some, mergeDefaultTools_names, if_pos hall, nil_append, sessionTools_names,
        sessionTools_names]
      have hempty : applyToolModifiers (resolveDefaultTools []) overrides =
          lastingAdditions overrides := by
        refine (applyToolModifiers_eq overrides nodup_nil).trans ?_
        simp [kept]
      by_cases hne : overrides = []
      · subst hne
        exact iff_of_true ⟨rfl, nodup_nil⟩ ⟨nofun, fun _ => .inl rfl, nofun⟩
      · rw [hempty, resolve_modifiers hne hall, and_iff_left (hdefault overrides),
          applyToolModifiers_eq overrides (by decide),
          prefix_iff_eq_append (nodup_lastingAdditions overrides)]
        simp [Layerable, hne]
    | some (entry :: entries) =>
      rw [Option.map_some, mergeDefaultTools_names, if_pos hall, sessionTools_names,
        sessionTools_names, ← resolve_append (cons_ne_nil _ _) hall, and_iff_right rfl]
      generalize hbase : entry :: entries = base at *
      have hne : base ≠ [] := hbase ▸ cons_ne_nil _ _
      have hplain : (base ++ overrides).filter (!isToolModifier ·) =
          base.filter (!isToolModifier ·) := by
        rw [filter_append, filter_modifiers hall, append_nil]
      simp only [resolveDefaultTools, hplain, append_eq_nil_iff, hne, false_and, or_false]
      split_ifs with hsome
      · rw [nodup_applyToolModifiers_iff]
        simp only [mem_filter, Bool.not_eq_true']
        refine ⟨fun h => ⟨nofun, fun heq => absurd (Option.some.inj heq) hne,
          fun name hin hname => ?_⟩, fun h name hin => ?_⟩
        · rw [← count_filter (p := fun entry => !isToolModifier entry) (by simpa using hname)]
          exact h name ⟨hin, hname⟩
        · rw [count_filter (by simpa using hin.2)]
          exact h.2.2 name hin.1 hin.2
      · refine iff_of_true (hdefault _) ⟨nofun, fun heq => absurd (Option.some.inj heq) hne,
          fun name hin hname => ?_⟩
        rw [ne_eq, not_not, filter_eq_nil_iff] at hsome
        exact absurd (by simpa using hname) (hsome name hin)
  · rw [Layers, if_neg hall]
    refine iff_of_true ?_ fun h => absurd h hall
    cases base with
    | none => rfl
    | some base => rw [Option.map_some, mergeDefaultTools_names, if_neg hall]

/-- The default tools come back when the base has no tools. -/
theorem layers_fails : ¬ Layers (some []) ["+grep"] := by
  rw [Layers, if_pos (by decide)]
  decide

end Layers

end Pidrei.DefaultTools
