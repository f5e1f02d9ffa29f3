import Pidrei.GitPackages

/-!
When the checkouts of git packages stay clear of each other. A checkout lies at the host and the
parts of the path, without the empty ones and the single dots. Packages of one scope therefore
keep apart exactly where these names part ways, and then no operation on one of them touches the
checkout of another or removes the git root.
-/
namespace Pidrei.GitPackages

open GitUrl FileTree Tree List

/-- A part that has a directory of its own. -/
def significant (part : Text) : Bool := part ≠ [] && part ≠ ['.']

def names (source : GitSource) : Path :=
  (source.host :: source.path.splitOn '/').filter significant

section Parsing

/-- What every source has that was built. -/
structure Safe (source : GitSource) : Prop where
  host : source.host ≠ [] ∧ '/' ∉ source.host ∧ source.host ≠ ['.', '.']
  path : source.path.head? ≠ some '/' ∧ ∀ part ∈ source.path.splitOn '/', part ≠ ['.', '.']

theorem safe_part {value : Text} {allowSlash : Bool}
    (h : hasUnsafeGitInstallPart value allowSlash = false) :
    (allowSlash = false → '/' ∉ value) ∧ ∀ part ∈ value.splitOn '/', part ≠ ['.', '.'] := by
  unfold hasUnsafeGitInstallPart at h
  split at h
  · cases h
  · simp only [any_cons, Bool.or_eq_false_iff] at h
    obtain ⟨⟨⟨-, hslash⟩, hdots⟩, -⟩ := h
    refine ⟨fun hallow => ?_, fun part hpart heq => ?_⟩
    · simpa [hallow] using hslash
    · rw [contains_eq_mem, decide_eq_false_iff_not] at hdots
      exact hdots (heq ▸ hpart)

variable {text url : Text}

theorem splitOn_of_not_mem (h : '/' ∉ text) : text.splitOn '/' = [text] := by
  induction text with
  | nil => rfl
  | cons c text ih =>
    obtain ⟨hc, htext⟩ := not_or.mp (mem_cons.not.mp h)
    rw [splitOn_cons_eq_if_modifyHead, ih htext]
    simp [Ne.symm hc]

variable {source : GitSource} {tables : Tables}

theorem safe_of_build {repo host path : Text} {ref : Option Text}
    (h : buildGitSource repo host path ref = some source) : Safe source := by
  unfold buildGitSource at h
  split at h
  · cases h
  · dsimp only at h
    split at h
    · cases h
    · next hempty =>
      split at h
      · cases h
      · next hunsafe =>
        cases h
        simp only [Bool.or_eq_true, not_or, Bool.not_eq_true] at hempty hunsafe
        obtain ⟨hslash, hdots⟩ := safe_part hunsafe.1
        refine ⟨⟨?_, hslash rfl, ?_⟩, ?_, (safe_part hunsafe.2).2⟩
        · simpa using hempty.1.1
        · intro heq
          rw [splitOn_of_not_mem (hslash rfl)] at hdots
          exact hdots _ mem_cons_self heq
        · intro hhead
          have hfalse := head?_dropWhile_not (· = '/') (dropGitSuffix path)
          rw [hhead] at hfalse
          simp at hfalse

theorem safe_of_hosted (h : parseHostedShorthand tables url = some source) : Safe source := by
  unfold parseHostedShorthand at h
  dsimp only at h
  split at h
  · cases h
  · split at h
    · split at h
      · cases h
      · exact safe_of_build h
    · cases h

theorem safe_of_generic (h : parseGenericGitUrl tables url = some source) : Safe source := by
  unfold parseGenericGitUrl at h
  dsimp only at h
  split at h
  · exact safe_of_build h
  · split at h
    · obtain ⟨parsed, -, hbuild⟩ := Option.bind_eq_some_iff.mp h
      exact safe_of_build hbuild
    · obtain ⟨⟨host, path⟩, -, hbuild⟩ := Option.bind_eq_some_iff.mp h
      dsimp only at hbuild
      split at hbuild
      · cases hbuild
      · exact safe_of_build hbuild

theorem safe_of_parse (h : parseGitUrl tables text = some source) : Safe source := by
  unfold parseGitUrl at h
  dsimp only at h
  split_ifs at h
  · rcases Option.or_eq_some_iff.mp h with hhosted | ⟨-, hgeneric⟩
    · exact safe_of_hosted hhosted
    · exact safe_of_generic hgeneric
  · exact safe_of_generic h

def Accepted (tables : Tables) (source : GitSource) : Prop :=
  ∃ text, parseSource tables text = .ok (.git source)

theorem Accepted.safe (h : Accepted tables source) : Safe source := by
  obtain ⟨text, h⟩ := h
  unfold parseSource at h
  split at h
  · cases h
  · split at h
    · cases h
    · split at h
      · next parsed hparsed =>
        obtain rfl := PackageSource.git.inj (Except.ok.inj h)
        exact safe_of_parse hparsed
      · cases h

end Parsing

section Paths

theorem normalize_eq_filter {parts : List Text} (h : ∀ part ∈ parts, part ≠ ['.', '.']) :
    normalize parts = parts.filter significant := by
  have hfold : ∀ (rest : List Text) (front : Path), (∀ part ∈ rest, part ≠ ['.', '.']) →
      rest.foldl (fun names part =>
        if part = [] ∨ part = ['.'] then names
        else if part = ['.', '.'] then names.dropLast
        else names ++ [part]) front = front ++ rest.filter significant := by
    intro rest
    induction rest with
    | nil => simp
    | cons part rest ih =>
      intro front hrest
      obtain ⟨hpart, hrest⟩ := forall_mem_cons.mp hrest
      rw [foldl_cons, ih _ hrest]
      by_cases hempty : part = [] ∨ part = ['.']
      · have hnot : significant part = false := by
          rcases hempty with rfl | rfl <;> rfl
        rw [if_pos hempty, filter_cons_of_neg (by simp [hnot])]
      · have hkept : significant part = true := by simpa [significant] using hempty
        rw [if_neg hempty, if_neg hpart, filter_cons_of_pos hkept]
        simp
  exact (hfold parts [] h).trans (nil_append _)

theorem significant_of_isName {name : Text} (h : IsName name) : significant name = true := by
  simp [significant, h.1, h.2.1]

theorem filter_of_isName {path : Path} (h : ∀ name ∈ path, IsName name) :
    path.filter significant = path := by
  rw [filter_eq_self]
  exact fun name hname => significant_of_isName (h name hname)

variable {source : GitSource}

theorem resolveManagedPath_safe (hsafe : Safe source) {root : Path}
    (hroot : ∀ name ∈ root, IsName name) (hne : root ≠ []) :
    resolveManagedPath root [source.host, source.path] = .ok (root ++ names source) := by
  have hdots : ∀ part ∈ root ++ (source.host :: source.path.splitOn '/'), part ≠ ['.', '.'] := by
    intro part hpart
    rcases mem_append.mp hpart with hpart | hpart
    · exact (hroot part hpart).2.2.1
    · rcases mem_cons.mp hpart with rfl | hpart
      · exact hsafe.host.2.2
      · exact hsafe.path.2 part hpart
  have hresolved : normalize root = root := by
    rw [normalize_eq_filter fun part hpart => (hroot part hpart).2.2.1, filter_of_isName hroot]
  have hhost : source.host.head? ≠ some '/' := by
    intro hhead
    exact hsafe.host.2.1 (mem_of_mem_head? hhead)
  have hjoin : [source.host, source.path].foldl join root =
      root ++ (source.host :: source.path.splitOn '/') := by
    simp only [foldl_cons, foldl_nil, join, if_neg hhost, if_neg hsafe.path.1,
      splitOn_of_not_mem hsafe.host.2.1, append_assoc, singleton_append]
  unfold resolveManagedPath
  dsimp only
  rw [hresolved, hjoin, normalize_eq_filter hdots, filter_append, filter_of_isName hroot]
  rw [if_neg]
  · rfl
  · rintro ⟨-, houtside⟩
    exact houtside ⟨hne, prefix_append _ _⟩

variable {manager : Manager} {scope : Scope}

def gitRoot (manager : Manager) : Scope → Path
  | .user => manager.agentDir.names ++ ["git".toList]
  | .project => manager.cwd.names ++ [".pidrei".toList, "git".toList]

theorem gitRoot_isName (manager : Manager) (scope : Scope) :
    ∀ name ∈ gitRoot manager scope, IsName name := by
  have hgit : IsName "git".toList := by decide
  have hconfig : IsName ".pidrei".toList := by decide
  intro name hname
  cases scope with
  | user =>
    rcases mem_append.mp hname with hname | hname
    · exact manager.agentDir.isName name hname
    · rw [mem_singleton.mp hname]
      exact hgit
  | project =>
    rcases mem_append.mp hname with hname | hname
    · exact manager.cwd.isName name hname
    · rcases mem_cons.mp hname with rfl | hname
      · exact hconfig
      · rw [mem_singleton.mp hname]
        exact hgit

theorem gitRoot_ne_nil (manager : Manager) (scope : Scope) : gitRoot manager scope ≠ [] := by
  cases scope <;> simp [gitRoot]

/-- The scope may be used: it is the user's, or the project is trusted. -/
def Usable (manager : Manager) (scope : Scope) : Prop :=
  scope = .project → manager.isProjectTrusted = true

theorem gitInstallRoot_eq (h : Usable manager scope) :
    gitInstallRoot manager scope = .ok (gitRoot manager scope) := by
  cases scope with
  | user => rfl
  | project => simp [gitInstallRoot, gitRoot, h rfl]

theorem gitInstallPath_eq (h : Usable manager scope) (hsafe : Safe source) :
    gitInstallPath manager source scope = .ok (gitRoot manager scope ++ names source) := by
  unfold gitInstallPath
  rw [gitInstallRoot_eq h]
  exact resolveManagedPath_safe hsafe (gitRoot_isName manager scope) (gitRoot_ne_nil manager scope)

theorem append_sep_inj {front back rest more : Text} (hfront : '/' ∉ front) (hback : '/' ∉ back) :
    front ++ '/' :: rest = back ++ '/' :: more ↔ front = back ∧ rest = more := by
  constructor
  · intro h
    have hbefore := congrArg (takeWhile (· ≠ '/')) h
    have htake : ∀ {text : Text} (later : Text), '/' ∉ text →
        (text ++ '/' :: later).takeWhile (· ≠ '/') = text := by
      intro text later htext
      have hall : ∀ c ∈ text, decide (c ≠ '/') = true := by
        intro c hc
        rw [decide_eq_true_iff]
        rintro rfl
        exact htext hc
      rw [takeWhile_append_of_pos hall]
      simp
    rw [htake rest hfront, htake more hback] at hbefore
    subst hbefore
    exact ⟨rfl, (cons.inj (append_cancel_left h)).2⟩
  · rintro ⟨rfl, rfl⟩
    rfl

theorem packageIdentity_eq_iff {x y : GitSource} (hx : Safe x) (hy : Safe y) :
    packageIdentity x = packageIdentity y ↔ x.host = y.host ∧ x.path = y.path := by
  unfold packageIdentity
  rw [append_assoc, append_assoc, append_cancel_left_eq, append_sep_inj hx.host.2.1 hy.host.2.1]

end Paths

section Operations

variable {files : Files} {root target other : Path} {node : Files}

/-- What an operation at a target leaves alone: the checkouts that part ways with it, and the
directories at and above the root. -/
structure Spares (root target : Path) (before after : Files) : Prop where
  keeps : ∀ other node, root <+: other → other ≠ root → Diverge other target →
    before.get other = some node → after.get other = some node
  root : before.isDirAt root = true → after.isDirAt root = true

theorem Spares.refl (root target : Path) (files : Files) : Spares root target files files :=
  ⟨fun _ _ _ _ _ h => h, fun h => h⟩

variable {before after : Files}

theorem Spares.trans {middle : Files} (h : Spares root target before middle)
    (hafter : Spares root target middle after) : Spares root target before after :=
  ⟨fun other node hbelow hne hapart hget =>
    hafter.keeps other node hbelow hne hapart (h.keeps other node hbelow hne hapart hget),
    fun hdir => hafter.root (h.root hdir)⟩

variable {path : Path}

theorem spares_of_touches (h : Touches path before after)
    (hroot : ¬ path <+: root)
    (hpath : ∀ other node, Diverge other target → before.get other = some node →
      ¬ other <+: path ∧ ¬ path <+: other) : Spares root target before after where
  keeps other node _ _ hapart hget :=
    h.keeps other node (hpath other node hapart hget).1 (hpath other node hapart hget).2 hget
  root hdir := h.dirs root hroot hdir

theorem not_prefix_root (hbelow : root <+: target) (hne : target ≠ root) : ¬ target <+: root := by
  intro h
  exact hne (h.eq_of_length_le hbelow.length_le)

theorem spares_at_target (h : Touches target before after) (hbelow : root <+: target)
    (hne : target ≠ root) : Spares root target before after :=
  spares_of_touches h (not_prefix_root hbelow hne) fun _ _ hapart _ => diverge_iff.mp hapart

theorem spares_rmtree (files : Files) (hbelow : root <+: target) (hne : target ≠ root) :
    Spares root target files (rmtree files target) := by
  unfold rmtree
  split
  · exact spares_at_target (touches_remove files target) hbelow hne
  · exact .refl root target files

theorem spares_apply (run : GitRun) (files : Files) (hbelow : root <+: target)
    (hne : target ≠ root) : Spares root target files (run.apply files target) := by
  unfold GitRun.apply
  split
  · exact spares_at_target (touches_put files target _) hbelow hne
  · exact .refl root target files

theorem spares_prune (fuel : ℕ) (files : Files) (current : Path) (hcurrent : current <+: target) :
    Spares root target files (pruneFrom root fuel files current) := by
  induction fuel generalizing files current with
  | zero => exact .refl root target files
  | succ fuel ih =>
    have hup : current.dropLast <+: target := ( dropLast_prefix current).trans hcurrent
    unfold pruneFrom
    split
    next hbelow =>
      split
      · exact ih files current.dropLast hup
      next hempty =>
        refine Spares.trans ?_ (ih _ current.dropLast hup)
        unfold rmtree
        split
        · refine spares_of_touches (touches_remove files current)
            (not_prefix_root hbelow.1 hbelow.2) fun other node hapart hget => ?_
          refine ⟨fun hother => (diverge_iff.mp hapart).1 (hother.trans hcurrent), fun hother => ?_⟩
          obtain ⟨more, rfl⟩ := hother
          rw [get_eq_empty_dir hempty hget, append_nil] at hapart
          exact (diverge_iff.mp hapart).1 hcurrent
        · exact .refl root target files
      · exact .refl root target files
    next => exact .refl root target files

theorem spares_makeDirs (h : before.makeDirs path = some after) (hpath : path <+: target) :
    Spares root target before after where
  keeps other node _ _ hapart hget :=
    (makeDirs_keeps h).1 other node
      (fun hother => (diverge_iff.mp hapart).1 (hother.trans hpath)) hget
  root hdir := (makeDirs_keeps h).2 root hdir

theorem spares_ignoreFile (h : ensureGitIgnore before root = some after)
    (hbelow : root <+: target) : Spares root target before after := by
  obtain ⟨made, hmade, rfl⟩ := Option.map_eq_some_iff.mp h
  refine (spares_makeDirs hmade hbelow).trans ?_
  split
  · exact .refl root target made
  next habsent =>
    have hnone : made.get (root ++ [".gitignore".toList]) = none := by
      simpa [exists?] using habsent
    have hfile : ¬ root ++ [".gitignore".toList] <+: root := by
      intro h
      have hlength := h.length_le
      simp only [length_append, length_singleton] at hlength
      omega
    constructor
    · intro other node hother hne _ hget
      refine (touches_put made _ _).keeps other node (fun hprefix => ?_) (fun hprefix => ?_) hget
      · rcases prefix_concat_iff.mp hprefix with heq | hinside
        · rw [heq, hnone] at hget
          cases hget
        · exact hne (hinside.eq_of_length_le hother.length_le)
      · obtain ⟨more, rfl⟩ := hprefix
        obtain ⟨middle, hmiddle, -⟩ := get_append hget
        rw [hnone] at hmiddle
        cases hmiddle
    · exact (touches_put made _ _).dirs root hfile

theorem spares_install (files : Files) (run : GitRun) (hbelow : root <+: target)
    (hne : target ≠ root) : Spares root target files (installGit files root target run) := by
  have hparent := dropLast_prefix target
  unfold installGit
  split
  · exact spares_apply run files hbelow hne
  · split
    · exact .refl root target files
    next rooted hrooted =>
      refine (spares_ignoreFile hrooted hbelow).trans ?_
      split
      · exact .refl root target rooted
      next made hmade =>
        refine (spares_makeDirs hmade hparent).trans ((spares_apply run made hbelow hne).trans ?_)
        dsimp only
        split
        · exact .refl root target _
        · exact (spares_rmtree _ hbelow hne).trans (spares_prune _ _ _ hparent)

theorem spares_remove (files : Files) (hbelow : root <+: target) (hne : target ≠ root) :
    Spares root target files (removeGit files root target) := by
  unfold removeGit
  split
  · exact (spares_rmtree files hbelow hne).trans (spares_prune _ _ _ ( dropLast_prefix target))
  · exact .refl root target files

end Operations

section Packages

variable (manager : Manager) (scope : Scope)

/-- Each of two sources has a checkout strictly below the git root; the checkouts are one exactly
if the packages are one, and otherwise neither lies inside the other. -/
def Separate (x y : GitSource) : Prop :=
  ∃ root pathX pathY, gitInstallRoot manager scope = .ok root ∧
    gitInstallPath manager x scope = .ok pathX ∧ gitInstallPath manager y scope = .ok pathY ∧
    (root <+: pathX ∧ pathX ≠ root) ∧ (root <+: pathY ∧ pathY ≠ root) ∧
    (pathX = pathY ↔ packageIdentity x = packageIdentity y) ∧
    (packageIdentity x ≠ packageIdentity y → ¬ pathX <+: pathY ∧ ¬ pathY <+: pathX)

/-- No run of operations removes the git root or touches the checkout of another package. -/
def LeavesOthers (sources : List GitSource) : Prop :=
  ∀ (operations : List Operation) (files : Files), (∀ op ∈ operations, op.source ∈ sources) →
    ∀ root, gitInstallRoot manager scope = .ok root →
    (files.isDirAt root = true →
      (operations.foldl (perform manager scope) files).isDirAt root = true) ∧
    ∀ y ∈ sources, (∀ op ∈ operations, packageIdentity op.source ≠ packageIdentity y) →
      ∀ path node, gitInstallPath manager y scope = .ok path → files.get path = some node →
        (operations.foldl (perform manager scope) files).get path = some node

/-- The condition on two sources: each has a part that is neither empty nor a dot, and unless host
and path agree they differ in such a part that both have at one place. -/
def Distinct (x y : GitSource) : Prop :=
  names x ≠ [] ∧ names y ≠ [] ∧
    ((x.host = y.host ∧ x.path = y.path) ∨ Diverge (names x) (names y))

instance (x y : GitSource) : Decidable (Distinct x y) := by
  unfold Distinct
  infer_instance

variable {manager scope} {x y : GitSource}

theorem names_congr (h : x.host = y.host ∧ x.path = y.path) : names x = names y := by
  unfold names
  rw [h.1, h.2]

theorem separate_iff (husable : Usable manager scope) (hx : Safe x) (hy : Safe y) :
    Separate manager scope x y ↔ Distinct x y := by
  have hidentity := packageIdentity_eq_iff hx hy
  unfold Separate Distinct
  rw [gitInstallRoot_eq husable, gitInstallPath_eq husable hx, gitInstallPath_eq husable hy]
  constructor
  · rintro ⟨root, pathX, pathY, hroot, hpathX, hpathY, hbelowX, hbelowY, heq, hapart⟩
    cases hroot
    cases hpathX
    cases hpathY
    refine ⟨fun hnil => hbelowX.2 (by rw [hnil, append_nil]),
      fun hnil => hbelowY.2 (by rw [hnil, append_nil]), ?_⟩
    by_cases hsame : packageIdentity x = packageIdentity y
    · exact .inl (hidentity.mp hsame)
    · exact .inr (diverge_append.mp (diverge_iff.mpr (hapart hsame)))
  · rintro ⟨hnamesX, hnamesY, hcases⟩
    refine ⟨_, _, _, rfl, rfl, rfl, ⟨prefix_append _ _, by simpa using hnamesX⟩,
      ⟨prefix_append _ _, by simpa using hnamesY⟩, ?_, ?_⟩
    · rw [append_cancel_left_eq, hidentity]
      refine ⟨fun heq => ?_, names_congr⟩
      rcases hcases with hsame | hdiverge
      · exact hsame
      · rw [heq] at hdiverge
        exact absurd (prefix_refl _) (diverge_iff.mp hdiverge).1
    · intro hne
      rcases hcases with hsame | hdiverge
      · exact absurd (hidentity.mpr hsame) hne
      · exact diverge_iff.mp (diverge_append.mpr hdiverge)

theorem spares_perform (husable : Usable manager scope) (files : Files) {operation : Operation}
    (hsafe : Safe operation.source) (hnames : names operation.source ≠ []) :
    Spares (gitRoot manager scope) (gitRoot manager scope ++ names operation.source) files
      (perform manager scope files operation) := by
  have hbelow : gitRoot manager scope <+: gitRoot manager scope ++ names operation.source :=
    prefix_append _ _
  have hne : gitRoot manager scope ++ names operation.source ≠ gitRoot manager scope := by
    simpa using hnames
  unfold perform
  rw [gitInstallRoot_eq husable, gitInstallPath_eq husable hsafe]
  cases operation with
  | install source run => exact spares_install files run hbelow hne
  | remove source => exact spares_remove files hbelow hne

theorem leavesOthers_of_distinct (husable : Usable manager scope) {sources : List GitSource}
    (hsafe : ∀ source ∈ sources, Safe source)
    (h : ∀ x ∈ sources, ∀ y ∈ sources, Distinct x y) : LeavesOthers manager scope sources := by
  intro operations files hsources root hroot
  rw [gitInstallRoot_eq husable] at hroot
  cases hroot
  induction operations generalizing files with
  | nil => exact ⟨id, fun _ _ _ _ _ _ h => h⟩
  | cons op rest ih =>
    obtain ⟨hop, hrest⟩ := forall_mem_cons.mp hsources
    have hspares := spares_perform husable files (hsafe _ hop) (h _ hop _ hop).1
    obtain ⟨hdir, hkeeps⟩ := ih (perform manager scope files op) hrest
    refine ⟨fun hfiles => hdir (hspares.root hfiles), ?_⟩
    intro y hy hothers path node hpath hget
    obtain ⟨hother, hothers⟩ := forall_mem_cons.mp hothers
    refine hkeeps y hy hothers path node hpath ?_
    rw [gitInstallPath_eq husable (hsafe y hy)] at hpath
    cases hpath
    obtain ⟨-, hnames, hcases⟩ := h _ hop y hy
    have hdiverge : Diverge (names op.source) (names y) := by
      rcases hcases with hsame | hdiverge
      · exact absurd ((packageIdentity_eq_iff (hsafe _ hop) (hsafe y hy)).mpr hsame) hother
      · exact hdiverge
    refine hspares.keeps _ node (prefix_append _ _) (by simpa using hnames) ?_ hget
    exact diverge_append.mpr (diverge_iff.mpr (diverge_iff.mp hdiverge).symm)

/-- The packages of a scope keep out of each other's way, on paper and in every run of
installations and removals, exactly where every two of their sources are distinct. -/
theorem packages_keep_apart (tables : Tables) (husable : Usable manager scope)
    {sources : List GitSource} (haccepted : ∀ source ∈ sources, Accepted tables source) :
    (∀ x ∈ sources, ∀ y ∈ sources, Separate manager scope x y) ∧
        LeavesOthers manager scope sources ↔
      ∀ x ∈ sources, ∀ y ∈ sources, Distinct x y := by
  have hsafe := fun source hsource => (haccepted source hsource).safe
  constructor
  · rintro ⟨hseparate, -⟩ x hx y hy
    exact (separate_iff husable (hsafe x hx) (hsafe y hy)).mp (hseparate x hx y hy)
  · intro h
    refine ⟨fun x hx y hy => ?_, leavesOthers_of_distinct husable hsafe h⟩
    exact (separate_iff husable (hsafe x hx) (hsafe y hy)).mpr (h x hx y hy)

end Packages

/-- Tables that answer for ASCII texts without brackets. -/
def sampleTables : Tables := ⟨List.map Char.toLower, id, fun _ => false⟩

def sampleManager : Manager :=
  ⟨⟨["work".toList], by decide⟩, ⟨["agent".toList], by decide⟩, true⟩

def sourceAt (repo host path : String) : GitSource := ⟨repo.toList, host.toList, path.toList, none⟩

def app : GitSource := sourceAt "https://gitlab.com/group/app" "gitlab.com" "group/app"

def plugin : GitSource :=
  sourceAt "https://gitlab.com/group/app/plugin" "gitlab.com" "group/app/plugin"

def tool : GitSource := sourceAt "https://github.com/user/tool" "github.com" "user/tool"

def toolSlash : GitSource := sourceAt "https://github.com/user/tool/" "github.com" "user/tool/"

def dots : GitSource := sourceAt "https://././." "." "./."

theorem parse_samples :
    parseSource sampleTables "git:gitlab.com/group/app".toList = .ok (.git app) ∧
    parseSource sampleTables "git:gitlab.com/group/app/plugin".toList = .ok (.git plugin) ∧
    parseSource sampleTables "https://github.com/user/tool".toList = .ok (.git tool) ∧
    parseSource sampleTables "https://github.com/user/tool/".toList = .ok (.git toolSlash) ∧
    parseSource sampleTables "git:././.".toList = .ok (.git dots) := by
  decide +kernel

/-- The checkout of one package inside that of another. -/
def nestedFiles : Files :=
  .dir [("agent".toList, .dir [("git".toList, .dir [("gitlab.com".toList, .dir [("group".toList,
    .dir [("app".toList, .dir [("plugin".toList, .dir [])])])])])])]

theorem packages_keep_apart_sample :
    (∀ x ∈ [app, tool], ∀ y ∈ [app, tool], Separate sampleManager .user x y) ∧
      LeavesOthers sampleManager .user [app, tool] := by
  have husable : Usable sampleManager .user := nofun
  have hdistinct : ∀ x ∈ [app, tool], ∀ y ∈ [app, tool], Distinct x y := by decide
  refine (packages_keep_apart sampleTables husable fun source hsource => ?_).mpr hdistinct
  rcases mem_cons.mp hsource with rfl | hsource
  · exact ⟨_, parse_samples.1⟩
  · rw [mem_singleton.mp hsource]
    exact ⟨_, parse_samples.2.2.1⟩

/-- The checkout of a repository of a subgroup lies inside that of the group's repository, and
is removed with it; a slash at the end makes another package of one checkout; and a source of dots
is installed as the git root itself. -/
theorem packages_collide :
    (Accepted sampleTables app ∧ Accepted sampleTables plugin ∧
      ¬ Separate sampleManager .user app plugin ∧
      ¬ LeavesOthers sampleManager .user [app, plugin]) ∧
    (Accepted sampleTables tool ∧ Accepted sampleTables toolSlash ∧
      ¬ Separate sampleManager .user tool toolSlash) ∧
    Accepted sampleTables dots ∧
      gitInstallPath sampleManager dots .user = gitInstallRoot sampleManager .user := by
  have husable : Usable sampleManager .user := nofun
  have happ : Accepted sampleTables app := ⟨_, parse_samples.1⟩
  have hplugin : Accepted sampleTables plugin := ⟨_, parse_samples.2.1⟩
  have htool : Accepted sampleTables tool := ⟨_, parse_samples.2.2.1⟩
  have hslash : Accepted sampleTables toolSlash := ⟨_, parse_samples.2.2.2.1⟩
  refine ⟨⟨happ, hplugin, ?_, ?_⟩, ⟨htool, hslash, ?_⟩, ⟨_, parse_samples.2.2.2.2⟩, by decide⟩
  · rw [separate_iff husable happ.safe hplugin.safe]
    decide
  · intro h
    have hpath := gitInstallPath_eq husable hplugin.safe
    obtain ⟨node, hnode⟩ : ∃ node, nestedFiles.get
        (gitRoot sampleManager .user ++ names plugin) = some node := by
      rw [← Option.isSome_iff_exists]
      decide
    obtain ⟨-, hkeeps⟩ := h [.remove app] nestedFiles (by simp [Operation.source]) _
      (gitInstallRoot_eq husable)
    have hafter := hkeeps plugin (by simp) (by
      intro op hop
      rw [mem_singleton.mp hop]
      decide) _ node hpath hnode
    have hgone : (([Operation.remove app].foldl (perform sampleManager .user) nestedFiles).get
        (gitRoot sampleManager .user ++ names plugin)).isSome = false := by
      decide
    rw [hafter] at hgone
    cases hgone
  · rw [separate_iff husable htool.safe hslash.safe]
    decide

end Pidrei.GitPackages
