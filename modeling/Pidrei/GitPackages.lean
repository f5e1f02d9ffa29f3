import Pidrei.GitUrl
import Pidrei.Library.FileTree

/-!
Git packages on disk. The checkout of a source lies below the git root of its scope, at its host
and path; installing clones into it or updates it, and a failed installation and a removal delete
it together with the parents that are left empty. What git itself leaves in the checkout is an
input.
-/
namespace Pidrei.GitPackages

open GitUrl FileTree

abbrev Path := List Text

abbrev Files := Tree Text Text

inductive Scope where
  | user
  | project

inductive PackageSource where
  | localPath (path : Text)
  | git (source : GitSource)
  deriving DecidableEq

/-- A name that `normpath` keeps as it is. -/
def IsName (name : Text) : Prop :=
  name ≠ [] ∧ name ≠ ['.'] ∧ name ≠ ['.', '.'] ∧ '/' ∉ name

instance : DecidablePred IsName := fun name =>
  inferInstanceAs (Decidable (name ≠ [] ∧ name ≠ ['.'] ∧ name ≠ ['.', '.'] ∧ '/' ∉ name))

/-- What `os.path.abspath` returns. -/
structure AbsolutePath where
  names : Path
  isName : ∀ name ∈ names, IsName name

structure Manager where
  cwd : AbsolutePath
  agentDir : AbsolutePath
  isProjectTrusted : Bool

def isLocalPath (value : Text) : Bool :=
  ! ["npm:", "git:", "github:", "http:", "https:", "ssh:", "builtin:"].any
    (·.toList.isPrefixOf (PythonText.stripped value))

def parseSource (tables : Tables) (source : Text) : Except Text PackageSource :=
  if "npm:".toList.isPrefixOf source then
    .error ("npm package sources are not supported: ".toList ++ source ++
      ". Use a git source (git:… or an https:// URL) or a local path.".toList)
  else if isLocalPath source then .ok (.localPath source)
  else
    match parseGitUrl tables source with
    | some parsed => .ok (.git parsed)
    | none => .ok (.localPath source)

/-- `_get_package_identity` of a git source. -/
def packageIdentity (source : GitSource) : Text :=
  "git:".toList ++ source.host ++ '/' :: source.path

section Paths

/-- `normpath` of an absolute path, given by the parts between its slashes. -/
def normalize (parts : List Text) : Path :=
  parts.foldl (fun names part =>
    if part = [] ∨ part = ['.'] then names
    else if part = ['.', '.'] then names.dropLast
    else names ++ [part]) []

/-- `os.path.join`, by the parts between the slashes. -/
def join (parts : List Text) (more : Text) : List Text :=
  if more.head? = some '/' then more.splitOn '/' else parts ++ more.splitOn '/'

def renderPath (path : Path) : Text := path.flatMap ('/' :: ·)

def resolveManagedPath (root : Path) (parts : List Text) : Except Text Path :=
  let resolvedRoot := normalize root
  let resolvedPath := normalize (parts.foldl join resolvedRoot)
  if resolvedPath ≠ resolvedRoot ∧ ¬ (resolvedRoot ≠ [] ∧ resolvedRoot <+: resolvedPath) then
    .error ("Refusing to use path outside package install root: ".toList ++ renderPath resolvedPath)
  else .ok resolvedPath

variable (manager : Manager)

def gitInstallRoot : Scope → Except Text Path
  | .user => .ok (manager.agentDir.names ++ ["git".toList])
  | .project =>
    if manager.isProjectTrusted then .ok (manager.cwd.names ++ [".pidrei".toList, "git".toList])
    else .error "Project is not trusted; refusing to access project package storage".toList

def gitInstallPath (source : GitSource) (scope : Scope) : Except Text Path := do
  let installRoot ← gitInstallRoot manager scope
  resolveManagedPath installRoot [source.host, source.path]

end Paths

/-- `shutil.rmtree` with errors ignored: nothing but a directory is removed. -/
def rmtree (files : Files) (path : Path) : Files :=
  if files.isDirAt path then files.remove path else files

/-- The loop of `_prune_empty_git_parents_blocking`, which goes up one directory a turn. -/
def pruneFrom (root : Path) : Nat → Files → Path → Files
  | 0, files, _ => files
  | fuel + 1, files, current =>
    if root <+: current ∧ current ≠ root then
      match files.get current with
      | none => pruneFrom root fuel files current.dropLast
      | some (.dir []) => pruneFrom root fuel (rmtree files current) current.dropLast
      | some _ => files
    else files

def pruneEmptyGitParents (files : Files) (target root : Path) : Files :=
  pruneFrom root target.length files target.dropLast

/-- `_ensure_git_ignore_blocking`; `none` where a file stands in the way. -/
def ensureGitIgnore (files : Files) (root : Path) : Option Files :=
  (files.makeDirs root).map fun made =>
    if made.exists? (root ++ [".gitignore".toList]) then made
    else made.put (root ++ [".gitignore".toList]) (.file "*\n".toList)

/-- What git leaves at the checkout, and whether its commands succeed. -/
structure GitRun where
  left : Option Files
  succeeds : Bool

def GitRun.apply (run : GitRun) (files : Files) (target : Path) : Files :=
  match run.left with
  | some checkout => files.put target checkout
  | none => files

/-- `_install_git`, with what it leaves on disk whether or not it raises. -/
def installGit (files : Files) (root target : Path) (run : GitRun) : Files :=
  if files.exists? target then run.apply files target
  else
    match ensureGitIgnore files root with
    | none => files
    | some rooted =>
      match rooted.makeDirs target.dropLast with
      | none => rooted
      | some made =>
        let cloned := run.apply made target
        if run.succeeds then cloned
        else pruneEmptyGitParents (rmtree cloned target) target root

/-- `_remove_git` -/
def removeGit (files : Files) (root target : Path) : Files :=
  if files.exists? target then pruneEmptyGitParents (rmtree files target) target root else files

inductive Operation where
  | install (source : GitSource) (run : GitRun)
  | remove (source : GitSource)

def Operation.source : Operation → GitSource
  | .install source _ | .remove source => source

/-- An operation of one scope; where there is no install path it raises before it does anything. -/
def perform (manager : Manager) (scope : Scope) (files : Files) (operation : Operation) : Files :=
  match gitInstallRoot manager scope, gitInstallPath manager operation.source scope with
  | .ok root, .ok target =>
    match operation with
    | .install _ run => installGit files root target run
    | .remove _ => removeGit files root target
  | _, _ => files

end Pidrei.GitPackages
