import Pidrei.Library.PythonText
import Pidrei.Library.TextSearch
import Pidrei.Library.Utf8

/-!
Git sources in the forms that are accepted: URLs with a protocol, scp-like addresses, a host with
a path, and the shorthands of known hosts. Each gives a repository, a host and a path, which are
checked before they become a source.
-/
namespace Pidrei.GitUrl

open PythonText (stripped)

abbrev Text := List Char

/-- What Python's tables of characters and its parser of addresses answer. -/
structure Tables where
  lower : Text → Text
  nfkc : Text → Text
  /-- `_check_bracketed_host` accepts what stands between the brackets. -/
  bracketedHost : Text → Bool

/-- The text before and after the first separator. -/
def partition (sep : Char) (text : Text) : Option (Text × Text) :=
  if sep ∈ text then some (text.takeWhile (· ≠ sep), (text.dropWhile (· ≠ sep)).tail) else none

def beforeFirst (sep : Char) (text : Text) : Text := text.takeWhile (· ≠ sep)

def afterLast (sep : Char) (text : Text) : Text := (text.reverse.takeWhile (· ≠ sep)).reverse

def rstripSlash (text : Text) : Text := (text.reverse.dropWhile (· = '/')).reverse

def contains (pattern text : Text) : Bool := (TextSearch.find pattern text).isSome

structure SplitResult where
  scheme : Text
  netloc : Text
  path : Text
  query : Text
  fragment : Text

def isSchemeChar (c : Char) : Bool := c.isAlphanum || c = '+' || c = '-' || c = '.'

def splitScheme (tables : Tables) (url : Text) : Text × Text :=
  match partition ':' url with
  | some (scheme, rest) =>
    if scheme.head?.any Char.isAlpha && scheme.all isSchemeChar then (tables.lower scheme, rest)
    else ([], url)
  | none => ([], url)

def splitNetloc (url : Text) : Text × Text :=
  if ['/', '/'].isPrefixOf url then
    ((url.drop 2).takeWhile (· ∉ ['/', '?', '#']), (url.drop 2).dropWhile (· ∉ ['/', '?', '#']))
  else ([], url)

/-- Brackets come in pairs, with nothing before them and only a port after them. -/
def bracketsValid (tables : Tables) (netloc : Text) : Bool :=
  if '[' ∉ netloc && ']' ∉ netloc then true
  else if '[' ∉ netloc || ']' ∉ netloc then false
  else
    match partition '[' (afterLast '@' netloc) with
    | some (before, bracketed) =>
      let port := ((partition ']' bracketed).map (·.2)).getD []
      before = [] && (port = [] || port.head? = some ':') &&
        tables.bracketedHost (beforeFirst ']' bracketed)
    | none => tables.bracketedHost (beforeFirst ':' (afterLast '@' netloc))

/-- `_checknetloc`: no character stands for a separator under NFKC. -/
def netlocValid (tables : Tables) (netloc : Text) : Bool :=
  let kept := netloc.filter (· ∉ ['@', ':', '#', '?'])
  netloc.all (·.toNat < 128) || tables.nfkc kept = kept ||
    (tables.nfkc kept).all (· ∉ ['/', '?', '#', '@', ':'])

def cutAt (sep : Char) (text : Text) : Text × Text := (partition sep text).getD (text, [])

/-- `urllib.parse.urlsplit`; `none` is a ValueError. -/
def urlsplit (tables : Tables) (source : Text) : Option SplitResult :=
  let url := (source.dropWhile (·.toNat ≤ 32)).filter (· ∉ ['\t', '\r', '\n'])
  let (scheme, url) := splitScheme tables url
  let (netloc, url) := splitNetloc url
  let (url, fragment) := cutAt '#' url
  let (path, query) := cutAt '?' url
  if bracketsValid tables netloc && netlocValid tables netloc then
    some ⟨scheme, netloc, path, query, fragment⟩
  else none

/-- `hostname`, with the empty text where there is none. -/
def SplitResult.hostname (tables : Tables) (parsed : SplitResult) : Text :=
  let hostinfo := afterLast '@' parsed.netloc
  let name := match partition '[' hostinfo with
    | some (_, bracketed) => beforeFirst ']' bracketed
    | none => beforeFirst ':' hostinfo
  if name = [] then []
  else
    match partition '%' name with
    | some (host, zone) => tables.lower host ++ '%' :: zone
    | none => tables.lower name

def usesNetloc : List Text :=
  ["", "ftp", "http", "gopher", "nntp", "telnet", "imap", "wais", "file", "mms", "https", "shttp",
    "snews", "prospero", "rtsp", "rtsps", "rtspu", "rsync", "svn", "svn+ssh", "sftp", "nfs", "git",
    "git+ssh", "ws", "wss"].map String.toList

def urlunsplit (parts : SplitResult) : Text :=
  let url :=
    if parts.netloc ≠ [] then
      "//".toList ++ parts.netloc ++
        (if parts.path ≠ [] && parts.path.head? ≠ some '/' then '/' :: parts.path else parts.path)
    else if ['/', '/'].isPrefixOf parts.path then "//".toList ++ parts.path
    else if parts.scheme ≠ [] && usesNetloc.contains parts.scheme &&
        (parts.path = [] || parts.path.head? = some '/') then
      "//".toList ++ parts.path
    else parts.path
  (if parts.scheme ≠ [] then parts.scheme ++ [':'] else []) ++ url ++
    (if parts.query ≠ [] then '?' :: parts.query else []) ++
    (if parts.fragment ≠ [] then '#' :: parts.fragment else [])

def isAscii (c : Char) : Bool := c.toNat < 128

def hexValue (c : Char) : Option Nat :=
  if c.isDigit then some (c.toNat - '0'.toNat)
  else if 'a' ≤ c ∧ c ≤ 'f' then some (c.toNat - 'a'.toNat + 10)
  else if 'A' ≤ c ∧ c ≤ 'F' then some (c.toNat - 'A'.toNat + 10)
  else none

/-- The bytes of a run of ASCII characters with its escapes resolved. -/
def unquoteToBytes : Text → List UInt8
  | [] => []
  | [c] => [UInt8.ofNat c.toNat]
  | [c, d] => [UInt8.ofNat c.toNat, UInt8.ofNat d.toNat]
  | c :: high :: low :: rest =>
    match if c = '%' then (hexValue high).bind fun h => (hexValue low).map (16 * h + ·) else none with
    | some byte => UInt8.ofNat byte :: unquoteToBytes rest
    | none => UInt8.ofNat c.toNat :: unquoteToBytes (high :: low :: rest)

def decodeRun (run : Text) : Option Text :=
  if run.all isAscii then Utf8.decodeStrict (unquoteToBytes run) else some run

/-- `urllib.parse.unquote` with strict errors; escapes join to one text in a run of ASCII
characters. -/
def unquote (text : Text) : Option Text :=
  if '%' ∉ text then some text
  else
    ((text.splitBy fun c d => isAscii c == isAscii d).mapM decodeRun).map List.flatten

structure GitSource where
  repo : Text
  host : Text
  path : Text
  ref : Option Text
  deriving DecidableEq

/-- `_SCP_LIKE_RE`: the host and the path. The path ends with its line, which is the last one. -/
def scpLikeMatch (url : Text) : Option (Text × Text) :=
  if "git@".toList.isPrefixOf url then
    match partition ':' (url.drop 4) with
    | some (host, rest) =>
      let path := rest.takeWhile (· ≠ '\n')
      let after := rest.dropWhile (· ≠ '\n')
      if host ≠ [] && path ≠ [] && (after = [] || after = ['\n']) then some (host, path) else none
    | none => none
  else none

/-- A path with a reference behind its first `@`. -/
def cutRef (path : Text) : Option (Text × Text) :=
  (partition '@' path).filter fun (repo, ref) => repo ≠ [] && ref ≠ []

structure RefSplit where
  repo : Text
  ref : Option Text

def splitRef (tables : Tables) (url : Text) : RefSplit :=
  match scpLikeMatch url with
  | some (host, path) =>
    match cutRef path with
    | some (repoPath, ref) => ⟨"git@".toList ++ host ++ ':' :: repoPath, some ref⟩
    | none => ⟨url, none⟩
  | none =>
    if contains "://".toList url then
      match urlsplit tables url with
      | some parsed =>
        match cutRef (parsed.path.dropWhile (· = '/')) with
        | some (repoPath, ref) =>
          ⟨rstripSlash (urlunsplit { parsed with path := '/' :: repoPath }), some ref⟩
        | none => ⟨url, none⟩
      | none => ⟨url, none⟩
    else
      match partition '/' url with
      | some (host, path) =>
        match cutRef path with
        | some (repoPath, ref) => ⟨host ++ '/' :: repoPath, some ref⟩
        | none => ⟨url, none⟩
      | none => ⟨url, none⟩

def hasUnsafeGitInstallPart (value : Text) (allowSlash : Bool) : Bool :=
  match unquote value with
  | none => true
  | some decoded =>
    [value, decoded].any fun candidate =>
      '\x00' ∈ candidate || '\\' ∈ candidate || candidate.head? = some '/' ||
        (!allowSlash && '/' ∈ candidate) || (candidate.splitOn '/').contains ['.', '.']

/-- `re.sub(r"\.git$", "", path)`; the end may be a line break before the end. -/
def dropGitSuffix (path : Text) : Text :=
  if ".git".toList.isSuffixOf path then path.take (path.length - 4)
  else if ".git\n".toList.isSuffixOf path then path.take (path.length - 5) ++ ['\n']
  else path

def buildGitSource (repo host path : Text) (ref : Option Text) : Option GitSource :=
  if path.head? = some '/' then none
  else
    let normalizedPath := (dropGitSuffix path).dropWhile (· = '/')
    if host = [] || normalizedPath = [] || (normalizedPath.splitOn '/').length < 2 then none
    else if hasUnsafeGitInstallPart host false || hasUnsafeGitInstallPart normalizedPath true then
      none
    else some ⟨repo, host, normalizedPath, ref⟩

def parseGenericGitUrl (tables : Tables) (url : Text) : Option GitSource :=
  let split := splitRef tables url
  let repoWithoutRef := split.repo
  match scpLikeMatch repoWithoutRef with
  | some (host, path) => buildGitSource repoWithoutRef host path split.ref
  | none =>
    if ["https://", "http://", "ssh://", "git://"].any (·.toList.isPrefixOf repoWithoutRef) then
      (urlsplit tables repoWithoutRef).bind fun parsed =>
        buildGitSource repoWithoutRef (parsed.hostname tables)
          (parsed.path.dropWhile (· = '/')) split.ref
    else
      (partition '/' repoWithoutRef).bind fun (host, path) =>
        if '.' ∉ host && host ≠ "localhost".toList then none
        else buildGitSource ("https://".toList ++ repoWithoutRef) host path split.ref

def ignoringCase (letter : Char) : List Char :=
  match letter with
  | 's' => ['s', 'S', Char.ofNat 0x17F]
  | 'i' => ['i', 'I', Char.ofNat 0x130, Char.ofNat 0x131]
  | c => [c, c.toUpper]

def startsIgnoringCase : Text → Text → Bool
  | [], _ => true
  | _ :: _, [] => false
  | letter :: pattern, c :: text =>
    (ignoringCase letter).contains c && startsIgnoringCase pattern text

/-- `_PROTOCOL_RE` -/
def protocolMatch (url : Text) : Bool :=
  ["https://", "http://", "ssh://", "git://"].any fun protocol =>
    startsIgnoringCase protocol.toList url

def hostedDomains : List (Text × Text) :=
  [("github", "github.com"), ("gitlab", "gitlab.com"), ("bitbucket", "bitbucket.org"),
    ("sourcehut", "git.sr.ht")].map fun (name, domain) => (name.toList, domain.toList)

/-- The host that the prefix of a shorthand names, and what follows the prefix. -/
def takeHost (tables : Tables) (url : Text) : Text × Option Text :=
  match hostedDomains.find? fun (name, _) => (name ++ [':']).isPrefixOf (tables.lower url) with
  | some (name, domain) => (url.drop (name.length + 1), some domain)
  | none => (url, none)

/-- A shorthand and what stands behind the first `#`, or else behind the first `@`. -/
def cutCommittish (shorthand : Text) : Text × Option Text :=
  match (partition '#' shorthand).or (partition '@' shorthand) with
  | some (before, after) => (before, if after = [] then none else some after)
  | none => (shorthand, none)

def parseHostedShorthand (tables : Tables) (url : Text) : Option GitSource :=
  let (shorthand, domain) := takeHost tables url
  if protocolMatch shorthand || (scpLikeMatch shorthand).isSome ||
      contains "://".toList shorthand then
    none
  else
    let (shorthand, ref) := cutCommittish shorthand
    match (shorthand.splitOn '/').filter (· ≠ []) with
    | [user, project] =>
      if domain = none ∧ '.' ∈ user then none
      else
        let domain := domain.getD "github.com".toList
        buildGitSource ("https://".toList ++ domain ++ '/' :: user ++ '/' :: project) domain
          (user ++ '/' :: project) ref
    | _ => none

def parseGitUrl (tables : Tables) (source : Text) : Option GitSource :=
  let trimmed := stripped source
  let hasGitPrefix := "git:".toList.isPrefixOf trimmed && !"git://".toList.isPrefixOf trimmed
  let url := if hasGitPrefix then stripped (trimmed.drop 4) else trimmed
  if !hasGitPrefix && !protocolMatch url then none
  else if hasGitPrefix then (parseHostedShorthand tables url).or (parseGenericGitUrl tables url)
  else parseGenericGitUrl tables url

end Pidrei.GitUrl
