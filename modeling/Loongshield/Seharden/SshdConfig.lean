import Loongshield.Seharden.Permissions
import Loongshield.Seharden.PathList

/-!
# `shared/sshd_config_files.lua`, `enforcers/sshd_config.lua` and the access probe of `probes/ssh.lua`

The configuration files are discovered by following `Include`; the enforcer and the probe share the code for it.
-/

namespace Seharden

open Lua

/-! ## Discovery -/

/-- `strip_comment`. -/
def stripComment (line : Str) : Str := line.takeWhile (· ≠ '#')

/-- `parse_directive`. -/
def parseDirective (line : Str) : Option (Str × Str) :=
  match strMatch (trim (stripComment line)) "^(%S+)%s+(.+)$" with
  | .ok (some [.str key, .str value]) => some (key, value)
  | _ => none

section Discovery

variable (view : View)

/-- `path_exists_as_file`. -/
def pathExistsAsFile (path : Str) : Bool := view.mode path == some "file".toList

/-- `list_matching_paths`. -/
def listMatchingPaths (pattern base : Str) : Except Err (List Str) :=
  if view.mode base = some "directory".toList then do
    let names ← matchingNames pattern (← view.names base)
    return sortStrs (names.map (joinPath base))
  else .ok []

/-- The paths of several bases, each once. -/
def matchingBases (pattern : Str) : List Str → List Str → Except Err (List Str)
  | [], found => .ok found
  | base :: bases, found => do
    let paths ← listMatchingPaths view pattern base
    matchingBases pattern bases (paths.foldl appendUnique found)

/-- The loop of `expand_glob_path` over the parts of the path. -/
def includeParts : List Str → List Str → Except Err (List Str)
  | [], bases => .ok bases
  | part :: parts, bases =>
    if part = ".".toList then includeParts parts bases
    else if part = "..".toList then includeParts parts (unique (bases.map parentPath))
    else if hasWildcard part then do
      let found ← matchingBases view (globToPattern part) bases []
      includeParts parts found
    else includeParts parts (unique (bases.map fun base => joinPath base part))

/-- `expand_glob_path`. -/
def expandIncludeGlob (pathGlob : Str) : Except Err (List Str) :=
  includeParts view (captures pathGlob "[^/]+") [if pathGlob.head? = some '/' then "/".toList else ".".toList]

/-- `normalize_include_path`. -/
def normalizeIncludePath (path baseDir : Str) : Str := if path.head? = some '/' then path else baseDir ++ "/" ++ path

/-- `expand_include_spec`. -/
def expandIncludeSpec (spec baseDir : Str) : Except Err (List Str) := do
  let spec := normalizeIncludePath spec baseDir
  let candidates ← if hasWildcard spec then expandIncludeGlob view spec else .ok [spec]
  return sortStrs (candidates.filter (pathExistsAsFile view))

/-- The files of several specifications, one after the other. -/
def expandIncludeSpecs (baseDir : Str) : List Str → Except Err (List Str)
  | [] => .ok []
  | spec :: specs => do
    let paths ← expandIncludeSpec view spec baseDir
    return paths ++ (← expandIncludeSpecs baseDir specs)

/-- The specifications of a line: those of an `Include`. -/
def includeSpecs (line : Str) : List Str :=
  match parseDirective line with
  | some (directive, value) => if lower directive = "include".toList then captures value "%S+" else []
  | none => []

/-- `discover_include_files`; a file that cannot be opened includes nothing. -/
def discoverIncludeFiles (path baseDir : Str) : Except Err (List Str) :=
  match view.lines path with
  | .error _ => .ok []
  | .ok lines => expandIncludeSpecs view baseDir (lines.flatMap includeSpecs)

/-- `append_unique`. -/
def appendPath (list : List Str) (path : Str) : List Str := if path = [] then list else appendUnique list path

/-- The loop of `discover`: the queue from `index` on, all that was ever queued, and the files so far. `fuel` bounds the
iterations; without it the loop gives nothing. -/
def discoverLoop (baseDir : Str) : Nat → Nat → List Str → List Str → Except Err (Option (List Str))
  | 0, _, _, _ => .ok none
  | fuel + 1, index, queue, files =>
    match queue[index]? with
    | none => .ok (some files)
    | some path =>
      if pathExistsAsFile view path then do
        let includes ← discoverIncludeFiles view path baseDir
        discoverLoop baseDir fuel (index + 1) (includes.foldl appendPath queue) (appendPath files path)
      else discoverLoop baseDir fuel (index + 1) queue files

end Discovery

/-- The parameters of the two functions: `{ path, include_dir, base_dir }`. -/
structure SshdParams where
  path : Option Str
  includeDir : Option Str
  baseDir : Option Str

/-- The queue that `discover` begins with. -/
def discoverQueue (view : View) (params : SshdParams) : Except Err (List Str) := do
  let includeDir := params.includeDir.getD "/etc/ssh/sshd_config.d"
  let dropIns ← expandIncludeSpec view (includeDir ++ "/*.conf") (params.baseDir.getD "/etc/ssh")
  let dropIns := dropIns.filter fun path =>
    (firstCapture path "^(.*)/[^/]+$").getD ".".toList = includeDir &&
      isMatch ((firstCapture path "([^/]+)$").getD path) "%.conf$"
  return dropIns.foldl appendPath (appendPath [] (params.path.getD "/etc/ssh/sshd_config"))

/-- `discover`. -/
def discover (view : View) (fuel : Nat) (params : SshdParams) : Except Err (Option (List Str)) := do
  let queue ← discoverQueue view params
  discoverLoop view (params.baseDir.getD "/etc/ssh") fuel 0 queue []

/-! ## The enforcer and the probe -/

/-- The mode of the configuration files. -/
def sshdExpectedMode : BitVec 12 := 0o600

/-- The loop of `fix_sshd_config_access` for a path: a link is followed, unless its target cannot be queried. -/
def fixSshdPath (faults : Faults) (t : Tree) (path : Str) : Tree :=
  if (t.link path).isSome && ((faults.followed path).isSome || (t.stat path).isNone) then t
  else fixAccess faults sshdExpectedMode t path

/-- `fix_sshd_config_access`: the files that were discovered, what it returns, and the files after it. -/
def fixSshdConfigAccess (faults : Faults) (fuel : Nat) (params : SshdParams) (t : Tree) :
    Except Err (Option (List Str × Ret × Tree)) := do
  match ← discover t.view fuel params with
  | none => return none
  | some files => return some (files, .ok (), files.foldl (fixSshdPath faults) t)

/-- `config_file_access_ok`. -/
def configFileAccessOk (t : Tree) (path : Str) : Bool := accessOk t sshdExpectedMode path

/-- `inspect_config_file_access`. -/
def inspectConfigFileAccess (fuel : Nat) (params : SshdParams) (t : Tree) : Except Err (Option AccessReport) := do
  match ← discover t.view fuel params with
  | none => return none
  | some files => return some (accessReport (configFileAccessOk t) (sortStrs files))

end Seharden
