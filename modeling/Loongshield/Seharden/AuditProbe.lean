import Loongshield.Seharden.AuditEnforcer
import Loongshield.Seharden.View

/-!
# `probes/audit.lua`

The probe looks for rules in lines: watches, system calls, the execution of a path, and directives. A requirement on
system calls is checked on buckets: for every architecture and exit value, the system calls that the matching lines
list. `inspect_rule_coverage` checks requirements in several sources of lines.
-/

namespace Seharden

open Lua

/-- `normalize_path`. -/
def normalizeAuditPath (path : Str) : Str :=
  if path = "/".toList then path
  else
    let normalized := substitute path "/+$" []
    if normalized = [] then "/" else normalized

/-- A field that is not `false`: `params.name ~= false`. -/
def notFalse (params : Value) (name : Str) : Bool := !Value.rawEq (params.field name) (.bool false)

/-! ## Watches -/

/-- `is_same_or_descendant_path`. -/
def isSameOrDescendantPath (path parent : Str) : Bool :=
  path == parent || parent == "/".toList ||
    (path.take parent.length == parent && (path.drop parent.length).take 1 == "/".toList)

/-- What a rule that was found says. -/
structure FoundRule where
  path : Str
  permissions : Str
  key : Option Str

section Watches

variable (view : View)

/-- `watch_target_is_directory`. -/
def watchTargetIsDirectory (kind : WatchKind) (watched : Str) : Bool :=
  match kind with
  | .dir => true
  | .watch => view.mode watched == some "directory".toList
  | .path => false

/-- A line is a watch of the path with the permissions and the key. -/
def watchLine (params : Value) (line : Str) : Option FoundRule :=
  match extractWatchTarget line with
  | none => none
  | some (watched, kind) =>
    if isMatch line "^%-w%s+" || isAlwaysExitRule line then
      let target := normalizeAuditPath (params.field "path").tostring
      let normalized := normalizeAuditPath watched
      if (normalized == target ||
          (watchTargetIsDirectory view kind watched && isSameOrDescendantPath target normalized)) &&
          hasPermissions (extractWatchPermissions line) (params.field "permissions").tostring &&
          keyMatches line (params.field "key") (notFalse params "require_key") then
        some ⟨watched, extractWatchPermissions line, extractKey line⟩
      else none
    else none

/-- `find_watch_rule_in_lines`. -/
def findWatchRuleInLines (lines : List Str) (params : Value) :
    Option FoundRule := lines.findSome? (watchLine view params)

end Watches

/-! ## System calls -/

/-- The loop of `normalize_required_arches`. -/
def normalizeArches : Nat → List Value → List Str → Except Str (List Str)
  | _, [], normalized => .ok normalized
  | index, arch :: arches, normalized =>
    match arch with
    | .str (c :: s) => normalizeArches (index + 1) arches (appendUnique normalized (c :: s))
    | _ => .error ("Probe 'audit.find_syscall_rule' requires non-empty strings in required_arches[" ++ natStr index ++
        "].")

/-- `normalize_required_arches`. -/
def normalizeRequiredArches (requiredArches : Value) : Except Str (Option (List Str)) :=
  if requiredArches.isNil then .ok none
  else if requiredArches.ipairs = [] then
    .error "Probe 'audit.find_syscall_rule' requires 'required_arches' to be a non-empty list when provided."
  else (normalizeArches 1 requiredArches.ipairs []).map some

/-- An exit value that is required, and its key in the buckets. -/
structure ExitRequirement where
  key : Str
  value : Value

/-- The exit values, each text once. -/
def uniqueExits : List Value → List ExitRequirement → List ExitRequirement
  | [], normalized => normalized
  | value :: values, normalized =>
    if normalized.any fun e => e.key == value.tostring then uniqueExits values normalized
    else uniqueExits values (normalized ++ [⟨value.tostring, value⟩])

/-- `normalize_exit_requirements`. -/
def normalizeExitRequirements (exits : Value) : Except Str (List ExitRequirement) :=
  if exits.isNil then .ok [⟨"*", .nil⟩]
  else if exits.ipairs = [] then
    .error "Probe 'audit.find_syscall_rule' requires 'exits' to be a non-empty list when provided."
  else .ok (uniqueExits exits.ipairs [])

/-- `a and b`, where `b` may raise and is looked at only if `a` holds. -/
def andAlso (a : Bool) (b : Except Err Bool) : Except Err Bool := if a then b else .ok false

/-- `line_matches_syscall_filters`. -/
def lineMatchesSyscallFilters (line : Str) (params : Value) (auidMin : Option Flt) (exitValue : Value) :
    Except Err Bool :=
  andAlso (isAlwaysExitRule line && matchesAuidFilters line auidMin (notFalse params "require_auid_unset_exclusion") &&
    lineHasExit line exitValue) do
    let fields ← lineHasFields line (params.field "fields")
    andAlso fields do
      let comparisons ← lineHasAnyComparison line (params.field "comparisons_any")
      return comparisons && keyMatches line (params.field "key") (notFalse params "require_key")

/-- The buckets: the architectures that have some, and for an architecture and the key of an exit value the required
system calls that were found. -/
structure Buckets where
  arches : List Str
  bucket : Str → Str → Option (List Str)

namespace Buckets

/-- No buckets yet. -/
def empty : Buckets := ⟨[], fun _ _ => none⟩

/-- `get_syscall_bucket`, and what is put into the bucket. -/
def add (b : Buckets) (arch exitKey : Str) (found : List Str) : Buckets where
  arches := appendUnique b.arches arch
  bucket a e := if a = arch ∧ e = exitKey then some ((b.bucket a e).getD [] ++ found) else b.bucket a e

end Buckets

/-- The key of a line's architecture in the buckets. -/
def archKey (line : Str) : Str := (extractSyscallArch line).getD "*".toList

/-- The loop over the exit requirements for a line. -/
def collectExits (params : Value) (auidMin : Option Flt) (line : Str) : List ExitRequirement → Buckets →
    Except Err Buckets
  | [], b => .ok b
  | e :: exits, b => do
    if ← lineMatchesSyscallFilters line params auidMin e.value then
      let required := (params.field "syscalls").ipairs.filterMap keyText
      collectExits params auidMin line exits
        (b.add (archKey line) e.key (required.filter fun s => (collectSyscalls line).contains s))
    else collectExits params auidMin line exits b

/-- The loop over the lines. -/
def collectBuckets (params : Value) (auidMin : Option Flt) (exits : List ExitRequirement) : List Str → Buckets →
    Except Err Buckets
  | [], b => .ok b
  | line :: lines, b => do collectBuckets params auidMin exits lines (← collectExits params auidMin line exits b)

/-- `not bucket or not bucket[syscall]`. -/
def lacks (bucket : Option (List Str)) (syscall : Value) : Bool :=
  match bucket, syscall with
  | some found, .str s => !found.contains s
  | _, _ => true

/-- A system call goes into the missing set. -/
def missesSyscall (requiredArches : Option (List Str)) (exits : List ExitRequirement) (b : Buckets) (syscall : Value) :
    Bool :=
  let activeArches := b.arches.filter (· ≠ "*".toList)
  match requiredArches with
  | some arches =>
    let allowGlobalFallback := arches.length == 1 && activeArches.isEmpty
    arches.any fun arch => exits.any fun e =>
      lacks (if (b.bucket arch e.key).isNone && allowGlobalFallback then b.bucket "*" e.key else b.bucket arch e.key)
        syscall
  | none =>
    if activeArches.isEmpty then exits.any fun e => lacks (b.bucket "*" e.key) syscall
    else activeArches.any fun arch => exits.any fun e =>
      lacks (b.bucket "*" e.key) syscall && lacks (b.bucket arch e.key) syscall

/-- `table.sort` of values: strings, or numbers; other values cannot be compared. -/
def sortValues (values : List Value) : Except Err (List Value) :=
  if values.length ≤ 1 then .ok values
  else if values.all fun v => (keyText v).isSome then .ok ((sortStrs (values.filterMap keyText)).map .str)
  else
    match values.mapM Value.double with
    | some xs => .ok ((xs.insertionSort fun x y => x.le y = true).map Value.ofDouble)
    | none => .error "attempt to compare values of different types"

/-- The result of `find_syscall_rule_in_lines`: the missing system calls, and how many there are. -/
structure MissingSyscalls where
  count : Nat
  details : List Value

/-- `find_syscall_rule_in_lines`. -/
def findSyscallRuleInLines (lines : List Str) (params : Value) (auidMin : Option Flt) :
    Except Err (Except Str MissingSyscalls) :=
  match normalizeRequiredArches (params.field "required_arches") with
  | .error err => .ok (.error err)
  | .ok requiredArches =>
    match normalizeExitRequirements (params.field "exits") with
    | .error err => .ok (.error err)
    | .ok exits => do
      let b ← collectBuckets params auidMin exits lines .empty
      let missing := (params.field "syscalls").ipairs.filter (missesSyscall requiredArches exits b)
      let details ← sortValues missing
      return .ok ⟨missing.length, details⟩

/-! ## Paths that are executed -/

/-- A line records the execution of the path. -/
def pathExecLine (params : Value) (auidMin : Option Flt) (line : Str) : Option FoundRule :=
  match extractWatchTarget line with
  | none => none
  | some (watched, _) =>
    if isAlwaysExitRule line &&
        normalizeAuditPath watched == normalizeAuditPath (params.field "path").tostring &&
        hasPermissions (extractWatchPermissions line)
          (if (params.field "permissions").truthy then (params.field "permissions").tostring else "x") &&
        matchesAuidFilters line auidMin (notFalse params "require_auid_unset_exclusion") &&
        keyMatches line (params.field "key") (notFalse params "require_key") then
      some ⟨watched, extractWatchPermissions line, extractKey line⟩
    else none

/-- `find_path_exec_rule_in_lines`. -/
def findPathExecRuleInLines (lines : List Str) (params : Value) (auidMin : Option Flt) : Option FoundRule :=
  lines.findSome? (pathExecLine params auidMin)

end Seharden
