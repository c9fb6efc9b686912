import Loongshield.Seharden.Comparators
import Loongshield.Seharden.Text

/-!
# `shared/audit_rules.lua`

Lines of an audit rule file: what is read out of them, each part by a pattern of its own over the whole line, and how
the enforcers build them.
-/

namespace Seharden

open Lua

/-- `AUDIT_UNSET_AUID`. -/
def auditUnsetAuid : Nat := 4294967295

/-! ## Reading -/

/-- The permissions of a watch. -/
def rwax : Str := "rwax".toList

/-- `canonicalize_permissions`. -/
def canonicalizePermissions : Value → Option Str
  | .str s => if s = [] || s.any fun c => !rwax.contains c then none else some (rwax.filter fun c => s.contains c)
  | _ => none

/-- `has_permissions`. -/
def hasPermissions (actual required : Str) : Bool := required.all fun c => !rwax.contains c || actual.contains c

/-- `line_has_key`. -/
def lineHasKey (line : Str) : Bool := isMatch line "%-k%s+%S+" || isMatch line "%-F%s+key=%S+"

/-- `extract_key`. -/
def extractKey (line : Str) : Option Str :=
  firstCapture line "%-k%s+(%S+)" <|> firstCapture line "%-F%s+key=(%S+)"

/-- `extract_key(line) == key`. -/
def extractedKeyIs (line : Str) (key : Value) : Bool :=
  match extractKey line with
  | some k => Value.rawEq (.str k) key
  | none => false

/-- `key_matches`. -/
def keyMatches (line : Str) (key : Value) (requireKey : Bool) : Bool :=
  !requireKey || if key.isNil then lineHasKey line else extractedKeyIs line key

/-- The kinds of a watch target. -/
inductive WatchKind
  | watch
  | path
  | dir
  deriving DecidableEq

/-- `extract_watch_target`. -/
def extractWatchTarget (line : Str) : Option (Str × WatchKind) :=
  ((firstCapture line "^%-w%s+(%S+)").map (·, .watch)) <|> ((firstCapture line "%-F%s+path=(%S+)").map (·, .path)) <|>
    (firstCapture line "%-F%s+dir=(%S+)").map (·, .dir)

/-- `extract_watch_permissions`. -/
def extractWatchPermissions (line : Str) : Str :=
  (firstCapture line "%-p%s+([rwax]+)" <|> firstCapture line "%-F%s+perm=([rwax]+)").getD []

/-- `is_always_exit_rule`. -/
def isAlwaysExitRule (line : Str) : Bool :=
  isMatch line "^%-a%s+always,exit%f[%s]" || isMatch line "^%-a%s+exit,always%f[%s]"

/-- `line_matches_auid_min`. -/
def lineMatchesAuidMin (line : Str) (threshold : Flt) : Bool :=
  (captures line "%-F%s+auid>=(%d+)").any fun raw =>
    match strscan raw with
    | some value => value.le threshold
    | none => false

/-- `line_excludes_unset_auid`. -/
def lineExcludesUnsetAuid (line : Str) : Bool :=
  isMatch line "%-F%s+auid!=unset" || isMatch line "%-F%s+auid!=%-1" ||
    isMatch line ("%-F%s+auid!=" ++ natStr auditUnsetAuid)

/-- `matches_auid_filters`. -/
def matchesAuidFilters (line : Str) (auidMin : Option Flt) (requireUnsetExclusion : Bool) : Bool :=
  (match auidMin with
    | some threshold => lineMatchesAuidMin line threshold
    | none => true) && (!requireUnsetExclusion || lineExcludesUnsetAuid line)

/-- `value:gsub('^%-', '')`. -/
def stripMinus (value : Str) : Str := substitute value "^%-" []

/-- `line_has_exit`. -/
def lineHasExit (line : Str) (expectedExit : Value) : Bool :=
  expectedExit.isNil ||
    (captures line "%-F%s+exit=([^%s]+)").any fun value => stripMinus value == stripMinus expectedExit.tostring

/-- The pattern of a field. Its name is part of the pattern as it is. -/
def fieldPattern (name : Value) : Str := "%-F%s+" ++ name.tostring ++ "=([^%s]+)"

/-- `line_has_field`; the name may make a pattern that raises. -/
def lineHasField (line : Str) (field : Value) : Except Err Bool :=
  if !field.isTable || !(field.field "name").truthy then .ok true
  else gmatchAny line (fieldPattern (field.field "name")) fun caps =>
    (field.field "value").isNil || (caps.headD .nil).tostring == (field.field "value").tostring

/-- `ipairs(t or {})`. -/
def ipairsOr (t : Value) : Except Err (List Value) := if t.truthy then ipairsArg t else .ok []

/-- `line_has_fields`. -/
def lineHasFields (line : Str) (fields : Value) : Except Err Bool := do
  untilVerdict false (lineHasField line) (← ipairsOr fields)

/-- `normalize_comparison`. -/
def normalizeComparison (value : Value) : Str :=
  let text := if value.truthy then value.tostring else []
  if text = "uid!=euid".toList ∨ text = "euid!=uid".toList then "uid!=euid" else text

/-- `line_has_comparison`, of an expected comparison that is not `nil`. -/
def lineHasComparison (line : Str) (expected : Value) : Bool :=
  (captures line "%-C%s+([^%s]+)").any fun value => normalizeComparison (.str value) == normalizeComparison expected

/-- `line_has_any_comparison`. -/
def lineHasAnyComparison (line : Str) (comparisons : Value) : Except Err Bool :=
  match comparisons with
  | .nil => .ok true
  | .str [] => .ok true
  | .str s => (ipairsArg (.str s)).map fun _ => false
  | .table r fs inh =>
    let list := Value.ipairs (.table r fs inh)
    .ok (list.isEmpty || list.any (lineHasComparison line))
  | v => .error ("attempt to get length of a " ++ v.typeName ++ " value")

/-- `collect_syscalls`. -/
def collectSyscalls (line : Str) : List Str :=
  (captures line "%-S%s+([^%s]+)").flatMap fun token => captures token "([^,]+)"

/-- `extract_syscall_arch`. -/
def extractSyscallArch (line : Str) : Option Str := firstCapture line "%-F%s+arch=(%S+)"

/-! ## The least user id -/

/-- The value of a line that sets `UID_MIN`. -/
def uidMinLine (line : Str) : Option Str :=
  if isMatch line "^%s*#" then none
  else firstCapture line "^%s*UID_MIN%s+([0-9]+)%s*$" <|> firstCapture line "^%s*UID_MIN%s*=%s*([0-9]+)%s*$"

/-- `user_defaults.read_uid_min`, of the lines of a file that was opened. -/
def uidMinOf (lines : List Str) : Flt :=
  match lines.findSome? uidMinLine with
  | some value => (strscan value).getD (.fin 1000)
  | none => .fin 1000

/-! ## Building -/

/-- `table.concat(parts, ' ')`. -/
def concatBlank (parts : List Str) : Str := [' '].intercalate parts

/-- The end of a line that has a key. -/
def keyFragment (key : Option Str) : Str :=
  match key with
  | some key => " -k " ++ key
  | none => []

/-- `build_watch_line`. -/
def buildWatchLine (path permissions : Str) (key : Option Str) : Str :=
  "-w " ++ path ++ " -p " ++ permissions ++ keyFragment key

/-- The parts of a line, after a blank, if there are any. -/
def fragment (parts : List Str) : Str := if parts = [] then [] else ' ' :: concatBlank parts

/-- A comparison in a line: strings that are not empty. -/
def comparisonPart : Value → Option Str
  | .str [] => none
  | .str s => some ("-C " ++ s)
  | _ => none

/-- `build_comparison_fragment`. -/
def buildComparisonFragment (comparisonsAny : Value) : Str := fragment (comparisonsAny.ipairs.filterMap comparisonPart)

/-- A field in a line: tables with a name and a value. -/
def fieldPart (field : Value) : Option Str :=
  if field.isTable && (field.field "name").truthy && (field.field "value").truthy then
    some ("-F " ++ (field.field "name").tostring ++ "=" ++ (field.field "value").tostring)
  else none

/-- `build_fields_fragment`. -/
def buildFieldsFragment (fields : Value) : Str := fragment (fields.ipairs.filterMap fieldPart)

/-- `build_exit_values`. -/
def buildExitValues (exits : Value) : Option (List Str) :=
  if exits.ipairs = [] then none else some (exits.ipairs.map fun exit => stripMinus exit.tostring)

/-- `build_auid_fragment`. -/
def buildAuidFragment (auidMin : Option Flt) (includeAuidUnset : Bool) : Str :=
  match auidMin, includeAuidUnset with
  | some min, true => " -F auid>=" ++ fmtInt min ++ " -F auid!=unset"
  | some min, false => " -F auid>=" ++ fmtInt min
  | none, true => " -F auid!=unset"
  | none, false => []

/-- What `build_syscall_rule_lines` is given. -/
structure SyscallRule where
  arches : List Str
  syscalls : List Str
  comparisonsAny : Value
  fields : Value
  exits : Value
  auidMin : Option Flt
  includeAuidUnset : Bool
  key : Option Str

/-- `build_syscall_rule_line`, with its fragments. -/
def buildSyscallRuleLine (rule : SyscallRule) (arch : Str) (exitFilter : Option Str) : Str :=
  "-a always,exit -F arch=" ++ arch ++ " " ++ concatBlank (rule.syscalls.map ("-S " ++ ·)) ++
    buildComparisonFragment rule.comparisonsAny ++ buildFieldsFragment rule.fields ++
    (match exitFilter with
      | some exit => " -F exit=-" ++ exit
      | none => []) ++ buildAuidFragment rule.auidMin rule.includeAuidUnset ++ keyFragment rule.key

/-- `build_syscall_rule_lines`: a line for every exit and architecture. -/
def buildSyscallRuleLines (rule : SyscallRule) : List Str :=
  match buildExitValues rule.exits with
  | some exits => exits.flatMap fun exit => rule.arches.map fun arch => buildSyscallRuleLine rule arch (some exit)
  | none => rule.arches.map fun arch => buildSyscallRuleLine rule arch none

/-- `build_path_exec_rule_lines`. -/
def buildPathExecRuleLines (arches : List Str) (path : Str) (key : Option Str) : List Str :=
  arches.map fun arch => "-a always,exit -F arch=" ++ arch ++ " -F path=" ++ path ++ " -F perm=x" ++ keyFragment key

end Seharden
