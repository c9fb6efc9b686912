import Loongshield.Seharden.AuditRules
import Loongshield.Seharden.FileEnforcer

/-!
# `enforcers/audit.lua`

The enforcers that add lines to a rule file. The dependency table can tell the type of a path, and has none of the
functions that keep the attributes of a file. Commands are run by a parameter, `Commands`.
-/

namespace Seharden

open Lua

/-- The optional functions in the dependency table of `audit.lua`. -/
def auditDeps : Deps := { lfsAttributes := true, fsStat := false, fsChown := false, fsChmod := false }

/-- The paths in the dependency table of `audit.lua`. -/
structure AuditPaths where
  rulesDir : Str
  fallbackRulesPath : Str
  loginDefsPath : Str

def defaultAuditPaths : AuditPaths :=
  { rulesDir := "/etc/audit/rules.d", fallbackRulesPath := "/etc/audit/audit.rules",
    loginDefsPath := "/etc/login.defs" }

/-- A command that could be started: its output lines, and the first and third result of `close`. -/
structure CommandRun where
  lines : List Str
  ok : Value
  code : Value

/-- What becomes of a command. -/
abbrev Commands := Str → Option CommandRun

/-! ## Checks of parameters -/

/-- `is_safe_path`. -/
def isSafePath : Value → Bool
  | .str s => s ≠ [] && !isMatch s "[%c\n\r]"
  | _ => false

/-- `is_safe_key`. -/
def isSafeKey : Value → Bool
  | .str s => isMatch s "^[%w_.:-]+$"
  | _ => false

/-- The loop of `normalize_string_list`; `index` is that of the next value. -/
def normalizeStrings (fieldName : Str) : Nat → List Value → List Str → Except Str (List Str)
  | _, [], normalized => .ok (sortStrs normalized)
  | index, value :: values, normalized =>
    match value with
    | .str s =>
      if s = [] || !isMatch s "^[%w_]+$" then
        .error (" requires '" ++ fieldName ++ "[" ++ natStr index ++ "]' to be a valid string")
      else normalizeStrings fieldName (index + 1) values (appendUnique normalized s)
    | _ => .error (" requires '" ++ fieldName ++ "[" ++ natStr index ++ "]' to be a valid string")

/-- `normalize_string_list` with the pattern `^[%w_]+$`, and the error as its callers give it on. -/
def normalizeStringList (values : Value) (fieldName context : Str) : Except Str (List Str) :=
  if values.ipairs = [] then .error (context ++ " requires a non-empty '" ++ fieldName ++ "' list")
  else (normalizeStrings fieldName 1 values.ipairs []).mapError (context ++ ·)

/-- `tonumber(v)` is a non-negative integer: `n >= 0 and n == math.floor(n)`. -/
def isNonNegInt : Flt → Bool
  | .fin q => 0 ≤ q && q == ⌊q⌋
  | .inf neg => !neg
  | .nan => false

/-- `normalize_popen_close`. -/
def normalizePopenClose (ok code : Value) : Bool :=
  match ok, code with
  | .bool true, _ => true
  | _, .num c => c == 0
  | _, .inf _ => false
  | _, .nan => false
  | .num o, _ => o == 0
  | .nil, .nil => true
  | _, _ => false

/-- The key of parameters in which it is `nil` or safe. -/
def keyText : Value → Option Str
  | .str s => some s
  | _ => none

section Enforcer

variable (env : Env) (paths : AuditPaths)

/-- `resolve_rule_file`. -/
def resolveRuleFile (params : Value) : FsM (Except Str Str) := do
  match params.field "rule_file" with
  | .nil =>
    let rulesDir ← if (params.field "rules_dir").truthy then textArg (params.field "rules_dir") else pure paths.rulesDir
    if (← lfsAttributes env rulesDir) = some "directory".toList then
      return .ok (rulesDir ++ "/99-loongshield-seharden.rules")
    else
      let fallback := if (params.field "fallback_rules_path").truthy then params.field "fallback_rules_path"
        else .str paths.fallbackRulesPath
      return if isSafePath fallback then .ok fallback.tostring
        else .error "audit enforcer requires a safe fallback audit rules path"
  | ruleFile =>
    return if isSafePath ruleFile then .ok ruleFile.tostring
      else .error "audit enforcer requires a safe 'rule_file' path"

/-- `user_defaults.read_uid_min`. -/
def readUidMin (path : Str) : FsM Flt := do
  match ← ioOpenRead env path with
  | .error _ => return .fin 1000
  | .ok () => return uidMinOf (← fileLines env path)

/-- A loop of `append_unique_line` over the lines of a rule. -/
def appendRuleLines (path context : Str) : List Str → FsM Ret
  | [] => return .ok ()
  | line :: lines => do
    match ← appendUniqueLine env path line context auditDeps with
    | .error err => return .error err
    | .ok () => appendRuleLines path context lines

/-- `ensure_watch_rule`. -/
def ensureWatchRule (params : Value) : FsM Ret := do
  if !isSafePath (params.field "path") then
    return .error "audit.ensure_watch_rule: requires a safe 'path' parameter"
  else
    match canonicalizePermissions (params.field "permissions") with
    | none => return .error "audit.ensure_watch_rule: requires 'permissions' to contain only r,w,a,x"
    | some permissions =>
      if !(params.field "key").isNil && !isSafeKey (params.field "key") then
        return .error ("audit.ensure_watch_rule: invalid key '" ++ (params.field "key").tostring ++ "'")
      else
        match ← resolveRuleFile env paths params with
        | .error err => return .error err
        | .ok ruleFile =>
          appendUniqueLine env ruleFile
            (buildWatchLine (params.field "path").tostring permissions (keyText (params.field "key")))
            "audit.ensure_watch_rule" auditDeps

/-- The least `auid` of a syscall rule: given, switched off, or read from `/etc/login.defs`. -/
def ruleAuidMin (auidMin : Value) : FsM (Except Str (Option Flt)) := do
  match auidMin with
  | .bool false => return .ok none
  | .nil => return .ok (some (← readUidMin env "/etc/login.defs"))
  | v =>
    match tonumber v with
    | some n =>
      return if isNonNegInt n then .ok (some n)
        else .error "audit.ensure_syscall_rule: requires a non-negative integer 'auid_min'"
    | none => return .error "audit.ensure_syscall_rule: requires a non-negative integer 'auid_min'"

/-- The architectures of parameters: `arches`, `required_arches`, or the one of `arch`. -/
def archesParam (params : Value) : Value :=
  if (params.field "arches").truthy then params.field "arches"
  else if (params.field "required_arches").truthy then params.field "required_arches"
  else if (params.field "arch").truthy then .list 0 [params.field "arch"]
  else params.field "arch"

/-- The rule of accepted parameters. -/
def syscallRule (params : Value) (syscalls arches : List Str) (auidMin : Option Flt) : SyscallRule :=
  { arches := arches
    syscalls := syscalls
    comparisonsAny := params.field "comparisons_any"
    fields := params.field "fields"
    exits := params.field "exits"
    auidMin := auidMin
    includeAuidUnset := !Value.rawEq (params.field "require_auid_unset_exclusion") (.bool false)
    key := keyText (params.field "key") }

/-- `ensure_syscall_rule`. -/
def ensureSyscallRule (params : Value) : FsM Ret := do
  if !params.truthy then return .error "audit.ensure_syscall_rule: requires parameters"
  else
    match normalizeStringList (params.field "syscalls") "syscalls" "audit.ensure_syscall_rule" with
    | .error err => return .error err
    | .ok syscalls =>
      match normalizeStringList (archesParam params) "arches" "audit.ensure_syscall_rule" with
      | .error err => return .error err
      | .ok arches =>
        match ← ruleAuidMin env (params.field "auid_min") with
        | .error err => return .error err
        | .ok auidMin =>
          if !(params.field "key").isNil && !isSafeKey (params.field "key") then
            return .error ("audit.ensure_syscall_rule: invalid key '" ++ (params.field "key").tostring ++ "'")
          else
            match ← resolveRuleFile env paths params with
            | .error err => return .error err
            | .ok ruleFile =>
              appendRuleLines env ruleFile "audit.ensure_syscall_rule"
                (buildSyscallRuleLines (syscallRule params syscalls arches auidMin))

/-- The architectures of `ensure_path_exec_rule`: given, or both. -/
def execArchesParam (params : Value) : Value :=
  if (params.field "arches").truthy then params.field "arches"
  else if (params.field "required_arches").truthy then params.field "required_arches"
  else .list 0 [.str "b64", .str "b32"]

/-- `ensure_path_exec_rule`. -/
def ensurePathExecRule (params : Value) : FsM Ret := do
  if !isSafePath (params.field "path") then
    return .error "audit.ensure_path_exec_rule: requires a safe 'path' parameter"
  else if !(params.field "key").isNil && !isSafeKey (params.field "key") then
    return .error ("audit.ensure_path_exec_rule: invalid key '" ++ (params.field "key").tostring ++ "'")
  else
    match normalizeStringList (execArchesParam params) "arches" "audit.ensure_path_exec_rule" with
    | .error err => return .error err
    | .ok arches =>
      match ← resolveRuleFile env paths params with
      | .error err => return .error err
      | .ok ruleFile =>
        appendRuleLines env ruleFile "audit.ensure_path_exec_rule"
          (buildPathExecRuleLines arches (params.field "path").tostring (keyText (params.field "key")))

/-- `ensure_directive`; a directive that is no string raises when its pattern is matched. -/
def ensureDirective (params : Value) : FsM Ret := do
  if !(params.field "directive").truthy then return .error "audit.ensure_directive: requires 'directive' parameter"
  else
    let directive ← strArg (params.field "directive")
    if !isMatch directive "^%-" then
      return .error ("audit.ensure_directive: directive '" ++ directive ++ "' must start with '-'")
    else
      match ← resolveRuleFile env paths params with
      | .error err => return .error err
      | .ok ruleFile =>
        let line := if (params.field "value").truthy then directive ++ " " ++ (params.field "value").tostring
          else directive
        appendUniqueLine env ruleFile line "audit.ensure_directive" auditDeps

/-! ## Privileged commands -/

/-- `run_command_lines`: the trimmed lines of a command's output. -/
def runCommandLines (commands : Commands) (command : Str) : Except Str (List Str) :=
  match commands command with
  | none => .error ("Could not execute command: " ++ command)
  | some run =>
    if normalizePopenClose run.ok run.code then .ok ((run.lines.map trim).filter (· ≠ []))
    else .error ("Command did not complete successfully: " ++ command)

/-- The command of `list_eligible_mount_points`. -/
def mountPointsCommand : Str :=
  "findmnt -n -l -k -it $(awk '/nodev/ \x7b print $2 \x7d' /proc/filesystems | paste -sd,) " ++
    "| grep -Pv 'noexec|nosuid' | awk '\x7bprint $1\x7d' 2>/dev/null"

/-- The command that lists the privileged files below a mount point. -/
def findPrivilegedCommand (mount : Str) : Str :=
  "find " ++ shellEscape mount ++ " -xdev -perm /6000 -type f 2>/dev/null"

/-- The loop of `collect_privileged_paths` over the mount points. -/
def collectFromMounts (commands : Commands) : List Str → List Str → Except Str (List Str)
  | [], found => .ok (sortStrs found)
  | mount :: mounts, found => do
    let paths ← runCommandLines commands (findPrivilegedCommand mount)
    collectFromMounts commands mounts (paths.foldl appendUnique found)

/-- `collect_privileged_paths`. -/
def collectPrivilegedPaths (commands : Commands) : Except Str (List Str) := do
  let mounts ← runCommandLines commands mountPointsCommand
  collectFromMounts commands mounts []

/-- A rule for a privileged command. -/
def privilegedRuleLine (path : Str) (auidMin : Flt) (key arch : Str) : Str :=
  "-a always,exit -F arch=" ++ arch ++ " -F path=" ++ path ++ " -F perm=x -F auid>=" ++ fmtInt auidMin ++
    " -F auid!=unset -k " ++ key

/-- The loop of `ensure_privileged_command_rules` over the paths. The warning about an unsafe path calls a variable
`log` that the module does not define. -/
def appendPrivileged (ruleFile : Str) (auidMin : Flt) (key : Str) : List Str → FsM Ret
  | [] => return .ok ()
  | path :: rest => do
    if !isSafePath (.str path) then Act.raise "attempt to index global 'log' (a nil value)"
    else
      let lines := ["b64".toList, "b32".toList].map (privilegedRuleLine path auidMin key)
      match ← appendRuleLines env ruleFile "audit.ensure_privileged_command_rules" lines with
      | .error err => return .error err
      | .ok () => appendPrivileged ruleFile auidMin key rest

/-- `ensure_privileged_command_rules`. -/
def ensurePrivilegedCommandRules (commands : Commands) (params : Value) : FsM Ret := do
  let key := if (params.field "key").truthy then params.field "key" else .str "privileged"
  let auidMin ← readUidMin env paths.loginDefsPath
  if !isSafeKey key then
    return .error ("audit.ensure_privileged_command_rules: invalid key '" ++ key.tostring ++ "'")
  else
    match ← resolveRuleFile env paths params with
    | .error err => return .error err
    | .ok ruleFile =>
      match collectPrivilegedPaths commands with
      | .error err => return .error ("audit.ensure_privileged_command_rules: " ++ err)
      | .ok inventory => appendPrivileged env ruleFile auidMin key.tostring inventory

end Enforcer

end Seharden
