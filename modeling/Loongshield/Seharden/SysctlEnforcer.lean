import Loongshield.Seharden.Fsutil

/-!
# `enforcers/sysctl.lua`, and the keys of `shared/sysctl_keys.lua`

A sysctl value is set live, by a write below `/proc/sys`, and kept in a configuration file. The file is read if it can
be opened; the lines of the key are replaced, or a new line is added.
-/

namespace Seharden

open Lua

/-! ## Keys -/

/-- `sysctl_keys.normalize`. -/
def normalizeSysctlKey (key : Value) : Except Err Str := do
  let stripped ← gsub key.tostring "^%-" fun _ => []
  gsub stripped "/" fun _ => "."

/-- `is_valid_key`. -/
def isValidSysctlKey (key : Str) : Except Err Bool := do
  let word ← strMatch key "^[a-zA-Z0-9_.]+$"
  let dots ← strMatch key "%.%."
  return word.isSome && dots.isNone

/-- `sysctl_keys.validate`, of a key that is not `nil`. -/
def validateSysctlKey (key : Value) : Except Err (Option Str) := do
  let normalized ← normalizeSysctlKey key
  return if ← isValidSysctlKey normalized then some normalized else none

/-- `sysctl_keys.procfs_path`, of a valid key. -/
def procfsPath (key procfsRoot : Str) : Except Err Str := do
  let path ← gsub key "%." fun _ => "/"
  return procfsRoot ++ "/" ++ path

/-! ## The enforcer -/

/-- The paths in the dependency table of `sysctl.lua`. -/
structure SysctlPaths where
  sysctlConf : Str
  procfsRoot : Str

/-- `DEFAULT_SYSCTL_CONF` and `DEFAULT_PROCFS_ROOT`. -/
def defaultSysctlPaths : SysctlPaths :=
  { sysctlConf := "/etc/sysctl.d/99-loongshield.conf", procfsRoot := "/proc/sys" }

/-- The lines of `persist_sysctl` so far, and whether the key was among them. -/
def persistLoop (key newLine : Str) : List Str → List Str × Bool → Except Err (List Str × Bool)
  | [], st => .ok st
  | line :: rest, (existing, updated) => do
    match ← strMatch line "^%s*([%w_.]+)%s*=" with
    | some (k :: _) =>
      if k.rawEq (.str key) then persistLoop key newLine rest (existing ++ [newLine], true)
      else persistLoop key newLine rest (existing ++ [line], updated)
    | _ => persistLoop key newLine rest (existing ++ [line], updated)

/-- The edit of `persist_sysctl`: there is always something to write. -/
def editSysctl (key value : Str) (lines : List Str) : Except Err (Option (List Str)) := do
  let newLine := key ++ " = " ++ value
  let (existing, updated) ← persistLoop key newLine lines ([], false)
  return some (if updated then existing else existing ++ [newLine])

section Enforcer

variable (env : Env) (paths : SysctlPaths)

/-- `persist_sysctl`. -/
def persistSysctl (key value : Str) : FsM Ret :=
  rewriteFile env paths.sysctlConf "sysctl.set_value" (openedLines env paths.sysctlConf) (editSysctl key value)
    fun lines => writeLinesAtomically env paths.sysctlConf lines "sysctl.set_value"

/-- The write to the live value: its error, if there is one. -/
def applyLive (procPath value : Str) : FsM (Option Str) := do
  match ← ioOpenWrite env procPath with
  | .error err => return some ("could not write to " ++ procPath ++ ": " ++ err)
  | .ok () =>
    let _ ← fileWrite env procPath (value ++ "\n")
    match ← fileClose env procPath with
    | .error err => return some ("could not close " ++ procPath ++ ": " ++ err)
    | .ok () => return none

/-- `set_value`. -/
def sysctlSetValue (params : Value) : FsM Ret := do
  if !(params.field "key").truthy || (params.field "value").isNil then
    return .error "sysctl.set_value: requires 'key' and 'value' parameters"
  else
    match ← Act.lift (validateSysctlKey (params.field "key")) with
    | none => return .error ("sysctl.set_value: invalid key '" ++ (params.field "key").tostring ++ "'")
    | some key =>
      let value := (params.field "value").tostring
      let procPath ← Act.lift (procfsPath key paths.procfsRoot)
      let liveErr ← applyLive env procPath value
      match ← persistSysctl env paths key value, liveErr with
      | .error err, some live => return .error ("sysctl.set_value: live apply failed: " ++ live ++ "; " ++ err)
      | .error err, none => return .error err
      | .ok (), some live => return .error ("sysctl.set_value: live apply failed after persisting value: " ++ live)
      | .ok (), none => return .ok ()

end Enforcer

end Seharden
