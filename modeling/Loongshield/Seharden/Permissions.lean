import Loongshield.Seharden.Tree

/-!
# The boot loader configuration: `enforcers/permissions.lua` and `probes/file.lua`

Both sides have their own walk through the directories, with the same rule for names and modes. In the enforcer an
error of `lfs.dir` is raised; the probe catches and returns it.
-/

namespace Seharden

open Lua

/-- `sorted_dir_entries`, of the names `lfs.dir` gives. -/
def sortedDirEntries (names : List Str) : List Str :=
  sortStrs (names.filter fun name => name ≠ ".".toList && name ≠ "..".toList)

/-- The names of boot loader configuration files. -/
def isBootloaderName (name : Str) : Bool := name = "user.cfg".toList || isMatch name "^grub"

/-- `bootloader_expected_mode`. -/
def bootloaderExpectedMode (path : Str) : BitVec 12 := if isMatch path "^/boot/efi/EFI/" then 0o700 else 0o600

/-- The parameters of the two functions: `{ base_path }`. -/
structure BootloaderParams where
  basePath : Option Str

/-- `params.base_path or '/boot'`. -/
def BootloaderParams.base (params : BootloaderParams) : Str := params.basePath.getD "/boot"

/-! ## The enforcer -/

section Enforcer

variable (view : View)

/-- `collect_bootloader_config_paths` of the enforcer. The number counts the directories a path may still have below
it. -/
def collectBootloaderConfigPaths : Nat → Str → List Str → Except Err (List Str)
  | 0, _, out => .ok out
  | n + 1, basePath, out =>
    match view.mode basePath with
    | none => .ok out
    | some mode =>
      if mode = "file".toList then
        match firstCapture basePath "([^/]+)$" with
        | some name => .ok (if isBootloaderName name then out ++ [basePath] else out)
        | none => .error "attempt to index local 'name' (a nil value)"
      else if mode = "directory".toList then do
        let names ← view.names basePath
        (sortedDirEntries names).foldlM
          (fun out entry => collectBootloaderConfigPaths n (basePath ++ "/" ++ entry) out) out
      else .ok out

end Enforcer

/-- The end of the loop for a file with the attributes `attr`: the mode. -/
def fixMode (faults : Faults) (path : Str) (attr : Access) (expectedMode : BitVec 12) (t : Tree) : Tree :=
  if attr.mode = expectedMode then t
  else
    match faults.chmod path with
    | some _ => t
    | none => t.chmod path expectedMode

/-- The loop of the two fixers for a path, after their checks for links: the owner, the group and the mode. The fixer
of the boot loader has two branches, for a wrong owner and for a wrong group, with the same call. -/
def fixAccess (faults : Faults) (expectedMode : BitVec 12) (t : Tree) (path : Str) : Tree :=
  match faults.fsStat t path with
  | none => t
  | some attr =>
    if attr.uid ≠ 0 || attr.gid ≠ 0 then
      match faults.chown path with
      | some _ => t
      | none => fixMode faults path attr expectedMode (t.chown path 0 0)
    else fixMode faults path attr expectedMode t

/-- The loop of `fix_bootloader_config` for a path: a link is left alone. -/
def fixBootloaderPath (faults : Faults) (t : Tree) (path : Str) : Tree :=
  if (t.link path).isSome then t else fixAccess faults (bootloaderExpectedMode path) t path

/-- `fix_bootloader_config`: the paths that were discovered, what it returns, and the files after it. -/
def fixBootloaderConfig (faults : Faults) (params : BootloaderParams) (t : Tree) :
    Except Err (List Str × Ret × Tree) := do
  let paths ← collectBootloaderConfigPaths t.view pathMax params.base []
  return (paths, .ok (), paths.foldl (fixBootloaderPath faults) t)

/-! ## The probe -/

/-- `collect_bootloader_config_paths` of the probe. -/
def probeBootloaderConfigPaths (view : View) : Nat → Str → List Str → Except Str (List Str)
  | 0, _, out => .ok out
  | n + 1, basePath, out =>
    match view.mode basePath with
    | none => .ok out
    | some mode =>
      if mode = "file".toList then
        .ok (if isBootloaderName ((firstCapture basePath "([^/]+)$").getD basePath) then out ++ [basePath] else out)
      else if mode = "directory".toList then do
        let names ← view.names basePath
        (sortedDirEntries names).foldlM
          (fun out entry => probeBootloaderConfigPaths view n (basePath ++ "/" ++ entry) out) out
      else .ok out

/-- What an access probe reports: the paths it checked, how many are not as they should be, and whether all are. -/
structure AccessReport where
  paths : List Str
  invalidCount : Nat
  allConfigured : Bool

/-- The loop of an access probe: each path is checked. -/
def accessReport (ok : Str → Bool) (paths : List Str) : AccessReport where
  paths := paths
  invalidCount := (paths.filter fun path => !ok path).length
  allConfigured := decide (paths ≠ []) && (paths.filter fun path => !ok path).length == 0

/-- The probes' check of a file: it exists, belongs to `root:root`, and its mode is within the expected one. -/
def accessOk (t : Tree) (expectedMode : BitVec 12) (path : Str) : Bool :=
  match t.stat path with
  | some attr => attr.uid == 0 && attr.gid == 0 && modeWithin attr.mode expectedMode
  | none => false

/-- `bootloader_access_ok`. -/
def bootloaderAccessOk (t : Tree) (path : Str) : Bool := accessOk t (bootloaderExpectedMode path) path

/-- `inspect_bootloader_config_access`, or the error that it reports. -/
def inspectBootloaderConfigAccess (params : BootloaderParams) (t : Tree) : Except Str AccessReport := do
  let paths ← probeBootloaderConfigPaths t.view pathMax params.base []
  return accessReport (bootloaderAccessOk t) (sortStrs paths)

end Seharden
