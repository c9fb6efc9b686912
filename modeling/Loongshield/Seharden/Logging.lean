import Loongshield.Seharden.Dotfiles
import Loongshield.Seharden.Permissions

/-!
# Log files: `probes/logging.lua` and `enforcers/logging.lua`

The probe compares every log file with a policy; the enforcer goes through the details of its report and runs `chmod`
and `chown`. `Shell` says what these commands do and what `os.execute` returns for them.
-/

namespace Seharden

open Lua

/-! ## The probe -/

/-- `read_name_index`: the entries of the index, or an error. An id may be no key of a table, which is raised. -/
def readNameIndex (view : View) (path : Str) (minFields : Nat) : Except Str (List (List Str)) := do
  let entries ← readEntries view path minFields
  if entries.any fun parts => strscan (entryField parts 2) == some .nan then .error "table index is NaN"
  else .ok entries

/-- The index: the name of an id, that of the last entry with it. -/
def nameOf (entries : List (List Str)) (id : BitVec 32) : Option Str :=
  (entries.filter fun parts => idIs id (strscan (entryField parts 2))).getLast?.map fun parts => entryField parts 0

/-- A policy: the mode, and the names of the owners and groups that are allowed. -/
structure LogPolicy where
  name : Str
  maxMode : BitVec 12
  owners : List Str
  groups : List Str

/-- `policy_for_path`, with the table `POLICIES`. -/
def policyForPath (path : Str) : LogPolicy :=
  let name := basename path
  if name = "lastlog".toList || name = "wtmp".toList then
    ⟨"login_record", 0o664, ["root".toList], ["root".toList, "utmp".toList]⟩
  else if name = "btmp".toList then ⟨"failed_login_record", 0o660, ["root".toList], ["root".toList, "utmp".toList]⟩
  else if name = "README".toList then
    ⟨"readme", 0o644, ["root".toList, "syslog".toList], ["root".toList, "adm".toList]⟩
  else if isMatch path "%.journal~?$" then
    ⟨"journal", 0o640, ["root".toList], ["root".toList, "systemd-journal".toList, "adm".toList]⟩
  else if isMatch path "/sssd/" || isMatch path "/SSSD/" then
    ⟨"sssd", 0o600, ["root".toList, "sssd".toList], ["root".toList, "sssd".toList]⟩
  else if isMatch path "/gdm/" || isMatch path "/gdm3/" then
    ⟨"gdm", 0o640, ["root".toList, "gdm".toList], ["root".toList, "gdm".toList, "adm".toList]⟩
  else ⟨"default", 0o640, ["root".toList, "syslog".toList], ["root".toList, "adm".toList]⟩

/-- A detail of the report. A file that could not be queried has no `access`. -/
structure LogDetail where
  path : Str
  access : Option Access
  policy : LogPolicy
  modeOk : Bool
  ownerOk : Bool
  groupOk : Bool

/-- `detail.configured`. -/
def LogDetail.configured (d : LogDetail) : Bool := d.access.isSome && d.modeOk && d.ownerOk && d.groupOk

/-- `access_detail`. -/
def accessDetail (faults : Faults) (t : Tree) (passwd group : List (List Str)) (path : Str) : LogDetail :=
  match faults.fsStat t path with
  | none => ⟨path, none, policyForPath path, false, false, false⟩
  | some access =>
    { path := path
      access := some access
      policy := policyForPath path
      modeOk := modeWithin access.mode (policyForPath path).maxMode
      ownerOk := (nameOf passwd access.uid).any (policyForPath path).owners.contains
      groupOk := (nameOf group access.gid).any (policyForPath path).groups.contains }

/-- `collect_regular_files`. -/
def collectRegularFiles (view : View) : Nat → Str → List Str → Except Str (List Str)
  | 0, _, out => .ok out
  | n + 1, path, out =>
    match view.mode path with
    | none => .ok out
    | some mode =>
      if mode = "file".toList then .ok (out ++ [path])
      else if mode = "directory".toList then
        match view.names path with
        | .error err => .error ("Could not enumerate log directory '" ++ path ++ "': " ++ err)
        | .ok names =>
          (sortedDirEntries names).foldlM (fun out entry => collectRegularFiles view n (path ++ "/" ++ entry) out) out
      else .ok out

/-- The parameters of the probe. -/
structure LogParams where
  rootPath : Option Str
  passwdPath : Option Str
  groupPath : Option Str

/-- The details of `inspect_logfile_access`, or the error that it reports or raises. -/
def inspectLogfileAccess (faults : Faults) (params : LogParams) (t : Tree) : Except Str (List LogDetail) := do
  let passwd ← readNameIndex t.view (params.passwdPath.getD "/etc/passwd") 7
  let group ← readNameIndex t.view (params.groupPath.getD "/etc/group") 4
  let files ← collectRegularFiles t.view pathMax (params.rootPath.getD "/var/log") []
  return (sortStrs files).map (accessDetail faults t passwd group)

/-! ## The enforcer -/

/-- What becomes of the commands: the ids of the names, and the first and third result of `os.execute`. -/
structure Shell where
  uidOf : Str → Option (BitVec 32)
  gidOf : Str → Option (BitVec 32)
  results : Str → Value × Value

/-- `not ok and code ~= 0`. -/
def commandFailed (result : Value × Value) : Bool := !result.1.truthy && !Value.rawEq result.2 (.num 0)

/-- The octal digits of `%04o`. -/
def octal (mode : BitVec 12) : Str :=
  [mode.toNat / 512 % 8, mode.toNat / 64 % 8, mode.toNat / 8 % 8, mode.toNat % 8].map Nat.digitChar

section Enforcer

variable (faults : Faults) (shell : Shell)

/-- The owner and the group that are set: the first ones that are allowed. -/
def LogDetail.target (d : LogDetail) : Str × Str := (d.policy.owners.headD "root", d.policy.groups.headD "root")

/-- `chmod` of the enforcer. -/
def chmodLogfile (d : LogDetail) (t : Tree) : Tree :=
  match faults.chmod d.path with
  | some _ => t
  | none => t.chmod d.path d.policy.maxMode

/-- `chown` of the enforcer. -/
def chownLogfile (d : LogDetail) (t : Tree) : Tree :=
  match faults.chown d.path, shell.uidOf d.target.1, shell.gidOf d.target.2 with
  | none, some uid, some gid => t.chown d.path uid gid
  | _, _, _ => t

/-- The loop of `fix_logfile_access` for a detail. -/
def fixLogfile (d : LogDetail) (t : Tree) : Tree :=
  if d.configured || d.access.isNone then t
  else
    let t := if d.modeOk then t else chmodLogfile faults d t
    if d.ownerOk && d.groupOk then t else chownLogfile faults shell d t

/-- The errors for a detail. -/
def logfileErrors (d : LogDetail) : List Str :=
  if d.configured || d.access.isNone then []
  else
    let chmodCommand := "chmod " ++ octal d.policy.maxMode ++ " " ++ shellEscape d.path ++ " 2>&1"
    let chownCommand := "chown " ++ d.target.1 ++ ":" ++ d.target.2 ++ " " ++ shellEscape d.path ++ " 2>&1"
    (if !d.modeOk && commandFailed (shell.results chmodCommand) then
      ["chmod " ++ octal d.policy.maxMode ++ " failed (exit " ++ (shell.results chmodCommand).2.tostring ++ ") for '" ++
        d.path ++ "'"] else []) ++
    if !(d.ownerOk && d.groupOk) && commandFailed (shell.results chownCommand) then
      ["chown " ++ d.target.1 ++ ":" ++ d.target.2 ++ " failed (exit " ++ (shell.results chownCommand).2.tostring ++
        ") for '" ++ d.path ++ "'"] else []

/-- `fix_logfile_access`, for the details of a report. -/
def fixLogfileAccess (details : List LogDetail) (t : Tree) : Ret × Tree :=
  let errors := details.flatMap (logfileErrors shell)
  (if errors = [] then .ok ()
    else .error ("logging.fix_logfile_access: " ++ natStr errors.length ++ " error(s): " ++ errors.headD []),
    details.foldl (fun t d => fixLogfile faults shell d t) t)

end Enforcer

end Seharden
