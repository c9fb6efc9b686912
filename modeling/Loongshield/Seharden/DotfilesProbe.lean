import Loongshield.Seharden.Dotfiles

/-!
# The dot-file probe: `probes/users.lua`

The probe has its own walk through the home directories. It only reads: the report depends on the tree as it is.
`lfs.dir` raises if it cannot open a directory, and the probe does not catch that.
-/

namespace Seharden

open Lua

/-- Why a dot file is reported, with what was found and what is expected. -/
inductive DotfileReason where
  | forbiddenFile
  | statFailed
  | mode (actual expected : BitVec 12)
  | owner (actual : BitVec 32) (expected : Option Flt)
  | group (actual : BitVec 32) (expected : Option Flt)

/-- A detail of the report. -/
structure DotfileFailure where
  user : Str
  path : Str
  reason : DotfileReason

/-- A report: its details, and the user and path of each warning `netrc_exists`. -/
structure DotfileReport where
  details : List DotfileFailure
  warnings : List (Str × Str)

namespace DotfileReport

/-- Nothing is reported. -/
def empty : DotfileReport := ⟨[], []⟩

/-- One report after the other. -/
def append (r r' : DotfileReport) : DotfileReport := ⟨r.details ++ r'.details, r.warnings ++ r'.warnings⟩

/-- `count`. -/
def count (r : DotfileReport) : Nat := r.details.length

end DotfileReport

section Probe

variable (faults : Faults) (t : Tree)

/-- `inspect_dotfile`, for a file whose type is known. -/
def inspectDotfile (user : RealUser) (path type : Str) : DotfileReport :=
  let filename := basename path
  if isForbidden filename then ⟨[⟨user.user, path, .forbiddenFile⟩], []⟩
  else if type ≠ "file".toList then .empty
  else
    match faults.fsStat t path with
    | none => ⟨[⟨user.user, path, .statFailed⟩], []⟩
    | some stat =>
      let maxMode := maxModeFor filename
      { details :=
          (if modeWithin stat.mode maxMode then [] else [⟨user.user, path, .mode stat.mode maxMode⟩]) ++
          (if idIs stat.uid user.userUid then [] else [⟨user.user, path, .owner stat.uid user.userUid⟩]) ++
          if idIs stat.gid user.userGid then [] else [⟨user.user, path, .group stat.gid user.userGid⟩]
        warnings := if filename = ".netrc".toList then [(user.user, path)] else [] }

/-- The loop of `scan_dotfiles` for a name, where `scan` is the call for a directory. -/
def inspectEntry (user : RealUser) (rootDev : Nat) (dirPath : Str) (scan : Str → Except Err DotfileReport)
    (name : Str) :
    Except Err DotfileReport :=
  if name = ".".toList || name = "..".toList then .ok .empty
  else
    let path := dirPath ++ "/" ++ name
    match t.lfsSymlinkattributes path with
    | none => .ok .empty
    | some (type, dev) =>
      if dev ≠ rootDev then .ok .empty
      else if isMatch name "^%." then .ok (inspectDotfile faults t user path type)
      else if type = "directory".toList then scan path
      else .ok .empty

/-- Reports one after the other, up to the first call that raises. -/
def reportAll {α : Type} (f : α → Except Err DotfileReport) : List α → Except Err DotfileReport
  | [] => .ok .empty
  | x :: xs => do
    let report ← f x
    let rest ← reportAll f xs
    return report.append rest

/-- `scan_dotfiles`. The number counts the directories a path may still have below it. -/
def scanDotfiles (user : RealUser) (rootDev : Nat) : Nat → Str → Except Err DotfileReport
  | 0, _ => .ok .empty
  | n + 1, dirPath => do
    let names ← t.view.names dirPath
    reportAll (inspectEntry faults t user rootDev dirPath (scanDotfiles user rootDev n)) names

/-- The loop of `inspect_dotfiles` for a user. -/
def inspectHome (user : RealUser) : Except Err DotfileReport :=
  if user.home.head? ≠ some '/' then .ok .empty
  else
    match t.lfsSymlinkattributes user.home with
    | none => .ok .empty
    | some (type, dev) =>
      if type = "directory".toList then scanDotfiles faults t user dev pathMax user.home else .ok .empty

/-- `inspect_dotfiles`, with `params.max_users`. -/
def inspectDotfiles (maxUsersParam : Value) : Except Err (Except Str DotfileReport) :=
  match readEntries t.view "/etc/passwd" 7 with
  | .error err => .ok (.error err)
  | .ok entries =>
    let realUsers := entries.filterMap buildRealUser
    let maxUsers := (tonumber maxUsersParam).getD (.fin 1000)
    if maxUsers.lt (.fin realUsers.length) then
      .ok (.error ("Probe 'users.inspect_dotfiles' found " ++ natStr realUsers.length ++
        " local interactive users, exceeding max_users=" ++ fmtInt maxUsers ++ "."))
    else (reportAll (inspectHome faults t) realUsers).map .ok

end Probe

end Seharden
