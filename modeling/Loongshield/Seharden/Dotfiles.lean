import Loongshield.Lib.Act
import Loongshield.Seharden.Tree

/-!
# Dot files: `shared/account_files.lua`, `shared/dotfiles.lua` and `enforcers/users.lua`

The enforcer walks through the home directories of the users that can log in. Forbidden files are removed; other dot
files get a mode that is not too permissive and the owner and group of the user.
-/

namespace Seharden

open Lua

/-! ## Accounts -/

/-- `NON_LOGIN_SHELLS`. -/
def nonLoginShells : List Str :=
  ["/bin/false".toList, "/bin/nologin".toList, "/usr/bin/false".toList, "/usr/sbin/nologin".toList,
    "/sbin/nologin".toList, "/usr/bin/nologin".toList]

/-- `split_colon_fields`. -/
def splitColonFields (line : Str) : List Str := line.splitOn ':'

/-- `read_entries`, of the lines of a file that was opened. -/
def accountEntries (minFields : Nat) (lines : List Str) : List (List Str) :=
  ((lines.filter fun line => !isMatch line "^#").map splitColonFields).filter fun parts => minFields ≤ parts.length

/-- `read_entries`. -/
def readEntries (view : View) (path : Str) (minFields : Nat) : Except Str (List (List Str)) :=
  match view.lines path with
  | .ok lines => .ok (accountEntries minFields lines)
  | .error _ => .error ("Could not open " ++ path ++ " for reading.")

/-- A field of an entry, from `0`. -/
def entryField (parts : List Str) (i : Nat) : Str := parts.getD i []

/-- A user that can log in. -/
structure RealUser where
  user : Str
  userUid : Option Flt
  userGid : Option Flt
  home : Str
  deriving DecidableEq

/-- `build_real_user`. -/
def buildRealUser (parts : List Str) : Option RealUser :=
  if entryField parts 0 = "nfsnobody".toList || nonLoginShells.contains (entryField parts 6) then none
  else some ⟨entryField parts 0, strscan (entryField parts 2), strscan (entryField parts 3), entryField parts 5⟩

/-! ## Dot files -/

/-- `is_forbidden`. -/
def isForbidden (filename : Str) : Bool := filename = ".forward".toList || filename = ".rhosts".toList

/-- `max_mode_for`. -/
def maxModeFor (filename : Str) : BitVec 12 :=
  if filename = ".bash_history".toList || filename = ".netrc".toList then 0o600 else 0o644

/-- `basename`. -/
def basename (path : Str) : Str := (firstCapture path "([^/]+)$").getD path

/-- An id of a file is the one of the user: `stat:uid() == user.user_uid`. -/
def idIs (id : BitVec 32) (expected : Option Flt) : Bool := expected == some (.fin id.toNat)

/-- A number as an id: `(uid_t)luaL_checkinteger(…)`. -/
def idArg : Flt → BitVec 32
  | .fin q => .ofInt 32 (if 0 ≤ q then ⌊q⌋ else ⌈q⌉)
  | _ => .ofInt 32 (-2 ^ 63)

/-- A function of an enforcer that works on the files. -/
abbrev TreeM := Act Tree Err

section Enforcer

variable (faults : Faults)

/-- `os.remove(path)`. -/
def osRemoveFile (path : Str) : TreeM Ret :=
  .step fun t => match faults.remove path with
    | some err => (.error err, t)
    | none => if t.occupied path then (.error (path ++ ": Directory not empty"), t) else (.ok (), t.remove path)

/-- `fs.chmod(path, mode)`. -/
def fsChmodFile (path : Str) (mode : BitVec 12) : TreeM Ret :=
  .step fun t => match faults.chmod path with
    | some err => (.error err, t)
    | none => (.ok (), t.chmod path mode)

/-- `fs.chown(path, uid, gid)`; `nil` is no number. -/
def fsChownFile (path : Str) (uid gid : Option Flt) : TreeM Ret :=
  match uid, gid with
  | some uid, some gid => .step fun t => match faults.chown path with
      | some err => (.error err, t)
      | none => (.ok (), t.chown path (idArg uid) (idArg gid))
  | _, _ => .raise "bad argument to 'chown' (number expected, got nil)"

/-- The end of `fix_dotfile`: the owner and the group. -/
def fixDotfileOwner (path : Str) (user : RealUser) (stat : Access) : TreeM Ret := do
  if idIs stat.uid user.userUid && idIs stat.gid user.userGid then return .ok ()
  else
    match ← fsChownFile faults path user.userUid user.userGid with
    | .error err => return .error ("users.fix_dotfiles: failed to chown '" ++ path ++ "': " ++ err)
    | .ok () => return .ok ()

/-- `fix_dotfile`. -/
def fixDotfile (path : Str) (user : RealUser) : TreeM Ret := do
  let filename := basename path
  if isForbidden filename then
    match ← osRemoveFile faults path with
    | .error err => return .error ("users.fix_dotfiles: failed to remove '" ++ path ++ "': " ++ err)
    | .ok () => return .ok ()
  else
    let attr ← .step fun t => (t.lfsSymlinkattributes path, t)
    if attr.map Prod.fst ≠ some "file".toList then return .ok ()
    else
      match ← .step fun t => (faults.fsStat t path, t) with
      | none => return .ok ()
      | some stat =>
        let maxMode := maxModeFor filename
        if modeWithin stat.mode maxMode then fixDotfileOwner faults path user stat
        else
          match ← fsChmodFile faults path maxMode with
          | .error err => return .error ("users.fix_dotfiles: failed to chmod '" ++ path ++ "': " ++ err)
          | .ok () => fixDotfileOwner faults path user stat

/-- The loop of `scan_and_fix_dotfiles` over the names of a directory, where `scan` is the call for a directory in
it. -/
def scanNames (user : RealUser) (rootDev : Nat) (dirPath : Str) (scan : Str → TreeM Ret) : List Str → TreeM Ret
  | [] => return .ok ()
  | name :: names => do
    if name = ".".toList || name = "..".toList then scanNames user rootDev dirPath scan names
    else
      let path := dirPath ++ "/" ++ name
      match ← .step fun t => (t.lfsSymlinkattributes path, t) with
      | none => scanNames user rootDev dirPath scan names
      | some (type, dev) =>
        let fixed ← if dev ≠ rootDev then pure (.ok ())
          else if isMatch name "^%." then fixDotfile faults path user
          else if type = "directory".toList then scan path
          else pure (.ok ())
        match fixed with
        | .error err => return .error err
        | .ok () => scanNames user rootDev dirPath scan names

/-- `scan_and_fix_dotfiles`. The number counts the directories a path may still have below it. -/
def scanAndFixDotfiles (user : RealUser) (rootDev : Nat) : Nat → Str → TreeM Ret
  | 0, _ => return .ok ()
  | n + 1, dirPath => do
    let names ← fun t => (t.view.names dirPath, t)
    scanNames faults user rootDev dirPath (scanAndFixDotfiles user rootDev n) names

/-- The loop of `fix_dotfiles` over the users. -/
def fixHomes : List RealUser → TreeM Ret
  | [] => return .ok ()
  | user :: users => do
    if user.home.head? ≠ some '/' then fixHomes users
    else
      match ← .step fun t => (t.lfsSymlinkattributes user.home, t) with
      | some (type, dev) =>
        if type = "directory".toList then
          match ← scanAndFixDotfiles faults user dev pathMax user.home with
          | .error err => return .error err
          | .ok () => fixHomes users
        else fixHomes users
      | none => fixHomes users

/-- The parameters of `fix_dotfiles`. -/
structure DotfilesParams where
  passwdPath : Option Str
  maxUsers : Value

/-- `fix_dotfiles`. -/
def fixDotfiles (params : DotfilesParams) : TreeM Ret := do
  match ← .step fun t => (readEntries t.view (params.passwdPath.getD "/etc/passwd") 7, t) with
  | .error err => return .error ("users.fix_dotfiles: " ++ err)
  | .ok entries =>
    let realUsers := entries.filterMap buildRealUser
    let maxUsers := (tonumber params.maxUsers).getD (.fin 1000)
    if maxUsers.lt (.fin realUsers.length) then
      return .error ("users.fix_dotfiles: found " ++ natStr realUsers.length ++
        " local interactive users, exceeding max_users=" ++ fmtInt maxUsers)
    else fixHomes faults realUsers

end Enforcer

end Seharden
