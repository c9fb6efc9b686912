import Loongshield.Seharden.AuditEnforcer
import Loongshield.Seharden.Sudoers

/-!
# `enforcers/sudo.lua` and `probes/sudo.lua`

The functions for `use_pty` and for `NOPASSWD`. The enforcers load the configuration once to find its files, and then
edit these one after the other; the probes look at the active lines.

- `setUsePty`, `removeNopasswd`: the enforcers;
- `findUsePty`, `findNopasswdEntries`: the probes.
-/

namespace Seharden
namespace Sudo

open Lua Sudoers

/-! ## Enforcers -/

/-- The optional functions in the dependency table of `enforcers/sudo.lua`. -/
def sudoDeps : Deps := { lfsAttributes := true, fsStat := true, fsChown := true, fsChmod := true }

/-- `params.root_path or _dependencies.root_path`. -/
def rootPath (params : Value) : Value :=
  if (params.field "root_path").truthy then params.field "root_path" else .str "/etc/sudoers"

/-- `desired_line` of `set_use_pty`. -/
def desiredLine : Str := "Defaults use_pty"

/-- The new lines of `set_use_pty` for a file. -/
def usePtyLines (isRoot : Bool) (lines : List Str) : List Str :=
  let newLines := lines.filterMap fun line => (rewriteDefaultsWithoutFlag line "use_pty" true).1
  if isRoot && decide (desiredLine ∉ newLines) then newLines ++ [desiredLine] else newLines

/-- `rewrite_sudo_auth_line`: the line (`none` if nothing is left of it), and whether it changed. -/
def rewriteSudoAuthLine (line : Str) : Option Str × Bool :=
  let active := trim (stripComment line)
  if active = [] ∨ active.head? = some '#' then (some line, false)
  else if "nopasswd:".toList <:+: lower active then
    let newLine := substitute line "([Nn][Oo][Pp][Aa][Ss][Ss][Ww][Dd]:)" []
    let newLine := substitute (substitute newLine "%s+" " ") "%s+$" []
    (some ((firstCapture line "^(%s*)").getD [] ++ trim newLine), true)
  else rewriteDefaultsWithoutFlag line "authenticate" true

section Enforcers

variable (env : Env) (dirs : Dirs) (hostname : Option Str)

/-- `collect_paths`: the files that are loaded. -/
def collectPaths (root context : Str) : FsM (Except Str (List Str)) := fun s =>
  match load (s.view dirs) hostname (some context) defaultMaxDepth [root] with
  | .ok st => (.ok (.ok st.files), s)
  | .error (.returned msg) => (.ok (.error msg), s)
  | .error (.raised err) => (.error err, s)

/-- One file of `set_use_pty`. -/
def usePtyFile (root path : Str) : FsM Ret := do
  if ← isSymlink env path then
    return .error ("sudo.set_use_pty: refusing to overwrite symlink '" ++ path ++ "'")
  else
    match ← readLines env path "sudo.set_use_pty" sudoDeps false with
    | .error err => return .error err
    | .ok (lines, _) =>
      if lines = usePtyLines (path = root) lines then return .ok ()
      else writeLinesAtomicallyPreservingAttrs env path (usePtyLines (path = root) lines) "sudo.set_use_pty" sudoDeps

/-- One file of `remove_nopasswd`; a link is skipped. -/
def nopasswdFile (path : Str) : FsM Ret := do
  if ← isSymlink env path then return .ok ()
  else
    match ← readLines env path "sudo.remove_nopasswd" sudoDeps false with
    | .error err => return .error err
    | .ok (lines, _) =>
      if lines.any fun line => (rewriteSudoAuthLine line).2 then
        writeLinesAtomicallyPreservingAttrs env path (lines.filterMap fun line => (rewriteSudoAuthLine line).1)
          "sudo.remove_nopasswd" sudoDeps
      else return .ok ()

/-- The files one after the other, up to the first error. -/
def eachFile (edit : Str → FsM Ret) : List Str → FsM Ret
  | [] => pure (.ok ())
  | path :: paths => do
    match ← edit path with
    | .error err => return .error err
    | .ok () => eachFile edit paths

/-- The course of both enforcers. -/
def editSudoers (context : Str) (edit : Str → Str → FsM Ret) (params : Value) : FsM Ret :=
  if !isSafePath (rootPath params) then return .error (context ++ ": requires a safe root_path")
  else do
    let root := (rootPath params).tostring
    if ← isSymlink env root then
      return .error (context ++ ": refusing to overwrite symlink '" ++ root ++ "'")
    else
      match ← collectPaths dirs hostname root context with
      | .error err => return .error err
      | .ok paths => eachFile (edit root) paths

/-- `set_use_pty`. -/
def setUsePty (params : Value) : FsM Ret :=
  editSudoers env dirs hostname "sudo.set_use_pty" (fun root path => usePtyFile env root path) params

/-- `remove_nopasswd`. -/
def removeNopasswd (params : Value) : FsM Ret :=
  editSudoers env dirs hostname "sudo.remove_nopasswd" (fun _ path => nopasswdFile env path) params

end Enforcers

/-! ## Probes -/

section Probes

variable (view : View) (hostname : Option Str) (paths : Option (List Str))

/-- `load_probe_lines`, with the paths of the parameters. -/
def loadProbeLines (probeName : Str) : Except LoadErr (List ActiveLine) :=
  let paths := paths.getD ["/etc/sudoers".toList]
  if paths = [] then .error (.returned ("Probe '" ++ probeName ++ "' requires a non-empty 'paths' list."))
  else (load view hostname none defaultMaxDepth paths).map State.lines

/-- What `find_use_pty` returns; the counts are the lengths of the lists. -/
structure UsePtyReport where
  details : List ActiveLine
  conflicts : List ActiveLine
  deriving DecidableEq

namespace UsePtyReport

def found (report : UsePtyReport) : Bool := 0 < report.details.length

def count (report : UsePtyReport) : Nat := report.details.length

def conflictingCount (report : UsePtyReport) : Nat := report.conflicts.length

end UsePtyReport

/-- The scope of a line, if it is a `Defaults` line. -/
def defaultsScope (text : Str) : Option Scope := (parseDefaultsEntry text).map DefaultsEntry.scope

/-- A line that disables `use_pty`. -/
def isConflict (entry : ActiveLine) : Bool :=
  getDefaultsFlagState entry.text "use_pty" = some false && (defaultsScope entry.text).isSome

/-- A line that enables `use_pty` for everyone. -/
def enablesUsePty (entry : ActiveLine) : Bool :=
  getDefaultsFlagState entry.text "use_pty" = some true && defaultsScope entry.text = some .global

/-- `find_use_pty`. -/
def findUsePty : Except LoadErr UsePtyReport := do
  let lines ← loadProbeLines view hostname paths "sudo.find_use_pty"
  return { details := lines.filter enablesUsePty, conflicts := lines.filter isConflict }

/-- Why a line lets someone run commands without a password. -/
inductive Reason
  | nopasswdTag
  | authenticateDisabled
  deriving DecidableEq

/-- The reason a line is reported, if it is. -/
def nopasswdReason (text : Str) : Option Reason :=
  match defaultsScope text with
  | none => if "nopasswd:".toList <:+: lower text then some .nopasswdTag else none
  | some _ => if getDefaultsFlagState text "authenticate" = some false then some .authenticateDisabled else none

/-- `find_nopasswd_entries`: the lines that are reported; `count` is their number, and no line has a value. -/
def findNopasswdEntries : Except LoadErr (List (ActiveLine × Reason)) := do
  let lines ← loadProbeLines view hostname paths "sudo.find_nopasswd_entries"
  return lines.filterMap fun entry => (nopasswdReason entry.text).map fun reason => (entry, reason)

end Probes

end Sudo
end Seharden
