import Loongshield.Lua.Match
import Loongshield.Seharden.FileSystem

/-!
# `enforcers/fsutil.lua`

Reading lines, and replacing a file by a new one: the lines are written to a temporary file in the same directory,
which is then renamed to the path. A dependency table without an optional function (`Deps`) skips the calls that need
it.
-/

namespace Seharden

open Lua

/-- The optional functions of a dependency table. -/
structure Deps where
  lfsAttributes : Bool
  fsStat : Bool
  fsChown : Bool
  fsChmod : Bool

/-- A call of an optional function: `deps.f and deps.f(…) or …`. -/
def optionalCall {α : Type} (present : Bool) (call : FsM α) (otherwise : α) : FsM α :=
  if present then call else pure otherwise

section Fsutil

variable (env : Env)

/-- `is_symlink`. -/
def isSymlink (path : Str) : FsM Bool := do
  return (← lfsAttributes env path) == some "link".toList

/-- The first capture of a match, if there is one. -/
def firstCapture (s pattern : Str) : Option Str :=
  match strMatch s pattern with
  | .ok (some (.str c :: _)) => some c
  | _ => none

/-- `split_path`. -/
def splitPath (path : Str) : Str × Str :=
  ((firstCapture path "^(.*)/[^/]+$").getD ".".toList, (firstCapture path "([^/]+)$").getD path)

/-- `read_lines`: the lines and whether the file exists, or an error. -/
def readLines (path context : Str) (deps : Deps) (missingAsEmpty : Bool) : FsM (Except Str (List Str × Bool)) := do
  let attr ← optionalCall deps.lfsAttributes (lfsAttributes env path) none
  let mode := attr.getD "file".toList
  if mode ≠ "file".toList then
    return .error (context ++ ": path '" ++ path ++ "' is a " ++ mode ++ ", not a file")
  else
    match ← ioOpenRead env path with
    | .error err =>
      if attr.isSome || !missingAsEmpty then
        return .error (context ++ ": could not open '" ++ path ++ "': " ++ err)
      else return .ok ([], false)
    | .ok () =>
      let lines ← fileLines env path
      return .ok (lines, true)

/-- The temporary name for a path. -/
def tmpPath (path nonce : Str) : Str :=
  (splitPath path).1 ++ "/." ++ (splitPath path).2 ++ ".loongshield.tmp." ++ nonce

/-- The loop of writes of `write_lines_atomically`; what `write` returns is not looked at. -/
def writeLines (tmp : Str) : List Str → FsM Unit
  | [] => pure ()
  | line :: lines => do
    let _ ← fileWrite env tmp (line ++ "\n")
    writeLines tmp lines

/-- The end of `write_lines_atomically`: the temporary file is closed and renamed to the path. -/
def replaceBy (tmp path context : Str) : FsM Ret := do
  match ← fileClose env tmp with
  | .error err =>
    let _ ← osRemove env tmp
    return .error (context ++ ": cannot close temp file '" ++ tmp ++ "': " ++ err)
  | .ok () =>
    if ← isSymlink env path then
      let _ ← osRemove env tmp
      return .error (context ++ ": refusing to replace symlink '" ++ path ++ "'")
    else
      match ← osRename env tmp path with
      | .error err =>
        let _ ← osRemove env tmp
        return .error (context ++ ": cannot replace '" ++ path ++ "': " ++ err)
      | .ok () => return .ok ()

/-- `write_lines_atomically`. -/
def writeLinesAtomically (path : Str) (lines : List Str) (context : Str) : FsM Ret := do
  let nonce ← .step fun s => (env.nonce s.clock, s)
  let tmp := tmpPath path nonce
  if ← isSymlink env path then
    return .error (context ++ ": refusing to overwrite symlink '" ++ path ++ "'")
  else
    match ← ioOpenWrite env tmp with
    | .error err => return .error (context ++ ": cannot open temp file '" ++ tmp ++ "': " ++ err)
    | .ok () =>
      writeLines env tmp lines
      replaceBy env tmp path context

/-- The end of `write_lines_atomically_preserving_attrs`: the owner and the mode the path had before. -/
def restoreAttrs (path context : Str) (deps : Deps) : Option File → FsM Ret
  | none => return .ok ()
  | some file => do
    match ← optionalCall deps.fsChown (fsChown env path file.uid file.gid) (.ok ()) with
    | .error err => return .error (context ++ ": cannot restore owner on '" ++ path ++ "': " ++ err)
    | .ok () =>
      match ← optionalCall deps.fsChmod (fsChmod env path file.mode) (.ok ()) with
      | .error err => return .error (context ++ ": cannot restore mode on '" ++ path ++ "': " ++ err)
      | .ok () => return .ok ()

/-- The replacement, and then the attributes `stat` has. -/
def writeAndRestore (path : Str) (lines : List Str) (context : Str) (deps : Deps) (stat : Option File) : FsM Ret := do
  match ← writeLinesAtomically env path lines context with
  | .error err => return .error err
  | .ok () => restoreAttrs env path context deps stat

/-- `write_lines_atomically_preserving_attrs`. -/
def writeLinesAtomicallyPreservingAttrs (path : Str) (lines : List Str) (context : Str) (deps : Deps) : FsM Ret := do
  let stat ← optionalCall deps.fsStat (fsStat env path) none
  writeAndRestore env path lines context deps stat

/-- The lines of a file that is read if it can be opened: `if f_in then for line in f_in:lines() …`. -/
def openedLines (path : Str) : FsM (List Str) := do
  match ← ioOpenRead env path with
  | .ok () => fileLines env path
  | .error _ => return []

/-- The course of the functions that edit one file: a link is refused, the lines are read, and the edited lines are
written unless there is nothing to do. -/
def rewriteFile (path context : Str) (read : FsM (List Str)) (edit : List Str → Except Err (Option (List Str)))
    (write : List Str → FsM Ret) : FsM Ret := do
  if ← isSymlink env path then
    return .error (context ++ ": refusing to overwrite symlink '" ++ path ++ "'")
  else
    let lines ← read
    match ← Act.lift (edit lines) with
    | none => return .ok ()
    | some lines => write lines

/-- The loop that looks for a line equal to `target`; if there is none, its text is put behind the others. -/
def appendMissing (target : Value) (text : Str) (lines : List Str) : Option (List Str) :=
  if lines.any fun line => Value.rawEq (.str line) target then none else some (lines ++ [text])

/-- `append_unique_line`. -/
def appendUniqueLine (path targetLine context : Str) (deps : Deps) : FsM Ret :=
  rewriteFile env path context (openedLines env path) (fun lines =>
    .ok (appendMissing (.str targetLine) targetLine lines))
    fun lines => writeLinesAtomicallyPreservingAttrs env path lines context deps

end Fsutil

/-! ## Paths -/

section Paths

open Pattern

variable {dir base : Str}

theorem compile_name : compile "([^/]+)$" = [.capOpen, .single (allBut '/') .plus, .capClose, .atEnd] := rfl

theorem firstCapture_dirname (hne : base ≠ []) (hbase : '/' ∉ base) :
    firstCapture (dir ++ '/' :: base) "^(.*)/[^/]+$" = some dir := by
  have hname : ∀ y ∈ base, (allBut '/').test y = true := fun y hy => allBut_test.mpr fun h => hbase (h ▸ hy)
  have hslash : ∀ y ∈ base, (Single.lit '/').test y = false := by
    intro y hy
    have hy' : '/' ≠ y := fun h => hbase (h ▸ hy)
    exact beq_eq_false_iff_ne.mpr hy'
  have hdir : strMatch (dir ++ '/' :: base) "^(.*)/[^/]+$" = .ok (some [.str dir]) :=
    strMatch_beforeLast rfl rfl hne hname hslash
  unfold firstCapture
  rw [hdir]

/-- The directory and the name of a file. -/
theorem splitPath_slash (hne : base ≠ []) (hbase : '/' ∉ base) : splitPath (dir ++ '/' :: base) = (dir, base) := by
  have hname : ∀ y ∈ base, (allBut '/').test y = true := fun y hy => allBut_test.mpr fun h => hbase (h ▸ hy)
  have hlast : strMatch (dir ++ ['/'] ++ base) "([^/]+)$" = .ok (some [.str base]) :=
    strMatch_lastRun compile_name (by decide) hne hname fun m hm => by
      rw [List.append_assoc]
      exact doMatch_lastRun_none (allBut_test_eq_false.mpr rfl) (by simpa [Nat.lt_succ_iff] using hm)
  rw [List.append_assoc] at hlast
  have hfile : firstCapture (dir ++ '/' :: base) "([^/]+)$" = some base := by
    unfold firstCapture
    rw [show strMatch (dir ++ '/' :: base) "([^/]+)$".toList = _ from hlast]
  rw [splitPath, firstCapture_dirname hne hbase, hfile]
  rfl

/-- A path without a directory, or with a slash at its end, is its own name. -/
theorem splitPath_name {path : Str} (h : '/' ∉ path ∨ ∃ dir, path = dir ++ ['/']) : (splitPath path).2 = path := by
  unfold splitPath firstCapture
  rcases h with hno | ⟨dir, rfl⟩
  · cases path with
    | nil => rfl
    | cons x path =>
      have hlast : strMatch ([] ++ (x :: path)) "([^/]+)$" = .ok (some [.str (x :: path)]) :=
        strMatch_lastRun compile_name (by decide) (by simp) (fun y hy => allBut_test.mpr fun h => hno (h ▸ hy))
          (by simp)
      rw [show strMatch (x :: path) "([^/]+)$".toList = _ from hlast]
      rfl
  · have hnone : strMatch (dir ++ ['/']) "([^/]+)$" = .ok none :=
      strMatch_lastRun_none compile_name (by decide) (allBut_test_eq_false.mpr rfl)
    rw [hnone]
    rfl

/-- The temporary file is another file. -/
theorem tmpPath_ne (path nonce : Str) : tmpPath path nonce ≠ path := by
  have hlen : path.length ≤ (splitPath path).1.length + 1 + (splitPath path).2.length := by
    by_cases hname : '/' ∉ path ∨ ∃ dir, path = dir ++ ['/']
    · rw [splitPath_name hname]
      omega
    · obtain ⟨hmem, hend⟩ := not_or.mp hname
      rw [not_not] at hmem
      -- the name is what follows the last slash
      obtain ⟨revBase, revDir, hrev, hbase⟩ := List.eq_append_cons_of_mem (List.mem_reverse.mpr hmem)
      have hpath : path = revDir.reverse ++ '/' :: revBase.reverse := by
        rw [← List.reverse_reverse path, hrev]
        simp
      have hne : revBase.reverse ≠ [] := by
        intro hnil
        rw [hnil] at hpath
        exact hend ⟨_, hpath⟩
      rw [hpath, splitPath_slash hne (by simpa using hbase)]
      simp only [List.length_append, List.length_cons]
      omega
  intro h
  have hlong := congrArg List.length h
  simp only [tmpPath, List.length_append] at hlong
  have hdot : "/.".toList.length = 2 := rfl
  omega

end Paths

end Seharden
