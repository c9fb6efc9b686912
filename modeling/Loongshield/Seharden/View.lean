import Loongshield.Seharden.Text

/-!
# What a probe sees of the files

A probe only reads. A `View` answers its calls; `Sys.view` is the view of a state in which every call does what the
files say, given the names in the directories.
-/

namespace Seharden

open Lua

/-- The answers to the calls of a probe: `lfs.attributes(path).mode`, the names `lfs.dir` gives (it raises if it cannot
open the directory), and the lines of a file or the error of `io.open`. -/
structure View where
  mode : Str → Option Str
  names : Str → Except Err (List Str)
  lines : Str → Except Str (List Str)

/-- The names in the directories there are. -/
abbrev Dirs := Str → Option (List Str)

/-- The view of a state. -/
def Sys.view (s : Sys) (dirs : Dirs) : View where
  mode path := if (s.disk path).isSome then some "file".toList else (dirs path).map fun _ => "directory".toList
  names path := match dirs path with
    | some names => .ok names
    | none => .error ("cannot open " ++ path ++ ": No such file or directory")
  lines path := match s.disk path with
    | some file => .ok (splitLines file.content)
    | none => .error (path ++ ": No such file or directory")

/-- The directories list a file iff it is there. -/
def Dirs.List (dirs : Dirs) (s : Sys) : Prop :=
  ∀ dir name, (s.disk (dir ++ "/" ++ name)).isSome = true ↔ ∃ names, dirs dir = some names ∧ name ∈ names ∧
    (s.disk (dir ++ "/" ++ name)).isSome = true

end Seharden
