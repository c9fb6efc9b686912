import Loongshield.Seharden.Comparators
import Loongshield.Seharden.Text

/-!
# `shared/path_list.lua`

A list of paths, some of them with wildcards, is expanded to the files it names. What `lfs.dir` gives is up to the
environment, as the outcome of every other call is.
-/

namespace Seharden

open Lua

/-- What `lfs.dir` gives as call `k`: the names in a directory, or the error it raises. -/
abbrev Listing := Nat → Str → Except Err (List Str)

/-- `for name in lfs.dir(path)`. -/
def lfsDir (ls : Listing) (path : Str) : FsM (List Str) := fun s => (ls s.clock path, s.tick)

/-- `join_path`. -/
def joinPath (base part : Str) : Str :=
  if base = ".".toList then part else if base = "/".toList then "/" ++ part else base ++ "/" ++ part

/-- `has_wildcard`. -/
def hasWildcard (s : Str) : Bool := isMatch s "[%*%?%[]"

/-- The directory above a base of a glob. -/
def parentPath (base : Str) : Str :=
  if base = "/".toList then base else (firstCapture base "^(.*)/[^/]+$").getD ".".toList

/-- The names of a directory that match a pattern; the glob of a profile can make a pattern that raises. -/
def matchingNames (pattern : Str) : List Str → Except Err (List Str)
  | [] => .ok []
  | name :: names => do
    if name = ".".toList || name = "..".toList then matchingNames pattern names
    else
      let m ← strMatch name pattern
      let rest ← matchingNames pattern names
      return if m.isSome then name :: rest else rest

section PathList

variable (env : Env) (ls : Listing)

/-- The paths below the bases whose last part matches a wildcard. -/
def globBases (pattern : Str) : List Str → FsM (List Str)
  | [] => return []
  | base :: bases => do
    if (← lfsAttributes env base) = some "directory".toList then
      let names ← Act.lift (matchingNames pattern (← lfsDir ls base))
      let rest ← globBases pattern bases
      return names.map (joinPath base) ++ rest
    else globBases pattern bases

/-- The loop of `expand_glob_path` over the parts of the path. -/
def globParts : List Str → List Str → FsM (List Str)
  | [], bases => return bases
  | part :: parts, bases => do
    if part = ".".toList then globParts parts bases
    else if part = "..".toList then globParts parts (unique (bases.map parentPath))
    else if hasWildcard part then
      let found ← globBases env ls (globToPattern part) bases
      globParts parts (unique found)
    else globParts parts (unique (bases.map fun base => joinPath base part))

/-- `expand_glob_path`. -/
def expandGlobPath (pathGlob : Str) : FsM (List Str) :=
  globParts env ls (captures pathGlob "[^/]+") [if pathGlob.head? = some '/' then "/".toList else ".".toList]

/-- Those of the candidates that are files and were not seen yet. -/
def collectFiles : List Str → List Str → FsM (List Str)
  | [], expanded => return expanded
  | path :: paths, expanded => do
    if (← lfsAttributes env path) = some "file".toList then collectFiles paths (appendUnique expanded path)
    else collectFiles paths expanded

/-- The loop of `expand_files`. -/
def expandSpecs : List Value → List Str → FsM (List Str)
  | [], expanded => return expanded
  | .str spec :: specs, expanded => do
    if spec = [] then expandSpecs specs expanded
    else
      let candidates ← if hasWildcard spec then expandGlobPath env ls spec else pure [spec]
      let expanded ← collectFiles env candidates expanded
      expandSpecs specs expanded
  | _ :: specs, expanded => expandSpecs specs expanded

/-- `expand_files`. -/
def expandFiles (pathSpecs : Value) : FsM (List Str) := do
  let specs ← Act.lift (ipairsArg pathSpecs)
  expandSpecs env ls specs []

end PathList

end Seharden
