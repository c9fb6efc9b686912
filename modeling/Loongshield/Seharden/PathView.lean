import Loongshield.Lib.Queue
import Loongshield.Seharden.SshdDiscovery

/-!
# `shared/path_list.lua` for the probes

`expand_files` as the probes use it, which only read: what the calls give is up to a `View`.

- `View.expandFiles`: the files that a list of paths names;
- `expandFiles_file`, `expandFiles_nodup`: they are regular files, each named once.
-/

namespace Seharden

open Lua Pattern

namespace View

variable (view : View)

/-- The paths below the bases whose last part matches a wildcard. -/
def globBases (pattern : Str) : List Str → Except Err (List Str)
  | [] => .ok []
  | base :: bases =>
    if view.mode base = some "directory".toList then do
      let names ← matchingNames pattern (← view.names base)
      let rest ← globBases pattern bases
      return names.map (joinPath base) ++ rest
    else globBases pattern bases

/-- The loop of `expand_glob_path` over the parts of the path. -/
def globParts : List Str → List Str → Except Err (List Str)
  | [], bases => .ok bases
  | part :: parts, bases =>
    if part = ".".toList then globParts parts bases
    else if part = "..".toList then globParts parts (unique (bases.map parentPath))
    else if hasWildcard part then do
      let found ← globBases view (globToPattern part) bases
      globParts parts (unique found)
    else globParts parts (unique (bases.map fun base => joinPath base part))

/-- `expand_glob_path`. -/
def expandGlobPath (pathGlob : Str) : Except Err (List Str) :=
  globParts view (captures pathGlob "[^/]+") [if pathGlob.head? = some '/' then "/".toList else ".".toList]

/-- The loop of `expand_files`. -/
def expandSpecs : List Str → List Str → Except Err (List Str)
  | [], expanded => .ok expanded
  | spec :: specs, expanded =>
    if spec = [] then expandSpecs specs expanded
    else do
      let candidates ← if hasWildcard spec then expandGlobPath view spec else .ok [spec]
      expandSpecs specs ((candidates.filter (pathExistsAsFile view)).foldl appendUnique expanded)

/-- `expand_files`. -/
def expandFiles (pathSpecs : List Str) : Except Err (List Str) := expandSpecs view pathSpecs []

end View

theorem foldl_appendUnique_eq (files queue : List Str) :
    files.foldl appendUnique queue = Queue.pushAll queue files := by
  have hfun : appendUnique = Queue.push := by
    funext queue path
    exact (push_eq queue path).symm
  rw [hfun]
  rfl

theorem expandSpecs_file {view : View} : ∀ {specs expanded files : List Str},
    (∀ f ∈ expanded, view.mode f = some "file".toList) →
    view.expandSpecs specs expanded = .ok files → ∀ f ∈ files, view.mode f = some "file".toList
  | [], expanded, files, hexp, h => by
    cases h
    exact hexp
  | spec :: specs, expanded, files, hexp, h => by
    rw [View.expandSpecs] at h
    by_cases hspec : spec = []
    · rw [if_pos hspec] at h
      exact expandSpecs_file hexp h
    · rw [if_neg hspec] at h
      have hstep : ∀ candidates : List Str,
          ∀ f ∈ (candidates.filter (pathExistsAsFile view)).foldl appendUnique expanded, view.mode f =
          some "file".toList := by
        intro candidates f hf
        rw [foldl_appendUnique_eq, Queue.mem_pushAll] at hf
        rcases hf with hf | hf
        · exact hexp f hf
        · exact beq_iff_eq.mp (List.mem_filter.mp hf).2
      split at h
      · cases hglob : view.expandGlobPath spec with
        | error e =>
          rw [hglob] at h
          cases h
        | ok candidates =>
          rw [hglob] at h
          exact expandSpecs_file (hstep candidates) h
      · exact expandSpecs_file (hstep [spec]) h

/-- What is named are regular files. -/
theorem expandFiles_file {view : View} {specs files : List Str} (h : view.expandFiles specs = .ok files) :
    ∀ f ∈ files, view.mode f = some "file".toList :=
  expandSpecs_file (fun _ hf => absurd hf List.not_mem_nil) h

theorem expandSpecs_nodup {view : View} : ∀ {specs expanded files : List Str}, expanded.Nodup →
    view.expandSpecs specs expanded = .ok files → files.Nodup
  | [], expanded, files, hexp, h => by
    cases h
    exact hexp
  | spec :: specs, expanded, files, hexp, h => by
    have hstep : ∀ candidates : List Str,
        ((candidates.filter (pathExistsAsFile view)).foldl appendUnique expanded).Nodup := by
      intro candidates
      rw [foldl_appendUnique_eq]
      exact Queue.pushAll_nodup hexp
    rw [View.expandSpecs] at h
    split at h
    · exact expandSpecs_nodup hexp h
    · split at h
      · cases hglob : view.expandGlobPath spec with
        | error e =>
          rw [hglob] at h
          cases h
        | ok candidates =>
          rw [hglob] at h
          exact expandSpecs_nodup (hstep candidates) h
      · exact expandSpecs_nodup (hstep [spec]) h

/-- What is named does not depend on the lines of the files. -/
theorem expandFiles_congr {view view' : View} (hmode : view.mode = view'.mode) (hnames : view.names = view'.names)
    (paths : List Str) : view.expandFiles paths = view'.expandFiles paths := by
  have hbases : ∀ pattern bases, view.globBases pattern bases = view'.globBases pattern bases := by
    intro pattern bases
    induction bases with
    | nil => rfl
    | cons base bases ih => rw [View.globBases, View.globBases, hmode, hnames, ih]
  have hparts : ∀ parts bases, view.globParts parts bases = view'.globParts parts bases := by
    intro parts
    induction parts with
    | nil => exact fun _ => rfl
    | cons part parts ih =>
      intro bases
      rw [View.globParts, View.globParts]
      simp only [hbases, ih]
  have hspecs : ∀ specs expanded, view.expandSpecs specs expanded = view'.expandSpecs specs expanded := by
    intro specs
    induction specs with
    | nil => exact fun _ => rfl
    | cons spec specs ih =>
      intro expanded
      have hfile : pathExistsAsFile view = pathExistsAsFile view' := by
        funext path
        unfold pathExistsAsFile
        rw [hmode]
      rw [View.expandSpecs, View.expandSpecs]
      simp only [View.expandGlobPath, hparts, ih, hfile]
  exact hspecs paths []

/-- No file is named twice. -/
theorem expandFiles_nodup {view : View} {specs files : List Str} (h : view.expandFiles specs = .ok files) :
    files.Nodup :=
  expandSpecs_nodup List.nodup_nil h

end Seharden
