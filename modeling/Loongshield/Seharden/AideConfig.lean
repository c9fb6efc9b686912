import Mathlib.Data.Set.Finite.List
import Loongshield.Lib.Queue
import Loongshield.Seharden.Aide

/-!
# `probes/aide.lua`: rules

The rules and the aliases are read from the configuration files, which name others with `@@include`. The probe reports
for each path the rule that leaves out the fewest attributes.

- `parseConfigFiles`, `inspectRequiredFileRules`: the probe;
- `parseLoop_eq`: its loop is the loop of a queue;
- `inspectRequiredFileRules_ends`: it ends whatever the files name;
- `aide_resolution`: that, and what attributes are resolved to.
-/

namespace Seharden
namespace Aide

open Lua Pattern

/-! ## The configuration -/

/-- The loop of `strip_inline_comment`: whether it is in quotes, and the character before. -/
def stripLoop : Bool → Bool → Option Char → Str → Str
  | _, _, _, [] => []
  | single, double, previous, c :: rest =>
    if c = '\'' ∧ double = false then c :: stripLoop (!single) double (some c) rest
    else if c = '"' ∧ single = false then c :: stripLoop single (!double) (some c) rest
    else if c = '#' ∧ single = false ∧ double = false ∧ previous.all isspace then []
    else c :: stripLoop single double (some c) rest

/-- `strip_inline_comment`. -/
def stripInlineComment (line : Str) : Str := stripLoop false false none line

/-- `dirname`. -/
def dirname (path : Str) : Str := (firstCapture path "^(.*)/[^/]+$").getD ".".toList

/-- `join_path`. -/
def joinInclude (base part : Str) : Str :=
  if part.head? = some '/' then part
  else if base = "/".toList then "/" ++ part
  else substitute base "/$" [] ++ "/" ++ part

/-- `normalize_include_args`. -/
def normalizeIncludeArgs (line : Str) : List Str :=
  (captures line "%S+").map fun value => substitute (substitute value "^\"" []) "\"$" []

/-- How the reading of the files stops: a call raises, or `nil` and a text are returned. -/
inductive Stop
  | raised (e : Err)
  | failed (e : Str)
  deriving DecidableEq

/-- A call that may raise. -/
def orRaise {α : Type} (x : Except Err α) : Except Stop α := x.mapError .raised

/-- The entries of `rules`. -/
structure Rule where
  pathPattern : Str
  expr : Str
  source : Str
  deriving DecidableEq

/-- The tables of `parse_config_files`; the last assignment of an alias stands first. -/
structure Config where
  aliases : List (Str × Str)
  rules : List Rule

section Parse

variable (view : View)

/-- `sorted_files`. -/
def sortedFiles (paths : List Str) : Except Err (List Str) := do
  return sortStrs (← view.expandFiles paths)

/-- The names of a directory that are taken. -/
def takenNames (namePattern : Option Str) : List Str → Except Err (List Str)
  | [] => .ok []
  | name :: names => do
    if name = ".".toList ∨ name = "..".toList then takenNames namePattern names
    else
      let found ← nameMatches namePattern name
      let rest ← takenNames namePattern names
      return if found then name :: rest else rest

/-- `sorted_directory_files`; nothing if the directory cannot be opened. -/
def sortedDirectoryFiles (path : Str) (namePattern : Option Str) : Except Err (Option (List Str)) :=
  if view.mode path ≠ some "directory".toList then .ok (some [])
  else
    match view.names path with
    | .error _ => .ok none
    | .ok names => do
      let names ← takenNames namePattern names
      return some (((sortStrs names).map fun name => path ++ "/" ++ name).filter (pathExistsAsFile view))

/-- The `candidates` of `add_include_files`. -/
def includeCandidates (currentPath : Str) : List Str → Except Stop (List Str)
  | [] => .ok []
  | arg :: args =>
    let includePath := joinInclude (dirname currentPath) arg
    let mode := view.mode includePath
    if hasWildcard includePath then orRaise (sortedFiles view [includePath])
    else if mode = some "directory".toList then do
      match ← orRaise (sortedDirectoryFiles view includePath args.head?) with
      | some candidates => return candidates
      | none => .error (.failed ("Could not enumerate AIDE include directory '" ++ includePath ++ "'"))
    else if mode = some "file".toList then .ok [includePath]
    else .ok []

/-- `add_include_files`; `seen` has what is in `files`. -/
def addIncludeFiles (files : List Str) (currentPath : Str) (includeArgs : List Str) : Except Stop (List Str) := do
  return (← includeCandidates view currentPath includeArgs).foldl appendUnique files

/-- What follows an `@@include` or `@@x_include`. -/
def includeRest (trimmed : Str) : Option Str :=
  match matchCaptures trimmed "^(@@[%w_]+)%s*(.*)$" with
  | some [directive, rest] =>
    if directive = "@@include".toList ∨ directive = "@@x_include".toList then some rest else none
  | _ => none

/-- A line that is no include: an alias, a rule, or nothing. -/
def parseEntry (path trimmed : Str) (config : Config) : Config :=
  if isMatch trimmed "^[!%-]" then config
  else
    match matchCaptures trimmed "^([%w_]+)%s*=%s*(.+)$" with
    | some [name, expr] => { config with aliases := (name, trim expr) :: config.aliases }
    | _ =>
      match matchCaptures trimmed "^([^%s]+)%s+(.+)$" with
      | some [selector, ruleExpr] =>
        { config with rules := config.rules ++ [
            { pathPattern := substitute (substitute selector "^=" []) "^%^" []
              expr := trim ruleExpr
              source := path }] }
      | _ => config

/-- The body of the loop over the lines of a file. -/
def parseLine (path : Str) (s : List Str × Config) (line : Str) : Except Stop (List Str × Config) :=
  let trimmed := trim (stripInlineComment line)
  if trimmed = [] then .ok s
  else
    match includeRest trimmed with
    | some rest => do return (← addIncludeFiles view s.1 path (normalizeIncludeArgs rest), s.2)
    | none => .ok (s.1, parseEntry path trimmed s.2)

/-- The loop of `parse_config_files`: the files from `index` on, all there are so far, and the tables. `fuel` bounds the
iterations; without it the loop gives nothing. -/
def parseLoop : Nat → Nat → List Str → List Str × Config → Except Stop (Option (List Str × Config))
  | 0, _, _, _ => .ok none
  | fuel + 1, index, files, (done, config) =>
    match files[index]? with
    | none => .ok (some (done, config))
    | some path =>
      match view.lines path with
      | .error e => .error (.failed ("Could not open AIDE config '" ++ path ++ "': " ++ e))
      | .ok lines => do
        let (files, config) ← lines.foldlM (parseLine view path) (files, config)
        parseLoop fuel (index + 1) files (done ++ [path], config)

/-- `parse_config_files`: the files and the tables. -/
def parseConfigFiles (fuel : Nat) (initialPaths : List Str) : Except Stop (Option (List Str × Config)) := do
  let files ← orRaise (sortedFiles view initialPaths)
  parseLoop view fuel 0 files ([], ⟨[], []⟩)

end Parse

/-! ## The probe -/

/-- The entries of `details`. -/
structure Detail where
  path : Str
  configured : Bool
  source : Option Str
  expr : Option Str
  missingAttrs : List Str
  deriving DecidableEq

/-- What the probe reports. -/
structure Report where
  available : Bool
  error : Option Str
  checkedCount : Nat
  requiredCount : Nat
  compliantCount : Nat
  violationCount : Nat
  allConfigured : Bool
  details : List Detail
  deriving DecidableEq

/-- The parameters of the probe. -/
structure Params where
  configPaths : Option (List Str)
  requiredAttrs : List Str
  requiredPaths : List Str
  requiredTools : List Str

/-- `unavailable_result`. -/
def unavailableResult (err : Str) : Report where
  available := false
  error := some err
  checkedCount := 0
  requiredCount := 0
  compliantCount := 0
  violationCount := 0
  allConfigured := false
  details := []

/-- `selector_matches_path`: a match that raises is no match. -/
def selectorMatchesPath (selector path : Str) : Bool := selector = path || isMatch path selector

/-- `missing_required_attrs`. -/
def missingRequiredAttrs (actualAttrs : Marks) (requiredAttrs : List Str) : List Str :=
  requiredAttrs.filter fun attr => !actualAttrs attr

section Probe

variable (view : View)

/-- `readlink_f`; `popen` gives the first line that a command prints. -/
def readlinkF (popen : Str → Option Str) (path : Str) : Option Str :=
  if view.mode path ≠ some "file".toList then none
  else
    match popen ("readlink -f -- " ++ shellEscape path ++ " 2>/dev/null") with
    | some resolved => some (if resolved ≠ [] then resolved else path)
    | none => some path

/-- `resolve_required_paths`. -/
def resolveRequiredPaths (popen : Str → Option Str) (params : Params) : List Str :=
  let tools := params.requiredTools.filterMap fun tool =>
    (readlinkF view popen ("/sbin/" ++ tool)).or (readlinkF view popen ("/usr/sbin/" ++ tool))
  unique (sortStrs (params.requiredPaths ++ tools))

/-- The loop over the rules for a path; `resolve` gives the attributes of an expression. -/
def bestRule (resolve : Str → Option Marks) (requiredAttrs : List Str) (requiredPath : Str) :
    List Rule → Option Detail → Option (Option Detail)
  | [], best => some best
  | rule :: rules, best =>
    if selectorMatchesPath rule.pathPattern requiredPath then do
      let attrs ← resolve rule.expr
      let missing := missingRequiredAttrs attrs requiredAttrs
      if best.all fun b => missing.length < b.missingAttrs.length then
        bestRule resolve requiredAttrs requiredPath rules (some {
          path := requiredPath
          configured := missing.length == 0
          source := some rule.source
          expr := some rule.expr
          missingAttrs := missing })
      else bestRule resolve requiredAttrs requiredPath rules best
    else bestRule resolve requiredAttrs requiredPath rules best

/-- The detail of a path. -/
def detailFor (resolve : Str → Option Marks) (requiredAttrs : List Str) (rules : List Rule) (requiredPath : Str) :
    Option Detail := do
  let best ← bestRule resolve requiredAttrs requiredPath rules none
  return best.getD {
    path := requiredPath
    configured := false
    source := none
    expr := none
    missingAttrs := requiredAttrs }

/-- The report on the required paths. -/
def reportOn (resolve : Str → Option Marks) (params : Params) (rules : List Rule) (files requiredPaths : List Str) :
    Option Report := do
  let details ← requiredPaths.mapM (detailFor resolve params.requiredAttrs rules)
  let violations := (details.filter fun detail => !detail.configured).length
  return {
    available := true
    error := none
    checkedCount := files.length
    requiredCount := requiredPaths.length
    compliantCount := (details.filter Detail.configured).length
    violationCount := violations
    allConfigured := violations == 0
    details := details }

/-- `inspect_required_file_rules`; `fuel` bounds the files and the depth of the aliases. -/
def inspectRequiredFileRules (popen : Str → Option Str) (fuel : Nat) (params : Params) : Except Err (Option Report) :=
  match parseConfigFiles view fuel
      (params.configPaths.getD ["/etc/aide.conf".toList, "/etc/aide.conf.d/*".toList]) with
  | .error (.raised e) => .error e
  | .error (.failed e) => .ok (some (unavailableResult e))
  | .ok none => .ok none
  | .ok (some (files, config)) =>
    if files.length = 0 then .ok (some (unavailableResult "No AIDE configuration files were available.".toList))
    else .ok (reportOn (resolvedAttrs config.aliases fuel) params config.rules files
      (resolveRequiredPaths view popen params))

end Probe

/-! ## The loop -/

section Loop

variable {view : View}

/-- The files that a line names. -/
def lineIncludes (view : View) (path line : Str) : Except Stop (List Str) :=
  if trim (stripInlineComment line) = [] then .ok []
  else
    match includeRest (trim (stripInlineComment line)) with
    | some rest => includeCandidates view path (normalizeIncludeArgs rest)
    | none => .ok []

/-- What a line does to the tables. -/
def lineEntry (path : Str) (config : Config) (line : Str) : Config :=
  if trim (stripInlineComment line) = [] ∨ (includeRest (trim (stripInlineComment line))).isSome then config
  else parseEntry path (trim (stripInlineComment line)) config

/-- The files that a file names. -/
def next (view : View) (path : Str) : Except Stop (List Str) :=
  match view.lines path with
  | .error e => .error (.failed ("Could not open AIDE config '" ++ path ++ "': " ++ e))
  | .ok lines => Queue.askAll (lineIncludes view path) lines

/-- What a file does to the tables. -/
def visit (view : View) (s : List Str × Config) (path : Str) : List Str × Config :=
  (s.1 ++ [path], match view.lines path with
    | .error _ => s.2
    | .ok lines => lines.foldl (lineEntry path) s.2)

theorem parseLine_eq (path : Str) (s : List Str × Config) (line : Str) : parseLine view path s line =
    (lineIncludes view path line).map fun files => (Queue.pushAll s.1 files, lineEntry path s.2 line) := by
  unfold parseLine lineIncludes lineEntry
  dsimp only
  by_cases hempty : trim (stripInlineComment line) = []
  · rw [if_pos hempty, if_pos hempty, if_pos (.inl hempty)]
    rfl
  · rw [if_neg hempty, if_neg hempty]
    cases hrest : includeRest (trim (stripInlineComment line)) with
    | none =>
      rw [if_neg (by simpa using hempty)]
      rfl
    | some rest =>
      rw [if_pos (.inr rfl)]
      dsimp only
      unfold addIncludeFiles
      cases includeCandidates view path (normalizeIncludeArgs rest) with
      | error e => rfl
      | ok files =>
        dsimp only [bind, Except.bind, pure, Except.pure, Except.map]
        rw [foldl_appendUnique_eq]

/-- **The loop is the loop of a queue.** -/
theorem parseLoop_eq (fuel index : Nat) (files : List Str) (s : List Str × Config) :
    parseLoop view fuel index files s = (Queue.loop (next view) fuel index files).map
      (Option.map fun files' => (files'.drop index).foldl (visit view) s) := by
  refine Queue.loop_fold (f := parseLoop view) (fun _ _ _ => rfl) (fun fuel index files s hx => ?_)
    (fun fuel index files s path hx => ?_) fuel index files s
  · rw [parseLoop, hx]
  · rw [parseLoop, hx]
    dsimp only
    unfold next visit
    cases view.lines path with
    | error e => rfl
    | ok lines =>
      dsimp only
      rw [Queue.foldlM_pushAll (parseLine_eq path)]
      cases Queue.askAll (lineIncludes view path) lines <;> rfl

/-! ## It ends -/

theorem sortedFiles_file {paths files : List Str} (h : sortedFiles view paths = .ok files) :
    ∀ f ∈ files, view.mode f = some "file".toList := by
  unfold sortedFiles at h
  cases hexpand : view.expandFiles paths with
  | error e =>
    rw [hexpand] at h
    cases h
  | ok found =>
    rw [hexpand] at h
    cases h
    exact fun f hf => expandFiles_file hexpand f (mem_sortStrs.mp hf)

theorem sortedDirectoryFiles_file {path : Str} {namePattern : Option Str} {files : List Str}
    (h : sortedDirectoryFiles view path namePattern = .ok (some files)) :
    ∀ f ∈ files, view.mode f = some "file".toList := by
  unfold sortedDirectoryFiles at h
  split at h
  · cases h
    exact fun f hf => absurd hf List.not_mem_nil
  · cases hnames : view.names path with
    | error e =>
      rw [hnames] at h
      cases h
    | ok names =>
      rw [hnames] at h
      dsimp only at h
      cases htaken : takenNames namePattern names with
      | error e =>
        rw [htaken] at h
        cases h
      | ok taken =>
        rw [htaken] at h
        cases h
        exact fun f hf => beq_iff_eq.mp (List.mem_filter.mp hf).2

theorem orRaise_ok {α : Type} {x : Except Err α} {a : α} (h : orRaise x = .ok a) : x = .ok a := by
  cases x with
  | error e => cases h
  | ok b =>
    cases h
    rfl

/-- An include names regular files. -/
theorem includeCandidates_file {currentPath : Str} : ∀ {args files : List Str},
    includeCandidates view currentPath args = .ok files → ∀ f ∈ files, view.mode f = some "file".toList
  | [], files, h => by
    cases h
    exact fun f hf => absurd hf List.not_mem_nil
  | arg :: args, files, h => by
    unfold includeCandidates at h
    dsimp only at h
    split at h
    · exact sortedFiles_file (orRaise_ok h)
    · split at h
      · cases hdir : orRaise (sortedDirectoryFiles view (joinInclude (dirname currentPath) arg) args.head?) with
        | error e =>
          rw [hdir] at h
          cases h
        | ok found =>
          rw [hdir] at h
          cases found with
          | none => cases h
          | some candidates =>
            cases h
            exact sortedDirectoryFiles_file (orRaise_ok hdir)
      · split at h
        · next hfile =>
          cases h
          intro f hf
          rw [List.mem_singleton.mp hf]
          exact hfile
        · cases h
          exact fun f hf => absurd hf List.not_mem_nil

theorem follows_file {path file : Str} (h : Queue.Follows (next view) path file) :
    view.mode file = some "file".toList := by
  obtain ⟨files, hnext, hmem⟩ := h
  unfold next at hnext
  cases hlines : view.lines path with
  | error e =>
    rw [hlines] at hnext
    cases hnext
  | ok lines =>
    rw [hlines] at hnext
    obtain ⟨line, -, found, hask, hfound⟩ := Queue.mem_askAll hnext hmem
    unfold lineIncludes at hask
    split at hask
    · cases hask
      cases hfound
    · cases hrest : includeRest (trim (stripInlineComment line)) with
      | none =>
        rw [hrest] at hask
        cases hask
        cases hfound
      | some rest =>
        rw [hrest] at hask
        exact includeCandidates_file hask file hfound

theorem sortedFiles_nodup {paths files : List Str} (h : sortedFiles view paths = .ok files) : files.Nodup := by
  unfold sortedFiles at h
  cases hexpand : view.expandFiles paths with
  | error e =>
    rw [hexpand] at h
    cases h
  | ok found =>
    rw [hexpand] at h
    cases h
    exact (List.perm_insertionSort _ _).nodup_iff.mpr (expandFiles_nodup hexpand)

/-- **The files are read to the end, or reading them stops.** -/
theorem parseConfigFiles_ends (hfinite : view.Finite) (paths : List Str) : ∃ fuel₀ r, r ≠ .ok none ∧
    ∀ fuel, fuel₀ ≤ fuel → parseConfigFiles view fuel paths = r := by
  unfold parseConfigFiles
  cases hfiles : sortedFiles view paths with
  | error e => exact ⟨0, .error (.raised e), by simp, fun _ _ => rfl⟩
  | ok files =>
    have hreach : {path | Queue.Reach (next view) files path}.Finite := by
      refine hfinite.subset ?_
      rintro path (hpath : Queue.Reach _ _ path)
      cases hpath with
      | root hmem => exact sortedFiles_file hfiles path hmem
      | step _ hfollows => exact follows_file hfollows
    obtain ⟨fuel₀, r, hr, hrun, -⟩ := Queue.exists_loop (sortedFiles_nodup hfiles) hreach
    refine ⟨fuel₀, r.map (Option.map fun files' => files'.foldl (visit view) ([], ⟨[], []⟩)), ?_, fun fuel hfuel => ?_⟩
    · rcases r with e | r
      · simp [Except.map]
      · cases r with
        | none => exact absurd rfl hr
        | some files' => simp [Except.map]
    · change parseLoop view fuel 0 files ([], ⟨[], []⟩) = _
      rw [parseLoop_eq, hrun fuel hfuel]
      rfl

end Loop

section Report

variable {resolve : Str → Marks}

theorem bestRule_total (requiredAttrs : List Str) (requiredPath : Str) : ∀ (rules : List Rule) (best : Option Detail),
    ∃ best', bestRule (fun expr => some (resolve expr)) requiredAttrs requiredPath rules best = some best'
  | [], best => ⟨best, rfl⟩
  | rule :: rules, best => by
    unfold bestRule
    split
    · dsimp only [bind, Option.bind]
      split
      · exact bestRule_total requiredAttrs requiredPath rules _
      · exact bestRule_total requiredAttrs requiredPath rules best
    · exact bestRule_total requiredAttrs requiredPath rules best

theorem details_total (requiredAttrs : List Str) (rules : List Rule) : ∀ paths : List Str,
    ∃ details, paths.mapM (detailFor (fun expr => some (resolve expr)) requiredAttrs rules) = some details
  | [] => ⟨[], rfl⟩
  | path :: paths => by
    obtain ⟨details, hdetails⟩ := details_total requiredAttrs rules paths
    obtain ⟨best, hbest⟩ := @bestRule_total resolve requiredAttrs path rules none
    rw [List.mapM_cons, hdetails]
    unfold detailFor
    rw [hbest]
    exact ⟨_, rfl⟩

theorem reportOn_total (params : Params) (rules : List Rule) (files paths : List Str) :
    ∃ report, reportOn (fun expr => some (resolve expr)) params rules files paths = some report := by
  obtain ⟨details, hdetails⟩ := @details_total resolve params.requiredAttrs rules paths
  unfold reportOn
  rw [hdetails]
  exact ⟨_, rfl⟩

end Report

/-- **The probe ends whatever the files name.** -/
theorem inspectRequiredFileRules_ends {view : View} (hfinite : view.Finite) (popen : Str → Option Str)
    (params : Params) : ∃ fuel₀ r, r ≠ .ok none ∧
      ∀ fuel, fuel₀ ≤ fuel → inspectRequiredFileRules view popen fuel params = r := by
  obtain ⟨fuel₁, r, hr, hrun⟩ := parseConfigFiles_ends hfinite
    (params.configPaths.getD ["/etc/aide.conf".toList, "/etc/aide.conf.d/*".toList])
  unfold inspectRequiredFileRules
  rcases r with stop | r
  · cases stop with
    | raised e =>
      refine ⟨fuel₁, .error e, by simp, fun fuel hfuel => ?_⟩
      rw [hrun fuel hfuel]
    | failed e =>
      refine ⟨fuel₁, .ok (some (unavailableResult e)), by simp, fun fuel hfuel => ?_⟩
      rw [hrun fuel hfuel]
  · rcases r with - | ⟨files, config⟩
    · exact absurd rfl hr
    · obtain ⟨resolve, hresolve⟩ := resolvedAttrs_total config.aliases
      by_cases hnone : files.length = 0
      · refine ⟨fuel₁, .ok (some (unavailableResult "No AIDE configuration files were available.".toList)), by simp,
          fun fuel hfuel => ?_⟩
        rw [hrun fuel hfuel]
        dsimp only
        rw [if_pos hnone]
      · obtain ⟨report, hreport⟩ := @reportOn_total resolve params config.rules files
          (resolveRequiredPaths view popen params)
        refine ⟨max fuel₁ (config.aliases.length + 1), .ok (some report), by simp, fun fuel hfuel => ?_⟩
        rw [hrun fuel (by omega)]
        dsimp only
        rw [if_neg hnone, hresolve fuel (by omega), hreport]

/-- **Attribute resolution is well defined**: a call returns for every table of aliases and leaves the stack as it was,
the attributes are those that the expression stands for if there are no cycles, and the probe ends. -/
theorem aide_resolution (aliases : List (Str × Str)) (expr : Str) (marks stack : Marks) (view : View)
    (popen : Str → Option Str) (params : Params) (hfinite : view.Finite) :
    (∃ fuel₀ marks', ∀ fuel, fuel₀ ≤ fuel → addAttrsFromExpr aliases fuel expr marks stack = some (marks', stack)) ∧
    (Acyclic aliases expr → ∃ (fuel₀ : Nat) (marks' : Marks),
      (∀ fuel, fuel₀ ≤ fuel → addAttrsFromExpr aliases fuel expr marks (fun _ => false) =
        some (marks', fun _ => false)) ∧
      ∀ attrs, Reading aliases (operands expr) marks.attrs attrs ↔ attrs = marks'.attrs) ∧
    ∃ fuel₀ r, r ≠ .ok none ∧ ∀ fuel, fuel₀ ≤ fuel → inspectRequiredFileRules view popen fuel params = r := by
  refine ⟨?_, fun hacyclic => ?_, inspectRequiredFileRules_ends hfinite popen params⟩
  · obtain ⟨marks', hrun⟩ := @addAttrsFromExpr_total aliases expr marks stack
    exact ⟨aliases.length + 1, marks', hrun⟩
  · obtain ⟨marks', hrun, hread⟩ := addAttrsFromExpr_iff hacyclic marks
    exact ⟨aliases.length + 1, marks', hrun, hread⟩

/-! ## A file that includes itself -/

/-- A path of `/etc/aide.conf` has any number of dots in it, up to the length that the system allows. -/
def aideView : View where
  mode path := if path.length < 4096 ∧ "/aide.conf".toList <:+ path then some "file".toList else none
  names _ := .ok []
  lines _ := .ok ["@@include ./aide.conf".toList, "NORMAL = p+u+HASH".toList, "HASH = sha512+g".toList,
    "/sbin/auditctl NORMAL-HASH".toList]

theorem aideView_finite : aideView.Finite := by
  have hchar : Finite Char := Finite.of_injective (fun c : Char => c.val.toFin) fun a b h =>
    Char.ext (UInt32.toFin_inj.mp h)
  refine (List.finite_length_lt Char 4096).subset fun path hpath => ?_
  by_contra hlen
  have hmode : aideView.mode path = some "file".toList := hpath
  unfold aideView at hmode
  dsimp only at hmode
  rw [if_neg fun h => hlen h.1] at hmode
  cases hmode

/-- The aliases of the file. -/
def aideAliases : List (Str × Str) :=
  [("HASH".toList, "sha512+g".toList), ("NORMAL".toList, "p+u+HASH".toList)]

theorem aideAliases_acyclic : Acyclic aideAliases "NORMAL-HASH".toList := by
  -- an alias uses those of a smaller rank
  have hrank : ∀ a b, Uses aideAliases a b →
      (fun n : Str => if n = "NORMAL".toList then 2 else if n = "HASH".toList then 1 else 0) b <
      (fun n : Str => if n = "NORMAL".toList then 2 else if n = "HASH".toList then 1 else 0) a := by
    rintro a b ⟨e, hlookup, item, hitem, rfl⟩
    have hcases : (a, e) ∈ aideAliases := mem_of_lookup hlookup
    rcases List.mem_pair.mp hcases with h | h <;> cases h
    · have hoperands : operands "sha512+g".toList = [⟨"+".toList, "sha512".toList⟩, ⟨"+".toList, "g".toList⟩] := by
        decide +kernel
      rw [hoperands] at hitem
      rcases List.mem_pair.mp hitem with rfl | rfl <;> decide
    · have hoperands : operands "p+u+HASH".toList =
          [⟨"+".toList, "p".toList⟩, ⟨"+".toList, "u".toList⟩, ⟨"+".toList, "HASH".toList⟩] := by decide +kernel
      rw [hoperands] at hitem
      rcases List.mem_cons.mp hitem with rfl | hitem
      · decide
      · rcases List.mem_pair.mp hitem with rfl | rfl <;> decide
  intro item _ name _ hcycle
  have hlt : ∀ {b}, Relation.TransGen (Uses aideAliases) name b → _ := fun {b} h => by
    induction h with
    | single h => exact hrank _ _ h
    | tail _ h ih => exact (hrank _ _ h).trans ih
  exact absurd (hlt hcycle) (lt_irrefl _)

theorem aide_self_include : aideView.Finite ∧ Acyclic aideAliases "NORMAL-HASH".toList ∧
    (∃ (fuel₀ : Nat) (marks' : Marks),
      (∀ fuel, fuel₀ ≤ fuel → addAttrsFromExpr aideAliases fuel "NORMAL-HASH".toList (fun _ => false) (fun _ => false) =
        some (marks', fun _ => false)) ∧
      ∀ attrs, Reading aideAliases (operands "NORMAL-HASH".toList) (Marks.attrs fun _ => false) attrs ↔
        attrs = marks'.attrs) ∧
    ∃ fuel₀ r, r ≠ .ok none ∧ ∀ fuel, fuel₀ ≤ fuel → inspectRequiredFileRules aideView (fun _ => none) fuel
      ⟨none, ["p".toList, "u".toList], ["/sbin/auditctl".toList], []⟩ = r :=
  ⟨aideView_finite, aideAliases_acyclic,
    (aide_resolution aideAliases _ _ (fun _ => false) aideView (fun _ => none)
      ⟨none, ["p".toList, "u".toList], ["/sbin/auditctl".toList], []⟩ aideView_finite).2.1 aideAliases_acyclic,
    (aide_resolution aideAliases [] (fun _ => false) (fun _ => false) aideView (fun _ => none) _ aideView_finite).2.2⟩

end Aide
end Seharden
