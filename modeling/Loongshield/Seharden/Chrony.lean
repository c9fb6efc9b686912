import Loongshield.Seharden.PathView

/-!
# `probes/chrony.lua`

The time sources are collected from the configuration files, which name others with `confdir` and `sourcedir`.

- `scanConfigFiles`, `inspectConfiguration`: the probe;
- `scanLoop_eq`: its loop is the loop of a queue;
- `inspect_configuration_complete_iff`: it finds every source of the files that can be reached, exactly where nothing
  that it meets is a directory.
-/

namespace Seharden

open Lua Pattern

/-! ## The probe -/

namespace Chrony

section Probe

variable (view : View)

/-- `parse_directive`. -/
def parseDirective (line : Str) : Option (Str × Str) :=
  let active := trim (stripComment line)
  if active = [] then none
  else
    match (matchCaptures active "^([%w_]+)%s*:%s*(.-)%s*$").or (matchCaptures active "^([%w_]+)%s+(.-)%s*$") with
    | some [directive, value] => if value = [] then none else some (lower directive, value)
    | _ => none

/-- `first_word`. -/
def firstWord (value : Str) : Option Str := firstCapture value "^(%S+)"

/-- `lfs.dir(path)`: it raises if the directory cannot be opened, and returns an iterator and the directory object; the
iterator raises when it is called without the object. -/
def lfsDirIter (path : Str) : Except Err (Bool → Except Err (List Str)) := do
  let names ← view.names path
  return fun withObject =>
    if withObject then .ok names
    else .error "bad argument #1 to 'for iterator' (directory metatable expected, got nil)"

/-- `sorted_directory_files`: `local dir = lfs_dir(path)` keeps the iterator only. -/
def sortedDirectoryFiles (path : Str) : Except Err (List Str) := do
  let dir ← lfsDirIter view path
  let names ← dir false
  let names := names.filter fun name => name ≠ ".".toList && name ≠ "..".toList
  return sortStrs ((names.map fun name => path ++ "/" ++ name).filter (pathExistsAsFile view))

/-- `expand_include_path`. -/
def expandIncludePath (value : Str) : Except Err (List Str) :=
  match firstWord value with
  | none => .ok []
  | some path =>
    if view.mode path = some "directory".toList then sortedDirectoryFiles view path
    else if view.mode path = some "file".toList then .ok [path]
    else if hasWildcard path then view.expandFiles [path]
    else .ok []

/-- A source of time: the entries of `source_details`. -/
structure Detail where
  path : Str
  directive : Str
  value : Str
  deriving DecidableEq

/-- What a scan collects: `files`, `source_details_by_path` and `unreadable`. -/
structure Scan where
  files : List Str
  details : Str → List Detail
  unreadable : Nat

/-- `append_source_detail`. -/
def appendSourceDetail (details : Str → List Detail) (path directive value : Str) : Str → List Detail :=
  fun p => if p = path then details p ++ [⟨path, directive, value⟩] else details p

/-- The body of the loop over the lines of a file. -/
def scanLine (path : Str) (s : List Str × (Str → List Detail)) (line : Str) :
    Except Err (List Str × (Str → List Detail)) :=
  match parseDirective line with
  | none => .ok s
  | some (directive, value) =>
    if directive = "confdir".toList ∨ directive = "sourcedir".toList then do
      let includes ← expandIncludePath view value
      return (includes.foldl appendUnique s.1, s.2)
    else if (directive = "server".toList ∨ directive = "pool".toList) ∧ (firstWord value).isSome then
      .ok (s.1, appendSourceDetail s.2 path directive value)
    else .ok s

/-- The loop of `scan_config_files`: the queue from `index` on, all that was ever queued, and what was collected. `fuel`
bounds the iterations; without it the loop gives nothing. -/
def scanLoop : Nat → Nat → List Str → Scan → Except Err (Option Scan)
  | 0, _, _, _ => .ok none
  | fuel + 1, index, queue, scan =>
    match queue[index]? with
    | none => .ok (some scan)
    | some path =>
      if view.mode path = some "file".toList then
        match view.lines path with
        | .error _ =>
          scanLoop fuel (index + 1) queue
            { scan with files := scan.files ++ [path], unreadable := scan.unreadable + 1 }
        | .ok lines => do
          let (queue, details) ← lines.foldlM (scanLine view path) (queue, scan.details)
          scanLoop fuel (index + 1) queue { scan with files := scan.files ++ [path], details := details }
      else if view.mode path = some "directory".toList then do
        let files ← sortedDirectoryFiles view path
        scanLoop fuel (index + 1) (files.foldl appendUnique queue) scan
      else if hasWildcard path then do
        let files ← view.expandFiles [path]
        scanLoop fuel (index + 1) (files.foldl appendUnique queue) scan
      else scanLoop fuel (index + 1) queue scan

/-- `scan_config_files`: the files, the sources in them, and the number of files that cannot be read. -/
def scanConfigFiles (fuel : Nat) (initialPaths : List Str) : Except Err (Option (List Str × List Detail × Nat)) := do
  match ← scanLoop view fuel 0 (unique initialPaths) ⟨[], fun _ => [], 0⟩ with
  | none => return none
  | some scan =>
    let files := sortStrs scan.files
    return some (files, files.flatMap scan.details, scan.unreadable)

/-- `strip_quotes`. -/
def stripQuotes (value : Str) : Str :=
  let value := trim value
  if 2 ≤ value.length ∧ (value.head? = some '"' ∧ value.getLast? = some '"' ∨
      value.head? = some '\'' ∧ value.getLast? = some '\'') then (value.drop 1).dropLast
  else value

/-- `options_runs_as_root`. -/
def optionsRunsAsRoot (value : Str) : Bool := isMatch (lower (stripQuotes value)) "%-u%s+root%f[%A]"

/-- A line of the sysconfig file that makes chronyd run as root. -/
def rootLine (line : Str) : Bool :=
  match matchCaptures (trim (stripComment line)) "^([^=%s]+)%s*=%s*(.-)%s*$" with
  | some [key, value] => lower key = "options".toList && optionsRunsAsRoot value
  | _ => false

/-- `inspect_sysconfig`: whether the file can be opened, and whether chronyd runs as root. -/
def inspectSysconfig (path : Str) : Bool × Bool :=
  match view.lines path with
  | .error _ => (false, false)
  | .ok lines => (true, lines.any rootLine)

/-- The parameters of the probe. -/
structure Params where
  configPaths : Option (List Str)
  sysconfigPath : Option Str

/-- What the probe reports. -/
structure Report where
  configAvailable : Bool
  configFiles : List Str
  unreadableCount : Nat
  sourceCount : Nat
  sourceDetails : List Detail
  hasTimeSource : Bool
  sysconfigAvailable : Bool
  runsAsRoot : Bool
  nonRootConfigured : Bool
  deriving DecidableEq

/-- `DEFAULT_CONFIG_PATHS`. -/
def Params.paths (params : Params) : List Str := params.configPaths.getD ["/etc/chrony.conf".toList]

/-- `inspect_configuration`. -/
def inspectConfiguration (fuel : Nat) (params : Params) : Except Err (Option Report) := do
  match ← scanConfigFiles view fuel params.paths with
  | none => return none
  | some (configFiles, sourceDetails, unreadableCount) =>
    let (sysconfigAvailable, runsAsRoot) := inspectSysconfig view (params.sysconfigPath.getD "/etc/sysconfig/chronyd")
    return some {
      configAvailable := !configFiles.isEmpty && unreadableCount == 0
      configFiles := configFiles
      unreadableCount := unreadableCount
      sourceCount := sourceDetails.length
      sourceDetails := sourceDetails
      hasTimeSource := !sourceDetails.isEmpty
      sysconfigAvailable := sysconfigAvailable
      runsAsRoot := runsAsRoot
      nonRootConfigured := sysconfigAvailable && !runsAsRoot }

end Probe

/-! ## The loop -/

section Loop

variable {view : View}

/-- What the `confdir` and `sourcedir` lines of a file name. -/
def includeTarget (line : Str) : Option Str :=
  match parseDirective line with
  | none => none
  | some (directive, value) =>
    if directive = "confdir".toList ∨ directive = "sourcedir".toList then firstWord value else none

/-- The source of a `server` or `pool` line. -/
def sourceDetail (path line : Str) : Option Detail :=
  match parseDirective line with
  | none => none
  | some (directive, value) =>
    if (directive = "server".toList ∨ directive = "pool".toList) ∧ (firstWord value).isSome then
      some ⟨path, directive, value⟩
    else none

/-- What the code takes a path for. -/
def expandTarget (view : View) (path : Str) : Except Err (List Str) :=
  if view.mode path = some "directory".toList then sortedDirectoryFiles view path
  else if view.mode path = some "file".toList then .ok [path]
  else if hasWildcard path then view.expandFiles [path]
  else .ok []

/-- Several paths, one after the other. -/
def expandTargets (view : View) : List Str → Except Err (List Str)
  | [] => .ok []
  | path :: paths => do
    let files ← expandTarget view path
    return files ++ (← expandTargets view paths)

/-- The sources of a file. -/
def sourcesOf (view : View) (path : Str) : List Detail :=
  match view.lines path with
  | .error _ => []
  | .ok lines => lines.filterMap (sourceDetail path)

/-- The files that an element of the queue adds to it. -/
def next (view : View) (path : Str) : Except Err (List Str) :=
  if view.mode path = some "file".toList then
    match view.lines path with
    | .error _ => .ok []
    | .ok lines => expandTargets view (lines.filterMap includeTarget)
  else expandTarget view path

/-- What is collected from an element of the queue. -/
def visit (view : View) (scan : Scan) (path : Str) : Scan :=
  if view.mode path = some "file".toList then
    { files := scan.files ++ [path]
      details := fun p => if p = path then scan.details p ++ sourcesOf view p else scan.details p
      unreadable := match view.lines path with
        | .error _ => scan.unreadable + 1
        | .ok _ => scan.unreadable }
  else scan

theorem pushAll_append (queue a b : List Str) :
    Queue.pushAll queue (a ++ b) = Queue.pushAll (Queue.pushAll queue a) b := List.foldl_append

theorem expandIncludePath_eq (value : Str) : expandIncludePath view value =
    ((firstWord value).map (expandTarget view)).getD (.ok []) := by
  unfold expandIncludePath expandTarget
  cases firstWord value <;> rfl

/-- A line adds what it names to the queue, and its source to the others. -/
theorem scanLine_eq (path line : Str) (s : List Str × (Str → List Detail)) : scanLine view path s line =
    (expandTargets view (includeTarget line).toList).map fun files => (Queue.pushAll s.1 files,
      fun p => if p = path then s.2 p ++ (sourceDetail path line).toList else s.2 p) := by
  have hsame : ∀ queue : List Str, Queue.pushAll queue [] = queue := fun _ => rfl
  have hnone : ∀ p : Str, (if p = path then s.2 p ++ [] else s.2 p) = s.2 p := by
    intro p
    split
    · rw [List.append_nil]
    · rfl
  unfold scanLine includeTarget sourceDetail
  cases parseDirective line with
  | none => simp only [Option.toList_none, expandTargets, Except.map, hsame, hnone]
  | some dv =>
    obtain ⟨directive, value⟩ := dv
    dsimp only
    by_cases hdir : directive = "confdir".toList ∨ directive = "sourcedir".toList
    · have hno : ¬((directive = "server".toList ∨ directive = "pool".toList) ∧ (firstWord value).isSome) := by
        rintro ⟨h | h, -⟩ <;> rcases hdir with h' | h' <;> rw [h] at h' <;> exact absurd h' (by decide)
      rw [if_pos hdir, if_pos hdir, if_neg hno, expandIncludePath_eq]
      simp only [Option.toList_none, hnone]
      cases firstWord value with
      | none => rfl
      | some target =>
        simp only [Option.toList_some, expandTargets, Option.map_some, Option.getD_some]
        cases expandTarget view target with
        | error e => rfl
        | ok files =>
          simp only [bind, Except.bind, pure, Except.pure, Except.map, List.append_nil, foldl_appendUnique_eq]
    · rw [if_neg hdir, if_neg hdir]
      simp only [Option.toList_none, expandTargets, Except.map, hsame]
      split
      · rw [Option.toList_some]
        rfl
      · simp only [Option.toList_none, hnone]

theorem expandTargets_append (a b : List Str) : expandTargets view (a ++ b) =
    expandTargets view a >>= fun fs => (expandTargets view b).map (fs ++ ·) := by
  induction a with
  | nil =>
    simp only [List.nil_append, expandTargets, bind, Except.bind]
    cases expandTargets view b <;> rfl
  | cons path a ih =>
    simp only [List.cons_append, expandTargets, ih, bind, Except.bind]
    cases expandTarget view path with
    | error e => rfl
    | ok files =>
      cases expandTargets view a with
      | error e => rfl
      | ok rest =>
        cases expandTargets view b with
        | error e => rfl
        | ok last => simp only [Except.map, pure, Except.pure, List.append_assoc]

/-- All lines of a file. -/
theorem foldlM_scanLine (path : Str) : ∀ (lines : List Str) (queue : List Str) (details : Str → List Detail),
    lines.foldlM (scanLine view path) (queue, details) =
      (expandTargets view (lines.filterMap includeTarget)).map fun files => (Queue.pushAll queue files,
        fun p => if p = path then details p ++ lines.filterMap (sourceDetail path) else details p)
  | [], queue, details => by
    have hnone : (fun p => if p = path then details p ++ [] else details p) = details := by
      funext p
      split
      · rw [List.append_nil]
      · rfl
    simp only [List.foldlM_nil, List.filterMap_nil, expandTargets, Except.map, hnone]
    rfl
  | line :: lines, queue, details => by
    have htargets : (line :: lines).filterMap includeTarget =
        (includeTarget line).toList ++ lines.filterMap includeTarget := by
      rw [List.filterMap_cons]
      cases includeTarget line <;> rfl
    have hsources : (line :: lines).filterMap (sourceDetail path) =
        (sourceDetail path line).toList ++ lines.filterMap (sourceDetail path) := by
      rw [List.filterMap_cons]
      cases sourceDetail path line <;> rfl
    rw [List.foldlM_cons, scanLine_eq, htargets, expandTargets_append, hsources]
    cases expandTargets view (includeTarget line).toList with
    | error e => rfl
    | ok files =>
      simp only [Except.map, bind, Except.bind]
      rw [foldlM_scanLine path lines]
      cases expandTargets view (lines.filterMap includeTarget) with
      | error e => rfl
      | ok rest =>
        simp only [Except.map, pushAll_append]
        refine congrArg Except.ok (Prod.ext rfl (funext fun p => ?_))
        dsimp only
        split <;> simp

/-- **The loop is the loop of a queue.** -/
theorem scanLoop_eq (fuel index : Nat) (queue : List Str) (scan : Scan) : scanLoop view fuel index queue scan =
    (Queue.loop (next view) fuel index queue).map
      (Option.map fun queue' => (queue'.drop index).foldl (visit view) scan) := by
  refine Queue.loop_fold (f := scanLoop view) (fun _ _ _ => rfl) (fun fuel index queue scan hx => ?_)
    (fun fuel index queue scan path hx => ?_) fuel index queue scan
  · rw [scanLoop, hx]
  · rw [scanLoop, hx]
    dsimp only
    unfold next visit
    by_cases hfile : view.mode path = some "file".toList
    · rw [if_pos hfile, if_pos hfile, if_pos hfile]
      cases hlines : view.lines path with
      | error e =>
        have hdetails : (fun p => if p = path then scan.details p ++ sourcesOf view p else scan.details p) =
            scan.details := by
          funext p
          split
          · next hp =>
            rw [hp, sourcesOf, hlines, List.append_nil]
          · rfl
        dsimp only [bind, Except.bind]
        rw [hdetails]
        rfl
      | ok lines =>
        dsimp only
        rw [foldlM_scanLine]
        have hdetails : (fun p =>
            if p = path then scan.details p ++ lines.filterMap (sourceDetail path) else scan.details p) =
            fun p => if p = path then scan.details p ++ sourcesOf view p else scan.details p := by
          funext p
          split
          · next hp => rw [hp, sourcesOf, hlines]
          · rfl
        cases expandTargets view (lines.filterMap includeTarget) with
        | error e => rfl
        | ok files =>
          dsimp only [Except.map, bind, Except.bind]
          rw [hdetails]
    · rw [if_neg hfile, if_neg hfile, if_neg hfile]
      unfold expandTarget
      by_cases hdir : view.mode path = some "directory".toList
      · rw [if_pos hdir, if_pos hdir]
        simp only [foldl_appendUnique_eq]
      · rw [if_neg hdir, if_neg hdir, if_neg hfile]
        split
        · simp only [foldl_appendUnique_eq]
        · rfl

/-- What is collected from a queue without repetition. -/
theorem foldl_visit : ∀ {queue : List Str} {scan : Scan}, queue.Nodup →
    (queue.foldl (visit view) scan).files = scan.files ++ queue.filter (pathExistsAsFile view) ∧
      ∀ p, (queue.foldl (visit view) scan).details p =
        scan.details p ++ if p ∈ queue ∧ view.mode p = some "file".toList then sourcesOf view p else []
  | [], scan, _ => by simp
  | path :: queue, scan, h => by
    obtain ⟨hpath, hqueue⟩ := List.nodup_cons.mp h
    obtain ⟨hfiles, hdetails⟩ := @foldl_visit queue (visit view scan path) hqueue
    rw [List.foldl_cons, hfiles]
    by_cases hfile : view.mode path = some "file".toList
    · have htest : pathExistsAsFile view path = true := beq_iff_eq.mpr hfile
      have hv : (visit view scan path).files = scan.files ++ [path] ∧ (visit view scan path).details =
          fun p => if p = path then scan.details p ++ sourcesOf view p else scan.details p := by
        unfold visit
        rw [if_pos hfile]
        exact ⟨rfl, rfl⟩
      rw [hv.1, List.filter_cons_of_pos htest, List.append_assoc, List.singleton_append]
      refine ⟨rfl, fun p => ?_⟩
      rw [hdetails, hv.2]
      by_cases hp : p = path
      · rw [hp]
        simp [hpath, hfile]
      · simp [hp]
    · have htest : ¬pathExistsAsFile view path = true := mt beq_iff_eq.mp hfile
      have hv : visit view scan path = scan := by
        unfold visit
        rw [if_neg hfile]
      rw [hv] at hdetails ⊢
      rw [List.filter_cons_of_neg htest]
      refine ⟨rfl, fun p => ?_⟩
      rw [hdetails]
      by_cases hp : p = path
      · rw [hp, if_neg fun h => hfile h.2, if_neg fun h => hfile h.2]
      · simp [hp]

/-! ## What can be reached -/

/-- The regular files of a directory. -/
def directoryFiles (view : View) (path : Str) : Except Err (List Str) :=
  (view.names path).map fun names => sortStrs
    (((names.filter fun name => name ≠ ".".toList && name ≠ "..".toList).map fun name => path ++ "/" ++ name).filter
      (pathExistsAsFile view))

/-- What a path stands for: the files of a directory, a file, or the files that a path with wildcards names. -/
def meaningOf (view : View) (path : Str) : Except Err (List Str) :=
  if view.mode path = some "directory".toList then directoryFiles view path
  else if view.mode path = some "file".toList then .ok [path]
  else if hasWildcard path then view.expandFiles [path]
  else .ok []

/-- A path stands for a file. -/
def Denotes (view : View) (path file : Str) : Prop := ∃ files, meaningOf view path = .ok files ∧ file ∈ files

/-- A file names a path with `confdir` or `sourcedir`. -/
def Names (view : View) (file path : Str) : Prop :=
  ∃ lines, view.lines file = .ok lines ∧ ∃ line ∈ lines, includeTarget line = some path

/-- The files that can be reached from the given paths. -/
inductive Reached (view : View) (paths : List Str) : Str → Prop
  | initial {path file : Str} : path ∈ paths → Denotes view path file → Reached view paths file
  | further {source path file : Str} : Reached view paths source → Names view source path → Denotes view path file →
      Reached view paths file

/-- A path that is no directory, and whose wildcards can be expanded. -/
def Enumerable (view : View) (path : Str) : Prop :=
  view.mode path ≠ some "directory".toList ∧ ∃ files, meaningOf view path = .ok files

/-- Nothing that is met is a directory. -/
structure NoDirectory (view : View) (paths : List Str) : Prop where
  initial : ∀ path ∈ paths, Enumerable view path
  further : ∀ file, Reached view paths file → ∀ path, Names view file path → Enumerable view path

theorem enumerable_of_file {path : Str} (h : view.mode path = some "file".toList) : Enumerable view path := by
  have hdir : view.mode path ≠ some "directory".toList := by
    rw [h]
    decide
  exact ⟨hdir, [path], by rw [meaningOf, if_neg hdir, if_pos h]⟩

/-- A directory raises. -/
theorem sortedDirectoryFiles_raises (path : Str) : ∃ e, sortedDirectoryFiles view path = .error e := by
  unfold sortedDirectoryFiles lfsDirIter
  cases view.names path with
  | error e => exact ⟨e, rfl⟩
  | ok names => exact ⟨_, rfl⟩

theorem expandTarget_eq {path : Str} (h : view.mode path ≠ some "directory".toList) :
    expandTarget view path = meaningOf view path := by
  unfold expandTarget meaningOf
  rw [if_neg h, if_neg h]

theorem expandTarget_ok_iff {path : Str} : (∃ files, expandTarget view path = .ok files) ↔ Enumerable view path := by
  constructor
  · rintro ⟨files, hfiles⟩
    by_cases hdir : view.mode path = some "directory".toList
    · obtain ⟨e, he⟩ := @sortedDirectoryFiles_raises view path
      rw [expandTarget, if_pos hdir, he] at hfiles
      cases hfiles
    · exact ⟨hdir, files, expandTarget_eq hdir ▸ hfiles⟩
  · rintro ⟨hdir, files, hfiles⟩
    exact ⟨files, by rw [expandTarget_eq hdir, hfiles]⟩

/-- What a path stands for are files. -/
theorem Denotes.file {path file : Str} (h : Denotes view path file) : view.mode file = some "file".toList := by
  obtain ⟨files, hfiles, hmem⟩ := h
  unfold meaningOf at hfiles
  split at hfiles
  · unfold directoryFiles at hfiles
    cases hnames : view.names path with
    | error e =>
      rw [hnames] at hfiles
      cases hfiles
    | ok names =>
      rw [hnames] at hfiles
      cases hfiles
      exact beq_iff_eq.mp (List.mem_filter.mp (mem_sortStrs.mp hmem)).2
  · split at hfiles
    · next hmode =>
      cases hfiles
      rwa [List.mem_singleton.mp hmem]
    · split at hfiles
      · exact expandFiles_file hfiles file hmem
      · cases hfiles
        cases hmem

theorem denotes_self {path file : Str} (h : view.mode path = some "file".toList) :
    Denotes view path file ↔ file = path := by
  have hdir : view.mode path ≠ some "directory".toList := by
    rw [h]
    decide
  unfold Denotes meaningOf
  rw [if_neg hdir, if_pos h]
  simp

theorem expandTargets_ok : ∀ {paths files : List Str}, expandTargets view paths = .ok files →
    (∀ path ∈ paths, Enumerable view path) ∧ ∀ file, file ∈ files ↔ ∃ path ∈ paths, Denotes view path file
  | [], files, h => by
    cases h
    simp
  | path :: paths, files, h => by
    rw [expandTargets] at h
    cases hone : expandTarget view path with
    | error e =>
      rw [hone] at h
      cases h
    | ok fs =>
      cases hrest : expandTargets view paths with
      | error e =>
        rw [hone, hrest] at h
        cases h
      | ok rest =>
        rw [hone, hrest] at h
        cases h
        obtain ⟨hall, hmem⟩ := expandTargets_ok hrest
        have henum := expandTarget_ok_iff.mp ⟨fs, hone⟩
        have hden : ∀ file, Denotes view path file ↔ file ∈ fs := by
          intro file
          unfold Denotes
          rw [← expandTarget_eq henum.1, hone]
          simp
        refine ⟨List.forall_mem_cons.mpr ⟨henum, hall⟩, fun file => ?_⟩
        rw [List.mem_append, List.exists_mem_cons_iff, hmem, hden]

theorem expandTargets_total : ∀ {paths : List Str}, (∀ path ∈ paths, Enumerable view path) →
    ∃ files, expandTargets view paths = .ok files
  | [], _ => ⟨[], rfl⟩
  | path :: paths, h => by
    obtain ⟨fs, hone⟩ := expandTarget_ok_iff.mpr (h path List.mem_cons_self)
    obtain ⟨rest, hrest⟩ := expandTargets_total fun p hp => h p (List.mem_cons_of_mem path hp)
    refine ⟨fs ++ rest, ?_⟩
    rw [expandTargets, hone, hrest]
    rfl

/-! ## What the queue asks for -/

theorem next_of_file {path : Str} (h : view.mode path = some "file".toList) :
    (∃ files, next view path = .ok files) ↔ ∀ p, Names view path p → Enumerable view p := by
  unfold next Names
  rw [if_pos h]
  cases view.lines path with
  | error e => simp
  | ok lines =>
    simp only [Except.ok.injEq, exists_eq_left']
    constructor
    · rintro ⟨files, hfiles⟩ p hp
      exact (expandTargets_ok hfiles).1 p (List.mem_filterMap.mpr hp)
    · exact fun hall => expandTargets_total fun p hp => hall p (List.mem_filterMap.mp hp)

theorem next_of_other {path : Str} (h : view.mode path ≠ some "file".toList) :
    (∃ files, next view path = .ok files) ↔ Enumerable view path := by
  unfold next
  rw [if_neg h, expandTarget_ok_iff]

theorem follows_of_file {path file : Str} (h : view.mode path = some "file".toList)
    (hok : ∃ files, next view path = .ok files) :
    Queue.Follows (next view) path file ↔ ∃ p, Names view path p ∧ Denotes view p file := by
  obtain ⟨files, hfiles⟩ := hok
  unfold Queue.Follows Names
  rw [hfiles]
  unfold next at hfiles
  rw [if_pos h] at hfiles
  simp only [Except.ok.injEq, exists_eq_left']
  cases hlines : view.lines path with
  | error e =>
    rw [hlines] at hfiles
    cases hfiles
    simp
  | ok lines =>
    rw [hlines] at hfiles
    simp only [Except.ok.injEq, exists_eq_left', ← List.mem_filterMap]
    rw [(expandTargets_ok hfiles).2]

theorem follows_of_other {path file : Str} (h : view.mode path ≠ some "file".toList)
    (hok : ∃ files, next view path = .ok files) : Queue.Follows (next view) path file ↔ Denotes view path file := by
  have henum := (next_of_other h).mp hok
  unfold Queue.Follows next Denotes
  rw [if_neg h, expandTarget_eq henum.1]

section Roots

variable {paths : List Str}

theorem mem_roots {path : Str} : path ∈ unique paths ↔ path ∈ paths := mem_unique

/-- Where nothing is a directory, what the queue reaches is a given path or a file that can be reached. -/
theorem reached_of_reach (h : NoDirectory view paths) {path : Str}
    (hreach : Queue.Reach (next view) (unique paths) path) :
    (path ∈ paths ∨ view.mode path = some "file".toList) ∧
      (view.mode path = some "file".toList → Reached view paths path) ∧ ∃ files, next view path = .ok files := by
  have hok : ∀ p, (p ∈ paths ∨ view.mode p = some "file".toList) →
      (view.mode p = some "file".toList → Reached view paths p) → ∃ files, next view p = .ok files := by
    intro p hp hreached
    by_cases hfile : view.mode p = some "file".toList
    · exact (next_of_file hfile).mpr (h.further p (hreached hfile))
    · exact (next_of_other hfile).mpr (h.initial p (hp.resolve_right hfile))
  induction hreach with
  | root hmem =>
    have hpath := mem_roots.mp hmem
    have hreached := fun hfile => @Reached.initial view paths _ _ hpath ((denotes_self hfile).mpr rfl)
    exact ⟨.inl hpath, hreached, hok _ (.inl hpath) hreached⟩
  | @step x y _ hfollows ih =>
    obtain ⟨hx, hreachedx, hokx⟩ := ih
    have hy : Reached view paths y ∧ view.mode y = some "file".toList := by
      by_cases hfile : view.mode x = some "file".toList
      · obtain ⟨p, hnames, hden⟩ := (follows_of_file hfile hokx).mp hfollows
        exact ⟨.further (hreachedx hfile) hnames hden, hden.file⟩
      · have hden := (follows_of_other hfile hokx).mp hfollows
        exact ⟨.initial (hx.resolve_right hfile) hden, hden.file⟩
    exact ⟨.inr hy.2, fun _ => hy.1, hok _ (.inr hy.2) fun _ => hy.1⟩

theorem reach_of_reached
    (hok : ∀ path, Queue.Reach (next view) (unique paths) path → ∃ files, next view path = .ok files) {file : Str}
      (h : Reached view paths file) :
    Queue.Reach (next view) (unique paths) file ∧ view.mode file = some "file".toList := by
  induction h with
  | @initial path file hmem hden =>
    have hroot : Queue.Reach (next view) (unique paths) path := .root (mem_roots.mpr hmem)
    refine ⟨?_, hden.file⟩
    by_cases hfile : view.mode path = some "file".toList
    · rwa [(denotes_self hfile).mp hden]
    · exact hroot.step ((follows_of_other hfile (hok path hroot)).mpr hden)
  | @further source path file _ hnames hden ih =>
    exact ⟨ih.1.step ((follows_of_file ih.2 (hok source ih.1)).mpr ⟨path, hnames, hden⟩), hden.file⟩

theorem next_total_iff : (∀ path, Queue.Reach (next view) (unique paths) path → ∃ files, next view path = .ok files) ↔
    NoDirectory view paths := by
  constructor
  · intro hok
    refine ⟨fun path hmem => ?_, fun file hreached path hnames => ?_⟩
    · by_cases hfile : view.mode path = some "file".toList
      · exact enumerable_of_file hfile
      · exact (next_of_other hfile).mp (hok path (.root (mem_roots.mpr hmem)))
    · obtain ⟨hreach, hfile⟩ := reach_of_reached hok hreached
      exact (next_of_file hfile).mp (hok file hreach) path hnames
  · exact fun h path hreach => (reached_of_reach h hreach).2.2

theorem reach_finite (hfinite : view.Finite) : {path | Queue.Reach (next view) (unique paths) path}.Finite := by
  refine ((unique paths).finite_toSet.union hfinite).subset ?_
  rintro path (hpath : Queue.Reach _ _ path)
  cases hpath with
  | root hmem => exact .inl hmem
  | @step x _ _ hfollows =>
    have hok : ∃ files, next view x = .ok files := hfollows.imp fun _ h => h.1
    refine .inr ?_
    by_cases hfile : view.mode x = some "file".toList
    · obtain ⟨p, -, hden⟩ := (follows_of_file hfile hok).mp hfollows
      exact hden.file
    · exact ((follows_of_other hfile hok).mp hfollows).file

/-- A run of the scan is a run of the queue. -/
theorem loop_of_scan {fuel : Nat} {scan : Scan}
    (h : scanLoop view fuel 0 (unique paths) ⟨[], fun _ => [], 0⟩ = .ok (some scan)) :
    ∃ queue, Queue.loop (next view) fuel 0 (unique paths) = .ok (some queue) ∧
      scan = queue.foldl (visit view) ⟨[], fun _ => [], 0⟩ := by
  rw [scanLoop_eq] at h
  cases hloop : Queue.loop (next view) fuel 0 (unique paths) with
  | error e =>
    rw [hloop] at h
    cases h
  | ok r =>
    rw [hloop] at h
    cases r with
    | none => cases h
    | some queue =>
      cases h
      exact ⟨queue, rfl, rfl⟩

theorem unique_nodup : (unique paths).Nodup := by
  unfold unique
  rw [foldl_appendUnique_eq]
  exact Queue.pushAll_nodup List.nodup_nil

end Roots

end Loop

/-! ## The report -/

/-- What a report should be: the files that can be reached, each once, and the sources in them. -/
structure Complete (view : View) (paths : List Str) (report : Report) : Prop where
  sorted : report.configFiles.Pairwise (· < ·)
  mem_files : ∀ file, file ∈ report.configFiles ↔ Reached view paths file
  sources : report.sourceDetails = report.configFiles.flatMap (sourcesOf view)

section Report

variable {view : View} {params : Params}

theorem scan_of_inspect {fuel : Nat} {report : Report} (h : inspectConfiguration view fuel params = .ok (some report)) :
    ∃ scan, scanLoop view fuel 0 (unique params.paths) ⟨[], fun _ => [], 0⟩ = .ok (some scan) ∧
      report.configFiles = sortStrs scan.files ∧ report.sourceDetails = (sortStrs scan.files).flatMap scan.details := by
  unfold inspectConfiguration scanConfigFiles at h
  cases hscan : scanLoop view fuel 0 (unique params.paths) ⟨[], fun _ => [], 0⟩ with
  | error e =>
    rw [hscan] at h
    cases h
  | ok r =>
    rw [hscan] at h
    cases r with
    | none => cases h
    | some scan =>
      cases h
      exact ⟨scan, rfl, rfl, rfl⟩

theorem inspect_of_scan {fuel : Nat} {scan : Scan}
    (h : scanLoop view fuel 0 (unique params.paths) ⟨[], fun _ => [], 0⟩ = .ok (some scan)) :
    ∃ report, inspectConfiguration view fuel params = .ok (some report) := by
  unfold inspectConfiguration scanConfigFiles
  rw [h]
  exact ⟨_, rfl⟩

/-- **A report is complete.** -/
theorem complete_of_inspect {fuel : Nat} {report : Report}
    (h : inspectConfiguration view fuel params = .ok (some report)) :
    Complete view params.paths report ∧ NoDirectory view params.paths := by
  obtain ⟨scan, hscan, hfiles, hdetails⟩ := scan_of_inspect h
  obtain ⟨queue, hloop, rfl⟩ := loop_of_scan hscan
  have hcloses := Queue.closes_of_loop (Queue.inv_init unique_nodup) hloop
  have hok : ∀ path, Queue.Reach (next view) (unique params.paths) path → ∃ files, next view path = .ok files :=
    fun path hpath => hcloses.answers path ((hcloses.mem_iff path).mpr hpath)
  have hno := next_total_iff.mp hok
  obtain ⟨hqueue, hsources⟩ := @foldl_visit view queue ⟨[], fun _ => [], 0⟩ hcloses.nodup
  rw [hqueue, List.nil_append] at hfiles hdetails
  have hmem : ∀ file, file ∈ queue ∧ view.mode file = some "file".toList ↔ Reached view params.paths file := by
    intro file
    rw [hcloses.mem_iff]
    exact ⟨fun ⟨hreach, hfile⟩ => (reached_of_reach hno hreach).2.1 hfile, reach_of_reached hok⟩
  refine ⟨⟨?_, fun file => ?_, ?_⟩, hno⟩
  · rw [hfiles]
    have hle : (sortStrs (queue.filter (pathExistsAsFile view))).Pairwise (· ≤ ·) := List.pairwise_insertionSort _ _
    have hne : (sortStrs (queue.filter (pathExistsAsFile view))).Pairwise (· ≠ ·) :=
      (List.perm_insertionSort _ _).nodup_iff.mpr (hcloses.nodup.filter _)
    exact hle.imp₂ (fun a b => lt_of_le_of_ne) hne
  · rw [hfiles, mem_sortStrs, List.mem_filter, ← hmem, pathExistsAsFile, beq_iff_eq]
  · rw [hdetails, hfiles]
    refine List.flatMap_congr fun file hfile => ?_
    rw [mem_sortStrs, List.mem_filter, pathExistsAsFile, beq_iff_eq] at hfile
    rw [hsources, if_pos hfile, List.nil_append]

end Report

/-- **Source discovery is complete**, exactly where nothing that it meets is a directory. -/
theorem inspect_configuration_complete_iff (view : View) (params : Params) (hfinite : view.Finite) :
    (∃ fuel₀ report, (∀ fuel, fuel₀ ≤ fuel → inspectConfiguration view fuel params = .ok (some report)) ∧
      Complete view params.paths report) ↔ NoDirectory view params.paths := by
  constructor
  · rintro ⟨fuel₀, report, hrun, -⟩
    exact (complete_of_inspect (hrun fuel₀ (Nat.le_refl fuel₀))).2
  · intro h
    obtain ⟨fuel₀, queue, hloop⟩ := (Queue.loop_ok_iff unique_nodup (reach_finite hfinite)).mpr (next_total_iff.mpr h)
    have hscan : ∀ fuel, fuel₀ ≤ fuel → scanLoop view fuel 0 (unique params.paths) ⟨[], fun _ => [], 0⟩ =
        .ok (some (queue.foldl (visit view) ⟨[], fun _ => [], 0⟩)) := by
      intro fuel hfuel
      rw [scanLoop_eq, hloop fuel hfuel]
      rfl
    obtain ⟨report, hreport⟩ := inspect_of_scan (hscan fuel₀ (Nat.le_refl fuel₀))
    refine ⟨fuel₀, report, fun fuel hfuel => ?_, (complete_of_inspect hreport).1⟩
    rw [← hreport]
    unfold inspectConfiguration scanConfigFiles
    rw [hscan fuel hfuel, hscan fuel₀ (Nat.le_refl fuel₀)]

/-! ## Two files that name each other -/

/-- A main file with a source that names a path, and a file with another source that names the main file. -/
def chronyView (line : Str) : View where
  mode path :=
    if path = "/etc/chrony.conf".toList ∨ path = "/etc/chrony/a.sources".toList then some "file".toList
    else if path = "/run/chrony-dhcp".toList then some "directory".toList
    else none
  names _ := .ok [".".toList, "..".toList, "eth0.sources".toList]
  lines path :=
    if path = "/etc/chrony.conf".toList then .ok ["server a.example iburst".toList, line]
    else if path = "/etc/chrony/a.sources".toList then .ok ["pool b.example".toList, "confdir /etc/chrony.conf".toList]
    else .error "No such file or directory"

theorem chronyView_finite (line : Str) : (chronyView line).Finite := by
  refine ((Set.finite_singleton "/etc/chrony/a.sources".toList).insert "/etc/chrony.conf".toList).subset ?_
  intro path hpath
  by_contra hno
  have hfile : (chronyView line).mode path = some "file".toList := hpath
  unfold chronyView at hfile
  dsimp only at hfile
  rw [if_neg (by simpa using hno)] at hfile
  split at hfile
  · exact absurd hfile (by decide)
  · cases hfile

theorem chrony_cycle_complete : ∃ fuel₀ report,
    (∀ fuel, fuel₀ ≤ fuel → inspectConfiguration (chronyView "sourcedir /etc/chrony/a.sources".toList) fuel
      ⟨none, none⟩ = .ok (some report)) ∧
    Complete (chronyView "sourcedir /etc/chrony/a.sources".toList) ["/etc/chrony.conf".toList] report := by
  refine (inspect_configuration_complete_iff _ ⟨none, none⟩ (chronyView_finite _)).mpr
    ⟨fun path hpath => ?_, fun file _ path hnames => ?_⟩
  · rw [List.mem_singleton.mp hpath]
    exact enumerable_of_file rfl
  · obtain ⟨lines, hlines, line, hline, htarget⟩ := hnames
    unfold chronyView at hlines
    dsimp only at hlines
    split at hlines
    · cases hlines
      rcases List.mem_pair.mp hline with rfl | rfl
      · have hnone : includeTarget "server a.example iburst".toList = none := by decide +kernel
        rw [hnone] at htarget
        cases htarget
      · have hpath : includeTarget "sourcedir /etc/chrony/a.sources".toList = some "/etc/chrony/a.sources".toList := by
          decide +kernel
        rw [hpath] at htarget
        rw [← Option.some.inj htarget]
        exact enumerable_of_file rfl
    · split at hlines
      · cases hlines
        rcases List.mem_pair.mp hline with rfl | rfl
        · have hnone : includeTarget "pool b.example".toList = none := by decide +kernel
          rw [hnone] at htarget
          cases htarget
        · have hpath : includeTarget "confdir /etc/chrony.conf".toList = some "/etc/chrony.conf".toList := by
            decide +kernel
          rw [hpath] at htarget
          rw [← Option.some.inj htarget]
          exact enumerable_of_file rfl
      · cases hlines

/-- A directory raises. -/
theorem chrony_sourcedir_raises :
    inspectConfiguration (chronyView "sourcedir /run/chrony-dhcp".toList) 5 ⟨none, none⟩ =
      .error "bad argument #1 to 'for iterator' (directory metatable expected, got nil)" ∧
    ¬∃ fuel report, inspectConfiguration (chronyView "sourcedir /run/chrony-dhcp".toList) fuel ⟨none, none⟩ =
      .ok (some report) := by
  refine ⟨by decide +kernel, ?_⟩
  rintro ⟨fuel, report, hreport⟩
  have hno := (complete_of_inspect hreport).2
  have hmain : Reached (chronyView "sourcedir /run/chrony-dhcp".toList) ["/etc/chrony.conf".toList]
      "/etc/chrony.conf".toList := .initial List.mem_cons_self ((denotes_self rfl).mpr rfl)
  have hnames : Names (chronyView "sourcedir /run/chrony-dhcp".toList) "/etc/chrony.conf".toList
      "/run/chrony-dhcp".toList :=
    ⟨_, rfl, "sourcedir /run/chrony-dhcp".toList, List.mem_cons_of_mem _ List.mem_cons_self, by decide +kernel⟩
  exact (hno.further _ hmain _ hnames).1 rfl

end Chrony

end Seharden
