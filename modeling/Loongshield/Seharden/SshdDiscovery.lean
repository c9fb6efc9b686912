import Loongshield.Lib.Queue
import Loongshield.Lua.Escape
import Loongshield.Seharden.ConfigPaths
import Loongshield.Seharden.SshdConfig
import Loongshield.Seharden.SudoersLine
import Loongshield.Seharden.AuditRoundTrip

/-!
# The files of the sshd configuration

`discover` computes the closure of the main file and the drop-in files under `Include`.

- `includeSpecs_eq`: the specifications of a line, in terms of its words;
- `discoverLoop_eq`: the loop is the loop of a queue;
- `discoverQueue_eq`: what the queue begins with;
- `discover_closure_iff`: when the files are the closure.
-/

namespace Seharden

open Lua Pattern

/-! ## The lines -/

/-- The specifications of an `Include`: the words after the keyword, which may be written in any case. -/
def includeWords (line : Str) : List Str :=
  match words nonBlank (stripComment line) with
  | [] => []
  | keyword :: specs => if lower keyword = "include".toList then specs else []

/-- Blanks around a text do not change its words. -/
theorem words_trim (s : Str) : words nonBlank (trim s) = words nonBlank s := by
  obtain ⟨b, b', hb, hb', hs⟩ := exists_trim s
  conv_rhs => rw [hs]
  rw [words_blanks _ hb]
  cases b' with
  | nil => rw [List.append_nil]
  | cons x b' =>
    have hx : nonBlank.test x = false := by rw [nonBlank_test, hb' x List.mem_cons_self]; rfl
    have hrest : words nonBlank b' = [] := by
      have h := words_blanks [] fun y hy => hb' y (List.mem_cons_of_mem x hy)
      rw [List.append_nil] at h
      exact h
    rw [words_append_cons hx, hrest, List.append_nil]

theorem parseDirective_eq (line : Str) : parseDirective line =
    if (Sudoers.entrySplit (trim (stripComment line))).2 = [] then none
    else some (Sudoers.entrySplit (trim (stripComment line))) := by
  have hentry := Sudoers.matchCaptures_entry (trimmed_trim (stripComment line))
  have hcapt : matchCaptures (trim (stripComment line)) "^(%S+)%s+(.+)$" = _ :=
    matchCaptures_anchored rfl Sudoers.compile_entry rfl
  have hmatch : strMatch (trim (stripComment line)) "^(%S+)%s+(.+)$" = .ok _ :=
    strMatch_anchored rfl Sudoers.compile_entry rfl _
  rw [hcapt] at hentry
  unfold parseDirective
  rw [hmatch]
  cases hrest : matchRest Sudoers.entryItems (trim (stripComment line)) [] with
  | none =>
    rw [hrest] at hentry
    split at hentry
    · next h => rw [if_pos h]; rfl
    · cases hentry
  | some p =>
    rw [hrest, Option.map_some] at hentry
    split at hentry
    · cases hentry
    · next h =>
      rw [if_neg h, Option.map_some, Option.some.inj hentry]
      rfl

/-- The words of a text with no blank at its beginning. -/
theorem words_entrySplit {t : Str} (ht : Trimmed t) (hne : t ≠ []) :
    words nonBlank t = (Sudoers.entrySplit t).1 :: words nonBlank (Sudoers.entrySplit t).2 := by
  cases t with
  | nil => exact absurd rfl hne
  | cons x u =>
    have hx : isspace x = false := ht.1 x rfl
    have hsplit : Sudoers.entrySplit (x :: u) =
        (x :: u.takeWhile nonBlank.test, (u.dropWhile nonBlank.test).dropWhile isspace) := by
      change ((x :: u).takeWhile nonBlank.test, ((x :: u).dropWhile nonBlank.test).dropWhile isspace) = _
      rw [List.takeWhile_cons_of_pos (by simp [hx]), List.dropWhile_cons_of_pos (by simp [hx])]
    rw [words_cons u (by simp [hx]), hsplit]
    refine congrArg _ ?_
    conv_lhs => rw [← @List.takeWhile_append_dropWhile _ isspace (u.dropWhile nonBlank.test)]
    exact words_blanks _ fun y hy => List.mem_takeWhile_imp hy

/-- **The specifications of a line are words of it.** -/
theorem includeSpecs_eq (line : Str) : includeSpecs line = includeWords line := by
  have htrim := trimmed_trim (stripComment line)
  unfold includeSpecs includeWords
  rw [parseDirective_eq, ← words_trim]
  by_cases hne : trim (stripComment line) = []
  · rw [hne]
    rfl
  · rw [words_entrySplit htrim hne]
    by_cases hrest : (Sudoers.entrySplit (trim (stripComment line))).2 = []
    · rw [if_pos hrest, hrest]
      dsimp only
      split <;> rfl
    · rw [if_neg hrest]
      dsimp only
      rw [captures_words]

/-! ## The loop -/

section Discovery

variable {view : View} {baseDir : Str}

/-- A regular file: a path that is not empty. -/
def IsFile (view : View) (path : Str) : Prop := path ≠ [] ∧ view.mode path = some "file".toList

/-- A file names another one in a specification of an `Include`. -/
def Includes (view : View) (baseDir path path' : Str) : Prop :=
  ∃ lines, view.lines path = .ok lines ∧ ∃ line ∈ lines, ∃ spec ∈ includeWords line,
    ∃ paths, expandIncludeSpec view spec baseDir = .ok paths ∧ path' ∈ paths

/-- The regular files that can be reached from the roots. -/
inductive Included (view : View) (baseDir : Str) (root : Str → Prop) : Str → Prop
  | root {path : Str} : root path → IsFile view path → Included view baseDir root path
  | step {path path' : Str} : Included view baseDir root path → Includes view baseDir path path' →
      IsFile view path' → Included view baseDir root path'

/-- The specifications of a file can be expanded. -/
def Expands (view : View) (baseDir path : Str) : Prop :=
  ∀ lines, view.lines path = .ok lines → ∀ line ∈ lines, ∀ spec ∈ includeWords line,
    ∃ paths, expandIncludeSpec view spec baseDir = .ok paths

/-- The files that an element of the queue adds to it. -/
def includeNext (view : View) (baseDir path : Str) : Except Err (List Str) :=
  if pathExistsAsFile view path then (discoverIncludeFiles view path baseDir).map (List.filter (· ≠ [])) else .ok []

theorem push_eq (queue : List Str) (path : Str) : Queue.push queue path = appendUnique queue path := by
  unfold Queue.push appendUnique
  by_cases h : path ∈ queue
  · rw [if_pos h, if_pos h]
  · rw [if_neg h, if_neg h]

theorem appendPath_foldl : ∀ (includes queue : List Str),
    includes.foldl appendPath queue = Queue.pushAll queue (includes.filter (· ≠ []))
  | [], queue => rfl
  | path :: includes, queue => by
    rw [List.foldl_cons, appendPath_foldl includes, appendPath]
    by_cases hpath : path = []
    · rw [if_pos hpath, List.filter_cons_of_neg (by simp [hpath])]
    · rw [if_neg hpath, List.filter_cons_of_pos (by simp [hpath]), ← push_eq]
      rfl

/-- What the loop does with an element besides queueing: it is one of the files. -/
def visitFile (view : View) (files : List Str) (path : Str) : List Str :=
  if pathExistsAsFile view path then appendPath files path else files

/-- **The loop is the loop of a queue.** -/
theorem discoverLoop_eq (fuel index : Nat) (queue files : List Str) : discoverLoop view baseDir fuel index queue files =
    (Queue.loop (includeNext view baseDir) fuel index queue).map
      (Option.map fun queue' => (queue'.drop index).foldl (visitFile view) files) := by
  refine Queue.loop_fold (f := discoverLoop view baseDir) (fun _ _ _ => rfl) (fun fuel index queue files hx => ?_)
    (fun fuel index queue files path hx => ?_) fuel index queue files
  · rw [discoverLoop, hx]
  · rw [discoverLoop, hx]
    dsimp only
    unfold includeNext visitFile
    by_cases hfile : pathExistsAsFile view path = true
    · rw [if_pos hfile, if_pos hfile, if_pos hfile]
      cases discoverIncludeFiles view path baseDir with
      | error e => rfl
      | ok includes => exact congrArg (discoverLoop view baseDir fuel (index + 1) · _) (appendPath_foldl includes queue)
    · rw [if_neg hfile, if_neg hfile, if_neg hfile]
      rfl

/-- The files are the elements of the queue that are files. -/
theorem foldl_visitFile : ∀ {queue files : List Str}, (files ++ queue).Nodup →
    queue.foldl (visitFile view) files = files ++ queue.filter fun path => path ≠ [] && pathExistsAsFile view path
  | [], files, _ => by simp
  | path :: queue, files, h => by
    have hpath : path ∉ files := fun hmem => (List.nodup_append.mp h).2.2 path hmem path List.mem_cons_self rfl
    rw [List.foldl_cons]
    by_cases hfile : path ≠ [] ∧ pathExistsAsFile view path = true
    · have hvisit : visitFile view files path = files ++ [path] := by
        unfold visitFile appendPath appendUnique
        rw [if_pos hfile.2, if_neg hfile.1, if_neg hpath]
      rw [hvisit, foldl_visitFile (by rwa [← List.append_cons]), List.filter_cons_of_pos (by simpa using hfile),
        List.append_assoc, List.singleton_append]
    · have hvisit : visitFile view files path = files := by
        unfold visitFile appendPath
        split
        · next hmode => rw [if_pos (by by_contra hne; exact hfile ⟨hne, hmode⟩)]
        · rfl
      rw [hvisit, foldl_visitFile (h.sublist (by simp)), List.filter_cons_of_neg (by simpa using hfile)]

/-- The specifications of several lines. -/
theorem expandIncludeSpecs_ok : ∀ {specs paths : List Str}, expandIncludeSpecs view baseDir specs = .ok paths →
    (∀ spec ∈ specs, ∃ ps, expandIncludeSpec view spec baseDir = .ok ps) ∧
      ∀ path, path ∈ paths ↔ ∃ spec ∈ specs, ∃ ps, expandIncludeSpec view spec baseDir = .ok ps ∧ path ∈ ps
  | [], paths, h => by
    cases h
    simp
  | spec :: specs, paths, h => by
    rw [expandIncludeSpecs] at h
    cases hps : expandIncludeSpec view spec baseDir with
    | error e =>
      rw [hps] at h
      cases h
    | ok ps =>
      cases hrest : expandIncludeSpecs view baseDir specs with
      | error e =>
        rw [hps, hrest] at h
        cases h
      | ok rest =>
        rw [hps, hrest] at h
        cases h
        obtain ⟨hall, hmem⟩ := expandIncludeSpecs_ok hrest
        simp only [List.forall_mem_cons, List.mem_append, List.exists_mem_cons_iff, hps, hmem, Except.ok.injEq,
          exists_eq_left', exists_eq', true_and]
        exact ⟨hall, fun _ => trivial⟩

theorem expandIncludeSpecs_total : ∀ {specs : List Str},
    (∀ spec ∈ specs, ∃ ps, expandIncludeSpec view spec baseDir = .ok ps) →
      ∃ paths, expandIncludeSpecs view baseDir specs = .ok paths
  | [], _ => ⟨[], rfl⟩
  | spec :: specs, h => by
    obtain ⟨ps, hps⟩ := h spec List.mem_cons_self
    obtain ⟨rest, hrest⟩ := expandIncludeSpecs_total fun s hs => h s (List.mem_cons_of_mem spec hs)
    refine ⟨ps ++ rest, ?_⟩
    rw [expandIncludeSpecs, hps, hrest]
    rfl

theorem mem_specs {lines : List Str} {spec : Str} :
    spec ∈ lines.flatMap includeSpecs ↔ ∃ line ∈ lines, spec ∈ includeWords line := by
  simp only [List.mem_flatMap, includeSpecs_eq]

theorem discoverIncludeFiles_ok_iff {path : Str} :
    (∃ includes, discoverIncludeFiles view path baseDir = .ok includes) ↔ Expands view baseDir path := by
  unfold discoverIncludeFiles Expands
  cases view.lines path with
  | error e => simp
  | ok lines =>
    simp only [Except.ok.injEq, forall_eq']
    constructor
    · rintro ⟨includes, h⟩ line hline spec hspec
      exact (expandIncludeSpecs_ok h).1 spec (mem_specs.mpr ⟨line, hline, hspec⟩)
    · intro h
      refine expandIncludeSpecs_total fun spec hspec => ?_
      obtain ⟨line, hline, hword⟩ := mem_specs.mp hspec
      exact h line hline spec hword

theorem mem_includeFiles_iff {path path' : Str} {includes : List Str}
    (h : discoverIncludeFiles view path baseDir = .ok includes) :
    path' ∈ includes ↔ Includes view baseDir path path' := by
  unfold discoverIncludeFiles at h
  unfold Includes
  cases hlines : view.lines path with
  | error e =>
    rw [hlines] at h
    cases h
    simp
  | ok lines =>
    rw [hlines] at h
    simp only [(expandIncludeSpecs_ok h).2, mem_specs, Except.ok.injEq, exists_eq_left']
    constructor
    · rintro ⟨spec, ⟨line, hline, hspec⟩, hps⟩
      exact ⟨line, hline, spec, hspec, hps⟩
    · rintro ⟨line, hline, spec, hspec, hps⟩
      exact ⟨spec, ⟨line, hline, hspec⟩, hps⟩

theorem expandIncludeSpec_eq (view : View) (spec baseDir : Str) : expandIncludeSpec view spec baseDir =
    (if hasWildcard (normalizeIncludePath spec baseDir) then expandIncludeGlob view (normalizeIncludePath spec baseDir)
      else .ok [normalizeIncludePath spec baseDir]).map fun candidates =>
        sortStrs (candidates.filter (pathExistsAsFile view)) := by
  unfold expandIncludeSpec
  dsimp only
  split
  · cases expandIncludeGlob view (normalizeIncludePath spec baseDir) <;> rfl
  · rfl

/-- What a specification gives is a file. -/
theorem expandIncludeSpec_file {spec path : Str} {paths : List Str}
    (h : expandIncludeSpec view spec baseDir = .ok paths) (hpath : path ∈ paths) :
      view.mode path = some "file".toList := by
  rw [expandIncludeSpec_eq] at h
  generalize (if hasWildcard (normalizeIncludePath spec baseDir) then
    expandIncludeGlob view (normalizeIncludePath spec baseDir)
    else .ok [normalizeIncludePath spec baseDir]) = candidates at h
  cases candidates with
  | error e => cases h
  | ok candidates =>
    cases h
    exact beq_iff_eq.mp (List.mem_filter.mp (mem_sortStrs.mp hpath)).2

theorem includeNext_ok_iff {path : Str} : (∃ ys, includeNext view baseDir path = .ok ys) ↔
    (view.mode path = some "file".toList → Expands view baseDir path) := by
  unfold includeNext pathExistsAsFile
  rw [← discoverIncludeFiles_ok_iff]
  by_cases hfile : view.mode path = some "file".toList
  · rw [if_pos (beq_iff_eq.mpr hfile), forall_prop_of_true hfile]
    cases discoverIncludeFiles view path baseDir with
    | error e => simp [Except.map]
    | ok includes => simp [Except.map]
  · rw [if_neg (mt beq_iff_eq.mp hfile)]
    exact iff_of_true ⟨[], rfl⟩ fun h => absurd h hfile

theorem follows_iff {path path' : Str} (hok : ∃ ys, includeNext view baseDir path = .ok ys) :
    Queue.Follows (includeNext view baseDir) path path' ↔
      view.mode path = some "file".toList ∧ Includes view baseDir path path' ∧ IsFile view path' := by
  unfold Queue.Follows includeNext pathExistsAsFile at *
  by_cases hfile : view.mode path = some "file".toList
  · rw [if_pos (beq_iff_eq.mpr hfile)] at hok ⊢
    obtain ⟨ys, hys⟩ := hok
    cases hinc : discoverIncludeFiles view path baseDir with
    | error e =>
      rw [hinc] at hys
      cases hys
    | ok includes =>
      simp only [Except.map, Except.ok.injEq, exists_eq_left', List.mem_filter, decide_eq_true_eq, hfile, true_and,
        mem_includeFiles_iff hinc]
      refine and_congr_right fun hincludes => ?_
      obtain ⟨lines, -, line, -, spec, -, paths, hpaths, hmem⟩ := hincludes
      exact ⟨fun hne => ⟨hne, expandIncludeSpec_file hpaths hmem⟩, fun h => h.1⟩
  · rw [if_neg (mt beq_iff_eq.mp hfile)]
    refine iff_of_false ?_ fun h => hfile h.1
    rintro ⟨ys, hys, hmem⟩
    cases hys
    cases hmem

/-- What the files should be: each regular file that can be reached, once, and after a file that includes it unless it
is a root. -/
structure IncludeClosure (view : View) (baseDir : Str) (root : Str → Prop) (files : List Str) : Prop where
  nodup : files.Nodup
  mem_iff : ∀ path, path ∈ files ↔ Included view baseDir root path
  order : ∀ before path after, files = before ++ path :: after → root path ∨ ∃ p ∈ before, Includes view baseDir p path

/-- A finite file system: finitely many paths are regular files. -/
def View.Finite (view : View) : Prop := {path | view.mode path = some "file".toList}.Finite

section Roots

variable {roots : List Str}

/-- Where the specifications of all files can be expanded, the queue asks for nothing else. -/
theorem includeNext_of_reach (hne : ∀ path ∈ roots, path ≠ [])
    (hexp : ∀ path, Included view baseDir (· ∈ roots) path → Expands view baseDir path) {path : Str}
    (h : Queue.Reach (includeNext view baseDir) roots path) :
    path ≠ [] ∧ (view.mode path = some "file".toList → Included view baseDir (· ∈ roots) path) ∧
      ∃ ys, includeNext view baseDir path = .ok ys := by
  induction h with
  | root hmem =>
    have hincl := fun hfile : view.mode _ = some "file".toList =>
      @Included.root view baseDir (· ∈ roots) _ hmem ⟨hne _ hmem, hfile⟩
    exact ⟨hne _ hmem, hincl, includeNext_ok_iff.mpr fun hfile => hexp _ (hincl hfile)⟩
  | step _ hfollows ih =>
    obtain ⟨-, hincl, hok⟩ := ih
    obtain ⟨hfile, hincludes, hfile'⟩ := (follows_iff hok).mp hfollows
    have hincl' := Included.step (hincl hfile) hincludes hfile'
    exact ⟨hfile'.1, fun _ => hincl', includeNext_ok_iff.mpr fun _ => hexp _ hincl'⟩

theorem reach_of_included (hok : ∀ path, Queue.Reach (includeNext view baseDir) roots path →
    ∃ ys, includeNext view baseDir path = .ok ys) {path : Str} (h : Included view baseDir (· ∈ roots) path) :
    Queue.Reach (includeNext view baseDir) roots path ∧ view.mode path = some "file".toList := by
  induction h with
  | root hmem hfile => exact ⟨.root hmem, hfile.2⟩
  | step _ hincludes hfile ih => exact ⟨ih.1.step ((follows_iff (hok _ ih.1)).mpr ⟨ih.2, hincludes, hfile⟩), hfile.2⟩

theorem includeNext_total_iff (hne : ∀ path ∈ roots, path ≠ []) :
    (∀ path, Queue.Reach (includeNext view baseDir) roots path → ∃ ys, includeNext view baseDir path = .ok ys) ↔
      ∀ path, Included view baseDir (· ∈ roots) path → Expands view baseDir path := by
  constructor
  · intro hok path hpath
    obtain ⟨hreach, hfile⟩ := reach_of_included hok hpath
    exact includeNext_ok_iff.mp (hok path hreach) hfile
  · exact fun hexp path hpath => (includeNext_of_reach hne hexp hpath).2.2

/-- Only the roots and regular files can be reached. -/
theorem reach_finite (hfinite : view.Finite) : {path | Queue.Reach (includeNext view baseDir) roots path}.Finite := by
  refine (roots.finite_toSet.union hfinite).subset ?_
  rintro path (hmem | ⟨-, ys, hys, hmem⟩)
  · exact .inl hmem
  · exact .inr ((follows_iff ⟨ys, hys⟩).mp ⟨ys, hys, hmem⟩).2.2.2

/-- A run of the loop is a run of the queue. -/
theorem loop_of_discoverLoop {fuel : Nat} {files : List Str}
    (h : discoverLoop view baseDir fuel 0 roots [] = .ok (some files)) :
    ∃ queue, Queue.loop (includeNext view baseDir) fuel 0 roots = .ok (some queue) ∧
      files = queue.foldl (visitFile view) [] := by
  rw [discoverLoop_eq] at h
  cases hloop : Queue.loop (includeNext view baseDir) fuel 0 roots with
  | error e =>
    rw [hloop] at h
    cases h
  | ok r =>
    rw [hloop] at h
    cases r with
    | none => cases h
    | some queue =>
      cases h
      exact ⟨queue, rfl, rfl⟩

/-- **The loop returns** iff the specifications of all files it reaches can be expanded. -/
theorem discoverLoop_ok_iff (hfinite : view.Finite) (hnodup : roots.Nodup) (hne : ∀ path ∈ roots, path ≠ []) :
    (∃ fuel₀ files, ∀ fuel, fuel₀ ≤ fuel → discoverLoop view baseDir fuel 0 roots [] = .ok (some files)) ↔
      ∀ path, Included view baseDir (· ∈ roots) path → Expands view baseDir path := by
  rw [← includeNext_total_iff hne]
  constructor
  · rintro ⟨fuel₀, files, h⟩ path hpath
    obtain ⟨queue, hloop, -⟩ := loop_of_discoverLoop (h fuel₀ (Nat.le_refl fuel₀))
    have hcloses := Queue.closes_of_loop (Queue.inv_init hnodup) hloop
    exact hcloses.answers path ((hcloses.mem_iff path).mpr hpath)
  · intro hok
    obtain ⟨fuel₀, queue, h⟩ := (Queue.loop_ok_iff hnodup (reach_finite hfinite)).mpr hok
    refine ⟨fuel₀, queue.foldl (visitFile view) [], fun fuel hfuel => ?_⟩
    rw [discoverLoop_eq, h fuel hfuel]
    rfl

/-- **What the loop returns is the closure of its roots.** -/
theorem includeClosure_of_loop (hnodup : roots.Nodup) (hne : ∀ path ∈ roots, path ≠ []) {fuel : Nat} {files : List Str}
    (h : discoverLoop view baseDir fuel 0 roots [] = .ok (some files)) :
    IncludeClosure view baseDir (· ∈ roots) files := by
  obtain ⟨queue, hloop, rfl⟩ := loop_of_discoverLoop h
  have hcloses := Queue.closes_of_loop (Queue.inv_init hnodup) hloop
  have hok : ∀ path, Queue.Reach (includeNext view baseDir) roots path → ∃ ys, includeNext view baseDir path = .ok ys :=
    fun path hpath => hcloses.answers path ((hcloses.mem_iff path).mpr hpath)
  have hexp := (includeNext_total_iff hne).mp hok
  rw [foldl_visitFile (by simpa using hcloses.nodup), List.nil_append]
  refine ⟨hcloses.nodup.filter _, fun path => ?_, fun before path after heq => ?_⟩
  · rw [List.mem_filter, hcloses.mem_iff]
    constructor
    · rintro ⟨hreach, hfile⟩
      have hmode : path ≠ [] ∧ pathExistsAsFile view path = true := by simpa using hfile
      exact (includeNext_of_reach hne hexp hreach).2.1 (beq_iff_eq.mp hmode.2)
    · intro hincl
      obtain ⟨hreach, hmode⟩ := reach_of_included hok hincl
      have hnil := (includeNext_of_reach hne hexp hreach).1
      exact ⟨hreach, by simp [hnil, pathExistsAsFile, hmode]⟩
  · obtain ⟨before', rest, hqueue, rfl, hrest⟩ := List.filter_eq_append_iff.mp heq
    obtain ⟨skipped, after', rfl, hskipped, -, -⟩ := List.filter_eq_cons_iff.mp hrest
    rw [← List.append_assoc] at hqueue
    rcases hcloses.before hqueue with hroot | ⟨p, hp, hfollows⟩
    · exact .inl hroot
    · -- what includes something is a file, so it was not skipped
      have hpq : p ∈ queue := by rw [hqueue]; exact List.mem_append_left _ hp
      obtain ⟨hfile, hincludes, -⟩ := (follows_iff (hcloses.answers p hpq)).mp hfollows
      have hnil := (includeNext_of_reach hne hexp ((hcloses.mem_iff p).mp hpq)).1
      have htest : (p ≠ [] && pathExistsAsFile view p) = true := by simp [hnil, pathExistsAsFile, hfile]
      refine .inr ⟨p, List.mem_filter.mpr ⟨?_, htest⟩, hincludes⟩
      exact (List.mem_append.mp hp).resolve_right fun hs => hskipped p hs htest

end Roots

/-! ## The drop-in directory -/

/-- An absolute directory without wildcards, dot components and a slash at its end, given by its components; a component
is empty where two slashes stand together. -/
structure PlainDir (dir : Str) (parts : List Str) : Prop where
  eq : dir = parts.flatMap fun part => '/' :: part
  slash : ∀ part ∈ parts, '/' ∉ part
  last : ∃ front name, parts = front ++ [name] ∧ name ≠ []
  dots : ∀ part ∈ parts, part ≠ ".".toList ∧ part ≠ "..".toList
  wild : ∀ part ∈ parts, '*' ∉ part ∧ '?' ∉ part ∧ '[' ∉ part

/-- The components without the empty ones, put together. -/
def collapsed (parts : List Str) : Str := (parts.filter (· ≠ [])).flatMap fun part => '/' :: part

theorem compile_wildcard : compile "[%*%?%[]" = [.single (.set false [.cls '*', .cls '?', .cls '[']) .one] := rfl

theorem hasWildcard_iff {s : Str} : hasWildcard s = true ↔ '*' ∈ s ∨ '?' ∈ s ∨ '[' ∈ s := by
  unfold hasWildcard
  rw [isMatch_iff, strMatch_somewhere compile_wildcard (by decide)]
  have htest : ∀ x, (Single.set false [.cls '*', .cls '?', .cls '[']).test x = true ↔ x = '*' ∨ x = '?' ∨ x = '[' := by
    intro x
    have hcls : ∀ a ∈ ['*', '?', '['], matchClass a x = (a == x) := by
      intro a ha
      simp only [List.mem_cons, List.not_mem_nil, or_false] at ha
      rcases ha with rfl | rfl | rfl <;> rfl
    simp only [Single.test, List.any_cons, List.any_nil, SetItem.test, hcls '*' (by simp), hcls '?' (by simp),
      hcls '[' (by simp), Bool.or_false, Bool.bne_false, Bool.or_eq_true, beq_iff_eq]
    exact or_congr eq_comm (or_congr eq_comm eq_comm)
  simp only [htest]
  constructor
  · rintro ⟨x, hx, rfl | rfl | rfl⟩
    · exact .inl hx
    · exact .inr (.inl hx)
    · exact .inr (.inr hx)
  · rintro (hx | hx | hx)
    · exact ⟨_, hx, .inl rfl⟩
    · exact ⟨_, hx, .inr (.inl rfl)⟩
    · exact ⟨_, hx, .inr (.inr rfl)⟩

theorem compile_component : compile "[^/]+" = [.single (allBut '/') .plus] := rfl

/-- The components of a path that are not empty. -/
theorem words_parts {tail : Str} (htail : ∀ x, tail.head? = some x → x = '/') : ∀ {parts : List Str},
    (∀ part ∈ parts, '/' ∉ part) → words (allBut '/') ((parts.flatMap fun part => '/' :: part) ++ tail) =
      parts.filter (· ≠ []) ++ words (allBut '/') tail
  | [], _ => rfl
  | part :: parts, h => by
    have ih := words_parts htail fun p hp => h p (List.mem_cons_of_mem part hp)
    rw [List.flatMap_cons, List.cons_append, List.cons_append, words_cons_of_neg _ (allBut_test_eq_false.mpr rfl),
      List.append_assoc]
    by_cases hpart : part = []
    · rw [hpart, List.nil_append, ih, List.filter_cons_of_neg (by simp)]
    · rw [words_append hpart, ih, List.filter_cons_of_pos (by simpa using hpart), List.cons_append]
      · exact fun x hx => allBut_test.mpr fun heq => h part List.mem_cons_self (heq ▸ hx)
      · intro x hx
        refine allBut_test_eq_false.mpr ?_
        cases parts with
        | nil => exact htail x hx
        | cons q parts => exact (Option.some.inj hx).symm

theorem unique_singleton (x : Str) : unique [x] = [x] := rfl

/-- Components without wildcards are put behind the base. -/
theorem includeParts_plain {rest : List Str} : ∀ {parts : List Str} {base : Str},
    (∀ part ∈ parts, part ≠ ".".toList ∧ part ≠ "..".toList ∧ hasWildcard part = false) →
      includeParts view (parts ++ rest) [base] = includeParts view rest [parts.foldl joinPath base]
  | [], _, _ => rfl
  | part :: parts, base, h => by
    obtain ⟨hdot, hdots, hwild⟩ := h part List.mem_cons_self
    rw [List.cons_append, includeParts, if_neg hdot, if_neg hdots, if_neg (by rw [hwild]; exact Bool.false_ne_true),
      List.map_singleton, unique_singleton, includeParts_plain fun p hp => h p (List.mem_cons_of_mem part hp),
      List.foldl_cons]

theorem foldl_joinPath : ∀ {parts : List Str} {x : Char} {base : Str},
    parts.foldl joinPath ('/' :: x :: base) = ('/' :: x :: base) ++ parts.flatMap fun part => '/' :: part
  | [], x, base => by simp
  | part :: parts, x, base => by
    have hjoin : joinPath ('/' :: x :: base) part = '/' :: x :: (base ++ '/' :: part) := by
      unfold joinPath
      rw [if_neg (by simp), if_neg (by simp)]
      simp
    rw [List.foldl_cons, hjoin, foldl_joinPath, List.flatMap_cons]
    simp

/-- From the root directory on. -/
theorem foldl_joinPath_root {parts : List Str} (hne : parts ≠ []) (hparts : ∀ part ∈ parts, part ≠ []) :
    parts.foldl joinPath "/".toList = parts.flatMap fun part => '/' :: part := by
  cases parts with
  | nil => exact absurd rfl hne
  | cons part parts =>
    obtain ⟨x, part, rfl⟩ := List.exists_cons_of_ne_nil (hparts part List.mem_cons_self)
    have hjoin : joinPath "/".toList (x :: part) = '/' :: x :: part := rfl
    rw [List.foldl_cons, hjoin, foldl_joinPath, List.flatMap_cons]

theorem compile_endsConf : compile ".*%.conf$" =
    .single .any .star :: ((spelling ".conf".toList).map (.single · .one) ++ [.atEnd]) := rfl

theorem compile_conf : compile "%.conf$" = (spelling ".conf".toList).map (.single · .one) ++ [.atEnd] := rfl

/-- `*.conf`: the names that end so. -/
theorem strMatch_endsConf (name : Str) : ∃ m, strMatch name "^.*%.conf$" = .ok m ∧
    (m.isSome = true ↔ ".conf".toList <:+ name) := by
  have hmatch : strMatch name "^.*%.conf$" = .ok _ := strMatch_anchored rfl compile_endsConf rfl name
  refine ⟨_, hmatch, ?_⟩
  rw [Option.isSome_map]
  exact matchRest_endsWith (spells_spelling _) name

theorem isMatch_conf {name : Str} (h : ".conf".toList <:+ name) : isMatch name "%.conf$" = true := by
  have hmatch : strMatch name "%.conf$" = .ok _ := strMatch_search (by decide) compile_conf rfl name
  have hfound : (findRest ((spelling ".conf".toList).map (.single · .one) ++ [.atEnd]) name).isSome = true :=
    findRest_isSome.mpr ⟨_, h, (matchRest_spells_end (spells_spelling _) _).mpr rfl⟩
  obtain ⟨p, hp⟩ := Option.isSome_iff_exists.mp hfound
  rw [hp] at hmatch
  exact isMatch_iff.mpr ⟨_, hmatch⟩

theorem globToPattern_conf : globToPattern "*.conf".toList = "^.*%.conf$".toList := by decide +kernel

/-- The names of a directory that end in `.conf`. -/
theorem matchingNames_conf : ∀ names : List Str, ∃ found, matchingNames "^.*%.conf$" names = .ok found ∧
    ∀ name, name ∈ found ↔ name ∈ names ∧ ".conf".toList <:+ name
  | [] => ⟨[], rfl, by simp⟩
  | name :: names => by
    obtain ⟨found, hfound, hmem⟩ := matchingNames_conf names
    rw [matchingNames]
    by_cases hdot : name = ".".toList ∨ name = "..".toList
    · have hno : ¬ ".conf".toList <:+ name := by rcases hdot with rfl | rfl <;> decide
      refine ⟨found, by rw [if_pos (by simpa using hdot)]; exact hfound, fun n => ?_⟩
      rw [hmem, List.mem_cons]
      refine and_congr_left fun hn => ⟨.inr, fun h => h.resolve_left ?_⟩
      rintro rfl
      exact hno hn
    · obtain ⟨m, hm, hiff⟩ := strMatch_endsConf name
      rw [if_neg (by simpa using hdot), hm, hfound]
      refine ⟨_, rfl, fun n => ?_⟩
      by_cases hsome : m.isSome = true
      · rw [if_pos hsome, List.mem_cons, List.mem_cons, hmem]
        constructor
        · rintro (rfl | ⟨hn, hconf⟩)
          · exact ⟨.inl rfl, hiff.mp hsome⟩
          · exact ⟨.inr hn, hconf⟩
        · rintro ⟨rfl | hn, hconf⟩
          · exact .inl rfl
          · exact .inr ⟨hn, hconf⟩
      · rw [if_neg hsome, List.mem_cons, hmem]
        refine and_congr_left fun hconf => ⟨.inr, fun h => h.resolve_left ?_⟩
        rintro rfl
        exact hsome (hiff.mpr hconf)

/-- A directory can be listed, if it is one. -/
def Listable (view : View) (dir : Str) : Prop :=
  view.mode dir = some "directory".toList → ∃ names, view.names dir = .ok names

theorem listMatchingPaths_conf {dir : Str} (hdir : dir ≠ ".".toList ∧ dir ≠ "/".toList) (hlist : Listable view dir) :
    ∃ paths, listMatchingPaths view "^.*%.conf$" dir = .ok paths ∧
      ∀ path, path ∈ paths ↔ ∃ name, HasEntry view dir name ∧ ".conf".toList <:+ name ∧ path = dir ++ "/" ++ name := by
  unfold listMatchingPaths HasEntry
  by_cases hmode : view.mode dir = some "directory".toList
  · obtain ⟨names, hnames⟩ := hlist hmode
    obtain ⟨found, hfound, hmem⟩ := matchingNames_conf names
    rw [if_pos hmode, hnames]
    refine ⟨sortStrs (found.map (joinPath dir)), ?_, fun path => ?_⟩
    · simp only [bind, Except.bind]
      rw [hfound]
      rfl
    · simp only [mem_sortStrs, List.mem_map, hmem, hmode, true_and, Except.ok.injEq, exists_eq_left']
      have hjoin : ∀ name, joinPath dir name = dir ++ "/" ++ name := fun name => by
        unfold joinPath
        rw [if_neg hdir.1, if_neg hdir.2]
      constructor
      · rintro ⟨name, ⟨hname, hconf⟩, rfl⟩
        exact ⟨name, hname, hconf, hjoin name⟩
      · rintro ⟨name, hname, hconf, rfl⟩
        exact ⟨name, ⟨hname, hconf⟩, hjoin name⟩
  · rw [if_neg hmode]
    refine ⟨[], rfl, fun path => iff_of_false List.not_mem_nil ?_⟩
    rintro ⟨name, hentry, -, -⟩
    exact hmode hentry.1

namespace PlainDir

variable {dir : Str} {parts : List Str}

theorem filter_ne (h : PlainDir dir parts) : parts.filter (· ≠ []) ≠ [] := by
  obtain ⟨front, name, rfl, hname⟩ := h.last
  simp [hname]

/-- The collapsed directory is not the root directory, and no relative one. -/
theorem collapsed_ne (h : PlainDir dir parts) : collapsed parts ≠ ".".toList ∧ collapsed parts ≠ "/".toList := by
  unfold collapsed
  cases hparts : parts.filter (· ≠ []) with
  | nil => exact absurd hparts h.filter_ne
  | cons part rest =>
    have hpart : part ≠ [] := by
      have hmem : part ∈ parts.filter (· ≠ []) := by rw [hparts]; exact List.mem_cons_self
      simpa using (List.mem_filter.mp hmem).2
    obtain ⟨x, part, rfl⟩ := List.exists_cons_of_ne_nil hpart
    simp

/-- **The drop-in files**: those of the collapsed directory. -/
theorem expand (h : PlainDir dir parts) (baseDir : Str) :
    expandIncludeSpec view (dir ++ "/*.conf") baseDir = (listMatchingPaths view "^.*%.conf$" (collapsed parts)).map
      fun paths => sortStrs ((unique paths).filter (pathExistsAsFile view)) := by
  have hhead : (dir ++ "/*.conf").head? = some '/' := by
    obtain ⟨front, name, rfl, -⟩ := h.last
    rw [h.eq]
    cases front <;> rfl
  have hwild : hasWildcard (dir ++ "/*.conf") = true := hasWildcard_iff.mpr (.inl (by simp))
  have hcaptures : captures (dir ++ "/*.conf") "[^/]+" = parts.filter (· ≠ []) ++ ["*.conf".toList] := by
    rw [captures_runs compile_component, h.eq, words_parts (by simp) h.slash]
    rfl
  have hplain : ∀ part ∈ parts.filter (· ≠ []), part ≠ ".".toList ∧ part ≠ "..".toList ∧ hasWildcard part = false := by
    intro part hpart
    have hmem := (List.mem_filter.mp hpart).1
    refine ⟨(h.dots part hmem).1, (h.dots part hmem).2, Bool.eq_false_iff.mpr fun hw => ?_⟩
    obtain ⟨h1, h2, h3⟩ := h.wild part hmem
    rcases hasWildcard_iff.mp hw with hw | hw | hw
    · exact h1 hw
    · exact h2 hw
    · exact h3 hw
  have hbase : (parts.filter (· ≠ [])).foldl joinPath "/".toList = collapsed parts :=
    foldl_joinPath_root h.filter_ne fun part hpart => by simpa using (List.mem_filter.mp hpart).2
  rw [expandIncludeSpec_eq, normalizeIncludePath, if_pos hhead, if_pos hwild, expandIncludeGlob, if_pos hhead,
    hcaptures, includeParts_plain hplain, hbase, includeParts, if_neg (by decide), if_neg (by decide),
    if_pos (by decide),
    globToPattern_conf, matchingBases]
  cases listMatchingPaths view "^.*%.conf$" (collapsed parts) <;> rfl

theorem expand_ok (h : PlainDir dir parts) (baseDir : Str) (hlist : Listable view (collapsed parts)) :
    ∃ paths, expandIncludeSpec view (dir ++ "/*.conf") baseDir = .ok paths ∧ ∀ path, path ∈ paths ↔
      view.mode path = some "file".toList ∧ ∃ name, HasEntry view (collapsed parts) name ∧ ".conf".toList <:+ name ∧
        path = collapsed parts ++ "/" ++ name := by
  obtain ⟨paths, hpaths, hmem⟩ := listMatchingPaths_conf h.collapsed_ne hlist
  refine ⟨sortStrs ((unique paths).filter (pathExistsAsFile view)), by rw [h.expand, hpaths]; rfl, fun path => ?_⟩
  rw [mem_sortStrs, List.mem_filter, mem_unique, hmem, and_comm, pathExistsAsFile, beq_iff_eq]

theorem expand_ok_iff (h : PlainDir dir parts) (baseDir : Str) :
    (∃ paths, expandIncludeSpec view (dir ++ "/*.conf") baseDir = .ok paths) ↔ Listable view (collapsed parts) := by
  constructor
  · rintro ⟨paths, hpaths⟩ hmode
    rw [h.expand, listMatchingPaths, if_pos hmode] at hpaths
    cases hnames : view.names (collapsed parts) with
    | error e =>
      rw [hnames] at hpaths
      cases hpaths
    | ok names => exact ⟨names, rfl⟩
  · intro hlist
    obtain ⟨paths, hpaths, -⟩ := h.expand_ok baseDir hlist
    exact ⟨paths, hpaths⟩

theorem collapsed_length_le : ∀ parts : List Str,
    (collapsed parts).length ≤ (parts.flatMap fun part => '/' :: part).length
  | [] => Nat.le_refl 0
  | part :: parts => by
    have ih := collapsed_length_le parts
    unfold collapsed at ih ⊢
    by_cases hpart : part = []
    · rw [List.filter_cons_of_neg (by simpa using hpart), List.flatMap_cons, List.length_append]
      omega
    · rw [List.filter_cons_of_pos (by simpa using hpart), List.flatMap_cons, List.flatMap_cons, List.length_append,
        List.length_append]
      omega

/-- Without empty components nothing collapses. -/
theorem collapsed_eq_iff (h : PlainDir dir parts) : collapsed parts = dir ↔ [] ∉ parts := by
  rw [h.eq]
  constructor
  · intro heq hmem
    obtain ⟨front, rest, rfl⟩ := List.append_of_mem hmem
    have hfront := collapsed_length_le front
    have hrest := collapsed_length_le rest
    have hlen := congrArg List.length heq
    have hsplit : collapsed (front ++ [] :: rest) = collapsed front ++ collapsed rest := by simp [collapsed]
    rw [hsplit, List.flatMap_append, List.flatMap_cons, List.length_append, List.length_append, List.length_append,
      List.length_cons] at hlen
    omega
  · intro hno
    unfold collapsed
    rw [List.filter_eq_self.mpr fun part hpart => by simpa using fun heq : part = [] => hno (heq ▸ hpart)]

end PlainDir

end Discovery

/-! ## All files -/

section Params

variable {view : View} {params : SshdParams} {parts : List Str}

/-- The main file. -/
def SshdParams.mainPath (params : SshdParams) : Str := params.path.getD "/etc/ssh/sshd_config"

/-- The directory of the drop-in files. -/
def SshdParams.dropInDir (params : SshdParams) : Str := params.includeDir.getD "/etc/ssh/sshd_config.d"

/-- The directory of relative specifications. -/
def SshdParams.base (params : SshdParams) : Str := params.baseDir.getD "/etc/ssh"

/-- A drop-in file: an entry of the directory whose name ends in `.conf`. -/
def DropIn (view : View) (dir path : Str) : Prop :=
  ∃ name, HasEntry view dir name ∧ ".conf".toList <:+ name ∧ path = dir ++ "/" ++ name

/-- Where the search begins. -/
def SshdRoot (view : View) (params : SshdParams) (path : Str) : Prop :=
  path = params.mainPath ∨ DropIn view params.dropInDir path

/-- What makes the discovery complete: the drop-in directory can be listed, the specifications of all files can be
expanded, and if the directory is written with two slashes together, its files are included otherwise. -/
structure Discoverable (view : View) (params : SshdParams) (parts : List Str) : Prop where
  listable : Listable view (collapsed parts)
  expands : ∀ path, Included view params.base (SshdRoot view params) path → Expands view params.base path
  slashes : [] ∈ parts → ∀ path, DropIn view params.dropInDir path → IsFile view path →
    Included view params.base (· = params.mainPath) path

theorem mem_dropIns (hproper : view.ProperNames) (h : PlainDir params.dropInDir parts) {path : Str} (hpath : ∃ name,
    HasEntry view (collapsed parts) name ∧ ".conf".toList <:+ name ∧ path = collapsed parts ++ "/" ++ name) :
    ((firstCapture path "^(.*)/[^/]+$").getD ".".toList = params.dropInDir &&
      isMatch ((firstCapture path "([^/]+)$").getD path) "%.conf$") = true ↔ [] ∉ parts := by
  obtain ⟨name, ⟨hdir, names, hnames, hmem⟩, hconf, rfl⟩ := hpath
  obtain ⟨hne, hslash⟩ := hproper _ names hnames name hmem
  have hsplit : splitPath (collapsed parts ++ "/" ++ name) = (collapsed parts, name) := by
    rw [List.append_assoc]
    exact splitPath_slash hne hslash
  unfold splitPath at hsplit
  obtain ⟨hdirname, hbasename⟩ := Prod.mk.inj hsplit
  rw [hdirname, hbasename, isMatch_conf hconf, Bool.and_true, decide_eq_true_eq, h.collapsed_eq_iff]

/-- The paths that `discover` takes of the drop-in directory. -/
def keepDropIns (params : SshdParams) (paths : List Str) : List Str := paths.filter fun path =>
  (firstCapture path "^(.*)/[^/]+$").getD ".".toList = params.dropInDir &&
    isMatch ((firstCapture path "([^/]+)$").getD path) "%.conf$"

theorem discoverQueue_map : discoverQueue view params =
    (expandIncludeSpec view (params.dropInDir ++ "/*.conf") params.base).map fun paths =>
      Queue.pushAll [] ((params.mainPath :: keepDropIns params paths).filter (· ≠ [])) := by
  unfold discoverQueue
  dsimp only
  change expandIncludeSpec view (params.dropInDir ++ "/*.conf") params.base >>= _ = _
  cases expandIncludeSpec view (params.dropInDir ++ "/*.conf") params.base with
  | error e => rfl
  | ok paths => exact congrArg Except.ok (appendPath_foldl (params.mainPath :: keepDropIns params paths) [])

/-- **What the queue begins with**: the main file, and the drop-in files if their directory has no two slashes
together. -/
theorem discoverQueue_eq (hproper : view.ProperNames) (h : PlainDir params.dropInDir parts)
    (hlist : Listable view (collapsed parts)) : ∃ queue, discoverQueue view params = .ok queue ∧ queue.Nodup ∧
      (∀ path ∈ queue, path ≠ []) ∧ ∀ path, IsFile view path →
        (path ∈ queue ↔ path = params.mainPath ∨ ([] ∉ parts ∧ DropIn view params.dropInDir path)) := by
  obtain ⟨dropIns, hdropIns, hmem⟩ := h.expand_ok params.base hlist
  refine ⟨_, by rw [discoverQueue_map, hdropIns]; rfl, Queue.pushAll_nodup List.nodup_nil, fun path hpath => ?_,
    fun path hfile => ?_⟩
  · rw [Queue.mem_pushAll] at hpath
    simpa using (List.mem_filter.mp (hpath.resolve_left List.not_mem_nil)).2
  · have hne : decide (path ≠ []) = true := decide_eq_true hfile.1
    rw [Queue.mem_pushAll, or_iff_right List.not_mem_nil, List.mem_filter, and_iff_left hne, List.mem_cons, keepDropIns,
      List.mem_filter, hmem]
    refine or_congr_right ⟨fun ⟨⟨hmode, hname⟩, hkeep⟩ => ?_, fun ⟨hno, hname⟩ => ?_⟩
    · have hno := (mem_dropIns hproper h hname).mp hkeep
      rw [h.collapsed_eq_iff.mpr hno] at hname
      exact ⟨hno, hname⟩
    · unfold DropIn at hname
      rw [← h.collapsed_eq_iff.mpr hno] at hname
      exact ⟨⟨hfile.2, hname⟩, (mem_dropIns hproper h hname).mpr hno⟩

/-- Roots that can be reached from others add nothing. -/
theorem Included.of_roots {baseDir : Str} {root root' : Str → Prop}
    (hroot : ∀ path, IsFile view path → root path → Included view baseDir root' path) {path : Str}
    (h : Included view baseDir root path) : Included view baseDir root' path := by
  induction h with
  | root hr hfile => exact hroot _ hfile hr
  | step _ hincludes hfile ih => exact ih.step hincludes hfile

theorem Included.mono {baseDir : Str} {root root' : Str → Prop}
    (hroot : ∀ path, IsFile view path → root path → root' path) {path : Str} (h : Included view baseDir root path) :
      Included view baseDir root' path :=
  h.of_roots fun p hfile hr => .root (hroot p hfile hr) hfile

/-- `discover` returns the closure of its roots. -/
def ReturnsClosure (view : View) (params : SshdParams) : Prop :=
  ∃ fuel₀ files, (∀ fuel, fuel₀ ≤ fuel → discover view fuel params = .ok (some files)) ∧
    IncludeClosure view params.base (SshdRoot view params) files

theorem discover_eq {queue : List Str} (hqueue : discoverQueue view params = .ok queue) (fuel : Nat) :
    discover view fuel params = discoverLoop view params.base fuel 0 queue [] := by
  unfold discover
  rw [hqueue]
  rfl

theorem returnsClosure_iff (hfinite : view.Finite) (hproper : view.ProperNames) (h : PlainDir params.dropInDir parts) :
    ReturnsClosure view params ↔ Discoverable view params parts := by
  constructor
  · rintro ⟨fuel₀, files, hrun, hclosure⟩
    have hlist : Listable view (collapsed parts) := by
      rw [← h.expand_ok_iff params.base]
      cases hexp : expandIncludeSpec view (params.dropInDir ++ "/*.conf") params.base with
      | ok paths => exact ⟨paths, rfl⟩
      | error e =>
        have hfail := hrun fuel₀ (Nat.le_refl fuel₀)
        unfold discover at hfail
        rw [discoverQueue_map, hexp] at hfail
        cases hfail
    obtain ⟨queue, hqueue, hnodup, hne, hmem⟩ := discoverQueue_eq hproper h hlist
    simp only [discover_eq hqueue] at hrun
    have hloop := includeClosure_of_loop hnodup hne (hrun fuel₀ (Nat.le_refl fuel₀))
    have hexp := (discoverLoop_ok_iff hfinite hnodup hne).mp ⟨fuel₀, files, hrun⟩
    have hsame : ∀ path, Included view params.base (SshdRoot view params) path ↔
        Included view params.base (· ∈ queue) path := fun path => by rw [← hclosure.mem_iff, hloop.mem_iff]
    refine ⟨hlist, fun path hpath => hexp path ((hsame path).mp hpath), fun hslash path hdrop hfile => ?_⟩
    have hincl := (hsame path).mp (.root (.inr hdrop) hfile)
    exact hincl.mono fun p hp hq => ((hmem p hp).mp hq).resolve_right fun hno => hno.1 hslash
  · intro hd
    obtain ⟨queue, hqueue, hnodup, hne, hmem⟩ := discoverQueue_eq hproper h hd.listable
    have hfrom : ∀ path, IsFile view path → path ∈ queue → SshdRoot view params path := by
      intro path hfile hpath
      exact ((hmem path hfile).mp hpath).imp_right And.right
    have hsame : ∀ path, Included view params.base (SshdRoot view params) path ↔
        Included view params.base (· ∈ queue) path := by
      refine fun path => ⟨fun hpath => hpath.of_roots fun p hfile hroot => ?_, fun hpath => hpath.mono hfrom⟩
      by_cases hslash : [] ∈ parts
      · rcases hroot with rfl | hdrop
        · exact .root ((hmem _ hfile).mpr (.inl rfl)) hfile
        · exact (hd.slashes hslash p hdrop hfile).mono fun q hq hmain => (hmem q hq).mpr (.inl hmain)
      · exact .root ((hmem p hfile).mpr (hroot.imp_right fun hdrop => ⟨hslash, hdrop⟩)) hfile
    obtain ⟨fuel₀, files, hrun⟩ := (discoverLoop_ok_iff hfinite hnodup hne).mpr fun path hpath =>
      hd.expands path ((hsame path).mpr hpath)
    have hloop := includeClosure_of_loop hnodup hne (hrun fuel₀ (Nat.le_refl fuel₀))
    refine ⟨fuel₀, files, fun fuel hfuel => by rw [discover_eq hqueue]; exact hrun fuel hfuel, hloop.nodup,
      fun path => by rw [hloop.mem_iff, hsame], fun before path after heq => ?_⟩
    have hfile : IsFile view path := by
      have hpath : Included view params.base (· ∈ queue) path := (hloop.mem_iff path).mp (by rw [heq]; simp)
      cases hpath with
      | root _ hfile => exact hfile
      | step _ _ hfile => exact hfile
    exact (hloop.order before path after heq).imp_left (hfrom path hfile)

end Params

/-- **Discovery is the include closure**, exactly where the specifications that are reached can be expanded and the
drop-in directory is listable and written without double slashes that hide it; and the permission fixer and the probe
work on the same files. -/
theorem discover_closure_iff (view : View) (params : SshdParams) (parts : List Str) (hfinite : view.Finite)
    (hproper : view.ProperNames) (h : PlainDir params.dropInDir parts) :
    (ReturnsClosure view params ↔ Discoverable view params parts) ∧
      ∀ faults fuel t files ret t', fixSshdConfigAccess faults fuel params t = .ok (some (files, ret, t')) →
        ∃ sorted, sorted.Perm files ∧ sorted.Pairwise (· ≤ ·) ∧
          inspectConfigFileAccess fuel params t = .ok (some (accessReport (configFileAccessOk t) sorted)) := by
  refine ⟨returnsClosure_iff hfinite hproper h, fun faults fuel t files ret t' hfix => ?_⟩
  unfold fixSshdConfigAccess at hfix
  cases hdiscover : discover t.view fuel params with
  | error e =>
    rw [hdiscover] at hfix
    cases hfix
  | ok found =>
    rw [hdiscover] at hfix
    cases found with
    | none => cases hfix
    | some files' =>
      cases hfix
      refine ⟨sortStrs files, List.perm_insertionSort _ files, List.pairwise_insertionSort _ files, ?_⟩
      unfold inspectConfigFileAccess
      rw [hdiscover]
      rfl

/-! ## Two files that include each other -/

/-- A main file with one line, and a drop-in file that includes it. -/
def sshdView (line : Str) : View where
  mode path :=
    if path = "/etc/ssh/sshd_config".toList ∨ path = "/etc/ssh/sshd_config.d/a.conf".toList then some "file".toList
    else if path = "/etc/ssh".toList ∨ path = "/etc/ssh/sshd_config.d".toList then some "directory".toList
    else none
  names dir :=
    if dir = "/etc/ssh/sshd_config.d".toList then .ok [".".toList, "..".toList, "a.conf".toList]
    else .ok [".".toList, "..".toList, "sshd_config".toList]
  lines path :=
    if path = "/etc/ssh/sshd_config".toList then .ok [line]
    else if path = "/etc/ssh/sshd_config.d/a.conf".toList then .ok ["include /etc/ssh/sshd_config".toList]
    else .error "No such file or directory"

theorem sshdView_finite (line : Str) : (sshdView line).Finite := by
  refine ((Set.finite_singleton "/etc/ssh/sshd_config.d/a.conf".toList).insert "/etc/ssh/sshd_config".toList).subset ?_
  intro path hpath
  by_contra hno
  have hfile : (sshdView line).mode path = some "file".toList := hpath
  unfold sshdView at hfile
  dsimp only at hfile
  rw [if_neg (by simpa using hno)] at hfile
  split at hfile
  · exact absurd hfile (by decide)
  · cases hfile

theorem sshdView_properNames (line : Str) : (sshdView line).ProperNames := by
  intro dir names hnames name hmem
  unfold sshdView at hnames
  dsimp only at hnames
  split at hnames
  all_goals
    cases hnames
    simp only [List.mem_cons, List.not_mem_nil, or_false] at hmem
    rcases hmem with rfl | rfl | rfl <;> decide

theorem sshd_plainDir :
    PlainDir "/etc/ssh/sshd_config.d".toList ["etc".toList, "ssh".toList, "sshd_config.d".toList] where
  eq := rfl
  slash := by decide
  last := ⟨["etc".toList, "ssh".toList], "sshd_config.d".toList, rfl, by decide⟩
  dots := by decide
  wild := by decide

/-- A specification without wildcards can be expanded. -/
theorem expandIncludeSpec_plain {view : View} {spec baseDir : Str}
    (h : hasWildcard (normalizeIncludePath spec baseDir) = false) :
    ∃ paths, expandIncludeSpec view spec baseDir = .ok paths := by
  rw [expandIncludeSpec_eq, if_neg (by rw [h]; exact Bool.false_ne_true)]
  exact ⟨_, rfl⟩

theorem sshd_cycle_closed : ReturnsClosure (sshdView "Include sshd_config.d/a.conf".toList) ⟨none, none, none⟩ := by
  refine (discover_closure_iff _ ⟨none, none, none⟩ _ (sshdView_finite _) (sshdView_properNames _) sshd_plainDir).1.mpr
    ⟨fun _ => ⟨_, rfl⟩, fun path _ lines hlines line hline spec hspec => expandIncludeSpec_plain ?_,
      fun h => absurd h (by decide)⟩
  unfold sshdView at hlines
  dsimp only at hlines
  split at hlines
  · cases hlines
    obtain rfl := List.mem_singleton.mp hline
    have hword : spec ∈ ["sshd_config.d/a.conf".toList] := hspec
    obtain rfl := List.mem_singleton.mp hword
    decide
  · split at hlines
    · cases hlines
      obtain rfl := List.mem_singleton.mp hline
      have hword : spec ∈ ["/etc/ssh/sshd_config".toList] := hspec
      obtain rfl := List.mem_singleton.mp hword
      decide
    · cases hlines

/-- An empty class in a specification makes a pattern that raises. -/
theorem sshd_glob_raises : discover (sshdView "Include /etc/ssh/[].conf".toList) 5 ⟨none, none, none⟩ =
      .error "malformed pattern (missing ']')" ∧
    ¬ReturnsClosure (sshdView "Include /etc/ssh/[].conf".toList) ⟨none, none, none⟩ := by
  refine ⟨by decide +kernel, fun h => ?_⟩
  have hplain : PlainDir (SshdParams.dropInDir ⟨none, none, none⟩)
      ["etc".toList, "ssh".toList, "sshd_config.d".toList] := sshd_plainDir
  have hd := (returnsClosure_iff (sshdView_finite _) (sshdView_properNames _) hplain).mp h
  have hmain : Included (sshdView "Include /etc/ssh/[].conf".toList) "/etc/ssh".toList
      (SshdRoot (sshdView "Include /etc/ssh/[].conf".toList) ⟨none, none, none⟩) "/etc/ssh/sshd_config".toList :=
    .root (.inl rfl) ⟨by decide, rfl⟩
  obtain ⟨paths, hpaths⟩ := hd.expands _ hmain _ rfl _ List.mem_cons_self "/etc/ssh/[].conf".toList (by decide)
  have hraise : expandIncludeSpec (sshdView "Include /etc/ssh/[].conf".toList) "/etc/ssh/[].conf".toList
      "/etc/ssh".toList = .error "malformed pattern (missing ']')" := by decide +kernel
  rw [show (SshdParams.base ⟨none, none, none⟩) = "/etc/ssh".toList from rfl, hraise] at hpaths
  cases hpaths

end Seharden
