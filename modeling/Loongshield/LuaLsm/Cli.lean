import Loongshield.LuaLsm.Sandbox
import Loongshield.LuaLsm.Securityfs

/-!
# `lua_lsm/cli.lua`: `load` and `unload`

`lua-lsm load` reads the policy file, reads the listing of the modules, reads the file again and writes what it got to
the kernel. Other processes can change the file and the loaded modules before each of these steps, so that the command
is a machine whose steps alternate with theirs in any order. The programs of the policy run over the library tables that
the command itself uses afterwards: what it does with other tables than the host's is a parameter.

* `Host`: the tables, and the rest of the command on any tables;
* `step`, `run`: the machine; `Registration` records what was written, what had been validated, and which modules were
  listed.
* `loads_validated`: in a run in which nobody changes the file while it is used, and no policy changes the tables, what
  is written was validated.
* `reported_load_iff`: when a success tells that the kernel has the policy.
-/

namespace LuaLsm

open Lua

/-! ## The machine -/

/-- The host: its library tables, the loading of a source, and what the command does with tables that a policy has left:
`is_loaded`, on what reading the listing gives, and the messages and the path of `register` behind it. With the tables
of the host, these are the functions of the command; other tables may make them answer anything, or raise. -/
structure Host (Libs Val : Type) extends Sandbox.Libraries Libs Val where
  load : Str → Except Val (Sandbox.Chunk Libs Val)
  asText : Val → Option Str
  isLoaded : Val → Except Str Str → Libs → Except Val (Option Bool) × Libs
  prepare : Libs → Except Val Unit × Libs
  isLoaded_host : ∀ name raw, isLoaded name raw host = (.ok (LuaLsm.isLoaded (asText name) raw), host)
  prepare_host : prepare host = (.ok (), host)

/-- How the system calls of a step go; `cap` is what the capability check gives. -/
structure Io where
  read : ReadIo
  write : WriteIo
  cap : Except Str Unit

/-- What the command knows of the policy: the source that was validated, and the name in its metadata. -/
abbrev Validated (Val : Type) := Option (Str × Val)

/-- Where `load_policy` stands: before the first read, before the check, before the second read, before the write, at
the end. `listed` is what the check read of the loaded modules. -/
inductive Phase (Val : Type)
  | start
  | validated (source : Str) (name : Val)
  | checked (validated : Validated Val) (listed : Option (List Str))
  | read (source : Str) (validated : Validated Val) (listed : Option (List Str))
  | exited (code : Nat)
  | raised (err : Val)
  deriving DecidableEq

/-- A source that was written to `register`, or to the path that other tables than the host's make of it. -/
structure Registration (Val : Type) where
  source : Str
  validated : Validated Val
  listed : Option (List Str)
  accepted : List Str
  deriving DecidableEq

structure World (Libs Val : Type) where
  file : Option Str
  rows : List Row
  libs : Libs
  phase : Phase Val
  registered : List (Registration Val)
  deriving DecidableEq

/-- A step of the command, or of another process. -/
inductive Event
  | command (io : Io)
  | write (content : Option Str)
  | modules (rows : List Row)

section Machine

variable {Libs Val : Type} (L : Host Libs Val) (noValidate : Bool)

/-- `policy.validate_file`, or the next step without validation. -/
def validateStep (io : Io) (w : World Libs Val) : Phase Val × Libs :=
  if noValidate then (.checked none none, w.libs)
  else match readFile io.read w.file with
    | .error _ => (.exited 1, w.libs)
    | .ok source => match Sandbox.validateSource L.toLibraries L.load source w.libs with
      | (.error err, libs) => (.raised err, libs)
      | (.ok (.metadata field), libs) => (.validated source (field "name"), libs)
      | (.ok _, libs) => (.exited 1, libs)

/-- `securityfs.is_loaded`: a name that is listed ends the command, an unreadable listing is a warning. -/
def checkStep (io : Io) (w : World Libs Val) (source : Str) (name : Val) : Phase Val × Libs :=
  match L.isLoaded name (readFile io.read (some (listing w.rows))) w.libs with
  | (.error err, libs) => (.raised err, libs)
  | (.ok (some true), libs) => (.exited 1, libs)
  | (.ok (some false), libs) => (.checked (some (source, name)) (some (w.rows.map Row.name)), libs)
  | (.ok none, libs) => (.checked (some (source, name)) none, libs)

/-- The read of `securityfs.load_file`. -/
def readStep (io : Io) (w : World Libs Val) (validated : Validated Val) (listed : Option (List Str)) : Phase Val :=
  match readFile io.read w.file with
  | .error _ => .exited 1
  | .ok source => .read source validated listed

/-- The exit code for the result of `load_file`. -/
def exitCode (result : Except Str Unit) : Nat :=
  match result with
  | .ok () => 0
  | .error _ => 1

/-- The rest of `securityfs.load_file`: the write, if the capability is there and the file can be opened. -/
def writeStep (io : Io) (w : World Libs Val) (source : Str) (validated : Validated Val) (listed : Option (List Str)) :
    World Libs Val :=
  match L.prepare w.libs with
  | (.error err, libs) => { w with phase := .raised err, libs }
  | (.ok (), libs) =>
    let result := loadSource io.cap io.write source
    let registered :=
      if io.cap.isOk && io.write.openErr.isNone then [⟨source, validated, listed, result.2⟩] else []
    { w with phase := .exited (exitCode result.1), libs, registered := w.registered ++ registered }

/-- The next step of `load_policy`. -/
def commandStep (io : Io) (w : World Libs Val) : World Libs Val :=
  match w.phase with
  | .start =>
    let (phase, libs) := validateStep L noValidate io w
    { w with phase, libs }
  | .validated source name =>
    let (phase, libs) := checkStep L io w source name
    { w with phase, libs }
  | .checked validated listed => { w with phase := readStep io w validated listed }
  | .read source validated listed => writeStep L io w source validated listed
  | .exited _ | .raised _ => w

def step (w : World Libs Val) : Event → World Libs Val
  | .command io => commandStep L noValidate io w
  | .write content => { w with file := content }
  | .modules rows => { w with rows }

/-- A run of the command and the other processes. -/
def run (w : World Libs Val) (events : List Event) : World Libs Val := events.foldl (step L noValidate) w

/-- The world when the command starts. -/
def World.init (file : Option Str) (rows : List Row) : World Libs Val := ⟨file, rows, L.host, .start, []⟩

end Machine

/-- `unload_policy`: the exit code, and what the kernel accepted. -/
def unloadPolicy (cap : Except Str Unit) (io : WriteIo) (name : Str) : Nat × List Str :=
  if name = [] then (1, [])
  else
    let result := unload cap io name
    (exitCode result.1, result.2)

/-! ## What is written was validated -/

section Validated

variable {Libs Val : Type} (L : Host Libs Val)

/-- The validation of a source on the tables of the host accepts it, with this name. -/
def Accepts (source : Str) (name : Val) : Prop :=
  ∃ field, (Sandbox.validateSource L.toLibraries L.load source L.host).1 = .ok (.metadata field) ∧ name = field "name"

/-- The source was validated, under a name that was not listed. -/
def Checked (source : Str) (validated : Validated Val) (listed : Option (List Str)) : Prop :=
  ∃ name, validated = some (source, name) ∧ Accepts L source name ∧
    ∀ names, listed = some names → ∀ s ∈ names, L.asText name ≠ some s

/-- Every source that was written to the kernel was validated, under a name that was not listed. -/
def Safe (w : World Libs Val) : Prop := ∀ r ∈ w.registered, Checked L r.source r.validated r.listed

/-- The programs of a policy leave the tables of the host as they are. -/
def KeepsTables (source : Str) : Prop := (Sandbox.validateSource L.toLibraries L.load source L.host).2 = L.host

/-- Nobody interferes: the policy leaves the library tables alone, the file stays as it is between its two reads, its
second read does not fail, and a validated name that is loaded is a plain one and the listing can be read. -/
def Quiet (w : World Libs Val) : Event → Prop
  | .write content => match w.phase with
    | .validated .. | .checked .. => content = w.file
    | _ => True
  | .modules _ => True
  | .command io => match w.phase with
    | .start => ∀ source, w.file = some source → KeepsTables L source
    | .validated _ name => ∀ s ∈ w.rows.map Row.name, L.asText name = some s → Plain s ∧ io.read ≠ .readFails
    | .checked .. => io.read ≠ .readFails
    | _ => True

/-- Nobody interferes in a run. -/
def QuietRun : World Libs Val → List Event → Prop
  | _, [] => True
  | w, e :: events => Quiet L w e ∧ QuietRun (step L false w e) events

/-- What holds between the steps of a quiet run. -/
def PhaseInv (w : World Libs Val) : Prop :=
  match w.phase with
  | .start => w.libs = L.host
  | .validated source name => w.file = some source ∧ w.libs = L.host ∧ Accepts L source name
  | .checked validated listed => ∃ source, w.file = some source ∧ Checked L source validated listed
  | .read source validated listed => Checked L source validated listed
  | _ => True

variable {L}

/-- A read that works gives the content. -/
theorem readFile_ok {io : ReadIo} {content : Option Str} {source : Str} (h : readFile io content = .ok source)
    (hread : io ≠ .readFails) : content = some source := by
  cases io with
  | openFails err => cases h
  | readFails => exact absurd rfl hread
  | done => cases content with
    | none => cases h
    | some content => rw [Except.ok.inj h]

/-- The first read: what is validated is the content of the file. -/
theorem validateStep_inv {io : Io} {w : World Libs Val} (hlibs : w.libs = L.host)
    (hquiet : ∀ source, w.file = some source → KeepsTables L source) :
    PhaseInv L { w with phase := (validateStep L false io w).1, libs := (validateStep L false io w).2 } := by
  unfold validateStep
  rw [if_neg Bool.false_ne_true, hlibs]
  cases hread : readFile io.read w.file with
  | error err => trivial
  | ok source =>
    cases hresult : Sandbox.validateSource L.toLibraries L.load source L.host with
    | mk answer libs =>
      dsimp only
      rw [hresult]
      cases answer with
      | error err => trivial
      | ok answer =>
        cases answer with
        | refused err => trivial
        | failed err => trivial
        | metadata field =>
          have hfile : w.file = some source := by
            refine readFile_ok hread fun hfails => ?_
            -- After a failed read the source is empty, and not accepted.
            rw [hfails] at hread
            cases hfile : w.file with
            | none =>
              rw [hfile] at hread
              cases hread
            | some content =>
              rw [hfile] at hread
              obtain rfl : [] = source := Except.ok.inj hread
              cases hresult
          have hkeeps := hquiet source hfile
          unfold KeepsTables at hkeeps
          rw [hresult] at hkeeps
          exact ⟨hfile, hkeeps, field, by rw [hresult], rfl⟩

/-- The check: a name that is loaded ends the command. -/
theorem checkStep_inv {io : Io} {w : World Libs Val} {source : Str} {name : Val} (hfile : w.file = some source)
    (hlibs : w.libs = L.host) (haccepts : Accepts L source name)
    (hquiet : ∀ s ∈ w.rows.map Row.name, L.asText name = some s → Plain s ∧ io.read ≠ .readFails) :
    PhaseInv L { w with phase := (checkStep L io w source name).1, libs := (checkStep L io w source name).2 } := by
  unfold checkStep
  rw [hlibs, L.isLoaded_host]
  cases hloaded : isLoaded (L.asText name) (readFile io.read (some (listing w.rows))) with
  | none => exact ⟨source, hfile, name, rfl, haccepts, fun names hnames => by cases hnames⟩
  | some found =>
    cases found with
    | true => trivial
    | false =>
      refine ⟨source, hfile, name, rfl, haccepts, fun names hnames s hmem hname => ?_⟩
      obtain rfl : w.rows.map Row.name = names := Option.some.inj hnames
      obtain ⟨hplain, hread⟩ := hquiet s hmem hname
      rw [hname] at hloaded
      cases hio : io.read with
      | openFails err =>
        rw [hio] at hloaded
        cases hloaded
      | readFails => exact hread hio
      | done =>
        rw [hio] at hloaded
        have hfound := isLoaded_listing hplain hmem
        rw [show readFile .done (some (listing w.rows)) = .ok (listing w.rows) from rfl, hfound] at hloaded
        cases hloaded

/-- **One step.** -/
theorem step_inv {w : World Libs Val} (e : Event) (hphase : PhaseInv L w) (hsafe : Safe L w) (hquiet : Quiet L w e) :
    PhaseInv L (step L false w e) ∧ Safe L (step L false w e) := by
  obtain ⟨file, rows, libs, phase, registered⟩ := w
  cases e with
  | write content =>
    refine ⟨?_, hsafe⟩
    cases phase with
    | validated source metadata =>
      obtain rfl : content = file := hquiet
      exact hphase
    | checked validated listed =>
      obtain rfl : content = file := hquiet
      exact hphase
    | _ => exact hphase
  | modules rows' =>
    refine ⟨?_, hsafe⟩
    cases phase <;> exact hphase
  | command io =>
    cases phase with
    | start => exact ⟨validateStep_inv hphase hquiet, hsafe⟩
    | validated source name => exact ⟨checkStep_inv hphase.1 hphase.2.1 hphase.2.2 hquiet, hsafe⟩
    | checked validated listed =>
      refine ⟨?_, hsafe⟩
      obtain ⟨source, hfile, hchecked⟩ := hphase
      change PhaseInv L ⟨file, rows, libs,
        readStep io ⟨file, rows, libs, .checked validated listed, registered⟩ validated listed, registered⟩
      unfold readStep
      cases hread : readFile io.read file with
      | error err => trivial
      | ok source' =>
        have hsame : file = some source' := readFile_ok hread hquiet
        obtain rfl : source = source' := Option.some.inj (hfile.symm.trans hsame)
        exact hchecked
    | read source validated listed =>
      change PhaseInv L (writeStep L io _ source validated listed) ∧ Safe L (writeStep L io _ source validated listed)
      unfold writeStep
      rcases L.prepare libs with ⟨err | u, libs'⟩
      · exact ⟨trivial, hsafe⟩
      · refine ⟨trivial, fun r hr => ?_⟩
        rcases List.mem_append.mp hr with hr | hr
        · exact hsafe r hr
        · split at hr
          · rw [List.mem_singleton.mp hr]
            exact hphase
          · cases hr
    | exited code => exact ⟨trivial, hsafe⟩
    | raised err => exact ⟨trivial, hsafe⟩

/-- The whole run. -/
theorem run_safe : ∀ {events : List Event} {w : World Libs Val}, PhaseInv L w → Safe L w → QuietRun L w events →
    Safe L (run L false w events)
  | [], _, _, hsafe, _ => hsafe
  | e :: events, w, hphase, hsafe, hquiet => by
    obtain ⟨hphase', hsafe'⟩ := step_inv e hphase hsafe hquiet.1
    change Safe L (run L false (step L false w e) events)
    exact run_safe hphase' hsafe' hquiet.2

theorem quietRun_append : ∀ {events more : List Event} {w : World Libs Val}, QuietRun L w (events ++ more) →
    QuietRun L w events
  | [], _, _, _ => trivial
  | _ :: _, _, _, h => ⟨h.1, quietRun_append h.2⟩

/-- **What is loaded is what was validated**, in every run in which nobody interferes, and in every state it reaches. -/
theorem loads_validated (L : Host Libs Val) (file : Option Str) (rows : List Row) (events more : List Event)
    (h : QuietRun L (World.init L file rows) (events ++ more)) :
    Safe L (run L false (World.init L file rows) events) :=
  run_safe rfl (fun r hr => by cases hr) (quietRun_append h)

end Validated

/-! ## Examples of runs -/

/-- System calls that work, with blocks of 4096 characters. -/
def workingIo : Io := ⟨.done, ⟨none, 4096, fun _ _ => none⟩, .ok ()⟩

/-- The source of a policy. -/
def demoSource : Str :=
  "return \x7b name = 'demo', author = 'a', description = 'd', license = 'MIT', version = 1 \x7d"

/-- A source that takes `string.gmatch` away, so that no module is found in the listing. -/
def wipingSource : Str :=
  "string.gmatch = function() return function() end end return \x7b name = 'demo', author = 'a', version = 1 \x7d"

/-- A table with all required fields, all of them strings but the version. -/
def demoModule : Sandbox.Module Bool Str where
  typeOf name := if name = "version".toList then "number" else "string"
  loop := .done fun field => if field = "name".toList then "demo" else "a"
  format libs := (.ok [], libs)

/-- A host whose tables are as they were or not; other sources are not valid policies. -/
def demoHost : Host Bool Str where
  host := true
  member _ _ := .host
  text s := s
  host_format := rfl
  host_match := rfl
  load source :=
    if source = demoSource then .ok fun libs => (.table demoModule, libs)
    else if source = wipingSource then .ok fun _ => (.table demoModule, false)
    else if source = "return 1" then .ok fun libs => (.notTable, libs)
    else .error "syntax error"
  asText := some
  isLoaded name raw
    | true => (.ok (LuaLsm.isLoaded (some name) raw), true)
    | false => (.ok (some false), false)
  prepare libs := (.ok (), libs)
  isLoaded_host _ _ := rfl
  prepare_host := rfl

/-- Another module is loaded. -/
def otherRow : Row := ⟨"other", "MIT 128 1 2 0 0 LoongShield"⟩

theorem demo_validated : step demoHost false (World.init demoHost (some demoSource) [otherRow]) (.command workingIo) =
    ⟨some demoSource, [otherRow], true, .validated demoSource "demo", []⟩ := by
  decide +kernel

theorem demo_checked :
    step demoHost false ⟨some demoSource, [otherRow], true, .validated demoSource "demo", []⟩ (.command workingIo) =
      ⟨some demoSource, [otherRow], true, .checked (some (demoSource, "demo")) (some ["other"]), []⟩ := by
  decide +kernel

/-- Nobody interferes: the policy is loaded as it was validated. -/
theorem demo_loaded :
    let events := [.command workingIo, .command workingIo, .command workingIo, .command workingIo]
    (run demoHost false (World.init demoHost (some demoSource) [otherRow]) events).registered =
        [⟨demoSource, some (demoSource, "demo"), some ["other"], [demoSource]⟩] ∧
      Safe demoHost (run demoHost false (World.init demoHost (some demoSource) [otherRow]) events) := by
  intro events
  have hquiet : QuietRun demoHost (World.init demoHost (some demoSource) [otherRow]) (events ++ []) := by
    refine ⟨fun source hsource => ?_, ?_⟩
    · obtain rfl := Option.some.inj hsource
      unfold KeepsTables
      decide +kernel
    · rw [demo_validated]
      refine ⟨fun s hs hname => ?_, ?_⟩
      · rw [List.mem_singleton.mp hs] at hname
        exact absurd hname (by decide)
      · rw [demo_checked]
        exact ⟨(by intro h; cases h), trivial, trivial⟩
  refine ⟨?_, loads_validated demoHost (some demoSource) [otherRow] events [] hquiet⟩
  simp only [run, events, List.foldl_cons, List.foldl_nil, demo_validated, demo_checked]
  decide +kernel

/-- Another process replaces the file after the check: a source that was not validated, and is not valid, is written to
the kernel, and the command exits with 0. -/
theorem replaced_file_loaded :
    let events := [.command workingIo, .command workingIo, .write (some "return 1"), .command workingIo,
      .command workingIo]
    let w := run demoHost false (World.init demoHost (some demoSource) [otherRow]) events
    w.registered = [⟨"return 1", some (demoSource, "demo"), some ["other"], ["return 1".toList]⟩] ∧
      w.phase = .exited 0 ∧ ¬Safe demoHost w := by
  intro events w
  have hw : w = ⟨some "return 1", [otherRow], true, .exited 0,
      [⟨"return 1", some (demoSource, "demo"), some ["other"], ["return 1".toList]⟩]⟩ := by
    simp only [w, run, events, List.foldl_cons, List.foldl_nil, demo_validated, demo_checked]
    decide +kernel
  rw [hw]
  refine ⟨rfl, rfl, fun hsafe => ?_⟩
  obtain ⟨name, hname, -⟩ := hsafe _ List.mem_cons_self
  obtain ⟨hsource, -⟩ := Prod.mk.inj (Option.some.inj hname)
  exact absurd hsource (by decide +kernel)

/-- A policy that changes the tables of the host: its name is in the listing, but is not found there. -/
theorem wiping_policy_loaded :
    let events := [.command workingIo, .command workingIo, .command workingIo, .command workingIo]
    let w := run demoHost false (World.init demoHost (some wipingSource) [⟨"demo", "MIT 128 1 2 0 0 LoongShield"⟩])
      events
    w.registered = [⟨wipingSource, some (wipingSource, "demo"), some ["demo"], [wipingSource]⟩] ∧
      w.phase = .exited 0 := by
  decide +kernel

/-! ## What a success tells -/

theorem reported_loadSource (cap : Except Str Unit) (io : WriteIo) (source : Str) :
    Reported (loadSource cap io source) source ↔ (cap = .ok () → ¬ FlushRejected io source) := by
  cases cap with
  | error err => exact iff_of_true (fun h => by cases h) fun h => by cases h
  | ok u =>
    rw [loadSource, reported_writeFile]
    exact ⟨fun h _ => h, fun h => h rfl⟩

theorem reported_unload (cap : Except Str Unit) (io : WriteIo) (name : Str) :
    Reported (unload cap io name) (name ++ "\n") ↔ (name ≠ [] → cap = .ok () → ¬ FlushRejected io (name ++ "\n")) := by
  unfold unload
  split
  · next hname => exact iff_of_true (fun h => by cases h) fun h => absurd hname h
  · next hname =>
    cases cap with
    | error err => exact iff_of_true (fun h => by cases h) fun _ h => by cases h
    | ok u =>
      rw [reported_writeFile]
      exact ⟨fun h _ _ => h, fun h => h hname rfl⟩

theorem exitCode_zero {r : Except Str Unit} : exitCode r = 0 ↔ r = .ok () := by
  cases r with
  | error err => simp [exitCode]
  | ok u => simp [exitCode]

theorem reported_unloadPolicy (cap : Except Str Unit) (io : WriteIo) (name : Str) :
    ((unloadPolicy cap io name).1 = 0 → (unloadPolicy cap io name).2.flatten = name ++ "\n") ↔
      (name ≠ [] → cap = .ok () → ¬ FlushRejected io (name ++ "\n")) := by
  rw [← reported_unload]
  unfold unloadPolicy Reported
  split
  · next hname =>
    refine iff_of_true (fun h => by cases h) fun h => ?_
    unfold unload at h
    rw [if_pos hname] at h
    cases h
  · rw [exitCode_zero]

/-- When the command writes, the kernel does not reject the rest of the source at the end. -/
def Flushed {Libs Val : Type} (w : World Libs Val) : Event → Prop
  | .command io => match w.phase with
    | .read source _ _ => io.cap = .ok () → ¬ FlushRejected io.write source
    | _ => True
  | _ => True

def FlushedRun {Libs Val : Type} (L : Host Libs Val) (noValidate : Bool) : World Libs Val → List Event → Prop
  | _, [] => True
  | w, e :: events => Flushed w e ∧ FlushedRun L noValidate (step L noValidate w e) events

/-- If the command has exited with 0, the kernel has accepted all of a source that it wrote. -/
def Told {Libs Val : Type} (w : World Libs Val) : Prop := w.phase = .exited 0 →
    ∃ r ∈ w.registered, r.accepted.flatten = r.source

section Told

variable {Libs Val : Type} {L : Host Libs Val} {noValidate : Bool}

theorem validateStep_ne (io : Io) (w : World Libs Val) : (validateStep L noValidate io w).1 ≠ .exited 0 := by
  unfold validateStep
  repeat' split
  all_goals exact fun h => by cases h

theorem checkStep_ne (io : Io) (w : World Libs Val) (source : Str) (name : Val) :
    (checkStep L io w source name).1 ≠ .exited 0 := by
  unfold checkStep
  split
  all_goals exact fun h => by cases h

theorem readStep_ne (io : Io) (w : World Libs Val) (validated : Validated Val) (listed : Option (List Str)) :
    readStep io w validated listed ≠ .exited 0 := by
  unfold readStep
  split
  all_goals exact fun h => by cases h

theorem writeStep_told {io : Io} {w : World Libs Val} {source : Str} (validated : Validated Val)
    (listed : Option (List Str)) (h : io.cap = .ok () → ¬ FlushRejected io.write source) :
    Told (writeStep L io w source validated listed) := by
  unfold writeStep
  rcases L.prepare w.libs with ⟨err | u, libs⟩
  · exact fun hexit => by cases hexit
  intro hexit
  have hok : (loadSource io.cap io.write source).1 = .ok () := exitCode_zero.mp (Phase.exited.inj hexit)
  have hall := (reported_loadSource io.cap io.write source).mpr h hok
  have hopened : (io.cap.isOk && io.write.openErr.isNone) = true := by
    unfold loadSource writeFile at hok
    cases hcap : io.cap with
    | error err =>
      rw [hcap] at hok
      cases hok
    | ok u =>
      rw [hcap] at hok
      cases hopen : io.write.openErr with
      | none => rfl
      | some err =>
        rw [hopen] at hok
        cases hok
  refine ⟨⟨source, validated, listed, (loadSource io.cap io.write source).2⟩, ?_, hall⟩
  refine List.mem_append_right _ ?_
  rw [if_pos hopened]
  exact List.mem_singleton_self _

theorem step_told {w : World Libs Val} (e : Event) (htold : Told w) (h : Flushed w e) :
    Told (step L noValidate w e) := by
  obtain ⟨file, rows, libs, phase, registered⟩ := w
  cases e with
  | write content => exact htold
  | modules rows' => exact htold
  | command io =>
    cases phase with
    | start => exact fun hexit => absurd hexit (validateStep_ne io _)
    | validated source name => exact fun hexit => absurd hexit (checkStep_ne io _ source name)
    | checked validated listed => exact fun hexit => absurd hexit (readStep_ne io _ validated listed)
    | read source validated listed => exact writeStep_told validated listed h
    | exited code => exact htold
    | raised err => exact htold

theorem run_told : ∀ {events : List Event} {w : World Libs Val}, Told w → FlushedRun L noValidate w events →
    Told (run L noValidate w events)
  | [], _, htold, _ => htold
  | e :: events, w, htold, h => by
    change Told (run L noValidate (step L noValidate w e) events)
    exact run_told (step_told e htold h.1) h.2

end Told

/-- **A success tells the truth exactly if** the kernel does not reject the end of the text when the stream is closed:
for `load_source`, for `unload`, for the exit code of `lua-lsm unload`; and for the exit code of `lua-lsm load` in every
run in which that does not happen. -/
theorem reported_load_iff {Libs Val : Type} (L : Host Libs Val) (noValidate : Bool) :
    (∀ cap io source, Reported (loadSource cap io source) source ↔ (cap = .ok () → ¬ FlushRejected io source)) ∧
      (∀ cap io name, Reported (unload cap io name) (name ++ "\n") ↔
        (name ≠ [] → cap = .ok () → ¬ FlushRejected io (name ++ "\n"))) ∧
      (∀ cap io name, ((unloadPolicy cap io name).1 = 0 → (unloadPolicy cap io name).2.flatten = name ++ "\n") ↔
        (name ≠ [] → cap = .ok () → ¬ FlushRejected io (name ++ "\n"))) ∧
      ∀ file rows events, FlushedRun L noValidate (World.init L file rows) events →
        Told (run L noValidate (World.init L file rows) events) :=
  ⟨reported_loadSource, reported_unload, reported_unloadPolicy, fun _ _ _ h => run_told (fun hexit => by cases hexit) h⟩

/-- A kernel that rejects every policy: the short source stays in the buffer, and the load is reported as done. -/
theorem rejected_load_reported :
    let io : WriteIo := ⟨none, 4096, fun _ _ => some "Invalid argument"⟩
    loadSource (.ok ()) io demoSource = (.ok (), []) ∧ unloadPolicy (.ok ()) io "demo" = (0, []) ∧
      (run demoHost false ⟨some demoSource, [], true, .read demoSource (some (demoSource, "demo")) none, []⟩
        [.command ⟨.done, io, .ok ()⟩]).phase = .exited 0 := by
  decide +kernel

end LuaLsm
