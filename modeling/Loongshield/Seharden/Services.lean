import Loongshield.Seharden.Text

/-!
# `services.get_not_in_use_state`

The state of a unit comes from D-Bus and from `systemctl`, one standing in for the other. Each function returns, beside
its result, the answers it asked for.

- `getNotInUseState`: the probe;
- `Evidence`: what the answers say about a unit;
- `unitFileState_eq`, `activeState_eq`: the state of a unit from what is reported on it, and what stands for a report
  that is missing;
- `not_in_use_evidence_iff`: when every unit that is not in use has evidence.
-/

namespace Seharden
namespace Services

open Lua

/-! ## `shared/systemctl.lua` -/

/-- `normalize_unit_name`. -/
def normalizeUnitName (unitName : Str) : Option Str :=
  if !isMatch unitName "^[%w@%._:-]+$" then none
  else if isMatch unitName "%.[%w%-]+$" then some unitName
  else some (unitName ++ ".service")

/-- The answer of D-Bus about a unit file: no bus, a failed call, a reply that cannot be read, or a state. -/
inductive BusAnswer
  | unavailable
  | failed
  | unreadable
  | state (s : Str)
  deriving DecidableEq

/-- The answers that the sources give about a unit: of D-Bus, of `lfs.attributes` (the mode), and of `io.popen` with
`read("*a")`. -/
structure Sources where
  bus : BusAnswer
  mode : Str → Option Str
  popen : Str → Option Str

/-- `resolve_path`. -/
def resolvePath (sources : Sources) : Str :=
  (["/usr/bin/systemctl".toList, "/bin/systemctl", "/usr/sbin/systemctl", "/sbin/systemctl"].find? fun path =>
    sources.mode path = some "file".toList).getD "systemctl"

/-- `capture`, with the default options. -/
def capture (sources : Sources) (args : Str) : Option Str :=
  sources.popen (resolvePath sources ++ " " ++ args ++ " 2>/dev/null")

/-- The fields of a property table, the last one first. -/
abbrev Props := List (Str × Str)

/-- `properties[key]`. -/
def Props.get (props : Props) (key : Str) : Option Str := props.lookup key

/-- `line:match("^([%w]+)=(.*)$")`. -/
def propertyLine (line : Str) : Option (Str × Str) :=
  match matchCaptures line "^([%w]+)=(.*)$" with
  | some [key, value] => some (key, value)
  | _ => none

/-- `parse_show_properties`. -/
def parseShowProperties (out : Str) : Props :=
  ((captures (out ++ "\n") "([^\n]*)\n").filterMap propertyLine).reverse

/-! ## The properties of a unit -/

/-- An answer that was asked for. -/
inductive Answer
  | bus (answer : BusAnswer)
  | properties (out : Option Str)
  | isEnabled (out : Option Str)
  | isActive (out : Option Str)

/-- A state in the output of `is-enabled`. -/
def enabledState (out : Str) : Option Str :=
  if trim out = [] then none else if isMatch (trim out) "^[%w%-]+$" then some (trim out) else none

/-- A property that is there and not empty. -/
def nonEmpty (props : Props) (key : Str) : Option Str := (props.get key).filter fun value => value ≠ []

section Unit

variable (sources : Sources) (unitName : Str)

/-- `get_systemctl_enabled_state`. -/
def getSystemctlEnabledState : Option Str × List Answer :=
  match normalizeUnitName unitName with
  | none => (none, [])
  | some name =>
    let out := capture sources ("--root=/ is-enabled " ++ name)
    (out.bind enabledState, [.isEnabled out])

/-- `get_systemctl_properties`. -/
def getSystemctlProperties : Option Props × List Answer :=
  match normalizeUnitName unitName with
  | none => (none, [])
  | some name =>
    match capture sources ("show -p LoadState -p UnitFileState -p ActiveState " ++ name) with
    | none =>
      let (offline, asked) := getSystemctlEnabledState sources unitName
      (offline.map fun state => [("UnitFileState".toList, state)], .properties none :: asked)
    | some out =>
      let props := parseShowProperties out
      let props :=
        if props.get "LoadState" = some "not-found".toList ∧ nonEmpty props "UnitFileState" = none then
          ("UnitFileState".toList, "not-found".toList) :: props
        else props
      let (props, asked) :=
        if nonEmpty props "UnitFileState" = none then
          let (offline, asked) := getSystemctlEnabledState sources unitName
          match offline with
          | some state => (("UnitFileState".toList, state) :: props, asked)
          | none => (props, asked)
        else (props, [])
      (if props = [] then none else if nonEmpty props "UnitFileState" = none then none else some props,
        .properties (some out) :: asked)

/-- `get_property_if_present`. -/
def getPropertyIfPresent (props : Option Props) (key : Str) : Option Str := props.bind fun props => nonEmpty props key

/-- `get_file_state`: the state, and the fallback properties if they were loaded. -/
def getFileState : Str × Option Props × List Answer :=
  let fallback (missing : Str) : Str × Option Props × List Answer :=
    let (props, asked) := getSystemctlProperties sources unitName
    ((getPropertyIfPresent props "UnitFileState").getD missing, props, .bus sources.bus :: asked)
  match sources.bus with
  | .unavailable => fallback "unknown"
  | .failed => fallback "not-found"
  | .unreadable => fallback "unknown"
  | .state s => (s, none, [.bus (.state s)])

/-- `get_active_state`. -/
def getActiveState (fallbackProps : Option Props) : Str × List Answer :=
  match getPropertyIfPresent fallbackProps "ActiveState" with
  | some state => (state, [])
  | none =>
    match normalizeUnitName unitName with
    | none => ("unknown", [])
    | some name =>
      match capture sources ("is-active " ++ name) with
      | none => ("unknown", [.isActive none])
      | some out => (if trim out = [] then "unknown" else trim out, [.isActive (some out)])

/-- What `get_unit_properties` returns. -/
structure UnitProperties where
  unitFileState : Str
  activeState : Str
  deriving DecidableEq

/-- `get_unit_properties`. -/
def getUnitProperties : UnitProperties × List Answer :=
  let (fileState, props, asked) := getFileState sources unitName
  let (activeState, asked') := getActiveState sources unitName props
  (⟨fileState, activeState⟩, asked ++ asked')

end Unit

/-! ## The verdict -/

/-- `unit_file_state_is_known_not_enabled`. -/
def unitFileStateIsKnownNotEnabled (state : Str) : Bool :=
  state ∈ ["alias".toList, "disabled", "generated", "indirect", "linked", "linked-runtime", "masked", "masked-runtime",
    "static", "transient"]

/-- `active_state_is_not_active`. -/
def activeStateIsNotActive (state : Str) : Bool := state ≠ [] && state ≠ "active".toList

/-- `unit_not_in_use`. -/
def unitNotInUse (properties : UnitProperties) : Bool :=
  properties.unitFileState = "not-found".toList ||
    unitFileStateIsKnownNotEnabled properties.unitFileState && activeStateIsNotActive properties.activeState

/-- An entry of `details`. -/
structure Detail where
  name : Str
  properties : UnitProperties
  notInUse : Bool
  deriving DecidableEq

/-- What `get_not_in_use_state` returns. -/
structure Report where
  notInUse : Bool
  count : Nat
  details : List Detail
  deriving DecidableEq

/-- A unit of the list, with the answers of its own. -/
structure Unit where
  name : Str
  sources : Sources

/-- The detail on a unit. -/
def Unit.detail (u : Unit) : Detail where
  name := u.name
  properties := (getUnitProperties u.sources u.name).1
  notInUse := unitNotInUse (getUnitProperties u.sources u.name).1

/-- The loop of `get_not_in_use_state` over the units. -/
def reportOf (units : List Unit) : Report where
  notInUse := (units.map Unit.detail).all fun detail => detail.notInUse
  count := (units.map Unit.detail).length
  details := units.map Unit.detail

/-- The parameter `names`: not there, no table, or a list. -/
inductive Names
  | absent
  | notList
  | list (units : List Unit)

/-- `get_not_in_use_state`. -/
def getNotInUseState (name : Option Unit) (names : Names) : Except Str Report :=
  match names, name with
  | .list units, _ => .ok (reportOf units)
  | .notList, _ => .error "Probe 'services.get_not_in_use_state' parameter 'names' must be a list."
  | .absent, some u => .ok (reportOf [u])
  | .absent, none => .error "Probe 'services.get_not_in_use_state' requires a 'name' or 'names' parameter."

/-! ## What the answers say -/

/-- Without blanks around it, and not empty. -/
def stateText (out : Str) : Option Str := if trim out = [] then none else some (trim out)

namespace Answer

/-- The state of the unit file that an answer reports. -/
def fileState : Answer → Option Str
  | .bus (.state s) => some s
  | .properties (some out) => nonEmpty (parseShowProperties out) "UnitFileState"
  | .isEnabled (some out) => enabledState out
  | _ => none

/-- The load state that an answer reports. -/
def loadState : Answer → Option Str
  | .properties (some out) => (parseShowProperties out).get "LoadState"
  | _ => none

/-- The active state that an answer reports. -/
def activeState : Answer → Option Str
  | .properties (some out) => nonEmpty (parseShowProperties out) "ActiveState"
  | .isActive (some out) => stateText out
  | _ => none

end Answer

/-- An active state that does not show that the unit is at rest. -/
def isUnsettled (state : Str) : Bool := state ∈ ["activating".toList, "reloading", "unknown"]

section Asked

variable (asked : List Answer)

/-- A source reported that there is no unit file. -/
def SaysAbsent : Prop :=
  ∃ answer ∈ asked, answer.fileState = some "not-found".toList ∨ answer.loadState = some "not-found".toList

/-- A source reported a state in which the unit is not enabled. -/
def SaysNotEnabled : Prop :=
  ∃ answer ∈ asked, ∃ state, answer.fileState = some state ∧ unitFileStateIsKnownNotEnabled state = true

/-- A source reported an active state in which the unit is at rest. -/
def SaysNotActive : Prop :=
  ∃ answer ∈ asked, ∃ state, answer.activeState = some state ∧ state ≠ "active".toList ∧ isUnsettled state = false

/-- The answers are evidence that the unit is not in use. -/
def Evidence : Prop := SaysAbsent asked ∨ SaysNotEnabled asked ∧ SaysNotActive asked

end Asked

namespace Unit

variable (u : Unit)

/-- The answers that were asked for. -/
def asked : List Answer := (getUnitProperties u.sources u.name).2

/-! ## What is reported on a unit -/

/-- The output of a command on the unit. -/
def output (args : Str) : Option Str := (normalizeUnitName u.name).bind fun name => capture u.sources (args ++ name)

/-- The output of `systemctl show`. -/
def shown : Option Str := u.output "show -p LoadState -p UnitFileState -p ActiveState "

/-- `systemctl show` reports that nothing could be loaded. -/
def notLoaded : Bool := u.shown.any fun out => (parseShowProperties out).get "LoadState" = some "not-found".toList

/-- The state of the unit file that `systemctl show` gives. -/
def shownFile : Option Str := u.shown.bind fun out => nonEmpty (parseShowProperties out) "UnitFileState"

/-- The state of the unit file that `systemctl` gives: `show`, and then `is-enabled`. -/
def systemctlFile : Option Str :=
  u.shownFile.or (if u.notLoaded then some "not-found".toList else (u.output "--root=/ is-enabled ").bind enabledState)

/-- The active state that `systemctl show` gives. -/
def shownActive : Option Str := u.shown.bind fun out => nonEmpty (parseShowProperties out) "ActiveState"

/-- The active state that `is-active` gives. -/
def activeText : Option Str := (u.output "is-active ").bind stateText

/-- D-Bus gives a state. -/
def busState : Option Str :=
  match u.sources.bus with
  | .state s => some s
  | _ => none

/-- The state of the unit file: from D-Bus, and then from `systemctl`. -/
def reportedFile : Option Str := u.busState.or u.systemctlFile

/-- The active state: from `show` where it stood in for D-Bus, and then from `is-active`. -/
def reportedActive : Option Str := if u.busState = none then u.shownActive.or u.activeText else u.activeText

end Unit

/-! ## The answers of `systemctl` -/

section Systemctl

variable (u : Unit)

theorem getSystemctlEnabledState_fst :
    (getSystemctlEnabledState u.sources u.name).1 = (u.output "--root=/ is-enabled ").bind enabledState := by
  unfold getSystemctlEnabledState Unit.output
  cases normalizeUnitName u.name <;> rfl

theorem mem_getSystemctlEnabledState {answer : Answer} (h : answer ∈ (getSystemctlEnabledState u.sources u.name).2) :
    answer = .isEnabled (u.output "--root=/ is-enabled ") := by
  unfold getSystemctlEnabledState at h
  unfold Unit.output
  cases hname : normalizeUnitName u.name with
  | none =>
    rw [hname] at h
    cases h
  | some name =>
    rw [hname] at h
    exact List.mem_singleton.mp h

theorem nonEmpty_cons (key value : Str) (props : Props) :
    nonEmpty ((key, value) :: props) key = if value = [] then none else some value := by
  unfold nonEmpty Props.get
  rw [List.lookup_cons_self]
  by_cases hv : value = [] <;> simp [Option.filter, hv]

theorem nonEmpty_cons_ne {key other : Str} (value : Str) (props : Props) (h : key ≠ other) :
    nonEmpty ((other, value) :: props) key = nonEmpty props key := by
  unfold nonEmpty Props.get
  rw [List.lookup_cons, beq_false_of_ne h]

theorem enabledState_ne_nil {out state : Str} (h : enabledState out = some state) : state ≠ [] := by
  unfold enabledState at h
  split at h
  · cases h
  · next hne =>
    split at h
    · exact Option.some.inj h ▸ hne
    · cases h

section Shown

variable {u : Unit} {name out : Str}
  (hname : normalizeUnitName u.name = some name)
  (hout : capture u.sources ("show -p LoadState -p UnitFileState -p ActiveState " ++ name) = some out)
include hname hout

theorem getSystemctlProperties_shown {state : Str}
    (hufs : nonEmpty (parseShowProperties out) "UnitFileState" = some state) :
    getSystemctlProperties u.sources u.name = (some (parseShowProperties out), [.properties (some out)]) := by
  have hne : parseShowProperties out ≠ [] := by
    intro h
    rw [h] at hufs
    cases hufs
  unfold getSystemctlProperties
  rw [hname]
  dsimp only
  rw [hout]
  simp only [hufs, hne, reduceCtorEq, and_false, if_false]

theorem getSystemctlProperties_notFound (hufs : nonEmpty (parseShowProperties out) "UnitFileState" = none)
    (hnf : (parseShowProperties out).get "LoadState" = some "not-found".toList) :
    getSystemctlProperties u.sources u.name =
      (some (("UnitFileState".toList, "not-found".toList) :: parseShowProperties out), [.properties (some out)]) := by
  have hset : nonEmpty (("UnitFileState".toList, "not-found".toList) :: parseShowProperties out) "UnitFileState" =
      some "not-found".toList := by rw [nonEmpty_cons, if_neg (by decide)]
  unfold getSystemctlProperties
  rw [hname]
  dsimp only
  rw [hout]
  simp only [hufs, hnf, hset, reduceCtorEq, and_self, if_true, if_false]

theorem getSystemctlProperties_enabled (hufs : nonEmpty (parseShowProperties out) "UnitFileState" = none)
    (hnf : (parseShowProperties out).get "LoadState" ≠ some "not-found".toList) :
    getSystemctlProperties u.sources u.name =
      ((getSystemctlEnabledState u.sources u.name).1.map fun state =>
        ("UnitFileState".toList, state) :: parseShowProperties out,
        .properties (some out) :: (getSystemctlEnabledState u.sources u.name).2) := by
  have hstate : ∀ state, (getSystemctlEnabledState u.sources u.name).1 = some state → state ≠ [] := by
    intro state h
    rw [getSystemctlEnabledState_fst] at h
    obtain ⟨out, -, henabled⟩ := Option.bind_eq_some_iff.mp h
    exact enabledState_ne_nil henabled
  unfold getSystemctlProperties
  rw [hname]
  dsimp only
  rw [hout]
  simp only [hufs, hnf, false_and, if_true, if_false]
  cases h : (getSystemctlEnabledState u.sources u.name).1 with
  | none => simp only [hufs, Option.map_none, if_true, ite_self]
  | some state =>
    have hset : nonEmpty (("UnitFileState".toList, state) :: parseShowProperties out) "UnitFileState" = some state := by
      rw [nonEmpty_cons, if_neg (hstate state h)]
    simp only [hset, reduceCtorEq, if_false, Option.map_some]

end Shown

end Systemctl

/-- What `get_systemctl_properties` returns, from what is reported. -/
structure Loaded (u : Unit) (props : Option Props) (asked : List Answer) : Prop where
  file : getPropertyIfPresent props "UnitFileState" = u.systemctlFile
  active : u.systemctlFile ≠ none → getPropertyIfPresent props "ActiveState" = u.shownActive
  none_of_none : u.systemctlFile = none → props = none
  shown : ∀ out, u.shown = some out → .properties (some out) ∈ asked
  answers : ∀ answer ∈ asked, answer = .properties u.shown ∨
    answer = .isEnabled (u.output "--root=/ is-enabled ") ∧ u.shownFile = none ∧ u.notLoaded = false
  enabled : normalizeUnitName u.name ≠ none → u.shownFile = none → u.notLoaded = false →
    .isEnabled (u.output "--root=/ is-enabled ") ∈ asked

theorem isEnabled_mem (u : Unit) (hname : normalizeUnitName u.name ≠ none) :
    .isEnabled (u.output "--root=/ is-enabled ") ∈ (getSystemctlEnabledState u.sources u.name).2 := by
  unfold getSystemctlEnabledState Unit.output
  cases h : normalizeUnitName u.name with
  | none => exact absurd h hname
  | some name => exact List.mem_singleton_self _

/-- The properties when only `is-enabled` can tell the state of the unit file. -/
theorem loaded_enabled {u : Unit} {props : Props} (hvalid : normalizeUnitName u.name ≠ none)
    (hfile : u.shownFile = none) (hload : u.notLoaded = false)
    (hactive : nonEmpty props "ActiveState" = u.shownActive) :
    Loaded u ((getSystemctlEnabledState u.sources u.name).1.map fun state => ("UnitFileState".toList, state) :: props)
      (.properties u.shown :: (getSystemctlEnabledState u.sources u.name).2) := by
  have hsystemctl : u.systemctlFile = (getSystemctlEnabledState u.sources u.name).1 := by
    rw [Unit.systemctlFile, hfile, hload, getSystemctlEnabledState_fst]
    rfl
  refine ⟨?_, ?_, ?_, ?_, ?_, ?_⟩
  · rw [hsystemctl]
    cases h : (getSystemctlEnabledState u.sources u.name).1 with
    | none => rfl
    | some state =>
      have hne : state ≠ [] := by
        rw [getSystemctlEnabledState_fst] at h
        obtain ⟨out, -, henabled⟩ := Option.bind_eq_some_iff.mp h
        exact enabledState_ne_nil henabled
      show nonEmpty (("UnitFileState".toList, state) :: props) "UnitFileState" = some state
      rw [nonEmpty_cons, if_neg hne]
  · intro hne
    rw [hsystemctl] at hne
    obtain ⟨state, h⟩ := Option.ne_none_iff_exists'.mp hne
    rw [h]
    show nonEmpty (("UnitFileState".toList, state) :: props) "ActiveState" = u.shownActive
    rw [nonEmpty_cons_ne _ _ (by decide), hactive]
  · intro h
    rw [← hsystemctl, h]
    rfl
  · intro out h
    rw [h]
    exact List.mem_cons_self
  · intro answer h
    exact (List.mem_cons.mp h).imp id fun h => ⟨mem_getSystemctlEnabledState u h, hfile, hload⟩
  · intro _ _ _
    exact List.mem_cons_of_mem _ (isEnabled_mem u hvalid)

theorem loaded_getSystemctlProperties (u : Unit) :
    Loaded u (getSystemctlProperties u.sources u.name).1 (getSystemctlProperties u.sources u.name).2 := by
  cases hname : normalizeUnitName u.name with
  | none =>
    have houtput : ∀ args, u.output args = none := fun args => by rw [Unit.output, hname]; rfl
    have hshown : u.shown = none := houtput _
    have hnone : getSystemctlProperties u.sources u.name = (none, []) := by rw [getSystemctlProperties, hname]
    have hfile : u.systemctlFile = none := by
      rw [Unit.systemctlFile, Unit.shownFile, Unit.notLoaded, hshown, houtput]
      rfl
    rw [hnone]
    exact {
      file := hfile.symm
      active := fun h => absurd hfile h
      none_of_none := fun _ => rfl
      shown := fun out hout => by rw [hshown] at hout; cases hout
      answers := fun _ h => absurd h List.not_mem_nil
      enabled := fun h => absurd hname h }
  | some name =>
    have hvalid : normalizeUnitName u.name ≠ none := by
      rw [hname]
      exact Option.some_ne_none _
    have hshow : u.shown = capture u.sources ("show -p LoadState -p UnitFileState -p ActiveState " ++ name) := by
      rw [Unit.shown, Unit.output, hname]
      rfl
    cases hout : capture u.sources ("show -p LoadState -p UnitFileState -p ActiveState " ++ name) with
    | none =>
      rw [hout] at hshow
      have hfile : u.shownFile = none := by rw [Unit.shownFile, hshow]; rfl
      have hload : u.notLoaded = false := by rw [Unit.notLoaded, hshow]; rfl
      have hactive : u.shownActive = none := by rw [Unit.shownActive, hshow]; rfl
      have hvalue : getSystemctlProperties u.sources u.name =
          ((getSystemctlEnabledState u.sources u.name).1.map fun state => [("UnitFileState".toList, state)],
            .properties none :: (getSystemctlEnabledState u.sources u.name).2) := by
        unfold getSystemctlProperties
        rw [hname]
        dsimp only
        rw [hout]
      rw [hvalue, ← hshow]
      exact loaded_enabled hvalid hfile hload hactive.symm
    | some out =>
      rw [hout] at hshow
      have hfile : u.shownFile = nonEmpty (parseShowProperties out) "UnitFileState" := by
        rw [Unit.shownFile, hshow]
        rfl
      have hload : u.notLoaded = decide ((parseShowProperties out).get "LoadState" = some "not-found".toList) := by
        rw [Unit.notLoaded, hshow]
        rfl
      have hactive : u.shownActive = nonEmpty (parseShowProperties out) "ActiveState" := by
        rw [Unit.shownActive, hshow]
        rfl
      have hmem : ∀ o, u.shown = some o → Answer.properties (some o) ∈ [Answer.properties (some out)] := by
        intro o h
        rw [hshow] at h
        rw [Option.some.inj h]
        exact List.mem_singleton_self _
      have hanswers : ∀ answer ∈ [Answer.properties (some out)], answer = .properties u.shown ∨
          answer = .isEnabled (u.output "--root=/ is-enabled ") ∧ u.shownFile = none ∧ u.notLoaded = false :=
        fun answer h => .inl (by rw [List.mem_singleton.mp h, hshow])
      cases hufs : nonEmpty (parseShowProperties out) "UnitFileState" with
      | some state =>
        have hsystemctl : u.systemctlFile = some state := by rw [Unit.systemctlFile, hfile, hufs]; rfl
        rw [getSystemctlProperties_shown hname hout hufs]
        exact {
          file := hufs.trans hsystemctl.symm
          active := fun _ => hactive.symm
          none_of_none := fun h => by rw [hsystemctl] at h; cases h
          shown := hmem
          answers := hanswers
          enabled := fun _ h => by rw [hfile, hufs] at h; cases h }
      | none =>
        by_cases hnf : (parseShowProperties out).get "LoadState" = some "not-found".toList
        · have hsystemctl : u.systemctlFile = some "not-found".toList := by
            rw [Unit.systemctlFile, hfile, hufs, hload, decide_eq_true hnf]
            rfl
          have hset : nonEmpty (("UnitFileState".toList, "not-found".toList) :: parseShowProperties out)
              "UnitFileState" = some "not-found".toList := by rw [nonEmpty_cons, if_neg (by decide)]
          rw [getSystemctlProperties_notFound hname hout hufs hnf]
          exact {
            file := hset.trans hsystemctl.symm
            active := fun _ => (nonEmpty_cons_ne _ _ (by decide)).trans hactive.symm
            none_of_none := fun h => by rw [hsystemctl] at h; cases h
            shown := hmem
            answers := hanswers
            enabled := fun _ _ h => by rw [hload, decide_eq_true hnf] at h; cases h }
        · rw [getSystemctlProperties_enabled hname hout hufs hnf, ← hshow]
          exact loaded_enabled hvalid (hfile.trans hufs) (by rw [hload, decide_eq_false hnf]) hactive.symm

/-! ## The state of a unit -/

section State

variable (u : Unit)

theorem getFileState_bus {s : Str} (h : u.sources.bus = .state s) :
    getFileState u.sources u.name = (s, none, [.bus (.state s)]) := by
  unfold getFileState
  rw [h]

/-- The state of the unit file that stands for a report that is missing. -/
def Unit.missingFile (u : Unit) : Str := if u.sources.bus = .failed then "not-found" else "unknown"

theorem getFileState_systemctl (h : u.busState = none) :
    getFileState u.sources u.name = (u.systemctlFile.getD u.missingFile,
      (getSystemctlProperties u.sources u.name).1,
      .bus u.sources.bus :: (getSystemctlProperties u.sources u.name).2) := by
  have hfile := (loaded_getSystemctlProperties u).file
  unfold Unit.busState at h
  unfold getFileState Unit.missingFile
  cases hbus : u.sources.bus with
  | state s =>
    rw [hbus] at h
    cases h
  | unavailable =>
    dsimp only
    rw [hfile, if_neg (by decide)]
  | failed =>
    dsimp only
    rw [hfile, if_pos rfl]
  | unreadable =>
    dsimp only
    rw [hfile, if_neg (by decide)]

theorem getActiveState_fst (props : Option Props) :
    (getActiveState u.sources u.name props).1 =
      ((getPropertyIfPresent props "ActiveState").or u.activeText).getD "unknown" := by
  unfold getActiveState Unit.activeText Unit.output
  cases getPropertyIfPresent props "ActiveState" with
  | some state => rfl
  | none =>
    cases hname : normalizeUnitName u.name with
    | none => rfl
    | some name =>
      dsimp only [Option.bind_some]
      cases capture u.sources ("is-active " ++ name) with
      | none => rfl
      | some out =>
        show (if trim out = [] then "unknown".toList else trim out) = (stateText out).getD "unknown"
        unfold stateText
        split <;> rfl

theorem mem_getActiveState (props : Option Props) (answer : Answer) :
    answer ∈ (getActiveState u.sources u.name props).2 ↔
      getPropertyIfPresent props "ActiveState" = none ∧ normalizeUnitName u.name ≠ none ∧
        answer = .isActive (u.output "is-active ") := by
  unfold getActiveState Unit.output
  cases getPropertyIfPresent props "ActiveState" with
  | some state => exact iff_of_false List.not_mem_nil fun h => Option.some_ne_none _ h.1
  | none =>
    cases normalizeUnitName u.name with
    | none => exact iff_of_false List.not_mem_nil fun h => h.2.1 rfl
    | some name =>
      dsimp only [Option.bind_some]
      have hasked : ∀ out : Option Str, answer ∈ [Answer.isActive out] ↔
          (none : Option Str) = none ∧ some name ≠ none ∧ answer = .isActive out := fun out =>
        List.mem_singleton.trans ⟨fun h => ⟨rfl, Option.some_ne_none _, h⟩, fun h => h.2.2⟩
      cases capture u.sources ("is-active " ++ name) with
      | none => exact hasked none
      | some out => exact hasked (some out)

/-- **The state of the unit file** is what is reported, or what stands for it. -/
theorem unitFileState_eq :
    (getUnitProperties u.sources u.name).1.unitFileState = u.reportedFile.getD u.missingFile := by
  show (getFileState u.sources u.name).1 = u.reportedFile.getD u.missingFile
  cases hbus : u.busState with
  | none =>
    rw [getFileState_systemctl u hbus, Unit.reportedFile, hbus]
    rfl
  | some s =>
    have hstate : u.sources.bus = .state s := by
      unfold Unit.busState at hbus
      split at hbus
      · next h => rw [h, Option.some.inj hbus]
      · cases hbus
    rw [getFileState_bus u hstate, Unit.reportedFile, hbus]
    rfl

end State

section Verdict

variable {u : Unit}

theorem bus_of_busState {s : Str} (h : u.busState = some s) : u.sources.bus = .state s := by
  unfold Unit.busState at h
  split at h
  · next hbus => rw [hbus, Option.some.inj h]
  · cases h

/-- The active state that the fallback properties hold, when the state of the unit file is reported. -/
theorem fallback_active (h : u.reportedFile ≠ none) :
    getPropertyIfPresent (getFileState u.sources u.name).2.1 "ActiveState" =
      if u.busState = none then u.shownActive else none := by
  cases hbus : u.busState with
  | none =>
    have hfile : u.systemctlFile ≠ none := by
      rw [Unit.reportedFile, hbus] at h
      exact h
    rw [getFileState_systemctl u hbus, if_pos rfl]
    exact (loaded_getSystemctlProperties u).active hfile
  | some s =>
    rw [getFileState_bus u (bus_of_busState hbus), if_neg (Option.some_ne_none _)]
    rfl

/-- **The active state** is what is reported, when the state of the unit file is. -/
theorem activeState_eq (h : u.reportedFile ≠ none) :
    (getUnitProperties u.sources u.name).1.activeState = u.reportedActive.getD "unknown" := by
  show (getActiveState u.sources u.name (getFileState u.sources u.name).2.1).1 = _
  rw [getActiveState_fst, fallback_active h, Unit.reportedActive]
  split <;> rfl

theorem mem_asked {answer : Answer} :
    answer ∈ u.asked ↔ answer ∈ (getFileState u.sources u.name).2.2 ∨
      answer ∈ (getActiveState u.sources u.name (getFileState u.sources u.name).2.1).2 :=
  List.mem_append

theorem mem_asked_systemctl (h : u.busState = none) {answer : Answer} :
    answer ∈ (getFileState u.sources u.name).2.2 ↔
      answer = .bus u.sources.bus ∨ answer ∈ (getSystemctlProperties u.sources u.name).2 := by
  rw [getFileState_systemctl u h]
  exact List.mem_cons

theorem mem_asked_bus {s : Str} (h : u.busState = some s) {answer : Answer} :
    answer ∈ (getFileState u.sources u.name).2.2 ↔ answer = .bus (.state s) := by
  rw [getFileState_bus u (bus_of_busState h)]
  exact List.mem_singleton

theorem fileState_bus (h : u.busState = none) : (Answer.bus u.sources.bus).fileState = none := by
  unfold Unit.busState at h
  cases hbus : u.sources.bus with
  | state s =>
    rw [hbus] at h
    cases h
  | unavailable => rfl
  | failed => rfl
  | unreadable => rfl

theorem fileState_isActive (out : Option Str) : (Answer.isActive out).fileState = none := by
  cases out <;> rfl

theorem fileState_properties (out : Option Str) :
    (Answer.properties out).fileState = out.bind fun out => nonEmpty (parseShowProperties out) "UnitFileState" := by
  cases out <;> rfl

theorem fileState_isEnabled (out : Option Str) : (Answer.isEnabled out).fileState = out.bind enabledState := by
  cases out <;> rfl

/-- What `systemctl` answers on the state of the unit file. -/
theorem systemctl_fileState {state : Str} :
    (∃ answer ∈ (getSystemctlProperties u.sources u.name).2, answer.fileState = some state) ↔
      u.systemctlFile = some state ∧ (u.shownFile = none → u.notLoaded = false) := by
  have hloaded := loaded_getSystemctlProperties u
  constructor
  · rintro ⟨answer, hanswer, hstate⟩
    obtain rfl | ⟨rfl, hnone, hload⟩ := hloaded.answers answer hanswer
    · rw [fileState_properties] at hstate
      have hshown : u.shownFile = some state := hstate
      refine ⟨by rw [Unit.systemctlFile, hshown]; rfl, fun h => ?_⟩
      rw [hshown] at h
      cases h
    · rw [fileState_isEnabled] at hstate
      refine ⟨?_, fun _ => hload⟩
      rw [Unit.systemctlFile, hnone, hload]
      exact hstate
  · rintro ⟨hstate, hload⟩
    cases hshown : u.shownFile with
    | some s =>
      rw [Unit.systemctlFile, hshown] at hstate
      obtain ⟨out, hout, hfile⟩ := Option.bind_eq_some_iff.mp hshown
      refine ⟨.properties (some out), hloaded.shown out hout, ?_⟩
      rw [fileState_properties]
      exact hfile.trans hstate
    | none =>
      rw [Unit.systemctlFile, hshown, hload hshown] at hstate
      obtain ⟨out, hout, -⟩ := Option.bind_eq_some_iff.mp hstate
      have hname : normalizeUnitName u.name ≠ none := by
        intro hname
        rw [Unit.output, hname] at hout
        cases hout
      refine ⟨_, hloaded.enabled hname hshown (hload hshown), ?_⟩
      rw [fileState_isEnabled]
      exact hstate

/-- **The states of the unit file that are answered**: the one reported, unless nothing could be loaded. -/
theorem asked_fileState {state : Str} :
    (∃ answer ∈ u.asked, answer.fileState = some state) ↔
      u.reportedFile = some state ∧ (u.busState = none → u.shownFile = none → u.notLoaded = false) := by
  have hactive : ∀ answer ∈ (getActiveState u.sources u.name (getFileState u.sources u.name).2.1).2,
      answer.fileState = none := by
    intro answer h
    rw [((mem_getActiveState u _ answer).mp h).2.2, fileState_isActive]
  cases hbus : u.busState with
  | none =>
    have hreported : u.reportedFile = u.systemctlFile := by rw [Unit.reportedFile, hbus]; rfl
    rw [hreported]
    refine Iff.trans ⟨?_, ?_⟩ (systemctl_fileState.trans (and_congr_right fun _ => ⟨fun h _ => h, fun h => h rfl⟩))
    · rintro ⟨answer, hanswer, hstate⟩
      obtain hfile | hother := mem_asked.mp hanswer
      · obtain rfl | hmem := (mem_asked_systemctl hbus).mp hfile
        · rw [fileState_bus hbus] at hstate
          cases hstate
        · exact ⟨answer, hmem, hstate⟩
      · rw [hactive answer hother] at hstate
        cases hstate
    · rintro ⟨answer, hanswer, hstate⟩
      exact ⟨answer, mem_asked.mpr (.inl ((mem_asked_systemctl hbus).mpr (.inr hanswer))), hstate⟩
  | some s =>
    have hreported : u.reportedFile = some s := by rw [Unit.reportedFile, hbus]; rfl
    rw [hreported]
    refine Iff.trans ⟨?_, ?_⟩ (and_iff_left fun h => absurd h (Option.some_ne_none _)).symm
    · rintro ⟨answer, hanswer, hstate⟩
      obtain hfile | hother := mem_asked.mp hanswer
      · rw [(mem_asked_bus hbus).mp hfile] at hstate
        exact hstate
      · rw [hactive answer hother] at hstate
        cases hstate
    · intro hstate
      exact ⟨.bus (.state s), mem_asked.mpr (.inl ((mem_asked_bus hbus).mpr rfl)), hstate⟩

theorem loadState_properties (out : Option Str) :
    (Answer.properties out).loadState = out.bind fun out => (parseShowProperties out).get "LoadState" := by
  cases out <;> rfl

theorem notLoaded_iff : u.notLoaded = true ↔
    u.shown.bind (fun out => (parseShowProperties out).get "LoadState") = some "not-found".toList := by
  unfold Unit.notLoaded
  cases u.shown with
  | none => exact iff_of_false Bool.false_ne_true (Option.some_ne_none _).symm
  | some out => exact decide_eq_true_iff

/-- **Nothing could be loaded** is answered if `show` is asked and says so. -/
theorem asked_loadState :
    (∃ answer ∈ u.asked, answer.loadState = some "not-found".toList) ↔ u.busState = none ∧ u.notLoaded = true := by
  have hloaded := loaded_getSystemctlProperties u
  constructor
  · rintro ⟨answer, hanswer, hstate⟩
    obtain hfile | hother := mem_asked.mp hanswer
    · cases hbus : u.busState with
      | none =>
        refine ⟨rfl, ?_⟩
        obtain rfl | hmem := (mem_asked_systemctl hbus).mp hfile
        · cases hstate
        · obtain rfl | ⟨rfl, -⟩ := hloaded.answers answer hmem
          · rw [loadState_properties] at hstate
            exact notLoaded_iff.mpr hstate
          · cases hstate
      | some s =>
        rw [(mem_asked_bus hbus).mp hfile] at hstate
        cases hstate
    · rw [((mem_getActiveState u _ answer).mp hother).2.2] at hstate
      cases hstate
  · rintro ⟨hbus, hload⟩
    have hstate := notLoaded_iff.mp hload
    obtain ⟨out, hout, -⟩ := Option.bind_eq_some_iff.mp hstate
    refine ⟨.properties (some out), mem_asked.mpr (.inl ((mem_asked_systemctl hbus).mpr
      (.inr (hloaded.shown out hout)))), ?_⟩
    rw [loadState_properties, ← hout]
    exact hstate

end Verdict

section Evidence

variable {u : Unit}

theorem activeState_properties (out : Option Str) :
    (Answer.properties out).activeState = out.bind fun out => nonEmpty (parseShowProperties out) "ActiveState" := by
  cases out <;> rfl

theorem activeState_isActive (out : Option Str) : (Answer.isActive out).activeState = out.bind stateText := by
  cases out <;> rfl

/-- What `systemctl show` answers on the active state. -/
theorem systemctl_activeState {state : Str} :
    (∃ answer ∈ (getSystemctlProperties u.sources u.name).2, answer.activeState = some state) ↔
      u.shownActive = some state := by
  have hloaded := loaded_getSystemctlProperties u
  constructor
  · rintro ⟨answer, hanswer, hstate⟩
    obtain rfl | ⟨rfl, -⟩ := hloaded.answers answer hanswer
    · rw [activeState_properties] at hstate
      exact hstate
    · cases hstate
  · intro hstate
    obtain ⟨out, hout, hactive⟩ := Option.bind_eq_some_iff.mp hstate
    refine ⟨.properties (some out), hloaded.shown out hout, ?_⟩
    rw [activeState_properties]
    exact hactive

theorem isActive_activeState (props : Option Props) {state : Str} :
    (∃ answer ∈ (getActiveState u.sources u.name props).2, answer.activeState = some state) ↔
      getPropertyIfPresent props "ActiveState" = none ∧ u.activeText = some state := by
  constructor
  · rintro ⟨answer, hanswer, hstate⟩
    obtain ⟨hnone, -, rfl⟩ := (mem_getActiveState u props answer).mp hanswer
    rw [activeState_isActive] at hstate
    exact ⟨hnone, hstate⟩
  · rintro ⟨hnone, hstate⟩
    obtain ⟨out, hout, -⟩ := Option.bind_eq_some_iff.mp hstate
    have hname : normalizeUnitName u.name ≠ none := by
      intro hname
      rw [Unit.output, hname] at hout
      cases hout
    refine ⟨_, (mem_getActiveState u props _).mpr ⟨hnone, hname, rfl⟩, ?_⟩
    rw [activeState_isActive]
    exact hstate

/-- **The active states that are answered**: the one reported, when the state of the unit file is. -/
theorem asked_activeState (h : u.reportedFile ≠ none) {state : Str} :
    (∃ answer ∈ u.asked, answer.activeState = some state) ↔ u.reportedActive = some state := by
  have hsplit : (∃ answer ∈ u.asked, answer.activeState = some state) ↔
      (∃ answer ∈ (getFileState u.sources u.name).2.2, answer.activeState = some state) ∨
        getPropertyIfPresent (getFileState u.sources u.name).2.1 "ActiveState" = none ∧ u.activeText = some state := by
    rw [← isActive_activeState]
    constructor
    · rintro ⟨answer, hanswer, hstate⟩
      exact (mem_asked.mp hanswer).imp (fun h => ⟨answer, h, hstate⟩) fun h => ⟨answer, h, hstate⟩
    · rintro (⟨answer, hanswer, hstate⟩ | ⟨answer, hanswer, hstate⟩)
      · exact ⟨answer, mem_asked.mpr (.inl hanswer), hstate⟩
      · exact ⟨answer, mem_asked.mpr (.inr hanswer), hstate⟩
  rw [hsplit, fallback_active h, Unit.reportedActive]
  cases hbus : u.busState with
  | none =>
    rw [if_pos rfl, if_pos rfl]
    have hfile : (∃ answer ∈ (getFileState u.sources u.name).2.2, answer.activeState = some state) ↔
        u.shownActive = some state := by
      rw [← systemctl_activeState]
      constructor
      · rintro ⟨answer, hanswer, hstate⟩
        obtain rfl | hmem := (mem_asked_systemctl hbus).mp hanswer
        · cases hstate
        · exact ⟨answer, hmem, hstate⟩
      · rintro ⟨answer, hanswer, hstate⟩
        exact ⟨answer, (mem_asked_systemctl hbus).mpr (.inr hanswer), hstate⟩
    rw [hfile]
    cases u.shownActive with
    | none => simp
    | some s => simp
  | some s =>
    rw [if_neg (Option.some_ne_none _), if_neg (Option.some_ne_none _)]
    refine ⟨?_, fun h => .inr ⟨rfl, h⟩⟩
    rintro (⟨answer, hanswer, hstate⟩ | ⟨-, hstate⟩)
    · rw [(mem_asked_bus hbus).mp hanswer] at hstate
      cases hstate
    · exact hstate

/-! ## Evidence and the verdict -/

theorem notFound_not_known : unitFileStateIsKnownNotEnabled "not-found" = false := by decide

theorem saysAbsent_iff :
    SaysAbsent u.asked ↔ u.reportedFile = some "not-found".toList ∨ u.busState = none ∧ u.notLoaded = true := by
  have hsplit : SaysAbsent u.asked ↔ (∃ answer ∈ u.asked, answer.fileState = some "not-found".toList) ∨
      ∃ answer ∈ u.asked, answer.loadState = some "not-found".toList := by
    unfold SaysAbsent
    constructor
    · rintro ⟨answer, hanswer, h⟩
      exact h.imp (fun h => ⟨answer, hanswer, h⟩) fun h => ⟨answer, hanswer, h⟩
    · rintro (⟨answer, hanswer, h⟩ | ⟨answer, hanswer, h⟩)
      · exact ⟨answer, hanswer, .inl h⟩
      · exact ⟨answer, hanswer, .inr h⟩
  rw [hsplit, asked_fileState, asked_loadState]
  constructor
  · rintro (⟨h, -⟩ | h)
    · exact .inl h
    · exact .inr h
  · rintro (h | h)
    · by_cases hload : u.busState = none ∧ u.notLoaded = true
      · exact .inr hload
      · refine .inl ⟨h, fun hbus _ => ?_⟩
        rw [Bool.eq_false_iff]
        exact fun hload' => hload ⟨hbus, hload'⟩
    · exact .inr h

theorem saysNotEnabled_iff : SaysNotEnabled u.asked ↔
    ∃ state, u.reportedFile = some state ∧ unitFileStateIsKnownNotEnabled state = true := by
  constructor
  · rintro ⟨answer, hanswer, state, hstate, hknown⟩
    exact ⟨state, (asked_fileState.mp ⟨answer, hanswer, hstate⟩).1, hknown⟩
  · rintro ⟨state, hstate, hknown⟩
    have hloaded : u.busState = none → u.shownFile = none → u.notLoaded = false := by
      intro hbus hshown
      rw [Bool.eq_false_iff]
      intro hload
      rw [Unit.reportedFile, hbus, Unit.systemctlFile, hshown, hload] at hstate
      rw [← Option.some.inj hstate, notFound_not_known] at hknown
      cases hknown
    obtain ⟨answer, hanswer, h⟩ := asked_fileState.mpr ⟨hstate, hloaded⟩
    exact ⟨answer, hanswer, state, h, hknown⟩

theorem saysNotActive_iff (h : u.reportedFile ≠ none) : SaysNotActive u.asked ↔
    ∃ state, u.reportedActive = some state ∧ state ≠ "active".toList ∧ isUnsettled state = false := by
  constructor
  · rintro ⟨answer, hanswer, state, hstate, hrest⟩
    exact ⟨state, (asked_activeState h).mp ⟨answer, hanswer, hstate⟩, hrest⟩
  · rintro ⟨state, hstate, hrest⟩
    obtain ⟨answer, hanswer, h⟩ := (asked_activeState h).mpr hstate
    exact ⟨answer, hanswer, state, h, hrest⟩

end Evidence

/-! ## Units that are not in use -/

namespace Unit

variable (u : Unit)

/-- What is reported speaks against a unit that is not in use. -/
def Against : Prop :=
  u.reportedFile = none ∧ u.sources.bus ≠ .failed ∨
    ∃ state, u.reportedFile = some state ∧ state ≠ "not-found".toList ∧
      (unitFileStateIsKnownNotEnabled state = true → u.reportedActive = some "active".toList)

/-- What is reported leaves open whether the unit is in use, and the failed sources are read as if it were not: a failed
call stands for "not-found", and an active state that is missing or not settled for one at rest. -/
def Silent : Prop :=
  u.reportedFile = none ∧ u.sources.bus = .failed ∨
    ∃ state, u.reportedFile = some state ∧ unitFileStateIsKnownNotEnabled state = true ∧
      ¬(u.busState = none ∧ u.notLoaded = true) ∧
        ∀ active, u.reportedActive = some active → isUnsettled active = true

end Unit

section Verdict

variable {u : Unit}

theorem stateText_ne_nil {out state : Str} (h : stateText out = some state) : state ≠ [] := by
  unfold stateText at h
  split at h
  · cases h
  · next hne => exact Option.some.inj h ▸ hne

theorem nonEmpty_ne_nil {props : Props} {key value : Str} (h : nonEmpty props key = some value) : value ≠ [] := by
  have := (Option.filter_eq_some_iff.mp h).2
  exact of_decide_eq_true this

theorem reportedActive_ne_nil {state : Str} (h : u.reportedActive = some state) : state ≠ [] := by
  have htext : u.activeText = some state → state ≠ [] := by
    intro h
    obtain ⟨out, -, hstate⟩ := Option.bind_eq_some_iff.mp h
    exact stateText_ne_nil hstate
  unfold Unit.reportedActive at h
  split at h
  · obtain hshown | ⟨-, h⟩ := Option.or_eq_some_iff.mp h
    · obtain ⟨out, -, hstate⟩ := Option.bind_eq_some_iff.mp hshown
      exact nonEmpty_ne_nil hstate
    · exact htext h
  · exact htext h

/-- A state that is missing counts as one that is not active. -/
theorem activeStateIsNotActive_getD :
    activeStateIsNotActive (u.reportedActive.getD "unknown") = true ↔ u.reportedActive ≠ some "active".toList := by
  cases hactive : u.reportedActive with
  | none => exact iff_of_true (by decide) (Option.some_ne_none _).symm
  | some state =>
    show activeStateIsNotActive state = true ↔ _
    unfold activeStateIsNotActive
    rw [Bool.and_eq_true, decide_eq_true_iff, decide_eq_true_iff, ne_eq (some state), Option.some_inj]
    exact and_iff_right (reportedActive_ne_nil hactive)

/-- **A unit is not in use** if nothing that is reported speaks against it. -/
theorem unitNotInUse_iff : unitNotInUse (getUnitProperties u.sources u.name).1 = true ↔ ¬u.Against := by
  unfold unitNotInUse
  rw [Bool.or_eq_true, decide_eq_true_iff, Bool.and_eq_true, unitFileState_eq]
  cases hfile : u.reportedFile with
  | none =>
    have hmissing : u.missingFile = "not-found".toList ↔ u.sources.bus = .failed := by
      unfold Unit.missingFile
      split
      · next h => exact iff_of_true rfl h
      · next h => exact iff_of_false (by decide) h
    have hknown : unitFileStateIsKnownNotEnabled u.missingFile = false := by
      unfold Unit.missingFile
      split <;> decide
    have hagainst : u.Against ↔ u.sources.bus ≠ .failed := by
      constructor
      · rintro (⟨-, h⟩ | ⟨state, h, -⟩)
        · exact h
        · rw [hfile] at h
          cases h
      · exact fun h => .inl ⟨hfile, h⟩
    rw [Option.getD_none, hmissing, hknown, hagainst, not_not]
    exact or_iff_left fun h => Bool.false_ne_true h.1
  | some state =>
    have hne : u.reportedFile ≠ none := by
      rw [hfile]
      exact Option.some_ne_none _
    have hagainst : u.Against ↔ state ≠ "not-found".toList ∧
        (unitFileStateIsKnownNotEnabled state = true → u.reportedActive = some "active".toList) := by
      constructor
      · rintro (⟨h, -⟩ | ⟨s, h, hrest⟩)
        · exact absurd h hne
        · rw [hfile] at h
          exact Option.some.inj h ▸ hrest
      · exact fun h => .inr ⟨state, hfile, h⟩
    rw [Option.getD_some, activeState_eq hne, activeStateIsNotActive_getD, hagainst]
    tauto

/-- **Evidence for a unit that is not in use**, unless the unit is silent. -/
theorem evidence_iff (h : ¬u.Against) : Evidence u.asked ↔ ¬u.Silent := by
  unfold Evidence
  rw [saysAbsent_iff, saysNotEnabled_iff]
  cases hfile : u.reportedFile with
  | none =>
    have hfailed : u.sources.bus = .failed := by
      by_contra hbus
      exact h (.inl ⟨hfile, hbus⟩)
    refine iff_of_false ?_ fun hsilent => hsilent (.inl ⟨hfile, hfailed⟩)
    rintro ((hnone | ⟨hbus, hload⟩) | ⟨⟨state, hnone, -⟩, -⟩)
    · cases hnone
    · have hsystemctl : u.systemctlFile = none := by
        rw [Unit.reportedFile, hbus] at hfile
        exact hfile
      unfold Unit.systemctlFile at hsystemctl
      rw [hload, if_pos rfl] at hsystemctl
      exact absurd (Option.or_eq_none_iff.mp hsystemctl).2 (Option.some_ne_none _)
    · cases hnone
  | some state =>
    have hne : u.reportedFile ≠ none := by
      rw [hfile]
      exact Option.some_ne_none _
    rw [saysNotActive_iff hne]
    by_cases habsent : state = "not-found".toList
    · refine iff_of_true (.inl (.inl (congrArg some habsent))) ?_
      rintro (⟨hnone, -⟩ | ⟨s, hs, hknown, -⟩)
      · exact hne hnone
      · rw [← Option.some.inj (hfile.symm.trans hs), habsent, notFound_not_known] at hknown
        cases hknown
    · have hknown : unitFileStateIsKnownNotEnabled state = true ∧ u.reportedActive ≠ some "active".toList := by
        by_contra hnot
        refine h (.inr ⟨state, hfile, habsent, fun hknown => ?_⟩)
        by_contra hactive
        exact hnot ⟨hknown, hactive⟩
      have hsilent : u.Silent ↔ ¬(u.busState = none ∧ u.notLoaded = true) ∧
          ∀ active, u.reportedActive = some active → isUnsettled active = true := by
        constructor
        · rintro (⟨hnone, -⟩ | ⟨s, -, -, hrest⟩)
          · exact absurd hnone hne
          · exact hrest
        · exact fun hrest => .inr ⟨state, hfile, hknown.1, hrest⟩
      have hsettled : (∃ active, u.reportedActive = some active ∧ active ≠ "active".toList ∧
          isUnsettled active = false) ↔ ¬∀ active, u.reportedActive = some active → isUnsettled active = true := by
        constructor
        · rintro ⟨active, hactive, -, hrest⟩ hall
          rw [hall active hactive] at hrest
          cases hrest
        · intro hnot
          push Not at hnot
          obtain ⟨active, hactive, hrest⟩ := hnot
          refine ⟨active, hactive, ?_, Bool.eq_false_iff.mpr hrest⟩
          rintro rfl
          exact hknown.2 hactive
      rw [hsilent, hsettled, Option.some_inj]
      constructor
      · rintro ((h | h) | ⟨-, h⟩)
        · exact absurd h habsent
        · exact fun hall => hall.1 h
        · exact fun hall => h hall.2
      · intro hall
        by_cases hload : u.busState = none ∧ u.notLoaded = true
        · exact .inl (.inr hload)
        · exact .inr ⟨⟨state, rfl, hknown.1⟩, fun hrest => hall ⟨hload, hrest⟩⟩

end Verdict

/-- The units that are judged. -/
def judged (name : Option Unit) : Names → List Unit
  | .absent => name.toList
  | .notList => []
  | .list units => units

theorem getNotInUseState_ok {name : Option Unit} {names : Names} {report : Report}
    (h : getNotInUseState name names = .ok report) : report = reportOf (judged name names) := by
  cases names with
  | absent =>
    cases name with
    | none => cases h
    | some u => exact (Except.ok.inj h).symm
  | notList => cases h
  | list units => exact (Except.ok.inj h).symm

theorem notInUse_reportOf {units : List Unit} : (reportOf units).notInUse = true ↔ ∀ u ∈ units, ¬u.Against := by
  show (units.map Unit.detail).all (fun detail => detail.notInUse) = true ↔ _
  rw [List.all_map, List.all_eq_true]
  exact forall₂_congr fun u _ => unitNotInUse_iff

/-- **A list that is not in use has evidence for each of its units** exactly if what is reported speaks against one of
them, or none of them is silent. -/
theorem not_in_use_evidence_iff (name : Option Unit) (names : Names) :
    (∀ report, getNotInUseState name names = .ok report → report.notInUse = true →
      ∀ u ∈ judged name names, Evidence u.asked) ↔
    (∃ u ∈ judged name names, u.Against) ∨ ∀ u ∈ judged name names, ¬u.Silent := by
  constructor
  · intro h
    by_cases hagainst : ∃ u ∈ judged name names, u.Against
    · exact .inl hagainst
    · refine .inr fun u hu => ?_
      have hall : ∀ v ∈ judged name names, ¬v.Against := fun v hv hv' => hagainst ⟨v, hv, hv'⟩
      have hok : getNotInUseState name names = .ok (reportOf (judged name names)) := by
        cases names with
        | absent =>
          cases name with
          | none => cases hu
          | some v => rfl
        | notList => cases hu
        | list units => rfl
      exact (evidence_iff (hall u hu)).mp (h _ hok (notInUse_reportOf.mpr hall) u hu)
  · rintro h report hok hnotInUse u hu
    rw [getNotInUseState_ok hok, notInUse_reportOf] at hnotInUse
    obtain ⟨v, hv, hagainst⟩ | hsilent := h
    · exact absurd hagainst (hnotInUse v hv)
    · exact (evidence_iff (hnotInUse u hu)).mpr (hsilent u hu)

/-- A unit that D-Bus reports as disabled, with no answer from `systemctl` on whether it is running. -/
def mutedUnit : Unit where
  name := "dnsmasq.service".toList
  sources := { bus := .state "disabled".toList, mode := fun _ => none, popen := fun _ => none }

/-- A unit is reported as not in use, and its active state is not known. -/
theorem not_in_use_muted :
    getNotInUseState (some mutedUnit) .absent = .ok (reportOf [mutedUnit]) ∧
      (reportOf [mutedUnit]).notInUse = true ∧ ¬Evidence mutedUnit.asked := by
  have hname : normalizeUnitName "dnsmasq.service" = some "dnsmasq.service".toList := by decide +kernel
  have hbus : mutedUnit.busState = some "disabled".toList := rfl
  have hactive : mutedUnit.reportedActive = none := by
    have hout : mutedUnit.output "is-active " = none := by
      show (normalizeUnitName "dnsmasq.service").bind _ = none
      rw [hname]
      rfl
    rw [Unit.reportedActive, hbus, if_neg (Option.some_ne_none _), Unit.activeText, hout]
    rfl
  have hfile : mutedUnit.reportedFile = some "disabled".toList := rfl
  have hagainst : ¬mutedUnit.Against := by
    rintro (⟨h, -⟩ | ⟨state, h, -, hrest⟩)
    · cases h
    · rw [← Option.some.inj (hfile.symm.trans h), hactive] at hrest
      cases hrest (by decide)
  have hsilent : mutedUnit.Silent := by
    refine .inr ⟨"disabled".toList, hfile, by decide, fun h => ?_, fun active h => ?_⟩
    · rw [hbus] at h
      exact Option.some_ne_none _ h.1
    · rw [hactive] at h
      cases h
  exact ⟨rfl, notInUse_reportOf.mpr fun u hu => by rwa [List.mem_singleton.mp hu],
    fun h => (evidence_iff hagainst).mp h hsilent⟩

end Services
end Seharden
