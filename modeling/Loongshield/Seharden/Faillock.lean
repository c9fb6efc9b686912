import Loongshield.Seharden.KeyValueFile
import Loongshield.Seharden.PathView
import Loongshield.Seharden.Pam

/-!
# `pam/faillock.lua`

Account lockout is set by the arguments of `pam_faillock.so`, by a configuration file, or by a default. Two probes look
at it: `inspect` at the PAM files as a whole, `inspect_setting` at one option.

- `inspect`, `inspectSetting`: the probes;
- `effectiveDeny`, `effectiveUnlockTime`: what the module goes by, where the last argument counts;
- `entryReason_eq_none_iff`: what `inspect` looks at instead;
- `faillock_sound_iff`: when its verdict is sound.
-/

namespace Seharden
namespace Faillock

open Lua Pattern KeyValueFile

/-! ## `pam/common.lua` -/

/-- `arg:match("^" .. option_name .. "=(.+)$")`. -/
def optionValue (optionName arg : Str) : Option Str := firstCapture arg ("^" ++ optionName ++ "=(.+)$")

/-- `parse_option`. -/
def parseOption (args : List Str) (optionName : Str) : Option Str := args.findSome? (optionValue optionName)

/-- `has_arg`. -/
def hasArg (args : List Str) (optionName : Str) : Bool := args.any fun arg => arg = optionName

/-- `parse_non_negative_integer`. -/
def parseNonNegativeInteger (value : Value) : Option Flt :=
  match tonumber value with
  | some number => if number.lt (.fin 0) then none else some number
  | none => none

/-- `parse_positive_integer`. -/
def parsePositiveInteger (value : Value) : Option Flt :=
  match tonumber value with
  | some number => if number.lt (.fin 1) then none else some number
  | none => none

/-- A text that may be missing. -/
def textValue : Option Str → Value
  | some s => .str s
  | none => .nil

/-- The values of a configuration file. -/
abbrev Config := Str → Option Str

/-- A configuration file without values. -/
def Config.empty : Config := fun _ => none

/-- The entries of `details`; `extra` has the further fields. -/
structure Detail where
  path : Str
  reason : Str
  extra : List (Str × Value)

section Common

variable (view : View)

/-- `load_optional_key_value_file`. -/
def loadOptionalKeyValueFile (path : Str) : Option Config :=
  match view.lines path with
  | .error _ => none
  | .ok lines => some (parseHandle .none lines)

/-- `load_pam_entries`. -/
def loadPamEntries (path : Str) : Option (List Pam.Entry) :=
  match view.lines path with
  | .error _ => none
  | .ok lines => some (lines.filterMap Pam.parseLine)

/-- `expand_ordered_paths`. -/
def expandOrderedPaths : List Str → List Str → Except Err (List Str)
  | [], expanded => .ok expanded
  | spec :: specs, expanded => do
    let found ← view.expandFiles [spec]
    expandOrderedPaths specs ((sortStrs found).foldl appendUnique expanded)

/-- The key and the value in a line of `load_ordered_settings`; a word alone is a flag. -/
def orderedSetting (line : Str) : Option (Str × Value) :=
  let trimmed := trim (stripInlineComment line)
  if trimmed = [] ∨ isMatch trimmed "^#" then none
  else
    match matchCaptures trimmed "^([^=%s]+)%s*=%s*(.-)%s*$" with
    | some [key, value] => some (key, .str value)
    | _ => (firstCapture trimmed "^(%S+)$").map fun key => (key, .bool true)

/-- The loop of `load_ordered_settings` over the files: the entries with their paths, or the error of a file. -/
def orderedEntries : List Str → Except Str (List (Str × Str × Value))
  | [] => .ok []
  | path :: paths =>
    match view.lines path with
    | .error _ => .error ("Could not open config file '" ++ path ++ "' for reading.")
    | .ok lines => do
      let rest ← orderedEntries paths
      return (lines.filterMap orderedSetting).map (fun setting => (path, setting)) ++ rest

/-- The values of the entries; the last one of a key counts. -/
def orderedValues (entries : List (Str × Str × Value)) (key : Str) : Value :=
  ((entries.filterMap fun entry => if key = entry.2.1 then some entry.2.2 else none).getLast?).getD .nil

/-- `load_ordered_settings`: the entries, or an error. -/
def loadOrderedSettings (pathSpecs : List Str) : Except Err (Except Str (List (Str × Str × Value))) := do
  return orderedEntries view (← expandOrderedPaths view pathSpecs [])

end Common

/-! ## `inspect` -/

/-- The parameters of `inspect`. -/
structure Params where
  pamPaths : Option (List Str)
  configPath : Option Str
  defaultDeny : Value
  defaultUnlockTime : Value

/-- `tonumber(params.default_deny) or 3`. -/
def Params.deny (params : Params) : Flt := (tonumber params.defaultDeny).getD (.fin 3)

/-- `tonumber(params.default_unlock_time) or 600`. -/
def Params.unlockTime (params : Params) : Flt := (tonumber params.defaultUnlockTime).getD (.fin 600)

section Inspect

variable (view : View) (params : Params) (defaultConfig : Config)

/-- `get_faillock_config`. -/
def getFaillockConfig (entry : Pam.Entry) : Except Str Config :=
  match parseOption entry.args "conf" with
  | some configPath =>
    match loadOptionalKeyValueFile view configPath with
    | some config => .ok config
    | none => .error "config_missing"
  | none => .ok defaultConfig

/-- `get_faillock_deny`. -/
def getFaillockDeny (entry : Pam.Entry) : Except Str Flt :=
  match parsePositiveInteger (textValue (parseOption entry.args "deny")) with
  | some configured => .ok configured
  | none => do
    let config ← getFaillockConfig view defaultConfig entry
    return (parsePositiveInteger (textValue (config "deny"))).getD params.deny

/-- `get_faillock_unlock_time`. -/
def getFaillockUnlockTime (entry : Pam.Entry) : Except Str Flt :=
  match parseOption entry.args "unlock_time" with
  | some configured =>
    if configured = "never".toList then .ok (.fin 0)
    else
      match parseNonNegativeInteger (.str configured) with
      | some number => .ok number
      | none => .error "unlock_time_invalid"
  | none => do
    let config ← getFaillockConfig view defaultConfig entry
    match config "unlock_time" with
    | some configured =>
      if configured = "never".toList then .ok (.fin 0)
      else
        match parseNonNegativeInteger (.str configured) with
        | some number => .ok number
        | none => .error "unlock_time_invalid"
    | none => .ok params.unlockTime

/-- `is_faillock_deny_compliant`. -/
def isFaillockDenyCompliant (deny : Flt) : Bool := (Flt.fin 1).le deny && deny.le params.deny

/-- `is_faillock_unlock_time_compliant`. -/
def isFaillockUnlockTimeCompliant (unlockTime : Flt) : Bool :=
  unlockTime = .fin 0 || params.unlockTime.le unlockTime

/-- The body of the loop over the entries of the module: the reason to report the path. -/
def entryReason (entry : Pam.Entry) : Option Str :=
  match getFaillockDeny view params defaultConfig entry, getFaillockUnlockTime view params defaultConfig entry with
  | .error err, _ => some err
  | .ok _, .error err => some err
  | .ok deny, .ok unlockTime =>
    if !isFaillockDenyCompliant params deny then
      some (if deny.lt (.fin 1) then "deny_invalid" else "deny_too_large")
    else if !isFaillockUnlockTimeCompliant params unlockTime then
      some (if unlockTime.lt (.fin 0) then "unlock_time_invalid" else "unlock_time_too_short")
    else none

/-- An entry that sets one of `has_preauth`, `has_authfail` and `has_authsucc`: the first of its phases. -/
def hasPhase (phase : Str) (entry : Pam.Entry) : Bool :=
  entry.kind = "auth".toList &&
    (["preauth".toList, "authfail".toList, "authsucc".toList].find? fun p => hasArg entry.args p) == some phase

/-- The entries of the module. -/
def faillockEntries (entries : List Pam.Entry) : List Pam.Entry :=
  entries.filter fun entry => entry.moduleName = "pam_faillock.so".toList

/-- The stack of a path has the phases that are needed. -/
def completeStack (entries : List Pam.Entry) : Bool :=
  (faillockEntries entries).any (hasPhase "authfail") &&
    ((faillockEntries entries).any (hasPhase "authsucc") || (faillockEntries entries).any (hasPhase "preauth"))

/-- The reason to report a path, from its entries. -/
def pathReason (entries : List Pam.Entry) : Option Str :=
  if faillockEntries entries = [] then some "module_missing"
  else if !completeStack entries then some "stack_incomplete"
  else (faillockEntries entries).findSome? (entryReason view params defaultConfig)

/-- What is reported on a path. -/
def pathDetail (path : Str) : Option Detail :=
  match loadPamEntries view path with
  | none => some ⟨path, "pam_file_unreadable", []⟩
  | some entries => (pathReason view params defaultConfig entries).map fun reason => ⟨path, reason, []⟩

end Inspect

/-- The configuration file of the parameters. -/
def defaultConfig (view : View) (params : Params) : Config :=
  ((params.configPath.bind (loadOptionalKeyValueFile view))).getD Config.empty

/-- `inspect`: the details; their number is the `count`. -/
def inspect (view : View) (params : Params) : Except Str (List Detail) :=
  match params.pamPaths with
  | some (path :: paths) => .ok ((path :: paths).filterMap (pathDetail view params (defaultConfig view params)))
  | _ => .error "Probe 'pam.inspect_faillock' requires a non-empty 'pam_paths' list."

/-! ## `inspect_setting` -/

/-- The parameters of `inspect_setting`. -/
structure SettingParams where
  option : Option Str
  configPath : Option Str
  pamPaths : List Str
  maxDeny : Value
  minUnlockTime : Value
  minRootUnlockTime : Value

/-- `config_value`: a number, or a flag. -/
inductive ConfigValue
  | number (n : Flt)
  | flag
  deriving DecidableEq

/-- What `inspect_setting` reports. -/
structure SettingReport where
  available : Bool
  compliant : Bool
  count : Nat
  option : Str
  configValue : Option ConfigValue
  configCompliant : Bool
  moduleArgumentViolationCount : Nat
  details : List Detail

section Setting

variable (params : SettingParams)

/-- `tonumber(params.max_deny) or 5`. -/
def SettingParams.deny : Flt := (tonumber params.maxDeny).getD (.fin 5)

/-- `tonumber(params.min_unlock_time) or 900`. -/
def SettingParams.unlockTime : Flt := (tonumber params.minUnlockTime).getD (.fin 900)

/-- `tonumber(params.min_root_unlock_time) or 60`. -/
def SettingParams.rootUnlockTime : Flt := (tonumber params.minRootUnlockTime).getD (.fin 60)

/-- `params.config_path or '/etc/security/faillock.conf'`. -/
def SettingParams.config : Str := params.configPath.getD "/etc/security/faillock.conf"

/-- `parse_bool_or_number`. -/
def parseBoolOrNumber (value : Value) : Option ConfigValue :=
  if value.rawEq (.bool true) then some .flag else (parseNonNegativeInteger value).map .number

/-- `setting_from_config`: whether the configuration complies, its value, and the details; nothing for an option that
there is not. -/
def settingFromConfig (option : Str) (values : Str → Value) : Option (Bool × Option ConfigValue × List Detail) :=
  if option = "deny".toList then
    match parsePositiveInteger (values "deny") with
    | some deny =>
      if deny.le params.deny then some (true, some (.number deny), [])
      else some (false, some (.number deny), [⟨params.config, "config_deny_too_large",
        [("option", .str "deny"), ("value", values "deny")]⟩])
    | none => some (false, none, [⟨params.config, "config_deny_missing_or_invalid",
        [("option", .str "deny"), ("value", values "deny")]⟩])
  else if option = "unlock_time".toList then
    match parseNonNegativeInteger (values "unlock_time") with
    | some unlockTime =>
      if unlockTime = .fin 0 || params.unlockTime.le unlockTime then some (true, some (.number unlockTime), [])
      else some (false, some (.number unlockTime), [⟨params.config, "config_unlock_time_too_short",
        [("option", .str "unlock_time"), ("value", values "unlock_time")]⟩])
    | none => some (false, none, [⟨params.config, "config_unlock_time_missing_or_invalid",
        [("option", .str "unlock_time"), ("value", values "unlock_time")]⟩])
  else if option = "root_lockout".toList then
    let shown := if (values "root_unlock_time").truthy then values "root_unlock_time" else values "even_deny_root"
    if (values "even_deny_root").rawEq (.bool true) then some (true, some .flag, [])
    else
      match parseBoolOrNumber (values "root_unlock_time") with
      | some (.number n) =>
        if params.rootUnlockTime.le n then some (true, some (.number n), [])
        else some (false, some (.number n), [⟨params.config, "config_root_unlock_time_too_short",
          [("option", .str "root_lockout"), ("value", shown)]⟩])
      | some .flag => some (false, some .flag, [⟨params.config, "config_root_unlock_time_too_short",
          [("option", .str "root_lockout"), ("value", shown)]⟩])
      | none => some (false, none, [⟨params.config, "config_root_lockout_missing",
          [("option", .str "root_lockout"), ("value", shown)]⟩])
  else none

/-- `module_argument_is_bad`. -/
def moduleArgumentIsBad (option value : Str) : Bool :=
  if option = "deny".toList then
    match parseNonNegativeInteger (.str value) with
    | none => true
    | some deny => deny = .fin 0 || params.deny.lt deny
  else if option = "unlock_time".toList then
    match parseNonNegativeInteger (.str value) with
    | none => true
    | some unlockTime => (Flt.fin 0).lt unlockTime && unlockTime.lt params.unlockTime
  else if option = "root_unlock_time".toList then
    match parseNonNegativeInteger (.str value) with
    | none => true
    | some rootUnlockTime => rootUnlockTime.lt params.rootUnlockTime
  else false

/-- The detail on an argument of an entry. -/
def argumentDetail (path option : Str) (entry : Pam.Entry) : Option Detail :=
  if entry.kind = "auth".toList ∧ entry.moduleName = "pam_faillock.so".toList then
    match parseOption entry.args option with
    | some value =>
      if moduleArgumentIsBad params option value then
        some ⟨path, "module_argument_invalid", [("option", .str option), ("value", .str value)]⟩
      else none
    | none => none
  else none

/-- `inspect_module_arguments`: the details; their number is the count. -/
def inspectModuleArguments (view : View) (option : Str) : List Detail :=
  let option := if option = "root_lockout".toList then "root_unlock_time".toList else option
  params.pamPaths.flatMap fun path =>
    match loadPamEntries view path with
    | none => [⟨path, "pam_file_unreadable", []⟩]
    | some entries => entries.filterMap (argumentDetail params path option)

/-- `inspect_setting`. -/
def inspectSetting (view : View) : Except Err (Except Str SettingReport) :=
  match params.option with
  | none => .ok (.error "Probe 'pam.inspect_faillock_setting' requires an 'option' parameter.")
  | some option => do
    match ← loadOrderedSettings view [params.config] with
    | .error err => return .ok {
        available := false
        compliant := false
        count := 1
        option := option
        configValue := none
        configCompliant := false
        moduleArgumentViolationCount := 0
        details := [⟨params.config, "config_unreadable", [("error", .str err)]⟩] }
    | .ok entries =>
      match settingFromConfig params option (orderedValues entries) with
      | none =>
        return (.error "Probe 'pam.inspect_faillock_setting' option must be one of: deny, unlock_time, root_lockout.")
      | some (configOk, configValue, details) =>
        let violations := inspectModuleArguments params view option
        let compliant := configOk && violations.length == 0
        return .ok {
          available := true
          compliant := compliant
          count := if compliant then 0 else (details ++ violations).length
          option := option
          configValue := configValue
          configCompliant := configOk
          moduleArgumentViolationCount := violations.length
          details := details ++ violations }

end Setting

/-! ## What the module goes by -/

/-- The value in an argument `name=value`. -/
def argValue (name arg : Str) : Option Str :=
  if name ++ ['='] <+: arg ∧ arg ≠ name ++ ['='] then some (arg.drop (name.length + 1)) else none

/-- The values that the arguments give to an option. -/
def argValues (args : List Str) (name : Str) : List Str := args.filterMap (argValue name)

/-- A file that is named by an argument, or the one that there is without. -/
def configOf (view : View) (dflt : Config) : Option Str → Option Config
  | some path => loadOptionalKeyValueFile view path
  | none => some dflt

/-- A time; `never` is zero. -/
def unlockNumber (value : Str) : Option Flt := if value = "never".toList then some (.fin 0) else strscan value

/-- A limit that locks. -/
def DenyWithin (greatest n : Flt) : Prop := (Flt.fin 1).le n = true ∧ n.le greatest = true

/-- A time that is long enough. -/
def UnlockWithin (least n : Flt) : Prop := n = .fin 0 ∨ least.le n = true

section Effective

variable (view : View) (params : Params) (dflt : Config) (entry : Pam.Entry)

/-- The configuration of an entry: the last `conf=` counts. -/
def effectiveConfig : Option Config := configOf view dflt (argValues entry.args "conf").getLast?

/-- The limit of an entry: the last argument counts, then the configuration, then the default. -/
def effectiveDeny : Option Flt :=
  match (argValues entry.args "deny").getLast? with
  | some value => strscan value
  | none => (effectiveConfig view dflt entry).bind fun config => ((config "deny").map strscan).getD (some params.deny)

/-- The time of an entry, in the same order. -/
def effectiveUnlockTime : Option Flt :=
  match (argValues entry.args "unlock_time").getLast? with
  | some value => unlockNumber value
  | none => (effectiveConfig view dflt entry).bind fun config =>
      ((config "unlock_time").map unlockNumber).getD (some params.unlockTime)

/-- The entry locks accounts out as it should. -/
structure Locks : Prop where
  deny : ∃ n, effectiveDeny view params dflt entry = some n ∧ DenyWithin params.deny n
  unlockTime : ∃ n, effectiveUnlockTime view params dflt entry = some n ∧ UnlockWithin params.unlockTime n

/-! ## What is looked at -/

/-- A number from 1 on. -/
def limit (value : Str) : Option Flt := (strscan value).filter fun n => !n.lt (.fin 1)

/-- A time that is not negative. -/
def time (value : Str) : Option Flt := (unlockNumber value).filter fun n => !n.lt (.fin 0)

/-- The configuration that is looked at: the first `conf=` counts. -/
def shownConfig : Option Config := configOf view dflt (argValues entry.args "conf").head?

/-- The limit that is looked at: the first argument if it is a number from 1 on, then the configuration if that is one,
then the default. -/
def shownDeny : Option Flt :=
  match (argValues entry.args "deny").head?.bind limit with
  | some n => some n
  | none => (shownConfig view dflt entry).map fun config => ((config "deny").bind limit).getD params.deny

/-- The time that is looked at: the first argument, then the configuration, then the default. -/
def shownUnlockTime : Option Flt :=
  match (argValues entry.args "unlock_time").head? with
  | some value => time value
  | none => (shownConfig view dflt entry).bind fun config =>
      ((config "unlock_time").map time).getD (some params.unlockTime)

/-- What is looked at is within the bounds. -/
structure Shown : Prop where
  deny : ∃ n, shownDeny view params dflt entry = some n ∧ DenyWithin params.deny n
  unlockTime : ∃ n, shownUnlockTime view params dflt entry = some n ∧ UnlockWithin params.unlockTime n

/-- An entry that is what it shows: the last arguments are within the bounds, as is the configuration for an option
without an argument, and the first arguments are what both probes take for valid. -/
structure Plain : Prop where
  lastDeny : ∀ value, (argValues entry.args "deny").getLast? = some value →
    ∃ n, strscan value = some n ∧ DenyWithin params.deny n
  fileDeny : argValues entry.args "deny" = [] → ∃ config, effectiveConfig view dflt entry = some config ∧
    ∀ value, config "deny" = some value → ∃ n, strscan value = some n ∧ DenyWithin params.deny n
  lastUnlockTime : ∀ value, (argValues entry.args "unlock_time").getLast? = some value →
    ∃ n, unlockNumber value = some n ∧ UnlockWithin params.unlockTime n
  fileUnlockTime : argValues entry.args "unlock_time" = [] → ∃ config, effectiveConfig view dflt entry = some config ∧
    (∀ value, config "unlock_time" = some value → ∃ n, unlockNumber value = some n ∧ UnlockWithin params.unlockTime n) ∧
    (config "unlock_time" = none → UnlockWithin params.unlockTime params.unlockTime)
  firstDeny : entry.kind = "auth".toList → ∀ value, (argValues entry.args "deny").head? = some value →
    ∃ n, strscan value = some n ∧ n ≠ .fin 0 ∧ n.lt (.fin 0) = false
  firstUnlockTime : entry.kind = "auth".toList → (argValues entry.args "unlock_time").head? ≠ some "never".toList

end Effective

/-! ## Options of arguments -/

theorem optionValue_eq {name : Str} (hname : ∀ x ∈ name, isMagic x = false) (arg : Str) :
    optionValue name arg = argValue name arg := by
  have hrest : compile "=(.+)$" = [.single (.lit '=') .one, .capOpen, .single .any .plus, .capClose, .atEnd] := rfl
  have hunq : Unquantified "=(.+)$" := by
    intro x hx
    obtain rfl : '=' = x := Option.some.inj hx
    decide
  have hitems : compile (name ++ "=(.+)$") = (spelling name).map (.single · .one) ++
      [.single (.lit '=') .one, .capOpen, .single .any .plus, .capClose, .atEnd] := by
    rw [← hrest, ← compile_escaped name hunq, escaped_plain hname]
  have hmatch := @strMatch_anchored _ ('^' :: (name ++ "=(.+)$")) _ rfl hitems (simple_spelling name rfl) arg
  have hpat : "^" ++ name ++ "=(.+)$" = '^' :: (name ++ "=(.+)$") := rfl
  unfold optionValue firstCapture argValue
  rw [hpat, hmatch, matchRest_spells (spells_spelling name)]
  by_cases hpre : name <+: arg
  · obtain ⟨rest, rfl⟩ := hpre
    rw [if_pos (List.prefix_append name rest), List.drop_left, ← List.drop_drop, List.drop_left]
    simp only [List.prefix_append_right_inj, ne_eq, List.append_cancel_left_eq]
    cases rest with
    | nil =>
      rw [if_neg (by simp)]
      rfl
    | cons x r =>
      rw [matchRest, Single.test]
      by_cases hx : x = '='
      · subst hx
        rw [if_pos (by rfl)]
        cases r with
        | nil =>
          rw [if_neg (by simp)]
          rfl
        | cons y r =>
          rw [matchRest_nonempty _ _ (List.cons_ne_nil y r), if_pos (by simp)]
          simp [texts, Seg.text]
      · rw [if_neg (by simpa using fun h : '=' = x => hx h.symm), if_neg fun h => ?_]
        · rfl
        · exact hx (List.cons_prefix_cons.mp h.1).1.symm
  · rw [if_neg hpre, if_neg fun h => hpre ((List.prefix_append name ['=']).trans h.1)]
    rfl

theorem parseOption_eq {name : Str} (hname : (name.all fun x => !isMagic x) = true) (args : List Str) :
    parseOption args name = (argValues args name).head? := by
  have hplain : ∀ x ∈ name, isMagic x = false := fun x hx => by simpa using List.all_eq_true.mp hname x hx
  rw [argValues, List.head?_filterMap, parseOption]
  congr 1
  funext arg
  exact optionValue_eq hplain arg

/-! ## Doubles -/

theorem lt_eq_false_of_le {a b : Flt} (h : a.le b = true) : b.lt a = false := by
  cases a with
  | nan => cases h
  | inf n =>
    cases b with
    | nan => cases n <;> cases h
    | inf m => cases n <;> cases m <;> first | rfl | cases h
    | fin q => cases n <;> first | rfl | cases h
  | fin p =>
    cases b with
    | nan => cases h
    | inf m => cases m <;> first | rfl | cases h
    | fin q => simpa [Flt.le, Flt.lt] using h

theorem lt_eq_false_of_lt_le {a b c : Flt} (hab : a.lt b = true) (hbc : b.le c = true) : c.lt a = false := by
  cases a with
  | nan => cases hab
  | inf n =>
    cases b with
    | nan => cases n <;> cases hab
    | inf m => cases c <;> cases n <;> cases m <;> simp_all [Flt.le, Flt.lt]
    | fin q => cases c <;> cases n <;> simp_all [Flt.le, Flt.lt]
  | fin p =>
    cases b with
    | nan => cases hab
    | inf m => cases c <;> cases m <;> simp_all [Flt.le, Flt.lt]
    | fin q =>
      cases c with
      | nan => cases hbc
      | inf k => cases k <;> simp_all [Flt.le, Flt.lt]
      | fin r =>
        simp only [Flt.le, Flt.lt, decide_eq_true_eq, decide_eq_false_iff_not, not_lt] at hab hbc ⊢
        exact hab.le.trans hbc

theorem le_of_le_le {a b c : Flt} (hab : a.le b = true) (hbc : b.le c = true) : a.le c = true := by
  cases a with
  | nan => cases hab
  | inf n =>
    cases b with
    | nan => cases n <;> cases hab
    | inf m => cases c <;> cases n <;> cases m <;> simp_all [Flt.le]
    | fin q => cases c <;> cases n <;> simp_all [Flt.le]
  | fin p =>
    cases b with
    | nan => cases hab
    | inf m => cases c <;> cases m <;> simp_all [Flt.le]
    | fin q =>
      cases c with
      | nan => cases hbc
      | inf k => cases k <;> simp_all [Flt.le]
      | fin r =>
        simp only [Flt.le, decide_eq_true_eq] at hab hbc ⊢
        exact hab.trans hbc

theorem le_self_of_le {a b : Flt} (h : a.le b = true) : b.le b = true := by
  cases b with
  | nan => cases a with
    | nan => cases h
    | inf n => cases n <;> cases h
    | fin q => cases h
  | inf n => cases n <;> rfl
  | fin q => exact decide_eq_true le_rfl

/-! ## What `inspect` looks at -/

theorem parsePositiveInteger_text (value : Option Str) :
    parsePositiveInteger (textValue value) = value.bind limit := by
  cases value with
  | none => rfl
  | some value =>
    unfold parsePositiveInteger limit
    rw [Option.bind_some, show tonumber (textValue (some value)) = strscan value from rfl]
    cases strscan value with
    | none => rfl
    | some n => by_cases hn : n.lt (.fin 1) = true <;> simp [Option.filter, hn]

theorem parseNonNegativeInteger_str {value : Str} (hvalue : value ≠ "never".toList) :
    parseNonNegativeInteger (.str value) = time value := by
  unfold parseNonNegativeInteger time unlockNumber
  rw [if_neg hvalue, show tonumber (.str value) = strscan value from rfl]
  cases strscan value with
  | none => rfl
  | some n => by_cases hn : n.lt (.fin 0) = true <;> simp [Option.filter, hn]

theorem strscan_never : strscan "never" = none := by decide +kernel

section Looked

variable (view : View) (params : Params) (dflt : Config) (entry : Pam.Entry)

theorem toOption_getFaillockConfig :
    (getFaillockConfig view dflt entry).toOption = shownConfig view dflt entry := by
  unfold getFaillockConfig shownConfig
  rw [parseOption_eq rfl]
  cases (argValues entry.args "conf").head? with
  | none => rfl
  | some path =>
    unfold configOf
    dsimp only
    cases loadOptionalKeyValueFile view path <;> rfl

theorem toOption_getFaillockDeny :
    (getFaillockDeny view params dflt entry).toOption = shownDeny view params dflt entry := by
  unfold getFaillockDeny shownDeny
  rw [parsePositiveInteger_text, parseOption_eq rfl, ← toOption_getFaillockConfig]
  cases (argValues entry.args "deny").head?.bind limit with
  | some n => rfl
  | none =>
    cases getFaillockConfig view dflt entry with
    | error err => rfl
    | ok config =>
      show some ((parsePositiveInteger (textValue (config "deny"))).getD params.deny) = _
      rw [parsePositiveInteger_text]
      rfl

theorem toOption_getFaillockUnlockTime :
    (getFaillockUnlockTime view params dflt entry).toOption = shownUnlockTime view params dflt entry := by
  unfold getFaillockUnlockTime shownUnlockTime
  rw [parseOption_eq rfl, ← toOption_getFaillockConfig]
  cases (argValues entry.args "unlock_time").head? with
  | some value =>
    by_cases hvalue : value = "never".toList
    · simp only [hvalue, if_true]
      rfl
    · simp only [if_neg hvalue, parseNonNegativeInteger_str hvalue]
      cases time value <;> rfl
  | none =>
    cases getFaillockConfig view dflt entry with
    | error err => rfl
    | ok config =>
      simp only [Except.toOption, Option.bind_some, Except.bind, bind]
      cases config "unlock_time" with
      | none => rfl
      | some value =>
        by_cases hvalue : value = "never".toList
        · simp only [hvalue, if_true]
          rfl
        · simp only [if_neg hvalue, parseNonNegativeInteger_str hvalue, Option.map_some, Option.getD_some]
          cases time value <;> rfl

theorem isFaillockDenyCompliant_iff (n : Flt) : isFaillockDenyCompliant params n = true ↔ DenyWithin params.deny n := by
  rw [isFaillockDenyCompliant, Bool.and_eq_true, DenyWithin]

theorem isFaillockUnlockTimeCompliant_iff (n : Flt) :
    isFaillockUnlockTimeCompliant params n = true ↔ UnlockWithin params.unlockTime n := by
  rw [isFaillockUnlockTimeCompliant, Bool.or_eq_true, decide_eq_true_eq, UnlockWithin]

/-- An entry is passed over iff what is looked at is within the bounds. -/
theorem entryReason_eq_none_iff : entryReason view params dflt entry = none ↔ Shown view params dflt entry := by
  have hdeny := toOption_getFaillockDeny view params dflt entry
  have hunlock := toOption_getFaillockUnlockTime view params dflt entry
  unfold entryReason
  cases hd : getFaillockDeny view params dflt entry with
  | error err =>
    rw [hd] at hdeny
    refine ⟨fun h => (by cases h), fun h => ?_⟩
    obtain ⟨n, hn, -⟩ := h.deny
    rw [← hdeny] at hn
    cases hn
  | ok deny =>
    cases hu : getFaillockUnlockTime view params dflt entry with
    | error err =>
      rw [hu] at hunlock
      refine ⟨fun h => (by cases h), fun h => ?_⟩
      obtain ⟨n, hn, -⟩ := h.unlockTime
      rw [← hunlock] at hn
      cases hn
    | ok unlockTime =>
      rw [hd] at hdeny
      rw [hu] at hunlock
      have hshown : Shown view params dflt entry ↔
          DenyWithin params.deny deny ∧ UnlockWithin params.unlockTime unlockTime := by
        constructor
        · rintro ⟨⟨n, hn, hdn⟩, m, hm, hum⟩
          rw [← hdeny] at hn
          rw [← hunlock] at hm
          obtain rfl := Option.some.inj hn
          obtain rfl := Option.some.inj hm
          exact ⟨hdn, hum⟩
        · rintro ⟨hdn, hum⟩
          exact ⟨⟨deny, hdeny.symm, hdn⟩, unlockTime, hunlock.symm, hum⟩
      rw [hshown, ← isFaillockDenyCompliant_iff, ← isFaillockUnlockTimeCompliant_iff]
      dsimp only
      cases hcd : isFaillockDenyCompliant params deny with
      | false => exact iff_of_false (Option.some_ne_none _) fun h => Bool.false_ne_true h.1
      | true =>
        cases hcu : isFaillockUnlockTimeCompliant params unlockTime with
        | false => exact iff_of_false (Option.some_ne_none _) fun h => Bool.false_ne_true h.2
        | true => exact iff_of_true rfl ⟨rfl, rfl⟩

end Looked

/-! ## The verdict -/

/-- `inspect` reports the path. -/
def Reported (view : View) (params : Params) (path : Str) : Prop :=
  ∃ details, inspect view params = .ok details ∧ ∃ detail ∈ details, detail.path = path

/-- The bounds of both probes are the same. -/
structure SameBounds (params : Params) (sp : SettingParams) : Prop where
  deny : sp.deny = params.deny
  unlockTime : sp.unlockTime = params.unlockTime

/-- `inspect_setting` calls an argument in the path invalid. -/
def CallsInvalid (view : View) (sp : SettingParams) (path : Str) : Prop :=
  ∃ report, inspectSetting sp view = .ok (.ok report) ∧
    ∃ detail ∈ report.details, detail.path = path ∧ detail.reason = "module_argument_invalid".toList

section Verdict

variable {view : View} {params : Params} {dflt : Config} {entry : Pam.Entry}

/-- The first limit of an entry that is passed over is valid for both probes iff it is a number and not zero. -/
theorem deny_isBad_iff (hshown : Shown view params dflt entry) {sp : SettingParams} (hsame : SameBounds params sp)
    {value : Str} (hvalue : (argValues entry.args "deny").head? = some value) :
    moduleArgumentIsBad sp "deny" value = false ↔ ∃ n, strscan value = some n ∧ n ≠ .fin 0 ∧ n.lt (.fin 0) = false := by
  obtain ⟨m, hm, hfirst, hgreatest⟩ := hshown.deny
  have hnot : ∀ n, strscan value = some n → params.deny.lt n = false := by
    intro n hn
    cases hlt : n.lt (.fin 1) with
    | true => exact lt_eq_false_of_lt_le hlt (le_of_le_le hfirst hgreatest)
    | false =>
      have hlimit : limit value = some n := by simp [limit, hn, hlt]
      unfold shownDeny at hm
      rw [hvalue, Option.bind_some, hlimit] at hm
      obtain rfl := Option.some.inj hm
      exact lt_eq_false_of_le hgreatest
  unfold moduleArgumentIsBad parseNonNegativeInteger
  rw [if_pos rfl, hsame.deny, show tonumber (.str value) = strscan value from rfl]
  cases hn : strscan value with
  | none => simp
  | some n => cases hneg : n.lt (.fin 0) <;> simp [hneg, hnot n hn]

/-- The first time of an entry that is passed over is valid for both probes iff it is not spelled `never`. -/
theorem unlockTime_isBad_iff (hshown : Shown view params dflt entry) {sp : SettingParams} (hsame : SameBounds params sp)
    {value : Str} (hvalue : (argValues entry.args "unlock_time").head? = some value) :
    moduleArgumentIsBad sp "unlock_time" value = false ↔ value ≠ "never".toList := by
  obtain ⟨m, hm, hwithin⟩ := hshown.unlockTime
  unfold shownUnlockTime at hm
  rw [hvalue] at hm
  have hm : time value = some m := hm
  unfold moduleArgumentIsBad
  rw [if_neg (by decide), if_pos rfl, hsame.unlockTime]
  by_cases hnever : value = "never".toList
  · subst hnever
    have hnone : parseNonNegativeInteger (.str "never".toList) = none := by
      rw [parseNonNegativeInteger, show tonumber (.str "never".toList) = strscan "never" from rfl, strscan_never]
    rw [hnone]
    simp
  · rw [parseNonNegativeInteger_str hnever, hm]
    refine iff_of_true ?_ hnever
    rcases hwithin with rfl | hle
    · simp [Flt.lt]
    · simp [lt_eq_false_of_le hle]

/-- Both probes take the first arguments of an entry for valid. -/
def FirstValid (params : Params) (entry : Pam.Entry) : Prop :=
  ∀ sp, SameBounds params sp → ∀ option ∈ ["deny".toList, "unlock_time".toList],
    ∀ value, (argValues entry.args option).head? = some value → moduleArgumentIsBad sp option value = false

/-- Parameters of `inspect_setting` with the bounds of `inspect`. -/
def settingOf (params : Params) (option path : Str) : SettingParams where
  option := some option
  configPath := some []
  pamPaths := [path]
  maxDeny := if (tonumber params.defaultDeny).isSome then params.defaultDeny else .num 3
  minUnlockTime := if (tonumber params.defaultUnlockTime).isSome then params.defaultUnlockTime else .num 600
  minRootUnlockTime := .nil

theorem sameBounds_settingOf (params : Params) (option path : Str) :
    SameBounds params (settingOf params option path) := by
  constructor
  · unfold settingOf SettingParams.deny Params.deny
    cases h : tonumber params.defaultDeny with
    | none => rfl
    | some n => simp [h]
  · unfold settingOf SettingParams.unlockTime Params.unlockTime
    cases h : tonumber params.defaultUnlockTime with
    | none => rfl
    | some n => simp [h]

/-- An entry that is passed over locks accounts out, and both probes agree on its arguments, iff it is plain. -/
theorem plain_iff (hshown : Shown view params dflt entry) : Plain view params dflt entry ↔
    Locks view params dflt entry ∧ (entry.kind = "auth".toList → FirstValid params entry) := by
  have hsame := sameBounds_settingOf params [] []
  obtain ⟨m, -, hfirst, hgreatest⟩ := hshown.deny
  have hdflt : DenyWithin params.deny params.deny := ⟨le_of_le_le hfirst hgreatest, le_self_of_le hgreatest⟩
  constructor
  · intro hplain
    refine ⟨⟨?_, ?_⟩, ?_⟩
    · unfold effectiveDeny
      cases hlast : (argValues entry.args "deny").getLast? with
      | some value => exact hplain.lastDeny value hlast
      | none =>
        obtain ⟨config, hconfig, hwithin⟩ := hplain.fileDeny (List.getLast?_eq_none_iff.mp hlast)
        rw [hconfig, Option.bind_some]
        cases hvalue : config "deny" with
        | none => exact ⟨params.deny, rfl, hdflt⟩
        | some value => exact hwithin value hvalue
    · unfold effectiveUnlockTime
      cases hlast : (argValues entry.args "unlock_time").getLast? with
      | some value => exact hplain.lastUnlockTime value hlast
      | none =>
        obtain ⟨config, hconfig, hwithin, hnone⟩ := hplain.fileUnlockTime (List.getLast?_eq_none_iff.mp hlast)
        rw [hconfig, Option.bind_some]
        cases hvalue : config "unlock_time" with
        | none => exact ⟨params.unlockTime, rfl, hnone hvalue⟩
        | some value => exact hwithin value hvalue
    · intro hkind sp hsp option hoption value hvalue
      rcases List.mem_cons.mp hoption with rfl | hoption
      · exact (deny_isBad_iff hshown hsp hvalue).mpr (hplain.firstDeny hkind value hvalue)
      · obtain rfl := List.mem_singleton.mp hoption
        refine (unlockTime_isBad_iff hshown hsp hvalue).mpr fun hnever => ?_
        exact hplain.firstUnlockTime hkind (hvalue.trans (congrArg some hnever))
  · rintro ⟨⟨⟨n, hn, hnin⟩, k, hk, hkin⟩, hvalid⟩
    unfold effectiveDeny at hn
    unfold effectiveUnlockTime at hk
    refine ⟨?_, ?_, ?_, ?_, ?_, ?_⟩
    · intro value hvalue
      rw [hvalue] at hn
      exact ⟨n, hn, hnin⟩
    · intro hnil
      rw [hnil] at hn
      obtain ⟨config, hconfig, hn⟩ := Option.bind_eq_some_iff.mp hn
      refine ⟨config, hconfig, fun value hvalue => ⟨n, ?_, hnin⟩⟩
      rw [hvalue] at hn
      exact hn
    · intro value hvalue
      rw [hvalue] at hk
      exact ⟨k, hk, hkin⟩
    · intro hnil
      rw [hnil] at hk
      obtain ⟨config, hconfig, hk⟩ := Option.bind_eq_some_iff.mp hk
      refine ⟨config, hconfig, fun value hvalue => ⟨k, ?_, hkin⟩, fun hnone => ?_⟩
      · rw [hvalue] at hk
        exact hk
      · rw [hnone] at hk
        obtain rfl := Option.some.inj hk
        exact hkin
    · intro hkind value hvalue
      exact (deny_isBad_iff hshown hsame hvalue).mp (hvalid hkind _ hsame _ (by simp) value hvalue)
    · intro hkind hnever
      exact (unlockTime_isBad_iff hshown hsame hnever).mp (hvalid hkind _ hsame _ (by simp) _ hnever) rfl

end Verdict

theorem pathReason_eq_none_iff (view : View) (params : Params) (dflt : Config) (entries : List Pam.Entry) :
    pathReason view params dflt entries = none ↔
      completeStack entries = true ∧ ∀ entry ∈ faillockEntries entries, Shown view params dflt entry := by
  unfold pathReason
  by_cases hnil : faillockEntries entries = []
  · rw [if_pos hnil, completeStack, hnil]
    exact iff_of_false (Option.some_ne_none _) fun h => Bool.false_ne_true h.1
  · rw [if_neg hnil]
    cases completeStack entries with
    | false => exact iff_of_false (Option.some_ne_none _) fun h => Bool.false_ne_true h.1
    | true =>
      rw [if_neg (by simp), List.findSome?_eq_none_iff]
      simp only [entryReason_eq_none_iff, true_and]

theorem pathDetail_eq_none_iff (view : View) (params : Params) (dflt : Config) (path : Str) :
    pathDetail view params dflt path = none ↔ ∃ entries, loadPamEntries view path = some entries ∧
      completeStack entries = true ∧ ∀ entry ∈ faillockEntries entries, Shown view params dflt entry := by
  unfold pathDetail
  cases loadPamEntries view path with
  | none => simp
  | some entries => simp [pathReason_eq_none_iff]

theorem path_of_pathDetail {view : View} {params : Params} {dflt : Config} {path : Str} {detail : Detail}
    (h : pathDetail view params dflt path = some detail) : detail.path = path := by
  unfold pathDetail at h
  cases hload : loadPamEntries view path with
  | none =>
    rw [hload] at h
    obtain rfl := Option.some.inj h
    rfl
  | some entries =>
    rw [hload] at h
    obtain ⟨reason, -, rfl⟩ := Option.map_eq_some_iff.mp h
    rfl

theorem reported_iff {view : View} {params : Params} {path : Str} (hpath : path ∈ params.pamPaths.getD []) :
    Reported view params path ↔ pathDetail view params (defaultConfig view params) path ≠ none := by
  unfold Reported inspect
  cases hpaths : params.pamPaths with
  | none =>
    rw [hpaths] at hpath
    cases hpath
  | some paths =>
    rw [hpaths] at hpath
    cases paths with
    | nil => cases hpath
    | cons p ps =>
      constructor
      · rintro ⟨details, hdetails, detail, hmem, rfl⟩ hnone
        obtain rfl := Except.ok.inj hdetails
        obtain ⟨q, -, hq⟩ := List.mem_filterMap.mp hmem
        obtain rfl := path_of_pathDetail hq
        rw [hnone] at hq
        cases hq
      · intro hsome
        obtain ⟨detail, hdetail⟩ := Option.ne_none_iff_exists'.mp hsome
        exact ⟨_, rfl, detail, List.mem_filterMap.mpr ⟨path, hpath, hdetail⟩, path_of_pathDetail hdetail⟩

/-- An argument of an entry of the path is bad. -/
def BadArgument (view : View) (sp : SettingParams) (path option : Str) : Prop :=
  ∃ entries, loadPamEntries view path = some entries ∧ ∃ entry ∈ faillockEntries entries, entry.kind = "auth".toList ∧
    ∃ value, (argValues entry.args option).head? = some value ∧ moduleArgumentIsBad sp option value = true

theorem argumentDetail_eq_some_iff {sp : SettingParams} {path option : Str}
    (hoption : (option.all fun x => !isMagic x) = true) {entry : Pam.Entry} {detail : Detail} :
    argumentDetail sp path option entry = some detail ↔
      (entry.kind = "auth".toList ∧ entry.moduleName = "pam_faillock.so".toList) ∧
      ∃ value, (argValues entry.args option).head? = some value ∧ moduleArgumentIsBad sp option value = true ∧
        ⟨path, "module_argument_invalid", [("option", .str option), ("value", .str value)]⟩ = detail := by
  unfold argumentDetail
  rw [parseOption_eq hoption]
  by_cases hauth : entry.kind = "auth".toList ∧ entry.moduleName = "pam_faillock.so".toList
  · rw [if_pos hauth]
    cases (argValues entry.args option).head? with
    | none => simp
    | some value => by_cases hbad : moduleArgumentIsBad sp option value = true <;> simp [hbad, hauth]
  · rw [if_neg hauth]
    exact iff_of_false (Option.some_ne_none _ ∘ Eq.symm) fun h => hauth h.1

/-- The options that both probes know. -/
def SharedOption (option : Str) : Prop := option = "deny".toList ∨ option = "unlock_time".toList

theorem SharedOption.plain {option : Str} (h : SharedOption option) : (option.all fun x => !isMagic x) = true := by
  rcases h with rfl | rfl <;> rfl

theorem SharedOption.argument {option : Str} (h : SharedOption option) :
    (if option = "root_lockout".toList then "root_unlock_time".toList else option) = option := by
  rcases h with rfl | rfl <;> rfl

/-- What a configuration file gives is never reported as an argument. -/
theorem reason_of_settingFromConfig {sp : SettingParams} {option : Str} (hoption : SharedOption option)
    (values : Str → Value) : ∃ ok value details, settingFromConfig sp option values = some (ok, value, details) ∧
      ∀ detail ∈ details, detail.reason ≠ "module_argument_invalid".toList := by
  have hone : ∀ detail reason : Str, ∀ extra, reason ≠ "module_argument_invalid".toList →
      ∀ d ∈ [Detail.mk detail reason extra], d.reason ≠ "module_argument_invalid".toList := by
    intro detail reason extra hreason d hd
    obtain rfl := List.mem_singleton.mp hd
    exact hreason
  unfold settingFromConfig
  rcases hoption with rfl | rfl
  · rw [if_pos rfl]
    cases parsePositiveInteger (values "deny") with
    | none => exact ⟨_, _, _, rfl, hone _ _ _ (by decide)⟩
    | some deny =>
      by_cases hle : deny.le sp.deny = true
      · exact ⟨_, _, _, if_pos hle, by simp⟩
      · exact ⟨_, _, _, if_neg hle, hone _ _ _ (by decide)⟩
  · rw [if_neg (by decide), if_pos rfl]
    cases parseNonNegativeInteger (values "unlock_time") with
    | none => exact ⟨_, _, _, rfl, hone _ _ _ (by decide)⟩
    | some unlockTime =>
      by_cases hle : (decide (unlockTime = .fin 0) || sp.unlockTime.le unlockTime) = true
      · exact ⟨_, _, _, if_pos hle, by simp⟩
      · exact ⟨_, _, _, if_neg hle, hone _ _ _ (by decide)⟩

theorem mem_inspectModuleArguments {sp : SettingParams} {view : View} {option path : Str}
    (hoption : SharedOption option) : (path ∈ sp.pamPaths ∧ BadArgument view sp path option) ↔
      ∃ detail ∈ inspectModuleArguments sp view option,
        detail.path = path ∧ detail.reason = "module_argument_invalid".toList := by
  unfold inspectModuleArguments
  rw [hoption.argument]
  constructor
  · rintro ⟨hpath, entries, hload, entry, hentry, hkind, value, hvalue, hbad⟩
    obtain ⟨hmem, hmodule⟩ := List.mem_filter.mp hentry
    refine ⟨⟨path, "module_argument_invalid", [("option", .str option), ("value", .str value)]⟩, ?_, rfl, rfl⟩
    refine List.mem_flatMap.mpr ⟨path, hpath, ?_⟩
    rw [hload]
    refine List.mem_filterMap.mpr ⟨entry, hmem, ?_⟩
    exact (argumentDetail_eq_some_iff hoption.plain).mpr ⟨⟨hkind, of_decide_eq_true hmodule⟩, value, hvalue, hbad, rfl⟩
  · rintro ⟨detail, hdetail, rfl, hreason⟩
    obtain ⟨q, hq, hdetail⟩ := List.mem_flatMap.mp hdetail
    cases hload : loadPamEntries view q with
    | none =>
      rw [hload] at hdetail
      obtain rfl := List.mem_singleton.mp hdetail
      exact absurd hreason (show "pam_file_unreadable".toList ≠ _ by decide)
    | some entries =>
      rw [hload] at hdetail
      obtain ⟨entry, hmem, hdetail⟩ := List.mem_filterMap.mp hdetail
      obtain ⟨⟨hkind, hmodule⟩, value, hvalue, hbad, rfl⟩ := (argumentDetail_eq_some_iff hoption.plain).mp hdetail
      refine ⟨hq, entries, hload, entry, List.mem_filter.mpr ⟨hmem, decide_eq_true hmodule⟩, hkind, value, hvalue, hbad⟩

/-- With a readable configuration file, the arguments are what is reported on arguments. -/
theorem inspectSetting_details {view : View} {sp : SettingParams} {option : Str} (hoption : SharedOption option)
    (hsp : sp.option = some option) {entries : List (Str × Str × Value)}
    (hload : loadOrderedSettings view [sp.config] = .ok (.ok entries)) :
    ∃ report, inspectSetting sp view = .ok (.ok report) ∧
      ∀ detail : Detail, detail.reason = "module_argument_invalid".toList →
        (detail ∈ report.details ↔ detail ∈ inspectModuleArguments sp view option) := by
  obtain ⟨ok, value, details, hsetting, hconfig⟩ := @reason_of_settingFromConfig sp _ hoption (orderedValues entries)
  unfold inspectSetting
  simp only [hsp, hload, hsetting, bind, Except.bind]
  refine ⟨_, rfl, fun detail hreason => ?_⟩
  rw [List.mem_append, or_iff_right fun hmem => hconfig detail hmem hreason]

/-- What `inspect_setting` calls invalid is a bad argument. -/
theorem badArgument_of_callsInvalid {view : View} {sp : SettingParams} {path option : Str}
    (hoption : SharedOption option) (hsp : sp.option = some option) (h : CallsInvalid view sp path) :
    BadArgument view sp path option := by
  obtain ⟨report, hreport, detail, hdetail, hpath, hreason⟩ := h
  cases hload : loadOrderedSettings view [sp.config] with
  | error err =>
    unfold inspectSetting at hreport
    simp only [hsp, hload, bind, Except.bind] at hreport
    cases hreport
  | ok loaded =>
    cases loaded with
    | error err =>
      unfold inspectSetting at hreport
      simp only [hsp, hload, bind, Except.bind] at hreport
      obtain rfl := Except.ok.inj (Except.ok.inj hreport)
      obtain rfl := List.mem_singleton.mp hdetail
      exact absurd hreason (show "config_unreadable".toList ≠ _ by decide)
    | ok entries =>
      obtain ⟨report', hreport', hiff⟩ := inspectSetting_details hoption hsp hload
      rw [hreport] at hreport'
      obtain rfl := Except.ok.inj (Except.ok.inj hreport')
      exact ((mem_inspectModuleArguments hoption).mpr ⟨detail, (hiff detail hreason).mp hdetail, hpath, hreason⟩).2

/-- A bad argument is called invalid with an empty configuration path. -/
theorem callsInvalid_settingOf {view : View} {params : Params} {path option : Str} (hoption : SharedOption option)
    (h : BadArgument view (settingOf params option path) path option) :
    CallsInvalid view (settingOf params option path) path := by
  obtain ⟨report, hreport, hiff⟩ :=
    @inspectSetting_details view (settingOf params option path) option hoption rfl [] rfl
  obtain ⟨detail, hdetail, hpath, hreason⟩ := (mem_inspectModuleArguments hoption).mp ⟨List.mem_singleton_self path, h⟩
  exact ⟨report, hreport, detail, (hiff detail hreason).mpr hdetail, hpath, hreason⟩

/-- Only the bounds matter for an argument. -/
theorem moduleArgumentIsBad_congr {params : Params} {sp sp' : SettingParams} (hsame : SameBounds params sp)
    (hsame' : SameBounds params sp') {option : Str} (hoption : SharedOption option) (value : Str) :
    moduleArgumentIsBad sp option value = moduleArgumentIsBad sp' option value := by
  unfold moduleArgumentIsBad
  rcases hoption with rfl | rfl
  · rw [if_pos rfl, if_pos rfl, hsame.deny, hsame'.deny]
  · rw [if_neg (by decide), if_pos rfl, if_neg (by decide), if_pos rfl, hsame.unlockTime, hsame'.unlockTime]

/-- Both probes agree that no argument of the path is bad iff the first arguments of its entries are valid. -/
theorem noBadArgument_iff {view : View} {params : Params} {path : Str} {entries : List Pam.Entry}
    (hload : loadPamEntries view path = some entries) :
    (∀ sp option, SameBounds params sp → SharedOption option → ¬BadArgument view sp path option) ↔
      ∀ entry ∈ faillockEntries entries, entry.kind = "auth".toList → FirstValid params entry := by
  constructor
  · intro hnone entry hentry hkind sp hsame option hoption value hvalue
    have hshared : SharedOption option := by simpa [SharedOption] using hoption
    by_contra hbad
    exact hnone sp option hsame hshared ⟨entries, hload, entry, hentry, hkind, value, hvalue, by simpa using hbad⟩
  · rintro hvalid sp option hsame hoption ⟨entries', hload', entry, hentry, hkind, value, hvalue, hbad⟩
    obtain rfl := Option.some.inj (hload.symm.trans hload')
    have hfirst := hvalid entry hentry hkind sp hsame option (by simpa [SharedOption] using hoption) value hvalue
    rw [hfirst] at hbad
    cases hbad

/-- **The verdict of `inspect`**: a path without a detail locks accounts out and none of its arguments is called invalid
by `inspect_setting`, iff every entry of a path without a detail is plain. -/
theorem faillock_sound_iff (view : View) (params : Params) :
    (∀ path ∈ params.pamPaths.getD [],
      (¬Reported view params path → ∀ entries, loadPamEntries view path = some entries →
        ∀ entry ∈ faillockEntries entries, Locks view params (defaultConfig view params) entry) ∧
      ∀ sp option, SameBounds params sp → SharedOption option → sp.option = some option →
        CallsInvalid view sp path → Reported view params path) ↔
      ∀ path ∈ params.pamPaths.getD [], ∀ entries, loadPamEntries view path = some entries →
        completeStack entries = true →
        (∀ entry ∈ faillockEntries entries, Shown view params (defaultConfig view params) entry) →
        ∀ entry ∈ faillockEntries entries, Plain view params (defaultConfig view params) entry := by
  refine forall₂_congr fun path hpath => ?_
  constructor
  · rintro ⟨hlocks, hcalls⟩ entries hload hcomplete hshown entry hentry
    have hclean : ¬Reported view params path := by
      rw [reported_iff hpath, not_not]
      exact (pathDetail_eq_none_iff view params _ path).mpr ⟨entries, hload, hcomplete, hshown⟩
    refine (plain_iff (hshown entry hentry)).mpr ⟨hlocks hclean entries hload entry hentry, ?_⟩
    refine (noBadArgument_iff hload).mp (fun sp option hsame hoption hbad => ?_) entry hentry
    refine hclean (hcalls _ option (sameBounds_settingOf params option path) hoption rfl ?_)
    obtain ⟨entries', hload', e, he, hkind, value, hvalue, hbad⟩ := hbad
    refine callsInvalid_settingOf hoption ⟨entries', hload', e, he, hkind, value, hvalue, ?_⟩
    rwa [moduleArgumentIsBad_congr (sameBounds_settingOf params option path) hsame hoption]
  · intro hplain
    have hentries : ¬Reported view params path → ∀ entries, loadPamEntries view path = some entries →
        ∀ entry ∈ faillockEntries entries, Shown view params (defaultConfig view params) entry ∧
          Plain view params (defaultConfig view params) entry := by
      intro hclean entries hload entry hentry
      rw [reported_iff hpath, not_not] at hclean
      obtain ⟨entries', hload', hcomplete, hshown⟩ := (pathDetail_eq_none_iff view params _ path).mp hclean
      obtain rfl := Option.some.inj (hload.symm.trans hload')
      exact ⟨hshown entry hentry, hplain entries hload hcomplete hshown entry hentry⟩
    constructor
    · intro hclean entries hload entry hentry
      obtain ⟨hshown, hp⟩ := hentries hclean entries hload entry hentry
      exact ((plain_iff hshown).mp hp).1
    · intro sp option hsame hoption hsp hcalls
      by_contra hclean
      have hbad := badArgument_of_callsInvalid hoption hsp hcalls
      have ⟨entries, hload, _⟩ := hbad
      refine (noBadArgument_iff hload).mpr (fun entry hentry => ?_) sp option hsame hoption hbad
      obtain ⟨hshown, hp⟩ := hentries hclean entries hload entry hentry
      exact ((plain_iff hshown).mp hp).2

/-- A stack with `deny=0`, which switches the lockout off. -/
def stackView : View where
  mode _ := none
  names _ := .ok []
  lines path := if path = "/etc/pam.d/system-auth".toList then .ok [
    "auth required pam_faillock.so preauth deny=0 unlock_time=900",
    "auth [default=die] pam_faillock.so authfail deny=0 unlock_time=900"] else .error "no such file"

/-- Parameters without bounds of their own. -/
def stackParams : Params where
  pamPaths := some ["/etc/pam.d/system-auth"]
  configPath := none
  defaultDeny := .nil
  defaultUnlockTime := .nil

/-- The entry of `preauth`. -/
def preauthEntry : Pam.Entry where
  kind := "auth"
  control := "required"
  moduleName := "pam_faillock.so"
  args := ["preauth", "deny=0", "unlock_time=900"]

/-- The entry of `authfail`. -/
def authfailEntry : Pam.Entry where
  kind := "auth"
  control := "[default=die]"
  moduleName := "pam_faillock.so"
  args := ["authfail", "deny=0", "unlock_time=900"]

/-- With `deny=0` nothing is reported, although nothing is locked and `inspect_setting` calls the argument invalid. -/
theorem faillock_deny_zero :
    ¬Reported stackView stackParams "/etc/pam.d/system-auth" ∧
      loadPamEntries stackView "/etc/pam.d/system-auth" = some [preauthEntry, authfailEntry] ∧
      ¬Locks stackView stackParams (defaultConfig stackView stackParams) preauthEntry ∧
      SameBounds stackParams (settingOf stackParams "deny" "/etc/pam.d/system-auth") ∧
      CallsInvalid stackView (settingOf stackParams "deny" "/etc/pam.d/system-auth") "/etc/pam.d/system-auth" := by
  have hload : loadPamEntries stackView "/etc/pam.d/system-auth" = some [preauthEntry, authfailEntry] := by
    decide +kernel
  have hreason : pathReason stackView stackParams (defaultConfig stackView stackParams)
      [preauthEntry, authfailEntry] = none := by decide +kernel
  have hdeny : effectiveDeny stackView stackParams (defaultConfig stackView stackParams) preauthEntry =
      some (.fin 0) := by decide +kernel
  refine ⟨?_, hload, ?_, sameBounds_settingOf _ _ _, callsInvalid_settingOf (.inl rfl) ?_⟩
  · rw [reported_iff (List.mem_singleton_self _), not_not, pathDetail, hload]
    exact Option.map_eq_none_iff.mpr hreason
  · rintro ⟨⟨n, hn, hfirst, -⟩, -⟩
    rw [hdeny] at hn
    obtain rfl := Option.some.inj hn
    revert hfirst
    decide +kernel
  · exact ⟨_, hload, preauthEntry, by decide +kernel, rfl, "0", by decide +kernel, by decide +kernel⟩

end Faillock
end Seharden
