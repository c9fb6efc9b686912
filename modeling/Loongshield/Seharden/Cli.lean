import Loongshield.Lua.Escape
import Loongshield.Seharden.Engine
import Loongshield.Seharden.Profile
import Loongshield.Seharden.Trim

/-!
# `seharden/cli.lua`

With `--format json` a run prints a report, on every path to its end, and returns an exit code. A printed line is the
JSON object with its fields; what `cjson` can encode is up to `encodable`. In text mode only the usage is modelled, and
the log is left out.

- `parseArgs`, `prepare`, `run`: the code;
- `Tells`: a report says what the run returned, and what the engine counted;
- `json_report_iff`: when a run prints such a report and nothing else.
-/

namespace Seharden

open Lua Pattern

namespace Cli

/-! ## Arguments -/

/-- The options. -/
structure Options where
  config : Option Str
  level : Option Str
  logLevel : Option Str
  format : Option Str
  scan : Bool
  reinforce : Bool
  help : Bool
  dryRun : Bool
  verbose : Bool

def Options.none : Options := ⟨.none, .none, .none, .none, false, false, false, false, false⟩

/-- `opts[key] = value`, for the options with a value. -/
def Options.set (opts : Options) (key value : Str) : Options :=
  if key = "config" then { opts with config := some value }
  else if key = "level" then { opts with level := some value }
  else if key = "log-level" then { opts with logLevel := some value }
  else if key = "format" then { opts with format := some value }
  else opts

/-- An option without a value, if it is one. -/
def Options.flag (opts : Options) (arg : Str) : Option Options :=
  if arg = "--scan" then some { opts with scan := true }
  else if arg = "--reinforce" then some { opts with reinforce := true }
  else if arg = "--help" then some { opts with help := true }
  else if arg = "--dry-run" then some { opts with dryRun := true }
  else if arg = "--verbose" then some { opts with verbose := true }
  else if arg = "-h" then some { opts with help := true }
  else .none

/-- The keys of the options with a value. -/
def valueKeys : List Str := ["config".toList, "level".toList, "log-level".toList, "format".toList]

/-- `--key=value`, for one of these keys. -/
def inlineOption (arg : Str) : Option (Str × Str) :=
  match matchCaptures arg "^%-%-([%w%-]+)=(.+)$" with
  | some [key, value] => if key ∈ valueKeys then some (key, value) else .none
  | _ => .none

/-- The loop of `parse_args`; the option that waits for its value, if one does. -/
def parseLoop : Option Str → List Str → Options → Except Str Options
  | .none, [], opts => .ok opts
  | some arg, [], _ => .error ("Option '" ++ arg ++ "' requires a value.")
  | some arg, value :: argv, opts => parseLoop .none argv (opts.set (arg.drop 2) value)
  | .none, arg :: argv, opts =>
    match inlineOption arg with
    | some (key, value) => parseLoop .none argv (opts.set key value)
    | .none =>
      if arg = "--config" ∨ arg = "--log-level" ∨ arg = "--level" ∨ arg = "--format" then parseLoop (some arg) argv opts
      else match opts.flag arg with
        | some opts => parseLoop .none argv opts
        | .none => .error ("Unknown option: " ++ arg)

/-- `parse_args`. -/
def parseArgs (argv : List Str) : Except Str Options := parseLoop .none argv .none

/-- `requested_json_format`. -/
def requestedJsonFormat : List Str → Bool
  | [] => false
  | arg :: argv => (arg = "--format" && argv.head? = some "json".toList) ||
    firstCapture arg "^%-%-format=(.+)$" = some "json".toList || requestedJsonFormat argv

/-! ## Reports -/

/-- The `request` of a report. -/
structure Request where
  mode : Str
  config : Value
  profile : Value
  level : Value
  requestedLevel : Value
  dryRun : Value

/-- What a field of a report holds. -/
inductive Json
  | null
  | value (v : Value)
  | request (request : Request)
  | rules (items : List Item)
  | summary (summary : Summary)
  | entries (entries : List Value)
  | names (names : List Str)

/-- What is printed. -/
inductive Line
  | usage
  | report (fields : List (Str × Json))

/-- The table that `print_json_report` gets. -/
structure Fields where
  exitCode : Nat
  mode : Str
  config : Value
  profile : Value
  level : Value
  requestedLevel : Value
  dryRun : Value
  rules : List Item
  summary : Option Summary
  manualReview : List Value
  availableLevels : Option (List Str)
  error : Option Str

/-- A table with nothing but an exit code and an error. -/
def Fields.ofError (error : Str) : Fields :=
  ⟨1, "scan", .nil, .nil, .nil, .nil, .nil, [], .none, [], .none, some error⟩

/-- `json_nullable`. -/
def jsonNullable (v : Value) : Json := if v.isNil then .null else .value v

/-- `v or default`. -/
def orElse (v default : Value) : Value := if v.truthy then v else default

/-- `report_status`. -/
def reportStatus (exitCode : Nat) : Str := if exitCode = 0 then "passed" else "failed"

/-- `normalize_summary`. -/
def normalizeSummary (summary : Option Summary) (total : Nat) : Summary := summary.getD ⟨0, 0, 0, 0, 0, total⟩

/-- `build_json_envelope`, in the order of `build_json_report`. -/
def buildJsonEnvelope (fields : Fields) : List (Str × Json) :=
  let level := orElse fields.level (.str "all")
  let config := orElse fields.config fields.profile
  let dryRun := orElse fields.dryRun (.bool false)
  [("schema_version".toList, .value (.num 1)), ("format".toList, .value (.str "json")),
    ("tool".toList, .value (.str "loongshield")), ("command".toList, .value (.str "seharden")),
    ("status".toList, .value (.str (reportStatus fields.exitCode))), ("mode".toList, .value (.str fields.mode)),
    ("profile".toList, jsonNullable fields.profile), ("level".toList, .value level), ("dry_run".toList, .value dryRun),
    ("request".toList, .request ⟨fields.mode, config, fields.profile, level, fields.requestedLevel, dryRun⟩),
    ("rules".toList, .rules fields.rules), ("rule_count".toList, .value (.num (fields.rules.length : Nat))),
    ("summary".toList, .summary (normalizeSummary fields.summary fields.rules.length)),
    ("manual_review".toList, .entries fields.manualReview),
    ("manual_review_count".toList, .value (.num (fields.manualReview.length : Nat))),
    ("available_levels".toList, fields.availableLevels.elim .null .names),
    ("exit_code".toList, .value (.num (fields.exitCode : Nat))),
    ("error".toList, fields.error.elim .null fun error => .value (.str error))]

/-- The object that is printed when a report cannot be encoded. -/
def fallbackReport : List (Str × Json) :=
  [("schema_version".toList, .value (.num 1)), ("format".toList, .value (.str "json")),
    ("tool".toList, .value (.str "loongshield")), ("command".toList, .value (.str "seharden")),
    ("status".toList, .value (.str "failed")), ("mode".toList, .value (.str "scan")), ("profile".toList, .null),
    ("level".toList, .value (.str "all")), ("dry_run".toList, .value (.bool false)),
    ("request".toList, .request ⟨"scan", .nil, .nil, .str "all", .nil, .bool false⟩), ("rules".toList, .rules []),
    ("rule_count".toList, .value (.num 0)), ("summary".toList, .summary ⟨0, 0, 0, 0, 0, 0⟩),
    ("manual_review".toList, .entries []), ("manual_review_count".toList, .value (.num 0)),
    ("available_levels".toList, .null), ("exit_code".toList, .value (.num 1)),
    ("error".toList, .value (.str "failed to encode JSON report"))]

section Printing

variable (encodable : Json → Bool)

/-- A field is encoded; an empty list is written without `cjson`. -/
def encodes : Json → Bool
  | .rules [] => true
  | .entries [] => true
  | .names [] => true
  | value => encodable value

/-- `build_json_report`. -/
def buildJsonReport (fields : List (Str × Json)) : Except Str (List (Str × Json)) :=
  match fields.find? fun field => !encodes encodable field.2 with
  | some field => .error ("failed to encode JSON field '" ++ field.1 ++ "'")
  | .none => .ok fields

/-- `print_json_report`. -/
def printJsonReport (fields : Fields) : Line :=
  match buildJsonReport encodable (buildJsonEnvelope fields) with
  | .ok encoded => .report encoded
  | .error _ => .report fallbackReport

/-- `emit_error`. -/
def emitError (jsonOutput : Bool) (message : Str) (argv : List Str) : Nat × List Line :=
  if jsonOutput || requestedJsonFormat argv then (1, [printJsonReport encodable (.ofError message)]) else (1, [.usage])

end Printing

/-! ## The run -/

/-- What a run depends on. -/
structure Env (σ : Type) where
  rulesBasePath : Str
  readFileContent : Str → Except Str Str
  lyamlLoad : Str → Except Err Value
  host : Host σ
  world : World σ
  encodable : Json → Bool

/-- What is handed to the engine, and what the report says besides. -/
structure Plan where
  jsonOutput : Bool
  mode : Str
  config : Str
  profile : Value
  level : Value
  requestedLevel : Value
  manualReview : List Value
  rules : List Value
  opts : Opts

/-- The part of `run` before the engine: it has ended, or the engine runs. -/
inductive Stage
  | done (exitCode : Nat) (printed : List Line)
  | engine (plan : Plan)

/-- What a run leaves. -/
structure Outcome (σ : Type) where
  result : Except Err Nat
  printed : List Line
  world : World σ

section Run

variable {σ : Type} (env : Env σ)

/-- `profile.load`. -/
def load (config : Str) : Option Value :=
  if config = [] then .none
  else
    let name := if isMatch config "%.yml$" || isMatch config "%.yaml$" then config else config ++ ".yml"
    let path := if isMatch config "/" then config else env.rulesBasePath ++ "/" ++ name
    match env.readFileContent path with
    | .error _ => .none
    | .ok content => match env.lyamlLoad content with
      | .error _ => .none
      | .ok profile => if !profile.isTable then .none
        else match validate profile with
          | .error _ => .none
          | .ok _ => some profile

/-- `resolve_target_level`. -/
def resolveTargetLevel (profile requested : Value) : Except Str Value :=
  match validate profile with
  | .error err => .error err
  | .ok _ => .ok (if requested.isNil then profile.field "default_level" else requested)

/-- The identifiers of the levels, as `get_level_ids` sorts them. -/
def getLevelIds (profile : Value) : List Str :=
  sortStrs ((profile.field "levels").ipairs.filterMap fun level =>
    if isNonEmptyString (level.field "id") then strOf (level.field "id") else .none)

/-- The part of `run` behind the checks of the options. -/
def prepareProfile (jsonOutput : Bool) (opts : Options) : Stage :=
  let mode : Str := if opts.reinforce then "reinforce" else "scan"
  let config := opts.config.getD "cis_alinux_3"
  let target := opts.level.elim .nil Value.str
  let dryRun := Value.bool opts.dryRun
  let failed (fields : Fields) : Stage := .done 1 (if jsonOutput then [printJsonReport env.encodable fields] else [])
  match load env config with
  | .none => failed ⟨1, mode, .str config, .str config, orElse target (.str "all"), target, dryRun, [], .none, [],
      .none,
      some ("Failed to load profile '" ++ config ++ "'.")⟩
  | some profile =>
    let id := orElse (profile.field "id") (.str config)
    match resolveTargetLevel profile target with
    | .error err => failed ⟨1, mode, .str config, id, orElse target (.str "all"), target, dryRun, [], .none, [], .none,
        some err⟩
    | .ok level =>
      let effective := orElse level (.str "all")
      match getRulesForLevel profile level with
      | .error err => failed ⟨1, mode, .str config, id, effective, target, dryRun, [], .none, [],
          some (getLevelIds profile), some (err.getD ("No rules available for level '" ++ effective.tostring ++ "'."))⟩
      | .ok rules =>
        let items := (getManualReviewItemsForLevel profile level).toOption.getD []
        .engine ⟨jsonOutput, mode, config, id, effective, target, if mode = "scan" then items else [], rules,
          ⟨dryRun, .bool jsonOutput, .bool opts.verbose⟩⟩

/-- The part of `run` before the engine. -/
def prepare (argv : List Str) : Stage :=
  match parseArgs argv with
  | .error err => let (exitCode, printed) := emitError env.encodable false err argv
    .done exitCode printed
  | .ok opts =>
    if opts.help then .done 0 [.usage]
    else
      let format := opts.format.getD "text"
      if format ≠ "text" ∧ format ≠ "json" then
        let (exitCode, printed) := emitError env.encodable false
          ("Unsupported output format '" ++ format ++ "'. Expected 'text' or 'json'.") argv
        .done exitCode printed
      else
        let jsonOutput := decide (format = "json")
        if opts.scan && opts.reinforce then
          let (exitCode, printed) := emitError env.encodable jsonOutput
            "Options --scan and --reinforce are mutually exclusive." argv
          .done exitCode printed
        else prepareProfile env jsonOutput opts

/-- The report of the engine with the fields that `run` adds. -/
def fieldsOf (plan : Plan) (report : Report) : Fields :=
  ⟨report.exitCode, report.mode, .str plan.config, plan.profile, plan.level, plan.requestedLevel, report.dryRun,
    report.rules, some report.summary, plan.manualReview, .none, .none⟩

/-- `run`. An error of the engine goes through. -/
def run (argv : List Str) : Outcome σ :=
  match prepare env argv with
  | .done exitCode printed => ⟨.ok exitCode, printed, env.world⟩
  | .engine plan => match Seharden.run env.host plan.mode plan.rules plan.opts env.world with
    | (.error err, world) => ⟨.error err, [], world⟩
    | (.ok report, world) => ⟨.ok report.exitCode,
        if plan.jsonOutput then [printJsonReport env.encodable (fieldsOf plan report)] else [], world⟩

end Run

/-! ## What is asked -/

/-- The arguments name the JSON format. -/
def MentionsJson (argv : List Str) : Prop :=
  ["--format".toList, "json".toList] <:+: argv ∨ "--format=json".toList ∈ argv

/-- The arguments select JSON output and ask for no help: the last format is JSON, or the arguments are in error and
name it. -/
def SelectsJson (argv : List Str) : Prop :=
  (∃ opts, parseArgs argv = .ok opts ∧ opts.help = false ∧ opts.format = some "json".toList) ∨
    (∃ opts format, parseArgs argv = .ok opts ∧ opts.help = false ∧ opts.format = some format ∧
      format ≠ "text" ∧ format ≠ "json" ∧ MentionsJson argv) ∨
    ∃ err, parseArgs argv = .error err ∧ MentionsJson argv

/-- The fields of every report. -/
def fieldNames : List Str :=
  ["schema_version".toList, "format".toList, "tool".toList, "command".toList, "status".toList, "mode".toList,
    "profile".toList, "level".toList, "dry_run".toList, "request".toList, "rules".toList, "rule_count".toList,
    "summary".toList, "manual_review".toList, "manual_review_count".toList, "available_levels".toList,
    "exit_code".toList, "error".toList]

/-- A report has the fixed fields, the exit code that was returned and the status that goes with it, the number of the
rules that it lists, and the counters of the engine if it ran. -/
structure Tells (returned : Nat) (report : Option Report) (fields : List (Str × Json)) : Prop where
  names : fields.map Prod.fst = fieldNames
  exitCode : fields.lookup "exit_code".toList = some (.value (.num (returned : Nat)))
  status : fields.lookup "status".toList = some (.value (.str (if returned = 0 then "passed" else "failed")))
  rules : ∃ items, fields.lookup "rules".toList = some (.rules items) ∧
    fields.lookup "rule_count".toList = some (.value (.num (items.length : Nat)))
  summary : ∀ r, report = some r → fields.lookup "summary".toList = some (.summary r.summary)

section Story

variable {σ : Type} (env : Env σ) (argv : List Str)

/-- The report of the engine, if it ran and returned. -/
def engineReport : Option Report :=
  match prepare env argv with
  | .done _ _ => .none
  | .engine plan => (Seharden.run env.host plan.mode plan.rules plan.opts env.world).1.toOption

/-- The run returns, having printed one line, a report that tells what it returned. -/
def TellsSame : Prop :=
  ∃ exitCode fields, (run env argv).result = .ok exitCode ∧ (run env argv).printed = [.report fields] ∧
    Tells exitCode (engineReport env argv) fields

/-- If the engine is reached it returns, and every field of its report can be encoded. -/
def EngineSpeaks : Prop :=
  ∀ plan, prepare env argv = .engine plan → ∃ report,
    (Seharden.run env.host plan.mode plan.rules plan.opts env.world).1 = .ok report ∧
      ∀ field ∈ buildJsonEnvelope (fieldsOf plan report), encodes env.encodable field.2 = true

end Story

/-! ## The format -/

theorem compile_format : compile "%-%-format=(.+)$" = (spelling "--format=").map (.single · .one) ++
    [.capOpen, .single .any .plus, .capClose, .atEnd] := rfl

theorem firstCapture_format (arg : Str) : firstCapture arg "^%-%-format=(.+)$" = some "json".toList ↔
    arg = "--format=json" := by
  have hmatch : strMatch arg "^%-%-format=(.+)$" = _ := strMatch_anchored rfl compile_format rfl arg
  unfold firstCapture
  rw [hmatch, matchRest_spells (spells_spelling _)]
  by_cases hpre : "--format=".toList <+: arg
  · obtain ⟨r, rfl⟩ := hpre
    rw [if_pos (List.prefix_append _ r), List.drop_left]
    cases r with
    | nil => exact iff_of_false (fun h => by cases h) fun h => by cases h
    | cons c r =>
      rw [matchRest_nonempty _ _ (List.cons_ne_nil c r)]
      have htext : texts ("--format=".toList ++ c :: r) [] ([] ++ [⟨c :: r, some (c :: r).length⟩]) = [c :: r] := by
        simp [texts, Seg.text]
      simp only [Option.map_some, htext, List.map_cons, List.map_nil]
      constructor
      · intro h
        rw [Option.some.inj h]
        rfl
      · intro h
        exact congrArg some (List.append_cancel_left (show "--format=".toList ++ (c :: r) =
          "--format=".toList ++ "json".toList from h))
  · rw [if_neg hpre]
    refine iff_of_false (fun h => by cases h) ?_
    rintro rfl
    exact hpre ⟨"json".toList, rfl⟩

theorem requestedJsonFormat_iff (argv : List Str) : requestedJsonFormat argv = true ↔ MentionsJson argv := by
  induction argv with
  | nil =>
    refine iff_of_false Bool.false_ne_true ?_
    rintro (h | h)
    · cases List.eq_nil_of_infix_nil h
    · cases h
  | cons arg argv ih =>
    rw [requestedJsonFormat, Bool.or_eq_true, Bool.or_eq_true, ih]
    unfold MentionsJson
    rw [List.infix_cons_iff, List.cons_prefix_cons, List.mem_cons, decide_eq_true_iff, firstCapture_format]
    have hhead : ["json".toList] <+: argv ↔ argv.head? = some "json".toList := by
      cases argv with
      | nil => exact iff_of_false (fun h => by cases List.eq_nil_of_prefix_nil h) fun h => by cases h
      | cons x argv =>
        rw [List.cons_prefix_cons, List.head?_cons, Option.some.injEq]
        exact ⟨fun h => h.1.symm, fun h => ⟨h.symm, List.nil_prefix⟩⟩
    rw [hhead, Bool.and_eq_true, decide_eq_true_iff, decide_eq_true_iff, @eq_comm _ "--format".toList arg,
      @eq_comm _ "--format=json".toList arg]
    tauto

/-! ## What is printed -/

theorem fallbackReport_eq : fallbackReport = buildJsonEnvelope (.ofError "failed to encode JSON report") := rfl

theorem buildJsonReport_of_encodes {encodable : Json → Bool} {fields : List (Str × Json)}
    (h : ∀ field ∈ fields, encodes encodable field.2 = true) : buildJsonReport encodable fields = .ok fields := by
  have hfind : fields.find? (fun field => !encodes encodable field.2) = .none := by
    rw [List.find?_eq_none]
    intro field hfield
    rw [h field hfield]
    decide
  unfold buildJsonReport
  rw [hfind]

theorem buildJsonReport_cases (encodable : Json → Bool) (fields : List (Str × Json)) :
    (∀ field ∈ fields, encodes encodable field.2 = true) ∧ buildJsonReport encodable fields = .ok fields ∨
      (¬∀ field ∈ fields, encodes encodable field.2 = true) ∧ ∃ err, buildJsonReport encodable fields = .error err := by
  by_cases h : ∀ field ∈ fields, encodes encodable field.2 = true
  · exact .inl ⟨h, buildJsonReport_of_encodes h⟩
  · refine .inr ⟨h, ?_⟩
    unfold buildJsonReport
    cases hfind : fields.find? (fun field => !encodes encodable field.2) with
    | none =>
      rw [List.find?_eq_none] at hfind
      exact absurd (fun field hfield => by simpa using hfind field hfield) h
    | some field => exact ⟨_, rfl⟩

theorem tells_envelope (fields : Fields) (report : Option Report)
    (h : ∀ r, report = some r → fields.summary = some r.summary) :
    Tells fields.exitCode report (buildJsonEnvelope fields) := by
  refine ⟨rfl, rfl, rfl, ⟨fields.rules, rfl, rfl⟩, fun r hr => ?_⟩
  have hsummary : (buildJsonEnvelope fields).lookup "summary".toList =
      some (.summary (normalizeSummary fields.summary fields.rules.length)) := rfl
  rw [hsummary, h r hr]
  rfl

/-- A report of an error tells that it failed, also when it cannot be encoded. -/
theorem tells_error {encodable : Json → Bool} {fields : Fields} (hcode : fields.exitCode = 1) :
    ∃ printed, printJsonReport encodable fields = .report printed ∧ Tells 1 .none printed := by
  unfold printJsonReport
  rcases buildJsonReport_cases encodable (buildJsonEnvelope fields) with ⟨-, hok⟩ | ⟨-, err, herr⟩
  · rw [hok]
    exact ⟨_, rfl, hcode ▸ tells_envelope fields .none fun r hr => by cases hr⟩
  · rw [herr]
    exact ⟨_, rfl, fallbackReport_eq ▸ tells_envelope (.ofError "failed to encode JSON report") .none fun r hr => by
      cases hr⟩

/-! ## The stages -/

section Stages

variable {σ : Type} {env : Env σ} {argv : List Str}

/-- Where a run with JSON output is when the engine is not reached, and when it is. -/
def Stage.Speaks (encodable : Json → Bool) : Stage → Prop
  | .done exitCode printed => exitCode = 1 ∧ ∃ fields : Fields, fields.exitCode = 1 ∧
      printed = [printJsonReport encodable fields]
  | .engine plan => plan.jsonOutput = true

theorem emitError_json {encodable : Json → Bool} {jsonOutput : Bool} {message : Str}
    (h : jsonOutput = true ∨ MentionsJson argv) :
    emitError encodable jsonOutput message argv = (1, [printJsonReport encodable (.ofError message)]) := by
  unfold emitError
  rw [if_pos]
  rw [Bool.or_eq_true, requestedJsonFormat_iff]
  exact h

theorem prepareProfile_speaks (env : Env σ) (opts : Options) : (prepareProfile env true opts).Speaks env.encodable := by
  unfold prepareProfile
  dsimp only
  split
  · exact ⟨rfl, _, rfl, rfl⟩
  · split
    · exact ⟨rfl, _, rfl, rfl⟩
    · split
      · exact ⟨rfl, _, rfl, rfl⟩
      · exact rfl

theorem prepare_speaks (env : Env σ) (h : SelectsJson argv) : (prepare env argv).Speaks env.encodable := by
  have herror : ∀ {jsonOutput : Bool} {message : Str}, jsonOutput = true ∨ MentionsJson argv →
      (Stage.done (emitError env.encodable jsonOutput message argv).1
        (emitError env.encodable jsonOutput message argv).2).Speaks env.encodable := by
    intro jsonOutput message hjson
    rw [emitError_json hjson]
    exact ⟨rfl, _, rfl, rfl⟩
  unfold prepare
  rcases h with ⟨opts, hargs, hhelp, hformat⟩ | ⟨opts, format, hargs, hhelp, hformat, htext, hjson, hmention⟩ |
    ⟨err, hargs, hmention⟩
  · rw [hargs]
    dsimp only
    rw [hhelp, hformat, if_neg Bool.false_ne_true, Option.getD_some, if_neg fun h => h.2 rfl]
    split
    · exact herror (.inl rfl)
    · exact prepareProfile_speaks env opts
  · rw [hargs]
    dsimp only
    rw [hhelp, hformat, if_neg Bool.false_ne_true, Option.getD_some, if_pos ⟨htext, hjson⟩]
    exact herror (.inr hmention)
  · rw [hargs]
    exact herror (.inr hmention)

/-- The exit code of the engine is 0 if nothing failed and nothing is pending. -/
theorem run_exitCode {h : Host σ} {mode : Str} {rules : List Value} {opts : Opts} {w : World σ} {report : Report}
    (hrun : (Seharden.run h mode rules opts w).1 = .ok report) :
    report.exitCode = if report.summary.failed = 0 ∧ report.summary.dryRunPending = 0 then 0 else 1 := by
  unfold Seharden.run at hrun
  split at hrun
  · cases hrun
  · cases hrun
    rfl

theorem run_done {exitCode : Nat} {printed : List Line} (hstage : prepare env argv = .done exitCode printed) :
    run env argv = ⟨.ok exitCode, printed, env.world⟩ := by
  unfold run
  rw [hstage]

theorem run_error {plan : Plan} {err : Err} {world : World σ} (hstage : prepare env argv = .engine plan)
    (hrun : Seharden.run env.host plan.mode plan.rules plan.opts env.world = (.error err, world)) :
    run env argv = ⟨.error err, [], world⟩ := by
  unfold run
  rw [hstage]
  dsimp only
  rw [hrun]

theorem run_ok {plan : Plan} {report : Report} {world : World σ} (hstage : prepare env argv = .engine plan)
    (hjson : plan.jsonOutput = true)
    (hrun : Seharden.run env.host plan.mode plan.rules plan.opts env.world = (.ok report, world)) :
    run env argv = ⟨.ok report.exitCode, [printJsonReport env.encodable (fieldsOf plan report)], world⟩ := by
  unfold run
  rw [hstage]
  dsimp only
  rw [hrun, hjson]
  rfl

end Stages

/-- **The report and the exit code tell the same exactly if the engine, once it is reached, returns and its report can
be encoded.** -/
theorem json_report_iff {σ : Type} (env : Env σ) {argv : List Str} (h : SelectsJson argv) :
    TellsSame env argv ↔ EngineSpeaks env argv := by
  have hspeaks := prepare_speaks env h
  unfold TellsSame EngineSpeaks engineReport
  cases hstage : prepare env argv with
  | done exitCode printed =>
    rw [hstage] at hspeaks
    obtain ⟨rfl, fields, hcode, rfl⟩ := hspeaks
    rw [run_done hstage]
    refine iff_of_true ?_ fun plan hplan => by cases hplan
    obtain ⟨reported, hprinted, htells⟩ := @tells_error env.encodable fields hcode
    exact ⟨1, reported, rfl, congrArg (fun line => [line]) hprinted, htells⟩
  | engine plan =>
    rw [hstage] at hspeaks
    have hjson : plan.jsonOutput = true := hspeaks
    rcases hrun : Seharden.run env.host plan.mode plan.rules plan.opts env.world with ⟨err | report, world⟩
    · rw [run_error hstage hrun]
      refine iff_of_false ?_ ?_
      · rintro ⟨exitCode, fields, hresult, -⟩
        cases hresult
      · intro hspeak
        obtain ⟨report, hreport, -⟩ := hspeak plan rfl
        rw [hrun] at hreport
        cases hreport
    · rw [run_ok hstage hjson hrun]
      dsimp only
      rw [hrun]
      unfold printJsonReport
      rcases buildJsonReport_cases env.encodable (buildJsonEnvelope (fieldsOf plan report)) with ⟨hall, hok⟩ | ⟨hnot,
        err, herr⟩
      · rw [hok]
        refine iff_of_true ⟨report.exitCode, _, rfl, rfl, ?_⟩ ?_
        · refine tells_envelope (fieldsOf plan report) _ fun r hr => ?_
          obtain rfl := Option.some.inj hr
          rfl
        · intro plan' hplan
          cases hplan
          exact ⟨report, by rw [hrun], hall⟩
      · rw [herr]
        refine iff_of_false ?_ ?_
        · rintro ⟨exitCode, fields, hresult, hprinted, htells⟩
          obtain rfl := Except.ok.inj hresult
          obtain rfl := Line.report.inj (List.cons.inj hprinted).1
          -- the fallback says 1, and that nothing failed
          have hone : report.exitCode = 1 := by
            have hvalue : (Json.value (.num 1)) = .value (.num (report.exitCode : Nat)) :=
              Option.some.inj htells.exitCode
            have hnum : (1 : Rat) = (report.exitCode : Nat) := Value.num.inj (Json.value.inj hvalue)
            exact_mod_cast hnum.symm
          have hzero : (⟨0, 0, 0, 0, 0, 0⟩ : Summary) = report.summary :=
            Json.summary.inj (Option.some.inj (htells.summary report rfl))
          have hexit := @run_exitCode σ env.host plan.mode plan.rules plan.opts env.world report (by rw [hrun])
          rw [← hzero, hone] at hexit
          cases hexit
        · intro hspeak
          obtain ⟨report', hreport, hall⟩ := hspeak plan rfl
          rw [hrun] at hreport
          obtain rfl := Except.ok.inj hreport
          exact hnot hall

/-- A host on which nothing is found. -/
def emptyHost : Host Unit := ⟨fun _ _ => .none, fun _ _ => .none, fun _ s => (.none, s), fun _ => .ok []⟩

/-- A profile without rules; the entry for manual review has a map with the keys 1 and 1000. -/
def sparseProfile : Value :=
  .record 1 [("levels", .list 2 []), ("rules", .list 3 []), ("manual_review_required", .list 4 [.record 5
    [("area", .str "boot"), ("item", .str "password"), ("reason", .str "by hand"),
      ("map", .table 6 [(.num 1, .str "x"), (.num 1000, .str "y")] [])]])]

/-- An environment with this profile; `cjson` does not encode a list with so many holes. -/
def sparseEnv : Env Unit where
  rulesBasePath := "/etc/loongshield/seharden"
  readFileContent _ := .ok []
  lyamlLoad _ := .ok sparseProfile
  host := emptyHost
  world := .start () []
  encodable value := match value with
    | .entries entries => entries.all fun entry => (entry.field "map").isNil
    | _ => true

/-- A report whose `exit_code` is 1. -/
def Line.failed : Line → Bool
  | .usage => false
  | .report fields => match fields.lookup "exit_code".toList with
    | some (.value (.num code)) => code == 1
    | _ => false

theorem json_report_missing : TellsSame sparseEnv ["--format=json".toList, "--bogus".toList] ↔
    EngineSpeaks sparseEnv ["--format=json".toList, "--bogus".toList] :=
  json_report_iff sparseEnv (.inr (.inr ⟨_, rfl, .inr List.mem_cons_self⟩))

/-- The run of the profile passes, and the line that it prints says that it failed. -/
theorem json_report_sparse : ¬∀ (env : Env Unit) (argv : List Str), SelectsJson argv → TellsSame env argv := by
  intro h
  have hargs : SelectsJson ["--format=json".toList] := .inl ⟨_, rfl, rfl, rfl⟩
  obtain ⟨exitCode, fields, hresult, hprinted, htells⟩ := h sparseEnv _ hargs
  have hzero : (run sparseEnv ["--format=json".toList]).result.toOption = some 0 := by decide +kernel
  have hone : (run sparseEnv ["--format=json".toList]).printed.all Line.failed = true := by decide +kernel
  rw [hresult] at hzero
  rw [hprinted, List.all_cons, List.all_nil, Bool.and_true] at hone
  obtain rfl : exitCode = 0 := Option.some.inj hzero
  unfold Line.failed at hone
  dsimp only at hone
  rw [htells.exitCode] at hone
  exact absurd hone (by decide +kernel)

end Cli

end Seharden
