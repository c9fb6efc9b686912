import Loongshield.Seharden.Host

/-!
# `rule_executor.lua`

`audit` runs the probes of a rule and evaluates its assertion; `enforce` evaluates the reinforce guard and runs the
actions. Probes and enforcers are called under `pcall`. The evaluation of the assertion is not, nor is the resolution of
the parameters of a task, nor the writing of parameters in a dry run: both functions raise when these do. `i` is the
position of the rule in the run, for the trace.
-/

namespace Seharden

open Lua

/-- A probe result that an audit takes for a failure: a raise, or `nil` with an error. -/
def Outcome.auditFailed : Outcome → Bool
  | .raised _ => true
  | .returned res err => res.isNil && !err.isNil

/-- An action went through: it returned neither `nil` nor `false`. -/
def Outcome.succeeded : Outcome → Bool
  | .raised _ => false
  | .returned res _ => res.truthy

/-- What an audit returns. -/
structure Audit where
  status : AuditStatus
  message : Str
  probedData : Value
  reason : Value

/-- What `enforce` returns. -/
inductive Enforce
  | manual (msg : Str)
  | error (msg : Str)
  | skip
  | done

/-- The options of a run: the values of `dry_run`, `quiet` and `verbose`. -/
structure Opts where
  dryRun : Value
  quiet : Value
  verbose : Value

section

variable {σ : Type} (h : Host σ)

/-- The parameters of a task: `template.resolve_value(task.params, { probe = probed_data })`. -/
def resolveParams (task probed : Value) : Except Err Value :=
  let c : Contexts := { probe := probed, item := .nil }
  (resolveValue c.toValue (task.field "params") (max task.bound c.toValue.bound)).map Prod.fst

/-- `probed_data[name] = res`. -/
def setProbed (probed name res : Value) : Value :=
  match probed with
  | .table r fs inh => .table r (Value.rawSet fs name res) inh
  | v => v

/-! ## `audit` -/

/-- The loop over the probe tasks: the message of the first failure, or the probed data. Resolving the parameters of a
task can raise. -/
def probeLoop (i : Nat) : List Value → Value → World σ → Except Err (Except Str Value) × World σ
  | [], probed, w => (.ok (.ok probed), w)
  | task :: tasks, probed, w =>
    let func := (task.field "func").tostring
    match getProbe h (task.field "func") w.host with
    | none => (.ok (.error ("Probe '" ++ func ++ "' not found")), w)
    | some probe =>
      let w := w.log (.resolving i task probed)
      match resolveParams task probed with
      | .error e => (.error e, w)
      | .ok params => match runProg h .audit (probe params probed) w with
        | (.raised e, w) => (.ok (.error ("Probe '" ++ func ++ "' failed: " ++ e.tostring)), w)
        | (.returned res err, w) =>
          if res.isNil && !err.isNil then (.ok (.error ("Probe '" ++ func ++ "' failed: " ++ err.tostring)), w)
          else probeLoop i tasks (setProbed probed (task.field "name") res) w

/-- `[id] desc`. -/
def ruleTitle (rule : Value) : Str := "[" ++ (rule.field "id").tostring ++ "] " ++ (rule.field "desc").tostring

/-- `audit`. -/
def audit (i : Nat) (rule : Value) (w : World σ) : Except Err Audit × World σ :=
  match probeLoop h i (getProbeTasks rule "probes") (.table rule.bound [] []) (w.log (.auditBegin i)) with
  | (.error e, w) => (.error e, w)
  | (.ok (.error msg), w) => (.ok ⟨.error, msg, .nil, .nil⟩, w.log (.auditEnd i .error))
  | (.ok (.ok probed), w) =>
    let w := w.log (.evaluating i probed)
    match evaluate h.yamlDump (rule.field "assertion") { probe := probed, item := .nil } with
    | .error e => (.error e, w)
    | .ok (true, _) => (.ok ⟨.pass, ruleTitle rule, probed, .nil⟩, w.log (.auditEnd i .pass))
    | .ok (false, reason) =>
      (.ok ⟨.fail, ruleTitle rule ++ ": " ++ reason.tostring, probed, reason⟩, w.log (.auditEnd i .fail))

/-! ## `enforce` -/

/-- `guard_skip_message`. -/
def guardSkipMessage (guard task reason : Value) : Str :=
  if isNonEmptyString (guard.field "skip_message") then (guard.field "skip_message").tostring
  else if isNonEmptyString (task.field "skip_message") then (task.field "skip_message").tostring
  else match reason with
    | .str s => s
    | _ => "Reinforce skipped by guard condition."

/-- The loop of `evaluate_guard` over the guard tasks; `k` is the position of the next one. -/
def guardLoop (i : Nat) (guard probed : Value) : Nat → List Value → World σ → Except Err (Option Str) × World σ
  | _, [], w => (.ok none, w)
  | k, task :: tasks, w =>
    let func := (task.field "func").tostring
    match getProbe h (task.field "func") w.host with
    | none =>
      (.ok (some ("reinforce_guard probe '" ++ func ++ "' not found; skipping reinforce to avoid unsafe execution")),
        w.log (.guardMissing i k))
    | some probe =>
      let w := w.log (.resolving i task probed)
      match resolveParams task probed with
      | .error e => (.error e, w)
      | .ok params =>
        let (o, w) := runProg h .guard (probe params probed) w
        let w := w.log (.guardCall i k o)
        match o with
        | .raised e =>
          (.ok (some ("reinforce_guard probe '" ++ func ++ "' raised: " ++ e.tostring ++
            "; skipping reinforce to avoid unsafe execution")), w)
        | .returned result reason =>
          if result.truthy then (.ok (some (guardSkipMessage guard task reason)), w)
          else guardLoop i guard probed (k + 1) tasks w

/-- `evaluate_guard`: the skip message, or nothing when the guard lets the actions run. -/
def evaluateGuard (i : Nat) (rule probed : Value) (w : World σ) : Except Err (Option Str) × World σ :=
  guardLoop h i (rule.field "reinforce_guard") probed 0 (getProbeTasks rule "reinforce_guard") w

/-- The loop of `enforce` over the actions: the message of the first failure, or nothing. A dry run calls no enforcer,
and writes the parameters that it would call it with. -/
def actionLoop (i : Nat) (dryRun : Bool) (probed : Value) :
    Nat → List Value → World σ → Except Err (Option Str) × World σ
  | _, [], w => (.ok none, w)
  | j, task :: tasks, w =>
    let w := w.log (.resolving i task probed)
    match resolveParams task probed with
    | .error e => (.error e, w)
    | .ok params =>
      let found := getEnforcer h (task.field "action") w.host
      if dryRun then
        match found with
        | none => actionLoop i dryRun probed (j + 1) tasks w
        | some _ =>
          let w := w.log (.previewing i params)
          match serializeForLog h.yamlDump params with
          | .error e => (.error e, w)
          | .ok _ => actionLoop i dryRun probed (j + 1) tasks w
      else match found with
      | none =>
        (.ok (some ("Enforcer '" ++ (task.field "action").tostring ++ "' not found")), w.log (.actionMissing i j))
      | some (enforcer, path) =>
        let (o, s) := enforcer params w.host
        let w := { w with host := s }.log (.actionCall i j o)
        match o with
        | .raised e => (.ok (some ("Enforcer '" ++ path ++ "' raised: " ++ e.tostring)), w)
        | .returned result err =>
          if !result.truthy then
            (.ok (some ("Enforcer '" ++ path ++ "' failed: " ++
              (if err.truthy then err.tostring else "enforcer returned false"))), w)
          else actionLoop i dryRun probed (j + 1) tasks w

/-- `enforce`. The cache of the ssh probes is cleared after the last action of a real run. -/
def enforce (i : Nat) (rule probed : Value) (dryRun : Bool) (w : World σ) : Except Err Enforce × World σ :=
  if !(rule.field "reinforce").truthy then (.ok (.manual "No reinforce steps defined for this rule."), w)
  else match evaluateGuard h i rule probed w with
  | (.error e, w) => (.error e, w)
  | (.ok (some msg), w) => (.ok (.manual msg), w)
  | (.ok none, w) => match actionLoop h i dryRun probed 0 (rule.field "reinforce").ipairs w with
    | (.error e, w) => (.error e, w)
    | (.ok (some msg), w) => (.ok (.error msg), w)
    | (.ok none, w) => if dryRun then (.ok .skip, w) else (.ok .done, clearCache w)

end

end Seharden
