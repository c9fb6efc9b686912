import Loongshield.Seharden.RuleExecutor

/-!
# `engine.lua`

`processSingleRule` validates a rule, audits it and, in reinforce mode, enforces it and audits it again; its item is
appended to the report before its final status is known and changed later. `run` does this for every rule of a list and
sums up. What the engine prints is left out, except for the details of a verbose run (`showDetails`), which can raise.
-/

namespace Seharden

open Lua

/-- The status of a report item. -/
inductive Status
  | error
  | pass
  | fail
  | manual
  | enforceError
  | dryRun
  | fixed
  | failedToFix
deriving DecidableEq

/-- A report item. -/
structure Item where
  id : Value
  desc : Value
  status : Status
  reason : Value

/-- The counters of a run. -/
structure Counters where
  passed : Nat := 0
  fixed : Nat := 0
  manual : Nat := 0
  dryRunPending : Nat := 0
  hardFailures : Nat := 0

/-- The report items so far, and the counters. -/
structure Tally where
  rules : List Item := []
  counters : Counters := {}

/-- `report.rules[#report.rules + 1] = item`. -/
def Tally.push (t : Tally) (item : Item) : Tally := { t with rules := t.rules ++ [item] }

/-- A change of the item that was appended last. -/
def Tally.setLast (t : Tally) (status : Status) (reason : Value) : Tally :=
  { t with rules := t.rules.modify (t.rules.length - 1) fun item => { item with status := status, reason := reason } }

/-- A change of the counters. -/
def Tally.count (t : Tally) (f : Counters → Counters) : Tally := { t with counters := f t.counters }

/-- `type(rule) == 'table' and rule.id or '<unknown>'`. -/
def ruleId (rule : Value) : Value := if (rule.field "id").truthy then rule.field "id" else .str "<unknown>"

section

variable {σ : Type} (h : Host σ)

/-- The verbose details of a rule, printed with `verbose` and without `quiet`. -/
def showDetails (i : Nat) (rule : Value) (opts : Opts) (probed : Value) (w : World σ) : Except Err Unit × World σ :=
  if opts.verbose.truthy && !opts.quiet.truthy then
    ((emitVerboseRuleDetails h.yamlDump (rule.field "assertion") probed (getProbeTasks rule "probes")).map fun _ => (),
      w.log (.showing i probed))
  else (.ok (), w)

/-- The part of `process_single_rule` after a failed audit in reinforce mode. -/
def reinforceRule (i : Nat) (rule : Value) (opts : Opts) (found : Audit) (t : Tally) (w : World σ) :
    Except Err Tally × World σ :=
  let t := t.push ⟨rule.field "id", rule.field "desc", .fail, found.reason⟩
  match enforce h i rule found.probedData opts.dryRun.truthy w with
  | (.error e, w) => (.error e, w)
  | (.ok (.manual msg), w) =>
    (.ok ((t.setLast .manual (.str msg)).count fun c => { c with manual := c.manual + 1 }), w)
  | (.ok (.error msg), w) =>
    (.ok ((t.setLast .enforceError (.str msg)).count fun c => { c with hardFailures := c.hardFailures + 1 }), w)
  | (.ok .skip, w) =>
    let reason := "would apply " ++ natStr (rule.field "reinforce").ipairs.length ++ " action(s)"
    (.ok ((t.setLast .dryRun (.str reason)).count fun c => { c with dryRunPending := c.dryRunPending + 1 }), w)
  | (.ok .done, w) => match audit h i rule w with
    | (.error e, w) => (.error e, w)
    | (.ok verify, w) =>
      if verify.status = .pass then
        (.ok ((t.setLast .fixed .nil).count fun c => { c with fixed := c.fixed + 1 }), w)
      else
        (.ok ((t.setLast .failedToFix (.str verify.message)).count fun c =>
          { c with hardFailures := c.hardFailures + 1 }), w)

/-- The part of `process_single_rule` after an audit that did not fail to run. -/
def reportRule (i : Nat) (rule : Value) (mode : Str) (opts : Opts) (found : Audit) (t : Tally) (w : World σ) :
    Except Err Tally × World σ :=
  match showDetails h i rule opts found.probedData w with
  | (.error e, w) => (.error e, w)
  | (.ok (), w) =>
    if found.status = .pass then
      let item : Item := ⟨rule.field "id", rule.field "desc", .pass, .nil⟩
      (.ok ((t.push item).count fun c => { c with passed := c.passed + 1 }), w)
    else if mode = "reinforce" then reinforceRule h i rule opts found t w
    else
      let item : Item := ⟨rule.field "id", rule.field "desc", .fail, found.reason⟩
      (.ok ((t.push item).count fun c => { c with hardFailures := c.hardFailures + 1 }), w)

/-- `process_single_rule`. -/
def processSingleRule (i : Nat) (rule : Value) (mode : Str) (opts : Opts) (t : Tally) (w : World σ) :
    Except Err Tally × World σ :=
  match validateRule rule "rule" true with
  | .error msg =>
    let item : Item := ⟨ruleId rule, rule.field "desc", .error, .str ("Invalid rule schema: " ++ msg)⟩
    (.ok ((t.push item).count fun c => { c with hardFailures := c.hardFailures + 1 }), w.log (.rejected i))
  | .ok _ => match audit h i rule (w.log (.validated i)) with
    | (.error e, w) => (.error e, w)
    | (.ok found, w) =>
      if found.status = .error then
        let item : Item := ⟨rule.field "id", rule.field "desc", .error, .str found.message⟩
        (.ok ((t.push item).count fun c => { c with hardFailures := c.hardFailures + 1 }), w)
      else reportRule h i rule mode opts found t w

/-- The loop of `run` over the rules; `i` is the position of the next one. -/
def runRules (mode : Str) (opts : Opts) : Nat → List Value → Tally → World σ → Except Err Tally × World σ
  | _, [], t, w => (.ok t, w)
  | i, rule :: rules, t, w => match processSingleRule h i rule mode opts t w with
    | (.error e, w) => (.error e, w)
    | (.ok t, w) => runRules mode opts (i + 1) rules t w

/-- The summary of a report. -/
structure Summary where
  passed : Nat
  fixed : Nat
  failed : Nat
  manual : Nat
  dryRunPending : Nat
  total : Nat

/-- What `run` returns: the report and the exit code. -/
structure Report where
  mode : Str
  dryRun : Value
  rules : List Item
  summary : Summary
  exitCode : Nat

/-- `run`. -/
def run (mode : Str) (rules : List Value) (opts : Opts) (w : World σ) : Except Err Report × World σ :=
  match runRules h mode opts 0 rules {} w with
  | (.error e, w) => (.error e, w)
  | (.ok t, w) =>
    let c := t.counters
    (.ok {
      mode := mode
      dryRun := if opts.dryRun.truthy then opts.dryRun else .bool false
      rules := t.rules
      summary := ⟨c.passed, c.fixed, c.hardFailures, c.manual, c.dryRunPending, rules.length⟩
      exitCode := if c.hardFailures = 0 ∧ c.dryRunPending = 0 then 0 else 1 }, w)

end

end Seharden
