import Loongshield.Seharden.Enforcement

/-!
# Guards that cannot decide

A guard task delivers no verdict when its probe is not found, raises, or returns `nil` with an error. `guardOutcomes`
are the outcomes of the tasks of a guard, run one after the other; `guardFailsClosed_iff` says when the actions are kept
from running for all three.

- `guardLoop_stops_iff`: the guard stops iff a task is missing, raises or returns a truthy value;
- `probeLoop_error_iff`: an audit fails on a task iff its probe is missing, raises or returns `nil` with an error.
-/

namespace Seharden

open Lua Trace

/-- `nil` with an error. -/
def Outcome.nilError : Outcome → Bool
  | .raised _ => false
  | .returned res err => res.isNil && !err.isNil

/-- A truthy value. -/
def Outcome.truthy : Outcome → Bool
  | .raised _ => false
  | .returned res _ => res.truthy

/-- A task that delivered no verdict: its probe is missing, or failed by the convention of an audit. -/
def undecided (r : Option Outcome) : Bool := r.all Outcome.auditFailed

/-- A task that keeps the actions from running. -/
def stops (r : Option Outcome) : Bool := r.all Outcome.blocks

theorem undecided_eq : ∀ r : Option Outcome, undecided r =
    (r.any Outcome.nilError || (stops r && !r.any Outcome.truthy))
  | none => rfl
  | some (.raised e) => rfl
  | some (.returned res err) => by
    cases res <;> cases err <;> simp [undecided, stops, Outcome.auditFailed, Outcome.nilError, Outcome.truthy,
      Outcome.blocks, Value.isNil, Value.truthy]

section

variable {σ : Type} (h : Host σ)

/-- The outcome of a task whose probe is found, and the world after it; the resolution of its parameters can raise. -/
def taskOutcome (i : Nat) (phase : Phase) (task probed : Value) (w : World σ) :
    Except Err (Option Outcome) × World σ :=
  match getProbe h (task.field "func") w.host with
  | none => (.ok none, w)
  | some probe =>
    let w := w.log (.resolving i task probed)
    match resolveParams task probed with
    | .error e => (.error e, w)
    | .ok params =>
      let (o, w) := runProg h phase (probe params probed) w
      (.ok (some o), w)

/-- The outcomes of the tasks of a guard, run one after the other up to the first whose parameters cannot be
resolved. -/
def guardOutcomes (i : Nat) (probed : Value) : Nat → List Value → World σ → List (Except Err (Option Outcome))
  | _, [], _ => []
  | k, task :: tasks, w =>
    match taskOutcome h i .guard task probed w with
    | (.error e, _) => [.error e]
    | (.ok none, w) => .ok none :: guardOutcomes i probed (k + 1) tasks (w.log (.guardMissing i k))
    | (.ok (some o), w) => .ok (some o) :: guardOutcomes i probed (k + 1) tasks (w.log (.guardCall i k o))

/-- **When a guard stops**: a task is missing, raises or returns a truthy value. -/
theorem guardLoop_stops_iff (i : Nat) (guard probed : Value) : ∀ (k : Nat) (tasks : List Value) (w : World σ),
    (∃ msg, (guardLoop h i guard probed k tasks w).1 = .ok (some msg)) ↔
      ∃ r, .ok r ∈ guardOutcomes h i probed k tasks w ∧ stops r = true
  | k, [], w => by simp [guardLoop, guardOutcomes]
  | k, task :: tasks, w => by
    unfold guardLoop guardOutcomes taskOutcome
    cases getProbe h (task.field "func") w.host with
    | none => exact iff_of_true ⟨_, rfl⟩ ⟨none, List.mem_cons_self, rfl⟩
    | some probe =>
      dsimp only
      cases resolveParams task probed with
      | error e => exact iff_of_false nofun (by simp)
      | ok params =>
        dsimp only
        generalize runProg h .guard (probe params probed) (w.log (.resolving i task probed)) = result
        obtain ⟨o, w₁⟩ := result
        cases o with
        | raised e => exact iff_of_true ⟨_, rfl⟩ ⟨_, List.mem_cons_self, rfl⟩
        | returned res reason =>
          have ih := guardLoop_stops_iff i guard probed (k + 1) tasks (w₁.log (.guardCall i k (.returned res reason)))
          dsimp only
          cases hres : res.truthy with
          | true => exact iff_of_true ⟨_, rfl⟩ ⟨_, List.mem_cons_self, hres⟩
          | false =>
            rw [if_neg Bool.false_ne_true, ih]
            simp [stops, Outcome.blocks, hres]

/-- A task is probed the same in an audit and in a guard. -/
theorem runProg_outcome (phase phase' : Phase) : ∀ (p : Prog σ) (w w' : World σ), w.host = w'.host →
    w.cache = w'.cache → w.trace.length = w'.trace.length → (runProg h phase p w).1 = (runProg h phase' p w').1
  | .ret o, w, w', _, _, _ => rfl
  | .get k, w, w', hh, hc, ht => by
    rw [runProg, runProg, hh]
    exact runProg_outcome phase phase' (k w'.host) w w' hh hc ht
  | .put s k, w, w', _, hc, ht => runProg_outcome phase phase' k _ _ rfl hc ht
  | .dump cmd k, w, w', hh, hc, ht => by
    have hd : (readEffectiveDump h cmd w).1 = (readEffectiveDump h cmd w').1 ∧
        (readEffectiveDump h cmd w).2.host = (readEffectiveDump h cmd w').2.host ∧
        (readEffectiveDump h cmd w).2.cache = (readEffectiveDump h cmd w').2.cache ∧
        (readEffectiveDump h cmd w).2.trace = w.trace ∧ (readEffectiveDump h cmd w').2.trace = w'.trace := by
      unfold readEffectiveDump
      rw [hc, hh, ht]
      cases w'.cache.lookup cmd with
      | some d => exact ⟨rfl, hh, hc, rfl, rfl⟩
      | none => exact ⟨rfl, rfl, rfl, rfl, rfl⟩
    obtain ⟨hd, hh', hc', ht', ht''⟩ := hd
    rw [runProg, runProg]
    dsimp only
    rw [hd]
    exact runProg_outcome phase phase' _ _ _ hh' hc' (by simp [ht', ht'', ht])
  | .clear k, w, w', hh, hc, ht => runProg_outcome phase phase' k _ _ hh rfl (by simp [clearCache, ht])

theorem taskOutcome_phase (i : Nat) (phase phase' : Phase) (task probed : Value) (w : World σ) :
    (taskOutcome h i phase task probed w).1 = (taskOutcome h i phase' task probed w).1 := by
  unfold taskOutcome
  cases getProbe h (task.field "func") w.host with
  | none => rfl
  | some probe =>
    cases resolveParams task probed with
    | error e => rfl
    | ok params =>
      have ho := runProg_outcome h phase phase' (probe params probed) (w.log (.resolving i task probed)) _ rfl rfl rfl
      exact congrArg (fun o => Except.ok (some o)) ho

/-- **When an audit fails on a task.** -/
theorem probeLoop_error_iff (i : Nat) (task probed : Value) (w : World σ) :
    (∃ msg, (probeLoop h i [task] probed w).1 = .ok (.error msg)) ↔
      ∃ r, (taskOutcome h i .audit task probed w).1 = .ok r ∧ undecided r = true := by
  unfold probeLoop taskOutcome
  cases getProbe h (task.field "func") w.host with
  | none => exact iff_of_true ⟨_, rfl⟩ ⟨none, rfl, rfl⟩
  | some probe =>
    dsimp only
    cases resolveParams task probed with
    | error e =>
      refine iff_of_false ?_ ?_
      · rintro ⟨msg, hmsg⟩
        cases hmsg
      · rintro ⟨r, hr, hund⟩
        cases hr
    | ok params =>
      dsimp only
      generalize runProg h .audit (probe params probed) (w.log (.resolving i task probed)) = result
      obtain ⟨o, w₁⟩ := result
      cases o with
      | raised e => exact iff_of_true ⟨_, rfl⟩ ⟨_, rfl, rfl⟩
      | returned res err =>
        dsimp only
        cases hr : res.isNil && !err.isNil with
        | true => exact iff_of_true ⟨_, rfl⟩ ⟨_, rfl, hr⟩
        | false =>
          refine iff_of_false ?_ ?_
          · rintro ⟨msg, hmsg⟩
            cases hmsg
          · rintro ⟨r, ⟨⟩, hund⟩
            rw [undecided, Option.all_some, Outcome.auditFailed, hr] at hund
            cases hund

/-- The guard of a rule fails closed: if one of its tasks delivers no verdict, no action is called and the rule is left
to manual work. -/
def GuardFailsClosed (i : Nat) (rule probed : Value) (dryRun : Bool) (w : World σ) : Prop :=
  (∃ r, .ok r ∈ guardOutcomes h i probed 0 (getProbeTasks rule "reinforce_guard") w ∧ undecided r = true) →
    (∃ msg, (enforce h i rule probed dryRun w).1 = .ok (.manual msg)) ∧
      ∃ tr, (enforce h i rule probed dryRun w).2.trace = w.trace ++ tr ∧ ∀ i' j o, .actionCall i' j o ∉ tr

/-- An audit and a guard judge a task alike: if it has no truthy verdict, the audit fails on it iff the guard stops. -/
def JudgedAlike (i : Nat) (guard probed task : Value) (w : World σ) : Prop :=
  (∀ r, (taskOutcome h i .guard task probed w).1 = .ok r → r.any Outcome.truthy = false) →
    ((∃ msg, (probeLoop h i [task] probed w).1 = .ok (.error msg)) ↔
      ∃ msg, (guardLoop h i guard probed 0 [task] w).1 = .ok (some msg))

/-- A rule is left to manual work iff there is nothing to enforce, or its guard stops. -/
theorem enforce_manual_iff (i : Nat) (rule probed : Value) (dryRun : Bool) (w : World σ) :
    (∃ msg, (enforce h i rule probed dryRun w).1 = .ok (.manual msg)) ↔ (rule.field "reinforce").truthy = false ∨
      ∃ r, .ok r ∈ guardOutcomes h i probed 0 (getProbeTasks rule "reinforce_guard") w ∧ stops r = true := by
  rw [← guardLoop_stops_iff h i (rule.field "reinforce_guard")]
  unfold enforce evaluateGuard
  cases hr : (rule.field "reinforce").truthy with
  | false => exact iff_of_true ⟨_, rfl⟩ (.inl rfl)
  | true =>
    rw [if_neg (by simp)]
    generalize guardLoop h i (rule.field "reinforce_guard") probed 0 (getProbeTasks rule "reinforce_guard") w = result
    obtain ⟨res, w₁⟩ := result
    rcases res with e | _ | msg
    · exact iff_of_false nofun (by simp)
    · refine iff_of_false ?_ (by simp)
      rintro ⟨msg, hmsg⟩
      dsimp only at hmsg
      generalize actionLoop h i dryRun probed 0 (rule.field "reinforce").ipairs w₁ = result at hmsg
      obtain ⟨res, w₂⟩ := result
      rcases res with e | _ | msg'
      · cases hmsg
      · cases dryRun <;> cases hmsg
      · cases hmsg
    · exact iff_of_true ⟨msg, rfl⟩ (.inr ⟨msg, rfl⟩)

/-- Manual work is left without a call of an action. -/
theorem EnforceTrace.manual {i : Nat} {rule : Value} {dryRun : Bool} {tr : List Event} {msg : Str}
    (ht : EnforceTrace h i rule dryRun tr (.ok (.manual msg))) : ∀ i' j o, .actionCall i' j o ∉ tr := by
  intro i' j o hmem
  cases ht with
  | unset => cases hmem
  | guarded hg => exact (hg.ofGuard _ hmem : False)

/-- A guard of one task stops iff the task does. -/
theorem guardLoop_one_iff (i : Nat) (guard probed task : Value) (w : World σ) :
    (∃ msg, (guardLoop h i guard probed 0 [task] w).1 = .ok (some msg)) ↔
      ∃ r, (taskOutcome h i .guard task probed w).1 = .ok r ∧ stops r = true := by
  rw [guardLoop_stops_iff]
  unfold guardOutcomes
  generalize taskOutcome h i .guard task probed w = result
  obtain ⟨_ | _ | o, w₁⟩ := result <;> simp [guardOutcomes]

/-- **When a guard fails closed**: there is nothing to enforce, or no task returns `nil` with an error, or another task
stops the guard. A task is judged alike in an audit and in a guard iff it does not return `nil` with an error. -/
theorem guardFailsClosed_iff (i : Nat) (rule probed : Value) (dryRun : Bool) (w : World σ) :
    (GuardFailsClosed h i rule probed dryRun w ↔
      (rule.field "reinforce").truthy = false ∨
      (∀ r, .ok r ∈ guardOutcomes h i probed 0 (getProbeTasks rule "reinforce_guard") w →
        r.any Outcome.nilError = false) ∨
      ∃ r, .ok r ∈ guardOutcomes h i probed 0 (getProbeTasks rule "reinforce_guard") w ∧ stops r = true) ∧
    ∀ guard task, JudgedAlike h i guard probed task w ↔
      ∀ r, (taskOutcome h i .guard task probed w).1 = .ok r → r.any Outcome.nilError = false := by
  have hmanual := enforce_manual_iff h i rule probed dryRun w
  refine ⟨⟨fun hclosed => ?_, fun hcond hund => ?_⟩, fun guard task => ?_⟩
  · by_cases hund : ∃ r, .ok r ∈ guardOutcomes h i probed 0 (getProbeTasks rule "reinforce_guard") w ∧
        undecided r = true
    · rcases hmanual.mp (hclosed hund).1 with hr | hs
      · exact .inl hr
      · exact .inr (.inr hs)
    · refine .inr (.inl fun r hmem => ?_)
      cases hn : r.any Outcome.nilError with
      | false => rfl
      | true => exact absurd ⟨r, hmem, by rw [undecided_eq, hn, Bool.true_or]⟩ hund
  · have hstop : (rule.field "reinforce").truthy = false ∨
        ∃ r, .ok r ∈ guardOutcomes h i probed 0 (getProbeTasks rule "reinforce_guard") w ∧ stops r = true := by
      rcases hcond with hr | hnone | hs
      · exact .inl hr
      · obtain ⟨r, hmem, hr⟩ := hund
        rw [undecided_eq, hnone r hmem, Bool.false_or, Bool.and_eq_true] at hr
        exact .inr ⟨r, hmem, hr.1⟩
      · exact .inr hs
    obtain ⟨msg, hmsg⟩ := hmanual.mpr hstop
    obtain ⟨tr, hreach, htr⟩ := enforce_reaches h i rule probed dryRun w
    rw [hmsg] at htr
    exact ⟨⟨msg, hmsg⟩, tr, hreach.trace, htr.manual⟩
  · unfold JudgedAlike
    rw [probeLoop_error_iff, guardLoop_one_iff, taskOutcome_phase h i .audit .guard]
    cases (taskOutcome h i .guard task probed w).1 with
    | error e => simp
    | ok r =>
      simp only [Except.ok.injEq, forall_eq', exists_eq_left', undecided_eq]
      cases htr : r.any Outcome.truthy with
      | true =>
        have hn : r.any Outcome.nilError = false := by
          rcases r with _ | ⟨e⟩ | ⟨res, err⟩
          · rfl
          · rfl
          · cases res <;> first | rfl | cases htr
        simp [hn]
      | false =>
        cases hn : r.any Outcome.nilError with
        | false => simp
        | true =>
          have hs : stops r = false := by
            rcases r with _ | ⟨e⟩ | ⟨res, err⟩
            · cases hn
            · cases hn
            · exact htr
          simp [hs]

end

/-- A guard whose probe returns `nil` with an error. -/
def brokenGuardHost : Host Bool :=
  scriptHost (fun f => if f = "guard" then .ret (.returned .nil (.str "unreadable"))
    else .get fun on => .ret (.returned (.bool on) .nil)) (fun _ _ => (.returned (.bool true) .nil, true))
    fun _ => ⟨[], true, .num 0⟩

/-- The switch must be on, and is turned on behind a guard. -/
def guardedRule : Value :=
  .record 1 [("id", .str "switch"), ("desc", .str "the switch is on"),
    ("probes", .list 2 [.record 3 [("name", .str "on"), ("func", .str "switch.read")]]),
    ("assertion", .record 4 [("actual", .str "%\x7bprobe.on\x7d"), ("compare", .str "is_true")]),
    ("reinforce_guard", .list 5 [.record 6 [("name", .str "unsafe"), ("func", .str "switch.guard")]]),
    ("reinforce", .list 7 [.record 8 [("action", .str "switch.set")]])]

/-- The guard cannot decide, and the action is called. -/
theorem guardFailsClosed_broken : validateRule guardedRule "rule" true = .ok () ∧
    ¬ GuardFailsClosed brokenGuardHost 0 guardedRule (.record 9 [("on", .bool false)]) false (.start false []) := by
  refine ⟨by decide +kernel, fun hclosed => ?_⟩
  have hund : (guardOutcomes brokenGuardHost 0 (.record 9 [("on", .bool false)]) 0
      (getProbeTasks guardedRule "reinforce_guard") (.start false [])).any (fun r => r.toOption.any undecided) =
        true := by
    decide +kernel
  obtain ⟨r, hmem, hr⟩ := List.any_eq_true.mp hund
  cases r with
  | error e => cases hr
  | ok r =>
    obtain ⟨⟨msg, hmsg⟩, -⟩ := hclosed ⟨r, hmem, hr⟩
    have hdone : (enforce brokenGuardHost 0 guardedRule (.record 9 [("on", .bool false)]) false
        (.start false [])).1.map enforceStatus = .ok .fixed := by decide +kernel
    rw [hmsg] at hdone
    cases hdone

end Seharden
