import Loongshield.Seharden.Enforcement
import Loongshield.Seharden.Safe

/-!
# Runs that are aborted

An audit calls the evaluator without protection, so an assertion that cannot be evaluated ends the whole run; so do the
other steps that nothing protects (`Unhindered`).

- `evaluate_ok_iff`: the assertion of an accepted rule is evaluated iff it is safe on the probed data;
- `run_returns_iff`: a run of accepted rules returns, with an item for every rule, iff all these steps can be made.
-/

namespace Seharden

open Lua Trace

/-- The assertion of a rule is safe on probed data. -/
def SafeOn (yamlDump : Value → Except Err Str) (rule probed : Value) : Prop :=
  ∀ a : Assertion, a.Reads (rule.field "assertion") → a.Safe yamlDump { probe := probed, item := .nil }

/-- **When the assertion of an accepted rule is evaluated.** -/
theorem evaluate_ok_iff (yamlDump : Value → Except Err Str) {rule probed : Value}
    (hv : validateRule rule "rule" true = .ok ()) (hp : probed.isTable = true) :
    (∃ v, evaluate yamlDump (rule.field "assertion") { probe := probed, item := .nil } = .ok v) ↔
      SafeOn yamlDump rule probed := by
  obtain ⟨a, ha⟩ := Assertion.reads_of_validate _ _ (assertion_of_validateRule hv)
  rw [evaluate, Assertion.evaluateNode_reads yamlDump _ a _ _ ha, Assertion.eval_ok_iff yamlDump a _ hp]
  exact ⟨fun hs b hb => Assertion.reads_unique b a _ hb ha ▸ hs, fun hs => hs a ha⟩

/-- **When a run of accepted rules is not aborted**: the assertion of an accepted rule is evaluated iff it is safe on
the data, and the run returns with an item for every rule iff every evaluation on the way is safe and no other step is
hindered. -/
theorem run_returns_iff {σ : Type} (h : Host σ) (mode : Str) (rules : List Value) (opts : Opts) (s : σ)
    (dumps : List (Str × Dump)) (hv : ∀ rule ∈ rules, validateRule rule "rule" true = .ok ()) :
    (∀ rule ∈ rules, ∀ probed, probed.isTable = true →
      ((∃ v, evaluate h.yamlDump (rule.field "assertion") { probe := probed, item := .nil } = .ok v) ↔
        SafeOn h.yamlDump rule probed)) ∧
    ((∃ report, (run h mode rules opts (.start s dumps)).1 = .ok report ∧
        report.rules.map Item.id = rules.map ruleId) ↔
      ∀ i rule, rules[i]? = some rule →
        (∀ probed, .evaluating i probed ∈ (run h mode rules opts (.start s dumps)).2.trace →
          SafeOn h.yamlDump rule probed) ∧
        Unhindered h rule i (run h mode rules opts (.start s dumps)).2.trace) := by
  refine ⟨fun rule hmem probed hp => evaluate_ok_iff h.yamlDump (hv rule hmem) hp, ?_⟩
  obtain ⟨r, ht, -, hres⟩ := run_trace h mode rules opts s dumps
  generalize (run h mode rules opts (.start s dumps)).2.trace = t at ht
  obtain ⟨n, hreturns, -, hend⟩ := ht.progress
  constructor
  · rintro ⟨report, hrun, -⟩ i rule hi
    rcases hend with ⟨-, rfl⟩ | ⟨⟨err, rfl⟩, -⟩
    · have hall := hreturns i rule (lt_length hi) hi
      refine ⟨fun probed hmem => ?_, .of_returns hall⟩
      obtain ⟨-, hp, heval⟩ := hall _ hmem fun hne => hne rfl
      exact (evaluate_ok_iff h.yamlDump (hv rule (List.mem_of_getElem? hi)) hp).mp heval
    · rcases hres with ⟨e, -, herr⟩ | ⟨_, _, hok, -⟩
      · rw [hrun] at herr
        cases herr
      · cases hok
  · intro hall
    rcases hres with ⟨e, rfl, -⟩ | ⟨items, report, -, hids, hrun, hrules, -⟩
    · rcases hend with ⟨⟨ss, hss⟩, -⟩ | ⟨-, rule, hn, e, he, hraises⟩
      · cases hss
      · obtain ⟨hsafe, hu⟩ := hall n rule hn
        refine absurd hraises (hu.not_raises (fun probed hp hmem => ?_) he)
        exact (evaluate_ok_iff h.yamlDump (hv rule (List.mem_of_getElem? hn)) hp).mpr (hsafe probed hmem)
    · exact ⟨report, hrun, by rw [hrules, hids]⟩

/-- A probe that returns a number where the assertion takes a key of it. -/
def numberHost : Host Unit :=
  scriptHost (fun _ => .ret (.returned (.num 3) .nil)) (fun _ s => (.returned (.bool true) .nil, s))
    fun _ => ⟨[], true, .num 0⟩

/-- The mode of a file, of which `key` is taken. -/
def keyedRule : Value :=
  .record 1 [("id", .str "keyed"), ("desc", .str "a key of the value of a probe"),
    ("probes", .list 2 [.record 3 [("name", .str "file"), ("func", .str "file.stat")]]),
    ("assertion", .record 4 [("actual", .str "%\x7bprobe.file\x7d"), ("key", .str "mode"), ("compare", .str "equals"),
      ("expected", .num 384)])]

/-- The run of one accepted rule is aborted. -/
theorem run_aborts : validateRule keyedRule "rule" true = .ok () ∧
    ¬ ∃ report, (run numberHost "scan" [keyedRule] ⟨.nil, .nil, .nil⟩ (.start () [])).1 = .ok report := by
  refine ⟨by decide +kernel, ?_⟩
  have herr : (run numberHost "scan" [keyedRule] ⟨.nil, .nil, .nil⟩ (.start () [])).1.toOption.isNone = true := by
    decide +kernel
  rintro ⟨report, hrun⟩
  rw [hrun] at herr
  cases herr

/-- A probe that returns the table the assertion expects. -/
def statHost : Host Unit :=
  scriptHost (fun _ => .ret (.returned (.record 9 [("mode", .num 384)]) .nil))
    (fun _ s => (.returned (.bool true) .nil, s)) fun _ => ⟨[], true, .num 0⟩

theorem run_returns_stat :
    (∃ report, (run statHost "scan" [keyedRule] ⟨.nil, .nil, .bool true⟩ (.start () [])).1 = .ok report) ∧
    ∀ i rule, [keyedRule][i]? = some rule →
      (∀ probed, .evaluating i probed ∈
          (run statHost "scan" [keyedRule] ⟨.nil, .nil, .bool true⟩ (.start () [])).2.trace →
        SafeOn statHost.yamlDump rule probed) ∧
      Unhindered statHost rule i (run statHost "scan" [keyedRule] ⟨.nil, .nil, .bool true⟩ (.start () [])).2.trace := by
  have hv : ∀ rule ∈ [keyedRule], validateRule rule "rule" true = .ok () :=
    List.forall_mem_singleton.mpr (by decide +kernel)
  have hok : (run statHost "scan" [keyedRule] ⟨.nil, .nil, .bool true⟩ (.start () [])).1.toOption.isSome = true := by
    decide +kernel
  obtain ⟨-, hiff⟩ := run_returns_iff statHost "scan" [keyedRule] ⟨.nil, .nil, .bool true⟩ () [] hv
  obtain ⟨r, -, -, ⟨e, -, herr⟩ | ⟨items, report, -, hids, hrun, hrules, -⟩⟩ :=
    run_trace statHost "scan" [keyedRule] ⟨.nil, .nil, .bool true⟩ () []
  · rw [herr] at hok
    cases hok
  · exact ⟨⟨report, hrun⟩, hiff.mp ⟨report, hrun, by rw [hrules, hids]⟩⟩

end Seharden
