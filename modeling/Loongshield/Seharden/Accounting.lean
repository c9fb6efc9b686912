import Loongshield.Seharden.Enforcement

/-!
# The accounting of a report

- `Tally.Balanced`: every counter is the number of items of its class; `Tally.add` keeps it, so a run keeps it;
- `RuleTrace.fixed`: a rule is fixed only if an audit behind its last action passed;
- `run_report_accounts`: both, for the report of a run.
-/

namespace Seharden

open Lua Trace

/-- The statuses that are counted as hard failures. -/
def Status.hardFailure : Status → Bool
  | .error => true
  | .fail => true
  | .enforceError => true
  | .failedToFix => true
  | _ => false

/-- Every counter is the number of items whose status is in its class. -/
structure Balanced (c : Counters) (items : List Item) : Prop where
  passed : c.passed = items.countP fun item => item.status = .pass
  fixed : c.fixed = items.countP fun item => item.status = .fixed
  hardFailures : c.hardFailures = items.countP fun item => item.status.hardFailure
  manual : c.manual = items.countP fun item => item.status = .manual
  dryRunPending : c.dryRunPending = items.countP fun item => item.status = .dryRun

theorem Tally.add_balanced {t : Tally} (ht : Balanced t.counters t.rules) (item : Item) :
    Balanced (t.add item).counters (t.add item).rules := by
  obtain ⟨hp, hf, hh, hm, hd⟩ := ht
  cases hs : item.status <;>
    exact ⟨by simp [Tally.add, Counters.bump, hs, hp], by simp [Tally.add, Counters.bump, hs, hf],
      by simp [Tally.add, Counters.bump, hs, hh, Status.hardFailure], by simp [Tally.add, Counters.bump, hs, hm],
      by simp [Tally.add, Counters.bump, hs, hd]⟩

theorem Tally.foldl_add_balanced : ∀ (items : List Item) {t : Tally}, Balanced t.counters t.rules →
    Balanced (items.foldl Tally.add t).counters (items.foldl Tally.add t).rules
  | [], _, ht => ht
  | item :: items, _, ht => foldl_add_balanced items (Tally.add_balanced ht item)

/-- Every item is in exactly one class. -/
theorem Balanced.total {c : Counters} {items : List Item} (hb : Balanced c items) :
    c.passed + c.fixed + c.hardFailures + c.manual + c.dryRunPending = items.length := by
  rw [hb.passed, hb.fixed, hb.hardFailures, hb.manual, hb.dryRunPending]
  clear hb
  induction items with
  | nil => rfl
  | cons item items ih =>
    rw [List.length_cons, ← ih]
    cases hs : item.status <;> simp [hs, Status.hardFailure] <;> omega

/-- There is neither a hard failure nor a pending action iff every item passed, was fixed or is manual. -/
theorem Balanced.clean_iff {c : Counters} {items : List Item} (hb : Balanced c items) :
    (c.hardFailures = 0 ∧ c.dryRunPending = 0) ↔
      ∀ item ∈ items, item.status = .pass ∨ item.status = .fixed ∨ item.status = .manual := by
  rw [hb.hardFailures, hb.dryRunPending, List.countP_eq_zero, List.countP_eq_zero, ← forall₂_and]
  refine forall₂_congr fun item _ => ?_
  cases item.status <;> simp [Status.hardFailure]

section Fixed

variable {σ : Type} {h : Host σ} {i : Nat} {rule : Value} {mode : Str} {dryRun : Bool}

/-- An audit that passes begins, and ends with its verdict. -/
theorem AuditTrace.passes {tr : List Event} (ht : AuditTrace h i rule tr (.ok .pass)) :
    ∃ mid, tr = .auditBegin i :: mid ++ [.auditEnd i .pass] := by
  generalize hs : (Except.ok AuditStatus.pass : Except Err AuditStatus) = s at ht
  cases ht with
  | failed => cases hs
  | unresolved => cases hs
  | raised => cases hs
  | @judged tr probed =>
    cases hs
    exact ⟨tr ++ [.evaluating i probed], by simp⟩

/-- **A fixed rule**: the second audit passed. -/
theorem RuleTrace.fixed {tr : List Event} (ht : RuleTrace h i rule mode dryRun tr (.ok .fixed)) :
    ∃ pre tr₂, tr = pre ++ tr₂ ∧ AuditTrace h i rule tr₂ (.ok .pass) := by
  generalize hr : (Except.ok Status.fixed : Except Err Status) = r at ht
  cases ht with
  | rejected => cases hr
  | raised => cases hr
  | unshown => cases hr
  | @audited _ _ s => cases s <;> cases hr
  | @enforced _ _ _ r _ _ _ _ _ hd =>
    rcases r with e | msg | msg | _ | _
    · cases hr
    · cases hr
    · cases hr
    · cases hr
    · exact absurd rfl hd
  | @verified _ _ _ _ v _ _ _ _ _ hv =>
    rcases v with e | s
    · cases hr
    · cases s with
      | pass => exact ⟨_, _, rfl, hv⟩
      | error => cases hr
      | fail => cases hr

end Fixed

/-- **The accounting of a report**: one item for each rule, in order; the counters are those of the items; the exit code
is `0` iff every item passed, was fixed or is manual; a fixed item has an audit behind the last action of its rule that
passed. -/
theorem run_report_accounts {σ : Type} (h : Host σ) (mode : Str) (rules : List Value) (opts : Opts) (s : σ)
    (dumps : List (Str × Dump)) (report : Report) (hrun : (run h mode rules opts (.start s dumps)).1 = .ok report) :
    report.rules.length = rules.length ∧ report.rules.map Item.id = rules.map ruleId ∧
    report.summary.passed + report.summary.fixed + report.summary.failed + report.summary.manual +
      report.summary.dryRunPending = rules.length ∧
    Balanced ⟨report.summary.passed, report.summary.fixed, report.summary.manual, report.summary.dryRunPending,
      report.summary.failed⟩ report.rules ∧
    (report.exitCode = 0 ↔
      ∀ item ∈ report.rules, item.status = .pass ∨ item.status = .fixed ∨ item.status = .manual) ∧
    ∀ (i : Nat) (item : Item), report.rules[i]? = some item → item.status = .fixed →
      ∃ pre mid post, (run h mode rules opts (.start s dumps)).2.trace =
          pre ++ .auditBegin i :: mid ++ .auditEnd i .pass :: post ∧
        ∀ j o, .actionCall i j o ∉ mid ++ post := by
  obtain ⟨r, ht, -, ⟨e, -, herr⟩ | ⟨items, report', rfl, hids, hrun', hrules, hsum, hexit⟩⟩ :=
    run_trace h mode rules opts s dumps
  · rw [hrun] at herr
    cases herr
  rw [hrun] at hrun'
  cases hrun'
  have hb := Tally.foldl_add_balanced items (t := {}) ⟨rfl, rfl, rfl, rfl, rfl⟩
  rw [show (items.foldl Tally.add {}).rules = items from Tally.foldl_add_rules items {}] at hb
  have hlen : items.length = rules.length := by simpa using congrArg List.length hids
  rw [hsum] at hexit
  rw [hrules, hexit, hsum]
  refine ⟨hlen, hids, hb.total.trans hlen, hb, ?_, fun i item hi hfixed => ?_⟩
  · rw [← hb.clean_iff]
    simp
  · have hil : i < rules.length := hlen ▸ lt_length hi
    obtain ⟨before, tr, after, b, _, _, htr, hbi, hP, -, hafter⟩ := Blocks.get ht (List.getElem?_eq_getElem hil)
    rw [Nat.zero_add] at hP hafter
    rw [List.getElem?_map, hi, Option.map_some, hfixed] at hbi
    cases hbi
    obtain ⟨pre, tr₂, rfl, hv⟩ := hP.fixed
    obtain ⟨mid, rfl⟩ := hv.passes
    refine ⟨before ++ pre, mid, after, by rw [htr]; simp, fun j o hmem => ?_⟩
    rcases List.mem_append.mp hmem with hmem | hmem
    · have hmem' : .actionCall i j o ∈ .auditBegin i :: mid ++ [.auditEnd i .pass] := by simp [hmem]
      exact (hv.ofAudit _ hmem' : False)
    · exact absurd rfl (RunTrace.foreign hafter (.inl (Nat.lt_succ_self i)) _ hmem)

/-- A switch that is probed, and turned on by the enforcer. -/
def switchHost : Host Bool :=
  scriptHost (fun _ => .get fun on => .ret (.returned (.bool on) .nil)) (fun _ _ => (.returned (.bool true) .nil, true))
    fun _ => ⟨[], true, .num 0⟩

/-- The switch must be on. -/
def switchRule : Value :=
  .record 1 [("id", .str "switch"), ("desc", .str "the switch is on"),
    ("probes", .list 2 [.record 3 [("name", .str "on"), ("func", .str "switch.read")]]),
    ("assertion", .record 4 [("actual", .str "%\x7bprobe.on\x7d"), ("compare", .str "is_true")]),
    ("reinforce", .list 5 [.record 6 [("action", .str "switch.set")]])]

theorem run_report_accounts_switch :
    ∃ report, (run switchHost "reinforce" [switchRule] ⟨.nil, .nil, .nil⟩ (.start false [])).1 = .ok report ∧
      report.rules.map Item.status = [.fixed] ∧ report.exitCode = 0 ∧ report.summary.fixed = 1 ∧
      ∃ pre mid post, (run switchHost "reinforce" [switchRule] ⟨.nil, .nil, .nil⟩ (.start false [])).2.trace =
        pre ++ .auditBegin 0 :: mid ++ .auditEnd 0 .pass :: post ∧ ∀ j o, .actionCall 0 j o ∉ mid ++ post := by
  have hst : (run switchHost "reinforce" [switchRule] ⟨.nil, .nil, .nil⟩ (.start false [])).1.map
      (fun report => report.rules.map Item.status) = .ok [.fixed] := by decide +kernel
  cases hrun : (run switchHost "reinforce" [switchRule] ⟨.nil, .nil, .nil⟩ (.start false [])).1 with
  | error e =>
    rw [hrun] at hst
    cases hst
  | ok report =>
    rw [hrun] at hst
    replace hst := Except.ok.inj hst
    obtain ⟨item, hitem, hfixed⟩ := List.map_eq_singleton_iff.mp hst
    obtain ⟨-, -, -, hb, hexit, hfix⟩ := run_report_accounts switchHost "reinforce" [switchRule] ⟨.nil, .nil, .nil⟩
      false [] report hrun
    refine ⟨report, rfl, hst, hexit.mpr (by simp [hitem, hfixed]), ?_, hfix 0 item (by rw [hitem]; rfl) hfixed⟩
    have hcount := hb.fixed
    rw [hitem] at hcount
    simpa [hfixed] using hcount

end Seharden
