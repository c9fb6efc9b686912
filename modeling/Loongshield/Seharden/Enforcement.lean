import Loongshield.Seharden.Trace

/-!
# When enforcers run

- `RuleTrace.returns`, `RuleTrace.raises`: a rule gets its item iff all its steps that nothing protects return;
- `EnforceTrace.action`, `RuleTrace.action`: what stands around the call of an action in the trace of one rule;
- `RunTrace.allowed`: in a whole run, an enforcer is called only when it is allowed to;
- `run_actions_allowed_iff`: when the following rules are processed as well.
-/

namespace Seharden

open Lua Trace

/-! ## Whose events -/

/-- The events of an audit of rule `i`. -/
def Event.ofAudit (i : Nat) : Event → Prop
  | .auditBegin i' => i' = i
  | .resolving i' _ _ => i' = i
  | .evaluating i' _ => i' = i
  | .auditEnd i' _ => i' = i
  | e => e.ofProbe .audit

/-- The events of the guard of rule `i`. -/
def Event.ofGuard (i : Nat) : Event → Prop
  | .guardMissing i' _ => i' = i
  | .resolving i' _ _ => i' = i
  | .guardCall i' _ _ => i' = i
  | e => e.ofProbe .guard

/-- The events of the actions of rule `i`. -/
def Event.ofAction (i : Nat) : Event → Prop
  | .resolving i' _ _ => i' = i
  | .previewing i' _ => i' = i
  | .actionMissing i' _ => i' = i
  | .actionCall i' _ _ => i' = i
  | _ => False

/-- The events that rule `i` does not leave. -/
def Event.foreign (i : Nat) : Event → Prop
  | .rejected i' => i' ≠ i
  | .validated i' => i' ≠ i
  | .auditBegin i' => i' ≠ i
  | .resolving i' _ _ => i' ≠ i
  | .evaluating i' _ => i' ≠ i
  | .showing i' _ => i' ≠ i
  | .previewing i' _ => i' ≠ i
  | .auditEnd i' _ => i' ≠ i
  | .guardMissing i' _ => i' ≠ i
  | .guardCall i' _ _ => i' ≠ i
  | .actionMissing i' _ => i' ≠ i
  | .actionCall i' _ _ => i' ≠ i
  | .dumpUsed .. => True
  | .cleared => True

theorem Event.ofAudit_of_ofTask {i : Nat} {e : Event} (h : e.ofTask i .audit) : e.ofAudit i := by
  cases e <;> first | exact h | exact h.1 | exact h.elim

theorem Event.ofGuard_of_ofTask {i : Nat} {e : Event} (h : e.ofTask i .guard) : e.ofGuard i := by
  cases e <;> first | exact h | exact h.1 | exact h.elim

section Owner

variable {σ : Type} {h : Host σ} {i : Nat} {rule : Value} {dryRun : Bool}

theorem AuditTrace.ofAudit {tr : List Event} {r : Except Err AuditStatus} (ht : AuditTrace h i rule tr r) :
    ∀ e ∈ tr, e.ofAudit i := by
  have htask : ∀ {tr : List Event}, (∀ e ∈ tr, e.ofTask i .audit) → ∀ e ∈ tr, e.ofAudit i :=
    fun htr e he => Event.ofAudit_of_ofTask (htr e he)
  cases ht with
  | failed htr => simpa [Event.ofAudit, or_imp, forall_and] using htask htr
  | unresolved htr => simpa [Event.ofAudit, or_imp, forall_and] using htask htr
  | raised htr => simpa [Event.ofAudit, or_imp, forall_and] using htask htr
  | judged htr => simpa [Event.ofAudit, or_imp, forall_and] using htask htr

theorem GuardBlock.ofGuard {k : Nat} {task : Value} {tr : List Event} {r : Except Halt Unit}
    (ht : GuardBlock i k task tr r) : ∀ e ∈ tr, e.ofGuard i := by
  have htask : ∀ {tr : List Event}, (∀ e ∈ tr, e.ofTask i .guard) → ∀ e ∈ tr, e.ofGuard i :=
    fun htr e he => Event.ofGuard_of_ofTask (htr e he)
  cases ht with
  | missing => simp [Event.ofGuard]
  | unresolved => simp [Event.ofGuard]
  | stop htr => simpa [Event.ofGuard, or_imp, forall_and] using htask htr
  | pass htr => simpa [Event.ofGuard, or_imp, forall_and] using htask htr

theorem GuardTrace.ofGuard {tr : List Event} {r : Except Halt (List Unit)} (ht : GuardTrace i rule tr r) :
    ∀ e ∈ tr, e.ofGuard i := by
  intro e he
  obtain ⟨k, task, tr', r', -, hb, he', -⟩ := Blocks.mem ht he
  exact hb.ofGuard e he'

theorem ActionBlock.ofAction {j : Nat} {task : Value} {tr : List Event} {r : Except Halt Unit}
    (ht : ActionBlock h i dryRun j task tr r) : ∀ e ∈ tr, e.ofAction i := by
  cases ht with
  | unresolved => simp [Event.ofAction]
  | resolved _ hs => cases hs <;> simp [Event.ofAction]

theorem ActionTrace.ofAction {tr : List Event} {r : Except Halt (List Unit)}
    (ht : ActionTrace h i rule dryRun tr r) : ∀ e ∈ tr, e.ofAction i := by
  intro e he
  obtain ⟨j, task, tr', r', -, hb, he', -⟩ := Blocks.mem ht he
  exact hb.ofAction e he'

/-- The verbose details leave one event at most. -/
theorem ShowTrace.showing {s : AuditStatus} {sh : List Event} {r : Except Err Unit} (ht : ShowTrace h i rule s sh r) :
    ∀ e ∈ sh, ∃ probed, e = .showing i probed := by
  cases ht with
  | off => nofun
  | on => simp

end Owner

/-! ## Steps that nothing protects -/

section Unprotected

variable {σ : Type} (h : Host σ) (i : Nat) (rule : Value)

/-- A step of rule `i`: if nothing protects it, it returned. -/
def Event.Returns : Event → Prop
  | .resolving i' task probed => i' = i ∧ ∃ params, resolveParams task probed = .ok params
  | .evaluating i' probed => i' = i ∧ probed.isTable = true ∧
      ∃ v, evaluate h.yamlDump (rule.field "assertion") { probe := probed, item := .nil } = .ok v
  | .showing i' probed => i' = i ∧ ∃ lines,
      emitVerboseRuleDetails h.yamlDump (rule.field "assertion") probed (getProbeTasks rule "probes") = .ok lines
  | .previewing i' params => i' = i ∧ ∃ s, serializeForLog h.yamlDump params = .ok s
  | _ => True

/-- A step of rule `i` that nothing protects raised. -/
def Event.Raises : Event → Prop
  | .resolving i' task probed => i' = i ∧ ¬∃ params, resolveParams task probed = .ok params
  | .evaluating i' probed => i' = i ∧ probed.isTable = true ∧
      ¬∃ v, evaluate h.yamlDump (rule.field "assertion") { probe := probed, item := .nil } = .ok v
  | .showing i' probed => i' = i ∧ ¬∃ lines,
      emitVerboseRuleDetails h.yamlDump (rule.field "assertion") probed (getProbeTasks rule "probes") = .ok lines
  | .previewing i' params => i' = i ∧ ¬∃ s, serializeForLog h.yamlDump params = .ok s
  | _ => False

variable {h i rule} {dryRun : Bool}

theorem Event.returns_of_ofTask {phase : Phase} {e : Event} (he : e.ofTask i phase) : e.Returns h i rule := by
  cases e <;> trivial

theorem not_ok_of_error {α : Type} {m : Except Err α} {e : Err} (he : m = .error e) : ¬∃ v, m = .ok v := by
  rw [he]
  nofun

theorem AuditTrace.returns {tr : List Event} {s : AuditStatus} (ht : AuditTrace h i rule tr (.ok s)) :
    ∀ e ∈ tr, e.Returns h i rule := by
  have htask : ∀ {tr : List Event} {phase : Phase}, (∀ e ∈ tr, e.ofTask i phase) → ∀ e ∈ tr, e.Returns h i rule :=
    fun htr e he => Event.returns_of_ofTask (htr e he)
  generalize hr : (Except.ok s : Except Err AuditStatus) = r at ht
  cases ht with
  | failed htr =>
    exact List.forall_mem_append.mpr ⟨List.forall_mem_cons.mpr ⟨trivial, htask htr⟩,
      List.forall_mem_singleton.mpr trivial⟩
  | unresolved => cases hr
  | raised => cases hr
  | judged htr hp he =>
    exact List.forall_mem_append.mpr ⟨List.forall_mem_cons.mpr ⟨trivial, htask htr⟩,
      List.forall_mem_cons.mpr ⟨⟨rfl, hp, _, he⟩, List.forall_mem_singleton.mpr trivial⟩⟩

theorem AuditTrace.raises {tr : List Event} {e : Err} (ht : AuditTrace h i rule tr (.error e)) :
    ∃ ev ∈ tr, ev.Raises h i rule := by
  cases ht with
  | unresolved _ he => exact ⟨.resolving i _ _, by simp, rfl, not_ok_of_error he⟩
  | raised _ hp he => exact ⟨.evaluating i _, by simp, rfl, hp, not_ok_of_error he⟩

theorem GuardTrace.raises {g : List Event} {e : Err} (ht : GuardTrace i rule g (.error (.raised e))) :
    ∃ ev ∈ g, ev.Raises h i rule := by
  obtain ⟨k, task, before, tr, bs, -, hP, rfl, -⟩ := Blocks.error ht
  cases hP with
  | unresolved he => exact ⟨.resolving i task _, by simp, rfl, not_ok_of_error he⟩

theorem ActionTrace.raises {a : List Event} {e : Err} (ht : ActionTrace h i rule dryRun a (.error (.raised e))) :
    ∃ ev ∈ a, ev.Raises h i rule := by
  obtain ⟨k, task, before, tr, bs, -, hP, rfl, -⟩ := Blocks.error ht
  cases hP with
  | unresolved he => exact ⟨.resolving i task _, by simp, rfl, not_ok_of_error he⟩
  | resolved _ hs =>
    cases hs with
    | unwritten _ he => exact ⟨.previewing i _, by simp, rfl, not_ok_of_error he⟩

/-- A list of tasks that did not raise: all its steps returned. -/
theorem GuardTrace.returns {g : List Event} {r : Except Halt (List Unit)} (ht : GuardTrace i rule g r)
    (hr : ∀ e, r ≠ .error (.raised e)) : ∀ e ∈ g, e.Returns h i rule := by
  intro e he
  obtain ⟨k, task, tr, r', -, hP, he', herr⟩ := Blocks.mem ht he
  cases hP with
  | missing =>
    obtain rfl := List.mem_singleton.mp he'
    trivial
  | unresolved => exact absurd (herr _ rfl) (hr _)
  | stop htr =>
    rcases List.mem_append.mp he' with he' | he'
    · exact Event.returns_of_ofTask (htr e he')
    · obtain rfl := List.mem_singleton.mp he'
      trivial
  | pass htr =>
    rcases List.mem_append.mp he' with he' | he'
    · exact Event.returns_of_ofTask (htr e he')
    · obtain rfl := List.mem_singleton.mp he'
      trivial

theorem ActionTrace.returns {a : List Event} {r : Except Halt (List Unit)} (ht : ActionTrace h i rule dryRun a r)
    (hr : ∀ e, r ≠ .error (.raised e)) : ∀ e ∈ a, e.Returns h i rule := by
  intro e he
  obtain ⟨k, task, tr, r', -, hP, he', herr⟩ := Blocks.mem ht he
  cases hP with
  | unresolved => exact absurd (herr _ rfl) (hr _)
  | resolved hres hs =>
    rcases List.mem_cons.mp he' with rfl | he'
    · exact ⟨rfl, _, hres⟩
    · cases hs with
      | unwritten => exact absurd (herr _ rfl) (hr _)
      | passedOver => cases he'
      | previewed _ hw =>
        obtain rfl := List.mem_singleton.mp he'
        exact ⟨rfl, _, hw⟩
      | missing =>
        obtain rfl := List.mem_singleton.mp he'
        trivial
      | stop =>
        obtain rfl := List.mem_singleton.mp he'
        trivial
      | pass =>
        obtain rfl := List.mem_singleton.mp he'
        trivial

theorem EnforceTrace.returns {en : List Event} {r : Enforce} (ht : EnforceTrace h i rule dryRun en (.ok r)) :
    ∀ e ∈ en, e.Returns h i rule := by
  cases ht with
  | unset => nofun
  | guarded hg => exact hg.returns nofun
  | stopped hg ha => exact List.forall_mem_append.mpr ⟨hg.returns nofun, ha.returns nofun⟩
  | skipped _ hg ha => exact List.forall_mem_append.mpr ⟨hg.returns nofun, ha.returns nofun⟩
  | done _ hg ha =>
    refine List.forall_mem_append.mpr ⟨List.forall_mem_append.mpr ⟨hg.returns nofun, ha.returns nofun⟩, ?_⟩
    exact List.forall_mem_singleton.mpr trivial

theorem EnforceTrace.raises {en : List Event} {e : Err} (ht : EnforceTrace h i rule dryRun en (.error e)) :
    ∃ ev ∈ en, ev.Raises h i rule := by
  cases ht with
  | guardRaised hg => exact hg.raises
  | raised hg ha =>
    obtain ⟨ev, hmem, hev⟩ := ha.raises
    exact ⟨ev, List.mem_append_right _ hmem, hev⟩

theorem ShowTrace.returns {s : AuditStatus} {sh : List Event} (ht : ShowTrace h i rule s sh (.ok ())) :
    ∀ e ∈ sh, e.Returns h i rule := by
  generalize hr : (Except.ok () : Except Err Unit) = r at ht
  cases ht with
  | off => nofun
  | on _ => exact List.forall_mem_singleton.mpr ⟨rfl, map_ok_iff.mp ⟨(), hr.symm⟩⟩

theorem ShowTrace.raises {s : AuditStatus} {sh : List Event} {e : Err} (ht : ShowTrace h i rule s sh (.error e)) :
    ∃ ev ∈ sh, ev.Raises h i rule := by
  generalize hr : (Except.error e : Except Err Unit) = r at ht
  cases ht with
  | off => cases hr
  | on _ =>
    exact ⟨.showing i _, List.mem_singleton_self _, rfl, fun hok => not_ok_of_error hr.symm (map_ok_iff.mpr hok)⟩

/-- **A rule that got its item**: all its steps returned. -/
theorem RuleTrace.returns {mode : Str} {tr : List Event} {s : Status} (ht : RuleTrace h i rule mode dryRun tr (.ok s)) :
    ∀ e ∈ tr, e.Returns h i rule := by
  have hvalid : ∀ {tr sh : List Event} {s : AuditStatus}, AuditTrace h i rule tr (.ok s) →
      ShowTrace h i rule s sh (.ok ()) → ∀ e ∈ .validated i :: tr ++ sh, e.Returns h i rule := fun hv hsh =>
    List.forall_mem_append.mpr ⟨List.forall_mem_cons.mpr ⟨trivial, hv.returns⟩, hsh.returns⟩
  generalize hr : (Except.ok s : Except Err Status) = r at ht
  cases ht with
  | rejected => exact List.forall_mem_singleton.mpr trivial
  | raised => cases hr
  | unshown => cases hr
  | audited _ hv hsh => exact hvalid hv hsh
  | @enforced _ _ _ r _ hv hsh _ hen =>
    cases r with
    | error e => cases hr
    | ok r => exact List.forall_mem_append.mpr ⟨hvalid hv hsh, hen.returns⟩
  | @verified _ _ _ _ r _ hv hsh _ hen hv' =>
    cases r with
    | error e => cases hr
    | ok s' => exact List.forall_mem_append.mpr ⟨List.forall_mem_append.mpr ⟨hvalid hv hsh, hen.returns⟩, hv'.returns⟩

/-- **A rule that raised**: one of its steps did. -/
theorem RuleTrace.raises {mode : Str} {tr : List Event} {e : Err} (ht : RuleTrace h i rule mode dryRun tr (.error e)) :
    ∃ ev ∈ tr, ev.Raises h i rule := by
  generalize hr : (Except.error e : Except Err Status) = r at ht
  cases ht with
  | rejected => cases hr
  | audited => cases hr
  | raised _ hv =>
    obtain ⟨ev, hmem, hev⟩ := hv.raises
    exact ⟨ev, List.mem_cons_of_mem _ hmem, hev⟩
  | unshown _ _ hsh =>
    obtain ⟨ev, hmem, hev⟩ := hsh.raises
    exact ⟨ev, List.mem_append_right _ hmem, hev⟩
  | @enforced _ _ _ r _ _ _ _ hen =>
    cases r with
    | ok r => cases hr
    | error e' =>
      obtain ⟨ev, hmem, hev⟩ := hen.raises
      exact ⟨ev, List.mem_append_right _ hmem, hev⟩
  | @verified _ _ _ _ r _ _ _ _ _ hv' =>
    cases r with
    | ok s' => cases hr
    | error e' =>
      obtain ⟨ev, hmem, hev⟩ := hv'.raises
      exact ⟨ev, List.mem_append_right _ hmem, hev⟩

end Unprotected

/-! ## Around the call of an action -/

section Action

variable {σ : Type} {h : Host σ} {i i' j : Nat} {rule : Value} {o : Outcome} {pre post : List Event} {dryRun : Bool}

/-- The call of an action is the last event of its block. -/
theorem ActionBlock.call {k : Nat} {task : Value} {tr : List Event} {r : Except Halt Unit}
    (ht : ActionBlock h i dryRun k task tr r) (htr : tr = pre ++ .actionCall i' j o :: post) :
    dryRun = false ∧ i' = i ∧ j = k ∧ (∃ probed, pre = [.resolving i task probed]) ∧ post = [] ∧
      ∀ us, r = .ok us → o.succeeded = true := by
  cases ht with
  | unresolved => simp [List.singleton_eq_append_iff] at htr
  | resolved _ hs =>
    rcases List.cons_eq_append_iff.mp htr with ⟨rfl, hcall⟩ | ⟨pre', rfl, hcall⟩
    · cases hcall
    · cases hs with
      | missing => simp [List.singleton_eq_append_iff] at hcall
      | passedOver => simp at hcall
      | unwritten => simp [List.singleton_eq_append_iff] at hcall
      | previewed => simp [List.singleton_eq_append_iff] at hcall
      | stop hd _ =>
        simp only [List.singleton_eq_append_iff, List.cons.injEq, reduceCtorEq, and_false, or_false] at hcall
        obtain ⟨rfl, hcall, rfl⟩ := hcall
        cases hcall
        exact ⟨hd, rfl, rfl, ⟨_, rfl⟩, rfl, nofun⟩
      | pass hd hs =>
        simp only [List.singleton_eq_append_iff, List.cons.injEq, reduceCtorEq, and_false, or_false] at hcall
        obtain ⟨rfl, hcall, rfl⟩ := hcall
        cases hcall
        exact ⟨hd, rfl, rfl, ⟨_, rfl⟩, rfl, fun _ _ => hs⟩

/-- A block that went through in a real run is a call that succeeded. -/
theorem ActionBlock.passed {k : Nat} {task : Value} {tr : List Event} {u : Unit}
    (ht : ActionBlock h i false k task tr (.ok u)) :
    ∃ probed o, tr = [.resolving i task probed, .actionCall i k o] ∧ o.succeeded = true := by
  cases ht with
  | resolved _ hs =>
    cases hs with
    | pass _ hs => exact ⟨_, _, rfl, hs⟩
    | passedOver hd => cases hd
    | previewed hd => cases hd

/-- The actions are called in their order, each behind those before it; a failure is the last. -/
theorem ActionTrace.split {a : List Event} {r : Except Halt (List Unit)} (ht : ActionTrace h i rule dryRun a r)
    (ha : a = pre ++ .actionCall i' j o :: post) :
    dryRun = false ∧ i' = i ∧ j < (rule.field "reinforce").ipairs.length ∧
      (∀ j' < j, ∃ o', .actionCall i j' o' ∈ pre ∧ o'.succeeded = true) ∧
      (∀ j' o', .actionCall i j' o' ∈ pre → j' < j) ∧ (∀ j', .actionMissing i j' ∉ pre) ∧
      ∀ j' o', .actionCall i j' o' ∈ post → j < j' ∧ o.succeeded = true := by
  obtain ⟨k, task, before, pre', post', after, r', us, htask, hb, rfl, rfl, hbefore, hafter⟩ := Blocks.split ht ha
  rw [Nat.zero_add] at hb
  obtain ⟨rfl, rfl, rfl, ⟨probed, rfl⟩, rfl, hsucc⟩ := hb.call rfl
  -- the blocks of the earlier actions are calls that succeeded
  have hearlier : ∀ e ∈ before, ∃ k task probed o', k < j ∧
    (e = .resolving i' task probed ∨ e = .actionCall i' k o') := by
    intro e he
    obtain ⟨k, x, tr, r'', hx, hP, he', herr⟩ := Blocks.mem hbefore he
    have hk := lt_length hx
    rw [List.length_take] at hk
    rw [Nat.zero_add] at hP
    cases r'' with
    | error halt => cases herr halt rfl
    | ok u =>
      obtain ⟨probed', o', rfl, -⟩ := hP.passed
      exact ⟨k, x, probed', o', by omega, by simpa using he'⟩
  refine ⟨rfl, rfl, lt_length htask, fun j' hj' => ?_, fun j' o' hmem => ?_, fun j' hmem => ?_, fun j' o' hmem => ?_⟩
  · obtain ⟨task', htask'⟩ : ∃ task', (rule.field "reinforce").ipairs[j']? = some task' :=
      ⟨_, List.getElem?_eq_getElem (hj'.trans (lt_length htask))⟩
    have htake : ((rule.field "reinforce").ipairs.take j)[j']? = some task' := by
      rw [List.getElem?_take_of_lt hj', htask']
    obtain ⟨before', tr, after', b, _, _, rfl, -, hP, -, -⟩ := Blocks.get hbefore htake
    rw [Nat.zero_add] at hP
    obtain ⟨probed', o', rfl, hs⟩ := hP.passed
    exact ⟨o', by simp, hs⟩
  · obtain ⟨k, _, _, _, hk, he | he⟩ := hearlier _ (by simpa using hmem)
    · cases he
    · cases he
      exact hk
  · obtain ⟨k, _, _, _, hk, he | he⟩ := hearlier _ (by simpa using hmem)
    · cases he
    · cases he
  · rw [List.nil_append] at hmem
    rcases hafter with ⟨-, rfl⟩ | ⟨b, rs, hok, hafter⟩
    · cases hmem
    · obtain ⟨k, x, tr, r'', -, hP, he', -⟩ := Blocks.mem hafter hmem
      obtain ⟨_, _, htr⟩ := List.append_of_mem he'
      obtain ⟨-, -, rfl, -⟩ := hP.call htr
      exact ⟨by omega, hsucc b hok⟩

/-- A guard that lets the actions run got a falsy value from every task. -/
theorem GuardTrace.passed {g : List Event} {us : List Unit} (ht : GuardTrace i rule g (.ok us)) {k : Nat}
    (hk : k < (getProbeTasks rule "reinforce_guard").length) :
    ∃ res err, .guardCall i k (.returned res err) ∈ g ∧ res.truthy = false := by
  obtain ⟨before, tr, after, b, _, _, rfl, -, hP, -, -⟩ := Blocks.get ht (List.getElem?_eq_getElem hk)
  rw [Nat.zero_add] at hP
  cases hP with
  | @pass tr o htr hb =>
    cases o with
    | raised e => cases hb
    | returned res err => exact ⟨res, err, by simp, hb⟩

/-- **The call of an action in the trace of an enforcement**: the guard stands before it, and the actions of the rule
around it. The cache is cleared when all of them succeeded. -/
theorem EnforceTrace.action {en : List Event} {r : Except Err Enforce} (ht : EnforceTrace h i rule dryRun en r)
    (hen : en = pre ++ .actionCall i' j o :: post) : ∃ g us pre' post' ra rest,
      GuardTrace i rule g (.ok us) ∧ ActionTrace h i rule dryRun (pre' ++ .actionCall i' j o :: post') ra ∧
      pre = g ++ pre' ∧ post = post' ++ rest ∧
      (r ≠ .ok .done ∧ rest = [] ∧ (ra = .error .stopped ∨ ∃ e, r = .error e) ∨
        r = .ok .done ∧ (∃ us', ra = .ok us') ∧ rest = [.cleared]) := by
  have hguard : ∀ {g : List Event} {ra : Except Halt (List Unit)}, GuardTrace i rule g ra →
      ¬ .actionCall i' j o ∈ g := fun hg hmem => (hg.ofGuard _ hmem : False)
  cases ht with
  | unset => simp at hen
  | guarded hg => exact absurd (by rw [hen]; simp) (hguard hg)
  | guardRaised hg => exact absurd (by rw [hen]; simp) (hguard hg)
  | stopped hg ha =>
    rcases split_append hen with ⟨mid, rfl, -⟩ | ⟨mid, rfl, rfl⟩
    · exact absurd (by simp) (hguard hg)
    · exact ⟨_, _, mid, post, _, [], hg, ha, rfl, by simp, .inl ⟨nofun, rfl, .inl rfl⟩⟩
  | raised hg ha =>
    rcases split_append hen with ⟨mid, rfl, -⟩ | ⟨mid, rfl, rfl⟩
    · exact absurd (by simp) (hguard hg)
    · exact ⟨_, _, mid, post, _, [], hg, ha, rfl, by simp, .inl ⟨nofun, rfl, .inr ⟨_, rfl⟩⟩⟩
  | skipped hd hg ha =>
    rcases split_append hen with ⟨mid, rfl, -⟩ | ⟨mid, rfl, rfl⟩
    · exact absurd (by simp) (hguard hg)
    · obtain ⟨hd', -⟩ := ha.split rfl
      rw [hd] at hd'
      cases hd'
  | done hd hg ha =>
    rw [List.append_assoc] at hen
    rcases split_append hen with ⟨mid, rfl, -⟩ | ⟨mid, rfl, hmid⟩
    · exact absurd (by simp) (hguard hg)
    · rcases split_append hmid with ⟨mid', rfl, rfl⟩ | ⟨mid', rfl, hmid'⟩
      · exact ⟨_, _, mid, mid', _, [.cleared], hg, ha, rfl, rfl, .inr ⟨rfl, ⟨_, rfl⟩, rfl⟩⟩
      · simp [List.singleton_eq_append_iff] at hmid'

/-- **The call of an action in the trace of a rule.** -/
theorem RuleTrace.action {mode : Str} {tr : List Event} {r : Except Err Status}
    (ht : RuleTrace h i rule mode dryRun tr r) (htr : tr = pre ++ .actionCall i' j o :: post) :
    validateRule rule "rule" true = .ok () ∧ mode = "reinforce" ∧
      ∃ tr₁ sh g us pre' post' ra rest, AuditTrace h i rule tr₁ (.ok .fail) ∧ ShowTrace h i rule .fail sh (.ok ()) ∧
        GuardTrace i rule g (.ok us) ∧ ActionTrace h i rule dryRun (pre' ++ .actionCall i' j o :: post') ra ∧
        pre = .validated i :: tr₁ ++ sh ++ g ++ pre' ∧ post = post' ++ rest ∧
        (rest = [] ∧ (ra = .error .stopped ∨ ∃ e, r = .error e) ∨
          (∃ us', ra = .ok us') ∧ ∃ tr₂ v, rest = .cleared :: tr₂ ∧ AuditTrace h i rule tr₂ v) := by
  have haudit : ∀ {tr : List Event} {v : Except Err AuditStatus}, AuditTrace h i rule tr v →
      ¬ .actionCall i' j o ∈ .validated i :: tr := by
    intro tr v hv hmem
    rcases List.mem_cons.mp hmem with hmem | hmem
    · cases hmem
    · exact (hv.ofAudit _ hmem : False)
  have hshown : ∀ {tr sh : List Event} {v : Except Err AuditStatus} {s : AuditStatus} {r : Except Err Unit},
      AuditTrace h i rule tr v → ShowTrace h i rule s sh r → ¬ .actionCall i' j o ∈ .validated i :: tr ++ sh := by
    intro tr sh v s r hv hsh hmem
    rcases List.mem_append.mp hmem with hmem | hmem
    · exact haudit hv hmem
    · obtain ⟨probed, hprobed⟩ := hsh.showing _ hmem
      cases hprobed
  cases ht with
  | rejected => simp [List.singleton_eq_append_iff] at htr
  | raised _ hv => exact absurd (by rw [htr]; simp) (haudit hv)
  | unshown _ hv hsh => exact absurd (by rw [htr]; simp) (hshown hv hsh)
  | audited _ hv hsh => exact absurd (by rw [htr]; simp) (hshown hv hsh)
  | enforced hval hv hsh hm hen hr =>
    rcases split_append htr with ⟨mid, hmid, -⟩ | ⟨mid, rfl, hmid⟩
    · exact absurd (by rw [hmid]; simp) (hshown hv hsh)
    · obtain ⟨g, us, pre', post', ra, rest, hg, ha, rfl, rfl, ⟨-, hrest, hra⟩ | ⟨hdone, -⟩⟩ := hen.action hmid
      · refine ⟨hval, hm, _, _, g, us, pre', post', ra, rest, hv, hsh, hg, ha, by simp, rfl, .inl ⟨hrest, ?_⟩⟩
        refine hra.imp id ?_
        rintro ⟨e, rfl⟩
        exact ⟨e, rfl⟩
      · exact absurd hdone hr
  | verified hval hv hsh hm hen hv' =>
    rw [List.append_assoc] at htr
    rcases split_append htr with ⟨mid, hmid, -⟩ | ⟨mid, rfl, hmid⟩
    · exact absurd (by rw [hmid]; simp) (hshown hv hsh)
    · rcases split_append hmid with ⟨mid', hmid', rfl⟩ | ⟨mid', -, hmid'⟩
      · obtain ⟨g, us, pre', post', ra, rest, hg, ha, rfl, rfl, ⟨hr, -⟩ | ⟨-, hra, rfl⟩⟩ := hen.action hmid'
        · exact absurd rfl hr
        · exact ⟨hval, hm, _, _, g, us, pre', post', ra, _, hv, hsh, hg, ha, by simp, List.append_assoc .., .inr
            ⟨hra, _, _, rfl, hv'⟩⟩
      · exact absurd (List.mem_cons_of_mem _ (by rw [hmid']; simp)) (haudit hv')

end Action

/-! ## Runs -/

section Run

variable {σ : Type} {h : Host σ} {mode : Str} {dryRun : Bool}

theorem Event.foreign_of_ofAudit {i i' : Nat} {e : Event} (he : e.ofAudit i) (hne : i' ≠ i) : e.foreign i' := by
  cases e <;> first | trivial | exact he.elim | exact fun heq => hne (heq.symm.trans he)

theorem Event.foreign_of_ofGuard {i i' : Nat} {e : Event} (he : e.ofGuard i) (hne : i' ≠ i) : e.foreign i' := by
  cases e <;> first | trivial | exact he.elim | exact fun heq => hne (heq.symm.trans he)

theorem Event.foreign_of_ofAction {i i' : Nat} {e : Event} (he : e.ofAction i) (hne : i' ≠ i) : e.foreign i' := by
  cases e <;> first | trivial | exact he.elim | exact fun heq => hne (heq.symm.trans he)

theorem EnforceTrace.foreign {i i' : Nat} {rule : Value} {en : List Event} {r : Except Err Enforce}
    (ht : EnforceTrace h i rule dryRun en r) (hne : i' ≠ i) : ∀ e ∈ en, e.foreign i' := by
  have hguard : ∀ {g : List Event} {ra : Except Halt (List Unit)}, GuardTrace i rule g ra → ∀ e ∈ g, e.foreign i' :=
    fun hg e he => Event.foreign_of_ofGuard (hg.ofGuard e he) hne
  have haction : ∀ {a : List Event} {ra : Except Halt (List Unit)}, ActionTrace h i rule dryRun a ra →
      ∀ e ∈ a, e.foreign i' := fun ha e he => Event.foreign_of_ofAction (ha.ofAction e he) hne
  cases ht with
  | unset => nofun
  | guarded hg => exact hguard hg
  | guardRaised hg => exact hguard hg
  | stopped hg ha => exact List.forall_mem_append.mpr ⟨hguard hg, haction ha⟩
  | raised hg ha => exact List.forall_mem_append.mpr ⟨hguard hg, haction ha⟩
  | skipped _ hg ha => exact List.forall_mem_append.mpr ⟨hguard hg, haction ha⟩
  | done _ hg ha =>
    refine List.forall_mem_append.mpr ⟨List.forall_mem_append.mpr ⟨hguard hg, haction ha⟩, ?_⟩
    exact List.forall_mem_singleton.mpr trivial

/-- A rule leaves events of its own only. -/
theorem RuleTrace.foreign {i i' : Nat} {rule : Value} {tr : List Event} {r : Except Err Status}
    (ht : RuleTrace h i rule mode dryRun tr r) (hne : i' ≠ i) : ∀ e ∈ tr, e.foreign i' := by
  have haudit : ∀ {tr : List Event} {v : Except Err AuditStatus}, AuditTrace h i rule tr v → ∀ e ∈ tr, e.foreign i' :=
    fun hv e he => Event.foreign_of_ofAudit (hv.ofAudit e he) hne
  have hvalid : ∀ {tr sh : List Event} {v : Except Err AuditStatus} {s : AuditStatus} {r : Except Err Unit},
      AuditTrace h i rule tr v → ShowTrace h i rule s sh r → ∀ e ∈ .validated i :: tr ++ sh, e.foreign i' := by
    intro tr sh v s r hv hsh
    refine List.forall_mem_append.mpr ⟨List.forall_mem_cons.mpr ⟨hne.symm, haudit hv⟩, fun e he => ?_⟩
    obtain ⟨probed, rfl⟩ := hsh.showing e he
    exact hne.symm
  cases ht with
  | rejected => exact List.forall_mem_singleton.mpr hne.symm
  | raised _ hv => exact List.forall_mem_cons.mpr ⟨hne.symm, haudit hv⟩
  | unshown _ hv hsh => exact hvalid hv hsh
  | audited _ hv hsh => exact hvalid hv hsh
  | enforced _ hv hsh _ hen => exact List.forall_mem_append.mpr ⟨hvalid hv hsh, hen.foreign hne⟩
  | verified _ hv hsh _ hen hv' =>
    exact List.forall_mem_append.mpr ⟨List.forall_mem_append.mpr ⟨hvalid hv hsh, hen.foreign hne⟩, haudit hv'⟩

/-- Other rules leave foreign events. -/
theorem RunTrace.foreign {i i' : Nat} {rules : List Value} {t : List Event} {r : Except Err (List Status)}
    (ht : RunTrace h mode dryRun i rules t r) (hi : i' < i ∨ i + rules.length ≤ i') : ∀ e ∈ t, e.foreign i' := by
  intro e he
  obtain ⟨k, rule, tr, r', hk, hP, he', -⟩ := Blocks.mem ht he
  have hlen := lt_length hk
  exact RuleTrace.foreign hP (by omega) e he'

/-- **A moment of a run**: it lies in the trace of one rule, and all the other events are foreign to that rule. Nothing
follows on a rule that raised. -/
theorem RunTrace.split {rules : List Value} {t pre post : List Event} {e : Event} {r : Except Err (List Status)}
    (ht : RunTrace h mode dryRun 0 rules t r) (hsplit : t = pre ++ e :: post) :
    ∃ i rule before pre' post' after r', rules[i]? = some rule ∧
      RuleTrace h i rule mode dryRun (pre' ++ e :: post') r' ∧ pre = before ++ pre' ∧ post = post' ++ after ∧
      (∀ e ∈ before, e.foreign i) ∧ (∀ e ∈ after, e.foreign i) ∧ ((∃ err, r' = .error err) → after = []) := by
  obtain ⟨i, rule, before, pre', post', after, r', bs, hi, hP, hpre, hpost, hbefore, hafter⟩ := Blocks.split ht hsplit
  rw [Nat.zero_add] at hP hafter
  refine ⟨i, rule, before, pre', post', after, r', hi, hP, hpre, hpost, ?_, ?_, ?_⟩
  · exact RunTrace.foreign hbefore (.inr (by rw [List.length_take]; omega))
  · rcases hafter with ⟨-, rfl⟩ | ⟨b, rs, -, hafter⟩
    · nofun
    · exact RunTrace.foreign hafter (.inl (by omega))
  · rintro ⟨err, rfl⟩
    rcases hafter with ⟨-, rfl⟩ | ⟨b, rs, hok, -⟩
    · rfl
    · cases hok

/-- What must have happened before action `j` of rule `i` is called, and what may happen after it. -/
structure Allowed (rule : Value) (i j : Nat) (o : Outcome) (pre post : List Event) : Prop where
  accepted : validateRule rule "rule" true = .ok ()
  validated : .validated i ∈ pre
  failed : .auditEnd i .fail ∈ pre
  guarded : ∀ k < (getProbeTasks rule "reinforce_guard").length, ∃ res err,
    .guardCall i k (.returned res err) ∈ pre ∧ res.truthy = false
  listed : j < (rule.field "reinforce").ipairs.length
  inOrder : ∀ j' < j, ∃ o', .actionCall i j' o' ∈ pre ∧ o'.succeeded = true
  earlier : ∀ j' o', .actionCall i j' o' ∈ pre → j' < j
  present : ∀ j', .actionMissing i j' ∉ pre
  later : ∀ j' o', .actionCall i j' o' ∈ post → j < j' ∧ o.succeeded = true

/-- **An enforcer is called only when it is allowed to**, in the trace of a run. -/
theorem RunTrace.allowed {rules : List Value} {t pre post : List Event} {i j : Nat} {o : Outcome}
    {r : Except Err (List Status)} (ht : RunTrace h mode dryRun 0 rules t r)
    (hsplit : t = pre ++ .actionCall i j o :: post) :
    mode = "reinforce" ∧ dryRun = false ∧ ∃ rule, rules[i]? = some rule ∧ Allowed rule i j o pre post := by
  obtain ⟨k, rule, before, pre', post', after, r', hk, hrule, rfl, rfl, hbefore, hafter, -⟩ := ht.split hsplit
  obtain ⟨hval, hm, tr₁, sh, g, us, pa, qa, ra, rest, hv, hsh, hg, ha, rfl, rfl, hrest⟩ := hrule.action rfl
  obtain ⟨hd, rfl, hlen, horder, hearlier, hpresent, hlater⟩ := ha.split rfl
  have hfail : .auditEnd i .fail ∈ tr₁ := by
    generalize hst : (Except.ok AuditStatus.fail : Except Err AuditStatus) = st at hv
    cases hv with
    | failed => cases hst
    | unresolved => cases hst
    | raised => cases hst
    | judged =>
      cases hst
      simp
  -- before the actions of the rule there are no events of actions of the rule
  have hbare : ∀ e ∈ before ++ (.validated i :: tr₁ ++ sh ++ g), ∀ j', e ≠ .actionMissing i j' ∧
      ∀ o', e ≠ .actionCall i j' o' := by
    intro e hmem j'
    simp only [List.mem_append, List.mem_cons] at hmem
    rcases hmem with hmem | ((rfl | hmem) | hmem) | hmem
    · exact ⟨by rintro rfl; exact hbefore _ hmem rfl, by rintro o' rfl; exact hbefore _ hmem rfl⟩
    · exact ⟨nofun, nofun⟩
    · have := hv.ofAudit e hmem
      exact ⟨by rintro rfl; exact this, by rintro o' rfl; exact this⟩
    · obtain ⟨probed, rfl⟩ := hsh.showing e hmem
      exact ⟨nofun, nofun⟩
    · have := hg.ofGuard e hmem
      exact ⟨by rintro rfl; exact this, by rintro o' rfl; exact this⟩
  refine ⟨hm, hd, rule, hk, ⟨hval, by simp, by simp [hfail], fun n hn => ?_, hlen, fun j' hj' => ?_,
    fun j' o' hmem => ?_, fun j' hmem => ?_, fun j' o' hmem => ?_⟩⟩
  · obtain ⟨res, err, hmem, htr⟩ := hg.passed hn
    exact ⟨res, err, by simp [hmem], htr⟩
  · obtain ⟨o', hmem, hs⟩ := horder j' hj'
    exact ⟨o', by simp [hmem], hs⟩
  · rw [← List.append_assoc, List.mem_append] at hmem
    rcases hmem with hmem | hmem
    · exact absurd rfl ((hbare _ hmem j').2 o')
    · exact hearlier j' o' hmem
  · rw [← List.append_assoc, List.mem_append] at hmem
    rcases hmem with hmem | hmem
    · exact absurd rfl (hbare _ hmem j').1
    · exact hpresent j' hmem
  · simp only [List.mem_append] at hmem
    rcases hmem with (hmem | hmem) | hmem
    · exact hlater j' o' hmem
    · rcases hrest with ⟨rfl, -⟩ | ⟨-, tr₂, v, rfl, hv₂⟩
      · cases hmem
      · rcases List.mem_cons.mp hmem with hmem | hmem
        · cases hmem
        · exact (hv₂.ofAudit _ hmem : False).elim
    · exact absurd rfl (hafter _ hmem)

/-- A rule is rejected or accepted first. -/
theorem RuleTrace.started {i : Nat} {rule : Value} {tr : List Event} {r : Except Err Status}
    (ht : RuleTrace h i rule mode dryRun tr r) : .rejected i ∈ tr ∨ .validated i ∈ tr := by
  cases ht <;> simp

/-- The processing of rule `i` began. -/
def Started (t : List Event) (i : Nat) : Prop := .rejected i ∈ t ∨ .validated i ∈ t

theorem Started.not_foreign {t : List Event} {i : Nat} (hs : Started t i) : ¬∀ e ∈ t, e.foreign i :=
  fun hall => hs.elim (fun hmem => hall _ hmem rfl) fun hmem => hall _ hmem rfl

/-- **How far a run gets**: to its end, or to the first rule that raises. The rules before it got their items, and the
rules behind it are not begun. -/
theorem RunTrace.progress {rules : List Value} {t : List Event} {r : Except Err (List Status)}
    (ht : RunTrace h mode dryRun 0 rules t r) : ∃ n,
      (∀ i rule, i < n → rules[i]? = some rule → ∀ e ∈ t, ¬e.foreign i → e.Returns h i rule) ∧
      (∀ i, Started t i ↔ i ≤ n ∧ i < rules.length) ∧
      ((∃ ss, r = .ok ss) ∧ n = rules.length ∨
        (∃ err, r = .error err) ∧ ∃ rule, rules[n]? = some rule ∧ ∃ e ∈ t, e.Raises h n rule) := by
  -- a part of the run that went through
  have hok : ∀ {rules : List Value} {t : List Event} {ss : List Status}, RunTrace h mode dryRun 0 rules t (.ok ss) →
      (∀ i rule, rules[i]? = some rule → ∀ e ∈ t, ¬e.foreign i → e.Returns h i rule) ∧
        ∀ i < rules.length, Started t i := by
    intro rules t ss ht
    refine ⟨fun i rule hi e he hown => ?_, fun i hi => ?_⟩
    · obtain ⟨k, rule', tr, r', hk, hP, he', herr⟩ := Blocks.mem ht he
      rw [Nat.zero_add] at hP
      obtain rfl : i = k := by
        by_contra hne
        exact hown (hP.foreign hne e he')
      obtain rfl := Option.some.inj (hi.symm.trans hk)
      cases r' with
      | error err => cases herr err rfl
      | ok s => exact hP.returns e he'
    · obtain ⟨before, tr, after, b, _, _, rfl, -, hP, -, -⟩ := Blocks.get ht (List.getElem?_eq_getElem hi)
      rw [Nat.zero_add] at hP
      exact hP.started.imp (by simp +contextual) (by simp +contextual)
  cases r with
  | ok ss =>
    obtain ⟨hreturns, hstarted⟩ := hok ht
    refine ⟨rules.length, fun i rule _ => hreturns i rule, fun i => ⟨fun hs => ?_, fun hi => hstarted i hi.2⟩,
      .inl ⟨⟨ss, rfl⟩, rfl⟩⟩
    have hlt : i < rules.length := by
      by_contra hge
      exact hs.not_foreign (RunTrace.foreign ht (.inr (by omega)))
    exact ⟨hlt.le, hlt⟩
  | error err =>
    obtain ⟨n, rule, before, tr, bs, hn, hP, rfl, hbefore⟩ := Blocks.error ht
    rw [Nat.zero_add] at hP
    have hlen := lt_length hn
    obtain ⟨hreturns, hstarted⟩ := hok hbefore
    refine ⟨n, fun i rule' hi hrule e he hown => ?_, fun i => ⟨fun hs => ?_, fun hi => ?_⟩,
      .inr ⟨⟨err, rfl⟩, rule, hn, ?_⟩⟩
    · rcases List.mem_append.mp he with he | he
      · exact hreturns i rule' (by rw [List.getElem?_take_of_lt hi, hrule]) e he hown
      · exact absurd (hP.foreign hi.ne e he) hown
    · have hle : i ≤ n := by
        by_contra hgt
        refine hs.not_foreign (List.forall_mem_append.mpr ⟨RunTrace.foreign hbefore (.inr ?_), hP.foreign (by omega)⟩)
        rw [List.length_take]
        omega
      exact ⟨hle, by omega⟩
    · rcases hi.1.lt_or_eq with hlt | rfl
      · exact (hstarted i (by rw [List.length_take]; omega)).imp (List.mem_append_left _) (List.mem_append_left _)
      · exact hP.started.imp (List.mem_append_right _) (List.mem_append_right _)
    · obtain ⟨ev, hmem, hev⟩ := hP.raises
      exact ⟨ev, List.mem_append_right _ hmem, hev⟩

end Run

/-! ## The following rules -/

/-- The parameters of a task can be resolved on probed data: no key of them becomes NaN. -/
def Resolves (task probed : Value) : Prop :=
  ¬NanFault (Contexts.toValue { probe := probed, item := .nil }) (task.field "params")

theorem resolveParams_ok_iff {task probed : Value} :
    (∃ params, resolveParams task probed = .ok params) ↔ Resolves task probed := by
  unfold resolveParams Resolves
  rw [map_ok_iff, resolveValue_ok_iff]

section Unhindered

variable {σ : Type} (h : Host σ)

/-- The steps of rule `i` that nothing protects, other than the evaluation of its assertion, can be made: the parameters
of its tasks can be resolved, the values of its probes can be shown, and the parameters of its actions can be
written. -/
structure Unhindered (rule : Value) (i : Nat) (t : List Event) : Prop where
  resolves : ∀ task probed, .resolving i task probed ∈ t → Resolves task probed
  shows : ∀ probed, .showing i probed ∈ t → Shows h.yamlDump probed (getProbeTasks rule "probes")
  previews : ∀ params, .previewing i params ∈ t → Dumps h.yamlDump params

/-- Every evaluation of an assertion in a run returned. -/
def Evaluates (rules : List Value) (t : List Event) : Prop := ∀ i rule probed, rules[i]? = some rule →
  .evaluating i probed ∈ t →
    ∃ v, evaluate h.yamlDump (rule.field "assertion") { probe := probed, item := .nil } = .ok v

/-- The calls of enforcers in a run: none in other modes or in a dry run, and each one allowed. -/
def ActionsAllowed (mode : Str) (rules : List Value) (opts : Opts) (t : List Event) : Prop :=
  (mode ≠ "reinforce" ∨ opts.dryRun.truthy = true → ∀ i j o, .actionCall i j o ∉ t) ∧
  ∀ pre i j o post, t = pre ++ .actionCall i j o :: post → ∃ rule, rules[i]? = some rule ∧ Allowed rule i j o pre post

variable {h} {rule : Value} {i : Nat} {t : List Event}

theorem Unhindered.of_returns (hall : ∀ e ∈ t, ¬e.foreign i → e.Returns h i rule) : Unhindered h rule i t where
  resolves _ _ hmem := resolveParams_ok_iff.mp (hall _ hmem fun hne => hne rfl).2
  shows _ hmem := emitVerboseRuleDetails_ok_iff.mp (hall _ hmem fun hne => hne rfl).2
  previews _ hmem := serializeForLog_ok_iff.mp (hall _ hmem fun hne => hne rfl).2

theorem Unhindered.not_raises (hu : Unhindered h rule i t) (hev : ∀ probed, probed.isTable = true →
      .evaluating i probed ∈ t →
        ∃ v, evaluate h.yamlDump (rule.field "assertion") { probe := probed, item := .nil } = .ok v)
    {e : Event} (he : e ∈ t) : ¬e.Raises h i rule := by
  intro hraises
  cases e with
  | resolving i' task probed =>
    obtain ⟨rfl, hno⟩ := hraises
    exact hno (resolveParams_ok_iff.mpr (hu.resolves task probed he))
  | evaluating i' probed =>
    obtain ⟨rfl, hp, hno⟩ := hraises
    exact hno (hev probed hp he)
  | showing i' probed =>
    obtain ⟨rfl, hno⟩ := hraises
    exact hno (emitVerboseRuleDetails_ok_iff.mpr (hu.shows probed he))
  | previewing i' params =>
    obtain ⟨rfl, hno⟩ := hraises
    exact hno (serializeForLog_ok_iff.mpr (hu.previews params he))
  | _ => exact hraises

end Unhindered

/-- **Enforcers run only when they are allowed to, and the following rules are processed**: the first holds of every
run: no calls in other modes or in a dry run; each behind an accepted rule, a failed audit and a guard that let all its
tasks pass, in the order of the list up to the first failure. The second holds of a run without a raising evaluation iff
no other step raises in a rule that is not the last; and the run returns with all its items iff none raises at all. -/
theorem run_actions_allowed_iff {σ : Type} (h : Host σ) (mode : Str) (rules : List Value) (opts : Opts) (s : σ)
    (dumps : List (Str × Dump)) :
    (ActionsAllowed mode rules opts (run h mode rules opts (.start s dumps)).2.trace ∧
        (Evaluates h rules (run h mode rules opts (.start s dumps)).2.trace →
          ∀ i < rules.length, Started (run h mode rules opts (.start s dumps)).2.trace i) ↔
      (Evaluates h rules (run h mode rules opts (.start s dumps)).2.trace →
        ∀ i rule, rules[i]? = some rule → i + 1 < rules.length →
          Unhindered h rule i (run h mode rules opts (.start s dumps)).2.trace)) ∧
    (Evaluates h rules (run h mode rules opts (.start s dumps)).2.trace →
      ((∃ report, (run h mode rules opts (.start s dumps)).1 = .ok report ∧
          report.rules.map Item.id = rules.map ruleId) ↔
        ∀ i rule, rules[i]? = some rule → Unhindered h rule i (run h mode rules opts (.start s dumps)).2.trace)) := by
  obtain ⟨r, ht, -, hres⟩ := run_trace h mode rules opts s dumps
  generalize (run h mode rules opts (.start s dumps)).2.trace = t at ht
  obtain ⟨n, hreturns, hstarted, hend⟩ := ht.progress
  have hallowed : ActionsAllowed mode rules opts t := by
    refine ⟨fun hmode i j o hmem => ?_, fun pre i j o post hsplit => (ht.allowed hsplit).2.2⟩
    obtain ⟨pre, post, hsplit⟩ := List.append_of_mem hmem
    obtain ⟨hm, hd, -⟩ := ht.allowed hsplit
    rcases hmode with hmode | hmode
    · exact hmode hm
    · rw [hd] at hmode
      cases hmode
  refine ⟨⟨?_, fun hcond => ⟨hallowed, fun hev i hi => ?_⟩⟩, fun hev => ⟨?_, fun hall => ?_⟩⟩
  · rintro ⟨-, hproc⟩ hev i rule hi hlast
    have hle := ((hstarted (i + 1)).mp (hproc hev (i + 1) hlast)).1
    exact .of_returns (hreturns i rule hle hi)
  · refine (hstarted i).mpr ⟨?_, hi⟩
    rcases hend with ⟨-, rfl⟩ | ⟨-, rule, hn, e, he, hraises⟩
    · exact hi.le
    · by_contra hgt
      exact (hcond hev n rule hn (by omega)).not_raises (fun probed _ => hev n rule probed hn) he hraises
  · rintro ⟨report, hrun, -⟩ i rule hi
    rcases hend with ⟨-, rfl⟩ | ⟨⟨err, rfl⟩, -⟩
    · exact .of_returns (hreturns i rule (lt_length hi) hi)
    · rcases hres with ⟨e, -, herr⟩ | ⟨_, _, hok, -⟩
      · rw [hrun] at herr
        cases herr
      · cases hok
  · rcases hres with ⟨e, rfl, -⟩ | ⟨items, report, -, hids, hrun, hrules, -⟩
    · rcases hend with ⟨⟨ss, hss⟩, -⟩ | ⟨-, rule, hn, e, he, hraises⟩
      · cases hss
      · exact absurd hraises ((hall n rule hn).not_raises (fun probed _ => hev n rule probed hn) he)
    · exact ⟨report, hrun, by rw [hrules, hids]⟩

/-! ## A run that ends early -/

/-- The probe `accounts` gives a record of one account, the probe `switch` a switch that is off; the enforcer fails. -/
def accountsHost : Host Unit :=
  scriptHost (fun f =>
      if f = "accounts" then
        .ret (.returned (.record 9 [("count", .num 1), ("details", .list 8 [.list 7 [.str "00_"]])]) .nil)
      else .ret (.returned (.bool false) .nil))
    (fun _ s => (.returned .nil (.str "not supported"), s)) fun _ => ⟨[], true, .num 0⟩

/-- The switch must be on. -/
def switchOnRule : Value :=
  .record 1 [("id", .str "switch"), ("desc", .str "the switch is on"),
    ("probes", .list 2 [.record 3 [("name", .str "on"), ("func", .str "users.switch")]]),
    ("assertion", .record 4 [("actual", .str "%\x7bprobe.on\x7d"), ("compare", .str "is_true")]),
    ("reinforce", .list 5 [.record 6 [("action", .str "users.set")]])]

/-- There is one account. -/
def oneAccountRule : Value :=
  .record 1 [("id", .str "accounts"), ("desc", .str "there is one account"),
    ("probes", .list 2 [.record 3 [("name", .str "accounts"), ("func", .str "users.accounts")]]),
    ("assertion", .record 4 [("actual", .str "%\x7bprobe.accounts\x7d"), ("key", .str "count"),
      ("compare", .str "equals"), ("expected", .num 1)])]

/-- The rule whose processing an event begins. -/
def Event.begins : Event → Option Nat
  | .rejected i => some i
  | .validated i => some i
  | _ => none

/-- The evaluation that an event announces, if it is one, returns for each of the rules. -/
def Event.evaluates {σ : Type} (h : Host σ) (rules : List Value) : Event → Bool
  | .evaluating _ probed => rules.all fun rule =>
    (evaluate h.yamlDump (rule.field "assertion") { probe := probed, item := .nil }).toOption.isSome
  | _ => true

theorem Started.mem {t : List Event} {i : Nat} (hs : Started t i) : i ∈ t.filterMap Event.begins :=
  hs.elim (fun hmem => List.mem_filterMap.mpr ⟨_, hmem, rfl⟩) fun hmem => List.mem_filterMap.mpr ⟨_, hmem, rfl⟩

theorem Evaluates.of_all {σ : Type} {h : Host σ} {rules : List Value} {t : List Event}
    (hall : t.all (Event.evaluates h rules) = true) : Evaluates h rules t := by
  intro i rule probed hi hmem
  have hone := List.all_eq_true.mp (List.all_eq_true.mp hall _ hmem) rule (List.mem_of_getElem? hi)
  cases he : evaluate h.yamlDump (rule.field "assertion") { probe := probed, item := .nil } with
  | error e =>
    rw [he] at hone
    cases hone
  | ok v => exact ⟨v, rfl⟩

/-- **A rule is not processed**: the action of the first rule fails, the evaluations of the first two return, and the
verbose details of the second, with an account that is the list of `"00_"`, cannot be printed. -/
theorem run_ends_early : (∀ rule ∈ [switchOnRule, oneAccountRule, switchOnRule],
    validateRule rule "rule" true = .ok ()) ∧
    ¬(ActionsAllowed "reinforce" [switchOnRule, oneAccountRule, switchOnRule] ⟨.nil, .nil, .bool true⟩
        (run accountsHost "reinforce" [switchOnRule, oneAccountRule, switchOnRule] ⟨.nil, .nil, .bool true⟩
          (.start () [])).2.trace ∧
      (Evaluates accountsHost [switchOnRule, oneAccountRule, switchOnRule]
          (run accountsHost "reinforce" [switchOnRule, oneAccountRule, switchOnRule] ⟨.nil, .nil, .bool true⟩
            (.start () [])).2.trace →
        ∀ i < 3, Started (run accountsHost "reinforce" [switchOnRule, oneAccountRule, switchOnRule]
          ⟨.nil, .nil, .bool true⟩ (.start () [])).2.trace i)) := by
  refine ⟨?_, fun ⟨_, hproc⟩ => ?_⟩
  · have hvalid : validateRule switchOnRule "rule" true = .ok () := by decide +kernel
    have hvalid' : validateRule oneAccountRule "rule" true = .ok () := by decide +kernel
    exact List.forall_mem_cons.mpr ⟨hvalid, List.forall_mem_cons.mpr ⟨hvalid', List.forall_mem_singleton.mpr hvalid⟩⟩
  · have hall : (run accountsHost "reinforce" [switchOnRule, oneAccountRule, switchOnRule] ⟨.nil, .nil, .bool true⟩
        (.start () [])).2.trace.all (Event.evaluates accountsHost [switchOnRule, oneAccountRule, switchOnRule]) =
        true := by decide +kernel
    have hbegun : (run accountsHost "reinforce" [switchOnRule, oneAccountRule, switchOnRule] ⟨.nil, .nil, .bool true⟩
        (.start () [])).2.trace.filterMap Event.begins = [0, 1] := by decide +kernel
    have hmem := (hproc (.of_all hall) 2 (by omega)).mem
    rw [hbegun] at hmem
    revert hmem
    decide

end Seharden
