import Loongshield.Lib.Trace
import Loongshield.Seharden.Engine

/-!
# What the engine can do: the traces of a run

The inductive relations below are an abstract engine: they say which traces an audit, a guard, a list of actions, a rule
and a run can leave, and with which result. The functions of `rule_executor.lua` and `engine.lua` refine them:

- `runProg_reaches`: a probe leaves uses of dumps and clearings of the cache only;
- `audit_reaches`, `guardLoop_reaches`, `actionLoop_reaches`, `enforce_reaches`: the executor, with the errors that
  nothing catches;
- `processSingleRule_reaches`, `runRules_reaches`, `run_trace`: the engine, with the items of the report.

`World.Reaches` also carries the one invariant of the cache (`CacheInv`): no dump that was taken before the cache was
cleared is used after it.
-/

namespace Seharden

open Lua Trace

/-! ## Steps of the world -/

/-- The cache is honest: the caches were cleared before a cached dump was taken, and a dump that was used was taken
after every earlier clearing. -/
structure CacheInv {σ : Type} (w : World σ) : Prop where
  cached : ∀ c ∈ w.cache, ∀ p, w.trace[p]? = some Event.cleared → p < c.2.takenAt
  used : ∀ q phase cmd taken, w.trace[q]? = some (Event.dumpUsed phase cmd taken) →
    ∀ p, p < q → w.trace[p]? = some Event.cleared → p < taken

/-- The world moved on: it recorded the events `tr` and kept the invariant of the cache. -/
structure World.Reaches {σ : Type} (w : World σ) (tr : List Event) (w' : World σ) : Prop where
  trace : w'.trace = w.trace ++ tr
  inv : CacheInv w → CacheInv w'

section World

variable {σ : Type} {w w₁ w₂ : World σ}

theorem World.Reaches.refl (w : World σ) : w.Reaches [] w := ⟨by simp, id⟩

theorem World.Reaches.trans {tr₁ tr₂ : List Event} (h₁ : w.Reaches tr₁ w₁) (h₂ : w₁.Reaches tr₂ w₂) :
    w.Reaches (tr₁ ++ tr₂) w₂ :=
  ⟨by rw [h₂.trace, h₁.trace, List.append_assoc], fun h => h₂.inv (h₁.inv h)⟩

/-- Recording an event that is neither a clearing nor a use keeps the invariant. -/
theorem World.Reaches.log (w : World σ) {e : Event} (hc : e ≠ .cleared)
    (hu : ∀ phase cmd taken, e ≠ .dumpUsed phase cmd taken) : w.Reaches [e] (w.log e) := by
  refine ⟨rfl, fun h => ⟨fun c hmem p hp => ?_, fun q phase cmd taken hq p hpq hp => ?_⟩⟩
  · rcases getElem?_concat hp with hp | ⟨-, he⟩
    · exact h.cached c hmem p hp
    · exact absurd he hc
  · rcases getElem?_concat hp with hp | ⟨-, he⟩
    · rcases getElem?_concat hq with hq | ⟨-, he⟩
      · exact h.used q phase cmd taken hq p hpq hp
      · exact absurd he (hu phase cmd taken)
    · exact absurd he hc

/-- A change of the host. -/
theorem World.Reaches.host (w : World σ) (s : σ) : w.Reaches [] { w with host := s } :=
  ⟨by simp, fun h => ⟨h.cached, h.used⟩⟩

/-- Clearing the cache. -/
theorem World.Reaches.clear (w : World σ) : w.Reaches [.cleared] (clearCache w) := by
  refine ⟨rfl, fun h => ⟨fun c hmem => absurd hmem (by simp [clearCache]), fun q phase cmd taken hq p hpq hp => ?_⟩⟩
  rcases getElem?_concat hq with hq | ⟨-, he⟩
  · rcases getElem?_concat hp with hp | ⟨hp, -⟩
    · exact h.used q phase cmd taken hq p hpq hp
    · exact absurd (lt_length hq) (by omega)
  · cases he

/-- Reading a dump: a cached one is honest, a new one is taken now. -/
theorem World.Reaches.dump (h : Host σ) (phase : Phase) (cmd : Str) (w : World σ) :
    w.Reaches [.dumpUsed phase cmd (readEffectiveDump h cmd w).1.takenAt]
      ((readEffectiveDump h cmd w).2.log (.dumpUsed phase cmd (readEffectiveDump h cmd w).1.takenAt)) := by
  have hread : (readEffectiveDump h cmd w).2.trace = w.trace ∧
      (CacheInv w → CacheInv (readEffectiveDump h cmd w).2 ∧
        ∀ p, w.trace[p]? = some Event.cleared → p < (readEffectiveDump h cmd w).1.takenAt) := by
    unfold readEffectiveDump
    cases hl : w.cache.lookup cmd with
    | some d =>
      obtain ⟨l₁, l₂, hcache, -⟩ := List.lookup_eq_some_iff.mp hl
      exact ⟨rfl, fun hw => ⟨hw, hw.cached (cmd, d) (by rw [hcache]; simp)⟩⟩
    | none =>
      have hnew : ∀ p, w.trace[p]? = some Event.cleared →
        p < (takeDump (h.popen cmd w.host).1 w.trace.length).takenAt := by
        intro p hp
        have hlt := lt_length hp
        unfold takeDump
        split
        · exact hlt
        · split <;> exact hlt
      refine ⟨rfl, fun hw => ⟨⟨fun c hmem => ?_, hw.used⟩, hnew⟩⟩
      rcases List.mem_cons.mp hmem with rfl | hmem
      · exact hnew
      · exact hw.cached c hmem
  obtain ⟨htrace, hinv⟩ := hread
  refine ⟨by rw [World.log_trace, htrace], fun hw => ?_⟩
  obtain ⟨hw', hnew⟩ := hinv hw
  refine ⟨fun c hmem p hp => ?_, fun q phase' cmd' taken hq p hpq hp => ?_⟩
  · rcases getElem?_concat hp with hp | ⟨-, he⟩
    · exact hw'.cached c hmem p hp
    · cases he
  · rcases getElem?_concat hp with hp | ⟨-, he⟩
    · rcases getElem?_concat hq with hq | ⟨-, he⟩
      · exact hw'.used q phase' cmd' taken hq p hpq hp
      · cases he
        rw [htrace] at hp
        exact hnew p hp
    · cases he

end World

/-! ## The abstract engine -/

/-- A guard probe keeps the actions from running: it raised, or returned a truthy value. -/
def Outcome.blocks : Outcome → Bool
  | .raised _ => true
  | .returned res _ => res.truthy

/-- What a probe leaves. -/
def Event.ofProbe (phase : Phase) : Event → Prop
  | .dumpUsed p _ _ => p = phase
  | .cleared => True
  | _ => False

section Abstract

variable {σ : Type} (h : Host σ) (i : Nat) (rule : Value)

/-- What a task leaves that is carried out: its parameters are resolved, and its probe leaves its events. -/
def Event.ofTask (phase : Phase) : Event → Prop
  | .resolving i' task probed => i' = i ∧ ∃ params, resolveParams task probed = .ok params
  | e => e.ofProbe phase

/-- An audit: the probes, then the evaluation if no probe failed. -/
inductive AuditTrace : List Event → Except Err AuditStatus → Prop
  | failed {tr : List Event} : (∀ e ∈ tr, e.ofTask i .audit) →
      AuditTrace (.auditBegin i :: tr ++ [.auditEnd i .error]) (.ok .error)
  | unresolved {tr : List Event} {task probed : Value} {e : Err} : (∀ e ∈ tr, e.ofTask i .audit) →
      resolveParams task probed = .error e →
      AuditTrace (.auditBegin i :: tr ++ [.resolving i task probed]) (.error e)
  | raised {tr : List Event} {probed : Value} {e : Err} : (∀ e ∈ tr, e.ofTask i .audit) → probed.isTable = true →
      evaluate h.yamlDump (rule.field "assertion") { probe := probed, item := .nil } = .error e →
      AuditTrace (.auditBegin i :: tr ++ [.evaluating i probed]) (.error e)
  | judged {tr : List Event} {probed : Value} {v : Verdict} {s : AuditStatus} : (∀ e ∈ tr, e.ofTask i .audit) →
      probed.isTable = true →
      evaluate h.yamlDump (rule.field "assertion") { probe := probed, item := .nil } = .ok v →
      s = (if v.1 then .pass else .fail) →
      AuditTrace (.auditBegin i :: tr ++ [.evaluating i probed, .auditEnd i s]) (.ok s)

/-- Why a list of tasks ends early: by its own rule, or by an error that nothing catches. -/
inductive Halt
  | stopped
  | raised (e : Err)

/-- A guard task lets the next one run, or stops, or raises. -/
inductive GuardBlock : Nat → Value → List Event → Except Halt Unit → Prop
  | missing {k : Nat} {task : Value} : GuardBlock k task [.guardMissing i k] (.error .stopped)
  | unresolved {k : Nat} {task probed : Value} {e : Err} : resolveParams task probed = .error e →
      GuardBlock k task [.resolving i task probed] (.error (.raised e))
  | stop {k : Nat} {task : Value} {tr : List Event} {o : Outcome} : (∀ e ∈ tr, e.ofTask i .guard) →
      o.blocks = true → GuardBlock k task (tr ++ [.guardCall i k o]) (.error .stopped)
  | pass {k : Nat} {task : Value} {tr : List Event} {o : Outcome} : (∀ e ∈ tr, e.ofTask i .guard) →
      o.blocks = false → GuardBlock k task (tr ++ [.guardCall i k o]) (.ok ())

/-- What the parameters of an action come to, behind their resolution: in a real run the enforcer is called, or is
missing; in a dry run the parameters are written, unless the enforcer is missing. -/
inductive ActionStep (dryRun : Bool) (j : Nat) (params : Value) : List Event → Except Halt Unit → Prop
  | missing : dryRun = false → ActionStep dryRun j params [.actionMissing i j] (.error .stopped)
  | stop {o : Outcome} : dryRun = false → o.succeeded = false →
      ActionStep dryRun j params [.actionCall i j o] (.error .stopped)
  | pass {o : Outcome} : dryRun = false → o.succeeded = true → ActionStep dryRun j params [.actionCall i j o] (.ok ())
  | passedOver : dryRun = true → ActionStep dryRun j params [] (.ok ())
  | unwritten {e : Err} : dryRun = true → serializeForLog h.yamlDump params = .error e →
      ActionStep dryRun j params [.previewing i params] (.error (.raised e))
  | previewed {s : Str} : dryRun = true → serializeForLog h.yamlDump params = .ok s →
      ActionStep dryRun j params [.previewing i params] (.ok ())

/-- An action lets the next one run, or stops, or raises. -/
inductive ActionBlock (dryRun : Bool) : Nat → Value → List Event → Except Halt Unit → Prop
  | unresolved {j : Nat} {task probed : Value} {e : Err} : resolveParams task probed = .error e →
      ActionBlock dryRun j task [.resolving i task probed] (.error (.raised e))
  | resolved {j : Nat} {task probed params : Value} {tr : List Event} {r : Except Halt Unit} :
      resolveParams task probed = .ok params → ActionStep h i dryRun j params tr r →
      ActionBlock dryRun j task (.resolving i task probed :: tr) r

/-- The trace of a guard of a rule. -/
def GuardTrace (tr : List Event) (r : Except Halt (List Unit)) : Prop :=
  Blocks (GuardBlock i) 0 (getProbeTasks rule "reinforce_guard") tr r

/-- The trace of the actions of a rule. -/
def ActionTrace (dryRun : Bool) (tr : List Event) (r : Except Halt (List Unit)) : Prop :=
  Blocks (ActionBlock h i dryRun) 0 (rule.field "reinforce").ipairs tr r

/-- The reinforcement of a rule, with its result: a guard, and the actions behind it. -/
inductive EnforceTrace (dryRun : Bool) : List Event → Except Err Enforce → Prop
  | unset {msg : Str} : (rule.field "reinforce").truthy = false → EnforceTrace dryRun [] (.ok (.manual msg))
  | guarded {g : List Event} {msg : Str} : GuardTrace i rule g (.error .stopped) →
      EnforceTrace dryRun g (.ok (.manual msg))
  | guardRaised {g : List Event} {e : Err} : GuardTrace i rule g (.error (.raised e)) →
      EnforceTrace dryRun g (.error e)
  | stopped {g a : List Event} {us : List Unit} {msg : Str} : GuardTrace i rule g (.ok us) →
      ActionTrace h i rule dryRun a (.error .stopped) → EnforceTrace dryRun (g ++ a) (.ok (.error msg))
  | raised {g a : List Event} {us : List Unit} {e : Err} : GuardTrace i rule g (.ok us) →
      ActionTrace h i rule dryRun a (.error (.raised e)) → EnforceTrace dryRun (g ++ a) (.error e)
  | skipped {g a : List Event} {us us' : List Unit} : dryRun = true → GuardTrace i rule g (.ok us) →
      ActionTrace h i rule dryRun a (.ok us') → EnforceTrace dryRun (g ++ a) (.ok .skip)
  | done {g a : List Event} {us us' : List Unit} : dryRun = false → GuardTrace i rule g (.ok us) →
      ActionTrace h i rule dryRun a (.ok us') → EnforceTrace dryRun (g ++ a ++ [.cleared]) (.ok .done)

/-- The verbose details of a rule behind an audit with status `s`, if any are printed. -/
inductive ShowTrace (s : AuditStatus) : List Event → Except Err Unit → Prop
  | off : ShowTrace s [] (.ok ())
  | on {probed : Value} : s ≠ .error → ShowTrace s [.showing i probed]
      ((emitVerboseRuleDetails h.yamlDump (rule.field "assertion") probed (getProbeTasks rule "probes")).map fun _ =>
        ())

/-- The status of an item after the second audit. -/
def verifyStatus : AuditStatus → Status
  | .pass => .fixed
  | _ => .failedToFix

/-- The status of an item after an enforcement that was not done. -/
def enforceStatus : Enforce → Status
  | .manual _ => .manual
  | .error _ => .enforceError
  | .skip => .dryRun
  | .done => .fixed

/-- The status of an item whose rule was audited only. -/
def auditStatus : AuditStatus → Status
  | .error => .error
  | .pass => .pass
  | .fail => .fail

/-- The processing of a rule, with the status of its item. -/
inductive RuleTrace (mode : Str) (dryRun : Bool) : List Event → Except Err Status → Prop
  | rejected {msg : Str} : validateRule rule "rule" true = .error msg → RuleTrace mode dryRun [.rejected i] (.ok .error)
  | raised {tr : List Event} {e : Err} : validateRule rule "rule" true = .ok () → AuditTrace h i rule tr (.error e) →
      RuleTrace mode dryRun (.validated i :: tr) (.error e)
  | unshown {tr sh : List Event} {s : AuditStatus} {e : Err} : validateRule rule "rule" true = .ok () →
      AuditTrace h i rule tr (.ok s) → ShowTrace h i rule s sh (.error e) →
      RuleTrace mode dryRun (.validated i :: tr ++ sh) (.error e)
  | audited {tr sh : List Event} {s : AuditStatus} : validateRule rule "rule" true = .ok () →
      AuditTrace h i rule tr (.ok s) → ShowTrace h i rule s sh (.ok ()) → (s = .fail → mode ≠ "reinforce") →
      RuleTrace mode dryRun (.validated i :: tr ++ sh) (.ok (auditStatus s))
  | enforced {tr sh en : List Event} {r : Except Err Enforce} : validateRule rule "rule" true = .ok () →
      AuditTrace h i rule tr (.ok .fail) → ShowTrace h i rule .fail sh (.ok ()) → mode = "reinforce" →
      EnforceTrace h i rule dryRun en r → r ≠ .ok .done →
      RuleTrace mode dryRun (.validated i :: tr ++ sh ++ en) (r.map enforceStatus)
  | verified {tr sh en tr' : List Event} {r : Except Err AuditStatus} : validateRule rule "rule" true = .ok () →
      AuditTrace h i rule tr (.ok .fail) → ShowTrace h i rule .fail sh (.ok ()) → mode = "reinforce" →
      EnforceTrace h i rule dryRun en (.ok .done) → AuditTrace h i rule tr' r →
      RuleTrace mode dryRun (.validated i :: tr ++ sh ++ en ++ tr') (r.map verifyStatus)

end Abstract

/-- The traces of a run. -/
def RunTrace {σ : Type} (h : Host σ) (mode : Str) (dryRun : Bool) (i : Nat) (rules : List Value) (t : List Event)
    (r : Except Err (List Status)) : Prop :=
  Blocks (fun i rule tr r => RuleTrace h i rule mode dryRun tr r) i rules t r

/-! ## The code refines the abstract engine -/

section Refine

variable {σ : Type} (h : Host σ)

/-- A probe. -/
theorem runProg_reaches (phase : Phase) : ∀ (p : Prog σ) (w : World σ), ∃ tr, w.Reaches tr (runProg h phase p w).2 ∧
    ∀ e ∈ tr, e.ofProbe phase
  | .ret o, w => ⟨[], .refl w, nofun⟩
  | .get k, w => runProg_reaches phase (k w.host) w
  | .put s k, w => by
    obtain ⟨tr, hr, htr⟩ := runProg_reaches phase k { w with host := s }
    exact ⟨tr, (World.Reaches.host w s).trans hr, htr⟩
  | .dump cmd k, w => by
    have hd := World.Reaches.dump h phase cmd w
    obtain ⟨tr, hr, htr⟩ := runProg_reaches phase (k (readEffectiveDump h cmd w).1)
      ((readEffectiveDump h cmd w).2.log (.dumpUsed phase cmd (readEffectiveDump h cmd w).1.takenAt))
    exact ⟨_ :: tr, hd.trans hr, List.forall_mem_cons.mpr ⟨rfl, htr⟩⟩
  | .clear k, w => by
    obtain ⟨tr, hr, htr⟩ := runProg_reaches phase k (clearCache w)
    exact ⟨_ :: tr, (World.Reaches.clear w).trans hr, List.forall_mem_cons.mpr ⟨trivial, htr⟩⟩

theorem setProbed_isTable (probed name res : Value) : (setProbed probed name res).isTable = probed.isTable := by
  cases probed <;> rfl

theorem Event.ofTask_of_ofProbe {i : Nat} {phase : Phase} {e : Event} (h : e.ofProbe phase) : e.ofTask i phase := by
  cases e <;> first | exact h | exact h.elim

/-- The result of a list of tasks: it ran to the end, was stopped, or raised. -/
def Agrees {α : Type} (res : Except Err (Option α)) (r : Except Halt (List Unit)) : Prop :=
  match res with
  | .ok none => ∃ us, r = .ok us
  | .ok (some _) => r = .error .stopped
  | .error e => r = .error (.raised e)

/-- A block that went through changes nothing about it. -/
theorem Agrees.next {α : Type} {res : Except Err (Option α)} {r : Except Halt (List Unit)} (h : Agrees res r) :
    Agrees res (r.map (() :: ·)) := by
  rcases res with e | _ | msg
  · subst h
    rfl
  · obtain ⟨us, rfl⟩ := h
    exact ⟨_, rfl⟩
  · subst h
    rfl

/-- The probes of an audit: all of them went through, and the probed data are still a table; or one failed; or the
parameters of one could not be resolved. -/
theorem probeLoop_reaches (i : Nat) : ∀ (tasks : List Value) (probed : Value) (w : World σ), probed.isTable = true →
    ∃ tr, w.Reaches tr (probeLoop h i tasks probed w).2 ∧
      ((∀ e ∈ tr, e.ofTask i .audit) ∧ (∃ res, (probeLoop h i tasks probed w).1 = .ok res ∧
          ∀ probed', res = .ok probed' → probed'.isTable = true) ∨
        ∃ tr' task probed' e, tr = tr' ++ [.resolving i task probed'] ∧ (∀ e ∈ tr', e.ofTask i .audit) ∧
          resolveParams task probed' = .error e ∧ (probeLoop h i tasks probed w).1 = .error e)
  | [], probed, w, hp => ⟨[], .refl w, .inl ⟨nofun, _, rfl, fun probed' h' => Except.ok.inj h' ▸ hp⟩⟩
  | task :: tasks, probed, w, hp => by
    unfold probeLoop
    cases getProbe h (task.field "func") w.host with
    | none => exact ⟨[], .refl w, .inl ⟨nofun, _, rfl, nofun⟩⟩
    | some probe =>
      have hresolving : w.Reaches [.resolving i task probed] (w.log (.resolving i task probed)) := .log w nofun nofun
      dsimp only
      cases hres : resolveParams task probed with
      | error e => exact ⟨_, hresolving, .inr ⟨[], task, probed, e, rfl, nofun, hres, rfl⟩⟩
      | ok params =>
        obtain ⟨tr, hr, htr⟩ := runProg_reaches h .audit (probe params probed) (w.log (.resolving i task probed))
        dsimp only
        generalize runProg h .audit (probe params probed) (w.log (.resolving i task probed)) = run at hr
        obtain ⟨o, w₁⟩ := run
        have hr₁ := hresolving.trans hr
        have htr₁ : ∀ e ∈ Event.resolving i task probed :: tr, e.ofTask i .audit :=
          List.forall_mem_cons.mpr ⟨⟨rfl, params, hres⟩, fun e he => Event.ofTask_of_ofProbe (htr e he)⟩
        cases o with
        | raised e => exact ⟨_, hr₁, .inl ⟨htr₁, _, rfl, nofun⟩⟩
        | returned res err =>
          dsimp only
          split
          · exact ⟨_, hr₁, .inl ⟨htr₁, _, rfl, nofun⟩⟩
          · obtain ⟨tr', hr', ⟨htr', hok⟩ | ⟨before, task', probed', e, rfl, hbefore, he, herr⟩⟩ :=
              probeLoop_reaches i tasks (setProbed probed (task.field "name") res) w₁ (by rw [setProbed_isTable, hp])
            · exact ⟨_, hr₁.trans hr', .inl ⟨List.forall_mem_append.mpr ⟨htr₁, htr'⟩, hok⟩⟩
            · exact ⟨_, hr₁.trans hr', .inr ⟨_, task', probed', e, (List.append_assoc ..).symm,
                List.forall_mem_append.mpr ⟨htr₁, hbefore⟩, he, herr⟩⟩

/-- **An audit.** -/
theorem audit_reaches (i : Nat) (rule : Value) (w : World σ) : ∃ tr, w.Reaches tr (audit h i rule w).2 ∧
    AuditTrace h i rule tr ((audit h i rule w).1.map Audit.status) := by
  have hbegin : w.Reaches [.auditBegin i] (w.log (.auditBegin i)) := .log w nofun nofun
  obtain ⟨tr, hr, hprobes⟩ := probeLoop_reaches h i (getProbeTasks rule "probes") (.table rule.bound [] [])
    (w.log (.auditBegin i)) rfl
  unfold audit
  generalize probeLoop h i (getProbeTasks rule "probes") (.table rule.bound [] []) (w.log (.auditBegin i)) = run
    at hr hprobes
  obtain ⟨res, w₁⟩ := run
  have hr₁ := hbegin.trans hr
  rcases hprobes with ⟨htr, res, rfl, hok⟩ | ⟨tr', task, probed, e, rfl, htr', he, rfl⟩
  · cases res with
    | error msg => exact ⟨_, hr₁.trans (.log w₁ nofun nofun), .failed htr⟩
    | ok probed =>
      have hr₂ := hr₁.trans (.log w₁ (e := .evaluating i probed) nofun nofun)
      dsimp only
      cases he : evaluate h.yamlDump (rule.field "assertion") { probe := probed, item := .nil } with
      | error e => exact ⟨_, hr₂, .raised htr (hok probed rfl) he⟩
      | ok v =>
        obtain ⟨b, reason⟩ := v
        have hj := AuditTrace.judged (i := i) htr (hok probed rfl) he rfl
        cases b with
        | true => exact ⟨_, by simpa using hr₂.trans (.log _ (e := .auditEnd i .pass) nofun nofun), hj⟩
        | false => exact ⟨_, by simpa using hr₂.trans (.log _ (e := .auditEnd i .fail) nofun nofun), hj⟩
  · exact ⟨_, hr₁, .unresolved htr' he⟩

/-- The tasks of a guard. -/
theorem guardLoop_reaches (i : Nat) (guard probed : Value) : ∀ (k : Nat) (tasks : List Value) (w : World σ),
    ∃ tr r, w.Reaches tr (guardLoop h i guard probed k tasks w).2 ∧ Blocks (GuardBlock i) k tasks tr r ∧
      Agrees (guardLoop h i guard probed k tasks w).1 r
  | k, [], w => ⟨[], .ok [], .refl w, .nil, [], rfl⟩
  | k, task :: tasks, w => by
    unfold guardLoop
    cases getProbe h (task.field "func") w.host with
    | none => exact ⟨_, _, .log w nofun nofun, .stop .missing, rfl⟩
    | some probe =>
      have hresolving : w.Reaches [.resolving i task probed] (w.log (.resolving i task probed)) := .log w nofun nofun
      dsimp only
      cases hres : resolveParams task probed with
      | error e => exact ⟨_, _, hresolving, .stop (.unresolved hres), rfl⟩
      | ok params =>
        obtain ⟨tr, hr, htr⟩ := runProg_reaches h .guard (probe params probed) (w.log (.resolving i task probed))
        dsimp only
        generalize runProg h .guard (probe params probed) (w.log (.resolving i task probed)) = run at hr
        obtain ⟨o, w₁⟩ := run
        have hr₁ := (hresolving.trans hr).trans (.log w₁ (e := .guardCall i k o) nofun nofun)
        have htr₁ : ∀ e ∈ Event.resolving i task probed :: tr, e.ofTask i .guard :=
          List.forall_mem_cons.mpr ⟨⟨rfl, params, hres⟩, fun e he => Event.ofTask_of_ofProbe (htr e he)⟩
        cases o with
        | raised e => exact ⟨_, _, hr₁, .stop (.stop htr₁ rfl), rfl⟩
        | returned res reason =>
          dsimp only
          split
          next hb => exact ⟨_, _, hr₁, .stop (.stop htr₁ hb), rfl⟩
          next hb =>
            have hs : (Outcome.returned res reason).blocks = false := by simpa [Outcome.blocks] using hb
            obtain ⟨tr', r, hr', hbs, hagrees⟩ := guardLoop_reaches i guard probed (k + 1) tasks
              (w₁.log (.guardCall i k (.returned res reason)))
            exact ⟨_, _, hr₁.trans hr', .cons (.pass htr₁ hs) hbs rfl, hagrees.next⟩

/-- The actions. -/
theorem actionLoop_reaches (i : Nat) (dryRun : Bool) (probed : Value) : ∀ (j : Nat) (tasks : List Value) (w : World σ),
    ∃ tr r, w.Reaches tr (actionLoop h i dryRun probed j tasks w).2 ∧ Blocks (ActionBlock h i dryRun) j tasks tr r ∧
      Agrees (actionLoop h i dryRun probed j tasks w).1 r
  | j, [], w => ⟨[], .ok [], .refl w, .nil, [], rfl⟩
  | j, task :: tasks, w => by
    unfold actionLoop
    have hresolving : w.Reaches [.resolving i task probed] (w.log (.resolving i task probed)) := .log w nofun nofun
    dsimp only
    cases hres : resolveParams task probed with
    | error e => exact ⟨_, _, hresolving, .stop (.unresolved hres), rfl⟩
    | ok params =>
      have hnext := fun w' => actionLoop_reaches i dryRun probed (j + 1) tasks w'
      rw [World.log_host]
      dsimp only
      cases dryRun with
      | true =>
        rw [if_pos rfl]
        cases getEnforcer h (task.field "action") w.host with
        | none =>
          obtain ⟨tr', r, hr', hbs, hagrees⟩ := hnext (w.log (.resolving i task probed))
          exact ⟨_, _, hresolving.trans hr', .cons (.resolved hres (.passedOver rfl)) hbs rfl, hagrees.next⟩
        | some found =>
          have hr := hresolving.trans (.log _ (e := .previewing i params) nofun nofun)
          dsimp only
          cases hwrite : serializeForLog h.yamlDump params with
          | error e => exact ⟨_, _, hr, .stop (.resolved hres (.unwritten rfl hwrite)), rfl⟩
          | ok text =>
            obtain ⟨tr', r, hr', hbs, hagrees⟩ := hnext ((w.log (.resolving i task probed)).log (.previewing i params))
            exact ⟨_, _, hr.trans hr', .cons (.resolved hres (.previewed rfl hwrite)) hbs rfl, hagrees.next⟩
      | false =>
        rw [if_neg Bool.false_ne_true]
        cases getEnforcer h (task.field "action") w.host with
        | none =>
          exact ⟨_, _, hresolving.trans (.log _ nofun nofun), .stop (.resolved hres (.missing rfl)), rfl⟩
        | some found =>
          obtain ⟨enforcer, path⟩ := found
          dsimp only
          generalize enforcer params w.host = run
          obtain ⟨o, s⟩ := run
          have hr := (hresolving.trans (World.Reaches.host _ s)).trans (.log _ (e := .actionCall i j o) nofun nofun)
          cases o with
          | raised e => exact ⟨_, _, hr, .stop (.resolved hres (.stop rfl rfl)), rfl⟩
          | returned res err =>
            dsimp only
            split
            next hb =>
              have hs : (Outcome.returned res err).succeeded = false := by simpa [Outcome.succeeded] using hb
              exact ⟨_, _, hr, .stop (.resolved hres (.stop rfl hs)), rfl⟩
            next hb =>
              obtain ⟨tr', r, hr', hbs, hagrees⟩ := hnext
                ({ w.log (.resolving i task probed) with host := s }.log (.actionCall i j (.returned res err)))
              have hs : (Outcome.returned res err).succeeded = true := by simpa [Outcome.succeeded] using hb
              exact ⟨_, _, hr.trans hr', .cons (.resolved hres (.pass rfl hs)) hbs rfl, hagrees.next⟩

/-- **An enforcement.** -/
theorem enforce_reaches (i : Nat) (rule probed : Value) (dryRun : Bool) (w : World σ) :
    ∃ tr, w.Reaches tr (enforce h i rule probed dryRun w).2 ∧
      EnforceTrace h i rule dryRun tr (enforce h i rule probed dryRun w).1 := by
  unfold enforce
  split
  next hu => exact ⟨[], .refl w, .unset (by simpa using hu)⟩
  next =>
    obtain ⟨g, r, hr, hbs, hagrees⟩ := guardLoop_reaches h i (rule.field "reinforce_guard") probed 0
      (getProbeTasks rule "reinforce_guard") w
    unfold evaluateGuard
    generalize guardLoop h i (rule.field "reinforce_guard") probed 0 (getProbeTasks rule "reinforce_guard") w = run
      at hr hagrees
    obtain ⟨res, w₁⟩ := run
    rcases res with e | _ | msg
    · obtain rfl : r = _ := hagrees
      exact ⟨g, hr, .guardRaised hbs⟩
    · obtain ⟨us, rfl⟩ : ∃ us, r = .ok us := hagrees
      obtain ⟨a, r', hr', hbs', hagrees'⟩ :=
        actionLoop_reaches h i dryRun probed 0 (rule.field "reinforce").ipairs w₁
      dsimp only
      generalize actionLoop h i dryRun probed 0 (rule.field "reinforce").ipairs w₁ = run at hr' hagrees'
      obtain ⟨res', w₂⟩ := run
      rcases res' with e | _ | msg
      · obtain rfl : r' = _ := hagrees'
        exact ⟨g ++ a, hr.trans hr', .raised hbs hbs'⟩
      · obtain ⟨us', rfl⟩ : ∃ us, r' = .ok us := hagrees'
        cases dryRun with
        | true => exact ⟨g ++ a, hr.trans hr', .skipped rfl hbs hbs'⟩
        | false => exact ⟨g ++ a ++ [.cleared], (hr.trans hr').trans (.clear w₂), .done rfl hbs hbs'⟩
      · obtain rfl : r' = _ := hagrees'
        exact ⟨g ++ a, hr.trans hr', .stopped hbs hbs'⟩
    · obtain rfl : r = _ := hagrees
      exact ⟨g, hr, .guarded hbs⟩

/-- The verbose details. -/
theorem showDetails_reaches (i : Nat) (rule : Value) (opts : Opts) (probed : Value) {s : AuditStatus} (hs : s ≠ .error)
    (w : World σ) : ∃ tr, w.Reaches tr (showDetails h i rule opts probed w).2 ∧
      ShowTrace h i rule s tr (showDetails h i rule opts probed w).1 := by
  unfold showDetails
  split
  · exact ⟨_, .log w nofun nofun, .on hs⟩
  · exact ⟨[], .refl w, .off⟩

/-! ## The report -/

/-- The counter of a status. -/
def Counters.bump (c : Counters) : Status → Counters
  | .pass => { c with passed := c.passed + 1 }
  | .fixed => { c with fixed := c.fixed + 1 }
  | .manual => { c with manual := c.manual + 1 }
  | .dryRun => { c with dryRunPending := c.dryRunPending + 1 }
  | _ => { c with hardFailures := c.hardFailures + 1 }

/-- An item with its final status, counted. -/
def Tally.add (t : Tally) (item : Item) : Tally := ⟨t.rules ++ [item], t.counters.bump item.status⟩

/-- Changing the item that was appended last, and counting it, adds it with its final status. -/
theorem Tally.count_setLast (t : Tally) (item : Item) (status : Status) (reason : Value) :
    ((t.push item).setLast status reason).count (·.bump status) =
      t.add { item with status := status, reason := reason } := by
  unfold Tally.setLast Tally.push
  rw [List.modify_eq_take_cons_drop (by simp)]
  simp [Tally.count, Tally.add]

theorem Tally.foldl_add_rules : ∀ (items : List Item) (t : Tally), (items.foldl Tally.add t).rules = t.rules ++ items
  | [], t => by simp
  | item :: items, t => by
    rw [List.foldl_cons, Tally.foldl_add_rules items (t.add item), Tally.add, List.append_assoc, List.singleton_append]

theorem ruleId_of_validateRule {rule : Value} (hv : validateRule rule "rule" true = .ok ()) :
    ruleId rule = rule.field "id" := by
  unfold validateRule at hv
  simp only [check_bind_ok] at hv
  obtain ⟨s, hs, -⟩ := isNonEmptyString_iff.mp hv.2.1
  unfold ruleId
  rw [hs]
  rfl

/-- The part after a failed audit. -/
theorem reinforceRule_reaches (i : Nat) (rule : Value) (opts : Opts) (found : Audit) (t : Tally) (w : World σ) :
    ∃ en tr' s, w.Reaches (en ++ tr') (reinforceRule h i rule opts found t w).2 ∧
      ((∃ r, tr' = [] ∧ EnforceTrace h i rule opts.dryRun.truthy en r ∧ r ≠ .ok .done ∧ s = r.map enforceStatus) ∨
        ∃ r, EnforceTrace h i rule opts.dryRun.truthy en (.ok .done) ∧ AuditTrace h i rule tr' r ∧
          s = r.map verifyStatus) ∧
      ((∃ e, s = .error e ∧ (reinforceRule h i rule opts found t w).1 = .error e) ∨
        ∃ item : Item, s = .ok item.status ∧ item.id = rule.field "id" ∧
          (reinforceRule h i rule opts found t w).1 = .ok (t.add item)) := by
  obtain ⟨en, hr, hen⟩ := enforce_reaches h i rule found.probedData opts.dryRun.truthy w
  unfold reinforceRule
  dsimp only
  generalize enforce h i rule found.probedData opts.dryRun.truthy w = run at hr hen
  obtain ⟨r, w₁⟩ := run
  have hitem := fun status reason =>
    Tally.count_setLast t ⟨rule.field "id", rule.field "desc", .fail, found.reason⟩ status reason
  have hr₀ : w.Reaches (en ++ []) w₁ := (List.append_nil en).symm ▸ hr
  rcases r with e | msg | msg | _ | _
  · exact ⟨en, [], _, hr₀, .inl ⟨_, rfl, hen, nofun, rfl⟩, .inl ⟨e, rfl, rfl⟩⟩
  · exact ⟨en, [], _, hr₀, .inl ⟨_, rfl, hen, nofun, rfl⟩, .inr ⟨_, rfl, rfl, congrArg Except.ok (hitem .manual _)⟩⟩
  · exact ⟨en, [], _, hr₀, .inl ⟨_, rfl, hen, nofun, rfl⟩,
      .inr ⟨_, rfl, rfl, congrArg Except.ok (hitem .enforceError _)⟩⟩
  · exact ⟨en, [], _, hr₀, .inl ⟨_, rfl, hen, nofun, rfl⟩, .inr ⟨_, rfl, rfl, congrArg Except.ok (hitem .dryRun _)⟩⟩
  · obtain ⟨tr', hr', htr'⟩ := audit_reaches h i rule w₁
    dsimp only
    generalize audit h i rule w₁ = run at hr' htr'
    obtain ⟨v, w₂⟩ := run
    refine ⟨en, tr', _, hr.trans ?_, .inr ⟨_, hen, htr', rfl⟩, ?_⟩
    · cases v with
      | error e => exact hr'
      | ok verify =>
        dsimp only
        split
        · exact hr'
        · exact hr'
    · cases v with
      | error e => exact .inl ⟨e, rfl, rfl⟩
      | ok verify =>
        dsimp only
        split
        next hs => exact .inr ⟨_, by rw [Except.map, Except.map, hs]; rfl, rfl, congrArg Except.ok (hitem .fixed .nil)⟩
        next hs =>
          have hst : verifyStatus verify.status = .failedToFix := by
            cases hv : verify.status with
            | pass => exact absurd hv hs
            | fail => rfl
            | error => rfl
          exact .inr ⟨_, congrArg Except.ok hst, rfl, congrArg Except.ok (hitem .failedToFix _)⟩

/-- The part after an audit that did not fail to run. -/
theorem reportRule_reaches (i : Nat) {rule : Value} (mode : Str) (opts : Opts) {found : Audit} (t : Tally) (w : World σ)
    {tr : List Event} (hv : validateRule rule "rule" true = .ok ()) (htr : AuditTrace h i rule tr (.ok found.status))
    (hne : found.status ≠ .error) :
    ∃ rest s, w.Reaches rest (reportRule h i rule mode opts found t w).2 ∧
      RuleTrace h i rule mode opts.dryRun.truthy (.validated i :: tr ++ rest) s ∧
      ((∃ e, s = .error e ∧ (reportRule h i rule mode opts found t w).1 = .error e) ∨
        ∃ item : Item, s = .ok item.status ∧ item.id = rule.field "id" ∧
          (reportRule h i rule mode opts found t w).1 = .ok (t.add item)) := by
  obtain ⟨sh, hr, hsh⟩ := showDetails_reaches h i rule opts found.probedData hne w
  unfold reportRule
  generalize showDetails h i rule opts found.probedData w = run at hr hsh
  obtain ⟨shown, w₁⟩ := run
  cases shown with
  | error e => exact ⟨sh, .error e, hr, .unshown hv htr hsh, .inl ⟨e, rfl, rfl⟩⟩
  | ok u =>
    dsimp only
    cases hs : found.status with
    | error => exact absurd hs hne
    | pass =>
      rw [hs] at htr hsh
      exact ⟨sh, _, hr, .audited hv htr hsh nofun, .inr ⟨⟨_, _, .pass, _⟩, rfl, rfl, rfl⟩⟩
    | fail =>
      rw [hs] at htr hsh
      rw [if_neg nofun]
      split
      next hm =>
        obtain ⟨en, tr', s, hr', hen, hres⟩ := reinforceRule_reaches h i rule opts found t w₁
        refine ⟨_, s, hr.trans hr', ?_, hres⟩
        rcases hen with ⟨r, rfl, hen, hd, rfl⟩ | ⟨r, hen, hv', rfl⟩
        · simpa using RuleTrace.enforced hv htr hsh hm hen hd
        · simpa using RuleTrace.verified hv htr hsh hm hen hv'
      next hm => exact ⟨sh, _, hr, .audited hv htr hsh fun _ => hm, .inr ⟨⟨_, _, .fail, _⟩, rfl, rfl, rfl⟩⟩

/-- **The processing of a rule**: it raises with a step that nothing protects, or adds one item. -/
theorem processSingleRule_reaches (i : Nat) (rule : Value) (mode : Str) (opts : Opts) (t : Tally) (w : World σ) :
    ∃ tr s, w.Reaches tr (processSingleRule h i rule mode opts t w).2 ∧
      RuleTrace h i rule mode opts.dryRun.truthy tr s ∧
      ((∃ e, s = .error e ∧ (processSingleRule h i rule mode opts t w).1 = .error e) ∨
        ∃ item : Item, s = .ok item.status ∧ item.id = ruleId rule ∧
          (processSingleRule h i rule mode opts t w).1 = .ok (t.add item)) := by
  unfold processSingleRule
  cases hv : validateRule rule "rule" true with
  | error msg =>
    exact ⟨[.rejected i], .ok .error, .log w nofun nofun, .rejected hv, .inr ⟨⟨_, _, .error, _⟩, rfl, rfl, rfl⟩⟩
  | ok _ =>
    have hvalid : w.Reaches [.validated i] (w.log (.validated i)) := .log w nofun nofun
    obtain ⟨tr, hr, htr⟩ := audit_reaches h i rule (w.log (.validated i))
    dsimp only
    generalize audit h i rule (w.log (.validated i)) = run at hr htr
    obtain ⟨a, w₁⟩ := run
    have hr₁ := hvalid.trans hr
    have hid := ruleId_of_validateRule hv
    cases a with
    | error e => exact ⟨_, .error e, hr₁, .raised hv htr, .inl ⟨e, rfl, rfl⟩⟩
    | ok found =>
      change AuditTrace h i rule tr (.ok found.status) at htr
      dsimp only
      split
      next hs =>
        rw [hs] at htr
        exact ⟨_, _, by simpa using hr₁, .audited hv htr .off nofun, .inr ⟨⟨_, _, .error, _⟩, rfl, hid.symm, rfl⟩⟩
      next hs =>
        obtain ⟨rest, s, hr', hrule, hres⟩ := reportRule_reaches h i mode opts t w₁ hv htr hs
        rw [hid]
        exact ⟨_, s, hr₁.trans hr', hrule, hres⟩

/-- **The rules of a run.** -/
theorem runRules_reaches (mode : Str) (opts : Opts) : ∀ (i : Nat) (rules : List Value) (t : Tally) (w : World σ),
    ∃ tr s, w.Reaches tr (runRules h mode opts i rules t w).2 ∧ RunTrace h mode opts.dryRun.truthy i rules tr s ∧
      ((∃ e, s = .error e ∧ (runRules h mode opts i rules t w).1 = .error e) ∨
        ∃ items : List Item, s = .ok (items.map Item.status) ∧ items.map Item.id = rules.map ruleId ∧
          (runRules h mode opts i rules t w).1 = .ok (items.foldl Tally.add t))
  | i, [], t, w => ⟨[], .ok [], .refl w, .nil, .inr ⟨[], rfl, rfl, rfl⟩⟩
  | i, rule :: rules, t, w => by
    obtain ⟨tr, s, hr, htr, hres⟩ := processSingleRule_reaches h i rule mode opts t w
    unfold runRules
    generalize processSingleRule h i rule mode opts t w = run at hr hres
    obtain ⟨r, w₁⟩ := run
    rcases hres with ⟨e, rfl, he⟩ | ⟨item, rfl, hid, hi⟩
    · dsimp only at he
      subst he
      exact ⟨tr, _, hr, .stop htr, .inl ⟨e, rfl, rfl⟩⟩
    · dsimp only at hi
      subst hi
      obtain ⟨tr', s', hr', htr', hres'⟩ := runRules_reaches mode opts (i + 1) rules (t.add item) w₁
      refine ⟨tr ++ tr', _, hr.trans hr', .cons htr htr' rfl, ?_⟩
      rcases hres' with ⟨e, rfl, he⟩ | ⟨items, rfl, hids, hi⟩
      · exact .inl ⟨e, rfl, he⟩
      · exact .inr ⟨item :: items, rfl, by rw [List.map_cons, List.map_cons, hid, hids], hi⟩

end Refine

/-- What a run leaves, and what it returns: the report has the items of the trace, or the run raised. -/
theorem run_trace {σ : Type} (h : Host σ) (mode : Str) (rules : List Value) (opts : Opts) (s : σ)
    (dumps : List (Str × Dump)) : ∃ r,
      RunTrace h mode opts.dryRun.truthy 0 rules (run h mode rules opts (.start s dumps)).2.trace r ∧
      CacheInv (run h mode rules opts (.start s dumps)).2 ∧
      ((∃ e, r = .error e ∧ (run h mode rules opts (.start s dumps)).1 = .error e) ∨
        ∃ (items : List Item) (report : Report), r = .ok (items.map Item.status) ∧
          items.map Item.id = rules.map ruleId ∧ (run h mode rules opts (.start s dumps)).1 = .ok report ∧
          report.rules = items ∧
          report.summary = ⟨(items.foldl Tally.add {}).counters.passed, (items.foldl Tally.add {}).counters.fixed,
            (items.foldl Tally.add {}).counters.hardFailures, (items.foldl Tally.add {}).counters.manual,
            (items.foldl Tally.add {}).counters.dryRunPending, rules.length⟩ ∧
          report.exitCode = if report.summary.failed = 0 ∧ report.summary.dryRunPending = 0 then 0 else 1) := by
  obtain ⟨tr, r, hreach, htr, hres⟩ := runRules_reaches h mode opts 0 rules {} (.start s dumps)
  have hstart : CacheInv (World.start s dumps) := ⟨fun _ _ _ hp => by simp [World.start] at hp, fun _ _ _ _ hq => by
    simp [World.start] at hq⟩
  have hinv := hreach.inv hstart
  have htrace := hreach.trace
  rw [show (World.start s dumps).trace = [] from rfl, List.nil_append] at htrace
  unfold run
  generalize runRules h mode opts 0 rules {} (.start s dumps) = result at hinv htrace hres
  obtain ⟨res, w⟩ := result
  dsimp only at hinv htrace hres
  subst htrace
  rcases hres with ⟨e, rfl, rfl⟩ | ⟨items, rfl, hids, rfl⟩
  · exact ⟨_, htr, hinv, .inl ⟨e, rfl, rfl⟩⟩
  · exact ⟨_, htr, hinv, .inr ⟨items, _, rfl, hids, rfl, Tally.foldl_add_rules items {}, rfl, rfl⟩⟩

end Seharden
