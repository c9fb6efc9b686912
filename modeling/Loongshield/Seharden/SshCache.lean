import Loongshield.Seharden.Enforcement

/-!
# Stale dumps of the sshd configuration

`enforce` clears the cache of `probes/ssh.lua` behind the last action only, so a dump from before an action is out of
use again unless the enforcement of a rule stops early.

- `ActionTrace.calm`: actions that all succeed are not stopped early;
- `run_dumps_fresh`: then no audit of the run uses a dump that is older than an action.
-/

namespace Seharden

open Lua Trace

/-- No audit uses a dump that was taken before an earlier action: if the action stands at position `p` and the use at
position `q` behind it, the dump was taken when the trace had more than `p` events. -/
def DumpsFresh (t : List Event) : Prop :=
  ∀ p q i j o cmd taken, p < q → t[p]? = some (Event.actionCall i j o) →
    t[q]? = some (Event.dumpUsed .audit cmd taken) → p < taken

/-- An action that went through, or the first of a rule that was not found. -/
def Event.calm : Event → Prop
  | .actionCall _ _ o => o.succeeded = true
  | .actionMissing _ j => j = 0
  | _ => True

/-- Actions that were called, and none of which failed, are not stopped early. -/
theorem ActionTrace.calm {σ : Type} {h : Host σ} {i i' j : Nat} {rule : Value} {dryRun : Bool} {o : Outcome}
    {pre post : List Event} {r : Except Halt (List Unit)}
    (ht : ActionTrace h i rule dryRun (pre ++ .actionCall i' j o :: post) r)
    (hcalm : ∀ e ∈ pre ++ .actionCall i' j o :: post, e.calm) : r ≠ .error .stopped := by
  rintro rfl
  obtain ⟨k, task, before, tr, us, hk, hP, hsplit, hbefore⟩ := Blocks.error ht
  rw [hsplit] at hcalm
  rw [Nat.zero_add] at hP
  cases hP with
  | resolved _ hs =>
    cases hs with
    | @stop o' _ hs =>
      have hcall := hcalm (.actionCall i k o') (by simp)
      rw [Event.calm, hs] at hcall
      cases hcall
    | missing =>
      have hk0 : k = 0 := hcalm (.actionMissing i k) (by simp)
      subst hk0
      generalize hxs : (rule.field "reinforce").ipairs.take 0 = xs at hbefore
      rw [List.take_zero] at hxs
      subst hxs
      cases hbefore
      have hmem : Event.actionCall i' j o ∈ pre ++ .actionCall i' j o :: post := by simp
      rw [hsplit] at hmem
      simp at hmem

/-- **No stale dump in a calm run**: if every action that is called succeeds, and only the first action of a rule may be
missing, then every audit sees the sshd configuration as it is after the actions before it. -/
theorem run_dumps_fresh {σ : Type} (h : Host σ) (mode : Str) (rules : List Value) (opts : Opts) (s : σ)
    (dumps : List (Str × Dump)) (hcalm : ∀ e ∈ (run h mode rules opts (.start s dumps)).2.trace, e.calm) :
    DumpsFresh (run h mode rules opts (.start s dumps)).2.trace := by
  obtain ⟨r, ht, hinv, -⟩ := run_trace h mode rules opts s dumps
  have hused := hinv.used
  generalize (run h mode rules opts (.start s dumps)).2.trace = t at ht hused hcalm
  intro p q i j o cmd taken hpq hp hq
  obtain ⟨pre, post, hsplit, rfl⟩ := split_of_getElem? hp
  obtain ⟨k, rule, before, pre', post', after, r', hk, hrule, rfl, rfl, hbefore, hafter, hlast⟩ := ht.split hsplit
  obtain ⟨-, -, tr₁, sh, g, us, pa, qa, ra, rest, hv, hsh, hg, ha, rfl, rfl, hrest⟩ := hrule.action rfl
  have hstop := ha.calm fun e he => hcalm e (by
    rw [hsplit]
    simp only [List.mem_append, List.mem_cons] at he ⊢
    tauto)
  -- a use of a dump is no event of the actions
  have hused' : ¬ .dumpUsed .audit cmd taken ∈ pa ++ .actionCall i j o :: qa := fun hmem => (ha.ofAction _ hmem : False)
  generalize before ++ (.validated k :: tr₁ ++ sh ++ g ++ pa) = pre at hsplit hpq ⊢
  obtain ⟨m, rfl⟩ : ∃ m, q = pre.length + 1 + m := ⟨q - (pre.length + 1), by omega⟩
  rw [hsplit, getElem?_split_right, List.append_assoc] at hq
  rcases hrest with ⟨rfl, hra | hraised⟩ | ⟨-, tr₂, v, rfl, -⟩
  · exact absurd hra hstop
  -- the run ended with the actions
  · rw [hlast hraised, List.append_nil, List.append_nil] at hq
    exact absurd (by simp [List.mem_of_getElem? hq]) hused'
  -- the cache was cleared behind the rest of the actions, and before the use
  have hm : qa.length < m := by
    rcases lt_trichotomy m qa.length with hm | rfl | hm
    · rw [List.getElem?_append_left hm] at hq
      exact absurd (by simp [List.mem_of_getElem? hq]) hused'
    · rw [List.getElem?_append_right (le_refl _), Nat.sub_self] at hq
      cases hq
    · exact hm
  have hclear : t[pre.length + 1 + qa.length]? = some .cleared := by
    rw [hsplit, getElem?_split_right, List.append_assoc, List.getElem?_append_right (le_refl _), Nat.sub_self]
    rfl
  have hlt := hused _ .audit cmd taken (by rw [hsplit, getElem?_split_right, List.append_assoc]; exact hq) _
    (by omega) hclear
  omega

/-! ## A host with sshd -/

/-- The command of the effective configuration. -/
def sshdDump : Str := "/usr/sbin/sshd -T -C user=root -C host=localhost -C addr=127.0.0.1"

/-- Root may log in until `sshd.set` was called; `service.reload` fails, `service.try` does not. -/
def sshdHost : Host Bool :=
  scriptHost (fun _ => .dump sshdDump fun d => .ret (.returned
      (match d.values.lookup ("permitrootlogin" : Str) with
        | some v => .str v
        | none => .nil) .nil))
    (fun f fixed =>
      if f = "set" then (.returned (.bool true) .nil, true)
      else if f = "try" then (.returned (.bool true) .nil, fixed)
      else (.returned .nil (.str "reload failed"), fixed))
    fun fixed => ⟨[if fixed then "permitrootlogin no" else "permitrootlogin yes"], true, .num 0⟩

/-- Root must not log in; the second action is a parameter. -/
def rootLoginRule (action : Str) : Value :=
  .record 1 [("id", .str "root"), ("desc", .str "root must not log in"),
    ("probes", .list 2 [.record 3 [("name", .str "login"), ("func", .str "ssh.get_effective_value")]]),
    ("assertion", .record 4 [("actual", .str "%\x7bprobe.login\x7d"), ("compare", .str "equals"),
      ("expected", .str "no")]),
    ("reinforce", .list 5 [.record 6 [("action", .str "sshd.set")], .record 7 [("action", .str action)]])]

/-- The action of an event, if it is the call of one that went through. -/
def Event.call : Event → Option (Nat × Nat × Bool)
  | .actionCall i j o => some (i, j, o.succeeded)
  | _ => none

/-- The time of the dump that an audit used. -/
def Event.auditUse : Event → Option Nat
  | .dumpUsed .audit _ taken => some taken
  | _ => none

theorem not_dumpsFresh {t : List Event} (p q taken : Nat) {call : Nat × Nat × Bool}
    (hp : t[p]?.bind Event.call = some call) (hq : t[q]?.bind Event.auditUse = some taken) (hpq : p < q)
    (hle : taken ≤ p) : ¬ DumpsFresh t := by
  intro hfresh
  obtain ⟨e, he, hcall⟩ := Option.bind_eq_some_iff.mp hp
  obtain ⟨e', he', huse⟩ := Option.bind_eq_some_iff.mp hq
  cases e with
  | actionCall i j o =>
    cases e' with
    | dumpUsed phase cmd taken' =>
      cases phase with
      | audit =>
        cases huse
        have := hfresh p q i j o cmd taken hpq he he'
        omega
      | guard => cases huse
    | _ => cases huse
  | _ => cases hcall

/-- **A stale dump is used**: the first action of the first rule goes through, the second fails, and the audit of the
next rule reads the dump from before both. -/
theorem run_dumps_stale : validateRule (rootLoginRule "service.reload") "rule" true = .ok () ∧
    ¬ DumpsFresh (run sshdHost "reinforce" [rootLoginRule "service.reload", rootLoginRule "service.reload"]
      ⟨.nil, .nil, .nil⟩ (.start false [])).2.trace := by
  refine ⟨by decide +kernel, not_dumpsFresh 7 13 3 (show _ = some (0, 0, true) from ?_) ?_ (by omega) (by omega)⟩
  · decide +kernel
  · decide +kernel

theorem run_dumps_fresh_sshd :
    (∀ e ∈ (run sshdHost "reinforce" [rootLoginRule "service.try"] ⟨.nil, .nil, .nil⟩ (.start false [])).2.trace,
      e.calm) ∧
    DumpsFresh (run sshdHost "reinforce" [rootLoginRule "service.try"] ⟨.nil, .nil, .nil⟩
      (.start false [])).2.trace := by
  have hcalm : (run sshdHost "reinforce" [rootLoginRule "service.try"] ⟨.nil, .nil, .nil⟩
      (.start false [])).2.trace.all (fun e => match e with
        | .actionCall _ _ o => o.succeeded
        | .actionMissing _ _ => false
        | _ => true) = true := by decide +kernel
  have hall : ∀ e ∈ (run sshdHost "reinforce" [rootLoginRule "service.try"] ⟨.nil, .nil, .nil⟩
      (.start false [])).2.trace, e.calm := by
    intro e he
    have := List.all_eq_true.mp hcalm e he
    cases e <;> first | exact this | trivial
  exact ⟨hall, run_dumps_fresh sshdHost "reinforce" [rootLoginRule "service.try"] ⟨.nil, .nil, .nil⟩ false [] hall⟩

end Seharden
