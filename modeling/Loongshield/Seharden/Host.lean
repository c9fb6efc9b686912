import Loongshield.Seharden.Evaluator
import Loongshield.Seharden.Lyaml

/-!
# The host: probes, enforcers and the cached sshd dump

What the engine calls is a parameter. A probe is a program (`Prog`) over the host state that may also read the
effective sshd configuration through `read_effective_dump` of `probes/ssh.lua`, any number of times, or clear its cache.
An enforcer is a function of the host state. `loader.lua` finds both by a path `module.function`. The emitter of the
YAML writer is the host's, too.

`World` is the host state, the module-level cache of `probes/ssh.lua`, and a trace of what happened. The trace is not in
the source: it records the calls, so that properties of whole runs can be stated. A dump remembers the length of the
trace at the time `sshd -T` was run (`takenAt`).
-/

namespace Seharden

open Lua

/-- A protected call: the error it raised, or its first two results. -/
inductive Outcome
  | raised (e : Value)
  | returned (res err : Value)

/-- The result of `sshd -T`: `available`, `error` and `values` of the cached table, and the time it was taken. -/
structure Dump where
  available : Bool
  error : Option Str
  values : List (Str × Str)
  takenAt : Nat

/-- A probe as a program: it reads and writes the host state, reads the effective dump of a command, or clears the
cache of dumps. -/
inductive Prog (σ : Type)
  | ret (o : Outcome)
  | get (k : σ → Prog σ)
  | put (s : σ) (k : Prog σ)
  | dump (cmd : Str) (k : Dump → Prog σ)
  | clear (k : Prog σ)

/-- A command that could be started: its output lines, and the results `ok` and `code` of `close`. -/
structure Popen where
  lines : List Str
  closeOk : Bool
  code : Value

/-- The host. A module that cannot be loaded, or a missing function, gives `none`; a value that is no function is one
that raises when it is called. -/
structure Host (σ : Type) where
  probeModule : Str → σ → Option (Str → Option (Value → Value → Prog σ))
  enforcerModule : Str → σ → Option (Str → Option (Value → σ → Outcome × σ))
  popen : Str → σ → Option Popen × σ
  emitter : List YamlEvent → Except Err Str

/-- `lyaml.dump` on the host. -/
def Host.yamlDump {σ : Type} (h : Host σ) : Value → Except Err Str := lyamlDump h.emitter

/-- A host on which every path is found: its probes and enforcers are given by the name of the function. -/
def scriptHost {σ : Type} (probe : Str → Prog σ) (enforcer : Str → σ → Outcome × σ) (popen : σ → Popen) : Host σ where
  probeModule _ _ := some fun f => some fun _ _ => probe f
  enforcerModule _ _ := some fun f => some fun _ => enforcer f
  popen _ s := (some (popen s), s)
  emitter _ := .ok []

/-- The status of an audit. -/
inductive AuditStatus
  | error
  | pass
  | fail
deriving DecidableEq

/-- Who runs a probe. -/
inductive Phase
  | audit
  | guard
deriving DecidableEq

/-- What is recorded: `i` is the position of the rule in the run, `k` that of the guard task, `j` that of the action.
Four events announce a step that is not protected: the parameters of a task are resolved, an assertion is evaluated, the
verbose details are printed, and the parameters of an action are written in a dry run. -/
inductive Event
  | rejected (i : Nat)
  | validated (i : Nat)
  | auditBegin (i : Nat)
  | resolving (i : Nat) (task probed : Value)
  | evaluating (i : Nat) (probed : Value)
  | showing (i : Nat) (probed : Value)
  | previewing (i : Nat) (params : Value)
  | auditEnd (i : Nat) (status : AuditStatus)
  | dumpUsed (phase : Phase) (cmd : Str) (takenAt : Nat)
  | cleared
  | guardMissing (i k : Nat)
  | guardCall (i k : Nat) (o : Outcome)
  | actionMissing (i j : Nat)
  | actionCall (i j : Nat) (o : Outcome)

/-- The state of a run. -/
structure World (σ : Type) where
  host : σ
  cache : List (Str × Dump)
  trace : List Event

/-- The start of a run: dumps that are cached already were taken before it. -/
def World.start {σ : Type} (s : σ) (dumps : List (Str × Dump)) : World σ :=
  { host := s, cache := dumps.map fun d => (d.1, { d.2 with takenAt := 0 }), trace := [] }

/-- Records an event. -/
def World.log {σ : Type} (w : World σ) (e : Event) : World σ := { w with trace := w.trace ++ [e] }

section

variable {σ : Type}

@[simp] theorem World.log_host (w : World σ) (e : Event) : (w.log e).host = w.host := rfl
@[simp] theorem World.log_cache (w : World σ) (e : Event) : (w.log e).cache = w.cache := rfl
@[simp] theorem World.log_trace (w : World σ) (e : Event) : (w.log e).trace = w.trace ++ [e] := rfl

/-! ## `loader.lua` -/

/-- `path:match("^([^.]+)%.([^.]+)$")`. -/
def loaderPath : Value → Option (Str × Str)
  | .str path => match strMatch path "^([^.]+)%.([^.]+)$" with
    | .ok (some [.str m, .str f]) => some (m, f)
    | _ => none
  | _ => none

/-- `get_probe`. -/
def getProbe (h : Host σ) (path : Value) (s : σ) : Option (Value → Value → Prog σ) := do
  let (m, f) ← loaderPath path
  let mod ← h.probeModule m s
  mod f

/-- `get_enforcer`: the function, and the path `module.function`. -/
def getEnforcer (h : Host σ) (path : Value) (s : σ) : Option ((Value → σ → Outcome × σ) × Str) := do
  let (m, f) ← loaderPath path
  let mod ← h.enforcerModule m s
  let func ← mod f
  pure (func, m ++ "." ++ f)

/-! ## The cache of `probes/ssh.lua` -/

/-- The key and value of a line of `sshd -T`. -/
def dumpLine (line : Str) : Option (Str × Str) :=
  match strMatch line "^%s*(%S+)%s+(.*)$" with
  | .ok (some [.str key, .str value]) => some (lower key, value)
  | _ => none

/-- The dump of a command that is run now. A later line for a key replaces an earlier one. -/
def takeDump (out : Option Popen) (now : Nat) : Dump :=
  match out with
  | none =>
    { available := false, error := some "Failed to execute sshd config dump command.", values := [], takenAt := now }
  | some p =>
    if p.closeOk && p.code.rawEq (.num 0) then
      { available := true, error := none, values := (p.lines.filterMap dumpLine).reverse, takenAt := now }
    else
      { available := true, error := some ("sshd command failed with exit code: " ++ p.code.tostring), values := [],
        takenAt := now }

/-- `read_effective_dump`. -/
def readEffectiveDump (h : Host σ) (cmd : Str) (w : World σ) : Dump × World σ :=
  match w.cache.lookup cmd with
  | some d => (d, w)
  | none =>
    let (out, s) := h.popen cmd w.host
    let d := takeDump out w.trace.length
    (d, { w with host := s, cache := (cmd, d) :: w.cache })

/-- `clear_cache`. -/
def clearCache (w : World σ) : World σ := { w with cache := [] }.log .cleared

/-- Runs a probe to its outcome, under `pcall`. -/
def runProg (h : Host σ) (phase : Phase) : Prog σ → World σ → Outcome × World σ
  | .ret o, w => (o, w)
  | .get k, w => runProg h phase (k w.host) w
  | .put s k, w => runProg h phase k { w with host := s }
  | .dump cmd k, w =>
    let (d, w) := readEffectiveDump h cmd w
    runProg h phase (k d) (w.log (.dumpUsed phase cmd d.takenAt))
  | .clear k, w => runProg h phase k (clearCache w)

end

end Seharden
