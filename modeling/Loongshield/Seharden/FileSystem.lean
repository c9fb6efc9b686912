import Loongshield.Lib.Act
import Loongshield.Lua.Value

/-!
# Files, and the calls that reach them

A `Sys` holds the files by path, the number of calls made so far, and the changes that took effect. What becomes of a
call is up to the environment: `Env.outcome k` is what happens to call number `k`. Most calls do what the files say or
fail; a write may deliver only a part of its data, and an attribute query may report anything.

The primitives have the names of the fields of the enforcers' dependency tables. Calls on an open file (`write`,
`lines`, `close`) name it by its path. A read handle is read and closed by one call.
-/

namespace Seharden

open Lua

/-- A regular file. -/
structure File where
  content : Str
  uid : Nat
  gid : Nat
  mode : Nat
  deriving DecidableEq

/-- What the environment does to a call. -/
inductive CallOutcome
  /-- The call does what the files say. -/
  | done
  | failed (err : Str)
  /-- A write that delivers `n` characters and then fails. -/
  | short (n : Nat) (err : Str)
  /-- An attribute query that reports this file type, or that there is no file. -/
  | sees (mode : Option Str)

/-- The environment of a run: the outcome of each call, the attributes of the files the process creates, and the part
of a temporary name that is taken from an address or the time. -/
structure Env where
  outcome : Nat → CallOutcome
  uid : Nat
  gid : Nat
  mode : Nat
  nonce : Nat → Str

/-- A change of the files. -/
inductive Effect
  | create (path : Str)
  | write (path data : Str)
  | rename (old new : Str)
  | remove (path : Str)
  | chown (path : Str) (uid gid : Nat)
  | chmod (path : Str) (mode : Nat)
  deriving DecidableEq

/-- The files, the number of calls so far, and the changes so far. -/
structure Sys where
  disk : Str → Option File
  clock : Nat
  effects : List Effect

/-- A function of an enforcer that works on files. -/
abbrev FsM := Act Sys Err

/-- What an enforcer returns: `true`, or `nil` and a message. -/
abbrev Ret := Except Str Unit

namespace Env

variable (env : Env)

/-- The error of call `k`, if it fails. -/
def failure (k : Nat) : Option Str :=
  match env.outcome k with
  | .failed err => some err
  | _ => none

/-- What a write of `data` delivers as call `k`. -/
def delivered (k : Nat) (data : Str) : Str :=
  match env.outcome k with
  | .failed _ => []
  | .short n _ => data.take n
  | _ => data

/-- What an attribute query reports as call `k` of a file. -/
def attr (k : Nat) (file : Option File) : Option Str :=
  match env.outcome k with
  | .failed _ => none
  | .sees mode => mode
  | _ => file.map fun _ => "file".toList

theorem delivered_length_le (k : Nat) (data : Str) : (env.delivered k data).length ≤ data.length := by
  unfold delivered
  split <;> simp

end Env

namespace Sys

/-- One more call. -/
def tick (s : Sys) : Sys := { s with clock := s.clock + 1 }

/-- A change of the file at a path. -/
def put (s : Sys) (path : Str) (file : Option File) (effect : Effect) : Sys :=
  { s with disk := fun p => if p = path then file else s.disk p, effects := s.effects ++ [effect] }

@[simp] theorem tick_disk (s : Sys) : s.tick.disk = s.disk := rfl

@[simp] theorem tick_clock (s : Sys) : s.tick.clock = s.clock + 1 := rfl

@[simp] theorem put_disk_self (s : Sys) (path : Str) (file : Option File) (effect : Effect) :
    (s.put path file effect).disk path = file := if_pos rfl

theorem put_disk_of_ne (s : Sys) {path p : Str} (file : Option File) (effect : Effect) (h : p ≠ path) :
    (s.put path file effect).disk p = s.disk p := if_neg h

@[simp] theorem put_clock (s : Sys) (path : Str) (file : Option File) (effect : Effect) :
    (s.put path file effect).clock = s.clock := rfl

/-- `path` is truncated, or created with the attributes of the process. -/
def create (s : Sys) (env : Env) (path : Str) : Sys :=
  s.put path (some (match s.disk path with
    | some file => { file with content := [] }
    | none => ⟨[], env.uid, env.gid, env.mode⟩)) (.create path)

/-- `data` is appended to the file at `path`. -/
def append (s : Sys) (path data : Str) : Sys :=
  s.put path ((s.disk path).map fun file => { file with content := file.content ++ data }) (.write path data)

/-- The file at `old` gets the name `new`. -/
def rename (s : Sys) (old new : Str) : Sys :=
  { s with
    disk := fun p => if p = new then s.disk old else if p = old then none else s.disk p
    effects := s.effects ++ [.rename old new] }

end Sys

/-! ## The calls -/

section Calls

variable (env : Env)

/-- `lfs.symlinkattributes(path)`, or `lfs.attributes(path)`: the type of the file. -/
def lfsAttributes (path : Str) : FsM (Option Str) :=
  .step fun s => (env.attr s.clock (s.disk path), s.tick)

/-- `io.open(path, 'r')`. -/
def ioOpenRead (path : Str) : FsM Ret :=
  .step fun s => match env.failure s.clock, s.disk path with
    | some err, _ => (.error err, s.tick)
    | none, some _ => (.ok (), s.tick)
    | none, none => (.error (path ++ ": No such file or directory"), s.tick)

/-- A call that fails, or makes a change. -/
def call (change : Sys → Sys) : FsM Ret :=
  .step fun s => match env.failure s.clock with
    | some err => (.error err, s.tick)
    | none => (.ok (), change s.tick)

/-- `io.open(path, 'w')`. -/
def ioOpenWrite (path : Str) : FsM Ret := call env fun s => s.create env path

/-- The lines of a text; a last line may lack its newline. -/
def splitLines (content : Str) : List Str :=
  let parts := content.splitOn '\n'
  if parts.getLast? = some [] then parts.dropLast else parts

/-- `for line in file:lines()` and `file:close()`; a read error is raised. -/
def fileLines (path : Str) : FsM (List Str) := fun s =>
  match env.failure s.clock with
  | some err => (.error err, s.tick)
  | none => (.ok (splitLines (((s.disk path).map File.content).getD [])), s.tick)

/-- `file:write(data)`. -/
def fileWrite (path data : Str) : FsM Ret :=
  .step fun s =>
    let s' := s.tick.append path (env.delivered s.clock data)
    match env.outcome s.clock with
    | .failed err => (.error err, s')
    | .short _ err => (.error err, s')
    | _ => (.ok (), s')

/-- `file:close()` of a file that was written. -/
def fileClose (_path : Str) : FsM Ret := call env id

/-- `os.rename(old, new)`. -/
def osRename (old new : Str) : FsM Ret := call env fun s => s.rename old new

/-- `os.remove(path)`. -/
def osRemove (path : Str) : FsM Ret := call env fun s => s.put path none (.remove path)

/-- `fs.stat(path)`. -/
def fsStat (path : Str) : FsM (Option File) :=
  .step fun s => match env.failure s.clock with
    | some _ => (none, s.tick)
    | none => (s.disk path, s.tick)

/-- `fs.chown(path, uid, gid)`. -/
def fsChown (path : Str) (uid gid : Nat) : FsM Ret :=
  call env fun s => s.put path ((s.disk path).map fun f => { f with uid := uid, gid := gid }) (.chown path uid gid)

/-- `fs.chmod(path, mode)`. -/
def fsChmod (path : Str) (mode : Nat) : FsM Ret :=
  call env fun s => s.put path ((s.disk path).map fun f => { f with mode := mode }) (.chmod path mode)

end Calls

section CallLemmas

variable {env : Env} {change : Sys → Sys} {s : Sys}

theorem call_failed {err : Str} (h : env.failure s.clock = some err) :
    call env change s = (.ok (.error err), s.tick) := by
  unfold call
  rw [Act.step_apply, h]

theorem call_done (h : env.failure s.clock = none) : call env change s = (.ok (.ok ()), change s.tick) := by
  unfold call
  rw [Act.step_apply, h]

/-- A call moves along a relation if its change does, and counting a call does. -/
theorem along_call {R : Sys → Sys → Prop} (htick : ∀ s, R s s.tick) (hchange : ∀ s, R s (change s.tick)) :
    Act.Along R (call env change) := by
  intro s
  cases h : env.failure s.clock with
  | some err => exact ⟨_, _, call_failed h, htick s⟩
  | none => exact ⟨_, _, call_done h, hchange s⟩

end CallLemmas

end Seharden
