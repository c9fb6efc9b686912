import Loongshield.Lib.Trace
import Loongshield.Lua.Number
import Loongshield.Runtime.Ramfs
import Mathlib.Data.List.Nodup
import Mathlib.Data.List.Perm.Subperm

/-!
# `require` of the embedded modules

`vfsrequire` looks a module up in `package.loaded` under the name it was asked for, and stores it there when its chunk
has returned. A chunk is a tree of what it requires and how it goes on. How deep calls of `require` nest is bounded by
the stack.

- `require`, `vfsinit`: the code, which keeps a trace of the chunks that run;
- `AtMostOnce`: what is asked of a trace;
- `Orderly`: no module is required while it is loaded, after it has failed, or in another spelling;
- `once_iff_orderly`: the two say the same of every run.
-/

namespace Runtime

open Lua Seharden PathTree

/-! ## The code -/

/-- What a chunk does with `require`: it returns, raises, or requires a module and goes on with its value, or with the
error if it catches it. -/
inductive Chunk
  | ret (value : Value)
  | raise (err : Err)
  | require (name : Str) (k : Except Err Value → Chunk)

/-- What happens to the module of a path: its chunk is called, returns with a value to be stored, or raises; or the
stored value is returned. -/
inductive Event
  | enter (path : Str)
  | leave (path : Str) (value : Value)
  | fail (path : Str)
  | hit (path : Str) (value : Value)
  | overflow

/-- What `vfsrequire` has stored in `package.loaded`, newest first, and what has happened. -/
structure State where
  loaded : List (Str × Value)
  trace : List Event

/-- One more event. -/
def State.note (s : State) (e : Event) : State := { s with trace := s.trace ++ [e] }

/-- The path of the chunk that is called. -/
def Event.entered : Event → Option Str
  | .enter path => some path
  | _ => none

/-- The chunks that were called, in order. -/
def calls (trace : List Event) : List Str := trace.filterMap Event.entered

/-- A chunk, with what `require` does. -/
def Chunk.run (req : Str → State → Except Err Value × State) : Chunk → State → Except Err Value × State
  | .ret value, s => (.ok value, s)
  | .raise err, s => (.error err, s)
  | .require name k, s => (k (req name s).1).run req (req name s).2

/-- The file of a module, and its chunk: the path itself, or `init` below it. -/
def moduleFile (vfs : Vfs) (path : Str) : Option (Str × Str) :=
  match vfsread vfs path with
  | some (.leaf chunk) => some (path, chunk)
  | _ => match vfsread vfs (path ++ "/init") with
    | some (.leaf chunk) => some (path ++ "/init", chunk)
    | _ => none

section Require

variable (load : Str → Str → Except Err (Nat → Chunk)) (vfs : Vfs) (pureRequire : Str → Except Err Value)

/-- `vfsexec`. `load` gives the function of a chunk; a function that is called again may give other values, and is told
how many chunks were called before. The `key` is for the trace. -/
def vfsexec (req : Str → State → Except Err Value × State) (chunk : Vfs) (path key : Str) (s : State) :
    Except Err Value × State :=
  match chunk with
  | .dir _ => (.error ("VFS error: path '" ++ path ++ "' is a directory, not a file."), s)
  | .leaf chunk => match load chunk ('@' :: path) with
    | .error err => (.error err, s)
    | .ok func => match (func (calls s.trace).length).run req (s.note (.enter key)) with
      | (.error err, s) => (.error err, s.note (.fail key))
      | (.ok result, s) => (.ok result, s)

/-- `vfsrequire`, where chunks require by `req`. -/
def vfsrequire (req : Str → State → Except Err Value × State) (path : Str) (s : State) :
    Except Err (Option Value) × State :=
  let path := substitute path "%." "/"
  match s.loaded.lookup path with
  | some value => (.ok (some value), s.note (.hit path value))
  | none => match moduleFile vfs path with
    | none => (.ok none, s)
    | some (file, chunk) => match vfsexec load req (.leaf chunk) file path s with
      | (.error err, s) => (.error err, s)
      | (.ok result, s) =>
        let value := if result.truthy then result else .bool true
        (.ok (some value), { s with loaded := (path, value) :: s.loaded }.note (.leave path value))

/-- The `require` of `vfsinit`, with room for so many nested calls on the stack. -/
def require : Nat → Str → State → Except Err Value × State
  | 0, _, s => (.error "stack overflow", s.note .overflow)
  | depth + 1, name, s => match vfsrequire load vfs (require depth) name s with
    | (.error err, s) => (.error err, s)
    | (.ok (some result), s) => (.ok result, s)
    | (.ok none, s) => (pureRequire name, s)

end Require

/-- `vfsinit`, on the tree of the archive. -/
def vfsinit (load : Str → Str → Except Err (Nat → Chunk)) (pureRequire : Str → Except Err Value) (depth : Nat)
    (vfsroot : Vfs) (pathname : Option Str) : Except Err Value × State :=
  match vfsroot, pathname with
  | .dir [], _ => (.ok .nil, ⟨[], []⟩)
  | _, none => (.ok (.bool true), ⟨[], []⟩)
  | vfsroot, some pathname => match vfsread vfsroot pathname with
    | none => (.error ("VFS error: main script '" ++ pathname ++ "' not found."), ⟨[], []⟩)
    | some chunk => vfsexec load (require load vfsroot pureRequire depth) chunk pathname pathname ⟨[], []⟩

/-! ## What is asked -/

section Trace

variable (vfs : Vfs)

/-- The module that a path names: the components of its file. -/
def moduleOf (path : Str) : Option (List Str) := (moduleFile vfs path).map fun file => components file.1

/-- The path that `require` was asked for, where it names a module. -/
def Event.asked : Event → Option Str
  | .enter path => some path
  | .hit path _ => some path
  | _ => none

/-- The value that `require` returns for a path. -/
def Event.returned : Event → Option (Str × Value)
  | .leave path value => some (path, value)
  | .hit path value => some (path, value)
  | _ => none

/-- The chunks that run after an event. -/
def Event.after (stack : List Str) : Event → List Str
  | .enter path => path :: stack
  | .leave _ _ => stack.tail
  | .fail _ => stack.tail
  | .hit _ _ => stack
  | .overflow => stack

/-- The chunks that are running, the last one first. -/
def running (trace : List Event) : List Str := trace.foldl Event.after []

/-- The chunk of a module is called at most once. -/
def CalledOnce (trace : List Event) : Prop := ((calls trace).map (moduleOf vfs)).Nodup

/-- Every chunk is called at most once, `require` never overflows the stack, and for one module it always returns the
same value. -/
structure AtMostOnce (trace : List Event) : Prop where
  once : CalledOnce vfs trace
  ends : Event.overflow ∉ trace
  same : ∀ e ∈ trace, ∀ e' ∈ trace, ∀ path value path' value', e.returned = some (path, value) →
    e'.returned = some (path', value') → moduleOf vfs path = moduleOf vfs path' → value = value'

/-- A path can be asked for: its module is not running, has not failed, and was loaded under no other path. -/
def Ready (trace : List Event) (path : Str) : Prop :=
  ∀ other, moduleOf vfs other = moduleOf vfs path →
    other ∉ running trace ∧ .fail other ∉ trace ∧ ∀ value, .leave other value ∈ trace → other = path

/-- Whenever `require` is asked for a module, it is ready. -/
def Orderly (trace : List Event) : Prop :=
  ∀ pre e post, trace = pre ++ e :: post → ∀ path, e.asked = some path → Ready vfs pre path

end Trace

/-! ## Traces -/

section Trace

variable {vfs : Vfs} {trace : List Event}

theorem calls_append (a b : List Event) : calls (a ++ b) = calls a ++ calls b := List.filterMap_append

theorem running_concat (trace : List Event) (e : Event) : running (trace ++ [e]) = e.after (running trace) := by
  unfold running
  rw [List.foldl_append]
  rfl

theorem CalledOnce.of_initial {trace' : List Event} (h : CalledOnce vfs trace') (hpre : trace <+: trace') :
    CalledOnce vfs trace := by
  obtain ⟨post, rfl⟩ := hpre
  unfold CalledOnce at h ⊢
  rw [calls_append, List.map_append] at h
  exact (List.nodup_append.mp h).1

theorem Orderly.of_initial {trace' : List Event} (h : Orderly vfs trace') (hpre : trace <+: trace') :
    Orderly vfs trace := by
  obtain ⟨rest, rfl⟩ := hpre
  rintro pre e post rfl path hpath
  exact h pre e (post ++ rest) (by simp) path hpath

/-- One more event of an orderly trace. -/
theorem Orderly.concat (h : Orderly vfs trace) {e : Event} (he : ∀ path, e.asked = some path → Ready vfs trace path) :
    Orderly vfs (trace ++ [e]) := by
  intro pre e' post hsplit path hpath
  rcases Trace.split_append hsplit with ⟨mid, rfl, -⟩ | ⟨mid, rfl, hmid⟩
  · exact h pre e' mid rfl path hpath
  · cases mid with
    | nil =>
      obtain ⟨rfl, -⟩ := List.cons.inj hmid
      rw [List.append_nil]
      exact he path hpath
    | cons e'' mid =>
      have hlen := congrArg List.length hmid
      simp at hlen

end Trace

/-! ## The invariant -/

section Good

variable {vfs : Vfs}

/-- A chunk that was called is running, has failed or is loaded, and only one of these. -/
structure Good (vfs : Vfs) (s : State) : Prop where
  orderly : Orderly vfs s.trace
  once : CalledOnce vfs s.trace
  ends : Event.overflow ∉ s.trace
  called : ∀ p, p ∈ calls s.trace ↔ p ∈ running s.trace ∨ .fail p ∈ s.trace ∨ ∃ v, .leave p v ∈ s.trace
  loaded : ∀ p v, s.loaded.lookup p = some v ↔ .leave p v ∈ s.trace
  hits : ∀ p v, .hit p v ∈ s.trace → .leave p v ∈ s.trace
  running_open : ∀ p ∈ running s.trace, .fail p ∉ s.trace ∧ ∀ v, .leave p v ∉ s.trace
  failed : ∀ p, .fail p ∈ s.trace → ∀ v, .leave p v ∉ s.trace
  stack : (running s.trace).Nodup
  modules : ∀ p ∈ running s.trace, (moduleOf vfs p).isSome = true

namespace Good

variable {s : State}

/-- One module was called under one path. -/
theorem path_eq (h : Good vfs s) {p q : Str} (hp : p ∈ calls s.trace) (hq : q ∈ calls s.trace)
    (hmod : moduleOf vfs p = moduleOf vfs q) : p = q :=
  List.inj_on_of_nodup_map h.once hp hq hmod

/-- A path that is loaded is ready. -/
theorem ready_of_leave (h : Good vfs s) {p : Str} {v : Value} (hp : .leave p v ∈ s.trace) : Ready vfs s.trace p := by
  have hcalled : p ∈ calls s.trace := (h.called p).mpr (.inr (.inr ⟨v, hp⟩))
  intro q hmod
  refine ⟨fun hq => ?_, fun hq => ?_, fun w hq => ?_⟩
  · obtain rfl := h.path_eq ((h.called q).mpr (.inl hq)) hcalled hmod
    exact (h.running_open q hq).2 v hp
  · obtain rfl := h.path_eq ((h.called q).mpr (.inr (.inl hq))) hcalled hmod
    exact h.failed q hq v hp
  · exact h.path_eq ((h.called q).mpr (.inr (.inr ⟨w, hq⟩))) hcalled hmod

/-- A path that is ready and not loaded names a module that was not called. -/
theorem not_called (h : Good vfs s) {p : Str} (hready : Ready vfs s.trace p) (hload : s.loaded.lookup p = none) :
    moduleOf vfs p ∉ (calls s.trace).map (moduleOf vfs) := by
  intro hmem
  obtain ⟨q, hq, hmod⟩ := List.mem_map.mp hmem
  obtain ⟨hrun, hfail, hleave⟩ := hready q hmod
  rcases (h.called q).mp hq with hq | hq | ⟨v, hq⟩
  · exact hrun hq
  · exact hfail hq
  · obtain rfl := hleave v hq
    rw [(h.loaded q v).mpr hq] at hload
    cases hload

theorem hit (h : Good vfs s) {p : Str} {v : Value} (hp : s.loaded.lookup p = some v) :
    Good vfs (s.note (.hit p v)) := by
  have hleave := (h.loaded p v).mp hp
  have hrun : running (s.note (.hit p v)).trace = running s.trace := running_concat _ _
  have hmem : ∀ e : Event, (∀ q w, e ≠ .hit q w) → (e ∈ (s.note (.hit p v)).trace ↔ e ∈ s.trace) := by
    intro e he
    simp only [State.note, List.mem_append, List.mem_singleton]
    exact or_iff_left (he p v)
  have hcalls : calls (s.note (.hit p v)).trace = calls s.trace := by
    simp [State.note, calls, Event.entered]
  have hL : ∀ q w, (Event.leave q w ∈ (s.note (.hit p v)).trace ↔ .leave q w ∈ s.trace) := fun q w =>
    hmem _ fun _ _ h => by cases h
  have hF : ∀ q, (Event.fail q ∈ (s.note (.hit p v)).trace ↔ .fail q ∈ s.trace) := fun q =>
    hmem _ fun _ _ h => by cases h
  refine ⟨h.orderly.concat fun q hq => ?_, ?_, ?_, ?_, ?_, ?_, ?_, ?_, ?_, ?_⟩
  · obtain rfl := Option.some.inj hq
    exact h.ready_of_leave hleave
  · unfold CalledOnce
    rw [hcalls]
    exact h.once
  · rw [hmem _ fun _ _ h => by cases h]
    exact h.ends
  · intro q
    simp only [hcalls, hrun, hL, hF]
    exact h.called q
  · intro q w
    rw [hL]
    exact h.loaded q w
  · intro q w hq
    rw [hL]
    rcases List.mem_append.mp hq with hq | hq
    · exact h.hits q w hq
    · obtain ⟨rfl, rfl⟩ := Event.hit.inj (List.mem_singleton.mp hq)
      exact hleave
  · simp only [hrun, hL, hF]
    exact h.running_open
  · simp only [hL, hF]
    exact h.failed
  · rw [hrun]
    exact h.stack
  · rw [hrun]
    exact h.modules

theorem enter (h : Good vfs s) {p : Str} (hready : Ready vfs s.trace p) (hload : s.loaded.lookup p = none)
    (hmod : (moduleOf vfs p).isSome = true) : Good vfs (s.note (.enter p)) := by
  have hnew := h.not_called hready hload
  have hnot : p ∉ calls s.trace := fun hp => hnew (List.mem_map_of_mem hp)
  have hrun : running (s.note (.enter p)).trace = p :: running s.trace := running_concat _ _
  have hcalls : calls (s.note (.enter p)).trace = calls s.trace ++ [p] := by
    simp [State.note, calls, Event.entered]
  have hmem : ∀ e : Event, (∀ q, e ≠ .enter q) → (e ∈ (s.note (.enter p)).trace ↔ e ∈ s.trace) := by
    intro e he
    simp only [State.note, List.mem_append, List.mem_singleton]
    exact or_iff_left (he p)
  have hL : ∀ q w, (Event.leave q w ∈ (s.note (.enter p)).trace ↔ .leave q w ∈ s.trace) := fun q w =>
    hmem _ fun _ h => by cases h
  have hF : ∀ q, (Event.fail q ∈ (s.note (.enter p)).trace ↔ .fail q ∈ s.trace) := fun q => hmem _ fun _ h => by cases h
  refine ⟨h.orderly.concat fun q hq => ?_, ?_, ?_, ?_, ?_, ?_, ?_, ?_, ?_, ?_⟩
  · obtain rfl := Option.some.inj hq
    exact hready
  · unfold CalledOnce
    rw [hcalls, List.map_append, List.nodup_append]
    refine ⟨h.once, List.nodup_singleton _, ?_⟩
    rintro m hm m' hm' rfl
    rw [List.map_singleton, List.mem_singleton] at hm'
    exact hnew (hm' ▸ hm)
  · rw [hmem _ fun _ h => by cases h]
    exact h.ends
  · intro q
    simp only [hcalls, hrun, hL, hF, List.mem_append, List.mem_cons]
    rw [h.called q]
    tauto
  · intro q w
    rw [hL]
    exact h.loaded q w
  · intro q w hq
    rw [hL]
    exact h.hits q w ((hmem _ fun _ h => by cases h).mp hq)
  · intro q hq
    rw [hrun] at hq
    simp only [hL, hF]
    rcases List.mem_cons.mp hq with rfl | hq
    · exact ⟨fun hf => hnot ((h.called q).mpr (.inr (.inl hf))),
        fun w hw => hnot ((h.called q).mpr (.inr (.inr ⟨w, hw⟩)))⟩
    · exact h.running_open q hq
  · simp only [hL, hF]
    exact h.failed
  · rw [hrun, List.nodup_cons]
    exact ⟨fun hp => hnot ((h.called p).mpr (.inl hp)), h.stack⟩
  · intro q hq
    rw [hrun] at hq
    rcases List.mem_cons.mp hq with rfl | hq
    · exact hmod
    · exact h.modules q hq

theorem fail (h : Good vfs s) {p : Str} {stack : List Str} (hrun : running s.trace = p :: stack) :
    Good vfs (s.note (.fail p)) ∧ running (s.note (.fail p)).trace = stack := by
  have hrun' : running (s.note (.fail p)).trace = stack := by
    rw [State.note, running_concat, hrun]
    rfl
  have hstack := h.stack
  rw [hrun, List.nodup_cons] at hstack
  have hp : p ∈ running s.trace := by
    rw [hrun]
    exact List.mem_cons_self
  have hcalls : calls (s.note (.fail p)).trace = calls s.trace := by
    simp [State.note, calls, Event.entered]
  have hmem : ∀ e : Event, (∀ q, e ≠ .fail q) → (e ∈ (s.note (.fail p)).trace ↔ e ∈ s.trace) := by
    intro e he
    simp only [State.note, List.mem_append, List.mem_singleton]
    exact or_iff_left (he p)
  have hL : ∀ q w, (Event.leave q w ∈ (s.note (.fail p)).trace ↔ .leave q w ∈ s.trace) := fun q w =>
    hmem _ fun _ h => by cases h
  have hF : ∀ q, (Event.fail q ∈ (s.note (.fail p)).trace ↔ .fail q ∈ s.trace ∨ q = p) := by
    intro q
    simp only [State.note, List.mem_append, List.mem_singleton, Event.fail.injEq]
  refine ⟨⟨h.orderly.concat fun q hq => ?_, ?_, ?_, ?_, ?_, ?_, ?_, ?_, ?_, ?_⟩, hrun'⟩
  · cases hq
  · unfold CalledOnce
    rw [hcalls]
    exact h.once
  · rw [hmem _ fun _ h => by cases h]
    exact h.ends
  · intro q
    simp only [hcalls, hrun', hL, hF]
    rw [h.called q, hrun, List.mem_cons]
    tauto
  · intro q w
    rw [hL]
    exact h.loaded q w
  · intro q w hq
    rw [hL]
    exact h.hits q w ((hmem _ fun _ h => by cases h).mp hq)
  · intro q hq
    rw [hrun'] at hq
    have hold := h.running_open q (by rw [hrun]; exact List.mem_cons_of_mem p hq)
    simp only [hL, hF]
    refine ⟨fun hf => hf.elim hold.1 fun hqp => ?_, hold.2⟩
    exact hstack.1 (hqp ▸ hq)
  · intro q hq w
    rw [hL]
    rcases (hF q).mp hq with hq | rfl
    · exact h.failed q hq w
    · exact (h.running_open q hp).2 w
  · rw [hrun']
    exact hstack.2
  · intro q hq
    rw [hrun'] at hq
    exact h.modules q (by rw [hrun]; exact List.mem_cons_of_mem p hq)

theorem leave (h : Good vfs s) {p : Str} {stack : List Str} (hrun : running s.trace = p :: stack) (v : Value) :
    Good vfs ({ s with loaded := (p, v) :: s.loaded }.note (.leave p v)) ∧
      running ({ s with loaded := (p, v) :: s.loaded }.note (.leave p v)).trace = stack := by
  have hrun' : running ({ s with loaded := (p, v) :: s.loaded }.note (.leave p v)).trace = stack := by
    rw [State.note, running_concat, hrun]
    rfl
  have hstack := h.stack
  rw [hrun, List.nodup_cons] at hstack
  have hp : p ∈ running s.trace := by
    rw [hrun]
    exact List.mem_cons_self
  have hcalls : calls ({ s with loaded := (p, v) :: s.loaded }.note (.leave p v)).trace = calls s.trace := by
    simp [State.note, calls, Event.entered]
  have hmem : ∀ e : Event, (∀ q w, e ≠ .leave q w) →
      (e ∈ ({ s with loaded := (p, v) :: s.loaded }.note (.leave p v)).trace ↔ e ∈ s.trace) := by
    intro e he
    simp only [State.note, List.mem_append, List.mem_singleton]
    exact or_iff_left (he p v)
  have hL : ∀ q w, (Event.leave q w ∈ ({ s with loaded := (p, v) :: s.loaded }.note (.leave p v)).trace ↔
      .leave q w ∈ s.trace ∨ q = p ∧ w = v) := by
    intro q w
    simp only [State.note, List.mem_append, List.mem_singleton, Event.leave.injEq]
  have hF : ∀ q, (Event.fail q ∈ ({ s with loaded := (p, v) :: s.loaded }.note (.leave p v)).trace ↔
      .fail q ∈ s.trace) := fun q => hmem _ fun _ _ h => by cases h
  refine ⟨⟨h.orderly.concat fun q hq => ?_, ?_, ?_, ?_, ?_, ?_, ?_, ?_, ?_, ?_⟩, hrun'⟩
  · cases hq
  · unfold CalledOnce
    rw [hcalls]
    exact h.once
  · rw [hmem _ fun _ _ h => by cases h]
    exact h.ends
  · intro q
    simp only [hcalls, hrun', hL, hF]
    rw [h.called q, hrun, List.mem_cons]
    constructor
    · rintro ((rfl | hq) | hq | ⟨w, hq⟩)
      · exact .inr (.inr ⟨v, .inr ⟨rfl, rfl⟩⟩)
      · exact .inl hq
      · exact .inr (.inl hq)
      · exact .inr (.inr ⟨w, .inl hq⟩)
    · rintro (hq | hq | ⟨w, hq | ⟨rfl, -⟩⟩)
      · exact .inl (.inr hq)
      · exact .inr (.inl hq)
      · exact .inr (.inr ⟨w, hq⟩)
      · exact .inl (.inl rfl)
  · intro q w
    rw [hL]
    show ((p, v) :: s.loaded).lookup q = some w ↔ _
    by_cases hq : q = p
    · subst hq
      rw [List.lookup_cons_self]
      constructor
      · rintro hw
        exact .inr ⟨rfl, (Option.some.inj hw).symm⟩
      · rintro (hw | ⟨-, rfl⟩)
        · exact absurd hw ((h.running_open q hp).2 w)
        · rfl
    · rw [List.lookup_cons, beq_false_of_ne hq]
      exact (h.loaded q w).trans (or_iff_left fun hqp => hq hqp.1).symm
  · intro q w hq
    rw [hL]
    exact .inl (h.hits q w ((hmem _ fun _ _ h => by cases h).mp hq))
  · intro q hq
    rw [hrun'] at hq
    have hold := h.running_open q (by rw [hrun]; exact List.mem_cons_of_mem p hq)
    simp only [hL, hF]
    refine ⟨hold.1, fun w hw => hw.elim (hold.2 w) fun hqp => ?_⟩
    exact hstack.1 (hqp.1 ▸ hq)
  · intro q hq w
    rw [hF] at hq
    rw [hL]
    rintro (hw | ⟨rfl, -⟩)
    · exact h.failed q hq w hw
    · exact (h.running_open q hp).1 hq
  · rw [hrun']
    exact hstack.2
  · intro q hq
    rw [hrun'] at hq
    exact h.modules q (by rw [hrun]; exact List.mem_cons_of_mem p hq)

end Good

end Good

/-! ## Runs -/

section Run

variable {load : Str → Str → Except Err (Nat → Chunk)} {vfs : Vfs} {pureRequire : Str → Except Err Value}
  {req : Str → State → Except Err Value × State} {room : Nat} {s : State}

theorem note_grows (s : State) (e : Event) : s.trace <+: (s.note e).trace := List.prefix_append _ _

theorem good_init : Good vfs ⟨[], []⟩ := by
  refine ⟨?_, List.nodup_nil, List.not_mem_nil, ?_, ?_, ?_, ?_, ?_, List.nodup_nil, ?_⟩
  · intro pre e post h
    have hlen := congrArg List.length h
    simp at hlen
  · exact fun p => iff_of_false List.not_mem_nil fun h => by simp [running] at h
  · exact fun p v => iff_of_false (fun h => by cases h) List.not_mem_nil
  · exact fun p v h => absurd h List.not_mem_nil
  · exact fun p h => absurd h List.not_mem_nil
  · exact fun p h => absurd h List.not_mem_nil
  · exact fun p h => absurd h List.not_mem_nil

/-- The modules are leaves of the tree. -/
theorem mem_paths_of_moduleOf {path : Str} {m : List Str} (h : moduleOf vfs path = some m) : m ∈ paths vfs := by
  obtain ⟨file, hfile, rfl⟩ := Option.map_eq_some_iff.mp h
  unfold moduleFile at hfile
  split at hfile
  · next chunk hread =>
    cases hfile
    exact mem_paths_of_find hread
  · split at hfile
    · next chunk hread =>
      cases hfile
      exact mem_paths_of_find hread
    · cases hfile

/-- No more chunks are running than there are modules. -/
theorem Good.length_running (h : Good vfs s) : (running s.trace).length ≤ (paths vfs).length := by
  have hnodup : ((running s.trace).map (moduleOf vfs)).Nodup := by
    refine h.stack.map_on fun p hp q hq hmod => ?_
    exact h.path_eq ((h.called p).mpr (.inl hp)) ((h.called q).mpr (.inl hq)) hmod
  have hsub : (running s.trace).map (moduleOf vfs) ⊆ (paths vfs).map some := by
    intro m hm
    obtain ⟨p, hp, rfl⟩ := List.mem_map.mp hm
    obtain ⟨m, hm⟩ := Option.isSome_iff_exists.mp (h.modules p hp)
    rw [hm]
    exact List.mem_map_of_mem (mem_paths_of_moduleOf hm)
  have hlen := (List.subperm_of_subset hnodup hsub).length_le
  rwa [List.length_map, List.length_map] at hlen

/-- What is asked, or what is to be shown, of the whole trace. -/
def Allowed (vfs : Vfs) (trace : List Event) : Prop := Orderly vfs trace ∨ CalledOnce vfs trace

theorem Allowed.of_initial {trace trace' : List Event} (h : Allowed vfs trace') (hpre : trace <+: trace') :
    Allowed vfs trace :=
  h.imp (fun h => h.of_initial hpre) fun h => h.of_initial hpre

/-- A chunk that is called was ready. -/
theorem Good.ready (h : Good vfs s) {p : Str} (hall : Allowed vfs (s.note (.enter p)).trace) : Ready vfs s.trace p := by
  rcases hall with hall | hall
  · exact hall s.trace (.enter p) [] rfl p rfl
  · have hcalls : calls (s.note (.enter p)).trace = calls s.trace ++ [p] := by
      simp [State.note, calls, Event.entered]
    unfold CalledOnce at hall
    rw [hcalls, List.map_append, List.nodup_append] at hall
    intro q hmod
    have hnot : q ∉ calls s.trace := fun hq =>
      hall.2.2 _ (List.mem_map_of_mem hq) _ (List.mem_singleton_self _) hmod
    rw [h.called, not_or, not_or] at hnot
    exact ⟨hnot.1, hnot.2.1, fun v hv => absurd ⟨v, hv⟩ hnot.2.2⟩

/-- A `require` that keeps a good state good, with room for so many nested calls. -/
structure Sound (vfs : Vfs) (room : Nat) (req : Str → State → Except Err Value × State) : Prop where
  grows : ∀ name s, s.trace <+: (req name s).2.trace
  good : ∀ name s, Good vfs s → (paths vfs).length < room + (running s.trace).length →
    Allowed vfs (req name s).2.trace →
    Good vfs (req name s).2 ∧ running (req name s).2.trace = running s.trace

theorem Sound.run_grows (hs : Sound vfs room req) (c : Chunk) : ∀ s, s.trace <+: (c.run req s).2.trace := by
  induction c with
  | ret value => exact fun s => List.prefix_rfl
  | raise err => exact fun s => List.prefix_rfl
  | require name k ih => exact fun s => (hs.grows name s).trans (ih _ _)

theorem Sound.run_good (hs : Sound vfs room req) (c : Chunk) : ∀ s, Good vfs s →
    (paths vfs).length < room + (running s.trace).length → Allowed vfs (c.run req s).2.trace →
    Good vfs (c.run req s).2 ∧ running (c.run req s).2.trace = running s.trace := by
  induction c with
  | ret value => exact fun s h _ _ => ⟨h, rfl⟩
  | raise err => exact fun s h _ _ => ⟨h, rfl⟩
  | require name k ih =>
    intro s h hroom hall
    obtain ⟨hgood, hrun⟩ := hs.good name s h hroom (hall.of_initial (hs.run_grows _ _))
    obtain ⟨hgood', hrun'⟩ := ih (req name s).1 (req name s).2 hgood (hrun ▸ hroom) hall
    exact ⟨hgood', hrun'.trans hrun⟩

theorem vfsexec_grows (hs : Sound vfs room req) (chunk : Vfs) (path key : Str) (s : State) :
    s.trace <+: (vfsexec load req chunk path key s).2.trace := by
  unfold vfsexec
  split
  · exact List.prefix_rfl
  · split
    · exact List.prefix_rfl
    · next func _ =>
      have hgrows := (note_grows s (.enter key)).trans (hs.run_grows (func (calls s.trace).length) _)
      split
      · next err s' hrun =>
        rw [hrun] at hgrows
        exact hgrows.trans (note_grows _ _)
      · next result s' hrun =>
        rw [hrun] at hgrows
        exact hgrows

/-- A chunk that is called: it returns and is still on the stack, or it is not. -/
theorem vfsexec_good (hs : Sound vfs room req) (h : Good vfs s) {chunk : Vfs} {path key : Str}
    (hload : s.loaded.lookup key = none) (hmod : (moduleOf vfs key).isSome = true)
    (hroom : (paths vfs).length < room + 1 + (running s.trace).length)
    (hall : Allowed vfs (vfsexec load req chunk path key s).2.trace) :
    Good vfs (vfsexec load req chunk path key s).2 ∧
      ((∃ err, (vfsexec load req chunk path key s).1 = .error err ∧
        running (vfsexec load req chunk path key s).2.trace = running s.trace) ∨
      ∃ value, (vfsexec load req chunk path key s).1 = .ok value ∧
        running (vfsexec load req chunk path key s).2.trace = key :: running s.trace) := by
  unfold vfsexec at hall ⊢
  split at hall
  · exact ⟨h, .inl ⟨_, rfl, rfl⟩⟩
  · split at hall
    · exact ⟨h, .inl ⟨_, rfl, rfl⟩⟩
    · next func _ =>
      have hgrows := hs.run_grows (func (calls s.trace).length) (s.note (.enter key))
      have hrun : running (s.note (.enter key)).trace = key :: running s.trace := running_concat _ _
      have hroom' : (paths vfs).length < room + (running (s.note (.enter key)).trace).length := by
        rw [hrun, List.length_cons]
        omega
      -- the chunk was ready, and keeps the state good
      have hchunk : Allowed vfs ((func (calls s.trace).length).run req (s.note (.enter key))).2.trace →
          Good vfs ((func (calls s.trace).length).run req (s.note (.enter key))).2 ∧
            running ((func (calls s.trace).length).run req (s.note (.enter key))).2.trace = key :: running s.trace := by
        intro hall
        have hgood := h.enter (h.ready (hall.of_initial hgrows)) hload hmod
        obtain ⟨hgood', hrun'⟩ := hs.run_good _ _ hgood hroom' hall
        exact ⟨hgood', hrun'.trans hrun⟩
      split at hall
      · next err s' hout =>
        rw [hout] at hchunk
        obtain ⟨hgood, hrun'⟩ := hchunk (hall.of_initial (note_grows _ _))
        obtain ⟨hgood', hstack⟩ := hgood.fail hrun'
        exact ⟨hgood', .inl ⟨err, rfl, hstack⟩⟩
      · next result s' hout =>
        rw [hout] at hchunk
        obtain ⟨hgood, hrun'⟩ := hchunk hall
        exact ⟨hgood, .inr ⟨result, rfl, hrun'⟩⟩

theorem vfsrequire_grows (hs : Sound vfs room req) (path : Str) (s : State) :
    s.trace <+: (vfsrequire load vfs req path s).2.trace := by
  unfold vfsrequire
  dsimp only
  split
  · exact note_grows _ _
  · split
    · exact List.prefix_rfl
    · next file chunk _ =>
      have hgrows := @vfsexec_grows load vfs req room hs (.leaf chunk) file (substitute path "%." "/") s
      split
      · next err s' hout =>
        rw [hout] at hgrows
        exact hgrows
      · next result s' hout =>
        rw [hout] at hgrows
        exact hgrows.trans (note_grows _ _)

theorem vfsrequire_good (hs : Sound vfs room req) (h : Good vfs s) (path : Str)
    (hroom : (paths vfs).length < room + 1 + (running s.trace).length)
    (hall : Allowed vfs (vfsrequire load vfs req path s).2.trace) :
    Good vfs (vfsrequire load vfs req path s).2 ∧
      running (vfsrequire load vfs req path s).2.trace = running s.trace := by
  unfold vfsrequire at hall ⊢
  dsimp only at hall ⊢
  cases hload : s.loaded.lookup (substitute path "%." "/") with
  | some value => exact ⟨h.hit hload, running_concat _ _⟩
  | none =>
    rw [hload] at hall
    cases hfile : moduleFile vfs (substitute path "%." "/") with
    | none => exact ⟨h, rfl⟩
    | some file =>
      rw [hfile] at hall
      dsimp only at hall ⊢
      have hmod : (moduleOf vfs (substitute path "%." "/")).isSome = true := by
        unfold moduleOf
        rw [hfile]
        rfl
      have hexec := @vfsexec_good load vfs req room s hs h (.leaf file.2) file.1 _ hload hmod hroom
      rcases hout : vfsexec load req (.leaf file.2) file.1 (substitute path "%." "/") s with ⟨err | result, s'⟩
      · rw [hout] at hall hexec
        obtain ⟨hgood, ⟨_, -, hrun⟩ | ⟨value, hval, -⟩⟩ := hexec hall
        · exact ⟨hgood, hrun⟩
        · cases hval
      · rw [hout] at hall hexec
        obtain ⟨hgood, ⟨err, herr, -⟩ | ⟨value, -, hrun⟩⟩ := hexec (hall.of_initial (note_grows _ _))
        · cases herr
        · exact hgood.leave hrun _

theorem require_grows (load : Str → Str → Except Err (Nat → Chunk)) (vfs : Vfs) (pureRequire : Str → Except Err Value)
    (depth : Nat) (hs : Sound vfs depth (require load vfs pureRequire depth)) (name : Str) (s : State) :
    s.trace <+: (require load vfs pureRequire (depth + 1) name s).2.trace := by
  have hgrows := @vfsrequire_grows load vfs _ depth hs name s
  rw [require]
  split
  · next hout => rwa [hout] at hgrows
  · next hout => rwa [hout] at hgrows
  · next hout => rwa [hout] at hgrows

/-- **`require` keeps a good state good.** -/
theorem require_sound (load : Str → Str → Except Err (Nat → Chunk)) (vfs : Vfs) (pureRequire : Str → Except Err Value)
    (depth : Nat) : Sound vfs depth (require load vfs pureRequire depth) := by
  induction depth with
  | zero =>
    refine ⟨fun name s => note_grows _ _, fun name s h hroom _ => ?_⟩
    have := h.length_running
    omega
  | succ depth ih =>
    refine ⟨require_grows load vfs pureRequire depth ih, fun name s h hroom hall => ?_⟩
    have hgood := @vfsrequire_good load vfs _ depth s ih h name hroom
    rw [require] at hall ⊢
    rcases hout : vfsrequire load vfs (require load vfs pureRequire depth) name s with ⟨err | result, s'⟩
    · rw [hout] at hall hgood
      exact hgood hall
    · rw [hout] at hall hgood
      cases result with
      | none => exact hgood hall
      | some value => exact hgood hall

/-- In a good state every module was called at most once. -/
theorem Good.atMostOnce (h : Good vfs s) : AtMostOnce vfs s.trace := by
  refine ⟨h.once, h.ends, ?_⟩
  have hleave : ∀ e ∈ s.trace, ∀ p v, e.returned = some (p, v) → .leave p v ∈ s.trace := by
    intro e he p v hret
    cases e with
    | enter q => cases hret
    | leave q w =>
      cases hret
      exact he
    | fail q => cases hret
    | hit q w =>
      cases hret
      exact h.hits _ _ he
    | overflow => cases hret
  intro e he e' he' p v p' v' hret hret' hmod
  have hv := hleave e he p v hret
  have hv' := hleave e' he' p' v' hret'
  obtain rfl := h.path_eq ((h.called p).mpr (.inr (.inr ⟨v, hv⟩))) ((h.called p').mpr (.inr (.inr ⟨v', hv'⟩))) hmod
  exact Option.some.inj (((h.loaded p v).mpr hv).symm.trans ((h.loaded p v').mpr hv'))

/-- The state that a run ends in. -/
theorem vfsinit_good {depth : Nat} (hdepth : (paths vfs).length ≤ depth) (pathname : Option Str)
    (hall : Allowed vfs (vfsinit load pureRequire depth vfs pathname).2.trace) :
    Good vfs (vfsinit load pureRequire depth vfs pathname).2 := by
  revert hall
  unfold vfsinit
  split
  · exact fun _ => good_init
  · exact fun _ => good_init
  · next pathname _ =>
    cases hread : vfsread vfs pathname with
    | none => exact fun _ => good_init
    | some chunk =>
      intro hall
      cases chunk with
      | dir entries => exact good_init
      | leaf code =>
        have hmod : (moduleOf vfs pathname).isSome = true := by
          unfold moduleOf moduleFile
          rw [hread]
          rfl
        have hroom : (paths vfs).length < depth + 1 + (running (⟨[], []⟩ : State).trace).length :=
          Nat.lt_of_le_of_lt hdepth (Nat.lt_add_right _ (Nat.lt_succ_self depth))
        exact (vfsexec_good (require_sound load vfs pureRequire depth) good_init rfl hmod hroom hall).1

/-- **A run calls every chunk at most once, never overflows the stack and always returns the same value for a module,
exactly if no module is required while it is loaded, after it has failed, or in another spelling.** The stack has room
for as many nested calls as there are modules. -/
theorem once_iff_orderly (load : Str → Str → Except Err (Nat → Chunk)) (pureRequire : Str → Except Err Value)
    (vfsroot : Vfs) (pathname : Option Str) {depth : Nat} (hdepth : (paths vfsroot).length ≤ depth) :
    AtMostOnce vfsroot (vfsinit load pureRequire depth vfsroot pathname).2.trace ↔
      Orderly vfsroot (vfsinit load pureRequire depth vfsroot pathname).2.trace :=
  ⟨fun h => (vfsinit_good hdepth pathname (.inr h.once)).orderly,
    fun h => (vfsinit_good hdepth pathname (.inl h)).atMostOnce⟩

end Run

/-- Three files, each of which does nothing but require another one. -/
def threeFiles : Vfs := .dir [("main", .leaf "a"), ("a", .leaf "b"), ("b", .leaf "a")]

/-- The chunk of a file that requires what its text says, and returns or raises what it gets. -/
def loadName (chunk _ : Str) : Except Err (Nat → Chunk) :=
  .ok fun _ => .require chunk fun result => result.casesOn .raise .ret

theorem once_iff_orderly_main : AtMostOnce threeFiles (vfsinit loadName (fun _ => .ok .nil) 3 threeFiles
    (some "b")).2.trace ↔
    Orderly threeFiles (vfsinit loadName (fun _ => .ok .nil) 3 threeFiles (some "b")).2.trace :=
  once_iff_orderly loadName (fun _ => .ok .nil) threeFiles (some "b") (by decide)

/-- Two modules that require each other are called until the stack overflows. -/
theorem once_cycle : ¬∀ (load : Str → Str → Except Err (Nat → Chunk)) (pureRequire : Str → Except Err Value)
    (vfsroot : Vfs) (pathname : Option Str) (depth : Nat), (paths vfsroot).length ≤ depth →
    AtMostOnce vfsroot (vfsinit load pureRequire depth vfsroot pathname).2.trace := by
  intro h
  have honce := (h loadName (fun _ => .ok .nil) threeFiles (some "main") 3 (by decide)).once
  revert honce
  unfold CalledOnce
  decide +kernel

end Runtime
