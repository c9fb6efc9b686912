import Loongshield.LuaLsm.Policy
import Mathlib.Logic.Relation

/-!
# `lua_lsm/policy.lua`: the sandbox

The chunk of a policy runs over the tables `math`, `string` and `table` of the host, and its functions may be called
once more when its table is checked: under `string.format`, under `string.match`, and as the `match` of a key. A program
is what it does to these tables (`Libs`: their fields and all that can be reached from there), and what it gives; every
program ends.

- `validateSource`: the function, on a state of the tables; the outer error is a raised one.
- `Step`: the loop over the fields goes on to the next one; `Calm`: it never gets stuck, and ends with the host's
  tables.
- `validateMetadata_moduleOf`: for a table without functions of its own, this is the validation of `Policy`;
- `validate_isolated_iff`: when a validation returns and no later one can tell that it took place.
-/

namespace LuaLsm
namespace Sandbox

open Lua

/-- A field of the table `string`: the host's own function, another function, or something that cannot be called. -/
inductive Member
  | host
  | other
  | none (type : Str)
  deriving DecidableEq

/-- The tables of the host, before any policy has run. `text` is a string as a Lua value. -/
structure Libraries (Libs Val : Type) where
  host : Libs
  member : Libs → Str → Member
  text : Str → Val
  host_format : member host "format" = .host
  host_match : member host "match" = .host

/-- A key of a policy, as `name:match(…)` sees it: a string, a table with a `match` that can be called or with none, or
a value that has no fields. -/
inductive Key
  | name (s : Str)
  | callable
  | missing (type : Str)
  | bare (type : Str)

/-- The fields of a policy, as a loop with `pairs` sees them. A function that is called at a key leaves other library
tables behind, and maybe other fields. At the end, `field` is what the fields hold then. -/
inductive Loop (Libs Val : Type)
  | done (field : Str → Val)
  | raised (err : Val)
  | entry (key : Key) (rest : Loop Libs Val) (after : Libs → Libs) (called : Libs → Loop Libs Val)

/-- A table that a chunk returns: the types of its fields, the loop over them, and what a `string.format` that is not
the host's gives when it is called. -/
structure Module (Libs Val : Type) where
  typeOf : Str → Str
  loop : Loop Libs Val
  format : Libs → Except Val Val × Libs

/-- How a chunk ends. -/
inductive Outcome (Libs Val : Type)
  | raised (err : Val)
  | notTable
  | table (module : Module Libs Val)

/-- A chunk, as a program over the tables that it can reach. -/
abbrev Chunk (Libs Val : Type) : Type := Libs → Outcome Libs Val × Libs

/-- What a validation answers: the metadata, or `nil` and an error: a text of the validation, or a value that a policy
brought up. -/
inductive Answer (Val : Type)
  | metadata (field : Str → Val)
  | refused (err : Str)
  | failed (err : Val)

section Validate

variable {Libs Val : Type} (L : Libraries Libs Val)

/-- The loop of `validate_metadata` over the fields of a policy. -/
def checkHooks : Loop Libs Val → Libs → Except Val (Answer Val) × Libs
  | .done field, libs => (.ok (.metadata field), libs)
  | .raised err, libs => (.error err, libs)
  | .entry key rest after called, libs =>
    match key with
    | .name s =>
      if s ∈ unsupportedHooks then (.ok (.refused ("policy uses unsupported Lua-LSM hook: " ++ s)), libs)
      else match L.member libs "match" with
        | .host => checkHooks rest libs
        | .other => checkHooks (called libs) (after libs)
        | .none type => (.error (L.text ("attempt to call method 'match' (a " ++ type ++ " value)")), libs)
    | .callable => checkHooks (called libs) (after libs)
    | .missing type => (.error (L.text ("attempt to call method 'match' (a " ++ type ++ " value)")), libs)
    | .bare type => (.error (L.text ("attempt to index a " ++ type ++ " value")), libs)

/-- The first required field of another type. -/
def wrongField (module : Module Libs Val) : Option (Str × Str) :=
  requiredFields.find? fun field => module.typeOf field.1 ≠ field.2

/-- `validate_metadata`, on a table. -/
def validateMetadata (module : Module Libs Val) (libs : Libs) : Except Val (Answer Val) × Libs :=
  match wrongField module with
  | some field =>
    match L.member libs "format" with
    | .host => (.ok (.refused ("policy field '" ++ field.1 ++ "' must be a " ++ field.2)), libs)
    | .other => ((module.format libs).1.map .failed, (module.format libs).2)
    | .none type => (.error (L.text ("attempt to call field 'format' (a " ++ type ++ " value)")), libs)
  | none => checkHooks L module.loop libs

/-- `validate_source`, once the chunk is loaded. -/
def validateChunk (chunk : Chunk Libs Val) (libs : Libs) : Except Val (Answer Val) × Libs :=
  match chunk libs with
  | (.raised err, libs) => (.ok (.failed err), libs)
  | (.notTable, libs) => (.ok (.refused "policy chunk must return a table"), libs)
  | (.table module, libs) => validateMetadata L module libs

/-- `validate_source`. -/
def validateSource (load : Str → Except Val (Chunk Libs Val)) (source : Str) (libs : Libs) :
    Except Val (Answer Val) × Libs :=
  if source = [] then (.ok (.refused "policy source is empty"), libs)
  else match load source with
    | .error err => (.ok (.failed err), libs)
    | .ok chunk => validateChunk L chunk libs

/-! ## The programs that run -/

/-- The loop goes on to another field: the host's `match` has seen a string, or a function has been called at the
key. -/
inductive Step : Loop Libs Val × Libs → Loop Libs Val × Libs → Prop
  | name {s : Str} {rest : Loop Libs Val} {after : Libs → Libs} {called : Libs → Loop Libs Val} {libs : Libs}
    (hook : s ∉ unsupportedHooks) (hmatch : L.member libs "match" = .host) :
    Step (.entry (.name s) rest after called, libs) (rest, libs)
  | other {s : Str} {rest : Loop Libs Val} {after : Libs → Libs} {called : Libs → Loop Libs Val} {libs : Libs}
    (hook : s ∉ unsupportedHooks) (hmatch : L.member libs "match" = .other) :
    Step (.entry (.name s) rest after called, libs) (called libs, after libs)
  | callable {rest : Loop Libs Val} {after : Libs → Libs} {called : Libs → Loop Libs Val} {libs : Libs} :
    Step (.entry .callable rest after called, libs) (called libs, after libs)

/-- The loop ends: there are no more fields, or one is an unsupported hook. -/
inductive Ended : Loop Libs Val → Prop
  | done (field : Str → Val) : Ended (.done field)
  | hook {s : Str} (rest : Loop Libs Val) (after : Libs → Libs) (called : Libs → Loop Libs Val)
    (hook : s ∈ unsupportedHooks) : Ended (.entry (.name s) rest after called)

/-- The loop over the fields always goes on to another one or ends, and it ends with the tables of the host. -/
def Calm (start : Loop Libs Val × Libs) : Prop :=
  ∀ s, Relation.ReflTransGen (Step L) start s → (Ended s.1 ∧ s.2 = L.host) ∨ ∃ t, Step L s t

/-- The programs of a policy leave the tables of the host as they are, and none of them raises out of the validation. -/
def Isolated (chunk : Chunk Libs Val) : Prop :=
  match chunk L.host with
  | (.raised _, libs) => libs = L.host
  | (.notTable, libs) => libs = L.host
  | (.table module, libs) =>
    if wrongField module = none then Calm L (module.loop, libs)
    else L.member libs "format" = .host ∧ libs = L.host ∨
      L.member libs "format" = .other ∧ (∃ v, (module.format libs).1 = .ok v) ∧ (module.format libs).2 = L.host

/-- The validation returns, and every later one gives what it would give without it. -/
def Untouched (load : Str → Except Val (Chunk Libs Val)) (source : Str) : Prop :=
  (∃ answer, (validateSource L load source L.host).1 = .ok answer) ∧ ∀ second : Chunk Libs Val,
    (validateChunk L second (validateSource L load source L.host).2).1 = (validateChunk L second L.host).1

end Validate

/-! ## The loop over the fields -/

section Loop

variable {Libs Val : Type} {L : Libraries Libs Val}

theorem step_unique {s t t' : Loop Libs Val × Libs} (h : Step L s t) (h' : Step L s t') : t = t' := by
  cases h with
  | name hook hmatch =>
    cases h' with
    | name hook' hmatch' => rfl
    | other hook' hmatch' =>
      rw [hmatch] at hmatch'
      cases hmatch'
  | other hook hmatch =>
    cases h' with
    | name hook' hmatch' =>
      rw [hmatch] at hmatch'
      cases hmatch'
    | other hook' hmatch' => rfl
  | callable =>
    cases h'
    rfl

theorem not_step_of_ended {s t : Loop Libs Val × Libs} (hended : Ended s.1) : ¬Step L s t := by
  intro h
  cases h with
  | name hook hmatch =>
    cases hended with
    | hook rest after called hook' => exact hook hook'
  | other hook hmatch =>
    cases hended with
    | hook rest after called hook' => exact hook hook'
  | callable => cases hended

/-- The first step of a loop does not matter. -/
theorem calm_step {s t : Loop Libs Val × Libs} (h : Step L s t) : Calm L s ↔ Calm L t := by
  constructor
  · exact fun hcalm r hr => hcalm r (.head h hr)
  · intro hcalm r hr
    obtain rfl | ⟨t', hstep, hrest⟩ := hr.cases_head
    · exact .inr ⟨t, h⟩
    · exact hcalm r (step_unique hstep h ▸ hrest)

/-- A loop that ends is calm if it ends with the tables of the host. -/
theorem calm_ended {s : Loop Libs Val × Libs} (hended : Ended s.1) : Calm L s ↔ s.2 = L.host := by
  constructor
  · intro hcalm
    obtain ⟨-, h⟩ | ⟨t, h⟩ := hcalm s .refl
    · exact h
    · exact absurd h (not_step_of_ended hended)
  · intro h r hr
    obtain rfl | ⟨t, hstep, -⟩ := hr.cases_head
    · exact .inl ⟨hended, h⟩
    · exact absurd hstep (not_step_of_ended hended)

/-- A loop that is stuck is not calm. -/
theorem not_calm_stuck {s : Loop Libs Val × Libs} (hended : ¬Ended s.1) (hstep : ∀ t, ¬Step L s t) : ¬Calm L s := by
  intro hcalm
  obtain ⟨h, -⟩ | ⟨t, h⟩ := hcalm s .refl
  · exact hended h
  · exact hstep t h

/-- The loop returns, and leaves the tables of the host. -/
def Settles (L : Libraries Libs Val) (loop : Loop Libs Val) (libs : Libs) : Prop :=
  (∃ answer, (checkHooks L loop libs).1 = .ok answer) ∧ (checkHooks L loop libs).2 = L.host

theorem not_settles {loop : Loop Libs Val} {libs after : Libs} {err : Val}
    (h : checkHooks L loop libs = (.error err, after)) : ¬Settles L loop libs := by
  rintro ⟨⟨answer, hanswer⟩, -⟩
  rw [h] at hanswer
  cases hanswer

theorem settles_of_eq {loop loop' : Loop Libs Val} {libs libs' : Libs}
    (h : checkHooks L loop libs = checkHooks L loop' libs') : Settles L loop libs ↔ Settles L loop' libs' := by
  unfold Settles
  rw [h]

/-- **The loop returns and leaves the tables of the host** exactly if it is calm. -/
theorem settles_iff (loop : Loop Libs Val) : ∀ libs, Settles L loop libs ↔ Calm L (loop, libs) := by
  induction loop with
  | done field =>
    intro libs
    rw [calm_ended (.done field)]
    exact and_iff_right ⟨_, rfl⟩
  | raised err =>
    intro libs
    exact iff_of_false (not_settles rfl) (not_calm_stuck (fun h => by cases h) fun t h => by cases h)
  | entry key rest after called ihRest ihCalled =>
    intro libs
    cases key with
    | name s =>
      by_cases hook : s ∈ unsupportedHooks
      · have heq : checkHooks L (.entry (.name s) rest after called) libs =
            (.ok (.refused ("policy uses unsupported Lua-LSM hook: " ++ s)), libs) := by
          rw [checkHooks]
          exact if_pos hook
        rw [calm_ended (.hook rest after called hook)]
        unfold Settles
        rw [heq]
        exact and_iff_right ⟨_, rfl⟩
      · cases hmatch : L.member libs "match" with
        | host =>
          have heq : checkHooks L (.entry (.name s) rest after called) libs = checkHooks L rest libs := by
            rw [checkHooks]
            simp only [hook, hmatch, if_false]
          rw [settles_of_eq heq, calm_step (.name hook hmatch)]
          exact ihRest libs
        | other =>
          have heq : checkHooks L (.entry (.name s) rest after called) libs =
              checkHooks L (called libs) (after libs) := by
            rw [checkHooks]
            simp only [hook, hmatch, if_false]
          rw [settles_of_eq heq, calm_step (.other hook hmatch)]
          exact ihCalled libs (after libs)
        | none type =>
          have heq : checkHooks L (.entry (.name s) rest after called) libs =
              (.error (L.text ("attempt to call method 'match' (a " ++ type ++ " value)")), libs) := by
            rw [checkHooks]
            simp only [hook, hmatch, if_false]
          refine iff_of_false (not_settles heq) (not_calm_stuck ?_ ?_)
          · intro h
            cases h with
            | hook rest after called h => exact hook h
          · intro t h
            cases h with
            | name hook' hmatch' =>
              rw [hmatch] at hmatch'
              cases hmatch'
            | other hook' hmatch' =>
              rw [hmatch] at hmatch'
              cases hmatch'
    | callable =>
      rw [calm_step .callable]
      exact ihCalled libs (after libs)
    | missing type =>
      exact iff_of_false (not_settles rfl) (not_calm_stuck (fun h => by cases h) fun t h => by cases h)
    | bare type =>
      exact iff_of_false (not_settles rfl) (not_calm_stuck (fun h => by cases h) fun t h => by cases h)

end Loop

/-! ## Tables that are values

On the tables of the host, and for a table without functions of its own, the validation is the one on values. -/

section Values

variable {Libs : Type} {L : Libraries Libs Value}

/-- A key of a table. -/
def keyOf (key : Value) : Key :=
  match key with
  | .str s => .name s
  | key =>
    match key.index (.str "match") with
    | .ok (.func _) => .callable
    | .ok method => .missing method.typeName
    | .error _ => .bare key.typeName

/-- The loop over the fields of a table. -/
def loopOf (field : Str → Value) : List (Value × Value) → Loop Libs Value
  | [] => .done field
  | (key, _) :: rest => .entry (keyOf key) (loopOf field rest) id fun _ => loopOf field rest

/-- The answer for what the validation on values gives. -/
def answerOf {α : Type} (field : Str → Value) : Except Str α → Answer Value
  | .error err => .refused err
  | .ok _ => .metadata field

/-- What the validation on values gives, raised errors included. -/
def liftAnswer {α : Type} (L : Libraries Libs Value) (field : Str → Value) (m : Except Err (Except Str α)) :
    Except Value (Answer Value) :=
  (m.mapError L.text).map (answerOf field)

/-- A key that is no string: the loop goes on, or the same error is raised. -/
theorem checkHooks_key (field : Str → Value) {key value : Value} (hkey : ∀ s, key ≠ .str s)
    (rest : List (Value × Value)) (loop : Loop Libs Value)
    (ih : checkHooks L loop L.host = (liftAnswer L field (LuaLsm.checkHooks rest), L.host)) :
    checkHooks L (.entry (keyOf key) loop id fun _ => loop) L.host =
      (liftAnswer L field (LuaLsm.checkHooks ((key, value) :: rest)), L.host) := by
  cases key with
  | str s => exact absurd rfl (hkey s)
  | nil => rfl
  | bool b => rfl
  | num q => rfl
  | inf neg => rfl
  | nan => rfl
  | func f => rfl
  | table r fs inh =>
    have hindex : (Value.table r fs inh).index (.str "match") = .ok ((Value.table r fs inh).get (.str "match")) := rfl
    cases hmethod : (Value.table r fs inh).get (.str "match") with
    | func f =>
      have hvalues : LuaLsm.checkHooks ((.table r fs inh, value) :: rest) = LuaLsm.checkHooks rest := by
        simp only [LuaLsm.checkHooks, matchKey, hindex, hmethod]
        rfl
      simp only [keyOf, hindex, hmethod, hvalues]
      exact ih
    | _ => simp only [keyOf, hindex, hmethod, checkHooks, liftAnswer, LuaLsm.checkHooks, matchKey]; rfl

/-- **The loop over a table that is a value**, on the tables of the host. -/
theorem checkHooks_loopOf (field : Str → Value) (fields : List (Value × Value)) :
    checkHooks L (loopOf field fields) L.host = (liftAnswer L field (LuaLsm.checkHooks fields), L.host) := by
  induction fields with
  | nil => rfl
  | cons entry rest ih =>
    obtain ⟨key, value⟩ := entry
    by_cases hkey : ∃ s, key = .str s
    · obtain ⟨s, rfl⟩ := hkey
      rw [loopOf, LuaLsm.checkHooks]
      by_cases hook : s ∈ unsupportedHooks
      · simp only [keyOf, checkHooks, hook, if_true]
        rfl
      · simp only [keyOf, checkHooks, hook, if_false, L.host_match]
        exact ih
    · exact checkHooks_key field (fun s h => hkey ⟨s, h⟩) rest _ ih

theorem checkFields_eq (module : Value) (required : List (Str × Str)) : checkFields module required =
    ((required.find? fun field => (module.field field.1).typeName ≠ field.2).map fun field =>
      (.error ("policy field '" ++ field.1 ++ "' must be a " ++ field.2) : Except Str Unit)).getD (.ok ()) := by
  induction required with
  | nil => rfl
  | cons field required ih =>
    obtain ⟨name, type⟩ := field
    rw [checkFields, List.find?_cons]
    by_cases h : (module.field name).typeName = type
    · simp only [h, if_true, ih, ne_eq, not_true_eq_false, decide_false]
    · simp only [h, if_false, ne_eq, not_false_eq_true, decide_true]
      rfl

/-- A table without functions of its own. -/
def moduleOf (r : Nat) (fs inh : List (Value × Value)) : Module Libs Value where
  typeOf name := ((Value.table r fs inh).field name).typeName
  loop := loopOf (Value.table r fs inh).field fs
  format libs := (.ok .nil, libs)

/-- **The validation of a table that is a value** is the one on values, and leaves the tables of the host. -/
theorem validateMetadata_moduleOf (r : Nat) (fs inh : List (Value × Value)) :
    validateMetadata L (moduleOf r fs inh) L.host =
      (liftAnswer L (Value.table r fs inh).field (LuaLsm.validateMetadata (.table r fs inh)), L.host) := by
  have hwrong : wrongField (moduleOf r fs inh : Module Libs Value) = requiredFields.find? fun field =>
      ((Value.table r fs inh).field field.1).typeName ≠ field.2 := rfl
  unfold validateMetadata LuaLsm.validateMetadata
  dsimp only
  rw [checkFields_eq, ← hwrong]
  cases hfield : wrongField (moduleOf r fs inh : Module Libs Value) with
  | some field =>
    simp only [L.host_format, Option.map_some, Option.getD_some]
    rfl
  | none =>
    show checkHooks L (loopOf (Value.table r fs inh).field fs) L.host = _
    rw [checkHooks_loopOf]
    simp only [Option.map_none, Option.getD_none]
    rcases LuaLsm.checkHooks fs with err | err | u
    · rfl
    · rfl
    · rfl

end Values

/-! ## Two validations -/

section Isolation

variable {Libs Val : Type} {L : Libraries Libs Val}

/-- **Every later validation gives the same** exactly if the tables are the same: a chunk can compare them. -/
theorem later_iff (libs : Libs) :
    (∀ second : Chunk Libs Val, (validateChunk L second libs).1 = (validateChunk L second L.host).1) ↔
      libs = L.host := by
  classical
  refine ⟨fun h => ?_, fun h second => by rw [h]⟩
  by_contra hne
  have hsecond := h fun l => (if l = L.host then .notTable else .raised (L.text []), l)
  unfold validateChunk at hsecond
  dsimp only at hsecond
  rw [if_neg hne, if_pos rfl] at hsecond
  cases Except.ok.inj hsecond

/-- A chunk is isolated if its validation returns and leaves the tables of the host. -/
theorem isolated_iff (chunk : Chunk Libs Val) :
    ((∃ answer, (validateChunk L chunk L.host).1 = .ok answer) ∧ (validateChunk L chunk L.host).2 = L.host) ↔
      Isolated L chunk := by
  unfold validateChunk Isolated
  rcases chunk L.host with ⟨_ | _ | module, libs⟩
  · exact and_iff_right ⟨_, rfl⟩
  · exact and_iff_right ⟨_, rfl⟩
  · dsimp only
    unfold validateMetadata
    cases hwrong : wrongField module with
    | none =>
      rw [if_pos rfl]
      exact settles_iff module.loop libs
    | some field =>
      rw [if_neg (Option.some_ne_none _)]
      dsimp only
      cases hformat : L.member libs "format" with
      | host => simp
      | none type => simp
      | other =>
        dsimp only
        cases hrun : (module.format libs).1 with
        | ok v => simp [Except.map]
        | error err => simp [Except.map]

/-- **A validation returns, and leaves no trace in a later one,** exactly if the source is empty or cannot be loaded, or
its chunk is isolated. -/
theorem validate_isolated_iff (L : Libraries Libs Val) (load : Str → Except Val (Chunk Libs Val)) (source : Str) :
    Untouched L load source ↔ source = [] ∨ (∃ err, load source = .error err) ∨
      ∃ chunk, load source = .ok chunk ∧ Isolated L chunk := by
  unfold Untouched
  rw [later_iff]
  unfold validateSource
  by_cases hempty : source = []
  · rw [if_pos hempty]
    exact iff_of_true ⟨⟨_, rfl⟩, rfl⟩ (.inl hempty)
  · rw [if_neg hempty]
    cases hload : load source with
    | error err => exact iff_of_true ⟨⟨_, rfl⟩, rfl⟩ (.inr (.inl ⟨err, rfl⟩))
    | ok chunk =>
      refine (isolated_iff chunk).trans ⟨fun h => .inr (.inr ⟨chunk, rfl, h⟩), ?_⟩
      rintro (h | ⟨err, h⟩ | ⟨other, h, hisolated⟩)
      · exact absurd h hempty
      · cases h
      · rw [Except.ok.inj h]
        exact hisolated

end Isolation

/-- The fields of the table `string` of the host, for programs that change nothing else. -/
def stringTable : Libraries (Str → Member) Str where
  host _ := .host
  member libs name := libs name
  text s := s
  host_format := rfl
  host_match := rfl

/-- A table with all required fields, and these keys. -/
def demoModule (keys : List Key) : Module (Str → Member) Str where
  typeOf name := if name = "version".toList then "number" else "string"
  loop := keys.foldr (fun key rest => .entry key rest id fun _ => rest) (.done fun _ => "demo")
  format libs := (.ok [], libs)

/-- A policy with a required field, and one with a list in it. -/
def demoChunk (keys : List Key) : Chunk (Str → Member) Str := fun libs => (.table (demoModule keys), libs)

/-- `string.match = nil`. -/
def wipingChunk : Chunk (Str → Member) Str :=
  fun libs => (.notTable, fun name => if name = "match".toList then .none "nil" else libs name)

/-- A policy with an element of a list raises, and one that takes `string.match` away makes the next one raise. -/
theorem policy_not_isolated :
    (validateSource stringTable (fun _ => .ok (demoChunk [.bare "number"])) "return demo" stringTable.host).1 =
        .error "attempt to index a number value" ∧
      ¬Untouched stringTable (fun _ => .ok (demoChunk [.bare "number"])) "return demo" ∧
        ¬Untouched stringTable (fun _ => .ok wipingChunk) "string.match = nil" := by
  refine ⟨rfl, ?_, ?_⟩
  · rintro ⟨⟨answer, h⟩, -⟩
    cases h
  · rintro ⟨-, h⟩
    have hsecond := h (demoChunk [.name "name"])
    cases hsecond

end Sandbox
end LuaLsm
