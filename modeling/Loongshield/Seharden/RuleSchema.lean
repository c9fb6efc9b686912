import Loongshield.Seharden.Comparators

/-!
# `rule_schema.lua`

The schema of rules: identifier and description, the assertion tree, the probe tasks, the reinforce steps and the
optional reinforce guard. A rule is untyped YAML data; every check names the field it is about in its message. An
assertion node has exactly one of `all_of`, `any_of` and `compare`; the payload of a comparator is opaque, except that
of `for_all`, which is itself an assertion node.
-/

namespace Seharden

open Lua

/-- One check: the message is returned when it fails. -/
def check (b : Bool) (msg : Str) : Except Str Unit := if b then .ok () else .error msg

@[simp] theorem check_bind_ok {α : Type} {b : Bool} {msg : Str} {f : Unit → Except Str α} {x : α} :
    (check b msg >>= f) = .ok x ↔ b = true ∧ f () = .ok x := by
  cases b <;> simp [check, bind, Except.bind]

@[simp] theorem check_ok {b : Bool} {msg : Str} {u : Unit} : check b msg = .ok u ↔ b = true := by
  cases b <;> simp [check]

/-- The name of a list element in messages: `string.format('%s[%d]', name, index)`. -/
def elemName (name : Str) (index : Nat) : Str := name ++ "[" ++ natStr index ++ "]"

/-- A loop of checks over a list, with the index of each element. -/
def checkEach {α : Type} (f : Nat → α → Except Str Unit) : Nat → List α → Except Str Unit
  | _, [] => .ok ()
  | index, x :: xs => do
    f index x
    checkEach f (index + 1) xs

theorem checkEach_ok {α : Type} {f : Nat → α → Except Str Unit} :
    ∀ {index : Nat} {xs : List α}, checkEach f index xs = .ok () → ∀ x ∈ xs, ∃ i, f i x = .ok ()
  | _, [], _, x, hx => by cases hx
  | index, y :: ys, h, x, hx => by
    obtain ⟨_, h₁, h₂⟩ := bind_ok.mp h
    rcases List.mem_cons.mp hx with rfl | hx
    · exact ⟨index, h₁⟩
    · exact checkEach_ok h₂ x hx

/-- `validate_module_function_path`. -/
def validateModuleFunctionPath (value : Value) (fieldName : Str) : Except Str Unit :=
  match value with
  | .str s => do
    check (!s.isEmpty) (fieldName ++ " must be a non-empty string in 'module.function' format.")
    match strMatch s "^[%w_]+%.[%w_]+$" with
    | .ok (some _) => .ok ()
    | _ => .error (fieldName ++ " must be in 'module.function' format.")
  | _ => .error (fieldName ++ " must be a non-empty string in 'module.function' format.")

/-! ## Probe tasks -/

/-- `normalize_probe_tasks`: a single task is written without a list. -/
def normalizeProbeTasks (probes : Value) : List Value :=
  if !probes.isTable then []
  else if !(probes.field "func").isNil then [probes]
  else probes.ipairs

/-- `get_probe_tasks`. -/
def getProbeTasks (rule : Value) (fieldName : Str) : List Value := normalizeProbeTasks (rule.field fieldName)

/-- The checks of one probe task; `seen` holds the names of the earlier ones. -/
def validateProbeTask (name : Str) (seen : List Str) (task : Value) : Except Str Unit := do
  check task.isTable (name ++ " must be a table.")
  check (isNonEmptyString (task.field "name")) (name ++ ".name must be a non-empty string.")
  check (!seen.contains (task.field "name").tostring)
    (name ++ ".name duplicates probe name '" ++ (task.field "name").tostring ++ "'.")
  validateModuleFunctionPath (task.field "func") (name ++ ".func")
  check ((task.field "params").isNil || (task.field "params").isTable)
    (name ++ ".params must be a table if present.")

/-- The loop of `validate_probe_tasks`. -/
def validateTaskList (shorthand : Bool) (fieldName : Str) : Nat → List Str → List Value → Except Str Unit
  | _, _, [] => .ok ()
  | index, seen, task :: tasks => do
    validateProbeTask (if shorthand then fieldName else elemName fieldName index) seen task
    validateTaskList shorthand fieldName (index + 1) ((task.field "name").tostring :: seen) tasks

/-- `validate_probe_tasks`. -/
def validateProbeTasks (probes : Value) (fieldName : Str) : Except Str Unit :=
  if probes.isNil then .ok () else do
  check probes.isTable (fieldName ++ " must be a probe task or list of probe tasks.")
  let shorthand := !(probes.field "func").isNil
  check (shorthand || isList probes) (fieldName ++ " must be a probe task or list of probe tasks.")
  validateTaskList shorthand fieldName 1 [] (normalizeProbeTasks probes)

/-! ## Reinforce steps -/

/-- The checks of one reinforce step. -/
def validateReinforceStep (name : Str) (task : Value) : Except Str Unit := do
  check task.isTable (name ++ " must be a table.")
  validateModuleFunctionPath (task.field "action") (name ++ ".action")
  check ((task.field "params").isNil || (task.field "params").isTable)
    (name ++ ".params must be a table if present.")

/-- `validate_reinforce_steps`. -/
def validateReinforceSteps (reinforce : Value) (fieldName : Str) : Except Str Unit :=
  if reinforce.isNil then .ok () else do
  check (isList reinforce) (fieldName ++ " must be a list of reinforce steps.")
  checkEach (fun index task => validateReinforceStep (elemName fieldName index) task) 1 reinforce.ipairs

/-! ## Assertions -/

/-- How many of the three shapes a node defines. -/
def shapeCount (node : Value) : Nat :=
  (if (node.field "all_of").isNil then 0 else 1) + (if (node.field "any_of").isNil then 0 else 1) +
    (if (node.field "compare").isNil then 0 else 1)

/-- The value of a field that must be a non-empty string if present. -/
def optionalString (v : Value) : Bool := v.isNil || isNonEmptyString v

/-- `validate_assertion_node`; `known` says whether comparator names are checked. -/
def validateAssertionNode (known : Bool) (node : Value) (name : Str) : Except Str Unit := do
  check node.isTable (name ++ " must be a table.")
  check (shapeCount node == 1) (name ++ " must define exactly one of 'all_of', 'any_of', or 'compare'.")
  check (optionalString (node.field "message")) (name ++ ".message must be a non-empty string if present.")
  check (optionalString (node.field "key")) (name ++ ".key must be a non-empty string if present.")
  if !(node.field "all_of").isNil then
    let name := name ++ ".all_of"
    check (isList (node.field "all_of")) (name ++ " must be a list.")
    checkEach (fun index c => validateAssertionNode known c.1 (elemName name index)) 1 (node.children "all_of")
  else if !(node.field "any_of").isNil then
    let name := name ++ ".any_of"
    check (isList (node.field "any_of")) (name ++ " must be a list.")
    checkEach (fun index c => validateAssertionNode known c.1 (elemName name index)) 1 (node.children "any_of")
  else
    check (isNonEmptyString (node.field "compare")) (name ++ ".compare must be a non-empty string.")
    check (!known || (comparators (node.field "compare")).isSome)
      (name ++ ".compare references unknown comparator '" ++ (node.field "compare").tostring ++ "'.")
    if (node.field "compare").rawEq (.str "for_all") then
      check (node.field "expected").isTable
        (name ++ ".expected must be an assertion table when compare is 'for_all'.")
      match node.child "expected" with
      | some e => validateAssertionNode known e.1 (name ++ ".expected")
      | none => .ok ()
    else .ok ()
termination_by sizeOf node
decreasing_by
  · exact c.2
  · exact c.2
  · exact e.2

/-! ## Rules -/

/-- `validate_rule`. -/
def validateRule (rule : Value) (name : Str) (known : Bool) : Except Str Unit := do
  check rule.isTable (name ++ " must be a table.")
  check (isNonEmptyString (rule.field "id")) (name ++ ".id must be a non-empty string.")
  check (isNonEmptyString (rule.field "desc")) (name ++ ".desc must be a non-empty string.")
  validateAssertionNode known (rule.field "assertion") (name ++ ".assertion")
  validateProbeTasks (rule.field "probes") (name ++ ".probes")
  validateReinforceSteps (rule.field "reinforce") (name ++ ".reinforce")
  validateProbeTasks (rule.field "reinforce_guard") (name ++ ".reinforce_guard")

end Seharden
