import Loongshield.Seharden.Output
import Loongshield.Seharden.RuleSchema

/-!
# `evaluator.lua`

`evaluateNode` evaluates an assertion node in a context: the verdict and, for a failure, its reason. What can raise:
reading a node that is neither a table nor a string, taking `key` of a value that cannot be indexed, a template with a
key that becomes NaN, writing an operand to the log, a comparator, and the message of a failure. Nothing here catches an
error.

The two exits for malformed trees, `Comparator not found` and `Invalid node structure`, go through the parameter
`stop`; the code's own exits return a failure with the message as its reason (`evaluate`).
-/

namespace Seharden

open Lua

/-! ## Operands -/

/-- An identity above all those in use while a node is evaluated. -/
def freshRef (node : Value) (c : Contexts) : Nat := max node.bound c.toValue.bound

/-- `get_actual_value`. -/
def getActualValue (node : Value) (c : Contexts) : Except Err Value := do
  let actual := node.field "actual"
  let key := node.field "key"
  if actual.isNil && key.truthy && c.item.truthy then c.item.index key
  else
    let probeName := match actual with
      | .str s => probeRef s
      | _ => none
    match probeName with
    | some name =>
      let source ← c.probe.index (.str name)
      if source.isNil then .ok .nil
      else if key.truthy then source.index key
      else .ok source
    | none => (resolveValue c.toValue actual (freshRef node c)).map Prod.fst

/-- Without `actual`, a key is taken of the item. -/
theorem getActualValue_item {node : Value} {c : Contexts} (ha : node.field "actual" = .nil)
    (hk : (node.field "key").truthy = true) (hi : c.item.truthy = true) :
    getActualValue node c = c.item.index (node.field "key") := by
  unfold getActualValue
  dsimp only
  rw [ha, hk, hi]
  rfl

/-- A probe reference is looked up by the whole name. -/
theorem getActualValue_probe {node : Value} {c : Contexts} {s name : Str} (ha : node.field "actual" = .str s)
    (hr : probeRef s = some name) (hp : c.probe.isTable = true) :
    getActualValue node c =
      if (c.probe.field name).isNil then .ok .nil
      else if (node.field "key").truthy then (c.probe.field name).index (node.field "key")
      else .ok (c.probe.field name) := by
  unfold getActualValue
  rw [ha]
  simp only [Value.isNil, Bool.false_and, Bool.false_eq_true, ↓reduceIte, hr, Value.index_of_isTable hp]
  rfl

/-- Everything else is a template. -/
theorem getActualValue_template {node : Value} {c : Contexts}
    (hi : ¬ (node.field "actual" = .nil ∧ (node.field "key").truthy = true ∧ c.item.truthy = true))
    (hr : ∀ s, node.field "actual" = .str s → probeRef s = none) :
    getActualValue node c = (resolveValue c.toValue (node.field "actual") (freshRef node c)).map Prod.fst := by
  unfold getActualValue
  dsimp only
  rw [if_neg (by simpa [and_assoc] using hi)]
  cases ha : node.field "actual" with
  | str s => simp only [hr s ha]
  | _ => rfl

/-- The expected value of a comparison: `template.resolve_value(node.expected, contexts)`, after the actual one. -/
def getExpectedValue (node : Value) (c : Contexts) (actual : Value) : Except Err Value :=
  (resolveValue c.toValue (node.field "expected") (max (freshRef node c) actual.bound)).map Prod.fst

/-! ## Nodes -/

/-- The loop over `all_of`: the first failing child decides, with its reason. -/
def allLoop {α : Type} (f : α → Except Err Verdict) : List α → Except Err Verdict
  | [] => .ok (true, .nil)
  | x :: xs => do
    match ← f x with
    | (true, _) => allLoop f xs
    | (false, err) => .ok (false, err)

/-- The line for a failed child of `any_of`. -/
def childFailed (i : Nat) (reason : Value) : Str := "  - Child #" ++ natStr i ++ " failed: " ++ reason.tostring

/-- The loop over `any_of`: the first passing child decides; `reasons` are those of the earlier children. -/
def anyLoop {α : Type} (f : α → Except Err Verdict) : Nat → List Str → List α → Except Err Verdict
  | _, reasons, [] =>
    .ok (false, .str ("No conditions in 'any_of' were met:\n" ++ List.intercalate "\n".toList reasons))
  | i, reasons, x :: xs => do
    match ← f x with
    | (true, _) => .ok (true, .nil)
    | (false, reason) => anyLoop f (i + 1) (reasons ++ [childFailed i reason]) xs

/-- The end of a comparison: a failure gets the node's message and the detail. -/
def finishCompare (yamlDump : Value → Except Err Str) (node : Value) (c : Contexts) (actual : Value) :
    Verdict → Except Err Verdict
  | (true, _) => .ok (true, .nil)
  | (false, err) => do
    let msg : Str := if (node.field "message").truthy then (node.field "message").tostring else "Assertion failed"
    let detail ← formatFailureDetail yamlDump node c actual err
    .ok (false, .str (msg ++ " (" ++ detail ++ ")"))

/-- `evaluate_node`; `stop` is taken at the two exits for malformed trees. The operands are written to the log before
they are compared; the function that `for_all` gets is one that can always be written. -/
def evaluateNode (yamlDump : Value → Except Err Str) (stop : Str → Except Err Verdict) (node : Value) (c : Contexts) :
    Except Err Verdict := do
  match ← childNodes node "all_of" with
  | some children => allLoop (fun ch => evaluateNode yamlDump stop ch.1 c) children
  | none => match ← childNodes node "any_of" with
    | some children => anyLoop (fun ch => evaluateNode yamlDump stop ch.1 c) 1 [] children
    | none =>
      let compare ← node.index (.str "compare")
      if compare.truthy then
        match comparators compare with
        | none => stop ("Comparator not found: '" ++ compare.tostring ++ "'")
        | some .forAll => do
          let actual ← getActualValue node c
          let _ ← serializeForLog yamlDump actual
          let v ← forAll actual fun item =>
            match node.child "expected" with
            | some e => evaluateNode yamlDump stop e.1 { probe := c.probe, item := item }
            | none => (node.index (.str "expected")).map fun _ => (false, .nil)
          finishCompare yamlDump node c actual v
        | some (.value cmp) => do
          let actual ← getActualValue node c
          let expected ← getExpectedValue node c actual
          let _ ← serializeForLog yamlDump actual
          let _ ← serializeForLog yamlDump expected
          let result ← cmp.apply actual expected
          finishCompare yamlDump node c actual (result, .nil)
      else stop "Invalid node structure"
termination_by sizeOf node
decreasing_by
  · exact ch.2
  · exact ch.2
  · exact e.2

/-- `evaluate`: both exits return a failure with their message. -/
def evaluate (yamlDump : Value → Except Err Str) (node : Value) (c : Contexts) : Except Err Verdict :=
  evaluateNode yamlDump (fun msg => .ok (false, .str msg)) node c

end Seharden
