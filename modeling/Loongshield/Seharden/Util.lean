import Loongshield.Lua.Pattern

/-!
# `shared/util.lua`

The predicates of the rule schema on untyped YAML data, and the text of a value in log and report messages. The YAML
writer (`lyaml.dump`) is a parameter here; it raises on some values (`Dumps` are the others).
-/

namespace Seharden

open Lua

/-- `is_non_empty_string`. -/
def isNonEmptyString : Value → Bool
  | .str s => !s.isEmpty
  | _ => false

theorem isNonEmptyString_iff {v : Value} : isNonEmptyString v = true ↔ ∃ s, v = .str s ∧ s ≠ [] := by
  cases v <;> simp [isNonEmptyString]

/-- A key that `is_list` counts: a whole number from 1 on. -/
def isListKey : Value → Bool
  | .num q => decide (1 ≤ q) && decide (q.den = 1)
  | _ => false

/-- `is_list`: every key is a positive whole number, and as many elements as there are keys are present from 1 on. -/
def isList : Value → Bool
  | .table r fs inh =>
    fs.all (fun f => isListKey f.1) &&
      (List.range fs.length).all fun i : Nat => !((Value.table r fs inh).get (.num (i + 1))).isNil
  | _ => false

theorem isTable_of_isList {v : Value} (h : isList v = true) : v.isTable = true := by
  cases v <;> simp_all [isList, Value.isTable]

/-- `serialize_for_log`; `yamlDump v` stands for `lyaml.dump({ v })`. -/
def serializeForLog (yamlDump : Value → Except Err Str) : Value → Except Err Str
  | .nil => .ok "nil"
  | .table r fs inh => do
    let text ← yamlDump (.table r fs inh)
    match strMatch text "---(.-)\n%.%.%.\n$" with
    | .ok (some [.str s]) => .ok s
    | _ => .ok (Value.tostring (.table r fs inh))
  | v => .ok ("'" ++ v.tostring ++ "'")

/-- A value that can be written to a log: a table must be one that the YAML writer does not raise on. -/
def Dumps (yamlDump : Value → Except Err Str) (v : Value) : Prop :=
  v.isTable = true → ∃ text, yamlDump v = .ok text

/-- **When a value can be written to a log.** -/
theorem serializeForLog_ok_iff {yamlDump : Value → Except Err Str} {v : Value} :
    (∃ s, serializeForLog yamlDump v = .ok s) ↔ Dumps yamlDump v := by
  unfold Dumps
  cases v with
  | table r fs inh =>
    rw [serializeForLog]
    cases yamlDump (.table r fs inh) with
    | error e => simp [bind, Except.bind, Value.isTable]
    | ok text =>
      refine iff_of_true ?_ fun _ => ⟨text, rfl⟩
      simp only [bind, Except.bind]
      split
      · exact ⟨_, rfl⟩
      · exact ⟨_, rfl⟩
  | _ => exact iff_of_true ⟨_, rfl⟩ (by simp [Value.isTable])

/-- What is no table can be written. -/
theorem dumps_of_not_table {yamlDump : Value → Except Err Str} {v : Value} (h : v.isTable = false) :
    Dumps yamlDump v := by
  intro ht
  rw [h] at ht
  cases ht

end Seharden
