import Loongshield.Seharden.Util

/-!
# `shared/template.lua`

Template references `%\{path}`: the path is split at dots and walked from the context table (`lookupContextValue`). A
string that is one reference becomes the value it names, or stays as it is when there is none; references inside a
longer string are replaced by the text of their values; tables are resolved into new tables, key by key. A key that is
resolved to NaN raises (`NanFault`, `resolveValue_ok_iff`).
-/

namespace Seharden

open Lua

/-- The context of a resolution: what the probes gave, and the element under a `for_all`. -/
structure Contexts where
  probe : Value
  item : Value

/-- The context table, with an identity of its own. -/
def Contexts.toValue (c : Contexts) : Value :=
  .record (max c.probe.bound c.item.bound) [("probe", c.probe), ("item", c.item)]

/-- The parts of a path: `key:gmatch("([^.]+)")`. -/
def pathParts (key : Str) : List Value :=
  match gmatch key "([^.]+)" with
  | .ok ms => ms.map fun m => m.headD .nil
  | .error _ => []

/-- The walk of `lookup_context_value` over the parts of the key. -/
def walk : Value → List Value → Value
  | value, [] => value
  | value, part :: parts =>
    if value.isTable && !(value.get part).isNil then walk (value.get part) parts else .nil

/-- `lookup_context_value`. -/
def lookupContextValue (key : Str) (contexts : Value) : Value := walk contexts (pathParts key)

/-- The text a reference inside a longer string is replaced by. -/
def expandRef (contexts : Value) (caps : List Value) : Str :=
  match caps with
  | [.str key] =>
    let value := lookupContextValue key contexts
    if value.isNil || value.isTable then "%\x7b" ++ key ++ "\x7d" else value.tostring
  | _ => []

/-- `resolve_value` on a string. -/
def resolveString (contexts : Value) (s : Str) : Value :=
  match strMatch s "^%%\x7b([^\x7d]+)\x7d$" with
  | .ok (some [.str fullKey]) =>
    let value := lookupContextValue fullKey contexts
    if value.isNil then .str s else value
  | _ => match gsub s "%%\x7b([^\x7d]+)\x7d" (expandRef contexts) with
    | .ok r => .str r
    | .error _ => .str s

mutual

/-- `resolve_value`; new tables take the identities from `n` on, and the next free one is returned. -/
def resolveValue (contexts : Value) : Value → Nat → Except Err (Value × Nat)
  | .str s, n => .ok (resolveString contexts s, n)
  | .table _ fs _, n => do
    let (resolved, n') ← resolveFields contexts [] fs (n + 1)
    .ok (.table n resolved [], n')
  | v, n => .ok (v, n)

/-- The loop of `resolve_value` over the fields of a table. -/
def resolveFields (contexts : Value) (resolved : List (Value × Value)) :
    List (Value × Value) → Nat → Except Err (List (Value × Value) × Nat)
  | [], n => .ok (resolved, n)
  | (k, v) :: fs, n => do
    let (k', n₁) ← resolveValue contexts k n
    let (v', n₂) ← resolveValue contexts v n₁
    if k'.isNan then .error "table index is NaN"
    else resolveFields contexts (Value.rawSet resolved k' v') fs n₂

end

/-! ## Templates that cannot be resolved -/

section Fault

variable {contexts : Value}

/-- A key that is resolved to NaN. -/
def NanKey (contexts k : Value) : Prop := k = .nan ∨ ∃ s, k = .str s ∧ resolveString contexts s = .nan

/-- A table of the template, at any depth, has a key that is resolved to NaN. -/
inductive NanFault (contexts : Value) : Value → Prop
  | here {r : Nat} {fs inh : List (Value × Value)} {f : Value × Value} (hf : f ∈ fs) (h : NanKey contexts f.1) :
    NanFault contexts (.table r fs inh)
  | key {r : Nat} {fs inh : List (Value × Value)} {f : Value × Value} (hf : f ∈ fs) (h : NanFault contexts f.1) :
    NanFault contexts (.table r fs inh)
  | value {r : Nat} {fs inh : List (Value × Value)} {f : Value × Value} (hf : f ∈ fs) (h : NanFault contexts f.2) :
    NanFault contexts (.table r fs inh)

theorem nanFault_table_iff {r : Nat} {fs inh : List (Value × Value)} : ¬NanFault contexts (.table r fs inh) ↔
    ∀ f ∈ fs, ¬NanKey contexts f.1 ∧ ¬NanFault contexts f.1 ∧ ¬NanFault contexts f.2 := by
  constructor
  · intro h f hf
    exact ⟨fun hk => h (.here hf hk), fun hk => h (.key hf hk), fun hv => h (.value hf hv)⟩
  · intro h hfault
    cases hfault with
    | here hf hk => exact (h _ hf).1 hk
    | key hf hk => exact (h _ hf).2.1 hk
    | value hf hv => exact (h _ hf).2.2 hv

theorem isNan_iff {v : Value} : v.isNan = true ↔ v = .nan := by cases v <;> simp [Value.isNan]

/-- What a key is resolved to. -/
theorem isNan_resolveValue {k k' : Value} {n n' : Nat} (h : resolveValue contexts k n = .ok (k', n')) :
    k'.isNan = true ↔ NanKey contexts k := by
  unfold NanKey
  rw [isNan_iff]
  cases k with
  | str s =>
    rw [resolveValue] at h
    cases h
    simp
  | table r fs inh =>
    rw [resolveValue] at h
    obtain ⟨⟨resolved, m⟩, -, h⟩ := bind_ok.mp h
    cases h
    simp
  | _ =>
    rw [resolveValue] at h
    · cases h
      simp
    · exact fun s => Value.noConfusion
    · exact fun r fs inh => Value.noConfusion

mutual

/-- **When a template is resolved.** -/
theorem resolveValue_ok_iff : ∀ (v : Value) (n : Nat), (∃ r, resolveValue contexts v n = .ok r) ↔ ¬NanFault contexts v
  | .table r fs inh, n => by
    rw [resolveValue, nanFault_table_iff, ← resolveFields_ok_iff [] fs (n + 1)]
    cases resolveFields contexts [] fs (n + 1) with
    | error e => simp [bind, Except.bind]
    | ok found => simp [bind, Except.bind]
  | .str s, n => iff_of_true ⟨_, by rw [resolveValue]⟩ (by rintro ⟨⟩)
  | .nil, n => iff_of_true ⟨_, by rw [resolveValue] <;> simp⟩ (by rintro ⟨⟩)
  | .bool b, n => iff_of_true ⟨_, by rw [resolveValue] <;> simp⟩ (by rintro ⟨⟩)
  | .num q, n => iff_of_true ⟨_, by rw [resolveValue] <;> simp⟩ (by rintro ⟨⟩)
  | .inf neg, n => iff_of_true ⟨_, by rw [resolveValue] <;> simp⟩ (by rintro ⟨⟩)
  | .nan, n => iff_of_true ⟨_, by rw [resolveValue] <;> simp⟩ (by rintro ⟨⟩)
  | .func f, n => iff_of_true ⟨_, by rw [resolveValue] <;> simp⟩ (by rintro ⟨⟩)

theorem resolveFields_ok_iff : ∀ (resolved fs : List (Value × Value)) (n : Nat),
    (∃ r, resolveFields contexts resolved fs n = .ok r) ↔
      ∀ f ∈ fs, ¬NanKey contexts f.1 ∧ ¬NanFault contexts f.1 ∧ ¬NanFault contexts f.2
  | resolved, [], n => by simp [resolveFields]
  | resolved, (k, v) :: fs, n => by
    rw [resolveFields, List.forall_mem_cons, ← resolveValue_ok_iff k n]
    cases hk : resolveValue contexts k n with
    | error e => simp [bind, Except.bind]
    | ok found =>
      obtain ⟨k', n₁⟩ := found
      rw [← resolveValue_ok_iff v n₁, ← isNan_resolveValue hk]
      cases hv : resolveValue contexts v n₁ with
      | error e => simp [bind, Except.bind, hv]
      | ok found =>
        obtain ⟨v', n₂⟩ := found
        cases hnan : k'.isNan with
        | true => simp [bind, Except.bind, hv, hnan]
        | false =>
          have ih := resolveFields_ok_iff (Value.rawSet resolved k' v') fs n₂
          simpa [bind, Except.bind, hv, hnan] using ih

end

end Fault

end Seharden
