import Loongshield.Lua.Value

/-!
# JSON documents as `cjson` decodes them

- `Json`: a decoded value. An array and an object are tables, and `null` is a sentinel, which is no table and counts as
  true.
- `Returns`: a computation does not raise; what it takes for a computation that goes on after another one.
- `Json.index`: `v.key`; `Json.receiver`: the string that `v:method()` is called on. Both raise on values of other types
  (`index_ok`, `receiver_ok`).
-/

namespace Lua

section Returns

variable {α β : Type}

/-- The computation returns. -/
def Returns (m : Except Err α) : Prop := ∃ a, m = .ok a

theorem returns_ok (a : α) : Returns (.ok a : Except Err α) := ⟨a, rfl⟩

theorem not_returns_error (err : Err) : ¬Returns (.error err : Except Err α) := by
  rintro ⟨a, h⟩
  cases h

/-- A computation returns if its first part does, and the rest on what that gives. -/
theorem returns_bind {m : Except Err α} {f : α → Except Err β} :
    Returns (m >>= f) ↔ ∃ a, m = .ok a ∧ Returns (f a) := by
  constructor
  · rintro ⟨b, h⟩
    obtain ⟨a, ha, hb⟩ := bind_ok.mp h
    exact ⟨a, ha, b, hb⟩
  · rintro ⟨a, ha, b, hb⟩
    exact ⟨b, bind_ok.mpr ⟨a, ha, hb⟩⟩

theorem returns_map {m : Except Err α} {f : α → β} : Returns (f <$> m) ↔ Returns m := by
  cases m with
  | ok a => exact iff_of_true ⟨f a, rfl⟩ ⟨a, rfl⟩
  | error err => exact iff_of_false (not_returns_error err) (not_returns_error err)

end Returns

/-- A decoded value. Of several fields with one name, the last one is kept. -/
inductive Json
  | null
  | bool (b : Bool)
  | num (x : Flt)
  | str (s : Str)
  | array (elems : List Json)
  | object (fields : List (Str × Json))

namespace Json

/-- `v` counts as true in a condition. -/
def truthy : Json → Bool
  | .bool b => b
  | _ => true

/-- `type(v)`. -/
def typeName : Json → Str
  | .null => "userdata"
  | .bool _ => "boolean"
  | .num _ => "number"
  | .str _ => "string"
  | .array _ | .object _ => "table"

/-- `type(v) == 'table'`. -/
def isTable : Json → Bool
  | .array _ | .object _ => true
  | _ => false

/-- `type(v) == 'string'`. -/
def isString : Json → Bool
  | .str _ => true
  | _ => false

/-- Tables and strings have fields. -/
def indexable (v : Json) : Bool := v.isTable || v.isString

/-- The field of a table, `none` for `nil`. -/
def get : Json → Str → Option Json
  | .object fields, key => fields.reverse.lookup key
  | _, _ => none

/-- `v.key`, for a key that is no function of the `string` table. -/
def index (v : Json) (key : Str) : Except Err (Option Json) :=
  if v.indexable then .ok (v.get key) else .error ("attempt to index a " ++ v.typeName ++ " value")

/-- `v:method()`, for a method of strings: the string. -/
def receiver (v : Json) (method : Str) : Except Err Str :=
  match v with
  | .str s => .ok s
  | .array _ | .object _ =>
    .error ("attempt to call method '" ++ method ++ "' (a " ++ ((v.get method).map typeName).getD "nil" ++ " value)")
  | v => .error ("attempt to index a " ++ v.typeName ++ " value")

/-- A field that counts as true. -/
def present (field : Option Json) : Option Json := field.filter truthy

/-- What `ipairs` visits. The keys of an object are strings. -/
def ipairs : Json → List Json
  | .array elems => elems
  | _ => []

/-- `field == text`. -/
def isText : Option Json → Str → Bool
  | some (.str s), text => s == text
  | _, _ => false

/-- `tonumber(v)`. -/
def tonumber : Json → Option Flt
  | .num x => some x
  | .str s => strscan s
  | _ => none

/-- `tostring(v)`, with what it gives for a table or for a number that is not finite. -/
def tostring (other : Json → Str) : Json → Str
  | .null => "userdata: NULL"
  | .bool b => if b then "true" else "false"
  | .num (.fin q) => fmtNumber q
  | .str s => s
  | v => other v

theorem index_ok {v : Json} {key : Str} {w : Option Json} :
    v.index key = .ok w ↔ v.indexable = true ∧ v.get key = w := by
  unfold index
  split
  · next h => simp [h]
  · next h => simp [h]

theorem receiver_ok {v : Json} {method s : Str} : v.receiver method = .ok s ↔ v = .str s := by
  cases v <;> simp [receiver]

theorem returns_index_bind {α : Type} {v : Json} {key : Str} {f : Option Json → Except Err α} :
    Returns (v.index key >>= f) ↔ v.indexable = true ∧ Returns (f (v.get key)) := by
  rw [returns_bind]
  constructor
  · rintro ⟨w, hw, hf⟩
    obtain ⟨hv, rfl⟩ := index_ok.mp hw
    exact ⟨hv, hf⟩
  · exact fun h => ⟨_, index_ok.mpr ⟨h.1, rfl⟩, h.2⟩

theorem returns_receiver_bind {α : Type} {v : Json} {method : Str} {f : Str → Except Err α} :
    Returns (v.receiver method >>= f) ↔ ∃ s, v = .str s ∧ Returns (f s) := by
  rw [returns_bind]
  exact exists_congr fun s => and_congr_left fun _ => receiver_ok

theorem isString_iff {v : Json} : v.isString = true ↔ ∃ s, v = .str s := by
  cases v <;> simp [isString]

end Json

end Lua
