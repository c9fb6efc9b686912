import Loongshield.Lua.Number
import Mathlib.Data.Finset.Card
import Mathlib.Data.Finset.Range
import Mathlib.Data.Finset.Image

/-!
# Lua values

`Value` is a finite Lua value. A table has an identity `ref` (two tables are equal iff their identities are), its own
fields in the order in which `pairs` visits them, and the fields it inherits through the `__index` table of its
metatable. Numbers are doubles: `num` is a finite one, `inf` and `nan` are the others. A function is named: the only
functions that occur as data are those of the `string` table, which indexing a string reads.

* `Value.get`: `t[k]` on a table; `Value.index`: `v[k]` on any value, which raises unless `v` is a table or a string.
* `Value.ipairs`: the elements `ipairs` visits, `t[1], t[2], …` up to the first missing one (`mem_seq`).
* `Value.children`: the elements of a list field, with the proof that they are smaller than the table.
* `Value.bound`: a number above every identity in a value; a new table takes its identity from there on.
-/

namespace Lua

/-- The message of a raised error. -/
abbrev Err := Str

/-- A computation that returns goes through both of its parts. -/
theorem bind_ok {ε α β : Type} {m : Except ε α} {f : α → Except ε β} {b : β} :
    (m >>= f) = .ok b ↔ ∃ a, m = .ok a ∧ f a = .ok b := by
  cases m <;> simp [bind, Except.bind]

theorem map_ok_iff {ε α β : Type} {m : Except ε α} {f : α → β} : (∃ b, m.map f = .ok b) ↔ ∃ a, m = .ok a := by
  cases m <;> simp [Except.map]

/-- A Lua value. -/
inductive Value
  | nil
  | bool (b : Bool)
  | num (q : Rat)
  | inf (neg : Bool)
  | nan
  | str (s : Str)
  | func (name : Str)
  | table (ref : Nat) (fields inherited : List (Value × Value))

namespace Value

instance : Inhabited Value := ⟨.nil⟩

/-- `v` counts as true in a condition. -/
def truthy : Value → Bool
  | .nil => false
  | .bool b => b
  | _ => true

/-- `v == nil`. -/
def isNil : Value → Bool
  | .nil => true
  | _ => false

/-- `v ~= v`: NaN, which cannot be a key of a table. -/
def isNan : Value → Bool
  | .nan => true
  | _ => false

/-- `type(v) == 'table'`. -/
def isTable : Value → Bool
  | .table .. => true
  | _ => false

/-- `type(v)`. -/
def typeName : Value → Str
  | .nil => "nil"
  | .bool _ => "boolean"
  | .num _ => "number"
  | .inf _ => "number"
  | .nan => "number"
  | .str _ => "string"
  | .func _ => "function"
  | .table .. => "table"

@[simp] theorem isNil_iff {v : Value} : v.isNil = true ↔ v = .nil := by cases v <;> simp [isNil]

@[simp] theorem isNil_eq_false {v : Value} : v.isNil = false ↔ v ≠ .nil := by cases v <;> simp [isNil]

theorem ne_nil_of_truthy {v : Value} (h : v.truthy = true) : v ≠ .nil := by rintro rfl; cases h

/-- `a == b`: tables by identity, everything else by value. NaN equals nothing. -/
def rawEq : Value → Value → Bool
  | .nil, .nil => true
  | .bool a, .bool b => a == b
  | .num a, .num b => a == b
  | .inf a, .inf b => a == b
  | .str a, .str b => a == b
  | .func a, .func b => a == b
  | .table a _ _, .table b _ _ => a == b
  | _, _ => false

@[simp] theorem rawEq_num {v : Value} {q : Rat} : rawEq v (.num q) = true ↔ v = .num q := by
  cases v <;> simp [rawEq]

@[simp] theorem rawEq_str {v : Value} {s : Str} : rawEq v (.str s) = true ↔ v = .str s := by
  cases v <;> simp [rawEq]

/-! ## Fields -/

/-- `rawget`: the value stored under a key, `nil` if there is none. -/
def rawGet : List (Value × Value) → Value → Value
  | [], _ => .nil
  | (k, v) :: fs, key => if rawEq k key then v else rawGet fs key

/-- `t[key] = v` on the fields of a table. -/
def rawSet (fs : List (Value × Value)) (key v : Value) : List (Value × Value) :=
  let rest := fs.filter fun f => !rawEq f.1 key
  if v.isNil then rest else rest ++ [(key, v)]

theorem rawGet_mem {fs : List (Value × Value)} {key : Value} (h : rawGet fs key ≠ .nil) :
    ∃ k, (k, rawGet fs key) ∈ fs ∧ rawEq k key = true := by
  induction fs with
  | nil => exact absurd rfl h
  | cons f fs ih =>
    obtain ⟨k, v⟩ := f
    unfold rawGet at h ⊢
    split at h
    · rename_i hk
      rw [if_pos hk]
      exact ⟨k, List.mem_cons_self, hk⟩
    · rename_i hk
      rw [if_neg hk]
      obtain ⟨k', hm, hk'⟩ := ih h
      exact ⟨k', List.mem_cons_of_mem _ hm, hk'⟩

theorem rawGet_append {fs gs : List (Value × Value)} {key : Value} (h : ∀ f ∈ fs, rawEq f.1 key = false) :
    rawGet (fs ++ gs) key = rawGet gs key := by
  induction fs with
  | nil => rfl
  | cons f fs ih =>
    have hf := h f List.mem_cons_self
    simp only [List.cons_append, rawGet, hf, Bool.false_eq_true, ↓reduceIte]
    exact ih fun g hg => h g (List.mem_cons_of_mem _ hg)

/-- Reading a string key back after it was set. -/
theorem rawGet_rawSet_str (fs : List (Value × Value)) (s : Str) (v : Value) :
    rawGet (rawSet fs (.str s) v) (.str s) = v := by
  have hrest : ∀ f ∈ fs.filter (fun f => !rawEq f.1 (.str s)), rawEq f.1 (.str s) = false := by
    intro f hf
    simpa using (List.mem_filter.mp hf).2
  unfold rawSet
  split
  · rename_i hv
    rw [isNil_iff.mp hv]
    have := @rawGet_append _ [] _ hrest
    simpa [rawGet] using this
  · rw [rawGet_append hrest]
    simp [rawGet]

/-- Setting another key changes nothing. -/
theorem rawGet_rawSet_ne {fs : List (Value × Value)} {k key : Str} {v : Value} (h : k ≠ key) :
    rawGet (rawSet fs (.str k) v) (.str key) = rawGet fs (.str key) := by
  have hfilter : rawGet (fs.filter fun f => !rawEq f.1 (.str k)) (.str key) = rawGet fs (.str key) := by
    induction fs with
    | nil => rfl
    | cons f fs ih =>
      rw [List.filter_cons]
      cases hk : rawEq f.1 (.str k) with
      | true =>
        have hne : rawEq f.1 (.str key) = false := by simp [rawEq_str.mp hk, rawEq, h]
        simp [rawGet, hne, ih]
      | false => simp [rawGet, ih]
  have hlast : ∀ gs : List (Value × Value), rawGet (gs ++ [(.str k, v)]) (.str key) = rawGet gs (.str key) := by
    intro gs
    induction gs with
    | nil => simp [rawGet, rawEq, h]
    | cons g gs ih => simp [rawGet, ih]
  unfold rawSet
  split
  · exact hfilter
  · rw [hlast, hfilter]

/-- `t[key]` for a table: its own fields, then the inherited ones. Everything else has no fields. -/
def get : Value → Value → Value
  | .table _ fs inh, key =>
    let v := rawGet fs key
    if v.isNil then rawGet inh key else v
  | _, _ => .nil

/-- `t.name` for a table. -/
def field (v : Value) (name : Str) : Value := v.get (.str name)

/-- The functions of the `string` table, found when a string is indexed. -/
def stringLib : List Str :=
  ["byte", "char", "dump", "find", "format", "gmatch", "gsub", "len", "lower", "match", "rep", "reverse", "sub",
    "upper"]

/-- `v[key]`: tables and strings can be indexed, other values raise. -/
def index : Value → Value → Except Err Value
  | .table r fs inh, key => .ok (get (.table r fs inh) key)
  | .str _, .str k => .ok (if k ∈ stringLib then .func k else .nil)
  | .str _, _ => .ok .nil
  | v, _ => .error ("attempt to index a " ++ typeName v ++ " value")

/-- The values `v[key]` does not raise on. -/
def indexable : Value → Bool
  | .table .. => true
  | .str _ => true
  | _ => false

theorem index_ok_iff {v key : Value} : (∃ w, index v key = .ok w) ↔ v.indexable = true := by
  cases v with
  | str s => cases key <;> simp [index, indexable]
  | _ => simp [index, indexable]

theorem index_of_isTable {v : Value} (h : v.isTable = true) (name : Str) :
    v.index (.str name) = .ok (v.field name) := by
  cases v with
  | table r fs inh => rfl
  | _ => cases h

/-! ## Sizes: fields are smaller than their table -/

theorem sizeOf_rawGet {fs : List (Value × Value)} {key : Value} (h : rawGet fs key ≠ .nil) :
    sizeOf (rawGet fs key) < sizeOf fs := by
  obtain ⟨k, hm, -⟩ := rawGet_mem h
  have h₁ := List.sizeOf_lt_of_mem hm
  have h₂ : sizeOf (rawGet fs key) < sizeOf (k, rawGet fs key) := by simp
  omega

theorem sizeOf_get (r : Nat) (fs inh : List (Value × Value)) (key : Value) :
    sizeOf (get (.table r fs inh) key) < sizeOf (Value.table r fs inh) := by
  have hnil : sizeOf Value.nil < sizeOf (Value.table r fs inh) := by
    have := (show 0 < sizeOf fs by cases fs <;> simp)
    simp only [nil.sizeOf_spec, table.sizeOf_spec]
    omega
  by_cases hv : rawGet fs key = .nil
  · by_cases hi : rawGet inh key = .nil
    · simpa only [get, hv, hi, isNil, ↓reduceIte] using hnil
    · have := sizeOf_rawGet hi
      simp only [get, hv, isNil, ↓reduceIte, table.sizeOf_spec]
      omega
  · have := sizeOf_rawGet hv
    simp only [get, isNil_eq_false.mpr hv, Bool.false_eq_true, ↓reduceIte, table.sizeOf_spec]
    omega

/-! ## Lists -/

/-- The elements at `1, 2, …` of a field list, up to the first missing one. -/
def seq (fs : List (Value × Value)) : List Value :=
  ((List.range fs.length).map fun i : Nat => rawGet fs (.num (i + 1))).takeWhile fun v => !v.isNil

/-- What `ipairs` visits (it reads the table's own fields only). -/
def ipairs : Value → List Value
  | .table _ fs _ => seq fs
  | _ => []

/-- The table `{ v₁, …, vₙ }`. -/
def list (ref : Nat) (vs : List Value) : Value :=
  .table ref (vs.mapIdx fun i v => (.num (i + 1), v)) []

/-- The table `{ k₁ = v₁, …, kₙ = vₙ }` with string keys. -/
def record (ref : Nat) (fs : List (Str × Value)) : Value :=
  .table ref (fs.map fun f => (.str f.1, f.2)) []

/-- The elements at `1, …, n` are all present. -/
def Filled (fs : List (Value × Value)) (n : Nat) : Prop := ∀ i, i < n → rawGet fs (.num (i + 1)) ≠ .nil

/-- No more than `fs.length` elements are present in a row. -/
theorem Filled.le_length {fs : List (Value × Value)} {n : Nat} (h : Filled fs n) : n ≤ fs.length := by
  classical
  -- the keys `1, …, n` are distinct and all occur among the keys of `fs`
  have hsub : (Finset.range n).image (fun i : Nat => (Value.num (i + 1))) ⊆ (fs.map Prod.fst).toFinset := by
    intro k hk
    obtain ⟨i, hi, rfl⟩ := Finset.mem_image.mp hk
    obtain ⟨k', hm, hk'⟩ := rawGet_mem (h i (Finset.mem_range.mp hi))
    rw [rawEq_num] at hk'
    subst hk'
    exact List.mem_toFinset.mpr (List.mem_map.mpr ⟨_, hm, rfl⟩)
  have hinj : Function.Injective fun i : Nat => (Value.num (i + 1)) := by
    intro a b hab
    simpa using hab
  calc n = ((Finset.range n).image fun i : Nat => (Value.num (i + 1))).card := by
        rw [Finset.card_image_of_injective _ hinj, Finset.card_range]
    _ ≤ (fs.map Prod.fst).toFinset.card := Finset.card_le_card hsub
    _ ≤ (fs.map Prod.fst).length := List.toFinset_card_le _
    _ = fs.length := by simp

theorem mem_takeWhile_map_range {α : Type} (f : Nat → α) (p : α → Bool) (n : Nat) (v : α) :
    v ∈ ((List.range n).map f).takeWhile p ↔ ∃ i, i < n ∧ (∀ j, j ≤ i → p (f j) = true) ∧ v = f i := by
  induction n generalizing f with
  | zero => simp
  | succ n ih =>
    rw [List.range_succ_eq_map, List.map_cons, List.map_map, List.takeWhile_cons]
    by_cases h0 : p (f 0) = true
    · rw [if_pos h0, List.mem_cons, ih]
      constructor
      · rintro (rfl | ⟨i, hi, hp, rfl⟩)
        · exact ⟨0, by omega, fun j hj => by rwa [Nat.le_zero.mp hj], rfl⟩
        · refine ⟨i + 1, by omega, fun j hj => ?_, rfl⟩
          cases j with
          | zero => exact h0
          | succ j => exact hp j (by omega)
      · rintro ⟨i, hi, hp, rfl⟩
        cases i with
        | zero => exact Or.inl rfl
        | succ i => exact Or.inr ⟨i, by omega, fun j hj => hp (j + 1) (by omega), rfl⟩
    · rw [if_neg h0]
      simp only [List.not_mem_nil, false_iff]
      rintro ⟨i, -, hp, -⟩
      exact h0 (hp 0 (Nat.zero_le i))

/-- `ipairs` visits exactly the elements before the first missing one. -/
theorem mem_seq {fs : List (Value × Value)} {v : Value} :
    v ∈ seq fs ↔ ∃ n, Filled fs (n + 1) ∧ v = rawGet fs (.num (n + 1)) := by
  rw [seq, mem_takeWhile_map_range]
  constructor
  · rintro ⟨i, -, hp, rfl⟩
    exact ⟨i, fun j hj => by simpa using hp j (by omega), rfl⟩
  · rintro ⟨n, hf, rfl⟩
    exact ⟨n, hf.le_length, fun j hj => by simpa using hf j (by omega), rfl⟩

theorem ne_nil_of_mem_ipairs {t v : Value} (h : v ∈ t.ipairs) : v ≠ .nil := by
  cases t with
  | table r fs inh =>
    obtain ⟨n, hf, rfl⟩ := mem_seq.mp h
    exact hf n (Nat.lt_succ_self n)
  | _ => simp [ipairs] at h

theorem sizeOf_ipairs {t v : Value} (h : v ∈ t.ipairs) : sizeOf v < sizeOf t := by
  cases t with
  | table r fs inh =>
    obtain ⟨n, hf, rfl⟩ := mem_seq.mp h
    have := sizeOf_rawGet (hf n (Nat.lt_succ_self n))
    simp only [table.sizeOf_spec]
    omega
  | _ => simp [ipairs] at h

/-- The elements of the list under a field. They are smaller than the table, so that a recursion over a tree of
tables ends. -/
def children (v : Value) (name : Str) : List { c : Value // sizeOf c < sizeOf v } :=
  match v with
  | .table r fs inh => (field (.table r fs inh) name).ipairs.attach.map fun c =>
      ⟨c.1, Nat.lt_trans (sizeOf_ipairs c.2) (sizeOf_get r fs inh _)⟩
  | _ => []

@[simp] theorem children_val (v : Value) (name : Str) :
    (v.children name).map Subtype.val = (v.field name).ipairs := by
  cases v with
  | table r fs inh => simp [children, Function.comp_def]
  | _ => rfl

/-- The value under a field of a table, smaller than the table. -/
def child (v : Value) (name : Str) : Option { c : Value // sizeOf c < sizeOf v } :=
  match v with
  | .table r fs inh => some ⟨field (.table r fs inh) name, sizeOf_get r fs inh _⟩
  | _ => none

/-- Induction over a tree of tables: a claim about all smaller values gives it for a value. -/
theorem size_induction {P : Value → Prop} (h : ∀ v, (∀ w : Value, sizeOf w < sizeOf v → P w) → P v) (v : Value) :
    P v :=
  (measure (sizeOf : Value → Nat)).wf.induction v h

/-! ## Identities -/

mutual

/-- A number above every identity that occurs in a value. -/
def bound : Value → Nat
  | .table r fs inh => max (r + 1) (max (boundFields fs) (boundFields inh))
  | _ => 0

/-- `bound` over a field list. -/
def boundFields : List (Value × Value) → Nat
  | [] => 0
  | f :: fs => max (boundField f) (boundFields fs)

/-- `bound` of one field. -/
def boundField : Value × Value → Nat
  | (k, v) => max k.bound v.bound

end

/-! ## `tostring` -/

/-- The address `tostring` prints for an identity. -/
def addr (r : Nat) : Str := "0x" ++ Nat.toDigits 16 r

/-- `tostring(v)`. -/
def tostring : Value → Str
  | .nil => "nil"
  | .bool b => if b then "true" else "false"
  | .num q => fmtNumber q
  | .inf neg => if neg then "-inf" else "inf"
  | .nan => "nan"
  | .str s => s
  | .func f => "function: builtin: " ++ f
  | .table r _ _ => "table: " ++ addr r

/-- A number as a double. -/
def double : Value → Option Flt
  | .num q => some (.fin q)
  | .inf neg => some (.inf neg)
  | .nan => some .nan
  | _ => none

/-- The value of a double. -/
def ofDouble : Flt → Value
  | .fin q => .num q
  | .inf neg => .inf neg
  | .nan => .nan

theorem ofDouble_double {v : Value} {x : Flt} (h : v.double = some x) : ofDouble x = v := by
  cases v <;> cases h <;> rfl

end Value

/-- `tonumber(v)`: numbers and the strings that are numerals. -/
def tonumber : Value → Option Flt
  | .str s => strscan s
  | v => v.double

end Lua
