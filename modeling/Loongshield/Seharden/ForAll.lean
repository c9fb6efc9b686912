import Loongshield.Seharden.Evaluator

/-!
# `for_all` and the shape of its table

A Lua table is a list, a record, or both. `for_all` looks at what `ipairs` visits and at nothing else, but the table is
written to the log before, which can raise.

- `ListOf`: a table whose keys are exactly `1, …, n`, with its elements;
- `forAll_passes`: a comparison passes iff the value is a table that can be written and the inner assertion holds for
  what is visited;
- `for_all_list_iff`: when that is the same as being a list of which the inner assertion holds.
-/

namespace Seharden

open Lua

/-- A list: a table whose own keys are exactly `1, …, n`, and the elements under them. -/
def ListOf (v : Value) (items : List Value) : Prop :=
  (∀ item ∈ items, item ≠ .nil) ∧ ∃ ref fs inh, v = .table ref fs inh ∧ ∀ key value, value ≠ .nil →
    (Value.rawGet fs key = value ↔ ∃ i : Nat, items[i]? = some value ∧ key = .num (i + 1))

/-- `node` is a `for_all` comparison. -/
structure IsForAll (node : Value) : Prop where
  table : node.isTable = true
  notAll : (node.field "all_of").truthy = false
  notAny : (node.field "any_of").truthy = false
  compare : node.field "compare" = .str "for_all"

/-- An assertion passes in a context. -/
def Passes (yamlDump : Value → Except Err Str) (node : Value) (c : Contexts) : Prop :=
  ∃ detail, evaluate yamlDump node c = .ok (true, detail)

/-- The inner assertion of a `for_all` comparison passes for an element. -/
def InnerPasses (yamlDump : Value → Except Err Str) (node : Value) (c : Contexts) (item : Value) : Prop :=
  Passes yamlDump (node.field "expected") { probe := c.probe, item := item }

/-! ## What is visited -/

/-- Of a list, every element is visited. -/
theorem mem_ipairs_of_listOf {v : Value} {items : List Value} (h : ListOf v items) (item : Value) :
    item ∈ v.ipairs ↔ item ∈ items := by
  obtain ⟨hne, ref, fs, inh, rfl, hkeys⟩ := h
  show item ∈ Value.seq fs ↔ _
  rw [Value.mem_seq]
  constructor
  · rintro ⟨n, hfilled, rfl⟩
    obtain ⟨i, hi, -⟩ := (hkeys _ _ (hfilled n (Nat.lt_succ_self n))).mp rfl
    exact List.mem_of_getElem? hi
  · intro hitem
    obtain ⟨i, hi, rfl⟩ := List.mem_iff_getElem.mp hitem
    -- the elements before this one are there, too
    have hget : ∀ j (hj : j < items.length), Value.rawGet fs (.num (j + 1)) = items[j] := fun j hj =>
      (hkeys _ _ (hne _ (List.getElem_mem hj))).mpr ⟨j, List.getElem?_eq_getElem hj, rfl⟩
    refine ⟨i, fun j hj => ?_, (hget i hi).symm⟩
    have hlt : j < items.length := by omega
    rw [hget j hlt]
    exact hne _ (List.getElem_mem hlt)

theorem rawGet_mapIdx (vs : List Value) (k : Nat) {key value : Value} (hvalue : value ≠ .nil) :
    Value.rawGet (vs.mapIdx fun i v => (.num ((i + k : Nat) + 1), v)) key = value ↔
      ∃ i : Nat, vs[i]? = some value ∧ key = .num ((i + k : Nat) + 1) := by
  induction vs generalizing k with
  | nil => simpa [Value.rawGet] using hvalue.symm
  | cons v vs ih =>
    have hrest : (fun (i : Nat) (v : Value) => (Value.num (((i + 1) + k : Nat) + 1), v)) =
        fun i v => (Value.num ((i + (k + 1) : Nat) + 1), v) := by
      funext i v
      rw [Nat.add_right_comm, Nat.add_assoc]
    rw [List.mapIdx_cons, Value.rawGet, hrest]
    by_cases hkey : key = .num ((0 + k : Nat) + 1)
    · subst hkey
      rw [if_pos (by simp [Value.rawEq])]
      constructor
      · rintro rfl
        exact ⟨0, rfl, rfl⟩
      · rintro ⟨i, hi, hik⟩
        obtain rfl : i = 0 := by simpa using hik.symm
        exact Option.some.inj hi
    · rw [if_neg fun heq => hkey (by cases key <;> simp_all [Value.rawEq]), ih (k + 1)]
      constructor
      · rintro ⟨i, hi, rfl⟩
        exact ⟨i + 1, hi, by rw [Nat.add_right_comm, Nat.add_assoc]⟩
      · rintro ⟨i, hi, rfl⟩
        cases i with
        | zero => exact absurd rfl hkey
        | succ i => exact ⟨i, hi, by rw [Nat.add_right_comm, Nat.add_assoc]⟩

/-- A table constructor with elements alone makes a list. -/
theorem listOf_list (ref : Nat) {vs : List Value} (hvs : ∀ v ∈ vs, v ≠ .nil) : ListOf (.list ref vs) vs :=
  ⟨hvs, ref, _, _, rfl, fun _ _ hvalue => rawGet_mapIdx vs 0 hvalue⟩

/-- A table with a named field is no list. -/
theorem not_listOf_of_field {ref : Nat} {fs inh : List (Value × Value)} {name : Str}
    (hname : Value.rawGet fs (.str name) ≠ .nil) (items : List Value) : ¬ListOf (.table ref fs inh) items := by
  rintro ⟨-, ref', fs', inh', heq, hkeys⟩
  obtain ⟨-, rfl, -⟩ := Value.table.inj heq
  obtain ⟨i, -, hi⟩ := (hkeys _ _ hname).mp rfl
  cases hi

/-- The loop passes iff the function passes for every element. -/
theorem forAllFrom_passes {f : Value → Except Err Verdict} {items : List Value} (index : Nat) :
    (∃ detail, forAllFrom f index items = .ok (true, detail)) ↔
      ∀ item ∈ items, ∃ detail, f item = .ok (true, detail) := by
  induction items generalizing index with
  | nil => simp [forAllFrom]
  | cons item items ih =>
    rw [List.forall_mem_cons, ← ih (index + 1), forAllFrom]
    cases hf : f item with
    | error err => simp
    | ok verdict =>
      obtain ⟨passed, err⟩ := verdict
      cases passed with
      | true => simp
      | false => simp

/-- The end of a comparison keeps the verdict. -/
theorem finishCompare_passes {yamlDump : Value → Except Err Str} {node : Value} {c : Contexts} {actual : Value}
    {v : Verdict} :
    (∃ detail, finishCompare yamlDump node c actual v = .ok (true, detail)) ↔ ∃ detail, v = (true, detail) := by
  obtain ⟨passed, err⟩ := v
  cases passed with
  | true => exact iff_of_true ⟨_, rfl⟩ ⟨_, rfl⟩
  | false =>
    refine iff_of_false ?_ fun ⟨_, h⟩ => Bool.false_ne_true (congrArg Prod.fst h)
    rintro ⟨detail, h⟩
    obtain ⟨text, -, h⟩ := bind_ok.mp h
    cases h

section Comparison

variable {yamlDump : Value → Except Err Str} {node : Value} (h : IsForAll node) (c : Contexts)

include h

/-- A `for_all` node is evaluated as the comparator on its operand. -/
theorem evaluate_forAll : evaluate yamlDump node c = (do
    let actual ← getActualValue node c
    let _ ← serializeForLog yamlDump actual
    let v ← forAll actual fun item =>
      evaluate yamlDump (node.field "expected") { probe := c.probe, item := item }
    finishCompare yamlDump node c actual v) := by
  have hcompare : node.index (.str "compare") = .ok (.str "for_all") := by
    rw [Value.index_of_isTable h.table, h.compare]
  have hentry : comparators (.str "for_all") = some .forAll := comparators_forAll.mpr rfl
  have htable := h.table
  unfold evaluate
  rw [evaluateNode, childNodes_none h.table h.notAll, childNodes_none h.table h.notAny]
  simp only [bind, Except.bind, hcompare, Value.truthy, if_true, hentry]
  cases node with
  | table ref fs inh => rfl
  | _ => cases htable

/-- **What `for_all` looks at**: it passes iff the operand is a table that can be written to the log and every element
that `ipairs` visits passes. -/
theorem forAll_passes : Passes yamlDump node c ↔ ∃ v, getActualValue node c = .ok v ∧ v.isTable = true ∧
    Dumps yamlDump v ∧ ∀ item ∈ v.ipairs, InnerPasses yamlDump node c item := by
  unfold Passes
  rw [evaluate_forAll h]
  cases hactual : getActualValue node c with
  | error err => simp [bind, Except.bind]
  | ok v =>
    simp only [Except.ok.injEq, exists_eq_left', ← @serializeForLog_ok_iff yamlDump v]
    cases hs : serializeForLog yamlDump v with
    | error err => simp [bind, Except.bind, hs]
    | ok text =>
      simp only [bind, Except.bind, hs, forAll, Except.ok.injEq, exists_eq', true_and]
      cases hv : v.isTable with
      | false =>
        simp only [Bool.false_eq_true, if_false, false_and, iff_false]
        rw [finishCompare_passes]
        simp
      | true =>
        simp only [if_true, true_and]
        rw [show (∀ item ∈ v.ipairs, InnerPasses yamlDump node c item) ↔ _ from (forAllFrom_passes 1).symm]
        cases forAllFrom _ 1 v.ipairs with
        | error err => simp
        | ok verdict => simp only [Except.ok.injEq, finishCompare_passes]

/-- **A verdict on lists only**: `for_all` passes exactly on the lists whose elements all pass, iff such a list can be
written to the log, and a table that is no list but can be written has an element that is visited and fails. -/
theorem for_all_list_iff :
    (Passes yamlDump node c ↔ ∃ v items, getActualValue node c = .ok v ∧ ListOf v items ∧
      ∀ item ∈ items, InnerPasses yamlDump node c item) ↔
    ∀ v, getActualValue node c = .ok v → v.isTable = true →
      (∀ items, ListOf v items → (∀ item ∈ items, InnerPasses yamlDump node c item) → Dumps yamlDump v) ∧
      ((∀ items, ¬ListOf v items) → Dumps yamlDump v → ∃ item ∈ v.ipairs, ¬InnerPasses yamlDump node c item) := by
  rw [forAll_passes h]
  constructor
  · intro hiff v hv htable
    refine ⟨fun items hlist hall => ?_, fun hnolist hdumps => ?_⟩
    · obtain ⟨v', hv', -, hdumps, -⟩ := hiff.mpr ⟨v, items, hv, hlist, hall⟩
      obtain rfl := Except.ok.inj (hv.symm.trans hv')
      exact hdumps
    · by_contra hall
      push Not at hall
      obtain ⟨v', items, hv', hlist, -⟩ := hiff.mp ⟨v, hv, htable, hdumps, hall⟩
      obtain rfl := Except.ok.inj (hv.symm.trans hv')
      exact hnolist items hlist
  · intro hcond
    constructor
    · rintro ⟨v, hv, htable, hdumps, hall⟩
      by_contra hno
      have hno : ∀ items, ¬ListOf v items := fun items hlist =>
        hno ⟨v, items, hv, hlist, fun item hitem => hall item ((mem_ipairs_of_listOf hlist item).mpr hitem)⟩
      obtain ⟨item, hitem, hfail⟩ := (hcond v hv htable).2 hno hdumps
      exact hfail (hall item hitem)
    · rintro ⟨v, items, hv, hlist, hall⟩
      have htable : v.isTable = true := by
        obtain ⟨-, ref, fs, inh, rfl, -⟩ := hlist
        rfl
      exact ⟨v, hv, htable, (hcond v hv htable).1 items hlist hall,
        fun item hitem => hall item ((mem_ipairs_of_listOf hlist item).mp hitem)⟩

end Comparison

/-- `compare: for_all` over the probe result `accounts`: every `uid` is above zero. -/
def accountsNode : Value := .record 1 [("actual", .str "%\x7bprobe.accounts\x7d"), ("compare", .str "for_all"),
  ("expected", .record 2 [("key", .str "uid"), ("compare", .str "is_greater_than"), ("expected", .num 0)])]

theorem accountsNode_forAll : IsForAll accountsNode := ⟨rfl, rfl, rfl, rfl⟩

/-- A context in which the probe `accounts` gave a value. -/
def accountsContext (accounts : Value) : Contexts where
  probe := .record 3 [("accounts", accounts)]
  item := .nil

/-- Two accounts, as a list. -/
def accountsList : Value := .list 4 [.record 5 [("uid", .num 1)], .record 6 [("uid", .num 0)]]

/-- What a probe returns: a record, whose details are not looked at. -/
def accountsRecord : Value := .record 4 [("count", .num 1), ("details", .list 5 [.record 6 [("uid", .num 0)]])]

theorem getActualValue_accounts {accounts : Value} (hne : accounts ≠ .nil) :
    getActualValue accountsNode (accountsContext accounts) = .ok accounts := by
  have hfield : (accountsContext accounts).probe.field "accounts" = accounts := by
    cases accounts <;> rfl
  have hkey : (accountsNode.field "key").truthy = false := rfl
  rw [@getActualValue_probe _ _ "%\x7bprobe.accounts\x7d" "accounts" rfl (by decide +kernel) rfl, hfield,
    if_neg (by simpa using hne), if_neg (by rw [hkey]; exact Bool.false_ne_true)]

/-- On a list the verdict is about its elements. -/
theorem for_all_accounts : IsForAll accountsNode ∧
    (Passes (fun _ => .ok []) accountsNode (accountsContext accountsList) ↔ ∃ v items,
      getActualValue accountsNode (accountsContext accountsList) = .ok v ∧ ListOf v items ∧
        ∀ item ∈ items, InnerPasses (fun _ => .ok []) accountsNode (accountsContext accountsList) item) := by
  refine ⟨accountsNode_forAll, (for_all_list_iff accountsNode_forAll _).mpr fun v hv _ =>
    ⟨fun _ _ _ _ => ⟨_, rfl⟩, fun hnolist _ => ?_⟩⟩
  obtain rfl := Except.ok.inj ((getActualValue_accounts (by simp [accountsList, Value.list])).symm.trans hv)
  exact absurd (listOf_list 4 (by simp [Value.record])) (hnolist _)

/-- A record passes, although none of its accounts is looked at. -/
theorem for_all_record : IsForAll accountsNode ∧
    getActualValue accountsNode (accountsContext accountsRecord) = .ok accountsRecord ∧
    (∀ items, ¬ListOf accountsRecord items) ∧
    Passes (fun _ => .ok []) accountsNode (accountsContext accountsRecord) := by
  have hactual := @getActualValue_accounts accountsRecord (by simp [accountsRecord, Value.record])
  refine ⟨accountsNode_forAll, hactual, ?_, ?_⟩
  · refine @not_listOf_of_field _ _ _ "count" fun hnil => ?_
    cases hnil
  · refine (forAll_passes accountsNode_forAll _).mpr ⟨_, hactual, rfl, fun _ => ⟨_, rfl⟩, fun item hitem => ?_⟩
    cases show item ∈ [] from hitem

end Seharden
