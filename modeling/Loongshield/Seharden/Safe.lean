import Loongshield.Seharden.Assertion

/-!
# When the evaluation of an assertion returns

Nothing between the evaluator and the engine catches an error, so a run survives only the evaluations that return.
`Assertion.Safe a c` says which ones do, in terms of the tree and the data: wherever a comparison is reached,

- its `key` is taken of a table or a string (`KeyOk`),
- no key of its templates becomes NaN (`NanFault`),
- its operands can be written to the log (`Dumps`), and so can the first item that fails a `for_all` (`Summarizes`),
- the tree given to `has_line_matching` can be read on the lines that are reached (`LinesFault`).

`eval_ok_iff` is the equivalence.
-/

namespace Seharden

open Lua

/-- `key` is applied to a value that can be indexed, if it is applied at all: to the item when the node has no
`actual`, to the value of the probe when `actual` is a probe reference. -/
def KeyOk (node : Value) (c : Contexts) : Prop :=
  (node.field "key").truthy = true →
    (node.field "actual" = .nil → c.item.truthy = true → c.item.indexable = true) ∧
    ∀ s name, node.field "actual" = .str s → probeRef s = some name → c.probe.field name ≠ .nil →
      (c.probe.field name).indexable = true

/-- A text is a template that can be resolved. -/
theorem not_nanFault_of_not_isTable {contexts v : Value} (h : v.isTable = false) : ¬NanFault contexts v := by
  rintro ⟨⟩ <;> cases h

/-- **When the actual value of a node can be read.** -/
theorem getActualValue_ok_iff {node : Value} {c : Contexts} (hp : c.probe.isTable = true) :
    (∃ v, getActualValue node c = .ok v) ↔ KeyOk node c ∧ ¬NanFault c.toValue (node.field "actual") := by
  unfold KeyOk
  by_cases hi : node.field "actual" = .nil ∧ (node.field "key").truthy = true ∧ c.item.truthy = true
  · obtain ⟨ha, hk, hi⟩ := hi
    rw [getActualValue_item ha hk hi, Value.index_ok_iff, ha, hk, hi, and_iff_left (not_nanFault_of_not_isTable rfl)]
    simp
  · by_cases hr : ∃ s name, node.field "actual" = .str s ∧ probeRef s = some name
    · obtain ⟨s, name, ha, hr⟩ := hr
      have hsame : ∀ s' name', Value.str s = .str s' → probeRef s' = some name' → name' = name := by
        rintro s' name' hs hr'
        cases hs
        exact Option.some.inj (hr'.symm.trans hr)
      rw [getActualValue_probe ha hr hp, ha, and_iff_left (not_nanFault_of_not_isTable rfl)]
      cases hn : (c.probe.field name).isNil with
      | true =>
        rw [Value.isNil_iff] at hn
        refine ⟨fun _ _ => ⟨nofun, fun s' name' hs hr' hne => ?_⟩, fun _ => ⟨_, rfl⟩⟩
        rw [hsame s' name' hs hr'] at hne
        exact absurd hn hne
      | false =>
        cases hk : (node.field "key").truthy with
        | false => simp
        | true =>
          simp only [Bool.false_eq_true, ↓reduceIte, Value.index_ok_iff]
          refine ⟨fun h _ => ⟨nofun, fun s' name' hs hr' _ => ?_⟩, fun h => ?_⟩
          · rw [hsame s' name' hs hr']
            exact h
          · exact (h trivial).2 s name rfl hr (Value.isNil_eq_false.mp hn)
    · have hr' : ∀ s, node.field "actual" = .str s → probeRef s = none := by
        intro s ha
        cases h : probeRef s with
        | none => rfl
        | some name => exact absurd ⟨s, name, ha, h⟩ hr
      have hkey : KeyOk node c :=
        fun hk => ⟨fun ha hit => absurd ⟨ha, hk, hit⟩ hi, fun s name ha h => absurd ⟨s, name, ha, h⟩ hr⟩
      rw [getActualValue_template hi hr', map_ok_iff, resolveValue_ok_iff]
      exact (and_iff_right hkey).symm

/-- **When the expected value of a node can be read.** -/
theorem getExpectedValue_ok_iff {node actual : Value} {c : Contexts} :
    (∃ v, getExpectedValue node c actual = .ok v) ↔ ¬NanFault c.toValue (node.field "expected") := by
  rw [getExpectedValue, map_ok_iff, resolveValue_ok_iff]

namespace Assertion

section Safe

variable (yamlDump : Value → Except Err Str)

mutual

/-- The evaluation of the assertion returns: every comparison that is reached can be made. -/
def Safe : Assertion → Contexts → Prop
  | .allOf as, c => SafeAll as c
  | .anyOf as, c => SafeAny as c
  | .compare cmp node, c => KeyOk node c ∧ ¬NanFault c.toValue (node.field "actual") ∧
      ¬NanFault c.toValue (node.field "expected") ∧ ∀ actual expected, getActualValue node c = .ok actual →
        getExpectedValue node c actual = .ok expected → Dumps yamlDump actual ∧ Dumps yamlDump expected ∧
          (cmp = .hasLineMatching → ¬LinesFault actual expected)
  | .forAll node inner, c => KeyOk node c ∧ ¬NanFault c.toValue (node.field "actual") ∧
      ∀ actual, getActualValue node c = .ok actual → Dumps yamlDump actual ∧
        ∀ pre item post, actual.ipairs = pre ++ item :: post →
          (∀ x ∈ pre, inner.Holds { probe := c.probe, item := x }) → inner.Safe { probe := c.probe, item := item } ∧
            (¬inner.Holds { probe := c.probe, item := item } → Summarizes yamlDump item)

/-- The children of `all_of` are reached until one does not hold. -/
def SafeAll : List Assertion → Contexts → Prop
  | [], _ => True
  | a :: as, c => a.Safe c ∧ (a.Holds c → SafeAll as c)

/-- The children of `any_of` are reached until one holds. -/
def SafeAny : List Assertion → Contexts → Prop
  | [], _ => True
  | a :: as, c => a.Safe c ∧ (¬ a.Holds c → SafeAny as c)

end

end Safe

/-- A comparison that holds is finished; one that fails without a failing item is if the actual value can be written. -/
theorem finishCompare_ok {yamlDump : Value → Except Err Str} {node actual : Value} {c : Contexts} (b : Bool)
    (h : Dumps yamlDump actual) : ∃ w, finishCompare yamlDump node c actual (b, .nil) = .ok w := by
  cases b with
  | true => exact ⟨_, rfl⟩
  | false =>
    obtain ⟨detail, hd⟩ := @formatFailureDetail_actual yamlDump node actual c h
    exact ⟨_, bind_ok.mpr ⟨detail, hd, rfl⟩⟩

/-- One that fails at an item is finished iff the item can be summarised. -/
theorem finishCompare_item {yamlDump : Value → Except Err Str} {node actual index item reason : Value} {c : Contexts}
    (hitem : item ≠ .nil) :
    (∃ w, finishCompare yamlDump node c actual
      (false, .record 0 [("index", index), ("item", item), ("reason", reason)]) = .ok w) ↔
      Summarizes yamlDump item := by
  rw [← @formatFailureDetail_item yamlDump node actual item index reason c 0 hitem]
  constructor
  · rintro ⟨w, h⟩
    obtain ⟨detail, hd, -⟩ := bind_ok.mp h
    exact ⟨detail, hd⟩
  · rintro ⟨detail, hd⟩
    exact ⟨_, bind_ok.mpr ⟨detail, hd, rfl⟩⟩

/-- A loop of `for_all` returns, and its verdict is finished, iff the function returns on every element that is reached
and the first that fails can be reported. -/
theorem forAllFrom_ok_iff {f : Value → Except Err Verdict} {finish : Verdict → Except Err Verdict} {P Q : Value → Prop}
    (hf : ∀ item b r, f item = .ok (b, r) → (b = true ↔ P item)) (hpass : ∃ w, finish (true, .nil) = .ok w)
    (hfail : ∀ index item reason, item ≠ .nil →
      ((∃ w, finish (false, .record 0 [("index", index), ("item", item), ("reason", reason)]) = .ok w) ↔ Q item)) :
    ∀ (i : Nat) (items : List Value), (∀ item ∈ items, item ≠ .nil) →
      ((∃ w, (forAllFrom f i items >>= finish) = .ok w) ↔
        ∀ pre item post, items = pre ++ item :: post → (∀ x ∈ pre, P x) → (∃ v, f item = .ok v) ∧ (¬P item → Q item))
  | i, [], _ => iff_of_true hpass (by simp)
  | i, x :: xs, hne => by
    have hstep : (∀ pre item post, x :: xs = pre ++ item :: post → (∀ y ∈ pre, P y) →
          (∃ v, f item = .ok v) ∧ (¬P item → Q item)) ↔
        ((∃ v, f x = .ok v) ∧ (¬P x → Q x)) ∧ (P x → ∀ pre item post, xs = pre ++ item :: post → (∀ y ∈ pre, P y) →
          (∃ v, f item = .ok v) ∧ (¬P item → Q item)) := by
      constructor
      · intro h
        refine ⟨h [] x xs rfl (by simp), fun hP pre item post hs hpre => h (x :: pre) item post (by rw [hs]; rfl) ?_⟩
        intro y hy
        rcases List.mem_cons.mp hy with rfl | hy
        · exact hP
        · exact hpre y hy
      · rintro ⟨h₁, h₂⟩ pre item post hs hpre
        cases pre with
        | nil =>
          obtain ⟨rfl, -⟩ := List.cons.inj hs
          exact h₁
        | cons y pre =>
          obtain ⟨rfl, rfl⟩ := List.cons.inj hs
          exact h₂ (hpre x List.mem_cons_self) pre item post rfl fun z hz => hpre z (List.mem_cons_of_mem _ hz)
    obtain ⟨hx, hxs⟩ := List.forall_mem_cons.mp hne
    rw [hstep, ← forAllFrom_ok_iff hf hpass hfail (i + 1) xs hxs]
    cases hfx : f x with
    | error e => simp [forAllFrom, hfx, bind, Except.bind]
    | ok v =>
      obtain ⟨b, r⟩ := v
      have hb := hf x b r hfx
      cases b with
      | true => simp only [forAllFrom, hfx, Except.ok.injEq, exists_eq', hb.mp rfl, forall_const, true_and,
          not_true_eq_false, false_implies]
      | false =>
        have hn : ¬ P x := fun hP => by simpa using hb.mpr hP
        simp only [forAllFrom, hfx, Except.ok.injEq, exists_eq', hn, not_false_eq_true, forall_const, true_and,
          false_implies, and_true]
        exact hfail _ x r hx

section Eval

variable (yamlDump : Value → Except Err Str)

/-- A comparison whose operands can be read. -/
theorem compare_ok_iff (cmp : Comparator) (node : Value) (c : Contexts) {actual expected : Value}
    (he : getExpectedValue node c actual = .ok expected) :
    (∃ v, (do
        let actual ← (.ok actual : Except Err Value)
        let expected ← getExpectedValue node c actual
        let _ ← serializeForLog yamlDump actual
        let _ ← serializeForLog yamlDump expected
        let result ← cmp.apply actual expected
        finishCompare yamlDump node c actual (result, .nil)) = .ok v) ↔
      (∃ s, serializeForLog yamlDump actual = .ok s) ∧ (∃ s, serializeForLog yamlDump expected = .ok s) ∧
        ¬∃ e, cmp.apply actual expected = .error e := by
  cases hs : serializeForLog yamlDump actual with
  | error e => simp [bind, Except.bind, he, hs]
  | ok s =>
    have hdumps : Dumps yamlDump actual := serializeForLog_ok_iff.mp ⟨s, hs⟩
    cases hs' : serializeForLog yamlDump expected with
    | error e => simp [bind, Except.bind, he, hs, hs']
    | ok s' =>
      cases hr : cmp.apply actual expected with
      | error e => simp [bind, Except.bind, he, hs, hs', hr]
      | ok b => simpa [bind, Except.bind, he, hs, hs', hr] using finishCompare_ok b hdumps

/-- A `for_all` whose operand can be read: writing it, the loop, and the end. -/
theorem forAll_ok_iff (node : Value) (c : Contexts) (f : Value → Except Err Verdict) {actual : Value} :
    (∃ v, (do
        let actual ← (.ok actual : Except Err Value)
        let _ ← serializeForLog yamlDump actual
        let v ← Seharden.forAll actual f
        finishCompare yamlDump node c actual v) = .ok v) ↔
      (∃ s, serializeForLog yamlDump actual = .ok s) ∧
        ∃ w, (forAllFrom f 1 actual.ipairs >>= finishCompare yamlDump node c actual) = .ok w := by
  cases hs : serializeForLog yamlDump actual with
  | error e => simp [bind, Except.bind, hs]
  | ok s =>
    have hdumps : Dumps yamlDump actual := serializeForLog_ok_iff.mp ⟨s, hs⟩
    cases ht : actual.isTable with
    | true => simp [bind, Except.bind, hs, Seharden.forAll, ht]
    | false =>
      have hvisits : actual.ipairs = [] := by
        cases actual <;> first | rfl | cases ht
      rw [hvisits]
      refine iff_of_true ?_ ⟨⟨s, rfl⟩, _, rfl⟩
      simpa [bind, Except.bind, hs, Seharden.forAll, ht] using finishCompare_ok false hdumps

mutual

/-- **The evaluation of an assertion returns iff it is safe.** -/
theorem eval_ok_iff : ∀ (a : Assertion) (c : Contexts), c.probe.isTable = true →
    ((∃ v, a.eval yamlDump c = .ok v) ↔ a.Safe yamlDump c)
  | .allOf as, c, hp => by
    rw [eval, Safe]
    exact evalAll_ok_iff as c hp
  | .anyOf as, c, hp => by
    rw [eval, Safe]
    exact evalAny_ok_iff as c 1 [] hp
  | .compare cmp node, c, hp => by
    rw [eval, Safe, ← and_assoc, ← getActualValue_ok_iff hp]
    cases ha : getActualValue node c with
    | error e => simp [bind, Except.bind]
    | ok actual =>
      rw [and_iff_right ⟨actual, rfl⟩, ← @getExpectedValue_ok_iff node actual c]
      cases he : getExpectedValue node c actual with
      | error e => simp [bind, Except.bind, he]
      | ok expected =>
        rw [and_iff_right ⟨expected, rfl⟩]
        have hall : (∀ actual' expected', Except.ok (ε := Err) actual = .ok actual' →
            getExpectedValue node c actual' = .ok expected' → Dumps yamlDump actual' ∧ Dumps yamlDump expected' ∧
              (cmp = .hasLineMatching → ¬LinesFault actual' expected')) ↔
            Dumps yamlDump actual ∧ Dumps yamlDump expected ∧
            (cmp = .hasLineMatching → ¬LinesFault actual expected) := by
          constructor
          · exact fun h => h actual expected rfl he
          · rintro h actual' expected' ⟨⟩ he'
            rw [he] at he'
            cases he'
            exact h
        rw [hall, ← not_and, ← @Comparator.apply_error_iff cmp actual expected, ← @serializeForLog_ok_iff _ actual,
          ← @serializeForLog_ok_iff _ expected]
        exact compare_ok_iff yamlDump cmp node c he
  | .forAll node inner, c, hp => by
    rw [eval, Safe, ← and_assoc, ← getActualValue_ok_iff hp]
    cases ha : getActualValue node c with
    | error e => simp [bind, Except.bind]
    | ok actual =>
      rw [and_iff_right ⟨actual, rfl⟩]
      have hinner := fun item => eval_ok_iff inner { probe := c.probe, item := item } hp
      have hloop := @forAllFrom_ok_iff _ (finishCompare yamlDump node c actual) _ (Summarizes yamlDump)
        (fun item b r => eval_holds yamlDump inner { probe := c.probe, item := item } b r) ⟨_, rfl⟩
        (fun _ _ _ => finishCompare_item) 1 actual.ipairs fun item => Value.ne_nil_of_mem_ipairs
      simp only [hinner] at hloop
      simp only [Except.ok.injEq, forall_eq']
      rw [← hloop, ← serializeForLog_ok_iff]
      exact forAll_ok_iff yamlDump node c _

theorem evalAll_ok_iff : ∀ (as : List Assertion) (c : Contexts), c.probe.isTable = true →
    ((∃ v, evalAll yamlDump as c = .ok v) ↔ SafeAll yamlDump as c)
  | [], c, hp => by simp [evalAll, SafeAll]
  | a :: as, c, hp => by
    rw [evalAll, SafeAll, ← eval_ok_iff a c hp, ← evalAll_ok_iff as c hp]
    cases ha : a.eval yamlDump c with
    | error e => simp [bind, Except.bind]
    | ok v =>
      obtain ⟨b, r⟩ := v
      have hb := eval_holds yamlDump a c b r ha
      cases b with
      | true => simp [bind, Except.bind, hb.mp rfl]
      | false =>
        have hn : ¬ a.Holds c := fun hh => by simpa using hb.mpr hh
        simp [bind, Except.bind, hn]

theorem evalAny_ok_iff : ∀ (as : List Assertion) (c : Contexts) (i : Nat) (reasons : List Str),
    c.probe.isTable = true → ((∃ v, evalAny yamlDump as c i reasons = .ok v) ↔ SafeAny yamlDump as c)
  | [], c, i, reasons, hp => by simp [evalAny, SafeAny]
  | a :: as, c, i, reasons, hp => by
    rw [evalAny, SafeAny, ← eval_ok_iff a c hp]
    cases ha : a.eval yamlDump c with
    | error e => simp [bind, Except.bind]
    | ok v =>
      obtain ⟨b, r⟩ := v
      have hb := eval_holds yamlDump a c b r ha
      rw [← evalAny_ok_iff as c (i + 1) (reasons ++ [childFailed i r]) hp]
      cases b with
      | true => simp [bind, Except.bind, hb.mp rfl]
      | false =>
        have hn : ¬ a.Holds c := fun hh => by simpa using hb.mpr hh
        simp [bind, Except.bind, hn]

end

end Eval

end Assertion

end Seharden
