import Loongshield.Seharden.Evaluator

/-!
# Assertions: the tree a rule denotes

The schema and the evaluator are two recursions over the same untyped tree. `Assertion` is the typed tree both are
about: `Reads a node` says that the table `node` is written as `a`, `Holds a c` is the truth of `a` in a context, with
no reference to the order of evaluation.

* `reads_of_validate`: every node the schema accepts, with comparator names checked, is written as a tree.
* `evaluateNode_reads`: the evaluator on a node written as `a` is the typed evaluator `Assertion.eval`, whatever the
  exits for malformed nodes do.
* `eval_holds`: if the typed evaluator returns, its verdict is `Holds`.
-/

namespace Seharden

open Lua

/-- An assertion. A comparison keeps the node it was read from, for its operands and its message. -/
inductive Assertion
  | allOf (as : List Assertion)
  | anyOf (as : List Assertion)
  | compare (cmp : Comparator) (node : Value)
  | forAll (node : Value) (inner : Assertion)

namespace Assertion

/-! ## Reading a tree -/

mutual

/-- `node` is written as the assertion. -/
def Reads : Assertion → Value → Prop
  | .allOf as, node => node.isTable = true ∧ (node.field "all_of").isTable = true ∧
      ReadsAll as (node.field "all_of").ipairs
  | .anyOf as, node => node.isTable = true ∧ node.field "all_of" = .nil ∧ (node.field "any_of").isTable = true ∧
      ReadsAll as (node.field "any_of").ipairs
  | .compare cmp n, node => n = node ∧ node.isTable = true ∧ node.field "all_of" = .nil ∧
      node.field "any_of" = .nil ∧ comparators (node.field "compare") = some (.value cmp)
  | .forAll n inner, node => n = node ∧ node.isTable = true ∧ node.field "all_of" = .nil ∧
      node.field "any_of" = .nil ∧ comparators (node.field "compare") = some .forAll ∧
      Reads inner (node.field "expected")

/-- The nodes of a list are written as the assertions, in order. -/
def ReadsAll : List Assertion → List Value → Prop
  | [], [] => True
  | a :: as, node :: nodes => Reads a node ∧ ReadsAll as nodes
  | _, _ => False

end

/-! ## Truth -/

mutual

/-- The truth of an assertion in a context. Under `for_all` the elements at `1, 2, …` up to the first missing one
count, each as the only item of the inner assertion. -/
def Holds : Assertion → Contexts → Prop
  | .allOf as, c => HoldsAll as c
  | .anyOf as, c => HoldsAny as c
  | .compare cmp node, c => ∃ actual expected, getActualValue node c = .ok actual ∧
      getExpectedValue node c actual = .ok expected ∧ cmp.apply actual expected = .ok true
  | .forAll node inner, c => ∃ r fs inh, getActualValue node c = .ok (.table r fs inh) ∧
      ∀ n, Value.Filled fs (n + 1) → inner.Holds { probe := c.probe, item := Value.rawGet fs (.num (n + 1)) }

/-- All assertions of a list hold. -/
def HoldsAll : List Assertion → Contexts → Prop
  | [], _ => True
  | a :: as, c => a.Holds c ∧ HoldsAll as c

/-- Some assertion of a list holds. -/
def HoldsAny : List Assertion → Contexts → Prop
  | [], _ => False
  | a :: as, c => a.Holds c ∨ HoldsAny as c

end

theorem holdsAll_iff {as : List Assertion} {c : Contexts} : HoldsAll as c ↔ ∀ a ∈ as, a.Holds c := by
  induction as with
  | nil => simp [HoldsAll]
  | cons a as ih => simp [HoldsAll, ih]

theorem holdsAny_iff {as : List Assertion} {c : Contexts} : HoldsAny as c ↔ ∃ a ∈ as, a.Holds c := by
  induction as with
  | nil => simp [HoldsAny]
  | cons a as ih => simp [HoldsAny, ih]

/-- `for_all` holds iff the actual value is a table and the inner assertion holds for what `ipairs` visits. -/
theorem holds_forAll_iff {node : Value} {inner : Assertion} {c : Contexts} {actual : Value}
    (h : getActualValue node c = .ok actual) : (forAll node inner).Holds c ↔
      actual.isTable = true ∧ ∀ item ∈ actual.ipairs, inner.Holds { probe := c.probe, item := item } := by
  rw [Holds, h]
  cases actual with
  | table r fs inh =>
    simp only [Except.ok.injEq, Value.table.injEq, Value.isTable, Value.ipairs, true_and]
    constructor
    · rintro ⟨_, _, _, ⟨rfl, rfl, rfl⟩, hall⟩ item hitem
      obtain ⟨n, hf, rfl⟩ := Value.mem_seq.mp hitem
      exact hall n hf
    · intro hall
      exact ⟨r, fs, inh, ⟨rfl, rfl, rfl⟩, fun n hf => hall _ (Value.mem_seq.mpr ⟨n, hf, rfl⟩)⟩
  | _ => simp [Value.isTable]

/-! ## The typed evaluator -/

section Eval

variable (yamlDump : Value → Except Err Str)

mutual

/-- The evaluator on a typed tree. -/
def eval : Assertion → Contexts → Except Err Verdict
  | .allOf as, c => evalAll as c
  | .anyOf as, c => evalAny as c 1 []
  | .compare cmp node, c => do
    let actual ← getActualValue node c
    let expected ← getExpectedValue node c actual
    let _ ← serializeForLog yamlDump actual
    let _ ← serializeForLog yamlDump expected
    let result ← cmp.apply actual expected
    finishCompare yamlDump node c actual (result, .nil)
  | .forAll node inner, c => do
    let actual ← getActualValue node c
    let _ ← serializeForLog yamlDump actual
    let v ← Seharden.forAll actual fun item => inner.eval { probe := c.probe, item := item }
    finishCompare yamlDump node c actual v

/-- The loop over `all_of`. -/
def evalAll : List Assertion → Contexts → Except Err Verdict
  | [], _ => .ok (true, .nil)
  | a :: as, c => do
    match ← a.eval c with
    | (true, _) => evalAll as c
    | (false, err) => .ok (false, err)

/-- The loop over `any_of`. -/
def evalAny : List Assertion → Contexts → Nat → List Str → Except Err Verdict
  | [], _, _, reasons =>
    .ok (false, .str ("No conditions in 'any_of' were met:\n" ++ List.intercalate "\n".toList reasons))
  | a :: as, c, i, reasons => do
    match ← a.eval c with
    | (true, _) => .ok (true, .nil)
    | (false, reason) => evalAny as c (i + 1) (reasons ++ [childFailed i reason])

end

/-! ## The evaluator on a node that is written as a tree -/

theorem allLoop_val {p : Value → Prop} (f : Value → Except Err Verdict) (l : List { v // p v }) :
    allLoop (fun x => f x.1) l = allLoop f (l.map Subtype.val) := by
  induction l with
  | nil => rfl
  | cons x xs ih => simp only [List.map_cons, allLoop, ih]

theorem anyLoop_val {p : Value → Prop} (f : Value → Except Err Verdict) (l : List { v // p v }) (i : Nat)
    (reasons : List Str) : anyLoop (fun x => f x.1) i reasons l = anyLoop f i reasons (l.map Subtype.val) := by
  induction l generalizing i reasons with
  | nil => rfl
  | cons x xs ih => simp only [List.map_cons, anyLoop, ih]

variable (stop : Str → Except Err Verdict)

mutual

/-- On a node written as `a`, the evaluator is the typed evaluator; it takes no exit for malformed nodes. -/
theorem evaluateNode_reads : ∀ (a : Assertion) (node : Value) (c : Contexts), a.Reads node →
    evaluateNode yamlDump stop node c = a.eval yamlDump c
  | .allOf as, node, c, h => by
    rw [Reads] at h
    obtain ⟨ht, hl, hr⟩ := h
    rw [evaluateNode, childNodes_list ht hl, eval, ← allLoop_reads as _ c hr, ← Value.children_val]
    exact allLoop_val (fun v => evaluateNode yamlDump stop v c) _
  | .anyOf as, node, c, h => by
    rw [Reads] at h
    obtain ⟨ht, ha, hl, hr⟩ := h
    rw [evaluateNode, childNodes_none ht (by rw [ha]; rfl), childNodes_list ht hl, eval, ← anyLoop_reads as _ c 1 [] hr,
      ← Value.children_val]
    exact anyLoop_val (fun v => evaluateNode yamlDump stop v c) _ 1 []
  | .compare cmp n, node, c, h => by
    rw [Reads] at h
    obtain ⟨rfl, ht, ha, hb, hc⟩ := h
    rw [evaluateNode, childNodes_none ht (by rw [ha]; rfl), childNodes_none ht (by rw [hb]; rfl),
      Value.index_of_isTable ht, eval]
    have htruthy : (n.field "compare").truthy = true := by
      cases hv : n.field "compare" with
      | str s => rfl
      | _ => rw [hv] at hc; cases hc
    simp only [bind, Except.bind, htruthy, ↓reduceIte, hc]
  | .forAll n inner, node, c, h => by
    rw [Reads] at h
    obtain ⟨rfl, ht, ha, hb, hc, hr⟩ := h
    rw [evaluateNode, childNodes_none ht (by rw [ha]; rfl), childNodes_none ht (by rw [hb]; rfl),
      Value.index_of_isTable ht, eval]
    have htruthy : (n.field "compare").truthy = true := by
      cases hv : n.field "compare" with
      | str s => rfl
      | _ => rw [hv] at hc; cases hc
    have hinner := fun item => evaluateNode_reads inner _ { probe := c.probe, item := item } hr
    cases n with
    | table r fs inh => simp only [bind, Except.bind, htruthy, ↓reduceIte, hc, Value.child, hinner]
    | _ => cases ht

theorem allLoop_reads : ∀ (as : List Assertion) (nodes : List Value) (c : Contexts), ReadsAll as nodes →
    allLoop (fun v => evaluateNode yamlDump stop v c) nodes = evalAll yamlDump as c
  | [], [], c, _ => by rw [allLoop, evalAll]
  | [], _ :: _, _, h => absurd h (by simp [ReadsAll])
  | _ :: _, [], _, h => absurd h (by simp [ReadsAll])
  | a :: as, v :: vs, c, h => by
    rw [ReadsAll] at h
    rw [allLoop, evalAll, evaluateNode_reads a v c h.1]
    cases a.eval yamlDump c with
    | error e => rfl
    | ok verdict =>
      obtain ⟨passed, reason⟩ := verdict
      cases passed with
      | true => exact allLoop_reads as vs c h.2
      | false => rfl

theorem anyLoop_reads : ∀ (as : List Assertion) (nodes : List Value) (c : Contexts) (i : Nat) (reasons : List Str),
    ReadsAll as nodes →
      anyLoop (fun v => evaluateNode yamlDump stop v c) i reasons nodes = evalAny yamlDump as c i reasons
  | [], [], c, i, reasons, _ => by rw [anyLoop, evalAny]
  | [], _ :: _, _, _, _, h => absurd h (by simp [ReadsAll])
  | _ :: _, [], _, _, _, h => absurd h (by simp [ReadsAll])
  | a :: as, v :: vs, c, i, reasons, h => by
    rw [ReadsAll] at h
    rw [anyLoop, evalAny, evaluateNode_reads a v c h.1]
    cases a.eval yamlDump c with
    | error e => rfl
    | ok verdict =>
      obtain ⟨passed, reason⟩ := verdict
      cases passed with
      | true => rfl
      | false => exact anyLoop_reads as vs c (i + 1) (reasons ++ [childFailed i reason]) h.2

end

/-! ## The verdict is the truth -/

/-- The end of a comparison keeps the verdict. -/
theorem finishCompare_fst {node : Value} {c : Contexts} {actual : Value} {v w : Verdict}
    (h : finishCompare yamlDump node c actual v = .ok w) : w.1 = v.1 := by
  obtain ⟨b, d⟩ := v
  cases b with
  | true =>
    cases h
    rfl
  | false =>
    obtain ⟨detail, -, h⟩ := bind_ok.mp h
    cases h
    rfl

/-- A loop of `for_all` that returns gives the conjunction over the elements. -/
theorem forAllFrom_holds {f : Value → Except Err Verdict} {P : Value → Prop}
    (hf : ∀ item b r, f item = .ok (b, r) → (b = true ↔ P item)) :
    ∀ {i : Nat} {items : List Value} {b : Bool} {d : Value}, forAllFrom f i items = .ok (b, d) →
      (b = true ↔ ∀ item ∈ items, P item)
  | _, [], b, d, h => by
    cases h
    simp
  | i, item :: items, b, d, h => by
    unfold forAllFrom at h
    split at h
    · cases h
    · rename_i r hr
      have hp := (hf item true r hr).mp rfl
      simp only [List.mem_cons, forall_eq_or_imp, hp, true_and]
      exact forAllFrom_holds hf h
    · rename_i r hr
      have hp : ¬ P item := fun hP => by simpa using (hf item false r hr).mpr hP
      cases h
      simp [hp]

mutual

/-- **If the evaluator returns, its verdict is the truth of the assertion.** -/
theorem eval_holds : ∀ (a : Assertion) (c : Contexts) (b : Bool) (r : Value), a.eval yamlDump c = .ok (b, r) →
    (b = true ↔ a.Holds c)
  | .allOf as, c, b, r, h => by
    rw [eval] at h
    rw [Holds]
    exact evalAll_holds as c b r h
  | .anyOf as, c, b, r, h => by
    rw [eval] at h
    rw [Holds]
    exact evalAny_holds as c 1 [] b r h
  | .compare cmp node, c, b, r, h => by
    rw [eval] at h
    obtain ⟨actual, ha, h⟩ := bind_ok.mp h
    obtain ⟨expected, he, h⟩ := bind_ok.mp h
    obtain ⟨_, -, h⟩ := bind_ok.mp h
    obtain ⟨_, -, h⟩ := bind_ok.mp h
    obtain ⟨result, hr, h⟩ := bind_ok.mp h
    have hb : b = result := finishCompare_fst yamlDump h
    rw [Holds, ha, hb]
    constructor
    · rintro rfl
      exact ⟨actual, expected, rfl, he, hr⟩
    · rintro ⟨actual', expected', ha', he', ht⟩
      cases ha'
      rw [he] at he'
      cases he'
      rw [hr] at ht
      exact Except.ok.inj ht
  | .forAll node inner, c, b, r, h => by
    rw [eval] at h
    obtain ⟨actual, ha, h⟩ := bind_ok.mp h
    obtain ⟨_, -, h⟩ := bind_ok.mp h
    obtain ⟨⟨b', d⟩, hv, h⟩ := bind_ok.mp h
    have hb : b = b' := finishCompare_fst yamlDump h
    rw [holds_forAll_iff ha, hb]
    unfold Seharden.forAll at hv
    cases ht : actual.isTable with
    | false =>
      rw [ht] at hv
      cases hv
      simp
    | true =>
      rw [ht] at hv
      have := forAllFrom_holds (fun item b r => eval_holds inner { probe := c.probe, item := item } b r) hv
      simpa using this

theorem evalAll_holds : ∀ (as : List Assertion) (c : Contexts) (b : Bool) (r : Value),
    evalAll yamlDump as c = .ok (b, r) → (b = true ↔ HoldsAll as c)
  | [], c, b, r, h => by
    rw [evalAll] at h
    cases h
    simp [HoldsAll]
  | a :: as, c, b, r, h => by
    rw [evalAll] at h
    obtain ⟨⟨b', r'⟩, ha, h⟩ := bind_ok.mp h
    have hiff := eval_holds a c b' r' ha
    rw [HoldsAll]
    cases b' with
    | true =>
      rw [evalAll_holds as c b r h]
      simp [hiff.mp rfl]
    | false =>
      have hn : ¬ a.Holds c := fun hh => by simpa using hiff.mpr hh
      cases h
      simp [hn]

theorem evalAny_holds : ∀ (as : List Assertion) (c : Contexts) (i : Nat) (reasons : List Str) (b : Bool) (r : Value),
    evalAny yamlDump as c i reasons = .ok (b, r) → (b = true ↔ HoldsAny as c)
  | [], c, i, reasons, b, r, h => by
    rw [evalAny] at h
    cases h
    simp [HoldsAny]
  | a :: as, c, i, reasons, b, r, h => by
    rw [evalAny] at h
    obtain ⟨⟨b', r'⟩, ha, h⟩ := bind_ok.mp h
    have hiff := eval_holds a c b' r' ha
    rw [HoldsAny]
    cases b' with
    | true =>
      cases h
      simp [hiff.mp rfl]
    | false =>
      have hn : ¬ a.Holds c := fun hh => by simpa using hiff.mpr hh
      rw [evalAny_holds as c _ _ b r h]
      simp [hn]

end

end Eval

/-! ## What the schema accepts is a tree -/

theorem exists_readsAll {nodes : List Value} (h : ∀ node ∈ nodes, ∃ a : Assertion, a.Reads node) :
    ∃ as, ReadsAll as nodes := by
  induction nodes with
  | nil => exact ⟨[], trivial⟩
  | cons node nodes ih =>
    obtain ⟨a, ha⟩ := h node List.mem_cons_self
    obtain ⟨as, has⟩ := ih fun v hv => h v (List.mem_cons_of_mem _ hv)
    exact ⟨a :: as, ha, has⟩

/-- A list of nodes the schema has checked: each of them passed its check. -/
theorem checkEach_children {known : Bool} {node : Value} {field name : Str}
    (h : checkEach (fun index (c : { c : Value // sizeOf c < sizeOf node }) =>
      validateAssertionNode known c.1 (elemName name index)) 1 (node.children field) = .ok ()) :
    ∀ c ∈ (node.field field).ipairs, ∃ n, validateAssertionNode known c n = .ok () := by
  intro c hc
  rw [← Value.children_val] at hc
  obtain ⟨c', hc', rfl⟩ := List.mem_map.mp hc
  obtain ⟨i, hi⟩ := checkEach_ok h c' hc'
  exact ⟨_, hi⟩

/-- **Every node the schema accepts with comparator names checked is written as a tree.** -/
theorem reads_of_validate (node : Value) : ∀ name : Str, validateAssertionNode true node name = .ok () →
    ∃ a : Assertion, a.Reads node := by
  induction node using Value.size_induction with
  | h node ih =>
  intro name h
  rw [validateAssertionNode] at h
  simp only [check_bind_ok] at h
  obtain ⟨ht, -, -, -, h⟩ := h
  by_cases ha : node.field "all_of" = .nil
  · rw [if_neg (by rw [ha]; simp [Value.isNil])] at h
    by_cases hb : node.field "any_of" = .nil
    · rw [if_neg (by rw [hb]; simp [Value.isNil])] at h
      simp only [check_bind_ok, Bool.not_true, Bool.false_or] at h
      obtain ⟨hc, hk, h⟩ := h
      obtain ⟨e, he⟩ := Option.isSome_iff_exists.mp hk
      cases e with
      | value cmp => exact ⟨.compare cmp node, rfl, ht, ha, hb, he⟩
      | forAll =>
        obtain ⟨s, hcs, -⟩ := isNonEmptyString_iff.mp hc
        have hfor : s = "for_all".toList := comparators_forAll.mp (hcs ▸ he)
        rw [if_pos (by rw [hcs, hfor]; simp)] at h
        obtain ⟨-, h⟩ := check_bind_ok.mp h
        cases node with
        | table r fs inh =>
          obtain ⟨inner, hr⟩ := ih _ (Value.sizeOf_get r fs inh _) _ h
          exact ⟨.forAll (.table r fs inh) inner, rfl, rfl, ha, hb, he, hr⟩
        | _ => cases ht
    · rw [if_pos (by rw [Value.isNil_eq_false.mpr hb]; rfl)] at h
      obtain ⟨hl, h⟩ := check_bind_ok.mp h
      obtain ⟨as, has⟩ := exists_readsAll fun c hc => by
        obtain ⟨n, hn⟩ := checkEach_children h c hc
        exact ih c (sizeOf_mem_field ht hc) n hn
      exact ⟨.anyOf as, ht, ha, isTable_of_isList hl, has⟩
  · rw [if_pos (by rw [Value.isNil_eq_false.mpr ha]; rfl)] at h
    obtain ⟨hl, h⟩ := check_bind_ok.mp h
    obtain ⟨as, has⟩ := exists_readsAll fun c hc => by
      obtain ⟨n, hn⟩ := checkEach_children h c hc
      exact ih c (sizeOf_mem_field ht hc) n hn
    exact ⟨.allOf as, ht, isTable_of_isList hl, has⟩

mutual

/-- A node is written as at most one tree. -/
theorem reads_unique : ∀ (a b : Assertion) (node : Value), a.Reads node → b.Reads node → a = b
  | .allOf as, .allOf bs, node, ha, hb => by
    rw [Reads] at ha hb
    rw [readsAll_unique as bs _ ha.2.2 hb.2.2]
  | .anyOf as, .anyOf bs, node, ha, hb => by
    rw [Reads] at ha hb
    rw [readsAll_unique as bs _ ha.2.2.2 hb.2.2.2]
  | .compare ca na, .compare cb nb, node, ha, hb => by
    rw [Reads] at ha hb
    obtain ⟨rfl, -, -, -, hca⟩ := ha
    obtain ⟨rfl, -, -, -, hcb⟩ := hb
    rw [hca] at hcb
    cases hcb
    rfl
  | .forAll na ia, .forAll nb ib, node, ha, hb => by
    rw [Reads] at ha hb
    obtain ⟨rfl, -, -, -, -, hia⟩ := ha
    obtain ⟨rfl, -, -, -, -, hib⟩ := hb
    rw [reads_unique ia ib _ hia hib]
  | .allOf _, .anyOf _, node, ha, hb => by simp_all [Reads, Value.isTable]
  | .allOf _, .compare .., node, ha, hb => by simp_all [Reads, Value.isTable]
  | .allOf _, .forAll .., node, ha, hb => by simp_all [Reads, Value.isTable]
  | .anyOf _, .allOf _, node, ha, hb => by simp_all [Reads, Value.isTable]
  | .anyOf _, .compare .., node, ha, hb => by simp_all [Reads, Value.isTable]
  | .anyOf _, .forAll .., node, ha, hb => by simp_all [Reads, Value.isTable]
  | .compare .., .allOf _, node, ha, hb => by simp_all [Reads, Value.isTable]
  | .compare .., .anyOf _, node, ha, hb => by simp_all [Reads, Value.isTable]
  | .compare .., .forAll .., node, ha, hb => by simp_all [Reads]
  | .forAll .., .allOf _, node, ha, hb => by simp_all [Reads, Value.isTable]
  | .forAll .., .anyOf _, node, ha, hb => by simp_all [Reads, Value.isTable]
  | .forAll .., .compare .., node, ha, hb => by simp_all [Reads]

theorem readsAll_unique : ∀ (as bs : List Assertion) (nodes : List Value), ReadsAll as nodes → ReadsAll bs nodes →
    as = bs
  | [], [], _, _, _ => rfl
  | a :: as, b :: bs, node :: nodes, ha, hb => by
    rw [ReadsAll] at ha hb
    rw [reads_unique a b node ha.1 hb.1, readsAll_unique as bs nodes ha.2 hb.2]
  | [], _ :: _, [], _, hb => absurd hb (by simp [ReadsAll])
  | [], _ :: _, _ :: _, ha, _ => absurd ha (by simp [ReadsAll])
  | _ :: _, [], [], ha, _ => absurd ha (by simp [ReadsAll])
  | _ :: _, [], _ :: _, _, hb => absurd hb (by simp [ReadsAll])
  | _ :: _, _ :: _, [], ha, _ => absurd ha (by simp [ReadsAll])

end

end Assertion

theorem assertion_of_validateRule {rule : Value} {name : Str} {known : Bool}
    (h : validateRule rule name known = .ok ()) :
    validateAssertionNode known (rule.field "assertion") (name ++ ".assertion") = .ok () := by
  unfold validateRule at h
  simp only [check_bind_ok] at h
  obtain ⟨-, -, -, h⟩ := h
  obtain ⟨_, h, -⟩ := bind_ok.mp h
  exact h

/-- **Schema and evaluator agree on the assertion language**: the assertion of an accepted rule is written as exactly
one tree, the evaluator takes no exit for malformed nodes on it, and when it returns its verdict is the truth of the
tree. -/
theorem evaluate_denotes (yamlDump : Value → Except Err Str) (rule : Value) (name : Str)
    (hv : validateRule rule name true = .ok ()) :
    ∃ a : Assertion, (∀ b : Assertion, b.Reads (rule.field "assertion") ↔ b = a) ∧
      (∀ stop c, evaluateNode yamlDump stop (rule.field "assertion") c =
        evaluate yamlDump (rule.field "assertion") c) ∧
      ∀ c passed reason, evaluate yamlDump (rule.field "assertion") c = .ok (passed, reason) →
        (passed = true ↔ a.Holds c) := by
  obtain ⟨a, ha⟩ := Assertion.reads_of_validate _ _ (assertion_of_validateRule hv)
  have heval := fun stop c => Assertion.evaluateNode_reads yamlDump stop a _ c ha
  refine ⟨a, fun b => ⟨fun hb => Assertion.reads_unique b a _ hb ha, fun hb => hb ▸ ha⟩, ?_, ?_⟩
  · intro stop c
    rw [evaluate, heval, heval]
  · intro c passed reason h
    rw [evaluate, heval] at h
    exact Assertion.eval_holds yamlDump a c passed reason h

/-- A rule with a nested `for_all`: the mode of every file of every group is within its bound. -/
def nestedRule : Value :=
  .record 1 [("id", .str "nested"), ("desc", .str "nested for_all"),
    ("assertion", .record 2 [("any_of", .list 3 [
      .record 4 [("actual", .str "%\x7bprobe.skip\x7d"), ("compare", .str "is_true")],
      .record 5 [("actual", .str "%\x7bprobe.groups\x7d"), ("compare", .str "for_all"),
        ("expected", .record 6 [("key", .str "files"), ("compare", .str "for_all"),
          ("expected", .record 7 [("key", .str "mode"), ("compare", .str "mode_is_no_more_permissive"),
            ("expected", .num 420)])])]])])]

/-- Probe data for `nestedRule`. -/
def nestedData : Value :=
  .record 8 [("groups", .list 9 [.record 10 [("files", .list 11 [.record 12 [("mode", .num 384)]])]])]

theorem evaluate_denotes_nested : validateRule nestedRule "rule" true = .ok () ∧
    ∃ a : Assertion, a.Reads (nestedRule.field "assertion") ∧ a.Holds { probe := nestedData, item := .nil } := by
  have hv : validateRule nestedRule "rule" true = .ok () := by decide +kernel
  have he : (evaluate (fun _ => .ok []) (nestedRule.field "assertion") { probe := nestedData, item := .nil }).map
    Prod.fst =
      .ok true := by decide +kernel
  obtain ⟨a, hr, -, hh⟩ := evaluate_denotes (fun _ => .ok []) nestedRule "rule" hv
  refine ⟨hv, a, (hr a).mpr rfl, ?_⟩
  cases h : evaluate (fun _ => .ok []) (nestedRule.field "assertion") { probe := nestedData, item := .nil } with
  | error e => rw [h] at he; cases he
  | ok v =>
    rw [h] at he
    exact (hh _ v.1 v.2 h).mp (Except.ok.inj he)

end Seharden
