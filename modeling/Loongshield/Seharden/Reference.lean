import Loongshield.Lua.Match
import Loongshield.Seharden.RuleExecutor

/-!
# What a probe reference denotes

A reference `%\{probe.p}` may stand in the `actual` of an assertion, in its `expected`, and in the parameters of a probe
or an action. The first is looked up by the whole path as a name (`get_actual_value`), the others by a walk along its
parts (`lookup_context_value`).

- `probeRef_reference`, `resolveString_reference`: how the two resolvers read a reference;
- `resolveFields_get`: a parameter is resolved by itself;
- `reference_agrees_iff`: the three places agree on every value that a reference resolves to iff its path has no dot.
-/

namespace Seharden

open Lua Pattern

/-- The reference to a path below the probe data. -/
def reference (p : Str) : Str := "%\x7bprobe.".toList ++ (p ++ ['\x7d'])

section Resolvers

/-- The pattern of a probe reference, item by item. -/
theorem compile_probeRef : compile "%%\x7bprobe%.([^\x7d]+)\x7d$" =
    [Single.cls '%', .lit '\x7b', .lit 'p', .lit 'r', .lit 'o', .lit 'b', .lit 'e', .cls '.'].map (.single · .one) ++
      [.capOpen, .single (allBut '\x7d') .plus, .capClose, .single (.lit '\x7d') .one, .atEnd] := rfl

variable {p : Str}

/-- For `actual`, the whole path is the name of a probe. -/
theorem probeRef_reference (hp : p ≠ []) (hbrace : '\x7d' ∉ p) : probeRef (reference p) = some p := by
  have hmatch : strMatch (reference p) "^%%\x7bprobe%.([^\x7d]+)\x7d$" = .ok (some [.str p]) :=
    strMatch_capture compile_probeRef (by decide) hp (fun x hx => allBut_test.mpr fun hx' => hbrace (hx' ▸ hx))
      (by simp) rfl
  unfold probeRef
  rw [hmatch]

/-- A text whose path has a closing brace is no reference. -/
theorem probeRef_reference_of_brace (hbrace : '\x7d' ∈ p) : probeRef (reference p) = none := by
  have hmatch : strMatch (reference p) "^%%\x7bprobe%.([^\x7d]+)\x7d$" = .ok none :=
    strMatch_capture_none compile_probeRef (by decide) hbrace (by simp)
  unfold probeRef
  rw [hmatch]

/-- The parts of a path are the words between its dots. -/
theorem pathParts_eq (key : Str) : pathParts key = (words (allBut '.') key).map .str := by
  have hmatch : gmatch key "([^.]+)" = .ok ((words (allBut '.') key).map fun w => [.str w]) := gmatch_runs rfl key
  unfold pathParts
  rw [hmatch]
  simp

/-- The path of a reference begins with `probe`. -/
theorem pathParts_probe : pathParts ("probe.".toList ++ p) = .str "probe" :: pathParts p := by
  rw [pathParts_eq, pathParts_eq]
  have hprobe : ∀ x ∈ "probe".toList, (allBut '.').test x = true := by
    intro x hx
    rw [allBut_test]
    rintro rfl
    exact absurd hx (by decide)
  have hwords : words (allBut '.') ("probe".toList ++ '.' :: p) = "probe".toList :: words (allBut '.') ('.' :: p) :=
    words_append (by decide) hprobe (by simp)
  rw [show "probe.".toList ++ p = "probe".toList ++ '.' :: p from rfl, hwords,
    words_cons_of_neg p (allBut_test_eq_false.mpr rfl)]
  rfl

theorem pathParts_of_no_dot (hp : p ≠ []) (hdot : '.' ∉ p) : pathParts p = [.str p] := by
  have hwords : words (allBut '.') (p ++ []) = p :: words (allBut '.') [] :=
    words_append hp (fun x hx => allBut_test.mpr fun hx' => hdot (hx' ▸ hx)) (by simp)
  rw [List.append_nil] at hwords
  rw [pathParts_eq, hwords]
  rfl

/-- A path with a dot is none of its parts. -/
theorem str_not_mem_pathParts (hdot : '.' ∈ p) : .str p ∉ pathParts p := by
  rw [pathParts_eq]
  intro hmem
  obtain ⟨w, hw, heq⟩ := List.mem_map.mp hmem
  cases heq
  exact allBut_test.mp (mem_words hw '.' hdot) rfl

/-- For the other places, a reference is the value at the end of the walk, or stays as it is. -/
theorem resolveString_reference (hbrace : '\x7d' ∉ p) (contexts : Value) :
    resolveString contexts (reference p) =
      if (lookupContextValue ("probe.".toList ++ p) contexts).isNil then .str (reference p)
      else lookupContextValue ("probe.".toList ++ p) contexts := by
  have hpat : compile "%%\x7b([^\x7d]+)\x7d$" = [Single.cls '%', .lit '\x7b'].map (.single · .one) ++
      [.capOpen, .single (allBut '\x7d') .plus, .capClose, .single (.lit '\x7d') .one, .atEnd] := rfl
  have hkey : ∀ x ∈ "probe.".toList ++ p, (allBut '\x7d').test x = true := by
    intro x hx
    rw [allBut_test]
    rintro rfl
    rcases List.mem_append.mp hx with hx | hx
    · exact absurd hx (by decide)
    · exact hbrace hx
  have hmatch : strMatch ("%\x7b".toList ++ ("probe.".toList ++ p ++ ['\x7d'])) "^%%\x7b([^\x7d]+)\x7d$" =
      .ok (some [.str ("probe.".toList ++ p)]) :=
    strMatch_capture hpat (by decide) (by simp) hkey (by simp) rfl
  have href : reference p = "%\x7b".toList ++ ("probe.".toList ++ p ++ ['\x7d']) := rfl
  unfold resolveString
  rw [href, hmatch]

/-- The walk to a path below the probe data. -/
theorem lookupContextValue_probe {c : Contexts} (hprobe : c.probe.isTable = true) :
    lookupContextValue ("probe.".toList ++ p) c.toValue = walk c.probe (pathParts p) := by
  have hfield : c.toValue.get (.str "probe") = c.probe := by
    cases hv : c.probe with
    | table r fs inh => simp [Contexts.toValue, Value.record, Value.get, Value.rawGet, Value.rawEq, hv, Value.isNil]
    | _ => rw [hv] at hprobe; cases hprobe
  have hnil : c.probe.isNil = false := by
    cases hv : c.probe with
    | nil => rw [hv] at hprobe; cases hprobe
    | _ => rfl
  unfold lookupContextValue
  rw [pathParts_probe, walk, hfield, hnil]
  rfl

end Resolvers

/-! ## Parameters -/

section Params

variable {contexts : Value}

/-- A text without `%` is resolved to itself. -/
theorem resolveString_plain {s : Str} (hs : '%' ∉ s) : resolveString contexts s = .str s := by
  have hlacks : ∀ x ∈ s, (Single.cls '%').test x = false := by
    intro x hx
    have hne : '%' ≠ x := fun h => hs (h ▸ hx)
    have htest : (Single.cls '%').test x = ('%' == x) := rfl
    rw [htest, beq_eq_false_iff_ne]
    exact hne
  have hmatch : strMatch s "^%%\x7b([^\x7d]+)\x7d$" = .ok none := strMatch_lacks rfl hlacks
  have hsub : gsub s "%%\x7b([^\x7d]+)\x7d" (expandRef contexts) = .ok s := gsub_lacks rfl (by decide) hlacks
  unfold resolveString
  rw [hmatch, hsub]

theorem resolveString_ne_nil (s : Str) : resolveString contexts s ≠ .nil := by
  unfold resolveString
  split
  · dsimp only
    split
    · exact Value.noConfusion
    · next h => simpa using h
  · split <;> exact Value.noConfusion

/-- A table whose keys are texts without `%`, each once. -/
def PlainKeys : Value → Prop
  | .table _ fs inh => (∀ f ∈ fs, ∃ s, f.1 = .str s ∧ '%' ∉ s) ∧ (fs.map Prod.fst).Nodup ∧ inh = []
  | _ => False

/-- One step of the loop over the fields. -/
theorem resolveFields_cons {s : Str} {v : Value} {fs resolved : List (Value × Value)} {n : Nat}
    {r : List (Value × Value) × Nat} (hs : '%' ∉ s)
    (h : resolveFields contexts resolved ((.str s, v) :: fs) n = .ok r) :
    ∃ v' n', resolveValue contexts v n = .ok (v', n') ∧
      resolveFields contexts (Value.rawSet resolved (.str s) v') fs n' = .ok r := by
  rw [resolveFields, resolveValue, resolveString_plain hs] at h
  obtain ⟨key, hkey, h⟩ := bind_ok.mp h
  cases hkey
  obtain ⟨⟨v', n'⟩, hv, h⟩ := bind_ok.mp h
  exact ⟨v', n', hv, h⟩

theorem resolveFields_skip {k : Str} : ∀ {fs resolved : List (Value × Value)} {n : Nat}
    {r : List (Value × Value) × Nat}, (∀ f ∈ fs, ∃ s, f.1 = .str s ∧ '%' ∉ s) → .str k ∉ fs.map Prod.fst →
      resolveFields contexts resolved fs n = .ok r → Value.rawGet r.1 (.str k) = Value.rawGet resolved (.str k)
  | [], _, _, _, _, _, h => by
    rw [resolveFields] at h
    cases h
    rfl
  | (key, v) :: fs, resolved, n, r, hplain, hk, h => by
    obtain ⟨⟨s, rfl, hs⟩, hrest⟩ := List.forall_mem_cons.mp hplain
    rw [List.map_cons, List.mem_cons, not_or] at hk
    obtain ⟨v', n', -, h⟩ := resolveFields_cons hs h
    rw [resolveFields_skip hrest hk.2 h, Value.rawGet_rawSet_ne fun h => hk.1 (congrArg Value.str h.symm)]

/-- **A parameter is resolved by itself.** -/
theorem resolveFields_get {k s : Str} : ∀ {fs resolved : List (Value × Value)} {n : Nat}
    {r : List (Value × Value) × Nat}, (∀ f ∈ fs, ∃ s, f.1 = .str s ∧ '%' ∉ s) → (fs.map Prod.fst).Nodup →
      Value.rawGet fs (.str k) = .str s → resolveFields contexts resolved fs n = .ok r →
        Value.rawGet r.1 (.str k) = resolveString contexts s
  | [], _, _, _, _, _, hget, _ => by cases hget
  | (key, v) :: fs, resolved, n, r, hplain, hnodup, hget, h => by
    obtain ⟨⟨key', rfl, hkey⟩, hrest⟩ := List.forall_mem_cons.mp hplain
    rw [List.map_cons, List.nodup_cons] at hnodup
    obtain ⟨v', n', hv, h⟩ := resolveFields_cons hkey h
    unfold Value.rawGet at hget
    by_cases hk : key' = k
    · subst hk
      rw [if_pos (by simp [Value.rawEq])] at hget
      subst hget
      rw [resolveValue] at hv
      cases hv
      rw [resolveFields_skip hrest hnodup.1 h, Value.rawGet_rawSet_str]
    · rw [if_neg (by simpa [Value.rawEq] using hk)] at hget
      exact resolveFields_get hrest hnodup.2 hget h

theorem resolveParams_field {task probed params : Value} {k s : Str} (hkeys : PlainKeys (task.field "params"))
    (hfield : (task.field "params").field k = .str s) (hres : resolveParams task probed = .ok params) :
    params.field k = resolveString (Contexts.toValue { probe := probed, item := .nil }) s := by
  unfold resolveParams at hres
  cases hparams : task.field "params" with
  | table r fs inh =>
    rw [hparams] at hkeys hfield hres
    obtain ⟨hplain, hnodup, rfl⟩ := hkeys
    have hraw : Value.rawGet fs (.str k) = .str s := by
      unfold Value.field Value.get at hfield
      dsimp only at hfield
      split at hfield
      · cases hfield
      · exact hfield
    dsimp only at hres
    rw [resolveValue] at hres
    cases hfields : resolveFields (Contexts.toValue { probe := probed, item := .nil }) [] fs
        (max task.bound (Contexts.toValue { probe := probed, item := .nil }).bound + 1) with
    | error e =>
      rw [hfields] at hres
      cases hres
    | ok found =>
      rw [hfields] at hres
      cases hres
      unfold Value.field Value.get
      dsimp only
      rw [resolveFields_get hplain hnodup hraw hfields, if_neg]
      simpa using resolveString_ne_nil s
  | _ => rw [hparams] at hkeys; cases hkeys

end Params

/-! ## The three places -/

/-- The reference to `p` is written as the `actual` of a node without `key`, as the `expected` of a node, and as the
parameter `k` of a task. -/
structure Written (p k : Str) (actualNode expectedNode task : Value) : Prop where
  actual : actualNode.field "actual" = .str (reference p)
  key : (actualNode.field "key").truthy = false
  expected : expectedNode.field "expected" = .str (reference p)
  params : PlainKeys (task.field "params")
  param : (task.field "params").field k = .str (reference p)

/-- Whatever the probed data, a reference that resolves in one place denotes the same value in all of them. A reference
that is not resolved is `nil` in an `actual`, and itself elsewhere. Other parameters of the task may be ones that cannot
be resolved; then it has none. -/
def ReferenceAgrees (p : Str) : Prop :=
  ∀ (probed item actualNode expectedNode task : Value) (k : Str), probed.isTable = true →
    Written p k actualNode expectedNode task →
      ∃ actual, getActualValue actualNode { probe := probed, item := item } = .ok actual ∧
        ∀ operand, ∃ expected, getExpectedValue expectedNode { probe := probed, item := item } operand = .ok expected ∧
          (∀ params, resolveParams task probed = .ok params → params.field k = expected) ∧
            (actual ≠ .nil ∨ expected ≠ .str (reference p) → actual = expected)

section Places

variable {p k : Str} {probed item actualNode expectedNode task : Value}

theorem Written.getActualValue_eq (h : Written p k actualNode expectedNode task) (hp : p ≠ []) (hbrace : '\x7d' ∉ p)
    (hprobed : probed.isTable = true) :
    getActualValue actualNode { probe := probed, item := item } = .ok (probed.field p) := by
  rw [getActualValue_probe h.actual (probeRef_reference hp hbrace) hprobed, h.key]
  dsimp only
  split
  · next hnil => rw [Value.isNil_iff.mp hnil]
  · rfl

theorem Written.getExpectedValue_eq (h : Written p k actualNode expectedNode task) (hbrace : '\x7d' ∉ p)
    (hprobed : probed.isTable = true) (operand : Value) :
    getExpectedValue expectedNode { probe := probed, item := item } operand =
      .ok (if (walk probed (pathParts p)).isNil then .str (reference p) else walk probed (pathParts p)) := by
  unfold getExpectedValue
  rw [h.expected, resolveValue, resolveString_reference hbrace, lookupContextValue_probe hprobed]
  rfl

theorem Written.resolveParams_eq (h : Written p k actualNode expectedNode task) (hbrace : '\x7d' ∉ p)
    (hprobed : probed.isTable = true) {params : Value} (hres : resolveParams task probed = .ok params) :
    params.field k = if (walk probed (pathParts p)).isNil then .str (reference p) else walk probed (pathParts p) := by
  rw [resolveParams_field h.params h.param hres, resolveString_reference hbrace, lookupContextValue_probe hprobed]

/-- The walk along a single part is the lookup by name. -/
theorem walk_singleton (hprobed : probed.isTable = true) : walk probed [.str p] = probed.field p := by
  rw [walk, hprobed]
  simp only [Bool.true_and, walk]
  split
  · rfl
  · next hnil => exact (by simpa using hnil : probed.get (.str p) = .nil).symm

/-- Without a dot, both lookups are the same. -/
theorem referenceAgrees_of_no_dot (hp : p ≠ []) (hbrace : '\x7d' ∉ p) (hdot : '.' ∉ p) : ReferenceAgrees p := by
  intro probed item actualNode expectedNode task k hprobed h
  refine ⟨probed.field p, h.getActualValue_eq hp hbrace hprobed, fun operand =>
    ⟨_, h.getExpectedValue_eq hbrace hprobed operand, fun params => h.resolveParams_eq hbrace hprobed, ?_⟩⟩
  rw [pathParts_of_no_dot hp hdot, walk_singleton hprobed]
  intro hres
  split
  · next hnil =>
    rw [hnil] at hres
    rcases hres with hres | hres
    · exact absurd (Value.isNil_iff.mp hnil) hres
    · exact absurd rfl hres
  · rfl

/-- With a dot, data stored under the whole path are not what the walk finds. -/
theorem not_referenceAgrees_of_dot (hp : p ≠ []) (hbrace : '\x7d' ∉ p) (hdot : '.' ∈ p) : ¬ ReferenceAgrees p := by
  intro hagrees
  have hwritten : Written p "value" (.record 1 [("actual", .str (reference p))])
      (.record 2 [("expected", .str (reference p))])
      (.record 3 [("params", .record 4 [("value", .str (reference p))])]) :=
    ⟨rfl, rfl, rfl, ⟨by simp, by simp, rfl⟩, rfl⟩
  let probed : Value := .record 0 [(p, .bool true)]
  have hfield : ∀ part, probed.get part = if Value.rawEq (.str p) part then .bool true else .nil := by
    intro part
    by_cases hpart : Value.rawEq (.str p) part = true <;>
      simp [probed, Value.record, Value.get, Value.rawGet, hpart, Value.isNil]
  -- no part of the path is the whole path
  have hwalk : walk probed (pathParts p) ≠ .bool true := by
    cases hparts : pathParts p with
    | nil => exact Value.noConfusion
    | cons part parts =>
      have hne : Value.rawEq (.str p) part = false := by
        rw [← Bool.not_eq_true]
        intro heq
        cases part with
        | str s =>
          have hs : p = s := by simpa [Value.rawEq] using heq
          subst hs
          exact str_not_mem_pathParts hdot (hparts ▸ List.mem_cons_self)
        | _ => cases heq
      rw [walk, hfield, hne]
      exact Value.noConfusion
  obtain ⟨actual, hactual, h⟩ := hagrees probed .nil _ _ _ _ rfl hwritten
  rw [hwritten.getActualValue_eq hp hbrace rfl, Value.field, hfield, if_pos (by simp)] at hactual
  cases hactual
  obtain ⟨expected, hexpected, -, h⟩ := h .nil
  rw [hwritten.getExpectedValue_eq hbrace rfl] at hexpected
  cases hexpected
  have heq := h (Or.inl Value.noConfusion)
  split at heq
  · cases heq
  · exact hwalk heq.symm

/-- **A reference means one thing iff its path has no dot.** A closing brace ends a reference, so a text with one in its
path is none. -/
theorem reference_agrees_iff (hp : p ≠ []) :
    ('\x7d' ∈ p → probeRef (reference p) = none) ∧ ('\x7d' ∉ p → (ReferenceAgrees p ↔ '.' ∉ p)) := by
  refine ⟨probeRef_reference_of_brace, fun hbrace => ⟨fun h hdot => ?_, referenceAgrees_of_no_dot hp hbrace⟩⟩
  exact not_referenceAgrees_of_dot hp hbrace hdot h

theorem reference_agrees_aslr : ReferenceAgrees "aslr".toList :=
  ((reference_agrees_iff (by decide)).2 (by decide)).mpr (by decide)

/-- The mode of a file compared with itself. -/
def sameModeRule : Value :=
  .record 1 [("id", .str "same"), ("desc", .str "a mode is what it is"),
    ("probes", .list 2 [.record 3 [("name", .str "stat"), ("func", .str "file.stat")]]),
    ("assertion", .record 4 [("actual", .str (reference "stat.mode")), ("compare", .str "equals"),
      ("expected", .str (reference "stat.mode"))])]

/-- One accepted rule, one reference, two values: the path is found in the `expected` and not in the `actual`. -/
theorem reference_disagrees : validateRule sameModeRule "rule" true = .ok () ∧ ¬ ReferenceAgrees "stat.mode".toList ∧
    let c : Contexts := { probe := .record 5 [("stat", .record 6 [("mode", .num 384)])], item := .nil }
    getActualValue (sameModeRule.field "assertion") c = .ok .nil ∧
      getExpectedValue (sameModeRule.field "assertion") c .nil = .ok (.num 384) := by
  have hbrace : '\x7d' ∉ "stat.mode".toList := by decide
  refine ⟨by decide +kernel, not_referenceAgrees_of_dot (by decide) hbrace (by decide), ?_⟩
  intro c
  have hwritten : Written "stat.mode" "value" (sameModeRule.field "assertion") (sameModeRule.field "assertion")
      (.record 7 [("params", .record 8 [("value", .str (reference "stat.mode"))])]) :=
    ⟨rfl, rfl, rfl, ⟨by simp, by simp, rfl⟩, rfl⟩
  constructor
  · exact hwritten.getActualValue_eq (by decide) hbrace rfl
  · rw [hwritten.getExpectedValue_eq hbrace rfl]
    rfl

end Places

end Seharden
