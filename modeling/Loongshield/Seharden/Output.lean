import Loongshield.Seharden.Template
import Loongshield.Seharden.Text

/-!
# `output.lua`

The details of a failure, and what a verbose run prints about the probes of a rule. Both write values to text with
`serialize_for_log`, which raises where the YAML writer does; `Summarizes` and `Shows` say when they return.
-/

namespace Seharden

open Lua

/-- The probe name of a reference: `actual:match('^%%\{probe%.([^}]+)}$')`. -/
def probeRef (actual : Str) : Option Str :=
  match strMatch actual "^%%\x7bprobe%.([^\x7d]+)\x7d$" with
  | .ok (some [.str name]) => some name
  | _ => none

/-- `string.format("0%03o", value)`. The digits of a number that is not finite are those of `2 ^ 63`, to which the
processor converts it. -/
def octalMode (x : Flt) : Str :=
  let n : Int := match x with
    | .fin q => if q < 0 then -⌊-q⌋ else ⌊q⌋
    | _ => 2 ^ 63
  let ds := Nat.toDigits 8 (n % 2 ^ 64).toNat
  '0' :: (List.replicate (3 - ds.length) '0' ++ ds)

/-! ## Failure details -/

section Failure

variable (yamlDump : Value → Except Err Str)

/-- `format_item_value`. -/
def formatItemValue (key : Str) (value : Value) : Except Err Str :=
  match value.double with
  | some x => if key = "mode" then .ok (octalMode x) else serializeForLog yamlDump value
  | none => serializeForLog yamlDump value

/-- The keys that stand for an item in messages. -/
def preferredKeys : List Str := ["path", "user", "name", "uid", "gid", "mode", "shell", "value", "found"]

/-- The keys of `preferredKeys` that an item has, its own or inherited. -/
def summaryKeys (item : Value) : List Str := preferredKeys.filter fun key => !(item.field key).isNil

/-- The summary of an item for the keys it has. -/
def summaryOf (item : Value) : List Str → Except Err (List Str)
  | [] => .ok []
  | key :: keys => do
    let text ← formatItemValue yamlDump key (item.field key)
    let rest ← summaryOf item keys
    .ok ((key ++ "=" ++ text) :: rest)

/-- `summarize_item`. -/
def summarizeItem (item : Value) : Except Err Str :=
  if !item.isTable || (summaryKeys item).isEmpty then serializeForLog yamlDump item
  else (summaryOf yamlDump item (summaryKeys item)).map (List.intercalate ", ".toList)

/-- `format_failure_detail`. -/
def formatFailureDetail (node : Value) (c : Contexts) (actual detail : Value) : Except Err Str :=
  let probeError : Value := match node.field "actual" with
    | .str s => match probeRef s with
      | some name => (c.probe.field name).field "error"
      | none => .nil
    | _ => .nil
  if detail.isTable && !(detail.field "item").isNil then do
    let itemSummary ← summarizeItem yamlDump (detail.field "item")
    if !(detail.field "index").isNil then
      .ok ("first failing item #" ++ (detail.field "index").tostring ++ ": " ++ itemSummary)
    else .ok ("first failing item: " ++ itemSummary)
  else if actual.isNil && !probeError.isNil then .ok ("probe error: " ++ probeError.tostring)
  else do
    let text ← serializeForLog yamlDump actual
    .ok ("actual: " ++ text)

/-- An item whose summary can be written: the values that stand for it, or itself if there are none. -/
def Summarizes (item : Value) : Prop :=
  if !item.isTable || (summaryKeys item).isEmpty then Dumps yamlDump item
  else ∀ key ∈ summaryKeys item, Dumps yamlDump (item.field key)

variable {yamlDump}

theorem formatItemValue_ok_iff {key : Str} {value : Value} :
    (∃ s, formatItemValue yamlDump key value = .ok s) ↔ Dumps yamlDump value := by
  unfold formatItemValue
  cases hx : value.double with
  | none => exact serializeForLog_ok_iff
  | some x =>
    have hdumps : Dumps yamlDump value := dumps_of_not_table (by cases value <;> first | rfl | cases hx)
    dsimp only
    split
    · exact iff_of_true ⟨_, rfl⟩ hdumps
    · exact iff_of_true (serializeForLog_ok_iff.mpr hdumps) hdumps

theorem summaryOf_ok_iff {item : Value} : ∀ keys : List Str,
    (∃ texts, summaryOf yamlDump item keys = .ok texts) ↔ ∀ key ∈ keys, Dumps yamlDump (item.field key)
  | [] => by simp [summaryOf]
  | key :: keys => by
    rw [summaryOf, List.forall_mem_cons, ← @formatItemValue_ok_iff yamlDump key, ← summaryOf_ok_iff keys]
    cases formatItemValue yamlDump key (item.field key) with
    | error e => simp [bind, Except.bind]
    | ok text =>
      cases summaryOf yamlDump item keys with
      | error e => simp [bind, Except.bind]
      | ok texts => simp [bind, Except.bind]

/-- **When the summary of an item can be written.** -/
theorem summarizeItem_ok_iff {item : Value} : (∃ s, summarizeItem yamlDump item = .ok s) ↔
    Summarizes yamlDump item := by
  unfold summarizeItem Summarizes
  split
  · exact serializeForLog_ok_iff
  · rw [← summaryOf_ok_iff]
    cases summaryOf yamlDump item (summaryKeys item) with
    | error e => simp [Except.map]
    | ok texts => simp [Except.map]

/-- Without a failing item, the details of a failure can be written if the actual value can. -/
theorem formatFailureDetail_actual {node actual : Value} {c : Contexts} (h : Dumps yamlDump actual) :
    ∃ s, formatFailureDetail yamlDump node c actual .nil = .ok s := by
  obtain ⟨text, htext⟩ := serializeForLog_ok_iff.mpr h
  unfold formatFailureDetail
  dsimp only
  rw [if_neg (by simp [Value.isTable]), htext]
  generalize (actual.isNil && _) = hidden
  cases hidden with
  | true => exact ⟨_, rfl⟩
  | false => exact ⟨_, rfl⟩

/-- With a failing item, they can be written if its summary can. -/
theorem formatFailureDetail_item {node actual item index reason : Value} {c : Contexts} {r : Nat}
    (hitem : item ≠ .nil) :
    (∃ s, formatFailureDetail yamlDump node c actual
      (.record r [("index", index), ("item", item), ("reason", reason)]) = .ok s) ↔ Summarizes yamlDump item := by
  have hfield : (Value.record r [("index", index), ("item", item), ("reason", reason)]).field "item" = item := by
    cases item <;> rfl
  rw [← summarizeItem_ok_iff]
  unfold formatFailureDetail
  dsimp only
  rw [hfield, if_pos (by simp [Value.isTable, Value.record, hitem])]
  cases summarizeItem yamlDump item with
  | error e => simp [bind, Except.bind]
  | ok text =>
    simp only [bind, Except.bind]
    split
    · exact iff_of_true ⟨_, rfl⟩ ⟨_, rfl⟩
    · exact iff_of_true ⟨_, rfl⟩ ⟨_, rfl⟩

end Failure

/-! ## Verbose details -/

/-- `format_verbose_value`. -/
def formatVerboseValue (key : Str) (value : Value) : Str :=
  match value with
  | .str s => "'" ++ s ++ "'"
  | value => match value.double with
    | some x => if key = "mode" then octalMode x else value.tostring
    | none => value.tostring

/-- `collect_probe_focus_keys`: the keys that an assertion takes of the values of probes, with the names of these. -/
def collectProbeFocusKeys (node : Value) : List (Str × Str) :=
  let here := match node.field "actual", node.field "key" with
    | .str actual, .str key => match probeRef actual with
      | some name => if key = [] then [] else [(name, key)]
      | none => []
    | _, _ => []
  here ++ (node.children "all_of").flatMap (fun child => collectProbeFocusKeys child.1) ++
    (node.children "any_of").flatMap (fun child => collectProbeFocusKeys child.1) ++
    match node.child "expected" with
    | some e => collectProbeFocusKeys e.1
    | none => []
termination_by sizeOf node
decreasing_by
  · exact child.2
  · exact child.2
  · exact e.2

/-- The keys that a summary of a probe value shows first. -/
def verboseKeys : List Str :=
  ["available", "value", "count", "conflicting_count", "found", "compliant", "UnitFileState", "ActiveState", "error",
    "path", "path_type", "user", "name", "uid", "gid", "mode", "shell"]

/-- The item that a summary of a probe value shows: the first of its `details`, or its own first element. -/
def shownItem (value : Value) : Option Value :=
  if (value.field "details").isTable then
    if (value.field "details").ipairs.isEmpty then none else some ((value.field "details").get (.num 1))
  else if (value.get (.num 1)).isNil then none
  else some (value.get (.num 1))

/-- The number of items that it shows. -/
def shownCount (value : Value) : List Str :=
  if !(value.field "count").isNil then []
  else if (value.field "details").isTable then ["count=" ++ natStr (value.field "details").ipairs.length]
  else if (value.get (.num 1)).isNil then []
  else ["count=" ++ natStr value.ipairs.length]

/-- `name=value`. -/
def shownPart (value : Value) (key : Str) : Str := key ++ "=" ++ formatVerboseValue key (value.field key)

/-- The summary of a table without any of the keys that are looked for. -/
def summarizeOther (value : Value) (fields : List (Value × Value)) : Str :=
  let extra := fields.filterMap fun f => match f.1 with
    | .str key => if f.2.isTable then none else some key
    | _ => none
  if 0 < extra.length ∧ extra.length ≤ 4 then
    List.intercalate ", ".toList ((sortStrs extra).map (shownPart value))
  else "table(" ++ natStr fields.length ++ " keys)"

section Verbose

variable (yamlDump : Value → Except Err Str)

/-- The text of the item that is shown. -/
def shownText : Option Value → Except Err (List Str)
  | none => .ok []
  | some item => do
    let first ← summarizeItem yamlDump item
    .ok ["first=" ++ first]

/-- `summarize_probe_value`. -/
def summarizeProbeValue (value : Value) (focusKeys : List Str) : Except Err Str :=
  match value with
  | .table r fields inh =>
    let value := Value.table r fields inh
    if fields.isEmpty then .ok "empty"
    else do
      let keys := (unique (sortStrs focusKeys ++ verboseKeys)).filter fun key => !(value.field key).isNil
      let first ← shownText yamlDump (shownItem value)
      let parts := keys.map (shownPart value) ++ shownCount value ++ first
      if parts.isEmpty then .ok (summarizeOther value fields) else .ok (List.intercalate ", ".toList parts)
  | value => .ok (formatVerboseValue [] value)

/-- The lines of `emit_verbose_rule_details` about the probes. The lines before them name the rule and its reason, which
are texts. -/
def probeLines (focus : List (Str × Str)) (probed : Value) : List Value → Except Err (List Str)
  | [] => .ok []
  | task :: tasks =>
    match task.field "name" with
    | .str name =>
      if (probed.field name).isNil then probeLines focus probed tasks
      else do
        let text ← summarizeProbeValue yamlDump (probed.field name)
          ((focus.filter fun f => f.1 = name).map Prod.snd)
        let rest ← probeLines focus probed tasks
        .ok (("    - " ++ name ++ ": " ++ text) :: rest)
    | _ => probeLines focus probed tasks

/-- `emit_verbose_rule_details`. -/
def emitVerboseRuleDetails (assertion probed : Value) (tasks : List Value) : Except Err (List Str) :=
  probeLines yamlDump (collectProbeFocusKeys assertion) probed tasks

/-- The value of a probe can be shown: the item that stands for it can be written. -/
def ShowsValue (value : Value) : Prop := ∀ fs r inh, value = .table r fs inh → fs ≠ [] →
  ∀ item, shownItem value = some item → Summarizes yamlDump item

/-- The values of the probes can be shown. -/
def Shows (probed : Value) (tasks : List Value) : Prop :=
  ∀ task ∈ tasks, ∀ name, task.field "name" = .str name → ShowsValue yamlDump (probed.field name)

variable {yamlDump}

theorem shownText_ok_iff {item : Option Value} :
    (∃ texts, shownText yamlDump item = .ok texts) ↔ ∀ v, item = some v → Summarizes yamlDump v := by
  cases item with
  | none => simp [shownText]
  | some v =>
    simp only [Option.some.injEq, forall_eq', ← summarizeItem_ok_iff, shownText]
    cases summarizeItem yamlDump v with
    | error e => simp [bind, Except.bind]
    | ok text => simp [bind, Except.bind]

/-- **When the value of a probe can be shown.** -/
theorem summarizeProbeValue_ok_iff {value : Value} {focusKeys : List Str} :
    (∃ s, summarizeProbeValue yamlDump value focusKeys = .ok s) ↔ ShowsValue yamlDump value := by
  unfold ShowsValue
  cases value with
  | table r fields inh =>
    unfold summarizeProbeValue
    dsimp only
    cases hfields : fields.isEmpty with
    | true =>
      refine iff_of_true ⟨_, rfl⟩ fun fs r' inh' h hne => ?_
      cases h
      exact absurd (List.isEmpty_iff.mp hfields) hne
    | false =>
      have hne : fields ≠ [] := fun h => by rw [h] at hfields; cases hfields
      have hshown : (∀ fs r' inh', Value.table r fields inh = .table r' fs inh' → fs ≠ [] →
          ∀ item, shownItem (.table r fields inh) = some item → Summarizes yamlDump item) ↔
            ∀ item, shownItem (.table r fields inh) = some item → Summarizes yamlDump item :=
        ⟨fun h => h fields r inh rfl hne, fun h _ _ _ _ _ => h⟩
      rw [hshown, ← shownText_ok_iff, if_neg Bool.false_ne_true]
      cases shownText yamlDump (shownItem (.table r fields inh)) with
      | error e => simp [bind, Except.bind]
      | ok first =>
        simp only [bind, Except.bind]
        split
        · exact iff_of_true ⟨_, rfl⟩ ⟨_, rfl⟩
        · exact iff_of_true ⟨_, rfl⟩ ⟨_, rfl⟩
  | _ => exact iff_of_true ⟨_, rfl⟩ fun fs r inh h => by cases h

/-- **When the verbose details of a rule can be printed.** -/
theorem emitVerboseRuleDetails_ok_iff {assertion probed : Value} {tasks : List Value} :
    (∃ lines, emitVerboseRuleDetails yamlDump assertion probed tasks = .ok lines) ↔ Shows yamlDump probed tasks := by
  unfold emitVerboseRuleDetails Shows
  generalize collectProbeFocusKeys assertion = focus
  induction tasks with
  | nil => simp [probeLines]
  | cons task tasks ih =>
    rw [List.forall_mem_cons, ← ih, probeLines]
    cases hname : task.field "name" with
    | str name =>
      simp only [Value.str.injEq, forall_eq']
      cases hvalue : (probed.field name).isNil with
      | true =>
        have hnil : ShowsValue yamlDump (probed.field name) := by
          rw [Value.isNil_iff.mp hvalue]
          exact fun fs r inh h => by cases h
        rw [if_pos rfl, and_iff_right hnil]
      | false =>
        rw [if_neg Bool.false_ne_true, ← @summarizeProbeValue_ok_iff yamlDump _
          ((focus.filter fun f => f.1 = name).map Prod.snd)]
        cases summarizeProbeValue yamlDump (probed.field name) ((focus.filter fun f => f.1 = name).map Prod.snd) with
        | error e => simp [bind, Except.bind]
        | ok text =>
          cases probeLines yamlDump focus probed tasks with
          | error e => simp [bind, Except.bind]
          | ok lines => simp [bind, Except.bind]
    | _ => simp

end Verbose

end Seharden
