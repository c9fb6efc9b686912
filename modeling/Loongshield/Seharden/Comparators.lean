import Loongshield.Seharden.Util

/-!
# `comparators.lua`

The comparators of assertions. A comparator gets the actual value and the expected one; `for_all` gets a function of
an element instead. Only two of them can raise: `has_line_matching`, on an expected tree that cannot be read as one
(`LineFault` says when), and `for_all`, when the function it is given does.
-/

namespace Seharden

open Lua

/-- What a comparator returns: its verdict, and a detail for the failure message. -/
abbrev Verdict := Bool × Value

/-! ## Numbers and modes -/

/-- The remainder of Lua: `a - floor(a / b) * b`. -/
def fltMod : Flt → Rat → Flt
  | .fin a, b => .fin (a - ⌊a / b⌋ * b)
  | _, _ => .nan

/-- `math.floor(a / b)`. -/
def fltFloorDiv : Flt → Rat → Flt
  | .fin a, b => .fin ⌊a / b⌋
  | a, _ => a

/-- `to_numbers`, then the comparison. -/
def compareNumbers (op : Flt → Flt → Bool) (a e : Value) : Bool :=
  match tonumber a, tonumber e with
  | some x, some y => op x y
  | _, _ => false

/-- `split_permission_digits`. -/
def splitPermissionDigits (mode : Value) : Option (List Flt) :=
  match tonumber mode with
  | none => none
  | some m =>
    if m.lt (.fin 0) then none
    else some [fltMod (fltFloorDiv m 512) 8, fltMod (fltFloorDiv m 64) 8, fltMod (fltFloorDiv m 8) 8, fltMod m 8]

/-- `digit_is_subset`. -/
def digitIsSubset (actual expected : Flt) : Bool :=
  [4, 2, 1].all fun bit : Rat =>
    let actualHasBit := (Flt.fin bit).le (fltMod actual (bit * 2))
    let expectedHasBit := (Flt.fin bit).le (fltMod expected (bit * 2))
    !(actualHasBit && !expectedHasBit)

/-- `mode_is_no_more_permissive`. -/
def modeIsNoMorePermissive (a e : Value) : Bool :=
  match splitPermissionDigits a, splitPermissionDigits e with
  | some as, some es => (as.zip es).all fun d => digitIsSubset d.1 d.2
  | _, _ => false

/-- `has_key`. -/
def hasKey (tbl key : Value) : Bool := tbl.isTable && !(tbl.get key).isNil

/-! ## `has_line_matching` -/

/-- A loop over a list that stops at the first element with the verdict `stop`. -/
def untilVerdict {α : Type} (stop : Bool) (f : α → Except Err Bool) : List α → Except Err Bool
  | [] => .ok !stop
  | x :: xs => match f x with
    | .ok b => if b = stop then .ok stop else untilVerdict stop f xs
    | .error e => .error e

/-- `ipairs(v)`, which raises unless `v` is a table. -/
def ipairsArg : Value → Except Err (List Value)
  | .table r fs inh => .ok (Value.ipairs (.table r fs inh))
  | v => .error ("bad argument #1 to 'ipairs' (table expected, got " ++ v.typeName ++ ")")

/-- `if node.name then for _, child in ipairs(node.name)`: the children under a field of a tree node, none if the
field is false or missing. -/
def childNodes (node : Value) (name : Str) : Except Err (Option (List { c : Value // sizeOf c < sizeOf node })) := do
  let v ← node.index (.str name)
  if v.truthy then (ipairsArg v).map fun _ => some (node.children name) else .ok none

theorem childNodes_none {node : Value} {name : Str} (ht : node.isTable = true) (h : (node.field name).truthy = false) :
    childNodes node name = .ok none := by
  unfold childNodes
  rw [Value.index_of_isTable ht]
  simp only [bind, Except.bind, h, Bool.false_eq_true, ↓reduceIte]

theorem childNodes_list {node : Value} {name : Str} (ht : node.isTable = true)
    (h : (node.field name).isTable = true) : childNodes node name = .ok (some (node.children name)) := by
  unfold childNodes
  rw [Value.index_of_isTable ht]
  cases hv : node.field name with
  | table r fs inh => rfl
  | _ => rw [hv] at h; cases h

theorem childNodes_error {node : Value} {name : Str} (ht : node.isTable = true)
    (h : (node.field name).truthy = true) (hl : (node.field name).isTable = false) :
    ∃ e, childNodes node name = .error e := by
  unfold childNodes
  rw [Value.index_of_isTable ht]
  simp only [bind, Except.bind, h, ↓reduceIte]
  cases hv : node.field name with
  | table r fs inh => rw [hv] at hl; cases hl
  | _ => exact ⟨_, rfl⟩

theorem sizeOf_mem_field {node c : Value} {name : Str} (ht : node.isTable = true) (h : c ∈ (node.field name).ipairs) :
    sizeOf c < sizeOf node := by
  cases node with
  | table r fs inh => exact Nat.lt_trans (Value.sizeOf_ipairs h) (Value.sizeOf_get r fs inh _)
  | _ => cases ht

/-- `line:match(pattern)` as a condition: a number is its numeral, any other value than a string raises. -/
def lineMatch (line : Str) : Value → Except Err Bool
  | .str p => (strMatch line p).map Option.isSome
  | .num q => (strMatch line (fmtNumber q)).map Option.isSome
  | .inf neg => (strMatch line (Value.inf neg).tostring).map Option.isSome
  | .nan => (strMatch line Value.nan.tostring).map Option.isSome
  | v => .error ("bad argument #1 to 'match' (string expected, got " ++ v.typeName ++ ")")

/-- The local `evaluate` of `has_line_matching`. -/
def evaluateLine (line node : Value) : Except Err Bool := do
  match ← childNodes node "all_of" with
  | some children => untilVerdict false (fun c => evaluateLine line c.1) children
  | none => match ← childNodes node "any_of" with
    | some children => untilVerdict true (fun c => evaluateLine line c.1) children
    | none =>
      let pattern ← node.index (.str "pattern")
      match pattern.truthy, line with
      | true, .str s => lineMatch s pattern
      | _, _ => .ok false
termination_by sizeOf node
decreasing_by all_goals exact c.2

/-- The ways in which the local `evaluate` raises on a line: a node that cannot be indexed, a list of children that is
no table, a pattern that `string.match` rejects on this line; or one of these at a child, when the children before it
did not decide. -/
inductive LineFault (line : Value) : Value → Prop
  | node {node : Value} (h : node.indexable = false) : LineFault line node
  | allOfArg {node : Value} (ht : node.isTable = true) (h : (node.field "all_of").truthy = true)
      (hl : (node.field "all_of").isTable = false) : LineFault line node
  | allOf {node child : Value} {pre post : List Value} (ht : node.isTable = true)
      (hl : (node.field "all_of").isTable = true) (hs : (node.field "all_of").ipairs = pre ++ child :: post)
      (hp : ∀ x ∈ pre, evaluateLine line x = .ok true) (hf : LineFault line child) : LineFault line node
  | anyOfArg {node : Value} (ht : node.isTable = true) (ha : (node.field "all_of").truthy = false)
      (h : (node.field "any_of").truthy = true) (hl : (node.field "any_of").isTable = false) : LineFault line node
  | anyOf {node child : Value} {pre post : List Value} (ht : node.isTable = true)
      (ha : (node.field "all_of").truthy = false) (hl : (node.field "any_of").isTable = true)
      (hs : (node.field "any_of").ipairs = pre ++ child :: post)
      (hp : ∀ x ∈ pre, evaluateLine line x = .ok false) (hf : LineFault line child) : LineFault line node
  | pattern {node : Value} {s : Str} {e : Err} (ht : node.isTable = true)
      (ha : (node.field "all_of").truthy = false) (hb : (node.field "any_of").truthy = false)
      (hp : (node.field "pattern").truthy = true) (hl : line = .str s)
      (hm : lineMatch s (node.field "pattern") = .error e) : LineFault line node

/-- A loop that stops at a verdict raises at an element that is reached. -/
theorem untilVerdict_error {α : Type} {stop : Bool} {f : α → Except Err Bool} {e : Err} :
    ∀ {xs : List α}, untilVerdict stop f xs = .error e ↔
      ∃ pre x post, xs = pre ++ x :: post ∧ (∀ y ∈ pre, f y = .ok !stop) ∧ f x = .error e
  | [] => by simp [untilVerdict]
  | x :: xs => by
    constructor
    · intro h
      unfold untilVerdict at h
      split at h
      · rename_i b hb
        split at h
        · cases h
        · rename_i hne
          obtain ⟨pre, y, post, rfl, hpre, hy⟩ := untilVerdict_error.mp h
          refine ⟨x :: pre, y, post, rfl, ?_, hy⟩
          intro z hz
          rcases List.mem_cons.mp hz with rfl | hz
          · rw [hb]; congr 1; cases b <;> cases stop <;> simp_all
          · exact hpre z hz
      · rename_i e' he
        cases h
        exact ⟨[], x, xs, rfl, by simp, he⟩
    · rintro ⟨pre, y, post, hxs, hpre, hy⟩
      cases pre with
      | nil =>
        obtain ⟨rfl, rfl⟩ := List.cons.inj hxs
        simp only [untilVerdict, hy]
      | cons z pre =>
        obtain ⟨rfl, rfl⟩ := List.cons.inj hxs
        have hz := hpre x List.mem_cons_self
        have hne : ¬ (!stop) = stop := by cases stop <;> simp
        simp only [untilVerdict, hz, hne, ↓reduceIte]
        exact untilVerdict_error.mpr ⟨pre, y, post, rfl, fun w hw => hpre w (List.mem_cons_of_mem _ hw), hy⟩

theorem untilVerdict_val {stop : Bool} {p : Value → Prop} (f : Value → Except Err Bool) (l : List { v // p v }) :
    untilVerdict stop (fun x => f x.1) l = untilVerdict stop f (l.map Subtype.val) := by
  induction l with
  | nil => rfl
  | cons x xs ih => simp only [List.map_cons, untilVerdict, ih]

/-- A string has no field of a tree node, so it matches no line. -/
theorem evaluateLine_str (line : Value) (s : Str) : evaluateLine line (.str s) = .ok false := by
  have h : ∀ name ∉ Value.stringLib, (Value.str s).index (.str name) = .ok .nil := fun name hn => by
    simp [Value.index, hn]
  have hc : ∀ name ∉ Value.stringLib, childNodes (.str s) name = .ok none := fun name hn => by
    unfold childNodes
    rw [h name hn]
    rfl
  rw [evaluateLine, hc _ (by decide), hc _ (by decide), h _ (by decide)]
  rfl

theorem evaluateLine_not_indexable {line node : Value} (h : node.indexable = false) :
    ∃ e, evaluateLine line node = .error e := by
  have hi : ∃ e, node.index (.str "all_of") = .error e := by
    cases node with
    | table r fs inh => cases h
    | str s => cases h
    | _ => exact ⟨_, rfl⟩
  obtain ⟨e, he⟩ := hi
  refine ⟨e, ?_⟩
  rw [evaluateLine]
  unfold childNodes
  rw [he]
  rfl

/-- **When a line raises.** -/
theorem evaluateLine_error_iff {line : Value} (node : Value) :
    (∃ e, evaluateLine line node = .error e) ↔ LineFault line node := by
  constructor
  · rintro ⟨e, h⟩
    by_cases hn : node.isTable = true
    · rw [evaluateLine] at h
      by_cases ha : (node.field "all_of").truthy = true
      · cases hl : (node.field "all_of").isTable with
        | false => exact .allOfArg hn ha hl
        | true =>
          rw [childNodes_list hn hl] at h
          obtain ⟨pre, c, post, hs, hp, hc⟩ := untilVerdict_error.mp ((untilVerdict_val _ _).symm.trans h)
          rw [Value.children_val] at hs
          have hlt : sizeOf c < sizeOf node := sizeOf_mem_field hn (by rw [hs]; simp)
          exact .allOf hn hl hs hp ((evaluateLine_error_iff c).mp ⟨e, hc⟩)
      · rw [Bool.not_eq_true] at ha
        rw [childNodes_none hn ha] at h
        by_cases hb : (node.field "any_of").truthy = true
        · cases hl : (node.field "any_of").isTable with
          | false => exact .anyOfArg hn ha hb hl
          | true =>
            simp only [bind, Except.bind, childNodes_list hn hl] at h
            obtain ⟨pre, c, post, hs, hp, hc⟩ := untilVerdict_error.mp ((untilVerdict_val _ _).symm.trans h)
            rw [Value.children_val] at hs
            have hlt : sizeOf c < sizeOf node := sizeOf_mem_field hn (by rw [hs]; simp)
            exact .anyOf hn ha hl hs hp ((evaluateLine_error_iff c).mp ⟨e, hc⟩)
        · rw [Bool.not_eq_true] at hb
          simp only [bind, Except.bind, childNodes_none hn hb, Value.index_of_isTable hn] at h
          split at h
          · rename_i s hp
            exact .pattern hn ha hb hp rfl h
          · cases h
    · cases node with
      | table r fs inh => exact absurd rfl hn
      | str s =>
        rw [evaluateLine_str] at h
        cases h
      | _ => exact .node rfl
  · intro h
    induction h with
    | node h => exact evaluateLine_not_indexable h
    | allOfArg ht h hl =>
      obtain ⟨e, he⟩ := childNodes_error ht h hl
      exact ⟨e, by rw [evaluateLine, he]; rfl⟩
    | allOf ht hl hs hp hf ih =>
      obtain ⟨e, he⟩ := ih
      rw [evaluateLine, childNodes_list ht hl]
      exact ⟨e, (untilVerdict_val _ _).trans (untilVerdict_error.mpr
        ⟨_, _, _, (Value.children_val _ _).trans hs, hp, he⟩)⟩
    | anyOfArg ht ha h hl =>
      obtain ⟨e, he⟩ := childNodes_error ht h hl
      exact ⟨e, by rw [evaluateLine, childNodes_none ht ha, he]; rfl⟩
    | anyOf ht ha hl hs hp hf ih =>
      obtain ⟨e, he⟩ := ih
      rw [evaluateLine, childNodes_none ht ha, childNodes_list ht hl]
      exact ⟨e, (untilVerdict_val _ _).trans (untilVerdict_error.mpr
        ⟨_, _, _, (Value.children_val _ _).trans hs, hp, he⟩)⟩
    | @pattern node s e ht ha hb hp hl hm =>
      subst hl
      rw [evaluateLine, childNodes_none ht ha, childNodes_none ht hb, Value.index_of_isTable ht]
      exact ⟨e, by simp only [bind, Except.bind, hp]; exact hm⟩
termination_by sizeOf node

/-- `has_line_matching`. -/
def hasLineMatching (actualLines tree : Value) : Except Err Bool :=
  if actualLines.isTable then untilVerdict true (fun line => evaluateLine line tree) actualLines.ipairs
  else .ok false

/-- A line that is reached raises: the lines before it did not match. -/
def LinesFault (lines tree : Value) : Prop :=
  ∃ pre line post, lines.ipairs = pre ++ line :: post ∧ (∀ x ∈ pre, evaluateLine x tree = .ok false) ∧
    LineFault line tree

/-- **When `has_line_matching` raises.** -/
theorem hasLineMatching_error_iff {lines tree : Value} :
    (∃ e, hasLineMatching lines tree = .error e) ↔ LinesFault lines tree := by
  unfold hasLineMatching LinesFault
  cases lines with
  | table r fs inh =>
    simp only [Value.isTable, ↓reduceIte, untilVerdict_error]
    constructor
    · rintro ⟨e, pre, line, post, hs, hp, hl⟩
      exact ⟨pre, line, post, hs, hp, (evaluateLine_error_iff tree).mp ⟨e, hl⟩⟩
    · rintro ⟨pre, line, post, hs, hp, hf⟩
      obtain ⟨e, he⟩ := (evaluateLine_error_iff tree).mpr hf
      exact ⟨e, pre, line, post, hs, hp, he⟩
  | _ => simp [Value.isTable, Value.ipairs]

/-! ## `for_all` -/

/-- The loop of `for_all`: `index` is the position of the next element. -/
def forAllFrom (f : Value → Except Err Verdict) : Nat → List Value → Except Err Verdict
  | _, [] => .ok (true, .nil)
  | index, item :: items => match f item with
    | .error e => .error e
    | .ok (true, _) => forAllFrom f (index + 1) items
    | .ok (false, err) => .ok (false, .record 0 [("index", .num index), ("item", item), ("reason", err)])

/-- `for_all`. -/
def forAll (actualList : Value) (f : Value → Except Err Verdict) : Except Err Verdict :=
  if actualList.isTable then forAllFrom f 1 actualList.ipairs else .ok (false, .nil)

/-! ## The comparator table -/

/-- The comparators that compare the actual value with an expected value. -/
inductive Comparator
  | isFalsy
  | isTruthy
  | isFalse
  | isTrue
  | equals
  | isNotEqualTo
  | isGreaterThan
  | isGreaterThanOrEqualTo
  | isLessThan
  | isLessThanOrEqualTo
  | modeIsNoMorePermissive
  | hasKey
  | hasLineMatching
deriving DecidableEq

/-- An entry of the comparator table. -/
inductive Entry
  | value (c : Comparator)
  | forAll
deriving DecidableEq

/-- The comparator table, by name. -/
def comparatorTable : List (Str × Entry) :=
  [("is_falsy", .value .isFalsy), ("is_truthy", .value .isTruthy), ("is_false", .value .isFalse),
    ("is_true", .value .isTrue), ("equals", .value .equals), ("is_not_equal_to", .value .isNotEqualTo),
    ("is_greater_than", .value .isGreaterThan),
    ("is_greater_than_or_equal_to", .value .isGreaterThanOrEqualTo),
    ("is_less_than", .value .isLessThan), ("is_less_than_or_equal_to", .value .isLessThanOrEqualTo),
    ("mode_is_no_more_permissive", .value .modeIsNoMorePermissive), ("has_key", .value .hasKey),
    ("has_line_matching", .value .hasLineMatching), ("for_all", .forAll)]

/-- `comparators[name]`. -/
def comparators : Value → Option Entry
  | .str name => comparatorTable.lookup name
  | _ => none

/-- `for_all` is the one entry that takes a function. -/
theorem comparators_forAll {name : Str} : comparators (.str name) = some .forAll ↔ name = "for_all".toList := by
  constructor
  · intro h
    obtain ⟨l₁, l₂, hl, -⟩ := List.lookup_eq_some_iff.mp h
    have hm : (name, Entry.forAll) ∈ comparatorTable := by rw [hl]; simp
    simpa [comparatorTable] using hm
  · rintro rfl
    decide

/-- A comparator on the actual and the expected value. -/
def Comparator.apply : Comparator → Value → Value → Except Err Bool
  | .isFalsy, a, _ => .ok !a.truthy
  | .isTruthy, a, _ => .ok a.truthy
  | .isFalse, a, _ => .ok (a.rawEq (.bool false))
  | .isTrue, a, _ => .ok (a.rawEq (.bool true))
  | .equals, a, e => .ok (a.rawEq e)
  | .isNotEqualTo, a, e => .ok !a.rawEq e
  | .isGreaterThan, a, e => .ok (compareNumbers (fun x y => y.lt x) a e)
  | .isGreaterThanOrEqualTo, a, e => .ok (compareNumbers (fun x y => y.le x) a e)
  | .isLessThan, a, e => .ok (compareNumbers Flt.lt a e)
  | .isLessThanOrEqualTo, a, e => .ok (compareNumbers Flt.le a e)
  | .modeIsNoMorePermissive, a, e => .ok (Seharden.modeIsNoMorePermissive a e)
  | .hasKey, a, e => .ok (Seharden.hasKey a e)
  | .hasLineMatching, a, e => Seharden.hasLineMatching a e

/-- **When a comparator raises**: only `has_line_matching` does. -/
theorem Comparator.apply_error_iff {cmp : Comparator} {a e : Value} :
    (∃ m, cmp.apply a e = .error m) ↔ cmp = .hasLineMatching ∧ LinesFault a e := by
  cases cmp with
  | hasLineMatching => simpa [Comparator.apply] using hasLineMatching_error_iff
  | _ => simp [Comparator.apply]

end Seharden
