import Loongshield.Lib.Group
import Loongshield.Lua.Split
import Loongshield.Seharden.Trim
import Loongshield.Seharden.View
import Mathlib.Algebra.Order.BigOperators.Group.List

/-!
# `find_duplicate_values_in_field` of `probes/file.lua`

The lines of a file are split at a delimiter; a key that stands in one field of several lines is reported with the
values in another field of them.

- `findDuplicateValuesInField`: the probe;
- `carried`: what a line carries, split at every occurrence of the delimiter;
- `lineParts_eq`: the probe takes all fields but the last;
- `duplicates_complete_iff`: when it reports what the lines carry.
-/

namespace Seharden
namespace Duplicates

open Lua Pattern

/-! ## The probe -/

/-- The parameters that are needed are there; `delimiter` and `match_key` may be missing. -/
structure Params where
  path : Str
  delimiter : Option Str
  matchKey : Option Str
  keyName : Str
  fieldIndex : Nat
  valueIndex : Nat

/-- `tonumber(key) or key`. -/
inductive ShownKey
  | number (n : Flt)
  | text (s : Str)
  deriving DecidableEq

/-- How a key is shown. -/
def shownKey (key : Str) : ShownKey :=
  match tonumber (.str key) with
  | some n => .number n
  | none => .text key

/-- An entry of the details; the values are gone if they were stored under the name of the key. -/
structure Entry where
  keyName : Str
  key : ShownKey
  values : Option (List Str)
  deriving DecidableEq

namespace Params

variable (params : Params)

/-- `params.delimiter or ':'`. -/
def delim : Str := params.delimiter.getD ":"

/-- `delimiter:gsub('([%^$()%%.[]*+?-])', '%%%1')`; the set ends at its first bracket. -/
def safeDelimiter : Except Err Str :=
  gsub params.delim "([%^$()%%.[]*+?-])" fun caps => '%' :: (caps.headD .nil).tostring

/-- The fields of a line; `table.remove` drops the last one. -/
def lineParts (safe line : Str) : Except Err (List Str) :=
  (gmatch (line ++ params.delim) ("(.-)" ++ safe)).map fun parts =>
    (parts.map fun part => (part.headD .nil).tostring).dropLast

/-- `parts[index]`. -/
def partAt (parts : List Str) : Nat → Option Str
  | 0 => none
  | index + 1 => parts[index]?

/-- The body of the loop over the lines. -/
def scanLine (safe : Str) (table : List (Str × List Str)) (line : Str) : Except Err (List (Str × List Str)) :=
  if isMatch line "^#" || !isMatch line "." then .ok table
  else do
    let parts ← params.lineParts safe line
    if params.fieldIndex ≤ parts.length ∧ params.valueIndex ≤ parts.length then
      let key := partAt parts params.fieldIndex
      if params.matchKey = none ∨ key = params.matchKey then
        match key, partAt parts params.valueIndex with
        | none, _ => .error "table index is nil"
        | some key, some value => .ok (Group.add key value table)
        | some _, none => .ok table -- the list under the key stays empty
      else .ok table
    else .ok table

/-- `entry[params.key_name] = tonumber(key) or key`, on the table of the values. -/
def entry (key : Str) (values : List Str) : Entry where
  keyName := params.keyName
  key := shownKey key
  values := if params.keyName = "values".toList then none else some values

/-- The loop over the table. -/
def duplicates (table : List (Str × List Str)) : List Entry :=
  (table.filter fun group => 1 < group.2.length).map fun group => params.entry group.1 group.2

end Params

/-- `find_duplicate_values_in_field`: the details; their number is the `count`. -/
def findDuplicateValuesInField (view : View) (params : Params) : Except Err (Except Str (List Entry)) :=
  match view.lines params.path with
  | .error err => .ok (.error ("Could not open file '" ++ params.path ++ "': " ++ err))
  | .ok lines => do
    let safe ← params.safeDelimiter
    let table ← lines.foldlM (params.scanLine safe) []
    return .ok (params.duplicates table)

/-! ## What the lines carry -/

/-- A line that counts: not empty, and no comment. -/
def Counted (line : Str) : Prop := line ≠ [] ∧ line.head? ≠ some '#'

instance (line : Str) : Decidable (Counted line) := inferInstanceAs (Decidable (_ ∧ _))

namespace Params

variable (params : Params)

/-- The key and the value of a line that has both fields. -/
def carried (line : Str) : Option (Str × Str) :=
  if Counted line then
    match partAt (pieces params.delim line) params.fieldIndex, partAt (pieces params.delim line) params.valueIndex with
    | some key, some value => if params.matchKey = none ∨ some key = params.matchKey then some (key, value) else none
    | _, _ => none
  else none

/-- The values that the lines carry under a key, in order. -/
def valuesOf (lines : List Str) (key : Str) : List Str := Group.valuesOf (lines.filterMap params.carried) key

/-- The probe reports every key that two lines carry, once, with the values of its lines. -/
def Detects (view : View) (lines : List Str) : Prop :=
  ∃ details, findDuplicateValuesInField view params = .ok (.ok details) ∧
    ∃ keys : List Str, keys.Nodup ∧ (∀ key, key ∈ keys ↔ 2 ≤ (params.valuesOf lines key).length) ∧
      details = keys.map fun key => ⟨params.keyName, shownKey key, some (params.valuesOf lines key)⟩

/-- The delimiter stands for itself in the pattern. -/
def Literal : Prop := ∃ safe cs, params.safeDelimiter = .ok safe ∧ Spells cs params.delim ∧
  compile ("(.-)" ++ safe) = .capOpen :: .single .any .minus :: .capClose :: cs.map (.single · .one)

/-- The line has a field behind the two. -/
def Behind (line : Str) : Prop :=
  params.fieldIndex < (pieces params.delim line).length ∧ params.valueIndex < (pieces params.delim line).length

instance (params : Params) (line : Str) : Decidable (params.Behind line) := inferInstanceAs (Decidable (_ ∧ _))

/-- No line of a key that two lines carry ends with one of the two fields, and the values are not overwritten. -/
def Inner (lines : List Str) : Prop :=
  ∀ key, 2 ≤ (params.valuesOf lines key).length → params.keyName ≠ "values".toList ∧
    ∀ line ∈ lines, ∀ value, params.carried line = some (key, value) → params.Behind line

end Params

/-! ## What the probe takes of a line -/

namespace Params

variable {params : Params}

/-- The key and the value of a line whose last field is behind both. -/
def taken (params : Params) (line : Str) : Option (Str × Str) :=
  if params.Behind line then params.carried line else none

theorem partAt_dropLast (parts : List Str) {index : Nat} (hpos : 0 < index) :
    partAt parts.dropLast index = if index < parts.length then partAt parts index else none := by
  obtain ⟨index, rfl⟩ := Nat.exists_eq_succ_of_ne_zero (Nat.pos_iff_ne_zero.mp hpos)
  show parts.dropLast[index]? = if index + 1 < parts.length then parts[index]? else none
  rw [List.getElem?_dropLast]
  by_cases h : index < parts.length - 1
  · rw [if_pos h, if_pos (by omega)]
  · rw [if_neg h, if_neg (by omega)]

theorem partAt_isSome {parts : List Str} {index : Nat} (hpos : 0 < index) :
    (∃ part, partAt parts index = some part) ↔ index ≤ parts.length := by
  obtain ⟨index, rfl⟩ := Nat.exists_eq_succ_of_ne_zero (Nat.pos_iff_ne_zero.mp hpos)
  show (∃ part, parts[index]? = some part) ↔ index + 1 ≤ parts.length
  simp only [List.getElem?_eq_some_iff, Nat.succ_le_iff, exists_comm, exists_eq']
  simp

/-- **The fields**: all but the last one. -/
theorem lineParts_eq {safe : Str} {cs : List Single} (hne : params.delim ≠ []) (hcs : Spells cs params.delim)
    (hpat : compile ("(.-)" ++ safe) = .capOpen :: .single .any .minus :: .capClose :: cs.map (.single · .one))
    (line : Str) : params.lineParts safe line = .ok (pieces params.delim line).dropLast := by
  unfold lineParts
  rw [gmatch_cut hne hcs hpat]
  have hid : (fun part : List Value => (part.headD .nil).tostring) ∘ (fun w => [Value.str w]) = id := rfl
  simp only [Except.map, List.map_map, hid, List.map_id, pieces_append hne]

theorem skipped_iff (line : Str) : (isMatch line "^#" || !isMatch line ".") = true ↔ ¬Counted line := by
  rw [isMatch_hash, isMatch_any]
  cases line with
  | nil => simp [Counted]
  | cons x line => simp [Counted]

/-- **One line**: what is taken of it is added to the table. -/
theorem scanLine_eq {safe : Str} {cs : List Single} (hne : params.delim ≠ []) (hcs : Spells cs params.delim)
    (hpat : compile ("(.-)" ++ safe) = .capOpen :: .single .any .minus :: .capClose :: cs.map (.single · .one))
    (hfield : 0 < params.fieldIndex) (hvalue : 0 < params.valueIndex) (table : List (Str × List Str)) (line : Str) :
    params.scanLine safe table line =
      .ok ((params.taken line).elim table fun pair => Group.add pair.1 pair.2 table) := by
  unfold scanLine taken carried
  by_cases hcounted : Counted line
  · rw [if_neg fun h => (skipped_iff line).mp h hcounted, lineParts_eq hne hcs hpat, if_pos hcounted]
    simp only [bind, Except.bind, List.length_dropLast]
    by_cases hlen : params.Behind line
    · have ⟨hf, hv⟩ := hlen
      obtain ⟨key, hkey⟩ := (@partAt_isSome (pieces params.delim line) _ hfield).mpr (by omega)
      obtain ⟨value, hval⟩ := (@partAt_isSome (pieces params.delim line) _ hvalue).mpr (by omega)
      rw [if_pos (by omega), if_pos hlen, partAt_dropLast _ hfield, partAt_dropLast _ hvalue, if_pos hf,
        if_pos hv, hkey, hval]
      dsimp only
      by_cases hmatch : params.matchKey = none ∨ some key = params.matchKey
      · rw [if_pos hmatch, if_pos hmatch]
        rfl
      · rw [if_neg hmatch, if_neg hmatch]
        rfl
    · rw [if_neg fun h => hlen ⟨by omega, by omega⟩, if_neg hlen]
      rfl
  · rw [if_pos ((skipped_iff line).mpr hcounted), if_neg hcounted, ite_self]
    rfl

/-- **All lines**: the table groups what is taken of them. -/
theorem foldlM_scanLine {safe : Str} {cs : List Single} (hne : params.delim ≠ []) (hcs : Spells cs params.delim)
    (hpat : compile ("(.-)" ++ safe) = .capOpen :: .single .any .minus :: .capClose :: cs.map (.single · .one))
    (hfield : 0 < params.fieldIndex) (hvalue : 0 < params.valueIndex) {pairs : List (Str × Str)}
    {table : List (Str × List Str)} (hgroups : Group.Groups pairs table) (lines : List Str) :
    ∃ table', lines.foldlM (params.scanLine safe) table = .ok table' ∧
      Group.Groups (pairs ++ lines.filterMap params.taken) table' := by
  induction lines generalizing pairs table with
  | nil => exact ⟨table, rfl, by simpa using hgroups⟩
  | cons line lines ih =>
    rw [List.foldlM_cons, scanLine_eq hne hcs hpat hfield hvalue]
    cases htaken : params.taken line with
    | none =>
      rw [List.filterMap_cons_none htaken]
      exact ih hgroups
    | some pair =>
      rw [List.filterMap_cons_some htaken, List.append_cons]
      exact ih (hgroups.add pair.1 pair.2)

end Params

/-! ## When the report is complete -/

theorem eq_of_sum_eq {α : Type} {f g : α → Nat} {l : List α} (hle : ∀ x ∈ l, f x ≤ g x)
    (hsum : (l.map f).sum = (l.map g).sum) : ∀ x ∈ l, f x = g x := by
  induction l with
  | nil => exact fun x hx => absurd hx List.not_mem_nil
  | cons x l ih =>
    obtain ⟨hx, hl⟩ := List.forall_mem_cons.mp hle
    have htail : (l.map f).sum ≤ (l.map g).sum := List.sum_le_sum hl
    rw [List.map_cons, List.map_cons, List.sum_cons, List.sum_cons] at hsum
    exact List.forall_mem_cons.mpr ⟨by omega, ih hl (by omega)⟩

theorem filterMap_sublist {α β : Type} {f g : α → Option β} {l : List α} (h : ∀ x ∈ l, ∀ y, f x = some y →
    g x = some y) :
    (l.filterMap f).Sublist (l.filterMap g) := by
  induction l with
  | nil => exact List.Sublist.slnil
  | cons x l ih =>
    obtain ⟨hx, hl⟩ := List.forall_mem_cons.mp h
    cases hf : f x with
    | some y =>
      rw [List.filterMap_cons_some hf, List.filterMap_cons_some (hx y hf)]
      exact (ih hl).cons_cons y
    | none =>
      rw [List.filterMap_cons_none hf]
      cases hg : g x with
      | none => rw [List.filterMap_cons_none hg]; exact ih hl
      | some y => rw [List.filterMap_cons_some hg]; exact (ih hl).cons y

/-- Nothing is left out of a filter that gives as many. -/
theorem filterMap_eq_of_length {α β : Type} {f g : α → Option β} {l : List α}
    (h : ∀ x ∈ l, ∀ y, f x = some y → g x = some y) (hlen : (l.filterMap f).length = (l.filterMap g).length) :
    ∀ x ∈ l, f x = g x := by
  induction l with
  | nil => exact fun x hx => absurd hx List.not_mem_nil
  | cons x l ih =>
    obtain ⟨hx, hl⟩ := List.forall_mem_cons.mp h
    have htail := (filterMap_sublist hl).length_le
    cases hf : f x with
    | some y =>
      rw [List.filterMap_cons_some hf, List.filterMap_cons_some (hx y hf), List.length_cons, List.length_cons] at hlen
      exact List.forall_mem_cons.mpr ⟨by rw [hf, hx y hf], ih hl (by omega)⟩
    | none =>
      rw [List.filterMap_cons_none hf] at hlen
      cases hg : g x with
      | none =>
        rw [List.filterMap_cons_none hg] at hlen
        exact List.forall_mem_cons.mpr ⟨by rw [hf, hg], ih hl hlen⟩
      | some y =>
        rw [List.filterMap_cons_some hg, List.length_cons] at hlen
        omega

namespace Params

variable {params : Params}

/-- A key and its value in a pair. -/
def under (key : Str) (pair : Str × Str) : Option Str := if pair.1 = key then some pair.2 else none

theorem valuesOf_filterMap (f : Str → Option (Str × Str)) (lines : List Str) (key : Str) :
    Group.valuesOf (lines.filterMap f) key = lines.filterMap fun line => (f line).bind (under key) :=
  List.filterMap_filterMap

theorem under_taken {line key value : Str} (h : (params.taken line).bind (under key) = some value) :
    (params.carried line).bind (under key) = some value := by
  unfold taken at h
  split at h
  · exact h
  · cases h

/-- The values that are taken of the lines under a key. -/
def takenOf (params : Params) (lines : List Str) (key : Str) : List Str :=
  Group.valuesOf (lines.filterMap params.taken) key

theorem takenOf_sublist (lines : List Str) (key : Str) :
    (params.takenOf lines key).Sublist (params.valuesOf lines key) := by
  rw [takenOf, valuesOf, valuesOf_filterMap, valuesOf_filterMap]
  exact filterMap_sublist fun line _ value h => under_taken h

/-- All values of a key are taken iff every line of the key has a field behind the two. -/
theorem takenOf_eq_iff (lines : List Str) (key : Str) : params.takenOf lines key = params.valuesOf lines key ↔
    ∀ line ∈ lines, ∀ value, params.carried line = some (key, value) → params.Behind line := by
  rw [takenOf, valuesOf, valuesOf_filterMap, valuesOf_filterMap]
  constructor
  · intro heq line hline value hcarried
    have hpoint := filterMap_eq_of_length (fun line _ value h => under_taken h) (congrArg List.length heq) line hline
    by_contra hbehind
    rw [taken, if_neg hbehind, hcarried] at hpoint
    simp [under] at hpoint
  · intro hall
    refine List.filterMap_congr fun line hline => ?_
    cases hcarried : params.carried line with
    | none => rw [taken, hcarried, ite_self]
    | some pair =>
      rw [taken, hcarried]
      by_cases hkey : pair.1 = key
      · rw [if_pos (hall line hline pair.2 (by rw [hcarried, ← hkey]))]
      · split <;> simp [under, hkey]

end Params

section Report

variable {params : Params} {view : View} {lines : List Str}

/-- What is reported of a table. -/
theorem duplicates_eq {table : List (Str × List Str)} (h : Group.Groups (lines.filterMap params.taken) table) :
    ∃ keys : List Str, keys.Nodup ∧ (∀ key, key ∈ keys ↔ 2 ≤ (params.takenOf lines key).length) ∧
      params.duplicates table = keys.map fun key => params.entry key (params.takenOf lines key) := by
  have hvalues : ∀ group ∈ table, group.2 = params.takenOf lines group.1 := fun group hgroup =>
    ((h.mem group.1 group.2).mp hgroup).1
  refine ⟨(table.filter fun group => 1 < group.2.length).map Prod.fst,
    (List.filter_sublist.map Prod.fst).nodup h.nodup, fun key => ?_, ?_⟩
  · constructor
    · intro hkey
      obtain ⟨group, hgroup, rfl⟩ := List.mem_map.mp hkey
      obtain ⟨hgroup, hlen⟩ := List.mem_filter.mp hgroup
      rw [← hvalues group hgroup]
      exact of_decide_eq_true hlen
    · intro hlen
      have hne : params.takenOf lines key ≠ [] := List.ne_nil_of_length_pos (by omega)
      exact List.mem_map.mpr ⟨(key, params.takenOf lines key),
        List.mem_filter.mpr ⟨(h.mem key _).mpr ⟨rfl, hne⟩, decide_eq_true (by exact hlen)⟩, rfl⟩
  · unfold Params.duplicates
    rw [List.map_map]
    refine List.map_congr_left fun group hgroup => ?_
    show params.entry group.1 group.2 = params.entry group.1 (params.takenOf lines group.1)
    rw [← hvalues group (List.mem_filter.mp hgroup).1]

/-- What is reported of the lines of a file. -/
theorem find_eq (hne : params.delim ≠ []) (hliteral : params.Literal) (hfield : 0 < params.fieldIndex)
    (hvalue : 0 < params.valueIndex) (hlines : view.lines params.path = .ok lines) :
    ∃ keys : List Str, keys.Nodup ∧ (∀ key, key ∈ keys ↔ 2 ≤ (params.takenOf lines key).length) ∧
      findDuplicateValuesInField view params =
        .ok (.ok (keys.map fun key => params.entry key (params.takenOf lines key))) := by
  obtain ⟨safe, cs, hsafe, hcs, hpat⟩ := hliteral
  obtain ⟨table, htable, hgroups⟩ := Params.foldlM_scanLine hne hcs hpat hfield hvalue Group.groups_nil lines
  rw [List.nil_append] at hgroups
  obtain ⟨keys, hnodup, hkeys, hdup⟩ := duplicates_eq hgroups
  refine ⟨keys, hnodup, hkeys, ?_⟩
  unfold findDuplicateValuesInField
  simp only [hlines, hsafe, htable, hdup, bind, Except.bind]
  rfl

/-- The values in an entry of the details. -/
def valueCount (entry : Entry) : Nat := (entry.values.getD []).length

theorem detects_iff (hne : params.delim ≠ []) (hliteral : params.Literal) (hfield : 0 < params.fieldIndex)
    (hvalue : 0 < params.valueIndex) (hlines : view.lines params.path = .ok lines) :
    params.Detects view lines ↔ params.Inner lines := by
  obtain ⟨taken, htakenNodup, htaken, hfind⟩ := find_eq hne hliteral hfield hvalue hlines
  have hle : ∀ key, (params.takenOf lines key).length ≤ (params.valuesOf lines key).length := fun key =>
    (Params.takenOf_sublist lines key).length_le
  unfold Params.Detects
  rw [hfind]
  constructor
  · rintro ⟨details, hdetails, keys, hnodup, hkeys, rfl⟩ key hkey
    have hmap := Except.ok.inj (Except.ok.inj hdetails)
    have hlength : taken.length = keys.length := by simpa using congrArg List.length hmap
    -- the keys that are reported are those that two lines carry
    have hperm : taken.Perm keys := by
      refine (List.subperm_of_subset htakenNodup fun k hk => ?_).perm_of_length_le hlength.ge
      exact (hkeys k).mpr (le_trans ((htaken k).mp hk) (hle k))
    have hmem : key ∈ taken := hperm.mem_iff.mpr ((hkeys key).mpr hkey)
    have hname : params.keyName ≠ "values".toList := by
      intro hname
      have hentry : params.entry key (params.takenOf lines key) ∈
          keys.map fun key => (⟨params.keyName, shownKey key, some (params.valuesOf lines key)⟩ : Entry) :=
        hmap ▸ List.mem_map_of_mem hmem
      obtain ⟨key', -, heq⟩ := List.mem_map.mp hentry
      have hvals := congrArg Entry.values heq
      rw [Params.entry, if_pos hname] at hvals
      cases hvals
    refine ⟨hname, (Params.takenOf_eq_iff lines key).mp ?_⟩
    -- as many values are reported as are carried
    have hsum : (taken.map fun key => (params.takenOf lines key).length).sum =
        (taken.map fun key => (params.valuesOf lines key).length).sum := by
      have hcount := congrArg (fun details => (details.map valueCount).sum) hmap
      simp only [List.map_map] at hcount
      have hleft : valueCount ∘ (fun key => params.entry key (params.takenOf lines key)) =
          fun key => (params.takenOf lines key).length := by
        funext k
        rw [Function.comp_apply, valueCount, Params.entry, if_neg hname]
        rfl
      rw [hleft] at hcount
      rw [(hperm.map fun key => (params.valuesOf lines key).length).sum_eq]
      exact hcount
    have hsame := eq_of_sum_eq (fun key _ => hle key) hsum key hmem
    exact (Params.takenOf_sublist lines key).eq_of_length hsame
  · intro hinner
    have hsame : ∀ key, 2 ≤ (params.valuesOf lines key).length →
        params.takenOf lines key = params.valuesOf lines key := fun key hkey =>
      (Params.takenOf_eq_iff lines key).mpr (hinner key hkey).2
    refine ⟨_, rfl, taken, htakenNodup, fun key => ?_, ?_⟩
    · rw [htaken]
      constructor
      · exact fun h => le_trans h (hle key)
      · intro h
        rw [hsame key h]
        exact h
    · refine List.map_congr_left fun key hkey => ?_
      have htwo : 2 ≤ (params.valuesOf lines key).length := le_trans ((htaken key).mp hkey) (hle key)
      rw [Params.entry, if_neg (hinner key htwo).1, hsame key htwo]

theorem foldlM_not_counted (safe : Str) (hnone : ∀ line ∈ lines, ¬Counted line) (table : List (Str × List Str)) :
    lines.foldlM (params.scanLine safe) table = .ok table := by
  induction lines with
  | nil => rfl
  | cons line lines ih =>
    obtain ⟨hline, hrest⟩ := List.forall_mem_cons.mp hnone
    rw [List.foldlM_cons, Params.scanLine, if_pos ((Params.skipped_iff line).mpr hline)]
    exact ih hrest

end Report

/-! ## The delimiters -/

/-- The items of the pattern of `safeDelimiter`. -/
def escapeItems : List Pattern.Item :=
  [.capOpen, .single (.set false [.cls '^', .lit '$', .lit '(', .lit ')', .cls '%', .lit '.', .lit '[']) .star,
    .single (.lit '+') .opt, .single (.lit '-') .one, .single (.lit ']') .one, .capClose]

theorem compile_escape : compile "([%^$()%%.[]*+?-])" = escapeItems := rfl

/-- Nothing is escaped in a text without a dash. -/
theorem matchRest_escape {s : Str} (hs : '-' ∉ s) : matchRest escapeItems s [] = none := by
  have hdash : ∀ {is : List Pattern.Item} {r : Str} {segs : List Seg}, r <:+ s →
      matchRest (.single (.lit '-') .one :: is) r segs = none := by
    intro is r segs hr
    cases r with
    | nil => rfl
    | cons x r =>
      have hx : '-' ≠ x := fun h => hs (hr.subset (h ▸ List.mem_cons_self))
      rw [matchRest, Single.test, if_neg (by simpa using hx)]
  unfold escapeItems
  rw [matchRest, matchRest]
  refine longest_none fun r hr => ?_
  cases r with
  | nil => rfl
  | cons x r =>
    rw [matchRest, hdash hr, hdash ((List.suffix_cons x r).trans hr), Option.or_none, ite_self]

theorem gsubRest_none {is : List Pattern.Item} {f : List Str → Str} : ∀ {fuel : Nat} {s : Str},
    (∀ r, r <:+ s → matchRest is r [] = none) → gsubRest is f fuel s = s
  | 0, _, _ => rfl
  | fuel + 1, [], h => by
    unfold gsubRest
    rw [h [] List.suffix_rfl]
  | fuel + 1, x :: s, h => by
    unfold gsubRest
    rw [h _ List.suffix_rfl]
    exact congrArg (x :: ·) (gsubRest_none fun r hr => h r (hr.trans (List.suffix_cons x s)))

/-- A delimiter without magic characters stands for itself. -/
theorem literal_of_plain {params : Params} (hplain : ∀ x ∈ params.delim, isMagic x = false) : params.Literal := by
  have hdash : '-' ∉ params.delim := fun h => Bool.false_ne_true ((hplain '-' h).symm.trans rfl)
  refine ⟨params.delim, spelling params.delim, ?_, spells_spelling _, ?_⟩
  · unfold Params.safeDelimiter
    rw [gsub_eq (by decide) compile_escape rfl, gsubRest_none fun r hr => matchRest_escape fun h => hdash (hr.subset h)]
  · have hrest := @compile_escaped params.delim [] (by simp [Unquantified])
    rw [escaped_plain hplain, List.append_nil] at hrest
    have hcap : compile ("(.-)" ++ params.delim) =
        .capOpen :: .single .any .minus :: .capClose :: compile params.delim := by
      refine (compile_cons (r := ".-)" ++ params.delim) rfl (List.cons_ne_nil _ _)).trans (congrArg _ ?_)
      refine (compile_cons (r := ")" ++ params.delim) rfl (List.cons_ne_nil _ _)).trans (congrArg _ ?_)
      exact compile_cons rfl (List.cons_ne_nil _ _)
    rw [hcap, hrest]
    simp [show compile [] = [] from rfl]

theorem exists_safeDelimiter (params : Params) : ∃ safe, params.safeDelimiter = .ok safe :=
  ⟨_, gsub_eq (by decide) compile_escape rfl _ _⟩

/-! ## The report -/

/-- **The report**: with a delimiter that stands for itself, every key of two lines is reported with its values iff no
line of such a key ends with one of the two fields. Without a line that counts nothing is reported. -/
theorem duplicates_complete_iff {view : View} {params : Params} {lines : List Str}
    (hlines : view.lines params.path = .ok lines) (hne : params.delim ≠ []) (hfield : 0 < params.fieldIndex)
    (hvalue : 0 < params.valueIndex) :
    (params.Literal → (params.Detects view lines ↔ params.Inner lines)) ∧
      ((∀ line ∈ lines, ¬Counted line) → params.Detects view lines) := by
  refine ⟨fun hliteral => detects_iff hne hliteral hfield hvalue hlines, fun hnone => ?_⟩
  obtain ⟨safe, hsafe⟩ := exists_safeDelimiter params
  have hvalues : ∀ key, params.valuesOf lines key = [] := by
    intro key
    have hcarried : lines.filterMap params.carried = [] := List.filterMap_eq_nil_iff.mpr fun line hline => by
      rw [Params.carried, if_neg (hnone line hline)]
    rw [Params.valuesOf, hcarried]
    rfl
  refine ⟨[], ?_, [], List.nodup_nil, fun key => ?_, rfl⟩
  · unfold findDuplicateValuesInField
    simp only [hlines, hsafe, foldlM_not_counted safe hnone, bind, Except.bind]
    rfl
  · rw [hvalues key]
    simp

/-- Two groups with one number, and another one. -/
def groupLines : List Str := ["# name:password:number", "users:x:100", "games:x:100:guest", "mail:x:12:"]

/-- The file of the groups. -/
def groupView : View where
  mode _ := none
  names _ := .ok []
  lines path := if path = "/etc/group".toList then .ok groupLines else .error "no such file"

/-- The groups with one value in a field. -/
def groupParams (keyName : Str) (fieldIndex : Nat) : Params where
  path := "/etc/group"
  delimiter := none
  matchKey := none
  keyName := keyName
  fieldIndex := fieldIndex
  valueIndex := 1

theorem literal_groupParams (keyName : Str) (fieldIndex : Nat) : (groupParams keyName fieldIndex).Literal := by
  refine literal_of_plain fun x hx => ?_
  rw [List.mem_singleton.mp hx]
  rfl

/-- Every line has a field behind the password, and the report is complete. -/
theorem duplicates_passwords : (groupParams "password" 2).Detects groupView groupLines := by
  have hbehind : ∀ line ∈ groupLines, (groupParams "password" 2).Behind line := by decide +kernel
  have hliteral := literal_groupParams "password" 2
  refine ((@duplicates_complete_iff groupView (groupParams "password" 2) groupLines rfl (by decide) (by decide)
    (by decide)).1 hliteral).mpr fun key _ => ⟨by decide, fun line hline _ _ => hbehind line hline⟩

/-- The line that ends with the number is left out, and the two groups are not reported. -/
theorem duplicates_last_field : (groupParams "gid" 3).valuesOf groupLines "100" = ["users".toList, "games".toList] ∧
    findDuplicateValuesInField groupView (groupParams "gid" 3) = .ok (.ok []) ∧
    ¬(groupParams "gid" 3).Detects groupView groupLines := by
  have hvalues : (groupParams "gid" 3).valuesOf groupLines "100" = ["users".toList, "games".toList] := by
    decide +kernel
  have hfind : findDuplicateValuesInField groupView (groupParams "gid" 3) = .ok (.ok []) := by rfl
  refine ⟨hvalues, hfind, ?_⟩
  rintro ⟨details, hdetails, keys, -, hkeys, heq⟩
  rw [hfind] at hdetails
  obtain rfl := Except.ok.inj (Except.ok.inj hdetails)
  have hmem := (hkeys "100").mpr (by rw [hvalues]; decide)
  rw [List.map_eq_nil_iff.mp heq.symm] at hmem
  cases hmem

end Duplicates
end Seharden
