import Mathlib.Data.List.Nodup

/-!
# Grouping pairs by their keys

A table of keys with the values that were added under them, in order.

- `add`: adds a value under its key;
- `Groups`: the table of a list of pairs;
- `Groups.add`: adding a pair keeps this.
-/

namespace Group

variable {α β : Type} [DecidableEq α]

/-- Adds a value to those of its key; a new key comes last. -/
def add (key : α) (value : β) : List (α × List β) → List (α × List β)
  | [] => [(key, [value])]
  | entry :: table => if entry.1 = key then (entry.1, entry.2 ++ [value]) :: table else entry :: add key value table

/-- The values of a key, in order. -/
def valuesOf (pairs : List (α × β)) (key : α) : List β :=
  pairs.filterMap fun pair => if pair.1 = key then some pair.2 else none

/-- The table has every key of the pairs once, with its values. -/
structure Groups (pairs : List (α × β)) (table : List (α × List β)) : Prop where
  nodup : (table.map Prod.fst).Nodup
  mem : ∀ key values, (key, values) ∈ table ↔ values = valuesOf pairs key ∧ values ≠ []

variable {pairs : List (α × β)} {table : List (α × List β)} {key : α} {value : β}

theorem valuesOf_concat (pairs : List (α × β)) (key : α) (value : β) (k : α) :
    valuesOf (pairs ++ [(key, value)]) k = if key = k then valuesOf pairs k ++ [value] else valuesOf pairs k := by
  unfold valuesOf
  rw [List.filterMap_append]
  by_cases hk : key = k
  · simp [hk]
  · simp [hk]

theorem groups_nil : Groups ([] : List (α × β)) [] :=
  ⟨List.nodup_nil, fun _ _ => iff_of_false List.not_mem_nil fun h => h.2 h.1⟩

theorem map_fst_add_of_mem (h : key ∈ table.map Prod.fst) :
    (add key value table).map Prod.fst = table.map Prod.fst := by
  induction table with
  | nil => cases h
  | cons entry table ih =>
    rw [add]
    by_cases hk : entry.1 = key
    · rw [if_pos hk]
      rfl
    · rw [if_neg hk, List.map_cons, List.map_cons, ih ((List.mem_cons.mp h).resolve_left (Ne.symm hk))]

theorem add_of_not_mem (h : key ∉ table.map Prod.fst) : add key value table = table ++ [(key, [value])] := by
  induction table with
  | nil => rfl
  | cons entry table ih =>
    rw [List.map_cons, List.mem_cons, not_or] at h
    rw [add, if_neg (Ne.symm h.1), ih h.2]
    rfl

/-- What is under a key after a value was added. -/
theorem mem_add (hnodup : (table.map Prod.fst).Nodup) (h : key ∈ table.map Prod.fst) (k : α) (values : List β) :
    (k, values) ∈ add key value table ↔
      if k = key then ∃ old, (key, old) ∈ table ∧ values = old ++ [value] else (k, values) ∈ table := by
  induction table with
  | nil => cases h
  | cons entry table ih =>
    obtain ⟨k', vs⟩ := entry
    rw [List.map_cons, List.nodup_cons] at hnodup
    rw [add]
    by_cases hk' : k' = key
    · subst hk'
      rw [if_pos rfl, List.mem_cons]
      have hnot : ∀ old, (k', old) ∉ table := fun old hold => hnodup.1 (List.mem_map.mpr ⟨(k', old), hold, rfl⟩)
      by_cases hk : k = k'
      · subst hk
        simp [hnot]
      · simp [hk]
    · have hmem : key ∈ table.map Prod.fst := (List.mem_cons.mp h).resolve_left (Ne.symm hk')
      rw [if_neg hk', List.mem_cons, ih hnodup.2 hmem]
      by_cases hk : k = key
      · subst hk
        simp [Ne.symm hk']
      · simp [hk]

/-- **Adding a pair.** -/
theorem Groups.add (h : Groups pairs table) (key : α) (value : β) :
    Groups (pairs ++ [(key, value)]) (add key value table) := by
  by_cases hmem : key ∈ table.map Prod.fst
  · refine ⟨by rw [map_fst_add_of_mem hmem]; exact h.nodup, fun k values => ?_⟩
    rw [mem_add h.nodup hmem, valuesOf_concat]
    by_cases hk : k = key
    · subst hk
      rw [if_pos rfl, if_pos rfl]
      constructor
      · rintro ⟨old, hold, rfl⟩
        exact ⟨by rw [((h.mem k old).mp hold).1], by simp⟩
      · rintro ⟨rfl, -⟩
        obtain ⟨⟨k', old⟩, hold, rfl⟩ := List.mem_map.mp hmem
        exact ⟨old, hold, by rw [((h.mem _ old).mp hold).1]⟩
    · rw [if_neg hk, if_neg (Ne.symm hk)]
      exact h.mem k values
  · rw [add_of_not_mem hmem]
    have hnone : valuesOf pairs key = [] := by
      by_contra hne
      exact hmem (List.mem_map.mpr ⟨_, (h.mem key _).mpr ⟨rfl, hne⟩, rfl⟩)
    refine ⟨?_, fun k values => ?_⟩
    · rw [List.map_append]
      refine List.nodup_append.mpr ⟨h.nodup, List.nodup_singleton _, fun a ha b hb hab => ?_⟩
      obtain rfl := List.mem_singleton.mp hb
      exact hmem (hab ▸ ha)
    · rw [List.mem_append, List.mem_singleton, Prod.mk.injEq, h.mem, valuesOf_concat]
      by_cases hk : key = k
      · subst hk
        rw [if_pos rfl, hnone]
        constructor
        · rintro (⟨rfl, hne⟩ | ⟨-, rfl⟩)
          · exact absurd rfl hne
          · exact ⟨rfl, by simp⟩
        · rintro ⟨rfl, -⟩
          exact .inr ⟨rfl, rfl⟩
      · rw [if_neg hk, or_iff_left fun heq => hk heq.1.symm]

end Group
