import Loongshield.Seharden.Profile

/-!
# Level selection is the inheritance closure

- `ValidLevels`: what the checks of `validate` say about levels, rules and items;
- `mem_activeLevels_iff`: the active levels are those reachable by `inherits_from` steps (`Reaches`);
- `selectRules_eq_filter`: the loop over the rules is a filter;
- `levelSelection_closure`: the selections, and that the rules of an inherited level are a sublist.
-/

namespace Seharden

open Lua Relation

/-! ## The abstract selection -/

section Abstract

variable (profile : Value)

/-- The level `a` is defined. -/
def Defined (a : Str) : Prop := ∃ level ∈ (profile.field "levels").ipairs, level.field "id" = .str a

/-- The level `a` inherits directly from `b`. -/
def Inherits (a b : Str) : Prop :=
  ∃ level ∈ (profile.field "levels").ipairs, level.field "id" = .str a ∧ .str b ∈ (level.field "inherits_from").ipairs

/-- The level `b` is reached from `a` by zero or more steps. -/
def Reaches : Str → Str → Prop := ReflTransGen (Inherits profile)

/-- A rule or item belongs to a level: it carries no level, or one that the level reaches. -/
def Selected (target : Str) (item : Value) : Prop :=
  item.field "level" = .nil ∨ ∃ l, .str l ∈ (item.field "level").ipairs ∧ Reaches profile target l

theorem Selected.mono {profile : Value} {a b : Str} (hab : Reaches profile a b) {item : Value}
    (h : Selected profile b item) : Selected profile a item := by
  rcases h with h | ⟨l, hl, hbl⟩
  · exact .inl h
  · exact .inr ⟨l, hl, hab.trans hbl⟩

end Abstract

/-! ## What was validated -/

/-- What the checks say about a profile. -/
structure ValidLevels (profile : Value) : Prop where
  ids : ((profile.field "levels").ipairs.map fun level => level.field "id").Nodup
  named : ∀ level ∈ (profile.field "levels").ipairs, ∃ a, level.field "id" = .str a
  parents : ∀ level ∈ (profile.field "levels").ipairs, ∀ v ∈ (level.field "inherits_from").ipairs,
    ∃ b, v = .str b ∧ Defined profile b
  tagged : ∀ item ∈ (profile.field "rules").ipairs ++ (profile.field "manual_review_required").ipairs,
    item.field "level" = .nil ∨ (item.field "level").isTable = true

theorem checkPresent_ok {v : Value} {c : Except Str Unit} : checkPresent v c = .ok () ↔ v = .nil ∨ c = .ok () := by
  unfold checkPresent
  cases hv : v.isNil with
  | true => simp [Value.isNil_iff.mp hv]
  | false => simp [Value.isNil_eq_false.mp hv]

theorem isLevel_iff {ids : List Str} {v : Value} : isLevel ids v = true ↔ ∃ id ∈ ids, v = .str id := by
  cases v <;> simp [isLevel]

theorem isTable_of_validateKnownLevelRefs {v : Value} {name : Str} {ids : List Str}
    (h : validateKnownLevelRefs v name ids = .ok ()) : v.isTable = true ∧ ∀ w ∈ v.ipairs, ∃ id ∈ ids, w = .str id := by
  unfold validateKnownLevelRefs at h
  obtain ⟨_, hlist, hrefs⟩ := bind_ok.mp h
  unfold validateStringList at hlist
  obtain ⟨hlist, -⟩ := check_bind_ok.mp hlist
  refine ⟨isTable_of_isList hlist, fun w hw => ?_⟩
  obtain ⟨i, hi⟩ := checkEach_ok hrefs w hw
  exact isLevel_iff.mp (check_ok.mp hi)

/-- The identifiers of the levels: strings, without repetition, and new. -/
theorem validateLevels_ok : ∀ {i : Nat} {ids ids' : List Str} {levels : List Value},
    validateLevels i ids levels = .ok ids' →
      (∀ level ∈ levels, ∃ a, level.field "id" = .str a ∧ a ∉ ids) ∧
      (levels.map fun level => level.field "id").Nodup ∧
      ∀ a, a ∈ ids' ↔ a ∈ ids ∨ ∃ level ∈ levels, level.field "id" = .str a
  | i, ids, ids', [], h => by
    cases h
    simp
  | i, ids, ids', level :: levels, h => by
    unfold validateLevels at h
    obtain ⟨-, hid, hnew, h⟩ := by simpa only [check_bind_ok] using h
    obtain ⟨_, -, h⟩ := bind_ok.mp h
    obtain ⟨a, ha, -⟩ := isNonEmptyString_iff.mp hid
    rw [ha] at hnew h
    have hnew : a ∉ ids := by simpa [isLevel] using hnew
    obtain ⟨hnamed, hnodup, hids⟩ := validateLevels_ok h
    change (∀ level ∈ levels, ∃ b, level.field "id" = .str b ∧ b ∉ a :: ids) at hnamed
    refine ⟨?_, ?_, ?_⟩
    · intro l hl
      rcases List.mem_cons.mp hl with rfl | hl
      · exact ⟨a, ha, hnew⟩
      · obtain ⟨b, hb, hbn⟩ := hnamed l hl
        exact ⟨b, hb, fun hm => hbn (List.mem_cons_of_mem _ hm)⟩
    · rw [List.map_cons, List.nodup_cons]
      refine ⟨fun hm => ?_, hnodup⟩
      obtain ⟨l, hl, hla⟩ := List.mem_map.mp hm
      obtain ⟨b, hb, hbn⟩ := hnamed l hl
      rw [ha, hb] at hla
      cases hla
      exact hbn List.mem_cons_self
    · intro b
      rw [hids b]
      change b ∈ a :: ids ∨ _ ↔ _
      simp only [List.mem_cons, exists_eq_or_imp, ha, Value.str.injEq]
      tauto

theorem validateRules_ok {levelIds : List Str} : ∀ {i : Nat} {ruleIds : List Str} {rules : List Value},
    validateRules levelIds i ruleIds rules = .ok () →
      ∀ rule ∈ rules, rule.field "level" = .nil ∨ (rule.field "level").isTable = true
  | _, _, [], _, _, hr => by cases hr
  | i, ruleIds, rule :: rules, h, r, hr => by
    unfold validateRules at h
    obtain ⟨_, -, h⟩ := bind_ok.mp h
    obtain ⟨-, h⟩ := check_bind_ok.mp h
    obtain ⟨_, hlevel, h⟩ := bind_ok.mp h
    rcases List.mem_cons.mp hr with rfl | hr
    · exact (checkPresent_ok.mp hlevel).imp_right fun hk => (isTable_of_validateKnownLevelRefs hk).1
    · exact validateRules_ok h r hr

/-- **What an accepted profile looks like.** -/
theorem validLevels_of_validate {profile : Value} (h : validate profile = .ok ()) : ValidLevels profile := by
  unfold validate at h
  obtain ⟨-, -, -, h⟩ := by simpa only [check_bind_ok] using h
  obtain ⟨levelIds, hlevels, h⟩ := bind_ok.mp h
  obtain ⟨_, hinherits, h⟩ := bind_ok.mp h
  obtain ⟨_, -, h⟩ := bind_ok.mp h
  obtain ⟨_, hmanual, hrules⟩ := bind_ok.mp h
  obtain ⟨hnamed, hnodup, hids⟩ := validateLevels_ok hlevels
  refine ⟨hnodup, fun level hl => ?_, fun level hl v hv => ?_, fun item hitem => ?_⟩
  · obtain ⟨a, ha, -⟩ := hnamed level hl
    exact ⟨a, ha⟩
  · obtain ⟨i, hi⟩ := checkEach_ok hinherits level hl
    unfold validateInherits at hi
    cases ht : (level.field "inherits_from").truthy with
    | false =>
      cases hf : level.field "inherits_from" with
      | table r fs inh => rw [hf] at ht; cases ht
      | _ => rw [hf] at hv; cases hv
    | true =>
      rw [if_pos ht] at hi
      obtain ⟨b, hb, rfl⟩ := (isTable_of_validateKnownLevelRefs hi).2 v hv
      rcases (hids b).mp hb with hb | ⟨level', hl', hb⟩
      · cases hb
      · exact ⟨b, rfl, level', hl', hb⟩
  · rcases List.mem_append.mp hitem with hitem | hitem
    · exact validateRules_ok hrules item hitem
    · rcases checkPresent_ok.mp hmanual with hnil | hmanual
      · rw [hnil] at hitem
        cases hitem
      · obtain ⟨-, hmanual⟩ := check_bind_ok.mp hmanual
        obtain ⟨i, hi⟩ := checkEach_ok hmanual item hitem
        unfold validateManualEntry at hi
        obtain ⟨-, -, -, -, hi⟩ := by simpa only [check_bind_ok] using hi
        exact (checkPresent_ok.mp hi).imp_right fun hk => (isTable_of_validateKnownLevelRefs hk).1

/-! ## The levels as a graph -/

section Graph

variable {profile : Value}

theorem strOf_eq_some {v : Value} {s : Str} : strOf v = some s ↔ v = .str s := by
  cases v <;> simp [strOf]

theorem mem_parentIds {level : Value} {b : Str} : b ∈ parentIds level ↔
    .str b ∈ (level.field "inherits_from").ipairs := by
  simp [parentIds, strOf_eq_some]

theorem mem_levelsById {a : Str} {level : Value} :
    (a, level) ∈ levelsById profile ↔ level ∈ (profile.field "levels").ipairs ∧ level.field "id" = .str a := by
  simp only [levelsById, List.mem_reverse, List.mem_filterMap, Option.map_eq_some_iff, Prod.mk.injEq, strOf_eq_some]
  constructor
  · rintro ⟨level', hl, a', ha, rfl, rfl⟩
    exact ⟨hl, ha⟩
  · rintro ⟨hl, ha⟩
    exact ⟨level, hl, a, ha, rfl, rfl⟩

/-- A level is found by its identifier. -/
theorem lookup_levelsById (hv : ValidLevels profile) {a : Str} {level : Value} :
    (levelsById profile).lookup a = some level ↔
      level ∈ (profile.field "levels").ipairs ∧ level.field "id" = .str a := by
  have hmem : ∀ {level}, (levelsById profile).lookup a = some level → (a, level) ∈ levelsById profile := by
    intro level hl
    obtain ⟨l₁, l₂, heq, -⟩ := List.lookup_eq_some_iff.mp hl
    rw [heq]
    simp
  refine ⟨fun hl => mem_levelsById.mp (hmem hl), fun hl => ?_⟩
  cases hl' : (levelsById profile).lookup a with
  | none =>
    have hno := List.lookup_eq_none_iff.mp hl' _ (mem_levelsById.mpr hl)
    simp at hno
  | some level' =>
    obtain ⟨hl'', hid⟩ := mem_levelsById.mp (hmem hl')
    have heq := List.inj_on_of_nodup_map hv.ids hl'' hl.1 (by rw [hid, hl.2])
    rw [heq]

theorem lookup_levelGraph (profile : Value) (a : Str) :
    (levelGraph profile).lookup a = ((levelsById profile).lookup a).map parentIds := by
  unfold levelGraph
  induction levelsById profile with
  | nil => rfl
  | cons e levels ih =>
    rw [List.map_cons, List.lookup_cons, List.lookup_cons, ih]
    cases a == e.1 <;> rfl

theorem edge_levelGraph (hv : ValidLevels profile) : Worklist.Edge (levelGraph profile) = Inherits profile := by
  funext a b
  simp only [Worklist.Edge, Inherits, lookup_levelGraph, Option.map_eq_some_iff, eq_iff_iff]
  constructor
  · rintro ⟨_, ⟨level, hl, rfl⟩, hb⟩
    obtain ⟨hl, ha⟩ := (lookup_levelsById hv).mp hl
    exact ⟨level, hl, ha, mem_parentIds.mp hb⟩
  · rintro ⟨level, hl, ha, hb⟩
    exact ⟨_, ⟨level, (lookup_levelsById hv).mpr ⟨hl, ha⟩, rfl⟩, mem_parentIds.mpr hb⟩

theorem lookup_ne_none_iff (hv : ValidLevels profile) {a : Str} :
    (levelsById profile).lookup a ≠ none ↔ Defined profile a := by
  rw [Option.ne_none_iff_exists']
  constructor
  · rintro ⟨level, hl⟩
    exact ⟨level, (lookup_levelsById hv).mp hl⟩
  · rintro ⟨level, hl⟩
    exact ⟨level, (lookup_levelsById hv).mpr hl⟩

/-- Levels that a defined level reaches are defined. -/
theorem Reaches.defined (hv : ValidLevels profile) {a b : Str} (ha : Defined profile a) (h : Reaches profile a b) :
    Defined profile b := by
  induction h with
  | refl => exact ha
  | tail _ hbc _ =>
    obtain ⟨level, hl, -, hc⟩ := hbc
    obtain ⟨c, hceq, hdef⟩ := hv.parents level hl _ hc
    cases hceq
    exact hdef

/-- **The active levels are the levels that the target reaches.** -/
theorem mem_activeLevels_iff (hv : ValidLevels profile) {target l : Str} (ht : Defined profile target) :
    l ∈ Worklist.closure (levelGraph profile) target ↔ Reaches profile target l := by
  rw [Worklist.mem_closure_iff, edge_levelGraph hv]
  refine ⟨fun h => h.1, fun h => ⟨h, ?_⟩⟩
  have hdef := (lookup_ne_none_iff hv).mpr (Reaches.defined hv ht h)
  rw [lookup_levelGraph]
  simpa using hdef

theorem buildActiveLevels_eq (hv : ValidLevels profile) {target : Str} (ht : Defined profile target) :
    buildActiveLevels profile (.str target) = some (Worklist.closure (levelGraph profile) target) := by
  have hdef := (lookup_ne_none_iff hv).mpr ht
  simp [buildActiveLevels, Value.truthy, strOf, hdef]

/-! ## The selections -/

/-- The test of both selections. -/
def selects (activeLevels : List Str) (item : Value) : Bool :=
  !(item.field "level").truthy || meets activeLevels (item.field "level")

theorem selects_iff (hv : ValidLevels profile) {target : Str} (ht : Defined profile target) {item : Value}
    (hitem : item.field "level" = .nil ∨ (item.field "level").isTable = true) :
    selects (Worklist.closure (levelGraph profile) target) item = true ↔ Selected profile target item := by
  have hmeets : meets (Worklist.closure (levelGraph profile) target) (item.field "level") = true ↔
      ∃ l, .str l ∈ (item.field "level").ipairs ∧ Reaches profile target l := by
    simp only [meets, List.any_eq_true, isLevel_iff]
    constructor
    · rintro ⟨v, hmem, l, hl, rfl⟩
      exact ⟨l, hmem, (mem_activeLevels_iff hv ht).mp hl⟩
    · rintro ⟨l, hmem, hl⟩
      exact ⟨_, hmem, l, (mem_activeLevels_iff hv ht).mpr hl, rfl⟩
  unfold selects Selected
  rw [Bool.or_eq_true, hmeets]
  refine or_congr_left ?_
  rcases hitem with hnil | htable
  · rw [hnil]
    exact iff_of_true rfl rfl
  · cases hl : item.field "level" with
    | table r fs inh => simp [Value.truthy]
    | _ => rw [hl] at htable; cases htable

/-- **The loop over the rules is a filter.** -/
theorem selectRules_eq_filter {activeLevels : List Str} : ∀ {index : Nat} {rules selected : List Value},
    selectRules activeLevels index rules = .ok selected → selected = rules.filter (selects activeLevels)
  | _, [], _, h => (Except.ok.inj h).symm
  | index, rule :: rules, selected, h => by
    have hcond : (!(rule.field "level").truthy ||
        ((rule.field "level").isTable && meets activeLevels (rule.field "level"))) = selects activeLevels rule := by
      unfold selects
      cases rule.field "level" <;> simp [Value.isTable, meets, Value.ipairs]
    unfold selectRules at h
    dsimp only at h
    rw [hcond] at h
    cases hs : selects activeLevels rule with
    | true =>
      rw [if_pos hs] at h
      obtain ⟨_, -, h⟩ := bind_ok.mp h
      obtain ⟨rest, hrest, h⟩ := bind_ok.mp h
      cases h
      rw [List.filter_cons_of_pos hs, ← selectRules_eq_filter hrest]
    | false =>
      rw [if_neg (by simp [hs])] at h
      rw [List.filter_cons_of_neg (by simp [hs])]
      exact selectRules_eq_filter h

theorem getRulesForLevel_ok (hvalid : validate profile = .ok ()) {target : Str} (ht : Defined profile target)
    {rules : List Value} (h : getRulesForLevel profile (.str target) = .ok rules) :
    rules = (profile.field "rules").ipairs.filter (selects (Worklist.closure (levelGraph profile) target)) := by
  unfold getRulesForLevel at h
  rw [hvalid, buildActiveLevels_eq (validLevels_of_validate hvalid) ht] at h
  dsimp only at h
  cases hs : selectRules (Worklist.closure (levelGraph profile) target) 1 (profile.field "rules").ipairs with
  | error err => rw [hs] at h; cases h
  | ok selected =>
    rw [hs] at h
    cases h
    exact selectRules_eq_filter hs

end Graph

/-- **Level selection is the inheritance closure**: the loop ends, after finitely many iterations, with the active
levels; the rules and the items of an accepted profile are selected by reachability, in the order of the profile; the
rules of a level that is inherited are a sublist. -/
theorem levelSelection_closure (profile : Value) (target : Str) (hvalid : validate profile = .ok ())
    (ht : Defined profile target) :
    (∃ n, ((Worklist.step (levelGraph profile))^[n] ⟨[target], []⟩).stack = [] ∧
      buildActiveLevels profile (.str target) =
        some ((Worklist.step (levelGraph profile))^[n] ⟨[target], []⟩).seen) ∧
    (∃ sel : Value → Bool,
      (∀ item ∈ (profile.field "rules").ipairs ++ (profile.field "manual_review_required").ipairs,
        sel item = true ↔ Selected profile target item) ∧
      (∀ rules, getRulesForLevel profile (.str target) = .ok rules →
        rules = (profile.field "rules").ipairs.filter sel) ∧
      getManualReviewItemsForLevel profile (.str target) =
        .ok ((profile.field "manual_review_required").ipairs.filter sel)) ∧
    ∀ base, Reaches profile target base → ∀ rules inherited,
      getRulesForLevel profile (.str target) = .ok rules → getRulesForLevel profile (.str base) = .ok inherited →
      inherited.Sublist rules := by
  have hv := validLevels_of_validate hvalid
  have hactive := buildActiveLevels_eq hv ht
  refine ⟨?_, ⟨selects (Worklist.closure (levelGraph profile) target), ?_, ?_, ?_⟩, ?_⟩
  · obtain ⟨n, -, hn⟩ := Worklist.run_eq_iterate (levelGraph profile) ⟨[target], []⟩
    exact ⟨n, hn ▸ Worklist.run_stack .., by rw [hactive, ← hn]; rfl⟩
  · exact fun item hitem => selects_iff hv ht (hv.tagged item hitem)
  · exact fun rules h => getRulesForLevel_ok hvalid ht h
  · unfold getManualReviewItemsForLevel
    rw [hvalid, hactive]
    rfl
  · intro base hbase rules inherited hrules hinherited
    have hbdef := Reaches.defined hv ht hbase
    rw [getRulesForLevel_ok hvalid ht hrules, getRulesForLevel_ok hvalid hbdef hinherited]
    have htwice : (profile.field "rules").ipairs.filter (selects (Worklist.closure (levelGraph profile) base)) =
        ((profile.field "rules").ipairs.filter (selects (Worklist.closure (levelGraph profile) target))).filter
          (selects (Worklist.closure (levelGraph profile) base)) := by
      rw [List.filter_filter]
      refine List.filter_congr fun rule hrule => ?_
      have htag := hv.tagged rule (List.mem_append_left _ hrule)
      cases hb : selects (Worklist.closure (levelGraph profile) base) rule with
      | false => rfl
      | true =>
        have hsel := Selected.mono hbase ((selects_iff hv hbdef htag).mp hb)
        exact ((selects_iff hv ht htag).mpr hsel).symm
    rw [htwice]
    exact List.filter_sublist

/-- A profile with a cycle: `strict` inherits from `server`, which inherits from `base` and back from `strict`. -/
def cyclicProfile : Value :=
  .record 1 [
    ("levels", .list 2 [
      .record 3 [("id", .str "base")],
      .record 4 [("id", .str "server"), ("inherits_from", .list 5 [.str "base", .str "strict"])],
      .record 6 [("id", .str "strict"), ("inherits_from", .list 7 [.str "server"])],
      .record 8 [("id", .str "other")]]),
    ("rules", .list 9 [
      .record 10 [("id", .str "r1"), ("desc", .str "one"), ("level", .list 11 [.str "base"]),
        ("assertion", .record 12 [("compare", .str "is_true")])],
      .record 13 [("id", .str "r2"), ("desc", .str "two"), ("level", .list 14 [.str "other"]),
        ("assertion", .record 15 [("compare", .str "is_true")])],
      .record 16 [("id", .str "r3"), ("desc", .str "three"), ("assertion", .record 17 [("compare", .str "is_true")])]])]

/-- The identifiers of selected rules. -/
def selectedIds (r : Except (Option Str) (List Value)) : List (Option Str) :=
  match r with
  | .ok rules => rules.map fun rule => strOf (rule.field "id")
  | .error _ => []

example : selectedIds (getRulesForLevel cyclicProfile (.str "strict")) = [some "r1".toList, some "r3".toList] := by
  decide +kernel

theorem levelSelection_cyclic : validate cyclicProfile = .ok () ∧
    (∃ n, ((Worklist.step (levelGraph cyclicProfile))^[n] ⟨["strict".toList], []⟩).stack = []) ∧
    ∃ sel : Value → Bool, ∀ rules, getRulesForLevel cyclicProfile (.str "strict") = .ok rules →
      rules = (cyclicProfile.field "rules").ipairs.filter sel := by
  have hvalid : validate cyclicProfile = .ok () := by decide +kernel
  have hids : ((cyclicProfile.field "levels").ipairs.map fun level => strOf (level.field "id")).contains
      (some "strict".toList) = true := by decide +kernel
  obtain ⟨level, hl, hid⟩ := List.mem_map.mp (List.contains_iff_mem.mp hids)
  obtain ⟨⟨n, hn, -⟩, ⟨sel, -, hsel, -⟩, -⟩ := levelSelection_closure cyclicProfile "strict" hvalid
    ⟨level, hl, strOf_eq_some.mp hid⟩
  exact ⟨hvalid, ⟨n, hn⟩, sel, hsel⟩

end Seharden
