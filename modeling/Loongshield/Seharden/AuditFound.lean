import Loongshield.Seharden.AuditRuleLine

/-!
# Rules that are written are found

- `mem_appendRuleLines`: the lines of a rule file after the enforcer;
- `SyscallReadable`: parameters whose texts can be read back from a line;
- `syscall_found`: then the rule is found, with everything recovered.
-/

namespace Seharden

open Lua
open Lua.Pattern

/-! ## The lines of a rule file -/

/-- After the loop, a rule file has its old lines and the new ones. -/
theorem mem_appendRuleLines {env : Env} (henv : env.Reliable) {path context : Str} : ∀ {lines : List Str} {s s' : Sys},
    Lines lines → appendRuleLines env path context lines s = (.ok (.ok ()), s') →
      ∀ l, l ∈ s'.linesAt path ↔ l ∈ s.linesAt path ∨ l ∈ lines
  | [], s, s', _, h, l => by
    cases h
    simp
  | line :: lines, s, s', hlines, h, l => by
    obtain ⟨r, s₁, happend, h⟩ := Act.of_bind_ok h
    cases r with
    | error err => cases h
    | ok u =>
      have hnew := (appendUniqueLine_reliable henv (hlines line List.mem_cons_self) happend).2
      have ih := mem_appendRuleLines henv (fun l hl => hlines l (List.mem_cons_of_mem line hl)) h l
      rw [ih, hnew, List.mem_cons, ← or_assoc]
      refine or_congr_left ?_
      split
      next hmem => exact ⟨.inl, fun hl => hl.elim id fun heq => heq ▸ hmem⟩
      next => simp

/-! ## Lists of names -/

/-- The text is a name. -/
def Name (s : Str) : Prop := s ≠ [] ∧ ∀ x ∈ s, nameClass.test x = true

theorem isMatch_name {s : Str} : isMatch s "^[%w_]+$" = true ↔ Name s :=
  isMatch_iff.trans (strMatch_whole (c := nameClass) rfl s)

theorem normalizeStrings_ok {fieldName : Str} : ∀ {values : List Value} {index : Nat} {normalized l : List Str},
    normalizeStrings fieldName index values normalized = .ok l →
      (∀ v ∈ values, ∃ s, v = .str s ∧ Name s) ∧ ∀ s, s ∈ l ↔ s ∈ normalized ∨ .str s ∈ values
  | [], index, normalized, l, h => by
    cases h
    exact ⟨by simp, fun s => by simp [mem_sortStrs]⟩
  | value :: values, index, normalized, l, h => by
    unfold normalizeStrings at h
    split at h
    next s =>
      split at h
      · cases h
      next hok =>
        rw [Bool.or_eq_true, not_or, Bool.not_eq_true', Bool.not_eq_false] at hok
        obtain ⟨hall, hmem⟩ := normalizeStrings_ok h
        refine ⟨List.forall_mem_cons.mpr ⟨⟨s, rfl, isMatch_name.mp hok.2⟩, hall⟩, fun t => ?_⟩
        rw [hmem, mem_appendUnique, List.mem_cons, or_assoc, Value.str.injEq]
    · cases h

/-- A list that was accepted holds names, and becomes the list of these. -/
theorem normalizeStringList_ok {values : Value} {fieldName context : Str} {l : List Str}
    (h : normalizeStringList values fieldName context = .ok l) :
    values.ipairs ≠ [] ∧ (∀ v ∈ values.ipairs, ∃ s, v = .str s ∧ Name s) ∧ ∀ s, s ∈ l ↔ .str s ∈ values.ipairs := by
  unfold normalizeStringList at h
  split at h
  · cases h
  next hne =>
    cases hn : normalizeStrings fieldName 1 values.ipairs [] with
    | error err =>
      rw [hn] at h
      cases h
    | ok l' =>
      rw [hn] at h
      cases h
      obtain ⟨hall, hmem⟩ := normalizeStrings_ok hn
      exact ⟨hne, hall, fun s => by simpa using hmem s⟩

/-! ## System call rules -/

/-- Comparisons that can be read back: the ones that are built are words and end plainly, and if there are comparisons,
one of them is built. -/
structure ComparisonsReadable (comparisons : Value) : Prop where
  list : comparisons = .nil ∨ comparisons = .str [] ∨ comparisons.isTable = true
  texts : ∀ t ∈ comparisons.ipairs.filterMap comparisonText, Word t ∧ EndsPlainly t
  built : comparisons.ipairs = [] ∨ comparisons.ipairs.filterMap comparisonText ≠ []

/-- Parameters of a system call rule whose texts can be read back: no blanks, no end in the flag of a key or of a system
call, field names that stand for themselves, one comparison and every named field is built. -/
structure SyscallReadable (params : Value) (auidMin : Option Flt) : Prop where
  comparisons : ComparisonsReadable (params.field "comparisons_any")
  fields : ((params.field "fields").truthy = true → (params.field "fields").isTable = true) ∧
    ∀ field ∈ (params.field "fields").ipairs, FieldReadable field ∧ ∀ t, fieldText field = some t → Word t ∧
    EndsPlainly t
  exits : params.field "exits" = .nil ∨ ((params.field "exits").ipairs ≠ [] ∧
    ∀ e ∈ (params.field "exits").ipairs, ExitReadable (stripMinus e.tostring))
  auidMin : ∀ min ∈ auidMin, PrintsBack min

/-- What an accepted system call rule does: it appends its lines to the rule file. -/
theorem ensureSyscallRule_ok {env : Env} {paths : AuditPaths} {params : Value} {s s' : Sys}
    (h : ensureSyscallRule env paths params s = (.ok (.ok ()), s')) : ∃ syscalls arches auidMin ruleFile s₁ s₂,
      normalizeStringList (params.field "syscalls") "syscalls" "audit.ensure_syscall_rule" = .ok syscalls ∧
      normalizeStringList (archesParam params) "arches" "audit.ensure_syscall_rule" = .ok arches ∧
      ruleAuidMin env (params.field "auid_min") s = (.ok (.ok auidMin), s₁) ∧
      ((params.field "key").isNil = true ∨ isSafeKey (params.field "key") = true) ∧
      resolveRuleFile env paths params s₁ = (.ok (.ok ruleFile), s₂) ∧
      appendRuleLines env ruleFile "audit.ensure_syscall_rule"
        (buildSyscallRuleLines (syscallRule params syscalls arches auidMin)) s₂ = (.ok (.ok ()), s') := by
  unfold ensureSyscallRule at h
  split at h
  · cases h
  cases hsyscalls : normalizeStringList (params.field "syscalls") "syscalls" "audit.ensure_syscall_rule" with
  | error err =>
    rw [hsyscalls] at h
    cases h
  | ok syscalls =>
    rw [hsyscalls] at h
    dsimp only at h
    cases harches : normalizeStringList (archesParam params) "arches" "audit.ensure_syscall_rule" with
    | error err =>
      rw [harches] at h
      cases h
    | ok arches =>
      rw [harches] at h
      obtain ⟨r, s₁, hauid, h⟩ := Act.of_bind_ok h
      cases r with
      | error err => cases h
      | ok auidMin =>
        dsimp only at h
        split at h
        · cases h
        next hkey =>
          obtain ⟨r, s₂, hresolve, h⟩ := Act.of_bind_ok h
          cases r with
          | error err => cases h
          | ok ruleFile =>
            refine ⟨syscalls, arches, auidMin, ruleFile, s₁, s₂, rfl, rfl, hauid, ?_, hresolve, h⟩
            rw [Bool.and_eq_true, Bool.not_eq_true', Bool.not_eq_true', not_and_or, Bool.not_eq_false,
              Bool.not_eq_false] at hkey
            exact hkey

section Finder

variable {params : Value} {auidMin : Option Flt} {syscalls arches : List Str} {key : Str}

theorem SyscallReadable.rule (h : SyscallReadable params auidMin)
    (hsafe : isSafeKey (.str key) = true) (hsyscalls : ∀ s ∈ syscalls, Name s) (harches : ∀ a ∈ arches, Name a) :
    RuleReadable (syscallRule params syscalls arches auidMin) key where
  arches := harches
  syscalls := hsyscalls
  comparisons := h.comparisons.texts
  fields t ht := by
    obtain ⟨field, hfield, ht⟩ := List.mem_filterMap.mp ht
    exact (h.fields.2 field hfield).2 t ht
  auidMin := h.auidMin
  key := word_of_isSafeKey hsafe

/-- The exit filters of the lines, and the exit values they are for. -/
theorem mem_buildSyscallRuleLines {rule : SyscallRule} {l : Str} : l ∈ buildSyscallRuleLines rule ↔
    ∃ arch ∈ rule.arches, ∃ exitFilter, l = buildSyscallRuleLine rule arch exitFilter ∧
      match buildExitValues rule.exits with
      | some exits => ∃ exit ∈ exits, exitFilter = some exit
      | none => exitFilter = none := by
  unfold buildSyscallRuleLines
  cases buildExitValues rule.exits with
  | none =>
    simp only [List.mem_map]
    exact ⟨fun ⟨a, ha, hl⟩ => ⟨a, ha, none, hl.symm, rfl⟩, fun ⟨a, ha, e, hl, he⟩ => ⟨a, ha, by rw [hl, he]⟩⟩
  | some exits =>
    simp only [List.mem_flatMap, List.mem_map]
    constructor
    · rintro ⟨exit, hexit, a, ha, rfl⟩
      exact ⟨a, ha, some exit, rfl, exit, hexit, rfl⟩
    · rintro ⟨a, ha, e, rfl, exit, hexit, rfl⟩
      exact ⟨exit, hexit, a, ha, rfl⟩

/-- The exit filter of the line for an exit value. -/
def exitFilterFor (exit : Value) : Option Str := if exit.isNil then none else some (stripMinus exit.tostring)

/-- The extractors recover from a line what it was built from. -/
structure RecoversSyscall (params : Value) (rule : SyscallRule) (key arch : Str) (exit : Value) (line : Str) :
    Prop where
  key : extractKey line = some key
  arch : extractSyscallArch line = some arch
  syscalls : collectSyscalls line = rule.syscalls
  exit : lineHasExit line exit = true
  fields : lineHasFields line (params.field "fields") = .ok true
  comparisons : lineHasAnyComparison line (params.field "comparisons_any") = .ok true
  auid : matchesAuidFilters line rule.auidMin rule.includeAuidUnset = true

theorem untilVerdict_all {f : Value → Except Err Bool} : ∀ {xs : List Value}, (∀ x ∈ xs, f x = .ok true) →
    untilVerdict false f xs = .ok true
  | [], _ => rfl
  | x :: xs, h => by
    rw [untilVerdict, h x List.mem_cons_self]
    exact untilVerdict_all fun y hy => h y (List.mem_cons_of_mem x hy)

theorem untilVerdict_returns {stop : Bool} {f : Value → Except Err Bool} : ∀ {xs : List Value},
    (∀ x ∈ xs, ∃ r, f x = .ok r) → ∃ r, untilVerdict stop f xs = .ok r
  | [], _ => ⟨_, rfl⟩
  | x :: xs, h => by
    obtain ⟨r, hr⟩ := h x List.mem_cons_self
    rw [untilVerdict, hr]
    dsimp only
    split
    · exact ⟨_, rfl⟩
    · exact untilVerdict_returns fun y hy => h y (List.mem_cons_of_mem x hy)

theorem ipairsOr_eq {v : Value} (h : v.truthy = true → v.isTable = true) : ipairsOr v = .ok v.ipairs := by
  unfold ipairsOr
  cases v with
  | table r fs inh => rfl
  | nil => rfl
  | bool b =>
    cases b with
    | false => rfl
    | true => exact absurd (h rfl) Bool.false_ne_true
  | num q => exact absurd (h rfl) Bool.false_ne_true
  | str s => exact absurd (h rfl) Bool.false_ne_true
  | func f => exact absurd (h rfl) Bool.false_ne_true
  | inf neg => exact absurd (h rfl) Bool.false_ne_true
  | nan => exact absurd (h rfl) Bool.false_ne_true

/-- One comparison of a list is enough. -/
theorem lineHasAnyComparison_table (line : Str) {v : Value} (h : v.isTable = true) :
    lineHasAnyComparison line v = .ok (v.ipairs.isEmpty || v.ipairs.any (lineHasComparison line)) := by
  cases v with
  | table r fs inh => rfl
  | _ => cases h

/-- **A built line is recovered.** -/
theorem SyscallReadable.recovers (h : SyscallReadable params auidMin) {arch : Str} {exit : Value}
    (hline : LineReadable (syscallRule params syscalls arches auidMin) arch (exitFilterFor exit) key) :
    RecoversSyscall params (syscallRule params syscalls arches auidMin) key arch exit
      (buildSyscallRuleLine (syscallRule params syscalls arches auidMin) arch (exitFilterFor exit)) where
  key := hline.extractKey
  arch := hline.extractSyscallArch
  syscalls := hline.collectSyscalls
  exit := hline.lineHasExit rfl
  fields := by
    unfold lineHasFields
    rw [ipairsOr_eq h.fields.1]
    exact untilVerdict_all fun field hfield => hline.lineHasField hfield (h.fields.2 field hfield).1
  comparisons := by
    rcases h.comparisons.list with hnil | hempty | htable
    · rw [hnil]
      rfl
    · rw [hempty]
      rfl
    · rw [lineHasAnyComparison_table _ htable]
      refine congrArg Except.ok ?_
      rw [Bool.or_eq_true, List.isEmpty_iff]
      refine h.comparisons.built.imp id fun hbuilt => ?_
      obtain ⟨t, ht⟩ := List.exists_mem_of_ne_nil _ hbuilt
      obtain ⟨c, hc, hct⟩ := List.mem_filterMap.mp ht
      obtain ⟨-, rfl⟩ := comparisonText_eq_some.mp hct
      exact List.any_eq_true.mpr ⟨.str t, hc, hline.lineHasComparison ht⟩
  auid := hline.matchesAuidFilters

/-- A line that is recovered counts. -/
theorem RecoversSyscall.counts {rule : SyscallRule} {arch line : Str} {exit : Value}
    (h : RecoversSyscall params rule key arch exit line) (hkey : params.field "key" = .str key)
    (halways : isAlwaysExitRule line = true)
    (hrule : rule.includeAuidUnset = notFalse params "require_auid_unset_exclusion") :
    Counts params rule.auidMin line exit := by
  have hauid := h.auid
  rw [hrule] at hauid
  have hkeys : keyMatches line (params.field "key") (notFalse params "require_key") = true := by
    rw [keyMatches, hkey, extractedKeyIs, h.key]
    simp [Value.isNil]
  unfold Counts lineMatchesSyscallFilters
  rw [halways, hauid, h.exit, h.fields, h.comparisons, hkeys]
  rfl

/-- No line makes the checks raise. -/
theorem SyscallReadable.returns (h : SyscallReadable params auidMin) (line : Str) (auidMin' : Option Flt)
    (exit : Value) :
    ∃ r, lineMatchesSyscallFilters line params auidMin' exit = .ok r := by
  have hfield : ∀ field ∈ (params.field "fields").ipairs, ∃ r, lineHasField line field = .ok r := by
    intro field hfield
    obtain ⟨hread, htext⟩ := h.fields.2 field hfield
    by_cases hnamed : field.isTable = true ∧ (field.field "name").truthy = true
    · obtain ⟨hvalue, -, hplain⟩ := hread hnamed.1 hnamed.2
      have hword := (htext _ (by rw [fieldText, hnamed.1, hnamed.2, hvalue]; rfl)).1.2
      exact ⟨_, lineHasField_eq line hnamed.1 hnamed.2 hplain fun x hx =>
        hword x (List.mem_append_left _ (List.mem_append_left _ hx))⟩
    · exact ⟨true, lineHasField_unnamed line hnamed⟩
  have hfields : ∃ r, lineHasFields line (params.field "fields") = .ok r := by
    unfold lineHasFields
    rw [ipairsOr_eq h.fields.1]
    exact untilVerdict_returns hfield
  have hcomparisons : ∃ r, lineHasAnyComparison line (params.field "comparisons_any") = .ok r := by
    rcases h.comparisons.list with hnil | hempty | htable
    · rw [hnil]
      exact ⟨_, rfl⟩
    · rw [hempty]
      exact ⟨_, rfl⟩
    · exact ⟨_, lineHasAnyComparison_table _ htable⟩
  obtain ⟨f, hf⟩ := hfields
  obtain ⟨c, hc⟩ := hcomparisons
  unfold lineMatchesSyscallFilters andAlso
  rw [hf, hc]
  split
  · cases f <;> exact ⟨_, rfl⟩
  · exact ⟨_, rfl⟩

/-! ## The finder -/

theorem mem_normalizeArches : ∀ {values : List Value} {index : Nat} {normalized : List Str},
    (∀ v ∈ values, ∃ s, v = .str s ∧ Name s) → ∃ l, normalizeArches index values normalized = .ok l ∧
      ∀ a ∈ l, a ∈ normalized ∨ .str a ∈ values
  | [], _, normalized, _ => ⟨normalized, rfl, fun _ ha => .inl ha⟩
  | v :: values, index, normalized, h => by
    obtain ⟨s, rfl, hname⟩ := h v List.mem_cons_self
    obtain ⟨c, cs, rfl⟩ := List.exists_cons_of_ne_nil hname.1
    obtain ⟨l, hl, hmem⟩ := @mem_normalizeArches values (index + 1) (appendUnique normalized (c :: cs))
      fun v hv => h v (List.mem_cons_of_mem _ hv)
    refine ⟨l, hl, fun a ha => ?_⟩
    rcases hmem a ha with ha | ha
    · rcases mem_appendUnique.mp ha with ha | rfl
      · exact .inl ha
      · exact .inr List.mem_cons_self
    · exact .inr (List.mem_cons_of_mem _ ha)

/-- The exit values that are required are the ones given. -/
theorem value_mem_uniqueExits : ∀ {values : List Value} {normalized : List ExitRequirement} {e : ExitRequirement},
    e ∈ uniqueExits values normalized → e ∈ normalized ∨ e.value ∈ values
  | [], _, _, h => .inl h
  | v :: values, normalized, e, h => by
    unfold uniqueExits at h
    split at h
    · exact (value_mem_uniqueExits h).imp_right fun hv => List.mem_cons_of_mem v hv
    · rcases value_mem_uniqueExits h with hn | hv
      · rcases List.mem_append.mp hn with hn | hn
        · exact .inl hn
        · rw [List.mem_singleton.mp hn]
          exact .inr List.mem_cons_self
      · exact .inr (List.mem_cons_of_mem v hv)

/-- **Nothing is missing** if for every required architecture and exit value a line counts and lists all system
calls. -/
theorem findSyscallRule_zero {lines : List Str} {requiredArches : List Str} {exits : List ExitRequirement}
    (harches : normalizeRequiredArches (params.field "required_arches") = .ok (some requiredArches))
    (hexits : normalizeExitRequirements (params.field "exits") = .ok exits)
    (hreturns : ∀ line ∈ lines, ∀ e ∈ exits, ∃ r, lineMatchesSyscallFilters line params auidMin e.value = .ok r)
    (hcovers : ∀ syscall ∈ (params.field "syscalls").ipairs, ∀ a ∈ requiredArches, ∀ e ∈ exits,
      Covers params auidMin lines a e syscall) :
    findSyscallRuleInLines lines params auidMin = .ok (.ok ⟨0, []⟩) := by
  obtain ⟨b, hb⟩ := (collectBuckets_returns (b := .empty)).mpr hreturns
  have hnone : (params.field "syscalls").ipairs.filter (missesSyscall (some requiredArches) exits b) = [] := by
    refine List.filter_eq_nil_iff.mpr fun syscall hsyscall => ?_
    rw [missesSyscall_iff hb (distinctKeys_of_normalize hexits) hsyscall]
    rintro ⟨a, ha, e, he, hno, -⟩
    exact hno (hcovers syscall hsyscall a ha e he)
  unfold findSyscallRuleInLines
  rw [harches, hexits]
  dsimp only
  rw [hb]
  simp only [bind, Except.bind, hnone]
  rfl

/-- An exit value for which lines are built: the ones given, or none at all. -/
def ExitOf (params exit : Value) : Prop :=
  (params.field "exits" = .nil ∧ exit = .nil) ∨ exit ∈ (params.field "exits").ipairs

/-- The system call rule of the parameters is found in the lines, and everything is recovered from its own lines. -/
structure SyscallFound (params : Value) (auidMin : Option Flt) (key : Str) (lines : List Str) : Prop where
  found : findSyscallRuleInLines lines params auidMin = .ok (.ok ⟨0, []⟩)
  recovered : ∀ syscalls arches,
    normalizeStringList (params.field "syscalls") "syscalls" "audit.ensure_syscall_rule" = .ok syscalls →
    normalizeStringList (archesParam params) "arches" "audit.ensure_syscall_rule" = .ok arches →
    ∀ arch ∈ arches, ∀ exit, ExitOf params exit → ∃ line ∈ lines,
      line = buildSyscallRuleLine (syscallRule params syscalls arches auidMin) arch (exitFilterFor exit) ∧
      RecoversSyscall params (syscallRule params syscalls arches auidMin) key arch exit line

theorem isNil_of_mem_ipairs {t v : Value} (h : v ∈ t.ipairs) : v.isNil = false := by
  cases t with
  | table r fs inh =>
    have hall := List.all_eq_true.mp List.all_takeWhile v h
    simpa using hall
  | _ => cases h

theorem exitOf_of_normalize {exits : List ExitRequirement}
    (h : normalizeExitRequirements (params.field "exits") = .ok exits) {e : ExitRequirement} (he : e ∈ exits) :
    ExitOf params e.value := by
  unfold normalizeExitRequirements at h
  split at h
  next hnil =>
    cases h
    rw [List.mem_singleton.mp he]
    exact .inl ⟨Value.isNil_iff.mp hnil, rfl⟩
  next =>
    split at h
    · cases h
    · cases h
      exact .inr ((value_mem_uniqueExits he).resolve_left List.not_mem_nil)

/-- The line for an exit value is built and readable. -/
theorem SyscallReadable.line (h : SyscallReadable params auidMin) (hkey : params.field "key" = .str key)
    (hrule : RuleReadable (syscallRule params syscalls arches auidMin) key) {arch : Str} (harch : arch ∈ arches)
    {exit : Value} (hexit : ExitOf params exit) :
    LineReadable (syscallRule params syscalls arches auidMin) arch (exitFilterFor exit) key ∧
      buildSyscallRuleLine (syscallRule params syscalls arches auidMin) arch (exitFilterFor exit) ∈
        buildSyscallRuleLines (syscallRule params syscalls arches auidMin) := by
  have hkeyText : (syscallRule params syscalls arches auidMin).key = some key := by
    change keyText (params.field "key") = some key
    rw [hkey]
    rfl
  have hbuilt : ∀ values, buildExitValues (params.field "exits") = values →
      (match values with
        | some exits => ∃ e ∈ exits, exitFilterFor exit = some e
        | none => exitFilterFor exit = none) →
      buildSyscallRuleLine (syscallRule params syscalls arches auidMin) arch (exitFilterFor exit) ∈
        buildSyscallRuleLines (syscallRule params syscalls arches auidMin) := by
    intro values hvalues hfilter
    refine mem_buildSyscallRuleLines.mpr ⟨arch, harch, exitFilterFor exit, rfl, ?_⟩
    change match buildExitValues (params.field "exits") with | some exits => _ | none => _
    rw [hvalues]
    exact hfilter
  rcases hexit with ⟨hnil, rfl⟩ | hmem
  · refine ⟨⟨hrule, harch, by simp [exitFilterFor, Value.isNil], hkeyText⟩, hbuilt none ?_ rfl⟩
    rw [hnil]
    rfl
  · have hne : (params.field "exits").ipairs ≠ [] := List.ne_nil_of_mem hmem
    have hfilter : exitFilterFor exit = some (stripMinus exit.tostring) := by
      rw [exitFilterFor, isNil_of_mem_ipairs hmem]
      rfl
    refine ⟨⟨hrule, harch, fun e he => ?_, hkeyText⟩, hbuilt (some _) (if_neg hne) ?_⟩
    · rw [hfilter] at he
      obtain rfl : stripMinus exit.tostring = e := Option.some.inj he
      rcases h.exits with hnil | ⟨-, hall⟩
      · rw [hnil] at hmem
        cases hmem
      · exact hall exit hmem
    · exact ⟨_, List.mem_map.mpr ⟨exit, hmem, rfl⟩, hfilter⟩

theorem not_mem_concatBlank : ∀ {parts : List Str}, (∀ p ∈ parts, '\n' ∉ p) → '\n' ∉ concatBlank parts
  | [], _ => List.not_mem_nil
  | [a], h => by simpa [concatBlank, List.intercalate] using h a
  | a :: b :: parts, h => by
    rw [concatBlank_cons a (by simp)]
    refine List.not_mem_append (h a List.mem_cons_self) (List.not_mem_cons_of_ne_of_not_mem (by decide) ?_)
    exact not_mem_concatBlank fun p hp => h p (List.mem_cons_of_mem a hp)

theorem not_mem_fragment {parts : List Str} (h : ∀ p ∈ parts, '\n' ∉ p) : '\n' ∉ fragment parts := by
  unfold fragment
  split
  · exact List.not_mem_nil
  · exact List.not_mem_cons_of_ne_of_not_mem (by decide) (not_mem_concatBlank h)

theorem not_mem_buildAuidFragment (auidMin : Option Flt) (includeAuidUnset : Bool) :
    '\n' ∉ buildAuidFragment auidMin includeAuidUnset := by
  cases auidMin with
  | none => cases includeAuidUnset <;> decide
  | some min =>
    have hmin := (fmtInt_blankFree min).not_mem_newline
    cases includeAuidUnset with
    | false => exact List.not_mem_append (by decide) hmin
    | true => exact List.not_mem_append (List.not_mem_append (by decide) hmin) (by decide)

/-- A built line is one line. -/
theorem not_mem_syscall {rule : SyscallRule} (hrule : RuleReadable rule key) {arch : Str} (harch : arch ∈ rule.arches)
    {exitFilter : Option Str} (hexit : ∀ exit ∈ exitFilter, BlankFree exit) (hkey : rule.key = some key) :
    '\n' ∉ buildSyscallRuleLine rule arch exitFilter := by
  have hname : ∀ {s : Str}, s ≠ [] ∧ (∀ x ∈ s, nameClass.test x = true) → '\n' ∉ s := fun h =>
    (word_of_class nameClass_blank h.1 h.2).2.not_mem_newline
  have hcalls : ∀ p ∈ rule.syscalls.map ("-S ".toList ++ ·), '\n' ∉ p := by
    intro p hp
    obtain ⟨s, hs, rfl⟩ := List.mem_map.mp hp
    exact List.not_mem_append (by decide) (hname (hrule.syscalls s hs))
  have hcomparisons : '\n' ∉ buildComparisonFragment rule.comparisonsAny := by
    refine not_mem_fragment fun p hp => ?_
    rw [comparisonParts_eq] at hp
    obtain ⟨t, ht, rfl⟩ := List.mem_map.mp hp
    exact List.not_mem_append (by decide)
      (List.not_mem_cons_of_ne_of_not_mem (by decide) ((hrule.comparisons t ht).1.2.not_mem_newline))
  have hfields : '\n' ∉ buildFieldsFragment rule.fields := by
    refine not_mem_fragment fun p hp => ?_
    rw [fieldParts_eq] at hp
    obtain ⟨t, ht, rfl⟩ := List.mem_map.mp hp
    exact List.not_mem_append (by decide) (List.not_mem_cons_of_ne_of_not_mem (by decide)
      ((hrule.fields t ht).1.2.not_mem_newline))
  have hexits : '\n' ∉ exitFragment exitFilter := by
    cases exitFilter with
    | none => exact List.not_mem_nil
    | some exit => exact List.not_mem_append (by decide) (hexit exit rfl).not_mem_newline
  have hend : '\n' ∉ keyFragment rule.key := by
    rw [hkey]
    exact List.not_mem_append (by decide) hrule.key.2.not_mem_newline
  have hhead := List.not_mem_append (List.not_mem_append
    (List.not_mem_append (by decide : '\n' ∉ "-a always,exit -F arch=".toList) (hname (hrule.arches arch harch)))
    (by decide : '\n' ∉ " ".toList)) (not_mem_concatBlank hcalls)
  rw [buildSyscallRuleLine_eq]
  exact List.not_mem_append (List.not_mem_append (List.not_mem_append (List.not_mem_append (List.not_mem_append hhead
    hcomparisons) hfields) hexits) (not_mem_buildAuidFragment _ _)) hend

/-- The lines of a rule that can be read back. -/
theorem SyscallReadable.lines (h : SyscallReadable params auidMin) (hkey : params.field "key" = .str key)
    (hrule : RuleReadable (syscallRule params syscalls arches auidMin) key) :
    Lines (buildSyscallRuleLines (syscallRule params syscalls arches auidMin)) := by
  intro line hline
  obtain ⟨arch, harch, exitFilter, rfl, hfilter⟩ := mem_buildSyscallRuleLines.mp hline
  have hkeyText : (syscallRule params syscalls arches auidMin).key = some key := congrArg keyText hkey
  refine not_mem_syscall hrule harch ?_ hkeyText
  intro exit hexit
  change match buildExitValues (params.field "exits") with
    | some exits => ∃ exit ∈ exits, exitFilter = some exit
    | none => exitFilter = none at hfilter
  rcases h.exits with hnil | ⟨hne, hall⟩
  · rw [hnil] at hfilter
    have hnone : exitFilter = none := hfilter
    rw [hnone] at hexit
    cases hexit
  · rw [buildExitValues, if_neg hne] at hfilter
    obtain ⟨exit', hexit', rfl⟩ := hfilter
    obtain ⟨e, he, rfl⟩ := List.mem_map.mp hexit'
    obtain rfl := Option.some.inj hexit
    exact (hall e he).1

/-- **System call rules that are written are found**, if their texts can be read back. -/
theorem syscall_found {env : Env} (henv : env.Reliable) {paths : AuditPaths} {s s' s₁ : Sys} {ruleFile : Str}
    (hkey : params.field "key" = .str key) (harches : params.field "required_arches" = params.field "arches")
    (hlist : (params.field "arches").truthy = true)
    (hauid : ruleAuidMin env (params.field "auid_min") s = (.ok (.ok auidMin), s₁))
    (hfile : (resolveRuleFile env paths params s₁).1 = .ok (.ok ruleFile))
    (h : ensureSyscallRule env paths params s = (.ok (.ok ()), s')) (hread : SyscallReadable params auidMin) :
    SyscallFound params auidMin key (s'.linesAt ruleFile) := by
  obtain ⟨syscalls, arches, auidMin', ruleFile', s₁', s₂, hsyscalls, harchlist, hauid', hsafe, hresolve, happend⟩ :=
    ensureSyscallRule_ok h
  obtain ⟨rfl, rfl⟩ : auidMin = auidMin' ∧ s₁ = s₁' := by
    have heq := hauid.symm.trans hauid'
    exact ⟨Except.ok.inj (Except.ok.inj (Prod.mk.inj heq).1), (Prod.mk.inj heq).2⟩
  obtain rfl : ruleFile = ruleFile' := by
    rw [hresolve] at hfile
    exact (Except.ok.inj (Except.ok.inj hfile)).symm
  have hsafekey : isSafeKey (.str key) = true := by
    rw [hkey] at hsafe
    exact hsafe.resolve_left (by simp [Value.isNil])
  obtain ⟨-, hcalls, hcallmem⟩ := normalizeStringList_ok hsyscalls
  obtain ⟨-, harchs, harchmem⟩ := normalizeStringList_ok harchlist
  have hparam : archesParam params = params.field "arches" := by rw [archesParam, if_pos hlist]
  have hnames : ∀ {l : List Str} {v : Value}, (∀ v' ∈ v.ipairs, ∃ s, v' = .str s ∧ Name s) →
      (∀ s, s ∈ l ↔ .str s ∈ v.ipairs) → ∀ s ∈ l, Name s := by
    intro l v hall hmem s hs
    obtain ⟨t, ht, hname⟩ := hall _ ((hmem s).mp hs)
    rw [Value.str.inj ht]
    exact hname
  have hrule : RuleReadable (syscallRule params syscalls arches auidMin) key :=
    hread.rule hsafekey (hnames hcalls hcallmem) (hnames harchs harchmem)
  have hmem := mem_appendRuleLines henv (hread.lines hkey hrule) happend
  -- the line for an architecture and an exit value is in the file, and is recovered
  have hrecovers : ∀ arch ∈ arches, ∀ exit, ExitOf params exit → ∃ line ∈ s'.linesAt ruleFile,
      line = buildSyscallRuleLine (syscallRule params syscalls arches auidMin) arch (exitFilterFor exit) ∧
      RecoversSyscall params (syscallRule params syscalls arches auidMin) key arch exit line := by
    intro arch harch exit hexit
    obtain ⟨hline, hbuilt⟩ := hread.line hkey hrule harch hexit
    exact ⟨_, (hmem _).mpr (.inr hbuilt), rfl, hread.recovers hline⟩
  rw [hparam] at harchs harchmem
  constructor
  · obtain ⟨required, hrequired, hsub⟩ := @mem_normalizeArches (params.field "arches").ipairs 1 [] harchs
    have hrequiredArches : normalizeRequiredArches (params.field "required_arches") = .ok (some required) := by
      have hne : (params.field "arches").ipairs ≠ [] := by
        rw [← hparam]
        exact (normalizeStringList_ok harchlist).1
      have hnil : (params.field "arches").isNil = false := by
        cases ha : params.field "arches" with
        | nil =>
          rw [ha] at hne
          exact absurd rfl hne
        | _ => rfl
      rw [harches, normalizeRequiredArches, hnil, if_neg Bool.false_ne_true, if_neg hne, hrequired]
      rfl
    obtain ⟨exits, hexits⟩ : ∃ exits, normalizeExitRequirements (params.field "exits") = .ok exits := by
      rcases hread.exits with hnil | ⟨hne, -⟩
      · rw [hnil]
        exact ⟨_, rfl⟩
      · unfold normalizeExitRequirements
        rw [if_neg hne]
        split <;> exact ⟨_, rfl⟩
    refine findSyscallRule_zero hrequiredArches hexits (fun line _ e _ => hread.returns line auidMin e.value) ?_
    intro syscall hsyscall arch harch e he
    have harch' : arch ∈ arches := (harchmem arch).mpr ((hsub arch harch).resolve_left List.not_mem_nil)
    obtain ⟨line, hline, hbuilt, hrec⟩ := hrecovers arch harch' e.value (exitOf_of_normalize hexits he)
    have halways : isAlwaysExitRule line = true := hbuilt ▸ isAlwaysExitRule_built _ _
    obtain ⟨t, rfl, -⟩ := hcalls syscall hsyscall
    refine ⟨line, hline, by rw [archKey, hrec.arch]; rfl, hrec.counts hkey halways rfl, t, rfl, ?_⟩
    rw [hrec.syscalls]
    exact (hcallmem t).mpr hsyscall
  · intro syscalls' arches' hsyscalls' harchlist'
    obtain rfl := Except.ok.inj (hsyscalls.symm.trans hsyscalls')
    obtain rfl := Except.ok.inj (harchlist.symm.trans harchlist')
    exact hrecovers

end Finder

end Seharden
