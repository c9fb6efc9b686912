import Loongshield.Seharden.AuditFound

/-!
# Rules that are written and not found

- `scan_flag`: behind an argument that ends in a flag, the next flag is read as an argument;
- `Unambiguous`: parameters none of whose parts is taken for another;
- `SyscallFound.readable`: of these, only the ones whose texts can be read back are found;
- `audit_rules_found`: a watch is found, with everything recovered, exactly if its path can be read back; a system call
  rule is, if its parameters can, and exactly then if none of its parts is taken for another.
-/

namespace Seharden

open Lua
open Lua.Pattern

/-! ## Arguments -/

/-- What is read is an argument of a word. -/
theorem mem_scan {flag : Str} {arg : Str → Option (α × Str)} {a : α} : ∀ {u : Str} {ws : List Str},
    a ∈ scan flag arg u ws → ∃ w rest, arg w = some (a, rest)
  | _, [], h => by cases h
  | u, w :: ws, h => by
    unfold scan at h
    split at h
    · cases harg : arg w with
      | none =>
        rw [harg] at h
        exact mem_scan h
      | some r =>
        obtain ⟨b, rest⟩ := r
        rw [harg] at h
        rcases List.mem_cons.mp h with rfl | h
        · exact ⟨w, rest, harg⟩
        · exact mem_scan h
    · exact mem_scan h

/-- An argument is not empty and over the class. -/
theorem argSplit_some {lits w a rest : Str} {c : Single} (h : argSplit lits c w = some (a, rest)) :
    lits <+: w ∧ a ≠ [] ∧ (∀ x ∈ a, c.test x = true) ∧ w = lits ++ (a ++ rest) := by
  unfold argSplit at h
  split at h
  next hpre =>
    rw [List.isPrefixOf_iff_prefix] at hpre
    obtain ⟨v, rfl⟩ := hpre
    rw [List.drop_left] at h
    split at h
    · cases h
    next htake =>
      cases h
      exact ⟨List.prefix_append lits v, htake, fun x hx => List.all_eq_true.mp List.all_takeWhile x hx,
        by rw [List.takeWhile_append_dropWhile]⟩
  · cases h

theorem word_of_mem_flagArgs {flag lits a : Str} {ws : List Str} (h : a ∈ flagArgs flag lits nonBlank ws) : Word a := by
  obtain ⟨w, rest, harg⟩ := mem_scan h
  obtain ⟨-, hne, hall, -⟩ := argSplit_some harg
  exact ⟨hne, fun x hx => by simpa using hall x hx⟩

section Behind

variable {x : Char} {g : Str} {ws : List Str}

/-- Behind a text that ends in a flag, the next flag is read. -/
theorem scan_behind {u : Str} (hu : ['-', x] <:+ u) {pairs : List Pair} (hwords : ∀ p ∈ pairs, Word p.1)
    (hg : Word g) : ∃ f ∈ g :: pairs.map Prod.fst,
      (scan ['-', x] (argSplit [] nonBlank) u (pairWords pairs ++ g :: ws)).head? = some f := by
  have hread : ∀ (f : Str) (rest : List Str), Word f →
      (scan ['-', x] (argSplit [] nonBlank) u (f :: rest)).head? = some f := by
    intro f rest hf
    have harg := argSplit_word [] hf
    rw [List.nil_append] at harg
    rw [scan, if_pos (List.isSuffixOf_iff_suffix.mpr hu), harg]
    rfl
  cases pairs with
  | nil => exact ⟨g, List.mem_cons_self, hread g ws hg⟩
  | cons p pairs =>
    exact ⟨p.1, List.mem_cons_of_mem g List.mem_cons_self, hread p.1 _ (hwords p List.mem_cons_self)⟩

/-- **Behind an argument that ends in a flag, the next flag is read** as an argument. -/
theorem scan_flag (hg : Word g) : ∀ {pairs : List Pair} {u : Str}, (∀ p ∈ pairs, Word p.1 ∧ ¬['-', x] <:+ p.1) →
    (∃ p ∈ pairs, ['-', x] <:+ p.2) → ∃ f ∈ g :: pairs.map Prod.fst,
      (scan ['-', x] (argSplit [] nonBlank) u (pairWords pairs ++ g :: ws)).head? = some f
  | [], _, _, h => by
    obtain ⟨p, hp, -⟩ := h
    cases hp
  | (f, a) :: pairs, u, hflags, h => by
    obtain ⟨hf, hno⟩ := hflags (f, a) List.mem_cons_self
    have hflags' : ∀ p ∈ pairs, Word p.1 ∧ ¬['-', x] <:+ p.1 := fun p hp => hflags p (List.mem_cons_of_mem _ hp)
    by_cases hu : ['-', x] <:+ u
    · exact scan_behind hu (fun p hp => (hflags p hp).1) hg
    · -- neither the text in front nor the flag itself is followed by an argument
      have hskip : scan ['-', x] (argSplit [] nonBlank) u (pairWords ((f, a) :: pairs) ++ g :: ws) =
          scan ['-', x] (argSplit [] nonBlank) a (pairWords pairs ++ g :: ws) := by
        change scan _ _ u (f :: a :: (pairWords pairs ++ g :: ws)) = _
        rw [scan, if_neg (mt List.isSuffixOf_iff_suffix.mp hu), scan, if_neg (mt List.isSuffixOf_iff_suffix.mp hno)]
      obtain ⟨f', hf', hhead⟩ : ∃ f' ∈ g :: pairs.map Prod.fst,
          (scan ['-', x] (argSplit [] nonBlank) a (pairWords pairs ++ g :: ws)).head? = some f' := by
        by_cases ha : ['-', x] <:+ a
        · exact scan_behind ha (fun p hp => (hflags' p hp).1) hg
        · refine scan_flag hg hflags' ?_
          obtain ⟨p, hp, hends⟩ := h
          rcases List.mem_cons.mp hp with rfl | hp
          · exact absurd hends ha
          · exact ⟨p, hp, hends⟩
      refine ⟨f', ?_, hskip ▸ hhead⟩
      rcases List.mem_cons.mp hf' with rfl | hf'
      · exact List.mem_cons_self
      · exact List.mem_cons_of_mem g (List.mem_cons_of_mem f hf')

end Behind

/-! ## Texts that were read back -/

/-- At most a minus is taken away. -/
theorem stripMinus_suffix (s : Str) : stripMinus s <:+ s := by
  cases s with
  | nil => exact List.suffix_refl []
  | cons c s =>
    by_cases hc : c = '-'
    · rw [hc, stripMinus_minus]
      exact List.suffix_cons '-' s
    · have hmatch : doMatch (c :: s) (compile "%-") 0 [] = .ok none := by
        have hone : doMatch ([] ++ c :: s) [.single (.cls '-') .one] ([] : Str).length [] = .ok none := by
          refine doMatch_one_none fun x hx => ?_
          obtain rfl := Option.some.inj hx
          exact beq_eq_false_iff_ne.mpr (Ne.symm hc)
        exact hone
      have hsub : gsub (c :: s) "^%-" (fun _ => []) = .ok (c :: s) := by
        change gsubFrom (c :: s) (compile "%-") true (fun _ => []) ((c :: s).length + 1) 0 = .ok (c :: s)
        rw [gsubFrom, hmatch]
        rfl
      unfold stripMinus substitute
      rw [hsub]

/-- A comparison that is taken for a word is one. -/
theorem word_of_normalizeComparison {v t : Str} (hv : Word v)
    (h : normalizeComparison (.str v) = normalizeComparison (.str t)) : Word t := by
  have hunfold : ∀ s : Str, normalizeComparison (.str s) =
      if s = "uid!=euid".toList ∨ s = "euid!=uid".toList then "uid!=euid".toList else s := fun s => rfl
  rw [hunfold, hunfold] at h
  by_cases ht : t = "uid!=euid".toList ∨ t = "euid!=uid".toList
  · rcases ht with rfl | rfl
    · exact ⟨by decide, by decide⟩
    · exact ⟨by decide, by decide⟩
  · rw [if_neg ht] at h
    split at h
    · rw [← h]
      exact ⟨by decide, by decide⟩
    · exact h ▸ hv

theorem untilVerdict_all_iff {f : Value → Except Err Bool} : ∀ {xs : List Value},
    untilVerdict false f xs = .ok true ↔ ∀ x ∈ xs, f x = .ok true
  | [] => by simp [untilVerdict]
  | x :: xs => by
    rw [List.forall_mem_cons, untilVerdict, ← untilVerdict_all_iff]
    cases f x with
    | error e => simp
    | ok b => cases b <;> simp

/-- Parameters none of whose parts is taken for another: all comparisons are words or none is, every named field has a
value and a name that stands for itself, no field is a filter on the least `auid`, the key is no flag, and the least
`auid` is a whole double. -/
structure Unambiguous (params : Value) (auidMin : Option Flt) (key : Str) : Prop where
  comparisons : ∀ c ∈ (params.field "comparisons_any").ipairs, ∃ t, c = .str t
  blanks : (∀ t ∈ (params.field "comparisons_any").ipairs.filterMap comparisonText, BlankFree t) ∨
    ∀ t ∈ (params.field "comparisons_any").ipairs.filterMap comparisonText, ¬BlankFree t
  fields : ∀ field ∈ (params.field "fields").ipairs, field.isTable = true → (field.field "name").truthy = true →
    (field.field "value").truthy = true ∧ Plain (field.field "name").tostring ∧
      BlankFree (field.field "name").tostring
  filters : ∀ t ∈ (params.field "fields").ipairs.filterMap fieldText, ¬"auid>=".toList <+: t
  key : ¬IsFlag key
  auidMin : ∀ min ∈ auidMin, (∃ n : Nat, min = .fin n ∧ roundDouble n = .fin n) ∨ min = .inf false

section Missed

variable {params : Value} {auidMin : Option Flt} {key arch line : Str} {exit : Value} {rule : SyscallRule}

/-- An exit value that is recovered has no blanks. -/
theorem RecoversSyscall.exit_blankFree (h : RecoversSyscall params rule key arch exit line)
    (hnil : exit.isNil = false) : BlankFree (stripMinus exit.tostring) := by
  have hexit := h.exit
  rw [lineHasExit_eq, hnil, Bool.false_or, List.any_eq_true] at hexit
  obtain ⟨value, hvalue, heq⟩ := hexit
  rw [← beq_iff_eq.mp heq]
  exact fun x hx => (word_of_mem_flagArgs hvalue).2 x ((stripMinus_suffix value).subset hx)

/-- Fields that are recovered are words. -/
theorem RecoversSyscall.fields_words (h : RecoversSyscall params rule key arch exit line)
    (hplain : Unambiguous params auidMin key) :
    ((params.field "fields").truthy = true → (params.field "fields").isTable = true) ∧
      ∀ field ∈ (params.field "fields").ipairs, FieldReadable field ∧ ∀ t, fieldText field = some t → Word t := by
  have hfields := h.fields
  unfold lineHasFields at hfields
  obtain ⟨list, hlist, hfields⟩ := bind_ok.mp hfields
  have htable : (params.field "fields").truthy = true → (params.field "fields").isTable = true := by
    intro htruthy
    rw [ipairsOr, if_pos htruthy] at hlist
    cases hf : params.field "fields" with
    | table r fs inh => rfl
    | _ =>
      rw [hf] at hlist
      cases hlist
  rw [ipairsOr_eq htable] at hlist
  obtain rfl := Except.ok.inj hlist
  refine ⟨htable, fun field hfield => ?_⟩
  have hone := untilVerdict_all_iff.mp hfields field hfield
  -- the value of a named field was captured
  have hvalue : field.isTable = true → (field.field "name").truthy = true → Word (field.field "value").tostring := by
    intro hisTable hname
    obtain ⟨htruthy, hname', hblank⟩ := hplain.fields field hfield hisTable hname
    rw [lineHasField_eq line hisTable hname hname' hblank, Except.ok.injEq, List.any_eq_true] at hone
    obtain ⟨value, hmem, heq⟩ := hone
    have hnil : (field.field "value").isNil = false := by
      cases hv : field.field "value" with
      | nil =>
        rw [hv] at htruthy
        cases htruthy
      | _ => rfl
    rw [hnil, Bool.false_or, beq_iff_eq] at heq
    exact heq ▸ word_of_mem_flagArgs hmem
  constructor
  · intro hisTable hname
    obtain ⟨htruthy, hname', -⟩ := hplain.fields field hfield hisTable hname
    exact ⟨htruthy, (hvalue hisTable hname).1, hname'⟩
  · intro t ht
    unfold fieldText at ht
    split at ht
    next hall =>
      cases ht
      rw [Bool.and_eq_true, Bool.and_eq_true] at hall
      have hname := (hplain.fields field hfield hall.1.1 hall.1.2).2.2
      refine ⟨by simp, fun x hx => ?_⟩
      rcases List.mem_append.mp hx with hx | hx
      · rcases List.mem_append.mp hx with hx | hx
        · exact hname x hx
        · rw [List.mem_singleton.mp hx]
          rfl
      · exact (hvalue hall.1.1 hall.1.2).2 x hx
    · cases ht

/-- Comparisons one of which is recovered are words. -/
theorem RecoversSyscall.comparisons_words (h : RecoversSyscall params rule key arch exit line)
    (hplain : Unambiguous params auidMin key) :
    (params.field "comparisons_any" = .nil ∨ params.field "comparisons_any" = .str [] ∨
      (params.field "comparisons_any").isTable = true) ∧
    (∀ t ∈ (params.field "comparisons_any").ipairs.filterMap comparisonText, Word t) ∧
    ((params.field "comparisons_any").ipairs = [] ∨
      (params.field "comparisons_any").ipairs.filterMap comparisonText ≠ []) := by
  have hany := h.comparisons
  have hlist : params.field "comparisons_any" = .nil ∨ params.field "comparisons_any" = .str [] ∨
      (params.field "comparisons_any").isTable = true := by
    cases hc : params.field "comparisons_any" with
    | nil => exact .inl rfl
    | table r fs inh => exact .inr (.inr rfl)
    | str s =>
      cases s with
      | nil => exact .inr (.inl rfl)
      | cons x s =>
        rw [hc] at hany
        cases hany
    | _ =>
      rw [hc] at hany
      cases hany
  refine ⟨hlist, ?_⟩
  by_cases hempty : (params.field "comparisons_any").ipairs = []
  · rw [hempty]
    exact ⟨by simp, .inl rfl⟩
  -- one of them is taken for an argument of the line, which is a word
  obtain ⟨t, ht, hword⟩ : ∃ t ∈ (params.field "comparisons_any").ipairs.filterMap comparisonText, Word t := by
    have htable : (params.field "comparisons_any").isTable = true := by
      rcases hlist with hnil | hstr | htable
      · exact absurd (hnil ▸ rfl) hempty
      · exact absurd (hstr ▸ rfl) hempty
      · exact htable
    rw [lineHasAnyComparison_table line htable, Except.ok.injEq, Bool.or_eq_true, List.isEmpty_iff, List.any_eq_true]
      at hany
    obtain ⟨c, hc, hhas⟩ := hany.resolve_left hempty
    obtain ⟨t, rfl⟩ := hplain.comparisons c hc
    rw [lineHasComparison_eq, List.any_eq_true] at hhas
    obtain ⟨value, hvalue, heq⟩ := hhas
    have hword := word_of_normalizeComparison (word_of_mem_flagArgs hvalue) (beq_iff_eq.mp heq)
    exact ⟨t, List.mem_filterMap.mpr ⟨.str t, hc, comparisonText_eq_some.mpr ⟨hword.1, rfl⟩⟩, hword⟩
  refine ⟨fun t' ht' => ?_, .inr (List.ne_nil_of_mem ht)⟩
  obtain ⟨c, -, hc⟩ := List.mem_filterMap.mp ht'
  refine ⟨(comparisonText_eq_some.mp hc).1, ?_⟩
  rcases hplain.blanks with hall | hnone
  · exact hall t' ht'
  · exact absurd hword.2 (hnone t ht)

/-- The flags of a line before its key. -/
theorem bodyPairs_flag {exitFilter : Option Str} {p : Pair} (hp : p ∈ bodyPairs rule arch exitFilter) :
    p.1 = ['-', 'a'] ∨ p.1 = ['-', 'F'] ∨ p.1 = ['-', 'S'] ∨ p.1 = ['-', 'C'] := by
  rcases List.mem_append.mp hp with hp | hp
  · rcases List.mem_cons.mp hp with rfl | hp
    · exact .inl rfl
    rcases List.mem_cons.mp hp with rfl | hp
    · exact .inr (.inl rfl)
    rcases List.mem_append.mp hp with hp | hp
    · obtain ⟨s, -, rfl⟩ := List.mem_map.mp hp
      exact .inr (.inr (.inl rfl))
    · obtain ⟨t, -, rfl⟩ := List.mem_map.mp hp
      exact .inr (.inr (.inr rfl))
  · exact .inr (.inl (filters_flags p hp))

/-- The flags and arguments of a line up to its system calls. -/
def callPairs (rule : SyscallRule) (arch : Str) : List Pair :=
  (['-', 'a'], "always,exit") :: (['-', 'F'], "arch=" ++ arch) :: rule.syscalls.map (['-', 'S'], ·)

/-- The flags and arguments of a line between its system calls and its key. -/
def argPairs (rule : SyscallRule) (exitFilter : Option Str) : List Pair :=
  rule.comparisonTexts.map (['-', 'C'], ·) ++ (rule.fieldTexts.map (['-', 'F'], ·) ++
    exitFilter.toList.map (fun exit => (['-', 'F'], "exit=-".toList ++ exit)) ++
    auidPairs rule.auidMin rule.includeAuidUnset)

theorem bodyPairs_eq (exitFilter : Option Str) :
    bodyPairs rule arch exitFilter = callPairs rule arch ++ argPairs rule exitFilter := by
  simp only [bodyPairs, headPairs, callPairs, argPairs, List.cons_append, List.append_assoc]

theorem argPairs_flag {exitFilter : Option Str} {p : Pair} (hp : p ∈ argPairs rule exitFilter) :
    p.1 = ['-', 'F'] ∨ p.1 = ['-', 'C'] := by
  rcases List.mem_append.mp hp with hp | hp
  · obtain ⟨t, -, rfl⟩ := List.mem_map.mp hp
    exact .inr rfl
  · exact .inl (filters_flags p hp)

section Words

variable {exitFilter : Option Str} (hrule : RuleWords rule key) (harch : arch ∈ rule.arches)
  (hkey : rule.key = some key) (hexit : ∀ exit ∈ exitFilter, BlankFree exit)

include hrule harch hkey hexit

/-- **Where an argument ends in the flag of a key**, the key that is read is a flag. -/
theorem extractKey_flag (hends : ∃ p ∈ bodyPairs rule arch exitFilter, ['-', 'k'] <:+ p.2) :
    ∃ f, IsFlag f ∧ extractKey (buildSyscallRuleLine rule arch exitFilter) = some f := by
  have hflags : ∀ p ∈ bodyPairs rule arch exitFilter, Word p.1 ∧ ¬['-', 'k'] <:+ p.1 := by
    intro p hp
    rcases bodyPairs_flag hp with h | h | h | h <;> rw [h] <;> exact ⟨⟨by decide, by decide⟩, by decide⟩
  obtain ⟨f, hf, hhead⟩ := @scan_flag 'k' ['-', 'k'] [key] (word_flag rfl) _ [] hflags hends
  refine ⟨f, ?_, ?_⟩
  · rcases List.mem_cons.mp hf with rfl | hf
    · exact isFlag_mk 'k'
    · obtain ⟨p, hp, rfl⟩ := List.mem_map.mp hf
      exact bodyPairs_flags p hp
  · rw [extractKey_eq, lineWords_syscall hrule harch hkey exitFilter hexit, rulePairs, pairWords_append]
    change ((scan ['-', 'k'] (argSplit [] nonBlank) [] _).head? <|> _) = _
    have hwords : pairWords [((['-', 'k'], key) : Pair)] = [['-', 'k'], key] := rfl
    rw [hwords, hhead]
    rfl

/-- **Where an argument ends in the flag of a system call**, a flag is read as a system call. -/
theorem collectSyscalls_flag (hends : ∃ p ∈ argPairs rule exitFilter, ['-', 'S'] <:+ p.2) :
    ∃ f, '-' ∈ f ∧ f ∈ collectSyscalls (buildSyscallRuleLine rule arch exitFilter) := by
  have hflags : ∀ p ∈ argPairs rule exitFilter, Word p.1 ∧ ¬['-', 'S'] <:+ p.1 := by
    intro p hp
    rcases argPairs_flag hp with h | h <;> rw [h] <;> exact ⟨⟨by decide, by decide⟩, by decide⟩
  have hcalls : ∀ p ∈ callPairs rule arch, IsFlag p.1 ∧ '-' ∉ p.2 := by
    intro p hp
    rcases List.mem_cons.mp hp with rfl | hp
    · exact ⟨isFlag_mk 'a', by decide⟩
    rcases List.mem_cons.mp hp with rfl | hp
    · exact ⟨isFlag_mk 'F', List.not_mem_append (by decide) (nameClass_dash (hrule.arches arch harch).2)⟩
    · obtain ⟨s, hs, rfl⟩ := List.mem_map.mp hp
      exact ⟨isFlag_mk 'S', nameClass_dash (hrule.syscalls s hs).2⟩
  obtain ⟨u', hargs, -⟩ := @flagArgs_pairs_append (callPairs rule arch) 'S' nonBlank (fun p hp => (hcalls p hp).1)
    (fun p hp => leftOver_clean nonBlank (not_suffix_of_not_mem (hcalls p hp).2 'S'))
    (pairWords (argPairs rule exitFilter) ++ [['-', 'k'], key])
  obtain ⟨f, hf, hhead⟩ := @scan_flag 'S' ['-', 'k'] [key] (word_flag rfl) _ u' hflags hends
  have hmem : f ∈ flagArgs ['-', 'S'] [] nonBlank (lineWords (buildSyscallRuleLine rule arch exitFilter)) := by
    rw [lineWords_syscall hrule harch hkey exitFilter hexit, rulePairs, bodyPairs_eq, pairWords_append,
      pairWords_append, List.append_assoc]
    change f ∈ flagArgs ['-', 'S'] [] nonBlank
      (pairWords (callPairs rule arch) ++ (pairWords (argPairs rule exitFilter) ++ [['-', 'k'], key]))
    rw [hargs]
    exact List.mem_append_right _ (List.mem_of_mem_head? hhead)
  -- a flag has no comma
  have hone : '-' ∈ f ∧ words (allBut ',') f = [f] := by
    have hcases : f = ['-', 'k'] ∨ f = ['-', 'F'] ∨ f = ['-', 'C'] := by
      rcases List.mem_cons.mp hf with rfl | hf
      · exact .inl rfl
      · obtain ⟨p, hp, rfl⟩ := List.mem_map.mp hf
        exact .inr (argPairs_flag hp)
    rcases hcases with rfl | rfl | rfl <;> exact ⟨by decide, by decide⟩
  refine ⟨f, hone.1, ?_⟩
  rw [collectSyscalls_eq]
  exact List.mem_flatMap.mpr ⟨f, hmem, hone.2 ▸ List.mem_singleton_self f⟩

/-- What a line that is recovered was built from ends plainly. -/
theorem RecoversSyscall.endsPlainly (h : RecoversSyscall params rule key arch exit
    (buildSyscallRuleLine rule arch exitFilter)) (hflag : ¬IsFlag key) {p : Pair}
    (hp : p ∈ argPairs rule exitFilter) : EndsPlainly p.2 := by
  constructor
  · intro hends
    have hbody : p ∈ bodyPairs rule arch exitFilter := by
      rw [bodyPairs_eq]
      exact List.mem_append_right _ hp
    obtain ⟨f, hf, hread⟩ := extractKey_flag hrule harch hkey hexit ⟨p, hbody, hends⟩
    rw [h.key] at hread
    exact hflag (Option.some.inj hread ▸ hf)
  · intro hends
    obtain ⟨f, hdash, hread⟩ := collectSyscalls_flag hrule harch hkey hexit ⟨p, hp, hends⟩
    rw [h.syscalls] at hread
    exact nameClass_dash (hrule.syscalls f hread).2 hdash

omit hrule harch hkey hexit in

/-- A filter on the least `auid` is the one of the rule. -/
theorem eq_of_auid_prefix (hfilters : ∀ t ∈ rule.fieldTexts, ¬"auid>=".toList <+: t) {p : Pair}
    (hp : p ∈ rulePairs rule arch exitFilter key) (hF : p.1 = ['-', 'F']) (hpre : "auid>=".toList <+: p.2) :
    ∃ min ∈ rule.auidMin, p.2 = "auid>=".toList ++ fmtInt min := by
  have hother : ∀ {a b : Str}, "auid>=".toList <+: a ++ b → a.length ≤ 6 → a <+: "auid>=".toList := fun hab hlen =>
    List.prefix_of_prefix_length_le (List.prefix_append _ _) hab hlen
  rcases List.mem_append.mp hp with hp | hp
  · rw [bodyPairs_eq] at hp
    rcases List.mem_append.mp hp with hp | hp
    · rcases List.mem_cons.mp hp with rfl | hp
      · exact absurd hF (by decide : ['-', 'a'] ≠ ['-', 'F'])
      rcases List.mem_cons.mp hp with rfl | hp
      · exact absurd (hother (a := "arch=".toList) hpre (by decide)) (by decide)
      · obtain ⟨s, -, rfl⟩ := List.mem_map.mp hp
        exact absurd hF (by decide : ['-', 'S'] ≠ ['-', 'F'])
    · rcases List.mem_append.mp hp with hp | hp
      · obtain ⟨t, -, rfl⟩ := List.mem_map.mp hp
        exact absurd hF (by decide : ['-', 'C'] ≠ ['-', 'F'])
      rcases List.mem_append.mp hp with hp | hp
      · rcases List.mem_append.mp hp with hp | hp
        · obtain ⟨t, ht, rfl⟩ := List.mem_map.mp hp
          exact absurd hpre (hfilters t ht)
        · obtain ⟨exit, -, rfl⟩ := List.mem_map.mp hp
          exact absurd (hother (a := "exit=-".toList) hpre (by decide)) (by decide)
      · rcases List.mem_append.mp hp with hp | hp
        · cases hmin : rule.auidMin with
          | none =>
            rw [hmin] at hp
            cases hp
          | some min =>
            rw [hmin] at hp
            rw [List.mem_singleton.mp hp]
            exact ⟨min, rfl, rfl⟩
        · cases hunset : rule.includeAuidUnset with
          | false =>
            rw [hunset] at hp
            cases hp
          | true =>
            rw [hunset] at hp
            rw [List.mem_singleton.mp hp] at hpre
            exact absurd hpre (by decide)
  · rw [List.mem_singleton.mp hp] at hF
    exact absurd hF (by decide : ['-', 'k'] ≠ ['-', 'F'])

/-- The least `auid` of a line that is recovered is read back. -/
theorem RecoversSyscall.printsBack (h : RecoversSyscall params rule key arch exit
    (buildSyscallRuleLine rule arch exitFilter)) (hfilters : ∀ t ∈ rule.fieldTexts, ¬"auid>=".toList <+: t)
    {min : Flt} (hmin : rule.auidMin = some min)
    (hwhole : (∃ n : Nat, min = .fin n ∧ roundDouble n = .fin n) ∨ min = .inf false) : PrintsBack min := by
  have hauid := h.auid
  unfold matchesAuidFilters at hauid
  rw [hmin, Bool.and_eq_true] at hauid
  have hleast := hauid.1
  dsimp only at hleast
  rw [lineMatchesAuidMin_eq, lineWords_syscall hrule harch hkey exitFilter hexit, List.any_eq_true] at hleast
  obtain ⟨raw, hraw, -⟩ := hleast
  change raw ∈ flagArgs ['-', 'F'] "auid>=".toList (.cls 'd') _ at hraw
  rw [flagArgs_pairs rulePairs_flags (by decide) (by decide)] at hraw
  obtain ⟨p, hp, hread⟩ := List.mem_filterMap.mp hraw
  -- the only argument that begins so is the one of the filter itself
  obtain ⟨hne, hdigits, hprefix⟩ : raw ≠ [] ∧ (∀ x ∈ raw, (Single.cls 'd').test x = true) ∧ raw <+: fmtInt min := by
    split at hread
    next hF =>
      obtain ⟨⟨a, rest⟩, harg, rfl⟩ := Option.map_eq_some_iff.mp hread
      obtain ⟨hpre, hne, hall, htext⟩ := argSplit_some harg
      obtain ⟨min', hmin', hp2⟩ := eq_of_auid_prefix hfilters hp hF hpre
      rw [hmin] at hmin'
      obtain rfl := Option.some.inj hmin'
      rw [hp2] at htext
      exact ⟨hne, hall, rest, (List.append_cancel_left htext).symm⟩
    next => cases hread
  obtain ⟨d, raw', rfl⟩ := List.exists_cons_of_ne_nil hne
  -- what is too large is printed with a minus
  have hminus : fmtInt min ≠ intStr (-2 ^ 63) := by
    intro hprint
    rw [hprint] at hprefix
    obtain rfl : d = '-' := (List.cons_prefix_cons.mp hprefix).1
    exact absurd (hdigits '-' List.mem_cons_self) (by decide)
  rcases hwhole with ⟨n, rfl, hround⟩ | rfl
  · refine ⟨n, rfl, ?_, hround⟩
    by_contra hlarge
    refine hminus ?_
    have hrange : ¬(-2 ^ 63 ≤ ⌊(n : Rat)⌋ ∧ ⌊(n : Rat)⌋ < 2 ^ 63) := by
      rw [Int.floor_natCast]
      omega
    simp only [fmtInt, if_pos (show (0 : Rat) ≤ n from Nat.cast_nonneg n), if_neg hrange]
  · exact absurd rfl hminus

end Words

/-- What is found has exit values that are accepted. -/
theorem exits_of_found {lines : List Str} {missing : MissingSyscalls}
    (h : findSyscallRuleInLines lines params auidMin = .ok (.ok missing)) :
    params.field "exits" = .nil ∨ (params.field "exits").ipairs ≠ [] := by
  by_contra hno
  rw [not_or, not_not] at hno
  unfold findSyscallRuleInLines at h
  have hexits : ∃ err, normalizeExitRequirements (params.field "exits") = .error err := by
    unfold normalizeExitRequirements
    rw [if_neg (mt Value.isNil_iff.mp hno.1), if_pos hno.2]
    exact ⟨_, rfl⟩
  obtain ⟨err, herr⟩ := hexits
  rw [herr] at h
  split at h <;> cases h

/-- **Rules that are found can be read back**, if none of their parts is taken for another. -/
theorem SyscallFound.readable {syscalls arches lines : List Str} (h : SyscallFound params auidMin key lines)
    (hplain : Unambiguous params auidMin key) (hkey : params.field "key" = .str key)
    (hsafe : isSafeKey (.str key) = true)
    (hsyscalls : normalizeStringList (params.field "syscalls") "syscalls" "audit.ensure_syscall_rule" = .ok syscalls)
    (harches : normalizeStringList (archesParam params) "arches" "audit.ensure_syscall_rule" = .ok arches) :
    SyscallReadable params auidMin := by
  have hexits := exits_of_found h.found
  obtain ⟨-, hcalls, hcallmem⟩ := normalizeStringList_ok hsyscalls
  obtain ⟨hne, harchs, harchmem⟩ := normalizeStringList_ok harches
  obtain ⟨arch, harch⟩ : ∃ arch, arch ∈ arches := by
    obtain ⟨v, hv⟩ := List.exists_mem_of_ne_nil _ hne
    obtain ⟨a, rfl, -⟩ := harchs v hv
    exact ⟨a, (harchmem a).mpr hv⟩
  have hrecovered : ∀ exit, ExitOf params exit → RecoversSyscall params (syscallRule params syscalls arches auidMin) key
      arch exit (buildSyscallRuleLine (syscallRule params syscalls arches auidMin) arch (exitFilterFor exit)) := by
    intro exit hexit
    obtain ⟨line, -, rfl, hrec⟩ := h.recovered syscalls arches hsyscalls harches arch harch exit hexit
    exact hrec
  obtain ⟨exit, hexit⟩ : ∃ exit, ExitOf params exit := by
    rcases hexits with hnil | hne
    · exact ⟨.nil, .inl ⟨hnil, rfl⟩⟩
    · obtain ⟨e, he⟩ := List.exists_mem_of_ne_nil _ hne
      exact ⟨e, .inr he⟩
  obtain ⟨hlist, hcomparisons, hbuilt⟩ := (hrecovered exit hexit).comparisons_words hplain
  obtain ⟨htable, hfields⟩ := (hrecovered exit hexit).fields_words hplain
  have hfieldTexts : ∀ t ∈ (syscallRule params syscalls arches auidMin).fieldTexts, Word t := by
    intro t ht
    obtain ⟨field, hfield, ht⟩ := List.mem_filterMap.mp ht
    exact (hfields field hfield).2 t ht
  have hrule : RuleWords (syscallRule params syscalls arches auidMin) key :=
    { arches := fun a ha => by
        obtain ⟨t, ht, hname⟩ := harchs _ ((harchmem a).mp ha)
        rw [Value.str.inj ht]
        exact hname
      syscalls := fun s hs => by
        obtain ⟨t, ht, hname⟩ := hcalls _ ((hcallmem s).mp hs)
        rw [Value.str.inj ht]
        exact hname
      comparisons := hcomparisons
      fields := hfieldTexts
      key := word_of_isSafeKey hsafe }
  have hkeyText : (syscallRule params syscalls arches auidMin).key = some key := congrArg keyText hkey
  have hblank : ∀ exit, ExitOf params exit → ∀ e ∈ exitFilterFor exit, BlankFree e := by
    intro exit hexit e he
    unfold exitFilterFor at he
    split at he
    · cases he
    next hnil =>
      obtain rfl := Option.some.inj he
      exact (hrecovered exit hexit).exit_blankFree (Bool.eq_false_iff.mpr hnil)
  have hends : ∀ exit, ExitOf params exit →
      ∀ p ∈ argPairs (syscallRule params syscalls arches auidMin) (exitFilterFor exit), EndsPlainly p.2 :=
    fun exit hexit p hp =>
      (hrecovered exit hexit).endsPlainly hrule harch hkeyText (hblank exit hexit) hplain.key hp
  constructor
  · refine ⟨hlist, fun t ht => ⟨hcomparisons t ht, ?_⟩, hbuilt⟩
    exact hends exit hexit (['-', 'C'], t) (List.mem_append_left _ (List.mem_map.mpr ⟨t, ht, rfl⟩))
  · refine ⟨htable, fun field hfield => ⟨(hfields field hfield).1, fun t ht => ⟨(hfields field hfield).2 t ht, ?_⟩⟩⟩
    refine hends exit hexit (['-', 'F'], t) (List.mem_append_right _ (List.mem_append_left _
      (List.mem_append_left _ (List.mem_map.mpr ⟨t, ?_, rfl⟩))))
    exact List.mem_filterMap.mpr ⟨field, hfield, ht⟩
  · refine hexits.imp id fun hne => ⟨hne, fun e he => ?_⟩
    have hfilter : exitFilterFor e = some (stripMinus e.tostring) := by
      rw [exitFilterFor, isNil_of_mem_ipairs he]
      rfl
    refine ⟨hblank e (.inr he) _ hfilter, ?_⟩
    refine hends e (.inr he) (['-', 'F'], "exit=-".toList ++ stripMinus e.tostring) (List.mem_append_right _
      (List.mem_append_left _ (List.mem_append_right _ ?_)))
    rw [hfilter]
    exact List.mem_singleton_self _
  · intro min hmin
    refine (hrecovered exit hexit).printsBack hrule harch hkeyText (hblank exit hexit) ?_ hmin (hplain.auidMin min hmin)
    exact hplain.filters

end Missed

/-- **Audit rules that are written are found**, with everything recovered: a watch exactly if its path can be read back;
a system call rule if its parameters can, and exactly then if none of its parts is taken for another. -/
theorem audit_rules_found {env : Env} (henv : env.Reliable) {paths : AuditPaths} {params : Value} {key ruleFile : Str}
    {s s' : Sys} (hkey : params.field "key" = .str key) :
    (∀ (view : View) (path permissions : Str), params.field "path" = .str path →
      canonicalizePermissions (params.field "permissions") = some permissions →
      (resolveRuleFile env paths params s).1 = .ok (.ok ruleFile) →
      ensureWatchRule env paths params s = (.ok (.ok ()), s') →
      (((findWatchRuleInLines view (s'.linesAt ruleFile) params).isSome = true ∧
        RecoversWatch (buildWatchLine path permissions (some key)) path permissions key) ↔ WatchReadable path key)) ∧
    (∀ (auidMin : Option Flt) (s₁ : Sys), params.field "required_arches" = params.field "arches" →
      (params.field "arches").truthy = true →
      ruleAuidMin env (params.field "auid_min") s = (.ok (.ok auidMin), s₁) →
      (resolveRuleFile env paths params s₁).1 = .ok (.ok ruleFile) →
      ensureSyscallRule env paths params s = (.ok (.ok ()), s') →
      (SyscallReadable params auidMin → SyscallFound params auidMin key (s'.linesAt ruleFile)) ∧
      (Unambiguous params auidMin key →
        (SyscallFound params auidMin key (s'.linesAt ruleFile) ↔ SyscallReadable params auidMin))) := by
  constructor
  · intro view path permissions hpath hperm hfile h
    exact watch_found_iff henv view hkey hpath hperm hfile h
  · intro auidMin s₁ harches hlist hauid hfile h
    have hfound : SyscallReadable params auidMin → SyscallFound params auidMin key (s'.linesAt ruleFile) :=
      syscall_found henv hkey harches hlist hauid hfile h
    refine ⟨hfound, fun hplain => ⟨fun hfound' => ?_, hfound⟩⟩
    obtain ⟨syscalls, arches, -, -, -, -, hsyscalls, harchlist, -, hsafe, -, -⟩ := ensureSyscallRule_ok h
    rw [hkey] at hsafe
    exact hfound'.readable hplain hkey (hsafe.resolve_left (by simp [Value.isNil])) hsyscalls harchlist

/-- A rule file with one rule. -/
def auditRulesSys : Sys := .oneFile "/etc/audit/rules.d/99-loongshield-seharden.rules" "-D\n"

/-- A watch of a path with the key `identity`. -/
def watchParams (path : Str) : Value :=
  .record 1 [("rule_file", .str "/etc/audit/rules.d/99-loongshield-seharden.rules"), ("path", .str path),
    ("permissions", .str "wa"), ("key", .str "identity")]

/-- The parameters for failed accesses to files, with the key `access`; an empty comparison is not written. -/
def accessParams : Value :=
  .record 1 [("rule_file", .str "/etc/audit/rules.d/99-loongshield-seharden.rules"),
    ("syscalls", .list 2 [.str "open", .str "openat"]), ("arches", .list 3 [.str "b64", .str "b32"]),
    ("required_arches", .list 3 [.str "b64", .str "b32"]), ("exits", .list 4 [.str "-EACCES", .str "-EPERM"]),
    ("comparisons_any", .list 5 [.str "uid!=euid", .str ""]), ("auid_min", .num 1000), ("key", .str "access")]

theorem accessParams_readable : SyscallReadable accessParams (some (.fin 1000)) where
  comparisons :=
    have htexts : (accessParams.field "comparisons_any").ipairs.filterMap comparisonText = ["uid!=euid".toList] := by
      decide +kernel
    { list := .inr (.inr rfl)
      texts := fun t ht => by
        rw [htexts] at ht
        rw [List.mem_singleton.mp ht]
        exact ⟨⟨by decide, by decide⟩, by decide, by decide⟩
      built := .inr (by rw [htexts]; simp) }
  fields := ⟨by decide, by intro field hfield; cases hfield⟩
  exits := by
    have htexts : (accessParams.field "exits").ipairs.map Value.tostring = ["-EACCES".toList, "-EPERM".toList] := by
      decide +kernel
    refine .inr ⟨fun hnil => ?_, fun e he => ?_⟩
    · rw [hnil] at htexts
      cases htexts
    · have hmem := List.mem_map_of_mem (f := Value.tostring) he
      rw [htexts] at hmem
      rcases List.mem_cons.mp hmem with heq | hmem
      · rw [heq]
        exact ⟨by decide, by decide, by decide⟩
      · rw [List.mem_singleton.mp hmem]
        exact ⟨by decide, by decide, by decide⟩
  auidMin min hmin := by
    obtain rfl := Option.some.inj hmin
    exact ⟨1000, rfl, by decide, by decide +kernel⟩

theorem accessParams_unambiguous : Unambiguous accessParams (some (.fin 1000)) "access" where
  comparisons c hc := by
    have hstrings : ((accessParams.field "comparisons_any").ipairs.all fun c => (keyText c).isSome) = true := by
      decide +kernel
    have hc' := List.all_eq_true.mp hstrings c hc
    cases c with
    | str t => exact ⟨t, rfl⟩
    | _ => cases hc'
  blanks := .inl fun t ht => (accessParams_readable.comparisons.texts t ht).1.2
  fields := by
    intro field hfield
    cases hfield
  filters := by
    intro t ht
    cases ht
  key := by
    rintro ⟨x, hx⟩
    cases hx
  auidMin min hmin := by
    obtain rfl := Option.some.inj hmin
    exact .inl ⟨1000, rfl, by decide +kernel⟩

theorem access_rules_found :
    (ensureSyscallRule calmEnv defaultAuditPaths accessParams auditRulesSys).1 = .ok (.ok ()) ∧
    SyscallFound accessParams (some (.fin 1000)) "access"
      ((ensureSyscallRule calmEnv defaultAuditPaths accessParams auditRulesSys).2.linesAt
        "/etc/audit/rules.d/99-loongshield-seharden.rules") ∧
    (SyscallFound accessParams (some (.fin 1000)) "access"
      ((ensureSyscallRule calmEnv defaultAuditPaths accessParams auditRulesSys).2.linesAt
        "/etc/audit/rules.d/99-loongshield-seharden.rules") ↔ SyscallReadable accessParams (some (.fin 1000))) ∧
    ((findWatchRuleInLines (auditRulesSys.view fun _ => none)
      ((ensureWatchRule calmEnv defaultAuditPaths (watchParams "/etc/passwd") auditRulesSys).2.linesAt
        "/etc/audit/rules.d/99-loongshield-seharden.rules") (watchParams "/etc/passwd")).isSome = true ∧
      RecoversWatch (buildWatchLine "/etc/passwd" "wa" (some "identity")) "/etc/passwd" "wa" "identity" ↔
        WatchReadable "/etc/passwd" "identity") := by
  have hrun : (ensureSyscallRule calmEnv defaultAuditPaths accessParams auditRulesSys).1 = .ok (.ok ()) := by
    decide +kernel
  have hwatch : (ensureWatchRule calmEnv defaultAuditPaths (watchParams "/etc/passwd") auditRulesSys).1 =
    .ok (.ok ()) := by
    decide +kernel
  refine ⟨hrun, ?_, ?_, ?_⟩
  · exact ((audit_rules_found calmEnv_reliable rfl).2 _ auditRulesSys rfl rfl rfl rfl (Prod.ext hrun rfl)).1
      accessParams_readable
  · exact ((audit_rules_found calmEnv_reliable rfl).2 _ auditRulesSys rfl rfl rfl rfl (Prod.ext hrun rfl)).2
      accessParams_unambiguous
  · exact (audit_rules_found calmEnv_reliable rfl).1 _ _ _ rfl rfl rfl (Prod.ext hwatch rfl)

/-- A path with a blank is accepted and written, and is not found. -/
theorem blank_path_not_found :
    (ensureWatchRule calmEnv defaultAuditPaths (watchParams "/srv/my files") auditRulesSys).1 = .ok (.ok ()) ∧
    findWatchRuleInLines (auditRulesSys.view fun _ => none)
      ((ensureWatchRule calmEnv defaultAuditPaths (watchParams "/srv/my files") auditRulesSys).2.linesAt
        "/etc/audit/rules.d/99-loongshield-seharden.rules") (watchParams "/srv/my files") = none ∧
    (ensureWatchRule calmEnv defaultAuditPaths (watchParams "/srv/my files") auditRulesSys).2.linesAt
        "/etc/audit/rules.d/99-loongshield-seharden.rules" =
      ["-D".toList, "-w /srv/my files -p wa -k identity".toList] :=
  ⟨by decide +kernel, Option.isNone_iff_eq_none.mp (by decide +kernel), by decide +kernel⟩

end Seharden
