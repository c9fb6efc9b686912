import Loongshield.Seharden.AuditRoundTrip

/-!
# Reading back a system call rule

- `rulePairs`: the flags and arguments of a built line, and `lineWords_syscall`: they are its words;
- `RuleReadable`, `LineReadable`: no argument has a blank, and none ends in the flag of a key or of a system call;
- `LineReadable.extractKey`, `LineReadable.collectSyscalls`, …: what is read from a line that is readable is what it was
  built from.
-/

namespace Seharden

open Lua
open Lua.Pattern

/-! ## The texts of a rule -/

/-- The text of a comparison that is built. -/
def comparisonText : Value → Option Str
  | .str [] => none
  | .str s => some s
  | _ => none

theorem comparisonText_eq_some {c : Value} {t : Str} : comparisonText c = some t ↔ t ≠ [] ∧ c = .str t := by
  constructor
  · intro h
    unfold comparisonText at h
    split at h
    · cases h
    next hne =>
      cases h
      exact ⟨fun hnil => hne (hnil ▸ rfl), rfl⟩
    · cases h
  · rintro ⟨hne, rfl⟩
    cases t with
    | nil => exact absurd rfl hne
    | cons x xs => rfl

/-- The text of a field that is built. -/
def fieldText (field : Value) : Option Str :=
  if field.isTable && (field.field "name").truthy && (field.field "value").truthy then
    some ((field.field "name").tostring ++ "=" ++ (field.field "value").tostring)
  else none

/-- The comparisons of a rule. -/
def SyscallRule.comparisonTexts (rule : SyscallRule) : List Str := rule.comparisonsAny.ipairs.filterMap comparisonText

/-- The fields of a rule. -/
def SyscallRule.fieldTexts (rule : SyscallRule) : List Str := rule.fields.ipairs.filterMap fieldText

/-- The flags and arguments of the filters on `auid`. -/
def auidPairs (auidMin : Option Flt) (includeAuidUnset : Bool) : List Pair :=
  (match auidMin with
    | some min => [(['-', 'F'], "auid>=" ++ fmtInt min)]
    | none => []) ++ if includeAuidUnset then [(['-', 'F'], "auid!=unset".toList)] else []

/-- The flags and arguments of a line, up to its comparisons. -/
def headPairs (rule : SyscallRule) (arch : Str) : List Pair :=
  (['-', 'a'], "always,exit") :: (['-', 'F'], "arch=" ++ arch) ::
    (rule.syscalls.map (['-', 'S'], ·) ++ rule.comparisonTexts.map (['-', 'C'], ·))

/-- The flags and arguments of a line without its key. -/
def bodyPairs (rule : SyscallRule) (arch : Str) (exitFilter : Option Str) : List Pair :=
  headPairs rule arch ++ (rule.fieldTexts.map (['-', 'F'], ·) ++
    exitFilter.toList.map (fun exit => (['-', 'F'], "exit=-".toList ++ exit)) ++
    auidPairs rule.auidMin rule.includeAuidUnset)

/-- The flags and arguments of a line. -/
def rulePairs (rule : SyscallRule) (arch : Str) (exitFilter : Option Str) (key : Str) : List Pair :=
  bodyPairs rule arch exitFilter ++ [(['-', 'k'], key)]

/-- An argument that does not end in the flag of a key or of a system call. -/
def EndsPlainly (s : Str) : Prop := ¬['-', 'k'] <:+ s ∧ ¬['-', 'S'] <:+ s

/-- A number that is printed and read back: a natural number that is a double, and below `2 ^ 63`. -/
def PrintsBack (min : Flt) : Prop := ∃ n : Nat, min = .fin n ∧ n < 2 ^ 63 ∧ roundDouble n = .fin n

/-- A rule whose arguments are words. -/
structure RuleWords (rule : SyscallRule) (key : Str) : Prop where
  arches : ∀ arch ∈ rule.arches, arch ≠ [] ∧ ∀ x ∈ arch, nameClass.test x = true
  syscalls : ∀ s ∈ rule.syscalls, s ≠ [] ∧ ∀ x ∈ s, nameClass.test x = true
  comparisons : ∀ t ∈ rule.comparisonTexts, Word t
  fields : ∀ t ∈ rule.fieldTexts, Word t
  key : Word key

/-- A rule whose arguments are words, and end plainly. -/
structure RuleReadable (rule : SyscallRule) (key : Str) : Prop where
  arches : ∀ arch ∈ rule.arches, arch ≠ [] ∧ ∀ x ∈ arch, nameClass.test x = true
  syscalls : ∀ s ∈ rule.syscalls, s ≠ [] ∧ ∀ x ∈ s, nameClass.test x = true
  comparisons : ∀ t ∈ rule.comparisonTexts, Word t ∧ EndsPlainly t
  fields : ∀ t ∈ rule.fieldTexts, Word t ∧ EndsPlainly t
  auidMin : ∀ min ∈ rule.auidMin, PrintsBack min
  key : Word key

theorem RuleReadable.toWords {rule : SyscallRule} {key : Str} (h : RuleReadable rule key) : RuleWords rule key where
  arches := h.arches
  syscalls := h.syscalls
  comparisons t ht := (h.comparisons t ht).1
  fields t ht := (h.fields t ht).1
  key := h.key

/-- An exit value whose filter is a word, and ends plainly. -/
def ExitReadable (exit : Str) : Prop := BlankFree exit ∧ EndsPlainly ("exit=-" ++ exit)

/-- A field that is built, and whose name stands for itself in a pattern. -/
def FieldReadable (field : Value) : Prop := field.isTable = true → (field.field "name").truthy = true →
  (field.field "value").truthy = true ∧ (field.field "value").tostring ≠ [] ∧ Plain (field.field "name").tostring

/-! ## The words of a built line -/

theorem concatBlank_cons (a : Str) {parts : List Str} (h : parts ≠ []) :
    concatBlank (a :: parts) = a ++ ' ' :: concatBlank parts := by
  cases parts with
  | nil => exact absurd rfl h
  | cons b parts => simp [concatBlank, List.intercalate]

theorem lineWords_concatBlank : ∀ parts : List Str, lineWords (concatBlank parts) = parts.flatMap lineWords
  | [] => rfl
  | [a] => by simp [concatBlank, List.intercalate]
  | a :: b :: parts => by
    rw [concatBlank_cons a (by simp), lineWords_blank, lineWords_concatBlank (b :: parts)]
    rfl

theorem lineWords_fragment (text : Str) (parts : List Str) :
    lineWords (text ++ fragment parts) = lineWords text ++ parts.flatMap lineWords := by
  unfold fragment
  split
  next h => simp [h]
  next => rw [lineWords_blank, lineWords_concatBlank]

/-- A flag and its argument, after a text. -/
theorem lineWords_flag (text : Str) {flag arg : Str} (hflag : Word flag) (harg : Word arg) :
    lineWords (text ++ ' ' :: (flag ++ ' ' :: arg)) = lineWords text ++ [flag, arg] := by
  rw [lineWords_blank, lineWords_blank, lineWords_word hflag, lineWords_word harg]
  rfl

theorem pairWords_append (a b : List Pair) : pairWords (a ++ b) = pairWords a ++ pairWords b := List.flatMap_append

/-- The text of the filter on the exit value. -/
def exitFragment : Option Str → Str
  | some exit => " -F exit=-" ++ exit
  | none => []

/-- The words of parts that are a flag and an argument each. -/
theorem flatMap_lineWords {flag : Str} (hflag : Word flag) : ∀ {args : List Str}, (∀ arg ∈ args, Word arg) →
    (args.map fun arg => flag ++ ' ' :: arg).flatMap lineWords = pairWords (args.map (flag, ·))
  | [], _ => rfl
  | arg :: args, h => by
    have ih := flatMap_lineWords hflag fun a ha => h a (List.mem_cons_of_mem arg ha)
    rw [List.map_cons, List.flatMap_cons, ih, lineWords_blank, lineWords_word hflag,
      lineWords_word (h arg List.mem_cons_self)]
    rfl

section Built

variable {rule : SyscallRule} {key : Str} (hrule : RuleWords rule key)

theorem word_flag {x : Char} (hx : isspace x = false) : Word ['-', x] := by
  refine ⟨by simp, ?_⟩
  intro y hy
  rcases List.mem_cons.mp hy with rfl | hy
  · rfl
  · rw [List.mem_singleton.mp hy]
    exact hx

theorem comparisonParts_eq (v : Value) :
    v.ipairs.filterMap comparisonPart = (v.ipairs.filterMap comparisonText).map fun arg =>
      ['-', 'C'] ++ ' ' :: arg := by
  rw [List.map_filterMap]
  congr 1
  funext v
  cases v with
  | str s => cases s <;> rfl
  | _ => rfl

theorem fieldParts_eq (v : Value) :
    v.ipairs.filterMap fieldPart = (v.ipairs.filterMap fieldText).map fun arg => ['-', 'F'] ++ ' ' :: arg := by
  rw [List.map_filterMap]
  congr 1
  funext v
  unfold fieldPart fieldText
  split
  · have hassoc : ∀ a b c d : Str, a ++ b ++ c ++ d = a ++ (b ++ c ++ d) := fun a b c d => by simp
    exact congrArg some (hassoc "-F " _ _ _)
  · rfl

theorem fmtInt_blankFree (n : Flt) : BlankFree (fmtInt n) := by
  have hnat : ∀ k : Nat, BlankFree (natStr k) := fun k x hx =>
    (isspace_of_isDigit (Nat.isDigit_of_mem_toDigits (by decide) (by decide) hx)).1
  have hint : ∀ i : Int, BlankFree (intStr i) := by
    intro i x hx
    unfold intStr at hx
    split at hx
    · rcases List.mem_cons.mp hx with rfl | hx
      · rfl
      · exact hnat _ x hx
    · exact hnat _ x hx
  unfold fmtInt
  split <;> exact hint _

theorem lineWords_auid (text : Str) (auidMin : Option Flt) (includeAuidUnset : Bool) :
    lineWords (text ++ buildAuidFragment auidMin includeAuidUnset) =
      lineWords text ++ pairWords (auidPairs auidMin includeAuidUnset) := by
  have hF : Word ['-', 'F'] := word_flag rfl
  have hmin : ∀ min, Word ("auid>=".toList ++ fmtInt min) := fun min =>
    word_append ⟨by decide, by decide⟩ (fmtInt_blankFree min)
  have hunset : Word "auid!=unset".toList := ⟨by decide, by decide⟩
  cases auidMin with
  | none =>
    cases includeAuidUnset with
    | false => exact (congrArg lineWords (List.append_nil text)).trans (List.append_nil _).symm
    | true => exact lineWords_flag text hF hunset
  | some min =>
    cases includeAuidUnset with
    | false => exact lineWords_flag text hF (hmin min)
    | true =>
      have htext : text ++ buildAuidFragment (some min) true =
          text ++ ' ' :: (['-', 'F'] ++ ' ' :: ("auid>=".toList ++ fmtInt min)) ++
            ' ' :: (['-', 'F'] ++ ' ' :: "auid!=unset".toList) := by
        have hassoc : ∀ a b c d : Str, a ++ (b ++ c ++ d) = a ++ (b ++ c) ++ d := fun a b c d => by simp
        exact hassoc text " -F auid>=" (fmtInt min) " -F auid!=unset"
      rw [htext, lineWords_flag _ hF hunset, lineWords_flag text hF (hmin min), List.append_assoc]
      rfl

include hrule

omit hrule in

theorem buildSyscallRuleLine_eq (arch : Str) (exitFilter : Option Str) : buildSyscallRuleLine rule arch exitFilter =
    "-a always,exit -F arch=" ++ arch ++ " " ++ concatBlank (rule.syscalls.map ("-S " ++ ·)) ++
      buildComparisonFragment rule.comparisonsAny ++ buildFieldsFragment rule.fields ++ exitFragment exitFilter ++
      buildAuidFragment rule.auidMin rule.includeAuidUnset ++ keyFragment rule.key := by
  cases exitFilter <;> rfl

omit hrule in

/-- The words of a text are those of its parts. -/
theorem lineWords_parts {t c f e a k : Str} {ps pc pf pe pa pk : List Pair} (ht : lineWords t = pairWords ps)
    (hc : ∀ text, lineWords (text ++ c) = lineWords text ++ pairWords pc)
    (hf : ∀ text, lineWords (text ++ f) = lineWords text ++ pairWords pf)
    (he : ∀ text, lineWords (text ++ e) = lineWords text ++ pairWords pe)
    (ha : ∀ text, lineWords (text ++ a) = lineWords text ++ pairWords pa)
    (hk : ∀ text, lineWords (text ++ k) = lineWords text ++ pairWords pk) :
    lineWords (t ++ c ++ f ++ e ++ a ++ k) = pairWords ((ps ++ pc) ++ (pf ++ pe ++ pa) ++ pk) := by
  rw [hk, ha, he, hf, hc, ht]
  simp only [pairWords_append, List.append_assoc]

/-- A built line up to its system calls. -/
theorem lineWords_arch {arch : Str} (harch : arch ∈ rule.arches) :
    lineWords ("-a always,exit -F arch=" ++ arch ++ " " ++ concatBlank (rule.syscalls.map ("-S " ++ ·))) =
      pairWords ((['-', 'a'], "always,exit") :: (['-', 'F'], "arch=" ++ arch) :: rule.syscalls.map (['-', 'S'],
        ·)) := by
  have hword : Word ("arch=".toList ++ arch) :=
    word_append ⟨by decide, by decide⟩ (word_of_class nameClass_blank (hrule.arches arch harch).1
      (hrule.arches arch harch).2).2
  have hcalls : ∀ s ∈ rule.syscalls, Word s := fun s hs =>
    word_of_class nameClass_blank (hrule.syscalls s hs).1 (hrule.syscalls s hs).2
  have htext : "-a always,exit -F arch=".toList ++ arch ++ " ".toList ++
    concatBlank (rule.syscalls.map ("-S ".toList ++ ·)) =
      "-a".toList ++ ' ' :: ("always,exit".toList ++ ' ' :: (['-', 'F'] ++ ' ' :: ("arch=".toList ++ arch))) ++
        ' ' :: concatBlank (rule.syscalls.map fun arg => ['-', 'S'] ++ ' ' :: arg) := by
    have hassoc : ∀ a b c d : Str, a ++ b ++ c ++ d = a ++ b ++ (c ++ d) := fun a b c d => by simp
    exact hassoc "-a always,exit -F arch=" arch " " _
  rw [htext, lineWords_blank, lineWords_concatBlank, flatMap_lineWords (word_flag rfl) hcalls, lineWords_blank,
    lineWords_blank, lineWords_blank, lineWords_word hword]
  rfl

theorem lineWords_syscall {arch : Str} (harch : arch ∈ rule.arches) (hkey : rule.key = some key)
    (exitFilter : Option Str)
    (hexit : ∀ exit ∈ exitFilter, BlankFree exit) :
    lineWords (buildSyscallRuleLine rule arch exitFilter) =
      pairWords (rulePairs rule arch exitFilter key) := by
  have hF : Word ['-', 'F'] := word_flag rfl
  have hexits : ∀ text : Str, lineWords (text ++ exitFragment exitFilter) =
    lineWords text ++ pairWords (exitFilter.toList.map fun exit => (['-', 'F'], "exit=-".toList ++ exit)) := by
    intro text
    cases exitFilter with
    | none => exact (congrArg lineWords (List.append_nil text)).trans (List.append_nil _).symm
    | some exit => exact lineWords_flag text hF (word_append ⟨by decide, by decide⟩ (hexit exit rfl))
  have hkeyText : ∀ text : Str, lineWords (text ++ keyFragment rule.key) =
    lineWords text ++ pairWords [(['-', 'k'], key)] := by
    intro text
    rw [hkey]
    exact lineWords_flag text (word_flag rfl) hrule.key
  have hcomp : ∀ text : Str, lineWords (text ++ buildComparisonFragment rule.comparisonsAny) =
      lineWords text ++ pairWords (rule.comparisonTexts.map (['-', 'C'], ·)) := by
    intro text
    rw [buildComparisonFragment, lineWords_fragment, comparisonParts_eq]
    exact congrArg _ (flatMap_lineWords (word_flag rfl) hrule.comparisons)
  have hfield : ∀ text : Str, lineWords (text ++ buildFieldsFragment rule.fields) =
      lineWords text ++ pairWords (rule.fieldTexts.map (['-', 'F'], ·)) := by
    intro text
    rw [buildFieldsFragment, lineWords_fragment, fieldParts_eq]
    exact congrArg _ (flatMap_lineWords hF hrule.fields)
  rw [buildSyscallRuleLine_eq]
  exact lineWords_parts (lineWords_arch hrule harch) hcomp hfield hexits
    (lineWords_auid · rule.auidMin rule.includeAuidUnset) hkeyText

end Built

/-! ## What is read back -/

theorem pairArgs_append (flag : Str) (arg : Str → Option (α × Str)) (a b : List Pair) :
    pairArgs flag arg (a ++ b) = pairArgs flag arg a ++ pairArgs flag arg b := List.filterMap_append

/-- Pairs with another flag. -/
theorem pairArgs_ne {flag : Str} {arg : Str → Option (α × Str)} {pairs : List Pair} (h : ∀ p ∈ pairs, p.1 ≠ flag) :
    pairArgs flag arg pairs = [] := by
  refine List.filterMap_eq_nil_iff.mpr fun p hp => ?_
  rw [if_neg (h p hp)]

/-- Pairs with the flag, all of whose arguments are read. -/
theorem pairArgs_map {flag : Str} {arg : Str → Option (α × Str)} {g : β → Str} {read : β → α} : ∀ {xs : List β},
    (∀ x ∈ xs, arg (g x) = some (read x, [])) → pairArgs flag arg (xs.map fun x => (flag, g x)) = xs.map read
  | [], _ => rfl
  | x :: xs, h => by
    have ih : pairArgs flag arg (xs.map fun x => (flag, g x)) = xs.map read :=
      pairArgs_map fun y hy => h y (List.mem_cons_of_mem x hy)
    rw [pairArgs] at ih ⊢
    rw [List.map_cons, List.filterMap_cons, if_pos rfl, h x List.mem_cons_self, ih]
    rfl

/-- A pair with the flag whose argument is read. -/
theorem mem_pairArgs {flag text : Str} {arg : Str → Option (α × Str)} {pairs : List Pair} {a : α} {rest : Str}
    (hmem : (flag, text) ∈ pairs) (harg : arg text = some (a, rest)) : a ∈ pairArgs flag arg pairs := by
  refine List.mem_filterMap.mpr ⟨(flag, text), hmem, ?_⟩
  rw [if_pos rfl, harg]
  rfl

/-- What is left of an argument is the end of it. -/
theorem leftOver_suffix (flag : Str) (c : Single) (p : Pair) : leftOver flag (argSplit [] c) p <:+ p.2 := by
  unfold leftOver
  split
  · split
    next a rest harg =>
      simp only [argSplit, List.length_nil, List.drop_zero] at harg
      split at harg
      · split at harg
        · cases harg
        · cases harg
          exact List.dropWhile_suffix _
      · cases harg
    · exact List.suffix_refl _
  · exact List.suffix_refl _

theorem leftOver_clean {x : Char} (c : Single) {p : Pair} (h : ¬['-', x] <:+ p.2) :
    ['-', x].isSuffixOf (leftOver ['-', x] (argSplit [] c) p) = false := by
  rw [← Bool.not_eq_true, List.isSuffixOf_iff_suffix]
  exact fun hsuf => h (hsuf.trans (leftOver_suffix _ c p))

/-- A text without a dash ends in no flag. -/
theorem not_suffix_of_not_mem {s : Str} (h : '-' ∉ s) (x : Char) : ¬['-', x] <:+ s :=
  fun hsuf => h (hsuf.subset (by simp))

theorem fmtInt_printsBack {min : Flt} (h : PrintsBack min) : ∃ n : Nat, min = .fin n ∧ roundDouble n = .fin n ∧
    fmtInt min = natStr n := by
  obtain ⟨n, rfl, hlt, hround⟩ := h
  refine ⟨n, rfl, hround, ?_⟩
  have hpos : (0 : Rat) ≤ n := Nat.cast_nonneg n
  have hfloor : ⌊(n : Rat)⌋ = (n : Int) := Int.floor_natCast n
  have hrange : -2 ^ 63 ≤ (n : Int) ∧ (n : Int) < 2 ^ 63 := by
    constructor
    · omega
    · exact_mod_cast hlt
  simp only [fmtInt, if_pos hpos, hfloor, if_pos hrange, intStr]
  rw [if_neg (by omega), Int.natAbs_natCast]

theorem nameClass_dash {s : Str} (h : ∀ x ∈ s, nameClass.test x = true) : '-' ∉ s :=
  fun hmem => absurd (h '-' hmem) (by decide)

/-- A field without a name is no requirement. -/
theorem lineHasField_unnamed (line : Str) {field : Value}
    (h : ¬(field.isTable = true ∧ (field.field "name").truthy = true)) : lineHasField line field = .ok true := by
  unfold lineHasField
  rw [if_pos]
  rw [Bool.or_eq_true, Bool.not_eq_true', Bool.not_eq_true', ← Bool.not_eq_true, ← Bool.not_eq_true]
  exact not_and_or.mp h

/-- A minus in front is taken away. -/
theorem stripMinus_minus (s : Str) : stripMinus ('-' :: s) = s := by
  have hmatch : doMatch ('-' :: s) (compile "%-") 0 [] = .ok (some (1, [])) := by
    have hone : doMatch ([] ++ '-' :: s) [.single (.cls '-') .one] ([] : Str).length [] = _ := doMatch_one [] s rfl
    exact hone.trans (by rw [doMatch]; rfl)
  have hsub : gsub ('-' :: s) "^%-" (fun _ => []) = .ok s := by
    change gsubFrom ('-' :: s) (compile "%-") true (fun _ => []) (('-' :: s).length + 1) 0 = .ok s
    rw [gsubFrom, hmatch]
    rfl
  unfold stripMinus substitute
  rw [hsub]

section Recovered

variable {rule : SyscallRule} {key arch : Str} {exitFilter : Option Str}

theorem headPairs_flags : ∀ p ∈ headPairs rule arch, IsFlag p.1 := by
  intro p hp
  rcases List.mem_cons.mp hp with rfl | hp
  · exact isFlag_mk 'a'
  rcases List.mem_cons.mp hp with rfl | hp
  · exact isFlag_mk 'F'
  rcases List.mem_append.mp hp with hp | hp
  · obtain ⟨s, -, rfl⟩ := List.mem_map.mp hp
    exact isFlag_mk 'S'
  · obtain ⟨s, -, rfl⟩ := List.mem_map.mp hp
    exact isFlag_mk 'C'

theorem auidPairs_flags {auidMin : Option Flt} {unset : Bool} : ∀ p ∈ auidPairs auidMin unset, p.1 = ['-', 'F'] := by
  intro p hp
  rcases List.mem_append.mp hp with hp | hp
  · cases auidMin with
    | none => cases hp
    | some min => rw [List.mem_singleton.mp hp]
  · cases unset with
    | false => cases hp
    | true => rw [List.mem_singleton.mp hp]

/-- The part of a line between its comparisons and its key has filters only. -/
theorem filters_flags : ∀ p ∈ rule.fieldTexts.map (fun t => ((['-', 'F'], t) : Pair)) ++
    exitFilter.toList.map (fun exit => (['-', 'F'], "exit=-".toList ++ exit)) ++
    auidPairs rule.auidMin rule.includeAuidUnset, p.1 = ['-', 'F'] := by
  intro p hp
  rcases List.mem_append.mp hp with hp | hp
  · rcases List.mem_append.mp hp with hp | hp
    · obtain ⟨t, -, rfl⟩ := List.mem_map.mp hp
      rfl
    · obtain ⟨t, -, rfl⟩ := List.mem_map.mp hp
      rfl
  · exact auidPairs_flags p hp

theorem bodyPairs_flags : ∀ p ∈ bodyPairs rule arch exitFilter, IsFlag p.1 := by
  intro p hp
  rcases List.mem_append.mp hp with hp | hp
  · exact headPairs_flags p hp
  · exact ⟨'F', filters_flags p hp⟩

theorem rulePairs_flags : ∀ p ∈ rulePairs rule arch exitFilter key, IsFlag p.1 := by
  intro p hp
  rcases List.mem_append.mp hp with hp | hp
  · exact bodyPairs_flags p hp
  · rw [List.mem_singleton.mp hp]
    exact isFlag_mk 'k'

/-- A rule that is readable, one of its architectures and an exit value for which a line is built. -/
structure LineReadable (rule : SyscallRule) (arch : Str) (exitFilter : Option Str) (key : Str) : Prop where
  readable : RuleReadable rule key
  arch_mem : arch ∈ rule.arches
  exit_readable : ∀ exit ∈ exitFilter, ExitReadable exit
  key_eq : rule.key = some key

variable (h : LineReadable rule arch exitFilter key)

include h

theorem LineReadable.words : lineWords (buildSyscallRuleLine rule arch exitFilter) =
    pairWords (rulePairs rule arch exitFilter key) :=
  lineWords_syscall h.readable.toWords h.arch_mem h.key_eq exitFilter fun exit hexit => (h.exit_readable exit hexit).1

theorem LineReadable.arch_dash : '-' ∉ "arch=".toList ++ arch :=
  List.not_mem_append (by decide) (nameClass_dash (h.readable.arches arch h.arch_mem).2)

/-- No argument before the key ends in the flag of a key or of a system call. -/
theorem LineReadable.endsPlainly : ∀ p ∈ bodyPairs rule arch exitFilter, EndsPlainly p.2 := by
  have hdash : ∀ s : Str, '-' ∉ s → EndsPlainly s := fun s hs =>
    ⟨not_suffix_of_not_mem hs 'k', not_suffix_of_not_mem hs 'S'⟩
  intro p hp
  rcases List.mem_append.mp hp with hp | hp
  · rcases List.mem_cons.mp hp with rfl | hp
    · exact hdash _ (by decide)
    rcases List.mem_cons.mp hp with rfl | hp
    · exact hdash _ h.arch_dash
    rcases List.mem_append.mp hp with hp | hp
    · obtain ⟨s, hs, rfl⟩ := List.mem_map.mp hp
      exact hdash _ (nameClass_dash (h.readable.syscalls s hs).2)
    · obtain ⟨t, ht, rfl⟩ := List.mem_map.mp hp
      exact (h.readable.comparisons t ht).2
  · rcases List.mem_append.mp hp with hp | hp
    · rcases List.mem_append.mp hp with hp | hp
      · obtain ⟨t, ht, rfl⟩ := List.mem_map.mp hp
        exact (h.readable.fields t ht).2
      · obtain ⟨exit, hexit, rfl⟩ := List.mem_map.mp hp
        exact (h.exit_readable exit (Option.mem_toList.mp hexit)).2
    · rcases List.mem_append.mp hp with hp | hp
      · cases hmin : rule.auidMin with
        | none =>
          rw [hmin] at hp
          cases hp
        | some min =>
          rw [hmin] at hp
          rw [List.mem_singleton.mp hp]
          obtain ⟨n, -, -, hprint⟩ := fmtInt_printsBack (h.readable.auidMin min hmin)
          refine hdash _ (List.not_mem_append (by decide) ?_)
          rw [hprint]
          intro hmem
          exact absurd (Nat.isDigit_of_mem_toDigits (by decide) (by decide) hmem) (by decide)
      · cases hunset : rule.includeAuidUnset with
        | false =>
          rw [hunset] at hp
          cases hp
        | true =>
          rw [hunset] at hp
          rw [List.mem_singleton.mp hp]
          exact hdash _ (by decide)

/-- The arguments of a flag whose argument has no literal characters, up to the key. -/
theorem LineReadable.flagArgs {x : Char} (hx : ∀ s, EndsPlainly s → ¬['-', x] <:+ s) :
    ∃ u', Lua.flagArgs ['-', x] [] nonBlank (lineWords (buildSyscallRuleLine rule arch exitFilter)) =
        pairArgs ['-', x] (argSplit [] nonBlank) (bodyPairs rule arch exitFilter) ++
          scan ['-', x] (argSplit [] nonBlank) u' [['-', 'k'], key] ∧ ['-', x].isSuffixOf u' = false := by
  rw [h.words, rulePairs, pairWords_append]
  exact flagArgs_pairs_append bodyPairs_flags (fun p hp => leftOver_clean nonBlank (hx _ (h.endsPlainly p hp))) _

theorem LineReadable.extractKey : Seharden.extractKey (buildSyscallRuleLine rule arch exitFilter) = some key := by
  obtain ⟨u', hargs, hu'⟩ := h.flagArgs (x := 'k') fun s hs => hs.1
  have hnone : pairArgs ['-', 'k'] (argSplit [] nonBlank) (bodyPairs rule arch exitFilter) = [] := by
    refine pairArgs_ne fun p hp => ?_
    rcases List.mem_append.mp hp with hp | hp
    · rcases List.mem_cons.mp hp with rfl | hp
      · decide
      rcases List.mem_cons.mp hp with rfl | hp
      · exact (by decide : ['-', 'F'] ≠ ['-', 'k'])
      rcases List.mem_append.mp hp with hp | hp
      · obtain ⟨s, -, rfl⟩ := List.mem_map.mp hp
        exact (by decide : ['-', 'S'] ≠ ['-', 'k'])
      · obtain ⟨s, -, rfl⟩ := List.mem_map.mp hp
        exact (by decide : ['-', 'C'] ≠ ['-', 'k'])
    · rw [filters_flags p hp]
      decide
  have hread := argSplit_word [] h.readable.key
  rw [List.nil_append] at hread
  have hscan : scan ['-', 'k'] (argSplit [] nonBlank) u' [['-', 'k'], key] = [key] := by
    rw [scan, hu', if_neg Bool.false_ne_true, scan, if_pos (by decide), hread]
    rfl
  rw [hnone, hscan] at hargs
  rw [extractKey_eq]
  change ((Lua.flagArgs ['-', 'k'] [] nonBlank _).head? <|> _) = _
  rw [hargs]
  rfl

theorem LineReadable.extractSyscallArch :
    Seharden.extractSyscallArch (buildSyscallRuleLine rule arch exitFilter) = some arch := by
  have harch : Word arch := word_of_class nameClass_blank (h.readable.arches arch h.arch_mem).1
    (h.readable.arches arch h.arch_mem).2
  have hargs := @flagArgs_pairs (rulePairs rule arch exitFilter key) 'F' "arch=" nonBlank rulePairs_flags (by decide)
    (by decide)
  rw [extractSyscallArch_eq, h.words]
  change (Lua.flagArgs ['-', 'F'] "arch=".toList nonBlank _).head? = _
  rw [hargs, rulePairs, bodyPairs, headPairs, List.cons_append, List.cons_append, List.cons_append, List.cons_append,
    pairArgs, List.filterMap_cons, if_neg (by decide)]
  dsimp only
  rw [List.filterMap_cons, if_pos rfl, argSplit_word "arch=" harch]
  rfl

/-- The arguments of a flag up to the comparisons. -/
theorem LineReadable.pairArgs_head {x : Char} (hx : ['-', x] ≠ ['-', 'F'] ∧ ['-', x] ≠ ['-', 'a']) :
    pairArgs ['-', x] (argSplit [] nonBlank) (headPairs rule arch) =
      (if x = 'S' then rule.syscalls else []) ++ if x = 'C' then rule.comparisonTexts else [] := by
  have hread : ∀ s, Word s → argSplit [] nonBlank s = some (s, []) := fun s hs => argSplit_word [] hs
  have hcalls : ∀ s ∈ rule.syscalls, argSplit [] nonBlank s = some (id s, []) := fun s hs =>
    hread s (word_of_class nameClass_blank (h.readable.syscalls s hs).1 (h.readable.syscalls s hs).2)
  have hcomps : ∀ t ∈ rule.comparisonTexts, argSplit [] nonBlank t = some (id t, []) := fun t ht =>
    hread t (h.readable.comparisons t ht).1
  have hother : ∀ (y : Char) (texts : List Str), y ≠ x → pairArgs ['-', x] (argSplit [] nonBlank)
      (texts.map fun t => (['-', y], t)) = [] := by
    intro y texts hne
    refine pairArgs_ne fun p hp => ?_
    obtain ⟨t, -, rfl⟩ := List.mem_map.mp hp
    exact fun heq => hne (List.cons.inj (List.cons.inj heq).2).1
  have hhead : pairArgs ['-', x] (argSplit [] nonBlank) [(['-', 'a'], "always,exit".toList),
    (['-', 'F'], "arch=".toList ++ arch)] =
      [] := by
    refine pairArgs_ne fun p hp => ?_
    rcases List.mem_cons.mp hp with rfl | hp
    · exact hx.2.symm
    · rw [List.mem_singleton.mp hp]
      exact hx.1.symm
  have hsplit : headPairs rule arch = [(['-', 'a'], "always,exit".toList), (['-', 'F'], "arch=".toList ++ arch)] ++
      (rule.syscalls.map (['-', 'S'], ·) ++ rule.comparisonTexts.map (['-', 'C'], ·)) := rfl
  rw [hsplit, pairArgs_append, hhead, List.nil_append, pairArgs_append]
  congr 1
  · split
    next hS => rw [hS, pairArgs_map hcalls, List.map_id]
    next hS => exact hother 'S' _ (Ne.symm hS)
  · split
    next hC => rw [hC, pairArgs_map hcomps, List.map_id]
    next hC => exact hother 'C' _ (Ne.symm hC)

theorem LineReadable.collectSyscalls :
    Seharden.collectSyscalls (buildSyscallRuleLine rule arch exitFilter) = rule.syscalls := by
  obtain ⟨u', hargs, hu'⟩ := h.flagArgs (x := 'S') fun s hs => hs.2
  have hfilters := @pairArgs_ne _ ['-', 'S'] (argSplit [] nonBlank) _ fun p hp => by
    rw [@filters_flags rule exitFilter p hp]
    decide
  have hscan : scan ['-', 'S'] (argSplit [] nonBlank) u' [['-', 'k'], key] = [] := by
    rw [scan, hu', if_neg Bool.false_ne_true, scan, if_neg (by decide)]
    rfl
  rw [hscan, List.append_nil, bodyPairs, pairArgs_append, hfilters, List.append_nil, h.pairArgs_head (by decide),
    if_pos rfl, if_neg (by decide), List.append_nil] at hargs
  rw [collectSyscalls_eq]
  change (Lua.flagArgs ['-', 'S'] [] nonBlank _).flatMap _ = _
  rw [hargs]
  -- the names have no commas
  have hone : ∀ s ∈ rule.syscalls, Lua.words (allBut ',') s = [s] := by
    intro s hs
    have hcomma : ∀ x ∈ s, (allBut ',').test x = true := by
      intro x hx
      rw [allBut_test]
      rintro rfl
      exact absurd ((h.readable.syscalls s hs).2 ',' hx) (by decide)
    have hwords : Lua.words (allBut ',') (s ++ []) = [s] := words_append (h.readable.syscalls s hs).1 hcomma (by simp)
    rwa [List.append_nil] at hwords
  rw [List.flatMap_def, List.map_congr_left hone, ← List.flatMap_def]
  exact List.flatMap_singleton' _

/-- Comparisons are read back. -/
theorem LineReadable.lineHasComparison {t : Str} (ht : t ∈ rule.comparisonTexts) :
    Seharden.lineHasComparison (buildSyscallRuleLine rule arch exitFilter) (.str t) = true := by
  have hclean : ∀ p ∈ headPairs rule arch, ['-', 'C'].isSuffixOf (leftOver ['-', 'C'] (argSplit [] nonBlank) p) =
    false := by
    intro p hp
    rcases List.mem_cons.mp hp with rfl | hp
    · exact leftOver_clean nonBlank (by decide)
    rcases List.mem_cons.mp hp with rfl | hp
    · exact leftOver_clean nonBlank (not_suffix_of_not_mem h.arch_dash 'C')
    rcases List.mem_append.mp hp with hp | hp
    · obtain ⟨s, hs, rfl⟩ := List.mem_map.mp hp
      exact leftOver_clean nonBlank (not_suffix_of_not_mem (nameClass_dash (h.readable.syscalls s hs).2) 'C')
    · -- a comparison is read whole
      obtain ⟨s, hs, rfl⟩ := List.mem_map.mp hp
      have hread := argSplit_word [] (h.readable.comparisons s hs).1
      rw [List.nil_append] at hread
      simp only [leftOver, if_pos, hread]
      rfl
  rw [lineHasComparison_eq, h.words, rulePairs, bodyPairs, List.append_assoc, pairWords_append]
  obtain ⟨u', hargs, -⟩ := flagArgs_pairs_append headPairs_flags hclean
    (pairWords (rule.fieldTexts.map (['-', 'F'], ·) ++
    exitFilter.toList.map (fun exit => (['-', 'F'], "exit=-".toList ++ exit)) ++
    auidPairs rule.auidMin rule.includeAuidUnset ++ [(['-', 'k'], key)]))
  change ((Lua.flagArgs ['-', 'C'] [] nonBlank _).any _) = true
  rw [hargs, h.pairArgs_head (by decide), if_neg (by decide), if_pos rfl, List.nil_append, List.any_append,
    Bool.or_eq_true]
  exact .inl (List.any_eq_true.mpr ⟨t, ht, beq_self_eq_true (normalizeComparison (.str t))⟩)

/-- What a filter reads is among what is read. -/
theorem LineReadable.mem_filters {lits text a rest : Str} {c : Single} (hne : lits ≠ []) (hdash : lits.head? ≠ some '-')
    (hmem : ((['-', 'F'], text) : Pair) ∈ bodyPairs rule arch exitFilter)
      (harg : argSplit lits c text = some (a, rest)) :
    a ∈ Lua.flagArgs ['-', 'F'] lits c (lineWords (buildSyscallRuleLine rule arch exitFilter)) := by
  rw [h.words, flagArgs_pairs rulePairs_flags hne hdash]
  exact mem_pairArgs (List.mem_append_left _ hmem) harg

/-- The exit value is read back. -/
theorem LineReadable.lineHasExit {exit : Value}
    (hexit : exitFilter = if exit.isNil then none else some (stripMinus exit.tostring)) :
    Seharden.lineHasExit (buildSyscallRuleLine rule arch exitFilter) exit = true := by
  rw [lineHasExit_eq]
  cases hnil : exit.isNil with
  | true => rfl
  | false =>
    rw [hnil, if_neg Bool.false_ne_true] at hexit
    rw [Bool.false_or]
    have hblank : Word ('-' :: stripMinus exit.tostring) := ⟨by simp, List.forall_mem_cons.mpr
      ⟨rfl, (h.exit_readable _ (by rw [hexit]; rfl)).1⟩⟩
    have hmem : ((['-', 'F'], "exit=-".toList ++ stripMinus exit.tostring) : Pair) ∈ bodyPairs rule arch
      exitFilter := by
      refine List.mem_append_right _ (List.mem_append_left _ (List.mem_append_right _ ?_))
      rw [hexit]
      exact List.mem_singleton_self _
    have harg : argSplit "exit=".toList nonBlank ("exit=-".toList ++ stripMinus exit.tostring) =
        some ('-' :: stripMinus exit.tostring, []) := argSplit_word "exit=" hblank
    refine List.any_eq_true.mpr ⟨_, h.mem_filters (by decide) (by decide) hmem harg, ?_⟩
    rw [stripMinus_minus]
    exact beq_self_eq_true _

/-- The filters on `auid` are read back. -/
theorem LineReadable.matchesAuidFilters :
    Seharden.matchesAuidFilters (buildSyscallRuleLine rule arch exitFilter) rule.auidMin rule.includeAuidUnset =
      true := by
  have hmem : ∀ p ∈ auidPairs rule.auidMin rule.includeAuidUnset, p ∈ bodyPairs rule arch exitFilter :=
    fun p hp => List.mem_append_right _ (List.mem_append_right _ hp)
  unfold Seharden.matchesAuidFilters
  rw [Bool.and_eq_true]
  constructor
  · cases hmin : rule.auidMin with
    | none => rfl
    | some min =>
      obtain ⟨n, hfin, hround, hprint⟩ := fmtInt_printsBack (h.readable.auidMin min hmin)
      have hpair : ((['-', 'F'], "auid>=".toList ++ natStr n) : Pair) ∈ auidPairs rule.auidMin
        rule.includeAuidUnset := by
        rw [hmin, ← hprint]
        exact List.mem_append_left _ (List.mem_singleton_self _)
      have harg : argSplit "auid>=".toList (.cls 'd') ("auid>=".toList ++ natStr n) = some (natStr n, []) := by
        refine argSplit_class _ Nat.toDigits_ne_nil fun x hx => ?_
        have hdigit := Nat.isDigit_of_mem_toDigits (by decide) (by decide) hx
        rw [Char.isDigit, Bool.and_eq_true, decide_eq_true_eq, decide_eq_true_eq] at hdigit
        change (decide ('0' ≤ x) && decide (x ≤ '9')) = true
        rw [Bool.and_eq_true, decide_eq_true_eq, decide_eq_true_eq]
        exact hdigit
      dsimp only
      rw [lineMatchesAuidMin_eq]
      refine List.any_eq_true.mpr ⟨_, h.mem_filters (by decide) (by decide) (hmem _ hpair) harg, ?_⟩
      rw [strscan_natStr, hround, hfin]
      simp [Flt.le]
  · cases hunset : rule.includeAuidUnset with
    | false => rfl
    | true =>
      have hpair : ((['-', 'F'], "auid!=unset".toList) : Pair) ∈ auidPairs rule.auidMin rule.includeAuidUnset := by
        rw [hunset]
        exact List.mem_append_right _ (List.mem_singleton_self _)
      have hflag : hasFlag ['-', 'F'] "auid!=unset" (lineWords (buildSyscallRuleLine rule arch exitFilter)) = true := by
        have hread : () ∈ pairArgs ['-', 'F'] (litsSplit "auid!=unset") (rulePairs rule arch exitFilter key) :=
          mem_pairArgs (List.mem_append_left _ (hmem _ hpair))
            (show litsSplit "auid!=unset" "auid!=unset" = some ((), []) from rfl)
        rw [h.words, hasFlag_pairs rulePairs_flags (by decide) (by decide)]
        cases hargs : pairArgs ['-', 'F'] (litsSplit "auid!=unset") (rulePairs rule arch exitFilter key) with
        | nil =>
          rw [hargs] at hread
          cases hread
        | cons a as => rfl
      rw [lineExcludesUnsetAuid_eq]
      change (!true || (hasFlag ['-', 'F'] "auid!=unset".toList _ || _ || _)) = true
      rw [hflag]
      rfl

/-- A field is read back. -/
theorem LineReadable.lineHasField {field : Value} (hmem : field ∈ rule.fields.ipairs) (hfield : FieldReadable field) :
    Seharden.lineHasField (buildSyscallRuleLine rule arch exitFilter) field = .ok true := by
  by_cases hnamed : field.isTable = true ∧ (field.field "name").truthy = true
  · obtain ⟨htable, hname⟩ := hnamed
    obtain ⟨hvalue, hne, hplain⟩ := hfield htable hname
    have htext : (field.field "name").tostring ++ "=" ++ (field.field "value").tostring ∈ rule.fieldTexts := by
      refine List.mem_filterMap.mpr ⟨field, hmem, ?_⟩
      rw [fieldText, htable, hname, hvalue]
      rfl
    have hword := (h.readable.fields _ htext).1.2
    have hblank : BlankFree (field.field "name").tostring := fun x hx =>
      hword x (List.mem_append_left _ (List.mem_append_left _ hx))
    have hvalword : Word (field.field "value").tostring := ⟨hne, fun x hx => hword x (List.mem_append_right _ hx)⟩
    have hpair : ((['-', 'F'], (field.field "name").tostring ++ "=" ++ (field.field "value").tostring) : Pair) ∈
        bodyPairs rule arch exitFilter :=
      List.mem_append_right _ (List.mem_append_left _ (List.mem_append_left _ (List.mem_map.mpr ⟨_, htext, rfl⟩)))
    have hdash : ((field.field "name").tostring ++ "=").head? ≠ some '-' := by
      cases hchars : (field.field "name").tostring with
      | nil => exact (by decide : some '=' ≠ some '-')
      | cons x xs =>
        rw [hchars] at hplain
        intro hx
        obtain rfl : x = '-' := Option.some.inj hx
        exact hplain '-' List.mem_cons_self (by decide)
    rw [lineHasField_eq _ htable hname hplain hblank]
    refine congrArg Except.ok (List.any_eq_true.mpr ⟨_,
      h.mem_filters (by simp) hdash hpair (argSplit_word _ hvalword), ?_⟩)
    rw [beq_self_eq_true, Bool.or_true]
  · exact lineHasField_unnamed _ hnamed

omit h in

theorem isAlwaysExitRule_built (arch : Str) (exitFilter : Option Str) :
    isAlwaysExitRule (buildSyscallRuleLine rule arch exitFilter) = true := by
  have halways : ∀ rest : Str, isAlwaysExitRule ("-a always,exit ".toList ++ rest) = true := fun rest => rfl
  have hassoc : ∀ a b c d e f g k l : Str, a ++ b ++ c ++ d ++ e ++ f ++ g ++ k ++ l =
      a ++ (b ++ (c ++ (d ++ (e ++ (f ++ (g ++ (k ++ l))))))) := fun a b c d e f g k l => by simp
  rw [buildSyscallRuleLine_eq, hassoc]
  exact halways ("-F arch=".toList ++ _)

end Recovered

end Seharden
