import Loongshield.Lua.Flags
import Loongshield.Seharden.AuditProbe

/-!
# The words of an audit rule

The patterns of `audit_rules.lua` are tried at every place of a line, but what they find depends on its words only: a
word that ends in a flag, and the word after it.

- `captures_flag`, `firstCapture_flag`, `isMatch_flag`: the three uses of such a pattern;
- `extractKey_eq`, `collectSyscalls_eq`, …: what each function of `audit_rules.lua` reads from the words;
- `Pair`, `scan_pairs`: lines that are made of flags with one argument each.
-/

namespace Seharden

open Lua
open Lua.Pattern

/-! ## Patterns of flags -/

/-- The words of a line. -/
abbrev lineWords (line : Str) : List Str := words nonBlank line

/-- A text without blanks. -/
def BlankFree (s : Str) : Prop := ∀ x ∈ s, isspace x = false

instance (s : Str) : Decidable (BlankFree s) :=
  decidable_of_iff (s.all (fun x => !isspace x) = true) (by simp [BlankFree])

theorem isspace_cases {x : Char} (h : isspace x = true) :
    x = ' ' ∨ x = '\t' ∨ x = '\n' ∨ x = Char.ofNat 11 ∨ x = Char.ofNat 12 ∨ x = '\r' := by
  simp only [isspace, Bool.or_eq_true, beq_iff_eq, Bool.and_eq_true, decide_eq_true_eq] at h
  rcases h with rfl | ⟨hlo, hhi⟩
  · exact .inl rfl
  · have hx : x = Char.ofNat x.toNat := (Char.ofNat_toNat x).symm
    generalize x.toNat = n at hlo hhi hx
    have hn : n = 9 ∨ n = 10 ∨ n = 11 ∨ n = 12 ∨ n = 13 := by omega
    rcases hn with rfl | rfl | rfl | rfl | rfl <;> simp [hx]

theorem spells_lits : ∀ xs : Str, Spells (xs.map .lit) xs
  | [] => .nil
  | _ :: xs => .cons (fun _ => beq_iff_eq.trans eq_comm) (spells_lits xs)

theorem spells_dash (x : Char) : Spells [.cls '-', .lit x] ['-', x] :=
  .cons (fun y => (beq_iff_eq (a := '-') (b := y)).trans eq_comm) (spells_lits [x])

/-- The pattern of a flag whose argument begins with `lits`. -/
def FlagPattern (pattern flag lits : Str) (T : List Pattern.Item) : Prop :=
  ∃ fs ls, compile pattern = fs.map (.single · .one) ++ .single blank .plus :: (ls.map (.single · .one) ++ T) ∧
    Spells fs flag ∧ Spells ls lits ∧ flag ≠ [] ∧ (∀ x ∈ flag, nonBlank.test x = true) ∧
    (∀ x ∈ lits, nonBlank.test x = true) ∧ pattern.head? ≠ some '^'

section Uses

variable {pattern flag lits : Str} {c : Single}

theorem gmatch_pattern (h : FlagPattern pattern flag lits [.capOpen, .single c .plus, .capClose])
    (hc : ∀ x, isspace x = true → c.test x = false) (line : Str) :
    gmatch line pattern = .ok ((flagArgs flag lits c (lineWords line)).map fun a => [.str a]) := by
  obtain ⟨fs, ls, hpat, hfs, hls, hne, hflag, hlits, _⟩ := h
  exact gmatch_flag hpat hfs hne hflag hls hlits hc line

theorem captures_flag (h : FlagPattern pattern flag lits [.capOpen, .single c .plus, .capClose])
    (hc : ∀ x, isspace x = true → c.test x = false) (line : Str) :
    captures line pattern = flagArgs flag lits c (lineWords line) := by
  unfold captures
  rw [gmatch_pattern h hc]
  dsimp only
  rw [List.map_map]
  exact List.map_id'' (fun _ => rfl) _

theorem firstCapture_flag (h : FlagPattern pattern flag lits [.capOpen, .single c .plus, .capClose])
    (hc : ∀ x, isspace x = true → c.test x = false) (line : Str) :
    firstCapture line pattern = (flagArgs flag lits c (lineWords line)).head? := by
  have hanchor : pattern.head? ≠ some '^' := h.choose_spec.choose_spec.2.2.2.2.2.2
  rw [firstCapture, strMatch_of_gmatch hanchor (gmatch_pattern h hc line)]
  cases flagArgs flag lits c (lineWords line) <;> rfl

/-- A pattern of a flag that is tried at the front of the line only. -/
theorem firstCapture_anchored (h : FlagPattern pattern flag lits [.capOpen, .single c .plus, .capClose])
    (hc : ∀ x, isspace x = true → c.test x = false) (line : Str) :
    firstCapture line ('^' :: pattern) = firstArg flag lits c line := by
  obtain ⟨fs, ls, hpat, hfs, hls, _, hflag, hlits, _⟩ := h
  rw [firstCapture, strMatch_flag hpat hfs hflag hls hlits hc line]
  cases firstArg flag lits c line <;> rfl

theorem isMatch_flag (h : FlagPattern pattern flag lits []) (hne : lits ≠ []) (line : Str) :
    isMatch line pattern = hasFlag flag lits (lineWords line) := by
  obtain ⟨fs, ls, hpat, hfs, hls, hflagne, hflag, hlits, hanchor⟩ := h
  rw [List.append_nil] at hpat
  obtain ⟨ms, hms, hempty⟩ := gmatch_flag_lits hpat hfs hflagne hflag hls hlits hne line
  rw [isMatch, strMatch_of_gmatch hanchor hms]
  cases ms with
  | nil => simpa using hempty
  | cons m ms => simpa using hempty

/-- A dash and a letter, blanks, and literal characters. -/
theorem flagPattern (x : Char) (lits : Str) {T : List Pattern.Item}
    (hpat : compile pattern = .single (.cls '-') .one :: .single (.lit x) .one :: .single blank .plus ::
      (lits.map (fun y => .single (.lit y) .one) ++ T))
    (hx : isspace x = false) (hlits : BlankFree lits) (hanchor : pattern.head? ≠ some '^') :
    FlagPattern pattern ['-', x] lits T := by
  refine ⟨[.cls '-', .lit x], lits.map .lit, ?_, spells_dash x, spells_lits lits, by simp, ?_, ?_, hanchor⟩
  · rw [hpat, List.map_map]
    rfl
  · intro y hy
    rcases List.mem_cons.mp hy with rfl | hy
    · rfl
    · rw [List.mem_singleton.mp hy, nonBlank_test, hx]
      rfl
  · intro y hy
    simp [hlits y hy]

end Uses

/-! ## What is read from the words -/

section Reading

variable (line : Str)

/-- The class `[^%s]`. -/
def notBlank : Single := .set true [.cls 's']

/-- The class `[rwax]`. -/
def rwaxSet : Single := .set false [.lit 'r', .lit 'w', .lit 'a', .lit 'x']

theorem notBlank_test : notBlank.test = nonBlank.test := by
  funext x
  have hset : notBlank.test x = ((isspace x || false) != true) := rfl
  rw [hset, nonBlank_test, Bool.or_false]
  cases isspace x <;> rfl

theorem argSplit_notBlank (lits : Str) : argSplit lits notBlank = argSplit lits nonBlank := by
  funext v
  simp only [argSplit, notBlank_test]

theorem nonBlank_blank (x : Char) (hx : isspace x = true) : nonBlank.test x = false := by simp [hx]

theorem notBlank_blank (x : Char) (hx : isspace x = true) : notBlank.test x = false := by
  rw [notBlank_test]
  exact nonBlank_blank x hx

theorem rwaxSet_blank (x : Char) (hx : isspace x = true) : rwaxSet.test x = false := by
  rcases isspace_cases hx with rfl | rfl | rfl | rfl | rfl | rfl <;> decide

theorem digit_blank (x : Char) (hx : isspace x = true) : (Single.cls 'd').test x = false := by
  rcases isspace_cases hx with rfl | rfl | rfl | rfl | rfl | rfl <;> decide

theorem extractKey_eq : extractKey line =
    ((flagArgs "-k" [] nonBlank (lineWords line)).head? <|>
      (flagArgs "-F" "key=" nonBlank (lineWords line)).head?) := by
  unfold extractKey
  rw [firstCapture_flag (flagPattern 'k' [] rfl rfl (by simp [BlankFree]) (by decide)) nonBlank_blank,
    firstCapture_flag (flagPattern 'F' "key=" rfl rfl (by decide) (by decide)) nonBlank_blank]
  rfl

theorem extractSyscallArch_eq :
    extractSyscallArch line = (flagArgs "-F" "arch=" nonBlank (lineWords line)).head? :=
  firstCapture_flag (flagPattern 'F' "arch=" rfl rfl (by decide) (by decide)) nonBlank_blank line

theorem extractWatchPermissions_eq : extractWatchPermissions line =
    ((flagArgs "-p" [] rwaxSet (lineWords line)).head? <|>
      (flagArgs "-F" "perm=" rwaxSet (lineWords line)).head?).getD [] := by
  unfold extractWatchPermissions
  rw [firstCapture_flag (flagPattern 'p' [] rfl rfl (by simp [BlankFree]) (by decide)) rwaxSet_blank,
    firstCapture_flag (flagPattern 'F' "perm=" rfl rfl (by decide) (by decide)) rwaxSet_blank]
  rfl

theorem lineMatchesAuidMin_eq (threshold : Flt) : lineMatchesAuidMin line threshold =
    (flagArgs "-F" "auid>=" (.cls 'd') (lineWords line)).any fun raw =>
      match strscan raw with
      | some value => value.le threshold
      | none => false := by
  unfold lineMatchesAuidMin
  rw [captures_flag (flagPattern 'F' "auid>=" rfl rfl (by decide) (by decide)) digit_blank]
  rfl

theorem lineHasExit_eq (expectedExit : Value) : lineHasExit line expectedExit =
    (expectedExit.isNil || (flagArgs "-F" "exit=" nonBlank (lineWords line)).any fun value =>
      stripMinus value == stripMinus expectedExit.tostring) := by
  unfold lineHasExit
  rw [captures_flag (flagPattern 'F' "exit=" rfl rfl (by decide) (by decide)) notBlank_blank, flagArgs,
    argSplit_notBlank]
  rfl

theorem lineHasComparison_eq (expected : Value) : lineHasComparison line expected =
    (flagArgs "-C" [] nonBlank (lineWords line)).any fun value =>
      normalizeComparison (.str value) == normalizeComparison expected := by
  unfold lineHasComparison
  rw [captures_flag (flagPattern 'C' [] rfl rfl (by simp [BlankFree]) (by decide)) notBlank_blank, flagArgs,
    argSplit_notBlank]
  rfl

theorem collectSyscalls_eq : collectSyscalls line =
    (flagArgs "-S" [] nonBlank (lineWords line)).flatMap (words (allBut ',')) := by
  unfold collectSyscalls
  rw [captures_flag (flagPattern 'S' [] rfl rfl (by simp [BlankFree]) (by decide)) notBlank_blank, flagArgs,
    argSplit_notBlank]
  congr 1
  funext token
  unfold captures
  rw [gmatch_runs rfl]
  dsimp only
  rw [List.map_map]
  exact List.map_id'' (fun _ => rfl) _

theorem spells_minusOne : Spells ("auid!=".toList.map .lit ++ [.cls '-', .lit '1']) "auid!=-1" :=
  List.rel_append (spells_lits "auid!=") (spells_dash '1')

theorem lineExcludesUnsetAuid_eq : lineExcludesUnsetAuid line =
    (hasFlag "-F" "auid!=unset" (lineWords line) || hasFlag "-F" "auid!=-1" (lineWords line) ||
      hasFlag "-F" "auid!=4294967295" (lineWords line)) := by
  have hminus : FlagPattern "%-F%s+auid!=%-1" "-F" "auid!=-1" [] :=
    ⟨[.cls '-', .lit 'F'], _, rfl, spells_dash 'F', spells_minusOne, by decide, List.all_eq_true.mp rfl,
      List.all_eq_true.mp rfl, by decide⟩
  unfold lineExcludesUnsetAuid
  rw [isMatch_flag (flagPattern 'F' "auid!=unset" rfl rfl (by decide) (by decide)) (by decide),
    isMatch_flag hminus (by decide),
    isMatch_flag (flagPattern 'F' "auid!=4294967295" rfl rfl (by decide) (by decide)) (by decide)]
  rfl

theorem compile_field {name : Str} (hname : Plain name) : compile ("%-F%s+" ++ name ++ "=([^%s]+)") =
    .single (.cls '-') .one :: .single (.lit 'F') .one :: .single blank .plus ::
      ((name ++ "=").map (fun y => .single (.lit y) .one) ++ [.capOpen, .single notBlank .plus, .capClose]) := by
  have hlen : ("%-F%s+".toList ++ name ++ "=([^%s]+)".toList).length = name.length + 12 + 3 := by
    simp only [List.length_append]
    have hhead : "%-F%s+".toList.length = 6 := rfl
    have htail : "=([^%s]+)".toList.length = 9 := rfl
    omega
  have hbody : readItems (name.length + 12) (name ++ "=([^%s]+)".toList) = _ := readItems_plain rfl 12 hname
  rw [compile, hlen, List.append_assoc]
  have hhead : readItems (name.length + 12 + 3) ("%-F%s+".toList ++ (name ++ "=([^%s]+)".toList)) =
      .single (.cls '-') .one :: .single (.lit 'F') .one :: .single blank .plus ::
        readItems (name.length + 12) (name ++ "=([^%s]+)".toList) := rfl
  rw [hhead, hbody, List.map_append, List.append_assoc]
  rfl

/-- A field whose name stands for itself. -/
theorem lineHasField_eq {field : Value} (htable : field.isTable = true) (hname : (field.field "name").truthy = true)
    (hplain : Plain (field.field "name").tostring) (hblank : BlankFree (field.field "name").tostring) :
    lineHasField line field =
      .ok ((flagArgs "-F" ((field.field "name").tostring ++ "=") nonBlank (lineWords line)).any fun value =>
        (field.field "value").isNil || value == (field.field "value").tostring) := by
  have hlits : BlankFree ((field.field "name").tostring ++ "=") := by
    intro x hx
    rcases List.mem_append.mp hx with hx | hx
    · exact hblank x hx
    · rw [List.mem_singleton.mp hx]
      rfl
  have hpat : FlagPattern (fieldPattern (field.field "name")) ['-', 'F'] ((field.field "name").tostring ++ "=")
      [.capOpen, .single notBlank .plus, .capClose] :=
    flagPattern 'F' _ (compile_field hplain) rfl hlits (show some '%' ≠ some '^' by decide)
  unfold lineHasField
  rw [if_neg (by rw [htable, hname]; decide), gmatchAny_of_gmatch _ (gmatch_pattern hpat notBlank_blank line),
    List.any_map,
    flagArgs, argSplit_notBlank]
  rfl

end Reading

/-! ## Lines made of flags with one argument each -/

/-- A flag and its argument. -/
abbrev Pair := Str × Str

/-- The words of pairs. -/
def pairWords (pairs : List Pair) : List Str := pairs.flatMap fun p => [p.1, p.2]

/-- What is left of the argument of a pair once it was read, where the next flag may begin. -/
def leftOver (flag : Str) (arg : Str → Option (α × Str)) (p : Pair) : Str :=
  if p.1 = flag then
    match arg p.2 with
    | some (_, rest) => rest
    | none => p.2
  else p.2

/-- What a flag gives in pairs. -/
def pairArgs (flag : Str) (arg : Str → Option (α × Str)) (pairs : List Pair) : List α :=
  pairs.filterMap fun p => if p.1 = flag then (arg p.2).map Prod.fst else none

/-- **The arguments of a flag in pairs**, and then in further words, if no flag is read as an argument: either the flags
are none, or no argument ends in the flag. -/
theorem scan_pairs {flag : Str} {arg : Str → Option (α × Str)} (ws : List Str) : ∀ {pairs : List Pair} {u : Str},
    (∀ p ∈ pairs, p.1.length = flag.length) →
    ((∀ p ∈ pairs, arg p.1 = none) ∨
      (flag.isSuffixOf u = false ∧ ∀ p ∈ pairs, flag.isSuffixOf (leftOver flag arg p) = false)) →
    ∃ u', scan flag arg u (pairWords pairs ++ ws) = pairArgs flag arg pairs ++ scan flag arg u' ws ∧
      ((flag.isSuffixOf u = false ∧ ∀ p ∈ pairs, flag.isSuffixOf (leftOver flag arg p) = false) →
        flag.isSuffixOf u' = false)
  | [], u, _, _ => ⟨u, rfl, And.left⟩
  | (f, a) :: pairs, u, hlen, hclean => by
    have hlen' : ∀ p ∈ pairs, p.1.length = flag.length := fun p hp => hlen p (List.mem_cons_of_mem _ hp)
    have hwords : pairWords ((f, a) :: pairs) ++ ws = f :: a :: (pairWords pairs ++ ws) := rfl
    have hf : flag.isSuffixOf f = decide (f = flag) := by
      rw [Bool.eq_iff_iff, List.isSuffixOf_iff_suffix, decide_eq_true_eq]
      refine ⟨fun h => (h.eq_of_length (hlen (f, a) List.mem_cons_self).symm).symm, ?_⟩
      rintro rfl
      exact List.suffix_refl f
    -- the flag itself is not an argument
    have hskip : scan flag arg u (f :: a :: (pairWords pairs ++ ws)) =
      scan flag arg f (a :: (pairWords pairs ++ ws)) := by
      rw [scan]
      rcases hclean with hnone | ⟨hu, _⟩
      · rw [hnone (f, a) List.mem_cons_self]
        exact ite_self _
      · rw [hu]
        rfl
    -- and what is left of the argument does not end in the flag
    have hrest : ∀ r, r = leftOver flag arg (f, a) →
        ∃ u', scan flag arg r (pairWords pairs ++ ws) = pairArgs flag arg pairs ++ scan flag arg u' ws ∧
          ((flag.isSuffixOf u = false ∧ ∀ p ∈ (f, a) :: pairs, flag.isSuffixOf (leftOver flag arg p) = false) →
            flag.isSuffixOf u' = false) := by
      intro r hr
      have hends : (∀ p ∈ (f, a) :: pairs, flag.isSuffixOf (leftOver flag arg p) = false) →
          flag.isSuffixOf r = false ∧ ∀ p ∈ pairs, flag.isSuffixOf (leftOver flag arg p) = false :=
        fun h => ⟨hr ▸ h (f, a) List.mem_cons_self, fun p hp => h p (List.mem_cons_of_mem _ hp)⟩
      obtain ⟨u', hscan, hu'⟩ := scan_pairs ws hlen' (hclean.imp
        (fun hnone p hp => hnone p (List.mem_cons_of_mem _ hp)) fun h => hends h.2)
      exact ⟨u', hscan, fun h => hu' (hends h.2)⟩
    rw [hwords, hskip, scan, hf, pairArgs, List.filterMap_cons]
    by_cases hflag : f = flag
    · simp only [hflag, decide_true, if_true]
      cases harg : arg a with
      | none => exact hflag ▸ hrest a (by simp [leftOver, hflag, harg])
      | some r =>
        obtain ⟨x, rest⟩ := r
        obtain ⟨u', hscan, hu'⟩ := hrest rest (by simp [leftOver, hflag, harg])
        exact ⟨u', by simp only [Option.map_some, hscan]; rfl, hflag ▸ hu'⟩
    · simp only [hflag, decide_false, Bool.false_eq_true, if_false]
      exact hrest a (by simp [leftOver, hflag])

/-- A dash and a letter. -/
def IsFlag (f : Str) : Prop := ∃ x, f = ['-', x]

section Pairs

variable {pairs : List Pair} {x : Char} {lits : Str} {c : Single}

theorem argSplit_flag (hne : lits ≠ []) (hdash : lits.head? ≠ some '-') {f : Str} (hf : IsFlag f) :
    argSplit lits c f = none := by
  obtain ⟨y, rfl⟩ := hf
  unfold argSplit
  rw [if_neg]
  intro hpre
  obtain ⟨r, hr⟩ := List.isPrefixOf_iff_prefix.mp hpre
  cases lits with
  | nil => exact hne rfl
  | cons z lits =>
    obtain rfl : z = '-' := (List.cons.inj hr).1
    exact hdash rfl

theorem litsSplit_flag (hne : lits ≠ []) (hdash : lits.head? ≠ some '-') {f : Str} (hf : IsFlag f) :
    litsSplit lits f = none := by
  obtain ⟨y, rfl⟩ := hf
  unfold litsSplit
  rw [if_neg]
  intro hpre
  obtain ⟨r, hr⟩ := List.isPrefixOf_iff_prefix.mp hpre
  cases lits with
  | nil => exact hne rfl
  | cons z lits =>
    obtain rfl : z = '-' := (List.cons.inj hr).1
    exact hdash rfl

theorem length_of_isFlag (hflags : ∀ p ∈ pairs, IsFlag p.1) : ∀ p ∈ pairs, p.1.length = ['-', x].length := by
  intro p hp
  obtain ⟨y, hy⟩ := hflags p hp
  rw [hy]
  rfl

/-- Arguments that begin with literal characters. -/
theorem flagArgs_pairs (hflags : ∀ p ∈ pairs, IsFlag p.1) (hne : lits ≠ []) (hdash : lits.head? ≠ some '-') :
    flagArgs ['-', x] lits c (pairWords pairs) = pairArgs ['-', x] (argSplit lits c) pairs := by
  obtain ⟨u', h, -⟩ := @scan_pairs _ ['-', x] (argSplit lits c) [] pairs [] (length_of_isFlag hflags)
    (.inl fun p hp => argSplit_flag hne hdash (hflags p hp))
  rw [List.append_nil] at h
  exact h.trans (List.append_nil _)

theorem hasFlag_pairs (hflags : ∀ p ∈ pairs, IsFlag p.1) (hne : lits ≠ []) (hdash : lits.head? ≠ some '-') :
    hasFlag ['-', x] lits (pairWords pairs) = !(pairArgs ['-', x] (litsSplit lits) pairs).isEmpty := by
  obtain ⟨u', h, -⟩ := @scan_pairs _ ['-', x] (litsSplit lits) [] pairs [] (length_of_isFlag hflags)
    (.inl fun p hp => litsSplit_flag hne hdash (hflags p hp))
  rw [List.append_nil] at h
  rw [hasFlag, h, scan, List.append_nil]

/-- Arguments without such characters, where nothing else ends in the flag. -/
theorem flagArgs_pairs_append (hflags : ∀ p ∈ pairs, IsFlag p.1)
    (hends : ∀ p ∈ pairs, ['-', x].isSuffixOf (leftOver ['-', x] (argSplit [] c) p) = false) (ws : List Str) :
    ∃ u', flagArgs ['-', x] [] c (pairWords pairs ++ ws) =
        pairArgs ['-', x] (argSplit [] c) pairs ++ scan ['-', x] (argSplit [] c) u' ws ∧
      ['-', x].isSuffixOf u' = false := by
  obtain ⟨u', hscan, hu'⟩ := @scan_pairs _ ['-', x] (argSplit [] c) ws pairs [] (length_of_isFlag hflags)
    (.inr ⟨rfl, hends⟩)
  exact ⟨u', hscan, hu' ⟨rfl, hends⟩⟩

end Pairs

end Seharden
