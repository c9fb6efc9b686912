import Loongshield.Seharden.AuditCoverage
import Loongshield.Seharden.AuditWords
import Loongshield.Seharden.Reliable

/-!
# Rules that are written, and rules that are found

The enforcers build a line out of words; the probe reads it with the patterns of `audit_rules.lua`. The words of a
built line are flags with one argument each (`lineWords_watch`, `lineWords_syscall`), as long as no argument has a
blank; then what a pattern reads is the argument of its flag, as long as no argument ends in a flag.
-/

namespace Seharden

open Lua
open Lua.Pattern

/-! ## Checked texts -/

/-- The class of the characters of a key. -/
def keyClass : Single := .set false [.cls 'w', .lit '_', .lit '.', .lit ':', .lit '-']

/-- The class of the characters of a name. -/
def nameClass : Single := .set false [.cls 'w', .lit '_']

theorem keyClass_blank (x : Char) (hx : isspace x = true) : keyClass.test x = false := by
  rcases isspace_cases hx with rfl | rfl | rfl | rfl | rfl | rfl <;> decide

theorem nameClass_blank (x : Char) (hx : isspace x = true) : nameClass.test x = false := by
  rcases isspace_cases hx with rfl | rfl | rfl | rfl | rfl | rfl <;> decide

theorem BlankFree.not_mem_newline {s : Str} (h : BlankFree s) : '\n' ∉ s := fun hmem => absurd (h '\n' hmem) (by decide)

/-- A word: it is not empty and has no blanks. -/
def Word (s : Str) : Prop := s ≠ [] ∧ BlankFree s

/-- A text over a class without blanks is a word. -/
theorem word_of_class {c : Single} (hc : ∀ x, isspace x = true → c.test x = false) {s : Str} (hne : s ≠ [])
    (hs : ∀ x ∈ s, c.test x = true) : Word s := by
  refine ⟨hne, fun x hx => ?_⟩
  by_contra hblank
  rw [Bool.not_eq_false] at hblank
  have htest := hs x hx
  rw [hc x hblank] at htest
  cases htest

theorem word_of_isSafeKey {key : Str} (h : isSafeKey (.str key) = true) : Word key := by
  obtain ⟨hne, hall⟩ := (strMatch_whole (c := keyClass) rfl key).mp (isMatch_iff.mp h)
  exact word_of_class keyClass_blank hne hall

/-- The control characters. -/
theorem control_of_isSafePath {path : Str} (h : isSafePath (.str path) = true) :
    path ≠ [] ∧ ∀ x ∈ path, iscntrl x = false := by
  simp only [isSafePath, Bool.and_eq_true, decide_eq_true_eq, Bool.not_eq_true'] at h
  refine ⟨h.1, fun x hx => ?_⟩
  by_contra hcontrol
  rw [Bool.not_eq_false] at hcontrol
  have hpat : compile "[%c\n\r]" = [.single (.set false [.cls 'c', .lit '\n', .lit '\r']) .one] := rfl
  have hmatch := isMatch_iff.mpr ((strMatch_somewhere hpat (by decide) path).mpr ⟨x, hx, ?_⟩)
  · rw [hmatch] at h
    exact absurd h.2 (by simp)
  · have hcls : SetItem.test x (.cls 'c') = true := hcontrol
    rw [Single.test, List.any_cons, hcls]
    rfl

/-- The only blank in a safe path is the space. -/
theorem blankFree_of_isSafePath {path : Str} (h : isSafePath (.str path) = true) (hblank : ' ' ∉ path) : Word path := by
  obtain ⟨hne, hall⟩ := control_of_isSafePath h
  refine ⟨hne, fun x hx => ?_⟩
  by_contra hspace
  rw [Bool.not_eq_false] at hspace
  have hcontrol := hall x hx
  rcases isspace_cases hspace with rfl | rfl | rfl | rfl | rfl | rfl
  · exact hblank hx
  all_goals exact absurd hcontrol (by decide)

/-! ## The words of a built line -/

theorem lineWords_blank (a b : Str) : lineWords (a ++ ' ' :: b) = lineWords a ++ lineWords b := by
  rw [lineWords, words, List.splitOnP_append_cons _ _ (by decide), List.filter_append]
  rfl

theorem lineWords_word {s : Str} (h : Word s) : lineWords s = [s] := by
  have hs : ∀ x ∈ s, nonBlank.test x = true := fun x hx => by simp [h.2 x hx]
  have hwords : words nonBlank (s ++ []) = [s] := words_append h.1 hs (by simp)
  rwa [List.append_nil] at hwords

theorem word_append {a b : Str} (ha : Word a) (hb : BlankFree b) : Word (a ++ b) :=
  ⟨by simp [ha.1], fun x hx => (List.mem_append.mp hx).elim (ha.2 x) (hb x)⟩

/-- A text over a class is read as a whole argument. -/
theorem argSplit_class {c : Single} {v : Str} (lits : Str) (hne : v ≠ []) (hall : ∀ x ∈ v, c.test x = true) :
    argSplit lits c (lits ++ v) = some (v, []) := by
  have htake : v.takeWhile c.test = v := by
    simpa using @List.takeWhile_append_of_pos _ _ v [] hall
  have hdrop : v.dropWhile c.test = [] := by
    simpa using @List.dropWhile_append_of_pos _ _ v [] hall
  unfold argSplit
  rw [if_pos (by simp), List.drop_left, htake, hdrop]
  cases v with
  | nil => exact absurd rfl hne
  | cons x v => rfl

theorem argSplit_word {v : Str} (lits : Str) (hv : Word v) : argSplit lits nonBlank (lits ++ v) = some (v, []) :=
  argSplit_class lits hv.1 fun x hx => by simp [hv.2 x hx]

theorem isFlag_mk (x : Char) : IsFlag ['-', x] := ⟨x, rfl⟩

/-! ## Watches -/

section Watch

/-- The flags and arguments of a watch. -/
def watchPairs (path permissions key : Str) : List Pair :=
  [(['-', 'w'], path), (['-', 'p'], permissions), (['-', 'k'], key)]

variable {path permissions key : Str}

/-- What follows the first flag of a watch. -/
def watchRest (path permissions key : Str) : Str :=
  path ++ ' ' :: ("-p".toList ++ ' ' :: (permissions ++ ' ' :: ("-k".toList ++ ' ' :: key)))

theorem buildWatchLine_eq : buildWatchLine path permissions (some key) =
    "-w".toList ++ ' ' :: watchRest path permissions key := by
  have hassoc : ∀ a b c d e : Str, a ++ b ++ c ++ d ++ e = a ++ (b ++ (c ++ (d ++ e))) := fun a b c d e => by simp
  exact hassoc "-w " path " -p " permissions (" -k " ++ key)

theorem lineWords_watch (hpath : Word path) (hperm : Word permissions) (hkey : Word key) :
    lineWords (buildWatchLine path permissions (some key)) = pairWords (watchPairs path permissions key) := by
  rw [buildWatchLine_eq, watchRest]
  simp only [lineWords_blank, lineWords_word hpath, lineWords_word hperm, lineWords_word hkey]
  rfl

theorem watchPairs_flags : ∀ p ∈ watchPairs path permissions key, IsFlag p.1 := by
  simp only [watchPairs, List.forall_mem_cons, List.not_mem_nil, false_implies, implies_true, and_true]
  exact ⟨isFlag_mk 'w', isFlag_mk 'p', isFlag_mk 'k'⟩

/-- A text over the permission letters. -/
def Permissions (s : Str) : Prop := s ≠ [] ∧ ∀ x ∈ s, x ∈ rwax

theorem permissions_of_canonicalize {v : Value} {s : Str} (h : canonicalizePermissions v = some s) : Permissions s := by
  unfold canonicalizePermissions at h
  split at h
  next t =>
    split at h
    · cases h
    next hok =>
      cases h
      simp only [Bool.or_eq_true, decide_eq_true_eq, List.any_eq_true, Bool.not_eq_true', not_or, not_exists,
        not_and, Bool.not_eq_false, List.contains_iff_mem] at hok
      refine ⟨fun hnil => ?_, fun x hx => (List.mem_filter.mp hx).1⟩
      obtain ⟨y, t', rfl⟩ := List.exists_cons_of_ne_nil hok.1
      have hy : y ∈ rwax.filter fun c => (y :: t').contains c :=
        List.mem_filter.mpr ⟨hok.2 y List.mem_cons_self, by simp⟩
      rw [hnil] at hy
      cases hy
  · cases h

theorem rwaxSet_test {x : Char} (h : x ∈ rwax) : rwaxSet.test x = true := by
  have hx : x = 'r' ∨ x = 'w' ∨ x = 'a' ∨ x = 'x' := by simpa using (show x ∈ ['r', 'w', 'a', 'x'] from h)
  rcases hx with rfl | rfl | rfl | rfl <;> decide

theorem Permissions.word (h : Permissions permissions) : Word permissions :=
  word_of_class rwaxSet_blank h.1 fun x hx => rwaxSet_test (h.2 x hx)

/-- Permissions have no dash, so they end in no flag. -/
theorem Permissions.not_flag (h : Permissions permissions) (x : Char) : ['-', x].isSuffixOf permissions = false := by
  rw [← Bool.not_eq_true, List.isSuffixOf_iff_suffix]
  intro hsuf
  have hdash : '-' ∈ permissions := hsuf.subset (by simp)
  exact absurd (h.2 '-' hdash) (by decide)

/-- The permissions of a watch are read back, whatever the path ends in. -/
theorem extractWatchPermissions_watch (hpath : Word path) (hperm : Permissions permissions) (hkey : Word key) :
    extractWatchPermissions (buildWatchLine path permissions (some key)) = permissions := by
  have hnone : ∀ p ∈ watchPairs path permissions key, argSplit [] rwaxSet p.1 = none := by
    intro p hp
    obtain ⟨x, hx⟩ := watchPairs_flags p hp
    rw [hx]
    rfl
  obtain ⟨u', hargs, -⟩ := @scan_pairs _ ['-', 'p'] (argSplit [] rwaxSet) [] (watchPairs path permissions key) []
    (length_of_isFlag watchPairs_flags) (.inl hnone)
  have hread : argSplit [] rwaxSet permissions = some (permissions, []) :=
    argSplit_class [] hperm.1 fun x hx => rwaxSet_test (hperm.2 x hx)
  have hpair : pairArgs ['-', 'p'] (argSplit [] rwaxSet) (watchPairs path permissions key) = [permissions] := by
    simp [pairArgs, watchPairs, hread]
  rw [List.append_nil, hpair] at hargs
  rw [extractWatchPermissions_eq, lineWords_watch hpath hperm.word hkey]
  change ((scan ['-', 'p'] (argSplit [] rwaxSet) [] _).head? <|> _).getD [] = _
  rw [hargs]
  rfl

/-- The key of a watch is read back, unless the path ends in the flag of a key. -/
theorem extractKey_watch (hpath : Word path) (hperm : Permissions permissions) (hkey : Word key) :
    extractKey (buildWatchLine path permissions (some key)) =
      some (if ['-', 'k'].isSuffixOf path then "-p".toList else key) := by
  rw [extractKey_eq, lineWords_watch hpath hperm.word hkey]
  split
  next hends =>
    have hscan : scan ['-', 'k'] (argSplit [] nonBlank) [] (pairWords (watchPairs path permissions key)) =
        "-p".toList :: scan ['-', 'k'] (argSplit [] nonBlank) [] [permissions, ['-', 'k'], key] := by
      simp only [pairWords, watchPairs, List.flatMap_cons, List.flatMap_nil, List.cons_append, List.nil_append]
      rw [scan, if_neg (by decide), scan, if_neg (by decide), scan, if_pos hends]
      rfl
    change ((scan ['-', 'k'] (argSplit [] nonBlank) [] _).head? <|> _) = _
    rw [hscan]
    rfl
  next hends =>
    have hclean : ∀ p ∈ watchPairs path permissions key,
        ['-', 'k'].isSuffixOf (leftOver ['-', 'k'] (argSplit [] nonBlank) p) = false := by
      have hlast : leftOver ['-', 'k'] (argSplit [] nonBlank) (['-', 'k'], key) = [] := by
        have hread := argSplit_word [] hkey
        rw [List.nil_append] at hread
        simp [leftOver, hread]
      simp only [watchPairs, List.forall_mem_cons, List.not_mem_nil, false_implies, implies_true, and_true, hlast]
      refine ⟨?_, ?_, rfl⟩
      · exact (Bool.not_eq_true _).mp hends
      · exact hperm.not_flag 'k'
    obtain ⟨u', hargs, -⟩ := flagArgs_pairs_append watchPairs_flags hclean []
    have hread := argSplit_word [] hkey
    rw [List.nil_append] at hread
    have hpair : pairArgs ['-', 'k'] (argSplit [] nonBlank) (watchPairs path permissions key) = [key] := by
      simp [pairArgs, watchPairs, hread]
    rw [List.append_nil, hpair] at hargs
    change ((flagArgs ['-', 'k'] [] nonBlank _).head? <|> _) = _
    rw [hargs]
    rfl

theorem compile_watch : FlagPattern "%-w%s+(%S+)" ['-', 'w'] [] [.capOpen, .single nonBlank .plus, .capClose] :=
  flagPattern 'w' [] rfl rfl (by simp [BlankFree]) (by decide)

/-- The target of a line that begins with `-w` is its next word. -/
theorem firstCapture_watch (rest : Str) :
    firstCapture ("-w".toList ++ ' ' :: rest) "^%-w%s+(%S+)" = (lineWords rest).head? := by
  have hpat : "^%-w%s+(%S+)".toList = '^' :: "%-w%s+(%S+)".toList := rfl
  have htake : ("-w".toList ++ ' ' :: rest).takeWhile nonBlank.test = ['-', 'w'] := rfl
  have hdrop : ("-w".toList ++ ' ' :: rest).dropWhile nonBlank.test = ' ' :: rest := rfl
  rw [hpat, firstCapture_anchored compile_watch nonBlank_blank, firstArg, if_pos htake, hdrop,
    words_cons_of_neg rest rfl]
  cases hhead : (lineWords rest).head? with
  | none => rfl
  | some v =>
    have hmem : v ∈ words nonBlank rest := List.mem_of_mem_head? hhead
    have hne : v ≠ [] := by simpa using (List.mem_filter.mp hmem).2
    have hread := @argSplit_class nonBlank v [] hne (mem_words hmem)
    rw [List.nil_append] at hread
    rw [Option.bind_some, hread]
    rfl

/-- The target of a watch is read back iff the path has no blank. -/
theorem extractWatchTarget_watch_iff (hsafe : isSafePath (.str path) = true) :
    extractWatchTarget (buildWatchLine path permissions (some key)) = some (path, .watch) ↔ ' ' ∉ path := by
  unfold extractWatchTarget
  rw [buildWatchLine_eq, firstCapture_watch]
  constructor
  · intro h hblank
    cases hhead : (lineWords (watchRest path permissions key)).head? with
    | none =>
      -- the other ways to name a target are not watches
      rw [hhead, Option.map_none] at h
      generalize firstCapture _ "%-F%s+path=(%S+)".toList = byPath at h
      generalize firstCapture _ "%-F%s+dir=(%S+)".toList = byDir at h
      cases byPath <;> cases byDir <;> cases h
    | some w =>
      rw [hhead] at h
      obtain rfl : w = path := by
        have hw : some (w, WatchKind.watch) = some (path, .watch) := h
        exact (Prod.mk.inj (Option.some.inj hw)).1
      have hword := mem_words (List.mem_of_mem_head? hhead) ' ' hblank
      exact absurd hword (by decide)
  · intro hblank
    rw [watchRest, lineWords_blank, lineWords_word (blankFree_of_isSafePath hsafe hblank)]
    rfl

/-- A line that begins with `-w` and a blank is a watch. -/
theorem isMatch_watch (rest : Str) : isMatch ("-w".toList ++ ' ' :: rest) "^%-w%s+" = true := by
  have hpat : compile "%-w%s+" = [Single.cls '-', .lit 'w'].map (Item.single · .one) ++ [.single blank .plus] := rfl
  have hlits : List.Forall₂ (fun (c : Single) x => c.test x = true) [.cls '-', .lit 'w'] "-w".toList :=
    .cons rfl (.cons rfl .nil)
  have hrun : ∀ run rest : Str, run ≠ [] → (∀ x ∈ run, blank.test x = true) →
      (∀ x, rest.head? = some x → blank.test x = false) →
      doMatch ("-w".toList ++ (run ++ rest)) (compile "%-w%s+") 0 [] = .ok (some (2 + run.length, [])) := by
    intro run rest hne hall hend
    rw [hpat, doMatch_lits_start hlits]
    exact doMatch_run hne hall hend rfl (by simp)
  have hsplit : ' ' :: rest = (' ' :: rest).takeWhile blank.test ++ (' ' :: rest).dropWhile blank.test :=
    List.takeWhile_append_dropWhile.symm
  have hmatch := hrun ((' ' :: rest).takeWhile blank.test) ((' ' :: rest).dropWhile blank.test)
    (by rw [List.takeWhile_cons_of_pos rfl]; simp) (fun x hx => List.all_eq_true.mp List.all_takeWhile x hx)
    (fun x hx => by
      have hnot := List.head?_dropWhile_not blank.test (' ' :: rest)
      rw [hx] at hnot
      simpa using hnot)
  rw [← hsplit] at hmatch
  have hfound := search_of_some hmatch 0
  exact isMatch_iff.mpr ((@strMatch_of_search_anchored _ _ (some (0, _)) hfound).mpr rfl)

/-- The permissions that were asked for are among the canonical ones. -/
theorem hasPermissions_canonicalize {v : Value} (h : canonicalizePermissions v = some permissions) :
    hasPermissions permissions v.tostring = true := by
  unfold canonicalizePermissions at h
  split at h
  next t =>
    split at h
    · cases h
    next hok =>
      cases h
      rw [hasPermissions, List.all_eq_true]
      intro c hc
      cases hmem : rwax.contains c with
      | false => rfl
      | true =>
        have hin : (rwax.filter fun c => t.contains c).contains c = true := by
          rw [List.contains_iff_mem, List.mem_filter]
          exact ⟨List.contains_iff_mem.mp hmem, List.contains_iff_mem.mpr hc⟩
        rw [hin]
        rfl
  · cases h

/-- The extractors recover what a watch was built from. -/
structure RecoversWatch (line path permissions key : Str) : Prop where
  target : extractWatchTarget line = some (path, .watch)
  permissions : extractWatchPermissions line = permissions
  key : extractKey line = some key

/-- When a watch is recovered: the path has no blank, and does not end in the flag of a key. -/
def WatchReadable (path key : Str) : Prop := ' ' ∉ path ∧ (['-', 'k'] <:+ path → key = "-p".toList)

/-- **A built watch is recovered iff it is readable.** -/
theorem recoversWatch_iff (hsafe : isSafePath (.str path) = true) (hperm : Permissions permissions) (hkey : Word key) :
    RecoversWatch (buildWatchLine path permissions (some key)) path permissions key ↔ WatchReadable path key := by
  have htarget := @extractWatchTarget_watch_iff path permissions key hsafe
  by_cases hblank : ' ' ∈ path
  · refine iff_of_false (fun h => htarget.mp h.target hblank) fun h => h.1 hblank
  · have hword := blankFree_of_isSafePath hsafe hblank
    have hextract := extractKey_watch hword hperm hkey
    have hiff : extractKey (buildWatchLine path permissions (some key)) = some key ↔
        (['-', 'k'] <:+ path → key = "-p".toList) := by
      rw [hextract, Option.some_inj]
      split
      next hends => exact ⟨fun h _ => h.symm, fun h => (h (List.isSuffixOf_iff_suffix.mp hends)).symm⟩
      next hends => exact iff_of_true rfl fun h => absurd (List.isSuffixOf_iff_suffix.mpr h) hends
    constructor
    · exact fun h => ⟨hblank, hiff.mp h.key⟩
    · exact fun h => ⟨htarget.mpr hblank, extractWatchPermissions_watch hword hperm hkey, hiff.mpr h.2⟩

/-- A line from which the watch is recovered is found. -/
theorem RecoversWatch.found {params : Value} (view : View) {lines : List Str}
    (h : RecoversWatch (buildWatchLine path permissions (some key)) path permissions key)
    (hpath : params.field "path" = .str path) (hperm : canonicalizePermissions (params.field "permissions") =
      some permissions)
    (hkey : params.field "key" = .str key) (hmem : buildWatchLine path permissions (some key) ∈ lines) :
    (findWatchRuleInLines view lines params).isSome = true := by
  have hwatch : isMatch (buildWatchLine path permissions (some key)) "^%-w%s+" = true := by
    rw [buildWatchLine_eq]
    exact isMatch_watch _
  have hkeys : keyMatches (buildWatchLine path permissions (some key)) (params.field "key")
      (notFalse params "require_key") = true := by
    rw [keyMatches, hkey, extractedKeyIs, h.key]
    simp [Value.isNil]
  rw [findWatchRuleInLines, List.findSome?_isSome_iff]
  refine ⟨_, hmem, ?_⟩
  rw [watchLine, h.target]
  dsimp only
  have htext : (Value.str path).tostring = path := rfl
  rw [hwatch, Bool.true_or, if_pos rfl, h.permissions, hasPermissions_canonicalize hperm, hkeys, hpath, htext,
    beq_self_eq_true, Bool.true_or]
  rfl

theorem not_mem_watch (hpath : '\n' ∉ path) (hperm : '\n' ∉ permissions) (hkey : '\n' ∉ key) :
    '\n' ∉ buildWatchLine path permissions (some key) :=
  List.not_mem_append (List.not_mem_append (List.not_mem_append (List.not_mem_append (by decide) hpath)
    (by decide)) hperm)
    (List.not_mem_append (by decide) hkey)

/-- What an accepted watch does: it appends its line to the rule file. -/
theorem ensureWatchRule_ok {env : Env} {paths : AuditPaths} {params : Value} {s s' : Sys}
    (h : ensureWatchRule env paths params s = (.ok (.ok ()), s')) (hkey : params.field "key" = .str key) :
    ∃ path permissions ruleFile s₁, params.field "path" = .str path ∧ isSafePath (.str path) = true ∧
      canonicalizePermissions (params.field "permissions") = some permissions ∧ isSafeKey (.str key) = true ∧
      resolveRuleFile env paths params s = (.ok (.ok ruleFile), s₁) ∧
      appendUniqueLine env ruleFile (buildWatchLine path permissions (some key)) "audit.ensure_watch_rule" auditDeps
      s₁ =
        (.ok (.ok ()), s') := by
  unfold ensureWatchRule at h
  split at h
  · cases h
  next hsafe =>
    rw [Bool.not_eq_true', Bool.not_eq_false] at hsafe
    cases hperm : canonicalizePermissions (params.field "permissions") with
    | none =>
      rw [hperm] at h
      cases h
    | some permissions =>
      rw [hperm] at h
      dsimp only at h
      split at h
      · cases h
      next hkeyok =>
        obtain ⟨r, s₁, hresolve, h⟩ := Act.of_bind_ok h
        cases r with
        | error err => cases h
        | ok ruleFile =>
          obtain ⟨path, hpath⟩ : ∃ path, params.field "path" = .str path := by
            cases hp : params.field "path" with
            | str path => exact ⟨path, rfl⟩
            | _ => rw [hp] at hsafe; cases hsafe
          rw [hkey] at hkeyok
          have hkeysafe : isSafeKey (.str key) = true := by simpa [Value.isNil] using hkeyok
          refine ⟨path, permissions, ruleFile, s₁, hpath, hpath ▸ hsafe, rfl, hkeysafe, hresolve, ?_⟩
          rw [hpath, hkey] at h
          exact h

/-- **Watches that are written are found**, with everything recovered, iff they are readable. -/
theorem watch_found_iff {env : Env} (henv : env.Reliable) {paths : AuditPaths} {params : Value} {s s' : Sys}
    {ruleFile : Str} (view : View) (hkey : params.field "key" = .str key) (hpath : params.field "path" = .str path)
    (hperm : canonicalizePermissions (params.field "permissions") = some permissions)
    (hfile : (resolveRuleFile env paths params s).1 = .ok (.ok ruleFile))
    (h : ensureWatchRule env paths params s = (.ok (.ok ()), s')) :
    ((findWatchRuleInLines view (s'.linesAt ruleFile) params).isSome = true ∧
      RecoversWatch (buildWatchLine path permissions (some key)) path permissions key) ↔ WatchReadable path key := by
  obtain ⟨path', permissions', ruleFile', s₁, hpath', hsafe, hperm', hsafekey, hresolve, happend⟩ :=
    ensureWatchRule_ok h hkey
  obtain rfl : path = path' := by
    rw [hpath] at hpath'
    exact Value.str.inj hpath'
  obtain rfl : permissions = permissions' := Option.some.inj (hperm.symm.trans hperm')
  obtain rfl : ruleFile = ruleFile' := by
    rw [hresolve] at hfile
    exact (Except.ok.inj (Except.ok.inj hfile)).symm
  have hiff := recoversWatch_iff hsafe (permissions_of_canonicalize hperm) (word_of_isSafeKey hsafekey)
  refine ⟨fun hfound => hiff.mp hfound.2, fun hread => ?_⟩
  have hrec := hiff.mpr hread
  have hnewline : '\n' ∉ buildWatchLine path permissions (some key) :=
    not_mem_watch (blankFree_of_isSafePath hsafe hread.1).2.not_mem_newline
      (permissions_of_canonicalize hperm).word.2.not_mem_newline (word_of_isSafeKey hsafekey).2.not_mem_newline
  have hmem : buildWatchLine path permissions (some key) ∈ s'.linesAt ruleFile := by
    rw [(appendUniqueLine_reliable henv hnewline happend).2]
    split
    next hmem => exact hmem
    next => simp
  exact ⟨hrec.found view hpath hperm hkey hmem, hrec⟩

end Watch

end Seharden
