import Loongshield.Seharden.SudoEdit

/-!
# `set_use_pty` and `find_use_pty`

The enforcer takes the negated flag out of every `Defaults` line and adds a line to the root; the probe looks at the
active lines of the tree.

- `rewrite_cases`: when a line is rewritten, and to what;
- `sets_joined`: a rewritten line does not set the flag that was taken out;
- `directives_rewritten`: the include tree stays as it is;
- `set_use_pty_converges`: what a run that succeeds leaves.
-/

namespace Seharden
namespace Sudo

open Lua Pattern Sudoers

/-! ## Lines that set a flag -/

/-- A `Defaults` line that has the flag, negated or not. -/
def Sets (flagName : Str) (negated : Bool) (line : Str) : Bool :=
  (parseDefaultsEntry (active line)).any fun entry => entry.options.any (removes flagName negated)

section Lines

variable {line flagName : Str} {negated : Bool}

theorem parse_comment (h : active line = [] ∨ (active line).head? = some '#') :
    parseDefaultsEntry (active line) = none := by
  rw [parseDefaultsEntry_active]
  split
  · rfl
  · cases hscope : scopeOf (firstWord line) with
    | none => rfl
    | some scope =>
      obtain ⟨x, r, hword, hspace, hhash, -⟩ := head_of_scopeOf hscope
      have hfront : firstWord line <+: active line := List.takeWhile_prefix _
      rw [hword] at hfront
      rcases h with h | h
      · rw [h] at hfront
        cases List.prefix_nil.mp hfront
      · obtain ⟨t, ht⟩ := hfront
        rw [← ht] at h
        exact absurd (Option.some.inj h) hhash

/-- **When a line is rewritten**: exactly if it has the flag. -/
theorem rewrite_cases (line flagName : Str) (negated : Bool) :
    (Sets flagName negated line = false ∧ rewriteDefaultsWithoutFlag line flagName negated = (some line, false)) ∨
    (Sets flagName negated line = true ∧ (∃ scope, scopeOf (firstWord line) = some scope) ∧
      rewriteDefaultsWithoutFlag line flagName negated = (if keptTokens line flagName negated = [] then none
        else some (joined (firstWord line) (keptTokens line flagName negated)), true)) := by
  cases hrun : rewriteDefaultsWithoutFlag line flagName negated with
  | mk new changed =>
    cases changed with
    | true =>
      obtain ⟨scope, hscope, hparse, hnew⟩ := rewrite_eq hrun
      refine .inr ⟨?_, ⟨scope, hscope⟩, by rw [hnew]⟩
      by_contra hno
      rw [Bool.not_eq_true] at hno
      unfold Sets at hno
      rw [hparse, Option.any_some] at hno
      unfold rewriteDefaultsWithoutFlag at hrun
      dsimp only at hrun
      rw [active_eq, hparse] at hrun
      dsimp only at hrun
      have hany : ((entryOf line scope).options.any fun option =>
        option.isFlag flagName && option.negated == negated) = false := hno
      rw [hany] at hrun
      split at hrun <;> cases hrun
    | false =>
      unfold rewriteDefaultsWithoutFlag at hrun
      dsimp only at hrun
      rw [active_eq] at hrun
      by_cases hcomment : active line = [] ∨ (active line).head? = some '#'
      · rw [if_pos hcomment] at hrun
        refine .inl ⟨?_, hrun.symm⟩
        rw [Sets, parse_comment hcomment]
        rfl
      · rw [if_neg hcomment] at hrun
        cases hparse : parseDefaultsEntry (active line) with
        | none =>
          rw [hparse] at hrun
          refine .inl ⟨?_, hrun.symm⟩
          rw [Sets, hparse]
          rfl
        | some entry =>
          rw [hparse] at hrun
          dsimp only at hrun
          cases hany : entry.options.any (removes flagName negated) with
          | false =>
            have hany' : (entry.options.any fun option => option.isFlag flagName && option.negated == negated) =
              false := hany
            rw [hany', Bool.not_false, if_pos rfl] at hrun
            refine .inl ⟨?_, hrun.symm⟩
            rw [Sets, hparse, Option.any_some, hany]
          | true =>
            have hany' : (entry.options.any fun option => option.isFlag flagName && option.negated == negated) =
              true := hany
            rw [hany'] at hrun
            split at hrun
            · next h => cases h
            · split at hrun <;> cases hrun

/-- What stays of a line does not set the flag. -/
theorem removes_glue {o : DefaultsOption} (ho : o ∈ (glue [] (keptTokens line flagName negated)).flatMap
    defaultsOptions) :
    removes flagName negated o = false := by
  obtain ⟨g, hg, hog⟩ := List.mem_flatMap.mp ho
  have hkinds : ∀ t ∈ keptTokens line flagName negated, isFlagToken t = true ∨ isOperator t = true :=
    fun t ht => (mem_keptTexts ht).imp id And.left
  rcases mem_glue hkinds (.inl rfl) hg with hmem | hop
  · -- an option that stayed
    have hkept : o ∈ (keptTokens line flagName negated).flatMap defaultsOptions := List.mem_flatMap.mpr ⟨g, hmem, hog⟩
    unfold keptTokens at hkept
    rw [flatMap_keptTexts] at hkept
    exact (Bool.not_eq_true' _).mp (List.mem_filter.mp hkept).2
  · -- texts that were joined have a value
    obtain ⟨name, operator, value, hopts⟩ := defaultsOptions_operator hop
    rw [hopts, List.mem_singleton] at hog
    exact (Bool.not_eq_true' _).mp (@removes_operator flagName negated o (by rw [hog]; rfl))

theorem sets_of_parse {entry : DefaultsEntry} (hparse : parseDefaultsEntry (active line) = some entry)
    (h : ∀ o ∈ entry.options, removes flagName negated o = false) : Sets flagName negated line = false := by
  unfold Sets
  rw [hparse]
  exact List.any_eq_false.mpr fun o ho => by
    rw [h o ho]
    exact Bool.false_ne_true

variable {scope : Scope} (hscope : scopeOf (firstWord line) = some scope) (hne : keptTokens line flagName negated ≠ [])

include hscope

/-- What stays of a line begins with the letter of its first word. -/
theorem head_joined : ∃ x, (joined (firstWord line) (keptTokens line flagName negated)).head? = some x ∧ x ≠ '#' ∧
    x ≠ '@' := by
  obtain ⟨x, w, hword, -, hhash, hat⟩ := head_of_scopeOf hscope
  refine ⟨x, ?_, hhash, hat⟩
  rw [joined, hword]
  rfl

include hne

theorem trimmed_and_active : Trimmed (joined (firstWord line) (keptTokens line flagName negated)) ∧
    active (joined (firstWord line) (keptTokens line flagName negated)) =
      joined (firstWord line) (keptTokens line flagName negated) := by
  have htokens := fun t ht => @mem_keptTokens line flagName negated t ht
  have htrimTokens := trimmed_intercalate fun t ht => (htokens t ht).1
  obtain ⟨y, r, hjoin, hy⟩ : ∃ x r, [','].intercalate (keptTokens line flagName negated) = x :: r ∧ Plain x := by
    cases hk : keptTokens line flagName negated with
    | nil => exact absurd hk hne
    | cons t ts =>
      obtain ⟨x, r, rfl, hx⟩ := (htokens t (by rw [hk]; exact List.mem_cons_self)).2.2
      cases ts with
      | nil =>
        rw [intercalate_singleton]
        exact ⟨x, r, rfl, hx⟩
      | cons t' ts =>
        rw [intercalate_cons_cons]
        exact ⟨x, _, rfl, hx⟩
  have htrim := trimmed_joined hscope (by rw [hjoin]; exact List.cons_ne_nil _ _) htrimTokens
  have hcomment := noComment_joined (firstWord_nonblank line) (fun t ht => (htokens t ht).2.1) (by
    rw [hjoin]
    exact fun h => hy.2.2.2.2.2.2 (Option.some.inj h))
  exact ⟨htrim, by rw [active, cutComment_of_noComment hcomment, trim_of_trimmed htrim]⟩

/-- **A rewritten line does not set the flag** that was taken out. -/
theorem sets_joined : Sets flagName negated (joined (firstWord line) (keptTokens line flagName negated)) = false := by
  have hparse := (congrArg parseDefaultsEntry (trimmed_and_active hscope hne).2).trans
    (parseDefaultsEntry_kept line flagName negated hscope hne)
  refine sets_of_parse hparse fun o ho => ?_
  dsimp only at ho
  exact removes_glue ho

omit hscope hne

/-- The first character of a line that is no comment is the first of its active text. -/
theorem head_of_active {x : Char} (hno : (trim line).head? ≠ some '#') (hx : (active line).head? = some x) :
    (trim line).head? = some x := by
  rw [← active_trim hno, active] at hx
  obtain ⟨rest, hrest⟩ := cutComment_isPrefix (trim line)
  cases hcut : cutComment (trim line) with
  | nil =>
    rw [hcut] at hx
    cases hx
  | cons y t =>
    rw [hcut] at hx hrest
    have hy : isspace y = false := by
      refine @head_trim line y ?_
      rw [← hrest]
      rfl
    rw [head_trim_cons hy] at hx
    rw [← hrest, ← Option.some.inj hx]
    rfl

theorem newline_joined (hline : '\n' ∉ line) : '\n' ∉ joined (firstWord line) (keptTokens line flagName negated) := by
  intro hmem
  rcases List.mem_append.mp hmem with hmem | hmem
  · exact absurd (firstWord_nonblank line _ hmem) (by decide)
  · rcases List.mem_cons.mp hmem with h | hmem
    · cases h
    · obtain ⟨t, ht, hmem⟩ := (mem_intercalate hmem).resolve_left (by decide)
      rcases mem_keptTexts ht with hflag | ⟨-, hsplit⟩
      · exact absurd (plain_of_isFlagToken hflag _ hmem).1 (by decide)
      · have hin := ((splitDefaultsOptions_pieces (rawOptions line)).2 t hsplit).2.2.trans (infix_rawOptions line)
        have hactive : active line <:+: line := (infix_trim _).trans (cutComment_isPrefix line).isInfix
        exact hline ((hin.trans hactive).subset hmem)

/-- **What becomes of a line**: it is kept if it does not set the flag; else it has no directive, and neither has what
is left of it. -/
theorem rewritten_cases (hostname : Option Str) (p line flagName : Str) (negated : Bool) :
    (Sets flagName negated line = false ∧ (rewriteDefaultsWithoutFlag line flagName negated).1 = some line) ∨
    (Sets flagName negated line = true ∧ directive hostname p line = none ∧
      ∀ new, (rewriteDefaultsWithoutFlag line flagName negated).1 = some new → Sets flagName negated new = false ∧
        directive hostname p new = none ∧ ('\n' ∉ line → '\n' ∉ new)) := by
  rcases rewrite_cases line flagName negated with ⟨hsets, hrun⟩ | ⟨hsets, ⟨scope, hscope⟩, hrun⟩
  · exact .inl ⟨hsets, by rw [hrun]⟩
  · refine .inr ⟨hsets, ?_, fun new hnew => ?_⟩
    · obtain ⟨x, w, hword, -, hhash, hat⟩ := head_of_scopeOf hscope
      have hfront : firstWord line <+: active line := List.takeWhile_prefix _
      rw [hword] at hfront
      obtain ⟨t, ht⟩ := hfront
      have hactive : (active line).head? = some x := by
        rw [← ht]
        rfl
      have hno : (trim line).head? ≠ some '#' := by
        intro hcomment
        rcases active_of_comment hcomment with hnil | hhead
        · rw [hnil] at hactive
          cases hactive
        · exact hhash (Option.some.inj (hactive.symm.trans hhead))
      have hhead : (trim line).head? = some x := head_of_active hno hactive
      refine directive_eq_none ?_ ?_
      · rw [hhead]
        exact fun h => hhash (Option.some.inj h)
      · rw [hhead]
        exact fun h => hat (Option.some.inj h)
    · rw [hrun] at hnew
      dsimp only at hnew
      split at hnew
      · cases hnew
      · next hne =>
        cases hnew
        obtain ⟨x, hx, hhash, hat⟩ := @head_joined line flagName negated scope hscope
        have htrim := (trimmed_and_active hscope hne).1
        refine ⟨sets_joined hscope hne, ?_, newline_joined⟩
        refine directive_eq_none ?_ ?_
        · rw [trim_of_trimmed htrim, hx]
          exact fun h => hhash (Option.some.inj h)
        · rw [trim_of_trimmed htrim, hx]
          exact fun h => hat (Option.some.inj h)

/-- The lines of a file without the flag. -/
def withoutFlag (flagName : Str) (negated : Bool) (lines : List Str) : List Str :=
  lines.filterMap fun line => (rewriteDefaultsWithoutFlag line flagName negated).1

theorem mem_withoutFlag {lines : List Str} {new : Str} (h : new ∈ withoutFlag flagName negated lines) :
    Sets flagName negated new = false := by
  obtain ⟨line, -, hnew⟩ := List.mem_filterMap.mp h
  rcases rewritten_cases none [] line flagName negated with ⟨hsets, hrun⟩ | ⟨-, -, hrun⟩
  · rw [hrun] at hnew
    rw [← Option.some.inj hnew]
    exact hsets
  · exact (hrun new hnew).1

/-- **The include tree stays as it is.** -/
theorem directives_rewritten (hostname : Option Str) (p : Str) (lines : List Str) :
    (withoutFlag flagName negated lines).filterMap (directive hostname p) = lines.filterMap (directive hostname p) := by
  unfold withoutFlag
  rw [List.filterMap_filterMap]
  refine List.filterMap_congr fun line _ => ?_
  rcases rewritten_cases hostname p line flagName negated with ⟨-, hrun⟩ | ⟨-, hdir, hrun⟩
  · rw [hrun]
    rfl
  · rw [hdir]
    cases hnew : (rewriteDefaultsWithoutFlag line flagName negated).1 with
    | none => rfl
    | some new => exact (hrun new hnew).2.1

theorem lines_withoutFlag {lines : List Str} (h : Seharden.Lines lines) :
    Seharden.Lines (withoutFlag flagName negated lines) := by
  intro new hnew
  obtain ⟨line, hline, hrun⟩ := List.mem_filterMap.mp hnew
  rcases rewritten_cases none [] line flagName negated with ⟨-, hkept⟩ | ⟨-, -, hall⟩
  · rw [hkept] at hrun
    rw [← Option.some.inj hrun]
    exact h line hline
  · exact (hall new hrun).2.2 (h line hline)

/-- Lines that do not set the flag are kept, in order. -/
theorem filter_sublist_withoutFlag : ∀ lines : List Str,
    (lines.filter fun line => !Sets flagName negated line).Sublist (withoutFlag flagName negated lines)
  | [] => List.Sublist.refl _
  | line :: lines => by
    have ih := filter_sublist_withoutFlag lines
    rcases rewritten_cases none [] line flagName negated with ⟨hsets, hrun⟩ | ⟨hsets, -, -⟩
    · rw [List.filter_cons_of_pos (by rw [hsets]; rfl), withoutFlag, List.filterMap_cons, hrun]
      exact ih.cons_cons line
    · rw [List.filter_cons_of_neg (by rw [hsets]; simp)]
      refine ih.trans ?_
      unfold withoutFlag
      rw [List.filterMap_cons]
      split
      · exact List.Sublist.refl _
      · exact List.sublist_cons_self _ _

theorem withoutFlag_eq_self {lines : List Str} (h : ∀ line ∈ lines, Sets flagName negated line = false) :
    withoutFlag flagName negated lines = lines := by
  have hcongr : withoutFlag flagName negated lines = lines.filterMap some := by
    refine List.filterMap_congr fun line hline => ?_
    rcases rewritten_cases none [] line flagName negated with ⟨-, hrun⟩ | ⟨hsets, -, -⟩
    · exact hrun
    · exact absurd ((h line hline).symm.trans hsets) Bool.false_ne_true
  rw [hcongr, List.filterMap_some]

end Lines

/-! ## The enforcer and the probe -/

/-- A line that disables `use_pty`. -/
def disablesUsePty (line : Str) : Bool := Sets "use_pty" true line

theorem usePtyLines_eq (isRoot : Bool) (lines : List Str) : usePtyLines isRoot lines =
    if isRoot && decide (desiredLine ∉ withoutFlag "use_pty" true lines) then
      withoutFlag "use_pty" true lines ++ [desiredLine]
    else withoutFlag "use_pty" true lines := rfl

theorem desiredLine_active : active desiredLine = desiredLine := by decide +kernel

theorem desiredLine_sets : disablesUsePty desiredLine = false := by
  unfold disablesUsePty Sets
  rw [desiredLine_active]
  decide +kernel

theorem directive_desiredLine (hostname : Option Str) (p : Str) : directive hostname p desiredLine = none := by
  have hhead : (trim desiredLine).head? = some 'D' := by decide +kernel
  refine directive_eq_none ?_ ?_
  · rw [hhead]
    decide
  · rw [hhead]
    decide

section Pty

variable {isRoot : Bool} {lines : List Str}

theorem mem_usePtyLines {new : Str} (h : new ∈ usePtyLines isRoot lines) : disablesUsePty new = false := by
  rw [usePtyLines_eq] at h
  split at h
  · rcases List.mem_append.mp h with h | h
    · exact mem_withoutFlag h
    · rw [List.mem_singleton.mp h]
      exact desiredLine_sets
  · exact mem_withoutFlag h

theorem directives_usePtyLines (hostname : Option Str) (p : Str) (isRoot : Bool) (lines : List Str) :
    (usePtyLines isRoot lines).filterMap (directive hostname p) = lines.filterMap (directive hostname p) := by
  rw [usePtyLines_eq]
  split
  · rw [List.filterMap_append, directives_rewritten, List.filterMap_cons_none (directive_desiredLine hostname p),
      List.filterMap_nil, List.append_nil]
  · exact directives_rewritten hostname p lines

theorem lines_usePtyLines (isRoot : Bool) (h : Lines lines) : Lines (usePtyLines isRoot lines) := by
  rw [usePtyLines_eq]
  split
  · intro line hline
    rcases List.mem_append.mp hline with hline | hline
    · exact lines_withoutFlag h line hline
    · rw [List.mem_singleton.mp hline]
      decide
  · exact lines_withoutFlag h

theorem desiredLine_mem (h : isRoot = true) : desiredLine ∈ usePtyLines isRoot lines := by
  rw [usePtyLines_eq, h, Bool.true_and]
  split
  · exact List.mem_append_right _ (List.mem_singleton_self _)
  · next hmem => exact Decidable.not_not.mp fun hno => hmem (decide_eq_true hno)

theorem usePtyLines_again (isRoot : Bool) (lines : List Str) :
    usePtyLines isRoot (usePtyLines isRoot lines) = usePtyLines isRoot lines := by
  have hself : withoutFlag "use_pty" true (usePtyLines isRoot lines) = usePtyLines isRoot lines :=
    withoutFlag_eq_self fun line hline => mem_usePtyLines hline
  rw [usePtyLines_eq isRoot (usePtyLines isRoot lines), hself]
  cases isRoot with
  | false => rfl
  | true =>
    have hmem : desiredLine ∈ usePtyLines true lines := desiredLine_mem rfl
    rw [decide_eq_false fun hno : desiredLine ∉ usePtyLines true lines => hno hmem]
    rfl

/-- What a run leaves of a file: no line disables `use_pty`, and those that did not are there, in order. -/
theorem filter_sublist_usePtyLines (isRoot : Bool) (lines : List Str) :
    (lines.filter fun line => !disablesUsePty line).Sublist (usePtyLines isRoot lines) := by
  rw [usePtyLines_eq]
  split
  · exact (filter_sublist_withoutFlag lines).trans (List.sublist_append_left _ _)
  · exact filter_sublist_withoutFlag lines

end Pty

theorem usePtyFile_eq (env : Env) (root path : Str) : usePtyFile env root path =
    sudoFile env (.error ("sudo.set_use_pty: refusing to overwrite symlink '" ++ path ++ "'")) "sudo.set_use_pty"
      (fun lines => decide (lines = usePtyLines (path = root) lines)) (usePtyLines (path = root)) path := by
  refine congrArg (isSymlink env path >>= ·) (funext fun link => ?_)
  cases link with
  | true => rfl
  | false =>
    refine congrArg (readLines env path "sudo.set_use_pty" sudoDeps false >>= ·) (funext fun r => ?_)
    cases r with
    | error err => rfl
    | ok r => exact (if_congr decide_eq_true_iff rfl rfl).symm

/-- A flag that is switched off is there, negated. -/
theorem flagState_of_sets {line flagName : Str} (h : Sets flagName true line = false) :
    getDefaultsFlagState (active line) flagName ≠ some false := by
  intro hstate
  unfold getDefaultsFlagState at hstate
  cases hparse : parseDefaultsEntry (active line) with
  | none =>
    rw [hparse] at hstate
    cases hstate
  | some entry =>
    rw [hparse] at hstate
    dsimp only at hstate
    obtain ⟨o, ho, hneg⟩ := Option.map_eq_some_iff.mp hstate
    obtain ⟨hmem, hflag⟩ := List.mem_filter.mp (List.mem_of_getLast? ho)
    unfold Sets at h
    rw [hparse, Option.any_some, List.any_eq_false] at h
    refine h o hmem ?_
    rw [removes, hflag, Bool.true_and, beq_iff_eq]
    simpa using hneg

/-- A line that disables `use_pty` has the flag. -/
theorem isConflict_false {p line : Str} (h : disablesUsePty line = false) : isConflict ⟨p, active line⟩ = false := by
  unfold isConflict
  rw [Bool.and_eq_false_iff]
  left
  rw [decide_eq_false_iff_not]
  exact flagState_of_sets h

section Run

variable {env : Env} (henv : env.Reliable) {dirs : Dirs} {hostname : Option Str} {params : Value} {s s' : Sys}

include henv

/-- The files after a run that succeeds. -/
theorem setUsePty_files (hfresh : env.Fresh s) (h : setUsePty env dirs hostname params s = (.ok (.ok ()), s')) :
    ∃ st, load (s.view dirs) hostname (some "sudo.set_use_pty".toList) defaultMaxDepth [rootOf params] = .ok st ∧
      ∀ p, (p ∉ st.files → s'.disk p = s.disk p) ∧ (p ∈ st.files → (s.disk p).isSome = true ∧
      (s'.disk p).isSome = true ∧
        s'.linesAt p = usePtyLines (p = rootOf params) (s.linesAt p)) := by
  obtain ⟨st, hload, hrun⟩ := editSudoers_ok h
  have hnodup := ((load_covers_tree (s.view dirs) hostname (some "sudo.set_use_pty".toList) defaultMaxDepth
    [rootOf params]).2 st hload).1
  have hedit : Edits env (fun path => usePtyFile env (rootOf params) path) fun p =>
    usePtyLines (p = rootOf params) := by
    intro p s s' hfresh h
    dsimp only at h
    rw [usePtyFile_eq] at h
    exact sudoFile_edits henv (.inl ⟨_, rfl⟩) (fun lines => lines_usePtyLines _)
      (fun lines hd => (of_decide_eq_true hd).symm)
      hfresh h
  exact ⟨st, hload, @eachFile_edits _ _ _ hedit _ s.tick s' hfresh hnodup hrun⟩

/-- A run over files that are as they should be writes nothing. -/
theorem setUsePty_nothing (h : ∀ st, load (s.view dirs) hostname (some "sudo.set_use_pty".toList) defaultMaxDepth
      [rootOf params] = .ok st → ∀ p ∈ st.files, usePtyLines (p = rootOf params) (s.linesAt p) = s.linesAt p) :
    (setUsePty env dirs hostname params s).2.disk = s.disk ∧
      (setUsePty env dirs hostname params s).2.effects = s.effects := by
  refine editSudoers_nothing fun st hload p hp s₁ hs₁ => ?_
  rw [usePtyFile_eq]
  refine sudoFile_nothing henv (decide_eq_true ?_)
  have hsame : s₁.linesAt p = s.linesAt p := by
    unfold Sys.linesAt
    rw [hs₁]
  rw [hsame]
  exact (h st hload p hp).symm

end Run

/-- What the probe reports, from what is loaded. -/
theorem findUsePty_eq {view : View} {hostname : Option Str} {root : Str} {st : State}
    (h : load view hostname none defaultMaxDepth [root] = .ok st) : findUsePty view hostname (some [root]) =
      .ok { details := st.lines.filter enablesUsePty, conflicts := st.lines.filter isConflict } := by
  unfold findUsePty loadProbeLines
  dsimp only [Option.getD_some]
  rw [if_neg (List.cons_ne_nil _ _), h]
  rfl

theorem enablesUsePty_desiredLine (root : Str) : activeLine root desiredLine = [⟨root, desiredLine⟩] ∧
    enablesUsePty ⟨root, desiredLine⟩ = true := by
  have htrim : trim desiredLine = desiredLine := by decide +kernel
  have hstrip : trim (Sudoers.stripComment desiredLine) = desiredLine := by decide +kernel
  have hstate : getDefaultsFlagState desiredLine "use_pty" = some true := by decide +kernel
  have hscope : defaultsScope desiredLine = some .global := by decide +kernel
  constructor
  · unfold activeLine appendActiveLine
    rw [htrim, if_neg (by decide), if_neg (by decide)]
    dsimp only
    rw [hstrip, if_neg (by decide)]
    rfl
  · unfold enablesUsePty
    dsimp only
    rw [hstate, hscope]
    rfl

/-- **What `set_use_pty` leaves.** Only files of the include tree changed; in them every line that did not disable
`use_pty` is there, in order, and no line disables it. The probe finds `use_pty` and no conflict, and a second call
writes nothing. -/
theorem set_use_pty_converges {env : Env} (henv : env.Reliable) {dirs : Dirs} {hostname : Option Str} {params : Value}
    {s s' : Sys} (hfresh : env.Fresh s) (h : setUsePty env dirs hostname params s = (.ok (.ok ()), s')) :
    ∃ st report, load (s.view dirs) hostname none defaultMaxDepth [rootOf params] = .ok st ∧
      (∀ p, p ∉ st.files → s'.disk p = s.disk p) ∧
      (∀ p ∈ st.files, ((s.linesAt p).filter fun line => !disablesUsePty line).Sublist (s'.linesAt p) ∧
        ∀ line ∈ s'.linesAt p, disablesUsePty line = false) ∧
      findUsePty (s'.view dirs) hostname (some [rootOf params]) = .ok report ∧
      report.found = true ∧ report.conflictingCount = 0 ∧
      (setUsePty env dirs hostname params s').2.disk = s'.disk ∧
      (setUsePty env dirs hostname params s').2.effects = s'.effects := by
  obtain ⟨st, hload, hafter⟩ := setUsePty_files henv hfresh h
  have hcovers := ((load_covers_tree (s.view dirs) hostname (some "sudo.set_use_pty".toList) defaultMaxDepth
    [rootOf params]).2 st hload).2.1
  have hroot : rootOf params ∈ st.files := (hcovers _).mpr ⟨_, List.mem_singleton_self _, 0, .refl _⟩
  have hlines : ∀ p ∈ st.files, s'.linesAt p = usePtyLines (p = rootOf params) (s.linesAt p) :=
    fun p hp => ((hafter p).2 hp).2.2
  have htree : SameTree (s.view dirs) (s'.view dirs) hostname := by
    refine sameTree_of_states (fun p => ?_) fun p => ?_
    · by_cases hp : p ∈ st.files
      · obtain ⟨hb, ha, -⟩ := (hafter p).2 hp
        exact ha.trans hb.symm
      · rw [(hafter p).1 hp]
    · by_cases hp : p ∈ st.files
      · rw [hlines p hp, directives_usePtyLines]
      · unfold Sys.linesAt
        rw [(hafter p).1 hp]
  obtain ⟨st₀, hload₀, hfiles₀⟩ : ∃ st₀, load (s.view dirs) hostname none defaultMaxDepth [rootOf params] = .ok st₀ ∧
    ∀ p, p ∈ st₀.files ↔ p ∈ st.files := (SameTree.refl (s.view dirs) hostname).files hload
  obtain ⟨st', hload', hfiles'⟩ : ∃ st', load (s'.view dirs) hostname none defaultMaxDepth [rootOf params] = .ok st' ∧
    ∀ p, p ∈ st'.files ↔ p ∈ st.files := htree.files hload
  have hnone : ∀ p ∈ st.files, ∀ line ∈ s'.linesAt p, disablesUsePty line = false := by
    intro p hp line hline
    rw [hlines p hp] at hline
    exact mem_usePtyLines hline
  refine ⟨st₀, _, hload₀, fun p hp => (hafter p).1 fun hmem => hp ((hfiles₀ p).mpr hmem),
    fun p hp => ⟨?_, hnone p ((hfiles₀ p).mp hp)⟩,
    findUsePty_eq hload', ?_, ?_, ?_⟩
  · rw [hlines p ((hfiles₀ p).mp hp)]
    exact filter_sublist_usePtyLines _ _
  · -- the root has the line
    have hview : (s'.view dirs).lines (rootOf params) = .ok (s'.linesAt (rootOf params)) :=
      (view_lines s' _ _).mpr ⟨((hafter _).2 hroot).2.1, rfl⟩
    have hmem : desiredLine ∈ s'.linesAt (rootOf params) := by
      rw [hlines _ hroot]
      exact desiredLine_mem (decide_eq_true rfl)
    have hsub := activeLine_subset hload' ((hfiles' _).mpr hroot) hview hmem (directive_desiredLine hostname _)
    obtain ⟨hact, henables⟩ := enablesUsePty_desiredLine (rootOf params)
    rw [hact] at hsub
    exact decide_eq_true (List.length_pos_of_mem (List.mem_filter.mpr ⟨hsub (List.mem_singleton_self _), henables⟩))
  · refine List.length_eq_zero_iff.mpr (List.filter_eq_nil_iff.mpr fun e he => ?_)
    obtain ⟨p, hp, lines, hl, line, hline, -, hact⟩ := mem_load_lines hload' he
    rw [((view_lines s' p lines).mp hl).2] at hline
    rw [(mem_activeLine hact).1, isConflict_false (hnone p ((hfiles' p).mp hp) line hline)]
    exact Bool.false_ne_true
  · refine setUsePty_nothing henv fun st₂ hload₂ p hp => ?_
    obtain ⟨st₃, hload₃, hfiles₃⟩ := htree.files hload
    rw [hload₃] at hload₂
    have hmem : p ∈ st.files := (hfiles₃ p).mp (by rw [Except.ok.inj hload₂]; exact hp)
    rw [hlines p hmem]
    exact usePtyLines_again _ _

/-- A configuration with an include directory, whose one file disables `use_pty`. -/
def sudoersSys : Sys where
  disk p :=
    if p = "/etc/sudoers".toList then
      some ⟨"Defaults env_reset\nroot ALL=(ALL) ALL\n@includedir /etc/sudoers.d\n", 0, 0, 0o440⟩
    else if p = "/etc/sudoers.d/ops".toList then some ⟨"Defaults:ops !use_pty, insults # legacy\n", 0, 0, 0o440⟩
    else none
  clock := 0
  effects := []

/-- Its directories. -/
def sudoersDirs : Dirs := fun p => if p = "/etc/sudoers.d".toList then some ["ops".toList] else none

theorem sudoersSys_fresh : calmEnv.Fresh sudoersSys := by
  rintro p ⟨target, k, rfl⟩
  have hlast : (tmpPath target (calmEnv.nonce k)).getLast? = some '1' := by
    rw [tmpPath, show calmEnv.nonce k = ['0', 'x'] ++ ['1'] from rfl, ← List.append_assoc,
      List.getLast?_append_of_ne_nil _ (by simp)]
    rfl
  have hne : ∀ name : Str, name.getLast? ≠ some '1' → tmpPath target (calmEnv.nonce k) ≠ name := by
    intro name hname heq
    rw [heq] at hlast
    exact hname hlast
  exact (if_neg (hne _ (by decide))).trans (if_neg (hne _ (by decide)))

theorem sudoers_converges : ∃ report, findUsePty ((setUsePty calmEnv sudoersDirs none (.record 1 []) sudoersSys).2.view
    sudoersDirs) none (some ["/etc/sudoers".toList]) = .ok report ∧ report.found = true ∧
      report.conflictingCount = 0 := by
  have hrun : (setUsePty calmEnv sudoersDirs none (.record 1 []) sudoersSys).1 = .ok (.ok ()) := by decide +kernel
  obtain ⟨st, report, -, -, -, hreport, hfound, hcount, -, -⟩ :=
    set_use_pty_converges calmEnv_reliable sudoersSys_fresh (run_of_fst hrun)
  exact ⟨report, hreport, hfound, hcount⟩

end Sudo
end Seharden
