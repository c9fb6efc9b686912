import Loongshield.Lua.Escape
import Loongshield.Seharden.AuditRoundTrip
import Loongshield.Seharden.Unreadable

/-!
# What the line editors leave

The editors of `enforcers/file.lua` that work on whole lines, where every call does what it should.

- `editFile_cases`: a run that succeeds has nothing to do, or leaves the edited lines;
- `editFile_nothing`: a run that has nothing to do writes nothing;
- `line_edits_sound`: removing, commenting and appending lines;
- `write_content_exact_iff`: when `write_content` writes the content.
-/

namespace Seharden

open Lua Pattern

/-! ## Editing a file -/

/-- Nothing is written from one state to the next. -/
def WritesNothing (s s' : Sys) : Prop := s'.disk = s.disk ∧ s'.effects = s.effects

theorem WritesNothing.linesAt {s s' : Sys} (h : WritesNothing s s') (path : Str) :
    s'.linesAt path = s.linesAt path := by
  rw [Sys.linesAt, h.1]
  rfl

theorem linesAt_of_content {s : Sys} {path : Str} {new : List Str} (hnew : Lines new)
    (h : (s.disk path).map File.content = some (unlines new)) : s.linesAt path = new := by
  rw [Sys.linesAt, h, Option.getD_some, splitLines_unlines hnew]

section Edit

variable {env : Env} (henv : env.Reliable) {path context : Str} {edit : List Str → Except Err (Option (List Str))}
  {s s' : Sys}

include henv

/-- Without `lfs_attributes`, the lines that are there are read. -/
theorem readLines_existing {deps : Deps} (hdeps : deps.lfsAttributes = false) (context path : Str) (s : Sys) :
    ∃ k, readLines env path context deps true s =
      (.ok (.ok (s.linesAt path, (s.disk path).isSome)), { s with clock := k }) := by
  unfold readLines
  rw [hdeps, Act.bind_of_ok (show optionalCall false (lfsAttributes env path) none s = (.ok none, s) from rfl),
    if_neg (by simp), Act.bind_of_ok (ioOpenRead_reliable henv path s)]
  cases hdisk : s.disk path with
  | none =>
    have hnone : s.linesAt path = [] := by simp [Sys.linesAt, hdisk, splitLines]
    rw [hnone]
    exact ⟨_, rfl⟩
  | some file =>
    rw [Option.isSome_some, if_pos rfl]
    dsimp only
    rw [Act.bind_of_ok (fileLines_reliable henv path s.tick)]
    exact ⟨_, rfl⟩

theorem readExistingLines_reliable (path : Str) (s : Sys) : ∃ k, readExistingLines env path s =
    (.ok (s.linesAt path, (s.disk path).isSome, none), { s with clock := k }) := by
  obtain ⟨k, hread⟩ := @readLines_existing _ henv fileDeps rfl "file" path s
  unfold readExistingLines
  rw [Act.bind_of_ok hread]
  exact ⟨k, rfl⟩

/-- The course of an editor: a link is refused, or the lines are edited. -/
theorem editFile_apply (edit : List Str → Except Err (Option (List Str))) (s : Sys) :
    (∃ msg, editFile env path context edit s = (.ok (.error msg), s.tick)) ∨
    ∃ k, (∀ e, edit (s.linesAt path) = .error e → editFile env path context edit s =
    (.error e, { s with clock := k })) ∧
      (edit (s.linesAt path) = .ok none → editFile env path context edit s = (.ok (.ok ()), { s with clock := k })) ∧
      ∀ new, edit (s.linesAt path) = .ok (some new) →
        editFile env path context edit s = writeLinesAtomically env path new context { s with clock := k } := by
  obtain ⟨k, hread⟩ := readExistingLines_reliable henv path s.tick
  have hlines : (do return (← readExistingLines env path).1 : FsM (List Str)) s.tick =
      (.ok (s.linesAt path), { s with clock := k }) := Act.bind_of_ok hread
  unfold editFile rewriteFile
  rw [Act.bind_of_ok (isSymlink_apply env path s)]
  cases env.seesLink s.clock (s.disk path) with
  | true => exact .inl ⟨_, rfl⟩
  | false =>
    refine .inr ⟨k, fun e he => ?_, fun hnone => ?_, fun new hnew => ?_⟩
    · rw [if_neg Bool.false_ne_true, Act.bind_of_ok hlines, he]
      rfl
    · rw [if_neg Bool.false_ne_true, Act.bind_of_ok hlines, hnone]
      rfl
    · rw [if_neg Bool.false_ne_true, Act.bind_of_ok hlines, hnew]
      rfl

/-- **A run that succeeds** has nothing to do, or leaves the edited lines. -/
theorem editFile_cases (h : editFile env path context edit s = (.ok (.ok ()), s')) :
    (edit (s.linesAt path) = .ok none ∧ WritesNothing s s') ∨
    ∃ new, edit (s.linesAt path) = .ok (some new) ∧ (s'.disk path).map File.content = some (unlines new) := by
  rcases @editFile_apply _ henv path context edit s with ⟨msg, hmsg⟩ | ⟨k, herror, hnone, hsome⟩
  · rw [hmsg] at h
    cases h
  · cases hedit : edit (s.linesAt path) with
    | error e =>
      rw [herror e hedit] at h
      cases h
    | ok r =>
      cases r with
      | none =>
        rw [hnone hedit] at h
        cases h
        exact .inl ⟨rfl, rfl, rfl⟩
      | some new =>
        rw [hsome new hedit] at h
        have hspec := writeLinesAtomically_spec env path new context { s with clock := k }
        rw [h] at hspec
        cases hspec with
        | replaced href hdisk hcontent heffects hmem =>
          rw [written_reliable henv] at hcontent
          exact .inr ⟨new, rfl, by rw [hdisk, Option.map_some, hcontent]⟩

/-- **A run that has nothing to do writes nothing.** -/
theorem editFile_nothing (h : edit (s.linesAt path) = .ok none) :
    WritesNothing s (editFile env path context edit s).2 := by
  rcases @editFile_apply _ henv path context edit s with ⟨msg, hmsg⟩ | ⟨k, -, hnone, -⟩
  · rw [hmsg]
    exact ⟨rfl, rfl⟩
  · rw [hnone h]
    exact ⟨rfl, rfl⟩

end Edit

/-! ## The content of a file -/

/-- The content as it should be in the file: with a newline at its end. -/
def terminated (content : Str) : Str := if content.getLast? = some '\n' then content else content ++ "\n"

theorem unlines_splitOn (content : Str) : unlines (content.splitOn '\n') = content ++ "\n" := by
  have hjoin : ∀ parts : List Str, parts ≠ [] → unlines parts = ['\n'].intercalate parts ++ ['\n'] := by
    intro parts
    induction parts with
    | nil => exact fun h => absurd rfl h
    | cons part parts ih =>
      intro _
      cases parts with
      | nil => simp [unlines, List.intercalate]
      | cons next parts =>
        have htail := ih (List.cons_ne_nil next parts)
        simp only [unlines, List.flatMap_cons] at htail ⊢
        rw [htail]
        simp [List.intercalate, List.intersperse]
  rw [hjoin _ (List.splitOn_ne_nil '\n' content), List.intercalate_splitOn]
  rfl

theorem splitLines_terminated (content : Str) : splitLines (content ++ "\n") = content.splitOn '\n' := by
  rw [← unlines_splitOn, splitLines_unlines (lines_splitOn content)]

/-- A content with a newline at its end has one line less than pieces. -/
theorem splitLines_ne_splitOn {content : Str} (h : content.getLast? = some '\n') :
    splitLines content ≠ content.splitOn '\n' := by
  obtain ⟨text, rfl⟩ : ∃ text, content = text ++ "\n" := by
    obtain ⟨text, htext⟩ := List.getLast?_eq_some_iff.mp h
    exact ⟨text, htext⟩
  rw [splitLines_terminated]
  intro heq
  have hlen := congrArg List.length (congrArg unlines heq)
  rw [unlines_splitOn, unlines_splitOn] at hlen
  simp at hlen

/-- The file has the content, or had its lines before and was left alone. -/
def HasContent (path content : Str) (s s' : Sys) : Prop :=
  (s'.disk path).map File.content = some (terminated content) ∨
    (WritesNothing s s' ∧ s.linesAt path = splitLines (terminated content))

theorem editContent_eq (content : Str) (current : List Str) :
    editContent content current = .ok (if current = content.splitOn '\n' then none
      else some (content.splitOn '\n')) := by
  unfold editContent
  rw [contentLines_eq]
  rfl

/-- **When `write_content` writes exactly the content**: the content does not end in a newline. A second call never
writes. -/
theorem write_content_exact_iff {env : Env} (henv : env.Reliable) {params : Value} {path content : Str} {s s' : Sys}
    (hpath : params.field "path" = .str path) (hcontent : concatText (params.field "content") = some content)
    (h : writeContent env params s = (.ok (.ok ()), s')) :
    (HasContent path content s s' ∧ WritesNothing s' (writeContent env params s').2) ↔
      content.getLast? ≠ some '\n' := by
  have hrun := h
  rw [writeContent_eq env hpath hcontent] at hrun
  have hcases := editFile_cases henv hrun
  rw [editContent_eq] at hcases
  -- in both cases the lines of the file are the pieces of the content
  have hlines : s'.linesAt path = content.splitOn '\n' := by
    rcases hcases with ⟨hedit, hnothing⟩ | ⟨new, hedit, hdisk⟩
    · rw [hnothing.linesAt]
      by_contra hne
      rw [if_neg hne] at hedit
      cases hedit
    · split at hedit
      · cases hedit
      · cases hedit
        exact linesAt_of_content (lines_splitOn content) hdisk
  have hsecond : WritesNothing s' (writeContent env params s').2 := by
    rw [writeContent_eq env hpath hcontent]
    exact editFile_nothing henv (by rw [editContent_eq, if_pos hlines])
  rw [and_iff_left hsecond]
  constructor
  · intro hhas hlast
    have hterm : terminated content = content := if_pos hlast
    refine splitLines_ne_splitOn hlast ?_
    rcases hhas with hdisk | ⟨hnothing, hold⟩
    · rw [← hlines, Sys.linesAt, hdisk, hterm]
      rfl
    · rw [← hlines, hnothing.linesAt, hold, hterm]
  · intro hlast
    have hterm : terminated content = content ++ "\n" := if_neg hlast
    unfold HasContent
    rw [hterm, splitLines_terminated]
    rcases hcases with ⟨hedit, hnothing⟩ | ⟨new, hedit, hdisk⟩
    · exact .inr ⟨hnothing, (hnothing.linesAt path).symm.trans hlines⟩
    · split at hedit
      · cases hedit
      · cases hedit
        rw [unlines_splitOn] at hdisk
        exact .inl hdisk

/-- The parameters for a content of `/etc/motd`. -/
def motdParams (content : Str) : Value := .record 1 [("path", .str "/etc/motd"), ("content", .str content)]

theorem motd_written :
    HasContent "/etc/motd" "Authorized" (.oneFile "/etc/motd" "Hi\n")
      (writeContent calmEnv (motdParams "Authorized") (.oneFile "/etc/motd" "Hi\n")).2 := by
  have hrun : (writeContent calmEnv (motdParams "Authorized") (.oneFile "/etc/motd" "Hi\n")).1 = .ok (.ok ()) := by
    decide +kernel
  exact ((write_content_exact_iff calmEnv_reliable rfl rfl (run_of_fst hrun)).mpr (by decide)).1

/-- A content that ends in a newline gets another one. -/
theorem motd_extra_newline :
    (writeContent calmEnv (motdParams "Authorized\n") (.oneFile "/etc/motd" "Hi\n")).1 = .ok (.ok ()) ∧
    ((writeContent calmEnv (motdParams "Authorized\n") (.oneFile "/etc/motd" "Hi\n")).2.disk "/etc/motd").map
    File.content =
      some "Authorized\n\n".toList ∧
    ¬HasContent "/etc/motd" "Authorized\n" (.oneFile "/etc/motd" "Hi\n")
      (writeContent calmEnv (motdParams "Authorized\n") (.oneFile "/etc/motd" "Hi\n")).2 := by
  have hdisk : ((writeContent calmEnv (motdParams "Authorized\n") (.oneFile "/etc/motd" "Hi\n")).2.disk "/etc/motd").map
      File.content = some "Authorized\n\n".toList := by decide +kernel
  refine ⟨by decide +kernel, hdisk, ?_⟩
  rintro (h | ⟨-, h⟩)
  · rw [hdisk] at h
    revert h
    decide
  · revert h
    decide

/-! ## Lines that match -/

/-- A pattern on which matching does not raise. -/
def Matchable (pattern : Str) : Prop := ∀ text, ∃ m, strMatch text pattern = .ok m

theorem Matchable.strMatch {pattern : Str} (h : Matchable pattern) (text : Str) :
    ∃ m, strMatch text pattern = .ok m ∧ m.isSome = isMatch text pattern := by
  obtain ⟨m, hm⟩ := h text
  refine ⟨m, hm, ?_⟩
  unfold isMatch
  rw [hm]
  cases m <;> rfl

theorem patternArg_eq {v : Value} {pattern : Str} (h : concatText v = some pattern) : patternArg v = .ok pattern := by
  unfold patternArg
  rw [h]

theorem removeMatching_eq {v : Value} {pattern : Str} (hv : concatText v = some pattern) (h : Matchable pattern)
    (lines : List Str) : removeMatching v lines = .ok (lines.filter fun line => !isMatch line pattern) := by
  induction lines with
  | nil => rfl
  | cons line lines ih =>
    obtain ⟨m, hm, hsome⟩ := h.strMatch line
    simp only [removeMatching, patternArg_eq hv, hm, ih, bind, Except.bind, hsome, List.filter_cons]
    cases isMatch line pattern <;> rfl

/-- The line has the comment already. -/
def hasComment (pre line : Str) : Bool := standsBehind blank pre line

theorem strMatch_comment (pre line : Str) : ∃ m, strMatch line ("^%s*" ++ escaped pre) = .ok m ∧
    m.isSome = hasComment pre line := by
  have hunq : Unquantified [] := nofun
  have hrest : compile (escaped pre) = (spelling pre).map (.single · .one) := by
    have h := compile_escaped pre hunq
    rwa [List.append_nil, show compile [] = [] from rfl, List.append_nil] at h
  have hitems : compile ("%s*" ++ escaped pre) = .single blank .star :: (spelling pre).map (.single · .one) := by
    rw [← hrest]
    exact compile_cons rfl (List.cons_ne_nil _ _)
  have hsimple : Simple 0 0 (.single blank .star :: (spelling pre).map (.single · .one)) = true := by
    have h := @simple_spelling pre 0 0 [] rfl
    rwa [List.append_nil] at h
  refine ⟨_, strMatch_anchored rfl hitems hsimple line, ?_⟩
  rw [Option.isSome_map]
  exact matchRest_star_spells (spells_spelling pre) line

theorem escapeKey_eq (key : Str) : escapeKey key = .ok (escaped key) := gsub_escape key

/-- What becomes of a line. -/
def commented (pattern pre line : Str) : Str := if isMatch line pattern && !hasComment pre line then pre ++ line
    else line

theorem commentsLine_eq {v : Value} {pattern : Str} (hv : concatText v = some pattern) (h : Matchable pattern)
    (pre line : Str) : commentsLine v (.str pre) line =
      .ok (if isMatch line pattern && !hasComment pre line then some (pre ++ line) else none) := by
  obtain ⟨m, hm, hsome⟩ := h.strMatch line
  obtain ⟨m', hm', hsome'⟩ := strMatch_comment pre line
  unfold commentsLine
  simp only [patternArg_eq hv, hm, bind, Except.bind]
  cases m with
  | none =>
    rw [← hsome]
    rfl
  | some caps =>
    rw [← hsome]
    simp only [escapeKey_eq, hm', hsome', Option.isSome_some, Bool.true_and]
    cases hasComment pre line <;> rfl

theorem commentLoop_eq {v : Value} {pattern : Str} (hv : concatText v = some pattern) (h : Matchable pattern)
    (pre : Str) :
    ∀ (lines new : List Str) (n : Nat), commentLoop v (.str pre) lines new n =
      .ok (new ++ lines.map (commented pattern pre),
        n + lines.countP fun line => isMatch line pattern && !hasComment pre line)
  | [], new, n => by simp [commentLoop]
  | line :: lines, new, n => by
    simp only [commentLoop, commentsLine_eq hv h, bind, Except.bind]
    cases hline : isMatch line pattern && !hasComment pre line with
    | true =>
      have hnew : commented pattern pre line = pre ++ line := if_pos hline
      simp only [if_true]
      rw [commentLoop_eq hv h pre lines, List.map_cons, List.append_assoc, hnew, List.countP_cons, if_pos hline]
      simp only [List.singleton_append, Nat.add_assoc, Nat.add_comm 1]
    | false =>
      have hnew : commented pattern pre line = line := if_neg (by rw [hline]; exact Bool.false_ne_true)
      simp only [Bool.false_eq_true, if_false]
      rw [commentLoop_eq hv h pre lines, List.map_cons, List.append_assoc, hnew, List.countP_cons, hline]
      rfl

/-- A line that was commented needs no comment. -/
theorem commented_again (pattern pre line : Str) :
    (isMatch (commented pattern pre line) pattern && !hasComment pre (commented pattern pre line)) = false := by
  unfold commented
  split
  · rw [hasComment, standsBehind_append, Bool.not_true, Bool.and_false]
  · next h => exact Bool.eq_false_iff.mpr h

/-! ## The three editors -/

section Editors

variable {env : Env} (henv : env.Reliable) {path pattern : Str} {v : Value} {s s' : Sys}

include henv

/-- Where a file is no link and its lines are known, the rest of `remove_line_matching` is to keep some of them. -/
theorem removeFrom_apply (hv : concatText v = some pattern) (hmatch : Matchable pattern)
    (hlink : env.seesLink s.clock (s.disk path) = false) (hfile : (s.disk path).isSome = true) :
    ∃ k, removeFrom env v path s =
      (if ((s.linesAt path).filter fun line => !isMatch line pattern).length = (s.linesAt path).length then
        (pure (.ok ()) : FsM Ret)
      else do
        match ← writeLinesAtomically env path ((s.linesAt path).filter fun line => !isMatch line pattern)
            "file.remove_line_matching" with
        | .error err => return .error ("file.remove_line_matching: failed to write '" ++ path ++ "': " ++ err)
        | .ok () => return .ok ()) { s with clock := k } := by
  obtain ⟨k, hread⟩ := readExistingLines_reliable henv path s.tick
  refine ⟨k, ?_⟩
  unfold removeFrom
  rw [Act.bind_of_ok (isSymlink_apply env path s), hlink, if_neg Bool.false_ne_true, Act.bind_of_ok hread]
  dsimp only
  rw [Sys.tick_disk, hfile, if_neg (by simp), removeMatching_eq hv hmatch, Act.lift_ok_bind_apply]
  rfl

theorem removeFrom_ok (hv : concatText v = some pattern) (hmatch : Matchable pattern)
    (hlink : env.seesLink s.clock (s.disk path) = false) (hfile : (s.disk path).isSome = true)
    (h : removeFrom env v path s = (.ok (.ok ()), s')) :
    s'.linesAt path = (s.linesAt path).filter fun line => !isMatch line pattern := by
  obtain ⟨k, hrun⟩ := removeFrom_apply henv hv hmatch hlink hfile
  rw [hrun] at h
  by_cases hlen : ((s.linesAt path).filter fun line => !isMatch line pattern).length = (s.linesAt path).length
  · rw [if_pos hlen] at h
    cases h
    exact (List.filter_eq_self.mpr (List.length_filter_eq_length_iff.mp hlen)).symm
  · rw [if_neg hlen] at h
    obtain ⟨r, s₁, hwrite, h⟩ := Act.of_bind_ok h
    cases r with
    | error err => cases h
    | ok u =>
      cases h
      refine (writeLinesAtomically_reliable henv (fun line hline => ?_) hwrite).2
      exact lines_linesAt s path line (List.mem_of_mem_filter hline)

/-- With no line to remove, nothing is written. -/
theorem removeFrom_nothing (hv : concatText v = some pattern) (hmatch : Matchable pattern)
    (hnone : ∀ line ∈ s.linesAt path, isMatch line pattern = false) :
    WritesNothing s (removeFrom env v path s).2 := by
  have hfilter : ((s.linesAt path).filter fun line => !isMatch line pattern) = s.linesAt path :=
    List.filter_eq_self.mpr fun line hline => by rw [hnone line hline]; rfl
  cases hlink : env.seesLink s.clock (s.disk path) with
  | true =>
    unfold removeFrom
    rw [Act.bind_of_ok (isSymlink_apply env path s), hlink]
    exact ⟨rfl, rfl⟩
  | false =>
    cases hfile : (s.disk path).isSome with
    | true =>
      obtain ⟨k, hrun⟩ := removeFrom_apply henv hv hmatch hlink hfile
      rw [hrun, if_pos (by rw [hfilter])]
      exact ⟨rfl, rfl⟩
    | false =>
      obtain ⟨k, hread⟩ := readExistingLines_reliable henv path s.tick
      unfold removeFrom
      rw [Act.bind_of_ok (isSymlink_apply env path s), hlink, if_neg Bool.false_ne_true, Act.bind_of_ok hread]
      dsimp only
      rw [Sys.tick_disk, hfile]
      exact ⟨rfl, rfl⟩

end Editors

theorem removeLineMatching_eq (env : Env) (ls : Listing) {params : Value} {path pattern : Str} {s : Sys}
    (hpath : params.field "path" = .str path) (hpaths : (params.field "paths").truthy = false)
    (hpattern : concatText (params.field "pattern") = some pattern) :
    removeLineMatching env ls params s = removeFromAll env (params.field "pattern") [path] s := by
  unfold removeLineMatching
  rw [truthy_of_concatText hpattern, hpaths, hpath]
  rfl

theorem removeFromAll_ok {env : Env} {v : Value} {path : Str} {s s' : Sys}
    (h : removeFromAll env v [path] s = (.ok (.ok ()), s')) : removeFrom env v path s = (.ok (.ok ()), s') := by
  obtain ⟨r, s₁, hrun, h⟩ := Act.of_bind_ok h
  cases r with
  | error err => cases h
  | ok u =>
    cases h
    exact hrun

theorem removeFromAll_state (env : Env) (v : Value) (path : Str) (s : Sys) :
    (removeFromAll env v [path] s).2 = (removeFrom env v path s).2 := by
  unfold removeFromAll
  cases hrun : removeFrom env v path s with
  | mk r s₁ =>
    cases r with
    | error e => rw [Act.bind_of_error hrun]
    | ok r =>
      rw [Act.bind_of_ok hrun]
      cases r <;> rfl

/-- The comment prefix of the parameters. -/
def commentPrefixOf (params : Value) : Value :=
  if (params.field "comment_prefix").truthy then params.field "comment_prefix" else .str "# "

theorem commentLineMatching_eq (env : Env) {params : Value} {path pattern : Str} {s : Sys}
    (hpath : params.field "path" = .str path) (hpattern : concatText (params.field "pattern") = some pattern) :
    commentLineMatching env params s = editFile env path "file.comment_line_matching"
      (editComments (params.field "pattern") (commentPrefixOf params)) s := by
  unfold commentLineMatching
  rw [truthy_of_concatText hpattern, hpath]
  rfl

theorem editComments_eq {v : Value} {pattern : Str} (hv : concatText v = some pattern) (h : Matchable pattern)
    (pre : Str)
    (lines : List Str) : editComments v (.str pre) lines =
      .ok (if lines.countP (fun line => isMatch line pattern && !hasComment pre line) = 0 then none
        else some (lines.map (commented pattern pre))) := by
  unfold editComments
  simp only [commentLoop_eq hv h, List.nil_append, Nat.zero_add, bind, Except.bind]
  rfl

theorem settled_of_editComments {v : Value} {pattern pre : Str} {lines : List Str} (hv : concatText v = some pattern)
    (h : Matchable pattern) (hedit : editComments v (.str pre) lines = .ok none) :
    ∀ line ∈ lines, (isMatch line pattern && !hasComment pre line) = false := by
  rw [editComments_eq hv h] at hedit
  split at hedit
  · next hzero => exact fun line hline => Bool.eq_false_iff.mpr (List.countP_eq_zero.mp hzero line hline)
  · cases hedit

theorem map_commented_of_settled {pattern pre : Str} {lines : List Str}
    (h : ∀ line ∈ lines, (isMatch line pattern && !hasComment pre line) = false) :
    lines.map (commented pattern pre) = lines := by
  induction lines with
  | nil => rfl
  | cons line lines ih =>
    have hline : commented pattern pre line = line :=
      if_neg (by rw [h line List.mem_cons_self]; exact Bool.false_ne_true)
    rw [List.map_cons, hline, ih fun l hl => h l (List.mem_cons_of_mem line hl)]

theorem newline_commented {pattern pre line : Str} (hpre : '\n' ∉ pre) (hline : '\n' ∉ line) :
    '\n' ∉ commented pattern pre line := by
  unfold commented
  split
  · exact fun h => (List.mem_append.mp h).elim hpre hline
  · exact hline

theorem appendMissing_str (text : Str) (lines : List Str) :
    appendMissing (.str text) text lines = if text ∈ lines then none else some (lines ++ [text]) := by
  have hany : (lines.any fun line => Value.rawEq (.str line) (.str text)) = decide (text ∈ lines) := by
    rw [Bool.eq_iff_iff, List.any_eq_true, decide_eq_true_eq]
    simp only [Value.rawEq_str, Value.str.injEq, exists_eq_right]
  unfold appendMissing
  rw [hany]
  simp only [decide_eq_true_eq]

/-- **The line editors**: what is removed, commented or appended, and that a second run writes nothing. -/
theorem line_edits_sound {env : Env} (henv : env.Reliable) (ls : Listing) {path : Str} {s s' : Sys}
    (hfile : (s.disk path).isSome = true) (hlink : env.seesLink s.clock (s.disk path) = false) :
    (∀ params pattern, params.field "path" = .str path → (params.field "paths").truthy = false →
      concatText (params.field "pattern") = some pattern → Matchable pattern →
      removeLineMatching env ls params s = (.ok (.ok ()), s') →
        s'.linesAt path = (s.linesAt path).filter (fun line => !isMatch line pattern) ∧
        (∀ line ∈ s'.linesAt path, isMatch line pattern = false) ∧
        WritesNothing s' (removeLineMatching env ls params s').2) ∧
    (∀ params pattern pre, params.field "path" = .str path → concatText (params.field "pattern") = some pattern →
      Matchable pattern → commentPrefixOf params = .str pre → '\n' ∉ pre →
      commentLineMatching env params s = (.ok (.ok ()), s') →
        s'.linesAt path = (s.linesAt path).map
          (fun line => if isMatch line pattern && !hasComment pre line then pre ++ line else line) ∧
        WritesNothing s' (commentLineMatching env params s').2) ∧
    ∀ params text, params.field "path" = .str path → params.field "line" = .str text → '\n' ∉ text →
      appendLine env params s = (.ok (.ok ()), s') →
        s.linesAt path <+: s'.linesAt path ∧ text ∈ s'.linesAt path ∧
        WritesNothing s' (appendLine env params s').2 := by
  refine ⟨fun params pattern hpath hpaths hpattern hmatch h => ?_,
    fun params pattern pre hpath hpattern hmatch hpre hline h => ?_, fun params text hpath htext hline h => ?_⟩
  · rw [removeLineMatching_eq env ls hpath hpaths hpattern] at h
    have hlines := removeFrom_ok henv hpattern hmatch hlink hfile (removeFromAll_ok h)
    have hnone : ∀ line ∈ s'.linesAt path, isMatch line pattern = false := by
      intro line hmem
      rw [hlines] at hmem
      simpa using List.of_mem_filter hmem
    refine ⟨hlines, hnone, ?_⟩
    rw [removeLineMatching_eq env ls hpath hpaths hpattern, removeFromAll_state]
    exact removeFrom_nothing henv hpattern hmatch hnone
  · rw [commentLineMatching_eq env hpath hpattern, hpre] at h
    have hlines : s'.linesAt path = (s.linesAt path).map (commented pattern pre) := by
      rcases editFile_cases henv h with ⟨hedit, hnothing⟩ | ⟨new, hedit, hdisk⟩
      · rw [hnothing.linesAt]
        exact (map_commented_of_settled (settled_of_editComments hpattern hmatch hedit)).symm
      · rw [editComments_eq hpattern hmatch] at hedit
        split at hedit
        · cases hedit
        · cases hedit
          refine linesAt_of_content (fun line hmem => ?_) hdisk
          obtain ⟨old, hold, rfl⟩ := List.mem_map.mp hmem
          exact newline_commented hline (lines_linesAt s path old hold)
    refine ⟨hlines, ?_⟩
    rw [commentLineMatching_eq env hpath hpattern, hpre]
    refine editFile_nothing henv ?_
    rw [editComments_eq hpattern hmatch, if_pos]
    rw [List.countP_eq_zero, hlines]
    intro line hmem
    obtain ⟨old, -, rfl⟩ := List.mem_map.mp hmem
    rw [commented_again]
    exact Bool.false_ne_true
  · have hconcat : concatText (params.field "line") = some text := by rw [htext]; rfl
    rw [appendLine_eq env hpath hconcat, htext] at h
    have hlines : s'.linesAt path = if text ∈ s.linesAt path then s.linesAt path else s.linesAt path ++ [text] := by
      rcases editFile_cases henv h with ⟨hedit, hnothing⟩ | ⟨new, hedit, hdisk⟩
      · rw [hnothing.linesAt]
        by_cases hmem : text ∈ s.linesAt path
        · rw [if_pos hmem]
        · rw [appendMissing_str, if_neg hmem] at hedit
          cases hedit
      · rw [appendMissing_str] at hedit
        split at hedit
        · cases hedit
        · next hmem =>
          cases hedit
          rw [if_neg hmem]
          refine linesAt_of_content (fun line hl => ?_) hdisk
          rcases List.mem_append.mp hl with hl | hl
          · exact lines_linesAt s path line hl
          · rw [List.mem_singleton.mp hl]
            exact hline
    have hmem : text ∈ s'.linesAt path := by
      rw [hlines]
      split
      · assumption
      · exact List.mem_append_right _ (List.mem_singleton_self text)
    refine ⟨?_, hmem, ?_⟩
    · rw [hlines]
      split
      · exact List.prefix_rfl
      · exact List.prefix_append _ _
    · rw [appendLine_eq env hpath hconcat, htext]
      exact editFile_nothing henv (by rw [appendMissing_str, if_pos hmem])

/-- A file with two lines. -/
def hostsSys : Sys := .oneFile "/etc/hosts" "a\nb\n"

/-- Parameters for lines of `/etc/hosts`. -/
def hostsParams (name value : Str) : Value := .record 1 [("path", .str "/etc/hosts"), (name, .str value)]

/-- A directory listing that is not asked for. -/
def noListing : Listing := fun _ _ => .ok []

theorem hosts_edited :
    (removeLineMatching calmEnv noListing (hostsParams "pattern" "^a") hostsSys).2.linesAt "/etc/hosts" = ["b".toList] ∧
    "c".toList ∈ (appendLine calmEnv (hostsParams "line" "c") hostsSys).2.linesAt "/etc/hosts" := by
  have hremove : (removeLineMatching calmEnv noListing (hostsParams "pattern" "^a") hostsSys).1 = .ok (.ok ()) := by
    decide +kernel
  have happend : (appendLine calmEnv (hostsParams "line" "c") hostsSys).1 = .ok (.ok ()) := by decide +kernel
  have hmatch : Matchable "^a" := fun text => ⟨_, strMatch_anchored rfl rfl rfl text⟩
  constructor
  · have h := ((line_edits_sound calmEnv_reliable noListing rfl rfl).1 _ "^a".toList rfl rfl rfl hmatch
      (run_of_fst hremove)).1
    rw [h]
    decide +kernel
  · exact ((line_edits_sound calmEnv_reliable noListing rfl rfl).2.2 _ _ rfl rfl (by decide) (run_of_fst happend)).2.1

end Seharden
