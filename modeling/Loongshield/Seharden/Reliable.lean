import Loongshield.Seharden.Attributes

/-!
# Calls that do not fail

In a reliable environment no call fails and every write delivers its data; a query of the type of a file may still
report anything, a link or a directory. There the functions of `fsutil.lua` do what they are for.

- `Sys.linesAt`: the lines of a file;
- `replacement_others`, `preservingAttrs_others`: a replacement that succeeds changes the target only;
- `writeLinesAtomically_reliable`: a replacement that succeeds leaves exactly the new lines;
- `appendUniqueLine_reliable`: an appended line is there, and the others still are.
-/

namespace Seharden

open Lua

/-- No call fails, and every write delivers its data. -/
def Env.Reliable (env : Env) : Prop := ∀ k, env.failure k = none ∧ ∀ data, env.delivered k data = data

/-- The calls that do what they should. -/
def calmEnv : Env := .oneOutcome 0 .done

theorem calmEnv_reliable : calmEnv.Reliable := by
  intro k
  have hdone : calmEnv.outcome k = .done := by
    unfold calmEnv Env.oneOutcome
    dsimp only
    split <;> rfl
  simp [Env.failure, Env.delivered, hdone]

/-- A run, by what it returned and the state it left. -/
theorem run_of_fst {α : Type} {m : FsM α} {s : Sys} {r : Except Err α} (h : (m s).1 = r) : m s = (r, (m s).2) := by
  rw [← h]

/-- The lines of the file at a path; none if there is no file. -/
def Sys.linesAt (s : Sys) (path : Str) : List Str := splitLines (((s.disk path).map File.content).getD [])

/-! ## Lines and their text -/

/-- Lines without newlines. -/
def Lines (lines : List Str) : Prop := ∀ line ∈ lines, '\n' ∉ line

theorem splitOn_unlines : ∀ {lines : List Str}, Lines lines → (unlines lines).splitOn '\n' = lines ++ [[]]
  | [], _ => rfl
  | line :: lines, h => by
    have ih := splitOn_unlines fun l hl => h l (List.mem_cons_of_mem line hl)
    have htext : unlines (line :: lines) = line ++ '\n' :: unlines lines := by simp [unlines]
    rw [htext, List.splitOn_append_cons_self_of_not_mem (h line List.mem_cons_self), ih]
    rfl

/-- **Lines that are written are read.** -/
theorem splitLines_unlines {lines : List Str} (h : Lines lines) : splitLines (unlines lines) = lines := by
  simp [splitLines, splitOn_unlines h]

theorem lines_splitOn (content : Str) : Lines (content.splitOn '\n') := by
  induction h : content.length using Nat.strong_induction_on generalizing content with
  | _ n ih =>
    by_cases hmem : '\n' ∈ content
    · obtain ⟨line, rest, rfl, hline⟩ := List.eq_append_cons_of_mem hmem
      rw [List.splitOn_append_cons_self_of_not_mem hline]
      have hrest := ih rest.length (by simp at h; omega) rest rfl
      exact List.forall_mem_cons.mpr ⟨hline, hrest⟩
    · rw [List.splitOn_eq_singleton hmem]
      exact List.forall_mem_singleton.mpr hmem

/-- The lines of a text have no newlines. -/
theorem lines_splitLines (content : Str) : Lines (splitLines content) := by
  intro line hline
  unfold splitLines at hline
  dsimp only at hline
  split at hline
  · exact lines_splitOn content line (List.mem_of_mem_dropLast hline)
  · exact lines_splitOn content line hline

theorem lines_linesAt (s : Sys) (path : Str) : Lines (s.linesAt path) := lines_splitLines _

/-! ## Files that stay as they are -/

section Frame

variable {env : Env} {q : Str} {file : Option File}

/-- The file at `q` is `file`. -/
abbrev HasFile (q : Str) (file : Option File) (s : Sys) : Prop := s.disk q = file

theorem frame_call {change : Sys → Sys} (h : ∀ s, (change s).disk q = s.disk q) :
    Act.Preserves (HasFile q file) (call env change) := by
  intro s hs
  cases hfail : env.failure s.clock with
  | some err =>
    rw [call_failed hfail]
    exact hs
  | none =>
    rw [call_done hfail]
    exact (h s.tick).trans hs

theorem frame_put (p : Str) (hq : q ≠ p) (new : Sys → Option File) (effect : Effect) :
    Act.Preserves (HasFile q file) (call env fun s => s.put p (new s) effect) :=
  frame_call fun s => Sys.put_disk_of_ne s (new s) effect hq

theorem frame_lfsAttributes (p : Str) : Act.Preserves (HasFile q file) (lfsAttributes env p) := fun _ hs => hs

theorem frame_isSymlink (p : Str) : Act.Preserves (HasFile q file) (isSymlink env p) :=
  Act.preserves_bind (frame_lfsAttributes p) fun _ => Act.preserves_pure _

theorem frame_fileWrite {p : Str} (hq : q ≠ p) (data : Str) :
    Act.Preserves (HasFile q file) (fileWrite env p data) := by
  intro s hs
  unfold fileWrite
  rw [Act.step_apply]
  dsimp only
  have hput := Sys.put_disk_of_ne s.tick ((s.tick.disk p).map fun f =>
    { f with content := f.content ++ env.delivered s.clock data }) (.write p (env.delivered s.clock data)) hq
  split <;> exact hput.trans hs

theorem frame_writeLines {tmp : Str} (hq : q ≠ tmp) : ∀ lines : List Str,
    Act.Preserves (HasFile q file) (writeLines env tmp lines)
  | [] => Act.preserves_pure _
  | _ :: lines => Act.preserves_bind (frame_fileWrite hq _) fun _ => frame_writeLines hq lines

theorem frame_replaceBy {tmp path : Str} (htmp : q ≠ tmp) (hpath : q ≠ path) (context : Str) :
    Act.Preserves (HasFile q file) (replaceBy env tmp path context) := by
  have hremove : Act.Preserves (HasFile q file) (osRemove env tmp) := frame_put tmp htmp _ _
  have hrename : Act.Preserves (HasFile q file) (osRename env tmp path) :=
    frame_call fun s => by simp only [Sys.rename, if_neg hpath, if_neg htmp]
  unfold replaceBy
  refine Act.preserves_bind (frame_call fun _ => rfl) fun closed => ?_
  cases closed with
  | error err => exact Act.preserves_bind hremove fun _ => Act.preserves_pure _
  | ok u =>
    refine Act.preserves_bind (frame_isSymlink path) fun link => ?_
    cases link with
    | true => exact Act.preserves_bind hremove fun _ => Act.preserves_pure _
    | false =>
      refine Act.preserves_bind hrename fun renamed => ?_
      cases renamed with
      | error err => exact Act.preserves_bind hremove fun _ => Act.preserves_pure _
      | ok u => exact Act.preserves_pure _

/-- A replacement changes the target and its temporary file only. -/
theorem frame_replacement {path : Str} {s : Sys} (hne : q ≠ tmpPath path (env.nonce s.clock)) (hpath : q ≠ path)
    (lines : List Str) (context : Str) (hs : HasFile q file s) :
    HasFile q file (writeLinesAtomically env path lines context s).2 := by
  unfold writeLinesAtomically
  rw [Act.step_bind_apply]
  dsimp only
  generalize tmpPath path (env.nonce s.clock) = tmp at hne ⊢
  refine Act.preserves_bind (frame_isSymlink path) (fun link => ?_) s hs
  cases link with
  | true => exact Act.preserves_pure _
  | false =>
    refine Act.preserves_bind (frame_put tmp hne _ _) fun opened => ?_
    cases opened with
    | error err => exact Act.preserves_pure _
    | ok u => exact Act.preserves_bind (frame_writeLines hne lines) fun _ => frame_replaceBy hne hpath context

/-- A replacement that succeeds leaves no temporary file. -/
theorem replacement_tmp {path : Str} {lines : List Str} {context : Str} {s s' : Sys}
    (h : writeLinesAtomically env path lines context s = (.ok (.ok ()), s')) :
    s'.disk (tmpPath path (env.nonce s.clock)) = none := by
  have hne := tmpPath_ne path (env.nonce s.clock)
  unfold writeLinesAtomically at h
  rw [Act.step_bind_apply] at h
  dsimp only at h
  generalize tmpPath path (env.nonce s.clock) = tmp at hne h ⊢
  obtain ⟨link, s₁, -, h⟩ := Act.of_bind_ok h
  cases link with
  | true => cases h
  | false =>
    obtain ⟨opened, s₂, -, h⟩ := Act.of_bind_ok h
    cases opened with
    | error err => cases h
    | ok u =>
      obtain ⟨-, s₃, -, h⟩ := Act.of_bind_ok h
      obtain ⟨closed, s₄, -, h⟩ := Act.of_bind_ok h
      cases closed with
      | error err =>
        obtain ⟨-, -, -, h⟩ := Act.of_bind_ok h
        cases h
      | ok u =>
        obtain ⟨link', s₅, -, h⟩ := Act.of_bind_ok h
        cases link' with
        | true =>
          obtain ⟨-, -, -, h⟩ := Act.of_bind_ok h
          cases h
        | false =>
          obtain ⟨renamed, s₆, hrename, h⟩ := Act.of_bind_ok h
          cases renamed with
          | error err =>
            obtain ⟨-, -, -, h⟩ := Act.of_bind_ok h
            cases h
          | ok u =>
            cases h
            unfold osRename at hrename
            cases hfail : env.failure s₅.clock with
            | some err =>
              rw [call_failed hfail] at hrename
              cases hrename
            | none =>
              rw [call_done hfail] at hrename
              cases hrename
              change (if tmp = path then _ else if tmp = tmp then none else _) = none
              rw [if_neg hne, if_pos rfl]

/-- **A replacement that succeeds changes the target only**, where no temporary file was there. -/
theorem replacement_others {path p : Str} {lines : List Str} {context : Str} {s s' : Sys} (hfresh : env.Fresh s)
    (hp : p ≠ path) (h : writeLinesAtomically env path lines context s = (.ok (.ok ()), s')) :
      s'.disk p = s.disk p := by
  by_cases htmp : p = tmpPath path (env.nonce s.clock)
  · rw [htmp, replacement_tmp h, hfresh _ ⟨path, s.clock, rfl⟩]
  · have hframe := frame_replacement htmp hp lines context (rfl : HasFile p (s.disk p) s)
    rw [h] at hframe
    exact hframe

theorem frame_optionalCall {α : Type} {m : FsM α} (hm : Act.Preserves (HasFile q file) m) (present : Bool) (r : α) :
    Act.Preserves (HasFile q file) (optionalCall present m r) := by
  cases present with
  | true => exact hm
  | false => exact Act.preserves_pure _

theorem frame_restoreAttrs {path : Str} (hpath : q ≠ path) (context : Str) (deps : Deps) : ∀ stat : Option File,
    Act.Preserves (HasFile q file) (restoreAttrs env path context deps stat)
  | none => Act.preserves_pure _
  | some f => by
    unfold restoreAttrs
    refine Act.preserves_bind (frame_optionalCall (frame_put path hpath _ _) _ _) fun owner => ?_
    cases owner with
    | error err => exact Act.preserves_pure _
    | ok u =>
      refine Act.preserves_bind (frame_optionalCall (frame_put path hpath _ _) _ _) fun mode => ?_
      cases mode <;> exact Act.preserves_pure _

theorem frame_fsStat (p : Str) : Act.Preserves (HasFile q file) (fsStat env p) := by
  intro s hs
  unfold fsStat
  rw [Act.step_apply]
  split <;> exact hs

/-- The same for a replacement that keeps attributes. -/
theorem preservingAttrs_others {path p : Str} {lines : List Str} {context : Str} {deps : Deps} {s s' : Sys}
    (hfresh : env.Fresh s) (hp : p ≠ path)
    (h : writeLinesAtomicallyPreservingAttrs env path lines context deps s = (.ok (.ok ()), s')) :
    s'.disk p = s.disk p := by
  obtain ⟨stat, s₁, hstat, h⟩ := Act.of_bind_ok h
  have hsame : ∀ q, s₁.disk q = s.disk q := by
    intro q
    have hframe := frame_optionalCall (@frame_fsStat env q (s.disk q) path) deps.fsStat none s rfl
    rw [hstat] at hframe
    exact hframe
  obtain ⟨r, s₂, hwrite, h⟩ := Act.of_bind_ok h
  cases r with
  | error err => cases h
  | ok u =>
    have hothers : s₂.disk p = s₁.disk p := replacement_others (fun q hq => (hsame q).trans (hfresh q hq)) hp hwrite
    have hframe := @frame_restoreAttrs env p (s₂.disk p) path hp context deps stat s₂ rfl
    replace h : restoreAttrs env path context deps stat s₂ = (.ok (.ok ()), s') := h
    rw [h] at hframe
    exact (hframe.trans hothers).trans (hsame p)

/-- Attributes are not contents. -/
theorem restoreAttrs_content (env : Env) (path context : Str) (deps : Deps) {content : Option Str} :
    ∀ stat : Option File, Act.Preserves (fun s => (s.disk path).map File.content = content)
      (restoreAttrs env path context deps stat)
  | none => Act.preserves_pure _
  | some f => by
    have hcall : ∀ (change : File → File) (effect : Effect), (∀ f, (change f).content = f.content) →
        ∀ present, Act.Preserves (fun s => (s.disk path).map File.content = content) (optionalCall present
          (call env fun s => s.put path ((s.disk path).map change) effect) (.ok ())) := by
      intro change effect hchange present s hs
      cases present with
      | false => exact hs
      | true =>
        unfold optionalCall
        rw [if_pos rfl]
        cases hfail : env.failure s.clock with
        | some err =>
          rw [call_failed hfail]
          exact hs
        | none =>
          rw [call_done hfail]
          dsimp only
          rw [Sys.put_disk_self, Option.map_map, ← hs]
          congr 1
          funext f
          exact hchange f
    unfold restoreAttrs
    refine Act.preserves_bind (hcall (fun g => { g with uid := f.uid, gid := f.gid }) _ (fun _ => rfl) _) fun owner =>
      ?_
    cases owner with
    | error err => exact Act.preserves_pure _
    | ok u =>
      refine Act.preserves_bind (hcall (fun g => { g with mode := f.mode }) _ (fun _ => rfl) _) fun mode => ?_
      cases mode <;> exact Act.preserves_pure _

end Frame

/-! ## What is read and written -/

section Reliable

variable {env : Env} (henv : env.Reliable) {path : Str} {s s' : Sys}

include henv

theorem written_reliable : ∀ (k : Nat) (lines : List Str), env.written k lines = unlines lines
  | _, [] => rfl
  | k, line :: lines => by
    rw [Env.written, (henv k).2, written_reliable (k + 1) lines]
    rfl

theorem ioOpenRead_reliable (path : Str) (s : Sys) : ioOpenRead env path s =
    (.ok (if (s.disk path).isSome then .ok () else .error (path ++ ": No such file or directory")), s.tick) := by
  unfold ioOpenRead
  rw [Act.step_apply, (henv s.clock).1]
  cases s.disk path <;> rfl

theorem fileLines_reliable (path : Str) (s : Sys) : fileLines env path s = (.ok (s.linesAt path), s.tick) := by
  unfold fileLines
  rw [(henv s.clock).1]
  rfl

theorem openedLines_reliable (path : Str) (s : Sys) : ∃ k, openedLines env path s =
    (.ok (s.linesAt path), { s with clock := k }) := by
  unfold openedLines
  rw [Act.bind_of_ok (ioOpenRead_reliable henv path s)]
  cases h : s.disk path with
  | none =>
    have hnone : s.linesAt path = [] := by simp [Sys.linesAt, h, splitLines]
    rw [hnone]
    exact ⟨_, rfl⟩
  | some file =>
    exact ⟨_, fileLines_reliable henv path s.tick⟩

/-- Lines that are read are the lines of the file, and nothing changes. -/
theorem readLines_reliable {context : Str} {deps : Deps} {missingAsEmpty existing : Bool} {lines : List Str}
    (h : readLines env path context deps missingAsEmpty s = (.ok (.ok (lines, existing)), s')) :
    lines = s.linesAt path ∧ s'.disk = s.disk ∧ s'.effects = s.effects ∧
      (missingAsEmpty = false → (s.disk path).isSome = true) := by
  unfold readLines at h
  obtain ⟨attr, s₁, hattr, h⟩ := Act.of_bind_ok h
  have hs₁ : s₁.disk = s.disk ∧ s₁.effects = s.effects := by
    unfold optionalCall at hattr
    split at hattr
    · cases hattr
      exact ⟨rfl, rfl⟩
    · cases hattr
      exact ⟨rfl, rfl⟩
  dsimp only at h
  split at h
  · cases h
  · rw [Act.bind_of_ok (ioOpenRead_reliable henv path s₁)] at h
    rw [hs₁.1] at h
    cases hdisk : s.disk path with
    | none =>
      rw [hdisk] at h
      dsimp only [Option.isSome] at h
      rw [if_neg Bool.false_ne_true] at h
      dsimp only at h
      cases missingAsEmpty with
      | false =>
        simp only [Bool.not_false, Bool.or_true, if_true] at h
        cases h
      | true =>
        split at h
        · cases h
        · cases h
          exact ⟨by simp [Sys.linesAt, hdisk, splitLines], hs₁.1, hs₁.2, fun hfalse => by cases hfalse⟩
    | some file =>
      rw [hdisk] at h
      dsimp only [Option.isSome] at h
      rw [if_pos rfl] at h
      dsimp only at h
      rw [Act.bind_of_ok (fileLines_reliable henv path s₁.tick)] at h
      cases h
      refine ⟨?_, hs₁.1, hs₁.2, fun _ => rfl⟩
      rw [Sys.linesAt, Sys.linesAt, Sys.tick_disk, hs₁.1]

/-- **A replacement that succeeds leaves exactly the new lines.** -/
theorem writeLinesAtomically_reliable {lines : List Str} (hlines : Lines lines) {context : Str}
    (h : writeLinesAtomically env path lines context s = (.ok (.ok ()), s')) :
    (s'.disk path).isSome = true ∧ s'.linesAt path = lines := by
  have hspec := writeLinesAtomically_spec env path lines context s
  rw [h] at hspec
  cases hspec with
  | replaced href hdisk hcontent heffects hmem =>
    rw [written_reliable henv] at hcontent
    refine ⟨by rw [hdisk]; rfl, ?_⟩
    rw [Sys.linesAt, hdisk, Option.map_some, Option.getD_some, hcontent, splitLines_unlines hlines]

/-- A replacement that keeps attributes leaves the new lines as well. -/
theorem preservingAttrs_reliable {lines : List Str} (hlines : Lines lines) {context : Str} {deps : Deps}
    (h : writeLinesAtomicallyPreservingAttrs env path lines context deps s = (.ok (.ok ()), s')) :
    (s'.disk path).isSome = true ∧ s'.linesAt path = lines := by
  obtain ⟨stat, s₁, -, h⟩ := Act.of_bind_ok h
  obtain ⟨r, s₂, hwrite, h⟩ := Act.of_bind_ok h
  cases r with
  | error err => cases h
  | ok u =>
    obtain ⟨hsome, hlinesAt⟩ := writeLinesAtomically_reliable henv hlines hwrite
    have hcontent := restoreAttrs_content env path context deps stat s₂ rfl
    replace h : restoreAttrs env path context deps stat s₂ = (.ok (.ok ()), s') := h
    rw [h] at hcontent
    dsimp only at hcontent
    refine ⟨?_, by rw [Sys.linesAt, hcontent]; exact hlinesAt⟩
    rw [← Option.isSome_map, hcontent, Option.isSome_map, hsome]

/-- **An appended line is there**, and the lines that were there still are. -/
theorem appendUniqueLine_reliable {line context : Str} {deps : Deps} (hline : '\n' ∉ line)
    (h : appendUniqueLine env path line context deps s = (.ok (.ok ()), s')) :
    (s'.disk path).isSome = true ∧
      s'.linesAt path = if line ∈ s.linesAt path then s.linesAt path else s.linesAt path ++ [line] := by
  obtain ⟨link, s₁, hlink, h⟩ := Act.of_bind_ok h
  obtain rfl : s.tick = s₁ := by
    rw [isSymlink_apply] at hlink
    exact (Prod.mk.inj hlink).2
  cases link with
  | true => cases h
  | false =>
    obtain ⟨k, hread⟩ := openedLines_reliable henv path s.tick
    rw [if_neg Bool.false_ne_true, Act.bind_of_ok hread, Act.lift_ok_bind_apply, appendMissing] at h
    have hany : ((s.tick.linesAt path).any fun l => Value.rawEq (.str l) (.str line)) =
      decide (line ∈ s.linesAt path) := by
      rw [Bool.eq_iff_iff, List.any_eq_true, decide_eq_true_eq]
      simp only [Value.rawEq_str, Value.str.injEq, exists_eq_right]
      rfl
    rw [hany] at h
    by_cases hmem : line ∈ s.linesAt path
    · rw [if_pos (decide_eq_true hmem)] at h
      cases h
      rw [if_pos hmem]
      refine ⟨?_, rfl⟩
      change (s.disk path).isSome = true
      cases hdisk : s.disk path with
      | some file => rfl
      | none => simp [Sys.linesAt, hdisk, splitLines] at hmem
    · rw [if_neg (by simpa using hmem)] at h
      rw [if_neg hmem]
      refine preservingAttrs_reliable henv ?_ h
      intro l hl
      rcases List.mem_append.mp hl with hl | hl
      · exact lines_linesAt s path l hl
      · rw [List.mem_singleton.mp hl]
        exact hline

end Reliable

end Seharden
