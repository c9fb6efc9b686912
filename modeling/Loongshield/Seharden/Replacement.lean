import Loongshield.Seharden.Fsutil

/-!
# Replacing a file

- `Sys.Keeps`: from one state to a later one, a path keeps its file and is not replaced; a preorder on states;
- `writeLinesAtomically_spec`: a replacement is refused and keeps the target, or it puts there what the writes
  delivered (`Env.written`);
- `replace_all_or_nothing_iff`: a replacement is all or nothing iff every write delivers its line, or a later step
  refuses.
-/

namespace Seharden

open Lua

/-! ## Paths that are kept -/

/-- From `s` to `s'` the file at `path` stays what it is, and no other file is renamed to it. -/
structure Sys.Keeps (path : Str) (s s' : Sys) : Prop where
  disk : s'.disk path = s.disk path
  effects : ∃ es, s'.effects = s.effects ++ es ∧ ∀ old, .rename old path ∉ es

namespace Sys.Keeps

variable {path tmp : Str} {s s' s'' : Sys}

theorem refl (path : Str) (s : Sys) : s.Keeps path s := ⟨rfl, [], by simp, by simp⟩

theorem trans (h : s.Keeps path s') (h' : s'.Keeps path s'') : s.Keeps path s'' := by
  obtain ⟨es, hes, hno⟩ := h.effects
  obtain ⟨es', hes', hno'⟩ := h'.effects
  refine ⟨h'.disk.trans h.disk, es ++ es', by rw [hes', hes, List.append_assoc], fun old hmem => ?_⟩
  rcases List.mem_append.mp hmem with hmem | hmem
  · exact hno old hmem
  · exact hno' old hmem

theorem tick (h : s.Keeps path s') : s.Keeps path s'.tick := ⟨h.disk, h.effects⟩

/-- A change of another path. -/
theorem put (h : s.Keeps path s') (hne : path ≠ tmp) {file : Option File} {effect : Effect}
    (heffect : ∀ old, effect ≠ .rename old path) : s.Keeps path (s'.put tmp file effect) :=
  h.trans ⟨Sys.put_disk_of_ne s' file effect hne, [effect], rfl, fun old hmem =>
    heffect old (List.mem_singleton.mp hmem).symm⟩

theorem create (h : s.Keeps path s') (hne : path ≠ tmp) (env : Env) : s.Keeps path (s'.create env tmp) :=
  h.put hne fun _ => Effect.noConfusion

theorem append (h : s.Keeps path s') (hne : path ≠ tmp) (data : Str) : s.Keeps path (s'.append tmp data) :=
  h.put hne fun _ => Effect.noConfusion

/-- A path that was replaced is not kept. -/
theorem not_of_rename {es : List Effect} (h : s.Keeps path s') (hs' : s'.effects = s.effects ++ es)
    (hmem : .rename tmp path ∈ es) : False := by
  obtain ⟨es', hes', hno⟩ := h.effects
  rw [hs', List.append_cancel_left_eq] at hes'
  exact hno tmp (hes' ▸ hmem)

end Sys.Keeps

/-! ## What the writes deliver -/

/-- The lines of a file, each followed by a newline. -/
def unlines (lines : List Str) : Str := lines.flatMap fun line => line ++ "\n"

namespace Env

variable (env : Env)

/-- What the writes of `lines` deliver, as the calls from `k` on. -/
def written : Nat → List Str → Str
  | _, [] => []
  | k, line :: lines => env.delivered k (line ++ "\n") ++ written (k + 1) lines

/-- Every write delivers its whole line. -/
def WritesWhole (k : Nat) (lines : List Str) : Prop :=
  ∀ i line, lines[i]? = some line → env.delivered (k + i) (line ++ "\n") = line ++ "\n"

theorem written_length_le : ∀ (k : Nat) (lines : List Str), (env.written k lines).length ≤ (unlines lines).length
  | _, [] => Nat.le_refl 0
  | k, line :: lines => by
    have hline := env.delivered_length_le k (line ++ "\n")
    have hrest := written_length_le (k + 1) lines
    simp only [written, unlines, List.flatMap_cons, List.length_append] at hline hrest ⊢
    omega

/-- A part that is missing is missed in the whole. -/
theorem written_eq_iff : ∀ (k : Nat) (lines : List Str),
    env.written k lines = unlines lines ↔ env.WritesWhole k lines
  | _, [] => ⟨fun _ i line h => by simp at h, fun _ => rfl⟩
  | k, line :: lines => by
    have hstep : env.written k (line :: lines) = unlines (line :: lines) ↔
        env.delivered k (line ++ "\n") = line ++ "\n" ∧ env.written (k + 1) lines = unlines lines := by
      constructor
      · intro h
        have hline := env.delivered_length_le k (line ++ "\n")
        have hrest := env.written_length_le (k + 1) lines
        have hlen := congrArg List.length h
        simp only [written, unlines, List.flatMap_cons, List.length_append] at h hline hrest hlen
        exact List.append_inj h (by simp only [List.length_append]; omega)
      · rintro ⟨hline, hrest⟩
        rw [written, hline, hrest]
        rfl
    rw [hstep, written_eq_iff (k + 1) lines]
    constructor
    · rintro ⟨hline, hrest⟩ i l hi
      cases i with
      | zero =>
        cases hi
        exact hline
      | succ i =>
        have h := hrest i l hi
        rwa [Nat.add_assoc, Nat.add_comm 1 i] at h
    · intro h
      refine ⟨h 0 line rfl, fun i l hi => ?_⟩
      rw [Nat.add_assoc, Nat.add_comm 1 i]
      exact h (i + 1) l hi

end Env

/-- The loop of writes: nothing but the temporary file changes. -/
theorem writeLines_spec (env : Env) {path tmp : Str} (hne : path ≠ tmp) : ∀ (lines : List Str) (s : Sys),
    ∃ s', writeLines env tmp lines s = (.ok (), s') ∧ s'.clock = s.clock + lines.length ∧ s.Keeps path s' ∧
      s'.disk tmp = (s.disk tmp).map fun f => { f with content := f.content ++ env.written s.clock lines }
  | [], s => ⟨s, rfl, rfl, .refl path s, by simp [Env.written]⟩
  | line :: lines, s => by
    let s₁ : Sys := s.tick.append tmp (env.delivered s.clock (line ++ "\n"))
    obtain ⟨s', hrun, hclock, hkeeps, hdisk⟩ := writeLines_spec env hne lines s₁
    have hwrite : ∃ r, fileWrite env tmp (line ++ "\n") s = (.ok r, s₁) := by
      unfold fileWrite
      rw [Act.step_apply]
      dsimp only
      split <;> exact ⟨_, rfl⟩
    obtain ⟨r, hwrite⟩ := hwrite
    refine ⟨s', ?_, ?_, (((Sys.Keeps.refl path s).tick).append hne _).trans hkeeps, ?_⟩
    · rw [writeLines, Act.bind_of_ok hwrite, hrun]
    · rw [hclock]
      simp only [s₁, Sys.append, Sys.put_clock, Sys.tick_clock, List.length_cons]
      omega
    · rw [hdisk]
      simp only [s₁, Sys.append, Sys.put_disk_self, Sys.tick_disk, Sys.put_clock, Sys.tick_clock, Option.map_map]
      congr 1
      funext f
      simp [Env.written]

/-! ## The whole replacement -/

namespace Env

variable (env : Env)

/-- Call `k` sees a symbolic link at the path of a file. -/
def seesLink (k : Nat) (file : Option File) : Bool := env.attr k file == some "link".toList

/-- A replacement by `n` lines that begins with call `k` is refused: a check sees a link, or the temporary file cannot
be opened, closed or renamed. -/
def Refuses (k n : Nat) (file : Option File) : Prop :=
  env.seesLink k file = true ∨ env.failure (k + 1) ≠ none ∨ env.failure (k + 2 + n) ≠ none ∨
    env.seesLink (k + 3 + n) file = true ∨ env.failure (k + 4 + n) ≠ none

end Env

theorem isSymlink_apply (env : Env) (path : Str) (s : Sys) :
    isSymlink env path s = (.ok (env.seesLink s.clock (s.disk path)), s.tick) := rfl

/-- Cleaning up leaves the target as it is. -/
theorem along_osRemove (env : Env) {path tmp : Str} (hne : path ≠ tmp) :
    Act.Along (Sys.Keeps path) (osRemove env tmp) :=
  along_call (fun s => (Sys.Keeps.refl path s).tick) fun s =>
    ((Sys.Keeps.refl path s).tick).put hne fun _ => Effect.noConfusion

/-- What the end of a replacement came to, from `s`: it was refused, or the path has the temporary file. -/
theorem replaceBy_spec (env : Env) {path tmp : Str} (hne : path ≠ tmp) (context : Str) (s : Sys) :
    (∃ e s', replaceBy env tmp path context s = (.ok (.error e), s') ∧ s.Keeps path s' ∧
      (env.failure s.clock ≠ none ∨ env.seesLink (s.clock + 1) (s.disk path) = true ∨
      env.failure (s.clock + 2) ≠ none)) ∨
    (∃ s', replaceBy env tmp path context s = (.ok (.ok ()), s') ∧ s'.disk path = s.disk tmp ∧
      s'.effects = s.effects ++ [.rename tmp path] ∧ env.failure s.clock = none ∧
      env.seesLink (s.clock + 1) (s.disk path) = false ∧ env.failure (s.clock + 2) = none) := by
  have hkeeps : s.Keeps path s.tick := (Sys.Keeps.refl path s).tick
  unfold replaceBy fileClose osRename
  cases hclose : env.failure s.clock with
  | some err =>
    obtain ⟨r, s', hremove, hkeeps'⟩ := along_osRemove env hne s.tick
    rw [Act.bind_of_ok (call_failed hclose)]
    dsimp only
    rw [Act.bind_of_ok hremove]
    exact .inl ⟨_, s', rfl, hkeeps.trans hkeeps', .inl (Option.some_ne_none err)⟩
  | none =>
    rw [Act.bind_of_ok (call_done hclose)]
    dsimp only [id]
    rw [Act.bind_of_ok (isSymlink_apply env path s.tick), Sys.tick_clock, Sys.tick_disk]
    cases hlink : env.seesLink (s.clock + 1) (s.disk path) with
    | true =>
      obtain ⟨r, s', hremove, hkeeps'⟩ := along_osRemove env hne s.tick.tick
      rw [if_pos rfl, Act.bind_of_ok hremove]
      exact .inl ⟨_, s', rfl, hkeeps.tick.trans hkeeps', .inr (.inl rfl)⟩
    | false =>
      rw [if_neg Bool.false_ne_true]
      cases hrename : env.failure (s.clock + 2) with
      | some err =>
        obtain ⟨r, s', hremove, hkeeps'⟩ := along_osRemove env hne s.tick.tick.tick
        rw [Act.bind_of_ok (call_failed hrename)]
        dsimp only
        rw [Act.bind_of_ok hremove]
        exact .inl ⟨_, s', rfl, hkeeps.tick.tick.trans hkeeps', .inr (.inr (Option.some_ne_none err))⟩
      | none =>
        rw [Act.bind_of_ok (call_done hrename)]
        exact .inr ⟨_, rfl, if_pos rfl, rfl, rfl, rfl, rfl⟩

/-- What a replacement came to, from `s`: it was refused and the target kept, or the target is a new file with what the
writes delivered. -/
inductive Replaced (env : Env) (path : Str) (lines : List Str) (s : Sys) : Except Err Ret × Sys → Prop
  | refused {e : Str} {s' : Sys} (href : env.Refuses s.clock lines.length (s.disk path)) (hkeeps : s.Keeps path s') :
      Replaced env path lines s (.ok (.error e), s')
  | replaced {tmp : Str} {es : List Effect} {file : File} {s' : Sys}
      (href : ¬ env.Refuses s.clock lines.length (s.disk path)) (hdisk : s'.disk path = some file)
      (hcontent : file.content = env.written (s.clock + 2) lines) (heffects : s'.effects = s.effects ++ es)
      (hmem : .rename tmp path ∈ es) : Replaced env path lines s (.ok (.ok ()), s')

/-- **Every run of a replacement.** -/
theorem writeLinesAtomically_spec (env : Env) (path : Str) (lines : List Str) (context : Str) (s : Sys) :
    Replaced env path lines s (writeLinesAtomically env path lines context s) := by
  have hne : path ≠ tmpPath path (env.nonce s.clock) := (tmpPath_ne path _).symm
  unfold writeLinesAtomically
  rw [Act.step_bind_apply]
  dsimp only
  generalize tmpPath path (env.nonce s.clock) = tmp at hne ⊢
  rw [Act.bind_of_ok (isSymlink_apply env path s)]
  cases hlink : env.seesLink s.clock (s.disk path) with
  | true => exact .refused (.inl hlink) (Sys.Keeps.refl path s).tick
  | false =>
    have hkeeps : s.Keeps path s.tick := (Sys.Keeps.refl path s).tick
    rw [if_neg Bool.false_ne_true]
    unfold ioOpenWrite
    cases hopen : env.failure (s.clock + 1) with
    | some err =>
      rw [Act.bind_of_ok (call_failed hopen)]
      exact .refused (.inr (.inl (hopen ▸ Option.some_ne_none err))) hkeeps.tick
    | none =>
      rw [Act.bind_of_ok (call_done hopen)]
      dsimp only
      -- the writes, and then the file in the place of the target
      obtain ⟨s₁, hwrites, hclock, hkeeps₁, htmp⟩ := writeLines_spec env hne lines (s.tick.tick.create env tmp)
      replace hkeeps₁ : s.Keeps path s₁ := (hkeeps.tick.create hne env).trans hkeeps₁
      replace hclock : s₁.clock = s.clock + 2 + lines.length := hclock
      have hclock₁ : s₁.clock + 1 = s.clock + 3 + lines.length := by omega
      have hclock₂ : s₁.clock + 2 = s.clock + 4 + lines.length := by omega
      rw [Act.bind_of_ok hwrites]
      rcases replaceBy_spec env hne context s₁ with ⟨e, s', hrun, hkeeps', hwhy⟩ |
        ⟨s', hrun, hdisk, heffects, hclose, hlink', hrename⟩
      · rw [hrun]
        rw [hkeeps₁.disk, hclock₁, hclock₂, hclock] at hwhy
        exact .refused (.inr (.inr hwhy)) (hkeeps₁.trans hkeeps')
      · obtain ⟨es, hes, -⟩ := hkeeps₁.effects
        obtain ⟨file, hfile, hempty⟩ : ∃ file, (s.tick.tick.create env tmp).disk tmp = some file ∧
          file.content = [] := by
          unfold Sys.create
          rw [Sys.put_disk_self]
          split <;> exact ⟨_, rfl, rfl⟩
        rw [hfile] at htmp
        rw [hkeeps₁.disk, hclock₁] at hlink'
        rw [hclock] at hclose
        rw [hclock₂] at hrename
        rw [hrun]
        rw [hes, List.append_assoc] at heffects
        refine .replaced ?_ (hdisk.trans htmp) ?_ heffects (List.mem_append_right es (List.mem_singleton_self _))
        · simp [Env.Refuses, hlink, hopen, hclose, hlink', hrename]
        · change file.content ++ _ = _
          rw [hempty, List.nil_append]
          rfl

/-! ## All or nothing -/

/-- The call failed and the target is as it was, or it succeeded and the target has exactly the lines. -/
def AllOrNothing (path : Str) (lines : List Str) (s : Sys) (r : Except Err Ret × Sys) : Prop :=
  ((∃ e, r.1 = .ok (.error e)) ∧ r.2.disk path = s.disk path) ∨
    (r.1 = .ok (.ok ()) ∧ (r.2.disk path).map File.content = some (unlines lines))

/-- One of the two checks sees a symbolic link. -/
def Env.ChecksSeeLink (env : Env) (k n : Nat) (file : Option File) : Prop :=
  env.seesLink k file = true ∨ env.seesLink (k + 3 + n) file = true

/-- **A replacement is all or nothing, and never of a link, iff every write delivers its line or the replacement is
refused.** -/
theorem replace_all_or_nothing_iff (env : Env) (path : Str) (lines : List Str) (context : Str) (s : Sys) :
    (AllOrNothing path lines s (writeLinesAtomically env path lines context s) ∧
      (env.ChecksSeeLink s.clock lines.length (s.disk path) →
        s.Keeps path (writeLinesAtomically env path lines context s).2)) ↔
    env.WritesWhole (s.clock + 2) lines ∨ env.Refuses s.clock lines.length (s.disk path) := by
  have hspec := writeLinesAtomically_spec env path lines context s
  generalize writeLinesAtomically env path lines context s = r at hspec ⊢
  cases hspec with
  | refused href hkeeps => exact ⟨fun _ => .inr href, fun _ => ⟨.inl ⟨⟨_, rfl⟩, hkeeps.disk⟩, fun _ => hkeeps⟩⟩
  | @replaced tmp es file s' href hdisk hcontent heffects hmem =>
    have hwhole : (s'.disk path).map File.content = some (unlines lines) ↔ env.WritesWhole (s.clock + 2) lines := by
      rw [hdisk, Option.map_some, hcontent, Option.some_inj, env.written_eq_iff]
    constructor
    · rintro ⟨⟨⟨e, he⟩, -⟩ | ⟨-, hlines⟩, -⟩
      · cases he
      · exact .inl (hwhole.mp hlines)
    · rintro (hwrites | h)
      · refine ⟨.inr ⟨rfl, hwhole.mpr hwrites⟩, fun hlink => absurd ?_ href⟩
        exact hlink.imp id fun h => .inr (.inr (.inl h))
      · exact absurd h href

/-- An environment in which one call has an outcome of its own. -/
def Env.oneOutcome (k : Nat) (outcome : CallOutcome) : Env :=
  { outcome := fun i => if i = k then outcome else .done, uid := 0, gid := 0, mode := 420, nonce := fun _ => "0x1" }

/-- A disk with one file. -/
def Sys.oneFile (path content : Str) : Sys :=
  { disk := fun p => if p = path then some ⟨content, 0, 0, 420⟩ else none, clock := 0, effects := [] }

/-- A replacement during which the disk is full in the middle of a line. -/
def fullDiskRun : Except Err Ret × Sys :=
  writeLinesAtomically (.oneOutcome 2 (.short 6 "No space left on device")) "/etc/issue"
    ["Authorized users only".toList]
    "test" (.oneFile "/etc/issue" "welcome\n")

/-- Success is reported over a truncated file. -/
theorem replace_truncates : fullDiskRun.1 = .ok (.ok ()) ∧
    (fullDiskRun.2.disk "/etc/issue").map File.content = some "Author".toList ∧
    ¬ AllOrNothing "/etc/issue" ["Authorized users only".toList] (.oneFile "/etc/issue" "welcome\n") fullDiskRun := by
  have hret : fullDiskRun.1 = .ok (.ok ()) := by decide +kernel
  have hcontent : (fullDiskRun.2.disk "/etc/issue").map File.content = some "Author".toList := by decide +kernel
  refine ⟨hret, hcontent, ?_⟩
  rintro (⟨⟨e, he⟩, -⟩ | ⟨-, hlines⟩)
  · rw [hret] at he
    cases he
  · rw [hcontent] at hlines
    exact absurd hlines (by decide)

end Seharden
