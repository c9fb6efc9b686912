import Loongshield.Seharden.FileEnforcer
import Loongshield.Seharden.Replacement
import Loongshield.Seharden.SysctlEnforcer

/-!
# Files that cannot be read

The functions that edit a file read it first. None of the dependency tables they are used with tells a file that cannot
be opened from one that is not there, so both are taken for empty.

- `Settled`: what a rewrite came to, as far as the target is concerned;
- `rewriteFile_settled`: the course of every rewrite whose read finds nothing;
- `unreadable_kept_iff`: an existing file that cannot be opened is kept, and an error returned, iff the replacement
  itself is refused.
-/

namespace Seharden

open Lua

/-! ## What a rewrite came to -/

/-- From `s`: an error with the target kept, if `refused`; otherwise the target is replaced. -/
inductive Settled (refused : Prop) (path : Str) (s : Sys) : Except Err Ret × Sys → Prop
  | kept {e : Str} {s' : Sys} (href : refused) (hkeeps : s.Keeps path s') : Settled refused path s (.ok (.error e), s')
  | replaced {r : Except Err Ret} {tmp : Str} {es : List Effect} {s' : Sys} (href : ¬ refused)
      (heffects : s'.effects = s.effects ++ es) (hmem : .rename tmp path ∈ es) : Settled refused path s (r, s')

/-- The call returned an error and the target is kept. -/
def KeepsTarget (path : Str) (s : Sys) (r : Except Err Ret × Sys) : Prop :=
  (∃ e, r.1 = .ok (.error e)) ∧ s.Keeps path r.2

section Settled

variable {refused : Prop} {path : Str} {s : Sys} {r : Except Err Ret × Sys}

theorem Settled.keepsTarget_iff (h : Settled refused path s r) : KeepsTarget path s r ↔ refused := by
  cases h with
  | kept href hkeeps => exact ⟨fun _ => href, fun _ => ⟨⟨_, rfl⟩, hkeeps⟩⟩
  | replaced href heffects hmem =>
    exact ⟨fun hkept => (hkept.2.not_of_rename heffects hmem).elim, fun h => absurd h href⟩

theorem Replaced.settled {env : Env} {lines : List Str} (h : Replaced env path lines s r) :
    Settled (env.Refuses s.clock lines.length (s.disk path)) path s r := by
  cases h with
  | refused href hkeeps => exact .kept href hkeeps
  | replaced href _ _ heffects hmem => exact .replaced href heffects hmem

/-- Calls that change nothing can come before. -/
theorem Settled.of_tick (h : Settled refused path s.tick r) : Settled refused path s r := by
  cases h with
  | kept href hkeeps => exact .kept href (((Sys.Keeps.refl path s).tick).trans hkeeps)
  | replaced href heffects hmem => exact .replaced href heffects hmem

theorem Settled.congr {refused' : Prop} (h : Settled refused path s r) (hiff : refused ↔ refused') :
    Settled refused' path s r := by
  rwa [← propext hiff]

end Settled

/-! ## Restoring attributes -/

/-- Changes are only added. -/
def Sys.Grows (s s' : Sys) : Prop := ∃ es, s'.effects = s.effects ++ es

namespace Sys.Grows

theorem refl (s : Sys) : s.Grows s := ⟨[], (List.append_nil _).symm⟩

theorem trans {s s' s'' : Sys} (h : s.Grows s') (h' : s'.Grows s'') : s.Grows s'' := by
  obtain ⟨es, hes⟩ := h
  obtain ⟨es', hes'⟩ := h'
  exact ⟨es ++ es', by rw [hes', hes, List.append_assoc]⟩

theorem put_tick (s : Sys) (path : Str) (file : Option File) (effect : Effect) :
    s.Grows (s.tick.put path file effect) := ⟨[effect], rfl⟩

end Sys.Grows

section Attributes

variable {env : Env} {path : Str}

theorem along_optionalCall {m : FsM Ret} (hm : Act.Along Sys.Grows m) (present : Bool) (r : Ret) :
    Act.Along Sys.Grows (optionalCall present m r) := by
  cases present with
  | true => exact hm
  | false => exact Act.along_pure Sys.Grows.refl r

theorem along_restoreAttrs (context : Str) (deps : Deps) :
    ∀ stat : Option File, Act.Along Sys.Grows (restoreAttrs env path context deps stat)
  | none => Act.along_pure Sys.Grows.refl _
  | some file => by
    have hchown : Act.Along Sys.Grows (fsChown env path file.uid file.gid) :=
      along_call Sys.Grows.refl fun s => .put_tick s path _ _
    have hchmod : Act.Along Sys.Grows (fsChmod env path file.mode) :=
      along_call Sys.Grows.refl fun s => .put_tick s path _ _
    unfold restoreAttrs
    refine Act.along_bind (along_optionalCall hchown _ _) (fun owner => ?_) fun _ _ _ => Sys.Grows.trans
    cases owner with
    | error err => exact Act.along_pure Sys.Grows.refl _
    | ok u =>
      refine Act.along_bind (along_optionalCall hchmod _ _) (fun mode => ?_) fun _ _ _ => Sys.Grows.trans
      cases mode <;> exact Act.along_pure Sys.Grows.refl _

theorem writeAndRestore_settled (lines : List Str) (context : Str) (deps : Deps) (stat : Option File) (s : Sys) :
    Settled (env.Refuses s.clock lines.length (s.disk path)) path s
      (writeAndRestore env path lines context deps stat s) := by
  have hspec := writeLinesAtomically_spec env path lines context s
  unfold writeAndRestore
  generalize hr : writeLinesAtomically env path lines context s = r at hspec
  cases hspec with
  | refused href hkeeps =>
    rw [Act.bind_of_ok hr]
    exact .kept href hkeeps
  | @replaced tmp es file s' href hdisk hcontent heffects hmem =>
    obtain ⟨r, s'', hrestore, es', hes'⟩ := @along_restoreAttrs env path context deps stat s'
    rw [Act.bind_of_ok hr]
    dsimp only
    rw [hrestore]
    exact .replaced href (by rw [hes', heffects, List.append_assoc]) (List.mem_append_left es' hmem)

/-- The calls `fs.stat` makes before the replacement. -/
def Deps.statCalls (deps : Deps) : Nat := if deps.fsStat then 1 else 0

/-- A replacement that keeps attributes is refused where the replacement is. -/
theorem writeLinesAtomicallyPreservingAttrs_settled (lines : List Str) (context : Str) (deps : Deps) (s : Sys) :
    Settled (env.Refuses (s.clock + deps.statCalls) lines.length (s.disk path)) path s
      (writeLinesAtomicallyPreservingAttrs env path lines context deps s) := by
  unfold writeLinesAtomicallyPreservingAttrs Deps.statCalls optionalCall
  cases deps.fsStat with
  | false => exact writeAndRestore_settled lines context deps none s
  | true =>
    obtain ⟨stat, hstat⟩ : ∃ stat, fsStat env path s = (.ok stat, s.tick) := by
      unfold fsStat
      rw [Act.step_apply]
      cases env.failure s.clock <;> exact ⟨_, rfl⟩
    rw [if_pos rfl, if_pos rfl, Act.bind_of_ok hstat]
    exact (writeAndRestore_settled lines context deps stat s.tick).of_tick

end Attributes

/-! ## Every rewrite -/

/-- A read that finds nothing: the replacement decides. -/
theorem rewriteFile_settled {env : Env} {path context : Str} {read : FsM (List Str)}
    {edit : List Str → Except Err (Option (List Str))} {write : List Str → FsM Ret} {s : Sys} {new : List Str}
    {refused : Prop} (hread : read s.tick = (.ok [], s.tick.tick)) (hedit : edit [] = .ok (some new))
    (hwrite : Settled refused path s.tick.tick (write new s.tick.tick)) :
    Settled (env.seesLink s.clock (s.disk path) = true ∨ refused) path s
      (rewriteFile env path context read edit write s) := by
  unfold rewriteFile
  rw [Act.bind_of_ok (isSymlink_apply env path s)]
  cases hlink : env.seesLink s.clock (s.disk path) with
  | true => exact .kept (.inl rfl) (Sys.Keeps.refl path s).tick
  | false =>
    rw [if_neg Bool.false_ne_true, Act.bind_of_ok hread, hedit, Act.lift_ok_bind_apply]
    exact hwrite.of_tick.of_tick.congr (by simp)

section Reads

variable {env : Env} {path : Str} {s : Sys}

theorem ioOpenRead_failed {err : Str} (h : env.failure s.clock = some err) :
    ioOpenRead env path s = (.ok (.error err), s.tick) := by
  unfold ioOpenRead
  rw [Act.step_apply, h]

theorem openedLines_failed (h : env.failure s.clock ≠ none) : openedLines env path s = (.ok [], s.tick) := by
  obtain ⟨err, herr⟩ := Option.ne_none_iff_exists'.mp h
  unfold openedLines
  rw [Act.bind_of_ok (ioOpenRead_failed herr)]
  rfl

/-- Without `lfs_attributes`, a failed open counts as a missing file. -/
theorem readLines_failed {deps : Deps} (context : Str) (hdeps : deps.lfsAttributes = false)
    (h : env.failure s.clock ≠ none) : readLines env path context deps true s = (.ok (.ok ([], false)), s.tick) := by
  obtain ⟨err, herr⟩ := Option.ne_none_iff_exists'.mp h
  unfold readLines
  rw [hdeps, Act.bind_of_ok (show optionalCall false (lfsAttributes env path) none s = (.ok none, s) from rfl),
    if_neg (by simp), Act.bind_of_ok (ioOpenRead_failed herr)]
  rfl

theorem readExistingLines_failed (h : env.failure s.clock ≠ none) :
    readExistingLines env path s = (.ok ([], false, none), s.tick) := by
  unfold readExistingLines
  rw [Act.bind_of_ok (readLines_failed "file" rfl h)]
  rfl

end Reads

/-! ## What the edits make of an empty file -/

theorem escapeKey_total (key : Str) : ∃ r, escapeKey key = .ok r := gsub_captured_total rfl (by decide) key

theorem editKeyValue_nil (key sep value : Str) : editKeyValue key sep value [] = .ok (some [key ++ sep ++ value]) := by
  obtain ⟨escapedKey, hkey⟩ := escapeKey_total key
  obtain ⟨escapedSep, hsep⟩ : ∃ r, gsub sep "." (fun caps => '%' :: (caps.headD .nil).tostring) = .ok r :=
    gsub_single_total rfl (by decide) sep
  unfold editKeyValue keyValuePattern
  rw [hkey, hsep]
  rfl

theorem editIni_nil (section_ : Value) (sectionText key value : Str) :
    editIni section_ sectionText key value [] = .ok (some ["[" ++ sectionText ++ "]", key ++ "=" ++ value]) := by
  obtain ⟨escapedKey, hkey⟩ := escapeKey_total key
  unfold editIni
  rw [hkey]
  rfl

theorem contentLines_eq (content : Str) : contentLines content = .ok (content.splitOn '\n') := by
  have hpat : Pattern.compile "(.-)\n" =
      [.capOpen, .single .any .minus, .capClose, .single (.lit '\n') .one] := rfl
  have hpieces : gmatch (content ++ "\n") "(.-)\n" = .ok ((content.splitOn '\n').map fun w => [.str w]) :=
    gmatch_pieces hpat content
  unfold contentLines
  rw [hpieces]
  simp only [bind, Except.bind, List.map_map]
  exact congrArg Except.ok (List.map_id _)

theorem editContent_nil (content : Str) : editContent content [] = .ok (some (content.splitOn '\n')) := by
  have hne : [] ≠ content.splitOn '\n' := (List.splitOn_ne_nil '\n' content).symm
  unfold editContent
  rw [contentLines_eq]
  simp only [bind, Except.bind]
  rw [if_neg hne]
  rfl

theorem editSysctl_nil (key value : Str) : editSysctl key value [] = .ok (some [key ++ " = " ++ value]) := by
  unfold editSysctl
  simp [persistLoop, bind, Except.bind, pure, Except.pure]

/-! ## The six rewrites -/

/-- A call of a function that rewrites a file. -/
inductive Rewrite
  | setKeyValue (params : Value)
  | appendLine (params : Value)
  | writeContent (params : Value)
  | setIniKeyValue (params : Value)
  | persistSysctl (paths : SysctlPaths) (key value : Str)
  | appendUniqueLine (path targetLine context : Str) (deps : Deps)

namespace Rewrite

/-- The call. -/
def run (env : Env) : Rewrite → FsM Ret
  | .setKeyValue params => Seharden.setKeyValue env params
  | .appendLine params => Seharden.appendLine env params
  | .writeContent params => Seharden.writeContent env params
  | .setIniKeyValue params => Seharden.setIniKeyValue env params
  | .persistSysctl paths key value => Seharden.persistSysctl env paths key value
  | .appendUniqueLine path targetLine context deps => Seharden.appendUniqueLine env path targetLine context deps

/-- The calls between the read and the replacement. -/
def statCalls : Rewrite → Nat
  | .appendUniqueLine _ _ _ deps => deps.statCalls
  | _ => 0

/-- The call is accepted, its target is `path`, and it makes `lines` of an empty file. -/
inductive Makes : Rewrite → Str → List Str → Prop
  | setKeyValue {params : Value} {path key sep : Str} (hpath : params.field "path" = .str path)
      (hkey : params.field "key" = .str key) (hvalue : params.field "value" ≠ .nil) (hsep : Separator params sep) :
      Makes (.setKeyValue params) path [key ++ sep ++ (params.field "value").tostring]
  | appendLine {params : Value} {path line : Str} (hpath : params.field "path" = .str path)
      (hline : concatText (params.field "line") = some line) : Makes (.appendLine params) path [line]
  | writeContent {params : Value} {path content : Str} (hpath : params.field "path" = .str path)
      (hcontent : concatText (params.field "content") = some content) :
      Makes (.writeContent params) path (content.splitOn '\n')
  | setIniKeyValue {params : Value} {path section_ key : Str} (hpath : params.field "path" = .str path)
      (hsection : concatText (params.field "section") = some section_) (hkey : params.field "key" = .str key)
      (hvalue : params.field "value" ≠ .nil) :
      Makes (.setIniKeyValue params) path ["[" ++ section_ ++ "]", key ++ "=" ++ (params.field "value").tostring]
  | persistSysctl {paths : SysctlPaths} {key value : Str} :
      Makes (.persistSysctl paths key value) paths.sysctlConf [key ++ " = " ++ value]
  | appendUniqueLine {path targetLine context : Str} {deps : Deps} :
      Makes (.appendUniqueLine path targetLine context deps) path [targetLine]

end Rewrite

section Rewrites

variable {env : Env} {path context : Str} {s : Sys} {edit : List Str → Except Err (Option (List Str))} {new : List Str}

theorem editFile_settled (hopen : env.failure (s.clock + 1) ≠ none) (hedit : edit [] = .ok (some new)) :
    Settled (env.seesLink s.clock (s.disk path) = true ∨ env.Refuses (s.clock + 2) new.length (s.disk path)) path s
      (editFile env path context edit s) := by
  have hread : (do return (← readExistingLines env path).1 : FsM (List Str)) s.tick = (.ok [], s.tick.tick) := by
    rw [Act.bind_of_ok (readExistingLines_failed hopen)]
    rfl
  exact rewriteFile_settled hread hedit (writeLinesAtomically_spec env path new context s.tick.tick).settled

/-- The file at `path` cannot be opened: what a rewrite that makes `lines` comes to. -/
theorem settled_of_makes {op : Rewrite} {lines : List Str} (hop : op.Makes path lines)
    (hopen : env.failure (s.clock + 1) ≠ none) :
    Settled (env.seesLink s.clock (s.disk path) = true ∨
      env.Refuses (s.clock + 2 + op.statCalls) lines.length (s.disk path)) path s (op.run env s) := by
  cases hop with
  | setKeyValue hpath hkey hvalue hsep =>
    rw [Rewrite.run, setKeyValue_eq env hpath hkey hvalue hsep]
    exact editFile_settled hopen (editKeyValue_nil _ _ _)
  | appendLine hpath hline =>
    rw [Rewrite.run, appendLine_eq env hpath hline]
    exact editFile_settled hopen rfl
  | @writeContent _ _ content hpath hcontent =>
    rw [Rewrite.run, writeContent_eq env hpath hcontent]
    exact editFile_settled hopen (editContent_nil content)
  | setIniKeyValue hpath hsection hkey hvalue =>
    rw [Rewrite.run, setIniKeyValue_eq env hpath hsection hkey hvalue]
    exact editFile_settled hopen (editIni_nil _ _ _ _)
  | @persistSysctl paths key value =>
    exact rewriteFile_settled (openedLines_failed hopen) (editSysctl_nil key value)
      (writeLinesAtomically_spec env _ _ _ s.tick.tick).settled
  | @appendUniqueLine _ targetLine context deps =>
    exact rewriteFile_settled (openedLines_failed hopen) rfl
      (writeLinesAtomicallyPreservingAttrs_settled _ context deps s.tick.tick)

end Rewrites

/-- **A file that exists and cannot be opened is kept, with an error, iff its replacement is refused**: a check sees a
symbolic link, or the temporary file cannot be opened, closed or renamed. -/
theorem unreadable_kept_iff {op : Rewrite} {path : Str} {lines : List Str} (hop : op.Makes path lines) (env : Env)
    (s : Sys) {file : File} (hfile : s.disk path = some file) (hopen : env.failure (s.clock + 1) ≠ none) :
    KeepsTarget path s (op.run env s) ↔ env.seesLink s.clock (some file) = true ∨
      env.Refuses (s.clock + 2 + op.statCalls) lines.length (some file) := by
  rw [← hfile]
  exact (settled_of_makes hop hopen).keepsTarget_iff

/-- The parameters of a `set_key_value` on `/etc/login.defs`. -/
def umaskParams : Value :=
  .record 1 [("path", .str "/etc/login.defs"), ("key", .str "UMASK"), ("value", .str "027"), ("separator", .str " ")]

theorem umaskParams_makes : (Rewrite.setKeyValue umaskParams).Makes "/etc/login.defs" ["UMASK 027".toList] := by
  have h : (Rewrite.setKeyValue umaskParams).Makes "/etc/login.defs"
      ["UMASK".toList ++ " ".toList ++ (umaskParams.field "value").tostring] :=
    .setKeyValue rfl rfl Value.noConfusion (.inr rfl)
  exact h

/-- The second call fails, and call `k`. -/
def deniedEnv (k : Nat) : Env :=
  { outcome := fun i => if i = 1 ∨ i = k then .failed "Permission denied" else .done
    uid := 0, gid := 0, mode := 420, nonce := fun _ => "0x1" }

/-- The file, before the calls. -/
def loginDefs : Sys := .oneFile "/etc/login.defs" "PASS_MAX_DAYS 90\n"

/-- Where the rename fails as well, the file is kept. -/
theorem unreadable_kept_denied :
    KeepsTarget "/etc/login.defs" loginDefs ((Rewrite.setKeyValue umaskParams).run (deniedEnv 7) loginDefs) :=
  (unreadable_kept_iff umaskParams_makes (deniedEnv 7) loginDefs rfl (by decide)).mpr
    (.inr (.inr (.inr (.inr (.inr (by decide))))))

/-- A file that cannot be opened loses its lines to the new one, and the call returns `true`. -/
theorem unreadable_replaced :
    let r := (Rewrite.setKeyValue umaskParams).run (deniedEnv 1) loginDefs
    (deniedEnv 1).failure 1 ≠ none ∧ r.1 = .ok (.ok ()) ∧
      (r.2.disk "/etc/login.defs").map File.content = some "UMASK 027\n".toList ∧
      ¬ KeepsTarget "/etc/login.defs" loginDefs r := by
  intro r
  have hret : r.1 = .ok (.ok ()) := by decide +kernel
  refine ⟨by decide, hret, by decide +kernel, ?_⟩
  rintro ⟨⟨e, he⟩, -⟩
  rw [hret] at he
  cases he

end Seharden
