import Loongshield.Seharden.AuditEnforcer
import Loongshield.Seharden.Replacement
import Loongshield.Seharden.SysctlEnforcer

/-!
# The owner and the mode of a file that is rewritten

A replacement puts a new file in the place of the target, so that the target gets the attributes of the temporary file.
The variant that restores them needs `fs_stat`, `fs_chown` and `fs_chmod`, which the dependency tables of `file.lua`,
`audit.lua` and `sysctl.lua` do not have.

- `AttrsInv`: the invariant of all their calls: a target has the attributes it had, or after a rename those of the
  process;
- `Writer.preserves`: every enforcer keeps it, whatever its calls come to;
- `rewrite_keeps_attrs_iff`: a rewritten file keeps its owner, group and mode iff they are those of the files the
  process creates.
-/

namespace Seharden

open Lua

/-- The owner, the group and the mode of a file. -/
structure Attrs where
  uid : Nat
  gid : Nat
  mode : Nat
  deriving DecidableEq

/-- The attributes of a file. -/
def File.attrs (file : File) : Attrs := ⟨file.uid, file.gid, file.mode⟩

/-- The attributes of the files the process creates. -/
def Env.attrs (env : Env) : Attrs := ⟨env.uid, env.gid, env.mode⟩

/-- A name that a replacement may give its temporary file. -/
def Env.IsTmp (env : Env) (path : Str) : Prop := ∃ target k, path = tmpPath target (env.nonce k)

/-- A rename to `path` is among the changes. -/
def RenamedTo (path : Str) (es : List Effect) : Prop := ∃ old, .rename old path ∈ es

theorem renamedTo_append {path : Str} {es : List Effect} {effect : Effect}
    (heffect : ∀ old new, effect ≠ .rename old new) : RenamedTo path (es ++ [effect]) ↔ RenamedTo path es := by
  unfold RenamedTo
  refine exists_congr fun old => ?_
  rw [List.mem_append, List.mem_singleton, or_iff_left (Ne.symm (heffect old path))]

/-! ## The invariant -/

/-- Since the changes were `before` and the file at `path` had the attributes `attrs`: files with temporary names are
the process's own, and the file at `path` has its attributes still, or those of the process if it was renamed to. -/
structure AttrsInv (env : Env) (path : Str) (attrs : Attrs) (before : List Effect) (s : Sys) : Prop where
  own : ∀ p file, env.IsTmp p → s.disk p = some file → file.attrs = env.attrs
  present : s.disk path ≠ none
  target : ∃ es, s.effects = before ++ es ∧ ∀ file, s.disk path = some file →
    (RenamedTo path es → file.attrs = env.attrs) ∧ (¬ RenamedTo path es → file.attrs = attrs)

namespace AttrsInv

variable {env : Env} {path : Str} {attrs : Attrs} {before : List Effect} {s : Sys}

theorem tick (h : AttrsInv env path attrs before s) : AttrsInv env path attrs before s.tick :=
  ⟨h.own, h.present, h.target⟩

/-- A change of a file that keeps its attributes, or makes a file with those of the process. -/
theorem put (h : AttrsInv env path attrs before s) {p : Str} {file : File} {effect : Effect}
    (hfile : (∃ old, s.disk p = some old ∧ file.attrs = old.attrs) ∨ (s.disk p = none ∧ file.attrs = env.attrs))
    (heffect : ∀ old new, effect ≠ .rename old new) : AttrsInv env path attrs before (s.put p (some file) effect) := by
  have hdisk : ∀ q f, (s.put p (some file) effect).disk q = some f → q = p ∧ f = file ∨ s.disk q = some f := by
    intro q f hf
    by_cases hq : q = p
    · subst hq
      rw [Sys.put_disk_self, Option.some_inj] at hf
      exact .inl ⟨rfl, hf.symm⟩
    · rw [Sys.put_disk_of_ne s _ _ hq] at hf
      exact .inr hf
  refine ⟨fun q f hq hf => ?_, ?_, ?_⟩
  · rcases hdisk q f hf with ⟨rfl, rfl⟩ | hf
    · rcases hfile with ⟨old, hold, hattrs⟩ | ⟨-, hattrs⟩
      · rw [hattrs, h.own q old hq hold]
      · exact hattrs
    · exact h.own q f hq hf
  · by_cases hq : path = p
    · rw [hq, Sys.put_disk_self]
      exact Option.some_ne_none file
    · rw [Sys.put_disk_of_ne s _ _ hq]
      exact h.present
  · obtain ⟨es, hes, htarget⟩ := h.target
    refine ⟨es ++ [effect], by rw [Sys.put, hes, List.append_assoc], fun f hf => ?_⟩
    rw [renamedTo_append heffect]
    rcases hdisk path f hf with ⟨rfl, rfl⟩ | hf
    · rcases hfile with ⟨old, hold, hattrs⟩ | ⟨hnone, -⟩
      · rw [hattrs]
        exact htarget old hold
      · exact absurd hnone h.present
    · exact htarget f hf

theorem create (h : AttrsInv env path attrs before s) (p : Str) : AttrsInv env path attrs before (s.create env p) := by
  unfold Sys.create
  split
  · next file hfile => exact h.put (.inl ⟨file, hfile, rfl⟩) fun _ _ => Effect.noConfusion
  · next hnone => exact h.put (.inr ⟨hnone, rfl⟩) fun _ _ => Effect.noConfusion

/-- Another file is removed, or was not there. -/
theorem put_none (h : AttrsInv env path attrs before s) {p : Str} {effect : Effect} (hp : p ≠ path)
    (heffect : ∀ old new, effect ≠ .rename old new) : AttrsInv env path attrs before (s.put p none effect) := by
  have hdisk : ∀ q f, (s.put p none effect).disk q = some f → s.disk q = some f := by
    intro q f hf
    by_cases hq : q = p
    · rw [hq, Sys.put_disk_self] at hf
      cases hf
    · rwa [Sys.put_disk_of_ne s _ _ hq] at hf
  refine ⟨fun q f hq hf => h.own q f hq (hdisk q f hf), ?_, ?_⟩
  · rw [Sys.put_disk_of_ne s _ _ hp.symm]
    exact h.present
  · obtain ⟨es, hes, htarget⟩ := h.target
    refine ⟨es ++ [effect], by rw [Sys.put, hes, List.append_assoc], fun f hf => ?_⟩
    rw [renamedTo_append heffect]
    exact htarget f (hdisk path f hf)

theorem append (h : AttrsInv env path attrs before s) (p data : Str) :
    AttrsInv env path attrs before (s.append p data) := by
  unfold Sys.append
  cases hfile : s.disk p with
  | some file => exact h.put (.inl ⟨file, hfile, rfl⟩) fun _ _ => Effect.noConfusion
  | none =>
    have hp : p ≠ path := by
      rintro rfl
      exact h.present hfile
    exact h.put_none hp fun _ _ => Effect.noConfusion

/-- A temporary file gets a new name. -/
theorem rename (h : AttrsInv env path attrs before s) {tmp p : Str} (htmp : env.IsTmp tmp) (hne : tmp ≠ path)
    (hexists : s.disk tmp ≠ none) : AttrsInv env path attrs before (s.rename tmp p) := by
  obtain ⟨file, hfile⟩ := Option.ne_none_iff_exists'.mp hexists
  have hown : file.attrs = env.attrs := h.own tmp file htmp hfile
  have hdisk : ∀ q f, (s.rename tmp p).disk q = some f → q = p ∧ f = file ∨ q ≠ p ∧ s.disk q = some f := by
    intro q f hf
    change (if q = p then s.disk tmp else if q = tmp then none else s.disk q) = some f at hf
    split at hf
    · next hq =>
      rw [hfile, Option.some_inj] at hf
      exact .inl ⟨hq, hf.symm⟩
    · next hq =>
      split at hf
      · cases hf
      · exact .inr ⟨hq, hf⟩
  refine ⟨fun q f hq hf => ?_, ?_, ?_⟩
  · rcases hdisk q f hf with ⟨-, rfl⟩ | ⟨-, hf⟩
    · exact hown
    · exact h.own q f hq hf
  · change (if path = p then s.disk tmp else if path = tmp then none else s.disk path) ≠ none
    split
    · exact hexists
    · rw [if_neg hne.symm]
      exact h.present
  · obtain ⟨es, hes, htarget⟩ := h.target
    refine ⟨es ++ [.rename tmp p], by rw [Sys.rename, hes, List.append_assoc], fun f hf => ?_⟩
    rcases hdisk path f hf with ⟨rfl, rfl⟩ | ⟨hq, hf⟩
    · exact ⟨fun _ => hown, fun hno => absurd ⟨tmp, by simp⟩ hno⟩
    · have hrenamed : RenamedTo path (es ++ [.rename tmp p]) ↔ RenamedTo path es := by
        simp [RenamedTo, hq]
      rw [hrenamed]
      exact htarget f hf

end AttrsInv

/-! ## The calls -/

section Calls

variable {env : Env} {path : Str} {attrs : Attrs} {before : List Effect}

theorem preserves_call {change : Sys → Sys} (hchange : ∀ s, AttrsInv env path attrs before s →
    AttrsInv env path attrs before (change s)) : Act.Preserves (AttrsInv env path attrs before) (call env change) := by
  intro s hs
  cases h : env.failure s.clock with
  | some err =>
    rw [call_failed h]
    exact hs.tick
  | none =>
    rw [call_done h]
    exact hchange s.tick hs.tick

theorem preserves_lfsAttributes (p : Str) : Act.Preserves (AttrsInv env path attrs before) (lfsAttributes env p) :=
  fun _ hs => hs.tick

theorem preserves_isSymlink (p : Str) : Act.Preserves (AttrsInv env path attrs before) (isSymlink env p) :=
  fun _ hs => hs.tick

theorem preserves_ioOpenRead (p : Str) : Act.Preserves (AttrsInv env path attrs before) (ioOpenRead env p) := by
  intro s hs
  unfold ioOpenRead
  rw [Act.step_apply]
  split <;> exact hs.tick

theorem preserves_fileLines (p : Str) : Act.Preserves (AttrsInv env path attrs before) (fileLines env p) := by
  intro s hs
  unfold fileLines
  split <;> exact hs.tick

theorem preserves_fileWrite (p data : Str) : Act.Preserves (AttrsInv env path attrs before) (fileWrite env p data) := by
  intro s hs
  unfold fileWrite
  rw [Act.step_apply]
  dsimp only
  split <;> exact hs.tick.append p _

theorem preserves_lfsDir (ls : Listing) (p : Str) : Act.Preserves (AttrsInv env path attrs before) (lfsDir ls p) :=
  fun _ hs => hs.tick

theorem preserves_strArg (v : Value) : Act.Preserves (AttrsInv env path attrs before) (strArg v) := by
  cases v <;> exact fun _ hs => hs

theorem preserves_textArg (v : Value) : Act.Preserves (AttrsInv env path attrs before) (textArg v) := by
  unfold textArg
  cases concatText v with
  | some text => exact Act.preserves_pure text
  | none => exact Act.preserves_raise _

end Calls

/-! ## The replacement -/

section Replacement

variable {env : Env} {path : Str} {attrs : Attrs} {before : List Effect}

/-- The invariant while there is a temporary file. -/
def WithTmp (env : Env) (path : Str) (attrs : Attrs) (before : List Effect) (tmp : Str) (s : Sys) : Prop :=
  AttrsInv env path attrs before s ∧ s.disk tmp ≠ none

theorem preserves_writeLines (tmp : Str) : ∀ lines : List Str,
    Act.Preserves (WithTmp env path attrs before tmp) (writeLines env tmp lines)
  | [] => Act.preserves_pure ()
  | line :: lines => by
    have hwrite : Act.Preserves (WithTmp env path attrs before tmp) (fileWrite env tmp (line ++ "\n")) := by
      rintro s ⟨hinv, htmp⟩
      refine ⟨preserves_fileWrite tmp _ s hinv, ?_⟩
      have hdisk : ∀ data, (s.tick.append tmp data).disk tmp ≠ none := fun data => by
        rw [Sys.append, Sys.put_disk_self]
        simpa using htmp
      unfold fileWrite
      rw [Act.step_apply]
      dsimp only
      split <;> exact hdisk _
    exact Act.preserves_bind hwrite fun _ => preserves_writeLines tmp lines

/-- The end of a replacement, which renames or removes the temporary file. -/
theorem leads_replaceBy {tmp : Str} (htmp : env.IsTmp tmp) (hne : tmp ≠ path) (target context : Str) :
    Act.Leads (WithTmp env path attrs before tmp) (AttrsInv env path attrs before)
      (replaceBy env tmp target context) := by
  have hforget : ∀ s, WithTmp env path attrs before tmp s → AttrsInv env path attrs before s := fun _ h => h.1
  have hremove : Act.Preserves (AttrsInv env path attrs before) (osRemove env tmp) :=
    preserves_call fun s hs => hs.put_none hne fun _ _ => Effect.noConfusion
  have hcleanup : ∀ r : Ret, Act.Leads (WithTmp env path attrs before tmp) (AttrsInv env path attrs before)
      (do let _ ← osRemove env tmp; return r) := fun r =>
    Act.leads_bind (fun s hs => hremove s hs.1) (fun _ => Act.preserves_pure r) fun _ hs => hs
  have hclose : Act.Preserves (WithTmp env path attrs before tmp) (fileClose env tmp) := by
    rintro s ⟨hinv, hexists⟩
    unfold fileClose
    cases h : env.failure s.clock with
    | some err =>
      rw [call_failed h]
      exact ⟨hinv.tick, hexists⟩
    | none =>
      rw [call_done h]
      exact ⟨hinv.tick, hexists⟩
  have hlink : Act.Preserves (WithTmp env path attrs before tmp) (isSymlink env target) :=
    fun s hs => ⟨hs.1.tick, hs.2⟩
  have hrename : Act.Leads (WithTmp env path attrs before tmp) (WithTmp env path attrs before tmp ⊔
      AttrsInv env path attrs before) (osRename env tmp target) := by
    rintro s ⟨hinv, hexists⟩
    unfold osRename
    cases h : env.failure s.clock with
    | some err =>
      rw [call_failed h]
      exact .inl ⟨hinv.tick, hexists⟩
    | none =>
      rw [call_done h]
      exact .inr (hinv.tick.rename htmp hne hexists)
  have hboth : ∀ s, (WithTmp env path attrs before tmp ⊔ AttrsInv env path attrs before) s →
      AttrsInv env path attrs before s := fun s hs => hs.elim And.left id
  unfold replaceBy
  refine Act.leads_bind hclose (fun closed => ?_) hforget
  cases closed with
  | error err => exact hcleanup _
  | ok u =>
    refine Act.leads_bind hlink (fun link => ?_) hforget
    cases link with
    | true => exact hcleanup _
    | false =>
      refine Act.leads_bind hrename (fun renamed => ?_) hboth
      cases renamed with
      | error err =>
        exact Act.leads_bind (fun s hs => hremove s (hboth s hs)) (fun _ => Act.preserves_pure _) fun _ hs => hs
      | ok u => exact Act.leads_pure hboth _

variable (hpath : ¬ env.IsTmp path)
include hpath

/-- **A replacement**, of any file. -/
theorem preserves_writeLinesAtomically (target : Str) (lines : List Str) (context : Str) :
    Act.Preserves (AttrsInv env path attrs before) (writeLinesAtomically env target lines context) := by
  intro s hs
  have htmp : env.IsTmp (tmpPath target (env.nonce s.clock)) := ⟨target, s.clock, rfl⟩
  have hne : tmpPath target (env.nonce s.clock) ≠ path := by
    intro h
    exact hpath (h ▸ htmp)
  unfold writeLinesAtomically
  rw [Act.step_bind_apply]
  dsimp only
  generalize tmpPath target (env.nonce s.clock) = tmp at htmp hne ⊢
  rw [Act.bind_of_ok (isSymlink_apply env target s)]
  split
  · exact hs.tick
  · unfold ioOpenWrite
    cases hopen : env.failure s.tick.clock with
    | some err =>
      rw [Act.bind_of_ok (call_failed hopen)]
      exact hs.tick.tick
    | none =>
      rw [Act.bind_of_ok (call_done hopen)]
      have hcreated : (s.tick.tick.create env tmp).disk tmp ≠ none := by
        rw [Sys.create, Sys.put_disk_self]
        exact Option.some_ne_none _
      exact Act.leads_bind (preserves_writeLines tmp lines) (fun _ => leads_replaceBy htmp hne target context)
        (fun _ h => h.1) _ ⟨hs.tick.tick.create tmp, hcreated⟩

/-- Without `fs_stat` there are no attributes to restore. -/
theorem preserves_preservingAttrs (target : Str) (lines : List Str) (context : Str) :
    Act.Preserves (AttrsInv env path attrs before)
      (writeLinesAtomicallyPreservingAttrs env target lines context auditDeps) := by
  have hnone : writeLinesAtomicallyPreservingAttrs env target lines context auditDeps =
      writeAndRestore env target lines context auditDeps none := rfl
  rw [hnone]
  refine Act.preserves_bind (preserves_writeLinesAtomically hpath target lines context) fun r => ?_
  cases r <;> exact Act.preserves_pure _

end Replacement

/-! ## The rewrites -/

section Rewrites

variable {env : Env} {path : Str} {attrs : Attrs} {before : List Effect}

theorem preserves_openedLines (p : Str) : Act.Preserves (AttrsInv env path attrs before) (openedLines env p) := by
  refine Act.preserves_bind (preserves_ioOpenRead p) fun r => ?_
  cases r with
  | ok u => exact preserves_fileLines p
  | error e => exact Act.preserves_pure _

theorem preserves_readExistingLines (p : Str) :
    Act.Preserves (AttrsInv env path attrs before) (readExistingLines env p) := by
  have hread : Act.Preserves (AttrsInv env path attrs before) (readLines env p "file" fileDeps true) := by
    refine Act.preserves_bind (Act.preserves_pure none) fun attr => ?_
    dsimp only
    split
    · exact Act.preserves_pure _
    · refine Act.preserves_bind (preserves_ioOpenRead p) fun r => ?_
      cases r with
      | error err =>
        dsimp only
        split <;> exact Act.preserves_pure _
      | ok u => exact Act.preserves_bind (preserves_fileLines p) fun _ => Act.preserves_pure _
  refine Act.preserves_bind hread fun r => ?_
  cases r <;> exact Act.preserves_pure _

theorem preserves_rewriteFile {p context : Str} {read : FsM (List Str)}
    {edit : List Str → Except Err (Option (List Str))}
    {write : List Str → FsM Ret} (hread : Act.Preserves (AttrsInv env path attrs before) read)
    (hwrite : ∀ lines, Act.Preserves (AttrsInv env path attrs before) (write lines)) :
    Act.Preserves (AttrsInv env path attrs before) (rewriteFile env p context read edit write) := by
  refine Act.preserves_bind (preserves_isSymlink p) fun link => ?_
  cases link with
  | true => exact Act.preserves_pure _
  | false =>
    refine Act.preserves_bind hread fun lines => Act.preserves_bind (Act.preserves_lift _) fun new => ?_
    cases new with
    | none => exact Act.preserves_pure _
    | some lines => exact hwrite lines

variable (hpath : ¬ env.IsTmp path)
include hpath

theorem preserves_editFile (p context : Str) (edit : List Str → Except Err (Option (List Str))) :
    Act.Preserves (AttrsInv env path attrs before) (editFile env p context edit) :=
  preserves_rewriteFile (Act.preserves_bind (preserves_readExistingLines p) fun _ => Act.preserves_pure _)
    fun lines => preserves_writeLinesAtomically hpath p lines context

theorem preserves_appendUniqueLine (p targetLine context : Str) :
    Act.Preserves (AttrsInv env path attrs before) (appendUniqueLine env p targetLine context auditDeps) :=
  preserves_rewriteFile (preserves_openedLines p) fun lines => preserves_preservingAttrs hpath p lines context

theorem preserves_appendRuleLines (p context : Str) : ∀ lines : List Str,
    Act.Preserves (AttrsInv env path attrs before) (appendRuleLines env p context lines)
  | [] => Act.preserves_pure _
  | line :: lines => by
    refine Act.preserves_bind (preserves_appendUniqueLine hpath p line context) fun r => ?_
    cases r with
    | error err => exact Act.preserves_pure _
    | ok u => exact preserves_appendRuleLines p context lines

/-! ### `file.lua` -/

theorem preserves_setKeyValue (params : Value) :
    Act.Preserves (AttrsInv env path attrs before) (setKeyValue env params) := by
  unfold setKeyValue
  split
  · exact Act.preserves_pure _
  · refine Act.preserves_bind (preserves_strArg _) fun p => Act.preserves_bind (preserves_strArg _) fun key => ?_
    dsimp only
    split
    · exact Act.preserves_bind (preserves_strArg _) fun sep => preserves_editFile hpath p _ _
    · exact Act.preserves_bind (Act.preserves_pure _) fun sep => preserves_editFile hpath p _ _

theorem preserves_appendLine (params : Value) :
    Act.Preserves (AttrsInv env path attrs before) (appendLine env params) := by
  unfold appendLine
  split
  · exact Act.preserves_pure _
  · exact Act.preserves_bind (preserves_strArg _) fun p => Act.preserves_bind (preserves_textArg _) fun text =>
      preserves_editFile hpath p _ _

theorem preserves_writeContent (params : Value) :
    Act.Preserves (AttrsInv env path attrs before) (writeContent env params) := by
  unfold writeContent
  split
  · exact Act.preserves_pure _
  · exact Act.preserves_bind (preserves_strArg _) fun p => Act.preserves_bind (preserves_textArg _) fun content =>
      preserves_editFile hpath p _ _

theorem preserves_setIniKeyValue (params : Value) :
    Act.Preserves (AttrsInv env path attrs before) (setIniKeyValue env params) := by
  unfold setIniKeyValue
  split
  · exact Act.preserves_pure _
  · exact Act.preserves_bind (preserves_strArg _) fun p => Act.preserves_bind (preserves_textArg _) fun text =>
      Act.preserves_bind (preserves_strArg _) fun key => preserves_editFile hpath p _ _

theorem preserves_commentLineMatching (params : Value) :
    Act.Preserves (AttrsInv env path attrs before) (commentLineMatching env params) := by
  unfold commentLineMatching
  split
  · exact Act.preserves_pure _
  · exact Act.preserves_bind (preserves_strArg _) fun p => preserves_editFile hpath p _ _

theorem preserves_removeFrom (pattern : Value) (p : Str) :
    Act.Preserves (AttrsInv env path attrs before) (removeFrom env pattern p) := by
  refine Act.preserves_bind (preserves_isSymlink p) fun link => ?_
  cases link with
  | true => exact Act.preserves_pure _
  | false =>
    refine Act.preserves_bind (preserves_readExistingLines p) fun found => ?_
    obtain ⟨existing, fileExists, err⟩ := found
    cases fileExists with
    | false => exact Act.preserves_pure _
    | true =>
      refine Act.preserves_bind (Act.preserves_lift _) fun lines => ?_
      split
      · exact Act.preserves_pure _
      · refine Act.preserves_bind (preserves_writeLinesAtomically hpath p lines _) fun r => ?_
        cases r <;> exact Act.preserves_pure _

theorem preserves_removeFromAll (pattern : Value) : ∀ targets : List Str,
    Act.Preserves (AttrsInv env path attrs before) (removeFromAll env pattern targets)
  | [] => Act.preserves_pure _
  | p :: targets => by
    refine Act.preserves_bind (preserves_removeFrom hpath pattern p) fun r => ?_
    cases r with
    | error err => exact Act.preserves_pure _
    | ok u => exact preserves_removeFromAll pattern targets

end Rewrites

/-! ### The targets of `remove_line_matching` -/

section Targets

variable {env : Env} {path : Str} {attrs : Attrs} {before : List Effect} (ls : Listing)

theorem preserves_globBases (pattern : Str) : ∀ bases : List Str,
    Act.Preserves (AttrsInv env path attrs before) (globBases env ls pattern bases)
  | [] => Act.preserves_pure _
  | base :: bases => by
    refine Act.preserves_bind (preserves_lfsAttributes base) fun attr => ?_
    split
    · exact Act.preserves_bind (preserves_lfsDir ls base) fun _ => Act.preserves_bind (Act.preserves_lift _) fun _ =>
        Act.preserves_bind (preserves_globBases pattern bases) fun _ => Act.preserves_pure _
    · exact preserves_globBases pattern bases

theorem preserves_globParts : ∀ (parts bases : List Str),
    Act.Preserves (AttrsInv env path attrs before) (globParts env ls parts bases)
  | [], bases => Act.preserves_pure bases
  | part :: parts, bases => by
    unfold globParts
    split
    · exact preserves_globParts parts bases
    · split
      · exact preserves_globParts parts _
      · split
        · exact Act.preserves_bind (preserves_globBases ls _ bases) fun _ => preserves_globParts parts _
        · exact preserves_globParts parts _

theorem preserves_collectFiles : ∀ (candidates expanded : List Str),
    Act.Preserves (AttrsInv env path attrs before) (collectFiles env candidates expanded)
  | [], expanded => Act.preserves_pure expanded
  | p :: candidates, expanded => by
    refine Act.preserves_bind (preserves_lfsAttributes p) fun attr => ?_
    split <;> exact preserves_collectFiles candidates _

theorem preserves_expandSpecs : ∀ (specs : List Value) (expanded : List Str),
    Act.Preserves (AttrsInv env path attrs before) (expandSpecs env ls specs expanded)
  | [], expanded => Act.preserves_pure expanded
  | spec :: specs, expanded => by
    cases spec with
    | str spec =>
      unfold expandSpecs
      split
      · exact preserves_expandSpecs specs expanded
      · dsimp only
        split
        · exact Act.preserves_bind (preserves_globParts ls _ _) fun candidates =>
            Act.preserves_bind (preserves_collectFiles candidates expanded) fun _ => preserves_expandSpecs specs _
        · exact Act.preserves_bind (Act.preserves_pure _) fun candidates =>
            Act.preserves_bind (preserves_collectFiles candidates expanded) fun _ => preserves_expandSpecs specs _
    | _ => exact preserves_expandSpecs specs expanded

theorem preserves_removeLineMatching (hpath : ¬ env.IsTmp path) (params : Value) :
    Act.Preserves (AttrsInv env path attrs before) (removeLineMatching env ls params) := by
  unfold removeLineMatching
  split
  · exact Act.preserves_pure _
  · split
    · have hexpand : Act.Preserves (AttrsInv env path attrs before) (expandFiles env ls (params.field "paths")) :=
        Act.preserves_bind (Act.preserves_lift _) fun specs => preserves_expandSpecs ls specs []
      exact Act.preserves_bind hexpand fun targets => preserves_removeFromAll hpath _ targets
    · split
      · exact Act.preserves_bind (preserves_strArg _) fun p => preserves_removeFromAll hpath _ [p]
      · exact Act.preserves_pure _

end Targets

/-! ### `audit.lua` and `sysctl.lua` -/

section Audit

variable {env : Env} {path : Str} {attrs : Attrs} {before : List Effect}

theorem preserves_readUidMin (p : Str) : Act.Preserves (AttrsInv env path attrs before) (readUidMin env p) := by
  refine Act.preserves_bind (preserves_ioOpenRead p) fun r => ?_
  cases r with
  | error e => exact Act.preserves_pure _
  | ok u => exact Act.preserves_bind (preserves_fileLines p) fun _ => Act.preserves_pure _

theorem preserves_ruleAuidMin (auidMin : Value) :
    Act.Preserves (AttrsInv env path attrs before) (ruleAuidMin env auidMin) := by
  unfold ruleAuidMin
  split
  · exact Act.preserves_pure _
  · exact Act.preserves_bind (preserves_readUidMin _) fun _ => Act.preserves_pure _
  · split <;> exact Act.preserves_pure _

theorem preserves_resolveRuleFile (paths : AuditPaths) (params : Value) :
    Act.Preserves (AttrsInv env path attrs before) (resolveRuleFile env paths params) := by
  have hdir : ∀ dir : Str, Act.Preserves (AttrsInv env path attrs before) (do
      if (← lfsAttributes env dir) = some "directory".toList then
        return (.ok (dir ++ "/99-loongshield-seharden.rules") : Except Str Str)
      else
        let fallback := if (params.field "fallback_rules_path").truthy then params.field "fallback_rules_path"
          else .str paths.fallbackRulesPath
        return if isSafePath fallback then .ok fallback.tostring
          else .error "audit enforcer requires a safe fallback audit rules path" : FsM (Except Str Str)) := by
    intro dir
    refine Act.preserves_bind (preserves_lfsAttributes dir) fun attr => ?_
    split <;> exact Act.preserves_pure _
  unfold resolveRuleFile
  split
  · dsimp only
    split
    · exact Act.preserves_bind (preserves_textArg _) hdir
    · exact Act.preserves_bind (Act.preserves_pure _) hdir
  · exact Act.preserves_pure _

/-- The rule file is found, and something is done with it. -/
theorem preserves_withRuleFile (paths : AuditPaths) (params : Value) {f : Str → FsM Ret}
    (hf : ∀ ruleFile, Act.Preserves (AttrsInv env path attrs before) (f ruleFile)) :
    Act.Preserves (AttrsInv env path attrs before) (do
      match ← resolveRuleFile env paths params with
      | .error err => return .error err
      | .ok ruleFile => f ruleFile) := by
  refine Act.preserves_bind (preserves_resolveRuleFile paths params) fun r => ?_
  cases r with
  | error err => exact Act.preserves_pure _
  | ok ruleFile => exact hf ruleFile

variable (hpath : ¬ env.IsTmp path) (paths : AuditPaths) (params : Value)
include hpath

theorem preserves_ensureWatchRule : Act.Preserves (AttrsInv env path attrs before)
    (ensureWatchRule env paths params) := by
  unfold ensureWatchRule
  split
  · exact Act.preserves_pure _
  · split
    · exact Act.preserves_pure _
    · split
      · exact Act.preserves_pure _
      · exact preserves_withRuleFile paths params fun ruleFile => preserves_appendUniqueLine hpath ruleFile _ _

theorem preserves_ensureSyscallRule :
    Act.Preserves (AttrsInv env path attrs before) (ensureSyscallRule env paths params) := by
  unfold ensureSyscallRule
  split
  · exact Act.preserves_pure _
  · split
    · exact Act.preserves_pure _
    · split
      · exact Act.preserves_pure _
      · refine Act.preserves_bind (preserves_ruleAuidMin _) fun auidMin => ?_
        cases auidMin with
        | error err => exact Act.preserves_pure _
        | ok auidMin =>
          dsimp only
          split
          · exact Act.preserves_pure _
          · exact preserves_withRuleFile paths params fun ruleFile => preserves_appendRuleLines hpath ruleFile _ _

theorem preserves_ensurePathExecRule :
    Act.Preserves (AttrsInv env path attrs before) (ensurePathExecRule env paths params) := by
  unfold ensurePathExecRule
  split
  · exact Act.preserves_pure _
  · split
    · exact Act.preserves_pure _
    · split
      · exact Act.preserves_pure _
      · exact preserves_withRuleFile paths params fun ruleFile => preserves_appendRuleLines hpath ruleFile _ _

theorem preserves_ensureDirective :
    Act.Preserves (AttrsInv env path attrs before) (ensureDirective env paths params) := by
  unfold ensureDirective
  split
  · exact Act.preserves_pure _
  · refine Act.preserves_bind (preserves_strArg _) fun directive => ?_
    split
    · exact Act.preserves_pure _
    · exact preserves_withRuleFile paths params fun ruleFile => preserves_appendUniqueLine hpath ruleFile _ _

omit paths params in

theorem preserves_appendPrivileged (ruleFile : Str) (auidMin : Flt) (key : Str) : ∀ inventory : List Str,
    Act.Preserves (AttrsInv env path attrs before) (appendPrivileged env ruleFile auidMin key inventory)
  | [] => Act.preserves_pure _
  | p :: inventory => by
    unfold appendPrivileged
    split
    · exact Act.preserves_raise _
    · refine Act.preserves_bind (preserves_appendRuleLines hpath ruleFile _ _) fun r => ?_
      cases r with
      | error err => exact Act.preserves_pure _
      | ok u => exact preserves_appendPrivileged ruleFile auidMin key inventory

theorem preserves_ensurePrivilegedCommandRules (commands : Commands) :
    Act.Preserves (AttrsInv env path attrs before) (ensurePrivilegedCommandRules env paths commands params) := by
  unfold ensurePrivilegedCommandRules
  extract_lets key
  refine Act.preserves_bind (preserves_readUidMin _) fun auidMin => ?_
  split
  · exact Act.preserves_pure _
  · refine preserves_withRuleFile paths params fun ruleFile => ?_
    split
    · exact Act.preserves_pure _
    · exact preserves_appendPrivileged hpath ruleFile auidMin _ _

omit paths params in

theorem preserves_sysctlSetValue (paths : SysctlPaths) (params : Value) :
    Act.Preserves (AttrsInv env path attrs before) (sysctlSetValue env paths params) := by
  have hlive : ∀ p value, Act.Preserves (AttrsInv env path attrs before) (applyLive env p value) := by
    intro p value
    refine Act.preserves_bind (preserves_call fun s hs => hs.create p) fun r => ?_
    cases r with
    | error err => exact Act.preserves_pure _
    | ok u =>
      refine Act.preserves_bind (preserves_fileWrite p _) fun _ =>
        Act.preserves_bind (preserves_call fun s hs => hs) fun closed => ?_
      cases closed <;> exact Act.preserves_pure _
  have hpersist : ∀ key value, Act.Preserves (AttrsInv env path attrs before) (persistSysctl env paths key value) :=
    fun key value => preserves_rewriteFile (preserves_openedLines _) fun lines =>
      preserves_writeLinesAtomically hpath _ lines _
  unfold sysctlSetValue
  split
  · exact Act.preserves_pure _
  · refine Act.preserves_bind (Act.preserves_lift _) fun key => ?_
    cases key with
    | none => exact Act.preserves_pure _
    | some key =>
      refine Act.preserves_bind (Act.preserves_lift _) fun procPath =>
        Act.preserves_bind (hlive procPath _) fun liveErr => Act.preserves_bind (hpersist key _) fun r => ?_
      cases r <;> cases liveErr <;> exact Act.preserves_pure _

end Audit

/-! ## Every enforcer -/

/-- A call of an enforcer that rewrites files, with the dependency table of its module. -/
inductive Writer
  | setKeyValue (params : Value)
  | appendLine (params : Value)
  | removeLineMatching (params : Value)
  | commentLineMatching (params : Value)
  | writeContent (params : Value)
  | setIniKeyValue (params : Value)
  | ensureWatchRule (params : Value)
  | ensureSyscallRule (params : Value)
  | ensurePathExecRule (params : Value)
  | ensurePrivilegedCommandRules (params : Value)
  | ensureDirective (params : Value)
  | sysctlSetValue (params : Value)

namespace Writer

variable (env : Env) (ls : Listing) (commands : Commands)

/-- The call. -/
def run : Writer → FsM Ret
  | .setKeyValue params => Seharden.setKeyValue env params
  | .appendLine params => Seharden.appendLine env params
  | .removeLineMatching params => Seharden.removeLineMatching env ls params
  | .commentLineMatching params => Seharden.commentLineMatching env params
  | .writeContent params => Seharden.writeContent env params
  | .setIniKeyValue params => Seharden.setIniKeyValue env params
  | .ensureWatchRule params => Seharden.ensureWatchRule env defaultAuditPaths params
  | .ensureSyscallRule params => Seharden.ensureSyscallRule env defaultAuditPaths params
  | .ensurePathExecRule params => Seharden.ensurePathExecRule env defaultAuditPaths params
  | .ensurePrivilegedCommandRules params => Seharden.ensurePrivilegedCommandRules env defaultAuditPaths commands params
  | .ensureDirective params => Seharden.ensureDirective env defaultAuditPaths params
  | .sysctlSetValue params => Seharden.sysctlSetValue env defaultSysctlPaths params

/-- **Every enforcer keeps the invariant.** -/
theorem preserves {env : Env} {path : Str} (hpath : ¬ env.IsTmp path) (attrs : Attrs) (before : List Effect) :
    ∀ w : Writer, Act.Preserves (AttrsInv env path attrs before) (w.run env ls commands)
  | .setKeyValue params => preserves_setKeyValue hpath params
  | .appendLine params => preserves_appendLine hpath params
  | .removeLineMatching params => preserves_removeLineMatching ls hpath params
  | .commentLineMatching params => preserves_commentLineMatching hpath params
  | .writeContent params => preserves_writeContent hpath params
  | .setIniKeyValue params => preserves_setIniKeyValue hpath params
  | .ensureWatchRule params => preserves_ensureWatchRule hpath _ params
  | .ensureSyscallRule params => preserves_ensureSyscallRule hpath _ params
  | .ensurePathExecRule params => preserves_ensurePathExecRule hpath _ params
  | .ensurePrivilegedCommandRules params => preserves_ensurePrivilegedCommandRules hpath _ params commands
  | .ensureDirective params => preserves_ensureDirective hpath _ params
  | .sysctlSetValue params => preserves_sysctlSetValue hpath _ params

end Writer

/-- No file has a temporary name, so that every temporary file is created by the process. -/
def Env.Fresh (env : Env) (s : Sys) : Prop := ∀ p, env.IsTmp p → s.disk p = none

/-- The run succeeded and a new file was renamed to `path`. -/
def Rewritten (path : Str) (s : Sys) (r : Except Err Ret × Sys) : Prop :=
  r.1 = .ok (.ok ()) ∧ ∃ es, r.2.effects = s.effects ++ es ∧ RenamedTo path es

/-- The file at `path` has the owner, the group and the mode it had. -/
def KeepsAttrs (path : Str) (s : Sys) (r : Except Err Ret × Sys) : Prop :=
  (r.2.disk path).map File.attrs = (s.disk path).map File.attrs

/-- **A file that an enforcer rewrites keeps its owner, group and mode iff they are those of the files the process
creates.** -/
theorem rewrite_keeps_attrs_iff (w : Writer) (env : Env) (ls : Listing) (commands : Commands) {path : Str} {s : Sys}
    {file : File} (hfile : s.disk path = some file) (hfresh : env.Fresh s)
    (hrewritten : Rewritten path s (w.run env ls commands s)) :
    KeepsAttrs path s (w.run env ls commands s) ↔ file.attrs = env.attrs := by
  have hpath : ¬ env.IsTmp path := by
    intro htmp
    rw [hfresh path htmp] at hfile
    cases hfile
  have hinit : AttrsInv env path file.attrs s.effects s := by
    refine ⟨fun p f hp hf => ?_, by simp [hfile], [], by simp, fun f hf => ?_⟩
    · rw [hfresh p hp] at hf
      cases hf
    · rw [hfile, Option.some_inj] at hf
      subst hf
      exact ⟨fun ⟨old, h⟩ => absurd h List.not_mem_nil, fun _ => rfl⟩
  have hend := w.preserves ls commands hpath file.attrs s.effects s hinit
  obtain ⟨-, es, hes, hrenamed⟩ := hrewritten
  obtain ⟨es', hes', htarget⟩ := hend.target
  obtain ⟨file', hfile'⟩ := Option.ne_none_iff_exists'.mp hend.present
  obtain rfl : es = es' := List.append_cancel_left (hes.symm.trans hes')
  unfold KeepsAttrs
  rw [hfile, hfile', Option.map_some, Option.map_some, Option.some_inj, (htarget file' hfile').1 hrenamed]
  exact eq_comm

/-- A file that only its owner and its group may read. -/
def cronAllow : Sys :=
  { disk := fun p => if p = "/etc/cron.allow".toList then some ⟨"root\n", 0, 0, 0o640⟩ else none, clock := 0,
    effects := [] }

/-- A line to be appended to it. -/
def cronAllowWriter : Writer := .appendLine (.record 1 [("path", .str "/etc/cron.allow"), ("line", .str "admin")])

/-- The run in which every call does what it should. -/
def cronAllowRun : Except Err Ret × Sys :=
  cronAllowWriter.run (.oneOutcome 0 .done) (fun _ _ => .ok []) (fun _ => none) cronAllow

theorem cronAllow_fresh : (Env.oneOutcome 0 .done).Fresh cronAllow := by
  rintro p ⟨target, k, rfl⟩
  refine if_neg fun h => ?_
  have hlast := congrArg List.getLast? h
  rw [tmpPath, show (Env.oneOutcome 0 .done).nonce k = ['0', 'x'] ++ ['1'] from rfl, ← List.append_assoc,
    List.getLast?_append_of_ne_nil _ (by simp)] at hlast
  exact absurd hlast (by decide)

theorem cronAllow_rewritten : Rewritten "/etc/cron.allow" cronAllow cronAllowRun :=
  ⟨by decide +kernel, cronAllowRun.2.effects, rfl, "/etc/.cron.allow.loongshield.tmp.0x1", by decide +kernel⟩

theorem cronAllow_keeps_attrs_iff : Rewritten "/etc/cron.allow" cronAllow cronAllowRun ∧
    (KeepsAttrs "/etc/cron.allow" cronAllow cronAllowRun ↔
      (⟨"root\n", 0, 0, 0o640⟩ : File).attrs = (Env.oneOutcome 0 .done).attrs) :=
  ⟨cronAllow_rewritten, rewrite_keeps_attrs_iff cronAllowWriter _ _ _ rfl cronAllow_fresh cronAllow_rewritten⟩

/-- After a successful append everybody may read the file. -/
theorem append_line_loses_mode : Rewritten "/etc/cron.allow" cronAllow cronAllowRun ∧
    (cronAllowRun.2.disk "/etc/cron.allow").map File.mode = some 0o644 ∧
    ¬ KeepsAttrs "/etc/cron.allow" cronAllow cronAllowRun := by
  have hmode : (cronAllowRun.2.disk "/etc/cron.allow").map File.mode = some 0o644 := by decide +kernel
  refine ⟨cronAllow_rewritten, hmode, fun h => ?_⟩
  have h' := congrArg (Option.map Attrs.mode) h
  rw [Option.map_map] at h'
  exact absurd (hmode.symm.trans h') (by decide)

end Seharden
