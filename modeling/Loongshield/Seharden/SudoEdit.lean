import Loongshield.Seharden.Reliable
import Loongshield.Seharden.Sudo
import Loongshield.Seharden.SudoersLoad
import Loongshield.Seharden.SudoersRewrite

/-!
# Editing the files of a sudoers configuration

What both enforcers of `enforcers/sudo.lua` share: the tree is loaded, and then its files are edited one after the
other.

- `SameTree`: two views in which the files have the same directives; the same files are reached;
- `mem_load_lines`, `activeLine_subset`: the active lines of a tree are those of the lines of its files;
- `eachFile_edits`, `eachFile_nothing`: the files after a run that succeeds, and a run that has nothing to do;
- `editSudoers_ok`, `editSudoers_nothing`: the course of an enforcer.
-/

namespace Seharden
namespace Sudo

open Lua Pattern Sudoers

/-! ## Trees with the same directives -/

/-- The files of both views have the same directives, and the directories the same names. -/
structure SameTree (view view' : View) (hostname : Option Str) : Prop where
  mode : ∀ p, view'.mode p = view.mode p
  names : ∀ p, view'.names p = view.names p
  opens : ∀ p, (∃ lines, view.lines p = .ok lines) ↔ ∃ lines, view'.lines p = .ok lines
  directives : ∀ p lines lines', view.lines p = .ok lines → view'.lines p = .ok lines' →
    lines'.filterMap (directive hostname p) = lines.filterMap (directive hostname p)

section Tree

variable {view view' : View} {hostname : Option Str}

theorem SameTree.symm (h : SameTree view view' hostname) : SameTree view' view hostname where
  mode p := (h.mode p).symm
  names p := (h.names p).symm
  opens p := (h.opens p).symm
  directives p lines lines' hl hl' := (h.directives p lines' lines hl' hl).symm

theorem SameTree.directoryFiles (h : SameTree view view' hostname) (dir : Str) :
    directoryFiles view' dir = directoryFiles view dir := by
  have hmode : view'.mode = view.mode := funext h.mode
  unfold Sudoers.directoryFiles
  rw [hmode, h.names]

/-- A directive that is on a line of the one file is on a line of the other. -/
theorem SameTree.line (h : SameTree view view' hostname) {p line : Str} {lines lines' : List Str}
    {d : IncludeKind × Except Err Str} (hl : view.lines p = .ok lines) (hl' : view'.lines p = .ok lines')
      (hline : line ∈ lines)
    (hd : directive hostname p line = some d) : ∃ line' ∈ lines', directive hostname p line' = some d := by
  have hmem : d ∈ lines'.filterMap (directive hostname p) := by
    rw [h.directives p lines lines' hl hl']
    exact List.mem_filterMap.mpr ⟨line, hline, hd⟩
  exact List.mem_filterMap.mp hmem

theorem SameTree.includes (h : SameTree view view' hostname) {p q : Str} {k : Nat}
    (hinc : Includes view hostname p q k) :
    Includes view' hostname p q k := by
  obtain ⟨lines, hl, line, hline, hby⟩ := hinc
  obtain ⟨lines', hl'⟩ := (h.opens p).mp ⟨lines, hl⟩
  cases hby with
  | file hd =>
    obtain ⟨line', hline', hd'⟩ := h.line hl hl' hline hd
    exact ⟨lines', hl', line', hline', .file hd'⟩
  | member hd hfiles hq =>
    obtain ⟨line', hline', hd'⟩ := h.line hl hl' hline hd
    exact ⟨lines', hl', line', hline', .member hd' ((h.directoryFiles _).trans hfiles) hq⟩

theorem SameTree.reaches (h : SameTree view view' hostname) {p q : Str} {d : Nat}
    (hr : Sudoers.Reaches view hostname p d q) :
    Sudoers.Reaches view' hostname p d q := by
  induction hr with
  | refl p => exact .refl p
  | step hinc _ ih => exact .step (h.includes hinc) ih

theorem SameTree.fileGood (h : SameTree view view' hostname) {p : Str} (hgood : FileGood view hostname p) :
    FileGood view' hostname p := by
  obtain ⟨hmode, lines, hl, hlines⟩ := hgood
  obtain ⟨lines', hl'⟩ := (h.opens p).mp ⟨lines, hl⟩
  refine ⟨(h.mode p).trans hmode, lines', hl', fun line' hline' kind r hd => ?_⟩
  obtain ⟨line, hline, hd'⟩ := h.symm.line hl' hl hline' hd
  obtain ⟨q, hq, hdir⟩ := hlines line hline kind r hd'
  exact ⟨q, hq, fun hkind => by rw [h.directoryFiles]; exact hdir hkind⟩

/-- **Trees with the same directives can be loaded alike.** -/
theorem SameTree.loadable (h : SameTree view view' hostname) {maxDepth : Nat} {roots : List Str}
    (hload : Loadable view hostname maxDepth roots) : Loadable view' hostname maxDepth roots := by
  intro root hroot d q hr
  obtain ⟨hgood, hdepth, hcycle⟩ := hload root hroot d q (h.symm.reaches hr)
  exact ⟨h.fileGood hgood, hdepth, fun m hm => hcycle m (h.symm.reaches hm)⟩

/-- The files of two loads. -/
theorem SameTree.files (h : SameTree view view' hostname) {context context' : Option Str} {maxDepth : Nat}
    {roots : List Str}
    {st : State} (hload : load view hostname context maxDepth roots = .ok st) :
    ∃ st', load view' hostname context' maxDepth roots = .ok st' ∧ ∀ p, p ∈ st'.files ↔ p ∈ st.files := by
  have hcan := (load_covers_tree view hostname context maxDepth roots).1.mp ⟨st, hload⟩
  obtain ⟨st', hload'⟩ := (load_covers_tree view' hostname context' maxDepth roots).1.mpr (h.loadable hcan)
  refine ⟨st', hload', fun p => ?_⟩
  rw [((load_covers_tree view' hostname context' maxDepth roots).2 st' hload').2.1,
    ((load_covers_tree view hostname context maxDepth roots).2 st hload).2.1]
  exact ⟨fun ⟨root, hroot, d, hr⟩ => ⟨root, hroot, d, h.symm.reaches hr⟩,
    fun ⟨root, hroot, d, hr⟩ => ⟨root, hroot, d, h.reaches hr⟩⟩

theorem SameTree.refl (view : View) (hostname : Option Str) : SameTree view view hostname where
  mode _ := rfl
  names _ := rfl
  opens _ := Iff.rfl
  directives p lines lines' hl hl' := by rw [Except.ok.inj (hl.symm.trans hl')]

/-! ## Active lines -/

/-- The file `p` has a line with this active line, and no directive. -/
def HasActive (view : View) (hostname : Option Str) (p : Str) (e : ActiveLine) : Prop :=
  ∃ lines, view.lines p = .ok lines ∧ ∃ line ∈ lines, directive hostname p line = none ∧ e ∈ activeLine p line

/-- A part reaches a file. -/
def PartReaches (view : View) (hostname : Option Str) : Part → ActiveLine → Prop
  | .file q, e => ∃ d p, Sudoers.Reaches view hostname q d p ∧ HasActive view hostname p e
  | .lines q lines, e => (∃ line ∈ lines, directive hostname q line = none ∧ e ∈ activeLine q line) ∨
      ∃ line ∈ lines, ∃ q' k d p, IncludesBy view hostname q line q' k ∧ Sudoers.Reaches view hostname q' d p ∧
        HasActive view hostname p e
  | .files qs, e => ∃ q ∈ qs, ∃ d p, Sudoers.Reaches view hostname q d p ∧ HasActive view hostname p e

theorem partReaches_cons {q line : Str} {lines : List Str} {e : ActiveLine}
    (h : PartReaches view hostname (.lines q lines) e) : PartReaches view hostname (.lines q (line :: lines)) e := by
  rcases h with ⟨l, hl, h⟩ | ⟨l, hl, h⟩
  · exact .inl ⟨l, List.mem_cons_of_mem line hl, h⟩
  · exact .inr ⟨l, List.mem_cons_of_mem line hl, h⟩

/-- **Every active line is one of a line** of a file that is reached. -/
theorem mem_expands {part : Part} {es : List ActiveLine} (h : Expands activeLine view hostname part es) :
    ∀ e ∈ es, PartReaches view hostname part e := by
  induction h with
  | @file p lines es hl _ ih =>
    intro e he
    rcases ih e he with ⟨line, hline, hd, hact⟩ | ⟨line, hline, q', k, d, r, hinc, hr, hact⟩
    · exact ⟨0, p, .refl p, lines, hl, line, hline, hd, hact⟩
    · exact ⟨k + d, r, .step ⟨lines, hl, line, hline, hinc⟩ hr, hact⟩
  | done => exact fun e he => absurd he List.not_mem_nil
  | @line p line lines es hd _ ih =>
    intro e he
    rcases List.mem_append.mp he with he | he
    · exact .inl ⟨line, List.mem_cons_self, hd, he⟩
    · exact partReaches_cons (ih e he)
  | @included p line q lines es es' hd _ _ ihfile ih =>
    intro e he
    rcases List.mem_append.mp he with he | he
    · obtain ⟨d, r, hr, hact⟩ := ihfile e he
      exact .inr ⟨line, List.mem_cons_self, q, 1, d, r, .file hd, hr, hact⟩
    · exact partReaches_cons (ih e he)
  | @directory p line dir lines files es es' hd hfiles _ _ ihfiles ih =>
    intro e he
    rcases List.mem_append.mp he with he | he
    · obtain ⟨q, hq, d, r, hr, hact⟩ := ihfiles e he
      exact .inr ⟨line, List.mem_cons_self, q, 2, d, r, .member hd hfiles hq, hr, hact⟩
    · exact partReaches_cons (ih e he)
  | none => exact fun e he => absurd he List.not_mem_nil
  | @next p ps es es' _ _ ihfile ihfiles =>
    intro e he
    rcases List.mem_append.mp he with he | he
    · exact ⟨p, List.mem_cons_self, ihfile e he⟩
    · obtain ⟨q, hq, h⟩ := ihfiles e he
      exact ⟨q, List.mem_cons_of_mem p hq, h⟩

theorem mem_of_expands_lines {part : Part} {es : List ActiveLine} (h : Expands activeLine view hostname part es) :
    ∀ p lines, part = .lines p lines → ∀ line ∈ lines, directive hostname p line = none → activeLine p line ⊆ es := by
  induction h with
  | @line p line lines es hd _ ih =>
    rintro _ _ ⟨⟩ l hl hd'
    rcases List.mem_cons.mp hl with rfl | hl
    · exact List.subset_append_left _ _
    · exact List.Subset.trans (ih _ _ rfl l hl hd') (List.subset_append_right _ _)
  | @included p line q lines es es' hd _ _ _ ih =>
    rintro _ _ ⟨⟩ l hl hd'
    rcases List.mem_cons.mp hl with rfl | hl
    · exact absurd (hd.symm.trans hd') nofun
    · exact List.Subset.trans (ih _ _ rfl l hl hd') (List.subset_append_right _ _)
  | @directory p line dir lines files es es' hd _ _ _ _ ih =>
    rintro _ _ ⟨⟩ l hl hd'
    rcases List.mem_cons.mp hl with rfl | hl
    · exact absurd (hd.symm.trans hd') nofun
    · exact List.Subset.trans (ih _ _ rfl l hl hd') (List.subset_append_right _ _)
  | done =>
    rintro _ _ ⟨⟩ l hl
    exact absurd hl List.not_mem_nil
  | file | none | next => nofun

/-- A file among others is expanded with them. -/
theorem expands_of_mem {part : Part} {es : List ActiveLine} (h : Expands activeLine view hostname part es) :
    ∀ ps, part = .files ps → ∀ p ∈ ps, ∃ es', Expands activeLine view hostname (.file p) es' ∧ es' ⊆ es := by
  induction h with
  | none =>
    rintro _ ⟨⟩ p hp
    exact absurd hp List.not_mem_nil
  | @next q ps es es' hfile _ _ ih =>
    rintro _ ⟨⟩ p hp
    rcases List.mem_cons.mp hp with rfl | hp
    · exact ⟨es, hfile, List.subset_append_left _ _⟩
    · obtain ⟨es₁, h₁, hsub⟩ := ih _ rfl p hp
      exact ⟨es₁, h₁, List.Subset.trans hsub (List.subset_append_right _ _)⟩
  | file | done | line | included | directory => nofun

/-- A file that a line includes is expanded with the lines. -/
theorem expands_of_includes {part : Part} {es : List ActiveLine} (h : Expands activeLine view hostname part es) :
    ∀ p lines, part = .lines p lines → ∀ line ∈ lines, ∀ q k, IncludesBy view hostname p line q k →
      ∃ es', Expands activeLine view hostname (.file q) es' ∧ es' ⊆ es := by
  have htail : ∀ {q : Str} {a b : List ActiveLine}, (∃ es', Expands activeLine view hostname (.file q) es' ∧ es' ⊆ b) →
      ∃ es', Expands activeLine view hostname (.file q) es' ∧ es' ⊆ a ++ b :=
    fun ⟨es', h, hsub⟩ => ⟨es', h, List.Subset.trans hsub (List.subset_append_right _ _)⟩
  induction h with
  | done =>
    rintro _ _ ⟨⟩ l hl
    exact absurd hl List.not_mem_nil
  | @line p line lines es hd _ ih =>
    rintro _ _ ⟨⟩ l hl q k hinc
    rcases List.mem_cons.mp hl with rfl | hl
    · cases hinc with
      | file hd' => exact absurd (hd.symm.trans hd') nofun
      | member hd' _ _ => exact absurd (hd.symm.trans hd') nofun
    · exact htail (ih _ _ rfl l hl q k hinc)
  | @included p line q' lines es es' hd hfile _ _ ih =>
    rintro _ _ ⟨⟩ l hl q k hinc
    rcases List.mem_cons.mp hl with rfl | hl
    · cases hinc with
      | file hd' =>
        obtain rfl := Except.ok.inj (Prod.mk.inj (Option.some.inj (hd.symm.trans hd'))).2
        exact ⟨es, hfile, List.subset_append_left _ _⟩
      | member hd' _ _ => cases (Prod.mk.inj (Option.some.inj (hd.symm.trans hd'))).1
    · exact htail (ih _ _ rfl l hl q k hinc)
  | @directory p line dir lines files es es' hd hfiles hall _ _ ih =>
    rintro _ _ ⟨⟩ l hl q k hinc
    rcases List.mem_cons.mp hl with rfl | hl
    · cases hinc with
      | file hd' => cases (Prod.mk.inj (Option.some.inj (hd.symm.trans hd'))).1
      | member hd' hfiles' hq =>
        obtain rfl := Except.ok.inj (Prod.mk.inj (Option.some.inj (hd.symm.trans hd'))).2
        obtain rfl := Option.some.inj (hfiles.symm.trans hfiles')
        obtain ⟨es₁, h₁, hsub⟩ := expands_of_mem hall _ rfl q hq
        exact ⟨es₁, h₁, List.Subset.trans hsub (List.subset_append_left _ _)⟩
    · exact htail (ih _ _ rfl l hl q k hinc)
  | file | none | next => nofun

theorem expands_of_reaches {p q : Str} {d : Nat} (h : Sudoers.Reaches view hostname p d q) : ∀ {es : List ActiveLine},
    Expands activeLine view hostname (.file p) es → ∃ es', Expands activeLine view hostname (.file q) es' ∧
    es' ⊆ es := by
  induction h with
  | refl p => exact fun hes => ⟨_, hes, List.Subset.refl _⟩
  | step hinc _ ih =>
    intro es hes
    obtain ⟨lines, hl, line, hline, hby⟩ := hinc
    cases hes with
    | file hl' hlines =>
      obtain rfl := Except.ok.inj (hl.symm.trans hl')
      obtain ⟨es₁, h₁, hsub₁⟩ := expands_of_includes hlines _ _ rfl line hline _ _ hby
      obtain ⟨es₂, h₂, hsub₂⟩ := ih h₁
      exact ⟨es₂, h₂, List.Subset.trans hsub₂ hsub₁⟩

/-- **The active lines of every file are loaded.** -/
theorem activeLine_subset {context : Option Str} {maxDepth : Nat} {roots : List Str} {st : State}
    (h : load view hostname context maxDepth roots = .ok st) {p : Str} (hp : p ∈ st.files) {lines : List Str}
    (hl : view.lines p = .ok lines) {line : Str} (hline : line ∈ lines) (hd : directive hostname p line = none) :
    activeLine p line ⊆ st.lines := by
  obtain ⟨-, hfiles, hlines⟩ := (load_covers_tree view hostname context maxDepth roots).2 st h
  obtain ⟨root, hroot, d, hr⟩ := (hfiles p).mp hp
  obtain ⟨es, hes, hsub⟩ := expands_of_mem ((hlines st.lines).mpr rfl) _ rfl root hroot
  obtain ⟨es', hes', hsub'⟩ := expands_of_reaches hr hes
  cases hes' with
  | file hl' hexp =>
    obtain rfl := Except.ok.inj (hl.symm.trans hl')
    exact List.Subset.trans (mem_of_expands_lines hexp _ _ rfl line hline hd) (List.Subset.trans hsub' hsub)

/-- The lines that are loaded, from the lines of the files. -/
theorem mem_load_lines {context : Option Str} {maxDepth : Nat} {roots : List Str} {st : State}
    (h : load view hostname context maxDepth roots = .ok st) {e : ActiveLine} (he : e ∈ st.lines) :
    ∃ p ∈ st.files, HasActive view hostname p e := by
  obtain ⟨-, hfiles, hlines⟩ := (load_covers_tree view hostname context maxDepth roots).2 st h
  obtain ⟨q, hq, d, p, hr, hact⟩ := mem_expands ((hlines st.lines).mpr rfl) e he
  exact ⟨p, (hfiles p).mpr ⟨q, hq, d, hr⟩, hact⟩

/-- The text of an active line. -/
theorem mem_activeLine {p line : Str} {e : ActiveLine} (h : e ∈ activeLine p line) :
    e = ⟨p, active line⟩ ∧ active line ≠ [] ∧ (trim line).head? ≠ some '#' := by
  unfold activeLine at h
  split at h
  · cases h
  · unfold appendActiveLine at h
    split at h
    · cases h
    · next hhash =>
      dsimp only at h
      split at h
      · cases h
      · next hnil =>
        rw [active_eq, active_trim hhash] at h hnil
        exact ⟨List.mem_singleton.mp h, hnil, hhash⟩

theorem activeLine_eq {p line : Str} (hnil : active line ≠ []) (hhash : (trim line).head? ≠ some '#') :
    activeLine p line = [⟨p, active line⟩] := by
  have htrim : trim line ≠ [] := by
    intro h
    have hactive := active_trim hhash
    rw [h] at hactive
    exact hnil hactive.symm
  unfold activeLine appendActiveLine
  rw [if_neg htrim, if_neg hhash]
  dsimp only
  rw [active_eq, active_trim hhash, if_neg hnil]
  rfl

/-- A line that begins like no directive has none. -/
theorem directive_eq_none {p line : Str} (hhash : (trim line).head? ≠ some '#') (hat : (trim line).head? ≠ some '@') :
    directive hostname p line = none := by
  have hword : ∀ x w, (x = '@' ∨ x = '#') → (entrySplit (trim line)).1 ≠ x :: w := by
    intro x w hx hword
    have hhead : (trim line).head? = some x := by
      rw [← @List.takeWhile_append_dropWhile _ (fun x => !isspace x) (trim line)]
      change ((entrySplit (trim line)).1 ++ _).head? = _
      rw [hword]
      rfl
    rcases hx with rfl | rfl
    · exact hat hhead
    · exact hhash hhead
  have hdir : ¬((entrySplit (trim line)).1 = "@includedir".toList ∨
    (entrySplit (trim line)).1 = "#includedir".toList) :=
    fun h => h.elim (hword _ _ (.inl rfl)) (hword _ _ (.inr rfl))
  have hfile : ¬((entrySplit (trim line)).1 = "@include".toList ∨ (entrySplit (trim line)).1 = "#include".toList) :=
    fun h => h.elim (hword _ _ (.inl rfl)) (hword _ _ (.inr rfl))
  unfold directive includeArg
  dsimp only
  rw [if_neg hdir, if_neg hfile, ite_self]
  rfl

end Tree

/-- The lines that a state shows of a file. -/
theorem view_lines {dirs : Dirs} (s : Sys) (p : Str) (lines : List Str) : (s.view dirs).lines p = .ok lines ↔
    (s.disk p).isSome = true ∧ lines = s.linesAt p := by
  unfold Sys.view Sys.linesAt
  dsimp only
  cases s.disk p with
  | none => exact ⟨fun h => (nomatch h), fun h => (nomatch h.1)⟩
  | some file => exact ⟨fun h => ⟨rfl, (Except.ok.inj h).symm⟩, fun h => congrArg Except.ok h.2.symm⟩

/-- Two states with the same files, whose lines have the same directives. -/
theorem sameTree_of_states {dirs : Dirs} {hostname : Option Str} {s s' : Sys}
    (hfiles : ∀ p, (s'.disk p).isSome = (s.disk p).isSome)
    (hlines : ∀ p, (s'.linesAt p).filterMap (directive hostname p) = (s.linesAt p).filterMap (directive hostname p)) :
    SameTree (s.view dirs) (s'.view dirs) hostname := by
  constructor
  · intro p
    unfold Sys.view
    dsimp only
    rw [hfiles p]
  · exact fun p => rfl
  · intro p
    constructor
    · rintro ⟨lines, hl⟩
      exact ⟨_, (view_lines s' p _).mpr ⟨(hfiles p).trans ((view_lines s p lines).mp hl).1, rfl⟩⟩
    · rintro ⟨lines, hl⟩
      exact ⟨_, (view_lines s p _).mpr ⟨(hfiles p).symm.trans ((view_lines s' p lines).mp hl).1, rfl⟩⟩
  · intro p lines lines' hl hl'
    rw [((view_lines s p lines).mp hl).2, ((view_lines s' p lines').mp hl').2]
    exact hlines p

/-! ## The files one after the other -/

section Each

variable {env : Env} {edit : Str → FsM Ret} {new : Str → List Str → List Str}

/-- An edit that succeeds changes the lines of its file, and no other file. -/
def Edits (env : Env) (edit : Str → FsM Ret) (new : Str → List Str → List Str) : Prop :=
  ∀ p s s', env.Fresh s → edit p s = (.ok (.ok ()), s') → (∀ q, q ≠ p → s'.disk q = s.disk q) ∧
    (s.disk p).isSome = true ∧ (s'.disk p).isSome = true ∧ s'.linesAt p = new p (s.linesAt p)

theorem fresh_of_edit {p : Str} {s s' : Sys} (hfresh : env.Fresh s) (hothers : ∀ q, q ≠ p → s'.disk q = s.disk q)
    (hp : (s.disk p).isSome = true) : env.Fresh s' := by
  intro q hq
  by_cases hqp : q = p
  · rw [← hqp, hfresh q hq] at hp
    cases hp
  · rw [hothers q hqp]
    exact hfresh q hq

/-- **The files after all edits.** -/
theorem eachFile_edits (hedit : Edits env edit new) : ∀ {paths : List Str} {s s' : Sys}, env.Fresh s → paths.Nodup →
    eachFile edit paths s = (.ok (.ok ()), s') →
    ∀ q, (q ∉ paths → s'.disk q = s.disk q) ∧ (q ∈ paths → (s.disk q).isSome = true ∧ (s'.disk q).isSome = true ∧
      s'.linesAt q = new q (s.linesAt q))
  | [], s, s', _, _, h, q => by
    cases h
    exact ⟨fun _ => rfl, fun hq => absurd hq List.not_mem_nil⟩
  | p :: paths, s, s', hfresh, hnodup, h, q => by
    obtain ⟨r, s₁, hrun, h⟩ := Act.of_bind_ok h
    cases r with
    | error err => cases h
    | ok u =>
      obtain ⟨hothers, hbefore, hafter, hlines⟩ := hedit p s s₁ hfresh hrun
      obtain ⟨hp, hnodup⟩ := List.nodup_cons.mp hnodup
      have ih := eachFile_edits hedit (fresh_of_edit hfresh hothers hbefore) hnodup h
      refine ⟨fun hq => ?_, fun hq => ?_⟩
      · rw [List.mem_cons, not_or] at hq
        rw [(ih q).1 hq.2, hothers q hq.1]
      · rcases List.mem_cons.mp hq with rfl | hq
        · have hsame := (ih q).1 hp
          have hlast : s'.linesAt q = s₁.linesAt q := by
            unfold Sys.linesAt
            rw [hsame]
          exact ⟨hbefore, by rw [hsame]; exact hafter, hlast.trans hlines⟩
        · have hne : q ≠ p := fun heq => hp (heq ▸ hq)
          obtain ⟨h1, h2, h3⟩ := (ih q).2 hq
          have hfirst : s₁.linesAt q = s.linesAt q := by
            unfold Sys.linesAt
            rw [hothers q hne]
          rw [hothers q hne] at h1
          rw [hfirst] at h3
          exact ⟨h1, h2, h3⟩

/-- Edits that have nothing to do write nothing, whatever the calls report. -/
theorem eachFile_nothing : ∀ {paths : List Str} {s : Sys}, (∀ p ∈ paths, ∀ s₁ : Sys, s₁.disk = s.disk →
    (edit p s₁).2.disk = s₁.disk ∧ (edit p s₁).2.effects = s₁.effects) →
    (eachFile edit paths s).2.disk = s.disk ∧ (eachFile edit paths s).2.effects = s.effects
  | [], _, _ => ⟨rfl, rfl⟩
  | p :: paths, s, h => by
    obtain ⟨hdisk, heffects⟩ := h p List.mem_cons_self s rfl
    cases hrun : edit p s with
    | mk r s₁ =>
      rw [hrun] at hdisk heffects
      have ih := fun h' => @eachFile_nothing paths s₁ h'
      cases r with
      | error err =>
        have hstep : eachFile edit (p :: paths) s = (.error err, s₁) := Act.bind_of_error hrun
        rw [hstep]
        exact ⟨hdisk, heffects⟩
      | ok r =>
        cases r with
        | error err =>
          have hstep : eachFile edit (p :: paths) s = (.ok (.error err), s₁) := Act.bind_of_ok hrun
          rw [hstep]
          exact ⟨hdisk, heffects⟩
        | ok u =>
          have hstep : eachFile edit (p :: paths) s = eachFile edit paths s₁ := Act.bind_of_ok hrun
          obtain ⟨hdisk', heffects'⟩ := ih fun q hq s₂ hs₂ => h q (List.mem_cons_of_mem p hq) s₂ (hs₂.trans hdisk)
          rw [hstep]
          exact ⟨hdisk'.trans hdisk, heffects'.trans heffects⟩

end Each

/-! ## One file -/

/-- The course of both enforcers for a file: what a link gives, and what is written unless there is nothing to do. -/
def sudoFile (env : Env) (onLink : Ret) (context : Str) (settled : List Str → Bool) (new : List Str →
    List Str) (path : Str) :
    FsM Ret := do
  if ← isSymlink env path then return onLink
  else
    match ← readLines env path context sudoDeps false with
    | .error err => return .error err
    | .ok (lines, _) =>
      if settled lines then return .ok ()
      else writeLinesAtomicallyPreservingAttrs env path (new lines) context sudoDeps

section File

variable {env : Env} {onLink : Ret} {context : Str} {settled : List Str → Bool} {new : List Str → List Str} {path : Str}

/-- The files and the changes are those of `s₀`. -/
abbrev IsAt (s₀ s : Sys) : Prop := s.disk = s₀.disk ∧ s.effects = s₀.effects

theorem isAt_ioOpenRead (s₀ : Sys) (path : Str) : Act.Preserves (IsAt s₀) (ioOpenRead env path) := by
  intro s hs
  unfold ioOpenRead
  rw [Act.step_apply]
  split <;> exact hs

theorem isAt_fileLines (s₀ : Sys) (path : Str) : Act.Preserves (IsAt s₀) (fileLines env path) := by
  intro s hs
  unfold fileLines
  split <;> exact hs

theorem isAt_readLines (s₀ : Sys) (path context : Str) (deps : Deps) (missingAsEmpty : Bool) :
    Act.Preserves (IsAt s₀) (readLines env path context deps missingAsEmpty) := by
  unfold readLines
  refine Act.preserves_bind ?_ fun attr => ?_
  · cases deps.lfsAttributes with
    | true => exact fun _ hs => hs
    | false => exact Act.preserves_pure _
  · dsimp only
    split
    · exact Act.preserves_pure _
    · refine Act.preserves_bind (isAt_ioOpenRead s₀ path) fun opened => ?_
      cases opened with
      | error err =>
        dsimp only
        split <;> exact Act.preserves_pure _
      | ok u => exact Act.preserves_bind (isAt_fileLines s₀ path) fun lines => Act.preserves_pure _

theorem sudoFile_edits (henv : env.Reliable) (hlink : (∃ msg, onLink = .error msg) ∨ ∀ k file,
    env.seesLink k file = false)
    (hnew : ∀ lines, Lines lines → Lines (new lines)) (hsettled : ∀ lines, settled lines = true → new lines = lines)
    {s s' : Sys} (hfresh : env.Fresh s) (h : sudoFile env onLink context settled new path s = (.ok (.ok ()), s')) :
    (∀ q, q ≠ path → s'.disk q = s.disk q) ∧ (s.disk path).isSome = true ∧ (s'.disk path).isSome = true ∧
      s'.linesAt path = new (s.linesAt path) := by
  unfold sudoFile at h
  rw [Act.bind_of_ok (isSymlink_apply env path s)] at h
  cases hsees : env.seesLink s.clock (s.disk path) with
  | true =>
    rw [hsees, if_pos rfl] at h
    rcases hlink with ⟨msg, rfl⟩ | hno
    · cases h
    · rw [hno] at hsees
      cases hsees
  | false =>
    rw [hsees, if_neg Bool.false_ne_true] at h
    obtain ⟨r, s₁, hread, h⟩ := Act.of_bind_ok h
    cases r with
    | error err => cases h
    | ok r =>
      obtain ⟨lines, existing⟩ := r
      obtain ⟨rfl, hdisk, -, hsome⟩ := readLines_reliable henv hread
      have hbefore : (s.disk path).isSome = true := hsome rfl
      have hlines : s₁.linesAt path = s.linesAt path := by
        unfold Sys.linesAt
        rw [hdisk]
        rfl
      have hticked : s.tick.linesAt path = s.linesAt path := rfl
      dsimp only at h
      rw [hticked] at h
      split at h
      · next hdone =>
        cases h
        exact ⟨fun q _ => by rw [hdisk]; rfl, hbefore, by rw [hdisk]; exact hbefore, by rw [hlines, hsettled _ hdone]⟩
      · have hfresh₁ : env.Fresh s₁ := fun q hq => by rw [hdisk]; exact hfresh q hq
        obtain ⟨hafter, hwritten⟩ := preservingAttrs_reliable henv (hnew _ (lines_linesAt s path)) h
        exact ⟨fun q hq => (preservingAttrs_others hfresh₁ hq h).trans (by rw [hdisk]; rfl), hbefore, hafter, hwritten⟩

theorem sudoFile_nothing (henv : env.Reliable) {s : Sys} (h : settled (s.linesAt path) = true) :
    (sudoFile env onLink context settled new path s).2.disk = s.disk ∧
      (sudoFile env onLink context settled new path s).2.effects = s.effects := by
  unfold sudoFile
  rw [Act.bind_of_ok (isSymlink_apply env path s)]
  split
  · exact ⟨rfl, rfl⟩
  · have hat := @isAt_readLines env s path context sudoDeps false s.tick ⟨rfl, rfl⟩
    cases hread : readLines env path context sudoDeps false s.tick with
    | mk r s₁ =>
      rw [hread] at hat
      cases r with
      | error err =>
        rw [Act.bind_of_error hread]
        exact hat
      | ok r =>
        rw [Act.bind_of_ok hread]
        cases r with
        | error err => exact hat
        | ok r =>
          obtain ⟨lines, existing⟩ := r
          obtain ⟨rfl, -, -, -⟩ := readLines_reliable henv hread
          dsimp only
          rw [if_pos (show settled (s.tick.linesAt path) = true from h)]
          exact hat

end File

/-! ## The course of an enforcer -/

section Run

variable {env : Env} {dirs : Dirs} {hostname : Option Str} {context : Str} {edit : Str → Str → FsM Ret} {params : Value}

theorem collectPaths_eq (root context : Str) (s : Sys) : collectPaths dirs hostname root context s =
    match load (s.view dirs) hostname (some context) defaultMaxDepth [root] with
    | .ok st => (.ok (.ok st.files), s)
    | .error (.returned msg) => (.ok (.error msg), s)
    | .error (.raised err) => (.error err, s) := rfl

/-- The root of the parameters. -/
def rootOf (params : Value) : Str := (rootPath params).tostring

/-- A run that succeeds loaded the tree and edited its files. -/
theorem editSudoers_ok {s s' : Sys} (h : editSudoers env dirs hostname context edit params s = (.ok (.ok ()), s')) :
    ∃ st, load (s.view dirs) hostname (some context) defaultMaxDepth [rootOf params] = .ok st ∧
      eachFile (edit (rootOf params)) st.files s.tick = (.ok (.ok ()), s') := by
  unfold editSudoers at h
  split at h
  · cases h
  · dsimp only at h
    rw [Act.bind_of_ok (isSymlink_apply env _ s)] at h
    split at h
    · cases h
    · obtain ⟨r, s₁, hcollect, h⟩ := Act.of_bind_ok h
      rw [collectPaths_eq] at hcollect
      have hview : s.tick.view dirs = s.view dirs := rfl
      rw [hview] at hcollect
      cases hload : load (s.view dirs) hostname (some context) defaultMaxDepth [rootOf params] with
      | error e =>
        rw [show load (s.view dirs) hostname (some context) defaultMaxDepth [(rootPath params).tostring] = _ from hload]
          at hcollect
        cases e with
        | raised err => cases hcollect
        | returned msg =>
          cases hcollect
          cases h
      | ok st =>
        rw [show load (s.view dirs) hostname (some context) defaultMaxDepth [(rootPath params).tostring] = _ from hload]
          at hcollect
        cases hcollect
        exact ⟨st, rfl, h⟩

/-- A run in which no file needs an edit writes nothing. -/
theorem editSudoers_nothing {s : Sys} (hedit : ∀ st, load (s.view dirs) hostname (some context) defaultMaxDepth
      [rootOf params] = .ok st → ∀ p ∈ st.files, ∀ s₁ : Sys, s₁.disk = s.disk →
        (edit (rootOf params) p s₁).2.disk = s₁.disk ∧ (edit (rootOf params) p s₁).2.effects = s₁.effects) :
    (editSudoers env dirs hostname context edit params s).2.disk = s.disk ∧
      (editSudoers env dirs hostname context edit params s).2.effects = s.effects := by
  unfold editSudoers
  split
  · exact ⟨rfl, rfl⟩
  · dsimp only
    rw [Act.bind_of_ok (isSymlink_apply env _ s)]
    split
    · exact ⟨rfl, rfl⟩
    · have hview : s.tick.view dirs = s.view dirs := rfl
      have hcollect := @collectPaths_eq dirs hostname (rootPath params).tostring context s.tick
      rw [hview] at hcollect
      cases hload : load (s.view dirs) hostname (some context) defaultMaxDepth [(rootPath params).tostring] with
      | error e =>
        rw [hload] at hcollect
        cases e with
        | raised err =>
          rw [Act.bind_of_error hcollect]
          exact ⟨rfl, rfl⟩
        | returned msg =>
          rw [Act.bind_of_ok hcollect]
          exact ⟨rfl, rfl⟩
      | ok st =>
        rw [hload] at hcollect
        rw [Act.bind_of_ok hcollect]
        exact eachFile_nothing fun p hp s₁ hs₁ => hedit st hload p hp s₁ hs₁

end Run

end Sudo
end Seharden
