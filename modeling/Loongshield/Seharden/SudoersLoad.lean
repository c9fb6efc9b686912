import Loongshield.Seharden.SudoersInclude

/-!
# The include tree of a sudoers configuration

What `load` is for, without its state: which files the roots reach (`Reaches`), when the tree can be loaded
(`Loadable`), and the lines it stands for (`Expands`).

- `visitPath_ok_iff`: a visit returns exactly if the tree below can be loaded;
- `visitPath_adds`: what it adds to the state;
- `load_covers_tree`: `load` returns exactly for a tree that can be loaded, and then has its paths and the lines that
  the loader takes.
-/

namespace Seharden
namespace Sudoers

open Lua

variable {view : View} {hostname errorContext : Option Str}

/-! ## The tree -/

/-- A line of `p` includes the file `q`, which is `k` levels deeper. -/
inductive IncludesBy (view : View) (hostname : Option Str) (p line : Str) : Str → Nat → Prop
  | file {q : Str} (h : directive hostname p line = some (.include_, .ok q)) : IncludesBy view hostname p line q 1
  | member {dir q : Str} {files : List Str} (h : directive hostname p line = some (.includedir, .ok dir))
      (hfiles : directoryFiles view dir = some files) (hq : q ∈ files) : IncludesBy view hostname p line q 2

/-- The file `p` includes the file `q`, which is `k` levels deeper. -/
def Includes (view : View) (hostname : Option Str) (p q : Str) (k : Nat) : Prop :=
  ∃ lines, view.lines p = .ok lines ∧ ∃ line ∈ lines, IncludesBy view hostname p line q k

/-- The file `q` is `n` levels below the file `p`. -/
inductive Reaches (view : View) (hostname : Option Str) : Str → Nat → Str → Prop
  | refl (p : Str) : Reaches view hostname p 0 p
  | step {p q r : Str} {k n : Nat} (h : Includes view hostname p q k) (hr : Reaches view hostname q n r) :
      Reaches view hostname p (k + n) r

/-- A line names a file or directory, and the directory can be listed. -/
def LineGood (view : View) (hostname : Option Str) (p line : Str) : Prop :=
  ∀ kind r, directive hostname p line = some (kind, r) →
    ∃ q, r = .ok q ∧ (kind = .includedir → (directoryFiles view q).isSome = true)

/-- A file that exists and can be read, and whose directives name what is there. -/
def FileGood (view : View) (hostname : Option Str) (p : Str) : Prop :=
  view.mode p = some "file".toList ∧ ∃ lines, view.lines p = .ok lines ∧ ∀ line ∈ lines, LineGood view hostname p line

/-- From `p` on everything can be read, nothing is deeper than `n` levels, no file includes itself, and none is in
`stack`. -/
def Clear (view : View) (hostname : Option Str) (n : Nat) (stack : List Str) (p : Str) : Prop :=
  ∀ d q, Reaches view hostname p d q → FileGood view hostname q ∧ d < n ∧ q ∉ stack ∧
    ∀ m, Reaches view hostname q m q → m = 0

/-- The tree below the roots can be loaded. -/
def Loadable (view : View) (hostname : Option Str) (maxDepth : Nat) (roots : List Str) : Prop :=
  ∀ root ∈ roots, ∀ d q, Reaches view hostname root d q → FileGood view hostname q ∧ d < maxDepth ∧
    ∀ m, Reaches view hostname q m q → m = 0

/-- The active line that a line without a directive stands for, if it does. -/
def activeLine (path line : Str) : List ActiveLine :=
  if trim line = [] then [] else appendActiveLine [] path (trim line)

/-- What is expanded: a file, lines of a file, or files one after the other. -/
inductive Part
  | file (path : Str)
  | lines (path : Str) (lines : List Str)
  | files (paths : List Str)

/-- **The textual expansion**: the lines of an included file stand at the place of its directive. `text` says what a
line of a file is without its comment. -/
inductive Expands (text : Str → Str → List ActiveLine) (view : View) (hostname : Option Str) : Part →
    List ActiveLine → Prop
  | file {p : Str} {lines : List Str} {es : List ActiveLine} (h : view.lines p = .ok lines)
      (hlines : Expands text view hostname (.lines p lines) es) : Expands text view hostname (.file p) es
  | done {p : Str} : Expands text view hostname (.lines p []) []
  | line {p line : Str} {lines : List Str} {es : List ActiveLine} (h : directive hostname p line = none)
      (hlines : Expands text view hostname (.lines p lines) es) :
      Expands text view hostname (.lines p (line :: lines)) (text p line ++ es)
  | included {p line q : Str} {lines : List Str} {es es' : List ActiveLine}
      (h : directive hostname p line = some (.include_, .ok q)) (hfile : Expands text view hostname (.file q) es)
      (hlines : Expands text view hostname (.lines p lines) es') :
        Expands text view hostname (.lines p (line :: lines)) (es ++ es')
  | directory {p line dir : Str} {lines files : List Str} {es es' : List ActiveLine}
      (h : directive hostname p line = some (.includedir, .ok dir)) (hdir : directoryFiles view dir = some files)
      (hfiles : Expands text view hostname (.files files) es)
        (hlines : Expands text view hostname (.lines p lines) es') :
      Expands text view hostname (.lines p (line :: lines)) (es ++ es')
  | none : Expands text view hostname (.files []) []
  | next {p : Str} {ps : List Str} {es es' : List ActiveLine} (hfile : Expands text view hostname (.file p) es)
      (hfiles : Expands text view hostname (.files ps) es') : Expands text view hostname (.files (p :: ps)) (es ++ es')

/-! ## One line, one directory, one file -/

/-- The two cases of a visit have one form: a file of a directory has one level less than an included file. -/
theorem visitPath_succ (n : Nat) (stack : List Str) (path : Str) (recorded : Bool) (st : State) :
    visitPath view hostname errorContext (n + 1) stack path recorded st =
      if path ∈ stack then .error (loopError errorContext path)
      else visitFile view hostname errorContext (visitPath view hostname errorContext n (path :: stack))
        (visitPath view hostname errorContext (n - 1) (path :: stack)) path recorded st := by
  cases n <;> rfl

section Fold

variable {α : Type} {f : State → α → Except LoadErr State}

/-- A loop whose steps return or not whatever the state. -/
theorem foldlM_ok_iff {P : α → Prop} : ∀ {l : List α} {st : State}, (∀ x ∈ l, ∀ st, (∃ r, f st x = .ok r) ↔ P x) →
    ((∃ r, l.foldlM f st = .ok r) ↔ ∀ x ∈ l, P x)
  | [], st, _ => ⟨fun _ _ hx => absurd hx List.not_mem_nil, fun _ => ⟨st, rfl⟩⟩
  | x :: l, st, h => by
    have hx := h x List.mem_cons_self st
    have ih := fun r => @foldlM_ok_iff P l r fun y hy => h y (List.mem_cons_of_mem x hy)
    rw [List.foldlM_cons, List.forall_mem_cons]
    cases hstep : f st x with
    | error e =>
      constructor
      · rintro ⟨r, hr⟩
        cases hr
      · rintro ⟨hP, -⟩
        obtain ⟨r, hr⟩ := hx.mpr hP
        rw [hstep] at hr
        cases hr
    | ok r =>
      have hP := hx.mp ⟨r, hstep⟩
      exact (ih r).trans ⟨fun h => ⟨hP, h⟩, fun h => h.2⟩

/-- What every step does to the state, a loop does step by step. -/
theorem foldlM_induction {R : List α → State → State → Prop} (hnil : ∀ st, R [] st st)
    (hcons : ∀ x l st st' r, f st x = .ok st' → R l st' r → R (x :: l) st r) :
    ∀ {l : List α} {st r : State}, l.foldlM f st = .ok r → R l st r
  | [], st, r, h => by
    obtain rfl := Except.ok.inj h
    exact hnil st
  | x :: l, st, r, h => by
    rw [List.foldlM_cons] at h
    cases hstep : f st x with
    | error e =>
      rw [hstep] at h
      cases h
    | ok st' =>
      rw [hstep] at h
      exact hcons x l st st' r hstep (foldlM_induction hnil hcons h)

end Fold

/-- How a line is visited, from its directive. -/
theorem visitLine_eq (included member : Visit) (path line : Str) (st : State) :
    visitLine view hostname errorContext included member path st line = match directive hostname path line with
      | none => .ok { st with lines := st.lines ++ activeLine path line }
      | some (_, .error err) => .error (.raised err)
      | some (.include_, .ok q) => included q true st
      | some (.includedir, .ok dir) => visitDirectory view errorContext member dir st := by
  have happend : ∀ t, appendActiveLine st.lines path t = st.lines ++ appendActiveLine [] path t := by
    intro t
    unfold appendActiveLine
    split
    · rw [List.append_nil]
    · dsimp only
      split
      · rw [List.append_nil]
      · rfl
  rw [directive_eq]
  unfold visitLine activeLine
  dsimp only
  by_cases hnil : trim line = []
  · rw [if_pos hnil, if_pos hnil, hnil, List.append_nil]
    rfl
  · rw [if_neg hnil, if_neg hnil]
    cases parseIncludeDirective (trim line) with
    | none => rw [happend]; rfl
    | some p =>
      obtain ⟨kind, arg⟩ := p
      simp only [Option.map_some]
      cases resolveIncludePath arg path hostname with
      | error err => rfl
      | ok q => cases kind <;> rfl

section Step

variable {included member : Visit} {P : Nat → Str → Prop}

theorem visitDirectory_ok_iff (hmember : ∀ q b st, (∃ r, member q b st = .ok r) ↔ P 2 q) (dir : Str) (st : State) :
    (∃ r, visitDirectory view errorContext member dir st = .ok r) ↔
      ∃ files, directoryFiles view dir = some files ∧ ∀ q ∈ files, P 2 q := by
  unfold visitDirectory
  dsimp only
  rcases listDirectoryFiles_eq view errorContext dir with ⟨files, hlist, hfiles⟩ | ⟨⟨e, hlist⟩, hnone⟩
  · rw [hlist, hfiles]
    refine (foldlM_ok_iff fun q _ st => hmember q false _).trans ⟨fun h => ⟨files, rfl, h⟩, ?_⟩
    rintro ⟨files', heq, h⟩
    rwa [Option.some.inj heq]
  · rw [hlist, hnone]
    constructor
    · rintro ⟨r, hr⟩
      cases hr
    · rintro ⟨files, heq, -⟩
      cases heq

/-- A line returns exactly if it is good and what it includes returns. -/
theorem visitLine_ok_iff (hincluded : ∀ q b st, (∃ r, included q b st = .ok r) ↔ P 1 q)
    (hmember : ∀ q b st, (∃ r, member q b st = .ok r) ↔ P 2 q) (path line : Str) (st : State) :
    (∃ r, visitLine view hostname errorContext included member path st line = .ok r) ↔
      LineGood view hostname path line ∧ ∀ q k, IncludesBy view hostname path line q k → P k q := by
  rw [visitLine_eq]
  cases hdir : directive hostname path line with
  | none =>
    refine ⟨fun _ => ⟨fun kind r h => ?_, fun q k h => ?_⟩, fun _ => ⟨_, rfl⟩⟩
    · rw [hdir] at h
      cases h
    · cases h with
      | file h =>
        rw [hdir] at h
        cases h
      | member h _ _ =>
        rw [hdir] at h
        cases h
  | some p =>
    obtain ⟨kind, resolved⟩ := p
    cases resolved with
    | error err =>
      constructor
      · rintro ⟨r, hr⟩
        cases hr
      · rintro ⟨hgood, -⟩
        obtain ⟨q, hq, -⟩ := hgood kind _ hdir
        cases hq
    | ok target =>
      cases kind with
      | include_ =>
        refine (hincluded target true st).trans ⟨fun h => ⟨fun kind r hline => ?_, fun q k hinc => ?_⟩,
          fun h => h.2 target 1 (.file hdir)⟩
        · obtain ⟨rfl, rfl⟩ := Prod.mk.inj (Option.some.inj (hdir.symm.trans hline))
          exact ⟨target, rfl, fun hkind => by cases hkind⟩
        · cases hinc with
          | file hline =>
            obtain rfl := Except.ok.inj (Prod.mk.inj (Option.some.inj (hdir.symm.trans hline))).2
            exact h
          | member hline _ _ => cases (Prod.mk.inj (Option.some.inj (hdir.symm.trans hline))).1
      | includedir =>
        refine (visitDirectory_ok_iff hmember target st).trans ⟨?_, ?_⟩
        · rintro ⟨files, hfiles, hall⟩
          refine ⟨fun kind r hline => ?_, fun q k hinc => ?_⟩
          · obtain ⟨rfl, rfl⟩ := Prod.mk.inj (Option.some.inj (hdir.symm.trans hline))
            exact ⟨target, rfl, fun _ => by rw [hfiles]; rfl⟩
          · cases hinc with
            | file hline => cases (Prod.mk.inj (Option.some.inj (hdir.symm.trans hline))).1
            | member hline hfiles' hq =>
              obtain rfl := Except.ok.inj (Prod.mk.inj (Option.some.inj (hdir.symm.trans hline))).2
              obtain rfl := Option.some.inj (hfiles.symm.trans hfiles')
              exact hall q hq
        · rintro ⟨hgood, hinc⟩
          obtain ⟨q, hq, hlist⟩ := hgood _ _ hdir
          obtain rfl := Except.ok.inj hq
          obtain ⟨files, hfiles⟩ := Option.isSome_iff_exists.mp (hlist rfl)
          exact ⟨files, hfiles, fun r hr => hinc r 2 (.member hdir hfiles hr)⟩

/-- A file returns exactly if it is good and what it includes returns. -/
theorem visitFile_ok_iff (hincluded : ∀ q b st, (∃ r, included q b st = .ok r) ↔ P 1 q)
    (hmember : ∀ q b st, (∃ r, member q b st = .ok r) ↔ P 2 q) (path : Str) (recorded : Bool) (st : State) :
    (∃ r, visitFile view hostname errorContext included member path recorded st = .ok r) ↔
      FileGood view hostname path ∧ ∀ q k, Includes view hostname path q k → P k q := by
  unfold visitFile
  dsimp only
  by_cases hmode : view.mode path = some "file".toList
  · rw [if_pos hmode]
    cases hlines : view.lines path with
    | error e =>
      constructor
      · rintro ⟨r, hr⟩
        cases hr
      · rintro ⟨⟨-, lines, hok, -⟩, -⟩
        rw [hlines] at hok
        cases hok
    | ok lines =>
      refine (foldlM_ok_iff fun line _ st => visitLine_ok_iff hincluded hmember path line st).trans ⟨fun h => ?_, ?_⟩
      · refine ⟨⟨hmode, lines, hlines, fun line hline => (h line hline).1⟩, ?_⟩
        rintro q k ⟨lines', hlines', line, hline, hinc⟩
        obtain rfl := Except.ok.inj (hlines.symm.trans hlines')
        exact (h line hline).2 q k hinc
      · rintro ⟨⟨-, lines', hlines', hgood⟩, hinc⟩ line hline
        obtain rfl := Except.ok.inj (hlines.symm.trans hlines')
        exact ⟨hgood line hline, fun q k h => hinc q k ⟨lines, hlines, line, hline, h⟩⟩
  · rw [if_neg hmode]
    constructor
    · rintro ⟨r, hr⟩
      cases hr
    · rintro ⟨⟨h, -⟩, -⟩
      exact absurd h hmode

end Step

/-! ## When a visit returns -/

theorem IncludesBy.pos {p line q : Str} {k : Nat} (h : IncludesBy view hostname p line q k) : 0 < k := by
  cases h <;> decide

theorem Includes.pos {p q : Str} {k : Nat} (h : Includes view hostname p q k) : 0 < k := by
  obtain ⟨-, -, line, -, h⟩ := h
  exact h.pos

/-- A tree can be visited if its root can be read and the trees below can be visited. -/
theorem clear_succ_iff (n : Nat) (stack : List Str) (p : Str) : Clear view hostname (n + 1) stack p ↔
    p ∉ stack ∧ FileGood view hostname p ∧ ∀ q k, Includes view hostname p q k →
      Clear view hostname (n + 1 - k) (p :: stack) q := by
  constructor
  · intro h
    obtain ⟨hgood, -, hstack, hcycle⟩ := h 0 p (.refl p)
    refine ⟨hstack, hgood, fun q k hinc d r hr => ?_⟩
    obtain ⟨hgood', hdepth, hstack', hcycle'⟩ := h (k + d) r (.step hinc hr)
    refine ⟨hgood', by omega, ?_, hcycle'⟩
    rintro (_ | ⟨_, hmem⟩)
    · have hzero := hcycle (k + d) (.step hinc hr)
      have hpos := hinc.pos
      omega
    · exact hstack' hmem
  · rintro ⟨hstack, hgood, hbelow⟩ d q hq
    cases hq with
    | refl =>
      refine ⟨hgood, Nat.succ_pos n, hstack, fun m hm => ?_⟩
      cases hm with
      | refl => rfl
      | step hinc hr => exact absurd List.mem_cons_self (hbelow _ _ hinc _ _ hr).2.2.1
    | @step q' _ _ k m hinc hr =>
      obtain ⟨hgood', hdepth, hstack', hcycle'⟩ := hbelow _ _ hinc _ _ hr
      exact ⟨hgood', by omega, fun hmem => hstack' (List.mem_cons_of_mem p hmem), hcycle'⟩

/-- **A visit returns exactly if the tree below can be read**, nests no deeper than the levels that are left, has no
cycle and does not come back to a file that is open. -/
theorem visitPath_ok_iff (n : Nat) (stack : List Str) (p : Str) (recorded : Bool) (st : State) :
    (∃ r, visitPath view hostname errorContext n stack p recorded st = .ok r) ↔ Clear view hostname n stack p := by
  induction n using Nat.strong_induction_on generalizing stack p recorded st with
  | _ n ih =>
    cases n with
    | zero =>
      constructor
      · rintro ⟨r, hr⟩
        cases hr
      · intro h
        exact absurd (h 0 p (.refl p)).2.1 (Nat.lt_irrefl 0)
    | succ n =>
      rw [visitPath_succ, clear_succ_iff]
      by_cases hmem : p ∈ stack
      · rw [if_pos hmem]
        constructor
        · rintro ⟨r, hr⟩
          cases hr
        · rintro ⟨hnot, -⟩
          exact absurd hmem hnot
      · rw [if_neg hmem]
        have hfile := @visitFile_ok_iff view hostname errorContext (visitPath view hostname errorContext n (p :: stack))
          (visitPath view hostname errorContext (n - 1) (p :: stack))
          (fun k q => Clear view hostname (n + 1 - k) (p :: stack) q)
          (fun q b st => ih n (by omega) (p :: stack) q b st)
          (fun q b st => ih (n - 1) (by omega) (p :: stack) q b st) p recorded st
        exact hfile.trans ⟨fun h => ⟨hmem, h⟩, fun h => h.2⟩

/-! ## What a visit adds -/

/-- From `st` to `r` the files with `Q` come in, each once. -/
structure AddsFiles (Q : Str → Prop) (st r : State) : Prop where
  mem : ∀ q, q ∈ r.files ↔ q ∈ st.files ∨ Q q
  nodup : st.files.Nodup → r.files.Nodup

theorem AddsFiles.refl {Q : Str → Prop} (h : ∀ q, ¬ Q q) {st r : State} (hfiles : r.files = st.files) :
    AddsFiles Q st r where
  mem q := by rw [hfiles]; exact ⟨.inl, fun h' => h'.elim id fun hq => absurd hq (h q)⟩
  nodup hnodup := by rwa [hfiles]

theorem AddsFiles.trans {Q Q' Q'' : Str → Prop} {st st' r : State} (h : AddsFiles Q st st') (h' : AddsFiles Q' st' r)
    (hQ : ∀ q, Q'' q ↔ Q q ∨ Q' q) : AddsFiles Q'' st r where
  mem q := by rw [h'.mem, h.mem, hQ, or_assoc]
  nodup hnodup := h'.nodup (h.nodup hnodup)

/-- From `st` to `r` the expansion of a part comes in. -/
def AddsLines (view : View) (hostname : Option Str) (part : Part) (st r : State) : Prop :=
  ∃ es, Expands activeLine view hostname part es ∧ r.lines = st.lines ++ es

/-- What a visit of a file adds: the files below, and its expansion. -/
def Adds (view : View) (hostname : Option Str) (p : Str) (st r : State) : Prop :=
  AddsFiles (fun q => ∃ d, Reaches view hostname p d q) st r ∧ AddsLines view hostname (.file p) st r

section Adds

variable {included member : Visit}

/-- Files one after the other. -/
theorem foldlM_adds {f : State → Str → Except LoadErr State} (hf : ∀ q st r, f st q = .ok r → Adds view hostname q st r)
    {files : List Str} {st r : State} (h : files.foldlM f st = .ok r) :
    AddsFiles (fun q => ∃ root ∈ files, ∃ d, Reaches view hostname root d q) st r ∧
      AddsLines view hostname (.files files) st r := by
  refine @foldlM_induction Str f (fun files st r =>
    AddsFiles (fun q => ∃ root ∈ files, ∃ d, Reaches view hostname root d q) st r ∧
      AddsLines view hostname (.files files) st r) (fun st => ?_) (fun p ps st st' r hstep ih => ?_) files st r h
  · exact ⟨.refl (by simp) rfl, [], .none, (List.append_nil _).symm⟩
  · obtain ⟨hfiles, es, hes, hlines⟩ := hf p st st' hstep
    obtain ⟨hfiles', es', hes', hlines'⟩ := ih
    refine ⟨hfiles.trans hfiles' fun q => ?_, es ++ es', .next hes hes', by rw [hlines', hlines, List.append_assoc]⟩
    simp only [List.mem_cons, exists_eq_or_imp]

theorem visitDirectory_adds (hmember : ∀ q b st r, member q b st = .ok r → Adds view hostname q st r) {dir : Str}
    {st r : State} (h : visitDirectory view errorContext member dir st = .ok r) :
    ∃ files, directoryFiles view dir = some files ∧
      AddsFiles (fun q => ∃ root ∈ files, ∃ d, Reaches view hostname root d q) st r ∧
      AddsLines view hostname (.files files) st r := by
  unfold visitDirectory at h
  dsimp only at h
  rcases listDirectoryFiles_eq view errorContext dir with ⟨files, hlist, hfiles⟩ | ⟨⟨e, hlist⟩, -⟩
  · rw [hlist] at h
    obtain ⟨hadds, es, hes, hlines⟩ := @foldlM_adds view hostname (fun st entry => member entry false
      { st with permissionPaths := recordUniquePath st.permissionPaths entry .file }) (fun q st r hq => by
        obtain ⟨⟨hmem, hnodup⟩, es, hes, hlines⟩ := hmember q false _ r hq
        exact ⟨⟨hmem, hnodup⟩, es, hes, hlines⟩) files _ r h
    exact ⟨files, hfiles, ⟨hadds.mem, hadds.nodup⟩, es, hes, hlines⟩
  · rw [hlist] at h
    cases h

/-- One line: the files below what it includes, and its part of the expansion. -/
theorem visitLine_adds (hincluded : ∀ q b st r, included q b st = .ok r → Adds view hostname q st r)
    (hmember : ∀ q b st r, member q b st = .ok r → Adds view hostname q st r) {path line : Str} {st r : State}
    (h : visitLine view hostname errorContext included member path st line = .ok r) :
    AddsFiles (fun q => ∃ q' k d, IncludesBy view hostname path line q' k ∧ Reaches view hostname q' d q) st r ∧
      ∃ es, r.lines = st.lines ++ es ∧ ∀ lines es', Expands activeLine view hostname (.lines path lines) es' →
        Expands activeLine view hostname (.lines path (line :: lines)) (es ++ es') := by
  rw [visitLine_eq] at h
  cases hdir : directive hostname path line with
  | none =>
    rw [hdir] at h
    obtain rfl := Except.ok.inj h
    refine ⟨.refl ?_ rfl, activeLine path line, rfl, fun lines es' hes' => .line hdir hes'⟩
    rintro q ⟨q', k, d, hinc, -⟩
    cases hinc with
    | file hline => cases hdir.symm.trans hline
    | member hline _ _ => cases hdir.symm.trans hline
  | some p =>
    obtain ⟨kind, resolved⟩ := p
    rw [hdir] at h
    cases resolved with
    | error err => cases h
    | ok target =>
      cases kind with
      | include_ =>
        obtain ⟨hfiles, es, hes, hlines⟩ := hincluded target true st r h
        refine ⟨⟨fun q => ?_, hfiles.nodup⟩, es, hlines, fun lines es' hes' => .included hdir hes hes'⟩
        rw [hfiles.mem]
        refine or_congr_right ⟨fun ⟨d, hd⟩ => ⟨target, 1, d, .file hdir, hd⟩, ?_⟩
        rintro ⟨q', k, d, hinc, hd⟩
        cases hinc with
        | file hline =>
          obtain rfl := Except.ok.inj (Prod.mk.inj (Option.some.inj (hdir.symm.trans hline))).2
          exact ⟨d, hd⟩
        | member hline _ _ => cases (Prod.mk.inj (Option.some.inj (hdir.symm.trans hline))).1
      | includedir =>
        obtain ⟨files, hlist, hfiles, es, hes, hlines⟩ := visitDirectory_adds hmember h
        refine ⟨⟨fun q => ?_, hfiles.nodup⟩, es, hlines, fun lines es' hes' => .directory hdir hlist hes hes'⟩
        rw [hfiles.mem]
        refine or_congr_right ⟨fun ⟨root, hroot, d, hd⟩ => ⟨root, 2, d, .member hdir hlist hroot, hd⟩, ?_⟩
        rintro ⟨q', k, d, hinc, hd⟩
        cases hinc with
        | file hline => cases (Prod.mk.inj (Option.some.inj (hdir.symm.trans hline))).1
        | member hline hlist' hq' =>
          obtain rfl := Except.ok.inj (Prod.mk.inj (Option.some.inj (hdir.symm.trans hline))).2
          obtain rfl := Option.some.inj (hlist.symm.trans hlist')
          exact ⟨q', hq', d, hd⟩

theorem visitLines_adds (hincluded : ∀ q b st r, included q b st = .ok r → Adds view hostname q st r)
    (hmember : ∀ q b st r, member q b st = .ok r → Adds view hostname q st r) {path : Str} {lines : List Str}
      {st r : State}
    (h : lines.foldlM (visitLine view hostname errorContext included member path) st = .ok r) :
    AddsFiles (fun q => ∃ line ∈ lines, ∃ q' k d, IncludesBy view hostname path line q' k ∧
      Reaches view hostname q' d q) st r ∧
      AddsLines view hostname (.lines path lines) st r := by
  refine @foldlM_induction Str (visitLine view hostname errorContext included member path) (fun lines st r =>
    AddsFiles (fun q => ∃ line ∈ lines, ∃ q' k d, IncludesBy view hostname path line q' k ∧
      Reaches view hostname q' d q) st r ∧
      AddsLines view hostname (.lines path lines) st r) (fun st => ?_)
      (fun line lines st st' r hstep ih => ?_) lines st r h
  · exact ⟨.refl (by simp) rfl, [], .done, (List.append_nil _).symm⟩
  · obtain ⟨hfiles, es, hlines, hexpand⟩ := visitLine_adds hincluded hmember hstep
    obtain ⟨hfiles', es', hes', hlines'⟩ := ih
    refine ⟨hfiles.trans hfiles' fun q => ?_, es ++ es',
      hexpand lines es' hes', by rw [hlines', hlines, List.append_assoc]⟩
    simp only [List.mem_cons, exists_eq_or_imp]

theorem nodup_appendUnique {l : List Str} (h : l.Nodup) (x : Str) : (appendUnique l x).Nodup := by
  unfold appendUnique
  split
  · exact h
  · next hx => exact List.nodup_append.mpr ⟨h, List.nodup_singleton x, by
      intro y hy z hz
      rw [List.mem_singleton.mp hz]
      exact fun heq => hx (heq ▸ hy)⟩

theorem visitFile_adds (hincluded : ∀ q b st r, included q b st = .ok r → Adds view hostname q st r)
    (hmember : ∀ q b st r, member q b st = .ok r → Adds view hostname q st r) {path : Str} {recorded : Bool}
      {st r : State}
    (h : visitFile view hostname errorContext included member path recorded st = .ok r) :
      Adds view hostname path st r := by
  unfold visitFile at h
  dsimp only at h
  split at h
  · cases hlines : view.lines path with
    | error e =>
      rw [hlines] at h
      cases h
    | ok lines =>
      rw [hlines] at h
      obtain ⟨hfiles, es, hes, hlines'⟩ := visitLines_adds hincluded hmember h
      refine ⟨⟨fun q => ?_, fun hnodup => hfiles.nodup (nodup_appendUnique hnodup path)⟩, es, .file hlines hes, hlines'⟩
      rw [hfiles.mem]
      change q ∈ appendUnique st.files path ∨ _ ↔ _
      rw [mem_appendUnique, or_assoc]
      refine or_congr_right ⟨?_, ?_⟩
      · rintro (rfl | ⟨line, hline, q', k, d, hinc, hd⟩)
        · exact ⟨0, .refl q⟩
        · exact ⟨k + d, .step ⟨lines, hlines, line, hline, hinc⟩ hd⟩
      · rintro ⟨d, hd⟩
        cases hd with
        | refl => exact .inl rfl
        | step hinc hr =>
          obtain ⟨lines', hlines'', line, hline, hinc⟩ := hinc
          obtain rfl := Except.ok.inj (hlines.symm.trans hlines'')
          exact .inr ⟨line, hline, _, _, _, hinc, hr⟩
  · cases h

/-- **What a visit adds.** -/
theorem visitPath_adds (n : Nat) (stack : List Str) (p : Str) (recorded : Bool) (st r : State)
    (h : visitPath view hostname errorContext n stack p recorded st = .ok r) : Adds view hostname p st r := by
  induction n using Nat.strong_induction_on generalizing stack p recorded st r with
  | _ n ih =>
    cases n with
    | zero => cases h
    | succ n =>
      rw [visitPath_succ] at h
      split at h
      · cases h
      · exact visitFile_adds (fun q b st r hq => ih n (by omega) _ q b st r hq)
          (fun q b st r hq => ih (n - 1) (by omega) _ q b st r hq) h

end Adds

/-! ## Loading -/

/-- A part has one expansion. -/
theorem Expands.unique {text : Str → Str → List ActiveLine} {part : Part} {es es' : List ActiveLine}
    (h : Expands text view hostname part es)
    (h' : Expands text view hostname part es') : es = es' := by
  induction h generalizing es' with
  | file hp _ ih =>
    cases h' with
    | file hp' hlines' =>
      obtain rfl := Except.ok.inj (hp.symm.trans hp')
      exact ih hlines'
  | done =>
    cases h' with
    | done => rfl
  | line hdir _ ih =>
    cases h' with
    | line _ hlines' => rw [ih hlines']
    | included hdir' _ _ => cases hdir.symm.trans hdir'
    | directory hdir' _ _ _ => cases hdir.symm.trans hdir'
  | included hdir _ _ ihfile ih =>
    cases h' with
    | line hdir' _ => cases hdir.symm.trans hdir'
    | included hdir' hfile' hlines' =>
      obtain rfl := Except.ok.inj (Prod.mk.inj (Option.some.inj (hdir.symm.trans hdir'))).2
      rw [ihfile hfile', ih hlines']
    | directory hdir' _ _ _ => cases (Prod.mk.inj (Option.some.inj (hdir.symm.trans hdir'))).1
  | directory hdir hlist _ _ ihfiles ih =>
    cases h' with
    | line hdir' _ => cases hdir.symm.trans hdir'
    | included hdir' _ _ => cases (Prod.mk.inj (Option.some.inj (hdir.symm.trans hdir'))).1
    | directory hdir' hlist' hfiles' hlines' =>
      obtain rfl := Except.ok.inj (Prod.mk.inj (Option.some.inj (hdir.symm.trans hdir'))).2
      obtain rfl := Option.some.inj (hlist.symm.trans hlist')
      rw [ihfiles hfiles', ih hlines']
  | none =>
    cases h' with
    | none => rfl
  | next _ _ ihfile ihfiles =>
    cases h' with
    | next hfile' hfiles' => rw [ihfile hfile', ihfiles hfiles']

/-- **The loader goes through the include tree.** It returns exactly if everything below the roots can be read, nests no
deeper than the limit and has no cycle of paths; then it has the paths below the roots, each once, and the expansion of
the roots with what it takes of a line. -/
theorem load_covers_tree (view : View) (hostname errorContext : Option Str) (maxDepth : Nat) (roots : List Str) :
    ((∃ st, load view hostname errorContext maxDepth roots = .ok st) ↔ Loadable view hostname maxDepth roots) ∧
    ∀ st, load view hostname errorContext maxDepth roots = .ok st →
      st.files.Nodup ∧ (∀ p, p ∈ st.files ↔ ∃ root ∈ roots, ∃ d, Reaches view hostname root d p) ∧
      ∀ es, Expands activeLine view hostname (.files roots) es ↔ es = st.lines := by
  constructor
  · unfold load
    refine (foldlM_ok_iff fun root _ st => visitPath_ok_iff maxDepth [] root true st).trans ?_
    refine forall₂_congr fun root _ => forall₃_congr fun d q _ => ?_
    simp
  · intro st h
    obtain ⟨hfiles, es, hes, hlines⟩ := foldlM_adds (fun q st r hq => visitPath_adds maxDepth [] q true st r hq) h
    rw [List.nil_append] at hlines
    refine ⟨hfiles.nodup List.nodup_nil, fun p => ?_, fun es' => ?_⟩
    · rw [hfiles.mem]
      simp
    · rw [hlines]
      exact ⟨fun hes' => hes'.unique hes, fun heq => heq ▸ hes⟩

end Sudoers
end Seharden
