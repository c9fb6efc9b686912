import Loongshield.Seharden.Tightening
import Mathlib.Data.List.TakeWhile

/-!
# Log files and symbolic links

`collect_regular_files` asks for the attributes with links followed, and so do `chmod` and `chown`. What the probe and
the enforcer do is compared with the files that are below the root without a link in between.

- `Below`: the paths below a root, with a condition on the paths that are gone through.
- `collect_regular_files` ends, and lists every regular file below the root, once for each of its paths.
- `StaysInside` holds iff links lead to no file that is changed, or that is listed a second time.
-/

namespace Seharden

open Lua

/-- The second path is below the first one, or is the same; every path in between, and the second one, is as `through`
says. -/
inductive Below (t : Tree) (through : Str → Prop) : Str → Str → Prop
  | refl (path : Str) : Below t through path path
  | child {path entry p : Str} {names : List Str} : t.view.mode path = some "directory".toList →
      t.view.names path = .ok names → entry ∈ sortedDirEntries names → through (path ++ "/" ++ entry) →
      Below t through (path ++ "/" ++ entry) p → Below t through path p

/-- A path that leads to a regular file. -/
def Tree.Regular (t : Tree) (path : Str) : Prop := t.view.mode path = some "file".toList

/-- A regular file that is below the root, links followed. -/
def Visited (t : Tree) (root path : Str) : Prop := Below t (fun _ => True) root path ∧ t.Regular path

/-- A regular file that is below the root without a link in between. -/
def InTree (t : Tree) (root path : Str) : Prop := Below t (fun p => t.link p = none) root path ∧ t.Regular path

/-- Every directory below the path can be listed. -/
def Enumerable (t : Tree) (root : Str) : Prop :=
  ∀ path, Below t (fun _ => True) root path → t.view.mode path = some "directory".toList →
    ∃ names, t.view.names path = .ok names

section Paths

variable {t : Tree} {through : Str → Prop}

theorem Below.weaken {path p : Str} (h : Below t through path p) : Below t (fun _ => True) path p := by
  induction h with
  | refl path => exact .refl path
  | child hdir hnames hentry _ _ ih => exact .child hdir hnames hentry trivial ih

theorem InTree.visited {root path : Str} (h : InTree t root path) : Visited t root path := ⟨h.1.weaken, h.2⟩

theorem Visited.inode {root path : Str} (h : Visited t root path) : ∃ i, t.inode path = some i := by
  have hmode : (t.inode path).map (fun i => (t.node i).type) = some "file".toList := h.2
  cases hi : t.inode path with
  | none =>
    rw [hi] at hmode
    cases hmode
  | some i => exact ⟨i, rfl⟩

/-- A path below another one is longer by whole names. -/
theorem Below.extends {path p : Str} (h : Below t through path p) :
    p = path ∨ ∃ rest, p = path ++ '/' :: rest := by
  induction h with
  | refl path => exact .inl rfl
  | @child path entry p names _ _ _ _ _ ih =>
    rcases ih with rfl | ⟨rest, rfl⟩
    · exact .inr ⟨entry, by simp⟩
    · exact .inr ⟨entry ++ '/' :: rest, by simp⟩

/-- What is below two entries of a directory is below one entry. -/
theorem Below.entry_unique {path e e' p : Str} (he : '/' ∉ e) (he' : '/' ∉ e')
    (h : Below t through (path ++ "/" ++ e) p)
    (h' : Below t through (path ++ "/" ++ e') p) : e = e' := by
  have hname : ∀ {e : Str}, '/' ∉ e → Below t through (path ++ "/" ++ e) p →
      e = (p.drop (path.length + 1)).takeWhile (· ≠ '/') := by
    intro e he h
    have hall : ∀ c ∈ e, decide (c ≠ '/') = true := fun c hc => decide_eq_true fun heq => he (heq ▸ hc)
    have hdrop : ∀ s : Str, (path ++ "/" ++ s).drop (path.length + 1) = s := by
      intro s
      rw [List.drop_append_of_le_length (by simp), List.drop_eq_nil_of_le (by simp), List.nil_append]
    rcases h.extends with rfl | ⟨rest, rfl⟩
    · rw [hdrop, List.takeWhile_eq_self_iff.mpr hall]
    · rw [show path ++ "/" ++ e ++ '/' :: rest = path ++ "/" ++ (e ++ '/' :: rest) by simp, hdrop,
        List.takeWhile_append_of_pos hall]
      simp
  rw [hname he h, hname he' h']

end Paths

/-! ## The walk -/

/-- What was found below a path: all directories can be listed, and the files are those that are regular, each path
once. -/
structure Collected (t : Tree) (path : Str) (found : List Str) : Prop where
  enumerable : Enumerable t path
  mem : ∀ p, p ∈ found ↔ Visited t path p
  nodup : t.Listing → found.Nodup

/-- A result of `collect_regular_files`: what was found is added to the list, or a directory cannot be listed. -/
def Collects (t : Tree) (path : Str) (out : List Str) : Except Str (List Str) → Prop
  | .ok files => ∃ found, files = out ++ found ∧ Collected t path found
  | .error _ => ¬ Enumerable t path

section Walk

variable {t : Tree}

/-- Nothing is below a path that is no directory. -/
theorem eq_of_below {through : Str → Prop} {path p : Str} (hdir : t.view.mode path ≠ some "directory".toList)
    (h : Below t through path p) : p = path := by
  cases h with
  | refl => rfl
  | child hmode _ _ _ _ => exact absurd hmode hdir

theorem enumerable_of_not_dir {path : Str} (hdir : t.view.mode path ≠ some "directory".toList) : Enumerable t path := by
  intro p hp hmode
  rw [eq_of_below hdir hp] at hmode
  exact absurd hmode hdir

theorem collected_file {path : Str} (h : t.Regular path) : Collected t path [path] where
  enumerable := enumerable_of_not_dir fun hdir => by
    rw [h] at hdir
    exact absurd hdir (by decide)
  mem p := by
    rw [List.mem_singleton]
    constructor
    · rintro rfl
      exact ⟨.refl p, h⟩
    · intro hp
      refine eq_of_below (fun hdir => ?_) hp.1
      rw [h] at hdir
      exact absurd hdir (by decide)
  nodup _ := List.nodup_singleton path

theorem collected_other {path : Str} (hfile : ¬ t.Regular path) (hdir : t.view.mode path ≠ some "directory".toList) :
    Collected t path [] where
  enumerable := enumerable_of_not_dir hdir
  mem p := by
    refine iff_of_false List.not_mem_nil fun hp => hfile ?_
    rw [← eq_of_below hdir hp.1]
    exact hp.2
  nodup _ := List.nodup_nil

/-- What was found below the entries of a directory. -/
structure CollectedIn (t : Tree) (path : Str) (entries found : List Str) : Prop where
  enumerable : ∀ e ∈ entries, Enumerable t (path ++ "/" ++ e)
  mem : ∀ p, p ∈ found ↔ ∃ e ∈ entries, Visited t (path ++ "/" ++ e) p
  nodup : t.Listing → entries.Nodup → (∀ e ∈ entries, '/' ∉ e) → found.Nodup

/-- The loop over the entries, where the call for each of them is known to collect. -/
theorem collectedIn_foldlM {path : Str} {walk : Str → List Str → Except Str (List Str)} : ∀ (entries out : List Str),
    (∀ e ∈ entries, ∀ out, Collects t (path ++ "/" ++ e) out (walk (path ++ "/" ++ e) out)) →
      match entries.foldlM (fun out entry => walk (path ++ "/" ++ entry) out) out with
      | .ok files => ∃ found, files = out ++ found ∧ CollectedIn t path entries found
      | .error _ => ∃ e ∈ entries, ¬ Enumerable t (path ++ "/" ++ e)
  | [], out, _ => ⟨[], (List.append_nil out).symm, by simp, by simp, fun _ _ _ => List.nodup_nil⟩
  | e :: entries, out, hwalk => by
    have hhead := hwalk e List.mem_cons_self out
    rw [List.foldlM_cons]
    cases hchild : walk (path ++ "/" ++ e) out with
    | error err =>
      rw [hchild] at hhead
      exact ⟨e, List.mem_cons_self, hhead⟩
    | ok out' =>
      rw [hchild] at hhead
      obtain ⟨found, rfl, hfound⟩ := hhead
      have htail := collectedIn_foldlM entries (out ++ found) fun e' he' => hwalk e' (List.mem_cons_of_mem e he')
      change (match entries.foldlM (fun out entry => walk (path ++ "/" ++ entry) out) (out ++ found) with
        | .ok files => ∃ found, files = out ++ found ∧ CollectedIn t path (e :: entries) found
        | .error _ => ∃ e' ∈ e :: entries, ¬ Enumerable t (path ++ "/" ++ e'))
      cases hrest : entries.foldlM (fun out entry => walk (path ++ "/" ++ entry) out) (out ++ found) with
      | error err =>
        rw [hrest] at htail
        obtain ⟨e', he', hnot⟩ := htail
        exact ⟨e', List.mem_cons_of_mem e he', hnot⟩
      | ok files =>
        rw [hrest] at htail
        obtain ⟨rest, rfl, hcollected⟩ := htail
        refine ⟨found ++ rest, List.append_assoc .., ?_, fun p => ?_, fun hlist hnodup hslash => ?_⟩
        · exact List.forall_mem_cons.mpr ⟨hfound.enumerable, hcollected.enumerable⟩
        · rw [List.mem_append, hfound.mem, hcollected.mem, List.exists_mem_cons_iff]
        · obtain ⟨hslash, hslashes⟩ := List.forall_mem_cons.mp hslash
          obtain ⟨hnew, hnodup⟩ := List.nodup_cons.mp hnodup
          refine List.nodup_append.mpr ⟨hfound.nodup hlist, hcollected.nodup hlist hnodup hslashes, ?_⟩
          rintro p hp p' hp' rfl
          -- the first name below the directory tells the entries apart
          obtain ⟨e', he', hvisited⟩ := (hcollected.mem p).mp hp'
          have heq := Below.entry_unique hslash (hslashes e' he') ((hfound.mem p).mp hp).1 hvisited.1
          exact hnew (heq ▸ he')

theorem sortedDirEntries_nodup {names : List Str} (h : names.Nodup) : (sortedDirEntries names).Nodup :=
  ((List.perm_insertionSort _ _).nodup_iff).mpr (h.filter _)

theorem mem_of_sortedDirEntries {names : List Str} {e : Str} (h : e ∈ sortedDirEntries names) : e ∈ names :=
  List.mem_of_mem_filter (mem_sortStrs.mp h)

/-- What was found below a directory is what was found below its entries. -/
theorem collected_dir {path : Str} {names found : List Str} (hdir : t.view.mode path = some "directory".toList)
    (hnames : t.view.names path = .ok names) (h : CollectedIn t path (sortedDirEntries names) found) :
    Collected t path found where
  enumerable := by
    intro p hp hmode
    cases hp with
    | refl => exact ⟨names, hnames⟩
    | child _ hnames' hentry _ hrest =>
      cases hnames.symm.trans hnames'
      exact h.enumerable _ hentry p hrest hmode
  mem p := by
    rw [h.mem]
    constructor
    · rintro ⟨e, he, hbelow, hfile⟩
      exact ⟨.child hdir hnames he trivial hbelow, hfile⟩
    · rintro ⟨hbelow, hfile⟩
      cases hbelow with
      | refl =>
        rw [Tree.Regular, hdir] at hfile
        exact absurd hfile (by decide)
      | child _ hnames' hentry _ hrest =>
        cases hnames.symm.trans hnames'
        exact ⟨_, hentry, hrest, hfile⟩
  nodup hlist := by
    obtain ⟨hnodup, hname⟩ := hlist.view hnames
    exact h.nodup hlist (sortedDirEntries_nodup hnodup) fun e he => (hname e (mem_of_sortedDirEntries he)).2

/-- **The walk collects**, if it is given enough fuel: below a path of `pathMax` characters there is nothing. -/
theorem collects_collectRegularFiles : ∀ (n : Nat) (path : Str) (out : List Str), pathMax ≤ path.length + n →
    Collects t path out (collectRegularFiles t.view n path out)
  | 0, path, out, h => by
    have hnone : t.view.mode path = none := by
      change (t.inode path).map _ = none
      rw [t.short path h]
      rfl
    exact ⟨[], (List.append_nil out).symm, collected_other (by simp [Tree.Regular, hnone]) (by simp [hnone])⟩
  | n + 1, path, out, h => by
    unfold collectRegularFiles
    cases hmode : t.view.mode path with
    | none => exact ⟨[], (List.append_nil out).symm, collected_other (by simp [Tree.Regular, hmode]) (by simp [hmode])⟩
    | some mode =>
      dsimp only
      by_cases hfile : mode = "file".toList
      · rw [if_pos hfile]
        exact ⟨[path], rfl, collected_file (by rw [Tree.Regular, hmode, hfile])⟩
      · rw [if_neg hfile]
        by_cases hdir : mode = "directory".toList
        · rw [if_pos hdir]
          have hmode' : t.view.mode path = some "directory".toList := by rw [hmode, hdir]
          cases hnames : t.view.names path with
          | error err =>
            intro henum
            obtain ⟨names, hok⟩ := henum path (.refl path) hmode'
            rw [hnames] at hok
            cases hok
          | ok names =>
            have hloop := @collectedIn_foldlM t path (collectRegularFiles t.view n) (sortedDirEntries names) out
              fun e _ out => collects_collectRegularFiles n _ out (by simp; omega)
            dsimp only
            cases hfold : (sortedDirEntries names).foldlM
                (fun out entry => collectRegularFiles t.view n (path ++ "/" ++ entry) out) out with
            | error err =>
              rw [hfold] at hloop
              obtain ⟨e, he, hnot⟩ := hloop
              exact fun henum => hnot fun p hp => henum p (.child hmode' hnames he trivial hp)
            | ok files =>
              rw [hfold] at hloop
              obtain ⟨found, hfiles, hcollected⟩ := hloop
              exact ⟨found, hfiles, collected_dir hmode' hnames hcollected⟩
        · rw [if_neg hdir]
          refine ⟨[], (List.append_nil out).symm, collected_other ?_ ?_⟩
          · rw [Tree.Regular, hmode]
            exact fun heq => hfile (Option.some.inj heq)
          · rw [hmode]
            exact fun heq => hdir (Option.some.inj heq)

/-- The walk ends: more fuel changes nothing. -/
theorem collectRegularFiles_ends : ∀ (n : Nat) (path : Str) (out : List Str), pathMax ≤ path.length + n →
    collectRegularFiles t.view (n + 1) path out = collectRegularFiles t.view n path out
  | 0, path, out, h => by
    have hnone : t.view.mode path = none := by
      change (t.inode path).map _ = none
      rw [t.short path h]
      rfl
    unfold collectRegularFiles
    rw [hnone]
  | n + 1, path, out, h => by
    have hentry : (fun (out : List Str) (entry : Str) =>
      collectRegularFiles t.view (n + 1) (path ++ "/" ++ entry) out) =
        fun out entry => collectRegularFiles t.view n (path ++ "/" ++ entry) out := by
      funext out entry
      exact collectRegularFiles_ends n _ out (by simp; omega)
    rw [collectRegularFiles, hentry]
    conv_rhs => rw [collectRegularFiles]

end Walk

/-! ## What is changed -/

section Changes

variable {faults : Faults} {shell : Shell} {t : Tree}

/-- The loop of the enforcer. -/
def fixLogfiles (faults : Faults) (shell : Shell) (details : List LogDetail) (t : Tree) : Tree :=
  details.foldl (fun t d => fixLogfile faults shell d t) t

theorem fixLogfile_inode (d : LogDetail) : (fixLogfile faults shell d t).inode = t.inode := by
  have hchown : ∀ t' : Tree, (chownLogfile faults shell d t').inode = t'.inode := by
    intro t'
    unfold chownLogfile
    split
    · exact Tree.update_inode
    · rfl
  unfold fixLogfile
  repeat' split
  all_goals simp only [hchown, chmodLogfile_inode]

/-- Nothing but the attributes changes. -/
theorem fixLogfile_node (d : LogDetail) (i : Nat) :
    (fixLogfile faults shell d t).node i =
      { t.node i with access := ((fixLogfile faults shell d t).node i).access } := by
  have hupdate : ∀ {t t' : Tree}, t'.node i = { t.node i with access := (t'.node i).access } → ∀ (path : Str)
      (f : Inode → Access), (t'.update path f).node i =
        { t.node i with access := ((t'.update path f).node i).access } := by
    intro t t' h path f
    obtain ⟨access, hnode⟩ := @Tree.update_node t' path f i
    rw [hnode, h]
  have hmode : (chmodLogfile faults d t).node i =
      { t.node i with access := ((chmodLogfile faults d t).node i).access } := by
    unfold chmodLogfile
    split
    · rfl
    · exact hupdate rfl _ _
  have hchown : ∀ t' : Tree, t'.node i = { t.node i with access := (t'.node i).access } →
      (chownLogfile faults shell d t').node i =
        { t.node i with access := ((chownLogfile faults shell d t').node i).access } := by
    intro t' h
    unfold chownLogfile
    split
    · exact hupdate h _ _
    · exact h
  unfold fixLogfile
  repeat' split
  · rfl
  · rfl
  · exact hchown t rfl
  · exact hmode
  · exact hchown _ hmode

/-- The attributes after the loop: what the details that lead to the inode make of them, one after the other. -/
theorem fixLogfiles_access (i : Nat) : ∀ (details : List LogDetail) (t : Tree),
    ((fixLogfiles faults shell details t).node i).access =
      (details.filter fun d => t.inode d.path = some i).foldl
        (fun a d => logfileRepaired faults shell d (t.node i).type a) (t.node i).access
  | [], _ => rfl
  | d :: details, t => by
    change ((fixLogfiles faults shell details (fixLogfile faults shell d t)).node i).access = _
    have htype : ((fixLogfile faults shell d t).node i).type = (t.node i).type := by rw [fixLogfile_node d i]
    rw [fixLogfiles_access i details, fixLogfile_inode, htype, fixLogfile_access, List.filter_cons]
    by_cases hi : t.inode d.path = some i
    · rw [if_pos hi, if_pos (decide_eq_true hi), List.foldl_cons]
    · rw [if_neg hi, if_neg (by simpa using hi)]

theorem fixLogfiles_node (i : Nat) : ∀ (details : List LogDetail) (t : Tree),
    (fixLogfiles faults shell details t).node i =
      { t.node i with access := ((fixLogfiles faults shell details t).node i).access }
  | [], _ => rfl
  | d :: details, t => by
    have hrest := fixLogfiles_node i details (fixLogfile faults shell d t)
    rw [fixLogfile_node d i] at hrest
    exact hrest

/-- The commands for a detail leave a file of some type as it is: they fail, or set what is there already and there is
no set-ID bit for `chown` to clear. -/
def LogDetail.LeftAlone (faults : Faults) (shell : Shell) (d : LogDetail) (type : Str) (a : Access) : Prop :=
  d.setsMode faults = false ∧ ∀ uid gid, d.setsIds faults shell = some (uid, gid) →
    (uid = -1 ∨ uid = a.uid) ∧ (gid = -1 ∨ gid = a.gid) ∧ modeAfterChown type a.mode = a.mode

theorem logfileRepaired_leftAlone {d : LogDetail} {type : Str} {a : Access} (h : d.LeftAlone faults shell type a) :
    logfileRepaired faults shell d type a = a := by
  unfold logfileRepaired
  rw [h.1]
  cases hids : d.setsIds faults shell with
  | none => rfl
  | some ids =>
    obtain ⟨huid, hgid, hmode⟩ := h.2 ids.1 ids.2 hids
    have hkeep : ∀ {id old : BitVec 32}, id = -1 ∨ id = old → (if id = -1 then old else id) = old := by
      intro id old h
      split
      · rfl
      · next hne => exact h.resolve_left hne
    change Access.mk (if ids.1 = -1 then a.uid else ids.1) (if ids.2 = -1 then a.gid else ids.2)
      (modeAfterChown type a.mode) = a
    rw [hkeep huid, hkeep hgid, hmode]

/-- A property that one element of a list brings about, and that every element keeps, holds after the list. -/
theorem foldl_reaches {α β : Type} {P : β → Prop} {f : β → α → β} : ∀ {l : List α} {x : α} (b : β), x ∈ l →
    (∀ b, P (f b x)) → (∀ y ∈ l, ∀ b, P b → P (f b y)) → P (l.foldl f b)
  | y :: l, x, b, hx, hset, hkeep => by
    obtain ⟨hkeepHead, hkeepTail⟩ := List.forall_mem_cons.mp hkeep
    rcases List.mem_cons.mp hx with rfl | hx
    · exact List.foldlRecOn l f (hset b) fun b hb y hy => hkeepTail y hy b hb
    · exact foldl_reaches (f b y) hx hset hkeepTail

theorem policyForPath_target (path : Str) :
    (policyForPath path).owners.head? = some "root".toList ∧
      (policyForPath path).groups.head? = some "root".toList := by
  constructor
  all_goals
    unfold policyForPath
    dsimp only
    repeat' split
    all_goals rfl

/-- No policy has set-ID bits. -/
theorem policyForPath_plain (path : Str) : (policyForPath path).maxMode &&& 0o6000 = 0#12 := by
  unfold policyForPath
  dsimp only
  repeat' split
  all_goals rfl

section Details

variable {passwd group : List (List Str)}

theorem accessDetail_path (path : Str) : (accessDetail faults t passwd group path).path = path := by
  unfold accessDetail
  split <;> rfl

theorem accessDetail_policy (path : Str) : (accessDetail faults t passwd group path).policy = policyForPath path := by
  unfold accessDetail
  split <;> rfl

/-- A mode that is set is not the mode that the file had. -/
theorem setsMode_ne {path : Str} {i : Nat} (hi : t.inode path = some i)
    (h : (accessDetail faults t passwd group path).setsMode faults = true) :
    (accessDetail faults t passwd group path).policy.maxMode ≠ (t.node i).access.mode := by
  intro heq
  rw [accessDetail_policy] at heq
  unfold LogDetail.setsMode at h
  unfold accessDetail Faults.fsStat Tree.stat at h
  rw [hi] at h
  cases hstat : faults.stat path with
  | some err => simp [hstat] at h
  | none =>
    simp only [hstat, Option.map_some, heq] at h
    simp [modeWithin_self] at h

/-- Nor does it have set-ID bits. -/
theorem setsMode_kept (type : Str) {path : Str} {i : Nat} (hi : t.inode path = some i)
    (h : (accessDetail faults t passwd group path).setsMode faults = true) :
    (accessDetail faults t passwd group path).policy.maxMode ≠ (t.node i).access.mode ∧
      modeAfterChown type (accessDetail faults t passwd group path).policy.maxMode =
        (accessDetail faults t passwd group path).policy.maxMode := by
  refine ⟨setsMode_ne hi h, modeAfterChown_of_plain type ?_⟩
  rw [accessDetail_policy]
  exact policyForPath_plain path

/-- A mode that `chown` leaves is the same after the ids are set. -/
theorem modeKept_of_kept {d : LogDetail} {type : Str} {mode : BitVec 12} (h : modeAfterChown type mode = mode) :
    d.modeKept faults shell type mode = mode := by
  unfold LogDetail.modeKept
  split
  · exact h
  · rfl

/-- All details give a file the same ids. -/
theorem setsIds_same {path path' : Str} {ids ids' : BitVec 32 × BitVec 32}
    (h : (accessDetail faults t passwd group path).setsIds faults shell = some ids)
    (h' : (accessDetail faults t passwd group path').setsIds faults shell = some ids') : ids = ids' := by
  have htarget : ∀ p, (accessDetail faults t passwd group p).target = ("root".toList, "root".toList) := by
    intro p
    unfold LogDetail.target
    rw [accessDetail_policy, List.headD_eq_head?_getD, List.headD_eq_head?_getD, (policyForPath_target p).1,
      (policyForPath_target p).2]
    rfl
  have hids : ∀ {p : Str} {ids : BitVec 32 × BitVec 32},
      (accessDetail faults t passwd group p).setsIds faults shell = some ids →
        shell.uidOf "root" = some ids.1 ∧ shell.gidOf "root" = some ids.2 := by
    intro p ids h
    unfold LogDetail.setsIds at h
    rw [htarget] at h
    split at h
    · cases h
    · split at h
      · next uid gid huid hgid =>
        cases h
        exact ⟨huid, hgid⟩
      · cases h
  obtain ⟨huid, hgid⟩ := hids h
  obtain ⟨huid', hgid'⟩ := hids h'
  exact Prod.ext (Option.some.inj (huid.symm.trans huid')) (Option.some.inj (hgid.symm.trans hgid'))

/-- **A file that is not left alone is changed**, whatever the other details that lead to it do. -/
theorem fixLogfiles_changes {paths : List Str} {path : Str} {i : Nat} (hi : t.inode path = some i)
    (hpath : path ∈ paths)
    (h : ¬ (accessDetail faults t passwd group path).LeftAlone faults shell (t.node i).type (t.node i).access) :
    ((fixLogfiles faults shell (paths.map (accessDetail faults t passwd group)) t).node i).access ≠
      (t.node i).access := by
  rw [fixLogfiles_access]
  generalize hdetails : (paths.map (accessDetail faults t passwd group)).filter
    (fun d => t.inode d.path = some i) = details
  have hmem : accessDetail faults t passwd group path ∈ details := by
    rw [← hdetails, List.mem_filter, accessDetail_path]
    exact ⟨List.mem_map_of_mem hpath, decide_eq_true hi⟩
  have hfrom : ∀ d ∈ details, ∃ p, t.inode p = some i ∧ d = accessDetail faults t passwd group p := by
    intro d hd
    rw [← hdetails, List.mem_filter] at hd
    obtain ⟨p, -, rfl⟩ := List.mem_map.mp hd.1
    rw [accessDetail_path] at hd
    exact ⟨p, of_decide_eq_true hd.2, rfl⟩
  generalize htype : (t.node i).type = type
  rw [htype] at h
  -- a mode that `chown` leaves and that is not the old one stays such a mode
  have hmodeKept : ∀ p, t.inode p = some i → ∀ a : Access,
      a.mode ≠ (t.node i).access.mode ∧ modeAfterChown type a.mode = a.mode →
      (logfileRepaired faults shell (accessDetail faults t passwd group p) type a).mode ≠ (t.node i).access.mode ∧
        modeAfterChown type (logfileRepaired faults shell (accessDetail faults t passwd group p) type a).mode =
          (logfileRepaired faults shell (accessDetail faults t passwd group p) type a).mode := by
    intro p hp a ⟨hne, hkept⟩
    rw [logfileRepaired_mode]
    by_cases hset : (accessDetail faults t passwd group p).setsMode faults = true
    · obtain ⟨hne, hkept⟩ := setsMode_kept type hp hset
      rw [if_pos hset, modeKept_of_kept hkept]
      exact ⟨hne, hkept⟩
    · rw [if_neg hset, modeKept_of_kept hkept]
      exact ⟨hne, hkept⟩
  cases hmode : (accessDetail faults t passwd group path).setsMode faults with
  | true =>
    refine fun heq => (foldl_reaches (P := fun a => a.mode ≠ (t.node i).access.mode ∧
      modeAfterChown type a.mode = a.mode)
      (t.node i).access hmem ?_ ?_).1 (congrArg Access.mode heq)
    · intro a
      obtain ⟨hne, hkept⟩ := setsMode_kept type hi hmode
      rw [logfileRepaired_mode, if_pos hmode, modeKept_of_kept hkept]
      exact ⟨hne, hkept⟩
    · intro d hd a ha
      obtain ⟨p, hp, rfl⟩ := hfrom d hd
      exact hmodeKept p hp a ha
  | false =>
    -- then the ids are set, and one of them is new or a bit is cleared
    obtain ⟨uid, gid, hids, hnew⟩ : ∃ uid gid,
        (accessDetail faults t passwd group path).setsIds faults shell = some (uid, gid) ∧
          ¬ ((uid = -1 ∨ uid = (t.node i).access.uid) ∧ (gid = -1 ∨ gid = (t.node i).access.gid) ∧
            modeAfterChown type (t.node i).access.mode = (t.node i).access.mode) := by
      by_contra hno
      exact h ⟨hmode, fun uid gid hids => by_contra fun hnew => hno ⟨uid, gid, hids, hnew⟩⟩
    rcases not_and_or.mp hnew with huid | hnew
    · obtain ⟨hne, hold⟩ := not_or.mp huid
      refine fun heq => foldl_reaches (P := fun a => a.uid = uid) (t.node i).access hmem ?_ ?_ |>.symm.trans
        (congrArg Access.uid heq) |> hold
      · intro a
        rw [(logfileRepaired_ids _ type a).1, hids]
        exact if_neg hne
      · intro d hd a ha
        obtain ⟨p, hp, rfl⟩ := hfrom d hd
        rw [(logfileRepaired_ids _ type a).1]
        cases hids' : (accessDetail faults t passwd group p).setsIds faults shell with
        | none => exact ha
        | some ids =>
          rw [← setsIds_same hids hids']
          exact if_neg hne
    rcases not_and_or.mp hnew with hgid | hbits
    · obtain ⟨hne, hold⟩ := not_or.mp hgid
      refine fun heq => foldl_reaches (P := fun a => a.gid = gid) (t.node i).access hmem ?_ ?_ |>.symm.trans
        (congrArg Access.gid heq) |> hold
      · intro a
        rw [(logfileRepaired_ids _ type a).2, hids]
        exact if_neg hne
      · intro d hd a ha
        obtain ⟨p, hp, rfl⟩ := hfrom d hd
        rw [(logfileRepaired_ids _ type a).2]
        cases hids' : (accessDetail faults t passwd group p).setsIds faults shell with
        | none => exact ha
        | some ids =>
          rw [← setsIds_same hids hids']
          exact if_neg hne
    · refine fun heq => (foldl_reaches
        (P := fun a => a.mode ≠ (t.node i).access.mode ∧ modeAfterChown type a.mode = a.mode)
        (t.node i).access hmem ?_ ?_).1 (congrArg Access.mode heq)
      · intro a
        have hcleared : (logfileRepaired faults shell (accessDetail faults t passwd group path) type a).mode =
            modeAfterChown type a.mode := by
          rw [logfileRepaired_mode, LogDetail.modeKept, hids, hmode]
          rfl
        rw [hcleared, modeAfterChown_idem]
        exact ⟨fun heq => hbits (heq ▸ modeAfterChown_idem type a.mode), rfl⟩
      · intro d hd a ha
        obtain ⟨p, hp, rfl⟩ := hfrom d hd
        exact hmodeKept p hp a ha

end Details

end Changes

/-! ## Probe and enforcer together -/

/-- `params.root_path or '/var/log'`. -/
def LogParams.root (params : LogParams) : Str := params.rootPath.getD "/var/log"

/-- The log-file fix stays inside the log tree: the walk ends; a file of the tree is listed once under each of its names
there, and not again through a link; what is changed is a file of the tree. -/
structure StaysInside (faults : Faults) (shell : Shell) (params : LogParams) (t : Tree) : Prop where
  ends : ∀ n, pathMax ≤ n →
    collectRegularFiles t.view n params.root [] = collectRegularFiles t.view pathMax params.root []
  listed : ∀ details, inspectLogfileAccess faults params t = .ok details → ∀ path, InTree t params.root path →
    (details.map LogDetail.path).count path = 1 ∧
      ∀ d ∈ details, t.inode d.path = t.inode path → InTree t params.root d.path
  changed : ∀ details, inspectLogfileAccess faults params t = .ok details → ∀ i,
    (fixLogfileAccess faults shell details t).2.node i ≠ t.node i →
      ∃ path, InTree t params.root path ∧ t.inode path = some i

/-- Links do no harm: if the accounts can be read and the directories listed, a regular file that is reached through a
link is none of the tree, and the commands leave it as it is. -/
def LinksHarmless (faults : Faults) (shell : Shell) (params : LogParams) (t : Tree) : Prop :=
  ∀ passwd group, readNameIndex t.view (params.passwdPath.getD "/etc/passwd") 7 = .ok passwd →
    readNameIndex t.view (params.groupPath.getD "/etc/group") 4 = .ok group → Enumerable t params.root →
    ∀ path i, Visited t params.root path → ¬ InTree t params.root path → t.inode path = some i →
      (∀ q, InTree t params.root q → t.inode q ≠ some i) ∧
        (accessDetail faults t passwd group path).LeftAlone faults shell (t.node i).type (t.node i).access

section Together

variable {faults : Faults} {shell : Shell} {params : LogParams} {t : Tree}

theorem collectRegularFiles_more (path : Str) (out : List Str) : ∀ k : Nat,
    collectRegularFiles t.view (pathMax + k) path out = collectRegularFiles t.view pathMax path out
  | 0 => rfl
  | k + 1 => by
    rw [← collectRegularFiles_more path out k]
    exact collectRegularFiles_ends (pathMax + k) path out (by omega)

/-- What the probe reports: the details of the files that the walk found, sorted. -/
theorem inspectLogfileAccess_ok {details : List LogDetail} : inspectLogfileAccess faults params t = .ok details ↔
    ∃ passwd group found, readNameIndex t.view (params.passwdPath.getD "/etc/passwd") 7 = .ok passwd ∧
      readNameIndex t.view (params.groupPath.getD "/etc/group") 4 = .ok group ∧
      collectRegularFiles t.view pathMax params.root [] = .ok found ∧
      details = (sortStrs found).map (accessDetail faults t passwd group) := by
  unfold inspectLogfileAccess
  change (readNameIndex t.view _ 7 >>= fun passwd => readNameIndex t.view _ 4 >>= fun group =>
    collectRegularFiles t.view pathMax params.root [] >>= fun files => _) = _ ↔ _
  cases hpasswd : readNameIndex t.view (params.passwdPath.getD "/etc/passwd") 7 with
  | error err =>
    refine iff_of_false (fun h => by cases h) ?_
    rintro ⟨_, _, _, h, _⟩
    cases h
  | ok passwd =>
    cases hgroup : readNameIndex t.view (params.groupPath.getD "/etc/group") 4 with
    | error err =>
      refine iff_of_false (fun h => by cases h) ?_
      rintro ⟨_, _, _, _, h, _⟩
      cases h
    | ok group =>
      cases hfound : collectRegularFiles t.view pathMax params.root [] with
      | error err =>
        refine iff_of_false (fun h => by cases h) ?_
        rintro ⟨_, _, _, _, _, h, _⟩
        cases h
      | ok found =>
        constructor
        · intro h
          cases h
          exact ⟨passwd, group, found, rfl, rfl, rfl, rfl⟩
        · rintro ⟨_, _, _, hp, hg, hf, rfl⟩
          cases hp
          cases hg
          cases hf
          rfl

theorem collected_of_ok {found : List Str} (h : collectRegularFiles t.view pathMax params.root [] = .ok found) :
    Collected t params.root found := by
  have hcollects := @collects_collectRegularFiles t pathMax params.root [] (by omega)
  rw [h] at hcollects
  obtain ⟨found', rfl, hcollected⟩ := hcollects
  exact hcollected

theorem exists_found (h : Enumerable t params.root) :
    ∃ found, collectRegularFiles t.view pathMax params.root [] = .ok found := by
  have hcollects := @collects_collectRegularFiles t pathMax params.root [] (by omega)
  cases hfound : collectRegularFiles t.view pathMax params.root [] with
  | error err =>
    rw [hfound] at hcollects
    exact absurd h hcollects
  | ok found => exact ⟨found, rfl⟩

theorem details_paths {passwd group : List (List Str)} (paths : List Str) :
    (paths.map (accessDetail faults t passwd group)).map LogDetail.path = paths := by
  rw [List.map_map]
  exact (List.map_congr_left fun p _ => accessDetail_path p).trans (List.map_id paths)

/-- A file of the tree is listed once. -/
theorem count_listed {passwd group : List (List Str)} {found : List Str} (hlist : t.Listing)
    (hfound : Collected t params.root found) {path : Str} (hpath : InTree t params.root path) :
    (((sortStrs found).map (accessDetail faults t passwd group)).map LogDetail.path).count path = 1 := by
  rw [details_paths]
  refine List.count_eq_one_of_mem ?_ (mem_sortStrs.mpr ((hfound.mem path).mpr hpath.visited))
  exact (List.perm_insertionSort _ _).nodup_iff.mpr (hfound.nodup hlist)

/-- A file that is changed is one that is not left alone at a listed path. -/
theorem exists_of_changed {passwd group : List (List Str)} {paths : List Str} {i : Nat}
    (h : (fixLogfiles faults shell (paths.map (accessDetail faults t passwd group)) t).node i ≠ t.node i) :
    ∃ path ∈ paths, t.inode path = some i ∧
      ¬ (accessDetail faults t passwd group path).LeftAlone faults shell (t.node i).type (t.node i).access := by
  by_contra hno
  refine h ?_
  rw [fixLogfiles_node, fixLogfiles_access]
  have hsame : ∀ details : List LogDetail,
      (∀ d ∈ details, d.LeftAlone faults shell (t.node i).type (t.node i).access) →
      details.foldl (fun a d => logfileRepaired faults shell d (t.node i).type a) (t.node i).access =
        (t.node i).access := by
    intro details hdetails
    refine List.foldlRecOn (motive := fun a => a = (t.node i).access) details _ rfl fun a ha d hd => ?_
    rw [ha]
    exact logfileRepaired_leftAlone (hdetails d hd)
  rw [hsame]
  intro d hd
  obtain ⟨hd, hi⟩ := List.mem_filter.mp hd
  obtain ⟨path, hpath, rfl⟩ := List.mem_map.mp hd
  rw [accessDetail_path] at hi
  exact by_contra fun hnot => hno ⟨path, hpath, of_decide_eq_true hi, hnot⟩

/-- **The fix of log files stays inside the log tree** iff links do no harm. -/
theorem stays_inside_iff (faults : Faults) (shell : Shell) (params : LogParams) (t : Tree) (hlist : t.Listing) :
    StaysInside faults shell params t ↔ LinksHarmless faults shell params t := by
  constructor
  · intro h passwd group hpasswd hgroup henum path i hvisited hout hi
    obtain ⟨found, hfound⟩ := exists_found henum
    have hdetails := (@inspectLogfileAccess_ok faults params t _).mpr ⟨passwd, group, found, hpasswd, hgroup, hfound,
      rfl⟩
    have hmem : path ∈ sortStrs found := mem_sortStrs.mpr (((collected_of_ok hfound).mem path).mpr hvisited)
    have hforeign : ∀ q, InTree t params.root q → t.inode q ≠ some i := by
      intro q hq hqi
      have hd := (h.listed _ hdetails q hq).2 _ (List.mem_map_of_mem hmem)
      rw [accessDetail_path] at hd
      exact hout (hd (hi.trans hqi.symm))
    refine ⟨hforeign, by_contra fun hnot => ?_⟩
    have hne := fixLogfiles_changes hi hmem hnot
    obtain ⟨q, hq, hqi⟩ := h.changed _ hdetails i fun heq => hne (congrArg Inode.access heq)
    exact hforeign q hq hqi
  · intro h
    refine ⟨fun n hn => ?_, fun details hdetails path hpath => ?_, fun details hdetails i hchanged => ?_⟩
    · obtain ⟨k, rfl⟩ := Nat.exists_eq_add_of_le hn
      exact collectRegularFiles_more params.root [] k
    · obtain ⟨passwd, group, found, hpasswd, hgroup, hfound, rfl⟩ := inspectLogfileAccess_ok.mp hdetails
      refine ⟨count_listed hlist (collected_of_ok hfound) hpath, fun d hd hsame => ?_⟩
      obtain ⟨p, hp, rfl⟩ := List.mem_map.mp hd
      rw [accessDetail_path] at hsame ⊢
      have hvisited := ((collected_of_ok hfound).mem p).mp (mem_sortStrs.mp hp)
      by_contra hout
      obtain ⟨i, hi⟩ := hvisited.inode
      exact (h passwd group hpasswd hgroup (collected_of_ok hfound).enumerable p i hvisited hout hi).1 path hpath
        (hsame.symm.trans hi)
    · obtain ⟨passwd, group, found, hpasswd, hgroup, hfound, rfl⟩ := inspectLogfileAccess_ok.mp hdetails
      obtain ⟨path, hpath, hi, hnot⟩ := exists_of_changed hchanged
      have hvisited := ((collected_of_ok hfound).mem path).mp (mem_sortStrs.mp hpath)
      refine ⟨path, ?_, hi⟩
      by_contra hout
      exact hnot (h passwd group hpasswd hgroup (collected_of_ok hfound).enumerable path i hvisited hout hi).2

end Together

/-- A machine without links. -/
theorem hostTree_inside : StaysInside noFaults rootShell ⟨none, none, none⟩ hostTree := by
  refine (stays_inside_iff _ _ _ _ hostTree_listing).mpr fun _ _ _ _ _ path i hvisited hout _ => absurd ?_ hout
  refine ⟨?_, hvisited.2⟩
  have hplain : ∀ {p q}, Below hostTree (fun _ => True) p q → Below hostTree (fun p => hostTree.link p = none) p q := by
    intro p q h
    induction h with
    | refl p => exact .refl p
    | child hdir hnames hentry _ _ ih => exact .child hdir hnames hentry rfl ih
  exact hplain hvisited.1

/-- A machine with a link to the accounts among the log files. -/
def linkedTree : Tree :=
  { Tree.ofTable [("/etc/passwd", 0), ("/etc/group", 1), ("/var/log", 2), ("/var/log/accounts", 0)]
      (fun i => match i with
        | 0 => plainFile ⟨0, 0, 0o644⟩ ["root:x:0:0:root:/root:/bin/bash"]
        | 1 => plainFile ⟨0, 0, 0o644⟩ ["root:x:0:"]
        | _ => rootDirectory ["accounts".toList])
      (by decide) with
    link := fun path => if path = "/var/log/accounts".toList then some 0 else none }

/-- The accounts are outside the tree of log files; afterwards only `root` can read them. -/
theorem accounts_closed : ¬ StaysInside noFaults rootShell ⟨none, none, none⟩ linkedTree := by
  intro h
  obtain ⟨details, hdetails, hmode⟩ : ∃ details,
      inspectLogfileAccess noFaults ⟨none, none, none⟩ linkedTree = .ok details ∧
        ((fixLogfileAccess noFaults rootShell details linkedTree).2.node 0).access.mode = 0o640 := by
    refine ⟨["/var/log/accounts".toList].map (accessDetail noFaults linkedTree
      (accountEntries 7 ["root:x:0:0:root:/root:/bin/bash"]) (accountEntries 4 ["root:x:0:"])), ?_, by decide +kernel⟩
    have hfiles : collectRegularFiles linkedTree.view pathMax "/var/log" [] = .ok ["/var/log/accounts".toList] := by
      decide +kernel
    exact inspectLogfileAccess_ok.mpr ⟨_, _, _, by decide +kernel, by decide +kernel, hfiles, rfl⟩
  obtain ⟨path, ⟨hbelow, hfile⟩, -⟩ := h.changed details hdetails 0 fun heq => by
    rw [heq] at hmode
    exact absurd hmode (by decide)
  cases hbelow with
  | refl =>
    unfold Tree.Regular at hfile
    exact absurd hfile (by decide)
  | child _ hnames hentry hlink _ =>
    cases hnames
    cases List.mem_singleton.mp hentry
    exact absurd hlink (by decide)

end Seharden
