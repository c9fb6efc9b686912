import Loongshield.Seharden.SshdConfig
import Mathlib.Data.Set.Finite.List

/-!
# What success of an access fixer means

The fixers of the boot loader and of the sshd configuration return `true` whatever became of the files. Whether the
probe passes afterwards is decided file by file. A file may have been discovered under several names.

- `repaired`: what a visit does to the attributes of a file, set-ID bits that `chown` clears included; `foldl_repaired`:
  what all visits do;
- `Repairable`: the names of a file at which it can be repaired leave it in the required state;
- `fixers_sound_iff`: success means that the audit passes exactly if every discovered file is repairable.
-/

namespace Seharden

open Lua

/-! ## Visits to a file -/

/-- The file belongs to `root:root`. -/
def Access.rooted (a : Access) : Bool := a.uid == 0 && a.gid == 0

/-- What is decided before a visit to a path: the attributes are looked at, `chown` works, `chmod` works; and the mode
that is set. -/
structure Visit where
  looks : Bool
  chownOk : Bool
  chmodOk : Bool
  expected : BitVec 12

/-- The mode of a file of some type where a visit does not set it: `chown` may have cleared bits. -/
def modeUnset (type : Str) (a : Access) : BitVec 12 := if a.rooted then a.mode else modeAfterChown type a.mode

/-- What a visit does to the attributes of a file of some type. -/
def repaired (type : Str) (v : Visit) (a : Access) : Access :=
  if v.looks && (a.rooted || v.chownOk) then
    { uid := 0, gid := 0, mode := if v.chmodOk then v.expected else modeUnset type a }
  else a

/-- The visits from the first one on after which the file belongs to `root:root`. -/
def effective (a : Access) (visits : List Visit) : List Visit :=
  if a.rooted then visits else visits.dropWhile fun v => !(v.looks && v.chownOk)

/-- The mode that the visits leave: that of the last effective one that sets it; if there is none, the mode the file
had, without the bits that the `chown` of an effective one cleared. -/
def modeAfter (type : Str) (a : Access) (visits : List Visit) : BitVec 12 :=
  (((effective a visits).filter fun v => v.looks && v.chmodOk).getLast?.map Visit.expected).getD
    (if effective a visits = [] then a.mode else modeUnset type a)

theorem eq_of_rooted {a : Access} (h : a.rooted = true) : a.uid = 0 ∧ a.gid = 0 := by
  simpa [Access.rooted] using h

theorem rooted_mk (mode : BitVec 12) : (Access.mk 0 0 mode).rooted = true := rfl

theorem modeUnset_mk (type : Str) (mode : BitVec 12) : modeUnset type ⟨0, 0, mode⟩ = mode := rfl

/-- What a visit with an effect leaves, in front of further ones. -/
theorem modeAfter_cons {type : Str} {v : Visit} {a : Access} (visits : List Visit)
    (h : (v.looks && (a.rooted || v.chownOk)) = true) :
    modeAfter type a (v :: visits) = modeAfter type (repaired type v a) visits := by
  have hlooks : v.looks = true := by simp_all
  have heffective : effective a (v :: visits) = v :: visits := by
    unfold effective
    cases ha : a.rooted with
    | true => rfl
    | false => simp_all
  have hrest : effective (repaired type v a) visits = visits := by
    rw [repaired, if_pos h, effective, rooted_mk, if_pos rfl]
  have hmode : (if visits = [] then (repaired type v a).mode else modeUnset type (repaired type v a)) =
      if v.chmodOk then v.expected else modeUnset type a := by
    rw [repaired, if_pos h, modeUnset_mk, ite_self]
  unfold modeAfter
  rw [heffective, hrest, hmode, if_neg (List.cons_ne_nil _ _), List.filter_cons, hlooks]
  cases v.chmodOk with
  | false => rfl
  | true =>
    -- the visit sets the mode unless a later one does
    change ((v :: visits.filter fun v => v.looks && v.chmodOk).getLast?.map Visit.expected).getD (modeUnset type a) = _
    rw [List.getLast?_cons]
    cases (visits.filter fun v => v.looks && v.chmodOk).getLast? with
    | none => rfl
    | some w => rfl

/-- A visit without effect, in front of further ones. -/
theorem effective_cons {type : Str} {v : Visit} {a : Access} (visits : List Visit)
    (h : (v.looks && (a.rooted || v.chownOk)) = false) :
    modeAfter type a (v :: visits) = modeAfter type a visits ∧
    (a.rooted = false → effective a (v :: visits) = effective a visits) := by
  unfold modeAfter modeUnset effective
  cases ha : a.rooted with
  | true =>
    have hlooks : v.looks = false := by simpa [ha] using h
    simp [hlooks]
  | false =>
    have hno : (!(v.looks && v.chownOk)) = true := by
      rw [ha, Bool.false_or] at h
      rw [h]
      rfl
    rw [if_neg Bool.false_ne_true, if_neg Bool.false_ne_true, List.dropWhile_cons, if_pos hno]
    exact ⟨rfl, fun _ => rfl⟩

/-- **What all visits do**: the file belongs to `root:root` if it did or an effective visit remains, and has the mode of
the last effective visit that sets it. -/
theorem foldl_repaired (type : Str) : ∀ (visits : List Visit) (a : Access),
    ((visits.foldl (fun a v => repaired type v a) a).rooted = true ↔ a.rooted = true ∨ effective a visits ≠ []) ∧
      (visits.foldl (fun a v => repaired type v a) a).mode = modeAfter type a visits
  | [], a => by
    constructor
    · simp [effective]
    · simp [modeAfter, effective]
  | v :: visits, a => by
    obtain ⟨ihowner, ihmode⟩ := foldl_repaired type visits (repaired type v a)
    rw [List.foldl_cons]
    by_cases h : (v.looks && (a.rooted || v.chownOk)) = true
    · have hrooted : (repaired type v a).rooted = true := by rw [repaired, if_pos h, rooted_mk]
      refine ⟨iff_of_true (ihowner.mpr (.inl hrooted)) ?_, by rw [ihmode, modeAfter_cons visits h]⟩
      cases ha : a.rooted with
      | true => exact .inl rfl
      | false =>
        refine .inr ?_
        have hyes : ¬(!(v.looks && v.chownOk)) = true := by
          rw [ha, Bool.false_or] at h
          rw [h]
          exact Bool.false_ne_true
        rw [effective, ha, if_neg Bool.false_ne_true, List.dropWhile_cons, if_neg hyes]
        exact List.cons_ne_nil _ _
    · have hsame : repaired type v a = a := by rw [repaired, if_neg h]
      have hcons := @effective_cons type v a visits (Bool.eq_false_iff.mpr h)
      rw [hsame] at ihowner ihmode ⊢
      refine ⟨ihowner.trans (or_congr_right' fun ha => ?_), ?_⟩
      · rw [hcons.2 (Bool.eq_false_iff.mpr ha)]
      · rw [ihmode, hcons.1]

/-! ## Runs over the discovered paths -/

/-- The paths lead where they did, and what is there has its type, names and lines. -/
structure SameShape (t t' : Tree) : Prop where
  inode : t'.inode = t.inode
  link : t'.link = t.link
  view : t'.view = t.view
  type : ∀ i, (t'.node i).type = (t.node i).type

theorem SameShape.refl (t : Tree) : SameShape t t := ⟨rfl, rfl, rfl, fun _ => rfl⟩

theorem SameShape.update {t t' : Tree} (h : SameShape t t') (path : Str) (f : Inode → Access) :
    SameShape t (t'.update path f) :=
  ⟨Tree.update_inode.trans h.inode, Tree.update_link.trans h.link, Tree.update_view.trans h.view,
    fun i => (Tree.update_type i).trans (h.type i)⟩

section Fixers

variable {faults : Faults} {t t' : Tree}

theorem SameShape.fixMode (h : SameShape t t') (path : Str) (attr : Access) (expectedMode : BitVec 12) :
    SameShape t (fixMode faults path attr expectedMode t') := by
  unfold Seharden.fixMode
  split
  · exact h
  · split
    · exact h
    · exact h.update path _

theorem SameShape.fixAccess (h : SameShape t t') (expectedMode : BitVec 12) (path : Str) :
    SameShape t (fixAccess faults expectedMode t' path) := by
  unfold Seharden.fixAccess
  split
  · exact h
  · split
    · split
      · exact h
      · exact (h.update path _).fixMode path _ expectedMode
    · exact h.fixMode path _ expectedMode

/-- The mode of the file at a path, after it was looked at: it was not set if it was right then. -/
theorem fixMode_access {path : Str} {attr : Access} {expectedMode : BitVec 12} {i : Nat} (hi : t.inode path = some i)
    (hmode : attr.mode = expectedMode → (t.node i).access.mode = expectedMode) (j : Nat) :
    ((fixMode faults path attr expectedMode t).node j).access =
      if j = i then
        { (t.node i).access with
          mode := if (faults.chmod path).isNone then expectedMode else (t.node i).access.mode }
      else (t.node j).access := by
  unfold fixMode
  by_cases hj : j = i
  · subst hj
    split
    next heq =>
      rw [if_pos rfl, hmode heq, ite_self, ← hmode heq]
    next =>
      cases hchmod : faults.chmod path with
      | some err => simp
      | none => simp [Tree.chmod, Tree.update_access, hi]
  · have hne : t.inode path ≠ some j := fun h => hj (Option.some.inj (h.symm.trans hi))
    split
    · simp
    · cases faults.chmod path with
      | some err => simp
      | none => simp [Tree.chmod, Tree.update_access, hne]

/-- The visit to a path, if its attributes are asked for. -/
def Faults.visit (faults : Faults) (expectedMode : BitVec 12) (path : Str) : Visit :=
  ⟨(faults.stat path).isNone, (faults.chown path).isNone, (faults.chmod path).isNone, expectedMode⟩

/-- **What a visit does** to the attributes of every file. -/
theorem fixAccess_access {expectedMode : BitVec 12} (hplain : expectedMode &&& 0o6000 = 0#12) (path : Str) (j : Nat) :
    ((fixAccess faults expectedMode t path).node j).access =
      if t.inode path = some j then repaired (t.node j).type (faults.visit expectedMode path) (t.node j).access
      else (t.node j).access := by
  unfold fixAccess Faults.fsStat
  cases hstat : faults.stat path with
  | some err => simp [repaired, Faults.visit, hstat]
  | none =>
    cases hi : t.inode path with
    | none => simp [Tree.stat, hi]
    | some i =>
      have hlook : t.stat path = some (t.node i).access := by rw [Tree.stat, hi]; rfl
      have hiff : (some i = some j) ↔ j = i := ⟨fun h => (Option.some.inj h).symm, fun h => h ▸ rfl⟩
      simp only [hlook, hiff]
      by_cases hroot : (t.node i).access.rooted = true
      · have hown := eq_of_rooted hroot
        have hcond : ¬(decide ((t.node i).access.uid ≠ 0) || decide ((t.node i).access.gid ≠ 0)) = true := by
          simp [hown.1, hown.2]
        rw [if_neg hcond, fixMode_access hi id j]
        by_cases hj : j = i
        · subst hj
          simp [repaired, modeUnset, Faults.visit, hstat, hroot, hown.1, hown.2]
        · rw [if_neg hj, if_neg hj]
      · have hcond : (decide ((t.node i).access.uid ≠ 0) || decide ((t.node i).access.gid ≠ 0)) = true := by
          by_contra hno
          exact hroot (by simpa [Access.rooted] using hno)
        rw [if_pos hcond]
        cases hchown : faults.chown path with
        | some err =>
          by_cases hj : j = i
          · subst hj
            simp [repaired, Faults.visit, hchown, Bool.eq_false_iff.mpr hroot]
          · rw [if_neg hj]
        | none =>
          have hi' : (t.chown path 0 0).inode path = some i := by rw [Tree.chown, Tree.update_inode, hi]
          have haccess : ((t.chown path 0 0).node i).access =
              ⟨0, 0, modeAfterChown (t.node i).type (t.node i).access.mode⟩ := by
            rw [Tree.chown, Tree.update_access, if_pos hi]
            rfl
          have hmode : (t.node i).access.mode = expectedMode →
              ((t.chown path 0 0).node i).access.mode = expectedMode := by
            rintro rfl
            rw [haccess]
            exact modeAfterChown_of_plain _ hplain
          rw [fixMode_access hi' hmode j]
          by_cases hj : j = i
          · subst hj
            rw [if_pos rfl, if_pos rfl, haccess]
            simp [repaired, modeUnset, Bool.eq_false_iff.mpr hroot, Faults.visit, hstat, hchown]
          · have hne : t.inode path ≠ some j := fun h => hj (Option.some.inj (h.symm.trans hi))
            rw [if_neg hj, if_neg hj, Tree.chown, Tree.update_access, if_neg hne]

/-- A fixer that visits a path leaves everything but the attributes of the file there. -/
structure Visits (fix : Tree → Str → Tree) (visit : Str → Visit) (t : Tree) : Prop where
  shape : ∀ t', SameShape t t' → ∀ path, SameShape t (fix t' path)
  access : ∀ t', SameShape t t' → ∀ path j, ((fix t' path).node j).access =
    if t.inode path = some j then repaired (t.node j).type (visit path) (t'.node j).access else (t'.node j).access

/-- The visits to a file: at those of the paths that lead to it. -/
def visitsTo (visit : Str → Visit) (t : Tree) (j : Nat) (paths : List Str) : List Visit :=
  (paths.filter fun path => t.inode path = some j).map visit

/-- What the loop over the paths does to a file. -/
theorem foldl_access {fix : Tree → Str → Tree} {visit : Str → Visit} (h : Visits fix visit t) :
    ∀ (paths : List Str) (t' : Tree), SameShape t t' →
      SameShape t (paths.foldl fix t') ∧ ∀ j, ((paths.foldl fix t').node j).access =
        (visitsTo visit t j paths).foldl (fun a v => repaired (t.node j).type v a) (t'.node j).access
  | [], t', hsame => ⟨hsame, fun _ => rfl⟩
  | path :: paths, t', hsame => by
    obtain ⟨hshape, hrun⟩ := foldl_access h paths (fix t' path) (h.shape t' hsame path)
    refine ⟨hshape, fun j => ?_⟩
    rw [List.foldl_cons, hrun j, h.access t' hsame path j, visitsTo, visitsTo, List.filter_cons]
    by_cases hj : t.inode path = some j
    · rw [if_pos hj, if_pos (decide_eq_true hj)]
      rfl
    · rw [if_neg hj, if_neg (by simpa using hj)]

/-- **A file that can be repaired**: an effective visit makes it `root:root` unless it is, and the mode that the visits
leave is within the expected one. -/
def Repairable (visit : Str → Visit) (t : Tree) (paths : List Str) (path : Str) : Prop :=
  ∀ j, t.inode path = some j →
    ((t.node j).access.rooted = true ∨ effective (t.node j).access (visitsTo visit t j paths) ≠ []) ∧
      modeWithin (modeAfter (t.node j).type (t.node j).access (visitsTo visit t j paths)) (visit path).expected = true

/-- After the loop the check of a path passes iff the file can be repaired. -/
theorem accessOk_foldl {fix : Tree → Str → Tree} {visit : Str → Visit} (h : Visits fix visit t) {paths : List Str}
    {path : Str} (hexists : t.inode path ≠ none) :
    accessOk (paths.foldl fix t) (visit path).expected path = true ↔ Repairable visit t paths path := by
  obtain ⟨i, hi⟩ := Option.ne_none_iff_exists'.mp hexists
  obtain ⟨hshape, hrun⟩ := foldl_access h paths t (.refl t)
  obtain ⟨howner, hmode⟩ := foldl_repaired (t.node i).type (visitsTo visit t i paths) (t.node i).access
  have hstat : (paths.foldl fix t).stat path =
      some ((visitsTo visit t i paths).foldl (fun a v => repaired (t.node i).type v a) (t.node i).access) := by
    rw [Tree.stat, hshape.inode, hi, ← hrun i]
    rfl
  unfold accessOk
  rw [hstat]
  dsimp only
  rw [Bool.and_eq_true, hmode]
  constructor
  · rintro ⟨hroot, hwithin⟩ j hj
    obtain rfl : i = j := Option.some.inj (hi.symm.trans hj)
    exact ⟨howner.mp hroot, hwithin⟩
  · intro hrep
    exact ⟨howner.mpr (hrep i hi).1, (hrep i hi).2⟩

end Fixers

/-! ## Discovery -/

/-- Every path that was collected leads somewhere. -/
theorem mem_collectBootloaderConfigPaths {view : View} : ∀ {n : Nat} {basePath : Str} {out paths : List Str},
    collectBootloaderConfigPaths view n basePath out = .ok paths → (∀ p ∈ out, view.mode p ≠ none) →
      ∀ p ∈ paths, view.mode p ≠ none
  | 0, _, _, _, h, hout => by
    cases h
    exact hout
  | n + 1, basePath, out, paths, h, hout => by
    unfold collectBootloaderConfigPaths at h
    cases hmode : view.mode basePath with
    | none =>
      rw [hmode] at h
      cases h
      exact hout
    | some mode =>
      rw [hmode] at h
      dsimp only at h
      split at h
      · split at h
        · cases h
          split
          · intro p hp
            rcases List.mem_append.mp hp with hp | hp
            · exact hout p hp
            · rw [List.mem_singleton.mp hp, hmode]
              exact Option.some_ne_none mode
          · exact hout
        · cases h
      · split at h
        · cases hnames : view.names basePath with
          | error err =>
            rw [hnames] at h
            cases h
          | ok names =>
            rw [hnames] at h
            have hfold : ∀ (entries out paths : List Str), (∀ p ∈ out, view.mode p ≠ none) →
                entries.foldlM (fun out entry => collectBootloaderConfigPaths view n (basePath ++ "/" ++ entry) out)
                out =
                  .ok paths → ∀ p ∈ paths, view.mode p ≠ none := by
              intro entries
              induction entries with
              | nil =>
                intro out paths hout h
                cases h
                exact hout
              | cons entry entries ih =>
                intro out paths hout h
                rw [List.foldlM_cons] at h
                cases hchild : collectBootloaderConfigPaths view n (basePath ++ "/" ++ entry) out with
                | error err =>
                  rw [hchild] at h
                  cases h
                | ok out' =>
                  rw [hchild] at h
                  exact ih out' paths (mem_collectBootloaderConfigPaths hchild hout) h
            exact hfold _ out paths hout h
        · cases h
          exact hout

/-- The probe discovers what the enforcer discovered. -/
theorem probeBootloaderConfigPaths_eq {view : View} : ∀ {n : Nat} {basePath : Str} {out paths : List Str},
    collectBootloaderConfigPaths view n basePath out = .ok paths →
      probeBootloaderConfigPaths view n basePath out = .ok paths
  | 0, _, _, _, h => by
    cases h
    rfl
  | n + 1, basePath, out, paths, h => by
    unfold collectBootloaderConfigPaths at h
    unfold probeBootloaderConfigPaths
    cases hmode : view.mode basePath with
    | none =>
      rw [hmode] at h
      exact h
    | some mode =>
      rw [hmode] at h
      dsimp only at h ⊢
      split at h
      next hfile =>
        rw [if_pos hfile]
        split at h
        next name hname =>
          rw [hname]
          exact h
        · cases h
      next hfile =>
        rw [if_neg hfile]
        split at h
        next hdir =>
          rw [if_pos hdir]
          cases hnames : view.names basePath with
          | error err =>
            rw [hnames] at h
            cases h
          | ok names =>
            rw [hnames] at h
            have hfold : ∀ (entries out paths : List Str),
                entries.foldlM (fun out entry => collectBootloaderConfigPaths view n (basePath ++ "/" ++ entry) out)
                out =
                  .ok paths →
                entries.foldlM (fun out entry => probeBootloaderConfigPaths view n (basePath ++ "/" ++ entry) out) out =
                  .ok paths := by
              intro entries
              induction entries with
              | nil => exact fun out paths h => h
              | cons entry entries ih =>
                intro out paths h
                rw [List.foldlM_cons] at h ⊢
                cases hchild : collectBootloaderConfigPaths view n (basePath ++ "/" ++ entry) out with
                | error err =>
                  rw [hchild] at h
                  cases h
                | ok out' =>
                  rw [hchild] at h
                  rw [probeBootloaderConfigPaths_eq hchild]
                  exact ih out' paths h
            exact hfold _ out paths h
        next hdir =>
          rw [if_neg hdir]
          exact h

/-- The walk ends: below a path of `pathMax` characters there is nothing. -/
theorem collectBootloaderConfigPaths_ends (t : Tree) : ∀ (n : Nat) (basePath : Str) (out : List Str),
    pathMax ≤ basePath.length + n →
      collectBootloaderConfigPaths t.view (n + 1) basePath out = collectBootloaderConfigPaths t.view n basePath out
  | 0, basePath, out, h => by
    have hnone : t.view.mode basePath = none := by
      change (t.inode basePath).map _ = none
      rw [t.short basePath h]
      rfl
    unfold collectBootloaderConfigPaths
    rw [hnone]
  | n + 1, basePath, out, h => by
    have hentry : (fun (out : List Str) (entry : Str) =>
        collectBootloaderConfigPaths t.view (n + 1) (basePath ++ "/" ++ entry) out) =
        fun out entry => collectBootloaderConfigPaths t.view n (basePath ++ "/" ++ entry) out := by
      funext out entry
      refine collectBootloaderConfigPaths_ends t n _ out ?_
      rw [List.length_append, List.length_append]
      have hslash : "/".toList.length = 1 := rfl
      omega
    rw [collectBootloaderConfigPaths, hentry]
    conv_rhs => rw [collectBootloaderConfigPaths]

theorem mem_appendPath {list : List Str} {path p : Str} (h : p ∈ appendPath list path) : p ∈ list ∨ p = path := by
  unfold appendPath at h
  split at h
  · exact .inl h
  · exact mem_appendUnique.mp h

theorem mem_foldl_appendPath : ∀ {paths list : List Str} {p : Str}, p ∈ paths.foldl appendPath list → p ∈ list ∨
    p ∈ paths
  | [], _, _, h => .inl h
  | path :: paths, list, p, h => by
    rcases @mem_foldl_appendPath paths (appendPath list path) p h with h | h
    · rcases mem_appendPath h with h | rfl
      · exact .inl h
      · exact .inr List.mem_cons_self
    · exact .inr (List.mem_cons_of_mem path h)

/-- The queue grows, and has no path twice. -/
theorem foldl_appendPath_grows : ∀ {paths queue : List Str}, queue.Nodup →
    (paths.foldl appendPath queue).Nodup ∧ queue.length ≤ (paths.foldl appendPath queue).length
  | [], _, h => ⟨h, Nat.le_refl _⟩
  | path :: paths, queue, h => by
    have hstep : (appendPath queue path).Nodup ∧ queue.length ≤ (appendPath queue path).length := by
      unfold appendPath appendUnique
      split
      · exact ⟨h, Nat.le_refl _⟩
      · split
        · exact ⟨h, Nat.le_refl _⟩
        next hnew => exact ⟨List.nodup_append.mpr ⟨h, by
          simp, by simpa using fun p hp => ne_of_mem_of_not_mem hp hnew⟩, by simp⟩
    obtain ⟨hnodup, hle⟩ := @foldl_appendPath_grows paths (appendPath queue path) hstep.1
    exact ⟨hnodup, Nat.le_trans hstep.2 hle⟩

/-- What an include names are files. -/
theorem mem_expandIncludeSpec {view : View} {spec baseDir : Str} {paths : List Str}
    (h : expandIncludeSpec view spec baseDir = .ok paths) : ∀ p ∈ paths, pathExistsAsFile view p = true := by
  have hkept : ∀ candidates : List Str, ∀ p ∈ sortStrs (candidates.filter (pathExistsAsFile view)),
      pathExistsAsFile view p = true := fun candidates p hp => (List.mem_filter.mp (mem_sortStrs.mp hp)).2
  unfold expandIncludeSpec at h
  dsimp only at h
  split at h
  · cases hglob : expandIncludeGlob view (normalizeIncludePath spec baseDir) with
    | error err =>
      rw [hglob] at h
      cases h
    | ok candidates =>
      rw [hglob] at h
      cases h
      exact hkept candidates
  · cases h
    exact hkept _

theorem mem_expandIncludeSpecs {view : View} {baseDir : Str} : ∀ {specs paths : List Str},
    expandIncludeSpecs view baseDir specs = .ok paths → ∀ p ∈ paths, pathExistsAsFile view p = true
  | [], _, h => by
    cases h
    exact fun p hp => absurd hp List.not_mem_nil
  | spec :: specs, paths, h => by
    unfold expandIncludeSpecs at h
    cases hspec : expandIncludeSpec view spec baseDir with
    | error err =>
      rw [hspec] at h
      cases h
    | ok first =>
      cases hrest : expandIncludeSpecs view baseDir specs with
      | error err =>
        rw [hspec, hrest] at h
        cases h
      | ok rest =>
        rw [hspec, hrest] at h
        cases h
        intro p hp
        rcases List.mem_append.mp hp with hp | hp
        · exact mem_expandIncludeSpec hspec p hp
        · exact mem_expandIncludeSpecs hrest p hp

theorem mem_discoverIncludeFiles {view : View} {path baseDir : Str} {paths : List Str}
    (h : discoverIncludeFiles view path baseDir = .ok paths) : ∀ p ∈ paths, pathExistsAsFile view p = true := by
  unfold discoverIncludeFiles at h
  split at h
  · cases h
    exact fun p hp => absurd hp List.not_mem_nil
  · exact mem_expandIncludeSpecs h

/-- What was discovered are files. -/
theorem mem_discoverLoop {view : View} {baseDir : Str} : ∀ {fuel index : Nat} {queue files found : List Str},
    discoverLoop view baseDir fuel index queue files = .ok (some found) →
      (∀ p ∈ files, pathExistsAsFile view p = true) → ∀ p ∈ found, pathExistsAsFile view p = true
  | 0, _, _, _, _, h, _ => by cases h
  | fuel + 1, index, queue, files, found, h, hfiles => by
    unfold discoverLoop at h
    split at h
    · cases h
      exact hfiles
    next path _ =>
      split at h
      next hpath =>
        cases hincludes : discoverIncludeFiles view path baseDir with
        | error err =>
          rw [hincludes] at h
          cases h
        | ok includes =>
          rw [hincludes] at h
          refine mem_discoverLoop h fun p hp => ?_
          rcases mem_appendPath hp with hp | rfl
          · exact hfiles p hp
          · exact hpath
      · exact mem_discoverLoop h hfiles

/-- The loop ends if all files and all of the queue are among finitely many paths. -/
theorem discoverLoop_ends {view : View} {baseDir : Str} {S : Finset Str} (hS : ∀ p, pathExistsAsFile view p = true →
    p ∈ S) :
    ∀ {fuel index : Nat} {queue files : List Str}, queue.Nodup → (∀ p ∈ queue, p ∈ S) → index ≤ queue.length →
      S.card < fuel + index → discoverLoop view baseDir fuel index queue files ≠ .ok none
  | 0, index, queue, files, hnodup, hqueue, hindex, hfuel => by
    have hcard : queue.length ≤ S.card := by
      rw [← List.toFinset_card_of_nodup hnodup]
      exact Finset.card_le_card fun p hp => hqueue p (List.mem_toFinset.mp hp)
    omega
  | fuel + 1, index, queue, files, hnodup, hqueue, hindex, hfuel => by
    unfold discoverLoop
    split
    · exact fun h => nomatch h
    next path hpath =>
      have hlt : index < queue.length := (List.getElem?_eq_some_iff.mp hpath).1
      split
      · cases hincludes : discoverIncludeFiles view path baseDir with
        | error err => exact fun h => nomatch h
        | ok includes =>
          obtain ⟨hnodup', hle⟩ := @foldl_appendPath_grows includes queue hnodup
          refine discoverLoop_ends hS hnodup' (fun p hp => ?_) (by omega) (by omega)
          rcases mem_foldl_appendPath hp with hp | hp
          · exact hqueue p hp
          · exact hS p (mem_discoverIncludeFiles hincludes p hp)
      · exact discoverLoop_ends hS hnodup hqueue (by omega) (by omega)

instance finite_char : Finite Char :=
  .of_injective (fun c : Char => c.val.toBitVec.toFin) fun a b h => by
    have hval : a.val = b.val := UInt32.toBitVec_inj.mp (BitVec.toFin_inj.mp h)
    exact Char.ext hval

/-- **The discovery ends.** -/
theorem discover_ends (t : Tree) (params : SshdParams) : ∃ n, ∀ fuel ≥ n, discover t.view fuel params ≠ .ok none := by
  unfold discover
  cases hqueue : discoverQueue t.view params with
  | error err => exact ⟨0, fun _ _ h => nomatch h⟩
  | ok queue =>
    have hfinite := (List.finite_length_lt Char pathMax).union queue.toFinset.finite_toSet
    have hnodup : queue.Nodup := by
      unfold discoverQueue at hqueue
      dsimp only at hqueue
      cases hdrop : expandIncludeSpec t.view (params.includeDir.getD "/etc/ssh/sshd_config.d" ++ "/*.conf")
        (params.baseDir.getD "/etc/ssh") with
      | error err =>
        rw [hdrop] at hqueue
        cases hqueue
      | ok dropIns =>
        rw [hdrop] at hqueue
        cases hqueue
        refine (foldl_appendPath_grows ?_).1
        exact (@foldl_appendPath_grows [params.path.getD "/etc/ssh/sshd_config"] [] List.nodup_nil).1
    refine ⟨hfinite.toFinset.card + 1, fun fuel hfuel => ?_⟩
    refine discoverLoop_ends (S := hfinite.toFinset) (fun p hp => ?_) hnodup (fun p hp => ?_) (Nat.zero_le _) (by omega)
    · rw [Set.Finite.mem_toFinset]
      refine .inl (Nat.lt_of_not_le fun hlong => ?_)
      have hnone : t.view.mode p = none := by
        change (t.inode p).map _ = none
        rw [t.short p hlong]
        rfl
      rw [pathExistsAsFile, hnone] at hp
      exact Bool.false_ne_true hp
    · rw [Set.Finite.mem_toFinset]
      exact .inr (List.mem_toFinset.mpr hp)

/-! ## Success and the audit -/

/-- Success of a fixer means that the audit passes: if it returned `true`, the probe reports that all is configured and
has discovered the same files; if a discovered file is not as required, it returned an error. -/
structure AccessSound (ret : Ret) (discovered : List Str) (ok : Str → Bool) (report : Option AccessReport) : Prop where
  passes : ret = .ok () → ∃ r, report = some r ∧ r.allConfigured = true ∧ ∀ p, p ∈ r.paths ↔ p ∈ discovered
  fails : (∃ p ∈ discovered, ok p = false) → ∃ err, ret = .error err

theorem allConfigured_iff {ok : Str → Bool} {paths : List Str} (hne : paths ≠ []) :
    (accessReport ok (sortStrs paths)).allConfigured = true ↔ ∀ p ∈ paths, ok p = true := by
  have hne' : sortStrs paths ≠ [] := by
    obtain ⟨p, hp⟩ := List.exists_mem_of_ne_nil paths hne
    exact List.ne_nil_of_mem (mem_sortStrs.mpr hp)
  have hcount : ((sortStrs paths).filter fun p => !ok p).length = 0 ↔ ∀ p ∈ paths, ok p = true := by
    rw [List.length_eq_zero_iff, List.filter_eq_nil_iff]
    simp only [mem_sortStrs, Bool.not_eq_true', Bool.not_eq_false]
  change (decide (sortStrs paths ≠ []) && (((sortStrs paths).filter fun p => !ok p).length == 0)) = true ↔ _
  rw [Bool.and_eq_true, decide_eq_true_iff, beq_iff_eq, hcount]
  exact ⟨And.right, fun h => ⟨hne', h⟩⟩

/-- A fixer that returns `true` anyway is sound iff every file is as required. -/
theorem accessSound_iff {ok : Str → Bool} {paths : List Str} (hne : paths ≠ []) :
    AccessSound (.ok ()) paths ok (some (accessReport ok (sortStrs paths))) ↔ ∀ p ∈ paths, ok p = true := by
  constructor
  · intro h
    obtain ⟨r, hr, hall, -⟩ := h.passes rfl
    obtain rfl := Option.some.inj hr
    exact (allConfigured_iff hne).mp hall
  · intro h
    refine ⟨fun _ => ⟨_, rfl, (allConfigured_iff hne).mpr h, fun p => mem_sortStrs⟩, ?_⟩
    rintro ⟨p, hp, hbad⟩
    rw [h p hp] at hbad
    cases hbad

/-- The modes that are set have no set-ID bits. -/
theorem bootloaderExpectedMode_plain (path : Str) : bootloaderExpectedMode path &&& 0o6000 = 0#12 := by
  unfold bootloaderExpectedMode
  split
  · decide
  · decide

/-- The visits of the fixer for the boot loader: not to links. -/
def bootloaderVisit (faults : Faults) (t : Tree) (path : Str) : Visit :=
  let v := faults.visit (bootloaderExpectedMode path) path
  { v with looks := (t.link path).isNone && v.looks }

theorem visits_bootloader (faults : Faults) (t : Tree) :
    Visits (fixBootloaderPath faults) (bootloaderVisit faults t) t where
  shape t' hsame path := by
    unfold fixBootloaderPath
    split
    · exact hsame
    · exact hsame.fixAccess _ path
  access t' hsame path j := by
    unfold fixBootloaderPath
    rw [hsame.link]
    cases hlink : t.link path with
    | some dev => simp [bootloaderVisit, repaired, hlink]
    | none =>
      rw [if_neg (by simp), fixAccess_access (bootloaderExpectedMode_plain path), hsame.inode, hsame.type]
      simp [bootloaderVisit, hlink]

/-- The visits of the fixer for sshd: to links, too, if their targets can be queried. -/
def sshdVisit (faults : Faults) (t : Tree) (path : Str) : Visit :=
  let v := faults.visit sshdExpectedMode path
  { v with looks := !((t.link path).isSome && (faults.followed path).isSome) && v.looks }

theorem visits_sshd (faults : Faults) (t : Tree) : Visits (fixSshdPath faults) (sshdVisit faults t) t where
  shape t' hsame path := by
    unfold fixSshdPath
    split
    · exact hsame
    · exact hsame.fixAccess _ path
  access t' hsame path j := by
    have hplain : sshdExpectedMode &&& 0o6000 = 0#12 := by decide
    have haccess := @fixAccess_access faults t' sshdExpectedMode hplain path j
    rw [hsame.inode, hsame.type] at haccess
    unfold fixSshdPath
    rw [hsame.link]
    cases hi : t.inode path with
    | none =>
      have hno : ¬(none = some j) := fun h => nomatch h
      rw [hi, if_neg hno] at haccess
      rw [@if_neg (none = some j) _ hno]
      split
      · rfl
      · exact haccess
    | some i =>
      have hstat : (t'.stat path).isNone = false := by
        rw [Tree.stat, hsame.inode, hi]
        rfl
      rw [hstat, Bool.or_false]
      rw [hi] at haccess
      cases hskip : (t.link path).isSome && (faults.followed path).isSome with
      | true => simp [sshdVisit, repaired, hskip]
      | false =>
        rw [if_neg Bool.false_ne_true, haccess]
        simp [sshdVisit, hskip]

/-- **Success of an access fixer means that the audit passes** exactly if every discovered file can be repaired. -/
theorem fixers_sound_iff (faults : Faults) (t : Tree) :
    (∀ (params : BootloaderParams) (paths : List Str) (ret : Ret) (t' : Tree),
      fixBootloaderConfig faults params t = .ok (paths, ret, t') → paths ≠ [] →
        (AccessSound ret paths (bootloaderAccessOk t') (inspectBootloaderConfigAccess params t').toOption ↔
          ∀ p ∈ paths, Repairable (bootloaderVisit faults t) t paths p)) ∧
    (∀ (fuel : Nat) (params : SshdParams) (files : List Str) (ret : Ret) (t' : Tree),
      fixSshdConfigAccess faults fuel params t = .ok (some (files, ret, t')) → files ≠ [] →
        (AccessSound ret files (configFileAccessOk t') (inspectConfigFileAccess fuel params t').toOption.join ↔
          ∀ p ∈ files, Repairable (sshdVisit faults t) t files p)) := by
  constructor
  · intro params paths ret t' h hne
    unfold fixBootloaderConfig at h
    cases hpaths : collectBootloaderConfigPaths t.view pathMax params.base [] with
    | error err =>
      rw [hpaths] at h
      cases h
    | ok found =>
      rw [hpaths] at h
      cases h
      have hvisits := visits_bootloader faults t
      have hview := (foldl_access hvisits paths t (.refl t)).1.view
      have hexist : ∀ p ∈ paths, t.inode p ≠ none := by
        intro p hp hnone
        refine mem_collectBootloaderConfigPaths hpaths (fun _ h => absurd h List.not_mem_nil) p hp ?_
        change (t.inode p).map _ = none
        rw [hnone]
        rfl
      have hreport : (inspectBootloaderConfigAccess params (paths.foldl (fixBootloaderPath faults) t)).toOption =
          some (accessReport (bootloaderAccessOk (paths.foldl (fixBootloaderPath faults) t)) (sortStrs paths)) := by
        unfold inspectBootloaderConfigAccess
        rw [hview, probeBootloaderConfigPaths_eq hpaths]
        rfl
      rw [hreport, accessSound_iff hne]
      exact forall₂_congr fun p hp => accessOk_foldl hvisits (hexist p hp)
  · intro fuel params files ret t' h hne
    unfold fixSshdConfigAccess at h
    cases hfiles : discover t.view fuel params with
    | error err =>
      rw [hfiles] at h
      cases h
    | ok found =>
      cases found with
      | none =>
        rw [hfiles] at h
        cases h
      | some found =>
        rw [hfiles] at h
        cases h
        have hexist : ∀ p ∈ files, t.inode p ≠ none := by
          intro p hp hnone
          have hmode : t.view.mode p = none := by
            change (t.inode p).map _ = none
            rw [hnone]
            rfl
          unfold discover at hfiles
          cases hqueue : discoverQueue t.view params with
          | error err =>
            rw [hqueue] at hfiles
            cases hfiles
          | ok queue =>
            rw [hqueue] at hfiles
            have hfile := mem_discoverLoop hfiles (fun _ h => absurd h List.not_mem_nil) p hp
            rw [pathExistsAsFile, hmode] at hfile
            exact Bool.false_ne_true hfile
        have hvisits := visits_sshd faults t
        have hview := (foldl_access hvisits files t (.refl t)).1.view
        have hreport : (inspectConfigFileAccess fuel params (files.foldl (fixSshdPath faults) t)).toOption.join =
            some (accessReport (configFileAccessOk (files.foldl (fixSshdPath faults) t)) (sortStrs files)) := by
          unfold inspectConfigFileAccess
          rw [hview, hfiles]
          rfl
        rw [hreport, accessSound_iff hne]
        exact forall₂_congr fun p hp => accessOk_foldl hvisits (hexist p hp)

/-- The files of a table, none of them a link. -/
def Tree.ofTable (table : List (Str × Nat)) (node : Nat → Inode) (h : ∀ e ∈ table, e.1.length < pathMax) : Tree where
  inode path := table.lookup path
  link _ := none
  node := node
  short path hlong := by
    rw [List.lookup_eq_none_iff]
    intro e he
    have hshort := h e he
    refine bne_iff_ne.mpr fun heq => ?_
    rw [heq] at hlong
    omega

/-- A directory of `root`. -/
def rootDirectory (names : List Str) : Inode :=
  { type := "directory", dev := 0, access := ⟨0, 0, 0o755⟩, names := .ok names, lines := .error "Is a directory" }

/-- A file of a user that everybody may read. -/
def userFile (lines : List Str) : Inode :=
  { type := "file", dev := 0, access := ⟨1000, 1000, 0o644⟩, names := .error "Not a directory", lines := .ok lines }

/-- A boot loader configuration and an sshd configuration, both of a user. -/
def looseTree : Tree :=
  .ofTable [("/boot", 0), ("/boot/grub2", 1), ("/boot/grub2/grub.cfg", 2), ("/etc/ssh/sshd_config", 3)]
    (fun i => match i with
      | 0 => rootDirectory ["grub2".toList]
      | 1 => rootDirectory ["grub.cfg".toList]
      | 2 => userFile ["set timeout=5"]
      | _ => userFile ["PermitRootLogin no"])
    (by decide)

/-- Nothing fails. -/
def noFaults : Faults :=
  { followed := fun _ => none, stat := fun _ => none, chown := fun _ => none, chmod := fun _ => none,
    remove := fun _ => none }

theorem looseTree_bootloader (faults : Faults) : fixBootloaderConfig faults ⟨none⟩ looseTree =
    .ok (["/boot/grub2/grub.cfg".toList], .ok (),
      ["/boot/grub2/grub.cfg".toList].foldl (fixBootloaderPath faults) looseTree) := by
  have hpaths : collectBootloaderConfigPaths looseTree.view pathMax (BootloaderParams.base ⟨none⟩) [] =
      .ok ["/boot/grub2/grub.cfg".toList] := by decide +kernel
  rw [fixBootloaderConfig, hpaths]
  rfl

theorem looseTree_sshd (faults : Faults) : fixSshdConfigAccess faults 2 ⟨none, none, none⟩ looseTree =
    .ok (some (["/etc/ssh/sshd_config".toList], .ok (),
      ["/etc/ssh/sshd_config".toList].foldl (fixSshdPath faults) looseTree)) := by
  have hfiles : discover looseTree.view 2 ⟨none, none, none⟩ = .ok (some ["/etc/ssh/sshd_config".toList]) := by
    decide +kernel
  rw [fixSshdConfigAccess, hfiles]
  rfl

theorem looseTree_sound :
    AccessSound (.ok ()) ["/boot/grub2/grub.cfg".toList]
      (bootloaderAccessOk (["/boot/grub2/grub.cfg".toList].foldl (fixBootloaderPath noFaults) looseTree))
      (inspectBootloaderConfigAccess ⟨none⟩
        (["/boot/grub2/grub.cfg".toList].foldl (fixBootloaderPath noFaults) looseTree)).toOption ∧
    AccessSound (.ok ()) ["/etc/ssh/sshd_config".toList]
      (configFileAccessOk (["/etc/ssh/sshd_config".toList].foldl (fixSshdPath noFaults) looseTree))
      (inspectConfigFileAccess 2 ⟨none, none, none⟩
        (["/etc/ssh/sshd_config".toList].foldl (fixSshdPath noFaults) looseTree)).toOption.join := by
  have hnode : ∀ {path : Str} {i j : Nat}, looseTree.inode path = some i → looseTree.inode path = some j → i = j :=
    fun hi hj => Option.some.inj (hi.symm.trans hj)
  constructor
  · refine ((fixers_sound_iff noFaults looseTree).1 _ _ _ _ (looseTree_bootloader noFaults) (by simp)).mpr ?_
    intro p hp j hj
    rw [List.mem_singleton.mp hp] at hj ⊢
    obtain rfl : 2 = j := hnode (by decide) hj
    exact ⟨.inr (by decide), by decide +kernel⟩
  · refine ((fixers_sound_iff noFaults looseTree).2 _ _ _ _ _ (looseTree_sshd noFaults) (by simp)).mpr ?_
    intro p hp j hj
    rw [List.mem_singleton.mp hp] at hj ⊢
    obtain rfl : 3 = j := hnode (by decide) hj
    exact ⟨.inr (by decide), by decide +kernel⟩

/-- `chown` fails on every path. -/
def chownDenied : Faults := { noFaults with chown := fun _ => some "Operation not permitted" }

/-- The fixer returns `true` although the file could not be given to `root`, and the audit fails. -/
theorem denied_chown_succeeds :
    fixBootloaderConfig chownDenied ⟨none⟩ looseTree = .ok (["/boot/grub2/grub.cfg".toList], .ok (),
      ["/boot/grub2/grub.cfg".toList].foldl (fixBootloaderPath chownDenied) looseTree) ∧
    (inspectBootloaderConfigAccess ⟨none⟩
      (["/boot/grub2/grub.cfg".toList].foldl (fixBootloaderPath chownDenied) looseTree)).toOption.map
        AccessReport.allConfigured = some false ∧
    ¬ AccessSound (.ok ()) ["/boot/grub2/grub.cfg".toList]
      (bootloaderAccessOk (["/boot/grub2/grub.cfg".toList].foldl (fixBootloaderPath chownDenied) looseTree))
      (inspectBootloaderConfigAccess ⟨none⟩
        (["/boot/grub2/grub.cfg".toList].foldl (fixBootloaderPath chownDenied) looseTree)).toOption := by
  refine ⟨looseTree_bootloader chownDenied, by decide +kernel, fun h => ?_⟩
  obtain ⟨err, herr⟩ := h.fails ⟨"/boot/grub2/grub.cfg", List.mem_singleton.mpr rfl, by decide +kernel⟩
  cases herr

end Seharden
