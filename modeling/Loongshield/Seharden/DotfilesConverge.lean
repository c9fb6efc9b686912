import Loongshield.Seharden.DotfilesWalk

/-!
# Dot-file repair converges

A file ends up with the ids of the account it was last visited for, and with a mode within the bound of each of its
names. So the probe reports nothing after a repair iff no file is visited for accounts with other ids, every file can be
queried, and the ids of the accounts are ids that a file can be given.
-/

namespace Seharden

open Lua

/-! ## What a file ends up with -/

/-- The id a file has after `chown` to an account's id. -/
def settledId (expected : Option Flt) (old : BitVec 32) : BitVec 32 :=
  match expected with
  | some id => if idArg id = -1 then old else idArg id
  | none => old

/-- What a visit that succeeds makes of the attributes of a file. -/
def settled (path : Str) (user : RealUser) (a : Access) : Access where
  uid := settledId user.userUid a.uid
  gid := settledId user.userGid a.gid
  mode := if modeWithin a.mode (maxModeFor (basename path)) then a.mode else maxModeFor (basename path)

section Settled

variable {faults : Faults} {path : Str} {user : RealUser} {t t' : Tree}

theorem settledId_of_idIs {id : BitVec 32} {expected : Option Flt} (h : idIs id expected = true) :
    settledId expected id = id := by
  cases expected with
  | none => rfl
  | some f =>
    change (if idArg f = -1 then id else idArg f) = id
    rw [idArg_of_idIs h]
    exact ite_self _

theorem settledId_settledId (expected : Option Flt) (id : BitVec 32) :
    settledId expected (settledId expected id) = settledId expected id := by
  cases expected with
  | none => rfl
  | some f =>
    change (if idArg f = -1 then (if idArg f = -1 then id else idArg f) else idArg f) = if idArg f =
      -1 then id else idArg f
    split <;> rfl

/-- Where `fix_dotfile` succeeds, the calls it needs work. -/
theorem calls_of_ok {i : Nat} (hi : t.inode path = some i) (hlook : looksAtDotfile faults path t = true)
    (h : (fixDotfile faults path user t).1 = .ok (.ok ())) :
    (modeWithin (t.node i).access.mode (maxModeFor (basename path)) = true ∨ faults.chmod path = none) ∧
      ((idIs (t.node i).access.uid user.userUid && idIs (t.node i).access.gid user.userGid) = true ∨
        (user.userUid.isSome = true ∧ user.userGid.isSome = true ∧ faults.chown path = none)) := by
  have howner : ∀ {t : Tree} {stat : Access}, (fixDotfileOwner faults path user stat t).1 = .ok (.ok ()) →
      (idIs stat.uid user.userUid && idIs stat.gid user.userGid) = true ∨
        (user.userUid.isSome = true ∧ user.userGid.isSome = true ∧ faults.chown path = none) := by
    intro t stat h
    unfold fixDotfileOwner at h
    split at h
    · next hids => exact .inl hids
    · unfold fsChownFile at h
      cases huid : user.userUid with
      | none =>
        rw [huid] at h
        cases h
      | some uid =>
        cases hgid : user.userGid with
        | none =>
          rw [huid, hgid] at h
          cases h
        | some gid =>
          rw [huid, hgid] at h
          dsimp only at h
          rw [Act.step_bind_apply] at h
          cases hchown : faults.chown path with
          | some err =>
            rw [hchown] at h
            cases h
          | none => exact .inr ⟨rfl, rfl, rfl⟩
  unfold looksAtDotfile at hlook
  obtain ⟨⟨hforbidden, htype⟩, hstat⟩ : (isForbidden (basename path) = false ∧
      (t.lfsSymlinkattributes path).map Prod.fst = some "file".toList) ∧ faults.stat path = none := by
    simpa using hlook
  have hsome : faults.fsStat t path = some (t.node i).access := by
    rw [Faults.fsStat, hstat, Tree.stat, hi]
    rfl
  unfold fixDotfile at h
  dsimp only at h
  rw [hforbidden, if_neg Bool.false_ne_true, Act.step_bind_apply] at h
  dsimp only at h
  rw [if_neg (not_not.mpr htype), Act.step_bind_apply, hsome] at h
  dsimp only at h
  split at h
  · next hmode => exact ⟨.inl hmode, howner h⟩
  · unfold fsChmodFile at h
    rw [Act.step_bind_apply] at h
    cases hchmod : faults.chmod path with
    | some err =>
      rw [hchmod] at h
      cases h
    | none =>
      rw [hchmod] at h
      exact ⟨.inr rfl, howner h⟩

theorem dotfileOwner_settled {type : Str} {stat a : Access} (huid : a.uid = stat.uid) (hgid : a.gid = stat.gid)
    (hplain : a.mode &&& 0o6000 = 0#12)
    (h : (idIs stat.uid user.userUid && idIs stat.gid user.userGid) = true ∨
      (user.userUid.isSome = true ∧ user.userGid.isSome = true ∧ faults.chown path = none)) :
    dotfileOwner faults path user type stat a =
      ⟨settledId user.userUid a.uid, settledId user.userGid a.gid, a.mode⟩ := by
  unfold dotfileOwner
  by_cases hids : (idIs stat.uid user.userUid && idIs stat.gid user.userGid) = true
  · rw [if_pos hids]
    obtain ⟨hu, hg⟩ := Bool.and_eq_true_iff.mp hids
    rw [← huid] at hu
    rw [← hgid] at hg
    rw [settledId_of_idIs hu, settledId_of_idIs hg]
  · rw [if_neg hids]
    obtain ⟨hu, hg, hchown⟩ := h.resolve_left hids
    obtain ⟨uid, hu⟩ := Option.isSome_iff_exists.mp hu
    obtain ⟨gid, hg⟩ := Option.isSome_iff_exists.mp hg
    rw [hu, hg, hchown]
    change a.chowned type (idArg uid) (idArg gid) = _
    rw [Access.chowned, modeAfterChown_of_plain type hplain]
    rfl

/-- **What a visit that succeeds does** to the file it looks at. -/
theorem fixDotfile_settled {i : Nat} (hi : t.inode path = some i) (hlook : looksAtDotfile faults path t = true)
    (h : (fixDotfile faults path user t).1 = .ok (.ok ())) :
    ((fixDotfile faults path user t).2.node i).access = settled path user (t.node i).access := by
  obtain ⟨hmode, hids⟩ := calls_of_ok hi hlook h
  rw [fixDotfile_access, if_pos hi, if_pos hlook]
  unfold dotfileRepaired settled
  by_cases hwithin : modeWithin (t.node i).access.mode (maxModeFor (basename path)) = true
  · rw [if_pos hwithin, if_pos hwithin]
    exact dotfileOwner_settled rfl rfl (plain_of_within hwithin (maxModeFor_plain _)) hids
  · rw [if_neg hwithin, if_neg hwithin, hmode.resolve_left hwithin]
    exact dotfileOwner_settled rfl rfl (maxModeFor_plain _) hids

/-- A visit looks at the file of an inode. -/
def fileVisit (faults : Faults) (t : Tree) (i : Nat) (v : Str × RealUser) : Bool :=
  looksAtDotfile faults v.1 t && t.inode v.1 == some i

theorem fileVisit_erased (h : Erased t t') (i : Nat) (v : Str × RealUser) :
    fileVisit faults t' i v = fileVisit faults t i v := by
  unfold fileVisit looksAtDotfile
  cases hforbidden : isForbidden (basename v.1) with
  | true => rfl
  | false => rw [h.attributes_kept hforbidden, (h.kept v.1 hforbidden).1]

/-- The attributes after a run: what the visits to the file make of them, one after the other. -/
theorem OkRun.access {t₀ : Tree} (i : Nat) : ∀ {visits : List (Str × RealUser)} {t t' : Tree},
    OkRun faults visits t t' →
    Erased t₀ t → (t'.node i).access =
      (visits.filter (fileVisit faults t₀ i)).foldl (fun a v => settled v.1 v.2 a) (t.node i).access
  | [], t, t', h, _ => by
    cases h
    rfl
  | v :: visits, t, t', h, herased => by
    have hstep : ((dotfileVisit faults v t).node i).access =
        if fileVisit faults t₀ i v then settled v.1 v.2 (t.node i).access else (t.node i).access := by
      rw [← fileVisit_erased herased i v]
      unfold fileVisit
      by_cases hlook : looksAtDotfile faults v.1 t = true
      · by_cases hi : t.inode v.1 = some i
        · rw [hlook, hi, beq_self_eq_true, Bool.and_self, if_pos rfl]
          exact fixDotfile_settled hi hlook h.1
        · rw [beq_eq_false_iff_ne.mpr hi, Bool.and_false, if_neg Bool.false_ne_true]
          exact fixDotfile_access i |>.trans (if_neg hi)
      · rw [Bool.eq_false_iff.mpr hlook, Bool.false_and, if_neg Bool.false_ne_true]
        refine (fixDotfile_access i).trans ?_
        rw [if_neg hlook, ite_self]
    rw [OkRun.access i h.2 (herased.trans (erased_fixDotfile v.1)), hstep, List.filter_cons]
    split <;> rfl

/-! ### The attributes after all visits to a file -/

theorem foldl_settled_ids {uid gid : Option Flt} : ∀ {visits : List (Str × RealUser)} (a : Access), visits ≠ [] →
    (∀ v ∈ visits, v.2.userUid = uid ∧ v.2.userGid = gid) →
      (visits.foldl (fun a v => settled v.1 v.2 a) a).uid = settledId uid a.uid ∧
        (visits.foldl (fun a v => settled v.1 v.2 a) a).gid = settledId gid a.gid
  | [v], a, _, hids => by
    obtain ⟨rfl, rfl⟩ := hids v List.mem_cons_self
    exact ⟨rfl, rfl⟩
  | v :: w :: visits, a, _, hids => by
    obtain ⟨⟨huid, hgid⟩, hids⟩ := List.forall_mem_cons.mp hids
    obtain ⟨hu, hg⟩ := @foldl_settled_ids uid gid (w :: visits) (settled v.1 v.2 a) (List.cons_ne_nil w visits) hids
    rw [List.foldl_cons, hu, hg]
    unfold settled
    rw [huid, hgid, settledId_settledId, settledId_settledId]
    exact ⟨rfl, rfl⟩

/-- A mode that is within the bound of a name stays so at a visit under another name. -/
theorem modeWithin_settled (v : Str × RealUser) {a : Access} {name : Str}
    (h : modeWithin a.mode (maxModeFor name) = true) :
    modeWithin (settled v.1 v.2 a).mode (maxModeFor name) = true := by
  have hcases : ∀ name, maxModeFor name = 0o600 ∨ maxModeFor name = 0o644 := by
    intro name
    unfold maxModeFor
    split
    · exact .inl rfl
    · exact .inr rfl
  have hstrict : modeWithin 0o600 0o644 = true := by decide +kernel
  unfold settled
  split
  · exact h
  · next hout =>
    rcases hcases (basename v.1) with hv | hv <;> rcases hcases name with hp | hp <;> rw [hv] at hout ⊢ <;>
      rw [hp] at h ⊢
    · exact modeWithin_self _
    · exact hstrict
    · exact absurd (modeWithin_trans h hstrict) hout
    · exact modeWithin_self _

theorem foldl_settled_within {name : Str} : ∀ (visits : List (Str × RealUser)) {a : Access},
    modeWithin a.mode (maxModeFor name) = true →
      modeWithin (visits.foldl (fun a v => settled v.1 v.2 a) a).mode (maxModeFor name) = true
  | [], _, h => h
  | v :: visits, _, h => by
    rw [List.foldl_cons]
    exact foldl_settled_within visits (modeWithin_settled v h)

/-- Afterwards the mode is within the bound of every name the file was visited under. -/
theorem foldl_settled_mode {v : Str × RealUser} : ∀ {visits : List (Str × RealUser)} (a : Access), v ∈ visits →
    modeWithin (visits.foldl (fun a v => settled v.1 v.2 a) a).mode (maxModeFor (basename v.1)) = true
  | w :: visits, a, hv => by
    rw [List.foldl_cons]
    rcases List.mem_cons.mp hv with rfl | hv
    · refine foldl_settled_within visits ?_
      unfold settled
      split
      · next h => exact h
      · exact modeWithin_self _
    · exact foldl_settled_mode _ hv

end Settled

/-! ## Probe after enforcer -/

/-- A regular dot file that is neither forbidden nor a link, in the home of a user, with its inode. -/
def DotfileOf (t : Tree) (user : RealUser) (path : Str) (i : Nat) : Prop :=
  ∃ dev paths, Home t user dev ∧ dotPaths t dev pathMax user.home = .ok paths ∧ path ∈ paths ∧
    isForbidden (basename path) = false ∧ t.link path = none ∧ t.inode path = some i ∧ (t.node i).type = "file".toList

/-- Every dot file can be queried and be given the ids of its user, and no other user with a dot file that is the same
file has other ids. -/
def Settles (faults : Faults) (t : Tree) (users : List RealUser) : Prop :=
  ∀ user ∈ users, ∀ path i, DotfileOf t user path i → faults.stat path = none ∧
    idIs (settledId user.userUid (t.node i).access.uid) user.userUid = true ∧
    idIs (settledId user.userGid (t.node i).access.gid) user.userGid = true ∧
    ∀ user' ∈ users, ∀ path', DotfileOf t user' path' i → user'.userUid = user.userUid ∧ user'.userGid = user.userGid

section Converge

variable {faults : Faults} {t t' : Tree} {user : RealUser} {users : List RealUser} {visits : List (Str × RealUser)}

theorem present_of_attributes {path : Str} {attr : Str × Nat} (h : t.lfsSymlinkattributes path = some attr) :
    t.present path = true := by
  rw [Tree.present, h]
  rfl

/-- A home that is there was there. -/
theorem Home.of_erased (h : Erased t t') {dev : Nat} (hhome : Home t' user dev) : Home t user dev := by
  refine ⟨hhome.1, ?_⟩
  rw [← (h.attributes_present (by rw [hhome.2]; exact Option.some_ne_none _)).2]
  exact hhome.2

theorem attributes_regular {path : Str} {i : Nat} (hlink : t.link path = none) (hi : t.inode path = some i) :
    t.lfsSymlinkattributes path = some ((t.node i).type, (t.node i).dev) := by
  unfold Tree.lfsSymlinkattributes
  rw [hlink, hi]
  rfl

/-- What the probe reports on a path in the home of a user after a run: nothing iff, if it is a dot file, it can be
queried and has a mode within the bound and the ids of the user. -/
theorem reportOn_details {path : Str} (hpath : t'.present path = true)
    (hforbidden : isForbidden (basename path) = false) :
    (reportOn faults t' user path).details = [] ↔
      ∀ i, t'.link path = none → t'.inode path = some i → (t'.node i).type = "file".toList → faults.stat path = none ∧
        modeWithin (t'.node i).access.mode (maxModeFor (basename path)) = true ∧
        idIs (t'.node i).access.uid user.userUid = true ∧ idIs (t'.node i).access.gid user.userGid = true := by
  obtain ⟨attr, hattr⟩ := Option.isSome_iff_exists.mp hpath
  unfold reportOn
  rw [hattr]
  unfold inspectDotfile
  dsimp only
  rw [hforbidden, if_neg Bool.false_ne_true]
  by_cases hfile : attr.1 = "file".toList
  · -- a file of its own, not a link
    rw [if_neg (not_not.mpr hfile)]
    obtain ⟨i, hlink, hi, htype⟩ : ∃ i, t'.link path = none ∧ t'.inode path = some i ∧
        (t'.node i).type = "file".toList := by
      unfold Tree.lfsSymlinkattributes at hattr
      cases hl : t'.link path with
      | some d =>
        rw [hl] at hattr
        cases hattr
        have hlink : "link".toList = "file".toList := hfile
        exact absurd hlink (by decide)
      | none =>
        rw [hl] at hattr
        cases hi : t'.inode path with
        | none =>
          rw [hi] at hattr
          cases hattr
        | some i =>
          rw [hi] at hattr
          cases hattr
          exact ⟨i, rfl, rfl, hfile⟩
    have hone : (∀ j, t'.link path = none → t'.inode path = some j → (t'.node j).type = "file".toList →
        faults.stat path = none ∧ modeWithin (t'.node j).access.mode (maxModeFor (basename path)) = true ∧
        idIs (t'.node j).access.uid user.userUid = true ∧ idIs (t'.node j).access.gid user.userGid = true) ↔
        faults.stat path = none ∧ modeWithin (t'.node i).access.mode (maxModeFor (basename path)) = true ∧
        idIs (t'.node i).access.uid user.userUid = true ∧ idIs (t'.node i).access.gid user.userGid = true := by
      constructor
      · exact fun h => h i hlink hi htype
      · intro h j _ hj _
        cases hi.symm.trans hj
        exact h
    rw [hone]
    unfold Faults.fsStat
    cases faults.stat path with
    | some err => exact iff_of_false (by simp) fun h => by cases h.1
    | none =>
      have hstat : t'.stat path = some (t'.node i).access := by
        rw [Tree.stat, hi]
        rfl
      rw [hstat]
      dsimp only
      cases modeWithin (t'.node i).access.mode (maxModeFor (basename path)) <;>
        cases idIs (t'.node i).access.uid user.userUid <;> cases idIs (t'.node i).access.gid user.userGid <;> simp
  · rw [if_pos hfile]
    refine iff_of_true rfl fun i hlink hi htype => absurd ?_ hfile
    rw [attributes_regular hlink hi] at hattr
    cases hattr
    exact htype

/-- The loop over the users: the probe returns a report, which is empty iff it is so for every user. -/
theorem reportAll_ok {α : Type} {f : α → Except Err DotfileReport} : ∀ {xs : List α}, (∀ x ∈ xs, ∃ r, f x = .ok r) →
    ∃ report, reportAll f xs = .ok report ∧ (report.details = [] ↔ ∀ x ∈ xs, ∀ r, f x = .ok r → r.details = [])
  | [], _ => ⟨.empty, rfl, iff_of_true rfl (by simp)⟩
  | x :: xs, h => by
    obtain ⟨⟨r, hr⟩, hrest⟩ := List.forall_mem_cons.mp h
    obtain ⟨rest, hrest, hiff⟩ := reportAll_ok hrest
    refine ⟨r.append rest, ?_, ?_⟩
    · unfold reportAll
      rw [hr, hrest]
      rfl
    · rw [List.forall_mem_cons, ← hiff]
      refine List.append_eq_nil_iff.trans (and_congr_left fun _ => ?_)
      constructor
      · intro hnil r' hr'
        cases hr.symm.trans hr'
        exact hnil
      · exact fun hnil => hnil r hr

/-- A home in which there are dot files is not removed. -/
theorem home_stays (hlist : t.Listing) (hrun : OkRun faults visits t t') {dev : Nat} {paths : List Str}
    (hhome : Home t user dev) (hpaths : dotPaths t dev pathMax user.home = .ok paths) {path : Str}
      (hpath : path ∈ paths)
    (hforbidden : isForbidden (basename path) = false) : Home t' user dev := by
  by_cases hthere : t'.present user.home = true
  · refine ⟨hhome.1, ?_⟩
    rw [(hrun.erased.attributes_present (Option.isSome_iff_ne_none.mp hthere)).2]
    exact hhome.2
  · -- it was removed when nothing was in it, but the dot file was never removed
    exfalso
    obtain ⟨s, herased, hpresent, hempty⟩ := hrun.unoccupied (.refl t) (present_of_attributes hhome.2)
      (Bool.eq_false_iff.mpr hthere)
    have hleft := dotPaths_erased herased hlist hpresent hpaths
    have hhome' : s.lfsSymlinkattributes user.home = some ("directory".toList, dev) := by
      rw [(herased.attributes_present (Option.isSome_iff_ne_none.mp hpresent)).2]
      exact hhome.2
    have hnil := dotPaths_unoccupied hhome' hempty hleft
    have hkept : s.present path = true := by
      rw [Tree.present, herased.attributes_kept hforbidden]
      exact present_of_dotPaths hpaths path hpath
    have hmem : path ∈ paths.filter s.present := List.mem_filter.mpr ⟨hpath, hkept⟩
    rw [hnil] at hmem
    exact absurd hmem List.not_mem_nil

/-- A dot file of a user is one after the run, and the visits looked at it if it can be queried. -/
theorem DotfileOf.visited (hlist : t.Listing) (hcovers : CoversHomes faults pathMax t users visits t t')
    (huser : user ∈ users) {path : Str} {i : Nat} (h : DotfileOf t user path i) :
    (path, user) ∈ visits ∧ t'.present path = true ∧
      ∃ dev paths, Home t' user dev ∧ dotPaths t dev pathMax user.home = .ok paths ∧ path ∈ paths := by
  obtain ⟨dev, paths, hhome, hpaths, hpath, hforbidden, -⟩ := h
  have hhome' := home_stays hlist hcovers.run hhome hpaths hpath hforbidden
  have hpresent : t'.present path = true := by
    rw [Tree.present, hcovers.run.erased.attributes_kept hforbidden]
    exact present_of_dotPaths hpaths path hpath
  refine ⟨?_, hpresent, dev, paths, hhome', hpaths, hpath⟩
  rcases hcovers.complete user huser dev hhome with hgone | ⟨paths', hpaths', hall⟩
  · rw [present_of_attributes hhome'.2] at hgone
    cases hgone
  · cases hpaths.symm.trans hpaths'
    rcases hall path hpath with hvisit | hgone
    · exact hvisit
    · rw [hpresent] at hgone
      cases hgone

/-- A visit that looks at a file is one to a dot file of a user. -/
theorem dotfileOf_visit (hcovers : CoversHomes faults pathMax t users visits t t') {i : Nat} {v : Str × RealUser}
    (hv : v ∈ visits.filter (fileVisit faults t i)) : v.2 ∈ users ∧ DotfileOf t v.2 v.1 i := by
  obtain ⟨hv, hlook⟩ := List.mem_filter.mp hv
  obtain ⟨huser, dev, paths, hhome, hpaths, hpath⟩ := hcovers.sound v hv
  unfold fileVisit looksAtDotfile at hlook
  obtain ⟨⟨⟨hforbidden, htype⟩, -⟩, hi⟩ : ((isForbidden (basename v.1) = false ∧
      (t.lfsSymlinkattributes v.1).map Prod.fst = some "file".toList) ∧ faults.stat v.1 = none) ∧
      t.inode v.1 = some i := by
    simpa using hlook
  have hlink : t.link v.1 = none := by
    cases hl : t.link v.1 with
    | none => rfl
    | some d =>
      unfold Tree.lfsSymlinkattributes at htype
      rw [hl] at htype
      have hlink : "link".toList = "file".toList := Option.some.inj htype
      exact absurd hlink (by decide)
  rw [attributes_regular hlink hi] at htype
  exact ⟨huser, dev, paths, hhome, hpaths, hpath, hforbidden, hlink, hi, Option.some.inj htype⟩

theorem mem_fileVisits {path : Str} {i : Nat} (hvisit : (path, user) ∈ visits) (h : DotfileOf t user path i)
    (hstat : faults.stat path = none) : (path, user) ∈ visits.filter (fileVisit faults t i) := by
  obtain ⟨_, _, _, _, _, hforbidden, hlink, hi, htype⟩ := h
  refine List.mem_filter.mpr ⟨hvisit, ?_⟩
  unfold fileVisit looksAtDotfile
  simp [attributes_regular hlink hi, hforbidden, hstat, hi, htype]

/-- A dot file after the run: what the probe asks of it. -/
def Accepted (faults : Faults) (t' : Tree) (user : RealUser) (path : Str) (i : Nat) : Prop :=
  faults.stat path = none ∧ modeWithin (t'.node i).access.mode (maxModeFor (basename path)) = true ∧
    idIs (t'.node i).access.uid user.userUid = true ∧ idIs (t'.node i).access.gid user.userGid = true

/-- **The probe accepts every dot file iff all of them settle.** -/
theorem accepted_iff (hlist : t.Listing) (hcovers : CoversHomes faults pathMax t users visits t t') :
    (∀ user ∈ users, ∀ path i, DotfileOf t user path i → Accepted faults t' user path i) ↔ Settles faults t users := by
  have haccess : ∀ i, (t'.node i).access =
      (visits.filter (fileVisit faults t i)).foldl (fun a v => settled v.1 v.2 a) (t.node i).access :=
    fun i => hcovers.run.access i (.refl t)
  have hids : ∀ {user path i}, user ∈ users → DotfileOf t user path i → faults.stat path = none →
      (∀ user' ∈ users, ∀ path', DotfileOf t user' path' i →
        user'.userUid = user.userUid ∧ user'.userGid = user.userGid) →
      (t'.node i).access.uid = settledId user.userUid (t.node i).access.uid ∧
        (t'.node i).access.gid = settledId user.userGid (t.node i).access.gid := by
    intro user path i huser hfile hstat hsame
    have hmem := mem_fileVisits (hfile.visited hlist hcovers huser).1 hfile hstat
    rw [haccess]
    refine foldl_settled_ids _ (List.ne_nil_of_mem hmem) fun v hv => ?_
    obtain ⟨hv, hfile'⟩ := dotfileOf_visit hcovers hv
    exact hsame v.2 hv v.1 hfile'
  constructor
  · intro h user huser path i hfile
    obtain ⟨hstat, -, huid, hgid⟩ := h user huser path i hfile
    have hsame : ∀ user' ∈ users, ∀ path', DotfileOf t user' path' i →
        user'.userUid = user.userUid ∧ user'.userGid = user.userGid := by
      intro user' huser' path' hfile'
      obtain ⟨-, -, huid', hgid'⟩ := h user' huser' path' i hfile'
      exact ⟨(beq_iff_eq.mp huid').trans (beq_iff_eq.mp huid).symm,
        (beq_iff_eq.mp hgid').trans (beq_iff_eq.mp hgid).symm⟩
    obtain ⟨hu, hg⟩ := hids huser hfile hstat hsame
    rw [hu] at huid
    rw [hg] at hgid
    exact ⟨hstat, huid, hgid, hsame⟩
  · intro h user huser path i hfile
    obtain ⟨hstat, huid, hgid, hsame⟩ := h user huser path i hfile
    obtain ⟨hu, hg⟩ := hids huser hfile hstat hsame
    refine ⟨hstat, ?_, by rw [hu]; exact huid, by rw [hg]; exact hgid⟩
    have hmem := mem_fileVisits (hfile.visited hlist hcovers huser).1 hfile hstat
    rw [haccess]
    exact @foldl_settled_mode (path, user) _ (t.node i).access hmem

/-- What the probe reports on the home of a user. -/
theorem inspectHome_ok (hlist : t.Listing) (hcovers : CoversHomes faults pathMax t users visits t t')
    (huser : user ∈ users) : ∃ report, inspectHome faults t' user = .ok report ∧
      (report.details = [] ↔ ∀ path i, DotfileOf t user path i → Accepted faults t' user path i) := by
  have herased := hcovers.run.erased
  by_cases hhome : ∃ dev, Home t' user dev
  · obtain ⟨dev, hhome⟩ := hhome
    have hhome₀ := hhome.of_erased herased
    rcases hcovers.complete user huser dev hhome₀ with hgone | ⟨paths, hpaths, hall⟩
    · rw [present_of_attributes hhome.2] at hgone
      cases hgone
    · have hleft := dotPaths_erased herased hlist (present_of_attributes hhome.2) hpaths
      refine ⟨reportsOn faults t' user (paths.filter t'.present), ?_, ?_⟩
      · unfold inspectHome
        rw [if_neg (not_not.mpr hhome.1), hhome.2]
        dsimp only
        rw [if_pos rfl, scanDotfiles_eq, hleft]
        rfl
      · rw [reportsOn_details]
        constructor
        · intro h path i hfile
          obtain ⟨-, hpresent, dev', paths', hhome', hpaths', hpath⟩ := hfile.visited hlist hcovers huser
          cases hhome.2.symm.trans hhome'.2
          cases hpaths.symm.trans hpaths'
          obtain ⟨_, _, _, _, _, hforbidden, hlink, hi, htype⟩ := hfile
          have hreport := (reportOn_details hpresent hforbidden).mp (h path (List.mem_filter.mpr ⟨hpath, hpresent⟩))
          obtain ⟨hinode', hlink'⟩ := herased.kept path hforbidden
          obtain ⟨access, hnode⟩ := herased.node i
          exact hreport i (hlink'.trans hlink) (hinode'.trans hi) (by rw [hnode]; exact htype)
        · intro h path hpath
          obtain ⟨hpath, hpresent⟩ := List.mem_filter.mp hpath
          have hforbidden : isForbidden (basename path) = false := by
            by_contra hnot
            have hgone : t'.present path = false := by
              rcases hall path hpath with hvisit | hgone
              · exact hcovers.run.gone (path, user) hvisit (by simpa using hnot)
              · exact hgone
            rw [hpresent] at hgone
            cases hgone
          rw [reportOn_details hpresent hforbidden]
          intro i hlink hi htype
          obtain ⟨hinode', hlink'⟩ := herased.kept path hforbidden
          obtain ⟨access, hnode⟩ := herased.node i
          refine h path i ⟨dev, paths, hhome₀, hpaths, hpath, hforbidden, hlink'.symm.trans hlink,
            hinode'.symm.trans hi, ?_⟩
          rw [hnode] at htype
          exact htype
  · refine ⟨.empty, ?_, iff_of_true rfl fun path i hfile => ?_⟩
    · unfold inspectHome
      split
      · rfl
      · next hhead =>
        cases hattr : t'.lfsSymlinkattributes user.home with
        | none => rfl
        | some attr =>
          dsimp only
          split
          · next htype => exact absurd ⟨attr.2, not_not.mp hhead, by rw [hattr, ← htype]⟩ hhome
          · rfl
    · obtain ⟨-, -, dev, -, hhome', -⟩ := hfile.visited hlist hcovers huser
      exact absurd ⟨dev, hhome'⟩ hhome

/-- What `fix_dotfiles` did, where it succeeded. -/
theorem fixDotfiles_ok {maxUsers : Value} (h : fixDotfiles faults ⟨none, maxUsers⟩ t = (.ok (.ok ()), t')) :
    ∃ entries, readEntries t.view "/etc/passwd" 7 = .ok entries ∧
      ((tonumber maxUsers).getD (.fin 1000)).lt (.fin (entries.filterMap buildRealUser).length) = false ∧
      fixHomes faults (entries.filterMap buildRealUser) t = (.ok (.ok ()), t') := by
  unfold fixDotfiles at h
  rw [Act.step_bind_apply] at h
  dsimp only at h
  rw [Option.getD_none] at h
  cases hentries : readEntries t.view "/etc/passwd" 7 with
  | error err =>
    rw [hentries] at h
    cases h
  | ok entries =>
    rw [hentries] at h
    dsimp only at h
    split at h
    · cases h
    · next hmax => exact ⟨entries, rfl, Bool.eq_false_iff.mpr hmax, h⟩

/-- **Dot-file repair converges iff the dot files settle**: after a repair that returned `true`, the probe reports
nothing iff every dot file can be queried and be given the ids of its user, and is no dot file of a user with other
ids. -/
theorem dotfiles_converge_iff (faults : Faults) (maxUsers : Value) (t t' : Tree) (hlist : t.Listing)
    (h : fixDotfiles faults ⟨none, maxUsers⟩ t = (.ok (.ok ()), t')) :
    (∃ report, inspectDotfiles faults t' maxUsers = .ok (.ok report) ∧ report.count = 0) ↔
      ∀ entries, readEntries t.view "/etc/passwd" 7 = .ok entries →
        Settles faults t (entries.filterMap buildRealUser) := by
  obtain ⟨entries, hentries, hmax, hfix⟩ := fixDotfiles_ok h
  obtain ⟨visits, hcovers⟩ := coversHomes_fixHomes hlist _ t t' (.refl t) hfix
  have hentries' : readEntries t'.view "/etc/passwd" 7 = .ok entries := by
    rw [← hentries]
    unfold readEntries
    rw [hcovers.run.erased.lines_eq (by decide)]
  obtain ⟨report, hreport, hiff⟩ := reportAll_ok (f := inspectHome faults t') fun user huser => by
    obtain ⟨r, hr, -⟩ := inspectHome_ok hlist hcovers huser
    exact ⟨r, hr⟩
  have hinspect : inspectDotfiles faults t' maxUsers = .ok (.ok report) := by
    unfold inspectDotfiles
    rw [hentries']
    dsimp only
    rw [hmax, if_neg Bool.false_ne_true, hreport]
    rfl
  have hcount : report.count = 0 ↔ ∀ user ∈ entries.filterMap buildRealUser, ∀ path i, DotfileOf t user path i →
      Accepted faults t' user path i := by
    rw [DotfileReport.count, List.length_eq_zero_iff, hiff]
    refine forall₂_congr fun user huser => ?_
    obtain ⟨r, hr, hr'⟩ := inspectHome_ok hlist hcovers huser
    rw [← hr']
    constructor
    · exact fun h => h r hr
    · intro h r' hr''
      cases hr.symm.trans hr''
      exact h
  rw [accepted_iff hlist hcovers] at hcount
  constructor
  · rintro ⟨report', hreport', hzero⟩ entries' hentries''
    cases hinspect.symm.trans hreport'
    cases hentries.symm.trans hentries''
    exact hcount.mp hzero
  · exact fun hsettles => ⟨report, hinspect, hcount.mpr (hsettles entries hentries)⟩

end Converge

/-- The profile of the user is the one dot file of the machine. -/
theorem hostTree_dotfile {user : RealUser} (huser : user = alice) {path : Str} {i : Nat}
    (h : DotfileOf hostTree user path i) : path = "/home/alice/.profile".toList ∧ i = 3 := by
  obtain ⟨dev, paths, hhome, hpaths, hpath, -, -, hi, -⟩ := h
  subst huser
  have hattr : hostTree.lfsSymlinkattributes alice.home = some ("directory".toList, 0) := by decide +kernel
  have hdots : dotPaths hostTree 0 pathMax alice.home = .ok ["/home/alice/.profile".toList] := by decide +kernel
  cases hattr.symm.trans hhome.2
  cases hdots.symm.trans hpaths
  cases List.mem_singleton.mp hpath
  have hinode : hostTree.inode "/home/alice/.profile".toList = some 3 := by decide +kernel
  exact ⟨rfl, Option.some.inj (hi.symm.trans hinode)⟩

theorem hostTree_converges : ∃ report,
    inspectDotfiles noFaults (fixDotfiles noFaults ⟨none, .nil⟩ hostTree).2 .nil = .ok (.ok report) ∧
    report.count = 0 := by
  have hok : (fixDotfiles noFaults ⟨none, .nil⟩ hostTree).1 = .ok (.ok ()) := by decide +kernel
  refine (dotfiles_converge_iff noFaults .nil hostTree _ hostTree_listing (Prod.ext hok rfl)).mpr fun entries hentries
    => ?_
  cases hentries
  have husers : (accountEntries 7 ["root:x:0:0:root:/root:/sbin/nologin",
      "alice:x:1000:1000::/home/alice:/bin/bash"]).filterMap buildRealUser = [alice] := by
    decide +kernel
  rw [husers]
  intro user huser path i hfile
  obtain ⟨rfl, rfl⟩ := hostTree_dotfile (List.mem_singleton.mp huser) hfile
  cases List.mem_singleton.mp huser
  refine ⟨rfl, by decide +kernel, by decide +kernel, fun user' huser' path' _ => ?_⟩
  cases List.mem_singleton.mp huser'
  exact ⟨rfl, rfl⟩

/-- A machine where two accounts have one home. -/
def sharedTree : Tree :=
  .ofTable [("/etc/passwd", 0), ("/home/alice", 1), ("/home/alice/.profile", 2)]
    (fun i => match i with
      | 0 => plainFile ⟨0, 0, 0o644⟩ ["alice:x:1000:1000::/home/alice:/bin/bash",
          "backup:x:1001:1001::/home/alice:/bin/sh"]
      | 1 => rootDirectory [".profile".toList]
      | _ => plainFile ⟨1000, 1000, 0o644⟩ [])
    (by decide)

/-- The second account gets the profile of the first one, and the repair is reported as done. -/
theorem shared_home_fails : (fixDotfiles noFaults ⟨none, .nil⟩ sharedTree).1 = .ok (.ok ()) ∧
    (inspectDotfiles noFaults (fixDotfiles noFaults ⟨none, .nil⟩ sharedTree).2 .nil).map
      (fun r => r.map DotfileReport.count) = .ok (.ok 2) := by
  decide +kernel

end Seharden
