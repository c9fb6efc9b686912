import Loongshield.Seharden.AccessSound
import Loongshield.Seharden.Logging

/-!
# Hardening and the permissions there were

Every run of the four enforcers is a sequence of visits to files. A visit tightens if it sets no permission bit that was
not set, and leaves an owner or a group alone that the probe accepts.

- `Each`: something holds of every visit of a run, in the state before it;
- `Bounded`: what a visit may do at all;
- `FixerTight`, `DotfileTight`, `LogfileTight`: the condition under which a visit tightens;
- `hardening_tightens_iff`: the visits of the four enforcers are bounded, and tighten exactly under their conditions.
-/

namespace Seharden

open Lua

/-! ## Runs -/

section Runs

variable {V : Type} (apply : V → Tree → Tree)

/-- `P` holds of every visit of a run, in the state before it. -/
def Each (P : V → Tree → Prop) : List V → Tree → Prop
  | [], _ => True
  | v :: visits, t => P v t ∧ Each P visits (apply v t)

/-- The files after the visits. -/
def visitAll (visits : List V) (t : Tree) : Tree := visits.foldl (fun t v => apply v t) t

variable {apply}

theorem each_congr {P Q : V → Tree → Prop} (h : ∀ v t, P v t ↔ Q v t) : ∀ (visits : List V) (t : Tree),
    Each apply P visits t ↔ Each apply Q visits t
  | [], _ => Iff.rfl
  | v :: visits, t => and_congr (h v t) (each_congr h visits (apply v t))

/-- What visits that only take bits away leave. -/
theorem modeSub_visitAll {P : V → Tree → Prop} (h : ∀ v t, P v t → ∀ i,
    ModeSub ((apply v t).node i).access.mode (t.node i).access.mode) : ∀ (visits : List V) (t : Tree),
    Each apply P visits t → ∀ i, ModeSub ((visitAll apply visits t).node i).access.mode (t.node i).access.mode
  | [], _, _, _ => ModeSub.refl _
  | v :: visits, t, ⟨hv, hrest⟩, i => (modeSub_visitAll h visits (apply v t) hrest i).trans (h v t hv i)

/-- Every run of the computation is a sequence of visits. -/
def RunsBy {α : Type} (apply : V → Tree → Tree) (m : TreeM α) : Prop := ∀ t, ∃ visits, (m t).2 = visitAll apply visits t

theorem runsBy_pure {α : Type} (a : α) : RunsBy apply (pure a : TreeM α) := fun _ => ⟨[], rfl⟩

theorem runsBy_ask {α : Type} (f : Tree → α) : RunsBy apply (.step fun t => (f t, t) : TreeM α) := fun _ => ⟨[], rfl⟩

theorem runsBy_bind {α β : Type} {m : TreeM α} {f : α → TreeM β} (hm : RunsBy apply m) (hf : ∀ a, RunsBy apply (f a)) :
    RunsBy apply (m >>= f) := by
  intro t
  refine Act.leads_bind (P := (· = t)) (R := fun t' => ∃ visits, t' = visitAll apply visits t) ?_ ?_
    (fun _ h => h) t rfl
  · rintro _ rfl
    exact hm _
  · rintro a t' ⟨visits, rfl⟩
    obtain ⟨visits', hvisits'⟩ := hf a (visitAll apply visits t)
    refine ⟨visits ++ visits', ?_⟩
    rw [hvisits', visitAll, visitAll, visitAll, List.foldl_append]

end Runs

/-! ## Visits -/

/-- A visit to the file at a path tightens: no bit is set, an accepted owner or group stays, other files stay. -/
structure Tightens (path : Str) (ownerOk groupOk : Access → Bool) (t t' : Tree) : Prop where
  mode : ∀ i, ModeSub (t'.node i).access.mode (t.node i).access.mode
  owner : ∀ i, t.inode path = some i → ownerOk (t.node i).access = true → (t'.node i).access.uid = (t.node i).access.uid
  group : ∀ i, t.inode path = some i → groupOk (t.node i).access = true → (t'.node i).access.gid = (t.node i).access.gid
  others : ∀ i, t.inode path ≠ some i → (t'.node i).access = (t.node i).access

/-- A visit that changes the file at its path by `f` tightens iff `f` does. -/
theorem tightens_iff {path : Str} {ownerOk groupOk : Access → Bool} {t t' : Tree} {f : Str → Access → Access}
    (h : ∀ j, (t'.node j).access =
      if t.inode path = some j then f (t.node j).type (t.node j).access else (t.node j).access) :
    Tightens path ownerOk groupOk t t' ↔ ∀ i, t.inode path = some i →
      ModeSub (f (t.node i).type (t.node i).access).mode (t.node i).access.mode ∧
      (ownerOk (t.node i).access = true → (f (t.node i).type (t.node i).access).uid = (t.node i).access.uid) ∧
      (groupOk (t.node i).access = true → (f (t.node i).type (t.node i).access).gid = (t.node i).access.gid) := by
  have hat : ∀ i, t.inode path = some i → (t'.node i).access = f (t.node i).type (t.node i).access :=
    fun i hi => by rw [h, if_pos hi]
  have hnot : ∀ i, t.inode path ≠ some i → (t'.node i).access = (t.node i).access := fun i hi => by rw [h, if_neg hi]
  constructor
  · intro ht i hi
    rw [← hat i hi]
    exact ⟨ht.mode i, ht.owner i hi, ht.group i hi⟩
  · intro hf
    refine ⟨fun i => ?_, fun i hi => hat i hi ▸ (hf i hi).2.1, fun i hi => hat i hi ▸ (hf i hi).2.2, hnot⟩
    by_cases hi : t.inode path = some i
    · exact hat i hi ▸ (hf i hi).1
    · rw [hnot i hi]
      exact ModeSub.refl _

/-- What a visit may do at all: the mode stays or becomes the target mode, less the set-ID bits that `chown` clears, and
an accepted owner or group stays, `solo` or if both are accepted. -/
structure Bounded (path : Str) (ownerOk groupOk : Access → Bool) (target : BitVec 12) (solo : Bool) (t t' : Tree) :
    Prop where
  mode : ∀ i, ∃ mode, (mode = (t.node i).access.mode ∨ mode = target) ∧
    ((t'.node i).access.mode = mode ∨ (t'.node i).access.mode = modeAfterChown (t.node i).type mode)
  owner : ∀ i, t.inode path = some i → ownerOk (t.node i).access = true → (solo || groupOk (t.node i).access) = true →
    (t'.node i).access.uid = (t.node i).access.uid
  group : ∀ i, t.inode path = some i → groupOk (t.node i).access = true → (solo || ownerOk (t.node i).access) = true →
    (t'.node i).access.gid = (t.node i).access.gid

/-- A visit that changes the file at its path by `f` is bounded if `f` is. -/
theorem bounded_of {path : Str} {ownerOk groupOk : Access → Bool} {target : BitVec 12} {solo : Bool} {t t' : Tree}
    {f : Str → Access → Access}
    (h : ∀ j, (t'.node j).access =
      if t.inode path = some j then f (t.node j).type (t.node j).access else (t.node j).access)
    (hmode : ∀ type a, ∃ mode, (mode = a.mode ∨ mode = target) ∧
      ((f type a).mode = mode ∨ (f type a).mode = modeAfterChown type mode))
    (howner : ∀ type a, ownerOk a = true → (solo || groupOk a) = true → (f type a).uid = a.uid)
    (hgroup : ∀ type a, groupOk a = true → (solo || ownerOk a) = true → (f type a).gid = a.gid) :
    Bounded path ownerOk groupOk target solo t t' := by
  have hat : ∀ i, t.inode path = some i → (t'.node i).access = f (t.node i).type (t.node i).access :=
    fun i hi => by rw [h, if_pos hi]
  refine ⟨fun i => ?_, fun i hi => ?_, fun i hi => ?_⟩
  · by_cases hi : t.inode path = some i
    · rw [hat i hi]
      exact hmode _ _
    · rw [h, if_neg hi]
      exact ⟨_, .inl rfl, .inl rfl⟩
  · rw [hat i hi]
    exact howner _ _
  · rw [hat i hi]
    exact hgroup _ _

/-- The owner and the group that the probes for boot loader and sshd accept. -/
def ownedByRoot (a : Access) : Bool := a.uid == 0

def groupOfRoot (a : Access) : Bool := a.gid == 0

/-- A visit of the fixers for boot loader and sshd tightens: if it sets the mode, every bit of the expected mode is set
already. -/
def FixerTight (v : Visit) (path : Str) (t : Tree) : Prop :=
  ∀ i, t.inode path = some i → (v.looks && ((t.node i).access.rooted || v.chownOk) && v.chmodOk) = true →
    ModeSub v.expected (t.node i).access.mode

theorem fixer_tight_iff {fix : Tree → Str → Tree} {visit : Str → Visit} {t : Tree} (h : Visits fix visit t)
    (path : Str) :
    Tightens path ownedByRoot groupOfRoot t (fix t path) ↔ FixerTight (visit path) path t := by
  refine (@tightens_iff _ _ _ _ _ (fun type => repaired type (visit path)) (h.access t (.refl t) path)).trans
    (forall₂_congr fun i hi => ?_)
  generalize (t.node i).access = a
  generalize (t.node i).type = type
  unfold repaired
  by_cases hvisit : ((visit path).looks && (a.rooted || (visit path).chownOk)) = true
  · have hids : (ownedByRoot a = true → (0 : BitVec 32) = a.uid) ∧ (groupOfRoot a = true → (0 : BitVec 32) = a.gid) :=
      ⟨fun h => (beq_iff_eq.mp h).symm, fun h => (beq_iff_eq.mp h).symm⟩
    rw [if_pos hvisit, hvisit, Bool.true_and]
    cases (visit path).chmodOk with
    | true => exact ⟨fun h _ => h.1, fun h => ⟨h rfl, hids⟩⟩
    | false =>
      have hmode : ModeSub (modeUnset type a) a.mode := by
        unfold modeUnset
        split
        · exact .refl _
        · exact modeAfterChown_sub type a.mode
      exact iff_of_true ⟨hmode, hids⟩ fun h => absurd h Bool.false_ne_true
  · rw [if_neg hvisit, Bool.eq_false_iff.mpr hvisit]
    exact iff_of_true ⟨ModeSub.refl _, fun _ => rfl, fun _ => rfl⟩ fun h => absurd h Bool.false_ne_true

theorem fixer_bounded {fix : Tree → Str → Tree} {visit : Str → Visit} {t : Tree} (h : Visits fix visit t) (path : Str) :
    Bounded path ownedByRoot groupOfRoot (visit path).expected true t (fix t path) := by
  refine bounded_of (f := fun type => repaired type (visit path)) (h.access t (.refl t) path) (fun type a => ?_)
    (fun type a ha _ => ?_) fun type a ha _ => ?_
  · unfold repaired modeUnset
    split
    · dsimp only
      split
      · exact ⟨_, .inr rfl, .inl rfl⟩
      · split
        · exact ⟨_, .inl rfl, .inl rfl⟩
        · exact ⟨_, .inl rfl, .inr rfl⟩
    · exact ⟨_, .inl rfl, .inl rfl⟩
  · unfold repaired
    split
    · exact (beq_iff_eq.mp ha).symm
    · rfl
  · unfold repaired
    split
    · exact (beq_iff_eq.mp ha).symm
    · rfl

/-! ## Dot files -/

section Dotfiles

variable (faults : Faults) (path : Str) (user : RealUser)

/-- The attributes of a dot file are looked at. -/
def looksAtDotfile (t : Tree) : Bool :=
  !isForbidden (basename path) && (t.lfsSymlinkattributes path).map Prod.fst == some "file".toList &&
    (faults.stat path).isNone

/-- What `fix_dotfile` does to the owner and the group of a file that had the attributes `stat`. -/
def dotfileOwner (type : Str) (stat a : Access) : Access :=
  if idIs stat.uid user.userUid && idIs stat.gid user.userGid then a
  else
    match user.userUid, user.userGid, faults.chown path with
    | some uid, some gid, none => a.chowned type (idArg uid) (idArg gid)
    | _, _, _ => a

/-- What `fix_dotfile` does to the attributes of a file it looks at. -/
def dotfileRepaired (type : Str) (a : Access) : Access :=
  if modeWithin a.mode (maxModeFor (basename path)) then dotfileOwner faults path user type a a
  else
    match faults.chmod path with
    | some _ => a
    | none => dotfileOwner faults path user type a { a with mode := maxModeFor (basename path) }

variable {faults path user} {t : Tree}

theorem fixDotfileOwner_access (stat : Access) (j : Nat) :
    ((fixDotfileOwner faults path user stat t).2.node j).access =
      if t.inode path = some j then dotfileOwner faults path user (t.node j).type stat (t.node j).access
      else (t.node j).access := by
  unfold fixDotfileOwner dotfileOwner
  split
  next => exact (ite_self _).symm
  next =>
    have hsame : (t.node j).access = if t.inode path = some j then (t.node j).access else (t.node j).access :=
      (ite_self _).symm
    unfold fsChownFile
    cases user.userUid with
    | none => exact hsame
    | some uid =>
      cases user.userGid with
      | none => exact hsame
      | some gid =>
        rw [Act.step_bind_apply]
        cases faults.chown path with
        | some err => exact hsame
        | none => exact Tree.update_access j

/-- **What `fix_dotfile` does** to the attributes of every file. -/
theorem fixDotfile_access (j : Nat) : ((fixDotfile faults path user t).2.node j).access =
    if t.inode path = some j then
      (if looksAtDotfile faults path t then dotfileRepaired faults path user (t.node j).type (t.node j).access
        else (t.node j).access)
    else (t.node j).access := by
  have hsame : (t.node j).access = if t.inode path = some j then (t.node j).access else (t.node j).access :=
    (ite_self _).symm
  unfold fixDotfile looksAtDotfile
  dsimp only
  split
  next hforbidden =>
    rw [hforbidden]
    unfold osRemoveFile
    rw [Act.step_bind_apply]
    cases faults.remove path with
    | some err => exact hsame
    | none =>
      dsimp only
      split <;> exact hsame
  next hforbidden =>
    rw [Bool.eq_false_iff.mpr hforbidden, Act.step_bind_apply]
    dsimp only
    split
    next htype =>
      have hno : ((t.lfsSymlinkattributes path).map Prod.fst == some "file".toList) = false :=
        beq_eq_false_iff_ne.mpr htype
      rw [hno]
      exact hsame
    next htype =>
      have hyes : ((t.lfsSymlinkattributes path).map Prod.fst == some "file".toList) = true :=
        beq_iff_eq.mpr (not_not.mp htype)
      rw [hyes, Act.step_bind_apply]
      unfold Faults.fsStat
      cases hstat : faults.stat path with
      | some err => exact hsame
      | none =>
        cases hi : t.inode path with
        | none =>
          have hnone : t.stat path = none := by rw [Tree.stat, hi]; rfl
          rw [hnone]
          rfl
        | some i =>
          have hsome : t.stat path = some (t.node i).access := by rw [Tree.stat, hi]; rfl
          rw [hsome]
          have hlook : (!false && true && (none : Option Str).isNone) = true := rfl
          rw [hlook, if_pos rfl]
          dsimp only
          -- at another file nothing happens; at this one, the steps are those of `dotfileRepaired`
          by_cases hj : i = j
          · subst hj
            rw [if_pos rfl]
            unfold dotfileRepaired
            split
            · rw [fixDotfileOwner_access, if_pos hi]
            · unfold fsChmodFile
              rw [Act.step_bind_apply]
              cases faults.chmod path with
              | some err => rfl
              | none =>
                have hchmod : ((t.chmod path (maxModeFor (basename path))).node i).access =
                    { (t.node i).access with mode := maxModeFor (basename path) } := by
                  rw [Tree.chmod, Tree.update_access, if_pos hi]
                have htype : ((t.chmod path (maxModeFor (basename path))).node i).type = (t.node i).type :=
                  Tree.update_type i
                dsimp only
                rw [fixDotfileOwner_access, htype, Tree.chmod, Tree.update_inode, if_pos hi]
                exact congrArg _ hchmod
          · have hne : ¬(some i = some j) := fun h => hj (Option.some.inj h)
            rw [if_neg hne]
            split
            · rw [fixDotfileOwner_access, hi, if_neg hne]
            · unfold fsChmodFile
              rw [Act.step_bind_apply]
              cases faults.chmod path with
              | some err => rfl
              | none =>
                dsimp only
                rw [fixDotfileOwner_access, Tree.chmod, Tree.update_inode, hi, if_neg hne, Tree.update_access, hi,
                  if_neg hne]

/-- A visit to a dot file tightens: if it sets the mode, every bit of the new mode is set already. -/
def DotfileTight (faults : Faults) (v : Str × RealUser) (t : Tree) : Prop :=
  ∀ i, t.inode v.1 = some i → looksAtDotfile faults v.1 t = true →
    modeWithin (t.node i).access.mode (maxModeFor (basename v.1)) = false → faults.chmod v.1 = none →
      ModeSub (maxModeFor (basename v.1)) (t.node i).access.mode

theorem idArg_fin (q : Rat) : idArg (.fin q) = .ofInt 32 (if 0 ≤ q then ⌊q⌋ else ⌈q⌉) := rfl

theorem idArg_of_idIs {id : BitVec 32} {f : Flt} (h : idIs id (some f) = true) : idArg f = id := by
  have hf : f = .fin (id.toNat : Rat) := Option.some.inj (beq_iff_eq.mp h)
  have hfloor : ⌊(id.toNat : Rat)⌋ = (id.toNat : Int) := Int.floor_natCast _
  rw [hf, idArg_fin, if_pos (Nat.cast_nonneg _), hfloor, BitVec.ofInt_natCast, BitVec.ofNat_toNat, BitVec.setWidth_eq]

/-- The bounds for dot files have no set-ID bits. -/
theorem maxModeFor_plain (filename : Str) : maxModeFor filename &&& 0o6000 = 0#12 := by
  unfold maxModeFor
  split
  · decide
  · decide

/-- An owner or a group that is the user's stays, and so does the mode if it has no set-ID bits. -/
theorem dotfileOwner_keeps (type : Str) (stat : Access) {a : Access} (huid : a.uid = stat.uid) (hgid : a.gid = stat.gid)
    (hplain : a.mode &&& 0o6000 = 0#12) :
    (dotfileOwner faults path user type stat a).mode = a.mode ∧
      (idIs stat.uid user.userUid = true → (dotfileOwner faults path user type stat a).uid = stat.uid) ∧
      (idIs stat.gid user.userGid = true → (dotfileOwner faults path user type stat a).gid = stat.gid) := by
  unfold dotfileOwner
  split
  · exact ⟨rfl, fun _ => huid, fun _ => hgid⟩
  · split
    next uid gid hu hg _ =>
      rw [hu, hg]
      refine ⟨modeAfterChown_of_plain type hplain, fun h => ?_, fun h => ?_⟩
      · unfold Access.chowned
        dsimp only
        rw [idArg_of_idIs h, huid, ite_self]
      · unfold Access.chowned
        dsimp only
        rw [idArg_of_idIs h, hgid, ite_self]
    · exact ⟨rfl, fun _ => huid, fun _ => hgid⟩

theorem dotfile_tight_iff :
    Tightens path (fun a => idIs a.uid user.userUid) (fun a => idIs a.gid user.userGid) t
      (fixDotfile faults path user t).2 ↔
      DotfileTight faults (path, user) t := by
  refine (tightens_iff
    (f := fun type a => if looksAtDotfile faults path t then dotfileRepaired faults path user type a else a)
    fixDotfile_access).trans (forall₂_congr fun i hi => ?_)
  generalize (t.node i).access = a
  generalize (t.node i).type = type
  cases looksAtDotfile faults path t with
  | false => exact iff_of_true ⟨ModeSub.refl _, fun _ => rfl, fun _ => rfl⟩ fun h => absurd h Bool.false_ne_true
  | true =>
    simp only [if_true, true_implies]
    unfold dotfileRepaired
    have hplain := maxModeFor_plain (basename path)
    cases hwithin : modeWithin a.mode (maxModeFor (basename path)) with
    | true =>
      obtain ⟨hmode, hids⟩ := @dotfileOwner_keeps faults path user type a a rfl rfl (plain_of_within hwithin hplain)
      rw [if_pos rfl, hmode]
      exact iff_of_true ⟨ModeSub.refl _, hids⟩ fun h => absurd h.symm Bool.false_ne_true
    | false =>
      rw [if_neg Bool.false_ne_true]
      cases faults.chmod path with
      | some err => exact iff_of_true ⟨ModeSub.refl _, fun _ => rfl, fun _ => rfl⟩ fun _ h => nomatch h
      | none =>
        obtain ⟨hmode, hids⟩ := @dotfileOwner_keeps faults path user type a
          { a with mode := maxModeFor (basename path) } rfl rfl hplain
        dsimp only
        rw [hmode]
        exact ⟨fun h _ _ => h.1, fun h => ⟨h rfl rfl, hids⟩⟩

theorem dotfile_bounded : Bounded path (fun a => idIs a.uid user.userUid) (fun a => idIs a.gid user.userGid)
    (maxModeFor (basename path)) true t (fixDotfile faults path user t).2 := by
  have hkeeps : ∀ type a, ((dotfileRepaired faults path user type a).mode = a.mode ∨
      (dotfileRepaired faults path user type a).mode = maxModeFor (basename path)) ∧
      (idIs a.uid user.userUid = true → (dotfileRepaired faults path user type a).uid = a.uid) ∧
      (idIs a.gid user.userGid = true → (dotfileRepaired faults path user type a).gid = a.gid) := by
    intro type a
    have hplain := maxModeFor_plain (basename path)
    unfold dotfileRepaired
    split
    · next hwithin =>
      obtain ⟨hmode, hids⟩ := @dotfileOwner_keeps faults path user type a a rfl rfl (plain_of_within hwithin hplain)
      exact ⟨.inl hmode, hids⟩
    · split
      · exact ⟨.inl rfl, fun _ => rfl, fun _ => rfl⟩
      · obtain ⟨hmode, hids⟩ := @dotfileOwner_keeps faults path user type a
          { a with mode := maxModeFor (basename path) } rfl rfl hplain
        exact ⟨.inr hmode, hids⟩
  refine bounded_of
    (f := fun type a => if looksAtDotfile faults path t then dotfileRepaired faults path user type a else a)
    fixDotfile_access (fun type a => ?_) (fun type a ha _ => ?_) fun type a ha _ => ?_
  · split
    · exact ⟨_, (hkeeps type a).1, .inl rfl⟩
    · exact ⟨_, .inl rfl, .inl rfl⟩
  · split
    · exact (hkeeps type a).2.1 ha
    · rfl
  · split
    · exact (hkeeps type a).2.2 ha
    · rfl

/-- A visit to a dot file of a user. -/
def dotfileVisit (faults : Faults) (v : Str × RealUser) (t : Tree) : Tree := (fixDotfile faults v.1 v.2 t).2

/-- A walk through a home directory is a sequence of visits. -/
theorem runsBy_after {m : TreeM Ret} (h : RunsBy (dotfileVisit faults) m) : ∀ r : Ret,
    RunsBy (dotfileVisit faults) (match r with
      | .error err => return .error err
      | .ok () => m)
  | .error _ => runsBy_pure _
  | .ok () => h

theorem runsBy_scanNames {rootDev : Nat} {dirPath : Str} {scan : Str → TreeM Ret}
    (hscan : ∀ p, RunsBy (dotfileVisit faults) (scan p)) : ∀ names : List Str,
    RunsBy (dotfileVisit faults)
      (scanNames faults user rootDev dirPath scan names)
  | [] => runsBy_pure _
  | name :: names => by
    have ih := @runsBy_scanNames rootDev dirPath scan hscan names
    unfold scanNames
    split
    · exact ih
    · refine runsBy_bind (runsBy_ask _) fun attr => ?_
      cases attr with
      | none => exact ih
      | some attr =>
        have hnext := runsBy_after ih
        dsimp only
        split
        · exact hnext (.ok ())
        · split
          · exact runsBy_bind (fun t => ⟨[(dirPath ++ "/" ++ name, user)], rfl⟩) hnext
          · split
            · exact runsBy_bind (hscan _) hnext
            · exact hnext (.ok ())

theorem runsBy_scanAndFixDotfiles {rootDev : Nat} : ∀ (n : Nat) (dirPath : Str),
    RunsBy (dotfileVisit faults) (scanAndFixDotfiles faults user rootDev n dirPath)
  | 0, _ => runsBy_pure _
  | n + 1, _ =>
    runsBy_bind (fun _ => ⟨[], rfl⟩) fun names => runsBy_scanNames (fun p => runsBy_scanAndFixDotfiles n p) names

theorem runsBy_fixHomes : ∀ users : List RealUser, RunsBy (dotfileVisit faults) (fixHomes faults users)
  | [] => runsBy_pure _
  | user :: users => by
    have ih := runsBy_fixHomes users
    unfold fixHomes
    generalize pathMax = n
    split
    · exact ih
    · refine runsBy_bind (runsBy_ask _) fun attr => ?_
      cases attr with
      | none => exact ih
      | some attr =>
        obtain ⟨type, dev⟩ := attr
        dsimp only
        split
        · refine runsBy_bind (runsBy_scanAndFixDotfiles n user.home) fun r => ?_
          cases r with
          | error err => exact runsBy_pure _
          | ok u => exact ih
        · exact ih

theorem runsBy_fixDotfiles (params : DotfilesParams) : RunsBy (dotfileVisit faults) (fixDotfiles faults params) := by
  refine runsBy_bind (runsBy_ask _) fun entries => ?_
  cases entries with
  | error err => exact runsBy_pure _
  | ok entries =>
    dsimp only
    split
    · exact runsBy_pure _
    · exact runsBy_fixHomes _

end Dotfiles

/-! ## Log files -/

section Logfiles

variable {faults : Faults} {shell : Shell} {t : Tree}

/-- The mode of a log file is set. -/
def LogDetail.setsMode (faults : Faults) (d : LogDetail) : Bool :=
  !(d.configured || d.access.isNone) && !d.modeOk && (faults.chmod d.path).isNone

/-- The ids that a log file is given. -/
def LogDetail.setsIds (faults : Faults) (shell : Shell) (d : LogDetail) : Option (BitVec 32 × BitVec 32) :=
  if d.configured || d.access.isNone || (d.ownerOk && d.groupOk) || (faults.chown d.path).isSome then none
  else
    match shell.uidOf d.target.1, shell.gidOf d.target.2 with
    | some uid, some gid => some (uid, gid)
    | _, _ => none

/-- What the enforcer does to the attributes of a log file. -/
def logfileRepaired (faults : Faults) (shell : Shell) (d : LogDetail) (type : Str) (a : Access) : Access :=
  let a := if d.setsMode faults then { a with mode := d.policy.maxMode } else a
  match d.setsIds faults shell with
  | some (uid, gid) => a.chowned type uid gid
  | none => a

/-- What the `chown` of a log file, if there is one, makes of a mode. -/
def LogDetail.modeKept (faults : Faults) (shell : Shell) (d : LogDetail) (type : Str) (mode : BitVec 12) : BitVec 12 :=
  if (d.setsIds faults shell).isSome then modeAfterChown type mode else mode

theorem chmodLogfile_access (d : LogDetail) (j : Nat) : ((chmodLogfile faults d t).node j).access =
    if t.inode d.path = some j then
      (if (faults.chmod d.path).isNone then { (t.node j).access with mode := d.policy.maxMode } else (t.node j).access)
    else (t.node j).access := by
  unfold chmodLogfile
  cases faults.chmod d.path with
  | some err => exact (ite_self _).symm
  | none => exact Tree.update_access j

theorem chmodLogfile_inode (d : LogDetail) : (chmodLogfile faults d t).inode = t.inode := by
  unfold chmodLogfile
  cases faults.chmod d.path with
  | some err => rfl
  | none => exact Tree.update_inode

theorem chmodLogfile_type (d : LogDetail) (i : Nat) : ((chmodLogfile faults d t).node i).type = (t.node i).type := by
  unfold chmodLogfile
  cases faults.chmod d.path with
  | some err => rfl
  | none => exact Tree.update_type i

theorem chownLogfile_access (d : LogDetail) (hactive : (d.configured || d.access.isNone) = false)
    (hids : (d.ownerOk && d.groupOk) = false) (j : Nat) : ((chownLogfile faults shell d t).node j).access =
    if t.inode d.path = some j then
      (match d.setsIds faults shell with
        | some (uid, gid) => (t.node j).access.chowned (t.node j).type uid gid
        | none => (t.node j).access)
    else (t.node j).access := by
  unfold chownLogfile LogDetail.setsIds
  rw [hactive, hids]
  cases faults.chown d.path with
  | some err => exact (ite_self _).symm
  | none =>
    cases shell.uidOf d.target.1 with
    | none => exact (ite_self _).symm
    | some uid =>
      cases shell.gidOf d.target.2 with
      | none => exact (ite_self _).symm
      | some gid => exact Tree.update_access j

/-- **What the enforcer does** to the attributes of every file, for a detail. -/
theorem fixLogfile_access (d : LogDetail) (j : Nat) : ((fixLogfile faults shell d t).node j).access =
    if t.inode d.path = some j then logfileRepaired faults shell d (t.node j).type (t.node j).access
    else (t.node j).access := by
  unfold fixLogfile logfileRepaired
  cases hactive : (d.configured || d.access.isNone) with
  | true =>
    have hmode : d.setsMode faults = false := by simp [LogDetail.setsMode, hactive]
    have hids : d.setsIds faults shell = none := by simp [LogDetail.setsIds, hactive]
    rw [hmode, hids]
    exact (ite_self _).symm
  | false =>
    rw [if_neg Bool.false_ne_true]
    -- first the mode
    have hmode : ∀ t' : Tree, t' = (if d.modeOk = true then t else chmodLogfile faults d t) → t'.inode = t.inode ∧
        (t'.node j).type = (t.node j).type ∧ (t'.node j).access = if t.inode d.path = some j then
          (if d.setsMode faults then { (t.node j).access with mode := d.policy.maxMode } else (t.node j).access)
          else (t.node j).access := by
      rintro t' rfl
      rw [LogDetail.setsMode, hactive]
      cases d.modeOk with
      | true => exact ⟨rfl, rfl, (ite_self _).symm⟩
      | false => exact ⟨chmodLogfile_inode d, chmodLogfile_type d j, chmodLogfile_access d j⟩
    dsimp only
    obtain ⟨hinode, htype, haccess⟩ := hmode _ rfl
    generalize (if d.modeOk = true then t else chmodLogfile faults d t) = t' at hinode htype haccess ⊢
    -- then the ids
    cases hok : (d.ownerOk && d.groupOk) with
    | true =>
      have hids : d.setsIds faults shell = none := by simp [LogDetail.setsIds, hok]
      rw [if_pos rfl, haccess, hids]
    | false =>
      rw [if_neg Bool.false_ne_true, chownLogfile_access d hactive hok, hinode, htype, haccess]
      by_cases hj : t.inode d.path = some j
      · rw [if_pos hj, if_pos hj, if_pos hj]
      · rw [if_neg hj, if_neg hj, if_neg hj]

/-- A visit to a log file tightens: a mode that is set has only bits that are set already, and where the ids are set, an
accepted owner or group is the one that is set. -/
def LogfileTight (faults : Faults) (shell : Shell) (d : LogDetail) (t : Tree) : Prop :=
  ∀ i, t.inode d.path = some i →
    (d.setsMode faults = true →
      ModeSub (d.modeKept faults shell (t.node i).type d.policy.maxMode) (t.node i).access.mode) ∧
      ∀ uid gid, d.setsIds faults shell = some (uid, gid) →
        (d.ownerOk = true → uid = -1 ∨ uid = (t.node i).access.uid) ∧
          (d.groupOk = true → gid = -1 ∨ gid = (t.node i).access.gid)

theorem logfileRepaired_mode (d : LogDetail) (type : Str) (a : Access) :
    (logfileRepaired faults shell d type a).mode =
      d.modeKept faults shell type (if d.setsMode faults then d.policy.maxMode else a.mode) := by
  unfold logfileRepaired LogDetail.modeKept
  cases d.setsMode faults <;> cases d.setsIds faults shell <;> rfl

theorem logfileRepaired_ids (d : LogDetail) (type : Str) (a : Access) :
    (logfileRepaired faults shell d type a).uid = (match d.setsIds faults shell with
      | some (uid, _) => if uid = -1 then a.uid else uid
      | none => a.uid) ∧
    (logfileRepaired faults shell d type a).gid = match d.setsIds faults shell with
      | some (_, gid) => if gid = -1 then a.gid else gid
      | none => a.gid := by
  unfold logfileRepaired
  cases d.setsMode faults <;> cases d.setsIds faults shell <;> exact ⟨rfl, rfl⟩

theorem logfile_bounded (d : LogDetail) : Bounded d.path (fun _ => d.ownerOk)
    (fun _ => d.groupOk) d.policy.maxMode false t
    (fixLogfile faults shell d t) := by
  have hboth : d.ownerOk = true → d.groupOk = true → d.setsIds faults shell = none := by
    intro howner hgroup
    simp [LogDetail.setsIds, howner, hgroup]
  refine bounded_of (fixLogfile_access d) (fun type a => ?_) (fun type a ho hg => ?_) fun type a hg ho => ?_
  · refine ⟨if d.setsMode faults then d.policy.maxMode else a.mode, ?_, ?_⟩
    · split
      · exact .inr rfl
      · exact .inl rfl
    · rw [logfileRepaired_mode, LogDetail.modeKept]
      split
      · exact .inr rfl
      · exact .inl rfl
  · rw [(logfileRepaired_ids d type a).1, hboth ho (by simpa using hg)]
  · rw [(logfileRepaired_ids d type a).2, hboth (by simpa using ho) hg]

theorem logfile_tight_iff (d : LogDetail) :
    Tightens d.path (fun _ => d.ownerOk) (fun _ => d.groupOk) t (fixLogfile faults shell d t) ↔
      LogfileTight faults shell d t := by
  refine (tightens_iff (fixLogfile_access d)).trans (forall₂_congr fun i hi => ?_)
  generalize (t.node i).access = a
  generalize (t.node i).type = type
  rw [logfileRepaired_mode, (logfileRepaired_ids d type a).1, (logfileRepaired_ids d type a).2]
  refine and_congr ?_ ?_
  · cases d.setsMode faults with
    | true => exact ⟨fun h _ => h, fun h => h rfl⟩
    | false =>
      refine iff_of_true ?_ fun h => absurd h Bool.false_ne_true
      unfold LogDetail.modeKept
      split
      · exact modeAfterChown_sub type a.mode
      · exact .refl _
  · cases d.setsIds faults shell with
    | none => exact iff_of_true ⟨fun _ => rfl, fun _ => rfl⟩ fun _ _ h => nomatch h
    | some ids =>
      obtain ⟨uid, gid⟩ := ids
      have hkeeps : ∀ id old : BitVec 32, (if id = -1 then old else id) = old ↔ id = -1 ∨ id = old := by
        intro id old
        split
        next h => exact iff_of_true rfl (.inl h)
        next h => exact ⟨.inr, fun h' => h'.resolve_left h⟩
      simp only [hkeeps]
      constructor
      · intro h uid' gid' heq
        cases heq
        exact h
      · exact fun h => h uid gid rfl

end Logfiles

/-! ## Runs -/

/-- The enforcers, by what their visits are for: the path, the owner and the group that the probe accepts, the mode that
is set, whether owner and group are set each for itself, and the condition for a visit to tighten. -/
structure Hardener (V : Type) where
  apply : V → Tree → Tree
  path : V → Str
  ownerOk : V → Access → Bool
  groupOk : V → Access → Bool
  target : V → BitVec 12
  solo : Bool
  tight : V → Tree → Prop

/-- `fix_dotfiles`. -/
def dotfileHardener (faults : Faults) : Hardener (Str × RealUser) where
  apply := dotfileVisit faults
  path v := v.1
  ownerOk v a := idIs a.uid v.2.userUid
  groupOk v a := idIs a.gid v.2.userGid
  target v := maxModeFor (basename v.1)
  solo := true
  tight := DotfileTight faults

/-- `fix_logfile_access`. -/
def logfileHardener (faults : Faults) (shell : Shell) : Hardener LogDetail where
  apply := fixLogfile faults shell
  path d := d.path
  ownerOk d _ := d.ownerOk
  groupOk d _ := d.groupOk
  target d := d.policy.maxMode
  solo := false
  tight := LogfileTight faults shell

/-- `fix_bootloader_config`. -/
def bootloaderHardener (faults : Faults) : Hardener Str where
  apply p t := fixBootloaderPath faults t p
  path p := p
  ownerOk _ := ownedByRoot
  groupOk _ := groupOfRoot
  target p := bootloaderExpectedMode p
  solo := true
  tight p t := FixerTight (bootloaderVisit faults t p) p t

/-- `fix_sshd_config_access`. -/
def sshdHardener (faults : Faults) : Hardener Str where
  apply p t := fixSshdPath faults t p
  path p := p
  ownerOk _ := ownedByRoot
  groupOk _ := groupOfRoot
  target _ := sshdExpectedMode
  solo := true
  tight p t := FixerTight (sshdVisit faults t p) p t

/-- What holds of an enforcer and one of its runs: a visit is bounded, and tightens exactly if it meets the condition;
the run is a sequence of visits, and if all of them meet the condition, all of them tighten and no file has a permission
bit at the end that it did not have at the beginning. -/
structure Hardener.Hardens {V : Type} (h : Hardener V) (t t' : Tree) : Prop where
  bounded : ∀ v t, Bounded (h.path v) (h.ownerOk v) (h.groupOk v) (h.target v) h.solo t (h.apply v t)
  tightens : ∀ v t, Tightens (h.path v) (h.ownerOk v) (h.groupOk v) t (h.apply v t) ↔ h.tight v t
  run : ∃ visits, t' = visitAll h.apply visits t ∧ (Each h.apply h.tight visits t →
    Each h.apply (fun v t => Tightens (h.path v) (h.ownerOk v) (h.groupOk v) t (h.apply v t)) visits t ∧
      ∀ i, ModeSub (t'.node i).access.mode (t.node i).access.mode)

theorem Hardener.hardens {V : Type} {h : Hardener V} {t t' : Tree}
    (hbounded : ∀ v t, Bounded (h.path v) (h.ownerOk v) (h.groupOk v) (h.target v) h.solo t (h.apply v t))
    (htightens : ∀ v t, Tightens (h.path v) (h.ownerOk v) (h.groupOk v) t (h.apply v t) ↔ h.tight v t)
    (hrun : ∃ visits, t' = visitAll h.apply visits t) : h.Hardens t t' := by
  refine ⟨hbounded, htightens, ?_⟩
  obtain ⟨visits, rfl⟩ := hrun
  refine ⟨visits, rfl, fun hmeets => ?_⟩
  have htight := (each_congr htightens visits t).mpr hmeets
  exact ⟨htight, modeSub_visitAll (fun v t hv => hv.mode) visits t htight⟩

/-- **Hardening sets no bit but those of the target mode**, and tightens exactly where that mode and the first allowed
owner and group were there already. -/
theorem hardening_tightens_iff (faults : Faults) (t : Tree) :
    (∀ params : DotfilesParams, (dotfileHardener faults).Hardens t (fixDotfiles faults params t).2) ∧
    (∀ (shell : Shell) (params : LogParams) (details : List LogDetail),
    inspectLogfileAccess faults params t = .ok details →
      (logfileHardener faults shell).Hardens t (fixLogfileAccess faults shell details t).2) ∧
    (∀ (params : BootloaderParams) (paths : List Str) (ret : Ret) (t' : Tree),
      fixBootloaderConfig faults params t = .ok (paths, ret, t') → (bootloaderHardener faults).Hardens t t') ∧
    (∀ (fuel : Nat) (params : SshdParams) (files : List Str) (ret : Ret) (t' : Tree),
      fixSshdConfigAccess faults fuel params t = .ok (some (files, ret, t')) → (sshdHardener faults).Hardens t t') := by
  refine ⟨fun params => ?_, fun shell params details _ => ?_, fun params paths ret t' h => ?_,
    fun fuel params files ret t' h => ?_⟩
  · exact Hardener.hardens (fun v t => dotfile_bounded) (fun v t => dotfile_tight_iff) (runsBy_fixDotfiles params t)
  · exact Hardener.hardens (fun d t => logfile_bounded d) (fun d t => logfile_tight_iff d) ⟨details, rfl⟩
  · refine Hardener.hardens (fun p t => fixer_bounded (visits_bootloader faults t) p)
      (fun p t => fixer_tight_iff (visits_bootloader faults t) p) ⟨paths, ?_⟩
    unfold fixBootloaderConfig at h
    cases hpaths : collectBootloaderConfigPaths t.view pathMax params.base [] with
    | error err =>
      rw [hpaths] at h
      cases h
    | ok found =>
      rw [hpaths] at h
      cases h
      rfl
  · refine Hardener.hardens (fun p t => fixer_bounded (visits_sshd faults t) p)
      (fun p t => fixer_tight_iff (visits_sshd faults t) p) ⟨files, ?_⟩
    unfold fixSshdConfigAccess at h
    cases hfiles : discover t.view fuel params with
    | error err =>
      rw [hfiles] at h
      cases h
    | ok found =>
      cases found with
      | none =>
        rw [hfiles] at h
        cases h
      | some found =>
        rw [hfiles] at h
        cases h
        rfl

/-- A file with these attributes. -/
def plainFile (access : Access) (lines : List Str) : Inode :=
  { type := "file", dev := 0, access := access, names := .error "Not a directory", lines := .ok lines }

/-- A machine with a user whose profile only the user may read, and may execute. -/
def hostTree : Tree :=
  .ofTable
    [("/etc/passwd", 0), ("/etc/group", 1), ("/home/alice", 2), ("/home/alice/.profile", 3), ("/var/log", 4),
      ("/var/log/messages", 5), ("/boot", 6), ("/boot/grub.cfg", 7), ("/etc/ssh/sshd_config", 8)]
    (fun i => match i with
      | 0 => plainFile ⟨0, 0, 0o644⟩ ["root:x:0:0:root:/root:/sbin/nologin", "alice:x:1000:1000::/home/alice:/bin/bash"]
      | 1 => plainFile ⟨0, 0, 0o644⟩ ["root:x:0:", "alice:x:1000:"]
      | 2 => rootDirectory [".profile".toList]
      | 3 => plainFile ⟨1000, 1000, 0o700⟩ []
      | 4 => rootDirectory ["messages".toList]
      | 5 => plainFile ⟨0, 1000, 0o600⟩ []
      | 6 => rootDirectory ["grub.cfg".toList]
      | 7 => plainFile ⟨0, 0, 0o400⟩ []
      | _ => plainFile ⟨0, 0, 0o600⟩ [])
    (by decide)

theorem hostTree_listing : hostTree.Listing := by
  intro i names h
  match i, h with
  | 2, h | 4, h | 6, h =>
    cases h
    decide
  | 0, h | 1, h | 3, h | 5, h | 7, h => cases h
  | n + 8, h => cases h

/-- The one user. -/
def alice : RealUser := ⟨"alice", some (.fin 1000), some (.fin 1000), "/home/alice"⟩

theorem hostTree_bootloader : fixBootloaderConfig noFaults ⟨none⟩ hostTree =
    .ok (["/boot/grub.cfg".toList], .ok (), ["/boot/grub.cfg".toList].foldl (fixBootloaderPath noFaults) hostTree) := by
  have hpaths : collectBootloaderConfigPaths hostTree.view pathMax (BootloaderParams.base ⟨none⟩) [] =
      .ok ["/boot/grub.cfg".toList] := by decide +kernel
  rw [fixBootloaderConfig, hpaths]
  rfl

theorem hostTree_sshd : fixSshdConfigAccess noFaults 2 ⟨none, none, none⟩ hostTree =
    .ok (some (["/etc/ssh/sshd_config".toList], .ok (),
      ["/etc/ssh/sshd_config".toList].foldl (fixSshdPath noFaults) hostTree)) := by
  have hfiles : discover hostTree.view 2 ⟨none, none, none⟩ = .ok (some ["/etc/ssh/sshd_config".toList]) := by
    decide +kernel
  rw [fixSshdConfigAccess, hfiles]
  rfl

/-- The details of the probe for the one log file. -/
def hostDetails : List LogDetail :=
  ["/var/log/messages".toList].map (accessDetail noFaults hostTree
    (accountEntries 7 ["root:x:0:0:root:/root:/sbin/nologin", "alice:x:1000:1000::/home/alice:/bin/bash"])
    (accountEntries 4 ["root:x:0:", "alice:x:1000:"]))

theorem hostTree_details : inspectLogfileAccess noFaults ⟨none, none, none⟩ hostTree = .ok hostDetails := by
  have hfiles : collectRegularFiles hostTree.view pathMax "/var/log" [] = .ok ["/var/log/messages".toList] := by
    decide +kernel
  have hpasswd : readNameIndex hostTree.view "/etc/passwd" 7 = .ok (accountEntries 7
      ["root:x:0:0:root:/root:/sbin/nologin", "alice:x:1000:1000::/home/alice:/bin/bash"]) := by decide +kernel
  have hgroup : readNameIndex hostTree.view "/etc/group" 4 =
      .ok (accountEntries 4 ["root:x:0:", "alice:x:1000:"]) := by decide +kernel
  unfold inspectLogfileAccess
  dsimp only [Option.getD_none]
  rw [hpasswd, hgroup, hfiles]
  rfl

/-- A shell in which all commands work, and all names are those of `root`. -/
def rootShell : Shell := ⟨fun _ => some 0, fun _ => some 0, fun _ => (.bool true, .num 0)⟩

theorem hostTree_hardens :
    (logfileHardener noFaults rootShell).Hardens hostTree (fixLogfileAccess noFaults rootShell hostDetails hostTree).2 ∧
    (bootloaderHardener noFaults).Hardens hostTree
      (["/boot/grub.cfg".toList].foldl (fixBootloaderPath noFaults) hostTree) ∧
    (sshdHardener noFaults).Hardens hostTree (["/etc/ssh/sshd_config".toList].foldl (fixSshdPath noFaults) hostTree) :=
  ⟨(hardening_tightens_iff noFaults hostTree).2.1 _ _ _ hostTree_details,
    (hardening_tightens_iff noFaults hostTree).2.2.1 _ _ _ _ hostTree_bootloader,
    (hardening_tightens_iff noFaults hostTree).2.2.2 _ _ _ _ _ hostTree_sshd⟩

/-- The profile was for its owner only; afterwards everybody may read it. -/
theorem profile_opened : (fixDotfiles noFaults ⟨none, .nil⟩ hostTree).1 = .ok (.ok ()) ∧
    (hostTree.node 3).access.mode = 0o700 ∧ ((fixDotfiles noFaults ⟨none, .nil⟩ hostTree).2.node 3).access.mode =
    0o644 ∧
    ¬ Tightens "/home/alice/.profile" (fun a => idIs a.uid alice.userUid) (fun a => idIs a.gid alice.userGid) hostTree
      (fixDotfiles noFaults ⟨none, .nil⟩ hostTree).2 := by
  have hmode : ((fixDotfiles noFaults ⟨none, .nil⟩ hostTree).2.node 3).access.mode = 0o644 := by decide +kernel
  refine ⟨by decide +kernel, rfl, hmode, fun h => ?_⟩
  have hsub := h.mode 3
  rw [hmode] at hsub
  exact absurd hsub (by decide)

end Seharden
