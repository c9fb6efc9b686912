import Loongshield.Seharden.DotfilesProbe
import Loongshield.Seharden.Tightening

/-!
# The walks of the dot-file enforcer and the dot-file probe

Enforcer and probe walk through the same directories. `dotPaths` is what such a walk comes by in a tree; while the
enforcer runs, forbidden files disappear from it and attributes change, and nothing else (`Erased`).

- `scanDotfiles_eq`: the probe reports on `dotPaths`;
- `covers_scanAndFixDotfiles`, `coversHomes_fixHomes`: the enforcer visits what is still there of it.
-/

namespace Seharden

open Lua

/-! ## What a walk comes by -/

/-- Lists one after the other, up to the first call that raises. -/
def concatAll {α β : Type} (f : α → Except Err (List β)) : List α → Except Err (List β)
  | [] => .ok []
  | x :: xs => do
    let found ← f x
    let rest ← concatAll f xs
    return found ++ rest

/-- The dot entries a walk comes by at a name of a directory. -/
def dotEntry (t : Tree) (rootDev : Nat) (dirPath : Str) (scan : Str → Except Err (List Str)) (name : Str) :
    Except Err (List Str) :=
  if name = ".".toList || name = "..".toList then .ok []
  else
    match t.lfsSymlinkattributes (dirPath ++ "/" ++ name) with
    | none => .ok []
    | some (type, dev) =>
      if dev ≠ rootDev then .ok []
      else if isMatch name "^%." then .ok [dirPath ++ "/" ++ name]
      else if type = "directory".toList then scan (dirPath ++ "/" ++ name)
      else .ok []

/-- The dot entries a walk comes by in a directory: on the device `rootDev`, and not below other dot entries. -/
def dotPaths (t : Tree) (rootDev : Nat) : Nat → Str → Except Err (List Str)
  | 0, _ => .ok []
  | n + 1, dirPath => do
    let names ← t.view.names dirPath
    concatAll (dotEntry t rootDev dirPath (dotPaths t rootDev n)) names

/-- A user's home is an absolute path to a directory on the device. -/
def Home (t : Tree) (user : RealUser) (dev : Nat) : Prop :=
  user.home.head? = some '/' ∧ t.lfsSymlinkattributes user.home = some ("directory".toList, dev)

section Probe

variable {faults : Faults} {t : Tree} {user : RealUser}

/-- The report on a path that a walk came by. -/
def reportOn (faults : Faults) (t : Tree) (user : RealUser) (path : Str) : DotfileReport :=
  match t.lfsSymlinkattributes path with
  | some (type, _) => inspectDotfile faults t user path type
  | none => .empty

/-- The reports on several paths. -/
def reportsOn (faults : Faults) (t : Tree) (user : RealUser) (paths : List Str) : DotfileReport :=
  paths.foldr (fun path report => (reportOn faults t user path).append report) .empty

theorem reportsOn_append (paths more : List Str) :
    reportsOn faults t user (paths ++ more) = (reportsOn faults t user paths).append
      (reportsOn faults t user more) := by
  induction paths with
  | nil => rfl
  | cons path paths ih =>
    unfold reportsOn at ih ⊢
    rw [List.cons_append, List.foldr_cons, ih, List.foldr_cons]
    simp [DotfileReport.append]

theorem reportsOn_details {paths : List Str} :
    (reportsOn faults t user paths).details = [] ↔ ∀ p ∈ paths, (reportOn faults t user p).details = [] := by
  induction paths with
  | nil => exact iff_of_true rfl (by simp)
  | cons path paths ih =>
    rw [List.forall_mem_cons, ← ih]
    exact List.append_eq_nil_iff

/-- The loop over the names: the probe reports on what the walk comes by. -/
theorem reportAll_eq {α : Type} {f : α → Except Err DotfileReport} {g : α → Except Err (List Str)}
    (h : ∀ x, f x = (g x).map (reportsOn faults t user)) : ∀ xs : List α,
      reportAll f xs = (concatAll g xs).map (reportsOn faults t user)
  | [] => rfl
  | x :: xs => by
    unfold reportAll concatAll
    rw [h x, reportAll_eq h xs]
    cases g x with
    | error err => rfl
    | ok found =>
      cases concatAll g xs with
      | error err => rfl
      | ok rest => exact congrArg Except.ok (reportsOn_append found rest).symm

/-- **The probe reports on what the walk comes by.** -/
theorem scanDotfiles_eq (dev : Nat) : ∀ (n : Nat) (dirPath : Str),
    scanDotfiles faults t user dev n dirPath = (dotPaths t dev n dirPath).map (reportsOn faults t user)
  | 0, _ => rfl
  | n + 1, dirPath => by
    unfold scanDotfiles dotPaths
    cases t.view.names dirPath with
    | error err => rfl
    | ok names =>
      refine reportAll_eq (fun name => ?_) names
      unfold inspectEntry dotEntry
      split
      · rfl
      · dsimp only
        cases hattr : t.lfsSymlinkattributes (dirPath ++ "/" ++ name) with
        | none => rfl
        | some attr =>
          obtain ⟨type, dev'⟩ := attr
          dsimp only
          split
          · rfl
          · split
            · have hone : reportsOn faults t user [dirPath ++ "/" ++ name] =
                  inspectDotfile faults t user (dirPath ++ "/" ++ name) type := by
                unfold reportsOn reportOn
                rw [List.foldr_cons, hattr]
                simp [DotfileReport.append, DotfileReport.empty]
              exact congrArg Except.ok hone.symm
            · split
              · exact scanDotfiles_eq dev n _
              · rfl

end Probe

/-! ## What the enforcer changes -/

/-- What the enforcer leaves of a tree: forbidden files may be gone, attributes may have changed. -/
structure Erased (t t' : Tree) : Prop where
  node : ∀ i, ∃ access, t'.node i = { t.node i with access := access }
  kept : ∀ path, isForbidden (basename path) = false → t'.inode path = t.inode path ∧ t'.link path = t.link path
  gone : ∀ path, (t'.inode path = t.inode path ∧ t'.link path = t.link path) ∨
    (t'.inode path = none ∧ t'.link path = none)

namespace Erased

variable {t t' t'' : Tree}

theorem refl (t : Tree) : Erased t t := ⟨fun _ => ⟨_, rfl⟩, fun _ _ => ⟨rfl, rfl⟩, fun _ => .inl ⟨rfl, rfl⟩⟩

theorem trans (h : Erased t t') (h' : Erased t' t'') : Erased t t'' where
  node i := by
    obtain ⟨access, hi⟩ := h.node i
    obtain ⟨access', hi'⟩ := h'.node i
    exact ⟨access', by rw [hi', hi]⟩
  kept path hpath := by
    obtain ⟨hinode, hlink⟩ := h.kept path hpath
    obtain ⟨hinode', hlink'⟩ := h'.kept path hpath
    exact ⟨hinode'.trans hinode, hlink'.trans hlink⟩
  gone path := by
    rcases h'.gone path with ⟨hinode', hlink'⟩ | hgone
    · rcases h.gone path with ⟨hinode, hlink⟩ | ⟨hinode, hlink⟩
      · exact .inl ⟨hinode'.trans hinode, hlink'.trans hlink⟩
      · exact .inr ⟨hinode'.trans hinode, hlink'.trans hlink⟩
    · exact .inr hgone

/-- Where the names lead to the same places, the attributes of a link's own are the same. -/
theorem attributes_eq (h : Erased t t') {path : Str} (hinode : t'.inode path = t.inode path)
    (hlink : t'.link path = t.link path) : t'.lfsSymlinkattributes path = t.lfsSymlinkattributes path := by
  have hnode : ∀ i, ((t'.node i).type, (t'.node i).dev) = ((t.node i).type, (t.node i).dev) := by
    intro i
    obtain ⟨access, hi⟩ := h.node i
    rw [hi]
  unfold Tree.lfsSymlinkattributes
  rw [hinode, hlink]
  simp only [hnode]

theorem attributes_kept (h : Erased t t') {path : Str} (hpath : isForbidden (basename path) = false) :
    t'.lfsSymlinkattributes path = t.lfsSymlinkattributes path :=
  h.attributes_eq (h.kept path hpath).1 (h.kept path hpath).2

/-- What is there is what was there. -/
theorem attributes_present (h : Erased t t') {path : Str} (hpath : t'.lfsSymlinkattributes path ≠ none) :
    t'.inode path = t.inode path ∧ t'.lfsSymlinkattributes path = t.lfsSymlinkattributes path := by
  rcases h.gone path with ⟨hinode, hlink⟩ | ⟨hinode, hlink⟩
  · exact ⟨hinode, h.attributes_eq hinode hlink⟩
  · refine absurd ?_ hpath
    unfold Tree.lfsSymlinkattributes
    rw [hinode, hlink]
    rfl

/-- What is gone stays gone. -/
theorem attributes_none (h : Erased t t') {path : Str} (hpath : t.lfsSymlinkattributes path = none) :
    t'.lfsSymlinkattributes path = none := by
  by_contra hne
  exact hne ((h.attributes_present hne).2.trans hpath)

theorem names_eq (h : Erased t t') {path : Str} (hinode : t'.inode path = t.inode path) :
    t'.view.names path = t.view.names path := by
  cases hi : t.inode path with
  | none => simp only [Tree.view, hinode, hi]
  | some i =>
    obtain ⟨access, hnode⟩ := h.node i
    rw [Tree.view_names hi, Tree.view_names (hinode.trans hi), hnode]

theorem lines_eq (h : Erased t t') {path : Str} (hpath : isForbidden (basename path) = false) :
    t'.view.lines path = t.view.lines path := by
  have hinode := (h.kept path hpath).1
  cases hi : t.inode path with
  | none => simp only [Tree.view, hinode, hi]
  | some i =>
    obtain ⟨access, hnode⟩ := h.node i
    rw [Tree.view_lines hi, Tree.view_lines (hinode.trans hi), hnode]

theorem listing (h : Erased t t') (hlist : t.Listing) : t'.Listing := by
  intro i names hnames
  obtain ⟨access, hi⟩ := h.node i
  rw [hi] at hnames
  exact hlist i names hnames

theorem update (path : Str) (f : Inode → Access) : Erased t (t.update path f) :=
  ⟨fun _ => Tree.update_node _, fun _ _ => ⟨by rw [Tree.update_inode], by rw [Tree.update_link]⟩,
    fun _ => .inl ⟨by rw [Tree.update_inode], by rw [Tree.update_link]⟩⟩

theorem remove {path : Str} (hpath : isForbidden (basename path) = true) : Erased t (t.remove path) where
  node _ := ⟨_, rfl⟩
  kept p hp := by
    have hne : p ≠ path := by
      rintro rfl
      rw [hpath] at hp
      exact absurd hp (by decide)
    exact ⟨if_neg hne, if_neg hne⟩
  gone p := by
    by_cases hp : p = path
    · exact .inr ⟨if_pos hp, if_pos hp⟩
    · exact .inl ⟨if_neg hp, if_neg hp⟩

end Erased

section Names

theorem basename_entry {dir name : Str} (hne : name ≠ []) (hslash : '/' ∉ name) :
    basename (dir ++ "/" ++ name) = name := by
  have h := congrArg Prod.snd (@splitPath_slash dir name hne hslash)
  rw [show dir ++ "/".toList ++ name = dir ++ '/' :: name by simp]
  exact h

/-- A forbidden name is that of a dot entry. -/
theorem isForbidden_of_not_dot {name : Str} (h : isMatch name "^%." = false) : isForbidden name = false := by
  by_contra hne
  have hforbidden : isForbidden name = true := by simpa using hne
  unfold isForbidden at hforbidden
  have hdot : isMatch name "^%." = true := by
    rcases Bool.or_eq_true_iff.mp hforbidden with h | h
    · rw [of_decide_eq_true h]
      decide
    · rw [of_decide_eq_true h]
      decide
  rw [hdot] at h
  cases h

end Names

/-! ## The walk in a tree with erased files -/

section Walk

variable {t t' : Tree} {dev : Nat}

/-- An entry is there. -/
def Tree.present (t : Tree) (path : Str) : Bool := (t.lfsSymlinkattributes path).isSome

theorem concatAll_ok {α β : Type} {f : α → Except Err (List β)} {x : α} {xs : List α} {l : List β} :
    concatAll f (x :: xs) = .ok l ↔ ∃ found rest, f x = .ok found ∧ concatAll f xs = .ok rest ∧ l = found ++ rest := by
  change (f x >>= fun found => concatAll f xs >>= fun rest => pure (found ++ rest)) = _ ↔ _
  constructor
  · intro h
    obtain ⟨found, hfound, h⟩ := bind_ok.mp h
    obtain ⟨rest, hrest, h⟩ := bind_ok.mp h
    cases h
    exact ⟨found, rest, hfound, hrest, rfl⟩
  · rintro ⟨found, rest, hfound, hrest, rfl⟩
    rw [hfound, hrest]
    rfl

/-- What a loop finds, if every step finds what is left of what another step found. -/
theorem concatAll_filter {α β : Type} {f g : α → Except Err (List β)} {p : β → Bool} : ∀ {xs : List α} {l : List β},
    (∀ x ∈ xs, ∀ l, f x = .ok l → g x = .ok (l.filter p)) → concatAll f xs = .ok l → concatAll g xs = .ok (l.filter p)
  | [], l, _, h => by
    cases h
    rfl
  | x :: xs, l, hstep, h => by
    obtain ⟨found, rest, hfound, hrest, rfl⟩ := concatAll_ok.mp h
    refine concatAll_ok.mpr ⟨found.filter p, rest.filter p, hstep x List.mem_cons_self found hfound, ?_, ?_⟩
    · exact concatAll_filter (fun y hy => hstep y (List.mem_cons_of_mem x hy)) hrest
    · exact List.filter_append _ _

/-- **A walk comes by what is left** of what it came by before. -/
theorem dotPaths_erased (h : Erased t t') (hlist : t.Listing) : ∀ {n : Nat} {dirPath : Str} {paths : List Str},
    t'.present dirPath = true → dotPaths t dev n dirPath = .ok paths →
      dotPaths t' dev n dirPath = .ok (paths.filter t'.present)
  | 0, _, _, _, hpaths => by
    cases hpaths
    rfl
  | n + 1, dirPath, paths, hdir, hpaths => by
    unfold dotPaths at hpaths ⊢
    have hinode := (h.attributes_present (Option.isSome_iff_ne_none.mp hdir)).1
    rw [h.names_eq hinode]
    obtain ⟨names, hnames, hpaths⟩ := bind_ok.mp hpaths
    rw [hnames]
    refine concatAll_filter (fun name hname l hl => ?_) hpaths
    obtain ⟨hne, hslash⟩ := (hlist.view hnames).2 name hname
    unfold dotEntry at hl ⊢
    split at hl
    · next hdots =>
      rw [if_pos hdots]
      cases hl
      rfl
    · next hdots =>
      rw [if_neg hdots]
      cases hattr : t.lfsSymlinkattributes (dirPath ++ "/" ++ name) with
      | none =>
        rw [hattr] at hl
        rw [h.attributes_none hattr]
        cases hl
        rfl
      | some attr =>
        rw [hattr] at hl
        obtain ⟨type, dev'⟩ := attr
        by_cases hgone : t'.lfsSymlinkattributes (dirPath ++ "/" ++ name) = none
        · -- only a dot entry can be gone
          rw [hgone]
          have hdot : isMatch name "^%." = true := by
            by_contra hnot
            have hforbidden := isForbidden_of_not_dot (Bool.eq_false_iff.mpr hnot)
            rw [← @basename_entry dirPath name hne hslash] at hforbidden
            rw [h.attributes_kept hforbidden, hattr] at hgone
            cases hgone
          dsimp only at hl ⊢
          split at hl
          · cases hl
            rfl
          · cases hl
            have habsent : ¬ t'.present (dirPath ++ "/" ++ name) = true := by
              rw [Tree.present, hgone]
              exact Bool.false_ne_true
            rw [List.filter_cons_of_neg habsent]
            rfl
        · rw [(h.attributes_present hgone).2, hattr]
          dsimp only at hl ⊢
          split at hl
          · next hdev =>
            rw [if_pos hdev]
            cases hl
            rfl
          · next hdev =>
            rw [if_neg hdev]
            have hpresent : t'.present (dirPath ++ "/" ++ name) = true := Option.isSome_iff_ne_none.mpr hgone
            split at hl
            · next hdot =>
              rw [if_pos hdot]
              cases hl
              rw [List.filter_cons_of_pos hpresent]
              rfl
            · next hdot =>
              rw [if_neg hdot]
              split at hl
              · next htype =>
                rw [if_pos htype]
                exact dotPaths_erased h hlist hpresent hl
              · next htype =>
                rw [if_neg htype]
                cases hl
                rfl

/-- A walk comes by entries that are there. -/
theorem present_of_dotPaths : ∀ {n : Nat} {dirPath : Str} {paths : List Str}, dotPaths t dev n dirPath = .ok paths →
    ∀ p ∈ paths, t.present p = true
  | 0, _, _, hpaths => by
    cases hpaths
    simp
  | n + 1, dirPath, paths, hpaths => by
    unfold dotPaths at hpaths
    obtain ⟨names, -, hpaths⟩ := bind_ok.mp hpaths
    have hloop : ∀ {names paths : List Str}, concatAll (dotEntry t dev dirPath (dotPaths t dev n)) names = .ok paths →
        ∀ p ∈ paths, t.present p = true := by
      intro names
      induction names with
      | nil =>
        intro paths h
        cases h
        simp
      | cons name names ih =>
        intro paths h
        obtain ⟨found, rest, hfound, hrest, rfl⟩ := concatAll_ok.mp h
        rw [List.forall_mem_append]
        refine ⟨?_, ih hrest⟩
        unfold dotEntry at hfound
        split at hfound
        · cases hfound
          simp
        · cases hattr : t.lfsSymlinkattributes (dirPath ++ "/" ++ name) with
          | none =>
            rw [hattr] at hfound
            cases hfound
            simp
          | some attr =>
            rw [hattr] at hfound
            dsimp only at hfound
            repeat' split at hfound
            · cases hfound
              simp
            · cases hfound
              intro p hp
              rw [List.mem_singleton.mp hp, Tree.present, hattr]
              rfl
            · exact present_of_dotPaths hfound
            · cases hfound
              simp
    exact hloop hpaths

/-- In a directory without entries there is nothing to come by. -/
theorem dotPaths_unoccupied {home : Str} {n : Nat} {paths : List Str}
    (hhome : t.lfsSymlinkattributes home = some ("directory".toList, dev)) (hempty : t.occupied home = false)
    (hpaths : dotPaths t dev n home = .ok paths) : paths = [] := by
  cases n with
  | zero =>
    cases hpaths
    rfl
  | succ n =>
    unfold dotPaths at hpaths
    obtain ⟨names, hnames, hpaths⟩ := bind_ok.mp hpaths
    have hlink : t.link home = none := by
      cases hl : t.link home with
      | none => rfl
      | some d =>
        unfold Tree.lfsSymlinkattributes at hhome
        rw [hl] at hhome
        have htype : "link".toList = "directory".toList := congrArg Prod.fst (Option.some.inj hhome)
        exact absurd htype (by decide)
    have hnone : ∀ name ∈ names, name ≠ ".".toList → name ≠ "..".toList →
        t.lfsSymlinkattributes (home ++ "/" ++ name) = none := by
      unfold Tree.lfsSymlinkattributes at hhome
      rw [hlink] at hhome
      cases hi : t.inode home with
      | none =>
        rw [hi] at hhome
        cases hhome
      | some i =>
        rw [hi] at hhome
        have htype : (t.node i).type = "directory".toList := congrArg Prod.fst (Option.some.inj hhome)
        have hnames' : (t.node i).names = .ok names := (Tree.view_names hi).symm.trans hnames
        unfold Tree.occupied at hempty
        rw [hlink, hi] at hempty
        simp only [htype, hnames', Option.isNone_none, Bool.true_and, beq_self_eq_true, List.any_eq_false] at hempty
        intro name hname hdot hdots
        have hentry := hempty name hname
        rw [bne_iff_ne.mpr hdot, bne_iff_ne.mpr hdots] at hentry
        exact Option.not_isSome_iff_eq_none.mp hentry
    have hloop : ∀ {names paths : List Str}, (∀ name ∈ names, name ≠ ".".toList → name ≠ "..".toList →
        t.lfsSymlinkattributes (home ++ "/" ++ name) = none) →
        concatAll (dotEntry t dev home (dotPaths t dev n)) names = .ok paths → paths = [] := by
      intro names
      induction names with
      | nil =>
        intro paths _ h
        cases h
        rfl
      | cons name names ih =>
        intro paths hnone h
        obtain ⟨found, rest, hfound, hrest, rfl⟩ := concatAll_ok.mp h
        obtain ⟨hhead, htail⟩ := List.forall_mem_cons.mp hnone
        rw [ih htail hrest, List.append_nil]
        unfold dotEntry at hfound
        split at hfound
        · cases hfound
          rfl
        · next hdots =>
          have hnames : name ≠ ".".toList ∧ name ≠ "..".toList := by simpa using hdots
          rw [hhead hnames.1 hnames.2] at hfound
          cases hfound
          rfl
    exact hloop hnone hpaths

end Walk

/-! ## Runs of the enforcer -/

section Runs

variable {faults : Faults} {t t' : Tree} {user : RealUser}

/-- Visits that all succeed, one after the other. -/
def OkRun (faults : Faults) : List (Str × RealUser) → Tree → Tree → Prop
  | [], t, t' => t' = t
  | v :: visits, t, t' => (fixDotfile faults v.1 v.2 t).1 = .ok (.ok ()) ∧
      OkRun faults visits (dotfileVisit faults v t) t'

theorem okRun_append {visits more : List (Str × RealUser)} {t t' t'' : Tree} (h : OkRun faults visits t t')
    (h' : OkRun faults more t' t'') : OkRun faults (visits ++ more) t t'' := by
  induction visits generalizing t with
  | nil =>
    cases h
    exact h'
  | cons v visits ih => exact ⟨h.1, ih h.2⟩

theorem erased_fixDotfileOwner (path : Str) (stat : Access) : Erased t (fixDotfileOwner faults path user stat t).2 := by
  unfold fixDotfileOwner
  split
  · exact .refl t
  · unfold fsChownFile
    cases user.userUid with
    | none => exact .refl t
    | some uid =>
      cases user.userGid with
      | none => exact .refl t
      | some gid =>
        rw [Act.step_bind_apply]
        cases faults.chown path with
        | some err => exact .refl t
        | none => exact .update path _

/-- A visit erases, whatever it returns. -/
theorem erased_fixDotfile (path : Str) : Erased t (fixDotfile faults path user t).2 := by
  unfold fixDotfile
  dsimp only
  split
  · next hforbidden =>
    unfold osRemoveFile
    rw [Act.step_bind_apply]
    cases faults.remove path with
    | some err => exact .refl t
    | none =>
      dsimp only
      split
      · exact .refl t
      · exact .remove hforbidden
  · rw [Act.step_bind_apply]
    dsimp only
    split
    · exact .refl t
    · rw [Act.step_bind_apply]
      cases faults.fsStat t path with
      | none => exact .refl t
      | some stat =>
        dsimp only
        split
        · exact erased_fixDotfileOwner path stat
        · unfold fsChmodFile
          rw [Act.step_bind_apply]
          cases faults.chmod path with
          | some err => exact .refl t
          | none => exact (Erased.update path _).trans (erased_fixDotfileOwner path stat)

theorem OkRun.erased {visits : List (Str × RealUser)} {t t' : Tree} (h : OkRun faults visits t t') : Erased t t' := by
  induction visits generalizing t with
  | nil =>
    cases h
    exact .refl _
  | cons v visits ih => exact (erased_fixDotfile v.1).trans (ih h.2)

/-- A visit to another file leaves every name. -/
theorem fixDotfile_names {path : Str} (h : isForbidden (basename path) = false) :
    (fixDotfile faults path user t).2.inode = t.inode ∧ (fixDotfile faults path user t).2.link = t.link := by
  have howner : ∀ (t : Tree) (stat : Access), (fixDotfileOwner faults path user stat t).2.inode = t.inode ∧
      (fixDotfileOwner faults path user stat t).2.link = t.link := by
    intro t stat
    unfold fixDotfileOwner
    split
    · exact ⟨rfl, rfl⟩
    · unfold fsChownFile
      cases user.userUid with
      | none => exact ⟨rfl, rfl⟩
      | some uid =>
        cases user.userGid with
        | none => exact ⟨rfl, rfl⟩
        | some gid =>
          rw [Act.step_bind_apply]
          cases faults.chown path with
          | some err => exact ⟨rfl, rfl⟩
          | none => exact ⟨Tree.update_inode, Tree.update_link⟩
  unfold fixDotfile
  dsimp only
  rw [h, if_neg Bool.false_ne_true, Act.step_bind_apply]
  dsimp only
  split
  · exact ⟨rfl, rfl⟩
  · rw [Act.step_bind_apply]
    cases faults.fsStat t path with
    | none => exact ⟨rfl, rfl⟩
    | some stat =>
      dsimp only
      split
      · exact howner t stat
      · unfold fsChmodFile
        rw [Act.step_bind_apply]
        cases faults.chmod path with
        | some err => exact ⟨rfl, rfl⟩
        | none =>
          obtain ⟨hinode, hlink⟩ := howner (t.chmod path (maxModeFor (basename path))) stat
          exact ⟨hinode.trans Tree.update_inode, hlink.trans Tree.update_link⟩

/-- A forbidden file that was visited is gone. -/
theorem gone_of_fixDotfile {path : Str} (hforbidden : isForbidden (basename path) = true)
    (h : (fixDotfile faults path user t).1 = .ok (.ok ())) :
    (fixDotfile faults path user t).2 = t.remove path ∧ t.occupied path = false := by
  unfold fixDotfile at h ⊢
  dsimp only at h ⊢
  rw [if_pos hforbidden] at h ⊢
  unfold osRemoveFile at h ⊢
  rw [Act.step_bind_apply] at h ⊢
  cases hremove : faults.remove path with
  | some err =>
    rw [hremove] at h
    cases h
  | none =>
    rw [hremove] at h
    dsimp only at h ⊢
    cases hoccupied : t.occupied path with
    | true =>
      rw [hoccupied] at h
      cases h
    | false => exact ⟨rfl, rfl⟩

/-- What is gone after a run was removed by a visit, when there was nothing in it. -/
theorem OkRun.unoccupied {t₀ : Tree} {path : Str} : ∀ {visits : List (Str × RealUser)} {t t' : Tree},
    OkRun faults visits t t' → Erased t₀ t → t.present path = true → t'.present path = false →
      ∃ s, Erased t₀ s ∧ s.present path = true ∧ s.occupied path = false
  | [], t, t', h, _, hthere, hgone => by
    cases h
    rw [hthere] at hgone
    cases hgone
  | v :: visits, t, t', h, herased, hthere, hgone => by
    by_cases hnext : (dotfileVisit faults v t).present path = true
    · exact OkRun.unoccupied h.2 (herased.trans (erased_fixDotfile v.1)) hnext hgone
    · -- this visit removed it
      have hforbidden : isForbidden (basename v.1) = true := by
        by_contra hnot
        have hvisit : Erased t (dotfileVisit faults v t) := erased_fixDotfile v.1
        have hlinks : (dotfileVisit faults v t).inode = t.inode ∧ (dotfileVisit faults v t).link = t.link :=
          fixDotfile_names (Bool.eq_false_iff.mpr hnot)
        refine hnext ?_
        rw [Tree.present, hvisit.attributes_eq (congrFun hlinks.1 path) (congrFun hlinks.2 path)]
        exact hthere
      obtain ⟨hremoved, hoccupied⟩ := gone_of_fixDotfile hforbidden h.1
      have heq : path = v.1 := by
        by_contra hne
        refine hnext ?_
        change (fixDotfile faults v.1 v.2 t).2.present path = true
        rw [hremoved]
        have hsame : (t.remove v.1).lfsSymlinkattributes path = t.lfsSymlinkattributes path := by
          unfold Tree.lfsSymlinkattributes Tree.remove
          simp [hne]
        rw [Tree.present, hsame]
        exact hthere
      rw [heq] at hthere ⊢
      exact ⟨t, herased, hthere, hoccupied⟩

/-- Forbidden files that were visited are gone at the end. -/
theorem OkRun.gone : ∀ {visits : List (Str × RealUser)} {t t' : Tree}, OkRun faults visits t t' →
    ∀ v ∈ visits, isForbidden (basename v.1) = true → t'.present v.1 = false
  | [], _, _, _, _, hv, _ => absurd hv List.not_mem_nil
  | w :: visits, t, t', h, v, hv, hforbidden => by
    rcases List.mem_cons.mp hv with rfl | hv
    · have hnone : (dotfileVisit faults v t).lfsSymlinkattributes v.1 = none := by
        change (fixDotfile faults v.1 v.2 t).2.lfsSymlinkattributes v.1 = none
        rw [(gone_of_fixDotfile hforbidden h.1).1]
        unfold Tree.lfsSymlinkattributes Tree.remove
        simp
      rw [Tree.present, h.2.erased.attributes_none hnone]
      rfl
    · exact OkRun.gone h.2 v hv hforbidden

/-- A run for a user that visits only what is in a list, and all of it that is there. -/
def CoversPaths (faults : Faults) (user : RealUser) (paths : List Str) (t t' : Tree) : Prop :=
  ∃ found : List Str, OkRun faults (found.map (·, user)) t t' ∧ (∀ p ∈ found, p ∈ paths) ∧
    ∀ p ∈ paths, p ∈ found ∨ t'.present p = false

theorem CoversPaths.nil (t : Tree) : CoversPaths faults user [] t t := ⟨[], rfl, by simp, by simp⟩

theorem CoversPaths.append {paths more : List Str} {t t' t'' : Tree} (h : CoversPaths faults user paths t t')
    (h' : CoversPaths faults user more t' t'') : CoversPaths faults user (paths ++ more) t t'' := by
  obtain ⟨found, hrun, hsub, hall⟩ := h
  obtain ⟨found', hrun', hsub', hall'⟩ := h'
  refine ⟨found ++ found', ?_, ?_, ?_⟩
  · rw [List.map_append]
    exact okRun_append hrun hrun'
  · rw [List.forall_mem_append]
    exact ⟨fun p hp => List.mem_append_left _ (hsub p hp), fun p hp => List.mem_append_right _ (hsub' p hp)⟩
  · rw [List.forall_mem_append]
    refine ⟨fun p hp => ?_, fun p hp => ?_⟩
    · rcases hall p hp with hfound | hgone
      · exact .inl (List.mem_append_left _ hfound)
      · have hnone := hrun'.erased.attributes_none (Option.not_isSome_iff_eq_none.mp (Bool.eq_false_iff.mp hgone))
        exact .inr (by rw [Tree.present, hnone]; rfl)
    · rcases hall' p hp with hfound | hgone
      · exact .inl (List.mem_append_right _ hfound)
      · exact .inr hgone

theorem CoversPaths.erased {paths : List Str} (h : CoversPaths faults user paths t t') : Erased t t' := by
  obtain ⟨found, hrun, -⟩ := h
  exact hrun.erased

/-- What the loop over the names does for a name. -/
def scanEntry (faults : Faults) (user : RealUser) (rootDev : Nat) (dirPath : Str) (scan : Str →
    TreeM Ret) (name : Str) :
    TreeM Ret :=
  if name = ".".toList || name = "..".toList then pure (.ok ())
  else do
    match ← .step fun t => (t.lfsSymlinkattributes (dirPath ++ "/" ++ name), t) with
    | none => pure (.ok ())
    | some (type, dev) =>
      if dev ≠ rootDev then pure (.ok ())
      else if isMatch name "^%." then fixDotfile faults (dirPath ++ "/" ++ name) user
      else if type = "directory".toList then scan (dirPath ++ "/" ++ name)
      else pure (.ok ())

theorem scanNames_cons (rootDev : Nat) (dirPath : Str) (scan : Str → TreeM Ret) (name : Str) (names : List Str) :
    scanNames faults user rootDev dirPath scan (name :: names) =
      scanEntry faults user rootDev dirPath scan name >>= fun r => match r with
        | .error err => return .error err
        | .ok () => scanNames faults user rootDev dirPath scan names := by
  funext t
  conv_lhs => unfold scanNames
  unfold scanEntry
  split
  · rfl
  · rw [Act.step_bind_apply, Act.bind_assoc, Act.step_bind_apply]
    dsimp only
    cases t.lfsSymlinkattributes (dirPath ++ "/" ++ name) with
    | none => rfl
    | some attr =>
      dsimp only
      split
      · rfl
      · split
        · rfl
        · split <;> rfl

/-- What is done for a name visits what the walk comes by there. -/
theorem covers_scanEntry {t₀ : Tree} {dev : Nat} {dirPath name : Str} {scan : Str → TreeM Ret}
    {scanPaths : Str → Except Err (List Str)}
    (hscan : ∀ path t t', Erased t₀ t → t.present path = true → scan path t = (.ok (.ok ()), t') →
      ∃ paths, scanPaths path = .ok paths ∧ CoversPaths faults user paths t t')
    (hne : name ≠ []) (hslash : '/' ∉ name) (herased : Erased t₀ t)
    (h : scanEntry faults user dev dirPath scan name t = (.ok (.ok ()), t')) :
    ∃ paths, dotEntry t₀ dev dirPath scanPaths name = .ok paths ∧ CoversPaths faults user paths t t' := by
  have hsame : ∀ {t' : Tree}, (pure (.ok ()) : TreeM Ret) t = (.ok (.ok ()), t') → t' = t := by
    intro t' h
    cases h
    rfl
  unfold scanEntry at h
  unfold dotEntry
  split at h
  · next hdots =>
    rw [if_pos hdots, hsame h]
    exact ⟨[], rfl, .nil t⟩
  · next hdots =>
    rw [if_neg hdots]
    rw [Act.step_bind_apply] at h
    dsimp only at h
    by_cases hthere : t.lfsSymlinkattributes (dirPath ++ "/" ++ name) = none
    · -- a dot entry that is gone already
      rw [hthere] at h
      rw [hsame h]
      cases hattr : t₀.lfsSymlinkattributes (dirPath ++ "/" ++ name) with
      | none => exact ⟨[], rfl, .nil t⟩
      | some attr =>
        have hdot : isMatch name "^%." = true := by
          by_contra hnot
          have hforbidden := isForbidden_of_not_dot (Bool.eq_false_iff.mpr hnot)
          rw [← @basename_entry dirPath name hne hslash] at hforbidden
          rw [herased.attributes_kept hforbidden, hattr] at hthere
          cases hthere
        have habsent : t.present (dirPath ++ "/" ++ name) = false := by
          rw [Tree.present, hthere]
          rfl
        dsimp only
        rw [if_pos hdot]
        split
        · exact ⟨[], rfl, .nil t⟩
        · exact ⟨[_], rfl, [], rfl, by simp, fun p hp => .inr (by rw [List.mem_singleton.mp hp, habsent])⟩
    · rw [← (herased.attributes_present hthere).2]
      cases hattr : t.lfsSymlinkattributes (dirPath ++ "/" ++ name) with
      | none => exact absurd hattr hthere
      | some attr =>
        rw [hattr] at h
        dsimp only at h ⊢
        split at h
        · next hdev =>
          rw [if_pos hdev, hsame h]
          exact ⟨[], rfl, .nil t⟩
        · next hdev =>
          rw [if_neg hdev]
          split at h
          · next hdot =>
            rw [if_pos hdot]
            refine ⟨[_], rfl, [dirPath ++ "/" ++ name], ⟨congrArg Prod.fst h, ?_⟩, fun p hp => hp, fun p hp => .inl hp⟩
            exact (congrArg Prod.snd h).symm
          · next hdot =>
            rw [if_neg hdot]
            split at h
            · next htype =>
              rw [if_pos htype]
              exact hscan _ t t' herased (Option.isSome_iff_ne_none.mpr hthere) h
            · next htype =>
              rw [if_neg htype, hsame h]
              exact ⟨[], rfl, .nil t⟩

/-- The loop over the names visits what the walk comes by. -/
theorem covers_scanNames {t₀ : Tree} {dev : Nat} {dirPath : Str} {scan : Str → TreeM Ret}
    {scanPaths : Str → Except Err (List Str)}
    (hscan : ∀ path t t', Erased t₀ t → t.present path = true → scan path t = (.ok (.ok ()), t') →
      ∃ paths, scanPaths path = .ok paths ∧ CoversPaths faults user paths t t') : ∀ (names : List Str) (t t' : Tree),
    (∀ name ∈ names, name ≠ [] ∧ '/' ∉ name) → Erased t₀ t →
      scanNames faults user dev dirPath scan names t = (.ok (.ok ()), t') →
        ∃ paths, concatAll (dotEntry t₀ dev dirPath scanPaths) names = .ok paths ∧ CoversPaths faults user paths t t'
  | [], t, t', _, _, h => by
    cases h
    exact ⟨[], rfl, .nil t⟩
  | name :: names, t, t', hnames, herased, h => by
    rw [scanNames_cons] at h
    obtain ⟨ret, s, hentry, hrest⟩ := Act.of_bind_ok h
    cases ret with
    | error err => cases hrest
    | ok u =>
      obtain ⟨⟨hne, hslash⟩, hnames⟩ := List.forall_mem_cons.mp hnames
      obtain ⟨found, hfound, hcovers⟩ := covers_scanEntry hscan hne hslash herased hentry
      obtain ⟨rest, hrest, hcovers'⟩ := covers_scanNames hscan names s t' hnames (herased.trans hcovers.erased) hrest
      exact ⟨found ++ rest, concatAll_ok.mpr ⟨found, rest, hfound, hrest, rfl⟩, hcovers.append hcovers'⟩

/-- **The enforcer visits what the walk comes by**, as far as it is still there. -/
theorem covers_scanAndFixDotfiles {t₀ : Tree} {dev : Nat} (hlist : t₀.Listing) :
    ∀ (n : Nat) (dirPath : Str) (t t' : Tree),
    Erased t₀ t → t.present dirPath = true → scanAndFixDotfiles faults user dev n dirPath t = (.ok (.ok ()), t') →
      ∃ paths, dotPaths t₀ dev n dirPath = .ok paths ∧ CoversPaths faults user paths t t'
  | 0, _, t, t', _, _, h => by
    cases h
    exact ⟨[], rfl, .nil t⟩
  | n + 1, dirPath, t, t', herased, hthere, h => by
    unfold scanAndFixDotfiles at h
    obtain ⟨names, s, hnames, hscan⟩ := Act.of_bind_ok h
    have hs : s = t := (congrArg Prod.snd hnames).symm
    subst hs
    have hview : t₀.view.names dirPath = .ok names := by
      rw [← herased.names_eq (herased.attributes_present (Option.isSome_iff_ne_none.mp hthere)).1]
      exact congrArg Prod.fst hnames
    unfold dotPaths
    rw [hview]
    exact covers_scanNames (fun path t t' => covers_scanAndFixDotfiles hlist n path t t') names s t'
      (hlist.view hview).2 herased hscan

/-- What a run over the homes of some users covers: it visits what the walks in their homes come by, and all of it that
is there, unless the home is gone. -/
structure CoversHomes (faults : Faults) (n : Nat) (t₀ : Tree) (users : List RealUser) (visits : List (Str × RealUser))
    (t t' : Tree) :
    Prop where
  run : OkRun faults visits t t'
  sound : ∀ v ∈ visits, v.2 ∈ users ∧ ∃ dev paths, Home t₀ v.2 dev ∧ dotPaths t₀ dev n v.2.home = .ok paths ∧
    v.1 ∈ paths
  complete : ∀ user ∈ users, ∀ dev, Home t₀ user dev → t'.present user.home = false ∨
    ∃ paths, dotPaths t₀ dev n user.home = .ok paths ∧ ∀ p ∈ paths, (p, user) ∈ visits ∨ t'.present p = false

theorem present_erased (h : Erased t t') {path : Str} (hgone : t.present path = false) : t'.present path = false := by
  rw [Tree.present, h.attributes_none (Option.not_isSome_iff_eq_none.mp (Bool.eq_false_iff.mp hgone))]
  rfl

/-- A user whose home is not walked through: it is none, or gone. -/
theorem CoversHomes.skip {n : Nat} {t₀ : Tree} {users : List RealUser} {visits : List (Str × RealUser)}
    (h : CoversHomes faults n t₀ users visits t t') (hskip : ∀ dev, Home t₀ user dev → t.present user.home = false) :
    CoversHomes faults n t₀ (user :: users) visits t t' where
  run := h.run
  sound v hv := ⟨List.mem_cons_of_mem user (h.sound v hv).1, (h.sound v hv).2⟩
  complete := by
    rw [List.forall_mem_cons]
    exact ⟨fun dev hhome => .inl (present_erased h.run.erased (hskip dev hhome)), h.complete⟩

theorem CoversHomes.cons {n : Nat} {t₀ s : Tree} {users : List RealUser} {visits : List (Str × RealUser)} {dev : Nat}
    {paths : List Str} (hhome : Home t₀ user dev) (hpaths : dotPaths t₀ dev n user.home = .ok paths)
    (hcovers : CoversPaths faults user paths t s) (h : CoversHomes faults n t₀ users visits s t') :
    ∃ visits', CoversHomes faults n t₀ (user :: users) visits' t t' := by
  obtain ⟨found, hrun, hsub, hall⟩ := hcovers
  refine ⟨found.map (·, user) ++ visits, okRun_append hrun h.run, ?_, ?_⟩
  · rw [List.forall_mem_append]
    refine ⟨fun v hv => ?_, fun v hv => ⟨List.mem_cons_of_mem user (h.sound v hv).1, (h.sound v hv).2⟩⟩
    obtain ⟨p, hp, rfl⟩ := List.mem_map.mp hv
    exact ⟨List.mem_cons_self, dev, paths, hhome, hpaths, hsub p hp⟩
  · rw [List.forall_mem_cons]
    refine ⟨fun dev' hhome' => .inr ?_, fun user' huser' dev' hhome' => ?_⟩
    · have hdev : dev' = dev := congrArg Prod.snd (Option.some.inj (hhome'.2.symm.trans hhome.2))
      refine ⟨paths, hdev ▸ hpaths, fun p hp => ?_⟩
      rcases hall p hp with hfound | hgone
      · exact .inl (List.mem_append_left _ (List.mem_map_of_mem hfound))
      · exact .inr (present_erased h.run.erased hgone)
    · rcases h.complete user' huser' dev' hhome' with hgone | ⟨paths', hpaths', hall'⟩
      · exact .inl hgone
      · exact .inr ⟨paths', hpaths', fun p hp => (hall' p hp).imp_left (List.mem_append_right _)⟩

/-- What the loop over the users does for a user, where `walk` is the walk through the home. -/
def fixHome (walk : Nat → TreeM Ret) (user : RealUser) : TreeM Ret :=
  if user.home.head? ≠ some '/' then pure (.ok ())
  else do
    match ← .step fun t => (t.lfsSymlinkattributes user.home, t) with
    | some (type, dev) => if type = "directory".toList then walk dev else pure (.ok ())
    | none => pure (.ok ())

/-- The loop for a user and the others. -/
def fixHomeThen (walk : Nat → TreeM Ret) (user : RealUser) (rest : TreeM Ret) : TreeM Ret := do
  if user.home.head? ≠ some '/' then rest
  else
    match ← .step fun t => (t.lfsSymlinkattributes user.home, t) with
    | some (type, dev) =>
      if type = "directory".toList then
        match ← walk dev with
        | .error err => return .error err
        | .ok () => rest
      else rest
    | none => rest

theorem fixHomeThen_eq (walk : Nat → TreeM Ret) (user : RealUser) (rest : TreeM Ret) :
    fixHomeThen walk user rest = fixHome walk user >>= fun r => match r with
      | .error err => return .error err
      | .ok () => rest := by
  funext t
  unfold fixHomeThen fixHome
  split
  · rfl
  · rw [Act.step_bind_apply, Act.bind_assoc, Act.step_bind_apply]
    dsimp only
    cases t.lfsSymlinkattributes user.home with
    | none => rfl
    | some attr =>
      dsimp only
      split <;> rfl

theorem fixHomes_cons (user : RealUser) (users : List RealUser) : fixHomes faults (user :: users) =
    fixHomeThen (fun dev => scanAndFixDotfiles faults user dev pathMax user.home) user (fixHomes faults users) := by
  unfold fixHomeThen
  exact (fixHomes.eq_2 ..).trans rfl

/-- A home is covered, if it is one that is there. -/
theorem covers_fixHome {t₀ : Tree} {n : Nat} (hlist : t₀.Listing) (herased : Erased t₀ t)
    (h : fixHome (fun dev => scanAndFixDotfiles faults user dev n user.home) user t = (.ok (.ok ()), t')) :
    (t' = t ∧ ∀ dev, Home t₀ user dev → t.present user.home = false) ∨
      ∃ dev paths, Home t₀ user dev ∧ dotPaths t₀ dev n user.home = .ok paths ∧ CoversPaths faults user paths t t' := by
  have hsame : ∀ {t' : Tree}, (pure (.ok ()) : TreeM Ret) t = (.ok (.ok ()), t') → t' = t := by
    intro t' h
    cases h
    rfl
  unfold fixHome at h
  split at h
  · next hhead => exact .inl ⟨hsame h, fun dev hhome => absurd hhome.1 hhead⟩
  · next hhead =>
    rw [Act.step_bind_apply] at h
    dsimp only at h
    cases hattr : t.lfsSymlinkattributes user.home with
    | none =>
      rw [hattr] at h
      refine .inl ⟨hsame h, fun dev hhome => ?_⟩
      rw [Tree.present, hattr]
      rfl
    | some attr =>
      rw [hattr] at h
      have hthere : t.lfsSymlinkattributes user.home ≠ none := by
        rw [hattr]
        exact Option.some_ne_none attr
      have hattr₀ := (herased.attributes_present hthere).2.symm.trans hattr
      dsimp only at h
      split at h
      · next htype =>
        obtain ⟨paths, hpaths, hcovers⟩ := covers_scanAndFixDotfiles hlist n user.home t t' herased
          (Option.isSome_iff_ne_none.mpr hthere) h
        refine .inr ⟨attr.2, paths, ⟨not_not.mp hhead, ?_⟩, hpaths, hcovers⟩
        rw [hattr₀, ← htype]
      · next htype =>
        refine .inl ⟨hsame h, fun dev hhome => absurd ?_ htype⟩
        exact congrArg Prod.fst (Option.some.inj (hattr₀.symm.trans hhome.2))

/-- **The loop over the users** covers their homes. -/
theorem coversHomes_fixHomes {t₀ : Tree} (hlist : t₀.Listing) : ∀ (users : List RealUser) (t t' : Tree), Erased t₀ t →
    fixHomes faults users t = (.ok (.ok ()), t') → ∃ visits, CoversHomes faults pathMax t₀ users visits t t'
  | [], t, t', _, h => by
    cases h
    exact ⟨[], rfl, by simp, by simp⟩
  | user :: users, t, t', herased, h => by
    rw [fixHomes_cons, fixHomeThen_eq] at h
    obtain ⟨ret, s, hhome, hrest⟩ := Act.of_bind_ok h
    cases ret with
    | error err => cases hrest
    | ok u =>
      rcases covers_fixHome hlist herased hhome with ⟨rfl, hskip⟩ | ⟨dev, paths, hdev, hpaths, hcovers⟩
      · obtain ⟨visits, hvisits⟩ := coversHomes_fixHomes hlist users s t' herased hrest
        exact ⟨visits, hvisits.skip hskip⟩
      · obtain ⟨visits, hvisits⟩ := coversHomes_fixHomes hlist users s t' (herased.trans hcovers.erased) hrest
        exact CoversHomes.cons hdev hpaths hcovers hvisits

end Runs

end Seharden
