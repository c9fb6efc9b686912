import Loongshield.Seharden.Trim
import Loongshield.Seharden.View

/-!
# `users.inspect_identity`

`inspect_identity` looks for accounts and groups with the number of root, in the entries that `shared/account_files.lua`
reads. One loop over the accounts serves two checks.

- `readEntries`: the entries of an account file; `splitColonFields_eq`: their fields;
- `inspectIdentity`: the probe;
- `scan_spec`: what the loop counts and details;
- `identity_exact_iff`: when the answers are exact.
-/

namespace Seharden
namespace Identity

open Lua Pattern

/-! ## `shared/account_files.lua` -/

/-- `split_colon_fields`. -/
def splitColonFields (line : Str) : List Str := captures (line ++ ":") "(.-):"

/-- `read_entries`. -/
def readEntries (view : View) (path : Str) (minFields : Nat) : Except Str (List (List Str)) :=
  match view.lines path with
  | .error _ => .error ("Could not open " ++ path ++ " for reading.")
  | .ok lines => .ok ((lines.filter fun line => !isMatch line "^#").filterMap fun line =>
      if minFields ≤ (splitColonFields line).length then some (splitColonFields line) else none)

/-- `read_passwd`. -/
def readPasswd (view : View) (path : Str) : Except Str (List (List Str)) := readEntries view path 7

/-- `read_group`. -/
def readGroup (view : View) (path : Str) : Except Str (List (List Str)) := readEntries view path 4

/-! ## `inspect_identity` -/

/-- `GID_ZERO_EXCLUDED_USERS`. -/
def gidZeroExcludedUsers : List Str := ["sync", "shutdown", "halt", "operator"]

/-- An entry of `details`: the name of an account or a group with its number, or a file that cannot be read. -/
inductive Detail
  | user (user : Str) (uid gid : Option Flt) (reason : Str)
  | group (group : Str) (gid : Option Flt) (reason : Str)
  | path (path reason error : Str)
  deriving DecidableEq

/-- What a check found beside the details. -/
inductive Findings
  | unavailable
  | groups (rootGroupGidZero : Bool) (nonRootGidZeroGroupCount : Nat)
  | users (rootUidZero rootGidZero : Bool) (nonRootUidZeroCount nonRootGidZeroCount : Nat)
  deriving DecidableEq

/-- The report of a check. -/
structure Report where
  available : Bool
  compliant : Bool
  check : Str
  findings : Findings
  count : Nat
  details : List Detail
  deriving DecidableEq

/-- `unavailable_result`. -/
def unavailableResult (check path err : Str) : Report where
  available := false
  compliant := false
  check := check
  findings := .unavailable
  count := 1
  details := [.path path "evidence_unavailable" err]

/-- The fields of an account that are read: `parts[1]`, `tonumber(parts[3])`, `tonumber(parts[4])`. -/
structure Account where
  user : Str
  uid : Option Flt
  gid : Option Flt
  deriving DecidableEq

/-- The account in an entry of `/etc/passwd`. -/
def Account.ofParts (parts : List Str) : Account where
  user := parts.getD 0 []
  uid := strscan (parts.getD 2 [])
  gid := strscan (parts.getD 3 [])

/-- The variables of the loop over the accounts. -/
structure Scan where
  rootUidZero : Bool
  rootGidZero : Bool
  nonRootUidZeroCount : Nat
  nonRootGidZeroCount : Nat
  details : List Detail

/-- The variables before the loop. -/
def Scan.init : Scan := ⟨false, false, 0, 0, []⟩

/-- The body of the loop over the accounts. -/
def scanAccount (s : Scan) (a : Account) : Scan :=
  if a.user = "root".toList then
    { s with rootUidZero := a.uid = some (.fin 0), rootGidZero := a.gid = some (.fin 0) }
  else if a.uid = some (.fin 0) then
    { s with
      nonRootUidZeroCount := s.nonRootUidZeroCount + 1
      details := s.details ++ [.user a.user a.uid none "non_root_uid_zero"] }
  else if a.gid = some (.fin 0) ∧ a.user ∉ gidZeroExcludedUsers then
    { s with
      nonRootGidZeroCount := s.nonRootGidZeroCount + 1
      details := s.details ++ [.user a.user none a.gid "non_root_gid_zero"] }
  else s

/-- The loop over the accounts. -/
def scan (accounts : List Account) : Scan := accounts.foldl scanAccount .init

/-- The branch for `uid_zero` and `gid_zero_users`. -/
def inspectUsers (check : Str) (accounts : List Account) : Report :=
  let s := scan accounts
  let details :=
    if check = "uid_zero".toList ∧ s.rootUidZero = false then
      s.details ++ [.user "root" none none "root_uid_not_zero"]
    else if check = "gid_zero_users".toList ∧ s.rootGidZero = false then
      s.details ++ [.user "root" none none "root_gid_not_zero"]
    else s.details
  { available := true
    compliant := check = "uid_zero".toList && s.rootUidZero && s.nonRootUidZeroCount == 0 ||
      check = "gid_zero_users".toList && s.rootGidZero && s.nonRootGidZeroCount == 0
    check := check
    findings := .users s.rootUidZero s.rootGidZero s.nonRootUidZeroCount s.nonRootGidZeroCount
    count := details.length
    details := details }

/-- The branch for `gid_zero_groups`. -/
def inspectGroups (check : Str) (groups : List (List Str)) : Report :=
  let gidZero := groups.filter fun parts => strscan (parts.getD 2 []) = some (.fin 0)
  let rootGroupGidZero := gidZero.any fun parts => parts.getD 0 [] = "root".toList
  let others := gidZero.filter fun parts => parts.getD 0 [] ≠ "root".toList
  let found := others.map fun parts =>
    Detail.group (parts.getD 0 []) (strscan (parts.getD 2 [])) "non_root_gid_zero_group"
  let details := if rootGroupGidZero then found else found ++ [.group "root" none "root_group_gid_not_zero"]
  { available := true
    compliant := rootGroupGidZero && others.length == 0
    check := check
    findings := .groups rootGroupGidZero others.length
    count := details.length
    details := details }

/-- `inspect_identity`, with the paths of its dependencies. -/
def inspectIdentity (view : View) (passwdPath groupPath check : Str) : Except Str Report :=
  if check ∉ ["uid_zero".toList, "gid_zero_users".toList, "gid_zero_groups".toList] then
    .error "Probe 'users.inspect_identity' requires check to be one of: uid_zero, gid_zero_users, gid_zero_groups."
  else if check = "gid_zero_groups".toList then
    match readGroup view groupPath with
    | .error err => .ok (unavailableResult check groupPath err)
    | .ok groups => .ok (inspectGroups check groups)
  else
    match readPasswd view passwdPath with
    | .error err => .ok (unavailableResult check passwdPath err)
    | .ok entries => .ok (inspectUsers check (entries.map Account.ofParts))

/-! ## Entries -/

/-- The fields of a line are the pieces between its colons. -/
theorem splitColonFields_eq (line : Str) : splitColonFields line = line.splitOn ':' := by
  have hpieces : gmatch (line ++ [':']) "(.-):" = .ok ((line.splitOn ':').map fun w => [.str w]) :=
    gmatch_pieces rfl line
  unfold splitColonFields captures
  rw [show ":".toList = [':'] from rfl, hpieces]
  exact (List.map_map ..).trans (List.map_id _)

/-- The accounts in the lines of a file. -/
def accountsOf (lines : List Str) : List Account :=
  ((lines.filter fun line => line.head? ≠ some '#').map (·.splitOn ':')).filter (7 ≤ ·.length) |>.map Account.ofParts

theorem readPasswd_eq {view : View} {path : Str} {lines : List Str} (h : view.lines path = .ok lines) :
    ∃ entries, readPasswd view path = .ok entries ∧ entries.map Account.ofParts = accountsOf lines := by
  unfold readPasswd readEntries
  rw [h]
  refine ⟨_, rfl, ?_⟩
  unfold accountsOf
  congr 1
  have hfilter : (fun line => !isMatch line "^#") = fun line : Str => decide (line.head? ≠ some '#') := by
    funext line
    rw [isMatch_hash]
    cases line with
    | nil => rfl
    | cons x line => simp; rfl
  rw [hfilter]
  induction lines.filter fun line => decide (line.head? ≠ some '#') with
  | nil => rfl
  | cons line lines ih =>
    rw [List.map_cons, List.filterMap_cons, List.filter_cons, splitColonFields_eq, ← ih]
    by_cases hlen : 7 ≤ (line.splitOn ':').length
    · simp [hlen]
    · simp [hlen]

/-! ## What the loop finds -/

section Found

variable (accounts : List Account)

/-- The entries of root. -/
def roots : List Account := accounts.filter fun a => a.user = "root".toList

/-- The number that counts for root is zero: that of its last entry. -/
def LastRootZero (id : Account → Option Flt) : Prop := ∃ a, (roots accounts).getLast? = some a ∧ id a = some (.fin 0)

/-- Every entry of root has the number zero, and there is one. -/
def RootZero (id : Account → Option Flt) : Prop :=
  roots accounts ≠ [] ∧ ∀ a ∈ roots accounts, id a = some (.fin 0)

/-- No other account has the UID 0. -/
def NoOtherUidZero : Prop := ∀ a ∈ accounts, a.user ≠ "root".toList → a.uid ≠ some (.fin 0)

/-- No other account outside the list has the GID 0. -/
def NoOtherGidZero : Prop :=
  ∀ a ∈ accounts, a.user ≠ "root".toList → a.user ∉ gidZeroExcludedUsers → a.gid ≠ some (.fin 0)

/-- The same, of the accounts that the loop does not count for their UID. -/
def NoCountedGidZero : Prop :=
  ∀ a ∈ accounts, a.user ≠ "root".toList → a.uid ≠ some (.fin 0) → a.user ∉ gidZeroExcludedUsers →
    a.gid ≠ some (.fin 0)

/-- What the variables say after the loop. -/
structure Found (s : Scan) : Prop where
  rootUid : s.rootUidZero = true ↔ LastRootZero accounts Account.uid
  rootGid : s.rootGidZero = true ↔ LastRootZero accounts Account.gid
  uidCount : s.nonRootUidZeroCount = 0 ↔ NoOtherUidZero accounts
  gidCount : s.nonRootGidZeroCount = 0 ↔ NoCountedGidZero accounts
  details : s.details.length = s.nonRootUidZeroCount + s.nonRootGidZeroCount

end Found

theorem forall_mem_concat {α : Type} {p : α → Prop} {l : List α} {x : α} :
    (∀ y ∈ l ++ [x], p y) ↔ (∀ y ∈ l, p y) ∧ p x := by
  rw [List.forall_mem_append, List.forall_mem_singleton]

theorem lastRootZero_concat_root {accounts : List Account} {a : Account} (ha : a.user = "root".toList)
    (id : Account → Option Flt) : LastRootZero (accounts ++ [a]) id ↔ id a = some (.fin 0) := by
  have hroots : roots (accounts ++ [a]) = roots accounts ++ [a] := by
    rw [roots, List.filter_append, List.filter_cons_of_pos (by simpa using ha)]
    rfl
  rw [LastRootZero, hroots, List.getLast?_concat]
  exact ⟨fun ⟨_, hb, hid⟩ => Option.some.inj hb ▸ hid, fun hid => ⟨a, rfl, hid⟩⟩

theorem lastRootZero_concat_other {accounts : List Account} {a : Account} (ha : a.user ≠ "root".toList)
    (id : Account → Option Flt) : LastRootZero (accounts ++ [a]) id ↔ LastRootZero accounts id := by
  have hroots : roots (accounts ++ [a]) = roots accounts := by
    rw [roots, List.filter_append, List.filter_cons_of_neg (by simpa using ha)]
    exact List.append_nil _
  rw [LastRootZero, hroots]
  rfl

/-- One account. -/
theorem Found.step {accounts : List Account} {s : Scan} (h : Found accounts s) (a : Account) :
    Found (accounts ++ [a]) (scanAccount s a) := by
  unfold scanAccount
  by_cases hroot : a.user = "root".toList
  · rw [if_pos hroot]
    exact {
      rootUid := by rw [lastRootZero_concat_root hroot]; exact decide_eq_true_iff
      rootGid := by rw [lastRootZero_concat_root hroot]; exact decide_eq_true_iff
      uidCount := by
        rw [NoOtherUidZero, forall_mem_concat, and_iff_left fun hne => absurd hroot hne]
        exact h.uidCount
      gidCount := by
        rw [NoCountedGidZero, forall_mem_concat, and_iff_left fun hne => absurd hroot hne]
        exact h.gidCount
      details := h.details }
  · rw [if_neg hroot]
    have huid := @lastRootZero_concat_other accounts a hroot Account.uid
    have hgid := @lastRootZero_concat_other accounts a hroot Account.gid
    by_cases hzero : a.uid = some (.fin 0)
    · rw [if_pos hzero]
      exact {
        rootUid := h.rootUid.trans huid.symm
        rootGid := h.rootGid.trans hgid.symm
        uidCount := by
          rw [NoOtherUidZero, forall_mem_concat]
          exact iff_of_false (Nat.succ_ne_zero _) fun hall => hall.2 hroot hzero
        gidCount := by
          rw [NoCountedGidZero, forall_mem_concat, and_iff_left fun _ hne => absurd hzero hne]
          exact h.gidCount
        details := by
          rw [List.length_append, h.details, List.length_singleton]
          dsimp only
          omega }
    · rw [if_neg hzero]
      have huidCount : s.nonRootUidZeroCount = 0 ↔ NoOtherUidZero (accounts ++ [a]) := by
        rw [NoOtherUidZero, forall_mem_concat, and_iff_left fun _ => hzero]
        exact h.uidCount
      by_cases hcounted : a.gid = some (.fin 0) ∧ a.user ∉ gidZeroExcludedUsers
      · rw [if_pos hcounted]
        exact {
          rootUid := h.rootUid.trans huid.symm
          rootGid := h.rootGid.trans hgid.symm
          uidCount := huidCount
          gidCount := by
            rw [NoCountedGidZero, forall_mem_concat]
            exact iff_of_false (Nat.succ_ne_zero _) fun hall => hall.2 hroot hzero hcounted.2 hcounted.1
          details := by
            rw [List.length_append, h.details, List.length_singleton]
            dsimp only
            omega }
      · rw [if_neg hcounted]
        exact {
          rootUid := h.rootUid.trans huid.symm
          rootGid := h.rootGid.trans hgid.symm
          uidCount := huidCount
          gidCount := by
            rw [NoCountedGidZero, forall_mem_concat, and_iff_left fun _ _ hout hgid => hcounted ⟨hgid, hout⟩]
            exact h.gidCount
          details := h.details }

/-- **What the loop counts and details.** -/
theorem scan_spec (accounts : List Account) : Found accounts (scan accounts) := by
  induction accounts using List.reverseRecOn with
  | nil =>
    have hnone : ∀ id, ¬LastRootZero [] id := fun _ ⟨_, h, _⟩ => Option.some_ne_none _ h.symm
    exact {
      rootUid := iff_of_false Bool.false_ne_true (hnone _)
      rootGid := iff_of_false Bool.false_ne_true (hnone _)
      uidCount := iff_of_true rfl fun _ h => absurd h List.not_mem_nil
      gidCount := iff_of_true rfl fun _ h => absurd h List.not_mem_nil
      details := rfl }
  | append_singleton accounts a ih =>
    rw [scan, List.foldl_append]
    exact ih.step a

theorem lastRootZero_of_rootZero {accounts : List Account} {id : Account → Option Flt} (h : RootZero accounts id) :
    LastRootZero accounts id := by
  obtain ⟨a, ha⟩ := Option.ne_none_iff_exists'.mp fun hnone => h.1 (List.getLast?_eq_none_iff.mp hnone)
  exact ⟨a, ha, h.2 a (List.mem_of_getLast? ha)⟩

theorem rootZero_of_lastRootZero {accounts : List Account} {id : Account → Option Flt} (h : LastRootZero accounts id)
    (hall : ∀ a ∈ roots accounts, id a = some (.fin 0)) : RootZero accounts id := by
  obtain ⟨a, ha, -⟩ := h
  exact ⟨List.ne_nil_of_mem (List.mem_of_getLast? ha), hall⟩

/-! ## The two checks -/

/-- The answer of a check is what it should be, and the count is zero iff it complies. -/
def Exact (view : View) (passwdPath groupPath check : Str) (holds : Prop) : Prop :=
  ∃ report, inspectIdentity view passwdPath groupPath check = .ok report ∧
    (report.compliant = true ↔ holds) ∧ (report.count = 0 ↔ report.compliant = true)

section Checks

variable {view : View} {passwdPath groupPath : Str} {lines : List Str}

/-- The two checks of the accounts. -/
theorem inspectIdentity_users (hlines : view.lines passwdPath = .ok lines) {check : Str}
    (hcheck : check = "uid_zero" ∨ check = "gid_zero_users") :
    inspectIdentity view passwdPath groupPath check = .ok (inspectUsers check (accountsOf lines)) := by
  obtain ⟨entries, hentries, heq⟩ := readPasswd_eq hlines
  have hknown : check ∈ ["uid_zero".toList, "gid_zero_users".toList, "gid_zero_groups".toList] ∧
      check ≠ "gid_zero_groups".toList := by
    rcases hcheck with rfl | rfl <;> decide
  unfold inspectIdentity
  rw [if_neg (not_not.mpr hknown.1), if_neg hknown.2, hentries, ← heq]

theorem uidZero_compliant (accounts : List Account) : (inspectUsers "uid_zero" accounts).compliant = true ↔
    LastRootZero accounts Account.uid ∧ NoOtherUidZero accounts := by
  have h := scan_spec accounts
  rw [← h.rootUid, ← h.uidCount]
  show (true && (scan accounts).rootUidZero && (scan accounts).nonRootUidZeroCount == 0 ||
    false && (scan accounts).rootGidZero && (scan accounts).nonRootGidZeroCount == 0) = true ↔ _
  simp

theorem gidZero_compliant (accounts : List Account) : (inspectUsers "gid_zero_users" accounts).compliant = true ↔
    LastRootZero accounts Account.gid ∧ NoCountedGidZero accounts := by
  have h := scan_spec accounts
  rw [← h.rootGid, ← h.gidCount]
  show (false && (scan accounts).rootUidZero && (scan accounts).nonRootUidZeroCount == 0 ||
    true && (scan accounts).rootGidZero && (scan accounts).nonRootGidZeroCount == 0) = true ↔ _
  simp

theorem uidZero_count (accounts : List Account) : (inspectUsers "uid_zero" accounts).count = 0 ↔
    LastRootZero accounts Account.uid ∧ NoOtherUidZero accounts ∧ NoCountedGidZero accounts := by
  have h := scan_spec accounts
  have hlen := h.details
  rw [← h.rootUid, ← h.uidCount, ← h.gidCount]
  unfold inspectUsers
  dsimp only
  cases hroot : (scan accounts).rootUidZero with
  | false =>
    rw [if_pos ⟨rfl, rfl⟩, List.length_append, List.length_singleton]
    exact iff_of_false (by omega) fun h => Bool.false_ne_true h.1
  | true =>
    rw [if_neg fun h => Bool.false_ne_true h.2.symm, if_neg fun h => absurd h.1 (by decide), hlen]
    constructor
    · intro hzero
      exact ⟨rfl, by omega, by omega⟩
    · rintro ⟨-, huid, hgid⟩
      omega

theorem gidZero_count (accounts : List Account) : (inspectUsers "gid_zero_users" accounts).count = 0 ↔
    LastRootZero accounts Account.gid ∧ NoOtherUidZero accounts ∧ NoCountedGidZero accounts := by
  have h := scan_spec accounts
  have hlen := h.details
  rw [← h.rootGid, ← h.uidCount, ← h.gidCount]
  unfold inspectUsers
  dsimp only
  rw [if_neg fun h => absurd h.1 (by decide)]
  cases hroot : (scan accounts).rootGidZero with
  | false =>
    rw [if_pos ⟨rfl, rfl⟩, List.length_append, List.length_singleton]
    exact iff_of_false (by omega) fun h => Bool.false_ne_true h.1
  | true =>
    rw [if_neg fun h => Bool.false_ne_true h.2.symm, hlen]
    constructor
    · intro hzero
      exact ⟨rfl, by omega, by omega⟩
    · rintro ⟨-, huid, hgid⟩
      omega

theorem noCountedGidZero_of_other {accounts : List Account} (h : NoOtherGidZero accounts) : NoCountedGidZero accounts :=
  fun a ha hroot _ hout => h a ha hroot hout

theorem noOtherGidZero_of_counted {accounts : List Account} (hgid : NoCountedGidZero accounts)
    (huid : NoOtherUidZero accounts) : NoOtherGidZero accounts :=
  fun a ha hroot hout => hgid a ha hroot (huid a ha hroot) hout

/-- **The identity checks**: each answer is exact iff no entry hides from it, that is, whenever the last entry of root
and the accounts that are counted for the check are fine, so are the other entries of root and the accounts that are
counted for the other check. -/
theorem identity_exact_iff (hlines : view.lines passwdPath = .ok lines) :
    (Exact view passwdPath groupPath "uid_zero"
        (RootZero (accountsOf lines) Account.uid ∧ NoOtherUidZero (accountsOf lines)) ↔
      (LastRootZero (accountsOf lines) Account.uid → NoOtherUidZero (accountsOf lines) →
        (∀ a ∈ roots (accountsOf lines), a.uid = some (.fin 0)) ∧ NoCountedGidZero (accountsOf lines))) ∧
    (Exact view passwdPath groupPath "gid_zero_users"
        (RootZero (accountsOf lines) Account.gid ∧ NoOtherGidZero (accountsOf lines)) ↔
      (LastRootZero (accountsOf lines) Account.gid → NoCountedGidZero (accountsOf lines) →
        (∀ a ∈ roots (accountsOf lines), a.gid = some (.fin 0)) ∧ NoOtherUidZero (accountsOf lines))) := by
  constructor
  · unfold Exact
    rw [inspectIdentity_users hlines (.inl rfl)]
    simp only [Except.ok.injEq, exists_eq_left', uidZero_compliant, uidZero_count]
    constructor
    · rintro ⟨hcompliant, hcount⟩ hlast huid
      exact ⟨(hcompliant.mp ⟨hlast, huid⟩).1.2, (hcount.mpr ⟨hlast, huid⟩).2.2⟩
    · intro hhidden
      refine ⟨⟨fun ⟨hlast, huid⟩ => ⟨rootZero_of_lastRootZero hlast (hhidden hlast huid).1, huid⟩,
        fun ⟨hroot, huid⟩ => ⟨lastRootZero_of_rootZero hroot, huid⟩⟩, fun ⟨hlast, huid, _⟩ => ⟨hlast, huid⟩,
        fun ⟨hlast, huid⟩ => ⟨hlast, huid, (hhidden hlast huid).2⟩⟩
  · unfold Exact
    rw [inspectIdentity_users hlines (.inr rfl)]
    simp only [Except.ok.injEq, exists_eq_left', gidZero_compliant, gidZero_count]
    constructor
    · rintro ⟨hcompliant, hcount⟩ hlast hgid
      exact ⟨(hcompliant.mp ⟨hlast, hgid⟩).1.2, (hcount.mpr ⟨hlast, hgid⟩).2.1⟩
    · intro hhidden
      refine ⟨⟨fun ⟨hlast, hgid⟩ => ⟨rootZero_of_lastRootZero hlast (hhidden hlast hgid).1,
          noOtherGidZero_of_counted hgid (hhidden hlast hgid).2⟩,
        fun ⟨hroot, hgid⟩ => ⟨lastRootZero_of_rootZero hroot, noCountedGidZero_of_other hgid⟩⟩,
        fun ⟨hlast, _, hgid⟩ => ⟨hlast, hgid⟩, fun ⟨hlast, hgid⟩ => ⟨hlast, (hhidden hlast hgid).2, hgid⟩⟩

end Checks

/-- A view of one file. -/
def passwdView (lines : List Str) : View where
  mode _ := none
  names _ := .ok []
  lines path := if path = "/etc/passwd".toList then .ok lines else .error "no such file"

/-- Root and an ordinary account. -/
def plainLines : List Str := ["root:x:0:0:root:/root:/bin/bash", "alice:x:1000:1000::/home/alice:/bin/bash"]

/-- Root, and a second account with its numbers. -/
def toorLines : List Str := ["root:x:0:0:root:/root:/bin/bash", "toor:x:0:0::/root:/bin/bash"]

/-- With ordinary accounts both answers are exact. -/
theorem identity_plain :
    Exact (passwdView plainLines) "/etc/passwd" "/etc/group" "uid_zero"
      (RootZero (accountsOf plainLines) Account.uid ∧ NoOtherUidZero (accountsOf plainLines)) ∧
    Exact (passwdView plainLines) "/etc/passwd" "/etc/group" "gid_zero_users"
      (RootZero (accountsOf plainLines) Account.gid ∧ NoOtherGidZero (accountsOf plainLines)) := by
  have h := @identity_exact_iff (passwdView plainLines) "/etc/passwd" "/etc/group" plainLines rfl
  have haccounts : accountsOf plainLines = [⟨"root", some (.fin 0), some (.fin 0)⟩,
      ⟨"alice", some (.fin 1000), some (.fin 1000)⟩] := by decide +kernel
  have hroots : ∀ a ∈ roots (accountsOf plainLines), a.uid = some (.fin 0) ∧ a.gid = some (.fin 0) := by
    rw [haccounts]
    decide +kernel
  have hothers : ∀ a ∈ accountsOf plainLines, a.user ≠ "root".toList →
      a.uid ≠ some (.fin 0) ∧ a.gid ≠ some (.fin 0) := by
    rw [haccounts]
    decide +kernel
  refine ⟨h.1.mpr fun _ _ => ⟨fun a ha => (hroots a ha).1, fun a ha hroot _ _ => (hothers a ha hroot).2⟩,
    h.2.mpr fun _ _ => ⟨fun a ha => (hroots a ha).2, fun a ha hroot => (hothers a ha hroot).1⟩⟩

/-- The account with both numbers of root is not counted for its GID, and `gid_zero_users` complies. -/
theorem identity_toor :
    (inspectIdentity (passwdView toorLines) "/etc/passwd" "/etc/group" "gid_zero_users").map
        (fun report => (report.compliant, report.count)) = .ok (true, 1) ∧
      ¬NoOtherGidZero (accountsOf toorLines) := by
  have haccounts : accountsOf toorLines = [⟨"root", some (.fin 0), some (.fin 0)⟩,
      ⟨"toor", some (.fin 0), some (.fin 0)⟩] := by decide +kernel
  constructor
  · rw [@inspectIdentity_users (passwdView toorLines) "/etc/passwd" "/etc/group" toorLines rfl _ (.inr rfl), haccounts]
    rfl
  · intro hnone
    rw [haccounts] at hnone
    exact hnone ⟨"toor", some (.fin 0), some (.fin 0)⟩ (by simp) (by decide) (by decide) rfl

end Identity
end Seharden
