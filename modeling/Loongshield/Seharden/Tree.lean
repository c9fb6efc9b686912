import Loongshield.Seharden.ModeBits
import Loongshield.Seharden.View
import Mathlib.Data.BitVec

/-!
# Files with owners, groups and modes

The functions that repair the access to files change the inode at the end of a path; links are followed, and several
paths may lead to one inode. A path of `pathMax` characters or more leads nowhere, so that a walk through directories
ends even if links make a circle.

`Faults` says what becomes of the calls at a path. Nothing else fails: the other calls do what the files say.
-/

namespace Seharden

open Lua

/-- The owner, the group and the permission bits of a file. -/
structure Access where
  uid : BitVec 32
  gid : BitVec 32
  mode : BitVec 12
  deriving DecidableEq

/-- A permission mode as a number of the code. -/
def modeValue (mode : BitVec 12) : Value := .num mode.toNat

/-- `mode_is_no_more_permissive` of two modes. -/
def modeWithin (mode max : BitVec 12) : Bool := modeIsNoMorePermissive (modeValue mode) (modeValue max)

/-- Every bit of the first mode is set in the second. -/
def ModeSub (mode mode' : BitVec 12) : Prop := mode &&& mode' = mode

instance (mode mode' : BitVec 12) : Decidable (ModeSub mode mode') := inferInstanceAs (Decidable (_ = _))

theorem ModeSub.refl (mode : BitVec 12) : ModeSub mode mode := BitVec.and_self

theorem ModeSub.trans {a b c : BitVec 12} (hab : ModeSub a b) (hbc : ModeSub b c) : ModeSub a c := by
  unfold ModeSub at *
  rw [← hab, BitVec.and_assoc, hbc]

theorem modeSub_and (mode mask : BitVec 12) : ModeSub (mode &&& mask) mode := by
  unfold ModeSub
  rw [BitVec.and_assoc, BitVec.and_comm mask, ← BitVec.and_assoc, BitVec.and_self]

/-- A mode is within another if all its bits are set there. -/
theorem modeWithin_iff {mode max : BitVec 12} : modeWithin mode max = true ↔ ModeSub mode max := by
  unfold modeWithin modeValue ModeSub
  rw [modeIsNoMorePermissive_iff, excess_eq_zero_iff]
  constructor
  · intro h
    refine BitVec.eq_of_getLsbD_eq fun i hi => ?_
    rw [BitVec.getLsbD_and]
    have hi := h i hi
    change mode.toNat.testBit i = true → max.getLsbD i = true at hi
    change (mode.getLsbD i = true → max.getLsbD i = true) at hi
    cases hmode : mode.getLsbD i with
    | true => rw [hi hmode, Bool.and_self]
    | false => rfl
  · intro h i _ hmode
    have hbit := congrArg (fun m : BitVec 12 => m.getLsbD i) h
    rw [BitVec.getLsbD_and] at hbit
    change mode.getLsbD i = true at hmode
    rw [hmode, Bool.true_and] at hbit
    exact hbit

theorem modeWithin_self (mode : BitVec 12) : modeWithin mode mode = true := modeWithin_iff.mpr (.refl mode)

theorem modeWithin_trans {a b c : BitVec 12} (hab : modeWithin a b = true) (hbc : modeWithin b c = true) :
    modeWithin a c = true :=
  modeWithin_iff.mpr ((modeWithin_iff.mp hab).trans (modeWithin_iff.mp hbc))

/-! ## What `chown` does to a mode -/

/-- The mode of a file of some type after `chown(2)`, which clears the set-user-ID bit, and the set-group-ID bit if the
group may execute the file; the mode of a directory stays. -/
def modeAfterChown (type : Str) (mode : BitVec 12) : BitVec 12 :=
  if type = "directory".toList then mode
  else if mode &&& 0o010 = 0#12 then mode &&& ~~~0o4000
  else mode &&& ~~~0o6000

theorem modeAfterChown_sub (type : Str) (mode : BitVec 12) : ModeSub (modeAfterChown type mode) mode := by
  unfold modeAfterChown
  split
  · exact .refl mode
  · split
    · exact modeSub_and mode _
    · exact modeSub_and mode _

/-- A second `chown` clears no more bits. -/
theorem modeAfterChown_idem (type : Str) (mode : BitVec 12) :
    modeAfterChown type (modeAfterChown type mode) = modeAfterChown type mode := by
  have hgroup : ∀ mask : BitVec 12, ~~~mask &&& 0o010 = 0o010 → (mode &&& ~~~mask) &&& 0o010 = mode &&& 0o010 := by
    intro mask hmask
    rw [BitVec.and_assoc, hmask]
  have htwice : ∀ mask : BitVec 12, (mode &&& mask) &&& mask = mode &&& mask := by
    intro mask
    rw [BitVec.and_assoc, BitVec.and_self]
  unfold modeAfterChown
  split
  · rfl
  · split
    · next hnot => rw [hgroup _ (by decide), if_pos hnot, htwice]
    · next hexec => rw [hgroup _ (by decide), if_neg hexec, htwice]

/-- A mode without set-ID bits stays. -/
theorem modeAfterChown_of_plain (type : Str) {mode : BitVec 12} (h : mode &&& 0o6000 = 0#12) :
    modeAfterChown type mode = mode := by
  have hkeep : ∀ mask : BitVec 12, mask &&& 0o6000 = mask → mode &&& ~~~mask = mode := by
    intro mask hmask
    have hzero : mode &&& mask = 0#12 := by rw [← hmask, BitVec.and_comm mask, ← BitVec.and_assoc, h, BitVec.zero_and]
    calc mode &&& ~~~mask = (mode &&& ~~~mask) ||| (mode &&& mask) := by rw [hzero, BitVec.or_zero]
      _ = mode &&& (~~~mask ||| mask) := (BitVec.and_or_distrib_left ..).symm
      _ = mode := by rw [BitVec.or_comm, BitVec.or_not_self, BitVec.and_allOnes]
  unfold modeAfterChown
  split
  · rfl
  · split
    · exact hkeep _ (by decide)
    · exact hkeep _ (by decide)

theorem plain_of_within {mode max : BitVec 12} (h : modeWithin mode max = true) (hmax : max &&& 0o6000 = 0#12) :
    mode &&& 0o6000 = 0#12 := by
  have hsub : mode &&& max = mode := modeWithin_iff.mp h
  rw [← hsub, BitVec.and_assoc, hmax, BitVec.and_zero]

/-- The attributes of a file of some type after `chown(2)`; an id of `-1` is left as it is. -/
def Access.chowned (type : Str) (uid gid : BitVec 32) (a : Access) : Access where
  uid := if uid = -1 then a.uid else uid
  gid := if gid = -1 then a.gid else gid
  mode := modeAfterChown type a.mode

/-- What a path leads to: its type as `lfs` names it, its device, its owner, group and mode, the names in a directory
(`lfs.dir` raises if it cannot be opened), the lines of a file (or the error of `io.open`). -/
structure Inode where
  type : Str
  dev : Nat
  access : Access
  names : Except Err (List Str)
  lines : Except Str (List Str)

/-- No path is as long as this. -/
def pathMax : Nat := 4096

/-- The files: what each path leads to, links followed; the paths that are links, with the device of the link. -/
structure Tree where
  inode : Str → Option Nat
  link : Str → Option Nat
  node : Nat → Inode
  short : ∀ path, pathMax ≤ path.length → inode path = none

namespace Tree

variable (t : Tree)

/-- `fs.stat(path)`. -/
def stat (path : Str) : Option Access := (t.inode path).map fun i => (t.node i).access

/-- `lfs.symlinkattributes(path)`: the type and the device. -/
def lfsSymlinkattributes (path : Str) : Option (Str × Nat) :=
  match t.link path with
  | some dev => some ("link", dev)
  | none => (t.inode path).map fun i => ((t.node i).type, (t.node i).dev)

/-- What a probe sees. -/
def view : View where
  mode path := (t.inode path).map fun i => (t.node i).type
  names path := match t.inode path with
    | some i => (t.node i).names
    | none => .error ("cannot open " ++ path ++ ": No such file or directory")
  lines path := match t.inode path with
    | some i => (t.node i).lines
    | none => .error (path ++ ": No such file or directory")

/-- The attributes of an inode are changed. -/
def setAccess (i : Nat) (f : Inode → Access) : Tree :=
  { t with node := fun j => if j = i then { t.node j with access := f (t.node j) } else t.node j }

/-- The attributes at the end of a path are changed. -/
def update (path : Str) (f : Inode → Access) : Tree :=
  match t.inode path with
  | some i => t.setAccess i f
  | none => t

/-- `fs.chown(path, uid, gid)`. -/
def chown (path : Str) (uid gid : BitVec 32) : Tree := t.update path fun i => i.access.chowned i.type uid gid

/-- `fs.chmod(path, mode)`. -/
def chmod (path : Str) (mode : BitVec 12) : Tree := t.update path fun i => { i.access with mode := mode }

/-- `os.remove(path)`. -/
def remove (path : Str) : Tree :=
  { t with
    inode := fun p => if p = path then none else t.inode p
    link := fun p => if p = path then none else t.link p
    short := fun p hp => by
      split
      · rfl
      · exact t.short p hp }

/-- A directory with something in it, which `os.remove` does not remove. -/
def occupied (path : Str) : Bool :=
  (t.link path).isNone && match t.inode path with
    | some i => (t.node i).type == "directory".toList && match (t.node i).names with
        | .ok names => names.any fun name =>
            name != ".".toList && name != "..".toList && (t.lfsSymlinkattributes (path ++ "/" ++ name)).isSome
        | .error _ => false
    | none => false

/-- The names in a directory differ; they are not empty and have no slash. -/
def Listing : Prop := ∀ i names, (t.node i).names = .ok names → names.Nodup ∧ ∀ name ∈ names, name ≠ [] ∧ '/' ∉ name

variable {t} in
theorem view_names {path : Str} {i : Nat} (hi : t.inode path = some i) : t.view.names path = (t.node i).names := by
  simp only [view, hi]

variable {t} in
theorem view_lines {path : Str} {i : Nat} (hi : t.inode path = some i) : t.view.lines path = (t.node i).lines := by
  simp only [view, hi]

variable {t} in
/-- A listing of a view is that of an inode. -/
theorem Listing.view (h : t.Listing) {path : Str} {names : List Str} (hnames : t.view.names path = .ok names) :
    names.Nodup ∧ ∀ name ∈ names, name ≠ [] ∧ '/' ∉ name := by
  cases hi : t.inode path with
  | none =>
    simp only [Tree.view, hi] at hnames
    cases hnames
  | some i => exact h i names ((view_names hi).symm.trans hnames)

/-! ## What a change of attributes keeps -/

section Update

variable {t} {path : Str} {f : Inode → Access}

@[simp] theorem update_inode : (t.update path f).inode = t.inode := by
  unfold update
  split <;> rfl

@[simp] theorem update_link : (t.update path f).link = t.link := by
  unfold update
  split <;> rfl

/-- The attributes after a change: those of the inode the path leads to are changed. -/
theorem update_access (i : Nat) : ((t.update path f).node i).access =
    if t.inode path = some i then f (t.node i) else (t.node i).access := by
  unfold update
  cases h : t.inode path with
  | none => simp
  | some j =>
    by_cases hij : i = j
    · simp [setAccess, hij]
    · rw [if_neg fun heq => hij (Option.some.inj heq).symm]
      simp [setAccess, hij]

theorem update_node (i : Nat) : ∃ access, (t.update path f).node i = { t.node i with access := access } := by
  refine ⟨((t.update path f).node i).access, ?_⟩
  unfold update
  cases t.inode path with
  | none => rfl
  | some j =>
    change (if i = j then { t.node i with access := f (t.node i) } else t.node i) = _
    by_cases hij : i = j
    · simp [setAccess, hij]
    · simp [setAccess, hij]

@[simp] theorem update_type (i : Nat) : ((t.update path f).node i).type = (t.node i).type := by
  obtain ⟨access, h⟩ := @update_node t path f i
  rw [h]

/-- Types, names and lines stay. -/
@[simp] theorem update_view : (t.update path f).view = t.view := by
  have hnode : ∀ i, ((t.update path f).node i).type = (t.node i).type ∧
      ((t.update path f).node i).names = (t.node i).names ∧ ((t.update path f).node i).lines = (t.node i).lines := by
    intro i
    obtain ⟨access, h⟩ := @update_node t path f i
    rw [h]
    exact ⟨rfl, rfl, rfl⟩
  simp [view, hnode]

end Update

end Tree

/-- What becomes of the calls at a path: the error, if they fail. A link is queried once more than a file. -/
structure Faults where
  followed : Str → Option Str
  stat : Str → Option Str
  chown : Str → Option Str
  chmod : Str → Option Str
  remove : Str → Option Str

/-- `fs.stat(path)`, where the call may fail. -/
def Faults.fsStat (faults : Faults) (t : Tree) (path : Str) : Option Access :=
  match faults.stat path with
  | some _ => none
  | none => t.stat path

end Seharden
