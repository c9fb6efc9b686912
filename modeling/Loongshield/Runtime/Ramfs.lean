import Loongshield.Lib.PathTree
import Loongshield.Seharden.Text

/-!
# `runtime/ramfs.lua`

The embedded module archive: `tar` packs the source directories, `untar` builds the tree of the archive's regular
files, `vfsread` looks a module up in it. `loadDump` stands for `loadstring` and `string.dump`, and the archive itself
for the list of its entries.

* `Coexist`: no packed path leads through another one, has a `.` or `..` component, or has no component at all.
* `archive_faithful_iff`: exactly then the tree has every packed file, whatever the order of the entries.
-/

namespace Runtime

open Lua Seharden PathTree

/-- What is under a path of the sources. -/
inductive Source
  | file (data : Str)
  | directory (entries : List (Str × Source))

inductive Filetype
  | reg
  | dir
  deriving DecidableEq

/-- An entry of the archive. -/
structure Entry where
  pathname : Str
  filetype : Filetype
  size : Nat
  data : Str
  deriving DecidableEq

/-! ## Packing -/

section Tar

variable (loadDump : Str → Str → Except Err Str)

/-- `luac`. -/
def luac (data name : Str) : Except Err Str :=
  match loadDump data name with
  | .ok dump => .ok dump
  | .error err => .error ("luac: " ++ err)

/-- The loop of `strip_pathname`: what is left of a path without its first `level` components. When a path has no more
of them the next `string.match` gets `nil`. -/
def stripDentries : Nat → Str → Except Err Str
  | 0, path => .ok path
  | level + 1, path => match firstCapture path ".-/(.+)$" with
    | some path => stripDentries level path
    | none => .error "bad argument #1 to 'match' (string expected, got nil)"

/-- `strip_pathname`. -/
def stripPathname (path : Str) (level : Option Nat) : Except Err Str :=
  match level with
  | none | some 0 => .ok path
  | some level => do
    let path ← stripDentries level path
    return (firstCapture path "(.+)%.lua$").getD path

/-- What `tar_file` packs of a file: the compiled chunk of a `.lua` file, else the file. -/
def fileData (file data : Str) : Except Err Str :=
  match firstCapture file "(.+%.lua)$" with
  | some name => luac loadDump data name
  | none => .ok data

/-- `tar_file`. -/
def tarFile (file data : Str) (level : Option Nat) : Except Err Entry := do
  let data ← fileData loadDump file data
  let pathname ← stripPathname file level
  return { pathname, filetype := .reg, size := data.length, data }

mutual

/-- What `tar_directory` writes for one path: a directory's entry and its contents, or a file. -/
def tarPath (level : Option Nat) (file : Str) : Source → Except Err (List Entry)
  | .directory entries => do
    let pathname ← stripPathname file level
    let inside ← tarDirectory level file entries
    return { pathname, filetype := .dir, size := 0, data := [] } :: inside
  | .file data => do
    let entry ← tarFile loadDump file data level
    return [entry]

/-- `tar_directory`. -/
def tarDirectory (level : Option Nat) (path : Str) : List (Str × Source) → Except Err (List Entry)
  | [] => .ok []
  | entry :: rest => do
    let here ← tarName level path entry
    let others ← tarDirectory level path rest
    return here ++ others

/-- One name that `lfs.dir` gives. -/
def tarName (level : Option Nat) (path : Str) : Str × Source → Except Err (List Entry)
  | (name, source) => if name = "." ∨ name = ".." then .ok [] else tarPath level (path ++ "/" ++ name) source

end

/-- One of the `dirs` of `tar`. -/
structure Root where
  path : Str
  level : Option Nat
  source : Source

/-- What `tar` writes for one of the `dirs`. -/
def tarRoot (root : Root) : Except Err (List Entry) :=
  match root.source with
  | .directory entries => tarDirectory loadDump root.level root.path entries
  | .file data => do
    let entry ← tarFile loadDump root.path data root.level
    return [entry]

/-- `tar`. -/
def tar : List Root → Except Err (List Entry)
  | [] => .ok []
  | root :: dirs => do
    let here ← tarRoot loadDump root
    let others ← tar dirs
    return here ++ others

end Tar

/-! ## Unpacking -/

/-- A table of the tree, or the content of a file. -/
abbrev Vfs := Node Str Str

/-- The components of a path. -/
def components (path : Str) : List Str := captures path "([^/\\]+)"

/-- The components that `mkrootfs` walks: `.` and `..` are ignored. -/
def walked (path : Str) : List Str := (components path).filter fun s => decide (s ≠ "." ∧ s ≠ "..")

/-- `mkrootfs`: the walk makes the tables on its way. A component below a file indexes its content, a string, and
raises; a path without components stores nothing. -/
def mkrootfs (rootfs : Vfs) (header : Entry) : Except Err Vfs :=
  if header.size = header.data.length then
    match put header.data (walked header.pathname) rootfs with
    | some rootfs => .ok rootfs
    | none => .error "attempt to index a string value"
  else .error "assertion failed!"

/-- `untar`, on the entries of the archive. -/
def untar (entries : List Entry) : Except Err Vfs :=
  (entries.filter fun e => e.filetype = .reg).foldlM mkrootfs (.dir [])

/-- `vfsread`. -/
def vfsread (vfs : Vfs) (path : Str) : Option Vfs := find (components path) (some vfs)

/-! ## What is packed is found -/

/-- The regular files of an archive. -/
def packed (entries : List Entry) : List Entry := entries.filter fun e => e.filetype = .reg

/-- The files fit into one tree: every path has components, none of them `.` or `..`, and no path leads through
another one, unless it is the same path with the same content. -/
def Coexist (files : List Entry) : Prop :=
  (∀ f ∈ files, components f.pathname ≠ [] ∧ ['.'] ∉ components f.pathname ∧ ['.', '.'] ∉ components f.pathname) ∧
    ∀ f ∈ files, ∀ g ∈ files, components f.pathname <+: components g.pathname →
      components f.pathname = components g.pathname ∧ f.data = g.data

instance (files : List Entry) : Decidable (Coexist files) := inferInstanceAs (Decidable (_ ∧ _))

/-- An entry tells the size of its data. -/
def Entry.Sized (e : Entry) : Prop := e.size = e.data.length

section Sizes

variable {loadDump : Str → Str → Except Err Str} {level : Option Nat}

theorem tarFile_sized {file data : Str} {e : Entry} (h : tarFile loadDump file data level = .ok e) : e.Sized := by
  obtain ⟨data', -, h⟩ := bind_ok.mp h
  obtain ⟨pathname, -, h⟩ := bind_ok.mp h
  cases h
  rfl

mutual

theorem tarPath_sized {file : Str} : ∀ {source : Source} {es : List Entry}, tarPath loadDump level file source =
    .ok es →
    ∀ e ∈ es, e.Sized
  | .directory entries, es, h, e, he => by
    obtain ⟨pathname, -, h⟩ := bind_ok.mp h
    obtain ⟨inside, hinside, h⟩ := bind_ok.mp h
    cases h
    rcases List.mem_cons.mp he with rfl | he
    · rfl
    · exact tarDirectory_sized hinside e he
  | .file data, es, h, e, he => by
    obtain ⟨entry, hentry, h⟩ := bind_ok.mp h
    cases h
    rw [List.mem_singleton.mp he]
    exact tarFile_sized hentry

theorem tarDirectory_sized {path : Str} : ∀ {entries : List (Str × Source)} {es : List Entry},
    tarDirectory loadDump level path entries = .ok es → ∀ e ∈ es, e.Sized
  | [], es, h, e, he => by
    cases h
    cases he
  | entry :: rest, es, h, e, he => by
    obtain ⟨here, hhere, h⟩ := bind_ok.mp h
    obtain ⟨others, hothers, h⟩ := bind_ok.mp h
    cases h
    rcases List.mem_append.mp he with he | he
    · exact tarName_sized hhere e he
    · exact tarDirectory_sized hothers e he

theorem tarName_sized {path : Str} : ∀ {entry : Str × Source} {es : List Entry},
    tarName loadDump level path entry = .ok es → ∀ e ∈ es, e.Sized
  | (name, source), es, h, e, he => by
    unfold tarName at h
    split at h
    · cases h
      cases he
    · exact tarPath_sized h e he

end

theorem tarRoot_sized {root : Root} {es : List Entry} (h : tarRoot loadDump root = .ok es) : ∀ e ∈ es, e.Sized := by
  unfold tarRoot at h
  split at h
  · exact tarDirectory_sized h
  · obtain ⟨entry, hentry, h⟩ := bind_ok.mp h
    cases h
    intro e he
    rw [List.mem_singleton.mp he]
    exact tarFile_sized hentry

theorem tar_sized : ∀ {dirs : List Root} {es : List Entry}, tar loadDump dirs = .ok es → ∀ e ∈ es, e.Sized
  | [], es, h, e, he => by
    cases h
    cases he
  | root :: dirs, es, h, e, he => by
    obtain ⟨here, hhere, h⟩ := bind_ok.mp h
    obtain ⟨others, hothers, h⟩ := bind_ok.mp h
    cases h
    rcases List.mem_append.mp he with he | he
    · exact tarRoot_sized hhere e he
    · exact tar_sized hothers e he

end Sizes

/-- Where `mkrootfs` stores an entry, and what. -/
def leafOf (e : Entry) : List Str × Str := (walked e.pathname, e.data)

/-- `untar` places the leaves of the regular files. -/
theorem foldlM_mkrootfs : ∀ {files : List Entry} (node : Vfs), (∀ f ∈ files, f.Sized) → files.foldlM mkrootfs node =
    match build node (files.map leafOf) with
    | some node => .ok node
    | none => .error "attempt to index a string value"
  | [], node, _ => rfl
  | f :: files, node, h => by
    have hf : mkrootfs node f = match put f.data (walked f.pathname) node with
        | some node => .ok node
        | none => .error "attempt to index a string value" := by
      have hsize : f.size = f.data.length := h f List.mem_cons_self
      rw [mkrootfs, if_pos hsize]
    rw [List.foldlM_cons, hf, List.map_cons, build, List.foldlM_cons, leafOf]
    cases put f.data (walked f.pathname) node with
    | none => rfl
    | some node' => exact foldlM_mkrootfs node' fun g hg => h g (List.mem_cons_of_mem _ hg)

theorem untar_ok_iff {entries : List Entry} (h : ∀ e ∈ entries, e.Sized) {rootfs : Vfs} :
    untar entries = .ok rootfs ↔ build (.dir []) ((packed entries).map leafOf) = some rootfs := by
  have hsized : ∀ f ∈ packed entries, f.Sized := fun f hf => h f (List.mem_filter.mp hf).1
  rw [untar, ← packed, foldlM_mkrootfs _ hsized]
  cases build (.dir []) ((packed entries).map leafOf) <;> simp

/-- Without `.` and `..` the whole path is walked. -/
theorem walked_eq {path : Str} (h : ['.'] ∉ components path) (h' : ['.', '.'] ∉ components path) :
    walked path = components path := by
  refine List.filter_eq_self.mpr fun s hs => decide_eq_true ⟨?_, ?_⟩
  · rintro rfl
    exact h hs
  · rintro rfl
    exact h' hs

theorem not_mem_walked {path : Str} : ['.'] ∉ walked path ∧ ['.', '.'] ∉ walked path := by
  constructor
  · intro h
    exact (of_decide_eq_true (List.mem_filter.mp h).2).1 rfl
  · intro h
    exact (of_decide_eq_true (List.mem_filter.mp h).2).2 rfl

/-- Files that fit into one tree are all read back. -/
theorem vfsread_of_coexist {entries : List Entry} (hsized : ∀ e ∈ entries, e.Sized) (h : Coexist (packed entries)) :
    ∃ rootfs, untar entries = .ok rootfs ∧ ∀ f ∈ packed entries, vfsread rootfs f.pathname = some (.leaf f.data) := by
  have hwalked : ∀ f ∈ packed entries, walked f.pathname = components f.pathname := fun f hf =>
    walked_eq (h.1 f hf).2.1 (h.1 f hf).2.2
  have hapart : Apart ((packed entries).map leafOf) := by
    intro a ha b hb hab
    obtain ⟨f, hf, rfl⟩ := List.mem_map.mp ha
    obtain ⟨g, hg, rfl⟩ := List.mem_map.mp hb
    dsimp only [leafOf] at hab
    rw [hwalked f hf, hwalked g hg] at hab
    obtain ⟨hpath, hdata⟩ := h.2 f hf g hg hab
    exact Prod.ext ((hwalked f hf).trans (hpath.trans (hwalked g hg).symm)) hdata
  have hne : ∀ leaf ∈ (packed entries).map leafOf, leaf.1 ≠ [] := by
    intro leaf hleaf
    obtain ⟨f, hf, rfl⟩ := List.mem_map.mp hleaf
    dsimp only [leafOf]
    rw [hwalked f hf]
    exact (h.1 f hf).1
  obtain ⟨rootfs, hbuild, hholds⟩ := exists_build hapart hne
  refine ⟨rootfs, (untar_ok_iff hsized).mpr hbuild, fun f hf => ?_⟩
  have hfind := hholds (leafOf f) (List.mem_map_of_mem hf)
  dsimp only [leafOf] at hfind
  rwa [hwalked f hf] at hfind

/-- Files that are all read back fit into one tree. -/
theorem coexist_of_vfsread {entries : List Entry} (hsized : ∀ e ∈ entries, e.Sized) {rootfs : Vfs}
    (huntar : untar entries = .ok rootfs)
    (h : ∀ f ∈ packed entries, vfsread rootfs f.pathname = some (.leaf f.data)) : Coexist (packed entries) := by
  have hbuild := (untar_ok_iff hsized).mp huntar
  have honly := @only_build _ _ _ _ [] _ _ only_nil hbuild
  -- What is found at a path was stored there, so that the path has no component that is ignored.
  have hplain : ∀ f ∈ packed entries, ['.'] ∉ components f.pathname ∧ ['.', '.'] ∉ components f.pathname := by
    intro f hf
    obtain ⟨leaf, hleaf, hpath⟩ := List.mem_map.mp (honly _ _ (h f hf))
    obtain ⟨g, -, rfl⟩ := List.mem_map.mp hleaf
    rw [← hpath]
    exact not_mem_walked
  have hne : ∀ f ∈ packed entries, components f.pathname ≠ [] := by
    intro f hf hnil
    obtain ⟨entries', rfl⟩ := build_dir hbuild
    have hfind := h f hf
    rw [vfsread, hnil] at hfind
    cases hfind
  have hwalked : ∀ f ∈ packed entries, walked f.pathname = components f.pathname := fun f hf =>
    walked_eq (hplain f hf).1 (hplain f hf).2
  have hholds : Holds ((packed entries).map leafOf) rootfs := by
    intro leaf hleaf
    obtain ⟨f, hf, rfl⟩ := List.mem_map.mp hleaf
    dsimp only [leafOf]
    rw [hwalked f hf]
    exact h f hf
  refine ⟨fun f hf => ⟨hne f hf, hplain f hf⟩, fun f hf g hg hfg => ?_⟩
  have heq := hholds.apart (leafOf f) (List.mem_map_of_mem hf) (leafOf g) (List.mem_map_of_mem hg)
    (by dsimp only [leafOf]; rwa [hwalked f hf, hwalked g hg])
  rw [← hwalked f hf, ← hwalked g hg]
  exact Prod.mk.inj heq

theorem coexist_perm {files files' : List Entry} (h : files.Perm files') : Coexist files ↔ Coexist files' := by
  simp only [Coexist, h.mem_iff]

/-- **The archive is faithful exactly if its files fit into one tree**, in whatever order its entries are read. -/
theorem archive_faithful_iff (loadDump : Str → Str → Except Err Str) (dirs : List Root) {entries order : List Entry}
    (htar : tar loadDump dirs = .ok entries) (horder : order.Perm entries) :
    (∃ rootfs, untar order = .ok rootfs ∧ ∀ f ∈ packed entries, vfsread rootfs f.pathname = some (.leaf f.data)) ↔
      Coexist (packed entries) := by
  have hpacked : (packed order).Perm (packed entries) := horder.filter _
  have hsized : ∀ e ∈ order, e.Sized := fun e he => tar_sized htar e (horder.mem_iff.mp he)
  rw [← coexist_perm hpacked]
  constructor
  · rintro ⟨rootfs, huntar, h⟩
    exact coexist_of_vfsread hsized huntar fun f hf => h f (hpacked.mem_iff.mp hf)
  · intro h
    obtain ⟨rootfs, huntar, hread⟩ := vfsread_of_coexist hsized h
    exact ⟨rootfs, huntar, fun f hf => hread f (hpacked.mem_iff.mpr hf)⟩

/-- A module and a directory of modules, both read back from the entries in reverse order. -/
theorem modules_read_back : ∃ entries, tar (fun data _ => .ok data) [⟨"modules", some 1, .directory
      [("init.lua", .file "x"), ("net", .directory [("tcp.lua", .file "y")])]⟩] = .ok entries ∧
    ∃ rootfs, untar entries.reverse = .ok rootfs ∧
      ∀ f ∈ packed entries, vfsread rootfs f.pathname = some (.leaf f.data) := by
  have htar : tar (fun data _ => .ok data) [⟨"modules", some 1, .directory
      [("init.lua", .file "x"), ("net", .directory [("tcp.lua", .file "y")])]⟩] =
        .ok [⟨"init", .reg, 1, "x"⟩, ⟨"net", .dir, 0, []⟩, ⟨"net/tcp", .reg, 1, "y"⟩] := by
    decide +kernel
  exact ⟨_, htar, (archive_faithful_iff _ _ htar (List.reverse_perm _)).mpr (by decide +kernel)⟩

/-- The modules `a` and `a/b`, whose names differ, do not get into one tree: the second entry raises, and in the other
order it replaces the first. -/
theorem module_and_directory : ∃ entries, tar (fun data _ => .ok data) [⟨"modules", some 1, .directory
      [("a.lua", .file "x"), ("a", .directory [("b.lua", .file "y")])]⟩] = .ok entries ∧
    ((packed entries).map Entry.pathname).Nodup ∧ (∃ err, untar entries = .error err) ∧
    ∃ rootfs, untar entries.reverse = .ok rootfs ∧ vfsread rootfs "a/b" = none := by
  have htar : tar (fun data _ => .ok data) [⟨"modules", some 1, .directory
      [("a.lua", .file "x"), ("a", .directory [("b.lua", .file "y")])]⟩] =
        .ok [⟨"a", .reg, 1, "x"⟩, ⟨"a", .dir, 0, []⟩, ⟨"a/b", .reg, 1, "y"⟩] := by
    decide +kernel
  exact ⟨_, htar, by decide +kernel, ⟨_, rfl⟩, _, rfl, rfl⟩

end Runtime
