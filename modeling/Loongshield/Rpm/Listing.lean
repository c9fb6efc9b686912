import Loongshield.Seharden.Trim
import Mathlib.Data.List.AList

/-!
# `rpm/checksum.lua`: the files of a package

`get_rpm_files` asks the `lrpm` binding, or parses what `rpm -q` prints. The RPM database is the list of the installed
instances of a name; what the binding gives of an instance and what the query format prints of it are the same record.

* `FileTable`: a table from paths to files.
* `parseQueryOutput`, `parseBindingFiles`: the two ways to it.
* `listings_agree`: when they agree.
-/

namespace Rpm

open Lua Pattern Seharden

/-! ## Tables -/

/-- What is known of a file. -/
structure FileInfo where
  size : Option Flt
  checksumRpm : Str
  isConfig : Bool
  isDoc : Bool
  deriving DecidableEq

/-- A table from paths to files: each path is there once. -/
abbrev FileTable : Type := AList fun _ : Str => FileInfo

/-! ## Records -/

/-- `ZERO_DIGESTS`. -/
def zeroDigests : List Str :=
  ["00000000000000000000000000000000", "0000000000000000000000000000000000000000000000000000000000000000"]

/-- `(file_flags % 2) == FILE_FLAG_CONFIG`. -/
def isConfigFlag : Flt → Bool
  | .fin q => q - 2 * ⌊q / 2⌋ == 1
  | _ => false

/-- `(math.floor(file_flags / 2) % 2) == 1`. -/
def isDocFlag : Flt → Bool
  | .fin q => ⌊q / 2⌋ % 2 == 1
  | _ => false

/-- A digest that counts. -/
def usable (digest : Str) : Bool := !digest.isEmpty && !zeroDigests.contains digest

/-- One file: `files[path] = { … }` if its digest counts. -/
def addFile (files : FileTable) (path : Str) (size : Option Flt) (digest : Str) (flags : Flt) : FileTable :=
  if usable digest then
    files.insert path { size, checksumRpm := digest, isConfig := isConfigFlag flags, isDoc := isDocFlag flags }
  else files

/-- The lines of `rpm -q`, one file each. -/
def queryLine (files : FileTable) (line : Str) : FileTable :=
  match matchCaptures line "^(.-)\t([0-9]+)\t([^\t]*)\t([0-9]+)$" with
  | some [path, size, digest, flags] =>
    addFile files path (strscan size) (lower digest) ((strscan flags).getD (.fin 0))
  | _ => files

/-- `parse_query_output`. -/
def parseQueryOutput (output : Str) : FileTable := (captures output "[^\r\n]+").foldl queryLine ∅

/-- A digest in hexadecimal digits. -/
def Hex : Type := { s : Str // ∀ c ∈ s, isxdigit c = true }

/-- A file of a package. -/
structure RpmFile where
  name : Str
  size : Nat
  digest : Option Hex
  flags : Nat

/-- An installed package. -/
structure Package where
  name : Str
  version : Str
  release : Str
  arch : Option Str
  files : List RpmFile

/-- One file of `parse_binding_files`. -/
def bindingFile (files : FileTable) (file : RpmFile) : FileTable :=
  match file.digest with
  | some digest => addFile files file.name (some (roundDouble file.size)) (lower digest.val) (roundDouble file.flags)
  | none => files

/-- `parse_binding_files`. -/
def parseBindingFiles (pkg : Package) : FileTable := pkg.files.foldl bindingFile ∅

/-! ## `get_rpm_files` -/

/-- What asking the binding comes to: there is none, it raises, or it gives the packages of the name (if any). -/
inductive Binding
  | absent
  | raises (err : Err)
  | answers (packages : Option (List Package))

/-- `get_rpm_files_from_binding`. -/
def getRpmFilesFromBinding (packageName : Str) : Option (List Package) → Except Str FileTable
  | some (pkg :: _) => .ok (parseBindingFiles pkg)
  | _ => .error ("Package not installed: " ++ packageName)

/-- What a command printed and how it ended. -/
structure QueryRun where
  output : Str
  success : Bool
  exitCode : Str

/-- The command of `get_rpm_files`. -/
def queryCommand (packageName : Str) : Str :=
  "rpm -q --qf '[%\x7bFILENAMES\x7d\\t%\x7bFILESIZES\x7d\\t%\x7bFILEDIGESTS\x7d\\t%\x7bFILEFLAGS\x7d\\n]' '" ++
    substitute packageName "'" "'\\''" ++ "' 2>&1"

/-- The part of `get_rpm_files` that runs `rpm`. -/
def getRpmFilesFromCli (popen : Str → Option QueryRun) (packageName : Str) : Except Str FileTable :=
  match popen (queryCommand packageName) with
  | none => .error "Failed to execute rpm command"
  | some run =>
    if run.success then .ok (parseQueryOutput run.output)
    else if isMatch run.output "not installed" || isMatch run.output "is not installed" then
      .error ("Package not installed: " ++ packageName)
    else .error ("rpm command failed (exit code " ++ run.exitCode ++ "): " ++ run.output)

/-- `get_rpm_files`. -/
def getRpmFiles (binding : Binding) (popen : Str → Option QueryRun) (packageName : Str) : Except Str FileTable :=
  match binding with
  | .answers packages => match getRpmFilesFromBinding packageName packages with
    | .ok files => .ok files
    | .error _ => getRpmFilesFromCli popen packageName
  | .raises _ | .absent => getRpmFilesFromCli popen packageName

/-! ## `get_package_info` -/

structure PackageInfo where
  name : Str
  version : Str
  release : Str
  arch : Str
  deriving DecidableEq

/-- `get_package_info` of `rpm/verify.lua`, on the packages of the name. -/
def getPackageInfo (packages : List Package) (packageName : Str) : Except Str PackageInfo :=
  match packages with
  | [] => .error ("Package not found: " ++ packageName)
  | pkg :: _ => match pkg.arch with
    | none | some [] => .error "Failed to get package architecture"
    | some arch => .ok { name := pkg.name, version := pkg.version, release := pkg.release, arch }

/-! ## What `rpm -q` prints -/

/-- The digest as the query format prints it. -/
def RpmFile.digestText (file : RpmFile) : Str := (file.digest.map Subtype.val).getD []

/-- A line of the query format. -/
def RpmFile.row (file : RpmFile) : Str :=
  file.name ++ '\t' :: (natStr file.size ++ '\t' :: (file.digestText ++ '\t' :: natStr file.flags))

/-- The text of the query format for all instances of a name. -/
def queryText (packages : List Package) : Str := (packages.flatMap Package.files).flatMap fun f => f.row ++ ['\n']

/-- `rpm -q` with the query format, on the installed instances. -/
def rpmQuery (packages : List Package) (packageName : Str) : QueryRun :=
  if packages.isEmpty then
    { output := "package " ++ packageName ++ " is not installed\n", success := false, exitCode := "1" }
  else { output := queryText packages, success := true, exitCode := "0" }

/-! ## A printed line is read back -/

def digit : Single := .set false [.range '0' '9']
def notTab : Single := allBut '\t'

/-- The pattern of a line, after the path. -/
def columnItems : List Item :=
  [.single (.lit '\t') .one, .capOpen, .single digit .plus, .capClose, .single (.lit '\t') .one,
    .capOpen, .single notTab .star, .capClose, .single (.lit '\t') .one, .capOpen, .single digit .plus, .capClose,
    .atEnd]

theorem compile_row : compile "(.-)\t([0-9]+)\t([^\t]*)\t([0-9]+)$" =
    .capOpen :: .single .any .minus :: .capClose :: columnItems := rfl

theorem digit_test {x : Char} (h : x.isDigit = true) : digit.test x = true := by
  have hrange : (decide ('0' ≤ x) && decide (x ≤ '9')) = true := h
  simp only [digit, Single.test, List.any_cons, List.any_nil, SetItem.test, hrange, Bool.or_false]
  rfl

theorem ne_tab_of_digit {x : Char} (h : digit.test x = true) : x ≠ '\t' := by
  rintro rfl
  revert h
  decide

/-- The columns are three runs without tabs, each after a tab. -/
theorem columns_count {text : Str} {segs : List Seg} {p : Str × List Seg}
    (h : matchRest columnItems text segs = some p) :
    text.head? = some '\t' ∧ text.count '\t' = 3 := by
  obtain ⟨rest₁, rfl, h⟩ := of_matchRest_lit h
  obtain ⟨size, rest₂, rfl, -, hsize, h⟩ := of_matchRest_capPlus h
  obtain ⟨rest₃, rfl, h⟩ := of_matchRest_lit h
  obtain ⟨digest, rest₄, rfl, hdigest, h⟩ := of_matchRest_capStar h
  obtain ⟨rest₅, rfl, h⟩ := of_matchRest_lit h
  obtain ⟨flags, rest₆, rfl, -, hflags, h⟩ := of_matchRest_capPlus h
  have hend : rest₆ = [] := by
    rw [matchRest] at h
    split at h
    · assumption
    · cases h
  have hcount : ∀ {run : Str}, (∀ x ∈ run, x ≠ '\t') → run.count '\t' = 0 := fun hrun =>
    List.count_eq_zero.mpr fun hmem => hrun _ hmem rfl
  have h₁ := hcount fun x hx => ne_tab_of_digit (hsize x hx)
  have h₂ := hcount fun x hx => allBut_test.mp (hdigest x hx)
  have h₃ := hcount fun x hx => ne_tab_of_digit (hflags x hx)
  refine ⟨rfl, ?_⟩
  simp [hend, List.count_append, h₁, h₂, h₃]

/-- The columns of a line. -/
theorem matchRest_columns {size digest flags : Str} {segs : List Seg} (hsize : size ≠ [])
    (hsizes : ∀ x ∈ size, digit.test x = true) (hdigest : ∀ x ∈ digest, notTab.test x = true) (hflags : flags ≠ [])
    (hflagss : ∀ x ∈ flags, digit.test x = true) :
    matchRest columnItems ('\t' :: (size ++ '\t' :: (digest ++ '\t' :: flags))) segs =
      some ([], segs ++ [⟨size ++ '\t' :: (digest ++ '\t' :: flags), some size.length⟩] ++
        [⟨digest ++ '\t' :: flags, some digest.length⟩] ++ [⟨flags, some flags.length⟩]) := by
  have hhead : ∀ {c : Single} {r : Str}, c.test '\t' = false → ∀ x, ('\t' :: r).head? = some x → c.test x = false := by
    intro c r hc x hx
    obtain rfl : '\t' = x := Option.some.inj hx
    exact hc
  rw [columnItems, matchRest_lit]
  refine matchRest_capPlus hsize hsizes (hhead (by decide)) ?_
  rw [matchRest_lit]
  refine matchRest_capStar hdigest (hhead (by decide)) ?_
  rw [matchRest_lit]
  have hlast := @matchRest_capPlus digit [.atEnd] flags []
    (segs ++ [⟨size ++ '\t' :: (digest ++ '\t' :: flags), some size.length⟩] ++
    [⟨digest ++ '\t' :: flags, some digest.length⟩]) _ hflags hflagss (fun x hx => by cases hx)
    (by rw [matchRest, if_pos rfl])
  rwa [List.append_nil] at hlast

theorem natStr_digits (n : Nat) : natStr n ≠ [] ∧ ∀ x ∈ natStr n, digit.test x = true :=
  ⟨Nat.toDigits_ne_nil, fun _ hx => digit_test (Nat.isDigit_of_mem_toDigits (by decide) (by decide) hx)⟩

theorem RpmFile.digestText_spec (file : RpmFile) : ∀ x ∈ file.digestText, isxdigit x = true := by
  intro x hx
  unfold RpmFile.digestText at hx
  cases h : file.digest with
  | none =>
    rw [h] at hx
    cases hx
  | some digest =>
    rw [h] at hx
    exact digest.2 x hx

theorem isxdigit_cases {x : Char} (h : isxdigit x = true) : x ≠ '\t' ∧ x ≠ '\r' ∧ x ≠ '\n' := by
  refine ⟨?_, ?_, ?_⟩ <;>
  · rintro rfl
    revert h
    decide

/-- Only what follows the path can be the columns: what begins earlier has a tab too many. -/
theorem columns_none {before rest : Str} {segs segs' : List Seg} {p : Str × List Seg}
    (h : matchRest columnItems rest segs = some p) (hne : before ≠ []) :
    matchRest columnItems (before ++ rest) segs' = none := by
  rw [Option.eq_none_iff_forall_ne_some]
  intro p' hp'
  obtain ⟨hhead, hcount⟩ := columns_count hp'
  rw [List.count_append, (columns_count h).2] at hcount
  cases before with
  | nil => exact hne rfl
  | cons x before =>
    obtain rfl : x = '\t' := Option.some.inj hhead
    rw [List.count_cons_self] at hcount
    omega

/-- What the pattern captures of a line. -/
def RpmFile.segs (file : RpmFile) : List Seg :=
  [⟨file.row, some file.name.length⟩, ⟨natStr file.size ++ '\t' :: (file.digestText ++ '\t' :: natStr file.flags),
    some (natStr file.size).length⟩, ⟨file.digestText ++ '\t' :: natStr file.flags, some file.digestText.length⟩,
    ⟨natStr file.flags, some (natStr file.flags).length⟩]

theorem matchRest_row (file : RpmFile) :
    matchRest (.capOpen :: .single .any .minus :: .capClose :: columnItems) file.row [] = some ([], file.segs) := by
  obtain ⟨hsize, hsizes⟩ := natStr_digits file.size
  obtain ⟨hflags, hflagss⟩ := natStr_digits file.flags
  have hdigest : ∀ x ∈ file.digestText, notTab.test x = true := fun x hx =>
    allBut_test.mpr (isxdigit_cases (file.digestText_spec x hx)).1
  have hcols := fun segs => @matchRest_columns _ _ _ segs hsize hsizes hdigest hflags hflagss
  rw [matchRest, matchRest]
  refine shortest_run ?_ (fun x _ => rfl) fun r hr hlen => ?_
  · rw [matchRest, RpmFile.row, closeSeg_run]
    exact hcols _
  · obtain ⟨before, rfl⟩ : _ <:+ r := (List.suffix_or_suffix_of_suffix hr (List.suffix_append _ _)).resolve_left
      fun hle => by have := hle.length_le; omega
    refine columns_none (hcols []) ?_
    rintro rfl
    simp at hlen

theorem matchCaptures_line (line : Str) : matchCaptures line "^(.-)\t([0-9]+)\t([^\t]*)\t([0-9]+)$" =
    (matchRest (.capOpen :: .single .any .minus :: .capClose :: columnItems) line []).map fun p => texts line p.1 p.2 :=
  matchCaptures_anchored rfl compile_row rfl

/-- **A printed line is read back**, tabs in the path included. -/
theorem matchCaptures_row (file : RpmFile) : matchCaptures file.row "^(.-)\t([0-9]+)\t([^\t]*)\t([0-9]+)$" =
    some [file.name, natStr file.size, file.digestText, natStr file.flags] := by
  have htexts : texts file.row [] file.segs = [file.name, natStr file.size, file.digestText, natStr file.flags] := by
    simp [texts, RpmFile.segs, Seg.text, RpmFile.row]
  rw [matchCaptures_line, matchRest_row, Option.map_some, htexts]

/-! ## Both ways give the last record of each path -/

/-- What a file adds to the table. -/
def RpmFile.info (file : RpmFile) : Option FileInfo :=
  match file.digest with
  | some digest =>
    if usable (lower digest.val) then
      some { size := some (roundDouble file.size), checksumRpm := lower digest.val
             isConfig := isConfigFlag (roundDouble file.flags), isDoc := isDocFlag (roundDouble file.flags) }
    else none
  | none => none

/-- The last record of a path. -/
def record (files : List RpmFile) (path : Str) : Option FileInfo :=
  (files.filterMap fun f => if f.name = path then f.info else none).getLast?

theorem bindingFile_eq (t : FileTable) (file : RpmFile) : bindingFile t file = match file.info with
    | some info => t.insert file.name info
    | none => t := by
  unfold bindingFile RpmFile.info
  cases file.digest with
  | none => rfl
  | some digest =>
    dsimp only [addFile]
    split <;> rfl

theorem queryLine_row (t : FileTable) (file : RpmFile) : queryLine t file.row = bindingFile t file := by
  unfold queryLine
  rw [matchCaptures_row]
  dsimp only
  rw [strscan_natStr, strscan_natStr]
  unfold bindingFile RpmFile.digestText
  cases file.digest with
  | none => rfl
  | some digest => rfl

/-- A table after more files: their last record of the path, else what was there. -/
theorem lookup_foldl_bindingFile (path : Str) : ∀ (files : List RpmFile) (t : FileTable),
    (files.foldl bindingFile t).lookup path = (record files path).or (t.lookup path)
  | [], t => rfl
  | f :: files, t => by
    rw [List.foldl_cons, lookup_foldl_bindingFile path files, bindingFile_eq]
    unfold record
    by_cases hname : f.name = path
    · rw [List.filterMap_cons, if_pos hname]
      cases f.info with
      | none => rfl
      | some info =>
        dsimp only
        rw [hname, AList.lookup_insert, List.getLast?_cons]
        cases List.getLast? _ <;> rfl
    · rw [List.filterMap_cons, if_neg hname]
      cases f.info with
      | none => rfl
      | some info =>
        dsimp only
        rw [AList.lookup_insert_ne fun h => hname h.symm]

theorem record_append (files files' : List RpmFile) (path : Str) :
    record (files ++ files') path = (record files' path).or (record files path) := by
  unfold record
  rw [List.filterMap_append, List.getLast?_append]

/-- Every name is printed on one line. -/
def OneLine (packages : List Package) : Prop :=
  ∀ f ∈ packages.flatMap Package.files, '\r' ∉ f.name ∧ '\n' ∉ f.name

instance (packages : List Package) : Decidable (OneLine packages) :=
  inferInstanceAs (Decidable (∀ f ∈ packages.flatMap Package.files, _))

/-- A line holds its columns. -/
theorem RpmFile.row_notEol {file : RpmFile} (h : '\r' ∉ file.name ∧ '\n' ∉ file.name) :
    file.row ≠ [] ∧ ∀ x ∈ file.row, notEol.test x = true := by
  have hdigit : ∀ {n : Nat} {x : Char}, x ∈ natStr n → notEol.test x = true := by
    intro n x hx
    have hx := (natStr_digits n).2 x hx
    refine notEol_test.mpr ⟨?_, ?_⟩ <;>
    · rintro rfl
      revert hx
      decide
  have htab : notEol.test '\t' = true := by decide
  refine ⟨by simp [RpmFile.row], fun x hx => ?_⟩
  simp only [RpmFile.row, List.mem_append, List.mem_cons] at hx
  rcases hx with hx | rfl | hx | rfl | hx | rfl | hx
  · exact notEol_test.mpr ⟨fun he => h.1 (he ▸ hx), fun he => h.2 (he ▸ hx)⟩
  · exact htab
  · exact hdigit hx
  · exact htab
  · exact notEol_test.mpr (isxdigit_cases (file.digestText_spec x hx)).2
  · exact htab
  · exact hdigit hx

/-- The printed lines are parsed to the files of all instances. -/
theorem parseQueryOutput_queryText {packages : List Package} (h : OneLine packages) :
    parseQueryOutput (queryText packages) = (packages.flatMap Package.files).foldl bindingFile ∅ := by
  have hlines : captures (queryText packages) "[^\r\n]+" = (packages.flatMap Package.files).map RpmFile.row := by
    have hrows : ∀ row ∈ (packages.flatMap Package.files).map RpmFile.row, row ≠ [] ∧
      ∀ x ∈ row, notEol.test x = true := by
      intro row hrow
      obtain ⟨f, hf, rfl⟩ := List.mem_map.mp hrow
      exact RpmFile.row_notEol (h f hf)
    rw [captures_lines]
    have hwords := @words_separated notEol '\n' (by decide) _ hrows
    rwa [List.flatMap_map] at hwords
  unfold parseQueryOutput
  rw [hlines, List.foldl_map]
  simp only [queryLine_row]

theorem lookup_parseBindingFiles (pkg : Package) (path : Str) :
    (parseBindingFiles pkg).lookup path = record pkg.files path := by
  rw [parseBindingFiles, lookup_foldl_bindingFile, AList.lookup_empty, Option.or_none]

/-! ## When they agree -/

/-- The later instances add nothing: a path's last record among their files is the first instance's record. -/
def NothingMore : List Package → Prop
  | [] => True
  | pkg :: rest => ∀ path info, record (rest.flatMap Package.files) path = some info → record pkg.files path = some info

/-- A table describes the files of a package. -/
def Describes (files : FileTable) (pkg : Package) : Prop := ∀ path, files.lookup path = record pkg.files path

/-- The binding does not give the packages, so that `rpm` is run. -/
def Binding.Silent (b : Binding) : Prop := ∀ packages, b ≠ .answers (some packages)

/-- **Both ways agree**: the same error, or the same table, of the package that `get_package_info` reads. -/
def Agreement (packages : List Package) (name : Str) : Prop :=
  let popen := fun _ => some (rpmQuery packages name)
  ∀ b : Binding, b.Silent → match getRpmFiles (.answers (some packages)) popen name, getRpmFiles b popen name with
    | .ok files, .ok files' => (∀ path, files.lookup path = files'.lookup path) ∧
      ∃ pkg ∈ packages, Describes files pkg ∧ Describes files' pkg ∧ ∀ info, getPackageInfo packages name = .ok info →
        info.name = pkg.name ∧ info.version = pkg.version ∧ info.release = pkg.release ∧ some info.arch = pkg.arch
    | .error err, .error err' => err = err'
    | _, _ => False

theorem getRpmFiles_silent {b : Binding} (h : b.Silent) (popen : Str → Option QueryRun) (name : Str) :
    getRpmFiles b popen name = getRpmFilesFromCli popen name := by
  match b, h with
  | .absent, _ => rfl
  | .raises _, _ => rfl
  | .answers none, _ => rfl
  | .answers (some packages), h => exact absurd rfl (h packages)

theorem getPackageInfo_cons {pkg : Package} {rest : List Package} {name : Str} {info : PackageInfo}
    (h : getPackageInfo (pkg :: rest) name = .ok info) :
    info.name = pkg.name ∧ info.version = pkg.version ∧ info.release = pkg.release ∧ some info.arch = pkg.arch := by
  unfold getPackageInfo at h
  dsimp only at h
  split at h
  · cases h
  · cases h
  · next arch _ harch =>
    cases h
    exact ⟨rfl, rfl, rfl, harch.symm⟩

/-- For an installed package: what is printed describes the first instance. -/
theorem agreement_cons {pkg : Package} {rest : List Package} {name : Str} :
    Agreement (pkg :: rest) name ↔ Describes (parseQueryOutput (queryText (pkg :: rest))) pkg := by
  have hcli : ∀ {b : Binding}, b.Silent → getRpmFiles b (fun _ => some (rpmQuery (pkg :: rest) name)) name =
      .ok (parseQueryOutput (queryText (pkg :: rest))) := fun hb => getRpmFiles_silent hb _ name
  constructor
  · intro h path
    have hsilent : Binding.absent.Silent := fun packages hb => by cases hb
    have h := h .absent hsilent
    rw [hcli hsilent] at h
    rw [← h.1 path]
    exact lookup_parseBindingFiles pkg path
  · intro h b hb
    rw [hcli hb]
    exact ⟨fun path => (lookup_parseBindingFiles pkg path).trans (h path).symm, pkg, List.mem_cons_self,
      lookup_parseBindingFiles pkg, h, fun info hinfo => getPackageInfo_cons hinfo⟩

theorem agreement_nil (name : Str) : Agreement [] name := by
  intro b hb
  rw [getRpmFiles_silent hb]
  have hbinding : getRpmFiles (.answers (some [])) (fun _ => some (rpmQuery [] name)) name =
      getRpmFilesFromCli (fun _ => some (rpmQuery [] name)) name := rfl
  obtain ⟨err, herr⟩ : ∃ err, getRpmFilesFromCli (fun _ => some (rpmQuery [] name)) name = .error err := by
    have hquery : rpmQuery [] name =
      { output := "package " ++ name ++ " is not installed\n", success := false, exitCode := "1" } := rfl
    unfold getRpmFilesFromCli
    rw [hquery]
    dsimp only
    rw [if_neg Bool.false_ne_true]
    split
    · exact ⟨_, rfl⟩
    · exact ⟨_, rfl⟩
  rw [hbinding, herr]

/-- Names on one line: the ways agree exactly if the later instances add nothing. -/
theorem agreement_iff {packages : List Package} (h : OneLine packages) (name : Str) :
    Agreement packages name ↔ NothingMore packages := by
  cases packages with
  | nil => exact iff_of_true (agreement_nil name) trivial
  | cons pkg rest =>
    rw [agreement_cons, NothingMore]
    have hlookup : ∀ path, (parseQueryOutput (queryText (pkg :: rest))).lookup path =
        (record (rest.flatMap Package.files) path).or (record pkg.files path) := by
      intro path
      rw [parseQueryOutput_queryText h, lookup_foldl_bindingFile, AList.lookup_empty, Option.or_none, List.flatMap_cons,
        record_append]
    constructor
    · intro hdesc path info hinfo
      have hpath := hdesc path
      rw [hlookup, hinfo] at hpath
      exact hpath.symm
    · intro hmore path
      rw [hlookup]
      cases hinfo : record (rest.flatMap Package.files) path with
      | none => rfl
      | some info => exact (hmore path info hinfo).symm

/-! ## Names with line breaks -/

/-- The paths that `rpm` is read to list are on one line. -/
theorem queryLine_lookup {t : FileTable} {line path : Str} (hline : ∀ x ∈ line, notEol.test x = true)
    (hpath : ¬ ∀ x ∈ path, notEol.test x = true) : (queryLine t line).lookup path = t.lookup path := by
  unfold queryLine
  split
  · next found size digest flags hmatch =>
    have hsub : found ⊆ line := by
      rw [matchCaptures_line] at hmatch
      obtain ⟨⟨r, segs⟩, hrest, htexts⟩ := Option.map_eq_some_iff.mp hmatch
      dsimp only at htexts
      exact texts_subset rfl hrest found (htexts ▸ List.mem_cons_self)
    have hne : path ≠ found := by
      rintro rfl
      exact hpath fun x hx => hline x (hsub hx)
    unfold addFile
    split
    · exact AList.lookup_insert_ne hne
    · rfl
  · rfl

theorem parseQueryOutput_lookup (output : Str) {path : Str} (hpath : ¬ ∀ x ∈ path, notEol.test x = true) :
    (parseQueryOutput output).lookup path = none := by
  have hfold : ∀ (lines : List Str) (t : FileTable), (∀ line ∈ lines, ∀ x ∈ line, notEol.test x = true) →
      (lines.foldl queryLine t).lookup path = t.lookup path := by
    intro lines
    induction lines with
    | nil => exact fun t _ => rfl
    | cons line lines ih =>
      intro t h
      rw [List.foldl_cons, ih _ fun l hl => h l (List.mem_cons_of_mem line hl)]
      exact queryLine_lookup (h line List.mem_cons_self) hpath
  unfold parseQueryOutput
  rw [captures_lines, hfold _ _ fun line hline => mem_words hline]
  exact AList.lookup_empty path

theorem record_isSome {files : List RpmFile} {f : RpmFile} (hf : f ∈ files) (hinfo : f.info.isSome = true) :
    (record files f.name).isSome = true := by
  obtain ⟨info, hinfo⟩ := Option.isSome_iff_exists.mp hinfo
  have hmem : info ∈ files.filterMap fun g => if g.name = f.name then g.info else none :=
    List.mem_filterMap.mpr ⟨f, hf, by rw [if_pos rfl, hinfo]⟩
  rw [record, List.getLast?_isSome]
  exact List.ne_nil_of_mem hmem

/-- A file of the first instance that counts, with a line break in its name. -/
def BrokenName : List Package → Prop
  | [] => False
  | pkg :: _ => ∃ f ∈ pkg.files, f.info.isSome = true ∧ ('\r' ∈ f.name ∨ '\n' ∈ f.name)

theorem not_agreement_of_broken {packages : List Package} (h : BrokenName packages) (name : Str) :
    ¬ Agreement packages name := by
  cases packages with
  | nil => exact h.elim
  | cons pkg rest =>
    rw [agreement_cons]
    intro hdesc
    obtain ⟨f, hf, hinfo, hbroken⟩ := h
    have heol : ¬ ∀ x ∈ f.name, notEol.test x = true := by
      intro hall
      rcases hbroken with hr | hn
      · exact (notEol_test.mp (hall _ hr)).1 rfl
      · exact (notEol_test.mp (hall _ hn)).2 rfl
    have hsome := record_isSome hf hinfo
    rw [← hdesc f.name, parseQueryOutput_lookup _ heol] at hsome
    cases hsome

/-- **When the two listings agree.** With every name on one line, exactly if the later instances add nothing; with a
line break in the name of a file of the first instance that counts, never. -/
theorem listings_agree (packages : List Package) (name : Str) :
    (OneLine packages → (Agreement packages name ↔ NothingMore packages)) ∧
      (BrokenName packages → ¬ Agreement packages name) :=
  ⟨fun h => agreement_iff h name, fun h => not_agreement_of_broken h name⟩

/-- Two installed kernels: `rpm` lists the files of both, and the digest of the second for a common path. -/
theorem kernels_disagree : ¬ Agreement
    [⟨"kernel", "5.10", "1", some "x86_64", [⟨"/boot/config", 10, some ⟨"aa", List.all_eq_true.mp rfl⟩, 0⟩]⟩,
     ⟨"kernel", "5.10", "2", some "x86_64", [⟨"/boot/config", 10, some ⟨"bb", List.all_eq_true.mp rfl⟩, 0⟩]⟩]
     "kernel" := by
  rw [agreement_iff (by decide)]
  intro h
  have hrecord := h "/boot/config" ⟨some (roundDouble 10), "bb", false, false⟩ (by decide +kernel)
  revert hrecord
  decide +kernel

end Rpm
