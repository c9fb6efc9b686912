import Loongshield.Rpm.Listing

/-!
# `rpm/verify.lua`

The files of a package against its SBOM. The digest of a file (`checksum.compute_file_sha256`) is a parameter: what it
answers for each path.

* `verifyChecksums`: the loop over the table; `verifyFile` is its body.
* `verifyPackage`: the exit code.
* `verdict_exact`: the counters, the details and the exit code, in any order of the table.
-/

namespace Rpm

open Lua Pattern Seharden

/-- What `compute_file_sha256` answers: a digest, or `nil` and an error (if it names one). -/
abbrev Answer := Except (Option Str) Str

/-- The status of a detail. -/
inductive Status
  | missingInSbom
  | missingOnDisk
  | error (err : Option Str)
  | mismatch (expected actual : Str)
  deriving DecidableEq

/-- A record of `results.details`. -/
structure Detail where
  file : Str
  status : Status
  deriving DecidableEq

structure Results where
  total : Nat
  verified : Nat
  mismatches : Nat
  missingInSbom : Nat
  missingOnDisk : Nat
  skippedConfig : Nat
  errors : Nat
  details : List Detail
  deriving DecidableEq

def Results.start : Results := ⟨0, 0, 0, 0, 0, 0, 0, []⟩

/-- The part of the configuration that the verification reads. -/
structure Config where
  verifyConfigFiles : Bool

/-- A path and its file, as `pairs` gives them. -/
abbrev FileEntry : Type := Sigma fun _ : Str => FileInfo

section Verify

variable (sbomChecksums : Str → Option Str) (computeFileSha256 : Str → Answer) (config : Config)

/-- The body of the loop of `verify_checksums`. -/
def verifyFile (results : Results) (file : FileEntry) : Results :=
  let results := { results with total := results.total + 1 }
  if file.2.isConfig && !config.verifyConfigFiles then { results with skippedConfig := results.skippedConfig + 1 }
  else match sbomChecksums file.1 with
    | none =>
      { results with
        missingInSbom := results.missingInSbom + 1
        details := results.details ++ [⟨file.1, .missingInSbom⟩] }
    | some expected => match computeFileSha256 file.1 with
      | .error err =>
        if err.any fun err => isMatch err "[Nn]o such file" then
          { results with
            missingOnDisk := results.missingOnDisk + 1
            details := results.details ++ [⟨file.1, .missingOnDisk⟩] }
        else
          { results with
            errors := results.errors + 1
            details := results.details ++ [⟨file.1, .error err⟩] }
      | .ok actual =>
        if actual = expected then { results with verified := results.verified + 1 }
        else
          { results with
            mismatches := results.mismatches + 1
            details := results.details ++ [⟨file.1, .mismatch expected actual⟩] }

/-- `verify_checksums`, with the table in the order of `pairs`. -/
def verifyChecksums (rpmFiles : List FileEntry) : Results :=
  rpmFiles.foldl (verifyFile sbomChecksums computeFileSha256 config) .start

end Verify

/-- `has_verification_failures`. -/
def hasVerificationFailures (results : Results) : Bool :=
  0 < results.mismatches || 0 < results.missingInSbom || 0 < results.missingOnDisk

/-- The exit code of `verify_package` for its results. -/
def exitCode (results : Results) : Nat :=
  if hasVerificationFailures results then 2 else if 0 < results.errors then 1 else 0

/-- `verify_package`: the packages of the name, what fetching the SBOM of a package gives, and the files of the package
in the order of `pairs`. -/
def verifyPackage (packageName : Str) (packages : List Package) (fetchSbom : PackageInfo →
    Except Str (Str → Option Str))
    (rpmFiles : Except Str (List FileEntry)) (computeFileSha256 : Str → Answer) (config : Config) : Nat :=
  match getPackageInfo packages packageName with
  | .error _ => 1
  | .ok info => match fetchSbom info with
    | .error _ => 1
    | .ok sbomChecksums => match rpmFiles with
      | .error _ => 1
      | .ok rpmFiles => exitCode (verifyChecksums sbomChecksums computeFileSha256 config rpmFiles)

/-! ## What the verdict is about -/

section Spec

variable (sbomChecksums : Str → Option Str) (computeFileSha256 : Str → Answer) (config : Config) (file : FileEntry)

/-- An error that says that there is no such file. -/
def NoSuchFile (err : Str) : Prop := "No such file".toList <:+: err ∨ "no such file".toList <:+: err

/-- A config file, and config files are not verified. -/
def Skipped : Prop := file.2.isConfig = true ∧ config.verifyConfigFiles = false

/-- The SBOM has the digest of the file. -/
def Matches : Prop := ∃ digest, sbomChecksums file.1 = some digest ∧ computeFileSha256 file.1 = .ok digest

/-- The SBOM has another digest. -/
def Mismatches : Prop :=
  ∃ expected actual, sbomChecksums file.1 = some expected ∧ computeFileSha256 file.1 = .ok actual ∧ actual ≠ expected

/-- The SBOM does not have the file. -/
def NotInSbom : Prop := sbomChecksums file.1 = none

/-- The digest function answers that the disk does not have the file. -/
def NotOnDisk : Prop := ∃ err, computeFileSha256 file.1 = .error (some err) ∧ NoSuchFile err

end Spec

/-! ## The error text -/

def letterN : Single := .set false [.lit 'N', .lit 'n']

theorem compile_noSuchFile : compile "[Nn]o such file" =
    .single letterN .one :: ("o such file".toList.map fun a => .single (.lit a) .one) := rfl

theorem infix_cons_iff {a : Char} {w s : Str} : a :: w <:+: s ↔ ∃ r, a :: r <:+ s ∧ w <+: r := by
  constructor
  · rintro ⟨pre, post, rfl⟩
    exact ⟨w ++ post, ⟨pre, by simp⟩, List.prefix_append w post⟩
  · rintro ⟨r, ⟨pre, rfl⟩, post, rfl⟩
    exact ⟨pre, post, by simp⟩

/-- The pattern of the source finds exactly these texts. -/
theorem isMatch_noSuchFile {err : Str} : isMatch err "[Nn]o such file" = true ↔ NoSuchFile err := by
  have hfront : ∀ x r, (matchRest (.single letterN .one :: ("o such file".toList.map fun a => .single (.lit a) .one))
      (x :: r) []).isSome = true ↔ (x = 'N' ∨ x = 'n') ∧ "o such file".toList <+: r := by
    intro x r
    have hletter : letterN.test x = true ↔ x = 'N' ∨ x = 'n' := by
      simp only [letterN, Single.test, List.any_cons, List.any_nil, SetItem.test, Bool.or_false, Bool.bne_false,
        Bool.or_eq_true, beq_iff_eq]
      exact or_congr eq_comm eq_comm
    rw [matchRest]
    by_cases hx : x = 'N' ∨ x = 'n'
    · rw [if_pos (hletter.mpr hx), matchRest_text, and_iff_right hx]
    · rw [if_neg fun h => hx (hletter.mp h)]
      exact iff_of_false Bool.false_ne_true fun h => hx h.1
  have hN : "No such file".toList = 'N' :: "o such file".toList := rfl
  have hn : "no such file".toList = 'n' :: "o such file".toList := rfl
  rw [isMatch_search (by decide) compile_noSuchFile rfl, findRest_isSome, NoSuchFile, hN, hn, infix_cons_iff,
    infix_cons_iff]
  constructor
  · rintro ⟨r, hr, hmatch⟩
    cases r with
    | nil => cases hmatch
    | cons x r =>
      obtain ⟨rfl | rfl, hrest⟩ := (hfront x r).mp hmatch
      · exact .inl ⟨r, hr, hrest⟩
      · exact .inr ⟨r, hr, hrest⟩
  · rintro (⟨r, hr, hrest⟩ | ⟨r, hr, hrest⟩)
    · exact ⟨_, hr, (hfront _ r).mpr ⟨.inl rfl, hrest⟩⟩
    · exact ⟨_, hr, (hfront _ r).mpr ⟨.inr rfl, hrest⟩⟩

/-! ## One file -/

/-- The six ways out of the loop's body. -/
inductive Kind
  | verified
  | mismatch
  | missingInSbom
  | missingOnDisk
  | skipped
  | error
  deriving DecidableEq

/-- The counter of a way out. -/
def Results.counter (r : Results) : Kind → Nat
  | .verified => r.verified
  | .mismatch => r.mismatches
  | .missingInSbom => r.missingInSbom
  | .missingOnDisk => r.missingOnDisk
  | .skipped => r.skippedConfig
  | .error => r.errors

section File

variable {sbomChecksums : Str → Option Str} {computeFileSha256 : Str → Answer} {config : Config}

/-- What can happen to a file: one way out, with what it depends on and what it records. -/
inductive Outcome (sbomChecksums : Str → Option Str) (computeFileSha256 : Str → Answer) (config : Config)
    (file : FileEntry) : Kind → Option Status → Prop
  | skipped (h : Skipped config file) : Outcome sbomChecksums computeFileSha256 config file .skipped none
  | missingInSbom (h : ¬ Skipped config file) (hsbom : NotInSbom sbomChecksums file) :
    Outcome sbomChecksums computeFileSha256 config file .missingInSbom (some .missingInSbom)
  | missingOnDisk (h : ¬ Skipped config file) (hsbom : ¬ NotInSbom sbomChecksums file)
    (hdisk : NotOnDisk computeFileSha256 file) :
    Outcome sbomChecksums computeFileSha256 config file .missingOnDisk (some .missingOnDisk)
  | error {err : Option Str} (h : ¬ Skipped config file) (hsbom : ¬ NotInSbom sbomChecksums file)
    (herr : computeFileSha256 file.1 = .error err) (hdisk : ¬ NotOnDisk computeFileSha256 file) :
    Outcome sbomChecksums computeFileSha256 config file .error (some (.error err))
  | verified (h : ¬ Skipped config file) (hmatch : Matches sbomChecksums computeFileSha256 file) :
    Outcome sbomChecksums computeFileSha256 config file .verified none
  | mismatch {expected actual : Str} (h : ¬ Skipped config file) (hsbom : sbomChecksums file.1 = some expected)
    (hdigest : computeFileSha256 file.1 = .ok actual) (hne : actual ≠ expected) :
    Outcome sbomChecksums computeFileSha256 config file .mismatch (some (.mismatch expected actual))

/-- The body of the loop counts the file once in the total, once in the counter of its outcome, and records it. -/
theorem verifyFile_spec (r : Results) (file : FileEntry) : ∃ kind status,
    Outcome sbomChecksums computeFileSha256 config file kind status ∧
      (verifyFile sbomChecksums computeFileSha256 config r file).total = r.total + 1 ∧
      (∀ k, (verifyFile sbomChecksums computeFileSha256 config r file).counter k =
        r.counter k + if kind = k then 1 else 0) ∧
      (verifyFile sbomChecksums computeFileSha256 config r file).details =
        r.details ++ (status.map fun s => ⟨file.1, s⟩).toList := by
  unfold verifyFile
  dsimp only
  have hskip : (file.2.isConfig && !config.verifyConfigFiles) = true ↔ Skipped config file := by
    rw [Skipped, Bool.and_eq_true, Bool.not_eq_true']
  split
  · next h => exact ⟨_, _, .skipped (hskip.mp h), rfl, fun k => by cases k <;> rfl, (List.append_nil _).symm⟩
  · next h =>
    replace h : ¬ Skipped config file := fun hs => h (hskip.mpr hs)
    cases hsbom : sbomChecksums file.1 with
    | none => exact ⟨_, _, .missingInSbom h hsbom, rfl, fun k => by cases k <;> rfl, rfl⟩
    | some expected =>
      have hin : ¬ NotInSbom sbomChecksums file := fun hnone => by rw [NotInSbom, hsbom] at hnone; cases hnone
      cases hdigest : computeFileSha256 file.1 with
      | error err =>
        dsimp only
        have hdisk : (err.any fun err => isMatch err "[Nn]o such file") = true ↔ NotOnDisk computeFileSha256 file := by
          unfold NotOnDisk
          rw [hdigest]
          cases err with
          | none => exact iff_of_false Bool.false_ne_true fun ⟨e, he, _⟩ => by cases he
          | some err =>
            rw [Option.any_some, isMatch_noSuchFile]
            exact ⟨fun h => ⟨err, rfl, h⟩, fun ⟨e, he, h⟩ => by cases he; exact h⟩
        split
        · next hm => exact ⟨_, _, .missingOnDisk h hin (hdisk.mp hm), rfl, fun k => by cases k <;> rfl, rfl⟩
        · next hm =>
          exact ⟨_, _, .error h hin hdigest fun hd => hm (hdisk.mpr hd), rfl, fun k => by cases k <;> rfl, rfl⟩
      | ok actual =>
        dsimp only
        split
        · next heq =>
          exact ⟨_, _, .verified h ⟨expected, hsbom, heq ▸ hdigest⟩, rfl, fun k => by cases k <;> rfl,
            (List.append_nil _).symm⟩
        · next hne => exact ⟨_, _, .mismatch h hsbom hdigest hne, rfl, fun k => by cases k <;> rfl, rfl⟩

/-- A file has one outcome. -/
theorem Outcome.unique {file : FileEntry} {k k' : Kind} {s s' : Option Status}
    (h : Outcome sbomChecksums computeFileSha256 config file k s)
    (h' : Outcome sbomChecksums computeFileSha256 config file k' s') : k = k' ∧ s = s' := by
  cases h <;> cases h' <;> grind [NotInSbom, Matches, NotOnDisk]

theorem exists_outcome (sbomChecksums : Str → Option Str) (computeFileSha256 : Str → Answer) (config : Config)
    (file : FileEntry) : ∃ kind status, Outcome sbomChecksums computeFileSha256 config file kind status := by
  obtain ⟨kind, status, h, -⟩ := verifyFile_spec .start file
  exact ⟨kind, status, h⟩

/-! ## The whole table -/

/-- What the results say about the files that were visited. -/
structure Tally (sbomChecksums : Str → Option Str) (computeFileSha256 : Str → Answer) (config : Config)
    (visited : List FileEntry) (r : Results) : Prop where
  total : r.total = visited.length
  sum : r.verified + r.mismatches + r.missingInSbom + r.missingOnDisk + r.skippedConfig + r.errors = r.total
  counter : ∀ k, 0 < r.counter k ↔ ∃ f ∈ visited, ∃ s, Outcome sbomChecksums computeFileSha256 config f k s
  skipped : r.skippedConfig = (visited.filter fun f => f.2.isConfig && !config.verifyConfigFiles).length
  details : ∀ d, d ∈ r.details ↔ ∃ f ∈ visited, d.file = f.1 ∧
    ∃ k, Outcome sbomChecksums computeFileSha256 config f k (some d.status)
  files : (r.details.map Detail.file).Sublist (visited.map Sigma.fst)

theorem tally_start : Tally sbomChecksums computeFileSha256 config [] .start where
  total := rfl
  sum := rfl
  counter k := by cases k <;> simp [Results.counter, Results.start]
  skipped := rfl
  details d := by simp [Results.start]
  files := List.Sublist.slnil

/-- One more file. -/
theorem tally_step {visited : List FileEntry} {r : Results} (file : FileEntry)
    (h : Tally sbomChecksums computeFileSha256 config visited r) :
    Tally sbomChecksums computeFileSha256 config (visited ++ [file])
      (verifyFile sbomChecksums computeFileSha256 config r file) := by
  obtain ⟨kind, status, hout, htotal, hcounter, hdetails⟩ :=
    @verifyFile_spec sbomChecksums computeFileSha256 config r file
  generalize verifyFile sbomChecksums computeFileSha256 config r file = r' at htotal hcounter hdetails
  have hv : r'.verified = r.verified + _ := hcounter .verified
  have hm : r'.mismatches = r.mismatches + _ := hcounter .mismatch
  have hs : r'.missingInSbom = r.missingInSbom + _ := hcounter .missingInSbom
  have hd : r'.missingOnDisk = r.missingOnDisk + _ := hcounter .missingOnDisk
  have hc : r'.skippedConfig = r.skippedConfig + _ := hcounter .skipped
  have he : r'.errors = r.errors + _ := hcounter .error
  refine ⟨?_, ?_, fun k => ?_, ?_, fun d => ?_, ?_⟩
  · rw [htotal, h.total, List.length_append]
    rfl
  · have hone : ∀ k : Kind, (if k = .verified then 1 else 0) + (if k = .mismatch then 1 else 0) +
        (if k = .missingInSbom then 1 else 0) + (if k = .missingOnDisk then 1 else 0) +
          (if k = .skipped then 1 else 0) +
        (if k = .error then 1 else 0) = 1 := by
      intro k
      cases k <;> rfl
    have hone := hone kind
    have hsum := h.sum
    omega
  · rw [hcounter k]
    simp only [List.mem_append, List.mem_singleton, or_and_right, exists_or, exists_eq_left]
    rw [← h.counter k]
    by_cases hk : kind = k
    · subst hk
      rw [if_pos rfl]
      exact iff_of_true (Nat.succ_pos _) (.inr ⟨status, hout⟩)
    · rw [if_neg hk, Nat.add_zero]
      exact (or_iff_left fun ⟨s, hs⟩ => hk (hout.unique hs).1).symm
  · rw [hc, h.skipped, List.filter_append, List.length_append]
    have hskip : Skipped config file ↔ (file.2.isConfig && !config.verifyConfigFiles) = true := by
      rw [Skipped, Bool.and_eq_true, Bool.not_eq_true']
    by_cases hfile : Skipped config file
    · rw [if_pos (hout.unique (.skipped hfile)).1, List.filter_singleton, hskip.mp hfile]
      rfl
    · have hkind : kind ≠ .skipped := by
        rintro rfl
        cases hout with
        | skipped hs => exact hfile hs
      rw [if_neg hkind, List.filter_singleton, Bool.eq_false_iff.mpr fun hb => hfile (hskip.mpr hb)]
      rfl
  · rw [hdetails, List.mem_append, h.details]
    simp only [List.mem_append, List.mem_singleton, or_and_right, exists_or, exists_eq_left]
    refine or_congr_right ?_
    cases status with
    | none =>
      refine iff_of_false (by simp) fun ⟨_, k, hk⟩ => ?_
      cases (hout.unique hk).2
    | some s =>
      simp only [Option.map_some, Option.toList_some, List.mem_singleton]
      constructor
      · rintro rfl
        exact ⟨rfl, kind, hout⟩
      · rintro ⟨hfile, k, hk⟩
        cases d with
        | mk path status =>
          obtain rfl : path = file.1 := hfile
          rw [Option.some.inj (hout.unique hk).2]
  · rw [hdetails, List.map_append, List.map_append]
    refine h.files.append ?_
    cases status with
    | none => exact List.nil_sublist _
    | some s => exact List.Sublist.refl _

/-- **Whatever the table, the results say what happened to each file.** -/
theorem tally_verifyChecksums (order : List FileEntry) : Tally sbomChecksums computeFileSha256 config order
    (verifyChecksums sbomChecksums computeFileSha256 config order) := by
  have hrun : ∀ (rest visited : List FileEntry) (r : Results), Tally sbomChecksums computeFileSha256 config visited r →
      Tally sbomChecksums computeFileSha256 config (visited ++ rest)
        (rest.foldl (verifyFile sbomChecksums computeFileSha256 config) r) := by
    intro rest
    induction rest with
    | nil =>
      intro visited r h
      rwa [List.append_nil]
    | cons f rest ih =>
      intro visited r h
      have h := ih _ _ (tally_step f h)
      rwa [List.append_assoc] at h
  exact hrun order [] .start tally_start

/-! ## The exit code -/

/-- Nothing is recorded of a file that is skipped or verified. -/
theorem Outcome.status_none_iff {file : FileEntry} {k : Kind} {s : Option Status}
    (h : Outcome sbomChecksums computeFileSha256 config file k s) :
    s = none ↔ Skipped config file ∨ Matches sbomChecksums computeFileSha256 file := by
  cases h <;> grind [NotInSbom, Matches, NotOnDisk]

/-- The outcomes that fail the verification. -/
theorem Outcome.fails_iff {file : FileEntry} {k : Kind} {s : Option Status}
    (h : Outcome sbomChecksums computeFileSha256 config file k s) : k = .mismatch ∨ k = .missingInSbom ∨
      k = .missingOnDisk ↔
      ¬ Skipped config file ∧ (Mismatches sbomChecksums computeFileSha256 file ∨ NotInSbom sbomChecksums file ∨
        NotOnDisk computeFileSha256 file) := by
  cases h <;> grind [NotInSbom, Matches, Mismatches, NotOnDisk]

/-- Nothing is recorded exactly for the two outcomes that are no failure and no error. -/
theorem Outcome.kind_iff {file : FileEntry} {k : Kind} {s : Option Status}
    (h : Outcome sbomChecksums computeFileSha256 config file k s) : s = none ↔ k = .verified ∨ k = .skipped := by
  cases h <;> simp

theorem exitCode_zero {r : Results} : exitCode r = 0 ↔ ∀ k, 0 < r.counter k → k = .verified ∨ k = .skipped := by
  have hcounters : exitCode r = 0 ↔
      r.mismatches = 0 ∧ r.missingInSbom = 0 ∧ r.missingOnDisk = 0 ∧ r.errors = 0 := by
    simp only [exitCode, hasVerificationFailures, Bool.or_eq_true, decide_eq_true_eq]
    split
    · omega
    · split <;> omega
  rw [hcounters]
  constructor
  · rintro ⟨hm, hs, hd, he⟩ k hk
    cases k <;> simp_all [Results.counter]
  · intro h
    have hm := h .mismatch
    have hs := h .missingInSbom
    have hd := h .missingOnDisk
    have he := h .error
    simp_all [Results.counter]

theorem exitCode_two {r : Results} :
    exitCode r = 2 ↔ 0 < r.counter .mismatch ∨ 0 < r.counter .missingInSbom ∨ 0 < r.counter .missingOnDisk := by
  unfold exitCode hasVerificationFailures
  simp only [Results.counter]
  split
  · next h => simpa [or_assoc] using h
  · next h =>
    have hno : ¬ (0 < r.mismatches ∨ 0 < r.missingInSbom ∨ 0 < r.missingOnDisk) := by simpa [or_assoc] using h
    refine iff_of_false ?_ hno
    split <;> simp

theorem exitCode_le (r : Results) : exitCode r = 0 ∨ exitCode r = 1 ∨ exitCode r = 2 := by
  unfold exitCode
  split
  · exact .inr (.inr rfl)
  · split
    · exact .inr (.inl rfl)
    · exact .inl rfl

/-- The exit code is 0 exactly if every file is skipped or verified. -/
theorem Tally.exitCode_zero_iff {files : List FileEntry} {r : Results}
    (h : Tally sbomChecksums computeFileSha256 config files r) :
    exitCode r = 0 ↔ ∀ f ∈ files, ¬ Skipped config f → Matches sbomChecksums computeFileSha256 f := by
  rw [exitCode_zero]
  constructor
  · intro hzero f hf hskip
    obtain ⟨k, s, hout⟩ := exists_outcome sbomChecksums computeFileSha256 config f
    have hnone := hout.kind_iff.mpr (hzero k ((h.counter k).mpr ⟨f, hf, s, hout⟩))
    exact (hout.status_none_iff.mp hnone).resolve_left hskip
  · intro hall k hk
    obtain ⟨f, hf, s, hout⟩ := (h.counter k).mp hk
    refine hout.kind_iff.mp (hout.status_none_iff.mpr ?_)
    by_cases hskip : Skipped config f
    · exact .inl hskip
    · exact .inr (hall f hf hskip)

/-- The exit code is 2 exactly if some file fails. -/
theorem Tally.exitCode_two_iff {files : List FileEntry} {r : Results}
    (h : Tally sbomChecksums computeFileSha256 config files r) :
    exitCode r = 2 ↔ ∃ f ∈ files, ¬ Skipped config f ∧ (Mismatches sbomChecksums computeFileSha256 f ∨
      NotInSbom sbomChecksums f ∨ NotOnDisk computeFileSha256 f) := by
  rw [exitCode_two]
  constructor
  · intro hcount
    have hfail : ∃ k, (k = .mismatch ∨ k = .missingInSbom ∨ k = .missingOnDisk) ∧ 0 < r.counter k := by
      rcases hcount with hk | hk | hk
      · exact ⟨.mismatch, .inl rfl, hk⟩
      · exact ⟨.missingInSbom, .inr (.inl rfl), hk⟩
      · exact ⟨.missingOnDisk, .inr (.inr rfl), hk⟩
    obtain ⟨k, hkind, hk⟩ := hfail
    obtain ⟨f, hf, s, hout⟩ := (h.counter k).mp hk
    exact ⟨f, hf, hout.fails_iff.mp hkind⟩
  · rintro ⟨f, hf, hfail⟩
    obtain ⟨k, s, hout⟩ := exists_outcome sbomChecksums computeFileSha256 config f
    have hpos : 0 < r.counter k := (h.counter k).mpr ⟨f, hf, s, hout⟩
    rcases hout.fails_iff.mpr hfail with rfl | rfl | rfl
    · exact .inl hpos
    · exact .inr (.inl hpos)
    · exact .inr (.inr hpos)

/-- One record for each file that is neither skipped nor verified. -/
theorem Tally.mem_details {files : List FileEntry} {r : Results}
    (h : Tally sbomChecksums computeFileSha256 config files r) (path : Str) :
    path ∈ r.details.map Detail.file ↔
      ∃ f ∈ files, f.1 = path ∧ ¬ Skipped config f ∧ ¬ Matches sbomChecksums computeFileSha256 f := by
  rw [List.mem_map]
  constructor
  · rintro ⟨d, hd, rfl⟩
    obtain ⟨f, hf, hfile, k, hout⟩ := (h.details d).mp hd
    have hsome : ¬ (Skipped config f ∨ Matches sbomChecksums computeFileSha256 f) := fun hno => by
      cases hout.status_none_iff.mpr hno
    exact ⟨f, hf, hfile.symm, fun hs => hsome (.inl hs), fun hm => hsome (.inr hm)⟩
  · rintro ⟨f, hf, rfl, hskip, hmatch⟩
    obtain ⟨k, s, hout⟩ := exists_outcome sbomChecksums computeFileSha256 config f
    cases s with
    | none => exact absurd (hout.status_none_iff.mp rfl) (not_or.mpr ⟨hskip, hmatch⟩)
    | some s => exact ⟨⟨f.1, s⟩, (h.details _).mpr ⟨f, hf, rfl, k, hout⟩, rfl⟩

theorem verifyPackage_eq {packageName : Str} {packages : List Package} {info : PackageInfo}
    {fetchSbom : PackageInfo → Except Str (Str → Option Str)} (hinfo : getPackageInfo packages packageName = .ok info)
    (hsbom : fetchSbom info = .ok sbomChecksums) (rpmFiles : List FileEntry) :
    verifyPackage packageName packages fetchSbom (.ok rpmFiles) computeFileSha256 config =
      exitCode (verifyChecksums sbomChecksums computeFileSha256 config rpmFiles) := by
  unfold verifyPackage
  rw [hinfo]
  dsimp only
  rw [hsbom]

/-- **The verdict is exact.** For a table of files in any order: every file is counted once, in the total and in one
other counter, the details have one record for each file that is neither skipped nor verified, and the exit code tells
whether all of the others match. -/
theorem verdict_exact (rpmFiles : FileTable) (sbomChecksums : Str → Option Str) (computeFileSha256 : Str → Answer)
    (config : Config) {order : List FileEntry} (horder : order.Perm rpmFiles.entries) {packageName : Str}
    {packages : List Package} {info : PackageInfo} {fetchSbom : PackageInfo → Except Str (Str → Option Str)}
    (hinfo : getPackageInfo packages packageName = .ok info) (hsbom : fetchSbom info = .ok sbomChecksums) :
    let r := verifyChecksums sbomChecksums computeFileSha256 config order
    let code := verifyPackage packageName packages fetchSbom (.ok order) computeFileSha256 config
    let allMatch := ∀ f ∈ rpmFiles.entries, ¬ Skipped config f → Matches sbomChecksums computeFileSha256 f
    let someFails := ∃ f ∈ rpmFiles.entries, ¬ Skipped config f ∧ (Mismatches sbomChecksums computeFileSha256 f ∨
      NotInSbom sbomChecksums f ∨ NotOnDisk computeFileSha256 f)
    r.verified + r.mismatches + r.missingInSbom + r.missingOnDisk + r.skippedConfig + r.errors = r.total ∧
      r.total = rpmFiles.entries.length ∧
      (code = 0 ↔ allMatch) ∧ (code = 2 ↔ someFails) ∧ (code = 1 ↔ ¬ allMatch ∧ ¬ someFails) ∧
      (r.details.map Detail.file).Nodup ∧
      (∀ path, path ∈ r.details.map Detail.file ↔ ∃ f ∈ rpmFiles.entries, f.1 = path ∧ ¬ Skipped config f ∧
        ¬ Matches sbomChecksums computeFileSha256 f) ∧
      r.skippedConfig = (rpmFiles.entries.filter fun f => f.2.isConfig && !config.verifyConfigFiles).length := by
  have htally := @tally_verifyChecksums sbomChecksums computeFileSha256 config order
  intro r code allMatch someFails
  have hcode : code = exitCode r := verifyPackage_eq hinfo hsbom order
  have hzero : exitCode r = 0 ↔ allMatch := by
    rw [htally.exitCode_zero_iff]
    simp only [allMatch, horder.mem_iff]
  have htwo : exitCode r = 2 ↔ someFails := by
    rw [htally.exitCode_two_iff]
    simp only [someFails, horder.mem_iff]
  have hone : exitCode r = 1 ↔ ¬ allMatch ∧ ¬ someFails := by
    rw [← hzero, ← htwo]
    rcases exitCode_le r with h | h | h <;> omega
  rw [hcode]
  refine ⟨htally.sum, htally.total.trans horder.length_eq, hzero, htwo, hone, ?_, fun path => ?_, ?_⟩
  · have hkeys : (order.map Sigma.fst).Nodup := (horder.map Sigma.fst).nodup_iff.mpr rpmFiles.nodupKeys
    exact hkeys.sublist htally.files
  · rw [htally.mem_details]
    simp only [horder.mem_iff]
  · rw [htally.skipped]
    exact (horder.filter _).length_eq

end File

/-- Two files, one of them a config file that is skipped, and their SBOM. -/
def demoFiles : FileTable :=
  (AList.insert "/etc/demo.conf".toList ⟨none, [], true, false⟩ ∅).insert "/usr/bin/demo".toList ⟨none, [], false,
    false⟩

def demoPackage : Package := ⟨"demo", "1.0", "1", some "x86_64", []⟩

def demoSbom (path : Str) : Option Str := if path = "/usr/bin/demo" then some "abc" else none

/-- The code is 0, although the SBOM does not have the config file. -/
theorem demo_verified : verifyPackage "demo" [demoPackage] (fun _ => .ok demoSbom) (.ok demoFiles.entries.reverse)
    (fun _ => .ok "abc") ⟨false⟩ = 0 := by
  have hverdict := @verdict_exact demoFiles demoSbom (fun _ => .ok "abc") ⟨false⟩ _ (List.reverse_perm _) "demo"
    [demoPackage] ⟨"demo", "1.0", "1", "x86_64"⟩ (fun _ => .ok demoSbom) rfl rfl
  refine hverdict.2.2.1.mpr fun f hf hskip => ?_
  have hcases : f = ⟨"/usr/bin/demo".toList, ⟨none, [], false, false⟩⟩ ∨
      f = ⟨"/etc/demo.conf".toList, ⟨none, [], true, false⟩⟩ := by
    have hentries : demoFiles.entries =
      [⟨"/usr/bin/demo".toList, ⟨none, [], false, false⟩⟩, ⟨"/etc/demo.conf".toList, ⟨none, [], true, false⟩⟩] := rfl
    rw [hentries] at hf
    simpa using hf
  rcases hcases with rfl | rfl
  · exact ⟨"abc", rfl, rfl⟩
  · exact absurd ⟨rfl, rfl⟩ hskip

end Rpm
