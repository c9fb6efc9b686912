import Loongshield.Rpm.Verify

/-!
# `rpm/checksum.lua`: `compute_file_sha256`

A file is read in chunks until a read gives no data. That is the end of the file, or a read that failed: both end the
loop, and the digest of what was read is returned.

* `Reads`: the outcomes of the reads of a file; `OpenFile`: they deliver its content from the beginning.
* `partly_read_iff`: a digest is the digest of the whole content exactly if nothing was left when the loop ended.
-/

namespace Rpm

open Lua Seharden

/-- The outcomes of `f:read(8192)`, up to the first without data. -/
inductive Reads
  | eof
  | failed (err : Str)
  | data (chunk : Str) (rest : Reads)

namespace Reads

/-- The outcomes that reading this content can have: chunks from its beginning, the end of the file only where nothing
is left, an error anywhere. A directory (`none`) has no content to read. -/
inductive Deliver : Reads → Option Str → Prop
  | eof : Deliver .eof (some [])
  | failed (err : Str) (content : Option Str) : Deliver (.failed err) content
  | data {chunk content : Str} {rest : Reads} (hne : chunk ≠ []) (h : Deliver rest (some content)) :
    Deliver (.data chunk rest) (some (chunk ++ content))

/-- All data that was read. -/
def text : Reads → Str
  | .eof => []
  | .failed _ => []
  | .data chunk rest => chunk ++ rest.text

end Reads

/-- An open file or directory. -/
structure OpenFile where
  content : Option Str
  reads : Reads
  deliver : reads.Deliver content

/-- `openssl`: whether a digest can be made and finished, and the digest of a text. -/
structure Openssl where
  created : Bool
  finalized : Bool
  sha256 : Str → Str

/-- The loop of `compute_file_sha256`: `sha256:update(chunk)` until a read gives no data. -/
def updateAll (data : Str) : Reads → Str
  | .data chunk rest => updateAll (data ++ chunk) rest
  | .eof => data
  | .failed _ => data

/-- `compute_file_sha256`, on what `io.open` gives. -/
def computeFileSha256 (ssl : Openssl) : Except Str OpenFile → Answer
  | .error err => .error (some err)
  | .ok f =>
    if ssl.created then
      let data := updateAll [] f.reads
      if ssl.finalized then .ok (lower (ssl.sha256 data)) else .error (some "Failed to finalize hash")
    else .error (some "Failed to create SHA256 digest")

/-! ## What is read -/

theorem updateAll_eq : ∀ (reads : Reads) (data : Str), updateAll data reads = data ++ reads.text
  | .eof, data => (List.append_nil data).symm
  | .failed _, data => (List.append_nil data).symm
  | .data chunk rest, data => by rw [updateAll, updateAll_eq rest, Reads.text, List.append_assoc]

/-- The digest of the whole content, if there is one. -/
def wholeDigest (ssl : Openssl) (opened : Except Str OpenFile) : Option Str :=
  match opened with
  | .error _ => none
  | .ok f => f.content.map fun content => lower (ssl.sha256 content)

/-- The reads that end at the end of the file. -/
def Reads.ended : Reads → Bool
  | .eof => true
  | .failed _ => false
  | .data _ rest => rest.ended

/-- Reads that end at the end of the file deliver all of its content. -/
theorem Reads.Deliver.whole {reads : Reads} {content : Option Str} (h : reads.Deliver content)
    (hended : reads.ended = true) : content = some reads.text := by
  induction h with
  | eof => rfl
  | failed err content => cases hended
  | data hne h ih => rw [Reads.text, ← Option.some.inj (ih hended)]

/-- The answer is the digest of the whole content, or an error. -/
def Sound (ssl : Openssl) (opened : Except Str OpenFile) : Prop :=
  match computeFileSha256 ssl opened with
  | .ok digest => wholeDigest ssl opened = some digest
  | .error err => err ≠ none

/-- No read fails while content is left: the file cannot be opened, there is no digest, or all of the content was read
(or the part that was read happens to have the digest of the whole). -/
def ReadWhole (ssl : Openssl) : Except Str OpenFile → Prop
  | .error _ => True
  | .ok f => ssl.created = true → ssl.finalized = true → ∃ content, f.content = some content ∧
    (f.reads.text = content ∨ lower (ssl.sha256 f.reads.text) = lower (ssl.sha256 content))

/-- A failure has an error. -/
theorem computeFileSha256_error {ssl : Openssl} {opened : Except Str OpenFile} {err : Option Str}
    (h : computeFileSha256 ssl opened = .error err) : err ≠ none := by
  rintro rfl
  unfold computeFileSha256 at h
  split at h
  · cases h
  · split at h
    · dsimp only at h
      split at h <;> cases h
    · cases h

theorem sound_iff (ssl : Openssl) (opened : Except Str OpenFile) : Sound ssl opened ↔ ReadWhole ssl opened := by
  unfold Sound
  cases opened with
  | error err => exact iff_of_true (by rintro ⟨⟩) trivial
  | ok f =>
    rw [computeFileSha256, ReadWhole]
    by_cases hc : ssl.created = true
    · by_cases hf : ssl.finalized = true
      · rw [if_pos hc, if_pos hf, updateAll_eq, List.nil_append, wholeDigest]
        constructor
        · intro h _ _
          obtain ⟨content, hcontent, hdigest⟩ := Option.map_eq_some_iff.mp h
          exact ⟨content, hcontent, .inr hdigest.symm⟩
        · intro h
          obtain ⟨content, hcontent, hread⟩ := h hc hf
          rw [hcontent, Option.map_some]
          rcases hread with rfl | hdigest
          · rfl
          · rw [hdigest]
      · rw [if_pos hc, if_neg hf]
        exact iff_of_true (by rintro ⟨⟩) fun _ h => absurd h hf
    · rw [if_neg hc]
      exact iff_of_true (by rintro ⟨⟩) fun h => absurd h hc

/-! ## What is verified -/

section Verified

variable (ssl : Openssl) (disk : Str → Except Str OpenFile) (config : Config)

/-- The SBOM has the digest of the whole content. -/
def WholeMatch (sbomChecksums : Str → Option Str) (file : FileEntry) : Prop :=
  ∃ digest, wholeDigest ssl (disk file.1) = some digest ∧ sbomChecksums file.1 = some digest

/-- The digests of the files on the disk. -/
def diskDigest (path : Str) : Answer := computeFileSha256 ssl (disk path)

variable {ssl disk config}

theorem wholeMatch_of_matches {sbomChecksums : Str → Option Str} {file : FileEntry} (hsound : Sound ssl (disk file.1))
    (h : Matches sbomChecksums (diskDigest ssl disk) file) : WholeMatch ssl disk sbomChecksums file := by
  obtain ⟨digest, hsbom, hdigest⟩ := h
  unfold Sound at hsound
  rw [diskDigest] at hdigest
  rw [hdigest] at hsound
  exact ⟨digest, hsound, hsbom⟩

/-- Files without a record that are not skipped are verified. -/
theorem matches_of_no_detail {sbomChecksums : Str → Option Str} {order : List FileEntry} {file : FileEntry}
    (hfile : file ∈ order) (hskip : ¬ Skipped config file)
    (hdetail : file.1 ∉ (verifyChecksums sbomChecksums (diskDigest ssl disk) config order).details.map Detail.file) :
    Matches sbomChecksums (diskDigest ssl disk) file := by
  by_contra hmatch
  exact hdetail ((tally_verifyChecksums order).mem_details file.1 |>.mpr ⟨file, hfile, rfl, hskip, hmatch⟩)

/-- **Only whole files are verified**, exactly if no read fails while content is left: `compute_file_sha256` answers the
digest of the whole content or an error; a file that is neither skipped nor recorded in the details has the digest of
its whole content in the SBOM, whatever the SBOM; and so has every file if the exit code is 0. -/
theorem partly_read_iff (ssl : Openssl) (disk : Str → Except Str OpenFile) (config : Config) (rpmFiles : FileTable)
    {order : List FileEntry} (horder : order.Perm rpmFiles.entries) :
    (∀ path, Sound ssl (disk path) ↔ ReadWhole ssl (disk path)) ∧
      ((∀ sbomChecksums, ∀ f ∈ rpmFiles.entries, ¬ Skipped config f →
          f.1 ∉ (verifyChecksums sbomChecksums (diskDigest ssl disk) config order).details.map Detail.file →
          WholeMatch ssl disk sbomChecksums f) ↔
        ∀ f ∈ rpmFiles.entries, ¬ Skipped config f → ReadWhole ssl (disk f.1)) ∧
      ((∀ f ∈ rpmFiles.entries, ¬ Skipped config f → ReadWhole ssl (disk f.1)) →
        ∀ (packageName : Str) (packages : List Package) (info : PackageInfo) (sbomChecksums : Str → Option Str)
          (fetchSbom : PackageInfo → Except Str (Str → Option Str)), getPackageInfo packages packageName = .ok info →
          fetchSbom info = .ok sbomChecksums →
          verifyPackage packageName packages fetchSbom (.ok order) (diskDigest ssl disk) config = 0 →
          ∀ f ∈ rpmFiles.entries, ¬ Skipped config f → WholeMatch ssl disk sbomChecksums f) := by
  refine ⟨fun path => sound_iff ssl (disk path), ⟨fun h f hf hskip => ?_,
    fun h sbomChecksums f hf hskip hdetail => ?_⟩, ?_⟩
  · -- An SBOM that has what the digest function answers.
    rw [← sound_iff]
    unfold Sound
    cases hdigest : computeFileSha256 ssl (disk f.1) with
    | error err => exact computeFileSha256_error hdigest
    | ok digest =>
      have hnone : f.1 ∉ (verifyChecksums (fun path => (diskDigest ssl disk path).toOption) (diskDigest ssl disk) config
          order).details.map Detail.file := by
        intro hmem
        obtain ⟨g, hg, hpath, -, hno⟩ := (tally_verifyChecksums order).mem_details f.1 |>.mp hmem
        refine hno ⟨digest, ?_, ?_⟩
        · dsimp only
          rw [hpath, diskDigest, hdigest]
          rfl
        · rw [hpath, diskDigest, hdigest]
      obtain ⟨digest', hwhole, hsbom⟩ := h _ f hf hskip hnone
      dsimp only at hsbom
      rw [diskDigest, hdigest] at hsbom
      obtain rfl : digest = digest' := Option.some.inj hsbom
      exact hwhole
  · exact wholeMatch_of_matches ((sound_iff ssl _).mpr (h f hf hskip))
      (matches_of_no_detail (horder.mem_iff.mpr hf) hskip hdetail)
  · intro h packageName packages info sbomChecksums fetchSbom hinfo hsbom hcode f hf hskip
    rw [verifyPackage_eq hinfo hsbom, (tally_verifyChecksums order).exitCode_zero_iff] at hcode
    exact wholeMatch_of_matches ((sound_iff ssl _).mpr (h f hf hskip)) (hcode f (horder.mem_iff.mpr hf) hskip)

end Verified

/-- Reads up to the end of the file. -/
theorem readWhole_of_ended {ssl : Openssl} {f : OpenFile} (h : f.reads.ended = true) : ReadWhole ssl (.ok f) :=
  fun _ _ => ⟨f.reads.text, f.deliver.whole h, .inl rfl⟩

/-- A file of two chunks. -/
def chunkedFile : OpenFile where
  content := some "abc"
  reads := .data "ab" (.data "c" .eof)
  deliver := (.data (by decide) (.data (by decide) .eof) : Reads.Deliver _ (some ("ab".toList ++ ("c".toList ++ []))))

/-- The digests of the empty text and of `abc`. -/
def emptyDigest : Str := "e3b0c44298fc1c149afbf4c8996fb92427ae41e4649b934ca495991b7852b855"

def abcDigest : Str := "ba7816bf8f01cfea414140de5dae2223b00361a396177a9cb410ff61f20015ad"

/-- SHA-256 on these two texts. -/
def knownSsl : Openssl := ⟨true, true, fun data => if data = [] then emptyDigest else if data = "abc" then abcDigest
    else []⟩

/-- The file of two chunks is verified, with the digest of all of it. -/
theorem chunkedFile_verified : verifyPackage "demo" [demoPackage] (fun _ => .ok fun _ => some abcDigest)
      (.ok demoFiles.entries.reverse) (diskDigest knownSsl fun _ => .ok chunkedFile) ⟨false⟩ = 0 ∧
    ∀ f ∈ demoFiles.entries, ¬ Skipped ⟨false⟩ f →
      WholeMatch knownSsl (fun _ => .ok chunkedFile) (fun _ => some abcDigest) f := by
  have hcode : verifyPackage "demo" [demoPackage] (fun _ => .ok fun _ => some abcDigest) (.ok demoFiles.entries.reverse)
      (diskDigest knownSsl fun _ => .ok chunkedFile) ⟨false⟩ = 0 := by decide +kernel
  have hwhole := (partly_read_iff knownSsl (fun _ => .ok chunkedFile) ⟨false⟩ demoFiles (List.reverse_perm _)).2.2
  exact ⟨hcode, hwhole (fun f _ _ => readWhole_of_ended rfl) "demo" [demoPackage] ⟨"demo", "1.0", "1", "x86_64"⟩
    (fun _ => some abcDigest) (fun _ => .ok fun _ => some abcDigest) rfl rfl hcode⟩

/-- An empty file that is now a directory: the first read fails, and the digest of the empty text is returned. -/
theorem directory_verified :
    let directory : OpenFile := ⟨none, .failed "Is a directory", .failed _ _⟩
    computeFileSha256 knownSsl (.ok directory) = .ok emptyDigest ∧ ¬ Sound knownSsl (.ok directory) ∧
      verifyPackage "demo" [demoPackage] (fun _ => .ok fun _ => some emptyDigest) (.ok demoFiles.entries)
        (diskDigest knownSsl fun _ => .ok directory) ⟨false⟩ = 0 := by
  refine ⟨by decide +kernel, ?_, by decide +kernel⟩
  rw [sound_iff]
  intro h
  obtain ⟨content, hcontent, -⟩ := h rfl rfl
  cases hcontent

end Rpm
