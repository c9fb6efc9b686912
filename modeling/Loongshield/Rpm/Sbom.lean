import Loongshield.Lua.Json
import Loongshield.Seharden.Trim
import Mathlib.Logic.Function.Basic

/-!
# `rpm/sbom.lua`: `parse_spdx_json`

The body of a response is decoded, and the SHA-256 checksums of its files are collected in a table. A field of the
document is read without a look at the type of the value that should have it.

- `parseSpdxJson`: the function; what it raises is the outer error, the error that it returns the inner one.
- `ReadableDocument`: the values that are read have the types that reading them needs.
- `parse_total_iff`: a response gives a sound table or an error exactly if its document is readable.
-/

namespace Rpm
namespace Sbom

open Lua Pattern Seharden

/-- `cjson.safe`: the decoded value or an error, and what `tostring` gives for a decoded table. -/
structure Cjson where
  decode : Str → Except Str Json
  nameOf : Json → Str

/-- The table of the checksums. -/
abbrev FileChecksums := Str → Option Str

/-- The text looks like a JSON document. -/
def looksLikeJson (sbomJson : Str) : Bool := (trim sbomJson).head? == some '\x7b' || (trim sbomJson).head? == some '['

/-- The path of a file name: `./` in front of it stands for `/`. -/
def normalizePath (fileName : Str) : Str :=
  let filepath := substitute fileName "^%./" "/"
  if isMatch filepath "^/" then filepath else "/" ++ filepath

/-- The checksum is a SHA-256 one. -/
def isSha256 (cksum : Json) : Bool := Json.isText (cksum.get "algorithm") "SHA256"

/-- The loop over the checksums of a file: the value of the first SHA-256 one. -/
def sha256Checksum : List Json → Except Err (Option Json)
  | [] => .ok none
  | cksum :: rest => do
    let algorithm ← cksum.index "algorithm"
    if Json.isText algorithm "SHA256" then cksum.index "checksumValue" else sha256Checksum rest

/-- The checksum of a file goes into the table. -/
def addChecksum (fileChecksums : FileChecksums) (filepath : Str) (fileEntry : Json) : Except Err FileChecksums := do
  let checksums ← fileEntry.index "checksums"
  match Json.present (← sha256Checksum ((checksums.map Json.ipairs).getD [])) with
  | none => pure fileChecksums
  | some value => pure (Function.update fileChecksums filepath (some (lower (← value.receiver "lower"))))

/-- The body of the loop over `sbom.files`. -/
def addFile (fileChecksums : FileChecksums) (fileEntry : Json) : Except Err FileChecksums := do
  match Json.present (← fileEntry.index "fileName") with
  | none => pure fileChecksums
  | some fileName => addChecksum fileChecksums (normalizePath (← fileName.receiver "gsub")) fileEntry

section Parse

variable (cjson : Cjson) (sbomJson : Str)

/-- A document without `spdxVersion`: the error that it reports itself, or a text about the missing field. -/
def parseUnversioned (sbom : Json) : Except Err (Except Str FileChecksums) := do
  let missing : Except Str FileChecksums := .error <|
    if sbomJson.length < 200 then "Invalid SBOM: missing spdxVersion field. API response: " ++ sbomJson
    else "Invalid SBOM: missing spdxVersion field"
  match Json.present (← sbom.index "status") with
  | none => pure missing
  | some status =>
    match Json.present (← status.index "code") with
    | none => pure missing
    | some code =>
      let message := (Json.present (status.get "message")).getD (.str [])
      match code.tonumber with
      | none => .error "bad argument #2 to 'format' (number expected, got nil)"
      | some n =>
        if n = .fin 404 then
          pure (.error ("SBOM not found (HTTP 404). This package may not have a published SBOM in the configured " ++
            "repository, or the URL template may not match that repository."))
        else pure (.error ("API error (code " ++ fmtInt n ++ "): " ++ message.tostring cjson.nameOf))

/-- The checksums of a document with a version. -/
def extractChecksums (sbom : Json) : Except Err (Except Str FileChecksums) := do
  match Json.present (← sbom.index "files") with
  | none => pure (.error "Invalid SBOM: missing or invalid 'files' array")
  | some files =>
    if files.isTable then .ok <$> files.ipairs.foldlM addFile fun _ => none
    else pure (.error "Invalid SBOM: missing or invalid 'files' array")

/-- The validation of the structure, and what follows it. -/
def readDocument (sbom : Json) : Except Err (Except Str FileChecksums) := do
  match Json.present (← sbom.index "spdxVersion") with
  | none => parseUnversioned cjson sbomJson sbom
  | some _ => extractChecksums sbom

/-- `parse_spdx_json`. -/
def parseSpdxJson : Except Err (Except Str FileChecksums) :=
  if !looksLikeJson sbomJson then
    .ok (.error ("Response is not JSON (got HTML/text). Preview: " ++ substitute (sbomJson.take 200) "\n" " " ++ "..."))
  else match cjson.decode sbomJson with
    | .error parseErr => .ok (.error ("Failed to parse SBOM JSON: " ++ parseErr))
    | .ok sbom =>
      if !sbom.truthy then .ok (.error "Failed to parse SBOM JSON: nil")
      else readDocument cjson sbomJson sbom

end Parse

/-! ## The types that reading a document needs -/

/-- A checksum that is read can be indexed. The last one that is read is the first SHA-256 one. -/
def ReadableChecksums (checksums : List Json) : Prop :=
  ∀ before cksum after, checksums = before ++ cksum :: after → (∀ c ∈ before, isSha256 c = false) →
    cksum.indexable = true

/-- The checksums of a file. -/
def checksumsOf (fileEntry : Json) : List Json := ((fileEntry.get "checksums").map Json.ipairs).getD []

/-- The value of the first SHA-256 checksum. -/
def firstValue (checksums : List Json) : Option Json :=
  (checksums.find? isSha256).bind fun cksum => cksum.get "checksumValue"

/-- An entry of `files`: it can be indexed, and if it has a name, the name and the checksum are strings. -/
def ReadableEntry (fileEntry : Json) : Prop :=
  fileEntry.indexable = true ∧ ∀ name, Json.present (fileEntry.get "fileName") = some name →
    name.isString = true ∧ ReadableChecksums (checksumsOf fileEntry) ∧
      ∀ value, Json.present (firstValue (checksumsOf fileEntry)) = some value → value.isString = true

/-- A status, if there is one, can be indexed, and its code is a numeral. -/
def ReadableStatus (sbom : Json) : Prop :=
  ∀ status, Json.present (sbom.get "status") = some status → status.indexable = true ∧
    ∀ code, Json.present (status.get "code") = some code → code.tonumber ≠ none

/-- The document can be indexed; its files are readable, or its status where it has no version. -/
def ReadableDocument (sbom : Json) : Prop :=
  sbom.truthy = true → sbom.indexable = true ∧
    (Json.present (sbom.get "spdxVersion") = none → ReadableStatus sbom) ∧
      (Json.present (sbom.get "spdxVersion") ≠ none → ∀ files, Json.present (sbom.get "files") = some files →
        ∀ fileEntry ∈ files.ipairs, ReadableEntry fileEntry)

/-- The table has lower-case checksums under absolute paths. -/
def SoundTable (fileChecksums : FileChecksums) : Prop :=
  ∀ path checksum, fileChecksums path = some checksum → path.head? = some '/' ∧ lower checksum = checksum

/-- The response is parsed: a sound table, or an error. -/
def Parsed (cjson : Cjson) (sbomJson : Str) : Prop :=
  ∃ answer, parseSpdxJson cjson sbomJson = .ok answer ∧ ∀ table, answer = .ok table → SoundTable table

/-! ## Reading the checksums of a file -/

theorem lowerChar_lowerChar (c : Char) : lowerChar (lowerChar c) = lowerChar c := by
  by_cases hc : 'A' ≤ c ∧ c ≤ 'Z'
  · have hlow : 65 ≤ c.toNat := hc.1
    have hhigh : c.toNat ≤ 90 := hc.2
    have hnat : (Char.ofNat (c.toNat + 32)).toNat = c.toNat + 32 := by
      unfold Char.ofNat
      rw [dif_pos (.inl (by omega))]
      rfl
    have hother : ¬('A' ≤ Char.ofNat (c.toNat + 32) ∧ Char.ofNat (c.toNat + 32) ≤ 'Z') := by
      rintro ⟨-, h⟩
      have hle : (Char.ofNat (c.toNat + 32)).toNat ≤ 90 := h
      omega
    have hlower : lowerChar c = Char.ofNat (c.toNat + 32) := if_pos hc
    rw [hlower]
    exact if_neg hother
  · have hlower : lowerChar c = c := if_neg hc
    rw [hlower, hlower]

theorem lower_lower (s : Str) : lower (lower s) = lower s := by
  unfold lower
  rw [List.map_map]
  exact List.map_congr_left fun c _ => lowerChar_lowerChar c

theorem isMatch_slash (s : Str) : isMatch s "^/" = (s.head? == some '/') := by
  have hmatch : strMatch s "^/" = .ok ((matchRest [.single (.lit '/') .one] s []).map fun p =>
      (texts s p.1 p.2).map .str) := strMatch_anchored rfl rfl rfl s
  unfold isMatch
  rw [hmatch]
  cases s with
  | nil => rfl
  | cons x u =>
    rw [matchRest, Single.test, List.head?_cons]
    by_cases hx : x = '/'
    · rw [hx]
      rfl
    · rw [if_neg (by simpa using fun h : '/' = x => hx h.symm)]
      simpa using hx

theorem head?_normalizePath (fileName : Str) : (normalizePath fileName).head? = some '/' := by
  show (if isMatch (substitute fileName "^%./" "/") "^/" then substitute fileName "^%./" "/"
    else "/" ++ substitute fileName "^%./" "/").head? = _
  split
  · next h =>
    rw [isMatch_slash] at h
    exact beq_iff_eq.mp h
  · rfl

/-- The first checksum of a list is read, and the rest only if it is no SHA-256 one. -/
theorem readableChecksums_cons {cksum : Json} {rest : List Json} : ReadableChecksums (cksum :: rest) ↔
    cksum.indexable = true ∧ (isSha256 cksum = false → ReadableChecksums rest) := by
  constructor
  · intro h
    refine ⟨h [] cksum rest rfl fun c hc => absurd hc List.not_mem_nil, fun hother before c after heq hbefore => ?_⟩
    refine h (cksum :: before) c after (by rw [heq]; rfl) fun d hd => ?_
    obtain rfl | hd := List.mem_cons.mp hd
    · exact hother
    · exact hbefore d hd
  · rintro ⟨hcksum, hrest⟩ before c after heq hbefore
    cases before with
    | nil =>
      rw [← (List.cons.inj heq).1]
      exact hcksum
    | cons d before =>
      obtain ⟨rfl, htail⟩ := List.cons.inj heq
      exact hrest (hbefore cksum List.mem_cons_self) before c after htail fun e he =>
        hbefore e (List.mem_cons_of_mem _ he)

theorem firstValue_cons (cksum : Json) (rest : List Json) : firstValue (cksum :: rest) =
    if isSha256 cksum then cksum.get "checksumValue" else firstValue rest := by
  unfold firstValue
  rw [List.find?_cons]
  cases isSha256 cksum <;> rfl

theorem sha256Checksum_ok {checksums : List Json} {value : Option Json} :
    sha256Checksum checksums = .ok value ↔ ReadableChecksums checksums ∧ firstValue checksums = value := by
  induction checksums with
  | nil =>
    have hnil : ReadableChecksums [] := fun before cksum after heq =>
      absurd heq (List.append_ne_nil_of_right_ne_nil _ (List.cons_ne_nil _ _)).symm
    exact ⟨fun h => ⟨hnil, Except.ok.inj h⟩, fun h => congrArg Except.ok h.2⟩
  | cons cksum rest ih =>
    rw [sha256Checksum, bind_ok, readableChecksums_cons, firstValue_cons]
    have hsha : ∀ algorithm, cksum.get "algorithm" = algorithm →
        Json.isText algorithm "SHA256" = isSha256 cksum := fun algorithm h => by rw [← h]; rfl
    constructor
    · rintro ⟨algorithm, hindex, hvalue⟩
      obtain ⟨hcksum, halgorithm⟩ := Json.index_ok.mp hindex
      rw [hsha algorithm halgorithm] at hvalue
      cases hother : isSha256 cksum with
      | true =>
        rw [hother, if_pos rfl] at hvalue
        exact ⟨⟨hcksum, fun h => by cases h⟩, (Json.index_ok.mp hvalue).2⟩
      | false =>
        rw [hother, if_neg Bool.false_ne_true] at hvalue
        obtain ⟨hrest, hfirst⟩ := ih.mp hvalue
        exact ⟨⟨hcksum, fun _ => hrest⟩, hfirst⟩
    · rintro ⟨⟨hcksum, hrest⟩, hvalue⟩
      refine ⟨_, Json.index_ok.mpr ⟨hcksum, rfl⟩, ?_⟩
      rw [hsha _ rfl]
      cases hother : isSha256 cksum with
      | true =>
        rw [hother, if_pos rfl] at hvalue
        exact Json.index_ok.mpr ⟨hcksum, hvalue⟩
      | false =>
        rw [hother, if_neg Bool.false_ne_true] at hvalue
        exact ih.mpr ⟨hrest hother, hvalue⟩

/-! ## Adding a file -/

theorem soundTable_update {fileChecksums : FileChecksums} {path : Str} (h : SoundTable fileChecksums)
    (hpath : path.head? = some '/') (checksum : Str) :
    SoundTable (Function.update fileChecksums path (some (lower checksum))) := by
  intro other sum hsum
  by_cases heq : other = path
  · subst heq
    rw [Function.update_self] at hsum
    rw [← Option.some.inj hsum]
    exact ⟨hpath, lower_lower checksum⟩
  · rw [Function.update_of_ne heq] at hsum
    exact h other sum hsum

theorem sound_addChecksum {fileChecksums after : FileChecksums} {filepath : Str} {fileEntry : Json}
    (h : SoundTable fileChecksums) (hpath : filepath.head? = some '/')
    (hafter : addChecksum fileChecksums filepath fileEntry = .ok after) : SoundTable after := by
  obtain ⟨checksums, -, hafter⟩ := bind_ok.mp hafter
  obtain ⟨first, -, hafter⟩ := bind_ok.mp hafter
  cases hvalue : Json.present first with
  | none =>
    rw [hvalue] at hafter
    exact Except.ok.inj hafter ▸ h
  | some value =>
    rw [hvalue] at hafter
    obtain ⟨sum, -, hafter⟩ := bind_ok.mp hafter
    exact Except.ok.inj hafter ▸ soundTable_update h hpath sum

theorem sound_addFile {fileChecksums after : FileChecksums} {fileEntry : Json} (h : SoundTable fileChecksums)
    (hafter : addFile fileChecksums fileEntry = .ok after) : SoundTable after := by
  obtain ⟨fileName, -, hafter⟩ := bind_ok.mp hafter
  cases hname : Json.present fileName with
  | none =>
    rw [hname] at hafter
    exact Except.ok.inj hafter ▸ h
  | some name =>
    rw [hname] at hafter
    obtain ⟨text, -, hafter⟩ := bind_ok.mp hafter
    exact sound_addChecksum h (head?_normalizePath text) hafter

theorem returns_sha256Checksum_bind {α : Type} {checksums : List Json} {f : Option Json → Except Err α} :
    Returns (sha256Checksum checksums >>= f) ↔ ReadableChecksums checksums ∧ Returns (f (firstValue checksums)) := by
  rw [returns_bind]
  constructor
  · rintro ⟨value, hvalue, hf⟩
    obtain ⟨hread, rfl⟩ := sha256Checksum_ok.mp hvalue
    exact ⟨hread, hf⟩
  · exact fun h => ⟨_, sha256Checksum_ok.mpr ⟨h.1, rfl⟩, h.2⟩

theorem addChecksum_returns {fileEntry : Json} (hentry : fileEntry.indexable = true) (fileChecksums : FileChecksums)
    (filepath : Str) : Returns (addChecksum fileChecksums filepath fileEntry) ↔
      ReadableChecksums (checksumsOf fileEntry) ∧
        ∀ value, Json.present (firstValue (checksumsOf fileEntry)) = some value → value.isString = true := by
  unfold addChecksum
  rw [Json.returns_index_bind, and_iff_right hentry, returns_sha256Checksum_bind]
  refine and_congr_right fun _ => ?_
  unfold checksumsOf
  cases hvalue : Json.present (firstValue (((fileEntry.get "checksums").map Json.ipairs).getD [])) with
  | none => exact iff_of_true (returns_ok fileChecksums) fun value h => by cases h
  | some value =>
    have hone : (∀ v, some value = some v → v.isString = true) ↔ value.isString = true :=
      ⟨fun h => h value rfl, fun h v hv => Option.some.inj hv ▸ h⟩
    rw [hone, Json.isString_iff]
    refine Json.returns_receiver_bind.trans (exists_congr fun sum => and_iff_left (returns_ok _))

/-- **A file is added without a raised error** exactly if its entry is readable. -/
theorem addFile_returns (fileChecksums : FileChecksums) (fileEntry : Json) :
    Returns (addFile fileChecksums fileEntry) ↔ ReadableEntry fileEntry := by
  unfold addFile ReadableEntry
  rw [Json.returns_index_bind]
  refine and_congr_right fun hentry => ?_
  cases hfile : Json.present (fileEntry.get "fileName") with
  | none => exact iff_of_true (returns_ok fileChecksums) fun name h => by cases h
  | some name =>
    refine Json.returns_receiver_bind.trans ⟨?_, fun h => ?_⟩
    · rintro ⟨text, rfl, h⟩ name hname
      obtain rfl := Option.some.inj hname
      exact ⟨rfl, (addChecksum_returns hentry fileChecksums _).mp h⟩
    · obtain ⟨hstring, hrest⟩ := h name rfl
      obtain ⟨text, htext⟩ := Json.isString_iff.mp hstring
      exact ⟨text, htext, (addChecksum_returns hentry fileChecksums _).mpr hrest⟩

theorem addFiles_returns (entries : List Json) : ∀ fileChecksums : FileChecksums,
    Returns (entries.foldlM addFile fileChecksums) ↔ ∀ fileEntry ∈ entries, ReadableEntry fileEntry := by
  induction entries with
  | nil => exact fun fileChecksums => iff_of_true (returns_ok fileChecksums) fun _ h => absurd h List.not_mem_nil
  | cons fileEntry entries ih =>
    intro fileChecksums
    rw [List.forall_mem_cons, ← addFile_returns fileChecksums, List.foldlM_cons, returns_bind]
    constructor
    · rintro ⟨next, hnext, hrest⟩
      exact ⟨⟨next, hnext⟩, (ih next).mp hrest⟩
    · rintro ⟨⟨next, hnext⟩, hrest⟩
      exact ⟨next, hnext, (ih next).mpr hrest⟩

theorem sound_addFiles {entries : List Json} : ∀ {fileChecksums after : FileChecksums}, SoundTable fileChecksums →
    entries.foldlM addFile fileChecksums = .ok after → SoundTable after := by
  induction entries with
  | nil => exact fun h hafter => Except.ok.inj hafter ▸ h
  | cons fileEntry entries ih =>
    intro fileChecksums after h hafter
    rw [List.foldlM_cons] at hafter
    obtain ⟨next, hnext, hrest⟩ := bind_ok.mp hafter
    exact ih (sound_addFile h hnext) hrest

/-! ## Parsing a response -/

section Parse

variable {cjson : Cjson} {sbomJson : Str}

/-- A document without a version gives an error, or raises one. -/
theorem parseUnversioned_ok {sbom : Json} {answer : Except Str FileChecksums}
    (h : parseUnversioned cjson sbomJson sbom = .ok answer) : ∃ err, answer = .error err := by
  obtain ⟨status, -, h⟩ := bind_ok.mp h
  cases hstatus : Json.present status with
  | none =>
    rw [hstatus] at h
    exact ⟨_, (Except.ok.inj h).symm⟩
  | some status =>
    rw [hstatus] at h
    obtain ⟨code, -, h⟩ := bind_ok.mp h
    cases hcode : Json.present code with
    | none =>
      rw [hcode] at h
      exact ⟨_, (Except.ok.inj h).symm⟩
    | some code =>
      rw [hcode] at h
      cases hn : code.tonumber with
      | none =>
        simp only [hn] at h
        cases h
      | some n =>
        simp only [hn] at h
        split at h
        · exact ⟨_, (Except.ok.inj h).symm⟩
        · exact ⟨_, (Except.ok.inj h).symm⟩

theorem parseUnversioned_returns {sbom : Json} (hsbom : sbom.indexable = true) :
    Returns (parseUnversioned cjson sbomJson sbom) ↔ ReadableStatus sbom := by
  unfold parseUnversioned ReadableStatus
  dsimp only
  rw [Json.returns_index_bind, and_iff_right hsbom]
  cases hstatus : Json.present (sbom.get "status") with
  | none => exact iff_of_true (returns_ok _) fun status h => by cases h
  | some status =>
    have hone : ∀ P : Json → Prop, (∀ v, some status = some v → P v) ↔ P status := fun P =>
      ⟨fun h => h status rfl, fun h v hv => Option.some.inj hv ▸ h⟩
    rw [hone]
    refine Json.returns_index_bind.trans (and_congr_right fun _ => ?_)
    cases hcode : Json.present (status.get "code") with
    | none => exact iff_of_true (returns_ok _) fun code h => by cases h
    | some code =>
      dsimp only
      cases hn : code.tonumber with
      | none => exact iff_of_false (not_returns_error _) fun h => h code rfl hn
      | some n =>
        refine iff_of_true ?_ fun v hv => by rw [← Option.some.inj hv, hn]; exact Option.some_ne_none n
        dsimp only
        split
        · exact returns_ok _
        · exact returns_ok _

theorem extractChecksums_returns {sbom : Json} (hsbom : sbom.indexable = true) : Returns (extractChecksums sbom) ↔
    ∀ files, Json.present (sbom.get "files") = some files → ∀ fileEntry ∈ files.ipairs, ReadableEntry fileEntry := by
  unfold extractChecksums
  rw [Json.returns_index_bind, and_iff_right hsbom]
  cases hfiles : Json.present (sbom.get "files") with
  | none => exact iff_of_true (returns_ok _) fun files h => by cases h
  | some files =>
    have hone : (∀ v, some files = some v → ∀ fileEntry ∈ v.ipairs, ReadableEntry fileEntry) ↔
        ∀ fileEntry ∈ files.ipairs, ReadableEntry fileEntry :=
      ⟨fun h => h files rfl, fun h v hv => Option.some.inj hv ▸ h⟩
    rw [hone, ← addFiles_returns files.ipairs fun _ => none]
    dsimp only
    split
    · exact returns_map
    · next htable =>
      have hnone : files.ipairs = [] := by
        cases files with
        | array elems => exact absurd rfl htable
        | _ => rfl
      rw [hnone]
      exact iff_of_true (returns_ok _) (returns_ok _)

theorem readDocument_returns {sbom : Json} (htruthy : sbom.truthy = true) :
    Returns (readDocument cjson sbomJson sbom) ↔ ReadableDocument sbom := by
  unfold readDocument ReadableDocument
  rw [Json.returns_index_bind, forall_prop_of_true htruthy]
  refine and_congr_right fun hsbom => ?_
  cases hversion : Json.present (sbom.get "spdxVersion") with
  | none =>
    rw [forall_prop_of_true rfl, and_iff_left fun h => absurd rfl h]
    exact parseUnversioned_returns hsbom
  | some version =>
    rw [and_iff_right fun h => absurd h (Option.some_ne_none _), forall_prop_of_true (Option.some_ne_none _)]
    exact extractChecksums_returns hsbom

/-- **A response is parsed without a raised error** exactly if its document is readable. -/
theorem parse_returns : Returns (parseSpdxJson cjson sbomJson) ↔
    (looksLikeJson sbomJson = true → ∀ sbom, cjson.decode sbomJson = .ok sbom → ReadableDocument sbom) := by
  unfold parseSpdxJson
  cases hlooks : looksLikeJson sbomJson with
  | false => exact iff_of_true (returns_ok _) fun h => absurd h Bool.false_ne_true
  | true =>
    rw [forall_prop_of_true rfl, Bool.not_true, if_neg Bool.false_ne_true]
    cases hdecode : cjson.decode sbomJson with
    | error err => exact iff_of_true (returns_ok _) fun sbom h => by cases h
    | ok sbom =>
      have hone : (∀ v, (Except.ok sbom : Except Str Json) = .ok v → ReadableDocument v) ↔ ReadableDocument sbom :=
        ⟨fun h => h sbom rfl, fun h v hv => Except.ok.inj hv ▸ h⟩
      rw [hone]
      dsimp only
      cases htruthy : sbom.truthy with
      | false => exact iff_of_true (returns_ok _) fun h => absurd (htruthy.symm.trans h) Bool.false_ne_true
      | true => exact readDocument_returns htruthy

/-- A table that is returned is sound. -/
theorem parse_sound {table : FileChecksums} (h : parseSpdxJson cjson sbomJson = .ok (.ok table)) :
    SoundTable table := by
  unfold parseSpdxJson at h
  split at h
  · cases h
  · split at h
    · cases h
    · split at h
      · cases h
      · obtain ⟨version, -, h⟩ := bind_ok.mp h
        cases hversion : Json.present version with
        | none =>
          rw [hversion] at h
          obtain ⟨err, herr⟩ := parseUnversioned_ok h
          cases herr
        | some version =>
          rw [hversion] at h
          obtain ⟨files, -, h⟩ := bind_ok.mp h
          cases hfiles : Json.present files with
          | none =>
            rw [hfiles] at h
            cases h
          | some files =>
            rw [hfiles] at h
            dsimp only at h
            split at h
            · obtain ⟨after, hafter, htable⟩ := bind_ok.mp h
              have hempty : SoundTable fun _ => none := fun path checksum h => by cases h
              exact Except.ok.inj (Except.ok.inj htable) ▸ sound_addFiles hempty hafter
            · cases h

end Parse

/-- **A response gives a sound table or an error**, whatever its document, exactly if the values that are read have the
types that reading them needs. -/
theorem parse_total_iff (cjson : Cjson) (sbomJson : Str) : Parsed cjson sbomJson ↔
    (looksLikeJson sbomJson = true → ∀ sbom, cjson.decode sbomJson = .ok sbom → ReadableDocument sbom) := by
  rw [← @parse_returns cjson sbomJson]
  constructor
  · rintro ⟨answer, h, -⟩
    exact ⟨answer, h⟩
  · rintro ⟨answer, h⟩
    exact ⟨answer, h, fun table htable => parse_sound (htable ▸ h)⟩

/-- A document whose status has a code that is no numeral. -/
def wordStatus : Str := "\x7b\"status\":\x7b\"code\":\"NOT_FOUND\"\x7d\x7d"

/-- `cjson` on that document. -/
def wordCjson : Cjson where
  decode body :=
    if body = wordStatus then .ok (.object [("status".toList, .object [("code".toList, .str "NOT_FOUND".toList)])])
    else .error "Expected value but found invalid token at character 1"
  nameOf _ := "table: 0x00".toList

/-- The error that such a status reports is formatted as a number, which raises. -/
theorem parse_raises :
    parseSpdxJson wordCjson wordStatus = .error "bad argument #2 to 'format' (number expected, got nil)" ∧
    ¬Parsed wordCjson wordStatus := by
  have hlooks : looksLikeJson wordStatus = true := by decide +kernel
  have hdecode : wordCjson.decode wordStatus =
      .ok (.object [("status".toList, .object [("code".toList, .str "NOT_FOUND".toList)])]) := by
    simp only [wordCjson, if_true]
  have h : parseSpdxJson wordCjson wordStatus = .error "bad argument #2 to 'format' (number expected, got nil)" := by
    rw [parseSpdxJson, hlooks, hdecode]
    rfl
  refine ⟨h, ?_⟩
  rintro ⟨answer, hanswer, -⟩
  rw [h] at hanswer
  cases hanswer

end Sbom
end Rpm
