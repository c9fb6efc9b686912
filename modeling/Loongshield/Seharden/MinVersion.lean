import Loongshield.Lua.Rest
import Loongshield.Seharden.Rpmvercmp

/-!
# `inspect_min_version` of `probes/packages.lua`

`rpm -q` prints a line for every installed instance of a package, in an order of its own. The probe reads the first.

* `inspectMinVersion`: the probe, with `parseRpmQueryLine` and the text of the version that it compares.
* `parseEvr_evrText_iff`: when `parse_evr` gives back what the text was built from.
* `versionOk_cons`: the verdict is that of the first line.
* `min_version_iff`: when it is the verdict of all instances.
-/

namespace Seharden

open Lua Pattern

namespace MinVersion

/-! ## The code -/

/-- The local `shell_quote`. -/
def shellQuote (value : Str) : Str := "'" ++ substitute value "'" "'\\''" ++ "'"

/-- What a command prints, line by line, and what closing its handle returns. -/
structure Output where
  lines : List Str
  ok : Bool
  code : Option Nat

/-- `read_command_lines`. -/
def readCommandLines (popen : Str → Option Output) (command : Str) : Except Err (List Str × Nat) :=
  match popen command with
  | none => .error ("failed to execute '" ++ command ++ "'")
  | some out =>
    let lines := out.lines.filter (· ≠ [])
    if out.ok = true ∧ (out.code = none ∨ out.code = some 0) then .ok (lines, 0) else .ok (lines, out.code.getD 1)

/-- What `parse_rpm_query_line` returns. -/
structure PackageInfo where
  name : Str
  epoch : Str
  version : Str
  release : Str
  arch : Str
  evr : Str

/-- The `evr` that `parse_rpm_query_line` builds. -/
def evrText (epoch version release : Str) : Str :=
  let evr := version ++ "-" ++ release
  if epoch ≠ [] ∧ epoch ≠ "(none)" ∧ epoch ≠ "0" then epoch ++ ":" ++ evr else evr

/-- `parse_rpm_query_line`. -/
def parseRpmQueryLine (line : Str) : Option PackageInfo :=
  match matchCaptures line "^([^\t]+)\t([^\t]*)\t([^\t]+)\t([^\t]+)\t([^\t]+)$" with
  | some [name, epoch, version, release, arch] =>
    some ⟨name, epoch, version, release, arch, evrText epoch version release⟩
  | _ => none

/-- The table that the probe returns. `package` is what the `installed_` fields and `details` are filled with;
`versionOk` is without a value only if the comparison does not end. -/
structure Result where
  available : Bool
  installed : Bool
  versionOk : Option Bool
  name : Str
  minimum : Str
  error : Option Str
  package : Option PackageInfo

/-- The command that asks for the instances of a package. -/
def metadataCommand (name : Str) : Str :=
  "rpm -q --qf '%\x7bNAME\x7d\t%\x7bEPOCHNUM\x7d\t%\x7bVERSION\x7d\t%\x7bRELEASE\x7d\t%\x7bARCH\x7d\\n' " ++
    shellQuote name ++ " 2>/dev/null"

/-- `inspect_min_version`. -/
def inspectMinVersion (popen : Str → Option Output) (name minimum : Option Str) : Except Err Result := do
  match name, minimum with
  | some name, some minimum =>
    let (lines, code) ← readCommandLines popen (metadataCommand name)
    let result : Result := ⟨true, false, some false, name, minimum, none, none⟩
    if code ≠ 0 then
      if code ≠ 1 then
        return { result with available := false, error := some ("rpm package query failed with exit " ++ natStr code) }
      else return result
    else match parseRpmQueryLine (lines.headD []) with
      | none =>
        return { result with available := false, error := some "rpm package query returned an unexpected format" }
      | some info =>
        return { result with
          installed := true, package := some info, versionOk := evrMeetsMinimum info.evr minimum }
  | _, _ => .error "Probe 'packages.inspect_min_version' requires 'name' and 'minimum' parameters."

/-! ## Installed instances -/

/-- An installed instance of a package, as the RPM database has it. -/
structure Instance where
  name : Str
  epoch : Nat
  version : Str
  release : Str
  arch : Str
  epoch_lt : epoch < 2 ^ 32
  name_field : name ≠ [] ∧ '\t' ∉ name
  version_field : version ≠ [] ∧ '\t' ∉ version ∧ '-' ∉ version ∧ ':' ∉ version
  release_field : release ≠ [] ∧ '\t' ∉ release
  arch_field : arch ≠ [] ∧ '\t' ∉ arch

namespace Instance

/-- The line that the query format gives. -/
def line (i : Instance) : Str :=
  i.name ++ ('\t' :: (natStr i.epoch ++ ('\t' :: (i.version ++ ('\t' :: (i.release ++ ('\t' :: i.arch)))))))

/-- Epoch, version and release. -/
def evr (i : Instance) : Evr := ⟨.fin i.epoch, i.version, i.release⟩

/-- The instance is at least the minimum. -/
def Meets (i : Instance) (minimum : Str) : Prop :=
  (parseEvr minimum).epoch ≠ .nan ∧ (parseEvr minimum).key ≤ i.evr.key

/-- The text of the version can be read back: without an epoch before it, nothing follows a colon in the release. -/
def Readable (i : Instance) : Prop := i.epoch = 0 → ':' ∉ i.release.dropLast

end Instance

/-! ## Fields -/

section Fields

variable {is : List Item} {segs : List Seg} {p : Str × List Seg} {d : Char} {sep : Single} {run rest : Str}

theorem allBut_of_not_mem (h : d ∉ run) : ∀ x ∈ run, (allBut d).test x = true := by
  intro x hx
  rw [allBut_test]
  rintro rfl
  exact h hx

theorem allBut_head (rest : Str) : ∀ x, (d :: rest).head? = some x → (allBut d).test x = false := by
  intro x hx
  rw [allBut_test_eq_false]
  exact (Option.some.inj hx).symm

theorem matchRest_sep (hsep : sep.test d = true) (rest : Str) (segs : List Seg) :
    matchRest (.single sep .one :: is) (d :: rest) segs = matchRest is rest segs := by
  rw [matchRest, if_pos hsep]

/-- A field, and the separator behind it. -/
theorem matchRest_field (hsep : sep.test d = true) (hne : run ≠ []) (hd : d ∉ run)
    (h : matchRest is rest (segs ++ [⟨run ++ d :: rest, some run.length⟩]) = some p) :
    matchRest (.capOpen :: .single (allBut d) .plus :: .capClose :: .single sep .one :: is) (run ++ d :: rest) segs =
      some p := by
  refine matchRest_capPlus hne (allBut_of_not_mem hd) (allBut_head rest) ?_
  rw [matchRest_sep hsep]
  exact h

/-- A field that may be empty. -/
theorem matchRest_anyField (hsep : sep.test d = true) (hd : d ∉ run)
    (h : matchRest is rest (segs ++ [⟨run ++ d :: rest, some run.length⟩]) = some p) :
    matchRest (.capOpen :: .single (allBut d) .star :: .capClose :: .single sep .one :: is) (run ++ d :: rest) segs =
      some p := by
  refine matchRest_capStar (allBut_of_not_mem hd) (allBut_head rest) ?_
  rw [matchRest_sep hsep]
  exact h

/-- The last field. -/
theorem matchRest_lastField {c : Single} (hne : run ≠ []) (hrun : ∀ x ∈ run, c.test x = true) (segs : List Seg) :
    matchRest [.capOpen, .single c .plus, .capClose, .atEnd] run segs =
      some ([], segs ++ [⟨run, some run.length⟩]) := by
  rw [matchRest_capPlus_end, if_pos ⟨hne, List.all_eq_true.mpr hrun⟩]

theorem matchCaptures_of_matchRest {pat q s : Str} {r : Str} (hpat : pat = '^' :: q) (his : compile q = is)
    (hs : Simple 0 0 is = true) (h : matchRest is s [] = some (r, segs)) (hsegs : segs ≠ []) :
    matchCaptures s pat = some (segs.map Seg.text) := by
  have hempty : segs.isEmpty = false := by simpa using hsegs
  have htostring : ∀ l : List Str, (l.map Value.str).map Value.tostring = l := by
    intro l
    rw [List.map_map]
    exact List.map_id l
  unfold matchCaptures
  rw [strMatch_anchored hpat his hs, h]
  dsimp only [Option.map_some]
  rw [htostring, texts, hempty]
  rfl

theorem matchCaptures_none {pat q s : Str} (hpat : pat = '^' :: q) (his : compile q = is) (hs : Simple 0 0 is = true)
    (h : matchRest is s [] = none) : matchCaptures s pat = none := by
  unfold matchCaptures
  rw [strMatch_anchored hpat his hs, h]
  rfl

/-- The items of the patterns that take two parts, up to the first separator and behind it. -/
def partsItems (d : Char) (sep : Single) : List Item :=
  [.capOpen, .single (allBut d) .plus, .capClose, .single sep .one, .capOpen, .single .any .plus, .capClose, .atEnd]

/-- A text in two parts, neither empty. -/
def Parts (d : Char) (s a b : Str) : Prop := s = a ++ d :: b ∧ d ∉ a ∧ a ≠ [] ∧ b ≠ []

theorem simple_partsItems (d : Char) (sep : Single) : Simple 0 0 (partsItems d sep) = true := rfl

theorem matchRest_parts {s a b : Str} (hsep : sep.test d = true) (h : Parts d s a b) :
    matchRest (partsItems d sep) s [] = some ([], [⟨s, some a.length⟩, ⟨b, some b.length⟩]) := by
  obtain ⟨rfl, hd, ha, hb⟩ := h
  exact matchRest_field hsep ha hd (matchRest_lastField hb (fun _ _ => rfl) _)

theorem parts_of_matchRest {s : Str} (hsep : ∀ x, sep.test x = true → x = d)
    (h : (matchRest (partsItems d sep) s []).isSome = true) : ∃ a b, Parts d s a b := by
  obtain ⟨p, hp⟩ := Option.isSome_iff_exists.mp h
  obtain ⟨a, rest, rfl, ha, hrun, hrest⟩ := of_matchRest_capPlus hp
  have hd : d ∉ a := by
    intro hmem
    have htest := hrun d hmem
    rw [allBut_test] at htest
    exact htest rfl
  cases rest with
  | nil => cases hrest
  | cons x b =>
    rw [matchRest] at hrest
    split at hrest
    · next hx =>
      obtain rfl := hsep x hx
      obtain ⟨run, rest, rfl, hne, -, -⟩ := of_matchRest_capPlus hrest
      exact ⟨a, run ++ rest, rfl, hd, ha, fun hnil => hne (List.append_eq_nil_iff.mp hnil).1⟩
    · cases hrest

/-- What such a pattern captures. -/
theorem captures_parts {pat q : Str} (hpat : pat = '^' :: q) (his : compile q = partsItems d sep)
    (hsep : ∀ x, sep.test x = true ↔ x = d) (s : Str) :
    (∃ a b, Parts d s a b ∧ matchCaptures s pat = some [a, b]) ∨
      ((∀ a b, ¬Parts d s a b) ∧ matchCaptures s pat = none) := by
  have hs := simple_partsItems d sep
  by_cases h : ∃ a b, Parts d s a b
  · obtain ⟨a, b, hparts⟩ := h
    have hcaps := matchCaptures_of_matchRest hpat his hs (matchRest_parts ((hsep d).mpr rfl) hparts) (by simp)
    refine .inl ⟨a, b, hparts, ?_⟩
    rw [hcaps, hparts.1]
    simp [Seg.text]
  · refine .inr ⟨fun a b hparts => h ⟨a, b, hparts⟩, matchCaptures_none hpat his hs ?_⟩
    cases hm : matchRest (partsItems d sep) s [] with
    | none => rfl
    | some p => exact absurd (parts_of_matchRest (fun x hx => (hsep x).mp hx) (by rw [hm]; rfl)) h

/-- There is one way to cut at the first separator. -/
theorem Parts.unique {s a b a' b' : Str} (h : Parts d s a b) (h' : Parts d s a' b') : a = a' ∧ b = b' := by
  obtain ⟨rfl, hd, -, -⟩ := h
  obtain ⟨heq, hd', -, -⟩ := h'
  have ha : a = a' := by
    have htake : ∀ (u v : Str), d ∉ u → (u ++ d :: v).takeWhile (· ≠ d) = u := by
      intro u v hu
      rw [List.takeWhile_append_of_pos fun x hx => by
        rw [decide_eq_true_eq]
        rintro rfl
        exact hu hx]
      simp
    rw [← htake a b hd, heq, htake a' b' hd']
  subst ha
  exact ⟨rfl, (List.cons.inj (List.append_cancel_left heq)).2⟩

end Fields

/-! ## Reading back -/

theorem not_mem_natStr {c : Char} (hc : c.isDigit = false) (n : Nat) : c ∉ natStr n := by
  intro hmem
  have hdigit := Nat.isDigit_of_mem_toDigits (by decide) (by decide) hmem
  rw [hc] at hdigit
  cases hdigit

theorem natStr_ne_nil (n : Nat) : natStr n ≠ [] := Nat.toDigits_ne_nil

theorem natStr_eq_zero {n : Nat} (h : natStr n = "0") : n = 0 := by
  have hn := Nat.ofDigitChars_ten_toDigits (n := n)
  rw [show Nat.toDigits 10 n = ['0'] from h] at hn
  exact hn.symm

/-- The line of an instance is read. -/
theorem parseRpmQueryLine_line (i : Instance) : parseRpmQueryLine i.line =
    some ⟨i.name, natStr i.epoch, i.version, i.release, i.arch, evrText (natStr i.epoch) i.version i.release⟩ := by
  have htab : (Single.lit '\t').test '\t' = true := rfl
  have hpat : compile "([^\t]+)\t([^\t]*)\t([^\t]+)\t([^\t]+)\t([^\t]+)$" =
      [.capOpen, .single (allBut '\t') .plus, .capClose, .single (.lit '\t') .one,
      .capOpen, .single (allBut '\t') .star, .capClose, .single (.lit '\t') .one,
      .capOpen, .single (allBut '\t') .plus, .capClose, .single (.lit '\t') .one,
      .capOpen, .single (allBut '\t') .plus, .capClose, .single (.lit '\t') .one,
      .capOpen, .single (allBut '\t') .plus, .capClose, .atEnd] := rfl
  have hmatch : matchRest (compile "([^\t]+)\t([^\t]*)\t([^\t]+)\t([^\t]+)\t([^\t]+)$") i.line [] = some ([], _) :=
    hpat ▸
    matchRest_field htab i.name_field.1 i.name_field.2 (matchRest_anyField htab (not_mem_natStr rfl i.epoch)
      (matchRest_field htab i.version_field.1 i.version_field.2.1 (matchRest_field htab i.release_field.1
        i.release_field.2 (matchRest_lastField i.arch_field.1 (allBut_of_not_mem i.arch_field.2) _))))
  have hcaps : matchCaptures i.line "^([^\t]+)\t([^\t]*)\t([^\t]+)\t([^\t]+)\t([^\t]+)$" = some _ :=
    matchCaptures_of_matchRest rfl rfl rfl hmatch (by simp)
  unfold parseRpmQueryLine
  rw [hcaps]
  simp [Seg.text]

/-- The two parts of a version with its epoch. -/
theorem captures_epoch (s : Str) : (∃ a b, Parts ':' s a b ∧ splitEpoch s = (some a, b)) ∨
    ((∀ a b, ¬Parts ':' s a b) ∧ splitEpoch s = (none, s)) := by
  have hcolon : ∀ x, (Single.lit ':').test x = true ↔ x = ':' := fun x => by
    rw [Single.test, beq_iff_eq, eq_comm]
  have hpat : compile "([^:]+):(.+)$" = partsItems ':' (.lit ':') := rfl
  have hcases : (∃ a b, Parts ':' s a b ∧ matchCaptures s "^([^:]+):(.+)$" = some [a, b]) ∨
      ((∀ a b, ¬Parts ':' s a b) ∧ matchCaptures s "^([^:]+):(.+)$" = none) := captures_parts rfl hpat hcolon s
  unfold splitEpoch
  rcases hcases with ⟨a, b, h, hcaps⟩ | ⟨h, hcaps⟩
  · exact .inl ⟨a, b, h, by rw [hcaps]⟩
  · exact .inr ⟨h, by rw [hcaps]⟩

/-- The two parts of a version with its release. -/
theorem captures_version (s : Str) :
    (∃ a b, Parts '-' s a b ∧ matchCaptures s "^([^-]+)%-(.+)$" = some [a, b]) ∨
      ((∀ a b, ¬Parts '-' s a b) ∧ matchCaptures s "^([^-]+)%-(.+)$" = none) := by
  have hdash : ∀ x, (Single.cls '-').test x = true ↔ x = '-' := fun x => by
    show ('-' == x) = true ↔ x = '-'
    rw [beq_iff_eq, eq_comm]
  have hpat : compile "([^-]+)%-(.+)$" = partsItems '-' (.cls '-') := rfl
  exact captures_parts rfl hpat hdash s

/-- What `parse_evr` makes of a text whose epoch has been cut off. -/
theorem parseEvr_of_splitEpoch {evr versionRelease : Str} {epoch : Option Str}
    (h : splitEpoch evr = (epoch, versionRelease)) :
    (∃ a b, Parts '-' versionRelease a b ∧ parseEvr evr = ⟨normalizeEpoch epoch, a, b⟩) ∨
      ((∀ a b, ¬Parts '-' versionRelease a b) ∧ parseEvr evr = ⟨normalizeEpoch epoch, versionRelease, []⟩) := by
  unfold parseEvr
  rw [h]
  dsimp only
  rcases captures_version versionRelease with ⟨a, b, hparts, hcaps⟩ | ⟨hnone, hcaps⟩
  · exact .inl ⟨a, b, hparts, by rw [hcaps]⟩
  · exact .inr ⟨hnone, by rw [hcaps]⟩

namespace Instance

variable (i : Instance)

/-- Version and release, as they are printed. -/
def versionRelease : Str := i.version ++ '-' :: i.release

theorem parts_versionRelease : Parts '-' i.versionRelease i.version i.release :=
  ⟨rfl, i.version_field.2.2.1, i.version_field.1, i.release_field.1⟩

/-- The text of the version of an instance. -/
def evrText : Str := MinVersion.evrText (natStr i.epoch) i.version i.release

theorem evrText_of_zero (h : i.epoch = 0) : i.evrText = i.versionRelease := by
  unfold evrText MinVersion.evrText
  rw [h, if_neg (fun hall => hall.2.2 rfl), List.append_assoc]
  rfl

theorem evrText_of_pos (h : i.epoch ≠ 0) : i.evrText = natStr i.epoch ++ ':' :: i.versionRelease := by
  have hcond : natStr i.epoch ≠ [] ∧ natStr i.epoch ≠ "(none)" ∧ natStr i.epoch ≠ "0" := by
    refine ⟨natStr_ne_nil _, fun hnone => ?_, fun hzero => h (natStr_eq_zero hzero)⟩
    have hmem : '(' ∈ natStr i.epoch := by rw [hnone]; exact List.mem_cons_self
    exact not_mem_natStr rfl _ hmem
  unfold evrText MinVersion.evrText
  rw [if_pos hcond, List.append_assoc, List.append_assoc]
  rfl

theorem normalizeEpoch_natStr : normalizeEpoch (some (natStr i.epoch)) = .fin i.epoch := by
  have hlt : i.epoch < 2 ^ 53 := i.epoch_lt.trans (by norm_num)
  rw [normalizeEpoch, Option.bind_some, strscan_natStr, Option.getD_some, roundDouble_natCast hlt]

/-- A text with nothing before its version but the epoch is read back. -/
theorem parseEvr_of_split {epoch : Option Str} (h : splitEpoch i.evrText = (epoch, i.versionRelease))
    (hepoch : normalizeEpoch epoch = .fin i.epoch) : parseEvr i.evrText = i.evr := by
  rcases parseEvr_of_splitEpoch h with ⟨a, b, hparts, hparse⟩ | ⟨hnone, -⟩
  · obtain ⟨rfl, rfl⟩ := hparts.unique i.parts_versionRelease
    rw [hparse, hepoch]
    rfl
  · exact absurd i.parts_versionRelease (hnone _ _)

/-- The first colon of a version without an epoch is in the release. -/
theorem parts_colon {a b : Str} (h : Parts ':' i.versionRelease a b) : ∃ r, i.release = r ++ ':' :: b := by
  obtain ⟨heq, -, -, -⟩ := h
  rcases List.append_eq_append_iff.mp heq with ⟨m, rfl, hm⟩ | ⟨m, hm, hrest⟩
  · cases m with
    | nil => cases hm
    | cons x m => exact ⟨m, (List.cons.inj hm).2⟩
  · cases m with
    | nil => cases hrest
    | cons x m =>
      have hx : x = ':' := (List.cons.inj hrest).1.symm
      exact absurd (by rw [hm, hx]; simp) i.version_field.2.2.2

/-- **When the text of a version is read back.** -/
theorem parseEvr_evrText_iff : parseEvr i.evrText = i.evr ↔ i.Readable := by
  by_cases hepoch : i.epoch = 0
  · rw [Readable, forall_prop_of_true hepoch]
    rcases captures_epoch i.evrText with ⟨a, b, hparts, hsplit⟩ | ⟨hnone, hsplit⟩
    · rw [i.evrText_of_zero hepoch] at hparts
      obtain ⟨r, hr⟩ := i.parts_colon hparts
      have hb : b ≠ [] := hparts.2.2.2
      refine iff_of_false (fun hparse => ?_) (fun hcolon => hcolon ?_)
      · have hlen : (parseEvr i.evrText).release.length ≤ b.length := by
          rcases parseEvr_of_splitEpoch hsplit with ⟨v, w, hvw, hread⟩ | ⟨-, hread⟩
          · rw [hread, hvw.1, List.length_append, List.length_cons]
            show w.length ≤ _
            omega
          · rw [hread]
            exact Nat.zero_le _
        have hrel : i.evr.release.length = r.length + (b.length + 1) := by
          show i.release.length = _
          rw [hr, List.length_append, List.length_cons]
        rw [hparse] at hlen
        omega
      · obtain ⟨x, b, rfl⟩ := List.exists_cons_of_ne_nil hb
        rw [hr, List.dropLast_append_of_ne_nil (by simp)]
        simp
    · refine iff_of_true ?_ (fun hcolon => ?_)
      · rw [i.evrText_of_zero hepoch] at hsplit
        refine i.parseEvr_of_split (by rw [i.evrText_of_zero hepoch]; exact hsplit) ?_
        rw [hepoch]
        rfl
      · obtain ⟨a, b, hab, ha⟩ := List.eq_append_cons_of_mem hcolon
        have hrel : i.release = a ++ ':' :: (b ++ [i.release.getLast i.release_field.1]) := by
          rw [← List.cons_append, ← List.append_assoc, ← hab, List.dropLast_append_getLast]
        refine hnone (i.version ++ '-' :: a) (b ++ [i.release.getLast i.release_field.1]) ⟨?_, ?_, by simp, by simp⟩
        · rw [i.evrText_of_zero hepoch, versionRelease, List.append_assoc, List.cons_append, ← hrel]
        · simp [i.version_field.2.2.2, ha]
  · refine iff_of_true (i.parseEvr_of_split ?_ i.normalizeEpoch_natStr) (fun h => absurd h hepoch)
    have hparts : Parts ':' i.evrText (natStr i.epoch) i.versionRelease :=
      ⟨i.evrText_of_pos hepoch, not_mem_natStr rfl _, natStr_ne_nil _, by simp [versionRelease]⟩
    rcases captures_epoch i.evrText with ⟨a, b, h, hsplit⟩ | ⟨hnone, -⟩
    · obtain ⟨rfl, rfl⟩ := h.unique hparts
      exact hsplit
    · exact absurd hparts (hnone _ _)

end Instance

/-! ## The verdict -/

/-- `rpm` prints the lines of the instances, in some order. -/
def printed (is : List Instance) : Str → Option Output := fun _ => some ⟨is.map Instance.line, true, some 0⟩

/-- The verdict of the probe. -/
def versionOk (is : List Instance) (name minimum : Str) : Option Bool :=
  match inspectMinVersion (printed is) (some name) (some minimum) with
  | .ok result => result.versionOk
  | .error _ => none

theorem line_ne_nil (i : Instance) : i.line ≠ [] := by
  intro h
  exact i.name_field.1 (List.append_eq_nil_iff.mp h).1

/-- **The verdict is that of the first line.** -/
theorem versionOk_cons (i : Instance) (is : List Instance) (name minimum : Str) :
    versionOk (i :: is) name minimum = evrMeetsMinimum i.evrText minimum := by
  have hlines : ((i :: is).map Instance.line).filter (· ≠ []) = i.line :: is.map Instance.line := by
    rw [List.filter_eq_self.mpr]
    · rfl
    · intro l hl
      obtain ⟨j, -, rfl⟩ := List.mem_map.mp hl
      exact decide_eq_true (line_ne_nil j)
  have hread : readCommandLines (printed (i :: is)) (metadataCommand name) =
    .ok (i.line :: is.map Instance.line, 0) := by
    unfold readCommandLines printed
    dsimp only
    rw [hlines, if_pos ⟨rfl, .inr rfl⟩]
  unfold versionOk inspectMinVersion
  simp only [hread, bind, Except.bind, List.headD_cons, parseRpmQueryLine_line]
  rfl

/-- A readable instance is judged by its epoch, version and release. -/
theorem meets_iff {i : Instance} (h : i.Readable) (minimum : Str) :
    evrMeetsMinimum i.evrText minimum = some true ↔ i.Meets minimum := by
  have hparse := i.parseEvr_evrText_iff.mpr h
  have heq : evrMeetsMinimum i.evrText minimum = i.evr.meets (parseEvr minimum) := by
    rw [← hparse]
    rfl
  have hx : i.evr.epoch ≠ .nan := Flt.noConfusion
  rw [heq, Instance.Meets]
  by_cases hnan : (parseEvr minimum).epoch = .nan
  · rw [Evr.meets_nan hx hnan]
    simp [hnan]
  · rw [Evr.meets_iff hx hnan]
    simp [hnan]

/-- What is asked of the verdict on a list of instances: it is that of all of them, in whichever order they are printed,
and what is compared is read back from the text it was put into. -/
structure Covers (is : List Instance) (name minimum : Str) : Prop where
  all : versionOk is name minimum = some true ↔ ∀ i ∈ is, i.Meets minimum
  order : ∀ js, js.Perm is → versionOk js name minimum = versionOk is name minimum
  readBack : ∀ i ∈ is, ∃ info, parseRpmQueryLine i.line = some info ∧ parseEvr info.evr = i.evr

theorem readBack_iff (i : Instance) :
    (∃ info, parseRpmQueryLine i.line = some info ∧ parseEvr info.evr = i.evr) ↔ i.Readable := by
  rw [← i.parseEvr_evrText_iff, parseRpmQueryLine_line]
  constructor
  · rintro ⟨info, hinfo, h⟩
    obtain rfl := Option.some.inj hinfo
    exact h
  · exact fun h => ⟨_, rfl, h⟩

/-- Instances that cannot be told apart by the minimum. -/
def Agree (is : List Instance) (minimum : Str) : Prop :=
  (∀ i ∈ is, i.Meets minimum) ∨ ∀ i ∈ is, ¬i.Meets minimum

/-- **The verdict on the installed instances.** It is the verdict of all of them, whatever the order, exactly when
every text of a version can be read back and all the instances meet the minimum or none does. -/
theorem min_version_iff (i : Instance) (is : List Instance) (name minimum : Str) :
    Covers (i :: is) name minimum ↔ (∀ j ∈ i :: is, j.Readable) ∧ Agree (i :: is) minimum := by
  constructor
  · intro h
    have hread : ∀ j ∈ i :: is, j.Readable := fun j hj => (readBack_iff j).mp (h.readBack j hj)
    refine ⟨hread, ?_⟩
    by_cases hok : versionOk (i :: is) name minimum = some true
    · exact .inl (h.all.mp hok)
    · refine .inr fun j hj hmeets => hok ?_
      obtain ⟨u, v, huv⟩ := List.append_of_mem hj
      have hperm : (j :: (u ++ v)).Perm (i :: is) := by
        rw [huv]
        exact List.perm_middle.symm
      rw [← h.order _ hperm, versionOk_cons]
      exact (meets_iff (hread j hj) minimum).mpr hmeets
  · rintro ⟨hread, hagree⟩
    have hverdict : ∀ j ∈ i :: is, evrMeetsMinimum j.evrText minimum = evrMeetsMinimum i.evrText minimum := by
      intro j hj
      rcases hagree with hall | hnone
      · rw [(meets_iff (hread j hj) minimum).mpr (hall j hj),
          (meets_iff (hread i List.mem_cons_self) minimum).mpr (hall i List.mem_cons_self)]
      · rw [evrMeetsMinimum_false (mt (meets_iff (hread j hj) minimum).mp (hnone j hj)),
          evrMeetsMinimum_false (mt (meets_iff (hread i List.mem_cons_self) minimum).mp (hnone i List.mem_cons_self))]
    refine ⟨?_, ?_, fun j hj => (readBack_iff j).mpr (hread j hj)⟩
    · rw [versionOk_cons, meets_iff (hread i List.mem_cons_self)]
      rcases hagree with hall | hnone
      · exact iff_of_true (hall i List.mem_cons_self) hall
      · exact iff_of_false (hnone i List.mem_cons_self) fun h => hnone i List.mem_cons_self (h i List.mem_cons_self)
    · intro js hperm
      cases js with
      | nil => exact absurd hperm.length_eq (by simp)
      | cons j js =>
        rw [versionOk_cons, versionOk_cons]
        exact hverdict j (hperm.subset List.mem_cons_self)

/-- An instance of a kernel package. -/
def kernel (version release : Str) (hversion : version ≠ [] ∧ '\t' ∉ version ∧ '-' ∉ version ∧ ':' ∉ version)
    (hrelease : release ≠ [] ∧ '\t' ∉ release) : Instance :=
  ⟨"kernel", 0, version, release, "x86_64", by norm_num, by decide, hversion, hrelease, by decide⟩

/-- A kernel below the minimum is not seen behind one that meets it. -/
theorem min_version_second_kernel : ¬∀ (is : List Instance) (name minimum : Str), is ≠ [] → Covers is name minimum := by
  intro h
  have hcovers := h [kernel "6.6" "2" (by decide) (by decide), kernel "5.10" "1" (by decide) (by decide)] "kernel" "6.0"
    (by simp)
  have hfirst : versionOk [kernel "6.6" "2" (by decide) (by decide), kernel "5.10" "1" (by decide) (by decide)] "kernel"
      "6.0" = some true := by
    rw [versionOk_cons]
    decide +kernel
  have hsecond : versionOk [kernel "5.10" "1" (by decide) (by decide),
    kernel "6.6" "2" (by decide) (by decide)] "kernel"
      "6.0" = some false := by
    rw [versionOk_cons]
    decide +kernel
  have horder := hcovers.order _ (List.Perm.swap _ _ [])
  rw [hfirst, hsecond] at horder
  cases horder

end MinVersion

end Seharden
