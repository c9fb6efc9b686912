import Loongshield.Lua.Escape
import Loongshield.Seharden.PathView
import Loongshield.Seharden.Trim

/-!
# `probes/boot.lua`

The probe looks for a parameter on the command lines of the boot configuration. Of the assignments on a line it takes
the first that is a number; the kernel takes the last.

- `inspectKernelParameter`: the probe, with `commandlineFromLine` and `extractNumericParameter`;
- `extractNumericParameter_eq`: the value that it takes from a line;
- `all_configured_effective_iff`: when a positive report is about the effective values.
-/

namespace Seharden

open Lua Pattern

namespace Boot

/-! ## Command lines -/

/-- `strip_inline_comment`, in quotes or not. -/
def stripInlineComment : Bool → Str → Str
  | _, [] => []
  | inQuote, c :: r =>
    if c = '"' then c :: stripInlineComment (!inQuote) r
    else if c = '#' ∧ inQuote = false then []
    else c :: stripInlineComment inQuote r

/-- `unquote`. -/
def unquote (value : Str) : Str :=
  let first := value.head?
  let last := value.getLast?
  if 2 ≤ value.length ∧ (first = some '"' ∧ last = some '"' ∨
      first = some (Char.ofNat 39) ∧ last = some (Char.ofNat 39)) then value.tail.dropLast
  else value

/-- `commandline_from_line`. -/
def commandlineFromLine (line : Str) : Option Str :=
  let trimmed := trim (stripInlineComment false line)
  if trimmed = [] then none
  else match firstCapture trimmed "^kernelopts=(.+)$" with
    | some kernelopts => some (unquote kernelopts)
    | none => match firstCapture trimmed "^GRUB_CMDLINE_LINUX%s*=%s*(.+)$" with
      | some grubCmdline => some (unquote grubCmdline)
      | none => (firstCapture trimmed "^linux[%w_%-]*%s+%S+%s+(.+)$").or (firstCapture trimmed "^kernel%s+%S+%s+(.+)$")

/-- `text.escape_lua_pattern`. -/
def escapeLuaPattern (value : Str) : Str :=
  match gsub value "([%^%$%(%)%%%.%[%]%+%-%?%*])" fun caps => '%' :: (caps.headD .nil).tostring with
  | .ok r => r
  | .error _ => value

/-- `extract_numeric_parameter`. -/
def extractNumericParameter (commandline escapedName : Str) : Option Flt :=
  ((captures commandline "%S+").findSome? fun token =>
    firstCapture token ('^' :: (escapedName ++ "=(%d+)$"))).bind strscan

/-! ## The probe -/

/-- What is noted of a command line. -/
structure Detail where
  path : Str
  commandline : Str
  value : Option Flt
  configured : Bool

/-- What `summarize` returns. -/
structure Summary where
  checkedFiles : Nat
  checkedCount : Nat
  violationCount : Nat
  allConfigured : Bool
  details : List Detail

/-- The table that the probe returns. The counts and the details of the two groups are in the summaries; there are none
if a file could not be opened. -/
structure Report where
  available : Bool
  error : Option Err
  bootConfigured : Bool
  defaultConfigured : Bool
  allConfigured : Bool
  violationCount : Nat
  boot : Option Summary
  defaults : Option Summary

/-- `unavailable_result`. -/
def unavailableResult (err : Err) : Report := ⟨false, some err, false, false, false, 0, none, none⟩

section Probe

variable (view : View) (escapedName : Str) (minValue : Flt)

/-- What is noted of a line. -/
def detailOf (path commandline : Str) : Detail :=
  let value := extractNumericParameter commandline escapedName
  ⟨path, commandline, value, value.any minValue.le⟩

/-- `inspect_file`. -/
def inspectFile (path : Str) : Except Err (List Detail) :=
  match view.lines path with
  | .error err => .error ("Could not open boot configuration '" ++ path ++ "': " ++ err)
  | .ok lines => .ok ((lines.filterMap commandlineFromLine).map (detailOf escapedName minValue path))

/-- `collect_details`: how many files there are, and the details or the error of the first that cannot be opened. -/
def collectDetails (paths : List Str) : Except Err (Nat × Except Err (List Detail)) := do
  let files := sortStrs (← view.expandFiles paths)
  return (files.length, (files.mapM (inspectFile view escapedName minValue)).map List.flatten)

end Probe

/-- `summarize`. -/
def summarize (details : List Detail) (checkedFiles : Nat) : Summary :=
  let violationCount := (details.filter fun detail => !detail.configured).length
  ⟨checkedFiles, details.length, violationCount, decide (0 < details.length ∧ violationCount = 0), details⟩

/-- `inspect_kernel_parameter`. It raises where a directory cannot be listed; else it returns a table, or an error. -/
def inspectKernelParameter (view : View) (name numericMin : Value) (bootPaths defaultPaths : Option (List Str)) :
    Except Err (Except Err Report) :=
  match name with
  | .str (c :: cs) => do
    let minValue := (tonumber numericMin).getD (.fin 0)
    let escapedName := escapeLuaPattern (c :: cs)
    let bootPaths := bootPaths.getD ["/boot/grub2/grub.cfg", "/boot/grub2/grubenv", "/boot/efi/EFI/*/grub.cfg"]
    let defaultPaths := defaultPaths.getD ["/etc/default/grub"]
    let (bootFiles, bootDetails) ← collectDetails view escapedName minValue bootPaths
    match bootDetails with
    | .error err => return .ok (unavailableResult err)
    | .ok bootDetails =>
      let (defaultFiles, defaultDetails) ← collectDetails view escapedName minValue defaultPaths
      match defaultDetails with
      | .error err => return .ok (unavailableResult err)
      | .ok defaultDetails =>
        let boot := summarize bootDetails bootFiles
        let defaults := summarize defaultDetails defaultFiles
        return .ok ⟨true, none, boot.allConfigured, defaults.allConfigured,
          boot.allConfigured && defaults.allConfigured, boot.violationCount + defaults.violationCount, some boot,
          some defaults⟩
  | _ => .ok (.error "Probe 'boot.inspect_kernel_parameter' requires a non-empty 'name' parameter.")

/-! ## Assignments -/

/-- The value that a word assigns to a parameter. -/
def assigned (name token : Str) : Option Str :=
  if name ++ ['='] <+: token then some (token.drop (name.length + 1)) else none

/-- The values that a command line assigns to a parameter, in order. -/
def assignments (name commandline : Str) : List Str := (words nonBlank commandline).filterMap (assigned name)

/-- A value, if it is a numeral: digits. -/
def numeral (v : Str) : Option Str := if v ≠ [] ∧ v.all isdigit = true then some v else none

/-- A value is a number not below the minimum. -/
def Meets (minValue : Flt) (v : Str) : Prop := ((numeral v).bind strscan).any minValue.le = true

/-- The kernel's rule: the last assignment is a number not below the minimum. -/
def LastMeets (name : Str) (minValue : Flt) (commandline : Str) : Prop :=
  ∃ v, (assignments name commandline).getLast? = some v ∧ Meets minValue v

/-- The first assignment of a number is not below the minimum. -/
def FirstMeets (name : Str) (minValue : Flt) (commandline : Str) : Prop :=
  ∃ v, ((assignments name commandline).filter fun v => (numeral v).isSome).head? = some v ∧ Meets minValue v

/-- A line on which the first number is taken back by the last assignment. -/
def Overridden (name : Str) (minValue : Flt) (commandline : Str) : Prop :=
  FirstMeets name minValue commandline ∧ ¬LastMeets name minValue commandline

/-! ## The value that the probe takes -/

theorem escapeLuaPattern_eq (w : Str) : escapeLuaPattern w = escaped w := by
  have hpat : compile "([%^%$%(%)%%%.%[%]%+%-%?%*])" =
      [.capOpen, .single (.set false (['^', '$', '(', ')', '%', '.', '[', ']', '+', '-', '?', '*'].map .cls)) .one,
        .capClose] := rfl
  have htest : ∀ x, (Single.set false (['^', '$', '(', ')', '%', '.', '[', ']', '+', '-', '?', '*'].map .cls)).test x =
      isMagic x := by
    intro x
    rw [Single.test, any_cls_test (List.all_eq_true.mp rfl), Bool.bne_false, Bool.eq_iff_iff, decide_eq_true_eq,
      isMagic, decide_eq_true_eq]
    simp only [magic, List.mem_cons, List.not_mem_nil, or_false]
    tauto
  unfold escapeLuaPattern
  rw [gsub_eq (by decide) hpat rfl, gsubRest_chars (Nat.lt_succ_self _)]
  simp only [htest]
  rfl

theorem compile_parameter (name : Str) : compile (escaped name ++ "=(%d+)$") = (spelling name).map (.single · .one) ++
    [.single (.lit '=') .one, .capOpen, .single (.cls 'd') .plus, .capClose, .atEnd] := by
  have hunq : Unquantified "=(%d+)$" := by
    intro x hx
    obtain rfl : '=' = x := Option.some.inj hx
    decide
  exact compile_escaped name hunq

/-- What the pattern takes from a word. -/
theorem firstCapture_parameter (name token : Str) :
    firstCapture token ('^' :: (escaped name ++ "=(%d+)$")) = (assigned name token).bind numeral := by
  have hmatch := strMatch_anchored rfl (compile_parameter name) (simple_spelling name rfl) token
  unfold firstCapture assigned
  rw [hmatch, matchRest_spells (spells_spelling name)]
  by_cases hpre : name <+: token
  · obtain ⟨rest, rfl⟩ := hpre
    rw [if_pos (List.prefix_append name rest), List.drop_left, ← List.drop_drop, List.drop_left]
    simp only [List.prefix_append_right_inj]
    cases rest with
    | nil => rfl
    | cons x v =>
      by_cases hx : x = '='
      · subst hx
        have heq : ['='] <+: '=' :: v := ⟨v, rfl⟩
        rw [matchRest_lit, matchRest_capPlus_end]
        by_cases hv : v ≠ [] ∧ v.all (Single.cls 'd').test = true
        · have hnum : numeral v = some v := if_pos hv
          rw [if_pos hv, if_pos heq]
          show some _ = numeral v
          rw [hnum]
          simp [Seg.text]
        · rw [if_neg hv, if_pos heq]
          exact (if_neg hv).symm
      · have htest : ¬(Single.lit '=').test x = true := fun h => hx (eq_of_beq h).symm
        rw [matchRest, if_neg htest, if_neg fun h => hx (List.cons_prefix_cons.mp h).1.symm]
        rfl
  · rw [if_neg hpre, if_neg fun h => hpre ((List.prefix_append name ['=']).trans h)]
    rfl

theorem findSome_filterMap {α β γ : Type} (f : α → Option β) (g : β → Option γ) (l : List α) :
    (l.filterMap f).findSome? g = l.findSome? fun x => (f x).bind g := by
  induction l with
  | nil => rfl
  | cons x l ih =>
    rw [List.filterMap_cons, List.findSome?_cons, ← ih]
    cases f x with
    | none => rfl
    | some y => rfl

/-- **The value that the probe takes from a command line**: the first assignment of a number. -/
theorem extractNumericParameter_eq (name commandline : Str) :
    extractNumericParameter commandline (escapeLuaPattern name) =
      ((assignments name commandline).findSome? numeral).bind strscan := by
  unfold extractNumericParameter assignments
  rw [captures_words, escapeLuaPattern_eq, findSome_filterMap]
  simp only [firstCapture_parameter]

theorem findSome_numeral (l : List Str) :
    l.findSome? numeral = ((l.filter fun v => (numeral v).isSome).head?).bind numeral := by
  induction l with
  | nil => rfl
  | cons v l ih =>
    rw [List.findSome?_cons, List.filter_cons]
    cases h : numeral v with
    | none => simpa using ih
    | some d => simp [h]

/-- A line passes if the first number on it is not below the minimum. -/
theorem configured_iff (name : Str) (minValue : Flt) (path commandline : Str) :
    (detailOf (escapeLuaPattern name) minValue path commandline).configured = true ↔
      FirstMeets name minValue commandline := by
  unfold detailOf FirstMeets Meets
  dsimp only
  rw [extractNumericParameter_eq, findSome_numeral]
  cases ((assignments name commandline).filter fun v => (numeral v).isSome).head? with
  | none => simp
  | some v => simp

/-! ## The report -/

theorem summarize_allConfigured {details : List Detail} {checkedFiles : Nat} :
    (summarize details checkedFiles).allConfigured = true ↔
      details ≠ [] ∧ ∀ d ∈ details, d.configured = true := by
  unfold summarize
  dsimp only
  rw [decide_eq_true_eq, List.length_pos_iff, List.length_eq_zero_iff, List.filter_eq_nil_iff]
  simp

/-- The command lines of a group of files, if all of them can be read. -/
def commandLines (view : View) (paths : List Str) : Option (List Str) :=
  (view.expandFiles paths).toOption.bind fun files =>
    ((sortStrs files).mapM fun file => (view.lines file).toOption.map (List.filterMap commandlineFromLine)).map
      List.flatten

section Collected

variable {view : View} {escapedName : Str} {minValue : Flt}

/-- Either all files are read, or the first that is not gives the error. -/
theorem mapM_inspectFile (files : List Str) :
    (∃ details, files.mapM (inspectFile view escapedName minValue) = .ok details ∧
      (files.mapM fun file => (view.lines file).toOption.map (List.filterMap commandlineFromLine)) =
        some (details.map fun l => l.map (·.commandline)) ∧
      ∀ l ∈ details, ∀ d ∈ l, ∃ path, d = detailOf escapedName minValue path d.commandline) ∨
    ((∃ e, files.mapM (inspectFile view escapedName minValue) = .error e) ∧
      (files.mapM fun file => (view.lines file).toOption.map (List.filterMap commandlineFromLine)) = none) := by
  induction files with
  | nil => exact .inl ⟨[], rfl, rfl, fun l hl => absurd hl List.not_mem_nil⟩
  | cons file files ih =>
    rw [List.mapM_cons, List.mapM_cons]
    cases hlines : view.lines file with
    | error e =>
      rw [inspectFile, hlines]
      exact .inr ⟨⟨_, rfl⟩, rfl⟩
    | ok lines =>
      have hfile : inspectFile view escapedName minValue file =
          .ok ((lines.filterMap commandlineFromLine).map (detailOf escapedName minValue file)) := by
        rw [inspectFile, hlines]
      rw [hfile]
      rcases ih with ⟨details, hd, hc, hall⟩ | ⟨⟨e, he⟩, hc⟩
      · rw [hd, hc]
        refine .inl ⟨_, rfl, ?_, ?_⟩
        · simp [Except.toOption, detailOf, Function.comp_def]
        · intro l hl d hmem
          rcases List.mem_cons.mp hl with rfl | hl
          · obtain ⟨c, -, rfl⟩ := List.mem_map.mp hmem
            exact ⟨file, rfl⟩
          · exact hall l hl d hmem
      · rw [he, hc]
        exact .inr ⟨⟨e, rfl⟩, rfl⟩

/-- What a group of files gives. -/
theorem collectDetails_cases (paths : List Str) :
    (∃ n details, collectDetails view escapedName minValue paths = .ok (n, .ok details) ∧
      commandLines view paths = some (details.map (·.commandline)) ∧
      ∀ d ∈ details, ∃ path, d = detailOf escapedName minValue path d.commandline) ∨
    ((∃ e, collectDetails view escapedName minValue paths = .error e) ∨
      ∃ n e, collectDetails view escapedName minValue paths = .ok (n, .error e)) ∧ commandLines view paths = none := by
  unfold collectDetails commandLines
  cases view.expandFiles paths with
  | error e => exact .inr ⟨.inl ⟨e, rfl⟩, rfl⟩
  | ok files =>
    have hfiles : (Except.ok files : Except Err (List Str)).toOption = some files := rfl
    rw [hfiles, Option.bind_some]
    rcases @mapM_inspectFile view escapedName minValue (sortStrs files) with ⟨details, hd, hc, hall⟩ | ⟨⟨e, he⟩, hc⟩
    · refine .inl ⟨(sortStrs files).length, details.flatten, ?_, ?_, ?_⟩
      · show Except.ok ((sortStrs files).length, ((sortStrs files).mapM (inspectFile view escapedName minValue)).map
          List.flatten) = _
        rw [hd]
        rfl
      · rw [hc, Option.map_some, List.map_flatten]
      · intro d hmem
        obtain ⟨l, hl, hd⟩ := List.mem_flatten.mp hmem
        exact hall l hl d hd
    · refine .inr ⟨.inr ⟨(sortStrs files).length, e, ?_⟩, ?_⟩
      · show Except.ok ((sortStrs files).length, ((sortStrs files).mapM (inspectFile view escapedName minValue)).map
          List.flatten) = _
        rw [he]
        rfl
      · rw [hc]
        rfl

end Collected

/-! ## Reports and effective values -/

/-- The minimum that a parameter stands for. -/
def minimumOf (numericMin : Value) : Flt := (tonumber numericMin).getD (.fin 0)

/-- The boot files that are looked at. -/
def bootPathsOf (bootPaths : Option (List Str)) : List Str :=
  bootPaths.getD ["/boot/grub2/grub.cfg", "/boot/grub2/grubenv", "/boot/efi/EFI/*/grub.cfg"]

/-- The default files that are looked at. -/
def defaultPathsOf (defaultPaths : Option (List Str)) : List Str := defaultPaths.getD ["/etc/default/grub"]

/-- A positive report is about the effective values: a command line was found in each group, and on each the last
assignment is a number not below the minimum. -/
def Effective (name : Str) (minValue : Flt) (report : Report) : Prop :=
  report.allConfigured = true → ∃ boot defaults, report.boot = some boot ∧ report.defaults = some defaults ∧
    boot.details ≠ [] ∧ defaults.details ≠ [] ∧
      ∀ d ∈ boot.details ++ defaults.details, LastMeets name minValue d.commandline

/-- The report that there is, if the files can be read: a verdict for each group. -/
theorem inspect_cases (view : View) {name : Str} (hname : name ≠ []) (numericMin : Value)
    (bootPaths defaultPaths : Option (List Str)) :
    (∃ boot defaults bootDetails defaultDetails report,
      commandLines view (bootPathsOf bootPaths) = some boot ∧
      commandLines view (defaultPathsOf defaultPaths) = some defaults ∧
      inspectKernelParameter view (.str name) numericMin bootPaths defaultPaths = .ok (.ok report) ∧
      report.boot = some bootDetails ∧ report.defaults = some defaultDetails ∧
      bootDetails.details.map (·.commandline) = boot ∧ defaultDetails.details.map (·.commandline) = defaults ∧
      (report.allConfigured = true ↔ boot ≠ [] ∧ defaults ≠ [] ∧
        ∀ c ∈ boot ++ defaults, FirstMeets name (minimumOf numericMin) c)) ∨
    ((commandLines view (bootPathsOf bootPaths) = none ∨ commandLines view (defaultPathsOf defaultPaths) = none) ∧
      ∀ report, inspectKernelParameter view (.str name) numericMin bootPaths defaultPaths = .ok (.ok report) →
        report.allConfigured = false) := by
  obtain ⟨c, cs, rfl⟩ := List.exists_cons_of_ne_nil hname
  have hpass : ∀ {details : List Detail} {n : Nat}, (∀ d ∈ details, ∃ path,
      d = detailOf (escapeLuaPattern (c :: cs)) (minimumOf numericMin) path d.commandline) →
      ((summarize details n).allConfigured = true ↔ details.map (·.commandline) ≠ [] ∧
        ∀ l ∈ details.map (·.commandline), FirstMeets (c :: cs) (minimumOf numericMin) l) := by
    intro details n hall
    have hconf : ∀ d ∈ details, d.configured = true ↔ FirstMeets (c :: cs) (minimumOf numericMin) d.commandline := by
      intro d hd
      obtain ⟨path, heq⟩ := hall d hd
      have h := configured_iff (c :: cs) (minimumOf numericMin) path d.commandline
      rwa [← heq] at h
    rw [summarize_allConfigured, List.forall_mem_map, ne_eq, ne_eq, List.map_eq_nil_iff]
    exact and_congr_right fun _ => forall₂_congr hconf
  unfold inspectKernelParameter
  dsimp only
  rcases @collectDetails_cases view (escapeLuaPattern (c :: cs)) (minimumOf numericMin) (bootPathsOf bootPaths) with
    ⟨n, bootDetails, hboot, hbootLines, hbootAll⟩ | ⟨hfail, hnone⟩
  · rcases @collectDetails_cases view (escapeLuaPattern (c :: cs)) (minimumOf numericMin)
      (defaultPathsOf defaultPaths) with ⟨m, defaultDetails, hdef, hdefLines, hdefAll⟩ | ⟨hfail, hnone⟩
    · unfold minimumOf bootPathsOf at hboot
      unfold minimumOf defaultPathsOf at hdef
      rw [hboot]
      simp only [bind, Except.bind, hdef]
      refine .inl ⟨_, _, summarize bootDetails n, summarize defaultDetails m, _, hbootLines, hdefLines, rfl, rfl, rfl,
        rfl, rfl, ?_⟩
      dsimp only
      rw [Bool.and_eq_true, hpass hbootAll, hpass hdefAll, List.forall_mem_append]
      tauto
    · unfold minimumOf bootPathsOf at hboot
      unfold minimumOf defaultPathsOf at hfail
      rw [hboot]
      simp only [bind, Except.bind]
      refine .inr ⟨.inr hnone, fun report h => ?_⟩
      rcases hfail with ⟨e, he⟩ | ⟨m, e, he⟩
      · rw [he] at h
        cases h
      · rw [he] at h
        cases h
        rfl
  · unfold minimumOf bootPathsOf at hfail
    refine .inr ⟨.inl hnone, fun report h => ?_⟩
    rcases hfail with ⟨e, he⟩ | ⟨m, e, he⟩
    · rw [he] at h
      cases h
    · rw [he] at h
      cases h
      rfl

/-- Every report of the probe is about the effective values. -/
def InspectsEffective (view : View) (name : Str) (numericMin : Value) (bootPaths defaultPaths : Option (List Str)) :
    Prop :=
  ∀ report, inspectKernelParameter view (.str name) numericMin bootPaths defaultPaths = .ok (.ok report) →
    Effective name (minimumOf numericMin) report

/-- No line that is found is overridden, unless the report is negative on other grounds: a file that cannot be read, a
group without a command line, a line on which the first number is missing or below the minimum. -/
def NoneOverridden (view : View) (name : Str) (numericMin : Value) (bootPaths defaultPaths : Option (List Str)) :
    Prop :=
  ∀ boot defaults, commandLines view (bootPathsOf bootPaths) = some boot →
    commandLines view (defaultPathsOf defaultPaths) = some defaults → boot = [] ∨ defaults = [] ∨
      (∃ c ∈ boot ++ defaults, ¬FirstMeets name (minimumOf numericMin) c) ∨
      ∀ c ∈ boot ++ defaults, ¬Overridden name (minimumOf numericMin) c

/-- **When the reports are about the effective values**: exactly when no command line is overridden. -/
theorem all_configured_effective_iff (view : View) {name : Str} (hname : name ≠ []) (numericMin : Value)
    (bootPaths defaultPaths : Option (List Str)) :
    InspectsEffective view name numericMin bootPaths defaultPaths ↔
      NoneOverridden view name numericMin bootPaths defaultPaths := by
  unfold InspectsEffective NoneOverridden
  rcases inspect_cases view hname numericMin bootPaths defaultPaths with
    ⟨boot, defaults, b, d, report, hboot, hdef, hrun, hb, hd, rfl, rfl, hall⟩ | ⟨hnone, hfalse⟩
  · have hlast : (∀ x ∈ b.details ++ d.details, LastMeets name (minimumOf numericMin) x.commandline) ↔
        ∀ c ∈ b.details.map (·.commandline) ++ d.details.map (·.commandline),
        LastMeets name (minimumOf numericMin) c := by
      rw [← List.map_append, List.forall_mem_map]
    constructor
    · intro h boot' defaults' hboot' hdef'
      obtain rfl := Option.some.inj (hboot.symm.trans hboot')
      obtain rfl := Option.some.inj (hdef.symm.trans hdef')
      by_contra hno
      push Not at hno
      obtain ⟨hne, hne', hfirst, c, hc, hover⟩ := hno
      obtain ⟨b', d', hb', hd', -, -, hmeets⟩ := h report hrun (hall.mpr ⟨hne, hne', hfirst⟩)
      obtain rfl := Option.some.inj (hb.symm.trans hb')
      obtain rfl := Option.some.inj (hd.symm.trans hd')
      exact hover.2 (hlast.mp hmeets c hc)
    · intro h report' hrun' hconf
      obtain rfl : report = report' := by
        rw [hrun] at hrun'
        cases hrun'
        rfl
      obtain ⟨hne, hne', hfirst⟩ := hall.mp hconf
      refine ⟨b, d, hb, hd, fun hnil => hne (by rw [hnil]; rfl), fun hnil => hne' (by rw [hnil]; rfl), hlast.mpr ?_⟩
      intro c hc
      rcases h _ _ hboot hdef with hnil | hnil | ⟨c', hc', hno⟩ | hover
      · exact absurd hnil hne
      · exact absurd hnil hne'
      · exact absurd (hfirst c' hc') hno
      · by_contra hlast
        exact hover c hc ⟨hfirst c hc, hlast⟩
  · constructor
    · intro _ boot defaults hboot hdef
      rcases hnone with h | h
      · rw [hboot] at h
        cases h
      · rw [hdef] at h
        cases h
    · intro _ report hrun hconf
      rw [hfalse report hrun] at hconf
      cases hconf

/-- A file for each group. -/
def twoFiles (boot defaults : List Str) : View where
  mode _ := some "file".toList
  names _ := .ok []
  lines path := .ok (if path = "/b".toList then boot else defaults)

/-- A boot entry and a default file with one assignment each. -/
theorem all_configured_effective_backlog :
    InspectsEffective (twoFiles ["linux /vmlinuz audit_backlog_limit=8192"]
      ["GRUB_CMDLINE_LINUX=audit_backlog_limit=8192"]) "audit_backlog_limit" (.num 8192) (some ["/b"]) (some ["/d"]) ↔
    NoneOverridden (twoFiles ["linux /vmlinuz audit_backlog_limit=8192"]
      ["GRUB_CMDLINE_LINUX=audit_backlog_limit=8192"]) "audit_backlog_limit" (.num 8192) (some ["/b"]) (some ["/d"]) :=
  all_configured_effective_iff _ (by decide) (.num 8192) (some ["/b"]) (some ["/d"])

/-- A boot entry whose second assignment takes the first one back is reported as configured. -/
theorem all_configured_effective_second :
    ¬∀ (view : View) (name : Str) (numericMin : Value) (bootPaths defaultPaths : Option (List Str)), name ≠ [] →
      InspectsEffective view name numericMin bootPaths defaultPaths := by
  intro h
  have hname : "audit_backlog_limit".toList ≠ [] := by decide
  have hrun := h (twoFiles ["linux /vmlinuz audit_backlog_limit=8192 audit_backlog_limit=64"]
    ["GRUB_CMDLINE_LINUX=audit_backlog_limit=8192"]) _ (.num 8192) (some ["/b"]) (some ["/d"]) hname
  have hlines : commandLines (twoFiles ["linux /vmlinuz audit_backlog_limit=8192 audit_backlog_limit=64"]
      ["GRUB_CMDLINE_LINUX=audit_backlog_limit=8192"]) ["/b"] =
      some ["audit_backlog_limit=8192 audit_backlog_limit=64".toList] := by decide +kernel
  have hdefaults : commandLines (twoFiles ["linux /vmlinuz audit_backlog_limit=8192 audit_backlog_limit=64"]
      ["GRUB_CMDLINE_LINUX=audit_backlog_limit=8192"]) ["/d"] = some ["audit_backlog_limit=8192".toList] := by
    decide +kernel
  have hmeets : Meets (minimumOf (.num 8192)) "8192" := by
    unfold Meets
    decide +kernel
  rcases inspect_cases (twoFiles ["linux /vmlinuz audit_backlog_limit=8192 audit_backlog_limit=64"]
    ["GRUB_CMDLINE_LINUX=audit_backlog_limit=8192"]) hname (.num 8192) (some ["/b"]) (some ["/d"]) with
    ⟨boot, defaults, b, d, report, hboot, hdef, hreport, hb, hd, hbc, hdc, hall⟩ | ⟨hnone, -⟩
  · obtain rfl := Option.some.inj (hlines.symm.trans hboot)
    obtain rfl := Option.some.inj (hdefaults.symm.trans hdef)
    have hconf : report.allConfigured = true := by
      refine hall.mpr ⟨by simp, by simp, fun c hc => ?_⟩
      simp only [List.cons_append, List.nil_append, List.mem_cons, List.not_mem_nil, or_false] at hc
      rcases hc with rfl | rfl
      · exact ⟨"8192", by decide +kernel, hmeets⟩
      · exact ⟨"8192", by decide +kernel, hmeets⟩
    obtain ⟨b', d', hb', -, -, -, hlast⟩ := hrun report hreport hconf
    obtain rfl := Option.some.inj (hb.symm.trans hb')
    obtain ⟨e, he, hcmd⟩ : ∃ e ∈ b.details, e.commandline =
      "audit_backlog_limit=8192 audit_backlog_limit=64".toList := by
      rw [← List.mem_map, hbc]
      exact List.mem_singleton_self _
    obtain ⟨v, hv, hm⟩ := hlast e (List.mem_append_left _ he)
    rw [hcmd] at hv
    have hv' : (assignments "audit_backlog_limit" "audit_backlog_limit=8192 audit_backlog_limit=64").getLast? =
        some "64".toList := by decide +kernel
    obtain rfl := Option.some.inj (hv'.symm.trans hv)
    have hbelow : ¬Meets (minimumOf (.num 8192)) "64" := by
      unfold Meets
      decide +kernel
    exact hbelow hm
  · rcases hnone with hnone | hnone
    · cases hlines.symm.trans hnone
    · cases hdefaults.symm.trans hnone

end Boot

end Seharden
