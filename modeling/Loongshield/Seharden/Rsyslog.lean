import Loongshield.Lua.Escape
import Loongshield.Lua.Fold
import Loongshield.Seharden.Comparators
import Loongshield.Seharden.PathView
import Loongshield.Seharden.Trim

/-!
# `probes/syslog.lua`

The probe looks at each line of the rsyslog configuration on its own.

- `inspectLine`: what a line shows;
- `inspectRsyslogEffectiveConfig`: the probe;
- `remote_verdict`: what it reports about remote input.
-/

namespace Seharden

open Lua Pattern

namespace Rsyslog

/-! ## Lines -/

/-- `strip_inline_comment`, in single or in double quotes or not. -/
def stripInlineComment : Bool → Bool → Str → Str
  | _, _, [] => []
  | inSingleQuote, inDoubleQuote, c :: r =>
    if c = Char.ofNat 39 ∧ inDoubleQuote = false then c :: stripInlineComment (!inSingleQuote) inDoubleQuote r
    else if c = '"' ∧ inSingleQuote = false then c :: stripInlineComment inSingleQuote (!inDoubleQuote) r
    else if c = '#' ∧ inSingleQuote = false ∧ inDoubleQuote = false then []
    else c :: stripInlineComment inSingleQuote inDoubleQuote r

/-- `parse_octal_mode`. -/
def parseOctalMode (value : Value) : Option Nat :=
  (firstCapture (if value.truthy then value.tostring else []) "^0?([0-7][0-7][0-7][0-7]?)$").map
    (Nat.ofDigitChars 8 · 0)

/-- `parse_named_arg`. -/
def parseNamedArg (line name : Str) : Option Str :=
  ((firstCapture line (name ++ "%s*=%s*\"([^\"]+)\"")).or
    ((firstCapture line (name ++ "%s*=%s*'([^']+)'")).or
      (firstCapture line (name ++ "%s*=%s*([^,%s%)]+)")))).map lower

/-- What `inspect_line` returns; `remote_input` is true where there is a `remote_input_type`. -/
structure LineEvidence where
  fileCreateMode : Option Str
  remoteInputType : Option Str

/-- The line that `inspect_line` looks at: without its comment and the blanks around, in lower case. -/
def normal (line : Str) : Str := lower (trim (stripInlineComment false false line))

/-- The type of remote input that `inspect_line` notes last. -/
def remoteInputType (lower : Str) : Option Str :=
  if isMatch lower "^%$modload%s+imtcp%s*$" then some "$ModLoad imtcp"
  else if isMatch lower "^%$inputtcpserverrun%s+%S+" then some "$InputTCPServerRun"
  else if isMatch lower "^input%s*%(" ∧ parseNamedArg lower "type" = some "imtcp".toList then
    some "input(type=\"imtcp\")"
  else if isMatch lower "^module%s*%(" ∧ parseNamedArg lower "load" = some "imtcp".toList then
    some "module(load=\"imtcp\")"
  else none

/-- `inspect_line`. -/
def inspectLine (line : Str) : LineEvidence :=
  let lower := normal line
  if lower = [] then ⟨none, none⟩
  else ⟨firstCapture lower "^%$filecreatemode%s+([^%s]+)", remoteInputType lower⟩

/-! ## The probe -/

/-- A detail about a mode. -/
structure FileCreateMode where
  path : Str
  line : Nat
  value : Str
  mode : Option Nat
  configured : Bool

/-- A detail about remote input. -/
structure RemoteInput where
  path : Str
  line : Nat
  type : Str

/-- What `inspect_files` returns. -/
structure Evidence where
  fileCreateModeDetails : List FileCreateMode
  fileCreateModeViolationCount : Nat
  remoteInputDetails : List RemoteInput

/-- The table that the probe returns. -/
structure Report where
  available : Bool
  error : Option Err
  checkedCount : Nat
  checks : List Str
  fileCreateModeFound : Bool
  fileCreateModeOk : Bool
  fileCreateModeViolationCount : Nat
  fileCreateModeDetails : List FileCreateMode
  remoteInputEnabled : Bool
  remoteInputCount : Nat
  remoteInputDetails : List RemoteInput
  allConfigured : Bool
  details : List Str

/-- `unavailable_result`. -/
def unavailableResult (err : Err) (checkedCount : Nat) : Report :=
  ⟨false, some err, checkedCount, [], false, false, 0, [], false, 0, [], false, []⟩

/-- The parameters. -/
structure Params where
  paths : Option (List Str)
  requireFileCreateModeMax : Value
  disallowRemoteInput : Bool

/-- What the lines of a file show, with their numbers. -/
def fileEvidence (view : View) (path : Str) : Except Err (List (Str × Nat × LineEvidence)) :=
  match view.lines path with
  | .error err => .error ("Could not open rsyslog config '" ++ path ++ "': " ++ err)
  | .ok lines => .ok ((lines.zipIdx 1).map fun l => (path, l.2, inspectLine l.1))

/-- The detail about a mode on a line. -/
def fileCreateModeDetail (maxFileMode : Option Nat) (shown : Str × Nat × LineEvidence) : Option FileCreateMode :=
  shown.2.2.fileCreateMode.map fun value =>
    let mode := parseOctalMode (.str value)
    let configured := maxFileMode.any fun max => mode.any fun mode => modeIsNoMorePermissive (.num mode) (.num max)
    ⟨shown.1, shown.2.1, value, mode, configured⟩

/-- `inspect_files`. -/
def inspectFiles (view : View) (files : List Str) (params : Params) : Except Err Evidence := do
  let shown := (← files.mapM (fileEvidence view)).flatten
  let modes := shown.filterMap (fileCreateModeDetail (parseOctalMode params.requireFileCreateModeMax))
  let inputs := shown.filterMap fun s => s.2.2.remoteInputType.map (RemoteInput.mk s.1 s.2.1)
  return ⟨modes, (modes.filter fun m => !m.configured).length, inputs⟩

/-- `expand_config_paths`. -/
def expandConfigPaths (view : View) (paths : Option (List Str)) : Except Err (List Str) := do
  return sortStrs (← view.expandFiles (paths.getD ["/etc/rsyslog.conf", "/etc/rsyslog.d/*.conf"]))

/-- `inspect_rsyslog_effective_config`. -/
def inspectRsyslogEffectiveConfig (view : View) (params : Params) : Except Err Report := do
  let files ← expandConfigPaths view params.paths
  if files = [] then return unavailableResult "No rsyslog configuration files were available." 0
  else match inspectFiles view files params with
    | .error err => return unavailableResult err files.length
    | .ok evidence =>
      let fileCreateModeFound := !evidence.fileCreateModeDetails.isEmpty
      let requireMode := !params.requireFileCreateModeMax.isNil
      let fileCreateModeOk := !requireMode || (fileCreateModeFound && evidence.fileCreateModeViolationCount == 0)
      let remoteInputEnabled := !evidence.remoteInputDetails.isEmpty
      return {
        available := true
        error := none
        checkedCount := files.length
        checks := (if requireMode then ["file_create_mode".toList] else []) ++
          if params.disallowRemoteInput then ["remote_input".toList] else []
        fileCreateModeFound
        fileCreateModeOk
        fileCreateModeViolationCount := evidence.fileCreateModeViolationCount
        fileCreateModeDetails := evidence.fileCreateModeDetails
        remoteInputEnabled
        remoteInputCount := evidence.remoteInputDetails.length
        remoteInputDetails := evidence.remoteInputDetails
        allConfigured := fileCreateModeOk && !(params.disallowRemoteInput && remoteInputEnabled)
        details := files }

/-! ## What a pattern asks for -/

section Match

variable {is : List Pattern.Item} {s : Str}

theorem match_spelling (w : Str) : (matchRest ((spelling w).map (.single · .one) ++ is) s []).isSome = true ↔
    ∃ r, s = w ++ r ∧ (matchRest is r []).isSome = true := by
  rw [matchRest_spells (spells_spelling w)]
  constructor
  · intro h
    split at h
    · next hpre =>
      obtain ⟨r, rfl⟩ := hpre
      rw [List.drop_left] at h
      exact ⟨r, rfl, h⟩
    · cases h
  · rintro ⟨r, rfl, h⟩
    rw [if_pos (List.prefix_append w r), List.drop_left]
    exact h

/-- `%s*`. -/
theorem of_match_blankStar (h : (matchRest (.single blank .star :: is) s []).isSome = true) :
    ∃ b r, s = b ++ r ∧ (∀ x ∈ b, isspace x = true) ∧ (matchRest is r []).isSome = true := by
  obtain ⟨p, hp⟩ := Option.isSome_iff_exists.mp h
  obtain ⟨b, r, rfl, hb, hr⟩ := longest_split hp
  exact ⟨b, r, rfl, hb, by rw [hr]; rfl⟩

/-- `%s+`, with no blank behind it. -/
theorem match_blankPlus (his : ∀ x r, isspace x = true → matchRest is (x :: r) [] = none) :
    (matchRest (.single blank .plus :: is) s []).isSome = true ↔
      ∃ b r, s = b ++ r ∧ b ≠ [] ∧ (∀ x ∈ b, isspace x = true) ∧ (matchRest is r []).isSome = true := by
  cases s with
  | nil =>
    refine iff_of_false (fun h => by cases h) ?_
    rintro ⟨b, r, hb, hne, -⟩
    exact hne (List.append_eq_nil_iff.mp hb.symm).1
  | cons x s =>
    rw [matchRest, @longest_eq blank _ (fun r => matchRest is r []) his]
    by_cases hx : blank.test x = true
    · rw [if_pos hx]
      constructor
      · intro h
        refine ⟨x :: s.takeWhile isspace, s.dropWhile isspace, ?_, List.cons_ne_nil _ _, ?_, h⟩
        · rw [List.cons_append, List.takeWhile_append_dropWhile]
        · intro y hy
          rcases List.mem_cons.mp hy with rfl | hy
          · exact hx
          · exact List.mem_takeWhile_imp hy
      · rintro ⟨b, r, hs, hne, hb, h⟩
        obtain ⟨y, b, rfl⟩ := List.exists_cons_of_ne_nil hne
        obtain ⟨rfl, rfl⟩ := List.cons.inj hs
        have hdrop : (b ++ r).dropWhile isspace = r := by
          rw [List.dropWhile_append_of_pos fun z hz => hb z (List.mem_cons_of_mem _ hz)]
          cases r with
          | nil => rfl
          | cons z r =>
            rw [List.dropWhile_cons, if_neg]
            intro hz
            rw [his z r hz] at h
            cases h
        show (matchRest is ((b ++ r).dropWhile isspace) []).isSome = true
        rw [hdrop]
        exact h
    · refine iff_of_false (by rw [if_neg hx]; exact Bool.false_ne_true) ?_
      rintro ⟨b, r, hs, hne, hb, -⟩
      obtain ⟨y, b, rfl⟩ := List.exists_cons_of_ne_nil hne
      obtain ⟨rfl, -⟩ := List.cons.inj hs
      exact hx (hb x List.mem_cons_self)

end Match

/-- Blanks, to the end. -/
theorem match_blanks_end {s : Str} : (matchRest [.single blank .star, .atEnd] s []).isSome = true ↔
    ∀ x ∈ s, isspace x = true := by
  rw [matchRest_blanks_end]
  by_cases h : s.all isspace = true
  · rw [if_pos h]
    exact iff_of_true rfl (List.all_eq_true.mp h)
  · rw [if_neg h]
    exact iff_of_false Bool.false_ne_true fun hall => h (List.all_eq_true.mpr hall)

/-- A character that is no blank. -/
theorem match_nonBlank {s : Str} : (matchRest [.single nonBlank .plus] s []).isSome = true ↔
    ∃ x r, s = x :: r ∧ isspace x = false := by
  cases s with
  | nil => exact iff_of_false (fun h => by cases h) fun ⟨x, r, h, _⟩ => by cases h
  | cons x r =>
    by_cases hx : isspace x = true
    · have htest : ¬nonBlank.test x = true := by rw [nonBlank_test, hx]; exact Bool.false_ne_true
      rw [matchRest, if_neg htest]
      refine iff_of_false Bool.false_ne_true ?_
      rintro ⟨y, r', h, hy⟩
      obtain ⟨rfl, -⟩ := List.cons.inj h
      rw [hx] at hy
      cases hy
    · have htest : nonBlank.test x = true := by rw [nonBlank_test, Bool.eq_false_iff.mpr hx]; rfl
      rw [matchRest_run r htest]
      exact iff_of_true rfl ⟨x, r, rfl, Bool.eq_false_iff.mpr hx⟩

/-! ## Directives -/

theorem compile_modload : compile "%$modload%s+imtcp%s*$" = (spelling "$modload").map (.single · .one) ++
    (.single blank .plus :: ((spelling "imtcp").map (.single · .one) ++ [.single blank .star, .atEnd])) := rfl

theorem isMatch_modload {s : Str} (hs : ∀ x, s.head? = some x → isspace x = false) :
    isMatch s "^%$modload%s+imtcp%s*$" = true ↔ words nonBlank s = ["$modload".toList, "imtcp".toList] := by
  have hmatch : isMatch s "^%$modload%s+imtcp%s*$" = _ := isMatch_anchored rfl compile_modload rfl
  have hno : ∀ x r, isspace x = true →
      matchRest ((spelling "imtcp").map (.single · .one) ++ [.single blank .star, .atEnd]) (x :: r) [] = none := by
    intro x r hx
    rw [matchRest_spells (spells_spelling _), if_neg]
    intro hpre
    obtain ⟨rfl, -⟩ := List.cons_prefix_cons.mp hpre
    exact absurd hx (by decide)
  rw [hmatch, match_spelling]
  simp only [match_blankPlus hno, match_spelling, match_blanks_end]
  rw [words_eq_cons_iff]
  simp only [words_eq_cons_iff, words_eq_nil_iff]
  constructor
  · rintro ⟨_, rfl, b, _, rfl, hne, hb, b', rfl, hb'⟩
    refine ⟨[], _, rfl, fun x hx => absurd hx List.not_mem_nil, by decide, isspace_of_all rfl, ?_, b, b', rfl, hb,
      by decide, isspace_of_all rfl, fun x hx => hb' x (List.mem_of_mem_head? hx), hb'⟩
    obtain ⟨y, b, rfl⟩ := List.exists_cons_of_ne_nil hne
    intro x hx
    obtain rfl := Option.some.inj hx
    exact hb _ List.mem_cons_self
  · rintro ⟨b, r, rfl, hb, -, -, hr, b', r', rfl, hb', -, -, -, hend⟩
    have hnil : b = [] := by
      cases b with
      | nil => rfl
      | cons x b =>
        have hx := hs x rfl
        rw [hb x List.mem_cons_self] at hx
        cases hx
    subst hnil
    refine ⟨_, rfl, b', _, rfl, ?_, hb', r', rfl, hend⟩
    rintro rfl
    exact absurd (hr 'i' rfl) (by decide)

theorem compile_inputtcpserverrun : compile "%$inputtcpserverrun%s+%S+" =
    (spelling "$inputtcpserverrun").map (.single · .one) ++ [.single blank .plus, .single nonBlank .plus] := rfl

theorem isMatch_inputtcpserverrun {s : Str} (hs : ∀ x, s.head? = some x → isspace x = false) :
    isMatch s "^%$inputtcpserverrun%s+%S+" = true ↔
      ∃ port rest, words nonBlank s = "$inputtcpserverrun".toList :: port :: rest := by
  have hmatch : isMatch s "^%$inputtcpserverrun%s+%S+" = _ := isMatch_anchored rfl compile_inputtcpserverrun rfl
  have hno : ∀ x r, isspace x = true → matchRest [.single nonBlank .plus] (x :: r) [] = none := by
    intro x r hx
    rw [matchRest, if_neg (by rw [nonBlank_test, hx]; exact Bool.false_ne_true)]
  rw [hmatch, match_spelling]
  simp only [match_blankPlus hno, match_nonBlank]
  constructor
  · rintro ⟨_, rfl, b, _, rfl, hne, hb, x, r, rfl, hx⟩
    obtain ⟨port, rest, hwords⟩ : ∃ port rest, words nonBlank (x :: r) = port :: rest :=
      ⟨_, _, words_cons r (by rw [nonBlank_test, hx]; rfl)⟩
    refine ⟨port, rest, words_eq_cons_iff.mpr ⟨[], _, rfl, fun x hx => absurd hx List.not_mem_nil, by decide,
      isspace_of_all rfl, ?_, ?_⟩⟩
    · obtain ⟨y, b, rfl⟩ := List.exists_cons_of_ne_nil hne
      intro z hz
      obtain rfl := Option.some.inj hz
      exact hb _ List.mem_cons_self
    · rw [words_blanks _ hb, hwords]
  · rintro ⟨port, rest, hwords⟩
    obtain ⟨b, r, rfl, hb, -, -, hr, hrest⟩ := words_eq_cons_iff.mp hwords
    obtain ⟨b', r', rfl, hb', hne, hport, -, -⟩ := words_eq_cons_iff.mp hrest
    have hnil : b = [] := by
      cases b with
      | nil => rfl
      | cons x b =>
        have hx := hs x rfl
        rw [hb x List.mem_cons_self] at hx
        cases hx
    subst hnil
    obtain ⟨y, p, rfl⟩ := List.exists_cons_of_ne_nil hne
    refine ⟨_, rfl, b', _, rfl, ?_, hb', y, p ++ r', rfl, hport y List.mem_cons_self⟩
    rintro rfl
    have hy := hr y rfl
    rw [hport y List.mem_cons_self] at hy
    cases hy

/-! ## The verdict -/

/-- What the probe reports about remote input, without the numbers of the lines. -/
structure Verdict where
  available : Bool
  remoteInputEnabled : Bool
  remoteInputCount : Nat
  remoteInputs : List (Str × Str)
  deriving DecidableEq

def Report.verdict (report : Report) : Verdict where
  available := report.available
  remoteInputEnabled := report.remoteInputEnabled
  remoteInputCount := report.remoteInputCount
  remoteInputs := report.remoteInputDetails.map fun input => (input.path, input.type)

/-- The remote inputs that a file shows. -/
def fileInputs (view : View) (path : Str) : Option (List (Str × Str)) :=
  (view.lines path).toOption.map fun lines => lines.filterMap fun line =>
    (inspectLine line).remoteInputType.map (Prod.mk path)

/-- The verdict on what the files show, if all can be read. -/
def verdictOf (inputs : Option (List (Str × Str))) : Verdict :=
  inputs.elim ⟨false, false, 0, []⟩ fun inputs => ⟨true, !inputs.isEmpty, inputs.length, inputs⟩

/-- What the files show. -/
def shownInputs (view : View) (files : List Str) : Option (List (Str × Str)) :=
  if files = [] then none else (files.mapM (fileInputs view)).map List.flatten

theorem mapM_toOption {α β γ ε : Type} {f : α → Except ε β} {g : α → Option γ} {h : β → γ}
    (hfg : ∀ x, g x = (f x).toOption.map h) (l : List α) : l.mapM g = (l.mapM f).toOption.map (List.map h) := by
  induction l with
  | nil => rfl
  | cons x l ih =>
    rw [List.mapM_cons, List.mapM_cons, ih, hfg]
    cases f x with
    | error e => rfl
    | ok y =>
      cases l.mapM f with
      | error e => rfl
      | ok ys => rfl

/-- The remote inputs that lines show. -/
def inputsOf (shown : List (Str × Nat × LineEvidence)) : List (Str × Str) :=
  shown.filterMap fun s => s.2.2.remoteInputType.map (Prod.mk s.1)

theorem inputsOf_flatten (shown : List (List (Str × Nat × LineEvidence))) :
    inputsOf shown.flatten = (shown.map inputsOf).flatten := by
  unfold inputsOf
  rw [List.filterMap_flatten]

theorem fileInputs_eq (view : View) (path : Str) :
    fileInputs view path = (fileEvidence view path).toOption.map inputsOf := by
  unfold fileInputs fileEvidence
  cases view.lines path with
  | error err => rfl
  | ok lines =>
    have hzip : lines.filterMap (fun line => (inspectLine line).remoteInputType.map (Prod.mk path)) =
        inputsOf ((lines.zipIdx 1).map fun l => (path, l.2, inspectLine l.1)) := by
      conv_lhs => rw [← List.zipIdx_map_fst 1 lines]
      rw [inputsOf, List.filterMap_map, List.filterMap_map]
      rfl
    exact congrArg some hzip

/-- **What the probe reports about remote input**: what the lines of the files show. -/
theorem remote_verdict (view : View) (params : Params) :
    (inspectRsyslogEffectiveConfig view params).map Report.verdict =
    (expandConfigPaths view params.paths).map fun files => verdictOf (shownInputs view files) := by
  unfold inspectRsyslogEffectiveConfig
  cases expandConfigPaths view params.paths with
  | error err => rfl
  | ok files =>
    unfold shownInputs
    show Except.map Report.verdict (if files = [] then _ else _) =
      Except.ok (verdictOf (if files = [] then none else _))
    by_cases hnil : files = []
    · rw [if_pos hnil, if_pos hnil]
      rfl
    · rw [if_neg hnil, if_neg hnil, mapM_toOption (fileInputs_eq view) files]
      unfold inspectFiles
      cases files.mapM (fileEvidence view) with
      | error err => rfl
      | ok shown =>
        have hdetails : (shown.map inputsOf).flatten = (shown.flatten.filterMap fun s =>
            s.2.2.remoteInputType.map (RemoteInput.mk s.1 s.2.1)).map fun input => (input.path, input.type) := by
          rw [List.map_filterMap, ← inputsOf_flatten]
          refine congrArg (fun f => shown.flatten.filterMap f) (funext fun s => ?_)
          rw [Option.map_map]
          rfl
        show _ = Except.ok (Verdict.mk true (!(shown.map inputsOf).flatten.isEmpty) (shown.map inputsOf).flatten.length
          (shown.map inputsOf).flatten)
        rw [hdetails, List.length_map, List.isEmpty_map]
        rfl

end Rsyslog

end Seharden
