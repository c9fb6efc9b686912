import Loongshield.Lua.Fold
import Loongshield.Seharden.PathView

/-!
# `find_pattern` of `probes/file.lua`

The probe looks for a pattern in the lines of files. A pattern that begins with `(?i)` is to be found in any case; a
pattern with a `|` goes to `grep -E`, in another notation.

- `findPattern`: the probe, with `luaPatternToEre`, the translation for `grep`;
- `findPattern_lower`: what the search in any case gives depends on the lower case of the lines only;
- `found_any_case`: it finds what the search in one case finds, if the items of the pattern take in the lower case of a
  line what they took.
-/

namespace Seharden

open Lua Pattern

namespace FindPattern

/-! ## `lua_pattern_to_ere` -/

/-- The `map` of `lua_pattern_to_ere`. -/
def ereClass : Char → Option Str
  | 's' => some "[[:space:]]"
  | 'S' => some "[^[:space:]]"
  | 'd' => some "[0-9]"
  | 'D' => some "[^0-9]"
  | 'w' => some "[[:alnum:]_]"
  | 'W' => some "[^[:alnum:]_]"
  | 'a' => some "[[:alpha:]]"
  | 'A' => some "[^[:alpha:]]"
  | 'l' => some "[[:lower:]]"
  | 'u' => some "[[:upper:]]"
  | 'p' => some "[[:punct:]]"
  | _ => none

/-- `lua_pattern_to_ere`. -/
def luaPatternToEre : Str → Str
  | '%' :: '%' :: r => '%' :: luaPatternToEre r
  | '%' :: n :: r => (ereClass n).getD ['\\', n] ++ luaPatternToEre r
  | c :: r => c :: luaPatternToEre r
  | [] => []

/-! ## The two searches -/

/-- What `os.execute` returns: its first value and its third. -/
structure Exit where
  ok : Value
  code : Value

/-- `normalize_execute_exit_code`. -/
def normalizeExecuteExitCode (exit : Exit) : Option Rat :=
  match exit.ok, exit.code with
  | .bool true, _ => some 0
  | _, .num code => some code
  | .num ok, _ => if 0 < ok ∧ ok - (ok / 256).floor * 256 = 0 then some (ok / 256) else some ok
  | _, _ => none

section Probe

-- what the files are, and what the commands that are run give
variable (view : View) (execute : Str → Exit)

/-- `grep_match`. -/
def grepMatch (path pattern : Str) (isCaseInsensitive : Bool) : Except Str Bool :=
  let flags : Str := if isCaseInsensitive then "-i" else ""
  let cmd := "grep -E -q " ++ flags ++ " -- " ++ shellEscape (luaPatternToEre pattern) ++ " " ++ shellEscape path ++
    " 2>/dev/null"
  match normalizeExecuteExitCode (execute cmd) with
  | some 0 => .ok true
  | some 1 => .ok false
  | some 2 => .error ("grep -E failed for file '" ++ path ++ "' with pattern '" ++ pattern ++ "'")
  | some code => .error ("grep -E exited unexpectedly for file '" ++ path ++ "' with code: " ++
      (Value.num code).tostring)
  | none => .error ("grep -E exited unexpectedly for file '" ++ path ++ "' with code: nil")

/-- `line_to_check:match(pattern_to_match)`. -/
def matchLine (pattern : Str) (isCaseInsensitive : Bool) (line : Str) : Except Err Bool :=
  (strMatch (if isCaseInsensitive then lower line else line) pattern).map Option.isSome

/-- The loop over the lines of a file. -/
def matchLines (pattern : Str) (isCaseInsensitive : Bool) : List Str → Except Err Bool
  | [] => .ok false
  | line :: lines => do
    if ← matchLine pattern isCaseInsensitive line then return true
    else matchLines pattern isCaseInsensitive lines

/-- `lua_pattern_match`: a malformed pattern raises, and a file that cannot be opened is an error. -/
def luaPatternMatch (path pattern : Str) (isCaseInsensitive : Bool) : Except Err (Except Str Bool) :=
  match view.lines path with
  | .error err => .ok (.error ("Could not open file '" ++ path ++ "': " ++ err))
  | .ok lines => do
    let matched ← matchLines (if isCaseInsensitive then lower pattern else pattern) isCaseInsensitive lines
    return .ok matched

/-! ## The probe -/

/-- `parse_pattern_options`. -/
def parsePatternOptions (pattern : Str) : Str × Bool :=
  if pattern.take 4 = "(?i)".toList then (pattern.drop 4, true) else (pattern, false)

structure Params where
  paths : Option (List Str)
  pattern : Option Str

structure Report where
  found : Bool
  checkedCount : Nat
  deriving DecidableEq

/-- The loop of `find_pattern` over the files: whether one of them matches. -/
def searchFiles (pattern : Str) (isCaseInsensitive : Bool) : List Str → Except Err (Except Str Bool)
  | [] => .ok (.ok false)
  | path :: paths => do
    let matched ← if '|' ∈ pattern then .ok (grepMatch execute path pattern isCaseInsensitive)
      else luaPatternMatch view path pattern isCaseInsensitive
    match matched with
    | .error err => return .error err
    | .ok true => return .ok true
    | .ok false => searchFiles pattern isCaseInsensitive paths

/-- `find_pattern`. -/
def findPattern (params : Params) : Except Err (Except Str Report) :=
  match params.paths, params.pattern with
  | some paths, some pattern => do
    let (patternToMatch, isCaseInsensitive) := parsePatternOptions pattern
    let files ← view.expandFiles paths
    let found ← searchFiles view execute patternToMatch isCaseInsensitive files
    return found.map fun found => ⟨found, files.length⟩
  | _, _ => .ok (.error "Probe 'find_pattern' requires 'paths' and 'pattern' parameters.")

end Probe

/-! ## What the search in any case depends on -/

/-- The files are the same but for the case of letters in the lines. -/
structure SameButCase (view view' : View) : Prop where
  mode : view.mode = view'.mode
  names : view.names = view'.names
  lines : ∀ path, (view.lines path).map (List.map lower) = (view'.lines path).map (List.map lower)

theorem matchLines_lower {pattern : Str} : ∀ {lines lines' : List Str}, lines.map lower = lines'.map lower →
    matchLines pattern true lines = matchLines pattern true lines'
  | [], [], _ => rfl
  | [], _ :: _, h => absurd h (by simp)
  | _ :: _, [], h => absurd h (by simp)
  | line :: lines, line' :: lines', h => by
    rw [List.map_cons, List.map_cons, List.cons.injEq] at h
    have hline : matchLine pattern true line = matchLine pattern true line' := by
      unfold matchLine
      rw [if_pos rfl, if_pos rfl, h.1]
    rw [matchLines, matchLines, hline, matchLines_lower h.2]

section Case

variable {view view' : View} {execute : Str → Exit}

theorem luaPatternMatch_lower (h : SameButCase view view') (path pattern : Str) :
    luaPatternMatch view path pattern true = luaPatternMatch view' path pattern true := by
  have hlines := h.lines path
  unfold luaPatternMatch
  cases hv : view.lines path with
  | error err =>
    cases hv' : view'.lines path with
    | error err' =>
      rw [hv, hv'] at hlines
      cases hlines
      rfl
    | ok lines' =>
      rw [hv, hv'] at hlines
      cases hlines
  | ok lines =>
    cases hv' : view'.lines path with
    | error err' =>
      rw [hv, hv'] at hlines
      cases hlines
    | ok lines' =>
      rw [hv, hv'] at hlines
      dsimp only
      rw [matchLines_lower (Except.ok.inj hlines)]

theorem searchFiles_lower (h : SameButCase view view') {pattern : Str} (hbar : '|' ∉ pattern) : ∀ files : List Str,
    searchFiles view execute pattern true files = searchFiles view' execute pattern true files
  | [] => rfl
  | path :: files => by
    rw [searchFiles, searchFiles]
    simp only [if_neg hbar, luaPatternMatch_lower h path pattern, searchFiles_lower h hbar files]

theorem parse_insensitive (pattern : Str) : parsePatternOptions ("(?i)" ++ pattern) = (pattern, true) := rfl

/-- **The search in any case does not see the case of letters**, whatever the pattern. -/
theorem findPattern_lower (h : SameButCase view view') {pattern : Str} (hbar : '|' ∉ pattern) (paths : List Str) :
    findPattern view execute ⟨some paths, some ("(?i)" ++ pattern)⟩ =
      findPattern view' execute ⟨some paths, some ("(?i)" ++ pattern)⟩ := by
  unfold findPattern
  simp only [parse_insensitive, expandFiles_congr h.mode h.names, searchFiles_lower h hbar]

end Case

/-! ## What the search in any case finds -/

section Found

variable {view : View} {execute : Str → Exit} {pattern : Str}

/-- The lines that `find_pattern` reads have no end of line in them. -/
def HasLines (view : View) : Prop := ∀ path lines, view.lines path = .ok lines → ∀ line ∈ lines, '\n' ∉ line

/-- The probe reports that it has found the pattern. -/
def Found (view : View) (execute : Str → Exit) (paths : List Str) (pattern : Str) : Prop :=
  ∃ report, findPattern view execute ⟨some paths, some pattern⟩ = .ok (.ok report) ∧ report.found = true

theorem matchLine_of_some {ci : Bool} {line : Str} {vs : List Value}
    (h : strMatch (if ci then lower line else line) pattern = .ok (some vs)) :
      matchLine pattern ci line = .ok true := by
  rw [matchLine, h]
  rfl

theorem some_of_matchLine {ci : Bool} {line : Str} (h : matchLine pattern ci line = .ok true) :
    ∃ vs, strMatch (if ci then lower line else line) pattern = .ok (some vs) := by
  unfold matchLine at h
  cases hm : strMatch (if ci then lower line else line) pattern with
  | error e => rw [hm] at h; cases h
  | ok o =>
    rw [hm] at h
    cases o with
    | none => cases h
    | some vs => exact ⟨vs, rfl⟩

theorem matchLines_true {ci : Bool} : ∀ {lines : List Str}, matchLines pattern ci lines = .ok true →
    ∃ line ∈ lines, matchLine pattern ci line = .ok true
  | [], h => by cases h
  | line :: lines, h => by
    rw [matchLines] at h
    cases hline : matchLine pattern ci line with
    | error e => rw [hline] at h; cases h
    | ok b =>
      cases b with
      | true => exact ⟨line, List.mem_cons_self, hline⟩
      | false =>
        rw [hline] at h
        obtain ⟨line', hmem, hline'⟩ := @matchLines_true ci lines h
        exact ⟨line', List.mem_cons_of_mem _ hmem, hline'⟩

/-- A pattern whose items do not raise gives an answer for a file. -/
theorem matchLines_runs (hruns : Runs (compile (body pattern)) []) {ci : Bool} : ∀ lines : List Str,
    ∃ b, matchLines pattern ci lines = .ok b ∧ ((∃ line ∈ lines, matchLine pattern ci line = .ok true) → b = true)
  | [] => ⟨false, rfl, fun ⟨_, h, _⟩ => absurd h List.not_mem_nil⟩
  | line :: lines => by
    obtain ⟨o, ho, -⟩ := @strMatch_decides (if ci then lower line else line) pattern hruns
    obtain ⟨b, hb, hfound⟩ := matchLines_runs hruns lines
    have hline : matchLine pattern ci line = .ok o.isSome := by
      rw [matchLine, ho]
      rfl
    rw [matchLines, hline]
    cases ho' : o.isSome with
    | true => exact ⟨true, rfl, fun _ => rfl⟩
    | false =>
      refine ⟨b, hb, fun ⟨line', hmem, hm⟩ => ?_⟩
      rcases List.mem_cons.mp hmem with rfl | hmem
      · rw [hline, ho'] at hm
        cases hm
      · exact hfound ⟨line', hmem, hm⟩

/-- **Step.** In a file where the pattern is found, the lower-case pattern is found in the lower-case lines. -/
theorem matchLines_lower_found (hf : Folds pattern) (hruns : Runs (compile (body (lower pattern))) [])
    {lines : List Str} (hlines : ∀ line ∈ lines, '\n' ∉ line) (h : matchLines pattern false lines = .ok true) :
    matchLines (lower pattern) true lines = .ok true := by
  obtain ⟨line, hmem, hline⟩ := matchLines_true h
  obtain ⟨vs, hvs⟩ := strMatch_lower hf (hlines line hmem) (some_of_matchLine hline)
  obtain ⟨b, hb, hfound⟩ := @matchLines_runs (lower pattern) hruns true lines
  rw [hb, hfound ⟨line, hmem, matchLine_of_some hvs⟩]

theorem luaPatternMatch_open {path : Str} {lines : List Str} (hlines : view.lines path = .ok lines) (ci : Bool) :
    luaPatternMatch view path pattern ci = (matchLines (if ci then lower pattern else pattern) ci lines).map .ok := by
  unfold luaPatternMatch
  rw [hlines]
  dsimp only
  cases matchLines (if ci then lower pattern else pattern) ci lines <;> rfl

theorem luaPatternMatch_closed {path err : Str} (hlines : view.lines path = .error err) (ci : Bool) :
    luaPatternMatch view path pattern ci = .ok (.error ("Could not open file '" ++ path ++ "': " ++ err)) := by
  unfold luaPatternMatch
  rw [hlines]

theorem runs_of_found (hbar : '|' ∉ pattern) : ∀ {files : List Str},
    searchFiles view execute pattern false files = .ok (.ok true) → Runs (compile (body pattern)) []
  | [], h => by cases h
  | path :: files, h => by
    rw [searchFiles, if_neg hbar] at h
    cases hlines : view.lines path with
    | error err => rw [luaPatternMatch_closed hlines] at h; cases h
    | ok lines =>
      rw [luaPatternMatch_open hlines, if_neg Bool.false_ne_true] at h
      cases hm : matchLines pattern false lines with
      | error e => rw [hm] at h; cases h
      | ok b =>
        rw [hm] at h
        cases b with
        | true =>
          obtain ⟨line, -, hline⟩ := matchLines_true hm
          obtain ⟨vs, hvs⟩ := some_of_matchLine hline
          exact runs_of_strMatch hvs
        | false => exact @runs_of_found hbar files h

/-- **Run.** Over the files: what is found in one case is found in any case. -/
theorem searchFiles_found (hf : Folds pattern) (hbar : '|' ∉ pattern)
    (hruns : Runs (compile (body (lower pattern))) []) (hview : HasLines view) : ∀ {files : List Str},
      searchFiles view execute pattern false files = .ok (.ok true) →
        searchFiles view execute pattern true files = .ok (.ok true)
  | [], h => h
  | path :: files, h => by
    rw [searchFiles, if_neg hbar] at h ⊢
    cases hlines : view.lines path with
    | error err => rw [luaPatternMatch_closed hlines] at h; cases h
    | ok lines =>
      rw [luaPatternMatch_open hlines, if_neg Bool.false_ne_true] at h
      rw [luaPatternMatch_open hlines, if_pos rfl]
      cases hm : matchLines pattern false lines with
      | error e => rw [hm] at h; cases h
      | ok b =>
        rw [hm] at h
        cases b with
        | true =>
          rw [matchLines_lower_found hf hruns (hview path lines hlines) hm]
          rfl
        | false =>
          obtain ⟨b, hb, -⟩ := @matchLines_runs (lower pattern) hruns true lines
          rw [hb]
          cases b with
          | true => rfl
          | false => exact @searchFiles_found hf hbar hruns hview files h

/-- **What is found in one case is found in any case**, if the items of the pattern take in the lower case of a line
what they took. -/
theorem found_any_case (hbar : '|' ∉ pattern) (hopt : ¬"(?i)".toList <+: pattern) (hf : Folds pattern)
    (hview : HasLines view) {paths : List Str} (h : Found view execute paths pattern) :
    Found view execute paths ("(?i)" ++ pattern) := by
  have hplain : parsePatternOptions pattern = (pattern, false) := by
    unfold parsePatternOptions
    rw [if_neg]
    intro htake
    exact hopt (htake ▸ List.take_prefix 4 pattern)
  obtain ⟨report, hreport, hfound⟩ := h
  unfold findPattern at hreport
  simp only [hplain] at hreport
  cases hfiles : view.expandFiles paths with
  | error e => rw [hfiles] at hreport; cases hreport
  | ok files =>
    rw [hfiles] at hreport
    cases hsearch : searchFiles view execute pattern false files with
    | error e => simp [hsearch, bind, Except.bind] at hreport
    | ok r =>
      cases r with
      | error err => simp [hsearch, bind, Except.bind, pure, Except.pure, Except.map] at hreport
      | ok found =>
        simp only [hsearch, bind, Except.bind, pure, Except.pure, Except.map, Except.ok.injEq] at hreport
        subst hreport
        obtain rfl : found = true := hfound
        have hruns := runs_of_found hbar hsearch
        have hruns' : Runs (compile (body (lower pattern))) [] := by
          rw [compile_body_lower hf]
          exact runs_lower hruns
        refine ⟨⟨true, files.length⟩, ?_, rfl⟩
        unfold findPattern
        simp only [parse_insensitive, hfiles, bind, Except.bind,
          searchFiles_found hf hbar hruns' hview hsearch, pure, Except.pure, Except.map]

end Found

/-! ## One file with one line -/

/-- There is one file, with one line. -/
def lineView (line : Str) : View where
  mode path := if path = "/f".toList then some "file".toList else none
  names _ := .error "cannot open"
  lines _ := .ok [line]

theorem expandFiles_lineView (line : Str) : (lineView line).expandFiles ["/f"] = .ok ["/f".toList] := by
  have hwild : hasWildcard "/f" = false := by decide +kernel
  have hfile : pathExistsAsFile (lineView line) "/f" = true := by
    unfold pathExistsAsFile lineView
    dsimp only
    rw [if_pos rfl]
    decide
  have hne : "/f".toList ≠ [] := by decide
  unfold View.expandFiles
  rw [View.expandSpecs, if_neg hne, hwild, if_neg Bool.false_ne_true]
  simp only [bind, Except.bind, List.filter_cons, hfile, if_pos, List.filter_nil, List.foldl_cons, List.foldl_nil]
  rfl

theorem hasLines_lineView {line : Str} (h : '\n' ∉ line) : HasLines (lineView line) := by
  intro path lines hlines line' hmem
  cases hlines
  rw [List.mem_singleton.mp hmem]
  exact h

theorem found_lineView {execute : Str → Exit} {line pattern : Str} (hbar : '|' ∉ (parsePatternOptions pattern).1) :
    Found (lineView line) execute ["/f"] pattern ↔
      ∃ vs, strMatch (if (parsePatternOptions pattern).2 then lower line else line)
        (if (parsePatternOptions pattern).2 then lower (parsePatternOptions pattern).1
          else (parsePatternOptions pattern).1) = .ok (some vs) := by
  unfold Found findPattern
  dsimp only
  rw [expandFiles_lineView]
  generalize (parsePatternOptions pattern).1 = p at hbar ⊢
  generalize (parsePatternOptions pattern).2 = ci
  have hlines : (lineView line).lines "/f" = .ok [line] := rfl
  simp only [bind, Except.bind, searchFiles, if_neg hbar, luaPatternMatch_open hlines, matchLines, matchLine]
  generalize strMatch _ _ = r
  cases r with
  | error e => simp [Except.map]
  | ok o =>
    cases o with
    | none => simp [Except.map, pure, Except.pure]
    | some vs => simp [Except.map, pure, Except.pure]

/-! ## Searching in any case -/

/-- The search in any case finds what the search in one case finds, and does not see the case of letters. -/
structure AnyCase (execute : Str → Exit) (pattern : Str) : Prop where
  finds : ∀ (view : View) (paths : List Str), HasLines view → Found view execute paths pattern →
    Found view execute paths ("(?i)" ++ pattern)
  blind : ∀ (view view' : View) (paths : List Str), SameButCase view view' →
    findPattern view execute ⟨some paths, some ("(?i)" ++ pattern)⟩ =
      findPattern view' execute ⟨some paths, some ("(?i)" ++ pattern)⟩

/-- A pattern whose items are single characters does not begin with an option. -/
theorem not_option_of_items {pattern : Str} {cs : List (Single × Quant)} {atEnd : Bool}
    (hp : compile (body pattern) = itemsOf cs atEnd) : ¬"(?i)".toList <+: pattern := by
  rintro ⟨r, rfl⟩
  have hread : readItem ("(?i)".toList ++ r) = (.capOpen, some ("?i)".toList ++ r)) := rfl
  have hbody : body ("(?i)".toList ++ r) = "(?i)".toList ++ r := rfl
  have hcons := compile_cons hread (List.cons_ne_nil _ _)
  have hmem : .capOpen ∈ itemsOf cs atEnd := by
    rw [← hp, hbody, hcons]
    exact List.mem_cons_self
  rcases mem_itemsOf hmem with ⟨c, -, h⟩ | h <;> cases h

/-- **The search in any case** finds what the search in one case finds if the pattern has no option of its own and its
items take in the lower case of a line what they took; where every item takes a character, only if. -/
theorem any_case (execute : Str → Exit) {pattern : Str} (hbar : '|' ∉ pattern) :
    (¬"(?i)".toList <+: pattern → Folds pattern → AnyCase execute pattern) ∧
      ∀ (cs : List (Single × Quant)) (atEnd : Bool), compile (body pattern) = itemsOf cs atEnd → Solid cs →
        (AnyCase execute pattern ↔ Folds pattern) := by
  have hif : ¬"(?i)".toList <+: pattern → Folds pattern → AnyCase execute pattern := fun hopt hf =>
    { finds := fun view paths hview h => found_any_case hbar hopt hf hview h
      blind := fun view view' paths h => findPattern_lower h hbar paths }
  refine ⟨hif, fun cs atEnd hp hs => ⟨fun h => ?_, hif (not_option_of_items hp)⟩⟩
  refine folds_of_strMatch hs hp fun t ht hmatch => ?_
  have hplain : parsePatternOptions pattern = (pattern, false) := by
    unfold parsePatternOptions
    rw [if_neg]
    exact fun htake => not_option_of_items hp (htake ▸ List.take_prefix 4 pattern)
  have hfound := h.finds (lineView t) ["/f"] (hasLines_lineView ht)
    ((found_lineView (by rw [hplain]; exact hbar)).mpr (by rw [hplain]; exact hmatch))
  exact (found_lineView (by rw [parse_insensitive]; exact hbar)).mp hfound

/-- A line of `sshd_config`, in any case. -/
theorem any_case_port : AnyCase (fun _ => ⟨.bool true, .num 0⟩) "^Port 22$" := by
  refine (any_case (fun _ => ⟨.bool true, .num 0⟩) (by decide)).1 (by decide) ?_
  have hitems : compile (body "^Port 22$") =
      "Port 22".toList.map (fun a => .single (.lit a) .one) ++ [.atEnd] := rfl
  intro i hi
  rw [hitems] at hi
  rcases List.mem_append.mp hi with hi | hi
  · obtain ⟨a, -, rfl⟩ := List.mem_map.mp hi
    exact folds_lit a
  · rw [List.mem_singleton.mp hi]
    trivial

/-- In lower case, the characters that are no blanks become the blanks: the search in any case does not find `%S` in a
line where the search in one case does. -/
theorem any_case_nonblank : ¬∀ (execute : Str → Exit) (pattern : Str), '|' ∉ pattern → AnyCase execute pattern := by
  intro h
  have hfound : Found (lineView "x") (fun _ => ⟨.bool true, .num 0⟩) ["/f"] "%S" :=
    (found_lineView (by decide)).mpr ⟨[.str "x"], rfl⟩
  have hany := (h (fun _ => ⟨.bool true, .num 0⟩) "%S" (by decide)).finds (lineView "x") ["/f"]
    (hasLines_lineView (by decide)) hfound
  obtain ⟨vs, hvs⟩ := (found_lineView (by decide)).mp hany
  have hnone : strMatch (lower "x") (lower "%S") = .ok none := rfl
  have hsame : strMatch (lower "x") (lower "%S") = .ok (some vs) := hvs
  rw [hnone] at hsame
  cases hsame

end FindPattern
end Seharden
