import Loongshield.Seharden.ConfigPaths
import Loongshield.Seharden.KeyValueEdit
import Loongshield.Seharden.Reliable
import Loongshield.Seharden.ShellEscape
import Loongshield.Seharden.SysctlEnforcer

/-!
# Setting a sysctl value and reading it

`enforcers/sysctl.lua` writes a value below `/proc/sys` and keeps it in a drop-in file. `probes/sysctl.lua` reads the
value there, and in all the files that are read at boot, of which the last assignment counts.

- `getLiveValue`, `getPersistentValue`, `getEffectiveValue`: the probe;
- `strMatch_assignment`: the lines that the enforcer takes for assignments;
- `editSysctl_eq`, `reading_newLine`: the file after an edit, and what the probe reads in the new line;
- `sysctl_set_read`: what the probe reports after `set_value`.
-/

namespace Seharden
namespace Sysctl

open Lua Pattern KeyValueFile

/-! ## The probe -/

/-- `sysctl_keys.normalize`, of a text. -/
def normalizeName (key : Str) : Str := substitute (substitute key "^%-" []) "/" "."

/-- The options of `parse_sysctl_assignment`. -/
def options : Options where
  normalizeKey := some normalizeName
  lowerValues := false
  section_ := none
  allowWhitespaceAssignment := false

/-- `parse_sysctl_assignment`. -/
def parseSysctlAssignment (line : Str) : Option (Str × Str) :=
  match parseLine options line with
  | some (.entry key value) => some (key, value)
  | _ => none

/-- The directories of `effective_sysctl_files`. -/
def defaultDirs : List Str :=
  ["/etc/sysctl.d".toList, "/run/sysctl.d".toList, "/usr/local/lib/sysctl.d".toList, "/usr/lib/sysctl.d".toList,
    "/lib/sysctl.d".toList]

/-- What `get_live_value` returns. -/
structure LiveValue where
  available : Bool
  path : Str
  value : Option Str
  error : Option Str

/-- What `get_persistent_value` returns. -/
structure PersistentValue where
  found : Bool
  value : Option Str
  source : Option Str

/-- What `get_effective_value` returns. -/
structure EffectiveValue where
  value : Option Str
  liveAvailable : Bool
  liveValue : Option Str
  liveError : Option Str
  persistentFound : Bool
  persistentValue : Option Str
  source : Option Str

section Probe

variable (view : View) (procfsRoot : Str) (key : Value) (sysctlDDirs : Option (List Str)) (sysctlConf : Option Str)

/-- `effective_sysctl_files`. -/
def effectiveSysctlFiles : Except Err (List Str) := do
  let files ← sortedUniqueFiles view (sysctlDDirs.getD defaultDirs) none (some "%.conf$")
  let sysctlConf := sysctlConf.getD "/etc/sysctl.conf"
  return if view.mode sysctlConf = some "file".toList then files ++ [sysctlConf] else files

/-- `get_live_value`. -/
def getLiveValue : Except Err (Except Str LiveValue) := do
  if !key.truthy then return .error "Probe 'sysctl.get_live_value' requires a 'key' parameter."
  else
    match ← validateSysctlKey key with
    | none => return .error "Invalid key"
    | some valid =>
      let path ← procfsPath valid procfsRoot
      match view.lines path with
      | .error err =>
        let message := "Could not read sysctl key '" ++ key.tostring ++ "' from path '" ++ path ++ "': " ++ err
        return .ok ⟨false, path, none, some message⟩
      | .ok lines => return .ok ⟨true, path, lines.head?, none⟩

/-- The lines of a file in the loop of `get_persistent_value`. -/
def readAssignments (targetKey path : Str) (result : PersistentValue) (lines : List Str) : PersistentValue :=
  lines.foldl (fun result line => match parseSysctlAssignment line with
    | some (key, value) => if key = targetKey then ⟨true, some value, some path⟩ else result
    | none => result) result

/-- The loop of `get_persistent_value` over the files. -/
def persistentLoop (targetKey : Str) : List Str → PersistentValue → Except Str PersistentValue
  | [], result => .ok result
  | path :: paths, result => match view.lines path with
    | .error err => .error ("Could not open sysctl configuration '" ++ path ++ "': " ++ err)
    | .ok lines => persistentLoop targetKey paths (readAssignments targetKey path result lines)

/-- `get_persistent_value`. -/
def getPersistentValue : Except Err (Except Str PersistentValue) := do
  if !key.truthy then return .error "Probe 'sysctl.get_persistent_value' requires a 'key' parameter."
  else
    match ← validateSysctlKey key with
    | none => return .error "Invalid key"
    | some targetKey =>
      let files ← effectiveSysctlFiles view sysctlDDirs sysctlConf
      return persistentLoop view targetKey files ⟨false, none, none⟩

/-- `get_effective_value`. -/
def getEffectiveValue : Except Err (Except Str EffectiveValue) := do
  if !key.truthy then return .error "Probe 'sysctl.get_effective_value' requires a 'key' parameter."
  else
    match ← getLiveValue view procfsRoot key with
    | .error err => return .error err
    | .ok live =>
      match ← getPersistentValue view key sysctlDDirs sysctlConf with
      | .error err => return .error err
      | .ok persistent =>
        let value := if live.available && persistent.found && live.value == persistent.value then live.value else none
        return .ok ⟨value, live.available, live.value, live.error, persistent.found, persistent.value,
          persistent.source⟩

end Probe

/-! ## The last assignment -/

/-- The value that a line gives to a key. -/
def reading (key line : Str) : Option Str :=
  (parseSysctlAssignment line).bind fun kv => if kv.1 = key then some kv.2 else none

/-- What a file gives to a key, in order. -/
def readings (key : Str) (lines : List Str) : List Str := lines.filterMap (reading key)

theorem readAssignments_value (key path : Str) (lines : List Str) (result : PersistentValue) :
    (readAssignments key path result lines).value = (readings key lines).getLast?.or result.value := by
  induction lines generalizing result with
  | nil => rfl
  | cons line lines ih =>
    rw [readAssignments, List.foldl_cons, readings, List.filterMap_cons, reading]
    cases parseSysctlAssignment line with
    | none => exact ih result
    | some kv =>
      dsimp only [Option.bind]
      by_cases hkey : kv.1 = key
      · rw [if_pos hkey, if_pos hkey]
        dsimp only
        rw [List.getLast?_cons]
        refine (ih _).trans ?_
        rw [readings]
        cases (lines.filterMap (reading key)).getLast? <;> rfl
      · rw [if_neg hkey, if_neg hkey]
        exact ih result

theorem readAssignments_found (key path : Str) (lines : List Str) {result : PersistentValue}
    (h : result.found = result.value.isSome) :
    (readAssignments key path result lines).found = (readAssignments key path result lines).value.isSome := by
  induction lines generalizing result with
  | nil => exact h
  | cons line lines ih =>
    rw [readAssignments, List.foldl_cons]
    refine ih ?_
    cases parseSysctlAssignment line with
    | none => exact h
    | some kv =>
      dsimp only
      split
      · rfl
      · exact h

/-- **The last assignment of all files counts.** -/
theorem persistentLoop_eq {view : View} {contents : Str → List Str} (key : Str) :
    ∀ {files : List Str} {result : PersistentValue},
    (∀ p ∈ files, view.lines p = .ok (contents p)) → result.found = result.value.isSome →
    ∃ result', persistentLoop view key files result = .ok result' ∧ result'.found = result'.value.isSome ∧
      result'.value = (files.flatMap fun p => readings key (contents p)).getLast?.or result.value
  | [], result, _, hfound => ⟨result, rfl, hfound, rfl⟩
  | p :: files, result, hopen, hfound => by
    obtain ⟨result', hloop, hfound', hvalue⟩ := persistentLoop_eq key (fun q hq => hopen q (List.mem_cons_of_mem p hq))
      (readAssignments_found key p (contents p) hfound)
    refine ⟨result', ?_, hfound', ?_⟩
    · rw [persistentLoop, hopen p List.mem_cons_self]
      exact hloop
    · rw [hvalue, readAssignments_value, List.flatMap_cons, List.getLast?_append, Option.or_assoc]

/-! ## The lines that the enforcer replaces -/

/-- `[%w_.]`. -/
def nameClass : Single := .set false [.cls 'w', .lit '_', .lit '.']

/-- The key of an assignment, as the enforcer spells it. -/
def plainKey (line : Str) : Option Str :=
  let t := line.dropWhile isspace
  if t.takeWhile nameClass.test ≠ [] ∧ ((t.dropWhile nameClass.test).dropWhile isspace).head? = some '=' then
    some (t.takeWhile nameClass.test)
  else none

/-- The items of `%s*([%w_.]+)%s*=`. -/
def assignmentItems : List Pattern.Item :=
  [.single blank .star, .capOpen, .single nameClass .plus, .capClose, .single blank .star, .single (.lit '=') .one]

theorem compile_assignment : compile "%s*([%w_.]+)%s*=" = assignmentItems := rfl

theorem nameClass_spec {x : Char} (hx : nameClass.test x = true) : isspace x = false ∧ x ≠ '=' ∧ x ≠ '#' := by
  refine ⟨?_, ?_, ?_⟩
  · by_contra hspace
    rcases isspace_cases (Bool.not_eq_false _ ▸ hspace) with rfl | rfl | rfl | rfl | rfl | rfl <;>
      exact absurd hx (by decide)
  · rintro rfl
    exact absurd hx (by decide)
  · rintro rfl
    exact absurd hx (by decide)

theorem matchRest_equals (r : Str) (segs : List Seg) : matchRest [.single blank .star, .single (.lit '=') .one] r segs =
    if (r.dropWhile isspace).head? = some '=' then some ((r.dropWhile isspace).tail, segs) else none := by
  have hlit : ∀ x r, blank.test x = true → matchRest [.single (.lit '=') .one] (x :: r) segs = none := by
    intro x r hx
    rw [matchRest, if_neg]
    intro h
    obtain rfl : '=' = x := beq_iff_eq.mp h
    exact absurd hx (by decide)
  have hlong := @longest_eq blank _ (fun r => matchRest [.single (.lit '=') .one] r segs) hlit r
  rw [matchRest, hlong]
  change matchRest _ (r.dropWhile isspace) segs = _
  cases r.dropWhile isspace with
  | nil => rfl
  | cons x t =>
    rw [matchRest, Single.test, List.head?_cons]
    by_cases hx : x = '='
    · rw [hx]
      rfl
    · rw [if_neg (by simpa using fun h : '=' = x => hx h.symm), if_neg fun h => hx (Option.some.inj h)]

theorem strMatch_assignment (line : Str) : strMatch line "^%s*([%w_.]+)%s*=" =
    .ok ((plainKey line).map fun k => [.str k]) := by
  have hname : ∀ x r segs, nameClass.test x = true →
      matchRest [.single blank .star, .single (.lit '=') .one] (x :: r) segs = none := by
    intro x r segs hx
    obtain ⟨hspace, heq, -⟩ := nameClass_spec hx
    rw [matchRest_equals, List.dropWhile_cons_of_neg (by rw [hspace]; exact Bool.false_ne_true), if_neg]
    exact fun h => heq (Option.some.inj h)
  have hfirst : ∀ x r, blank.test x = true → matchRest (.capOpen :: .single nameClass .plus :: .capClose ::
      [.single blank .star, .single (.lit '=') .one]) (x :: r) [] = none := by
    intro x r hx
    have hno : nameClass.test x ≠ true := fun h => absurd ((nameClass_spec h).1.symm.trans hx) Bool.false_ne_true
    rw [matchRest_capRun hname, List.takeWhile_cons_of_neg hno, if_pos rfl]
  have hlong := @longest_eq blank _ (fun r => matchRest (.capOpen :: .single nameClass .plus :: .capClose ::
    [.single blank .star, .single (.lit '=') .one]) r []) hfirst line
  have hmatch : strMatch line "^%s*([%w_.]+)%s*=" =
      .ok ((matchRest assignmentItems line []).map fun p => (texts line p.1 p.2).map .str) :=
    strMatch_anchored rfl compile_assignment rfl line
  rw [hmatch, assignmentItems, matchRest, hlong, plainKey]
  change Except.ok (Option.map _ (matchRest _ (line.dropWhile isspace) [])) = _
  generalize line.dropWhile isspace = t
  rw [matchRest_capRun hname, matchRest_equals]
  by_cases hne : t.takeWhile nameClass.test = []
  · rw [if_pos hne, if_neg fun h => h.1 hne]
    rfl
  · rw [if_neg hne]
    by_cases heq : ((t.dropWhile nameClass.test).dropWhile isspace).head? = some '='
    · rw [if_pos heq, if_pos ⟨hne, heq⟩]
      simp [texts, Seg.text, take_length_takeWhile]
    · rw [if_neg heq, if_neg fun h => heq h.2]
      rfl

/-! ## The edit -/

/-- The line that is written. -/
def newLine (key value : Str) : Str := key ++ " = " ++ value

/-- The enforcer takes the line for an assignment of the key. -/
def isPlain (key line : Str) : Bool := plainKey line == some key

/-- The lines after an edit. -/
def written (key value : Str) (lines : List Str) : List Str :=
  if lines.any (isPlain key) then lines.map fun line => if isPlain key line then newLine key value else line
  else lines ++ [newLine key value]

/-- Where there is no assignment of the key, none is replaced. -/
theorem map_unplain {key new : Str} {lines : List Str} (h : ¬lines.any (isPlain key) = true) :
    lines.map (fun line => if isPlain key line then new else line) = lines :=
  (List.map_congr_left fun line hline => if_neg fun hplain => h (List.any_eq_true.mpr ⟨line, hline, hplain⟩)).trans
    (List.map_id lines)

theorem persistLoop_eq (key new : Str) : ∀ (lines acc : List Str) (updated : Bool),
    persistLoop key new lines (acc, updated) =
    .ok (acc ++ lines.map (fun line => if isPlain key line then new else line), updated || lines.any (isPlain key))
  | [], acc, updated => by simp [persistLoop]
  | line :: lines, acc, updated => by
    rw [persistLoop, strMatch_assignment, List.map_cons, List.any_cons, isPlain]
    cases plainKey line with
    | none =>
      have hnone : ((none : Option Str) == some key) = false := rfl
      rw [hnone, if_neg Bool.false_ne_true, Bool.false_or]
      change persistLoop key new lines (acc ++ [line], updated) = _
      rw [persistLoop_eq key new lines, List.append_assoc]
      rfl
    | some k =>
      change (if Value.rawEq (.str k) (.str key) = true then _ else _) = _
      have hraw : Value.rawEq (.str k) (.str key) = (some k == some key) := by
        rw [Bool.eq_iff_iff, Value.rawEq_str, beq_iff_eq, Value.str.injEq, Option.some.injEq]
      rw [hraw]
      cases (some k == some key) with
      | true =>
        rw [if_pos rfl, if_pos rfl, persistLoop_eq key new lines, List.append_assoc, Bool.true_or, Bool.or_true]
        rfl
      | false =>
        rw [if_neg Bool.false_ne_true, if_neg Bool.false_ne_true, persistLoop_eq key new lines, List.append_assoc,
          Bool.false_or]
        rfl

/-- **The file after an edit.** -/
theorem editSysctl_eq (key value : Str) (lines : List Str) :
    editSysctl key value lines = .ok (some (written key value lines)) := by
  have hloop := persistLoop_eq key (newLine key value) lines [] false
  unfold editSysctl
  change (persistLoop key (newLine key value) lines ([], false) >>= _) = _
  rw [hloop, List.nil_append, Bool.false_or, written]
  change Except.ok (some (if lines.any (isPlain key) = true then _ else _)) = _
  by_cases hany : lines.any (isPlain key) = true
  · rw [if_pos hany, if_pos hany]
  · rw [if_neg hany, if_neg hany, map_unplain hany]
    rfl

/-- What the file gives to the key behind the last line that the enforcer takes for an assignment of it. -/
def behind (key : Str) (lines : List Str) : List Str :=
  if lines.any (isPlain key) then readings key (lines.rtakeWhile fun line => !isPlain key line) else []

/-- **The last assignment in the file** is the new one, or stands behind it. -/
theorem readings_written {key value : Str} (h : reading key (newLine key value) = some value) (lines : List Str) :
    (readings key (written key value lines)).getLast? = some ((behind key lines).getLast?.getD value) := by
  rw [written, behind]
  by_cases hany : lines.any (isPlain key) = true
  · rw [if_pos hany, if_pos hany]
    induction lines using List.reverseRecOn with
    | nil => cases hany
    | append_singleton lines line ih =>
      rw [List.map_append, List.map_singleton, readings, List.filterMap_append]
      by_cases hline : isPlain key line = true
      · rw [if_pos hline, List.rtakeWhile_concat_neg _ _ _ (by simp [hline]), List.filterMap_cons_some h]
        simp [readings]
      · have hany : lines.any (isPlain key) = true := by simpa [hline] using hany
        rw [if_neg hline, List.rtakeWhile_concat_pos _ _ _ (by simp [hline]), readings, List.filterMap_append]
        have ih := ih hany
        rw [readings, readings] at ih
        cases hread : reading key line with
        | none => rw [List.filterMap_cons_none hread, List.filterMap_nil, List.append_nil, List.append_nil, ih]
        | some v => simp [List.filterMap_cons_some hread]
  · rw [if_neg hany, if_neg hany, readings, List.filterMap_append, List.filterMap_cons_some h]
    simp

/-! ## Keys and values -/

/-- `[a-zA-Z0-9_.]`. -/
def keyClass : Single := .set false [.range 'a' 'z', .range 'A' 'Z', .range '0' '9', .lit '_', .lit '.']

/-- A key as `validate` gives it. -/
structure IsName (key : Str) : Prop where
  nonempty : key ≠ []
  chars : ∀ x ∈ key, keyClass.test x = true

theorem IsName.of_validate {v : Value} {key : Str} (h : validateSysctlKey v = .ok (some key)) : IsName key := by
  unfold validateSysctlKey at h
  cases hnormal : normalizeSysctlKey v with
  | error e =>
    rw [hnormal] at h
    cases h
  | ok normalized =>
    rw [hnormal] at h
    change (isValidSysctlKey normalized >>= _) = _ at h
    cases hvalid : isValidSysctlKey normalized with
    | error e =>
      rw [hvalid] at h
      cases h
    | ok valid =>
      rw [hvalid] at h
      change Except.ok (if valid = true then some normalized else none) = _ at h
      cases valid with
      | false => cases h
      | true =>
        cases h
        unfold isValidSysctlKey at hvalid
        cases hword : strMatch key "^[a-zA-Z0-9_.]+$" with
        | error e =>
          rw [hword] at hvalid
          cases hvalid
        | ok m =>
          rw [hword] at hvalid
          cases hdots : strMatch key "%.%." with
          | error e =>
            rw [hdots] at hvalid
            cases hvalid
          | ok d =>
            rw [hdots] at hvalid
            have hboth : (m.isSome && d.isNone) = true := Except.ok.inj hvalid
            obtain ⟨m', rfl⟩ := Option.isSome_iff_exists.mp (Bool.and_eq_true_iff.mp hboth).1
            obtain ⟨hne, hall⟩ := (@strMatch_whole keyClass _ rfl key).mp ⟨m', hword⟩
            exact ⟨hne, hall⟩

theorem IsName.not_mem {key : Str} (h : IsName key) {x : Char} (hx : keyClass.test x = false) : x ∉ key := fun hmem =>
  Bool.false_ne_true (hx.symm.trans (h.chars x hmem))

theorem IsName.isKey {key : Str} (h : IsName key) : IsKey key := by
  refine ⟨h.nonempty, fun x hx => ⟨?_, ?_, ?_⟩⟩
  · by_contra hspace
    rcases isspace_cases (Bool.not_eq_false _ ▸ hspace) with rfl | rfl | rfl | rfl | rfl | rfl <;>
      exact h.not_mem (by decide) hx
  · rintro rfl
    exact h.not_mem (by decide) hx
  · rintro rfl
    exact h.not_mem (by decide) hx

/-- The spelling of `validate` is not changed again. -/
theorem IsName.normalizeName {key : Str} (h : IsName key) : normalizeName key = key := by
  have hdash : substitute key "^%-" [] = key := by
    have hgsub : gsub key "^%-" (fun _ => []) =
        .ok (((matchRest [.single (.cls '-') .one] key []).map fun p => [] ++ p.1).getD key) :=
      gsub_anchored rfl rfl rfl (fun _ => []) key
    unfold substitute
    rw [hgsub]
    obtain ⟨x, w, rfl⟩ := List.exists_cons_of_ne_nil h.nonempty
    have hx : '-' ≠ x := fun heq => @IsName.not_mem _ h '-' (by decide) (heq ▸ List.mem_cons_self)
    rw [matchRest, cls_test_magic (by decide), if_neg (by simpa using hx)]
    rfl
  have hslash : substitute key "/" "." = key := by
    have hgsub : gsub key "/" (fun _ => ".") = .ok (key.flatMap fun x => if (Single.lit '/').test x then ['.']
      else [x]) := by
      exact (gsub_eq (by decide) rfl rfl (fun _ => ".") key).trans (congrArg _ (gsubRest_single (Nat.lt_succ_self _)))
    have hsame : key.flatMap (fun x => if (Single.lit '/').test x then ['.'] else [x]) = key.flatMap fun x => [x] := by
      refine List.flatMap_congr fun x hx => if_neg fun htest => ?_
      obtain rfl : '/' = x := beq_iff_eq.mp htest
      exact h.not_mem (by decide) hx
    unfold substitute
    rw [hgsub, hsame]
    exact List.flatMap_singleton' key
  rw [Sysctl.normalizeName, hdash, hslash]

/-- The path of a valid key. -/
theorem procfsPath_eq (key root : Str) :
    procfsPath key root = .ok (root ++ "/" ++ key.flatMap fun x => if x = '.' then ['/'] else [x]) := by
  have hgsub : gsub key "%." (fun _ => "/") = .ok (key.flatMap fun x => if x = '.' then ['/'] else [x]) := by
    have hchars : (key.flatMap fun x => if x = '.' then ['/'] else [x]) =
        key.flatMap fun x => if (Single.cls '.').test x then ['/'] else [x] := by
      refine List.flatMap_congr fun x _ => ?_
      rw [cls_test_magic (by decide)]
      by_cases hx : x = '.'
      · rw [if_pos hx, if_pos (by simp [hx])]
      · rw [if_neg hx, if_neg (by simpa using fun h : '.' = x => hx h.symm)]
    rw [hchars]
    exact (gsub_eq (by decide) rfl rfl (fun _ => "/") key).trans (congrArg _ (gsubRest_single (Nat.lt_succ_self _)))
  unfold procfsPath
  rw [hgsub]
  rfl

/-- A value that the probe reads as it was written. -/
structure PlainValue (value : Str) : Prop where
  trimmed : Trimmed value
  newline : '\n' ∉ value
  comment : '#' ∉ value
  quotes : value.head? ≠ some '"' ∧ value.getLast? ≠ some '"'

theorem unquote_plain {value : Str} (h : value.head? ≠ some '"' ∧ value.getLast? ≠ some '"') :
    unquote value = value := by
  unfold unquote
  rw [if_neg h.1]
  dsimp only
  rw [if_neg h.2]

/-- **The probe reads the new line.** -/
theorem reading_newLine {key value : Str} (hkey : IsName key) (hvalue : PlainValue value) :
    reading key (newLine key value) = some value := by
  have hcomment : '#' ∉ newLine key value := by
    intro hmem
    simp only [newLine, List.mem_append] at hmem
    rcases hmem with (hmem | hmem) | hmem
    · exact hkey.not_mem (by decide) hmem
    · exact absurd hmem (by decide)
    · exact hvalue.comment hmem
  have hstrip : stripInlineComment (newLine key value) = newLine key value := by
    have h := stripLoop_append hcomment false none []
    rwa [List.append_nil, stripLoop, List.append_nil] at h
  obtain ⟨y, hy, hends, hhead, htail⟩ : ∃ y, (" = " ++ value).rdropWhile isspace = y ∧ EndsKey y ∧
      (y.dropWhile isspace).head? = some '=' ∧ trim (y.dropWhile isspace).tail = value := by
    by_cases hnil : value = []
    · subst hnil
      refine ⟨" =", by decide, fun x hx => .inl ?_, rfl, by decide +kernel⟩
      obtain rfl : ' ' = x := Option.some.inj hx
      rfl
    · have hself : value.rdropWhile isspace = value := by
        rw [List.rdropWhile_eq_self_iff]
        intro hne
        rw [hvalue.trimmed.2 _ (List.getLast?_eq_some_getLast hne)]
        exact Bool.false_ne_true
      refine ⟨" = " ++ value, ?_, fun x hx => .inl ?_, rfl, ?_⟩
      · rw [rdropWhile_append_of_ne (by rwa [hself]), hself]
      · obtain rfl : ' ' = x := Option.some.inj hx
        rfl
      · have hblank : ∀ x ∈ [' '], isspace x = true := fun x hx => by
          rw [List.mem_singleton.mp hx]
          rfl
        exact (trim_blanks_append hblank value).trans (trim_of_trimmed hvalue.trimmed)
  have hline : trim (stripInlineComment (newLine key value)) = key ++ y := by
    rw [hstrip, newLine, List.append_assoc, ← hy]
    exact @trim_key _ hkey.isKey [] (fun _ hx => absurd hx List.not_mem_nil) _
  have hparse : parseLine options (newLine key value) = some (.entry key value) := by
    rw [parseLine_eq]
    dsimp only
    rw [hline, equalsSplit_key hkey.isKey hends, if_pos hhead, htail]
    obtain ⟨x, w, rfl⟩ := List.exists_cons_of_ne_nil hkey.nonempty
    have hbracket : '[' ≠ x := fun h => @IsName.not_mem _ hkey '[' (by decide) (h ▸ List.mem_cons_self)
    have hhash : ¬(x :: w ++ y = [] ∨ (x :: w ++ y).head? = some '#') := by
      rintro (h | h)
      · cases h
      · exact (hkey.isKey.chars x List.mem_cons_self).2.2 (Option.some.inj h)
    rw [if_neg hhash, List.cons_append, headerName_of_ne hbracket]
    change some (Parsed.entry (normalizeName (x :: w)) (normalizeValue false value)) = _
    rw [hkey.normalizeName, normalizeValue_eq, unquote_plain hvalue.quotes]
  rw [reading, parseSysctlAssignment, hparse]
  exact if_pos rfl

theorem keyClass_le {x : Char} (hx : keyClass.test x = true) : nameClass.test x = true := by
  have hkey : ((decide ('a' ≤ x) && decide (x ≤ 'z')) || ((decide ('A' ≤ x) && decide (x ≤ 'Z')) ||
      ((decide ('0' ≤ x) && decide (x ≤ '9')) || ('_' == x || ('.' == x || false))))) = true :=
        (Bool.bne_false _).symm.trans hx
  have hname : nameClass.test x = (isalnum x || ('_' == x || ('.' == x || false))) := Bool.bne_false _
  rw [hname, isalnum, isalpha, isdigit]
  simp only [Bool.or_eq_true, Bool.and_eq_true, decide_eq_true_eq] at hkey ⊢
  tauto

/-- The enforcer takes the new line for an assignment of the key. -/
theorem isPlain_newLine {key : Str} (hkey : IsName key) (value : Str) : isPlain key (newLine key value) = true := by
  obtain ⟨htake, hdrop⟩ := @takeWhile_key key nameClass.test (fun x hx => keyClass_le (hkey.chars x hx))
    (" = " ++ value)
    fun x hx => by rw [← Option.some.inj hx]; decide
  have hstart : (newLine key value).dropWhile isspace = key ++ (" = " ++ value) := by
    obtain ⟨x, w, rfl⟩ := List.exists_cons_of_ne_nil hkey.nonempty
    rw [newLine, List.append_assoc]
    exact List.dropWhile_cons_of_neg (by rw [(hkey.isKey.chars x List.mem_cons_self).1]; exact Bool.false_ne_true)
  rw [isPlain, plainKey, hstart, htake, hdrop, if_pos ⟨hkey.nonempty, rfl⟩, beq_self_eq_true]

/-- Another edit changes nothing. -/
theorem written_again {key : Str} (hkey : IsName key) (value : Str) (lines : List Str) :
    written key value (written key value lines) = written key value lines := by
  have hnew := isPlain_newLine hkey value
  by_cases hany : lines.any (isPlain key) = true
  · obtain ⟨line, hline, hplain⟩ := List.any_eq_true.mp hany
    have hlines : written key value lines = lines.map fun line => if isPlain key line then newLine key value
      else line :=
      if_pos hany
    have hany' : (written key value lines).any (isPlain key) = true := by
      rw [hlines]
      exact List.any_eq_true.mpr ⟨newLine key value, List.mem_map.mpr ⟨line, hline, if_pos hplain⟩, hnew⟩
    rw [written, if_pos hany', hlines, List.map_map]
    refine List.map_congr_left fun line _ => ?_
    by_cases hplain : isPlain key line = true
    · rw [Function.comp_apply, if_pos hplain, if_pos hnew]
    · rw [Function.comp_apply, if_neg hplain, if_neg hplain]
  · have hlines : written key value lines = lines ++ [newLine key value] := if_neg hany
    have hany' : (written key value lines).any (isPlain key) = true := by
      rw [hlines]
      exact List.any_eq_true.mpr ⟨newLine key value, by simp, hnew⟩
    rw [written, if_pos hany', hlines, List.map_append, map_unplain hany, List.map_singleton, if_pos hnew]

/-! ## What is on the disk -/

/-- `DEFAULT_SYSCTL_CONF`. -/
def conf : Str := "/etc/sysctl.d/99-loongshield.conf"

/-- The file of a key below `/proc/sys`. -/
def procFile (key : Str) : Str := "/proc/sys/" ++ key.flatMap fun x => if x = '.' then ['/'] else [x]

theorem procfsPath_default (key : Str) : procfsPath key "/proc/sys" = .ok (procFile key) :=
    procfsPath_eq key "/proc/sys"

theorem dot_not_mem_procFile (key : Str) : '.' ∉ procFile key := by
  intro hmem
  rcases List.mem_append.mp hmem with hmem | hmem
  · exact absurd hmem (by decide)
  · obtain ⟨x, -, hx⟩ := List.mem_flatMap.mp hmem
    by_cases hdot : x = '.'
    · rw [if_pos hdot] at hx
      exact absurd hx (by decide)
    · rw [if_neg hdot, List.mem_singleton] at hx
      exact hdot hx.symm

theorem ne_procFile {p : Str} (hp : '.' ∈ p) (key : Str) :
    p ≠ procFile key := fun h => dot_not_mem_procFile key (h ▸ hp)

theorem conf_ne_procFile (key : Str) : conf ≠ procFile key := ne_procFile (by decide) key

theorem not_isTmp_procFile (env : Env) (key : Str) : ¬env.IsTmp (procFile key) := by
  rintro ⟨target, k, h⟩
  refine dot_not_mem_procFile key ?_
  rw [h, tmpPath]
  simp

theorem not_isTmp_conf (env : Env) : ¬env.IsTmp conf := by
  rintro ⟨target, k, h⟩
  have hinfix : "/.".toList <:+: conf := by
    rw [h, tmpPath]
    exact ⟨(splitPath target).1, (splitPath target).2 ++ ".loongshield.tmp." ++ env.nonce k, by simp⟩
  exact absurd hinfix (by decide)

section Disk

variable {env : Env} (henv : env.Reliable) {s s' : Sys} {key value : Str}

include henv

/-- The write of the live value changes no other file. -/
theorem applyLive_reliable (path value : Str) (s : Sys) : ∃ s₁, applyLive env path value s = (.ok none, s₁) ∧
    ∀ q, q ≠ path → s₁.disk q = s.disk q := by
  have hopen : ioOpenWrite env path s = (.ok (.ok ()), s.tick.create env path) := call_done (henv s.clock).1
  unfold applyLive
  rw [Act.bind_of_ok hopen]
  dsimp only
  obtain ⟨r, hwrite⟩ : ∃ r : Ret, fileWrite env path (value ++ "\n") (s.tick.create env path) =
      (.ok r, (s.tick.create env path).tick.append path (value ++ "\n")) := by
    unfold fileWrite
    rw [Act.step_apply, (henv _).2]
    dsimp only
    split <;> exact ⟨_, rfl⟩
  rw [Act.bind_of_ok hwrite]
  have hclose : fileClose env path ((s.tick.create env path).tick.append path (value ++ "\n")) =
      (.ok (.ok ()), ((s.tick.create env path).tick.append path (value ++ "\n")).tick) := call_done (henv _).1
  rw [Act.bind_of_ok hclose]
  refine ⟨_, rfl, fun q hq => ?_⟩
  change ((s.tick.create env path).tick.append path (value ++ "\n")).disk q = _
  rw [Sys.append, Sys.put_disk_of_ne _ _ _ hq, Sys.tick_disk, Sys.create, Sys.put_disk_of_ne _ _ _ hq]
  rfl

/-- **The drop-in file after a run**, and the others. -/
theorem persistSysctl_reliable (hfresh : env.Fresh s) (hkey : '\n' ∉ key) (hvalue : '\n' ∉ value)
    (h : persistSysctl env defaultSysctlPaths key value s = (.ok (.ok ()), s')) : (s'.disk conf).isSome = true ∧
      s'.linesAt conf = written key value (s.linesAt conf) ∧ ∀ q, q ≠ conf → s'.disk q = s.disk q := by
  obtain ⟨link, s₁, hlink, h⟩ := Act.of_bind_ok h
  obtain rfl : s.tick = s₁ := by
    rw [isSymlink_apply] at hlink
    exact (Prod.mk.inj hlink).2
  cases link with
  | true => cases h
  | false =>
    obtain ⟨k, hread⟩ := openedLines_reliable henv conf s.tick
    rw [if_neg Bool.false_ne_true] at h
    change (openedLines env conf >>= _) s.tick = _ at h
    rw [Act.bind_of_ok hread, editSysctl_eq, Act.lift_ok_bind_apply] at h
    have hlines : Lines (written key value (s.linesAt conf)) := by
      have hnew : '\n' ∉ newLine key value := by
        intro hmem
        simp only [newLine, List.mem_append] at hmem
        rcases hmem with (hmem | hmem) | hmem
        · exact hkey hmem
        · exact absurd hmem (by decide)
        · exact hvalue hmem
      intro line hline
      unfold written at hline
      split at hline
      · obtain ⟨old, hold, rfl⟩ := List.mem_map.mp hline
        split
        · exact hnew
        · exact lines_linesAt s conf old hold
      · rcases List.mem_append.mp hline with hline | hline
        · exact lines_linesAt s conf line hline
        · rw [List.mem_singleton.mp hline]
          exact hnew
    change writeLinesAtomically env conf (written key value (s.linesAt conf)) "sysctl.set_value" _ = _ at h
    obtain ⟨hsome, hlinesAt⟩ := writeLinesAtomically_reliable henv hlines h
    have hothers : ∀ q, q ≠ conf → s'.disk q = ({ s.tick with clock := k } : Sys).disk q := fun q hq =>
      replacement_others (fun q hq => hfresh q hq) hq h
    exact ⟨hsome, hlinesAt, hothers⟩

/-- **The disk after `set_value`.** -/
theorem sysctlSetValue_reliable {params : Value} (hfresh : env.Fresh s)
    (hkey : validateSysctlKey (params.field "key") = .ok (some key)) (htext : (params.field "value").tostring = value)
    (hvalue : '\n' ∉ value) (h : sysctlSetValue env defaultSysctlPaths params s = (.ok (.ok ()), s')) :
    (s'.disk conf).isSome = true ∧ s'.linesAt conf = written key value (s.linesAt conf) ∧
      ∀ q, q ≠ conf → q ≠ procFile key → s'.disk q = s.disk q := by
  have hname := IsName.of_validate hkey
  unfold sysctlSetValue at h
  split at h
  · cases h
  · rw [hkey, Act.lift_ok_bind_apply] at h
    dsimp only at h
    rw [procfsPath_eq, Act.lift_ok_bind_apply, htext] at h
    obtain ⟨s₁, hlive, hothers⟩ := applyLive_reliable henv (procFile key) value s
    change (applyLive env (procFile key) value >>= _) s = _ at h
    rw [Act.bind_of_ok hlive] at h
    obtain ⟨r, s₂, hpersist, h⟩ := Act.of_bind_ok h
    cases r with
    | error err => cases h
    | ok u =>
      cases h
      have hfresh₁ : env.Fresh s₁ := fun q hq => by
        rw [hothers q fun heq => not_isTmp_procFile env key (heq ▸ hq)]
        exact hfresh q hq
      obtain ⟨hsome, hlines, hrest⟩ := persistSysctl_reliable henv hfresh₁ (hname.not_mem (by decide)) hvalue hpersist
      have hold : s₁.linesAt conf = s.linesAt conf := by
        unfold Sys.linesAt
        rw [hothers conf (conf_ne_procFile key)]
      rw [hold] at hlines
      exact ⟨hsome, hlines, fun q hq hq' => (hrest q hq).trans (hothers q hq')⟩

end Disk

/-! ## What the probe reports -/

theorem nameMatches_conf (name : Str) : ∃ b, nameMatches (some "%.conf$") name = .ok b := by
  have hmatch : strMatch name "%.conf$" = .ok ((findRest [.single (.cls '.') .one, .single (.lit 'c') .one,
      .single (.lit 'o') .one, .single (.lit 'n') .one, .single (.lit 'f') .one, .atEnd] name).map
        fun p => (texts p.1 p.2.1 p.2.2).map .str) := strMatch_search (by decide) rfl rfl name
  unfold nameMatches
  dsimp only
  rw [hmatch]
  exact ⟨_, rfl⟩

/-- A path of a file that is read after the drop-in file. -/
def ReadLater (p : Str) : Prop :=
  p = "/etc/sysctl.conf".toList ∨ ∃ dir name, p = dir ++ "/" ++ name ∧ "99-loongshield.conf".toList < name

/-- The kernel's files. -/
def below : Str := "/proc/sys/".toList

/-- What a probe sees of the disk, where `live` is what the kernel gives for its files. -/
def probed (s : Sys) (dirs : Dirs) (live : Str → Except Str (List Str)) : View :=
  { s.view dirs with lines := fun p => if below <+: p then live p else (s.view dirs).lines p }

/-- No configuration file is one of the kernel's. -/
theorem not_below {d : Str} (hd : d ∈ defaultDirs.map (joinLeaf · none)) (r : Str) : ¬below <+: d ++ r := by
  have hall : ∀ d ∈ defaultDirs.map (joinLeaf · none), ¬"/p".toList <+: d ∧ 2 ≤ d.length := by decide
  intro h
  have hp : "/p".toList <+: d ++ r := List.IsPrefix.trans (by decide) h
  exact (hall d hd).1 (List.prefix_of_prefix_length_le hp (List.prefix_append d r) (hall d hd).2)

section Files

variable {s : Sys} {dirs : Dirs} {live : Str → Except Str (List Str)} {names : List Str}

theorem isSome_of_mode {p : Str} (h : (s.view dirs).mode p = some "file".toList) : (s.disk p).isSome = true := by
  unfold Sys.view at h
  dsimp only at h
  split at h
  · next hsome => exact hsome
  · cases hdirs : dirs p with
    | none =>
      rw [hdirs] at h
      cases h
    | some names =>
      rw [hdirs] at h
      exact absurd (Option.some.inj h) (show "directory".toList ≠ "file".toList by decide)

theorem lines_of_isSome {p : Str} (h : (s.disk p).isSome = true) : (s.view dirs).lines p = .ok (s.linesAt p) := by
  unfold Sys.view Sys.linesAt
  obtain ⟨file, hfile⟩ := Option.isSome_iff_exists.mp h
  dsimp only
  rw [hfile]
  rfl

/-- **The files that are read**: the drop-in file is among them, and only files with a name behind its own come
later. -/
theorem effectiveSysctlFiles_spec (hdir : s.disk "/etc/sysctl.d" = none) (hnames : dirs "/etc/sysctl.d" = some names)
    (hmem : "99-loongshield.conf".toList ∈ names) (hconf : (s.disk conf).isSome = true) :
    ∃ earlier later, effectiveSysctlFiles (probed s dirs live) none none = .ok (earlier ++ conf :: later) ∧
      (∀ p ∈ earlier ++ conf :: later, (s.disk p).isSome = true ∧ ¬below <+: p) ∧ ∀ p ∈ later, ReadLater p := by
  have hread : ∀ d ∈ defaultDirs.map (joinLeaf · none), (probed s dirs live).mode d = some "directory".toList →
      ∃ names, (probed s dirs live).names d = .ok names := by
    intro d _ hmode
    unfold probed Sys.view at hmode ⊢
    dsimp only at hmode ⊢
    split at hmode
    · exact absurd (Option.some.inj hmode) (by decide)
    · cases hd : dirs d with
      | none =>
        rw [hd] at hmode
        cases hmode
      | some names => exact ⟨names, rfl⟩
  obtain ⟨files, hfiles⟩ := sortedUniqueFiles_total nameMatches_conf hread
  obtain ⟨selected, dirOf, hsorted, rfl, hchosen, hall⟩ := (sortedUniqueFiles_selects hfiles).exists_names
  have hfirst : FirstWith (Offers (probed s dirs live) (some "%.conf$") "99-loongshield.conf".toList)
      (defaultDirs.map (joinLeaf · none)) "/etc/sysctl.d".toList := by
    refine ⟨[], _, rfl, fun _ hd => absurd hd List.not_mem_nil,
      ⟨⟨?_, names, ?_, hmem⟩, ⟨by decide, by decide, by decide +kernel⟩, ?_⟩⟩
    · unfold probed Sys.view
      dsimp only
      rw [hdir, hnames]
      rfl
    · unfold probed Sys.view
      dsimp only
      rw [hnames]
    · unfold IsRegular probed Sys.view
      exact if_pos hconf
  obtain ⟨before, after, rfl⟩ := List.append_of_mem (hall _ _ hfirst)
  have hdirOf : dirOf "99-loongshield.conf".toList = "/etc/sysctl.d".toList :=
    (hchosen "99-loongshield.conf".toList (by simp)).unique hfirst
  have hpath : dirOf "99-loongshield.conf".toList ++ "/" ++ "99-loongshield.conf" = conf := by
    rw [hdirOf]
    rfl
  have hlater : ∀ p ∈ after.map (fun name => dirOf name ++ "/" ++ name), ReadLater p := by
    intro p hp
    obtain ⟨name, hname, rfl⟩ := List.mem_map.mp hp
    exact .inr ⟨dirOf name, name, rfl, (List.pairwise_cons.mp (List.pairwise_append.mp hsorted).2.1).1 name hname⟩
  have hregular : ∀ p ∈ (before ++ "99-loongshield.conf".toList :: after).map (fun name => dirOf name ++ "/" ++ name),
      (s.disk p).isSome = true ∧ ¬below <+: p := by
    intro p hp
    obtain ⟨name, hname, rfl⟩ := List.mem_map.mp hp
    refine ⟨isSome_of_mode (hchosen name hname).mem.2.2.2, ?_⟩
    rw [List.append_assoc]
    exact not_below (hchosen name hname).mem.1 _
  rw [List.map_append, List.map_cons, hpath] at hfiles hregular
  refine ⟨before.map (fun name => dirOf name ++ "/" ++ name),
    if (probed s dirs live).mode "/etc/sysctl.conf" = some "file".toList then
      after.map (fun name => dirOf name ++ "/" ++ name) ++ ["/etc/sysctl.conf".toList]
    else after.map fun name => dirOf name ++ "/" ++ name, ?_, ?_, ?_⟩
  · unfold effectiveSysctlFiles
    change (sortedUniqueFiles (probed s dirs live) defaultDirs none (some "%.conf$") >>= _) = _
    rw [hfiles]
    change Except.ok (if (probed s dirs live).mode "/etc/sysctl.conf" = some "file".toList then _ else _) = _
    split <;> simp
  · split
    · next hmode =>
      intro p hp
      rw [← List.cons_append, ← List.append_assoc] at hp
      rcases List.mem_append.mp hp with hp | hp
      · exact hregular p hp
      · rw [List.mem_singleton.mp hp]
        exact ⟨isSome_of_mode hmode, by decide⟩
    · exact hregular
  · split
    · intro p hp
      rcases List.mem_append.mp hp with hp | hp
      · exact hlater p hp
      · exact .inl (List.mem_singleton.mp hp)
    · exact hlater

end Files

/-- **What the probe reports after `set_value`.** The live value is what the kernel gives back. The persistent value is
the last of what the drop-in file gives to the key behind the line that was written, and of what the files read later
give to it; if that is nothing, it is the new value. So the probe reports the new value exactly if the kernel gives it
back and that last one is the new value already. Other files do not change, and another run leaves the drop-in file as
it is. -/
theorem sysctl_set_read {env : Env} (henv : env.Reliable) {params : Value} {dirs : Dirs}
    (live : Str → Except Str (List Str)) {names : List Str} {s s' : Sys} {key value : Str} (hfresh : env.Fresh s)
      (hkey : validateSysctlKey (params.field "key") = .ok (some key))
    (htext : (params.field "value").tostring = value) (hvalue : PlainValue value) (hdir : s.disk "/etc/sysctl.d" = none)
    (hnames : dirs "/etc/sysctl.d" = some names) (hmem : "99-loongshield.conf".toList ∈ names)
    (h : sysctlSetValue env defaultSysctlPaths params s = (.ok (.ok ()), s')) :
    ∃ earlier later report, effectiveSysctlFiles (probed s' dirs live) none none = .ok (earlier ++ conf :: later) ∧
      (∀ p ∈ later, ReadLater p) ∧
      getEffectiveValue (probed s' dirs live) "/proc/sys" (params.field "key") none none = .ok (.ok report) ∧
      report.liveValue = (live (procFile key)).toOption.bind List.head? ∧
      report.persistentValue = some ((behind key (s.linesAt conf) ++
        later.flatMap fun p => readings key (s'.linesAt p)).getLast?.getD value) ∧
      (report.value = some value ↔ report.liveValue = some value ∧ ∀ v, (behind key (s.linesAt conf) ++
        later.flatMap fun p => readings key (s'.linesAt p)).getLast? = some v → v = value) ∧
      (∀ p, p ≠ conf → p ≠ procFile key → s'.disk p = s.disk p) ∧
      ∀ s'', sysctlSetValue env defaultSysctlPaths params s' = (.ok (.ok ()), s'') →
      s''.linesAt conf = s'.linesAt conf := by
  have hname := IsName.of_validate hkey
  have htruthy : (params.field "key").truthy = true := by
    by_contra hno
    unfold sysctlSetValue at h
    rw [Bool.eq_false_iff.mpr hno, Bool.not_false, Bool.true_or, if_pos rfl] at h
    cases h
  obtain ⟨hconf, hlines, hothers⟩ := sysctlSetValue_reliable henv hfresh hkey htext hvalue.newline h
  have hdir' : s'.disk "/etc/sysctl.d" = none :=
    (hothers _ (by decide) (ne_procFile (by decide) key)).trans hdir
  obtain ⟨earlier, later, hfiles, hopen, hlater⟩ := @effectiveSysctlFiles_spec _ _ live _ hdir' hnames hmem hconf
  obtain ⟨result, hloop, hfound, hresult⟩ := @persistentLoop_eq (probed s' dirs live) s'.linesAt key _
    ⟨false, none, none⟩ (fun p hp => (if_neg (hopen p hp).2).trans (lines_of_isSome (hopen p hp).1)) rfl
  have hlast : result.value = some ((behind key (s.linesAt conf) ++
      later.flatMap fun p => readings key (s'.linesAt p)).getLast?.getD value) := by
    rw [hresult, Option.or_none, List.flatMap_append, List.flatMap_cons, hlines, List.getLast?_append,
      List.getLast?_append,
      List.getLast?_append, readings_written (reading_newLine hname hvalue)]
    cases (later.flatMap fun p => readings key (s'.linesAt p)).getLast? <;> rfl
  obtain ⟨liveValue, hlivevalue, hvalue', havailable⟩ : ∃ liveValue : LiveValue,
      getLiveValue (probed s' dirs live) "/proc/sys" (params.field "key") = .ok (.ok liveValue) ∧
      liveValue.value = (live (procFile key)).toOption.bind List.head? ∧
      (liveValue.available = false → liveValue.value = none) := by
    have hbelow : below <+: procFile key := List.prefix_append below _
    have hprocLines : (probed s' dirs live).lines (procFile key) = live (procFile key) := by
      unfold probed
      dsimp only
      rw [if_pos hbelow]
    unfold getLiveValue
    rw [htruthy, hkey]
    change ∃ liveValue, (procfsPath key "/proc/sys" >>= _) = _ ∧ _
    rw [procfsPath_default]
    dsimp only [bind, Except.bind]
    rw [hprocLines]
    cases live (procFile key) with
    | error err => exact ⟨_, rfl, rfl, fun _ => rfl⟩
    | ok lines => exact ⟨_, rfl, rfl, fun h => by cases h⟩
  have hpersistent : getPersistentValue (probed s' dirs live) (params.field "key") none none = .ok (.ok result) := by
    unfold getPersistentValue
    rw [htruthy, hkey]
    change (effectiveSysctlFiles (probed s' dirs live) none none >>= _) = _
    rw [hfiles]
    exact congrArg Except.ok hloop
  have heffective : getEffectiveValue (probed s' dirs live) "/proc/sys" (params.field "key") none none =
      .ok (.ok ⟨if liveValue.available && result.found && liveValue.value == result.value then liveValue.value
        else none,
        liveValue.available, liveValue.value, liveValue.error, result.found, result.value, result.source⟩) := by
    unfold getEffectiveValue
    rw [htruthy, hlivevalue]
    change (getPersistentValue (probed s' dirs live) (params.field "key") none none >>= _) = _
    rw [hpersistent]
    rfl
  refine ⟨earlier, later, _, hfiles, hlater, heffective, hvalue', hlast, ?_, hothers, fun s'' h' => ?_⟩
  · dsimp only
    rw [hfound, hlast, Option.isSome_some, Bool.and_true]
    generalize behind key (s.linesAt conf) ++ later.flatMap (fun p => readings key (s'.linesAt p)) = all
    have hlast' : all.getLast?.getD value = value ↔ ∀ v, all.getLast? = some v → v = value := by
      cases all.getLast? with
      | none => simp
      | some v => simp
    rw [← hlast']
    generalize all.getLast?.getD value = persistent
    cases hav : liveValue.available with
    | false =>
      rw [havailable hav]
      simp
    | true =>
      by_cases heq : liveValue.value = some persistent
      · rw [heq]
        simp
      · have hne : (liveValue.value == some persistent) = false := beq_eq_false_iff_ne.mpr heq
        rw [hne, Bool.and_false, if_neg Bool.false_ne_true]
        refine iff_of_false (by simp) fun h => heq ?_
        rw [h.1, h.2]
  · have hfresh' : env.Fresh s' := fun q hq => by
      by_cases hq' : q = conf
      · exact absurd (hq' ▸ hq) (not_isTmp_conf env)
      · rw [hothers q hq' fun heq => not_isTmp_procFile env key (heq ▸ hq)]
        exact hfresh q hq
    obtain ⟨-, hlines', -⟩ := sysctlSetValue_reliable henv hfresh' hkey htext hvalue.newline h'
    rw [hlines', hlines, written_again hname]

/-- A value that is to be set. -/
def ipForward : Value := .record 1 [("key", .str "net.ipv4.ip_forward"), ("value", .str "0")]

/-- A drop-in file that has another value, and a file that is read later and has none. -/
def ipSys : Sys where
  disk p :=
    if p = conf then some ⟨"kernel.sysrq = 0\nnet.ipv4.ip_forward=1 # router\n", 0, 0, 0o644⟩
    else if p = "/etc/sysctl.conf".toList then some ⟨"# empty\n", 0, 0, 0o644⟩
    else none
  clock := 0
  effects := []

/-- Its directories. -/
def ipDirs : Dirs := fun p => if p = "/etc/sysctl.d".toList then some ["99-loongshield.conf".toList] else none

theorem ipSys_fresh : calmEnv.Fresh ipSys := by
  intro p hp
  have hconf : p ≠ conf := fun h => not_isTmp_conf calmEnv (h ▸ hp)
  have hlater : p ≠ "/etc/sysctl.conf".toList := by
    rintro rfl
    obtain ⟨target, k, h⟩ := hp
    have hinfix : "/.".toList <:+: "/etc/sysctl.conf".toList := by
      rw [h, tmpPath]
      exact ⟨(splitPath target).1, (splitPath target).2 ++ ".loongshield.tmp." ++ calmEnv.nonce k, by simp⟩
    exact absurd hinfix (by decide)
  exact (if_neg hconf).trans (if_neg hlater)

/-- A kernel that gives back what was written. -/
def ipLive : Str → Except Str (List Str) := fun _ => .ok ["0"]

theorem ip_forward_set : ∃ report, getEffectiveValue (probed (sysctlSetValue calmEnv defaultSysctlPaths ipForward
    ipSys).2 ipDirs ipLive)
    "/proc/sys" (.str "net.ipv4.ip_forward") none none = .ok (.ok report) ∧ report.liveValue = some "0".toList := by
  have hrun : (sysctlSetValue calmEnv defaultSysctlPaths ipForward ipSys).1 = .ok (.ok ()) := by decide +kernel
  have hkey : validateSysctlKey (ipForward.field "key") = .ok (some "net.ipv4.ip_forward".toList) := by decide +kernel
  have htrimmed : Trimmed "0" := by
    have htrim : trim "0" = "0".toList := by decide +kernel
    rw [← htrim]
    exact trimmed_trim "0"
  obtain ⟨-, -, report, -, -, hreport, hlive, -⟩ := @sysctl_set_read calmEnv calmEnv_reliable ipForward ipDirs ipLive _
    ipSys _ _ "0" ipSys_fresh hkey rfl ⟨htrimmed, by decide, by decide, by decide⟩ (by decide) rfl (by decide)
      (run_of_fst hrun)
  exact ⟨report, hreport, hlive⟩

end Sysctl
end Seharden
