import Loongshield.Seharden.AuditRules
import Loongshield.Seharden.Glob

/-!
# `shared/package_inventory.lua`, `packages.get_installed` and `packages.remove_matching`

The names of the installed packages come from `rpm`. The probe looks a name up, or matches names with a glob; the
enforcer passes the names that match to `dnf`.

- `Process`: what a command that was started prints, and what closing it returns;
- `removeMatching`: the commands that are run, and what is returned;
- `packages_glob_exact`: both take exactly the installed packages that the glob matches.
-/

namespace Seharden
namespace Packages

open Lua Pattern Glob

/-! ## Commands -/

/-- What a command prints, and the first and the third result of `close`. -/
structure Process where
  output : Str
  ok : Value
  code : Value

/-- `io.popen`: what becomes of a command. -/
abbrev Popen := Str → Option Process

section Code

variable (popen : Popen)

/-- The local `run` of `enforcers/packages.lua`. -/
def run (cmd : Str) : Ret :=
  match popen (cmd ++ " 2>&1") with
  | none => .error ("failed to run command: " ++ cmd)
  | some process =>
    if Value.rawEq process.ok (.bool true) || Value.rawEq process.code (.num 0) then .ok ()
    else if trim process.output = [] then
      .error ("command failed (exit " ++ process.code.tostring ++ "): " ++ cmd)
    else .error (trim process.output)

/-! ## The inventory -/

/-- The command of `read_installed_names`. -/
def rpmQuery : Str := "rpm -qa --qf '%\x7bNAME\x7d\\n'"

/-- The names that are printed. -/
def Process.names (process : Process) : List Str := sortStrs ((splitLines process.output).filter (· ≠ []))

/-- `close` reports success. -/
def Process.succeeded (process : Process) : Bool :=
  Value.rawEq process.ok (.bool true) && (process.code.isNil || Value.rawEq process.code (.num 0))

/-- `read_installed_names`. -/
def readInstalledNames (context : Str) : Except Str (List Str) :=
  match popen rpmQuery with
  | none => .error (context ++ ": failed to execute 'rpm -qa'")
  | some process =>
    if process.succeeded then .ok process.names
    else .error (context ++ ": rpm -qa failed with exit " ++ process.code.tostring)

/-- `index_names`: the names, each once; the index has the same names. -/
def indexNames (packages : List Str) : List Str := unique packages

/-- `compile_glob`: the pattern, if it can be matched with the empty text. -/
def compileGlob (pattern context : Str) : Except Str Str :=
  match strMatch [] (globToPattern pattern) with
  | .ok _ => .ok (globToPattern pattern)
  | .error _ => .error (context ++ ": invalid package pattern '" ++ pattern ++ "'")

/-- `match_names`. -/
def matchNames (matcher : Str) : List Str → Except Err (List Str)
  | [] => .ok []
  | name :: names => do
    let found ← strMatch name matcher
    let rest ← matchNames matcher names
    return if found.isSome then name :: rest else rest

/-! ## The probe -/

/-- `packages.get_installed`: the names of the details; `count` is their number. -/
def getInstalled (params : Value) : Except Err (Except Str (List Str)) :=
  if !params.truthy || !(params.field "name").truthy then
    .ok (.error "Probe 'packages.get_installed' requires a 'name' parameter.")
  else match params.field "name" with
    | .str pattern =>
      match readInstalledNames popen "packages.get_installed" with
      | .error err => .ok (.error err)
      | .ok installed =>
        let names := indexNames installed
        if !isMatch pattern "[*?%[]" then .ok (.ok (if names.contains pattern then [pattern] else []))
        else if isMatch pattern "^gpg%-pubkey%-" then
          .ok (.ok (if names.contains "gpg-pubkey".toList then ["gpg-pubkey".toList] else []))
        else match compileGlob pattern "packages.get_installed" with
          | .error err => .ok (.error err)
          | .ok matcher => (matchNames matcher names).map .ok
    | v => .error ("attempt to call method 'match' of a " ++ v.typeName ++ " value")

/-! ## The enforcer -/

/-- `sanitize_package_name`. -/
def sanitizePackageName : Value → Option Str
  | .str name =>
    if isMatch name "[%*%?%;%|%&%$%(%)%`%!%<%>]" || !isMatch name "^[%w%.%-_+]+$" then none else some name
  | _ => none

/-- `sanitize_package_pattern`. -/
def sanitizePackagePattern : Value → Option Str
  | .str pattern =>
    if pattern = [] || isMatch pattern "[%s%c%;%|%&%$%(%)%`%!%<%>]" || !isMatch pattern "^[%w%.%-%_+%*%?%[%]]+$"
      then none
    else some pattern
  | _ => none

/-- The loop of `find_matching_packages` over the names that match. -/
def safeNames : List Str → Except Str (List Str)
  | [] => .ok []
  | pkg :: names =>
    match sanitizePackageName (.str pkg) with
    | none => .error ("packages.remove_matching: installed package name '" ++ pkg ++ "' is not safe to pass to dnf")
    | some safe => (safeNames names).map (safe :: ·)

/-- `packages.remove_matching`: the commands that are run, in order, and the result. -/
def removeMatching (params : Value) : Except Err (List Str × Ret) :=
  if !params.truthy || !(params.field "pattern").truthy then
    .ok ([], .error "packages.remove_matching: requires 'pattern' parameter")
  else match sanitizePackagePattern (params.field "pattern") with
    | none => .ok ([], .error ("packages.remove_matching: invalid package pattern '" ++
        (params.field "pattern").tostring ++ "'"))
    | some pattern => match compileGlob pattern "packages.remove_matching" with
      | .error err => .ok ([], .error err)
      | .ok matcher => match readInstalledNames popen "packages.remove_matching" with
        | .error err => .ok ([rpmQuery], .error err)
        | .ok installed => do
          let matched ← matchNames matcher installed
          match safeNames matched with
          | .error err => return ([rpmQuery], .error err)
          | .ok matched =>
            if matched = [] then return ([rpmQuery], .ok ())
            else
              let cmd := "dnf remove -y " ++ concatBlank matched
              return ([rpmQuery, cmd ++ " 2>&1"], run popen cmd)

end Code

/-! ## Names that match -/

section Exact

variable {glob : Str} (hglob : PlainGlob glob)

include hglob

theorem compileGlob_plain (context : Str) : compileGlob glob context = .ok (globToPattern glob) := by
  unfold compileGlob
  rw [glob_to_pattern_exact hglob]

theorem matchNames_plain : ∀ names : List Str, matchNames (globToPattern glob) names = .ok (names.filter (fnmatch glob))
  | [] => rfl
  | name :: names => by
    rw [matchNames, glob_to_pattern_exact hglob, matchNames_plain names, List.filter_cons]
    cases fnmatch glob name <;> rfl

end Exact

/-- A name that can be passed to `dnf`. -/
def safe (name : Str) : Bool := (sanitizePackageName (.str name)).isSome

theorem sanitizePackageName_eq (name : Str) : sanitizePackageName (.str name) = if safe name then some name
    else none := by
  have hchoice : ∀ bad : Bool, (if bad then none else some name) =
      if (if bad then none else some name : Option Str).isSome then some name else none := by
    intro bad
    cases bad <;> rfl
  exact hchoice _

/-- The names are passed on, if all are safe. -/
theorem safeNames_eq : ∀ names : List Str,
    if names.all safe then safeNames names = .ok names else ∃ err, safeNames names = .error err
  | [] => rfl
  | name :: names => by
    have ih := safeNames_eq names
    rw [List.all_cons, safeNames, sanitizePackageName_eq]
    cases safe name with
    | false => exact ⟨_, rfl⟩
    | true =>
      rw [Bool.true_and, if_pos rfl]
      dsimp only
      split at ih
      · next hall =>
        rw [if_pos hall, ih]
        rfl
      · next hall =>
        obtain ⟨err, herr⟩ := ih
        rw [if_neg hall, herr]
        exact ⟨err, rfl⟩

/-! ## Names without wildcards -/

/-- The characters with a meaning in a glob. -/
def wildcards : Single := .set false [.lit '*', .lit '?', .cls '[']

theorem isMatch_wildcards (s : Str) : isMatch s "[*?%[]" = true ↔ ∃ c ∈ s, c = '*' ∨ c = '?' ∨ c = '[' := by
  have hpat : compile "[*?%[]" = [.single wildcards .one] := rfl
  have htest : ∀ c, wildcards.test c = true ↔ c = '*' ∨ c = '?' ∨ c = '[' := by
    intro c
    have heq : wildcards.test c = ((('*' == c) || (('?' == c) || (('[' == c) || false))) != false) := rfl
    rw [heq]
    simp only [Bool.or_false, bne_iff_ne, ne_eq, Bool.not_eq_false, Bool.or_eq_true, beq_iff_eq]
    simp only [eq_comm]
  rw [isMatch_iff, strMatch_somewhere hpat (by decide)]
  exact exists_congr fun c => and_congr_right fun _ => htest c

/-- A glob without wildcards is read as its characters. -/
theorem readItems_chars : ∀ {n : Nat} {g : Str}, g.length ≤ n → (∀ c ∈ g, ¬(c = '*' ∨ c = '?' ∨ c = '[')) →
    Glob.readItems n g = g.map fun c => .one (· == c)
  | 0, [], _, _ => rfl
  | 0, c :: g, h, _ => absurd h (Nat.not_succ_le_zero _)
  | n + 1, [], _, _ => rfl
  | n + 1, c :: g, h, hc => by
    have hfirst := hc c List.mem_cons_self
    simp only [not_or] at hfirst
    rw [List.length_cons] at h
    have ih := @readItems_chars n g (by omega) fun d hd => hc d (List.mem_cons_of_mem c hd)
    rw [List.map_cons, ← ih, Glob.readItems]
    · exact hfirst.1
    · exact hfirst.2.1
    · exact hfirst.2.2

theorem fnmatch_chars {g : Str} (h : isMatch g "[*?%[]" = false) (name : Str) : fnmatch g name = decide (name = g) := by
  have hchars : ∀ c ∈ g, ¬(c = '*' ∨ c = '?' ∨ c = '[') := by
    intro c hc hwild
    rw [(isMatch_wildcards g).mpr ⟨c, hc, hwild⟩] at h
    cases h
  unfold fnmatch Glob.read
  rw [readItems_chars (Nat.le_refl _) hchars, matches_chars]

theorem filter_eq_of_nodup {l : List Str} (h : l.Nodup) (x : Str) :
    l.filter (fun y => decide (y = x)) = if l.contains x then [x] else [] := by
  rw [List.filter_eq, List.Nodup.count h]
  by_cases hx : x ∈ l
  · rw [if_pos hx, if_pos (List.contains_iff_mem.mpr hx)]
    rfl
  · rw [if_neg hx, if_neg fun hc => hx (List.contains_iff_mem.mp hc)]
    rfl

/-! ## Exactness -/

/-- **Both take what the glob matches.** For every plain glob, every inventory that `rpm` reports and every `dnf`: the
probe returns exactly the installed names that match, each once, whether it looks the name up or matches it; and the
enforcer runs `dnf` with exactly these names, unless there are none or one of them is not safe. -/
theorem packages_glob_exact {popen : Popen} {process : Process} (hrpm : popen rpmQuery = some process)
    (hok : process.succeeded = true) {glob : Str} (hglob : PlainGlob glob) {params : Value}
      (hparams : params.truthy = true) :
    (params.field "name" = .str glob → isMatch glob "^gpg%-pubkey%-" = false →
      getInstalled popen params = .ok (.ok ((indexNames process.names).filter (fnmatch glob)))) ∧
    (params.field "pattern" = .str glob → sanitizePackagePattern (.str glob) = some glob →
      ∃ ret, removeMatching popen params = .ok
        (if process.names.filter (fnmatch glob) ≠ [] ∧ (process.names.filter (fnmatch glob)).all safe = true then
          [rpmQuery, "dnf remove -y " ++ concatBlank (process.names.filter (fnmatch glob)) ++ " 2>&1"]
        else [rpmQuery], ret)) := by
  have hnames : ∀ context, readInstalledNames popen context = .ok process.names := fun context => by
    rw [readInstalledNames, hrpm]
    exact if_pos hok
  constructor
  · intro hname hgpg
    have htruthy : (params.field "name").truthy = true := by
      rw [hname]
      rfl
    unfold getInstalled
    rw [hparams, htruthy, hname]
    dsimp only
    rw [if_neg (by decide), hnames]
    dsimp only
    cases hwild : isMatch glob "[*?%[]" with
    | false =>
      have hfilter : (indexNames process.names).filter (fnmatch glob) =
          (indexNames process.names).filter fun y => decide (y = glob) :=
        List.filter_congr fun name _ => fnmatch_chars hwild name
      rw [Bool.not_false, if_pos rfl, hfilter, indexNames, filter_eq_of_nodup (nodup_unique _)]
    | true =>
      rw [Bool.not_true, if_neg Bool.false_ne_true, hgpg, if_neg Bool.false_ne_true, compileGlob_plain hglob]
      dsimp only
      rw [matchNames_plain hglob]
      rfl
  · intro hpattern hsanitize
    have htruthy : (params.field "pattern").truthy = true := by
      rw [hpattern]
      rfl
    unfold removeMatching
    rw [hparams, htruthy, hpattern, hsanitize]
    dsimp only
    rw [if_neg (by decide), compileGlob_plain hglob]
    dsimp only
    rw [hnames]
    dsimp only
    rw [matchNames_plain hglob]
    dsimp only [bind, Except.bind]
    have hsafe := safeNames_eq (process.names.filter (fnmatch glob))
    split at hsafe
    · next hall =>
      rw [hsafe]
      dsimp only
      by_cases hnil : process.names.filter (fnmatch glob) = []
      · rw [if_pos hnil, if_neg fun h => h.1 hnil]
        exact ⟨_, rfl⟩
      · rw [if_neg hnil, if_pos ⟨hnil, hall⟩]
        exact ⟨_, rfl⟩
    · next hall =>
      obtain ⟨err, herr⟩ := hsafe
      rw [herr, if_neg fun h => hall h.2]
      exact ⟨_, rfl⟩

/-- A host with three packages. -/
def threePackages : Popen := fun cmd =>
  if cmd = rpmQuery then some ⟨"telnet-server\nbash\ntelnet\n", .bool true, .num 0⟩
  else some ⟨[], .bool true, .num 0⟩

theorem telnet_removed : ∃ ret, removeMatching threePackages (.record 1 [("pattern", .str "telnet*")]) =
    .ok ([rpmQuery, "dnf remove -y telnet telnet-server 2>&1".toList], ret) := by
  have hplain : PlainGlob "telnet*".toList := by decide +kernel
  have hsanitize : sanitizePackagePattern (.str "telnet*") = some "telnet*".toList := by decide +kernel
  have hmatched : (Process.names ⟨"telnet-server\nbash\ntelnet\n", .bool true, .num 0⟩).filter
    (fnmatch "telnet*".toList) =
      ["telnet".toList, "telnet-server".toList] := by decide +kernel
  have hsafe : ["telnet".toList, "telnet-server".toList].all safe = true := by decide +kernel
  obtain ⟨ret, hret⟩ := (@packages_glob_exact threePackages ⟨"telnet-server\nbash\ntelnet\n", .bool true,
    .num 0⟩ rfl rfl _
    hplain (.record 1 [("pattern", .str "telnet*")]) rfl).2 rfl hsanitize
  rw [hmatched, if_pos ⟨List.cons_ne_nil _ _, hsafe⟩] at hret
  exact ⟨ret, hret⟩

end Packages
end Seharden
