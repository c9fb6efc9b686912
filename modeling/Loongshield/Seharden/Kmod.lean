import Loongshield.Lua.Flags
import Loongshield.Seharden.PathList
import Loongshield.Seharden.Reliable

/-!
# `enforcers/kmod.lua`

A kernel module is disabled with lines in `/etc/modprobe.d`, and unloaded with `modprobe -r`.

- `blacklist`, `setInstallCommand`: both look for their line in the directory first, and raise there;
- `unload`: it takes a module for unloaded if `/proc/modules` does not list its name as it is written;
- `kmod_disable_never`: what follows for every name that is accepted.
-/

namespace Seharden
namespace Kmod

open Lua Pattern

/-! ## The enforcers -/

/-- `MODPROBE_D_DIR`. -/
def modprobeDDir : Str := "/etc/modprobe.d".toList

/-- `sanitize_module_name`. -/
def sanitizeModuleName : Value → Option Str
  | .str name => if isMatch name "^[%w_-]+$" then some name else none
  | _ => none

/-- The name that is given: `sanitize_module_name(params and params.name)`. -/
def moduleName (params : Value) : Option Str :=
  sanitizeModuleName (if params.truthy then params.field "name" else params)

/-- `run`: what it returns, where `execute` gives the first and the third result of `os.execute`. -/
def run (execute : Str → Value × Value) (cmd : Str) : Ret :=
  if Value.rawEq (execute cmd).1 (.bool true) || Value.rawEq (execute cmd).2 (.num 0) then .ok ()
  else .error ("Command failed (exit " ++ (execute cmd).2.tostring ++ "): " ++ cmd)

/-- What `io.lines('/proc/modules')` does: it raises, or it gives lines and may raise after them. -/
abbrev ProcModules := Except Str (List Str × Option Str)

/-- The name in a line of `/proc/modules`. -/
def listedName (line : Str) : Option Str := firstCapture line "^(%S+)%s"

/-- `is_module_loaded`. -/
def isModuleLoaded (proc : ProcModules) (name : Str) : Except Str Bool :=
  match proc with
  | .error err => .error ("Unable to read /proc/modules: " ++ err)
  | .ok (lines, err) =>
    if lines.any fun line => listedName line == some name then .ok true
    else match err with
      | none => .ok false
      | some err => .error ("Unable to inspect /proc/modules: " ++ err)

/-- `unload`: what it returns, and the commands it has run. -/
def unload (proc : ProcModules) (execute : Str → Value × Value) (params : Value) : Ret × List Str :=
  match moduleName params with
  | none => (.error "kmod.unload: missing or invalid 'name' parameter".toList, [])
  | some name =>
    match isModuleLoaded proc name with
    | .ok false => (.ok (), [])
    | _ =>
      let cmd := "modprobe -r " ++ name ++ " 2>/dev/null"
      match run execute cmd with
      | .ok () => (.ok (), [cmd])
      | .error err => (.error ("kmod.unload: failed to unload '" ++ name ++ "': " ++ err), [cmd])

section Enforcers

variable (env : Env) (lfs : Option Listing)

/-- The loop over the lines of a file; a pattern that raises ends it. -/
def anyLine (pattern : Str) : List Str → Bool
  | [] => false
  | line :: lines =>
    match strMatch line pattern with
    | .error _ => false
    | .ok (some _) => true
    | .ok none => anyLine pattern lines

/-- The body of the loop of `line_exists_in_modprobe_d` for a file, under `pcall`. -/
def confHasLine (pattern path : Str) : FsM Bool := do
  match ← ioOpenRead env path with
  | .error _ => return false
  | .ok () => fun s =>
    match fileLines env path s with
    | (.ok lines, s') => (.ok (anyLine pattern lines), s')
    | (.error _, s') => (.ok false, s')

/-- The loop of `line_exists_in_modprobe_d` over the names. -/
def anyConf (pattern : Str) : List Str → FsM Bool
  | [] => return false
  | name :: names => do
    if isMatch name "%.conf$" then
      if ← confHasLine env pattern (modprobeDDir ++ "/" ++ name) then return true else anyConf pattern names
    else anyConf pattern names

/-- `line_exists_in_modprobe_d`. The dependency is `_lfs and _lfs.dir(path) or nil`: of the iterator and the directory
object of `lfs.dir` only the iterator is left, and the loop calls it without the object. -/
def lineExistsInModprobeD (pattern : Str) : FsM Bool :=
  match lfs with
  | none => return false
  | some ls => do
    let entries ← lfsDir ls modprobeDDir
    let dirIter (withObject : Bool) : FsM (List Str) :=
      if withObject then return entries
      else Act.raise "bad argument #1 to 'for iterator' (directory metatable expected, got nil)"
    let names ← dirIter false
    anyConf env pattern names

/-- The file of a module. -/
def confPath (name : Str) : Str := modprobeDDir ++ "/loongshield-disable-" ++ name ++ ".conf"

/-- The course of the two enforcers: nothing is done if the line is there. -/
def ensureLine (context : Str) (pattern line : Str → Str) (params : Value) : FsM Ret := do
  match moduleName params with
  | none => return .error (context ++ ": missing or invalid 'name' parameter")
  | some name =>
    if ← lineExistsInModprobeD env lfs (pattern name) then return .ok ()
    else appendUniqueLine env (confPath name) (line name) context ⟨false, false, false, false⟩

/-- `blacklist`. -/
def blacklist (params : Value) : FsM Ret :=
  ensureLine env lfs "kmod.blacklist" (fun name => "^blacklist%s+" ++ name ++ "%s*$") (fun name => "blacklist " ++ name)
    params

/-- `set_install_command`. -/
def setInstallCommand (params : Value) : FsM Ret :=
  ensureLine env lfs "kmod.set_install_command" (fun name => "^install%s+" ++ name ++ "%s+/bin/true%s*$")
    (fun name => "install " ++ name ++ " /bin/true") params

end Enforcers

/-! ## What is to be expected -/

/-- A name as the kernel has it. -/
def normalize (name : Str) : Str := name.map fun c => if c = '-' then '_' else c

/-- Two names of one module. -/
def SameModule (a b : Str) : Prop := normalize a = normalize b

/-- A line that blacklists a module. -/
def BlacklistLine (name line : Str) : Prop :=
  ∃ m, words nonBlank line = ["blacklist".toList, m] ∧ SameModule m name

/-- A line that keeps a module from being loaded. -/
def InstallLine (name line : Str) : Prop :=
  ∃ m, words nonBlank line = ["install".toList, m, "/bin/true".toList] ∧ SameModule m name

/-- An enforcer returns, and if it succeeds then a file of the directory has such a line. -/
def Ensures (enforcer : FsM Ret) (IsLine : Str → Prop) (s : Sys) : Prop :=
  ∃ ret s', enforcer s = (.ok ret, s') ∧ (ret = .ok () → ∃ name file, ".conf".toList <:+ name ∧
    s'.disk (modprobeDDir ++ "/" ++ name) = some file ∧ ∃ line ∈ splitLines file.content, IsLine line)

/-- A module is listed under one of its names. -/
def Listed (proc : ProcModules) (name : Str) : Prop :=
  ∃ lines err, proc = .ok (lines, err) ∧ ∃ line ∈ lines, ∃ m, listedName line = some m ∧ SameModule m name

/-- `unload` runs no command and succeeds only if the module is not loaded. -/
def UnloadSound (proc : ProcModules) (execute : Str → Value × Value) (params : Value) (name : Str) : Prop :=
  unload proc execute params = (.ok (), []) → ¬Listed proc name

/-- What the three enforcers should do for a module. -/
structure Disables (env : Env) (ls : Listing) (proc : ProcModules) (execute : Str → Value × Value) (params : Value)
    (name : Str) (s : Sys) : Prop where
  blacklist : Ensures (blacklist env (some ls) params) (BlacklistLine name) s
  install : Ensures (setInstallCommand env (some ls) params) (InstallLine name) s
  unload : UnloadSound proc execute params name

/-! ## What they do -/

section Enforcers

variable {env : Env} {ls : Listing} {params : Value} {name : Str} {s : Sys}

/-- The search for a line raises. -/
theorem lineExistsInModprobeD_raises (pattern : Str) :
    ∃ e, lineExistsInModprobeD env (some ls) pattern s = (.error e, s.tick) := by
  unfold lineExistsInModprobeD
  dsimp only
  cases hdir : ls s.clock modprobeDDir with
  | error e =>
    have hcall : lfsDir ls modprobeDDir s = (.error e, s.tick) := by rw [lfsDir, hdir]
    exact ⟨e, Act.bind_of_error hcall⟩
  | ok names =>
    have hcall : lfsDir ls modprobeDDir s = (.ok names, s.tick) := by rw [lfsDir, hdir]
    exact ⟨_, (Act.bind_of_ok hcall).trans (Act.bind_of_error rfl)⟩

/-- **Both enforcers raise**, and have changed nothing. -/
theorem ensureLine_raises {context : Str} {pattern line : Str → Str} (h : moduleName params = some name) :
    ∃ e, ensureLine env (some ls) context pattern line params s = (.error e, s.tick) := by
  obtain ⟨e, he⟩ := @lineExistsInModprobeD_raises env ls s (pattern name)
  unfold ensureLine
  rw [h]
  exact ⟨e, Act.bind_of_error he⟩

theorem not_ensures {enforcer : FsM Ret} {IsLine : Str → Prop} {e : Err} {s' : Sys} (h : enforcer s = (.error e, s')) :
    ¬Ensures enforcer IsLine s := by
  rintro ⟨ret, s'', hret, -⟩
  rw [h] at hret
  cases hret

theorem unload_nothing {proc : ProcModules} {execute : Str → Value × Value} (h : moduleName params = some name) :
    unload proc execute params = (.ok (), []) ↔ isModuleLoaded proc name = .ok false := by
  unfold unload
  rw [h]
  dsimp only
  cases isModuleLoaded proc name with
  | error err =>
    dsimp only
    cases run execute ("modprobe -r " ++ name ++ " 2>/dev/null") <;> simp
  | ok loaded =>
    cases loaded with
    | false => simp
    | true =>
      dsimp only
      cases run execute ("modprobe -r " ++ name ++ " 2>/dev/null") <;> simp

theorem isModuleLoaded_false {proc : ProcModules} : isModuleLoaded proc name = .ok false ↔
    ∃ lines, proc = .ok (lines, none) ∧ ∀ line ∈ lines, listedName line ≠ some name := by
  unfold isModuleLoaded
  cases proc with
  | error err => simp
  | ok p =>
    obtain ⟨lines, err⟩ := p
    by_cases hany : (lines.any fun line => listedName line == some name) = true
    · simp only [hany, if_true]
      simp only [List.any_eq_true, beq_iff_eq] at hany
      obtain ⟨line, hline, heq⟩ := hany
      refine iff_of_false (by simp) ?_
      rintro ⟨lines', hproc, hno⟩
      cases hproc
      exact hno line hline heq
    · simp only [hany]
      have hno : ∀ line ∈ lines, listedName line ≠ some name := by simpa using hany
      cases err with
      | some err => simp
      | none => simpa using hno

/-- Names without a hyphen are the same only if they are equal. -/
theorem normalize_of_no_hyphen {a : Str} (h : '-' ∉ a) : normalize a = a := by
  unfold normalize
  conv_rhs => rw [← List.map_id a]
  refine List.map_congr_left fun c hc => ?_
  have hne : c ≠ '-' := fun heq => h (heq ▸ hc)
  exact if_neg hne

/-- **When `unload` can be relied on**, given that `/proc/modules` lists names without hyphens. -/
theorem unloadSound_iff {proc : ProcModules} {execute : Str → Value × Value} (h : moduleName params = some name)
    (hproc : ∀ lines err, proc = .ok (lines, err) → ∀ line ∈ lines, ∀ m, listedName line = some m → '-' ∉ m) :
    UnloadSound proc execute params name ↔ '-' ∉ name ∨ ¬Listed proc name ∨ ∀ lines, proc ≠ .ok (lines, none) := by
  unfold UnloadSound
  rw [unload_nothing h, isModuleLoaded_false]
  constructor
  · intro hsound
    by_cases hhyphen : '-' ∈ name
    · by_cases hread : ∃ lines, proc = .ok (lines, none)
      · obtain ⟨lines, rfl⟩ := hread
        refine .inr (.inl (hsound ⟨lines, rfl, fun line hline heq => ?_⟩))
        exact hproc lines none rfl line hline name heq hhyphen
      · exact .inr (.inr fun lines heq => hread ⟨lines, heq⟩)
    · exact .inl hhyphen
  · rintro hcond ⟨lines, rfl, hno⟩ hlisted
    rcases hcond with hhyphen | hnot | hunread
    · obtain ⟨lines', err, heq, line, hline, m, hm, hsame⟩ := hlisted
      cases heq
      have hm' := hproc lines none rfl line hline m hm
      unfold SameModule at hsame
      rw [normalize_of_no_hyphen hm', normalize_of_no_hyphen hhyphen] at hsame
      exact hno line hline (hsame ▸ hm)
    · exact hnot hlisted
    · exact hunread lines rfl

end Enforcers

/-- **No module is disabled**: for every name that is accepted both enforcers raise before they have changed anything;
and `unload` does what it should unless the name has a hyphen and the module is loaded. -/
theorem kmod_disable_never (env : Env) (ls : Listing) (proc : ProcModules) (execute : Str → Value × Value)
    (params : Value) (name : Str) (s : Sys) (h : moduleName params = some name)
    (hproc : ∀ lines err, proc = .ok (lines, err) → ∀ line ∈ lines, ∀ m, listedName line = some m → '-' ∉ m) :
    ¬Disables env ls proc execute params name s ∧
      (∃ e, blacklist env (some ls) params s = (.error e, s.tick)) ∧
      (∃ e, setInstallCommand env (some ls) params s = (.error e, s.tick)) ∧
      (UnloadSound proc execute params name ↔
        '-' ∉ name ∨ ¬Listed proc name ∨ ∀ lines, proc ≠ .ok (lines, none)) := by
  have hblacklist : ∃ e, blacklist env (some ls) params s = (.error e, s.tick) := ensureLine_raises h
  refine ⟨fun hd => ?_, hblacklist, ensureLine_raises h, unloadSound_iff h hproc⟩
  obtain ⟨e, he⟩ := hblacklist
  exact not_ensures he hd.blacklist

/-! ## A name with a hyphen -/

/-- The parameters for a module. -/
def usbParams : Value := .record 0 [("name", .str "usb-storage")]

/-- A directory with one file. -/
def oneConf : Listing := fun _ _ => .ok [".".toList, "..".toList, "a.conf".toList]

/-- The module is loaded. -/
def usbLoaded : ProcModules := .ok (["usb_storage 81920 0 - Live 0x0000000000000000".toList], none)

/-- A command that succeeds. -/
def succeeds (_cmd : Str) : Value × Value := (.bool true, .num 0)

theorem moduleName_usb : moduleName usbParams = some "usb-storage".toList := by decide +kernel

theorem listedName_usb {lines : List Str} {err : Option Str} (h : usbLoaded = .ok (lines, err)) :
    ∀ line ∈ lines, ∀ m, listedName line = some m → m = "usb_storage".toList := by
  intro line hline m hm
  cases h
  rw [List.mem_singleton.mp hline] at hm
  have hname : listedName "usb_storage 81920 0 - Live 0x0000000000000000".toList = some "usb_storage".toList := by
    decide +kernel
  rw [hname] at hm
  exact (Option.some.inj hm).symm

theorem usb_not_disabled :
    ¬Disables calmEnv oneConf usbLoaded succeeds usbParams "usb-storage".toList
      (.oneFile "/etc/modprobe.d/a.conf" "") :=
  (kmod_disable_never calmEnv oneConf usbLoaded succeeds usbParams "usb-storage".toList
    (.oneFile "/etc/modprobe.d/a.conf" "") moduleName_usb fun lines err h line hline m hm => by
      rw [listedName_usb h line hline m hm]
      decide).1

/-- The blacklist raises, and the module that is loaded is taken for unloaded. -/
theorem usb_storage_stays :
    (blacklist calmEnv (some oneConf) usbParams (.oneFile "/etc/modprobe.d/a.conf" "")).1 =
        .error "bad argument #1 to 'for iterator' (directory metatable expected, got nil)" ∧
      unload usbLoaded succeeds usbParams = (.ok (), []) ∧ Listed usbLoaded "usb-storage".toList := by
  have hname : listedName "usb_storage 81920 0 - Live 0x0000000000000000".toList = some "usb_storage".toList := by
    decide +kernel
  have hsame : SameModule "usb_storage".toList "usb-storage".toList := by
    unfold SameModule
    decide
  refine ⟨by decide +kernel, ?_, _, none, rfl, _, List.mem_cons_self, "usb_storage".toList, hname, hsame⟩
  refine (unload_nothing moduleName_usb).mpr (isModuleLoaded_false.mpr ⟨_, rfl, fun line hline hlisted => ?_⟩)
  have h := listedName_usb rfl line hline _ hlisted
  exact absurd h (by decide)

end Kmod
end Seharden
