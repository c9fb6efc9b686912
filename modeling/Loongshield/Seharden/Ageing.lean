import Loongshield.Seharden.Text

/-!
# Password ageing in `enforcers/users.lua`

Three operations run `chage` for the accounts of a list. They share the goal, but not the comparison, and two of them
have a fallback for root.

- `applyChagePolicy`, `setPasswordDefaults`: the operations;
- `Repairs`: what is asked of each of them, with `Flag.outside`, the policy in the words of its comments;
- `repairs_of_ran`: a loop that runs the command of every account out of policy repairs them all;
- `ageing_iff`: when all three operations do.
-/

namespace Seharden

open Lua

namespace Ageing

/-! ## The shadow entries -/

/-- What `build_shadow_entry` returns. -/
@[ext]
structure Entry where
  user : Str
  passMinDays : Option Flt
  passMaxDays : Option Flt
  passWarnAge : Option Flt
  inactive : Option Flt

/-- `build_shadow_entry`. -/
def buildShadowEntry (parts : List Str) : Entry :=
  ⟨parts.headD [], (parts[3]?).bind strscan, (parts[4]?).bind strscan, (parts[5]?).bind strscan,
    (parts[6]?).bind strscan⟩

/-- `is_safe_username`. -/
def isSafeUsername (username : Str) : Bool :=
  decide (0 < username.length ∧ username.length ≤ 32) && isMatch username "^[a-zA-Z0-9._][a-zA-Z0-9._-]*$"

/-! ## Commands -/

/-- The options of `chage`. -/
inductive Flag
  | maxdays
  | mindays
  | warndays
  | inactive
deriving DecidableEq

def Flag.text : Flag → Str
  | .maxdays => "--maxdays"
  | .mindays => "--mindays"
  | .warndays => "--warndays"
  | .inactive => "--inactive"

/-- A `chage` command. -/
structure Chage where
  args : List (Flag × Nat)
  user : Str
deriving DecidableEq

/-- The text of a command. -/
def Chage.text (c : Chage) : Str :=
  "chage ".toList ++ List.intercalate " ".toList (c.args.map fun a => a.1.text ++ " " ++ natStr a.2) ++ " " ++ c.user

/-- The commands that were run, with their exit status. -/
abbrev Runs := List (Chage × Nat)

/-- `os.execute`: the exit status of a command after those that were run before. The first value it returns is `true`
if the status is zero, else `nil`. -/
abbrev Execute := Runs → Chage → Nat

/-! ## The operations -/

section Policy

variable (execute : Execute) (flag : Flag) (threshold : Nat) (compareFn : Option Flt → Flt → Bool) (logCtx : Str)
  (field : Entry → Option Flt)

/-- The loop of `apply_chage_policy`. -/
def applyLoop : Runs → List Entry → Except Err Unit × Runs
  | runs, [] => (.ok (), runs)
  | runs, entry :: entries =>
    if isSafeUsername entry.user = false then
      (.error ("users." ++ logCtx ++ ": refusing to process unsafe username '" ++ entry.user ++ "'"), runs)
    else if compareFn (field entry) (.fin threshold) then
      let cmd : Chage := ⟨[(flag, threshold)], entry.user⟩
      let code := execute runs cmd
      if code ≠ 0 then
        (.error ("users." ++ logCtx ++ ": chage failed (exit " ++ natStr code ++ ") for user '" ++ entry.user ++
          "': " ++
          cmd.text), runs ++ [(cmd, code)])
      else applyLoop (runs ++ [(cmd, code)]) entries
    else applyLoop runs entries

/-- `apply_chage_policy`: without entries, root is fixed. -/
def applyChagePolicy (entries : Option (List Entry)) : Except Err Unit × Runs :=
  match entries with
  | some (entry :: entries) => applyLoop execute flag threshold compareFn logCtx field [] (entry :: entries)
  | _ =>
    let cmd : Chage := ⟨[(flag, threshold)], "root"⟩
    let code := execute [] cmd
    if code ≠ 0 then
      (.error ("users." ++ logCtx ++ ": command failed (exit " ++ natStr code ++ "): " ++ cmd.text), [(cmd, code)])
    else (.ok (), [(cmd, code)])

end Policy

/-- `set_password_max_days_for_root`. -/
def setPasswordMaxDaysForRoot (execute : Execute) (maxDays : Option Nat) (entries : Option (List Entry)) :
    Except Err Unit × Runs :=
  applyChagePolicy execute .maxdays (maxDays.getD 90)
    (fun current threshold => current.all fun c => threshold.lt c) "set_password_max_days_for_root" Entry.passMaxDays
    entries

/-- `set_password_min_days_for_root`. -/
def setPasswordMinDaysForRoot (execute : Execute) (minDays : Option Nat) (entries : Option (List Entry)) :
    Except Err Unit × Runs :=
  applyChagePolicy execute .mindays (minDays.getD 7)
    (fun current threshold => current.all fun c => c.lt threshold) "set_password_min_days_for_root" Entry.passMinDays
    entries

/-- The numbers that `set_password_defaults` gets. -/
structure Defaults where
  maxDays : Option Nat
  warnDays : Option Nat
  inactive : Option Nat

/-- The options that `set_password_defaults` collects for an entry. -/
def chageArgs (params : Defaults) (entry : Entry) : List (Flag × Nat) :=
  let maxArgs := params.maxDays.toList.filter fun maxDays : Nat =>
    entry.passMaxDays.all fun c => c.lt (.fin 1) || (Flt.fin maxDays).lt c
  let warnArgs := params.warnDays.toList.filter fun warnDays : Nat =>
    entry.passWarnAge.all fun c => c.lt (.fin warnDays)
  let inactiveArgs := params.inactive.toList.filter fun inactive : Nat =>
    entry.inactive.all fun c => c.lt (.fin 0) || (Flt.fin inactive).lt c || c == .fin (-1)
  maxArgs.map (Prod.mk Flag.maxdays) ++ warnArgs.map (Prod.mk Flag.warndays) ++ inactiveArgs.map (Prod.mk Flag.inactive)

/-- The loop of `set_password_defaults`. -/
def defaultsLoop (execute : Execute) (params : Defaults) : Runs → List Str → List Entry → Except Err Unit × Runs
  | runs, errors, [] =>
    if errors ≠ [] then
      (.error ("users.set_password_defaults: ".toList ++ natStr errors.length ++ " error(s): " ++
        List.intercalate "; ".toList errors), runs)
    else (.ok (), runs)
  | runs, errors, entry :: entries =>
    if isSafeUsername entry.user = false then
      (.error ("users.set_password_defaults: refusing to process unsafe username '" ++ entry.user ++ "'"), runs)
    else if chageArgs params entry ≠ [] then
      let cmd : Chage := ⟨chageArgs params entry, entry.user⟩
      let code := execute runs cmd
      if code ≠ 0 then defaultsLoop execute params (runs ++ [(cmd, code)])
        (errors ++ ["chage failed (exit ".toList ++ natStr code ++ ") for user '" ++ entry.user ++ "'"]) entries
      else defaultsLoop execute params (runs ++ [(cmd, code)]) errors entries
    else defaultsLoop execute params runs errors entries

/-- `set_password_defaults`. -/
def setPasswordDefaults (execute : Execute) (params : Defaults) (entries : Option (List Entry)) :
    Except Err Unit × Runs :=
  match entries with
  | none => (.error "users.set_password_defaults: requires 'entries' from shadow probe", [])
  | some entries =>
    if params.maxDays = none ∧ params.warnDays = none ∧ params.inactive = none then
      (.error "users.set_password_defaults: at least one of max_days, warn_days, inactive is required", [])
    else defaultsLoop execute params [] [] entries

/-! ## The policy -/

/-- The field that an option of `chage` sets. -/
def Entry.get (e : Entry) : Flag → Option Flt
  | .maxdays => e.passMaxDays
  | .mindays => e.passMinDays
  | .warndays => e.passWarnAge
  | .inactive => e.inactive

/-- A field is outside the policy: it is absent, or a maximum below 1 or above the bound, a minimum or a warning below
the bound, an inactivity negative or above the bound. -/
def Flag.outside (flag : Flag) (bound : Nat) (field : Option Flt) : Bool :=
  field.all fun v => match flag with
    | .maxdays => v.lt (.fin 1) || (Flt.fin bound).lt v
    | .mindays | .warndays => v.lt (.fin bound)
    | .inactive => v.lt (.fin 0) || (Flt.fin bound).lt v

/-- The bounds of a policy that the fields of an account are outside of. -/
def needed (bounds : List (Flag × Nat)) (e : Entry) : List (Flag × Nat) :=
  bounds.filter fun b => b.1.outside b.2 (e.get b.1)

/-- What a successful `chage` makes of a field. -/
def Chage.sets (c : Chage) (flag : Flag) : Option Nat := (c.args.find? fun a => a.1 = flag).map (·.2)

/-- A field of an account after some commands: a successful one sets the fields that it names. -/
def after (runs : Runs) (user : Str) (flag : Flag) (field : Option Flt) : Option Flt :=
  runs.foldl (fun v r => if r.2 = 0 ∧ r.1.user = user then ((r.1.sets flag).map fun n => .fin (n : Rat)).or v
    else v) field

/-- An account after some commands. -/
def Entry.after (e : Entry) (runs : Runs) : Entry :=
  ⟨e.user, Ageing.after runs e.user .mindays e.passMinDays, Ageing.after runs e.user .maxdays e.passMaxDays,
    Ageing.after runs e.user .warndays e.passWarnAge, Ageing.after runs e.user .inactive e.inactive⟩

/-- What is asked of an operation on a list of accounts, whatever the commands return: it runs a command only for
accounts out of policy, and if it returns true it has run one for each of them and leaves all accounts within it. -/
structure Repairs (operation : Execute → Except Err Unit × Runs) (bounds : List (Flag × Nat)) (entries : List Entry) :
    Prop where
  only : ∀ execute, ∀ r ∈ (operation execute).2, ∃ e ∈ entries, needed bounds e ≠ [] ∧ r.1 = ⟨needed bounds e, e.user⟩
  all : ∀ execute, (operation execute).1 = .ok () → (operation execute).2.map (·.1) =
    (entries.filter fun e => needed bounds e ≠ []).map fun e => ⟨needed bounds e, e.user⟩
  within : ∀ execute, (operation execute).1 = .ok () → ∀ e ∈ entries, needed bounds (e.after (operation execute).2) = []

/-! ## The shadow line -/

/-- A number in a line of the shadow file, or nothing. -/
def shadowField (n : Option Nat) : Str := (n.map natStr).getD []

/-- A line of the shadow file, split at its colons. -/
def shadowParts (user password changed : Str) (fields : Flag → Option Nat) (rest : List Str) : List Str :=
  user :: password :: changed :: shadowField (fields .mindays) :: shadowField (fields .maxdays) ::
    shadowField (fields .warndays) :: shadowField (fields .inactive) :: rest

/-- The fields of a line after some commands: a successful one writes the numbers that it names. -/
def fieldsAfter (runs : Runs) (user : Str) (flag : Flag) (field : Option Nat) : Option Nat :=
  runs.foldl (fun v r => if r.2 = 0 ∧ r.1.user = user then (r.1.sets flag).or v else v) field

theorem strscan_shadowField {n : Option Nat} (h : ∀ k ∈ n, k < 2 ^ 53) :
    strscan (shadowField n) = n.map fun k : Nat => Flt.fin k := by
  cases n with
  | none => rfl
  | some k => exact (strscan_natStr k).trans (congrArg some (roundDouble_natCast (h k rfl)))

/-- The numbers of a line are read back. -/
theorem buildShadowEntry_parts {user password changed : Str} {fields : Flag → Option Nat} {rest : List Str}
    (h : ∀ flag, ∀ k ∈ fields flag, k < 2 ^ 53) (flag : Flag) :
    (buildShadowEntry (shadowParts user password changed fields rest)).get flag =
      (fields flag).map fun k : Nat => Flt.fin k := by
  have hread := strscan_shadowField (h flag)
  cases flag <;> exact hread

theorem after_map_fin (user : Str) (flag : Flag) (runs : Runs) (field : Option Nat) :
    after runs user flag (field.map fun k : Nat => Flt.fin k) =
      (fieldsAfter runs user flag field).map fun k : Nat => Flt.fin k := by
  induction runs generalizing field with
  | nil => rfl
  | cons r runs ih =>
    rw [after, fieldsAfter, List.foldl_cons, List.foldl_cons, ← after, ← fieldsAfter]
    split
    · rw [← ih]
      cases r.1.sets flag <;> rfl
    · exact ih field

/-- **What a loop leaves is what the shadow file says after its commands**: the entry that is read from the line that
they leave is the old entry after them. -/
theorem buildShadowEntry_after {user password changed : Str} {fields : Flag → Option Nat} {rest : List Str}
    (runs : Runs)
    (hold : ∀ flag, ∀ k ∈ fields flag, k < 2 ^ 53)
    (hnew : ∀ flag, ∀ k ∈ fieldsAfter runs user flag (fields flag), k < 2 ^ 53) :
    (buildShadowEntry (shadowParts user password changed fields rest)).after runs =
      buildShadowEntry (shadowParts user password changed
        (fun flag => fieldsAfter runs user flag (fields flag)) rest) := by
  have hsame : ∀ flag, after runs user flag
      ((buildShadowEntry (shadowParts user password changed fields rest)).get flag) =
      (buildShadowEntry (shadowParts user password changed (fun flag => fieldsAfter runs user flag (fields flag))
        rest)).get flag := by
    intro flag
    rw [buildShadowEntry_parts hold, buildShadowEntry_parts hnew, after_map_fin]
  exact Entry.ext rfl (hsame .mindays) (hsame .maxdays) (hsame .warndays) (hsame .inactive)

/-! ## Runs -/

/-- A loop has run the commands of some accounts out of policy; without an error, those of all of them, successfully. -/
structure Ran (args : Entry → List (Flag × Nat)) (entries : List Entry) (result : Except Err Unit) (runs : Runs) :
    Prop where
  only : ∀ r ∈ runs, ∃ e ∈ entries, args e ≠ [] ∧ r.1 = ⟨args e, e.user⟩
  all : result = .ok () → runs.map (·.1) = (entries.filter fun e => args e ≠ []).map fun e => ⟨args e, e.user⟩
  success : result = .ok () → ∀ r ∈ runs, r.2 = 0

theorem Ran.nil (args : Entry → List (Flag × Nat)) : Ran args [] (.ok ()) [] :=
  ⟨fun _ h => absurd h List.not_mem_nil, fun _ => rfl, fun _ _ h => absurd h List.not_mem_nil⟩

/-- Nothing was run before an error. -/
theorem Ran.error (args : Entry → List (Flag × Nat)) (entries : List Entry) (e : Err) :
    Ran args entries (.error e) [] :=
  ⟨fun _ h => absurd h List.not_mem_nil, fun h => (by cases h), fun h => (by cases h)⟩

variable {args : Entry → List (Flag × Nat)} {entry : Entry} {entries : List Entry} {result : Except Err Unit}
    {runs : Runs}

/-- An account within the policy. -/
theorem Ran.skip (h : Ran args entries result runs) (hargs : args entry = []) :
    Ran args (entry :: entries) result runs := by
  refine ⟨fun r hr => ?_, fun hok => ?_, h.success⟩
  · obtain ⟨e, he, hne, heq⟩ := h.only r hr
    exact ⟨e, List.mem_cons_of_mem entry he, hne, heq⟩
  · rw [h.all hok, List.filter_cons_of_neg (by simp [hargs])]

/-- An account whose command succeeds. -/
theorem Ran.cons (h : Ran args entries result runs) (hargs : args entry ≠ []) :
    Ran args (entry :: entries) result ((⟨args entry, entry.user⟩, 0) :: runs) := by
  refine ⟨fun r hr => ?_, fun hok => ?_, fun hok r hr => ?_⟩
  · rcases List.mem_cons.mp hr with rfl | hr
    · exact ⟨entry, List.mem_cons_self, hargs, rfl⟩
    · obtain ⟨e, he, hne, heq⟩ := h.only r hr
      exact ⟨e, List.mem_cons_of_mem entry he, hne, heq⟩
  · rw [List.map_cons, h.all hok, List.filter_cons_of_pos (by simpa using hargs), List.map_cons]
  · rcases List.mem_cons.mp hr with rfl | hr
    · rfl
    · exact h.success hok r hr

/-- An account whose command fails: the loop returns an error. -/
theorem Ran.fail (h : ∀ r ∈ runs, ∃ e ∈ entries, args e ≠ [] ∧ r.1 = ⟨args e, e.user⟩) (hargs : args entry ≠ [])
    (code : Nat)
    (e : Err) : Ran args (entry :: entries) (.error e) ((⟨args entry, entry.user⟩, code) :: runs) := by
  refine ⟨fun r hr => ?_, fun hok => (by cases hok), fun hok => (by cases hok)⟩
  rcases List.mem_cons.mp hr with rfl | hr
  · exact ⟨entry, List.mem_cons_self, hargs, rfl⟩
  · obtain ⟨e, he, hne, heq⟩ := h r hr
    exact ⟨e, List.mem_cons_of_mem entry he, hne, heq⟩

/-- What `apply_chage_policy` asks of an entry. -/
def policyArgs (flag : Flag) (threshold : Nat) (compareFn : Option Flt → Flt → Bool) (field : Entry → Option Flt)
    (e : Entry) : List (Flag × Nat) :=
  if compareFn (field e) (.fin threshold) then [(flag, threshold)] else []

/-- What the loop of `apply_chage_policy` runs. -/
theorem ran_applyLoop (execute : Execute) (flag : Flag) (threshold : Nat) (compareFn : Option Flt → Flt → Bool)
    (logCtx : Str) (field : Entry → Option Flt) (runs : Runs) {entries : List Entry}
    (hsafe : ∀ e ∈ entries, isSafeUsername e.user = true) :
    ∃ more, (applyLoop execute flag threshold compareFn logCtx field runs entries).2 = runs ++ more ∧
      Ran (policyArgs flag threshold compareFn field) entries
        (applyLoop execute flag threshold compareFn logCtx field runs entries).1 more := by
  induction entries generalizing runs with
  | nil => exact ⟨[], (List.append_nil runs).symm, Ran.nil _⟩
  | cons entry entries ih =>
    obtain ⟨hentry, hrest⟩ := List.forall_mem_cons.mp hsafe
    have hunsafe : ¬isSafeUsername entry.user = false := by rw [hentry]; exact Bool.noConfusion
    rw [applyLoop, if_neg hunsafe]
    by_cases hcmp : compareFn (field entry) (.fin threshold) = true
    · have hargs : policyArgs flag threshold compareFn field entry = [(flag, threshold)] := if_pos hcmp
      have hne : policyArgs flag threshold compareFn field entry ≠ [] := by rw [hargs]; exact List.cons_ne_nil _ _
      rw [if_pos hcmp]
      dsimp only
      split
      · next hcode =>
        have hran := @Ran.fail _ entry entries [] (fun r hr => absurd hr List.not_mem_nil) hne
          (execute runs ⟨[(flag, threshold)], entry.user⟩)
        rw [hargs] at hran
        exact ⟨_, rfl, hran _⟩
      · next hcode =>
        rw [not_not] at hcode
        obtain ⟨more, hmore, hran⟩ := ih (runs ++ [(⟨[(flag, threshold)], entry.user⟩, 0)]) hrest
        rw [hcode]
        have hcons := hran.cons hne
        rw [hargs] at hcons
        exact ⟨_, by rw [hmore, List.append_assoc]; rfl, hcons⟩
    · have hargs : policyArgs flag threshold compareFn field entry = [] := if_neg hcmp
      rw [if_neg hcmp]
      obtain ⟨more, hmore, hran⟩ := ih runs hrest
      exact ⟨more, hmore, hran.skip hargs⟩

/-- What the loop of `set_password_defaults` runs; errors are kept to the end. -/
theorem ran_defaultsLoop (execute : Execute) (params : Defaults) (runs : Runs) (errors : List Str)
    {entries : List Entry}
    (hsafe : ∀ e ∈ entries, isSafeUsername e.user = true) :
    ∃ more, (defaultsLoop execute params runs errors entries).2 = runs ++ more ∧
      Ran (chageArgs params) entries (defaultsLoop execute params runs errors entries).1 more ∧
      (errors ≠ [] → (defaultsLoop execute params runs errors entries).1 ≠ .ok ()) := by
  induction entries generalizing runs errors with
  | nil =>
    refine ⟨[], ?_, ?_, fun h => ?_⟩
    · unfold defaultsLoop
      split <;> simp
    · unfold defaultsLoop
      split
      · exact Ran.error _ _ _
      · exact Ran.nil _
    · unfold defaultsLoop
      rw [if_pos h]
      exact fun hok => by cases hok
  | cons entry entries ih =>
    obtain ⟨hentry, hrest⟩ := List.forall_mem_cons.mp hsafe
    have hunsafe : ¬isSafeUsername entry.user = false := by rw [hentry]; exact Bool.noConfusion
    rw [defaultsLoop, if_neg hunsafe]
    by_cases hne : chageArgs params entry ≠ []
    · rw [if_pos hne]
      dsimp only
      split
      · next hcode =>
        obtain ⟨more, hmore, hran, herr⟩ := ih (runs ++ [(⟨chageArgs params entry, entry.user⟩,
          execute runs ⟨chageArgs params entry, entry.user⟩)]) (errors ++ [_]) hrest
        have hbad := herr (by simp)
        refine ⟨_, by rw [hmore, List.append_assoc], ?_, fun _ => hbad⟩
        cases hres : (defaultsLoop execute params (runs ++ [(⟨chageArgs params entry, entry.user⟩,
          execute runs ⟨chageArgs params entry, entry.user⟩)]) (errors ++ [_]) entries).1 with
        | ok u => exact absurd hres hbad
        | error e => exact Ran.fail hran.only hne _ e
      · next hcode =>
        rw [not_not] at hcode
        obtain ⟨more, hmore, hran, herr⟩ := ih (runs ++ [(⟨chageArgs params entry, entry.user⟩, 0)]) errors hrest
        rw [hcode]
        exact ⟨_, by rw [hmore, List.append_assoc]; rfl, hran.cons hne, herr⟩
    · rw [if_neg hne]
      obtain ⟨more, hmore, hran, herr⟩ := ih runs errors hrest
      exact ⟨more, hmore, hran.skip (not_not.mp hne), herr⟩

/-! ## Accounts after a run -/

/-- What makes a policy one that can be kept: one bound for a field, and a maximum of at least a day. -/
structure Proper (bounds : List (Flag × Nat)) : Prop where
  unique : ∀ b ∈ bounds, ∀ b' ∈ bounds, b.1 = b'.1 → b = b'
  pos : ∀ b ∈ bounds, b.1 = .maxdays → 1 ≤ b.2

/-- A bound is within the policy. -/
theorem outside_self {flag : Flag} {bound : Nat} (h : flag = .maxdays → 1 ≤ bound) :
    flag.outside bound (some (.fin bound)) = false := by
  cases flag with
  | maxdays =>
    have hb : 1 ≤ bound := h rfl
    simp [Flag.outside, Flt.lt]
    omega
  | mindays => simp [Flag.outside, Flt.lt]
  | warndays => simp [Flag.outside, Flt.lt]
  | inactive => simp [Flag.outside, Flt.lt]

/-- A field is as it was, and no successful command named it; or one of the commands has set it. -/
theorem after_cases (user : Str) (flag : Flag) (runs : Runs) (field : Option Flt) :
    (after runs user flag field = field ∧ ∀ r ∈ runs, r.2 = 0 → r.1.user = user → r.1.sets flag = none) ∨
      ∃ r ∈ runs, ∃ n, r.1.sets flag = some n ∧ after runs user flag field = some (.fin n) := by
  induction runs generalizing field with
  | nil => exact .inl ⟨rfl, fun r hr => absurd hr List.not_mem_nil⟩
  | cons r runs ih =>
    have hstep : after (r :: runs) user flag field = after runs user flag
        (if r.2 = 0 ∧ r.1.user = user then ((r.1.sets flag).map fun n => .fin (n : Rat)).or field else field) := rfl
    rw [hstep]
    rcases ih _ with ⟨heq, hnone⟩ | ⟨r', hr', n, hn, heq⟩
    · rw [heq]
      by_cases hr : r.2 = 0 ∧ r.1.user = user
      · rw [if_pos hr]
        cases hsets : r.1.sets flag with
        | none =>
          refine .inl ⟨rfl, fun r' hr' hok huser => ?_⟩
          rcases List.mem_cons.mp hr' with rfl | hr'
          · exact hsets
          · exact hnone r' hr' hok huser
        | some n => exact .inr ⟨r, List.mem_cons_self, n, hsets, rfl⟩
      · rw [if_neg hr]
        refine .inl ⟨rfl, fun r' hr' hok huser => ?_⟩
        rcases List.mem_cons.mp hr' with rfl | hr'
        · exact absurd ⟨hok, huser⟩ hr
        · exact hnone r' hr' hok huser
    · exact .inr ⟨r', List.mem_cons_of_mem r hr', n, hn, heq⟩

theorem get_after (e : Entry) (runs : Runs) (flag : Flag) :
    (e.after runs).get flag = after runs e.user flag (e.get flag) := by
  cases flag <;> rfl

/-- **A loop that runs the command of every account out of policy repairs them all.** -/
theorem repairs_of_ran {operation : Execute → Except Err Unit × Runs} {bounds : List (Flag × Nat)}
    {entries : List Entry}
    (hbounds : Proper bounds)
    (h : ∀ execute, Ran (needed bounds) entries (operation execute).1 (operation execute).2) :
    Repairs operation bounds entries := by
  refine ⟨fun execute => (h execute).only, fun execute => (h execute).all, fun execute hok e he => ?_⟩
  have hran := h execute
  rw [needed, List.filter_eq_nil_iff]
  intro b hb hout
  rw [get_after] at hout
  rcases after_cases e.user b.1 (operation execute).2 (e.get b.1) with ⟨heq, hnone⟩ | ⟨r, hr, n, hn, heq⟩
  · rw [heq] at hout
    have hmem : b ∈ needed bounds e := List.mem_filter.mpr ⟨hb, hout⟩
    have hne : needed bounds e ≠ [] := List.ne_nil_of_mem hmem
    have hcmd : (⟨needed bounds e, e.user⟩ : Chage) ∈ (operation execute).2.map (·.1) := by
      rw [hran.all hok]
      exact List.mem_map.mpr ⟨e, List.mem_filter.mpr ⟨he, by simpa using hne⟩, rfl⟩
    obtain ⟨r, hr, hr1⟩ := List.mem_map.mp hcmd
    have hsets := hnone r hr (hran.success hok r hr) (by rw [hr1])
    rw [hr1, Chage.sets, Option.map_eq_none_iff, List.find?_eq_none] at hsets
    exact hsets b hmem (by simp)
  · obtain ⟨e', -, -, hr1⟩ := hran.only r hr
    rw [hr1, Chage.sets, Option.map_eq_some_iff] at hn
    obtain ⟨b', hfind, rfl⟩ := hn
    have hb' : b' ∈ bounds := (List.mem_filter.mp (List.mem_of_find?_eq_some hfind)).1
    have hflag : b'.1 = b.1 := by simpa using List.find?_some hfind
    obtain rfl := hbounds.unique b' hb' b hb hflag
    rw [heq, outside_self (hbounds.pos b' hb')] at hout
    cases hout

/-! ## The three operations -/

/-- The bounds that `set_password_defaults` gets. -/
def Defaults.bounds (params : Defaults) : List (Flag × Nat) :=
  params.maxDays.toList.map (Prod.mk Flag.maxdays) ++ params.warnDays.toList.map (Prod.mk Flag.warndays) ++
    params.inactive.toList.map (Prod.mk Flag.inactive)

theorem chageArgs_eq (params : Defaults) (e : Entry) : chageArgs params e = needed params.bounds e := by
  have hnegative : ∀ c : Flt, ∀ n : Nat, (c.lt (.fin 0) || (Flt.fin n).lt c || c == .fin (-1)) =
      (c.lt (.fin 0) || (Flt.fin n).lt c) := by
    intro c n
    by_cases hc : c = .fin (-1)
    · subst hc
      simp [Flt.lt]
    · rw [beq_false_of_ne hc, Bool.or_false]
  unfold chageArgs needed Defaults.bounds
  dsimp only
  rw [List.filter_append, List.filter_append, List.filter_map, List.filter_map, List.filter_map]
  simp only [hnegative]
  rfl

theorem Defaults.proper {params : Defaults} (h : ∀ m, params.maxDays = some m → 1 ≤ m) : Proper params.bounds := by
  have hmem : ∀ b ∈ params.bounds, (b.1 = .maxdays ∧ params.maxDays = some b.2) ∨
      (b.1 = .warndays ∧ params.warnDays = some b.2) ∨ (b.1 = .inactive ∧ params.inactive = some b.2) := by
    intro b hb
    simp only [bounds, List.mem_append, List.mem_map, Option.mem_toList] at hb
    rcases hb with (⟨n, hn, rfl⟩ | ⟨n, hn, rfl⟩) | ⟨n, hn, rfl⟩
    · exact .inl ⟨rfl, hn⟩
    · exact .inr (.inl ⟨rfl, hn⟩)
    · exact .inr (.inr ⟨rfl, hn⟩)
  refine ⟨fun b hb b' hb' hflag => ?_, fun b hb hflag => ?_⟩
  · have hsnd : some b.2 = some b'.2 := by
      rcases hmem b hb with ⟨hf, hv⟩ | ⟨hf, hv⟩ | ⟨hf, hv⟩ <;>
        rcases hmem b' hb' with ⟨hf', hv'⟩ | ⟨hf', hv'⟩ | ⟨hf', hv'⟩ <;> rw [hf, hf'] at hflag <;>
          first | exact hv.symm.trans hv' | cases hflag
    exact Prod.ext hflag (Option.some.inj hsnd)
  · rcases hmem b hb with ⟨-, hv⟩ | ⟨hf, -⟩ | ⟨hf, -⟩
    · exact h _ hv
    · rw [hf] at hflag
      cases hflag
    · rw [hf] at hflag
      cases hflag

theorem proper_single {flag : Flag} {bound : Nat} (h : flag = .maxdays → 1 ≤ bound) : Proper [(flag, bound)] := by
  refine ⟨fun b hb b' hb' _ => ?_, fun b hb hflag => ?_⟩
  · rw [List.mem_singleton.mp hb, List.mem_singleton.mp hb']
  · obtain rfl := List.mem_singleton.mp hb
    exact h hflag

theorem needed_single (flag : Flag) (bound : Nat) (e : Entry) :
    needed [(flag, bound)] e = if flag.outside bound (e.get flag) then [(flag, bound)] else [] := by
  unfold needed
  rw [List.filter_cons]
  rfl

/-- **`set_password_defaults` repairs every list of accounts.** -/
theorem repairs_defaults {params : Defaults} {entries : List Entry} (hparams : ∀ m, params.maxDays = some m → 1 ≤ m)
    (hsafe : ∀ e ∈ entries, isSafeUsername e.user = true) :
    Repairs (fun execute => setPasswordDefaults execute params (some entries)) params.bounds entries := by
  refine repairs_of_ran (Defaults.proper hparams) fun execute => ?_
  have hargs : needed params.bounds = chageArgs params := funext fun e => (chageArgs_eq params e).symm
  rw [hargs]
  unfold setPasswordDefaults
  dsimp only
  split
  · exact Ran.error _ _ _
  · obtain ⟨more, hmore, hran, -⟩ := ran_defaultsLoop execute params [] [] hsafe
    rw [hmore]
    exact hran

/-- Without entries, a command for root is run. -/
theorem not_repairs_nil (flag : Flag) (threshold : Nat) (compareFn : Option Flt → Flt → Bool) (logCtx : Str)
    (field : Entry → Option Flt) (bounds : List (Flag × Nat)) :
    ¬Repairs (fun execute => applyChagePolicy execute flag threshold compareFn logCtx field (some [])) bounds [] := by
  intro h
  obtain ⟨e, he, -⟩ := h.only (fun _ _ => 0) (⟨[(flag, threshold)], "root"⟩, 0) (List.mem_singleton_self _)
  exact absurd he List.not_mem_nil

theorem applyChagePolicy_of_ne_nil (execute : Execute) (flag : Flag) (threshold : Nat)
    (compareFn : Option Flt → Flt → Bool) (logCtx : Str) (field : Entry → Option Flt) {entries : List Entry}
    (hne : entries ≠ []) : applyChagePolicy execute flag threshold compareFn logCtx field (some entries) =
      applyLoop execute flag threshold compareFn logCtx field [] entries := by
  obtain ⟨entry, rest, rfl⟩ := List.exists_cons_of_ne_nil hne
  rfl

/-- If no command fails, the loop returns true. -/
theorem applyLoop_ok (flag : Flag) (threshold : Nat) (compareFn : Option Flt → Flt → Bool) (logCtx : Str)
    (field : Entry → Option Flt) (runs : Runs) {entries : List Entry}
    (hsafe : ∀ e ∈ entries, isSafeUsername e.user = true) :
    (applyLoop (fun _ _ => 0) flag threshold compareFn logCtx field runs entries).1 = .ok () := by
  induction entries generalizing runs with
  | nil => rfl
  | cons entry entries ih =>
    obtain ⟨hentry, hrest⟩ := List.forall_mem_cons.mp hsafe
    have hunsafe : ¬isSafeUsername entry.user = false := by rw [hentry]; exact Bool.noConfusion
    rw [applyLoop, if_neg hunsafe]
    split
    · exact ih _ hrest
    · exact ih _ hrest

/-- **When `apply_chage_policy` repairs a list of accounts**, for a comparison that selects none but accounts out of
policy: the list is not empty, and the comparison selects all of them. -/
theorem repairs_policy_iff {flag : Flag} {threshold : Nat} {compareFn : Option Flt → Flt → Bool} {logCtx : Str}
    {field : Entry → Option Flt} {entries : List Entry} (hthreshold : flag = .maxdays → 1 ≤ threshold)
    (hsafe : ∀ e ∈ entries, isSafeUsername e.user = true)
    (hsound : ∀ e, compareFn (field e) (.fin threshold) = true → flag.outside threshold (e.get flag) = true) :
    Repairs (fun execute => applyChagePolicy execute flag threshold compareFn logCtx field (some entries))
      [(flag, threshold)] entries ↔
    entries ≠ [] ∧ ∀ e ∈ entries, flag.outside threshold (e.get flag) = true →
      compareFn (field e) (.fin threshold) = true := by
  have hselects : ∀ e, policyArgs flag threshold compareFn field e ≠ [] ↔
    compareFn (field e) (.fin threshold) = true := by
    intro e
    unfold policyArgs
    split <;> simp_all
  have hneeded : ∀ e, needed [(flag, threshold)] e ≠ [] ↔ flag.outside threshold (e.get flag) = true := by
    intro e
    rw [needed_single]
    split <;> simp_all
  constructor
  · intro h
    have hne : entries ≠ [] := by
      rintro rfl
      exact not_repairs_nil _ _ _ _ _ _ h
    refine ⟨hne, fun e he hout => ?_⟩
    have hok := applyLoop_ok flag threshold compareFn logCtx field [] hsafe
    obtain ⟨more, hmore, hran⟩ := ran_applyLoop (fun _ _ => 0) flag threshold compareFn logCtx field [] hsafe
    have hall := h.all fun _ _ => 0
    simp only [applyChagePolicy_of_ne_nil _ flag threshold compareFn logCtx field hne] at hall
    have hmap := hall hok
    rw [hmore, List.nil_append, hran.all hok] at hmap
    have hlen := congrArg List.length hmap
    rw [List.length_map, List.length_map] at hlen
    have hsub : (entries.filter fun e => needed [(flag, threshold)] e ≠ []).filter
        (fun e => policyArgs flag threshold compareFn field e ≠ []) =
        entries.filter fun e => policyArgs flag threshold compareFn field e ≠ [] := by
      rw [List.filter_filter]
      refine List.filter_congr fun e _ => ?_
      rw [Bool.and_eq_left_iff_imp]
      intro hsel
      exact decide_eq_true ((hneeded e).mpr (hsound e ((hselects e).mp (of_decide_eq_true hsel))))
    rw [← hsub, List.length_filter_eq_length_iff] at hlen
    have hsel := hlen e (List.mem_filter.mpr ⟨he, decide_eq_true ((hneeded e).mpr hout)⟩)
    exact (hselects e).mp (of_decide_eq_true hsel)
  · rintro ⟨hne, hall⟩
    refine repairs_of_ran (proper_single hthreshold) fun execute => ?_
    rw [applyChagePolicy_of_ne_nil _ _ _ _ _ _ hne]
    obtain ⟨more, hmore, hran⟩ := ran_applyLoop execute flag threshold compareFn logCtx field [] hsafe
    rw [hmore, List.nil_append]
    have hargs : ∀ e ∈ entries, policyArgs flag threshold compareFn field e = needed [(flag, threshold)] e := by
      intro e he
      rw [needed_single, policyArgs]
      by_cases hout : flag.outside threshold (e.get flag) = true
      · rw [if_pos (hall e he hout), if_pos hout]
      · rw [if_neg fun hsel => hout (hsound e hsel), if_neg hout]
    refine ⟨fun r hr => ?_, fun hok => ?_, hran.success⟩
    · obtain ⟨e, he, hne, heq⟩ := hran.only r hr
      rw [hargs e he] at hne heq
      exact ⟨e, he, hne, heq⟩
    · rw [hran.all hok, List.filter_congr fun e he => by rw [hargs e he]]
      refine List.map_congr_left fun e he => ?_
      rw [hargs e (List.mem_filter.mp he).1]

/-- **When the three operations repair a list of accounts**: it is not empty, and no account has a maximum below 1. -/
theorem ageing_iff {entries : List Entry} {params : Defaults} {maxDays : Option Nat} (minDays : Option Nat)
    (hsafe : ∀ e ∈ entries, isSafeUsername e.user = true) (hparams : ∀ m, params.maxDays = some m → 1 ≤ m)
    (hmax : ∀ m, maxDays = some m → 1 ≤ m) :
    (Repairs (fun execute => setPasswordDefaults execute params (some entries)) params.bounds entries ∧
      Repairs (fun execute => setPasswordMaxDaysForRoot execute maxDays (some entries))
        [(.maxdays, maxDays.getD 90)] entries ∧
      Repairs (fun execute => setPasswordMinDaysForRoot execute minDays (some entries))
        [(.mindays, minDays.getD 7)] entries) ↔
    entries ≠ [] ∧ ∀ e ∈ entries, ∀ v, e.passMaxDays = some v → v.lt (.fin 1) = false := by
  have hpos : 1 ≤ maxDays.getD 90 := by
    cases maxDays with
    | none => decide
    | some m => exact hmax m rfl
  have hmaxIff := @repairs_policy_iff .maxdays (maxDays.getD 90)
    (fun current threshold => current.all fun c => threshold.lt c) "set_password_max_days_for_root" Entry.passMaxDays
    entries (fun _ => hpos) hsafe fun e h => by
      unfold Flag.outside Entry.get
      cases hv : e.passMaxDays with
      | none => rfl
      | some v =>
        rw [hv] at h
        simp only [Option.all_some] at h ⊢
        rw [h, Bool.or_true]
  have hminIff := @repairs_policy_iff .mindays (minDays.getD 7)
    (fun current threshold => current.all fun c => c.lt threshold) "set_password_min_days_for_root" Entry.passMinDays
    entries (fun h => by cases h) hsafe fun e h => by exact h
  have hbelow : ∀ v : Flt, v.lt (.fin 1) = true → (Flt.fin (maxDays.getD 90 : Nat)).lt v = false := by
    intro v hv
    have hle : (1 : Rat) ≤ (maxDays.getD 90 : Nat) := by exact_mod_cast hpos
    cases v with
    | nan => cases hv
    | inf n => cases n with
      | true => rfl
      | false => cases hv
    | fin q =>
      have hq : q < 1 := of_decide_eq_true hv
      exact decide_eq_false (not_lt.mpr (hq.le.trans hle))
  constructor
  · rintro ⟨-, h, -⟩
    obtain ⟨hne, hall⟩ := hmaxIff.mp h
    refine ⟨hne, fun e he v hv => ?_⟩
    by_contra hlt
    rw [Bool.not_eq_false] at hlt
    have hout : Flag.outside .maxdays (maxDays.getD 90) (e.get .maxdays) = true := by
      unfold Flag.outside Entry.get
      rw [hv]
      simp only [Option.all_some]
      rw [hlt, Bool.true_or]
    have hsel := hall e he hout
    rw [hv] at hsel
    rw [Option.all_some, hbelow v hlt] at hsel
    cases hsel
  · rintro ⟨hne, hall⟩
    refine ⟨repairs_defaults hparams hsafe, hmaxIff.mpr ⟨hne, fun e he hout => ?_⟩,
      hminIff.mpr ⟨hne, fun e he hout => hout⟩⟩
    unfold Flag.outside Entry.get at hout
    cases hv : e.passMaxDays with
    | none => rfl
    | some v =>
      rw [hv] at hout
      simp only [Option.all_some] at hout ⊢
      rw [hall e he v hv, Bool.false_or] at hout
      exact hout

/-- A list with an account out of policy in every field. -/
theorem ageing_iff_bob :
    (Repairs (fun execute => setPasswordDefaults execute ⟨some 365, some 7, none⟩
        (some [⟨"bob", none, some (.fin 99999), some (.fin 3), none⟩]))
        (Defaults.bounds ⟨some 365, some 7, none⟩) [⟨"bob", none, some (.fin 99999), some (.fin 3), none⟩] ∧
      Repairs (fun execute => setPasswordMaxDaysForRoot execute (some 365)
        (some [⟨"bob", none, some (.fin 99999), some (.fin 3), none⟩]))
        [(.maxdays, 365)] [⟨"bob", none, some (.fin 99999), some (.fin 3), none⟩] ∧
      Repairs (fun execute => setPasswordMinDaysForRoot execute none
        (some [⟨"bob", none, some (.fin 99999), some (.fin 3), none⟩]))
        [(.mindays, 7)] [⟨"bob", none, some (.fin 99999), some (.fin 3), none⟩]) ↔
    [(⟨"bob", none, some (.fin 99999), some (.fin 3), none⟩ : Entry)] ≠ [] ∧
      ∀ e ∈ [(⟨"bob", none, some (.fin 99999), some (.fin 3), none⟩ : Entry)], ∀ v, e.passMaxDays = some v →
        v.lt (.fin 1) = false :=
  @ageing_iff [⟨"bob", none, some (.fin 99999), some (.fin 3), none⟩] ⟨some 365, some 7, none⟩ (some 365) none
    (fun e he => by rw [List.mem_singleton.mp he]; decide +kernel) (fun m h => by cases h; decide)
    fun m h => by cases h; decide

/-- An account whose password never expires is passed over, and an empty list is a command for root. -/
theorem ageing_never_expires :
    (¬∀ (entries : List Entry) (maxDays : Nat), (∀ e ∈ entries, isSafeUsername e.user = true) → 1 ≤ maxDays →
      Repairs (fun execute => setPasswordMaxDaysForRoot execute (some maxDays) (some entries)) [(.maxdays, maxDays)]
        entries) ∧
    (setPasswordMaxDaysForRoot (fun _ _ => 0) (some 90) (some [])).2 = [(⟨[(.maxdays, 90)], "root"⟩, 0)] := by
  refine ⟨fun h => ?_, by decide +kernel⟩
  have hsafe : ∀ e ∈ [(⟨"bob", none, some (.fin (-1)), none, none⟩ : Entry)], isSafeUsername e.user = true := by
    intro e he
    rw [List.mem_singleton.mp he]
    decide +kernel
  have hrun : setPasswordMaxDaysForRoot (fun _ _ => 0) (some 90) (some [⟨"bob", none, some (.fin (-1)), none, none⟩]) =
      (.ok (), []) := by decide +kernel
  have hwithin := (h _ 90 hsafe (by decide)).within fun _ _ => 0
  simp only [hrun] at hwithin
  have hneeded : needed [(.maxdays, 90)] (Entry.after ⟨"bob", none, some (.fin (-1)), none, none⟩ []) =
    [(.maxdays, 90)] := by
    decide +kernel
  have hnil := hwithin trivial _ (List.mem_singleton_self _)
  rw [hneeded] at hnil
  cases hnil

end Ageing

end Seharden
