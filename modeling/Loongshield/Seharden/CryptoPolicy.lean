import Loongshield.Seharden.AuditRoundTrip
import Loongshield.Seharden.Trim

/-!
# `shared/crypto_policy.lua` and `enforcers/crypto_policy.lua`

A policy is a base and subpolicies, with colons between them. The enforcer merges the policy it is asked for with the
one in the configuration file and passes the result to a command. What it is asked for is checked; what is in the file
is not.

- `buildEffectivePolicy`: the merge;
- `effective_policy_merges`: it loses nothing, and merging again changes nothing;
- `policy_word_safe_iff`: when the result is one word of the command.
-/

namespace Seharden

open Lua Pattern

/-! ## Policies -/

/-- `parse_policy_string`. -/
def parsePolicyString (policy : Str) : Option Str × List Str :=
  match captures (substitute policy "%s+" []) "[^:]+" with
  | [] => (none, [])
  | base :: subpolicies => (some base, subpolicies)

/-- The base of a merge: a base other than the default is kept where the default is asked for. -/
def mergedBase (requestedBase currentBase : Str) : Str :=
  if requestedBase = "DEFAULT".toList ∧ currentBase ≠ "DEFAULT".toList ∧ currentBase ≠ "LEGACY".toList then currentBase
  else requestedBase

/-- `build_effective_policy`; without a current policy there is nothing to merge. -/
def buildEffectivePolicy (requestedPolicy : Str) (currentPolicy : Option Str) : Str :=
  match parsePolicyString requestedPolicy, currentPolicy with
  | _, none => requestedPolicy
  | (requestedBase, requestedSubs), some current =>
    if current = [] then requestedPolicy
    else match parsePolicyString current with
      | (none, _) => requestedPolicy
      | (some currentBase, currentSubs) =>
        if requestedSubs = [] then requestedPolicy
        else
          let merged := requestedSubs.foldl appendUnique (currentSubs.foldl appendUnique [])
          merged.foldl (fun result sub => result ++ ":" ++ sub) (mergedBase (requestedBase.getD []) currentBase)

/-! ## The enforcer -/

section Enforcer

variable (env : Env)

/-- `sanitize_policy_token`. -/
def sanitizePolicyToken (value : Value) (context : Str) : Except Str Str :=
  match value with
  | .str s =>
    if s = [] then .error ("crypto_policy.set_policy: invalid " ++ context)
    else if isMatch s "[^%w%:%._%-]" then
      .error ("crypto_policy.set_policy: " ++ context ++ " '" ++ s ++ "' contains invalid characters")
    else .ok s
  | _ => .error ("crypto_policy.set_policy: invalid " ++ context)

/-- `sanitize_module_content`. -/
def sanitizeModuleContent : Value → Option Str
  | .str s => if isMatch s "[%;%|%&%$%(%)%`%!%<%>]" then none else some s
  | _ => none

/-- The first line of a text: `f:read('*l')`. -/
def firstLine (content : Str) : Option Str := (splitLines content).head?

/-- `file:read`, as a function of the text; `nil` on an error. -/
def fileRead (path : Str) (read : Str → Option Str) : FsM (Option Str) :=
  .step fun s => match env.failure s.clock with
    | some _ => (none, s.tick)
    | none => ((s.disk path).bind fun file => read file.content, s.tick)

/-- `detect_current_policy`. -/
def detectCurrentPolicy (path : Str) : FsM (Option Str) := do
  match ← ioOpenRead env path with
  | .error _ => return none
  | .ok () =>
    match ← fileRead env path firstLine with
    | none => return none
    | some content =>
      if content = [] then return none
      else return some (substitute (substitute content "^%s+" []) "%s+$" [])

/-- `read_file`. -/
def readFile (path : Str) : FsM (Option Str) := do
  match ← ioOpenRead env path with
  | .error _ => return none
  | .ok () => fileRead env path some

/-- `write_file_if_changed`. -/
def writeFileIfChanged (path content : Str) : FsM Ret := do
  if (← readFile env path) = some content then return .ok ()
  else
    match ← ioOpenWrite env path with
    | .error _ => return .error ("crypto_policy.set_policy: cannot write '" ++ path ++ "'")
    | .ok () =>
      let _ ← fileWrite env path content
      match ← fileClose env path with
      | .error _ => return .error ("crypto_policy.set_policy: cannot close '" ++ path ++ "'")
      | .ok () => return .ok ()

/-- `write_module`. -/
def writeModule (mod modulesDir : Value) : FsM Ret := do
  let name ← Act.lift (mod.index (.str "name"))
  let content ← if name.truthy then Act.lift (mod.index (.str "content")) else pure .nil
  if !name.truthy || content.isNil then
    return .error "crypto_policy.set_policy: each module entry requires 'name' and 'content'".toList
  else
    match sanitizePolicyToken name "module name" with
    | .error err => return .error err
    | .ok modName =>
      match sanitizeModuleContent content with
      | none => return .error ("crypto_policy.set_policy: invalid content for module '" ++ modName ++ "'")
      | some text =>
        let dir ← textArg modulesDir
        writeFileIfChanged env (dir ++ "/" ++ modName ++ ".pmod") text

/-- The loop of `set_policy` over the modules. -/
def writeModules (modulesDir : Value) : List Value → FsM Ret
  | [] => return .ok ()
  | mod :: mods => do
    match ← writeModule env mod modulesDir with
    | .error err => return .error err
    | .ok () => writeModules modulesDir mods

/-- The part of `set_policy` with the modules. -/
def createModules (params : Value) : FsM Ret :=
  let modulesDir := if (params.field "modules_dir").truthy then params.field "modules_dir"
    else .str "/etc/crypto-policies/policies/modules"
  let modules := params.field "modules"
  if !modules.truthy then return .ok ()
  else if !modules.isTable then .raise "bad argument #1 to 'ipairs'"
  else writeModules env modulesDir modules.ipairs

/-- The path of the configuration file. -/
def currentPolicyPath (params : Value) : Value :=
  if (params.field "current_policy_path").truthy then params.field "current_policy_path"
  else .str "/etc/crypto-policies/config"

/-- A path for `io.open`. -/
def pathArg (v : Value) : FsM Str :=
  match concatText v with
  | some path => pure path
  | none => .raise ("bad argument #1 to 'open' (string expected, got " ++ v.typeName ++ ")")

/-- `set_policy` up to the command: the policy that is passed to it. -/
def effectivePolicy (params : Value) : FsM (Except Str Str) := do
  if !params.truthy || !(params.field "policy").truthy then
    return .error "crypto_policy.set_policy: requires 'policy' parameter".toList
  else
    match sanitizePolicyToken (params.field "policy") "policy" with
    | .error err => return .error err
    | .ok policy =>
      match ← createModules env params with
      | .error err => return .error err
      | .ok () =>
        let path ← pathArg (currentPolicyPath params)
        let current ← detectCurrentPolicy env path
        return .ok (buildEffectivePolicy policy current)

/-- The command of `set_policy`. -/
def setPolicyCommand (policy : Str) : Str := "update-crypto-policies --set " ++ policy ++ " 2>&1"

/-- `run`, where `execute` gives the first and the third result of `os.execute`. -/
def runCommand (execute : Str → Value × Value) (cmd : Str) : Ret :=
  if Value.rawEq (execute cmd).1 (.bool true) || Value.rawEq (execute cmd).2 (.num 0) then .ok ()
  else .error ("command failed (exit " ++ (execute cmd).2.tostring ++ "): " ++ cmd)

/-- `set_policy`. -/
def setPolicy (execute : Str → Value × Value) (params : Value) : FsM Ret := do
  match ← effectivePolicy env params with
  | .error err => return .error err
  | .ok policy => return runCommand execute (setPolicyCommand policy)

end Enforcer

/-! ## Parts of a policy -/

/-- A text without the characters of a class. -/
theorem substitute_runs {pat : Str} {c : Single} (hpat : compile pat = [.single c .plus])
    (hanchor : pat.head? ≠ some '^') (s : Str) : substitute s pat [] = s.filter fun x => !c.test x := by
  refine substitute_of hanchor hpat rfl rfl rfl (fun x s hnone => ?_) (fun x s r segs hm => ?_) s
  · have hx : ¬c.test x = true := fun hx => by
      rw [matchRest_run s hx] at hnone
      cases hnone
    rw [List.filter_cons_of_pos (by simpa using hx)]
  · by_cases hx : c.test x = true
    · rw [matchRest_run s hx] at hm
      obtain rfl := (Prod.mk.inj (Option.some.inj hm)).1
      refine ⟨List.length_dropWhile_le _ _, ?_⟩
      have hrun : (s.takeWhile c.test).filter (fun x => !c.test x) = [] :=
        List.filter_eq_nil_iff.mpr fun y hy => by simp [List.mem_takeWhile_imp hy]
      rw [List.filter_cons_of_neg (by simp [hx]), List.nil_append]
      conv_lhs => rw [← @List.takeWhile_append_dropWhile _ c.test s, List.filter_append, hrun, List.nil_append]
    · rw [matchRest, if_neg hx] at hm
      cases hm

theorem compile_blanks : compile "%s+" = [.single blank .plus] := rfl

theorem compile_part : compile "[^:]+" = [.single (allBut ':') .plus] := rfl

/-- The parts of a policy, blanks aside. -/
def policyParts (policy : Str) : List Str := words (allBut ':') (policy.filter fun x => !isspace x)

theorem parsePolicyString_eq (policy : Str) : parsePolicyString policy = match policyParts policy with
    | [] => (none, [])
    | base :: subpolicies => (some base, subpolicies) := by
  unfold parsePolicyString policyParts
  rw [substitute_runs compile_blanks (by decide), captures_runs compile_part]
  rfl

/-- A part of a policy has characters, but no colons and no blanks. -/
def IsPart (part : Str) : Prop := part ≠ [] ∧ ∀ x ∈ part, x ≠ ':' ∧ isspace x = false

theorem isPart_of_mem {policy part : Str} (h : part ∈ policyParts policy) : IsPart part := by
  obtain ⟨hne, hsub⟩ := words_spec h
  refine ⟨hne, fun x hx => ⟨allBut_test.mp (mem_words h x hx), ?_⟩⟩
  have hmem := hsub x hx
  simpa using (List.mem_filter.mp hmem).2

/-- A base and its subpolicies in one text. -/
def joinPolicy (base : Str) (subs : List Str) : Str := base ++ subs.flatMap fun sub => ':' :: sub

theorem foldl_joinPolicy (subs : List Str) (base : Str) :
    subs.foldl (fun (result sub : Str) => result ++ ":" ++ sub) base = joinPolicy base subs := by
  induction subs generalizing base with
  | nil => simp [joinPolicy]
  | cons sub subs ih =>
    rw [List.foldl_cons, ih]
    simp [joinPolicy]

/-- **What is joined is read back.** -/
theorem parse_joinPolicy {base : Str} {subs : List Str} (hbase : IsPart base) (hsubs : ∀ sub ∈ subs, IsPart sub) :
    parsePolicyString (joinPolicy base subs) = (some base, subs) := by
  have hcolon : isspace ':' = false := rfl
  have hkeep : (joinPolicy base subs).filter (fun x => !isspace x) = joinPolicy base subs := by
    refine List.filter_eq_self.mpr fun x hx => ?_
    rcases List.mem_append.mp hx with hx | hx
    · simp [(hbase.2 x hx).2]
    · obtain ⟨sub, hsub, hx⟩ := List.mem_flatMap.mp hx
      rcases List.mem_cons.mp hx with rfl | hx
      · rfl
      · simp [((hsubs sub hsub).2 x hx).2]
  have hwords : ∀ {base : Str} {subs : List Str}, IsPart base → (∀ sub ∈ subs, IsPart sub) →
      words (allBut ':') (joinPolicy base subs) = base :: subs := by
    intro base subs hbase hsubs
    induction subs generalizing base with
    | nil =>
      unfold joinPolicy
      exact words_append hbase.1 (fun x hx => allBut_test.mpr (hbase.2 x hx).1) nofun
    | cons sub subs ih =>
      have hrest := ih (hsubs sub List.mem_cons_self) fun s hs => hsubs s (List.mem_cons_of_mem sub hs)
      have hsplit : joinPolicy base (sub :: subs) = base ++ ':' :: joinPolicy sub subs := by simp [joinPolicy]
      rw [hsplit, words_append hbase.1 (fun x hx => allBut_test.mpr (hbase.2 x hx).1), words_cons_of_neg _ rfl, hrest]
      rintro x ⟨⟩
      rfl
  rw [parsePolicyString_eq, policyParts, hkeep, hwords hbase hsubs]

/-! ## First occurrences -/

/-- What is behind a list are the first occurrences of what it lacks. -/
theorem foldl_appendUnique (acc l : List Str) : l.foldl appendUnique acc = acc ++ (unique l).filter (· ∉ acc) := by
  induction l using List.reverseRecOn with
  | nil => simp [unique]
  | append_singleton l x ih =>
    have hunique : unique (l ++ [x]) = appendUnique (unique l) x := by simp [unique, List.foldl_append]
    rw [List.foldl_append, ih, hunique, List.foldl_cons, List.foldl_nil]
    unfold appendUnique
    by_cases hacc : x ∈ acc
    · rw [if_pos (List.mem_append_left _ hacc)]
      split
      · rfl
      · rw [List.filter_append, List.filter_cons_of_neg (by simpa using hacc), List.filter_nil, List.append_nil]
    · by_cases hx : x ∈ unique l
      · rw [if_pos hx, if_pos (List.mem_append_right _ (List.mem_filter.mpr ⟨hx, by simpa using hacc⟩))]
      · have hnot : x ∉ acc ++ (unique l).filter (· ∉ acc) := by
          rw [List.mem_append, List.mem_filter]
          exact fun h => h.elim hacc fun h => hx h.1
        rw [if_neg hnot, if_neg hx, List.filter_append, List.filter_cons_of_pos (by simpa using hacc), List.filter_nil,
          List.append_assoc]

theorem foldl_appendUnique_of_subset {acc l : List Str} (h : ∀ x ∈ l, x ∈ acc) : l.foldl appendUnique acc = acc := by
  induction l with
  | nil => rfl
  | cons x l ih =>
    have hx : appendUnique acc x = acc := if_pos (h x List.mem_cons_self)
    rw [List.foldl_cons, hx, ih fun y hy => h y (List.mem_cons_of_mem x hy)]

/-- A list without repetitions is behind another as it is, if they have nothing in common. -/
theorem foldl_appendUnique_of_disjoint : ∀ {l acc : List Str}, l.Nodup → (∀ x ∈ l, x ∉ acc) →
    l.foldl appendUnique acc = acc ++ l
  | [], acc, _, _ => (List.append_nil acc).symm
  | x :: l, acc, hnodup, hacc => by
    obtain ⟨hx, hl⟩ := List.nodup_cons.mp hnodup
    have hstep : appendUnique acc x = acc ++ [x] := if_neg (hacc x List.mem_cons_self)
    rw [List.foldl_cons, hstep, foldl_appendUnique_of_disjoint hl, List.append_assoc, List.singleton_append]
    intro y hy hmem
    rcases List.mem_append.mp hmem with hmem | hmem
    · exact hacc y (List.mem_cons_of_mem x hy) hmem
    · exact hx (List.mem_singleton.mp hmem ▸ hy)

/-! ## The merge -/

/-- What is merged with a current policy, where there is something to merge. -/
theorem buildEffectivePolicy_eq {requested current rb cb : Str} {rs cs : List Str}
    (hr : parsePolicyString requested = (some rb, rs)) (hc : parsePolicyString current = (some cb, cs))
      (hrs : rs ≠ []) :
    buildEffectivePolicy requested (some current) =
      joinPolicy (mergedBase rb cb) (rs.foldl appendUnique (cs.foldl appendUnique [])) := by
  have hne : current ≠ [] := by
    rintro rfl
    cases hc
  unfold buildEffectivePolicy
  rw [hr]
  dsimp only
  rw [if_neg hne, hc]
  dsimp only
  rw [if_neg hrs, foldl_joinPolicy]
  rfl

theorem isPart_of_parse {policy base : Str} {subs : List Str} (h : parsePolicyString policy = (some base, subs)) :
    IsPart base ∧ ∀ sub ∈ subs, IsPart sub := by
  rw [parsePolicyString_eq] at h
  cases hparts : policyParts policy with
  | nil =>
    rw [hparts] at h
    cases h
  | cons part parts =>
    rw [hparts] at h
    cases h
    have hpart : ∀ p ∈ base :: subs, IsPart p := fun p hp => isPart_of_mem (hparts ▸ hp)
    exact ⟨hpart base List.mem_cons_self, fun sub hsub => hpart sub (List.mem_cons_of_mem base hsub)⟩

theorem isPart_mergedBase {rb cb : Str} (hrb : IsPart rb) (hcb : IsPart cb) : IsPart (mergedBase rb cb) := by
  unfold mergedBase
  split
  · exact hcb
  · exact hrb

/-- **A merge loses nothing, and merging again changes nothing.** -/
theorem effective_policy_merges (requested current rb cb : Str) (rs cs : List Str)
    (hr : parsePolicyString requested = (some rb, rs)) (hrs : rs ≠ [])
      (hc : parsePolicyString current = (some cb, cs)) :
    ∃ subs : List Str,
      parsePolicyString (buildEffectivePolicy requested (some current)) = (some
        (if rb = "DEFAULT".toList ∧ cb ≠ "DEFAULT".toList ∧ cb ≠ "LEGACY".toList then cb else rb), subs) ∧
      subs.Nodup ∧ (∀ sub, sub ∈ subs ↔ sub ∈ cs ∨ sub ∈ rs) ∧
      subs = unique cs ++ (unique rs).filter (· ∉ cs) ∧
      buildEffectivePolicy requested (some (buildEffectivePolicy requested (some current))) =
        buildEffectivePolicy requested (some current) := by
  obtain ⟨hrb, hrparts⟩ := isPart_of_parse hr
  obtain ⟨hcb, hcparts⟩ := isPart_of_parse hc
  have hmem : ∀ sub, sub ∈ rs.foldl appendUnique (cs.foldl appendUnique []) ↔ sub ∈ cs ∨ sub ∈ rs := by
    intro sub
    rw [mem_foldl_appendUnique, mem_foldl_appendUnique]
    simp
  have hnodup : (rs.foldl appendUnique (cs.foldl appendUnique [])).Nodup :=
    nodup_foldl_appendUnique (nodup_foldl_appendUnique List.nodup_nil)
  have horder : rs.foldl appendUnique (cs.foldl appendUnique []) = unique cs ++ (unique rs).filter (· ∉ cs) := by
    have hsame : ∀ x, x ∈ cs.foldl appendUnique [] ↔ x ∈ cs := fun x => by rw [mem_foldl_appendUnique]; simp
    rw [foldl_appendUnique]
    simp only [hsame]
    rfl
  have hbase := isPart_mergedBase hrb hcb
  have hparts : ∀ sub ∈ rs.foldl appendUnique (cs.foldl appendUnique []), IsPart sub := fun sub hsub =>
    ((hmem sub).mp hsub).elim (hcparts sub) (hrparts sub)
  have hbuild := buildEffectivePolicy_eq hr hc hrs
  have hparse := parse_joinPolicy hbase hparts
  refine ⟨_, by rw [hbuild]; exact hparse, hnodup, hmem, horder, ?_⟩
  -- merged again: the base stays, and no subpolicy is new
  have hagain : mergedBase rb (mergedBase rb cb) = mergedBase rb cb := by
    unfold mergedBase
    by_cases h : rb = "DEFAULT".toList ∧ cb ≠ "DEFAULT".toList ∧ cb ≠ "LEGACY".toList
    · rw [if_pos h, if_pos h]
    · rw [if_neg h, ite_self]
  have hsubs : rs.foldl appendUnique ((rs.foldl appendUnique (cs.foldl appendUnique [])).foldl appendUnique []) =
      rs.foldl appendUnique (cs.foldl appendUnique []) := by
    rw [foldl_appendUnique_of_disjoint hnodup (by simp), List.nil_append]
    exact foldl_appendUnique_of_subset fun x hx => (hmem x).mpr (.inr hx)
  rw [hbuild, buildEffectivePolicy_eq hr hparse hrs, hagain, hsubs]

theorem fips_keeps_base : ∃ subs : List Str,
    parsePolicyString (buildEffectivePolicy "DEFAULT:NO-SHA1" (some "FIPS:OSPP")) = (some "FIPS".toList, subs) ∧
      subs.Nodup := by
  obtain ⟨subs, hparse, hnodup, -⟩ := effective_policy_merges "DEFAULT:NO-SHA1" "FIPS:OSPP" "DEFAULT" "FIPS" ["NO-SHA1"]
    ["OSPP"] (by decide +kernel) (by decide) (by decide +kernel)
  exact ⟨subs, hparse, hnodup⟩

/-! ## The word of the command -/

/-- The characters of a policy. -/
def PolicyText (text : Str) : Prop := ∀ x ∈ text, isalnum x = true ∨ x = ':' ∨ x = '.' ∨ x = '_' ∨ x = '-'

/-- One word of the command that is no option: a policy whose first character starts a name. -/
def SafeWord (word : Str) : Prop := PolicyText word ∧ ∃ x rest, word = x :: rest ∧ x ≠ ':' ∧ x ≠ '-'

/-- What is asked for and what is in the file make a word of the command: where the two are merged, the subpolicies of
the file and the base of the file, if it is kept, have no other characters, and the base is no option; where they are
not, what is asked for starts with a name. -/
def SafePolicies (policy : Str) (current : Option Str) : Prop :=
  match parsePolicyString policy, current.map parsePolicyString with
  | (some rb, _ :: _), some (some cb, cs) =>
    (∀ sub ∈ cs, PolicyText sub) ∧ PolicyText (mergedBase rb cb) ∧ (mergedBase rb cb).head? ≠ some '-'
  | _, _ => policy.head? ≠ some ':' ∧ policy.head? ≠ some '-'

/-- The class of what is refused. -/
def refusedClass : Single := .set true [.cls 'w', .cls ':', .cls '.', .lit '_', .cls '-']

theorem refusedClass_test (x : Char) :
    refusedClass.test x = false ↔ isalnum x = true ∨ x = ':' ∨ x = '.' ∨ x = '_' ∨ x = '-' := by
  have hw : matchClass 'w' x = isalnum x := rfl
  have hcolon : matchClass ':' x = (':' == x) := rfl
  have hdot : matchClass '.' x = ('.' == x) := rfl
  have hminus : matchClass '-' x = ('-' == x) := rfl
  have htest : refusedClass.test x = !(isalnum x || (':' == x || ('.' == x || ('_' == x || '-' == x)))) := by
    simp only [refusedClass, Single.test, List.any_cons, List.any_nil, SetItem.test, hw, hcolon, hdot, hminus,
      Bool.or_false, Bool.bne_true]
  rw [htest, Bool.not_eq_false']
  simp only [Bool.or_eq_true, beq_iff_eq, @eq_comm _ _ x]

theorem policyText_of_sanitize {v : Value} {context policy : Str} (h : sanitizePolicyToken v context = .ok policy) :
    v = .str policy ∧ policy ≠ [] ∧ PolicyText policy := by
  unfold sanitizePolicyToken at h
  split at h
  · next s =>
    split at h
    · cases h
    · next hne =>
      split at h
      · cases h
      · next hmatch =>
        cases h
        refine ⟨rfl, hne, fun x hx => (refusedClass_test x).mp ?_⟩
        by_contra htest
        rw [Bool.not_eq_false] at htest
        exact hmatch (isMatch_iff.mpr ((@strMatch_somewhere _ _ rfl (by decide) policy).mpr ⟨x, hx, htest⟩))
  · cases h

theorem policyText_append {a b : Str} : PolicyText (a ++ b) ↔ PolicyText a ∧ PolicyText b := by
  unfold PolicyText
  exact List.forall_mem_append

theorem policyText_joinPolicy {base : Str} {subs : List Str} :
    PolicyText (joinPolicy base subs) ↔ PolicyText base ∧ ∀ sub ∈ subs, PolicyText sub := by
  unfold joinPolicy
  rw [policyText_append]
  refine and_congr_right fun _ => ⟨fun h sub hsub x hx => ?_, fun h x hx => ?_⟩
  · exact h x (List.mem_flatMap.mpr ⟨sub, hsub, List.mem_cons_of_mem ':' hx⟩)
  · obtain ⟨sub, hsub, hx⟩ := List.mem_flatMap.mp hx
    rcases List.mem_cons.mp hx with rfl | hx
    · exact .inr (.inl rfl)
    · exact h sub hsub x hx

/-- A part of a policy that was checked has only characters that were checked. -/
theorem policyText_part {policy part : Str} (h : PolicyText policy) (hpart : part ∈ policyParts policy) :
    PolicyText part := by
  intro x hx
  exact h x (List.mem_filter.mp ((words_spec hpart).2 x hx)).1

theorem policyText_of_parse {policy base : Str} {subs : List Str} (hpolicy : PolicyText policy)
    (h : parsePolicyString policy = (some base, subs)) : PolicyText base ∧ ∀ sub ∈ subs, PolicyText sub := by
  rw [parsePolicyString_eq] at h
  cases hparts : policyParts policy with
  | nil =>
    rw [hparts] at h
    cases h
  | cons part parts =>
    rw [hparts] at h
    cases h
    have hpart : ∀ p ∈ base :: subs, PolicyText p := fun p hp => policyText_part hpolicy (hparts ▸ hp)
    exact ⟨hpart base List.mem_cons_self, fun sub hsub => hpart sub (List.mem_cons_of_mem base hsub)⟩

theorem safeWord_of_nonempty {word : Str} (hne : word ≠ []) :
    SafeWord word ↔ PolicyText word ∧ word.head? ≠ some ':' ∧ word.head? ≠ some '-' := by
  unfold SafeWord
  refine and_congr_right fun _ => ?_
  cases word with
  | nil => exact absurd rfl hne
  | cons x rest => simp

/-- Without something to merge, what is asked for is passed on. -/
theorem buildEffectivePolicy_alone {policy : Str} {current : Option Str}
    (h : ∀ rb sub rs cb cs, parsePolicyString policy = (some rb, sub :: rs) →
      current.map parsePolicyString = some (some cb, cs) → False) : buildEffectivePolicy policy current = policy := by
  unfold buildEffectivePolicy
  cases current with
  | none => rfl
  | some c =>
    dsimp only
    split
    · rfl
    · split
      · rfl
      · next cb cs hc =>
        split
        · rfl
        · next hrs =>
          obtain ⟨sub, rs, hsubs⟩ := List.exists_cons_of_ne_nil hrs
          obtain ⟨rb, hbase⟩ : ∃ rb, (parsePolicyString policy).1 = some rb := by
            rw [parsePolicyString_eq] at hsubs ⊢
            cases hparts : policyParts policy with
            | nil =>
              rw [hparts] at hsubs
              cases hsubs
            | cons part parts => exact ⟨part, rfl⟩
          exact absurd (h rb sub rs cb cs (Prod.ext hbase hsubs) (congrArg some hc)) id

theorem safePolicies_of_merge {policy c rb cb : Str} {rs cs : List Str} (hr : parsePolicyString policy = (some rb, rs))
    (hrs : rs ≠ []) (hc : parsePolicyString c = (some cb, cs)) : SafePolicies policy (some c) ↔
      (∀ sub ∈ cs, PolicyText sub) ∧ PolicyText (mergedBase rb cb) ∧ (mergedBase rb cb).head? ≠ some '-' := by
  obtain ⟨sub, rs, rfl⟩ := List.exists_cons_of_ne_nil hrs
  unfold SafePolicies
  rw [Option.map_some, hr, hc]

/-- **The merge is one word of the command exactly for these policies.** -/
theorem safeWord_buildEffectivePolicy {policy : Str} (hne : policy ≠ []) (hpolicy : PolicyText policy)
    (current : Option Str) : SafeWord (buildEffectivePolicy policy current) ↔ SafePolicies policy current := by
  by_cases hmerge : ∃ c rb cb rs cs, current = some c ∧ parsePolicyString policy = (some rb, rs) ∧ rs ≠ [] ∧
      parsePolicyString c = (some cb, cs)
  · obtain ⟨c, rb, cb, rs, cs, rfl, hr, hrs, hc⟩ := hmerge
    obtain ⟨hrb, hrparts⟩ := policyText_of_parse hpolicy hr
    have hbase : IsPart (mergedBase rb cb) := isPart_mergedBase (isPart_of_parse hr).1 (isPart_of_parse hc).1
    have hhead : (joinPolicy (mergedBase rb cb) (rs.foldl appendUnique (cs.foldl appendUnique []))).head? =
        (mergedBase rb cb).head? := by
      unfold joinPolicy
      exact List.head?_append_of_ne_nil _ hbase.1
    have hcolon : (mergedBase rb cb).head? ≠ some ':' := fun h => (hbase.2 ':' (List.mem_of_head? h)).1 rfl
    rw [buildEffectivePolicy_eq hr hc hrs, safePolicies_of_merge hr hrs hc, safeWord_of_nonempty, policyText_joinPolicy,
      hhead]
    · constructor
      · rintro ⟨⟨htext, hsubs⟩, -, hminus⟩
        exact ⟨fun sub hsub => hsubs sub (mem_foldl_appendUnique.mpr (.inl (mem_foldl_appendUnique.mpr (.inr hsub)))),
          htext, hminus⟩
      · rintro ⟨hsubs, htext, hminus⟩
        refine ⟨⟨htext, fun sub hsub => ?_⟩, hcolon, hminus⟩
        rcases mem_foldl_appendUnique.mp hsub with hsub | hsub
        · exact hsubs sub ((mem_foldl_appendUnique.mp hsub).resolve_left List.not_mem_nil)
        · exact hrparts sub hsub
    · exact List.append_ne_nil_of_left_ne_nil hbase.1 _
  · have halone : SafeWord policy ↔ policy.head? ≠ some ':' ∧ policy.head? ≠ some '-' :=
      (safeWord_of_nonempty hne).trans (and_iff_right hpolicy)
    have hno : ∀ rb sub rs cb cs, parsePolicyString policy = (some rb, sub :: rs) →
        current.map parsePolicyString = some (some cb, cs) → False := by
      intro rb sub rs cb cs hr hc
      obtain ⟨c, rfl, hcurrent⟩ := Option.map_eq_some_iff.mp hc
      exact hmerge ⟨c, rb, cb, sub :: rs, cs, rfl, hr, List.cons_ne_nil sub rs, hcurrent⟩
    rw [buildEffectivePolicy_alone hno, halone]
    unfold SafePolicies
    split
    · next hr hc => exact absurd (hno _ _ _ _ _ hr hc) id
    · exact Iff.rfl

theorem ioOpenRead_disk {env : Env} {path : Str} {s s' : Sys} {r : Ret} (h : ioOpenRead env path s = (.ok r, s')) :
    s'.disk = s.disk := by
  unfold ioOpenRead at h
  rw [Act.step_apply] at h
  obtain ⟨-, rfl⟩ := Prod.mk.inj h
  split <;> rfl

theorem fileRead_some {env : Env} {path text : Str} {read : Str → Option Str} {s s' : Sys}
    (h : fileRead env path read s = (.ok (some text), s')) : ∃ file, s.disk path = some file ∧
      read file.content = some text := by
  unfold fileRead at h
  rw [Act.step_apply] at h
  obtain ⟨hread, -⟩ := Prod.mk.inj h
  injection hread with hread
  split at hread
  · cases hread
  · exact Option.bind_eq_some_iff.mp hread

/-- The current policy is the first line of the file, without the blanks around it. -/
theorem detectCurrentPolicy_some {env : Env} {path c : Str} {s s' : Sys}
    (h : detectCurrentPolicy env path s = (.ok (some c), s')) : ∃ file line, s.disk path = some file ∧
      firstLine file.content = some line ∧ c = substitute (substitute line "^%s+" []) "%s+$" [] := by
  obtain ⟨opened, s₁, hopen, h⟩ := Act.of_bind_ok h
  cases opened with
  | error e => cases h
  | ok u =>
    obtain ⟨content, s₂, hread, h⟩ := Act.of_bind_ok h
    cases content with
    | none => cases h
    | some line =>
      dsimp only at h
      split at h
      · cases h
      · cases h
        have hdisk : s₁.disk = s.disk := ioOpenRead_disk hopen
        obtain ⟨file, hfile, hline⟩ := fileRead_some hread
        exact ⟨file, line, hdisk ▸ hfile, hline, rfl⟩

/-- What an accepted request went through. -/
theorem effectivePolicy_ok {env : Env} {params : Value} {s s' : Sys} {word : Str}
    (h : effectivePolicy env params s = (.ok (.ok word), s')) : ∃ policy path current s₁,
      sanitizePolicyToken (params.field "policy") "policy" = .ok policy ∧
      createModules env params s = (.ok (.ok ()), s₁) ∧ concatText (currentPolicyPath params) = some path ∧
      detectCurrentPolicy env path s₁ = (.ok current, s') ∧ word = buildEffectivePolicy policy current := by
  unfold effectivePolicy at h
  by_cases hparams : (!params.truthy || !(params.field "policy").truthy) = true
  · rw [if_pos hparams] at h
    cases h
  · rw [if_neg hparams] at h
    cases hpolicy : sanitizePolicyToken (params.field "policy") "policy" with
    | error e =>
      rw [hpolicy] at h
      cases h
    | ok policy =>
      rw [hpolicy] at h
      obtain ⟨made, s₁, hmade, h⟩ := Act.of_bind_ok h
      cases made with
      | error e => cases h
      | ok u =>
        obtain ⟨path, s₂, hpath, hread⟩ := Act.of_bind_ok h
        obtain ⟨current, s₃, hcurrent, hword⟩ := Act.of_bind_ok hread
        unfold pathArg at hpath
        cases hp : concatText (currentPolicyPath params) with
        | none =>
          rw [hp] at hpath
          cases hpath
        | some p =>
          rw [hp] at hpath
          cases hpath
          cases hword
          exact ⟨policy, path, current, s₁, rfl, hmade, rfl, hcurrent, rfl⟩

/-- **When the policy is one word of the command**: the condition is on what is asked for and on the first line of the
configuration file, which is never checked. -/
theorem policy_word_safe_iff (env : Env) (params : Value) (s s' : Sys) (word : Str)
    (h : effectivePolicy env params s = (.ok (.ok word), s')) :
    (∀ execute, setPolicy env execute params s = (.ok (runCommand execute (setPolicyCommand word)), s')) ∧
    ∃ policy path current s₁, params.field "policy" = .str policy ∧ concatText (currentPolicyPath params) = some path ∧
      createModules env params s = (.ok (.ok ()), s₁) ∧ detectCurrentPolicy env path s₁ = (.ok current, s') ∧
      (∀ c, current = some c → ∃ file line, s₁.disk path = some file ∧ firstLine file.content = some line ∧
        c = substitute (substitute line "^%s+" []) "%s+$" []) ∧
      (SafeWord word ↔ SafePolicies policy current) := by
  refine ⟨fun execute => Act.bind_of_ok h, ?_⟩
  obtain ⟨policy, path, current, s₁, hpolicy, hmade, hpath, hcurrent, rfl⟩ := effectivePolicy_ok h
  obtain ⟨hstr, hne, htext⟩ := policyText_of_sanitize hpolicy
  refine ⟨policy, path, current, s₁, hstr, hpath, hmade, hcurrent, ?_, safeWord_buildEffectivePolicy hne htext current⟩
  rintro c rfl
  exact detectCurrentPolicy_some hcurrent

/-- A configuration file with one line. -/
def policyFile (line : Str) : Sys where
  disk path := if path = "/etc/crypto-policies/config".toList then some ⟨line ++ "\n", 0, 0, 0⟩ else none
  clock := 0
  effects := []

/-- A request for a policy. -/
def policyParams (policy : Str) : Value := .table 0 [(.str "policy", .str policy)] []

/-- A base that is kept. -/
theorem future_word_safe : SafeWord "FUTURE:NO-SHA1".toList := by
  have hword : (effectivePolicy (.oneOutcome 0 .done) (policyParams "DEFAULT:NO-SHA1") (policyFile "FUTURE")).1 =
      .ok (.ok "FUTURE:NO-SHA1".toList) := by decide +kernel
  obtain ⟨-, policy, path, current, s₁, hpolicy, hpath, hmade, hcurrent, -, hiff⟩ :=
    policy_word_safe_iff _ _ _ _ _ (Prod.ext hword rfl)
  cases hpolicy
  cases hpath
  cases hmade
  have hdetect : (detectCurrentPolicy (.oneOutcome 0 .done) "/etc/crypto-policies/config" (policyFile "FUTURE")).1 =
      .ok (some "FUTURE".toList) := by decide +kernel
  rw [hcurrent] at hdetect
  cases hdetect
  have hfuture : PolicyText "FUTURE".toList := by
    have hall : ("FUTURE".toList.all isalnum) = true := rfl
    exact fun x hx => .inl (List.all_eq_true.mp hall x hx)
  exact hiff.mpr ((@safePolicies_of_merge "DEFAULT:NO-SHA1" "FUTURE" "DEFAULT" "FUTURE" ["NO-SHA1"] []
    (by decide +kernel)
    (by decide) (by decide +kernel)).mpr ⟨nofun, hfuture, by decide⟩)

/-- What is in the file ends the command and starts another. -/
theorem config_word_unsafe : ∃ word s', effectivePolicy (.oneOutcome 0 .done) (policyParams "DEFAULT:NO-SHA1")
      (policyFile "FUTURE;reboot") = (.ok (.ok word), s') ∧ word = "FUTURE;reboot:NO-SHA1".toList ∧ ¬SafeWord word := by
  have hword : (effectivePolicy (.oneOutcome 0 .done) (policyParams "DEFAULT:NO-SHA1") (policyFile "FUTURE;reboot")).1 =
      .ok (.ok "FUTURE;reboot:NO-SHA1".toList) := by decide +kernel
  refine ⟨_, _, Prod.ext hword rfl, rfl, fun h => ?_⟩
  have hsemi := h.1 ';' (by decide)
  revert hsemi
  decide

end Seharden
