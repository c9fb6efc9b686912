import Loongshield.Seharden.AuditRoundTrip
import Loongshield.Seharden.Trim

/-!
# `parsers/pam.lua` and `enforcers/pam.lua`

A line of a PAM file has a kind, a control, a module and arguments. `ensure_entry` puts one line into a file: in the
place of the lines it stands for (the targets), or before a line it has to precede (the anchor).

- `parseLine`: the parser;
- `ensureEntry`: the enforcer; `placeLoop` is its loop over the lines;
- `entry_placed`: where the line ends up, and that nothing else is lost.
-/

namespace Seharden
namespace Pam

open Lua Pattern

/-! ## The parser -/

structure Entry where
  kind : Str
  control : Str
  moduleName : Str
  args : List Str
  deriving DecidableEq

/-- The pattern for what follows the kind. -/
def remainderPattern (remainder : Str) : Str :=
  if remainder.head? = some '[' then "^(%b[])%s+(%S+)%s*(.*)$" else "^(%S+)%s+(%S+)%s*(.*)$"

/-- `parse_line`. -/
def parseLine (line : Str) : Option Entry :=
  let trimmed := trim line
  if trimmed = [] ∨ trimmed.head? = some '#' then none
  else match matchCaptures trimmed "^(%S+)%s+(.+)$" with
    | some [kind, remainder] => match matchCaptures remainder (remainderPattern remainder) with
      | some [control, moduleName, argsText] =>
        some { kind := kind, control := control, moduleName := moduleName, args := captures argsText "%S+" }
      | _ => none
    | _ => none

/-! ## Parameters -/

/-- `VALID_KINDS[kind]`. -/
def isValidKind : Value → Bool
  | .str kind => kind ∈ ["auth".toList, "account".toList, "password".toList, "session".toList]
  | _ => false

/-- `is_safe_token`. -/
def isSafeToken : Value → Bool
  | .str token => token ≠ [] && !isMatch token "[%s%c]"
  | _ => false

/-- The loop of `normalize_tokens`; `index` is that of the next value. -/
def normalizeTokensFrom (fieldName : Str) : Nat → List Value → Except Str (List Str)
  | _, [] => .ok []
  | index, value :: values =>
    if !isSafeToken value then
      .error ("pam.ensure_entry: invalid " ++ fieldName ++ "[" ++ natStr index ++ "] token '" ++ value.tostring ++ "'")
    else (normalizeTokensFrom fieldName (index + 1) values).map (value.tostring :: ·)

/-- `normalize_tokens`. -/
def normalizeTokens (values : Value) (fieldName : Str) : Except Str (List Str) :=
  if values.isNil then .ok []
  else if !values.isTable then .error ("pam.ensure_entry: '" ++ fieldName ++ "' must be a list when provided")
  else normalizeTokensFrom fieldName 1 values.ipairs

/-- The parameters that are accepted. -/
structure Params where
  path : Str
  kind : Str
  moduleName : Str
  control : Str
  args : List Str
  matchArgs : List Str
  anchorArgs : List Str
  anchorKind : Option Str
  anchorModule : Option Str

/-- A parameter that may be missing. -/
def optionalText (v : Value) : Option Str := if v.isNil then none else some v.tostring

/-- A check and its message. -/
def require (ok : Bool) (msg : Str) : Except Str Unit := if ok then .ok () else .error msg

/-- The checks of `ensure_entry`, in their order; the control is checked the way the path is. -/
def readParams (params : Value) : Except Str Params := do
  let kind := params.field "kind"
  let moduleName := params.field "module"
  let control := params.field "control"
  let anchorKind := params.field "anchor_kind"
  let anchorModule := params.field "anchor_module"
  require (isSafePath (params.field "path")) "pam.ensure_entry: requires a safe 'path' parameter"
  require (isValidKind kind) ("pam.ensure_entry: invalid kind '" ++ kind.tostring ++ "'")
  require (isSafeToken moduleName) ("pam.ensure_entry: invalid module '" ++ moduleName.tostring ++ "'")
  require (isSafePath control) ("pam.ensure_entry: invalid control '" ++ control.tostring ++ "'")
  let args ← normalizeTokens (params.field "args") "args"
  let matchArgs ← normalizeTokens (params.field "match_args") "match_args"
  let anchorArgs ← normalizeTokens (params.field "anchor_args") "anchor_args"
  require (anchorKind.isNil || isValidKind anchorKind)
    ("pam.ensure_entry: invalid anchor_kind '" ++ anchorKind.tostring ++ "'")
  require (anchorModule.isNil || isSafeToken anchorModule)
    ("pam.ensure_entry: invalid anchor_module '" ++ anchorModule.tostring ++ "'")
  return { path := (params.field "path").tostring, kind := kind.tostring, moduleName := moduleName.tostring,
           control := control.tostring, args := args, matchArgs := matchArgs, anchorArgs := anchorArgs,
           anchorKind := optionalText anchorKind, anchorModule := optionalText anchorModule }

/-! ## The enforcer -/

/-- `entry_has_args`. -/
def entryHasArgs (args requiredArgs : List Str) : Bool := requiredArgs.all fun arg => arg ∈ args

namespace Params

variable (p : Params)

/-- `desired_line`. -/
def desiredLine : Str :=
  p.kind ++ " " ++ p.control ++ " " ++ p.moduleName ++ p.args.flatMap fun arg => ' ' :: arg

/-- `is_target`. -/
def isTarget (line : Str) : Bool :=
  match parseLine line with
  | some entry => entry.kind = p.kind && entry.moduleName = p.moduleName && entryHasArgs entry.args p.matchArgs
  | none => false

/-- `is_anchor`, before the line is there. -/
def isAnchor (line : Str) : Bool :=
  match parseLine line with
  | some entry => some entry.kind = p.anchorKind && some entry.moduleName = p.anchorModule &&
      entryHasArgs entry.args p.anchorArgs
  | none => false

/-- The loop of `ensure_entry` over the lines. -/
def placeLoop : List Str → Bool → List Str → List Str
  | [], inserted, newLines => if inserted then newLines else newLines ++ [p.desiredLine]
  | line :: lines, inserted, newLines =>
    if p.isTarget line then
      if inserted then placeLoop lines inserted newLines else placeLoop lines true (newLines ++ [p.desiredLine])
    else if !inserted && p.isAnchor line then placeLoop lines true (newLines ++ [p.desiredLine] ++ [line])
    else placeLoop lines inserted (newLines ++ [line])

end Params

/-- The optional functions in the dependency table of `enforcers/pam.lua`. -/
def pamDeps : Deps := { lfsAttributes := true, fsStat := true, fsChown := true, fsChmod := true }

/-- `ensure_entry`. -/
def ensureEntry (env : Env) (params : Value) : FsM Ret := do
  match readParams params with
  | .error err => return .error err
  | .ok p =>
    if ← isSymlink env p.path then
      return .error ("pam.ensure_entry: refusing to overwrite symlink '" ++ p.path ++ "'")
    else
      match ← readLines env p.path "pam.ensure_entry" pamDeps true with
      | .error err => return .error err
      | .ok (originalLines, _) =>
        let newLines := p.placeLoop originalLines false []
        if originalLines = newLines then return .ok ()
        else writeLinesAtomicallyPreservingAttrs env p.path newLines "pam.ensure_entry" pamDeps

/-! ## Where the line is put -/

namespace Params

variable {p : Params}

/-- A line that parses to the kind and module of the entry with all `match_args`. -/
def Target (p : Params) (line : Str) : Prop := p.isTarget line = true

/-- A line that is no target and parses to the anchor. -/
def Anchor (p : Params) (line : Str) : Prop := p.isTarget line = false ∧ p.isAnchor line = true

/-- The lines the new line is put behind. -/
def passes (p : Params) (line : Str) : Bool := !p.isTarget line && !p.isAnchor line

/-- Once the line is there, only targets are left out. -/
theorem placeLoop_inserted (lines newLines : List Str) :
    p.placeLoop lines true newLines = newLines ++ lines.filter fun line => !p.isTarget line := by
  induction lines generalizing newLines with
  | nil => simp [placeLoop]
  | cons line lines ih =>
    rw [placeLoop]
    by_cases ht : p.isTarget line = true
    · rw [if_pos ht, if_pos rfl, ih, List.filter_cons_of_neg (by simp [ht])]
    · rw [if_neg ht, if_neg (by simp), ih, List.filter_cons_of_pos (by simpa using ht), List.append_assoc]
      rfl

/-- **The loop**: the line stands behind the first lines that it passes, and no target is left. -/
theorem placeLoop_eq (lines newLines : List Str) : p.placeLoop lines false newLines = newLines ++
    (lines.takeWhile p.passes ++ p.desiredLine :: (lines.dropWhile p.passes).filter fun line => !p.isTarget line) := by
  induction lines generalizing newLines with
  | nil => simp [placeLoop]
  | cons line lines ih =>
    rw [placeLoop]
    by_cases ht : p.isTarget line = true
    · have hstop : ¬p.passes line = true := by simp [passes, ht]
      rw [if_pos ht, if_neg Bool.false_ne_true, placeLoop_inserted, List.takeWhile_cons_of_neg hstop,
        List.dropWhile_cons_of_neg hstop, List.filter_cons_of_neg (by simp [ht]), List.append_assoc]
      rfl
    · rw [if_neg ht]
      by_cases ha : p.isAnchor line = true
      · have hstop : ¬p.passes line = true := by simp [passes, ha]
        rw [if_pos (by simp [ha]), placeLoop_inserted, List.takeWhile_cons_of_neg hstop,
          List.dropWhile_cons_of_neg hstop,
          List.filter_cons_of_pos (by simpa using ht)]
        simp
      · have hgo : p.passes line = true := by simp [passes, ht, ha]
        rw [if_neg (by simp [ha]), ih, List.takeWhile_cons_of_pos hgo, List.dropWhile_cons_of_pos hgo,
          List.append_assoc]
        rfl

theorem not_target_of_passes {line : Str} (h : p.passes line = true) : p.isTarget line = false := by
  simp only [passes, Bool.and_eq_true, Bool.not_eq_true'] at h
  exact h.1

/-- The lines that are no targets are all kept, in their order. -/
theorem kept_lines (lines : List Str) :
    (lines.takeWhile p.passes ++ (lines.dropWhile p.passes).filter fun line => !p.isTarget line) =
      lines.filter fun line => !p.isTarget line := by
  conv_rhs => rw [← @List.takeWhile_append_dropWhile _ p.passes lines]
  rw [List.filter_append]
  congr 1
  refine (List.filter_eq_self.mpr fun line hline => ?_).symm
  rw [not_target_of_passes (List.mem_takeWhile_imp hline)]
  rfl

end Params

/-! ## What is checked -/

/-- The class of the characters that no token has. -/
def refusedInToken : Single := .set false [.cls 's', .cls 'c']

theorem word_of_isSafeToken {v : Value} (h : isSafeToken v = true) : ∃ token, v = .str token ∧ Word token := by
  unfold isSafeToken at h
  split at h
  · next token =>
    rw [Bool.and_eq_true, decide_eq_true_eq, Bool.not_eq_true'] at h
    refine ⟨token, rfl, h.1, fun x hx => ?_⟩
    by_contra hblank
    rw [Bool.not_eq_false] at hblank
    have hpat : compile "[%s%c]" = [.single refusedInToken .one] := rfl
    have htest : refusedInToken.test x = true := by
      have hcls : SetItem.test x (.cls 's') = true := hblank
      rw [refusedInToken, Single.test, List.any_cons, hcls]
      rfl
    have hmatch := isMatch_iff.mpr ((strMatch_somewhere hpat (by decide) token).mpr ⟨x, hx, htest⟩)
    rw [hmatch] at h
    exact Bool.noConfusion h.2
  · cases h

theorem words_of_normalizeTokensFrom {fieldName : Str} : ∀ {values : List Value} {index : Nat} {tokens : List Str},
    normalizeTokensFrom fieldName index values = .ok tokens → ∀ token ∈ tokens, Word token
  | [], _, tokens, h => by
    cases h
    nofun
  | value :: values, index, tokens, h => by
    rw [normalizeTokensFrom] at h
    split at h
    · cases h
    · next hsafe =>
      rw [Bool.not_eq_true, Bool.not_eq_false'] at hsafe
      obtain ⟨token, rfl, hword⟩ := word_of_isSafeToken hsafe
      cases hrest : normalizeTokensFrom fieldName (index + 1) values with
      | error e =>
        rw [hrest] at h
        cases h
      | ok rest =>
        rw [hrest] at h
        cases h
        intro w hw
        rcases List.mem_cons.mp hw with rfl | hw
        · exact hword
        · exact words_of_normalizeTokensFrom hrest w hw

theorem words_of_normalizeTokens {values : Value} {fieldName : Str} {tokens : List Str}
    (h : normalizeTokens values fieldName = .ok tokens) : ∀ token ∈ tokens, Word token := by
  unfold normalizeTokens at h
  split at h
  · cases h
    nofun
  · split at h
    · cases h
    · exact words_of_normalizeTokensFrom h

/-- What is known of parameters that are accepted. -/
structure Params.Accepted (p : Params) : Prop where
  kind : p.kind ∈ ["auth".toList, "account".toList, "password".toList, "session".toList]
  moduleName : Word p.moduleName
  control : p.control ≠ [] ∧ ∀ x ∈ p.control, iscntrl x = false
  args : ∀ arg ∈ p.args, Word arg
  matchArgs : ∀ arg ∈ p.matchArgs, Word arg

theorem of_bind_ok {α β : Type} {m : Except Str α} {f : α → Except Str β} {b : β} (h : m >>= f = .ok b) :
    ∃ a, m = .ok a ∧ f a = .ok b := by
  cases m with
  | error e => cases h
  | ok a => exact ⟨a, rfl, h⟩

theorem of_require_ok {ok : Bool} {msg : Str} {u : Unit} (h : require ok msg = .ok u) : ok = true := by
  unfold require at h
  split at h
  · assumption
  · cases h

theorem accepted_of_readParams {params : Value} {p : Params} (h : readParams params = .ok p) : p.Accepted := by
  unfold readParams at h
  obtain ⟨_, -, h⟩ := of_bind_ok h
  obtain ⟨_, hkind, h⟩ := of_bind_ok h
  obtain ⟨_, hmodule, h⟩ := of_bind_ok h
  obtain ⟨_, hcontrol, h⟩ := of_bind_ok h
  obtain ⟨args, hargs, h⟩ := of_bind_ok h
  obtain ⟨matchArgs, hmatch, h⟩ := of_bind_ok h
  obtain ⟨anchorArgs, -, h⟩ := of_bind_ok h
  obtain ⟨_, -, h⟩ := of_bind_ok h
  obtain ⟨_, -, h⟩ := of_bind_ok h
  cases h
  refine ⟨?_, ?_, ?_, words_of_normalizeTokens hargs, words_of_normalizeTokens hmatch⟩
  · replace hkind := of_require_ok hkind
    unfold isValidKind at hkind
    split at hkind
    · next kind heq =>
      rw [heq]
      exact of_decide_eq_true hkind
    · cases hkind
  · obtain ⟨token, heq, hword⟩ := word_of_isSafeToken (of_require_ok hmodule)
    rw [heq]
    exact hword
  · replace hcontrol := of_require_ok hcontrol
    cases heq : params.field "control" with
    | str control =>
      rw [heq] at hcontrol
      exact control_of_isSafePath hcontrol
    | _ =>
      rw [heq] at hcontrol
      cases hcontrol

theorem word_of_kind {kind : Str} (h : kind ∈ ["auth".toList, "account".toList, "password".toList, "session".toList]) :
    Word kind := by
  have hall : (["auth".toList, "account".toList, "password".toList, "session".toList].all fun k =>
      !k.isEmpty && k.all fun x => !isspace x) = true := rfl
  simpa [Word, BlankFree] using List.all_eq_true.mp hall kind h

theorem Params.Accepted.newline {p : Params} (h : p.Accepted) : '\n' ∉ p.desiredLine := by
  have hcontrol : '\n' ∉ p.control := fun hmem => absurd (h.control.2 '\n' hmem) (by decide)
  have hargs : '\n' ∉ p.args.flatMap fun arg => ' ' :: arg := by
    intro hmem
    obtain ⟨arg, harg, hx⟩ := List.mem_flatMap.mp hmem
    exact (h.args arg harg).2.not_mem_newline ((List.mem_cons.mp hx).resolve_left (by decide))
  unfold Params.desiredLine
  simp only [List.mem_append, not_or]
  exact ⟨⟨⟨⟨⟨(word_of_kind h.kind).2.not_mem_newline, by decide⟩, hcontrol⟩, by decide⟩,
    h.moduleName.2.not_mem_newline⟩,
    hargs⟩

/-! ## The file afterwards -/

theorem lines_placeLoop {p : Params} (h : p.Accepted) {lines : List Str} (hlines : Lines lines) :
    Lines (p.placeLoop lines false []) := by
  rw [Params.placeLoop_eq, List.nil_append]
  intro line hline
  rcases List.mem_append.mp hline with hline | hline
  · exact hlines line ((List.takeWhile_sublist _).subset hline)
  · rcases List.mem_cons.mp hline with rfl | hline
    · exact h.newline
    · exact hlines line ((List.dropWhile_sublist _).subset (List.mem_of_mem_filter hline))

/-- What a run that succeeds does: the lines of the file are those of the loop, and where these are the old ones
nothing happens. -/
theorem ensureEntry_ok {env : Env} (henv : env.Reliable) {params : Value} {s s' : Sys}
    (h : ensureEntry env params s = (.ok (.ok ()), s')) : ∃ p, readParams params = .ok p ∧
      s'.linesAt p.path = p.placeLoop (s.linesAt p.path) false [] ∧
      (s.linesAt p.path = p.placeLoop (s.linesAt p.path) false [] → s'.disk = s.disk ∧ s'.effects = s.effects) := by
  unfold ensureEntry at h
  cases hparams : readParams params with
  | error e =>
    rw [hparams] at h
    cases h
  | ok p =>
    rw [hparams] at h
    obtain ⟨link, s₁, hlink, h⟩ := Act.of_bind_ok h
    obtain rfl : s.tick = s₁ := by
      rw [isSymlink_apply] at hlink
      exact (Prod.mk.inj hlink).2
    cases link with
    | true => cases h
    | false =>
      rw [if_neg Bool.false_ne_true] at h
      obtain ⟨r, s₂, hread, h⟩ := Act.of_bind_ok h
      cases r with
      | error e => cases h
      | ok r =>
        obtain ⟨lines, existing⟩ := r
        obtain ⟨rfl, hdisk, heffects, -⟩ := readLines_reliable henv hread
        have hsame : s₂.linesAt p.path = s.linesAt p.path := by
          rw [Sys.linesAt, hdisk]
          rfl
        refine ⟨p, rfl, ?_⟩
        change (if s.linesAt p.path = p.placeLoop (s.linesAt p.path) false [] then pure (.ok ()) else
          writeLinesAtomicallyPreservingAttrs env p.path (p.placeLoop (s.linesAt p.path) false []) "pam.ensure_entry"
            pamDeps : FsM Ret) s₂ = _ at h
        by_cases heq : s.linesAt p.path = p.placeLoop (s.linesAt p.path) false []
        · rw [if_pos heq] at h
          cases h
          exact ⟨hsame.trans heq, fun _ => ⟨hdisk, heffects⟩⟩
        · rw [if_neg heq] at h
          have hlines := lines_placeLoop (accepted_of_readParams hparams) (lines_linesAt s p.path)
          exact ⟨(preservingAttrs_reliable henv hlines h).2, fun hsame => absurd hsame heq⟩

/-- **One entry is placed, and nothing is lost**: the new line stands behind the first lines that are neither target nor
anchor; of the others, the targets go and the rest stays in its order. -/
theorem entry_placed {env : Env} (henv : env.Reliable) {params : Value} {s s' : Sys}
    (h : ensureEntry env params s = (.ok (.ok ()), s')) : ∃ p front back kept, readParams params = .ok p ∧
      s.linesAt p.path = front ++ back ∧ s'.linesAt p.path = front ++ p.desiredLine :: kept ∧
      front ++ kept = (s.linesAt p.path).filter (fun line => !p.isTarget line) ∧
      kept = back.filter (fun line => !p.isTarget line) ∧
      (∀ line ∈ front, ¬p.Target line ∧ ¬p.Anchor line) ∧
      ∀ line rest, back = line :: rest → p.Target line ∨ p.Anchor line := by
  obtain ⟨p, hparams, hlines, -⟩ := ensureEntry_ok henv h
  rw [Params.placeLoop_eq, List.nil_append] at hlines
  refine ⟨p, (s.linesAt p.path).takeWhile p.passes, (s.linesAt p.path).dropWhile p.passes, _, hparams,
    List.takeWhile_append_dropWhile.symm, hlines, Params.kept_lines _, rfl, fun line hline =>
    ?_, fun line rest hback => ?_⟩
  · have hpasses := List.mem_takeWhile_imp hline
    simp only [Params.passes, Bool.and_eq_true, Bool.not_eq_true'] at hpasses
    simp [Params.Target, Params.Anchor, hpasses.1, hpasses.2]
  · have hstop : p.passes line = false := by
      have hhead := List.head?_dropWhile_not p.passes (s.linesAt p.path)
      rw [hback] at hhead
      simpa using hhead
    unfold Params.Target Params.Anchor
    cases ht : p.isTarget line with
    | true => exact .inl rfl
    | false =>
      rw [Params.passes, ht] at hstop
      exact .inr ⟨rfl, by simpa using hstop⟩

/-- Parameters for an entry before `pam_unix.so`. -/
def faillockParams : Value := .record 0 [("path", .str "/etc/pam.d/system-auth"), ("kind", .str "auth"),
  ("module", .str "pam_faillock.so"), ("control", .str "required"), ("anchor_kind", .str "auth"),
  ("anchor_module", .str "pam_unix.so")]

/-- A file with an anchor. -/
def systemAuth : Sys := .oneFile "/etc/pam.d/system-auth" "auth required pam_unix.so\n"

theorem faillock_placed : (ensureEntry calmEnv faillockParams systemAuth).1 = .ok (.ok ()) ∧
    ∃ p front back kept, readParams faillockParams = .ok p ∧ systemAuth.linesAt p.path = front ++ back ∧
      (ensureEntry calmEnv faillockParams systemAuth).2.linesAt p.path = front ++ p.desiredLine :: kept := by
  have hrun : (ensureEntry calmEnv faillockParams systemAuth).1 = .ok (.ok ()) := by decide +kernel
  obtain ⟨p, front, back, kept, hparams, hlines, hnew, -⟩ := entry_placed calmEnv_reliable (run_of_fst hrun)
  exact ⟨hrun, p, front, back, kept, hparams, hlines, hnew⟩

end Pam
end Seharden
