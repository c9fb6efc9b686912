import Loongshield.Lib.Replay
import Loongshield.Lua.Split
import Loongshield.Seharden.Boot
import Loongshield.Seharden.Glob

/-!
# `probes/crypto_policy.lua`

The probe reads the entries of a policy file and keeps, for every option and scope, the tokens that the entries of this
scope leave. A token replaces the tokens so far, or is added, or removes those that match it.

- `readEntries`: the entries of the lines;
- `buildEffectiveState`: the state after all entries;
- `inspectCurrent`: the answers.
-/

namespace Seharden
namespace PolicyFile

open Lua Pattern Glob

/-! ## Entries -/

/-- The local `normalize`. -/
def normalize (value : Str) : Str := lower (trim value)

/-- A character in upper case. -/
def upperChar (c : Char) : Char := if 'a' ≤ c ∧ c ≤ 'z' then Char.ofNat (c.toNat - 32) else c

/-- `uppercase`. -/
def uppercase (value : Str) : Str := value.map upperChar

/-- `strip_comment`. -/
def stripComment (line : Str) : Str := line.takeWhile (· ≠ '#')

/-- The loop of `read_logical_lines`. -/
def logicalLines : List Str → List Str → Str → List Str
  | [], lines, pending => if pending ≠ [] then lines ++ [pending] else lines
  | raw :: raws, lines, pending =>
    let line := substitute raw "\r$" []
    let trimmedRight := substitute line "%s+$" []
    if trimmedRight.getLast? = some '\\' then logicalLines raws lines (pending ++ trimmedRight.dropLast ++ " ")
    else logicalLines raws (lines ++ [pending ++ line]) []

/-- `read_logical_lines`. -/
def readLogicalLines (lines : List Str) : List Str := logicalLines lines [] []

/-- `parse_scopes`. -/
def parseScopes (scopeExpr : Option Str) : List Str :=
  match scopeExpr.getD [] with
  | [] => [[]]
  | expr =>
    let expr := substitute (substitute (trim expr) "^%\x7b" []) "%\x7d$" []
    let scopes := ((captures expr "[^,]+").map normalize).filter (· ≠ [])
    if scopes = [] then [[]] else scopes

/-- An entry of one scope. -/
structure Entry where
  option : Str
  scope : Str
  value : Str

/-- `parse_entry_line`. -/
def parseEntryLine (line : Str) : List Entry :=
  let active := trim (stripComment line)
  match matchCaptures active "^([^=%s]+)%s*=%s*(.-)%s*$" with
  | some [key, value] =>
    let key := normalize key
    match matchCaptures key "^([^@]+)@(.+)$" with
    | some [option, scopeExpr] => (parseScopes (some scopeExpr)).map fun scope => ⟨option, scope, value⟩
    | _ => (parseScopes none).map fun scope => ⟨key, scope, value⟩
  | _ => []

/-- `read_entries`, of the lines of a file that was opened. -/
def readEntries (lines : List Str) : List Entry := (readLogicalLines lines).flatMap parseEntryLine

example : (readEntries ["cipher@\x7bOpenSSH,libssh\x7d = -*-CBC \\".toList, "  AES-256-GCM # strong".toList]).map
    (fun e => (e.option, e.scope, e.value)) = [("cipher".toList, "openssh".toList, "-*-CBC    AES-256-GCM".toList),
    ("cipher".toList, "libssh".toList, "-*-CBC    AES-256-GCM".toList)] := by decide +kernel

/-! ## Tokens -/

/-- `split_tokens`. -/
def splitTokens (value : Str) : List Str := captures value "[^,%s]+"

/-- What a token does. -/
inductive Token
  | remove (value : Str)
  | append (value : Str)
  | set (value : Str)

/-- `parsed.op == 'set'`. -/
def Token.isSet : Token → Bool
  | .set _ => true
  | _ => false

/-- `parse_token`. -/
def parseToken (raw : Str) : Option Token :=
  let token := trim raw
  if token = [] then none
  else if token.head? = some '-' ∧ 1 < token.length then some (.remove (uppercase token.tail))
  else if token.getLast? = some '+' ∧ 1 < token.length then some (.append (uppercase token.dropLast))
  else some (.set (uppercase token))

/-- The pattern of a removal. -/
def wildcardPattern (pattern : Str) : Str :=
  '^' :: (substitute (Boot.escapeLuaPattern (uppercase pattern)) "%%%*" ".*" ++ "$")

/-- `wildcard_matches`. -/
def wildcardMatches (pattern token : Str) : Bool := isMatch (uppercase token) (wildcardPattern pattern)

/-- `remove_matching_tokens`. -/
def removeMatchingTokens (tokens : List Str) (pattern : Str) : List Str :=
  unique (tokens.filter fun token => !wildcardMatches pattern token)

/-- `add_token`. -/
def addToken (tokens : List Str) (token : Str) : List Str := if token = [] ∨
    token ∈ tokens then tokens else tokens ++ [token]

/-- A token in the loop of `build_effective_state`. -/
def applyToken (tokens : List Str) : Token → List Str
  | .remove value => removeMatchingTokens tokens value
  | .append value => addToken tokens value
  | .set value => addToken tokens value

/-! ## The state -/

/-- The state of a scope; `token_seen` has the same tokens. -/
structure ScopeState where
  present : Bool
  tokens : List Str

/-- The states, for an option and a scope. -/
abbrev PolicyState := List ((Str × Str) × ScopeState)

/-- `get_scope_state`, and what becomes of the state. -/
def update (key : Str × Str) (f : ScopeState → ScopeState) : PolicyState → PolicyState
  | [] => [(key, f ⟨false, []⟩)]
  | (key', s) :: st => if key' = key then (key', f s) :: st else (key', s) :: update key f st

/-- An entry begins the tokens anew if it has a plain token, or none at all. -/
def Entry.resets (e : Entry) : Bool :=
  ((splitTokens e.value).filterMap parseToken).any Token.isSet || (splitTokens e.value).isEmpty

/-- What an entry makes of the state of its scope. -/
def Entry.apply (e : Entry) (s : ScopeState) : ScopeState where
  present := true
  tokens := ((splitTokens e.value).filterMap parseToken).foldl applyToken (if e.resets then [] else s.tokens)

/-- `build_effective_state`. -/
def buildEffectiveState (entries : List Entry) : PolicyState :=
  entries.foldl (fun st e => update (e.option, e.scope) e.apply st) []

/-! ## The answers -/

section Answers

variable (st : PolicyState)

/-- `get_existing_scope`. -/
def existingScope (option scope : Str) : Option ScopeState := st.lookup (option, scope)

/-- `scope_present`. -/
def scopePresent (option scope : Str) : Bool := (existingScope st option scope).any ScopeState.present

/-- `token_contains`. -/
def tokenContains (token needle : Str) : Bool := (cut (uppercase needle) (uppercase token)).isSome

/-- The loop of `token_has_segment_with_boundary`; `fuel` counts the characters. -/
def segmentLoop (segment : Str) : Nat → Str → Bool
  | 0, _ => false
  | n + 1, s => match cut segment s with
    | none => false
    | some (_, following) => !following.head?.any Sudoers.isWord || segmentLoop segment n following

/-- `token_has_segment_with_boundary`. -/
def hasSegment (token segment : Str) : Bool :=
  segmentLoop (uppercase segment) ((uppercase token).length + 1) (uppercase token)

/-- `scope_has_token`. -/
def scopeHasToken (option scope : Str) (p : Str → Bool) : Bool :=
  (existingScope st option scope).any fun s => s.tokens.any p

/-- The scopes of an option. -/
def scopesOf (option : Str) : List Str := st.filterMap fun k => if k.1.1 = option then some k.1.2 else none

/-- `option_has_token`. -/
def optionHasToken (option : Str) (p : Str → Bool) : Bool := (scopesOf st option).any fun scope =>
    scopeHasToken st option scope p

/-- `scalar_value_is`. -/
def scalarValueIs (option expected : Str) : Bool :=
  (existingScope st option []).any fun s => s.present && s.tokens == [uppercase expected]

/-- `sha1_hash_signature_disabled`. -/
def sha1HashSignatureDisabled : Bool :=
  scopePresent st "hash" [] && scopePresent st "sign" [] &&
    !(["hash".toList, "sign".toList].any fun option => optionHasToken st option fun token => tokenContains token "SHA1")

/-- `sha1_in_certs_disabled`. -/
def sha1InCertsDisabled : Bool := scalarValueIs st "sha1_in_certs" "0"

/-- `weak_macs_disabled`. -/
def weakMacsDisabled : Bool :=
  scopePresent st "mac" [] && !optionHasToken st "mac" fun token => hasSegment token "-128"

/-- The scopes of `is_ssh_scope`. -/
def sshScopes : List Str :=
  ["ssh".toList, "libssh".toList, "libssh-server".toList, "libssh-client".toList, "openssh".toList,
    "openssh-server".toList, "openssh-client".toList]

/-- `is_ssh_scope`. -/
def isSshScope (scope : Str) : Bool := sshScopes.contains (normalize scope)

/-- `ssh_scope_has_cbc`. -/
def sshScopeHasCbc (scope : Str) : Bool := scopeHasToken st "cipher" scope fun token => hasSegment token "-CBC"

/-- `ssh_scope_present_and_clean`. -/
def sshScopePresentAndClean (scope : Str) : Bool := scopePresent st "cipher" scope && !sshScopeHasCbc st scope

/-- `ssh_family_clean`. -/
def sshFamilyClean (family : Str) : Bool :=
  sshScopePresentAndClean st family ||
    (sshScopePresentAndClean st (family ++ "-server") && sshScopePresentAndClean st (family ++ "-client"))

/-- `ssh_cbc_disabled`. -/
def sshCbcDisabled : Bool :=
  if !scopePresent st "cipher" [] then false
  else if (scopesOf st "cipher").any fun scope => isSshScope scope && sshScopeHasCbc st scope then false
  else if !sshScopeHasCbc st [] then true
  else sshScopePresentAndClean st "ssh" || (sshFamilyClean st "openssh" && sshFamilyClean st "libssh")

end Answers

/-- What `inspect_current` returns. -/
structure Inspection where
  available : Bool
  path : Str
  error : Option Str
  sha1HashSignatureDisabled : Bool
  sha1InCertsDisabled : Bool
  sha1Disabled : Bool
  weakMacsDisabled : Bool
  sshCbcDisabled : Bool

/-- `inspect_current`, of a path. -/
def inspectCurrent (view : View) (path : Str) : Inspection :=
  match view.lines path with
  | .error err => ⟨false, path, some err, false, false, false, false, false⟩
  | .ok lines =>
    let st := buildEffectiveState (readEntries lines)
    { available := true, path := path, error := none,
      sha1HashSignatureDisabled := sha1HashSignatureDisabled st,
      sha1InCertsDisabled := sha1InCertsDisabled st,
      sha1Disabled := sha1HashSignatureDisabled st && sha1InCertsDisabled st,
      weakMacsDisabled := weakMacsDisabled st, sshCbcDisabled := sshCbcDisabled st }

end PolicyFile
end Seharden
