import Loongshield.Lua.Rest
import Loongshield.Seharden.View

/-!
# `parsers/sudoers.lua`

The files of a sudoers configuration with their includes, and the options of a `Defaults` line.

- `parseDefaultsEntry`, `getDefaultsFlagState`, `rewriteDefaultsWithoutFlag`: one `Defaults` line;
- `load`: the active lines and the files, in the order of the include directives. A file may be included more than once,
  but not by itself, and includes nest at most `maxDepth` deep.
-/

namespace Seharden

open Lua

namespace Sudoers

/-! ## Lines -/

/-- `get_dirname`. -/
def getDirname (path : Str) : Str := (firstCapture path "^(.*)/[^/]+$").getD ".".toList

/-- The replacement text of `gsub` for a pattern without captures that matched `whole`. -/
def expandReplacement (whole : Str) : Str → Except Err Str
  | '%' :: c :: rest => do
    let text ← expandReplacement whole rest
    if c = '0' ∨ c = '1' then return whole ++ text
    else if Pattern.isdigit c then .error "invalid capture index"
    else return c :: text
  | ['%'] => .ok [Char.ofNat 0]
  | c :: rest => (c :: ·) <$> expandReplacement whole rest
  | [] => .ok []

/-- `path:gsub('%%h', short_hostname or '')`. -/
def replaceHost (path : Str) (hostname : Option Str) : Except Err Str :=
  if isMatch path "%%h" then do
    let text ← expandReplacement "%h" (hostname.getD [])
    return substitute path "%%h" text
  else .ok path

/-- `resolve_include_path`. -/
def resolveIncludePath (rawPath currentPath : Str) (hostname : Option Str) : Except Err Str := do
  let path := trim rawPath
  let path := if path.head? = some '"' ∧ path.getLast? = some '"' ∧ 2 ≤ path.length then path.tail.dropLast else path
  let path ← replaceHost path hostname
  let path := substitute (substitute path "\\ " " ") "\\\\" "\\"
  return if path.head? = some '/' then path else getDirname currentPath ++ "/" ++ path

inductive IncludeKind
  | include_
  | includedir
  deriving DecidableEq

/-- `parse_include_directive`. -/
def parseIncludeDirective (line : Str) : Option (IncludeKind × Str) :=
  match firstCapture line "^[@#]includedir%s+(.+)$" with
  | some path => some (.includedir, path)
  | none => (firstCapture line "^[@#]include%s+(.+)$").map fun path => (.include_, path)

/-- A line without its comment: `line:gsub('%s+#.*$', '')`. -/
def stripComment (line : Str) : Str := substitute line "%s+#.*$" []

/-! ## Options of a `Defaults` line -/

/-- The loop of `split_defaults_options`. -/
structure SplitState where
  options : List Str
  buffer : Str
  quote : Option Char
  escaped : Bool

/-- `push`. -/
def SplitState.push (st : SplitState) : SplitState :=
  { st with options := if trim st.buffer = [] then st.options else st.options ++ [trim st.buffer], buffer := [] }

/-- One character of `split_defaults_options`. -/
def SplitState.next (st : SplitState) (char : Char) : SplitState :=
  if st.escaped then { st with buffer := st.buffer ++ [char], escaped := false }
  else if char = '\\' then { st with buffer := st.buffer ++ [char], escaped := true }
  else match st.quote with
    | some quote => { st with buffer := st.buffer ++ [char], quote := if char = quote then none else some quote }
    | none =>
      if char = '"' ∨ char = '\'' then { st with buffer := st.buffer ++ [char], quote := some char }
      else if char = ',' then st.push
      else { st with buffer := st.buffer ++ [char] }

/-- `split_defaults_options`. -/
def splitDefaultsOptions (rawOptions : Str) : List Str :=
  (rawOptions.foldl SplitState.next { options := [], buffer := [], quote := none, escaped := false }).push.options

/-- `unquote_defaults_value`. -/
def unquoteDefaultsValue (value : Str) : Str :=
  let value := trim value
  let quoted (q : Char) : Prop := value.head? = some q ∧ value.getLast? = some q
  let value := if 2 ≤ value.length ∧ (quoted '"' ∨ quoted '\'') then value.tail.dropLast else value
  match gsub value "\\(.)" fun caps => (caps.headD .nil).tostring with
  | .ok text => text
  | .error _ => value

/-- An option: a flag, or a name with an operator and a value. -/
structure DefaultsOption where
  name : Str
  negated : Bool
  operator : Option Str
  value : Option Str
  text : Str
  deriving DecidableEq

/-- A token that is a flag. -/
def flagOption (token : Str) : Option DefaultsOption :=
  match matchCaptures token "^(!?)([%w_]+)$" with
  | some [negation, flagName] =>
    some { name := lower flagName, negated := negation = ['!'], operator := none, value := none, text := token }
  | _ => none

/-- `append_defaults_option`: the options of one text. -/
def defaultsOptions (optionText : Str) : List DefaultsOption :=
  match matchCaptures optionText "^(!?[%w_]+)%s*([+%-]?=)%s*(.-)%s*$" with
  | some [name, operator, value] =>
    [{ name := lower (if name.head? = some '!' then name.tail else name)
       negated := name.head? = some '!'
       operator := some operator
       value := some (unquoteDefaultsValue value)
       text := optionText }]
  | _ => (captures optionText "%S+").filterMap flagOption

/-- Whom a `Defaults` line is for. -/
inductive Scope
  | global
  | scoped
  deriving DecidableEq

/-- What `parse_defaults_entry` gives. -/
structure DefaultsEntry where
  linePrefix : Str
  scope : Scope
  options : List DefaultsOption
  deriving DecidableEq

/-- The scope of the first word of a line. -/
def scopeOf (linePrefix : Str) : Option Scope :=
  if lower linePrefix = "defaults".toList then some .global
  else if isMatch (lower linePrefix) "^defaults[@:!>]" then some .scoped
  else none

/-- `parse_defaults_entry`. -/
def parseDefaultsEntry (line : Str) : Option DefaultsEntry :=
  match matchCaptures (trim line) "^(%S+)%s+(.+)$" with
  | some [linePrefix, rawOptions] =>
    (scopeOf linePrefix).map fun scope =>
      { linePrefix := linePrefix, scope := scope, options := (splitDefaultsOptions rawOptions).flatMap defaultsOptions }
  | _ => none

/-- A flag of this name. -/
def DefaultsOption.isFlag (flagName : Str) (option : DefaultsOption) : Bool :=
  option.operator.isNone && option.name = lower flagName

/-- `get_defaults_flag_state`: the last flag of this name counts. -/
def getDefaultsFlagState (line flagName : Str) : Option Bool :=
  match parseDefaultsEntry line with
  | none => none
  | some defaults => ((defaults.options.filter (DefaultsOption.isFlag flagName)).getLast?).map fun option =>
      !option.negated

/-- `rewrite_defaults_without_flag`: the line (`none` if nothing is left of it), and whether it changed. -/
def rewriteDefaultsWithoutFlag (line flagName : Str) (wantNegated : Bool) : Option Str × Bool :=
  let active := trim (stripComment line)
  if active = [] ∨ active.head? = some '#' then (some line, false)
  else match parseDefaultsEntry active with
    | none => (some line, false)
    | some defaults =>
      let removes (option : DefaultsOption) : Bool := option.isFlag flagName && option.negated == wantNegated
      let tokens := (defaults.options.filter fun option => !removes option).map DefaultsOption.text
      if !defaults.options.any removes then (some line, false)
      else if tokens = [] then (none, true)
      else (some (defaults.linePrefix ++ " " ++ [','].intercalate tokens), true)

/-! ## Loading -/

/-- An active line and its file. -/
structure ActiveLine where
  path : Str
  text : Str
  deriving DecidableEq

inductive PathType
  | file
  | directory
  deriving DecidableEq

/-- What `load` collects. -/
structure State where
  lines : List ActiveLine
  files : List Str
  auditPaths : List (Str × PathType)
  permissionPaths : List (Str × PathType)
  deriving DecidableEq

/-- How loading fails: an error that is raised, or `nil` and a message. -/
inductive LoadErr
  | raised (err : Err)
  | returned (msg : Str)
  deriving DecidableEq

/-- `record_unique_path`. -/
def recordUniquePath (paths : List (Str × PathType)) (path : Str) (pathType : PathType) : List (Str × PathType) :=
  if (path, pathType) ∈ paths then paths else paths ++ [(path, pathType)]

/-- A message, with or without the function it is for. -/
def formatError (errorContext : Option Str) (withContext alone : Str) : LoadErr :=
  .returned (match errorContext with
    | some context => context ++ ": " ++ withContext
    | none => alone)

section Load

variable (view : View) (hostname errorContext : Option Str)

/-- `format_depth_error`. -/
def depthError : LoadErr :=
  formatError errorContext "sudoers include depth exceeded the supported limit"
    "Sudoers include depth exceeded the supported limit."

/-- `format_loop_error`. -/
def loopError (path : Str) : LoadErr :=
  formatError errorContext ("detected a sudoers include loop at '" ++ path ++ "'")
    ("Detected a sudoers include loop at '" ++ path ++ "'.")

/-- `format_file_error`. -/
def fileError (path : Str) : LoadErr :=
  formatError errorContext ("could not open sudoers file '" ++ path ++ "'")
    ("Could not open sudoers file '" ++ path ++ "'.")

/-- `format_directory_error`. -/
def directoryError (path : Str) : LoadErr :=
  formatError errorContext ("could not open sudoers include directory '" ++ path ++ "'")
    ("Could not open sudoers include directory '" ++ path ++ "'.")

/-- The names an include directory takes: no dot in them, and no tilde at the end. -/
def isIncludedirMember (name : Str) : Bool :=
  decide ('.' ∉ name) && !isMatch name "~$"

/-- `list_directory_files`. -/
def listDirectoryFiles (path : Str) : Except LoadErr (List Str) :=
  if view.mode path = some "directory".toList then
    match view.names path with
    | .error err => .error (.raised err)
    | .ok names => .ok (sortStrs (((names.filter isIncludedirMember).map (path ++ "/" ++ ·)).filter fun full =>
        view.mode full = some "file".toList))
  else .error (directoryError errorContext path)

/-- `append_active_line`. -/
def appendActiveLine (lines : List ActiveLine) (path trimmed : Str) : List ActiveLine :=
  if trimmed.head? = some '#' then lines
  else
    let active := trim (stripComment trimmed)
    if active = [] then lines else lines ++ [{ path := path, text := active }]

/-- What visits a path: whether it is recorded for the audit, and what was collected before. -/
abbrev Visit := Str → Bool → State → Except LoadErr State

/-- `visit_directory`; `member` visits a file in it. -/
def visitDirectory (member : Visit) (path : Str) (st : State) : Except LoadErr State := do
  let st := { st with
    auditPaths := recordUniquePath st.auditPaths path .directory
    permissionPaths := recordUniquePath st.permissionPaths path .directory }
  let entries ← listDirectoryFiles view errorContext path
  entries.foldlM (fun st entry =>
    member entry false { st with permissionPaths := recordUniquePath st.permissionPaths entry .file }) st

/-- One line of a file; `included` visits a file it includes, `member` a file of a directory it includes. -/
def visitLine (included member : Visit) (path : Str) (st : State) (line : Str) : Except LoadErr State :=
  let trimmed := trim line
  if trimmed = [] then .ok st
  else match parseIncludeDirective trimmed with
    | some (kind, arg) =>
      match resolveIncludePath arg path hostname with
      | .error err => .error (.raised err)
      | .ok includePath => match kind with
        | .include_ => included includePath true st
        | .includedir => visitDirectory view errorContext member includePath st
    | none => .ok { st with lines := appendActiveLine st.lines path trimmed }

/-- A file that is not yet open: its lines. -/
def visitFile (included member : Visit) (path : Str) (recorded : Bool) (st : State) : Except LoadErr State :=
  let st := { st with
    auditPaths := if recorded then recordUniquePath st.auditPaths path .file else st.auditPaths
    permissionPaths := recordUniquePath st.permissionPaths path .file }
  if view.mode path = some "file".toList then
    match view.lines path with
    | .error _ => .error (fileError errorContext path)
    | .ok lines => lines.foldlM (visitLine view hostname errorContext included member path)
        { st with files := appendUnique st.files path }
  else .error (fileError errorContext path)

/-- `visit_path`, with the levels that are left: an included file is one level deeper, a file of an included directory
two. `stack` has the files that are open. -/
def visitPath : Nat → List Str → Visit
  | 0, _ => fun _ _ _ => .error (depthError errorContext)
  | 1, stack => fun path recorded st =>
    if path ∈ stack then .error (loopError errorContext path)
    else visitFile view hostname errorContext (fun _ _ _ => .error (depthError errorContext))
      (fun _ _ _ => .error (depthError errorContext)) path recorded st
  | n + 2, stack => fun path recorded st =>
    if path ∈ stack then .error (loopError errorContext path)
    else visitFile view hostname errorContext (visitPath (n + 1) (path :: stack)) (visitPath n (path :: stack))
      path recorded st

/-- `DEFAULT_MAX_DEPTH`. -/
def defaultMaxDepth : Nat := 128

/-- `load`, with the limit of `options.max_depth`. -/
def load (maxDepth : Nat) (paths : List Str) : Except LoadErr State :=
  paths.foldlM (fun st path => visitPath view hostname errorContext maxDepth [] path true st)
    { lines := [], files := [], auditPaths := [], permissionPaths := [] }

end Load

end Sudoers
end Seharden
