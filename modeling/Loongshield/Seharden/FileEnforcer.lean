import Loongshield.Seharden.PathList

/-!
# `enforcers/file.lua`

The editors of one file. Each has its own way to edit the lines, and most go the course of `rewriteFile`;
`remove_line_matching` goes through several files and passes over links. The dependency table has none of the optional
functions, so a file that cannot be opened is taken for one that is not there.
-/

namespace Seharden

open Lua

/-- The optional functions in the dependency table of `file.lua`. -/
def fileDeps : Deps := { lfsAttributes := false, fsStat := false, fsChown := false, fsChmod := false }

/-- A parameter whose string methods are called; another value raises. -/
def strArg : Value → FsM Str
  | .str s => pure s
  | v => .raise ("attempt to index a " ++ v.typeName ++ " value")

/-- The text of a value in a concatenation. -/
def concatText : Value → Option Str
  | .str s => some s
  | v => v.double.map fun _ => v.tostring

/-- A parameter that is concatenated; strings and numbers can be. -/
def textArg (v : Value) : FsM Str :=
  match concatText v with
  | some text => pure text
  | none => .raise ("attempt to concatenate a " ++ v.typeName ++ " value")

/-! ## Edits of lines -/

/-- `key:gsub('([%^%$%(%)%%%.%[%]%*%+%-%?])', '%%%1')`. -/
def escapeKey (key : Str) : Except Err Str :=
  gsub key "([%^%$%(%)%%%.%[%]%*%+%-%?])" fun caps => '%' :: (caps.headD .nil).tostring

/-- The pattern of a line that sets the key. -/
def keyValuePattern (key sep : Str) : Except Err Str := do
  let escapedKey ← escapeKey key
  let escapedSep ← gsub sep "." fun caps => '%' :: (caps.headD .nil).tostring
  return "^%s*" ++ escapedKey ++ "%s*" ++ escapedSep ++ "%s*(.-)%s*$"

/-- What `set_key_value` has so far: the new lines, the lines that set the key, and whether the file changes. -/
structure KeyValueState where
  lines : List Str
  matchCount : Nat
  needsWrite : Bool

/-- The loop of `set_key_value`. -/
def keyValueLoop (pattern newLine value : Str) : List Str → KeyValueState → Except Err KeyValueState
  | [], st => .ok st
  | line :: rest, st => do
    match ← strMatch line pattern with
    | some (existing :: _) =>
      keyValueLoop pattern newLine value rest
        { lines := if st.matchCount = 0 then st.lines ++ [newLine] else st.lines
          matchCount := st.matchCount + 1
          needsWrite := st.needsWrite || !(existing.rawEq (.str value)) || decide (0 < st.matchCount) }
    | _ => keyValueLoop pattern newLine value rest { st with lines := st.lines ++ [line] }

/-- The edit of `set_key_value`. -/
def editKeyValue (key sep value : Str) (lines : List Str) : Except Err (Option (List Str)) := do
  let pattern ← keyValuePattern key sep
  let newLine := key ++ sep ++ value
  let st ← keyValueLoop pattern newLine value lines { lines := [], matchCount := 0, needsWrite := false }
  return if st.matchCount = 0 then some (st.lines ++ [newLine]) else if st.needsWrite then some st.lines else none

/-- The lines of a text: `(content .. '\n'):gmatch('(.-)\n')`. -/
def contentLines (content : Str) : Except Err (List Str) := do
  let ms ← gmatch (content ++ "\n") "(.-)\n"
  return ms.map fun caps => (caps.headD .nil).tostring

/-- The edit of `write_content`; `lines_equal` compares the lines one by one. -/
def editContent (content : Str) (current : List Str) : Except Err (Option (List Str)) := do
  let lines ← contentLines content
  return if current = lines then none else some lines

/-- What `set_ini_key_value` has so far. -/
structure IniState where
  lines : List Str
  inTargetSection : Bool
  keyFound : Bool
  keyUpdated : Bool
  insertIndex : Option Nat

/-- The loop of `set_ini_key_value`; `none` when the key has the value already. -/
def iniLoop (section_ : Value) (keyPattern newLine value : Str) : List Str → IniState → Except Err (Option IniState)
  | [], st => .ok (some st)
  | line :: rest, st => do
    match ← strMatch line "^%s*%[([^%]]+)%]%s*$" with
    | some (name :: _) =>
      iniLoop section_ keyPattern newLine value rest
        { st with
          lines := st.lines ++ [line]
          -- the section ends without the key: it goes before this header
          insertIndex := if st.inTargetSection && !st.keyFound then some (st.lines.length + 1) else st.insertIndex
          inTargetSection := name.rawEq section_ }
    | _ =>
      if st.inTargetSection && !st.keyFound then
        match ← strMatch line keyPattern with
        | some (existing :: _) =>
          let updated := { st with lines := st.lines ++ [newLine], keyFound := true, keyUpdated := true }
          if existing.rawEq (.str value) then .ok none else iniLoop section_ keyPattern newLine value rest updated
        | _ => iniLoop section_ keyPattern newLine value rest { st with lines := st.lines ++ [line] }
      else iniLoop section_ keyPattern newLine value rest { st with lines := st.lines ++ [line] }

/-- The edit of `set_ini_key_value`; the section is compared as it is given, and written as text. -/
def editIni (section_ : Value) (sectionText key value : Str) (lines : List Str) : Except Err (Option (List Str)) := do
  let escapedKey ← escapeKey key
  let newLine := key ++ "=" ++ value
  let found ← iniLoop section_ ("^%s*" ++ escapedKey ++ "%s*=%s*(.-)%s*$") newLine value lines
    { lines := [], inTargetSection := false, keyFound := false, keyUpdated := false, insertIndex := none }
  match found with
  | none => return none
  | some st =>
    let insertIndex := if st.inTargetSection && !st.keyFound then some (st.lines.length + 1) else st.insertIndex
    if st.keyFound then return if st.keyUpdated then some st.lines else none
    else match insertIndex with
      | some i => return some (st.lines.insertIdx (i - 1) newLine)
      | none => return some (st.lines ++ ["[" ++ sectionText ++ "]", newLine])

/-- A pattern that is given as a parameter; strings and numbers can be. -/
def patternArg (v : Value) : Except Err Str :=
  match concatText v with
  | some text => .ok text
  | none => .error ("bad argument #1 to 'match' (string expected, got " ++ v.typeName ++ ")")

/-- The edit of `remove_line_matching`: the lines that do not match. -/
def removeMatching (pattern : Value) : List Str → Except Err (List Str)
  | [] => .ok []
  | line :: lines => do
    let m ← strMatch line (← patternArg pattern)
    let rest ← removeMatching pattern lines
    return if m.isSome then rest else line :: rest

/-- Whether `comment_line_matching` comments a line: it matches, and has no comment yet. The prefix is looked at only
if the line matches. -/
def commentsLine (pattern commentPrefix : Value) (line : Str) : Except Err (Option Str) := do
  match ← strMatch line (← patternArg pattern) with
  | none => return none
  | some _ =>
    match commentPrefix with
    | .str pre =>
      let escaped ← escapeKey pre
      return if (← strMatch line ("^%s*" ++ escaped)).isSome then none else some (pre ++ line)
    | v => .error ("attempt to index a " ++ v.typeName ++ " value")

/-- The loop of `comment_line_matching`: the new lines and how many of them were commented. -/
def commentLoop (pattern commentPrefix : Value) : List Str → List Str → Nat → Except Err (List Str × Nat)
  | [], lines, commented => .ok (lines, commented)
  | line :: rest, lines, commented => do
    match ← commentsLine pattern commentPrefix line with
    | some new => commentLoop pattern commentPrefix rest (lines ++ [new]) (commented + 1)
    | none => commentLoop pattern commentPrefix rest (lines ++ [line]) commented

/-- The edit of `comment_line_matching`. -/
def editComments (pattern commentPrefix : Value) (lines : List Str) : Except Err (Option (List Str)) := do
  let (new, commented) ← commentLoop pattern commentPrefix lines [] 0
  return if commented = 0 then none else some new

/-! ## The enforcers -/

section Enforcers

variable (env : Env)

/-- `read_existing_lines`: the lines, whether the file exists, and the error of a file that cannot be read. -/
def readExistingLines (path : Str) : FsM (List Str × Bool × Option Str) := do
  match ← readLines env path "file" fileDeps true with
  | .error err => return ([], false, some err)
  | .ok (lines, fileExists) => return (lines, fileExists, none)

/-- The course of an editor of `file.lua`; of what is read, only the lines are looked at. -/
def editFile (path context : Str) (edit : List Str → Except Err (Option (List Str))) : FsM Ret :=
  rewriteFile env path context (do return (← readExistingLines env path).1) edit
    fun lines => writeLinesAtomically env path lines context

/-- `set_key_value`. -/
def setKeyValue (params : Value) : FsM Ret := do
  if !(params.field "path").truthy || !(params.field "key").truthy || (params.field "value").isNil then
    return .error "file.set_key_value: requires 'path', 'key', and 'value' parameters"
  else
    let path ← strArg (params.field "path")
    let key ← strArg (params.field "key")
    let sep ← if (params.field "separator").truthy then strArg (params.field "separator") else pure "=".toList
    editFile env path "file.set_key_value" (editKeyValue key sep (params.field "value").tostring)

/-- `append_line`. -/
def appendLine (params : Value) : FsM Ret := do
  if !(params.field "path").truthy || !(params.field "line").truthy then
    return .error "file.append_line: requires 'path' and 'line' parameters"
  else
    let path ← strArg (params.field "path")
    let text ← textArg (params.field "line")
    editFile env path "file.append_line" fun lines => .ok (appendMissing (params.field "line") text lines)

/-- `write_content`. -/
def writeContent (params : Value) : FsM Ret := do
  if !(params.field "path").truthy || (params.field "content").isNil then
    return .error "file.write_content: requires 'path' and 'content' parameters"
  else
    let path ← strArg (params.field "path")
    let content ← textArg (params.field "content")
    editFile env path "file.write_content" (editContent content)

/-- `set_ini_key_value`. -/
def setIniKeyValue (params : Value) : FsM Ret := do
  if !(params.field "path").truthy || !(params.field "section").truthy || !(params.field "key").truthy ||
      (params.field "value").isNil then
    return .error "file.set_ini_key_value: requires 'path', 'section', 'key', and 'value' parameters"
  else
    let path ← strArg (params.field "path")
    let sectionText ← textArg (params.field "section")
    let key ← strArg (params.field "key")
    editFile env path "file.set_ini_key_value"
      (editIni (params.field "section") sectionText key (params.field "value").tostring)

/-- One target of `remove_line_matching`: an error, or the file was passed over or rewritten. -/
def removeFrom (pattern : Value) (path : Str) : FsM Ret := do
  if ← isSymlink env path then return .ok ()
  else
    let (existing, fileExists, _) ← readExistingLines env path
    if !fileExists then return .ok ()
    else
      let lines ← Act.lift (removeMatching pattern existing)
      if lines.length = existing.length then return .ok ()
      else
        match ← writeLinesAtomically env path lines "file.remove_line_matching" with
        | .error err => return .error ("file.remove_line_matching: failed to write '" ++ path ++ "': " ++ err)
        | .ok () => return .ok ()

/-- The loop of `remove_line_matching` over its targets. -/
def removeFromAll (pattern : Value) : List Str → FsM Ret
  | [] => return .ok ()
  | path :: paths => do
    match ← removeFrom env pattern path with
    | .error err => return .error err
    | .ok () => removeFromAll pattern paths

/-- `remove_line_matching`. -/
def removeLineMatching (ls : Listing) (params : Value) : FsM Ret := do
  if !(params.field "pattern").truthy then
    return .error "file.remove_line_matching: requires 'pattern' parameter"
  else if (params.field "paths").truthy then
    let targets ← expandFiles env ls (params.field "paths")
    removeFromAll env (params.field "pattern") targets
  else if (params.field "path").truthy then
    let path ← strArg (params.field "path")
    removeFromAll env (params.field "pattern") [path]
  else return .error "file.remove_line_matching: requires 'path' or 'paths' parameter"

/-- `comment_line_matching`; a file that is not there has nothing to comment. -/
def commentLineMatching (params : Value) : FsM Ret := do
  if !(params.field "path").truthy || !(params.field "pattern").truthy then
    return .error "file.comment_line_matching: requires 'path' and 'pattern' parameters"
  else
    let path ← strArg (params.field "path")
    let commentPrefix := if (params.field "comment_prefix").truthy then params.field "comment_prefix" else .str "# "
    editFile env path "file.comment_line_matching" (editComments (params.field "pattern") commentPrefix)

/-! ## Accepted parameters -/

theorem truthy_of_concatText {v : Value} {text : Str} (h : concatText v = some text) : v.truthy = true := by
  cases v with
  | nil => cases h
  | bool b => cases h
  | func f => cases h
  | table r fs inh => cases h
  | _ => rfl

/-- The separator of `set_key_value`: its parameter, or `=`. -/
def Separator (params : Value) (sep : Str) : Prop :=
  ((params.field "separator").truthy = false ∧ sep = "=".toList) ∨ params.field "separator" = .str sep

variable {params : Value} {path : Str} {s : Sys}

theorem setKeyValue_eq {key sep : Str} (hpath : params.field "path" = .str path)
    (hkey : params.field "key" = .str key) (hvalue : params.field "value" ≠ .nil) (hsep : Separator params sep) :
    setKeyValue env params s =
      editFile env path "file.set_key_value" (editKeyValue key sep (params.field "value").tostring) s := by
  unfold setKeyValue
  rw [hpath, hkey, if_neg (by simpa [Value.truthy] using hvalue)]
  rcases hsep with ⟨hfalsy, rfl⟩ | hstr
  · rw [hfalsy]
    rfl
  · rw [hstr]
    rfl

theorem appendLine_eq {text : Str} (hpath : params.field "path" = .str path)
    (hline : concatText (params.field "line") = some text) :
    appendLine env params s =
      editFile env path "file.append_line" (fun lines => .ok (appendMissing (params.field "line") text lines)) s := by
  have htruthy : (params.field "line").truthy = true := truthy_of_concatText hline
  unfold appendLine textArg
  rw [hpath, hline, htruthy]
  rfl

theorem writeContent_eq {content : Str} (hpath : params.field "path" = .str path)
    (hcontent : concatText (params.field "content") = some content) :
    writeContent env params s = editFile env path "file.write_content" (editContent content) s := by
  have hnil : (params.field "content").isNil = false :=
    Value.isNil_eq_false.mpr (Value.ne_nil_of_truthy (truthy_of_concatText hcontent))
  unfold writeContent textArg
  rw [hpath, hcontent, hnil]
  rfl

theorem setIniKeyValue_eq {sectionText key : Str} (hpath : params.field "path" = .str path)
    (hsection : concatText (params.field "section") = some sectionText) (hkey : params.field "key" = .str key)
    (hvalue : params.field "value" ≠ .nil) :
    setIniKeyValue env params s = editFile env path "file.set_ini_key_value"
      (editIni (params.field "section") sectionText key (params.field "value").tostring) s := by
  have htruthy : (params.field "section").truthy = true := truthy_of_concatText hsection
  unfold setIniKeyValue textArg
  rw [hpath, hsection, hkey, htruthy, if_neg (by simpa [Value.truthy] using hvalue)]
  rfl

end Enforcers

end Seharden
