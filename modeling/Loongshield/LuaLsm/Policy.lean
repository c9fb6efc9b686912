import Loongshield.Lua.Value

/-!
# `lua_lsm/policy.lua`

A policy is accepted for the table that its chunk returns. `runChunk` stands for loading the source and running it in
the sandbox (`loadstring`, `setfenv`, `pcall`): the value it returns, or the error.
-/

namespace LuaLsm

open Lua

/-- `REQUIRED_FIELDS`. -/
def requiredFields : List (Str × Str) :=
  [("name", "string"), ("author", "string"), ("description", "string"), ("license", "string"), ("version", "number")]

/-- `UNSUPPORTED_HOOKS`. -/
def unsupportedHooks : List Str := ["getprocattr", "setprocattr", "lsmprop_to_secctx"]

/-- The metadata of a policy. -/
structure Metadata where
  name : Str
  author : Str
  description : Str
  license : Str
  version : Flt
  deriving DecidableEq

/-- The first required field of another type, as an error. -/
def checkFields (module : Value) : List (Str × Str) → Except Str Unit
  | [] => .ok ()
  | (name, type) :: rest =>
    if (module.field name).typeName = type then checkFields module rest
    else .error ("policy field '" ++ name ++ "' must be a " ++ type)

/-- `name:match("^[%w_]+$")` on a key: its result is not used, but it raises on what has no `match`. -/
def matchKey : Value → Except Err Unit
  | .str _ => .ok ()
  | key => do
    match ← key.index (.str "match") with
    | .func _ => return ()
    | method => throw ("attempt to call method 'match' (a " ++ method.typeName ++ " value)")

/-- The loop over the fields of a policy; the outer error is a raised one. -/
def checkHooks : List (Value × Value) → Except Err (Except Str Unit)
  | [] => .ok (.ok ())
  | (key, _) :: rest =>
    match key with
    | .str name =>
      if name ∈ unsupportedHooks then .ok (.error ("policy uses unsupported Lua-LSM hook: " ++ name))
        else checkHooks rest
    | key => do
      matchKey key
      checkHooks rest

/-- The text of a field that is a string. -/
def strField (module : Value) (name : Str) : Str :=
  match module.field name with
  | .str s => s
  | _ => []

/-- The value of a field that is a number. -/
def numField (module : Value) (name : Str) : Flt := (module.field name).double.getD (.fin 0)

/-- `validate_metadata`. -/
def validateMetadata (module : Value) : Except Err (Except Str Metadata) :=
  match module with
  | .table _ fields _ => match checkFields module requiredFields with
    | .error err => .ok (.error err)
    | .ok () => do
      match ← checkHooks fields with
      | .error err => return .error err
      | .ok () =>
        return .ok {
          name := strField module "name"
          author := strField module "author"
          description := strField module "description"
          license := strField module "license"
          version := numField module "version" }
  | _ => .ok (.error "policy chunk must return a table")

/-- `validate_source`. -/
def validateSource (runChunk : Str → Except Err Value) (source : Str) : Except Err (Except Str Metadata) :=
  if source = [] then .ok (.error "policy source is empty")
  else match runChunk source with
    | .error err => .ok (.error err)
    | .ok module => validateMetadata module

end LuaLsm
