import Loongshield.Lib.Worklist
import Loongshield.Seharden.RuleSchema

/-!
# `profile.lua`

A profile is YAML data: a list of levels, each with an identifier and the levels it inherits from, the rules, and items
for manual review. `validate` checks it, with the texts of its messages; the mark it leaves on a profile that passed is
left out, since it only saves the repetition of the same checks. `buildActiveLevels` closes the target level under
`inherits_from` with a stack; `getRulesForLevel` and `getManualReviewItemsForLevel` select by the result.

The results about the selection are in `Loongshield.Seharden.Selection`.
-/

namespace Seharden

open Lua

/-! ## `validate` -/

/-- `validate_string_list`. -/
def validateStringList (values : Value) (fieldName : Str) : Except Str Unit := do
  check (isList values) (fieldName ++ " must be a list of non-empty strings.")
  checkEach (fun i value => check (isNonEmptyString value) (elemName fieldName i ++ " must be a non-empty string.")) 1
    values.ipairs

/-- `level_ids[level_id]`. -/
def isLevel (levelIds : List Str) : Value → Bool
  | .str id => levelIds.contains id
  | _ => false

/-- `validate_known_level_refs`. -/
def validateKnownLevelRefs (values : Value) (fieldName : Str) (levelIds : List Str) : Except Str Unit := do
  validateStringList values fieldName
  checkEach (fun _ levelId => check (isLevel levelIds levelId)
    (fieldName ++ " references unknown level '" ++ levelId.tostring ++ "'.")) 1 values.ipairs

/-- A check of a field that may be absent. -/
def checkPresent (v : Value) (c : Except Str Unit) : Except Str Unit := if v.isNil then .ok () else c

/-- The first loop over the levels: it returns the identifiers, the last one first. -/
def validateLevels : Nat → List Str → List Value → Except Str (List Str)
  | _, levelIds, [] => .ok levelIds
  | i, levelIds, level :: levels => do
    let name := elemName "levels" i
    check level.isTable (name ++ " must be a table.")
    check (isNonEmptyString (level.field "id")) (name ++ ".id must be a non-empty string.")
    check (!isLevel levelIds (level.field "id")) ("Duplicate level id '" ++ (level.field "id").tostring ++ "'.")
    checkPresent (level.field "inherits_from") (validateStringList (level.field "inherits_from")
      (name ++ ".inherits_from"))
    validateLevels (i + 1) ((level.field "id").tostring :: levelIds) levels

/-- The second loop over the levels. -/
def validateInherits (levelIds : List Str) (i : Nat) (level : Value) : Except Str Unit :=
  if (level.field "inherits_from").truthy then
    validateKnownLevelRefs (level.field "inherits_from") (elemName "levels" i ++ ".inherits_from") levelIds
  else .ok ()

/-- The checks of `default_level`. -/
def validateDefaultLevel (levelIds : List Str) (level : Value) : Except Str Unit := do
  check (isNonEmptyString level) "Profile field 'default_level' must be a non-empty string."
  check (isLevel levelIds level)
    ("Profile field 'default_level' references unknown level '" ++ level.tostring ++ "'.")

/-- The checks of one entry of `manual_review_required`. -/
def validateManualEntry (levelIds : List Str) (i : Nat) (entry : Value) : Except Str Unit := do
  let name := elemName "manual_review_required" i
  check entry.isTable (name ++ " must be a table.")
  check (isNonEmptyString (entry.field "area")) (name ++ ".area must be a non-empty string.")
  check (isNonEmptyString (entry.field "item")) (name ++ ".item must be a non-empty string.")
  check (isNonEmptyString (entry.field "reason")) (name ++ ".reason must be a non-empty string.")
  checkPresent (entry.field "level") (validateKnownLevelRefs (entry.field "level") (name ++ ".level") levelIds)

/-- The loop over the rules; `ruleIds` are the identifiers of the earlier ones. -/
def validateRules (levelIds : List Str) : Nat → List Str → List Value → Except Str Unit
  | _, _, [] => .ok ()
  | i, ruleIds, rule :: rules => do
    let name := elemName "rules" i
    validateRule rule name false
    check (!ruleIds.contains (rule.field "id").tostring)
      ("Duplicate rule id '" ++ (rule.field "id").tostring ++ "'.")
    checkPresent (rule.field "level") (validateKnownLevelRefs (rule.field "level") (name ++ ".level") levelIds)
    validateRules levelIds (i + 1) ((rule.field "id").tostring :: ruleIds) rules

/-- `validate`. -/
def validate (profile : Value) : Except Str Unit := do
  check profile.isTable "Profile root must be a YAML mapping."
  check (isList (profile.field "levels")) "Profile field 'levels' must be a list."
  check (isList (profile.field "rules")) "Profile field 'rules' must be a list."
  let levelIds ← validateLevels 1 [] (profile.field "levels").ipairs
  checkEach (validateInherits levelIds) 1 (profile.field "levels").ipairs
  checkPresent (profile.field "default_level") (validateDefaultLevel levelIds (profile.field "default_level"))
  checkPresent (profile.field "manual_review_required") (do
    check (isList (profile.field "manual_review_required")) "Profile field 'manual_review_required' must be a list."
    checkEach (validateManualEntry levelIds) 1 (profile.field "manual_review_required").ipairs)
  validateRules levelIds 1 [] (profile.field "rules").ipairs

/-! ## `build_active_levels` -/

/-- The text of a string value. Identifiers of a profile that was validated are strings. -/
def strOf : Value → Option Str
  | .str s => some s
  | _ => none

/-- `levels_by_id`. A later level with the same identifier stands before an earlier one. -/
def levelsById (profile : Value) : List (Str × Value) :=
  ((profile.field "levels").ipairs.filterMap fun level => (strOf (level.field "id")).map fun id => (id, level)).reverse

/-- The identifiers a level inherits from. -/
def parentIds (level : Value) : List Str := (level.field "inherits_from").ipairs.filterMap strOf

/-- The levels with the identifiers they push on the stack. -/
def levelGraph (profile : Value) : List (Str × List Str) :=
  (levelsById profile).map fun level => (level.1, parentIds level.2)

/-- `build_active_levels`: all levels without a target, nothing for an unknown target, else the levels that the loop
over `levels_to_process` reaches. The two tables of the loop, `active_levels` and `processed_ids`, always hold the same
identifiers; they are the nodes seen. -/
def buildActiveLevels (profile target : Value) : Option (List Str) :=
  if !target.truthy then some ((levelsById profile).map Prod.fst)
  else match strOf target with
    | none => none
    | some id =>
      if ((levelsById profile).lookup id).isNone then none
      else some (Worklist.closure (levelGraph profile) id)

/-! ## The selections -/

/-- The levels of a rule or an item meet the active ones. -/
def meets (activeLevels : List Str) (levels : Value) : Bool := levels.ipairs.any (isLevel activeLevels)

/-- The loop of `get_rules_for_level`; `index` is the position of the next rule. -/
def selectRules (activeLevels : List Str) : Nat → List Value → Except Str (List Value)
  | _, [] => .ok []
  | index, rule :: rules =>
    let level := rule.field "level"
    if !level.truthy || (level.isTable && meets activeLevels level) then do
      validateRule rule (elemName "rules" index) true
      let rulesToRun ← selectRules activeLevels (index + 1) rules
      .ok (rule :: rulesToRun)
    else selectRules activeLevels (index + 1) rules

/-- `get_rules_for_level`: the rules, or nothing with an error message if there is one. -/
def getRulesForLevel (profile target : Value) : Except (Option Str) (List Value) :=
  match validate profile with
  | .error err => .error (some err)
  | .ok _ => match buildActiveLevels profile target with
    | none => .error none
    | some activeLevels => match selectRules activeLevels 1 (profile.field "rules").ipairs with
      | .error err => .error (some err)
      | .ok rules => .ok rules

/-- `get_manual_review_items_for_level`. -/
def getManualReviewItemsForLevel (profile target : Value) : Except (Option Str) (List Value) :=
  match validate profile with
  | .error err => .error (some err)
  | .ok _ => match buildActiveLevels profile target with
    | none => .error none
    | some activeLevels => .ok ((profile.field "manual_review_required").ipairs.filter fun entry =>
        !(entry.field "level").truthy || meets activeLevels (entry.field "level"))

end Seharden
