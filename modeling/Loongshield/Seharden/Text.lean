import Loongshield.Seharden.Fsutil
import Mathlib.Data.List.Sort
import Mathlib.Data.List.Lex
import Mathlib.Data.Char

/-!
# `shared/text.lua`, and the string functions on fixed patterns

A fixed pattern of the source is well formed, so that `match`, `gmatch` and `gsub` with it never raise: `isMatch`,
`captures` and `substitute` give their results without the error.
-/

namespace Seharden

open Lua

/-- `s:match(p) ~= nil`. -/
def isMatch (s pattern : Str) : Bool :=
  match strMatch s pattern with
  | .ok (some _) => true
  | _ => false

/-- `s:match(p) ~= nil`, as a fact about the match. -/
theorem isMatch_iff {s pattern : Str} : isMatch s pattern = true ↔ ∃ m, strMatch s pattern = .ok (some m) := by
  unfold isMatch
  split
  next m h => exact ⟨fun _ => ⟨m, h⟩, fun _ => rfl⟩
  next h => exact ⟨fun h' => absurd h' Bool.false_ne_true, fun ⟨m, hm⟩ => absurd hm (h m)⟩

/-- The captures of a match, if there is one. -/
def matchCaptures (s pattern : Str) : Option (List Str) :=
  match strMatch s pattern with
  | .ok (some vs) => some (vs.map Value.tostring)
  | _ => none

/-- `for capture in s:gmatch(p)`. -/
def captures (s pattern : Str) : List Str :=
  match gmatch s pattern with
  | .ok ms => ms.map fun caps => (caps.headD .nil).tostring
  | .error _ => []

/-- `s:gsub(p, text)`, for a replacement that names no capture. -/
def substitute (s pattern text : Str) : Str :=
  match gsub s pattern fun _ => text with
  | .ok r => r
  | .error _ => s

/-- `table.sort` of strings. -/
def sortStrs (l : List Str) : List Str := l.insertionSort (· ≤ ·)

/-- A list without what it has already: `if not seen[x] then list[#list + 1] = x; seen[x] = true`. -/
def appendUnique (list : List Str) (x : Str) : List Str := if x ∈ list then list else list ++ [x]

theorem mem_appendUnique {l : List Str} {x y : Str} : y ∈ appendUnique l x ↔ y ∈ l ∨ y = x := by
  unfold appendUnique
  split
  · next h => exact ⟨.inl, fun hy => hy.elim id fun hx => hx ▸ h⟩
  · simp

theorem mem_sortStrs {l : List Str} {x : Str} : x ∈ sortStrs l ↔ x ∈ l := List.mem_insertionSort _

theorem mem_foldl_appendUnique {x : Str} : ∀ {l acc : List Str}, x ∈ l.foldl appendUnique acc ↔ x ∈ acc ∨ x ∈ l
  | [], acc => by simp
  | y :: l, acc => by
    rw [List.foldl_cons, mem_foldl_appendUnique, mem_appendUnique, List.mem_cons, or_assoc]

theorem nodup_foldl_appendUnique : ∀ {l acc : List Str}, acc.Nodup → (l.foldl appendUnique acc).Nodup
  | [], _, h => h
  | y :: l, acc, h => by
    refine @nodup_foldl_appendUnique l (appendUnique acc y) ?_
    unfold appendUnique
    split
    · exact h
    · next hy =>
      refine List.nodup_append.mpr ⟨h, List.nodup_singleton y, fun a ha b hb hab => ?_⟩
      rw [List.mem_singleton] at hb
      exact hy (hb ▸ hab ▸ ha)

/-- The elements of a list, each at its first place. -/
def unique (l : List Str) : List Str := l.foldl appendUnique []

theorem mem_unique {l : List Str} {x : Str} : x ∈ unique l ↔ x ∈ l := by
  rw [unique, mem_foldl_appendUnique, or_iff_right List.not_mem_nil]

theorem nodup_unique (l : List Str) : (unique l).Nodup := nodup_foldl_appendUnique List.nodup_nil

/-- `text.trim`. -/
def trim (s : Str) : Str := (firstCapture s "^%s*(.-)%s*$").getD []

/-- `text.shell_escape`. -/
def shellEscape (s : Str) : Str := "'" ++ substitute s "'" "'\\''" ++ "'"

/-- The loop of `text.glob_to_pattern`; `fuel` counts the characters. -/
def globLoop : Nat → Str → Str
  | 0, _ => []
  | _, [] => []
  | n + 1, '*' :: rest => ".*" ++ globLoop n rest
  | n + 1, '?' :: rest => "." ++ globLoop n rest
  | n + 1, '[' :: rest =>
    match rest.span (· ≠ ']') with
    | (cls, _ :: rest') =>
      let cls := match cls with
        | '!' :: cls => '^' :: cls
        | cls => cls
      "[" ++ cls ++ "]" ++ globLoop n rest'
    | (_, []) => "%[" ++ globLoop n rest
  | n + 1, c :: rest =>
    if isMatch [c] "[%^%$%(%)%%%.%+%-%/]" then '%' :: c :: globLoop n rest else c :: globLoop n rest

/-- `text.glob_to_pattern`. -/
def globToPattern (glob : Str) : Str := "^" ++ globLoop glob.length glob ++ "$"

example : globToPattern "[!a]*.conf" = "^[^a].*%.conf$".toList := by decide +kernel

end Seharden
