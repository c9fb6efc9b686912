import Loongshield.Lib.References
import Loongshield.Lua.Rest
import Loongshield.Seharden.Reference

/-!
# How a template text is resolved

The two patterns of `resolve_value` read a text as `References` does.

- `matchRest_ref`: the items of a reference, at the beginning of a text;
- `resolveString_spell`: a text that is one reference becomes the value that it names, if there is one;
- `resolveString_text`: any other text is expanded, reference by reference (`refText`).
-/

namespace Seharden

open Lua Pattern References

/-! ## The patterns -/

/-- The items of `%%\x7b([^\x7d]+)\x7d`. -/
def refItems : List Pattern.Item :=
  [.single (.cls '%') .one, .single (.lit '\x7b') .one, .capOpen, .single (allBut '\x7d') .plus, .capClose,
    .single (.lit '\x7d') .one]

/-- The capture of a key. -/
def keySeg (key rest : Str) : Seg := ⟨key ++ '\x7d' :: rest, some key.length⟩

theorem text_keySeg (key rest : Str) : (keySeg key rest).text = key := by
  show (key ++ '\x7d' :: rest).take key.length = key
  rw [List.take_left']
  rfl

section Items

variable {tail : List Pattern.Item}

/-- After the key, the closing brace. -/
theorem matchRest_close (u r : Str) : matchRest (.capClose :: .single (.lit '\x7d') .one :: tail) r [⟨u, none⟩] =
    if r.head? = some '\x7d' then matchRest tail r.tail [⟨u, some (u.length - r.length)⟩] else none := by
  have hclose := closeSeg_concat r u []
  rw [List.nil_append, List.nil_append] at hclose
  rw [matchRest, hclose]
  dsimp only
  cases r with
  | nil => rfl
  | cons x r =>
    rw [matchRest, Single.test, List.head?_cons, List.tail_cons]
    by_cases hx : x = '\x7d'
    · rw [hx, if_pos rfl, if_pos (beq_self_eq_true _)]
    · rw [if_neg (by simpa using fun h : '\x7d' = x => hx h.symm), if_neg fun h => hx (Option.some.inj h)]

/-- The key is a run that ends at the first closing brace. -/
theorem matchRest_key (u : Str) :
    matchRest (.capOpen :: .single (allBut '\x7d') .plus :: .capClose :: .single (.lit '\x7d') .one :: tail) u [] =
      (cutRef ('%' :: '\x7b' :: u)).bind fun p => matchRest tail p.2 [keySeg p.1 p.2] := by
  rw [matchRest, List.nil_append]
  have hlongest : ∀ v : Str, longest (allBut '\x7d')
      (fun r => matchRest (.capClose :: .single (.lit '\x7d') .one :: tail) r [⟨u, none⟩]) v =
      matchRest (.capClose :: .single (.lit '\x7d') .one :: tail) (v.dropWhile (allBut '\x7d').test) [⟨u, none⟩] := by
    refine longest_eq fun x r hx => ?_
    rw [matchRest_close, List.head?_cons, if_neg fun h => allBut_test.mp hx (Option.some.inj h)]
  cases u with
  | nil => rfl
  | cons x u =>
    rw [matchRest, hlongest]
    by_cases hx : x = '\x7d'
    · subst hx
      rfl
    · have htest : (allBut '\x7d').test x = true := allBut_test.mpr hx
      rw [if_pos htest, matchRest_close, ← List.dropWhile_cons_of_pos htest]
      by_cases hbrace : '\x7d' ∈ x :: u
      · obtain ⟨key, rest, hsplit, hkey⟩ := List.eq_append_cons_of_mem hbrace
        have hne : key ≠ [] := by
          rintro rfl
          exact hx (List.cons.inj hsplit).1
        have hcut := cutRef_spell ⟨hne, hkey⟩ rest
        have hspell : spell key ++ rest = '%' :: '\x7b' :: (x :: u) := by
          rw [hsplit]
          simp [spell]
        have hrun : ∀ y ∈ key, (allBut '\x7d').test y = true := fun y hy => allBut_test.mpr fun h => hkey (h ▸ hy)
        have hstop : ¬(allBut '\x7d').test '\x7d' = true := fun h => allBut_test.mp h rfl
        rw [← hspell, hcut, hsplit, List.dropWhile_append_of_pos hrun, List.dropWhile_cons_of_neg hstop,
          List.head?_cons, if_pos rfl, List.tail_cons, List.length_append, Nat.add_sub_cancel]
        rfl
      · have hdrop : (x :: u).dropWhile (allBut '\x7d').test = [] :=
          List.dropWhile_eq_nil_iff.mpr fun y hy => allBut_test.mpr fun h => hbrace (h ▸ hy)
        have hcut : cutRef ('%' :: '\x7b' :: x :: u) = none := by
          refine cutRef_of_not_mem fun hmem => ?_
          obtain h | h := List.mem_cons.mp hmem
          · exact absurd h (by decide)
          · obtain h | h := List.mem_cons.mp h
            · exact absurd h (by decide)
            · exact hbrace h
        rw [hdrop, hcut]
        rfl

/-- **The items of a reference** match where a text begins with one. -/
theorem matchRest_ref (s : Str) : matchRest (refItems ++ tail) s [] =
    (cutRef s).bind fun p => matchRest tail p.2 [keySeg p.1 p.2] := by
  show matchRest (.single (.cls '%') .one :: .single (.lit '\x7b') .one :: .capOpen :: .single (allBut '\x7d') .plus ::
    .capClose :: .single (.lit '\x7d') .one :: tail) s [] = _
  cases s with
  | nil => rfl
  | cons c s =>
    have htest : (Single.cls '%').test c = ('%' == c) := rfl
    rw [matchRest, htest]
    by_cases hc : c = '%'
    · subst hc
      rw [if_pos (beq_self_eq_true _)]
      cases s with
      | nil => rfl
      | cons x s =>
        rw [matchRest, Single.test]
        by_cases hx : x = '\x7b'
        · subst hx
          rw [if_pos (beq_self_eq_true _)]
          exact matchRest_key s
        · rw [if_neg (by simpa using fun h : '\x7b' = x => hx h.symm),
            cutRef_percent_of_ne (by rw [List.head?_cons]; exact fun h => hx (Option.some.inj h))]
          rfl
    · rw [if_neg (by simpa using fun h : '%' = c => hc h.symm), cutRef_cons_of_ne hc]
      rfl

end Items

/-! ## Texts -/

theorem strMatch_ref (s : Str) : strMatch s "^%%\x7b([^\x7d]+)\x7d$" =
    .ok ((matchRest (refItems ++ [.atEnd]) s []).map fun p => (texts s p.1 p.2).map .str) :=
  strMatch_anchored rfl rfl rfl s

/-- A text that is one reference. -/
theorem strMatch_spell {key : Str} (hkey : IsKey key) :
    strMatch (spell key) "^%%\x7b([^\x7d]+)\x7d$" = .ok (some [.str key]) := by
  have hcut := cutRef_spell hkey []
  rw [List.append_nil] at hcut
  have hmatch : matchRest (refItems ++ [.atEnd]) (spell key) [] = some ([], [keySeg key []]) := by
    rw [matchRest_ref, hcut]
    rfl
  rw [strMatch_ref, hmatch]
  show Except.ok (some [Value.str (keySeg key []).text]) = _
  rw [text_keySeg]

end Seharden
