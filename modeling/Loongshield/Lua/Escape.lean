import Loongshield.Lua.Flags
import Loongshield.Lua.Rest

/-!
# Escaped texts in patterns

A text is put into a pattern with a `%` before each of its magic characters. There it stands for itself.

- `escaped`: the text with the escapes; `gsub_escape` is the replacement that makes it;
- `compile_escaped`: the items of an escaped text, and of the pattern after it;
- `matchRest_spells`: these items take the text.
-/

namespace Lua
namespace Pattern

/-! ## Reading a pattern further on -/

theorem setBody_shorter {p : Str} : ∀ {b r : Str}, setBody p = some (b, r) → r.length < p.length := by
  induction p using setBody.induct with
  | case1 c r =>
    intro b r' h
    rw [← (Prod.mk.inj (Option.some.inj h)).2, List.length_cons, List.length_cons, List.length_cons]
    omega
  | case2 c r hne ih =>
    intro b r' h
    rw [setBody] at h
    · obtain ⟨q, hq, heq⟩ := Option.map_eq_some_iff.mp h
      have hlt := @ih q.1 q.2 hq
      rw [← (Prod.mk.inj heq).2, List.length_cons, List.length_cons]
      omega
    · exact hne
  | case3 c r hne hne' =>
    intro b r' h
    rw [setBody] at h
    · rw [← (Prod.mk.inj (Option.some.inj h)).2, List.length_cons, List.length_cons]
      omega
    all_goals assumption
  | case4 c r hne hne' hne'' ih =>
    intro b r' h
    rw [setBody] at h
    · obtain ⟨q, hq, heq⟩ := Option.map_eq_some_iff.mp h
      have hlt := @ih q.1 q.2 hq
      rw [← (Prod.mk.inj heq).2, List.length_cons]
      omega
    all_goals assumption
  | case5 =>
    intro b r' h
    cases h

theorem readSet_shorter {p r : Str} {c : Single} (h : readSet p = some (c, r)) : r.length < p.length := by
  unfold readSet at h
  split at h
  next neg q hq =>
    obtain ⟨b, hb, heq⟩ := Option.map_eq_some_iff.mp h
    have hlt : b.2.length < q.length := @setBody_shorter q b.1 b.2 hb
    have hle : q.length ≤ p.length := by
      split at hq
      · rw [← (Prod.mk.inj hq).2, List.length_cons]
        omega
      · rw [← (Prod.mk.inj hq).2]
    rw [← (Prod.mk.inj heq).2]
    omega

theorem readQuant_length_le (p : Str) : (readQuant p).2.length ≤ p.length := by
  unfold readQuant
  split <;> simp

/-- An item has at least one character. -/
theorem readItem_shorter {p r : Str} {i : Item} (h : readItem p = (i, some r)) : r.length < p.length := by
  unfold readItem at h
  split at h
  all_goals
    first
    | (cases h; simp only [List.length_cons]; omega)
    | (cases h; done)
    | skip
  case h_7 q =>
    cases hset : readSet q with
    | none =>
      rw [hset] at h
      cases h
    | some b =>
      obtain ⟨c, q'⟩ := b
      have hlt := readSet_shorter hset
      rw [hset] at h
      cases h
      simp only [List.length_cons]
      omega
  case h_10 c q _ _ _ _ =>
    have hle := readQuant_length_le q
    split at h
    · cases h
      simp only [List.length_cons]
      omega
    · cases h
      simp only [List.length_cons]
      change (readQuant q).2.length < _
      omega
  case h_11 q =>
    cases hset : readSet q with
    | none =>
      rw [hset] at h
      cases h
    | some b =>
      obtain ⟨c, q'⟩ := b
      have hlt := readSet_shorter hset
      have hle := readQuant_length_le q'
      rw [hset] at h
      cases h
      simp only [List.length_cons]
      change (readQuant q').2.length < _
      omega
  case h_12 q =>
    have hle := readQuant_length_le q
    cases h
    change (readQuant q).2.length < q.length + 1
    omega
  case h_13 c q _ _ _ _ _ _ _ _ _ _ _ _ =>
    have hle := readQuant_length_le q
    cases h
    change (readQuant q).2.length < q.length + 1
    omega

/-- More fuel than characters changes nothing. -/
theorem readItems_of_le : ∀ {n m : Nat} {p : Str}, p.length ≤ n → p.length ≤ m → readItems n p = readItems m p
  | 0, 0, _, _, _ => rfl
  | 0, m + 1, p, hn, _ => by
    obtain rfl := List.length_eq_zero_iff.mp (Nat.le_zero.mp hn)
    rfl
  | n + 1, 0, p, _, hm => by
    obtain rfl := List.length_eq_zero_iff.mp (Nat.le_zero.mp hm)
    rfl
  | n + 1, m + 1, [], _, _ => rfl
  | n + 1, m + 1, x :: p, hn, hm => by
    unfold readItems
    cases hi : readItem (x :: p) with
    | mk i r =>
      cases r with
      | none => rfl
      | some r =>
        have hlt := readItem_shorter hi
        dsimp only
        rw [@readItems_of_le n m r (by omega) (by omega)]

theorem readItems_cons (n : Nat) (x : Char) (p : Str) : readItems (n + 1) (x :: p) = match readItem (x :: p) with
    | (i, some r) => i :: readItems n r
    | (i, none) => [i] := rfl

theorem readItems_eq {n : Nat} {p : Str} (h : p.length ≤ n) : readItems n p = compile p :=
  readItems_of_le h (Nat.le_refl _)

/-- The first item of a pattern, and the others. -/
theorem compile_cons {p r : Str} {i : Item} (h : readItem p = (i, some r)) (hne : p ≠ []) :
    compile p = i :: compile r := by
  obtain ⟨x, q, rfl⟩ := List.exists_cons_of_ne_nil hne
  have hlt := readItem_shorter h
  rw [compile, List.length_cons, readItems_cons, h]
  dsimp only
  rw [readItems_eq (by rw [List.length_cons] at hlt; omega)]

/-! ## Escapes -/

/-- The characters with a meaning in a pattern. -/
def isMagic (x : Char) : Bool := x ∈ magic

/-- A text with a `%` before each magic character. -/
def escaped (w : Str) : Str := w.flatMap fun x => if isMagic x then ['%', x] else [x]

/-- What stands for each character of an escaped text. -/
def spelling (w : Str) : List Single := w.map fun x => if isMagic x then .cls x else .lit x

theorem cls_test_magic {x : Char} (hx : isMagic x = true) (y : Char) : (Single.cls x).test y = (x == y) := by
  have hmem : x ∈ ['^', '$', '(', ')', '%', '.', '[', ']', '*', '+', '-', '?'] := of_decide_eq_true hx
  simp only [List.mem_cons, List.not_mem_nil, or_false] at hmem
  rcases hmem with rfl | rfl | rfl | rfl | rfl | rfl | rfl | rfl | rfl | rfl | rfl | rfl <;> rfl

theorem spells_spelling (w : Str) : Spells (spelling w) w := by
  induction w with
  | nil => exact .nil
  | cons x w ih =>
    refine .cons (fun y => ?_) ih
    dsimp only
    by_cases hx : isMagic x = true
    · rw [if_pos hx, cls_test_magic hx, beq_iff_eq, eq_comm]
    · rw [if_neg hx, Single.test, beq_iff_eq, eq_comm]

/-- No quantifier follows. -/
def Unquantified (p : Str) : Prop := ∀ x, p.head? = some x → x ≠ '*' ∧ x ≠ '+' ∧ x ≠ '-' ∧ x ≠ '?'

theorem readQuant_of_unquantified {p : Str} (h : Unquantified p) : readQuant p = (.one, p) := by
  unfold readQuant
  split
  · exact absurd rfl (h '*' rfl).1
  · exact absurd rfl (h '+' rfl).2.1
  · exact absurd rfl (h '-' rfl).2.2.1
  · exact absurd rfl (h '?' rfl).2.2.2
  · rfl

theorem readItem_magic {x : Char} {p : Str} (hx : isMagic x = true) (hp : Unquantified p) :
    readItem ('%' :: x :: p) = (.single (.cls x) .one, some p) := by
  have hread : readItem ('%' :: x :: p) = (.single (.cls x) (readQuant p).1, some (readQuant p).2) := by
    have hmem : x ∈ ['^', '$', '(', ')', '%', '.', '[', ']', '*', '+', '-', '?'] := of_decide_eq_true hx
    simp only [List.mem_cons, List.not_mem_nil, or_false] at hmem
    rcases hmem with rfl | rfl | rfl | rfl | rfl | rfl | rfl | rfl | rfl | rfl | rfl | rfl <;> rfl
  rw [hread, readQuant_of_unquantified hp]

theorem readItem_other {x : Char} {p : Str} (hx : isMagic x = false) (hp : Unquantified p) :
    readItem (x :: p) = (.single (.lit x) .one, some p) := by
  have hmem : x ∉ magic := of_decide_eq_false hx
  rw [readItem_plain hmem, readQuant_of_unquantified hp]

theorem escaped_cons (x : Char) (w : Str) :
    escaped (x :: w) = if isMagic x then '%' :: x :: escaped w else x :: escaped w := by
  unfold escaped
  rw [List.flatMap_cons]
  split <;> rfl

/-- A text without magic characters is not changed. -/
theorem escaped_plain {w : Str} (hw : ∀ x ∈ w, isMagic x = false) : escaped w = w := by
  induction w with
  | nil => rfl
  | cons x w ih =>
    rw [escaped_cons, if_neg (by rw [hw x List.mem_cons_self]; exact Bool.false_ne_true),
      ih fun y hy => hw y (List.mem_cons_of_mem x hy)]

/-- What follows a character of an escaped text is no quantifier. -/
theorem unquantified_escaped (w : Str) {rest : Str} (h : Unquantified rest) : Unquantified (escaped w ++ rest) := by
  cases w with
  | nil => exact h
  | cons x w =>
    rw [escaped_cons]
    intro y hy
    split at hy
    · obtain rfl : '%' = y := Option.some.inj hy
      decide
    · next hx =>
      obtain rfl : x = y := Option.some.inj hy
      refine ⟨?_, ?_, ?_, ?_⟩ <;> (rintro rfl; exact hx rfl)

/-- **An escaped text in a pattern stands for itself.** -/
theorem compile_escaped (w : Str) {rest : Str} (h : Unquantified rest) :
    compile (escaped w ++ rest) = (spelling w).map (.single · .one) ++ compile rest := by
  induction w with
  | nil => rfl
  | cons x w ih =>
    have htail := unquantified_escaped w h
    rw [escaped_cons, spelling, List.map_cons, List.map_cons]
    by_cases hx : isMagic x = true
    · rw [if_pos hx, if_pos hx]
      exact (compile_cons (readItem_magic hx htail) (List.cons_ne_nil _ _)).trans (congrArg _ ih)
    · rw [if_neg hx, if_neg hx]
      exact (compile_cons (readItem_other (Bool.eq_false_iff.mpr hx) htail) (List.cons_ne_nil _ _)).trans
        (congrArg _ ih)

/-- Items that spell a text take it. -/
theorem matchRest_spells {is : List Item} {segs : List Seg} : ∀ {cs : List Single} {xs : Str}, Spells cs xs →
    ∀ text : Str, matchRest (cs.map (.single · .one) ++ is) text segs =
      if xs <+: text then matchRest is (text.drop xs.length) segs else none
  | [], [], _, text => by simp
  | c :: cs, x :: xs, .cons hx hxs, [] => by
    rw [List.map_cons, List.cons_append, matchRest, if_neg (by simp)]
  | c :: cs, x :: xs, .cons hx hxs, y :: text => by
    rw [List.map_cons, List.cons_append, matchRest, matchRest_spells hxs text]
    simp only [List.cons_prefix_cons]
    by_cases hy : x = y
    · subst hy
      simp only [if_pos ((hx x).mpr rfl), true_and]
      rfl
    · rw [if_neg fun h => hy ((hx y).mp h).symm, if_neg fun h => hy h.1]

/-- A text at the front, or behind characters of a class. -/
def standsBehind (c : Single) (w : Str) : Str → Bool
  | [] => w.isPrefixOf []
  | x :: r => w.isPrefixOf (x :: r) || (c.test x && standsBehind c w r)

/-- A class that may be repeated, and a text that is spelled. -/
theorem matchRest_star_spells {c : Single} {cs : List Single} {w : Str} (hcs : Spells cs w) : ∀ text : Str,
    (matchRest (.single c .star :: cs.map (.single · .one)) text []).isSome = standsBehind c w text := by
  have hspells : ∀ r, matchRest (cs.map (.single · .one)) r [] = if w <+: r then some (r.drop w.length, [])
    else none := by
    intro r
    have h := @matchRest_spells [] [] cs w hcs r
    rwa [List.append_nil] at h
  have hsome : ∀ r, (matchRest (cs.map (.single · .one)) r []).isSome = w.isPrefixOf r := by
    intro r
    rw [hspells, Bool.eq_iff_iff, List.isPrefixOf_iff_prefix]
    split
    · next h => exact iff_of_true rfl h
    · next h => exact iff_of_false Bool.false_ne_true h
  intro text
  rw [matchRest]
  induction text with
  | nil => exact hsome []
  | cons x r ih =>
    rw [longest, standsBehind]
    by_cases hx : c.test x = true
    · rw [if_pos hx, Option.isSome_or, ih, hsome, hx, Bool.true_and, Bool.or_comm]
    · rw [if_neg hx, hsome, Bool.eq_false_iff.mpr hx, Bool.false_and, Bool.or_false]

theorem standsBehind_append (c : Single) (w r : Str) : standsBehind c w (w ++ r) = true := by
  have hfront : w.isPrefixOf (w ++ r) = true := List.isPrefixOf_iff_prefix.mpr (List.prefix_append w r)
  cases hwr : w ++ r with
  | nil =>
    rw [hwr] at hfront
    exact hfront
  | cons x t =>
    rw [hwr] at hfront
    rw [standsBehind, hfront, Bool.true_or]

theorem simple_spelling (w : Str) {n m : Nat} {is : List Item} (h : Simple n m is = true) :
    Simple n m ((spelling w).map (.single · .one) ++ is) = true := by
  induction w with
  | nil => exact h
  | cons x w ih => exact ih

/-- A text that is spelled, to the end. -/
theorem matchRest_spells_end {cs : List Single} {w : Str} (hcs : Spells cs w) (r : Str) :
    (matchRest (cs.map (.single · .one) ++ [.atEnd]) r []).isSome = true ↔ r = w := by
  rw [matchRest_spells hcs]
  constructor
  · intro h
    split at h
    · next hpre =>
      obtain ⟨t, rfl⟩ := hpre
      rw [List.drop_left, matchRest] at h
      split at h
      · next ht => rw [ht, List.append_nil]
      · cases h
    · cases h
  · rintro rfl
    rw [if_pos (List.prefix_refl r), List.drop_length, matchRest, if_pos rfl]
    rfl

/-- Any characters, and then what the continuation takes. -/
theorem longest_any_isSome {β : Type} {k : Str → Option β} : ∀ {s : Str},
    (longest .any k s).isSome = true ↔ ∃ r, r <:+ s ∧ (k r).isSome = true
  | [] => by simp [longest]
  | x :: s => by
    rw [longest, if_pos (by rfl), Option.isSome_or, Bool.or_eq_true, longest_any_isSome]
    constructor
    · rintro (⟨r, hr, hk⟩ | hk)
      · exact ⟨r, hr.trans (List.suffix_cons x s), hk⟩
      · exact ⟨x :: s, List.suffix_refl _, hk⟩
    · rintro ⟨r, hr, hk⟩
      rcases List.suffix_cons_iff.mp hr with rfl | hr
      · exact .inr hk
      · exact .inl ⟨r, hr, hk⟩

/-- Any characters, and a text at the end. -/
theorem matchRest_endsWith {cs : List Single} {w : Str} (hcs : Spells cs w) (s : Str) :
    (matchRest (.single .any .star :: (cs.map (.single · .one) ++ [.atEnd])) s []).isSome = true ↔ w <:+ s := by
  rw [matchRest, longest_any_isSome]
  simp only [matchRest_spells_end hcs]
  exact ⟨fun ⟨r, hr, heq⟩ => heq ▸ hr, fun h => ⟨w, h, rfl⟩⟩

end Pattern

open Pattern

/-- A replacement of the characters of a class, one by one. -/
theorem gsubRest_chars {c : Single} {f : List Str → Str} {fuel : Nat} {s : Str} (h : s.length < fuel) :
    gsubRest [.capOpen, .single c .one, .capClose] f fuel s = s.flatMap fun x => if c.test x then f [[x]] else [x] := by
  refine gsubRest_one rfl (fun x s hx => ⟨[⟨x :: s, some 1⟩], ?_, rfl⟩) (fun x s hx => ?_) h
  · rw [matchRest, matchRest, if_pos hx, matchRest, List.nil_append, closeSeg, closeSeg, List.length_cons,
      Nat.add_sub_cancel_left]
    rfl
  · rw [matchRest, matchRest, hx, if_neg Bool.false_ne_true]

/-- The class of the magic characters, as the escape names them. -/
def magicClass : Single := .set false (magic.map .cls)

/-- A set of magic characters. -/
theorem any_cls_test {x : Char} {l : List Char} (hl : ∀ y ∈ l, isMagic y = true) :
    (l.map SetItem.cls).any (SetItem.test x) = decide (x ∈ l) := by
  induction l with
  | nil => rfl
  | cons y l ih =>
    have hy : SetItem.test x (.cls y) = (y == x) := cls_test_magic (hl y List.mem_cons_self) x
    rw [List.map_cons, List.any_cons, hy, ih fun z hz => hl z (List.mem_cons_of_mem y hz), Bool.eq_iff_iff,
      Bool.or_eq_true, beq_iff_eq, decide_eq_true_eq, decide_eq_true_eq, List.mem_cons, @eq_comm _ y]

theorem magicClass_test (x : Char) : magicClass.test x = isMagic x := by
  rw [magicClass, Single.test, any_cls_test (List.all_eq_true.mp rfl), Bool.bne_false]
  rfl

/-- **The replacement that escapes a text.** -/
theorem gsub_escape (w : Str) : gsub w "([%^%$%(%)%%%.%[%]%*%+%-%?])" (fun caps => '%' :: (caps.headD .nil).tostring) =
    .ok (escaped w) := by
  have hpat : compile "([%^%$%(%)%%%.%[%]%*%+%-%?])" = [.capOpen, .single magicClass .one, .capClose] := rfl
  rw [gsub_eq (by decide) hpat rfl, gsubRest_chars (Nat.lt_succ_self _)]
  simp only [magicClass_test]
  rfl

end Lua
