import Loongshield.Lua.Reach
import Loongshield.Lua.Escape

/-!
# A pattern in lower case

`p:lower()` changes the letters of a pattern wherever they stand: as characters, as names of classes, as bounds of
ranges.

- `Item.lower`: what becomes of an item, and `compile_lower`: reading the lower-case pattern gives these items;
- `Item.Folds`: the item takes in the lower-case text what it took before;
- `reach_lower`: a pattern whose items do matches the lower-case text if it matched the text.
-/

namespace Lua
namespace Pattern

/-! ## Letters -/

theorem toNat_lowerChar {c : Char} (h : 'A' ≤ c ∧ c ≤ 'Z') : (lowerChar c).toNat = c.toNat + 32 := by
  have hnat : 65 ≤ c.toNat ∧ c.toNat ≤ 90 := h
  have hvalid : (c.toNat + 32).isValidChar := .inl (by omega)
  have hlower : lowerChar c = Char.ofNat (c.toNat + 32) := if_pos h
  rw [hlower]
  unfold Char.ofNat
  rw [dif_pos hvalid]
  rfl

theorem isalpha_lowerChar {c : Char} (h : 'A' ≤ c ∧ c ≤ 'Z') : isalpha (lowerChar c) = true := by
  have hnat : 65 ≤ c.toNat ∧ c.toNat ≤ 90 := h
  have hlo : 'a' ≤ lowerChar c := by
    show 97 ≤ (lowerChar c).toNat
    rw [toNat_lowerChar h]
    omega
  have hhi : lowerChar c ≤ 'z' := by
    show (lowerChar c).toNat ≤ 122
    rw [toNat_lowerChar h]
    omega
  unfold isalpha
  rw [decide_eq_true hlo, decide_eq_true hhi]
  rfl

/-- What is no letter comes from itself only. -/
theorem lowerChar_eq_iff {c k : Char} (hk : isalpha k = false) : lowerChar c = k ↔ c = k := by
  by_cases hc : 'A' ≤ c ∧ c ≤ 'Z'
  · refine iff_of_false ?_ ?_
    · rintro rfl
      rw [isalpha_lowerChar hc] at hk
      cases hk
    · rintro rfl
      unfold isalpha at hk
      rw [decide_eq_true hc.1, decide_eq_true hc.2, Bool.and_true, Bool.or_true] at hk
      cases hk
  · rw [lowerChar, if_neg hc]

/-- A lower-case letter comes from itself and from its upper case. -/
theorem lowerChar_eq_letter {c k l : Char} (hl : l.toNat + 32 = k.toNat) (h : lowerChar c = k) : c = k ∨ c = l := by
  by_cases hc : 'A' ≤ c ∧ c ≤ 'Z'
  · have hnat := toNat_lowerChar hc
    rw [h] at hnat
    exact .inr (Char.toNat_inj.mp (by omega))
  · rw [lowerChar, if_neg hc] at h
    exact .inl h

theorem lower_cons (c : Char) (p : Str) : lower (c :: p) = lowerChar c :: lower p := rfl

theorem lower_eq_cons {k : Char} (hk : isalpha k = false) {p q : Str} (h : lower p = k :: q) :
    ∃ r, p = k :: r ∧ lower r = q := by
  obtain ⟨c, r, rfl, hc, hr⟩ := List.map_eq_cons_iff.mp h
  exact ⟨r, by rw [(lowerChar_eq_iff hk).mp hc], hr⟩

/-! ## The items of the lower-case pattern -/

def SetItem.lower : SetItem → SetItem
  | .lit c => .lit (lowerChar c)
  | .cls c => .cls (lowerChar c)
  | .range lo hi => .range (lowerChar lo) (lowerChar hi)

def Single.lower : Single → Single
  | .any => .any
  | .lit c => .lit (lowerChar c)
  | .cls c => .cls (lowerChar c)
  | .set neg items => .set neg (items.map SetItem.lower)

/-- What becomes of an item. -/
def Item.lower : Item → Item
  | .single c q => .single c.lower q
  | .frontier c => .frontier c.lower
  | .balance x y => .balance (lowerChar x) (lowerChar y)
  | i => i

theorem setItems_lower (p : Str) : setItems (lower p) = (setItems p).map SetItem.lower := by
  induction p using setItems.induct with
  | case1 c r ih =>
    show setItems ('%' :: lowerChar c :: lower r) = _
    rw [setItems, setItems, ih]
    rfl
  | case2 a b r ha ih =>
    show setItems (lowerChar a :: '-' :: lowerChar b :: lower r) = _
    rw [setItems, setItems, ih]
    · rfl
    · exact ha
    · exact fun h => ha ((lowerChar_eq_iff rfl).mp h)
  | case3 c r hclass hrange ih =>
    rw [lower_cons, setItems, setItems, ih]
    · rfl
    · exact hclass
    · exact hrange
    · intro x q hc hr
      obtain ⟨y, r', rfl, -⟩ := List.map_eq_cons_iff.mp hr
      exact hclass y r' ((lowerChar_eq_iff rfl).mp hc) rfl
    · intro x q hr
      obtain ⟨r', rfl, hr'⟩ := lower_eq_cons rfl hr
      obtain ⟨y, r'', rfl, -⟩ := List.map_eq_cons_iff.mp hr'
      exact hrange y r'' rfl
  | case4 => rfl

theorem setBody_lower (p : Str) : setBody (lower p) = (setBody p).map fun b => (lower b.1, lower b.2) := by
  induction p using setBody.induct with
  | case1 c r =>
    show setBody ('%' :: lowerChar c :: ']' :: lower r) = _
    rw [setBody, setBody]
    rfl
  | case2 c r hend ih =>
    show setBody ('%' :: lowerChar c :: lower r) = _
    rw [setBody, setBody, ih]
    · cases setBody r <;> rfl
    · exact hend
    · intro q hr
      obtain ⟨r', rfl, -⟩ := lower_eq_cons rfl hr
      exact hend r' rfl
  | case3 c r hesc hc =>
    show setBody (lowerChar c :: ']' :: lower r) = _
    have hc' : lowerChar c = '%' → False := fun h => hc ((lowerChar_eq_iff rfl).mp h)
    rw [setBody, setBody]
    · rfl
    · exact hesc
    · exact hc
    · exact fun _ h => absurd h hc'
    · exact hc'
  | case4 c r h₁ hesc hend ih =>
    have hesc' : ∀ x q, lowerChar c = '%' → lower r = x :: q → False := by
      intro x q hc hr
      obtain ⟨y, r', rfl, -⟩ := List.map_eq_cons_iff.mp hr
      exact hesc y r' ((lowerChar_eq_iff rfl).mp hc) rfl
    rw [lower_cons, setBody, setBody, ih]
    · cases setBody r <;> rfl
    · exact h₁
    · exact hesc
    · exact hend
    · exact fun x q => hesc' x (']' :: q)
    · exact hesc'
    · intro q hr
      obtain ⟨r', rfl, -⟩ := lower_eq_cons rfl hr
      exact hend r' rfl
  | case5 => rfl

theorem readSet_cons {x : Char} (hx : x ≠ '^') (r : Str) :
    readSet (x :: r) = (setBody (x :: r)).map fun b => (.set false (setItems b.1), b.2) := by
  unfold readSet
  split
  · next h =>
    split at h
    · next heq => exact absurd (List.cons.inj heq).1 hx
    · cases h
      rfl

theorem readSet_lower (p : Str) : readSet (lower p) = (readSet p).map fun c => (c.1.lower, lower c.2) := by
  have hset : ∀ (neg : Bool) (q : Str), ((setBody (lower q)).map fun b => (Single.set neg (setItems b.1), b.2)) =
      ((setBody q).map fun b => (Single.set neg (setItems b.1), b.2)).map fun c => (c.1.lower, lower c.2) := by
    intro neg q
    rw [setBody_lower]
    cases setBody q with
    | none => rfl
    | some b => simp only [Option.map_some, setItems_lower, Single.lower]
  cases p with
  | nil => rfl
  | cons x r =>
    by_cases hx : x = '^'
    · subst hx
      exact hset true r
    · have hx' : lowerChar x ≠ '^' := fun h => hx ((lowerChar_eq_iff rfl).mp h)
      rw [lower_cons, readSet_cons hx', readSet_cons hx]
      exact hset false (x :: r)

theorem readQuant_lower (p : Str) : readQuant (lower p) = ((readQuant p).1, lower (readQuant p).2) := by
  fun_cases readQuant p with
  | case1 r => rfl
  | case2 r => rfl
  | case3 r => rfl
  | case4 r => rfl
  | case5 _ hstar hplus hminus hopt =>
    have hnot : ∀ {k : Char}, isalpha k = false → (∀ r, p = k :: r → False) → ∀ r, lower p = k :: r → False := by
      intro k hk h r hr
      obtain ⟨r', hp, -⟩ := lower_eq_cons hk hr
      exact h r' hp
    rw [readQuant]
    · exact hnot rfl hstar
    · exact hnot rfl hplus
    · exact hnot rfl hminus
    · exact hnot rfl hopt

/-- An escaped character, but for the two that begin items of their own. -/
theorem readItem_escape {c : Char} (hb : c ≠ 'b') (hf : c ≠ 'f') (r : Str) : readItem ('%' :: c :: r) =
    if isdigit c then (.backref (c.toNat - 48), some r)
    else (.single (.cls c) (readQuant r).1, some (readQuant r).2) := by
  rw [readItem]
  · exact fun _ _ _ h => absurd h hb
  · exact fun h => hb h
  · exact fun _ h => absurd h hf
  · exact fun h => hf h

/-- The characters that begin another item than themselves. -/
def begins : List Char := ['(', ')', '$', '%', '[', '.']

theorem readItem_char {c : Char} (hc : c ∉ begins) (r : Str) :
    readItem (c :: r) = (.single (.lit c) (readQuant r).1, some (readQuant r).2) := by
  simp only [begins, List.mem_cons, List.not_mem_nil, or_false, not_or] at hc
  unfold readItem
  split <;> simp_all

theorem readItem_dollar {r : Str} (hr : r ≠ []) :
    readItem ('$' :: r) = (.single (.lit '$') (readQuant r).1, some (readQuant r).2) := by
  obtain ⟨x, r, rfl⟩ := List.exists_cons_of_ne_nil hr
  rfl

theorem isdigit_lowerChar (c : Char) : isdigit (lowerChar c) = isdigit c := by
  by_cases hc : 'A' ≤ c ∧ c ≤ 'Z'
  · have hnat : 65 ≤ c.toNat ∧ c.toNat ≤ 90 := hc
    have hlower := toNat_lowerChar hc
    have hno : ∀ {d : Char}, 57 < d.toNat → isdigit d = false := by
      intro d hd
      have h9 : ¬d ≤ '9' := fun h => absurd (show d.toNat ≤ 57 from h) (by omega)
      unfold isdigit
      rw [decide_eq_false h9, Bool.and_false]
    rw [hno (by omega), hno (by omega)]
  · rw [lowerChar, if_neg hc]

/-- `%B` and `%F` name no class, but their lower case begins another item. -/
def Single.Keeps (c : Single) : Prop := c ≠ .cls 'B' ∧ c ≠ .cls 'F'

/-- The lower-case pattern has the item in its place. -/
def Item.Keeps : Item → Prop
  | .single c _ => c.Keeps
  | _ => True

theorem readItem_lower {p : Str} (h : (readItem p).1.Keeps) :
    readItem (lower p) = ((readItem p).1.lower, (readItem p).2.map lower) := by
  revert h
  fun_cases readItem p with
  | case1 r => exact fun _ => rfl
  | case2 r hr =>
    intro _
    show readItem ('(' :: lower r) = _
    rw [readItem]
    · rfl
    · intro q hq
      obtain ⟨r', rfl, -⟩ := lower_eq_cons rfl hq
      exact hr r' rfl
  | case3 r => exact fun _ => rfl
  | case4 => exact fun _ => rfl
  | case5 x y r => exact fun _ => rfl
  | case6 r hr =>
    intro _
    show readItem ('%' :: 'b' :: lower r) = _
    rw [readItem]
    · rfl
    · intro x y q hq
      obtain ⟨x', r', rfl, -, hr'⟩ := List.map_eq_cons_iff.mp hq
      obtain ⟨y', r'', rfl, -, -⟩ := List.map_eq_cons_iff.mp hr'
      exact hr x' y' r'' rfl
  | case7 r c q hset =>
    intro _
    show readItem ('%' :: 'f' :: '[' :: lower r) = _
    rw [readItem, readSet_lower, hset]
    rfl
  | case8 r hset =>
    intro _
    show readItem ('%' :: 'f' :: '[' :: lower r) = _
    rw [readItem, readSet_lower, hset]
    rfl
  | case9 r hr =>
    intro _
    show readItem ('%' :: 'f' :: lower r) = _
    rw [readItem]
    · rfl
    · intro q hq
      obtain ⟨r', rfl, -⟩ := lower_eq_cons rfl hq
      exact hr r' rfl
  | case10 => exact fun _ => rfl
  | case11 c r _ hb _ hf hdigit =>
    intro _
    have hsame : lowerChar c = c := by
      by_cases hc : 'A' ≤ c ∧ c ≤ 'Z'
      · have h9 : c.toNat ≤ 57 := by
          unfold isdigit at hdigit
          rw [Bool.and_eq_true, decide_eq_true_eq, decide_eq_true_eq] at hdigit
          exact hdigit.2
        exact absurd (show 65 ≤ c.toNat from hc.1) (by omega)
      · rw [lowerChar, if_neg hc]
    show readItem ('%' :: lowerChar c :: lower r) = _
    rw [hsame, readItem_escape hb hf, if_pos hdigit]
    rfl
  | case12 c r _ hb _ hf hdigit q r' hq =>
    intro hkeeps
    have hb' : lowerChar c ≠ 'b' := fun h =>
      (@lowerChar_eq_letter c 'b' 'B' rfl h).elim hb fun h => hkeeps.1 (congrArg Single.cls h)
    have hf' : lowerChar c ≠ 'f' := fun h =>
      (@lowerChar_eq_letter c 'f' 'F' rfl h).elim hf fun h => hkeeps.2 (congrArg Single.cls h)
    show readItem ('%' :: lowerChar c :: lower r) = _
    rw [readItem_escape hb' hf', isdigit_lowerChar, if_neg hdigit, readQuant_lower, hq]
    rfl
  | case13 r c r' hset q r'' hq =>
    intro _
    show readItem ('[' :: lower r) = _
    rw [readItem, readSet_lower, hset]
    dsimp only [Option.map_some]
    rw [readQuant_lower, hq]
    rfl
  | case14 r hset =>
    intro _
    show readItem ('[' :: lower r) = _
    rw [readItem, readSet_lower, hset]
    rfl
  | case15 r q r' hq =>
    intro _
    show readItem ('.' :: lower r) = _
    rw [readItem, readQuant_lower, hq]
    rfl
  | case16 c r h₁ hopen hclose hend _ _ _ _ hlone hesc hset hany q r' hq =>
    intro _
    have hpercent : c ≠ '%' := by
      rintro rfl
      cases r with
      | nil => exact hlone rfl rfl
      | cons x r => exact hesc x r rfl rfl
    by_cases hdollar : c = '$'
    · subst hdollar
      have hr : r ≠ [] := hend rfl
      have hr' : lower r ≠ [] := fun h => hr (List.map_eq_nil_iff.mp h)
      show readItem ('$' :: lower r) = _
      rw [readItem_dollar hr', readQuant_lower, hq]
      rfl
    · have hc : lowerChar c ∉ begins := by
        have hne : ∀ {k : Char}, isalpha k = false → c ≠ k → lowerChar c ≠ k :=
          fun hk hc h => hc ((lowerChar_eq_iff hk).mp h)
        simp only [begins, List.mem_cons, List.not_mem_nil, or_false, not_or]
        exact ⟨hne rfl hopen, hne rfl hclose, hne rfl hdollar, hne rfl hpercent, hne rfl hset, hne rfl hany⟩
      rw [lower_cons, readItem_char hc, readQuant_lower, hq]
      rfl
  | case17 => exact fun _ => rfl

/-- **Reading the lower-case pattern** gives what becomes of the items. -/
theorem compile_lower {p : Str} (h : ∀ i ∈ compile p, i.Keeps) : compile (lower p) = (compile p).map Item.lower := by
  have hitems : ∀ (n : Nat) (p : Str), (∀ i ∈ readItems n p, i.Keeps) →
      readItems n (lower p) = (readItems n p).map Item.lower := by
    intro n
    induction n with
    | zero => exact fun _ _ => rfl
    | succ n ih =>
      intro p h
      cases p with
      | nil => rfl
      | cons x r =>
        rw [readItems_cons] at h
        rw [lower_cons, readItems_cons, readItems_cons, ← lower_cons]
        cases hread : readItem (x :: r) with
        | mk i q =>
          rw [hread] at h
          cases q with
          | none =>
            have hkeeps := h i (List.mem_singleton_self i)
            have hlower := @readItem_lower (x :: r) (by rwa [hread])
            rw [hread] at hlower
            rw [hlower]
            rfl
          | some q =>
            obtain ⟨hkeeps, hrest⟩ := List.forall_mem_cons.mp h
            have hlower := @readItem_lower (x :: r) (by rwa [hread])
            rw [hread] at hlower
            rw [hlower]
            exact congrArg _ (ih q hrest)
  have hlen : (lower p).length = p.length := List.length_map _
  unfold compile
  rw [hlen]
  exact hitems p.length p h

/-! ## What the lower-case pattern takes -/

/-- In the lower case of a line, the character class takes the lower case of what it took. -/
def Single.Folds (c : Single) : Prop := c.Keeps ∧ ∀ x, x ≠ '\n' → c.test x = true → c.lower.test (lowerChar x) = true

/-- In the lower case of a line, the item takes what it took. A frontier also depends on what its class does not take,
and a balanced text on what its brackets are not. -/
def Item.Folds : Item → Prop
  | .single c _ => c.Folds
  | .frontier c => ∀ x, x ≠ '\n' → c.lower.test (lowerChar x) = c.test x
  | .balance x y => isalpha x = false ∧ isalpha y = false
  | _ => True

theorem folds_lit (a : Char) : (Single.lit a).Folds :=
  ⟨⟨Single.noConfusion, Single.noConfusion⟩, fun x _ h => by rw [← eq_of_beq h]; exact beq_self_eq_true _⟩

theorem Item.Folds.keeps {i : Item} (h : i.Folds) : i.Keeps := by
  cases i with
  | single c q => exact h.1
  | _ => trivial

theorem runs_lower : ∀ {is : List Item} {ks : List CapKind}, Runs is ks → Runs (is.map Item.lower) ks
  | [], _, h => h
  | .atEnd :: _, _, h => h
  | .malformed _ :: _, _, h => h
  | .capOpen :: _, _, h => ⟨h.1, runs_lower h.2⟩
  | .capPos :: _, _, h => ⟨h.1, runs_lower h.2⟩
  | .capClose :: _, _, ⟨ks', hclose, h⟩ => ⟨ks', hclose, runs_lower h⟩
  | .backref _ :: _, _, h => ⟨h.1, h.2.1, runs_lower h.2.2⟩
  | .balance _ _ :: is, ks, h => @runs_lower is ks h
  | .frontier _ :: is, ks, h => @runs_lower is ks h
  | .single _ _ :: is, ks, h => @runs_lower is ks h

theorem balanceEnd_lower {x y : Char} (hx : isalpha x = false) (hy : isalpha y = false) :
    ∀ (i depth : Nat) (s : Str), balanceEnd x y i depth (lower s) = balanceEnd x y i depth s
  | _, _, [] => rfl
  | i, depth, c :: s => by
    rw [lower_cons, balanceEnd, balanceEnd]
    simp only [lowerChar_eq_iff hx, lowerChar_eq_iff hy, balanceEnd_lower hx hy _ _ s]

section Line

variable {src : Str}

theorem length_lower (s : Str) : (lower s).length = s.length := List.length_map _

theorem drop_lower (n : Nat) : (lower src).drop n = lower (src.drop n) := (List.map_drop ..).symm

theorem take_lower (n : Nat) : (lower src).take n = lower (src.take n) := (List.map_take ..).symm

theorem getD_lower (n : Nat) : (lower src).getD n (Char.ofNat 0) = lowerChar (src.getD n (Char.ofNat 0)) := by
  rw [List.getD_eq_getElem?_getD, List.getD_eq_getElem?_getD, lower, List.getElem?_map]
  cases src[n]? <;> rfl

theorem getD_line (hline : '\n' ∉ src) (n : Nat) : src.getD n (Char.ofNat 0) ≠ '\n' := by
  rw [List.getD_eq_getElem?_getD]
  cases h : src[n]? with
  | none => decide
  | some x => exact fun hx => hline (hx ▸ List.mem_of_getElem? h)

theorem runLength_lower {c : Single} (hc : c.Folds) (hline : '\n' ∉ src) (s : Nat) :
    runLength src c s ≤ runLength (lower src) c.lower s := by
  have hlonger : ∀ l : Str, '\n' ∉ l → (l.takeWhile c.test).length ≤ ((lower l).takeWhile c.lower.test).length := by
    intro l
    induction l with
    | nil => exact fun _ => Nat.le_refl 0
    | cons x l ih =>
      intro hl
      obtain ⟨hx, hl⟩ := not_or.mp fun h => hl (List.mem_cons.mpr h)
      by_cases htest : c.test x = true
      · rw [lower_cons, List.takeWhile_cons_of_pos htest, List.takeWhile_cons_of_pos (hc.2 x (Ne.symm hx) htest)]
        exact Nat.succ_le_succ (ih hl)
      · rw [List.takeWhile_cons_of_neg htest]
        exact Nat.zero_le _
  unfold runLength
  rw [drop_lower]
  exact hlonger _ fun h => hline (List.mem_of_mem_drop h)

/-- **The lower-case items take the lower case of a line** where the items took the line. -/
theorem reach_lower (hline : '\n' ∉ src) : ∀ {is : List Item} {s : Nat} {caps : Caps}, (∀ i ∈ is, i.Folds) →
    Reach src is s caps → Reach (lower src) (is.map Item.lower) s caps
  | [], _, _, _, _ => trivial
  | .atEnd :: is, s, caps, _, h => by
    show s = (lower src).length
    rw [length_lower]
    exact h
  | .malformed _ :: is, _, _, _, h => h
  | .capOpen :: is, s, caps, hf, h => ⟨h.1, reach_lower hline (List.forall_mem_cons.mp hf).2 h.2⟩
  | .capPos :: is, s, caps, hf, h => ⟨h.1, reach_lower hline (List.forall_mem_cons.mp hf).2 h.2⟩
  | .capClose :: is, s, caps, hf, ⟨caps', hclose, h⟩ =>
    ⟨caps', hclose, reach_lower hline (List.forall_mem_cons.mp hf).2 h⟩
  | .balance x y :: is, s, caps, hf, ⟨r, n, hdrop, hend, h⟩ => by
    obtain ⟨⟨hx, hy⟩, hrest⟩ := List.forall_mem_cons.mp hf
    have hx' : lowerChar x = x := (lowerChar_eq_iff hx).mpr rfl
    have hy' : lowerChar y = y := (lowerChar_eq_iff hy).mpr rfl
    refine ⟨lower r, n, ?_, ?_, reach_lower hline hrest h⟩
    · rw [drop_lower, hdrop]
      rfl
    · rw [hx', hy', balanceEnd_lower hx hy]
      exact hend
  | .frontier c :: is, s, caps, hf, ⟨hbefore, hhere, h⟩ => by
    obtain ⟨hc, hrest⟩ := List.forall_mem_cons.mp hf
    refine ⟨?_, ?_, reach_lower hline hrest h⟩
    · rw [← hbefore]
      split
      · exact hc (Char.ofNat 0) (by decide)
      · rw [getD_lower]
        exact hc _ (getD_line hline _)
    · rw [getD_lower, hc _ (getD_line hline _)]
      exact hhere
  | .backref n :: is, s, caps, hf, ⟨a, len, hn, hget, htext, hle, h⟩ => by
    refine ⟨a, len, hn, hget, ?_, ?_, reach_lower hline (List.forall_mem_cons.mp hf).2 h⟩
    · rw [drop_lower, drop_lower, take_lower, take_lower, htext]
    · rw [length_lower]
      exact hle
  | .single c q :: is, s, caps, hf, ⟨n, hn, hq, h⟩ => by
    obtain ⟨hc, hrest⟩ := List.forall_mem_cons.mp hf
    exact ⟨n, Nat.le_trans hn (runLength_lower hc hline s), hq, reach_lower hline hrest h⟩

end Line

theorem head?_lower {k : Char} (hk : isalpha k = false) (p : Str) : (lower p).head? = some k ↔ p.head? = some k := by
  cases p with
  | nil => exact Iff.rfl
  | cons c p =>
    rw [lower_cons, List.head?_cons, List.head?_cons, Option.some.injEq, Option.some.injEq]
    exact lowerChar_eq_iff hk

theorem body_lower (p : Str) : body (lower p) = lower (body p) := by
  have hhead := @head?_lower '^' rfl p
  unfold body
  by_cases h : p.head? = some '^'
  · rw [if_pos h, if_pos (hhead.mpr h)]
    exact List.map_tail.symm
  · rw [if_neg h, if_neg fun h' => h (hhead.mp h')]

theorem tries_lower (s p : Str) : tries (lower s) (lower p) = tries s p := by
  have hhead := @head?_lower '^' rfl p
  unfold tries
  by_cases h : p.head? = some '^'
  · rw [if_pos h, if_pos (hhead.mpr h)]
  · rw [if_neg h, if_neg fun h' => h (hhead.mp h'), length_lower]

/-- The items of a pattern take in the lower case of a line what they took. -/
def Folds (p : Str) : Prop := ∀ i ∈ compile (body p), i.Folds

theorem compile_body_lower {p : Str} (h : Folds p) : compile (body (lower p)) = (compile (body p)).map Item.lower := by
  rw [body_lower]
  exact compile_lower fun i hi => (h i hi).keeps

/-- **A pattern that has matched a line matches its lower case in lower case**, and does not raise on any text. -/
theorem strMatch_lower {p line : Str} (hf : Folds p) (hline : '\n' ∉ line) (h : ∃ vs, strMatch line p = .ok (some vs)) :
    ∃ vs, strMatch (lower line) (lower p) = .ok (some vs) := by
  obtain ⟨hruns, i, hi, hreach⟩ := strMatch_isSome_iff.mp h
  refine strMatch_isSome_iff.mpr ⟨?_, i, ?_, ?_⟩
  · rw [compile_body_lower hf]
    exact runs_lower hruns
  · rw [tries_lower]
    exact hi
  · rw [compile_body_lower hf]
    exact reach_lower hline hf hreach

/-! ## Patterns whose items all take a character -/

/-- The items of single characters, taken once or more often. -/
def itemsOf (cs : List (Single × Quant)) (atEnd : Bool) : List Item :=
  cs.map (fun c => .single c.1 c.2) ++ if atEnd then [.atEnd] else []

/-- Every item takes a character, and there is one that it takes. -/
def Solid (cs : List (Single × Quant)) : Prop :=
  ∀ c ∈ cs, (c.2 = .one ∨ c.2 = .plus) ∧ c.1.Keeps ∧ ∃ x, x ≠ '\n' ∧ c.1.test x = true

theorem takes_one {q : Quant} (hq : q = .one ∨ q = .plus) : q.Takes 1 := by
  rcases hq with rfl | rfl
  · exact rfl
  · exact Nat.one_pos

theorem pos_of_takes {q : Quant} (hq : q = .one ∨ q = .plus) {n : Nat} (h : q.Takes n) : 0 < n := by
  rcases hq with rfl | rfl
  · exact h ▸ Nat.one_pos
  · exact h

theorem runLength_le (src : Str) (c : Single) (s : Nat) : s + runLength src c s ≤ max s src.length := by
  have hle := (List.takeWhile_prefix c.test (l := src.drop s)).length_le
  rw [List.length_drop] at hle
  unfold runLength
  omega

/-- One character for each item is a way to take them. -/
theorem reach_texts {cs : List (Single × Quant)} {t : Str} {atEnd : Bool} (hq : ∀ c ∈ cs, c.2 = .one ∨ c.2 = .plus)
    (ht : List.Forall₂ (fun (c : Single × Quant) x => c.1.test x = true) cs t) (pre : Str) (caps : Caps) :
    Reach (pre ++ t) (itemsOf cs atEnd) pre.length caps := by
  induction ht generalizing pre with
  | nil =>
    rw [List.append_nil]
    cases atEnd with
    | true => exact rfl
    | false => exact trivial
  | @cons c x cs t hx _ ih =>
    obtain ⟨hc, hrest⟩ := List.forall_mem_cons.mp hq
    have hrun : 1 ≤ runLength (pre ++ x :: t) c.1 pre.length := by
      rw [runLength_append, List.takeWhile_cons_of_pos hx]
      exact Nat.succ_le_succ (Nat.zero_le _)
    have hnext := ih hrest (pre ++ [x])
    rw [List.append_assoc, List.length_append] at hnext
    exact ⟨1, hrun, takes_one hc, hnext⟩

theorem length_of_reach {src : Str} {atEnd : Bool} : ∀ {cs : List (Single × Quant)} {s : Nat} {caps : Caps},
    (∀ c ∈ cs, c.2 = .one ∨ c.2 = .plus) → Reach src (itemsOf cs atEnd) s caps → s + cs.length ≤ max s src.length
  | [], s, _, _, _ => Nat.le_max_left s src.length
  | c :: cs, s, caps, hq, ⟨n, hn, htakes, h⟩ => by
    obtain ⟨hc, hrest⟩ := List.forall_mem_cons.mp hq
    have hpos := pos_of_takes hc htakes
    have hlen := length_of_reach hrest h
    have hrun := runLength_le src c.1 s
    rw [List.length_cons]
    omega

/-- In a text with one character for each item, the items take these. -/
theorem texts_of_reach {atEnd : Bool} : ∀ {cs : List (Single × Quant)} {t pre : Str} {s : Nat} {caps : Caps},
    (∀ c ∈ cs, c.2 = .one ∨ c.2 = .plus) → cs.length = t.length → pre.length ≤ s →
      Reach (pre ++ t) (itemsOf cs atEnd) s caps → List.Forall₂ (fun c x => c.1.test x = true) cs t
  | [], [], _, _, _, _, _, _, _ => .nil
  | [], x :: t, _, _, _, _, hlen, _, _ => absurd hlen (by simp)
  | c :: cs, [], _, _, _, _, hlen, _, _ => absurd hlen (by simp)
  | c :: cs, x :: t, pre, s, caps, hq, hlen, hs, hreach => by
    obtain ⟨hc, hrest⟩ := List.forall_mem_cons.mp hq
    have htotal := length_of_reach hq hreach
    obtain ⟨n, hn, htakes, h⟩ := hreach
    have hpos := pos_of_takes hc htakes
    rw [List.length_cons, List.length_cons] at hlen
    rw [List.length_append, List.length_cons, List.length_cons] at htotal
    obtain rfl : s = pre.length := by omega
    have hx : c.1.test x = true := by
      by_contra hx
      rw [runLength_append, List.takeWhile_cons_of_neg hx] at hn
      exact Nat.lt_irrefl 0 (Nat.lt_of_lt_of_le hpos hn)
    have hpre : pre ++ x :: t = (pre ++ [x]) ++ t := by simp
    rw [hpre] at h
    refine .cons hx (texts_of_reach hrest (Nat.succ.inj hlen) ?_ h)
    rw [List.length_append, List.length_singleton]
    omega

theorem runs_itemsOf (cs : List (Single × Quant)) (atEnd : Bool) : Runs (itemsOf cs atEnd) [] := by
  induction cs with
  | nil => cases atEnd <;> exact List.not_mem_nil
  | cons c cs ih => exact ih

/-- What becomes of such items. -/
def lowerCs (cs : List (Single × Quant)) : List (Single × Quant) := cs.map fun c => (c.1.lower, c.2)

theorem itemsOf_lower (cs : List (Single × Quant)) (atEnd : Bool) :
    (itemsOf cs atEnd).map Item.lower = itemsOf (lowerCs cs) atEnd := by
  unfold itemsOf lowerCs
  rw [List.map_append, List.map_map, List.map_map]
  cases atEnd <;> rfl

/-- Each item takes the character in its place. -/
def TakesEach (cs : List (Single × Quant)) (t : Str) : Prop := List.Forall₂ (fun c x => c.1.test x = true) cs t

theorem exists_text : ∀ {cs : List (Single × Quant)}, Solid cs → ∃ t : Str, '\n' ∉ t ∧ TakesEach cs t
  | [], _ => ⟨[], List.not_mem_nil, .nil⟩
  | c :: cs, hs => by
    obtain ⟨⟨-, -, x, hx, htest⟩, hrest⟩ := List.forall_mem_cons.mp hs
    obtain ⟨t, ht, htests⟩ := exists_text hrest
    exact ⟨x :: t, fun h => (List.mem_cons.mp h).elim (fun h => hx h.symm) ht, .cons htest htests⟩

/-- A text that the items take, with any character that one of them takes in its place. -/
theorem exists_text_with {c : Single × Quant} {x : Char} (hx : x ≠ '\n') (htest : c.1.test x = true) :
    ∀ {cs : List (Single × Quant)}, Solid cs → c ∈ cs → ∃ t : Str, '\n' ∉ t ∧ TakesEach cs t ∧
      (TakesEach (lowerCs cs) (lower t) → c.1.lower.test (lowerChar x) = true)
  | [], _, hc => absurd hc List.not_mem_nil
  | d :: cs, hs, hc => by
    obtain ⟨⟨-, -, y, hy, hytest⟩, hrest⟩ := List.forall_mem_cons.mp hs
    rcases List.mem_cons.mp hc with rfl | hc
    · obtain ⟨t, ht, htests⟩ := exists_text hrest
      refine ⟨x :: t, fun h => (List.mem_cons.mp h).elim (fun h => hx h.symm) ht, .cons htest htests, fun h => ?_⟩
      cases h with
      | cons h _ => exact h
    · obtain ⟨t, ht, htests, hall⟩ := exists_text_with hx htest hrest hc
      refine ⟨y :: t, fun h => (List.mem_cons.mp h).elim (fun h => hy h.symm) ht, .cons hytest htests, fun h => ?_⟩
      cases h with
      | cons _ h => exact hall h

theorem strMatch_texts {p t : Str} {cs : List (Single × Quant)} {atEnd : Bool}
    (hq : ∀ c ∈ cs, c.2 = .one ∨ c.2 = .plus) (hp : compile (body p) = itemsOf cs atEnd) (hlen : cs.length = t.length) :
    (∃ vs, strMatch t p = .ok (some vs)) ↔ TakesEach cs t := by
  rw [strMatch_isSome_iff]
  constructor
  · rintro ⟨-, i, -, hreach⟩
    rw [hp] at hreach
    have hreach' : Reach ([] ++ t) (itemsOf cs atEnd) i [] := hreach
    exact texts_of_reach hq hlen (Nat.zero_le i) hreach'
  · intro ht
    refine ⟨hp ▸ runs_itemsOf cs atEnd, 0, Nat.zero_le _, ?_⟩
    rw [hp]
    exact reach_texts hq ht [] []

/-- The end of a pattern is no single character, and takes nothing. -/
theorem mem_itemsOf {cs : List (Single × Quant)} {atEnd : Bool} {i : Item} (hi : i ∈ itemsOf cs atEnd) :
    (∃ c ∈ cs, i = .single c.1 c.2) ∨ i = .atEnd := by
  rcases List.mem_append.mp hi with hi | hi
  · obtain ⟨c, hc, rfl⟩ := List.mem_map.mp hi
    exact .inl ⟨c, hc, rfl⟩
  · cases atEnd with
    | true => exact .inr (List.mem_singleton.mp hi)
    | false => cases hi

/-- **Of such a pattern, the condition says exactly** that the lower-case pattern matches the lower case of what it
matches. -/
theorem folds_of_strMatch {p : Str} {cs : List (Single × Quant)} {atEnd : Bool} (hs : Solid cs)
    (hp : compile (body p) = itemsOf cs atEnd) (h : ∀ t : Str, '\n' ∉ t → (∃ vs, strMatch t p = .ok (some vs)) →
      ∃ vs, strMatch (lower t) (lower p) = .ok (some vs)) : Folds p := by
  have hq : ∀ c ∈ cs, c.2 = .one ∨ c.2 = .plus := fun c hc => (hs c hc).1
  have hkeeps : ∀ i ∈ compile (body p), i.Keeps := by
    intro i hi
    rw [hp] at hi
    rcases mem_itemsOf hi with ⟨c, hc, rfl⟩ | rfl
    · exact (hs c hc).2.1
    · trivial
  have hlower : compile (body (lower p)) = itemsOf (lowerCs cs) atEnd := by
    rw [body_lower, compile_lower hkeeps, hp, itemsOf_lower]
  have hq' : ∀ c ∈ lowerCs cs, c.2 = .one ∨ c.2 = .plus := by
    intro c hc
    obtain ⟨d, hd, rfl⟩ := List.mem_map.mp hc
    exact hq d hd
  intro i hi
  rw [hp] at hi
  rcases mem_itemsOf hi with ⟨c, hc, rfl⟩ | rfl
  · refine ⟨(hs c hc).2.1, fun x hx htest => ?_⟩
    obtain ⟨t, ht, htests, hall⟩ := exists_text_with hx htest hs hc
    have hlen : cs.length = t.length := htests.length_eq
    have hlen' : (lowerCs cs).length = (lower t).length := by
      rw [lowerCs, List.length_map, length_lower, hlen]
    exact hall ((strMatch_texts hq' hlower hlen').mp (h t ht ((strMatch_texts hq hp hlen).mpr htests)))
  · trivial

end Pattern
end Lua
