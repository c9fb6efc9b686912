import Loongshield.Lua.Escape

/-!
# Splitting at a text

The pattern `(.-)` with a text behind it finds the pieces in front of the occurrences of the text, from the left and
without overlap.

- `cut`: the first occurrence; `pieces`: the pieces between the occurrences;
- `gmatch_cut`: the matches are the pieces but the last one;
- `pieces_append`: with the text put behind, those in front of the last occurrence are what they were.
-/

namespace Lua
namespace Pattern

/-- What is in front of the first occurrence of `d`, and what is behind it. -/
def cut (d : Str) : Str → Option (Str × Str)
  | [] => if d = [] then some ([], []) else none
  | x :: s => if d <+: x :: s then some ([], (x :: s).drop d.length) else (cut d s).map fun p => (x :: p.1, p.2)

/-- The pieces between the occurrences; `n` bounds their number. -/
def piecesFrom (d : Str) : Nat → Str → List Str
  | 0, s => [s]
  | n + 1, s => match cut d s with
    | none => [s]
    | some p => p.1 :: piecesFrom d n p.2

/-- The pieces between the occurrences of `d`. -/
def pieces (d s : Str) : List Str := piecesFrom d s.length s

variable {d : Str}

/-! ## The first occurrence -/

theorem cut_some : ∀ {s a b : Str}, cut d s = some (a, b) → s = a ++ (d ++ b)
  | [], a, b, h => by
    unfold cut at h
    split at h
    · next hd =>
      obtain ⟨rfl, rfl⟩ := Prod.mk.inj (Option.some.inj h)
      rw [hd]
      rfl
    · cases h
  | x :: s, a, b, h => by
    unfold cut at h
    split at h
    · next hd =>
      obtain ⟨r, hr⟩ := hd
      obtain ⟨rfl, rfl⟩ := Prod.mk.inj (Option.some.inj h)
      rw [← hr, List.drop_left]
      rfl
    · obtain ⟨⟨a', b'⟩, hcut, hab⟩ := Option.map_eq_some_iff.mp h
      obtain ⟨rfl, rfl⟩ := Prod.mk.inj hab
      rw [cut_some hcut]
      rfl

theorem cut_eq_none_iff (hd : d ≠ []) : ∀ {s : Str}, cut d s = none ↔ ¬d <:+: s
  | [] => by simp [cut, hd]
  | x :: s => by
    unfold cut
    rw [List.infix_cons_iff, not_or]
    by_cases hpre : d <+: x :: s
    · rw [if_pos hpre]
      exact iff_of_false (Option.some_ne_none _) fun h => h.1 hpre
    · rw [if_neg hpre, Option.map_eq_none_iff, cut_eq_none_iff hd, and_iff_right hpre]

theorem cut_cons (x : Char) (s : Str) : cut d (x :: s) =
    if d <+: x :: s then some ([], (x :: s).drop d.length) else (cut d s).map fun p => (x :: p.1, p.2) := rfl

/-- An occurrence stays the first one when something is put behind. -/
theorem cut_append (t : Str) : ∀ {s a b : Str}, cut d s = some (a, b) → cut d (s ++ t) = some (a, b ++ t)
  | [], a, b, h => by
    unfold cut at h
    split at h
    · next hd =>
      subst hd
      obtain ⟨rfl, rfl⟩ := Prod.mk.inj (Option.some.inj h)
      cases t <;> simp [cut]
    · cases h
  | x :: s, a, b, h => by
    rw [cut_cons] at h
    rw [List.cons_append, cut_cons, ← List.cons_append]
    split at h
    · next hd =>
      obtain ⟨rfl, rfl⟩ := Prod.mk.inj (Option.some.inj h)
      rw [if_pos (hd.trans (List.prefix_append (x :: s) t)), List.drop_append_of_le_length hd.length_le]
    · next hd =>
      obtain ⟨⟨a', b'⟩, hcut, hab⟩ := Option.map_eq_some_iff.mp h
      obtain ⟨rfl, rfl⟩ := Prod.mk.inj hab
      have hlong : d.length ≤ (x :: s).length := by
        have hlen := congrArg List.length (cut_some hcut)
        simp only [List.length_append, List.length_cons] at hlen ⊢
        omega
      rw [if_neg fun hpre => hd (List.prefix_of_prefix_length_le hpre (List.prefix_append (x :: s) t) hlong),
        cut_append t hcut]
      rfl

/-- Where there is no occurrence, one ends in the text put behind: what follows it is too short for another. -/
theorem cut_self (hd : d ≠ []) {s : Str} (h : cut d s = none) :
    ∃ a b, cut d (s ++ d) = some (a, b) ∧ b.length < d.length := by
  cases hcut : cut d (s ++ d) with
  | none => exact absurd (List.suffix_append s d).isInfix ((cut_eq_none_iff hd).mp hcut)
  | some p =>
    obtain ⟨a, b⟩ := p
    refine ⟨a, b, rfl, ?_⟩
    by_contra hlong
    have hsplit := cut_some hcut
    have hlen := congrArg List.length hsplit
    simp only [List.length_append] at hlen
    -- the occurrence would be in front of the text put behind
    have hpre : a ++ d <+: s := by
      refine List.prefix_of_prefix_length_le (show a ++ d <+: s ++ d from ?_) (List.prefix_append s d) ?_
      · rw [hsplit, ← List.append_assoc]
        exact List.prefix_append (a ++ d) b
      · rw [List.length_append]
        omega
    exact (cut_eq_none_iff hd).mp h ((List.suffix_append a d).isInfix.trans hpre.isInfix)

/-! ## The pieces -/

theorem piecesFrom_of_le (hd : d ≠ []) : ∀ {n m : Nat} {s : Str}, s.length ≤ n → s.length ≤ m →
    piecesFrom d n s = piecesFrom d m s
  | 0, 0, _, _, _ => rfl
  | 0, m + 1, s, hn, _ => by
    obtain rfl := List.length_eq_zero_iff.mp (Nat.le_zero.mp hn)
    simp [piecesFrom, cut, hd]
  | n + 1, 0, s, _, hm => by
    obtain rfl := List.length_eq_zero_iff.mp (Nat.le_zero.mp hm)
    simp [piecesFrom, cut, hd]
  | n + 1, m + 1, s, hn, hm => by
    rw [piecesFrom, piecesFrom]
    cases hcut : cut d s with
    | none => rfl
    | some p =>
      have hpos := List.length_pos_iff.mpr hd
      have hlen := congrArg List.length (cut_some (a := p.1) (b := p.2) hcut)
      simp only [List.length_append] at hlen
      dsimp only
      exact congrArg _ (piecesFrom_of_le hd (by omega) (by omega))

theorem pieces_of_cut (hd : d ≠ []) {s a b : Str} (h : cut d s = some (a, b)) : pieces d s = a :: pieces d b := by
  have hpos := List.length_pos_iff.mpr hd
  have hlen := congrArg List.length (cut_some h)
  simp only [List.length_append] at hlen
  unfold pieces
  obtain ⟨n, hn⟩ := Nat.exists_eq_succ_of_ne_zero (show s.length ≠ 0 by omega)
  rw [hn, piecesFrom, h]
  dsimp only
  rw [piecesFrom_of_le hd (by omega) le_rfl]

theorem pieces_of_cut_none {s : Str} (h : cut d s = none) : pieces d s = [s] := by
  unfold pieces
  cases s.length with
  | zero => rfl
  | succ n => rw [piecesFrom, h]

theorem pieces_ne_nil (s : Str) : pieces d s ≠ [] := by
  unfold pieces
  cases s.length with
  | zero => exact List.cons_ne_nil _ _
  | succ n =>
    rw [piecesFrom]
    split <;> exact List.cons_ne_nil _ _

/-- **A text put behind**: it ends the last piece, and the pieces in front of that one are what they were. -/
theorem pieces_append (hd : d ≠ []) (s : Str) : (pieces d (s ++ d)).dropLast.dropLast = (pieces d s).dropLast := by
  induction hn : s.length using Nat.strong_induction_on generalizing s with
  | _ n ih =>
    cases hcut : cut d s with
    | none =>
      obtain ⟨a, b, hself, hshort⟩ := cut_self hd hcut
      have hb : cut d b = none := (cut_eq_none_iff hd).mpr fun h => by
        have := h.length_le
        omega
      rw [pieces_of_cut hd hself, pieces_of_cut_none hb, pieces_of_cut_none hcut]
      rfl
    | some p =>
      obtain ⟨a, b⟩ := p
      have hpos := List.length_pos_iff.mpr hd
      have hlen := congrArg List.length (cut_some hcut)
      simp only [List.length_append] at hlen
      have htail := ih b.length (by omega) b rfl
      have hmore : (pieces d (b ++ d)).dropLast ≠ [] := by
        cases hb : cut d b with
        | none =>
          obtain ⟨a', b', hself, -⟩ := cut_self hd hb
          rw [pieces_of_cut hd hself, List.dropLast_cons_of_ne_nil (pieces_ne_nil b')]
          exact List.cons_ne_nil _ _
        | some p =>
          rw [pieces_of_cut hd (cut_append d (a := p.1) (b := p.2) hb),
            List.dropLast_cons_of_ne_nil (pieces_ne_nil _)]
          exact List.cons_ne_nil _ _
      rw [pieces_of_cut hd (cut_append d hcut), pieces_of_cut hd hcut,
        List.dropLast_cons_of_ne_nil (pieces_ne_nil _), List.dropLast_cons_of_ne_nil hmore,
        List.dropLast_cons_of_ne_nil (pieces_ne_nil _), htail]

/-! ## The pattern -/

section Pattern

variable {cs : List Single}

theorem shortest_cut {β : Type} {k : Str → Option β} (f : Str → β)
    (hk : ∀ r, k r = if d <+: r then some (f (r.drop d.length)) else none) : ∀ s : Str,
    shortest .any k s = (cut d s).map fun p => f p.2
  | [] => by
    rw [shortest, hk, cut]
    by_cases hd : d = []
    · subst hd
      rfl
    · rw [if_neg fun h => hd (List.prefix_nil.mp h), if_neg hd]
      rfl
  | x :: s => by
    have hany : Single.any.test x = true := rfl
    rw [shortest, hk, cut_cons, shortest_cut f hk s, if_pos hany]
    by_cases hpre : d <+: x :: s
    · rw [if_pos hpre, if_pos hpre]
      rfl
    · rw [if_neg hpre, if_neg hpre, Option.map_map]
      rfl

/-- The items of `(.-)` with `d` behind take the first occurrence. -/
theorem matchRest_cut (hcs : Spells cs d) (s : Str) :
    matchRest (.capOpen :: .single .any .minus :: .capClose :: cs.map (.single · .one)) s [] =
      (cut d s).map fun p => (p.2, [⟨s, some (s.length - (d.length + p.2.length))⟩]) := by
  rw [matchRest, List.nil_append, matchRest]
  refine shortest_cut (fun b => (b, [Seg.mk s (some (s.length - (d.length + b.length)))])) (fun r => ?_) s
  have hspell := @matchRest_spells [] [⟨s, some (s.length - r.length)⟩] cs d hcs r
  rw [List.append_nil] at hspell
  have hclose := closeSeg_concat r s []
  rw [List.nil_append, List.nil_append] at hclose
  rw [matchRest, hclose]
  dsimp only
  rw [hspell]
  by_cases hpre : d <+: r
  · have hlen := hpre.length_le
    rw [if_pos hpre, if_pos hpre, matchRest, List.length_drop, Nat.add_sub_cancel' hlen]
  · rw [if_neg hpre, if_neg hpre]

theorem gmatchRest_cut (hd : d ≠ []) (hcs : Spells cs d) : ∀ {fuel : Nat} {s : Str}, s.length < fuel →
    gmatchRest (.capOpen :: .single .any .minus :: .capClose :: cs.map (.single · .one)) fuel s =
      (pieces d s).dropLast.map fun w => [w]
  | fuel + 1, s, hfuel => by
    unfold gmatchRest
    rw [matchRest_cut hcs]
    cases hcut : cut d s with
    | none =>
      rw [pieces_of_cut_none hcut]
      cases s with
      | nil => rfl
      | cons x s =>
        have hrest : cut d s = none := (cut_eq_none_iff hd).mpr fun h =>
          (cut_eq_none_iff hd).mp hcut (List.infix_cons_iff.mpr (.inr h))
        have ih := @gmatchRest_cut hd hcs fuel s (by rw [List.length_cons] at hfuel; omega)
        rw [pieces_of_cut_none hrest] at ih
        exact ih
    | some p =>
      obtain ⟨a, b⟩ := p
      have hsplit := cut_some hcut
      have hpos := List.length_pos_iff.mpr hd
      have hlen := congrArg List.length hsplit
      simp only [List.length_append] at hlen
      have htext : texts s b [⟨s, some (s.length - (d.length + b.length))⟩] = [a] := by
        have ha : s.length - (d.length + b.length) = a.length := by omega
        rw [ha, hsplit]
        simp [texts, Seg.text]
      have ih := @gmatchRest_cut hd hcs fuel b (by omega)
      rw [pieces_of_cut hd hcut, List.dropLast_cons_of_ne_nil (pieces_ne_nil b), List.map_cons, ← ih]
      cases s with
      | nil =>
        rw [List.length_nil] at hlen
        omega
      | cons x s =>
        rw [Option.map_some]
        dsimp only
        rw [if_neg (by omega)]
        exact congrArg (· :: _) htext

/-- **The matches of `(.-)` with a text behind** are the pieces in front of its occurrences. -/
theorem gmatch_cut {pat : Str} (hd : d ≠ []) (hcs : Spells cs d)
    (hpat : compile pat = .capOpen :: .single .any .minus :: .capClose :: cs.map (.single · .one)) (s : Str) :
    gmatch s pat = .ok ((pieces d s).dropLast.map fun w => [.str w]) := by
  have hsimple : Simple 0 0 (.capOpen :: .single .any .minus :: .capClose :: cs.map (.single · .one)) = true := by
    have hcs : ∀ cs : List Single, Simple 0 1 (cs.map (.single · .one)) = true := by
      intro cs
      induction cs with
      | nil => rfl
      | cons c cs ih => exact ih
    exact hcs cs
  rw [gmatch_eq hpat hsimple, gmatchRest_cut hd hcs (Nat.lt_succ_self _), List.map_map]
  rfl

end Pattern

end Pattern
end Lua
