import Loongshield.Lua.Rest

/-!
# Balanced texts

The item `%bxy` takes a text from an `x` to the `y` that closes it.

- `Balanced`: every `x` has its `y`;
- `balanceEnd_eq_some_iff`: what is taken is the shortest such text;
- `strMatch_balance`: a pattern that captures it at the beginning.
-/

namespace Lua
namespace Pattern

/-- A text in which every `x` is closed by its own `y`. -/
inductive Balanced (x y : Char) : Str → Prop
  | nil : Balanced x y []
  | char {c : Char} {s : Str} : c ≠ x → c ≠ y → Balanced x y s → Balanced x y (c :: s)
  | nest {s t : Str} : Balanced x y s → Balanced x y t → Balanced x y (x :: (s ++ y :: t))

section Ends

variable {x y : Char}

/-- A balanced text leaves the depth as it is. -/
theorem balanceEnd_append (hxy : x ≠ y) {body : Str} (h : Balanced x y body) :
    ∀ (i depth : Nat) (rest : Str), 0 < depth →
    balanceEnd x y i depth (body ++ rest) = balanceEnd x y (i + body.length) depth rest := by
  induction h with
  | nil => exact fun _ _ _ _ => rfl
  | char hx hy _ ih =>
    intro i depth rest hdepth
    rw [List.cons_append, balanceEnd, if_neg hy, if_neg hx, ih _ _ _ hdepth, List.length_cons]
    congr 1
    omega
  | @nest s t _ _ ihs iht =>
    intro i depth rest hdepth
    have hassoc : x :: (s ++ y :: t) ++ rest = x :: (s ++ y :: (t ++ rest)) := by simp
    have hdeep : 0 < depth + 1 := by omega
    rw [hassoc, balanceEnd, if_neg hxy, if_pos rfl, ihs _ _ _ hdeep, balanceEnd, if_pos rfl,
      if_neg (by omega), Nat.add_sub_cancel, iht _ _ _ hdepth]
    congr 1
    simp only [List.length_cons, List.length_append]
    omega

/-- What stands in front of the first `y` that closes more than was opened. -/
theorem exists_balanced : ∀ (r : Str) (i depth n : Nat), 0 < depth → balanceEnd x y i depth r = some n →
    ∃ body rest, r = body ++ y :: rest ∧ Balanced x y body ∧
      (if depth = 1 then n = i + body.length + 1 else balanceEnd x y (i + body.length + 1) (depth - 1) rest = some n)
  | [], _, _, _, _, h => by cases h
  | c :: s, i, depth, n, hdepth, h => by
    rw [balanceEnd] at h
    by_cases hy : c = y
    · subst hy
      rw [if_pos rfl] at h
      refine ⟨[], s, rfl, .nil, ?_⟩
      split at h
      · next hone =>
        rw [if_pos hone]
        exact (Option.some.inj h).symm
      · next hone =>
        rw [if_neg hone]
        exact h
    · rw [if_neg hy] at h
      by_cases hx : c = x
      · rw [if_pos hx] at h
        -- the `x` is closed first, and the text goes on
        have hdeep : 0 < depth + 1 := by omega
        obtain ⟨body, rest, hs, hbody, hrest⟩ := exists_balanced s _ _ _ hdeep h
        have hlt : rest.length < s.length := by
          rw [hs, List.length_append, List.length_cons]
          omega
        rw [if_neg (by omega), Nat.add_sub_cancel] at hrest
        obtain ⟨body', rest', hr, hbody', hrest'⟩ := exists_balanced rest _ _ _ hdepth hrest
        refine ⟨x :: (body ++ y :: body'), rest', by simp [hx, hs, hr], .nest hbody hbody', ?_⟩
        have hlen : i + 1 + body.length + 1 + body'.length + 1 = i + (x :: (body ++ y :: body')).length + 1 := by
          simp only [List.length_cons, List.length_append]
          omega
        rw [hlen] at hrest'
        exact hrest'
      · rw [if_neg hx] at h
        obtain ⟨body, rest, rfl, hbody, hrest⟩ := exists_balanced s _ _ _ hdepth h
        refine ⟨c :: body, rest, rfl, .char hx hy hbody, ?_⟩
        have hlen : i + 1 + body.length + 1 = i + (c :: body).length + 1 := by
          rw [List.length_cons]
          omega
        rw [hlen] at hrest
        exact hrest
termination_by r => r.length
decreasing_by
  all_goals
    rw [List.length_cons]
    omega

theorem balanceEnd_le {r : Str} {n : Nat} (h : balanceEnd x y 1 1 r = some n) : n ≤ r.length + 1 := by
  obtain ⟨body, rest, rfl, -, hn⟩ := exists_balanced r 1 1 n Nat.one_pos h
  rw [if_pos rfl] at hn
  rw [hn, List.length_append, List.length_cons]
  omega

/-- **The end is that of the balanced text.** -/
theorem balanceEnd_eq_some_iff (hxy : x ≠ y) {r : Str} {n : Nat} : balanceEnd x y 1 1 r = some n ↔
    ∃ body rest, r = body ++ y :: rest ∧ Balanced x y body ∧ n = body.length + 2 := by
  constructor
  · intro h
    obtain ⟨body, rest, rfl, hbody, hn⟩ := exists_balanced r 1 1 n Nat.one_pos h
    rw [if_pos rfl] at hn
    exact ⟨body, rest, rfl, hbody, by omega⟩
  · rintro ⟨body, rest, rfl, hbody, rfl⟩
    rw [balanceEnd_append hxy hbody _ _ _ Nat.one_pos, balanceEnd, if_pos rfl, if_pos rfl]
    congr 1
    omega

/-- A text has at most one balanced text in front of a `y`. -/
theorem Balanced.unique (hxy : x ≠ y) {body body' rest rest' : Str} (h : Balanced x y body) (h' : Balanced x y body')
    (heq : body ++ y :: rest = body' ++ y :: rest') : body = body' ∧ rest = rest' := by
  have hend := (balanceEnd_eq_some_iff hxy).mpr ⟨body, rest, rfl, h, rfl⟩
  rw [heq, (balanceEnd_eq_some_iff hxy).mpr ⟨body', rest', rfl, h', rfl⟩] at hend
  have hlen : body.length = body'.length := by
    have := Option.some.inj hend
    omega
  obtain ⟨rfl, hrest⟩ := List.append_inj heq hlen
  exact ⟨rfl, (List.cons.inj hrest).2⟩

end Ends

/-! ## A captured balanced text -/

/-- `(%bxy)` and the items after it, at the front of a text. -/
def matchBalance (x y : Char) (is : List Item) : Str → Option (Str × List Seg)
  | [] => none
  | c :: r => if c = x then
      match balanceEnd x y 1 1 r with
      | some n => matchRest is ((c :: r).drop n) [⟨c :: r, some n⟩]
      | none => none
    else none

section Captured

variable {x y : Char} {is : List Item}

theorem matchBalance_append (hxy : x ≠ y) {body : Str} (h : Balanced x y body) (rest : Str) :
    matchBalance x y is (x :: (body ++ y :: rest)) =
      matchRest is rest [⟨x :: (body ++ y :: rest), some (body.length + 2)⟩] := by
  have hdrop : (x :: (body ++ y :: rest)).drop (body.length + 2) = rest := by
    have hassoc : x :: (body ++ y :: rest) = (x :: (body ++ [y])) ++ rest := by simp
    rw [hassoc]
    exact List.drop_left' (by simp)
  rw [matchBalance, if_pos rfl, (balanceEnd_eq_some_iff hxy).mpr ⟨body, rest, rfl, h, rfl⟩]
  dsimp only
  rw [hdrop]

theorem of_matchBalance (hxy : x ≠ y) {s : Str} {p : Str × List Seg} (h : matchBalance x y is s = some p) :
    ∃ body rest, s = x :: (body ++ y :: rest) ∧ Balanced x y body := by
  cases s with
  | nil => cases h
  | cons c r =>
    rw [matchBalance] at h
    split at h
    · next hx =>
      split at h
      · next hn =>
        obtain ⟨body, rest, rfl, hbody, -⟩ := (balanceEnd_eq_some_iff hxy).mp hn
        exact ⟨body, rest, by rw [hx], hbody⟩
      · cases h
    · cases h

theorem within_front (s : Str) (n : Nat) : Within s (s.drop n) [⟨s, some n⟩] := by
  intro seg hseg
  obtain rfl := List.mem_singleton.mp hseg
  exact ⟨by rw [List.length_drop]; exact Nat.sub_le _ _, List.suffix_rfl⟩

theorem doMatch_balance (hs : Simple 0 1 is = true) (s : Str) :
    doMatch s (.capOpen :: .balance x y :: .capClose :: is) 0 [] = resOf s.length (matchBalance x y is s) := by
  rw [doMatch, if_neg (by decide), doMatch, List.drop_zero]
  cases s with
  | nil => rfl
  | cons c r =>
    dsimp only
    rw [matchBalance]
    by_cases hx : c = x
    · rw [if_pos hx, if_pos hx]
      cases hend : balanceEnd x y 1 1 r with
      | none => rfl
      | some n =>
        have hle : n ≤ (c :: r).length := balanceEnd_le hend
        have hrest := @doMatch_eq (c :: r) is ((c :: r).drop n) [⟨c :: r, some n⟩] hs (List.drop_suffix _ _)
          (within_front _ n)
        have hpos : (c :: r).length - ((c :: r).drop n).length = n := by
          rw [List.length_drop]
          omega
        rw [hpos] at hrest
        dsimp only
        rw [doMatch, ← hrest]
        simp [closeLast, Seg.cap]
    · rw [if_neg hx, if_neg hx]
      rfl

/-- **A balanced text at the beginning, captured**, and what follows it. -/
theorem strMatch_balance {pat p : Str} (hpat : pat = '^' :: p)
    (his : compile p = .capOpen :: .balance x y :: .capClose :: is) (hs : Simple 0 1 is = true) (s : Str) :
    strMatch s pat = .ok ((matchBalance x y is s).map fun p => (texts s p.1 p.2).map .str) := by
  have hmatch := @doMatch_balance x y is hs s
  subst hpat
  unfold strMatch
  simp only [his, search, hmatch]
  cases hm : matchBalance x y is s with
  | none => rfl
  | some p =>
    obtain ⟨r, segs⟩ := p
    have hwithin : r <:+ s ∧ Within s r segs ∧ openSegs segs = 0 := by
      cases s with
      | nil => cases hm
      | cons c t =>
        rw [matchBalance] at hm
        split at hm
        · split at hm
          · next n hend =>
            obtain ⟨hr, hin, hopen⟩ := @matchRest_some (c :: t) is _ r [⟨c :: t, some n⟩] segs hs (List.drop_suffix n _)
              (within_front _ n) hm
            exact ⟨hr.trans (List.drop_suffix _ _), hin, hopen⟩
          · cases hm
        · cases hm
    have hvals := @capValues_eq s s r segs List.suffix_rfl hwithin.1 hwithin.2.1 hwithin.2.2
    rw [Nat.sub_self] at hvals
    simp only [resOf, Option.map_some, bind, Except.bind]
    rw [hvals]
    rfl

end Captured

end Pattern
end Lua
