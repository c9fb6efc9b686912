import Loongshield.Lua.Match

/-!
# When a pattern matches at all

The backtracking matcher tries the ways to take the items one after the other. Whether it finds a match does not depend
on the order: it does if there is a way to take all items.

- `Reach`: there is a way, for all items of patterns;
- `Runs`: no item raises when it is reached, which depends on the captures before it and not on the text;
- `doMatch_decides`, `strMatch_decides`: the matcher finds a match iff there is a way;
- `runs_of_strMatch`: a pattern that has matched once never raises.
-/

namespace Lua
namespace Pattern

/-! ## The ways to take the items -/

/-- How many characters a quantifier takes. -/
def Quant.Takes : Quant → Nat → Prop
  | .one, n => n = 1
  | .opt, n => n ≤ 1
  | .plus, n => 0 < n
  | .star, _ => True
  | .minus, _ => True

/-- There is a way to take the items in `src` from position `s` on. -/
def Reach (src : Str) : List Item → Nat → Caps → Prop
  | [], _, _ => True
  | .atEnd :: _, s, _ => s = src.length
  | .malformed _ :: _, _, _ => False
  | .capOpen :: is, s, caps => caps.length < 32 ∧ Reach src is s (caps ++ [.opened s])
  | .capPos :: is, s, caps => caps.length < 32 ∧ Reach src is s (caps ++ [.pos s])
  | .capClose :: is, s, caps => ∃ caps', closeLast s caps = some caps' ∧ Reach src is s caps'
  | .balance x y :: is, s, caps =>
    ∃ r n, src.drop s = x :: r ∧ balanceEnd x y 1 1 r = some n ∧ Reach src is (s + n) caps
  | .frontier c :: is, s, caps =>
    c.test (if s = 0 then Char.ofNat 0 else src.getD (s - 1) (Char.ofNat 0)) = false ∧
      c.test (src.getD s (Char.ofNat 0)) = true ∧ Reach src is s caps
  | .backref n :: is, s, caps => ∃ a len, 0 < n ∧ caps[n - 1]? = some (.closed a len) ∧
      (src.drop a).take len = (src.drop s).take len ∧ s + len ≤ src.length ∧ Reach src is (s + len) caps
  | .single c q :: is, s, caps => ∃ n ≤ runLength src c s, q.Takes n ∧ Reach src is (s + n) caps

/-! ## Items that do not raise -/

/-- What a capture is, without its place. -/
inductive CapKind
  | opened
  | closed
  | pos
  deriving DecidableEq

def Capture.kind : Capture → CapKind
  | .opened _ => .opened
  | .closed _ _ => .closed
  | .pos _ => .pos

/-- What the captures are. -/
def kinds (caps : Caps) : List CapKind := caps.map Capture.kind

/-- Closes the last open capture. -/
def closeKind : List CapKind → Option (List CapKind)
  | [] => none
  | k :: ks => match closeKind ks with
    | some ks' => some (k :: ks')
    | none => match k with
      | .opened => some (.closed :: ks)
      | _ => none

/-- No item raises after captures of these kinds. -/
def Runs : List Item → List CapKind → Prop
  | [], ks => .opened ∉ ks
  | .atEnd :: _, ks => .opened ∉ ks
  | .malformed _ :: _, _ => False
  | .capOpen :: is, ks => ks.length < 32 ∧ Runs is (ks ++ [.opened])
  | .capPos :: is, ks => ks.length < 32 ∧ Runs is (ks ++ [.pos])
  | .capClose :: is, ks => ∃ ks', closeKind ks = some ks' ∧ Runs is ks'
  | .backref n :: is, ks => 0 < n ∧ (ks[n - 1]? = some .closed ∨ ks[n - 1]? = some .pos) ∧ Runs is ks
  | .balance _ _ :: is, ks => Runs is ks
  | .frontier _ :: is, ks => Runs is ks
  | .single _ _ :: is, ks => Runs is ks

theorem length_kinds (caps : Caps) : (kinds caps).length = caps.length := List.length_map _

theorem kinds_concat (caps : Caps) (c : Capture) : kinds (caps ++ [c]) = kinds caps ++ [c.kind] := List.map_append

theorem getElem?_kinds (caps : Caps) (n : Nat) : (kinds caps)[n]? = caps[n]?.map Capture.kind := List.getElem?_map

theorem closeLast_kinds (s : Nat) : ∀ caps : Caps, (closeLast s caps).map kinds = closeKind (kinds caps)
  | [] => rfl
  | c :: caps => by
    have ih := closeLast_kinds s caps
    have hcons : kinds (c :: caps) = c.kind :: kinds caps := rfl
    rw [hcons]
    unfold closeLast closeKind
    rw [← ih]
    cases closeLast s caps with
    | some caps' => rfl
    | none => cases c <;> rfl

/-! ## What the repetitions find -/

/-- The result, unless it is no match: then the other. -/
def orElse (a b : Res) : Res :=
  match a with
  | .ok none => b
  | r => r

theorem maxExpand_orElse (k : Nat → Res) (s n : Nat) :
    maxExpand k s (n + 1) = orElse (k (s + (n + 1))) (maxExpand k s n) := rfl

theorem minExpand_orElse (k : Nat → Res) (s n : Nat) :
    minExpand k s (n + 1) = orElse (k s) (minExpand k (s + 1) n) := rfl

theorem orElse_some {a b : Res} {p : Nat × Caps} (h : orElse a b = .ok (some p)) :
    a = .ok (some p) ∨ b = .ok (some p) := by
  cases a with
  | error e => cases h
  | ok o => cases o with
    | none => exact .inr h
    | some q => exact .inl h

theorem maxExpand_some {k : Nat → Res} {s : Nat} {p : Nat × Caps} : ∀ {n : Nat}, maxExpand k s n = .ok (some p) →
    ∃ m ≤ n, k (s + m) = .ok (some p)
  | 0, h => ⟨0, Nat.le_refl 0, h⟩
  | n + 1, h => by
    rw [maxExpand_orElse] at h
    rcases orElse_some h with h | h
    · exact ⟨n + 1, Nat.le_refl _, h⟩
    · obtain ⟨m, hm, hk⟩ := maxExpand_some h
      exact ⟨m, Nat.le_succ_of_le hm, hk⟩

theorem minExpand_some {k : Nat → Res} {p : Nat × Caps} : ∀ {n s : Nat}, minExpand k s n = .ok (some p) →
    ∃ m ≤ n, k (s + m) = .ok (some p)
  | 0, _, h => ⟨0, Nat.le_refl 0, h⟩
  | n + 1, s, h => by
    rw [minExpand_orElse] at h
    rcases orElse_some h with h | h
    · exact ⟨0, Nat.zero_le _, h⟩
    · obtain ⟨m, hm, hk⟩ := minExpand_some h
      refine ⟨m + 1, Nat.succ_le_succ hm, ?_⟩
      rw [← Nat.add_assoc, Nat.add_right_comm]
      exact hk

/-- The result is a match iff `P`, and no error; a match has all captures closed. -/
def Decides (r : Res) (P : Prop) : Prop :=
  ∃ o, r = .ok o ∧ (o.isSome = true ↔ P) ∧ ∀ p ∈ o, .opened ∉ kinds p.2

theorem Decides.congr {r : Res} {P Q : Prop} (h : Decides r P) (hPQ : P ↔ Q) : Decides r Q := by
  obtain ⟨o, hr, hiff, hcaps⟩ := h
  exact ⟨o, hr, hiff.trans hPQ, hcaps⟩

theorem decides_none {P : Prop} (h : ¬P) : Decides (.ok none) P :=
  ⟨none, rfl, iff_of_false Bool.false_ne_true h, fun _ hp => by cases hp⟩

theorem Decides.orElse {a b : Res} {P Q : Prop} (ha : Decides a P) (hb : Decides b Q) :
    Decides (orElse a b) (P ∨ Q) := by
  obtain ⟨o, rfl, hP, hcaps⟩ := ha
  cases o with
  | none =>
    have hnot : ¬P := fun h => Bool.false_ne_true (hP.mpr h)
    exact hb.congr (or_iff_right hnot).symm
  | some p => exact ⟨some p, rfl, iff_of_true rfl (.inl (hP.mp rfl)), hcaps⟩

theorem maxExpand_decides {k : Nat → Res} {P : Nat → Prop} {s : Nat} : ∀ {n : Nat},
    (∀ m ≤ n, Decides (k (s + m)) (P m)) → Decides (maxExpand k s n) (∃ m ≤ n, P m)
  | 0, h => (h 0 (Nat.le_refl 0)).congr
    ⟨fun h => ⟨0, Nat.le_refl 0, h⟩, fun ⟨m, hm, h⟩ => Nat.le_zero.mp hm ▸ h⟩
  | n + 1, h => by
    rw [maxExpand_orElse]
    refine ((h (n + 1) (Nat.le_refl _)).orElse (maxExpand_decides fun m hm => h m (Nat.le_succ_of_le hm))).congr ?_
    constructor
    · rintro (h | ⟨m, hm, h⟩)
      · exact ⟨n + 1, Nat.le_refl _, h⟩
      · exact ⟨m, Nat.le_succ_of_le hm, h⟩
    · rintro ⟨m, hm, h⟩
      rcases Nat.le_succ_iff.mp hm with hm | rfl
      · exact .inr ⟨m, hm, h⟩
      · exact .inl h

theorem minExpand_decides {k : Nat → Res} : ∀ {n s : Nat} {P : Nat → Prop},
    (∀ m ≤ n, Decides (k (s + m)) (P m)) → Decides (minExpand k s n) (∃ m ≤ n, P m)
  | 0, _, _, h => (h 0 (Nat.le_refl 0)).congr
    ⟨fun h => ⟨0, Nat.le_refl 0, h⟩, fun ⟨m, hm, h⟩ => Nat.le_zero.mp hm ▸ h⟩
  | n + 1, s, P, h => by
    rw [minExpand_orElse]
    have hrest : Decides (minExpand k (s + 1) n) (∃ m ≤ n, P (m + 1)) := by
      refine minExpand_decides fun m hm => ?_
      have hplace : s + 1 + m = s + (m + 1) := by omega
      rw [hplace]
      exact h (m + 1) (Nat.succ_le_succ hm)
    refine ((h 0 (Nat.zero_le _)).orElse hrest).congr ?_
    constructor
    · rintro (h | ⟨m, hm, h⟩)
      · exact ⟨0, Nat.zero_le _, h⟩
      · exact ⟨m + 1, Nat.succ_le_succ hm, h⟩
    · rintro ⟨m, hm, h⟩
      cases m with
      | zero => exact .inl h
      | succ m => exact .inr ⟨m, Nat.le_of_succ_le_succ hm, h⟩

/-! ## The matcher finds a way if there is one -/

theorem doMatch_single_opt (src : Str) (c : Single) (is : List Item) (s : Nat) (caps : Caps) :
    doMatch src (.single c .opt :: is) s caps =
      if 0 < runLength src c s then orElse (doMatch src is (s + 1) caps) (doMatch src is s caps)
      else doMatch src is s caps := rfl

theorem single_decides {src : Str} {c : Single} {q : Quant} {is : List Item} {s : Nat} {caps : Caps}
    (h : ∀ s, Decides (doMatch src is s caps) (Reach src is s caps)) :
    Decides (doMatch src (.single c q :: is) s caps) (Reach src (.single c q :: is) s caps) := by
  simp only [Reach]
  cases q with
  | one =>
    rw [doMatch_single_one]
    split
    · next hrun =>
      refine (h (s + 1)).congr ⟨fun h => ⟨1, hrun, rfl, h⟩, ?_⟩
      rintro ⟨n, -, rfl, h⟩
      exact h
    · next hrun =>
      refine decides_none ?_
      rintro ⟨n, hn, rfl, -⟩
      exact hrun hn
  | opt =>
    rw [doMatch_single_opt]
    have hcases : ∀ n, n ≤ 1 → n = 0 ∨ n = 1 := fun n hn => by omega
    split
    · next hrun =>
      refine ((h (s + 1)).orElse (h s)).congr ⟨?_, ?_⟩
      · rintro (h | h)
        · exact ⟨1, hrun, Nat.le_refl 1, h⟩
        · exact ⟨0, Nat.zero_le _, Nat.zero_le 1, h⟩
      · rintro ⟨n, -, hn, h⟩
        rcases hcases n hn with rfl | rfl
        · exact .inr h
        · exact .inl h
    · next hrun =>
      refine (h s).congr ⟨fun h => ⟨0, Nat.zero_le _, Nat.zero_le 1, h⟩, ?_⟩
      rintro ⟨n, hle, -, h⟩
      obtain rfl : n = 0 := by omega
      exact h
  | star =>
    rw [doMatch_single_star]
    refine (maxExpand_decides fun m _ => h (s + m)).congr ?_
    simp [Quant.Takes]
  | minus =>
    rw [doMatch_single_minus]
    refine (minExpand_decides fun m _ => h (s + m)).congr ?_
    simp [Quant.Takes]
  | plus =>
    rw [doMatch_single_plus]
    cases hrun : runLength src c s with
    | zero =>
      refine decides_none ?_
      rintro ⟨n, hn, hpos, -⟩
      exact Nat.lt_irrefl 0 (Nat.lt_of_lt_of_le hpos hn)
    | succ n =>
      refine (maxExpand_decides fun m _ => h (s + 1 + m)).congr ⟨?_, ?_⟩
      · rintro ⟨m, hm, h⟩
        refine ⟨m + 1, Nat.succ_le_succ hm, Nat.succ_pos m, ?_⟩
        rw [← Nat.add_assoc, Nat.add_right_comm]
        exact h
      · rintro ⟨m, hm, hpos, h⟩
        obtain ⟨m, rfl⟩ := Nat.exists_eq_succ_of_ne_zero (Nat.pos_iff_ne_zero.mp hpos)
        refine ⟨m, Nat.le_of_succ_le_succ hm, ?_⟩
        rw [Nat.add_right_comm, Nat.add_assoc]
        exact h

/-- **The matcher finds a match iff there is a way to take the items**, and does not raise. -/
theorem doMatch_decides (src : Str) : ∀ (is : List Item) (s : Nat) (caps : Caps), Runs is (kinds caps) →
    Decides (doMatch src is s caps) (Reach src is s caps)
  | [], s, caps, h => ⟨some (s, caps), rfl, iff_of_true rfl trivial, fun p hp => by cases hp; exact h⟩
  | .atEnd :: is, s, caps, h => by
    rw [doMatch]
    split
    · next hs => exact ⟨some (s, caps), rfl, iff_of_true rfl hs, fun p hp => by cases hp; exact h⟩
    · next hs => exact decides_none hs
  | .malformed msg :: is, s, caps, h => absurd h id
  | .capOpen :: is, s, caps, h => by
    have hlt : caps.length < 32 := by rw [← length_kinds]; exact h.1
    rw [doMatch, if_neg (Nat.not_le.mpr hlt)]
    refine (doMatch_decides src is s (caps ++ [.opened s]) ?_).congr (and_iff_right hlt).symm
    rw [kinds_concat]
    exact h.2
  | .capPos :: is, s, caps, h => by
    have hlt : caps.length < 32 := by rw [← length_kinds]; exact h.1
    rw [doMatch, if_neg (Nat.not_le.mpr hlt)]
    refine (doMatch_decides src is s (caps ++ [.pos s]) ?_).congr (and_iff_right hlt).symm
    rw [kinds_concat]
    exact h.2
  | .capClose :: is, s, caps, h => by
    obtain ⟨ks, hclose, hruns⟩ := h
    rw [← closeLast_kinds s] at hclose
    obtain ⟨caps', hcaps', rfl⟩ := Option.map_eq_some_iff.mp hclose
    rw [doMatch, hcaps']
    refine (doMatch_decides src is s caps' hruns).congr ⟨fun h => ⟨caps', hcaps', h⟩, ?_⟩
    rintro ⟨caps'', heq, h⟩
    rw [hcaps'] at heq
    rwa [Option.some.inj heq]
  | .balance x y :: is, s, caps, h => by
    rw [doMatch]
    simp only [Reach]
    cases hdrop : src.drop s with
    | nil =>
      refine decides_none ?_
      rintro ⟨r, n, hr, -⟩
      cases hr
    | cons c r =>
      dsimp only
      by_cases hc : c = x
      · subst hc
        rw [if_pos rfl]
        cases hbal : balanceEnd c y 1 1 r with
        | none =>
          refine decides_none ?_
          rintro ⟨r', n, hr, hn, -⟩
          obtain rfl := (List.cons.inj hr).2
          rw [hbal] at hn
          cases hn
        | some n =>
          refine (doMatch_decides src is (s + n) caps h).congr ⟨fun h => ⟨r, n, rfl, hbal, h⟩, ?_⟩
          rintro ⟨r', n', hr, hn, h⟩
          obtain rfl := (List.cons.inj hr).2
          rw [hbal] at hn
          rwa [Option.some.inj hn]
      · rw [if_neg hc]
        refine decides_none ?_
        rintro ⟨r', n, hr, -⟩
        exact hc (List.cons.inj hr).1
  | .frontier c :: is, s, caps, h => by
    rw [doMatch]
    simp only [Reach]
    have ih := doMatch_decides src is s caps h
    generalize (if s = 0 then Char.ofNat 0 else src.getD (s - 1) (Char.ofNat 0)) = before
    generalize src.getD s (Char.ofNat 0) = here
    cases hbefore : c.test before with
    | true => exact decides_none fun h => Bool.false_ne_true h.1.symm
    | false => cases hhere : c.test here with
      | false => exact decides_none fun h => Bool.false_ne_true h.2.1
      | true => exact ih.congr ⟨fun h => ⟨rfl, rfl, h⟩, fun h => h.2.2⟩
  | .backref 0 :: is, s, caps, h => absurd h.1 (Nat.lt_irrefl 0)
  | .backref (n + 1) :: is, s, caps, h => by
    obtain ⟨-, hkind, hruns⟩ := h
    rw [Nat.add_sub_cancel, getElem?_kinds] at hkind
    rw [doMatch]
    simp only [Reach, Nat.add_sub_cancel]
    have ih := fun s => doMatch_decides src is s caps hruns
    cases hget : caps[n]? with
    | none => rw [hget] at hkind; rcases hkind with h | h <;> cases h
    | some cap => cases cap with
      | opened a => rw [hget] at hkind; rcases hkind with h | h <;> cases h
      | pos a =>
        refine decides_none ?_
        rintro ⟨a, len, -, heq, -⟩
        cases heq
      | closed a len =>
        dsimp only
        split
        · next hcond =>
          refine (ih (s + len)).congr ⟨fun h => ⟨a, len, Nat.succ_pos n, rfl, hcond.1, hcond.2, h⟩, ?_⟩
          rintro ⟨a', len', -, heq, -, -, h⟩
          cases heq
          exact h
        · next hcond =>
          refine decides_none ?_
          rintro ⟨a', len', -, heq, h₁, h₂, -⟩
          cases heq
          exact hcond ⟨h₁, h₂⟩
  | .single c q :: is, s, caps, h => single_decides fun s => doMatch_decides src is s caps h

/-! ## A match shows that no item raises -/

theorem single_some {src : Str} {c : Single} {q : Quant} {is : List Item} {s : Nat} {caps : Caps} {p : Nat × Caps}
    (h : doMatch src (.single c q :: is) s caps = .ok (some p)) : ∃ s', doMatch src is s' caps = .ok (some p) := by
  cases q with
  | one =>
    rw [doMatch_single_one] at h
    split at h
    · exact ⟨_, h⟩
    · cases h
  | opt =>
    rw [doMatch_single_opt] at h
    split at h
    · exact (orElse_some h).elim (fun h => ⟨_, h⟩) fun h => ⟨_, h⟩
    · exact ⟨_, h⟩
  | star =>
    rw [doMatch_single_star] at h
    obtain ⟨m, -, h⟩ := maxExpand_some h
    exact ⟨_, h⟩
  | minus =>
    rw [doMatch_single_minus] at h
    obtain ⟨m, -, h⟩ := minExpand_some h
    exact ⟨_, h⟩
  | plus =>
    rw [doMatch_single_plus] at h
    cases hrun : runLength src c s with
    | zero => rw [hrun] at h; cases h
    | succ n =>
      rw [hrun] at h
      obtain ⟨m, -, h⟩ := maxExpand_some h
      exact ⟨_, h⟩

/-- A match has passed all items, so that none of them raises. -/
theorem runs_of_some {src : Str} {e : Nat} {caps' : Caps} (hcaps : .opened ∉ kinds caps') :
    ∀ {is : List Item} {s : Nat} {caps : Caps}, doMatch src is s caps = .ok (some (e, caps')) → Runs is (kinds caps)
  | [], s, caps, h => by cases h; exact hcaps
  | .atEnd :: is, s, caps, h => by
    rw [doMatch] at h
    split at h <;> cases h
    exact hcaps
  | .malformed msg :: is, s, caps, h => by cases h
  | .capOpen :: is, s, caps, h => by
    rw [doMatch] at h
    split at h
    · cases h
    · next hlt =>
      have ih := runs_of_some hcaps h
      rw [kinds_concat] at ih
      exact ⟨by rw [length_kinds]; omega, ih⟩
  | .capPos :: is, s, caps, h => by
    rw [doMatch] at h
    split at h
    · cases h
    · next hlt =>
      have ih := runs_of_some hcaps h
      rw [kinds_concat] at ih
      exact ⟨by rw [length_kinds]; omega, ih⟩
  | .capClose :: is, s, caps, h => by
    rw [doMatch] at h
    have hkinds := closeLast_kinds s caps
    cases hclose : closeLast s caps with
    | none => rw [hclose] at h; cases h
    | some caps'' =>
      rw [hclose] at h hkinds
      exact ⟨kinds caps'', hkinds.symm, runs_of_some hcaps h⟩
  | .balance x y :: is, s, caps, h => by
    rw [doMatch] at h
    split at h
    · split at h
      · split at h
        · exact @runs_of_some src e caps' hcaps is _ _ h
        · cases h
      · cases h
    · cases h
  | .frontier c :: is, s, caps, h => by
    rw [doMatch] at h
    generalize (if s = 0 then Char.ofNat 0 else src.getD (s - 1) (Char.ofNat 0)) = before at h
    split at h
    · cases h
    · exact @runs_of_some src e caps' hcaps is _ _ h
  | .backref 0 :: is, s, caps, h => by cases h
  | .backref (n + 1) :: is, s, caps, h => by
    rw [doMatch] at h
    cases hget : caps[n]? with
    | none => rw [hget] at h; cases h
    | some cap =>
      rw [hget] at h
      cases cap with
      | opened a => cases h
      | pos a => cases h
      | closed a len =>
        dsimp only at h
        split at h
        · refine ⟨Nat.succ_pos n, .inl ?_, runs_of_some hcaps h⟩
          rw [Nat.add_sub_cancel, getElem?_kinds, hget]
          rfl
        · cases h
  | .single c q :: is, s, caps, h => by
    obtain ⟨s', h⟩ := single_some h
    exact @runs_of_some src e caps' hcaps is _ _ h

/-! ## `string.match` -/

/-- The items of a pattern are those of its body: a `^` at the front is no item. -/
def body (p : Str) : Str := if p.head? = some '^' then p.tail else p

/-- After the first, how many positions of `s` are tried. -/
def tries (s p : Str) : Nat := if p.head? = some '^' then 0 else s.length

/-- There is a way to take the items of a pattern from one of the positions that are tried. -/
def ReachFrom (s p : Str) : Prop := ∃ i ≤ tries s p, Reach s (compile (body p)) i []

theorem strMatch_eq (s p : Str) : strMatch s p =
    (search s (compile (body p)) (tries s p) 0).bind fun found =>
      found.elim (.ok none) fun m => (capValues s m.1 m.2.1 m.2.2).map some := by
  unfold strMatch body tries
  split
  · next q =>
    rw [if_pos (show ('^' :: q).head? = some '^' from rfl), if_pos (show ('^' :: q).head? = some '^' from rfl),
      List.tail_cons]
    cases search s (compile q) 0 0 with
    | error e => rfl
    | ok o => cases o <;> rfl
  · next hanchor =>
    have hhead : p.head? ≠ some '^' := by
      intro h
      obtain ⟨q, rfl⟩ := List.head?_eq_some_iff.mp h
      exact hanchor q rfl
    rw [if_neg hhead, if_neg hhead]
    cases search s (compile p) s.length 0 with
    | error e => rfl
    | ok o => cases o <;> rfl

theorem search_decides {src : Str} {is : List Item} (h : Runs is []) :
    ∀ (fuel s : Nat), ∃ o, search src is fuel s = .ok o ∧
    (o.isSome = true ↔ ∃ i ≤ fuel, Reach src is (s + i) []) ∧ ∀ m ∈ o, .opened ∉ kinds m.2.2
  | fuel, s => by
    obtain ⟨o, ho, hiff, hcaps⟩ := doMatch_decides src is s [] h
    unfold search
    rw [ho]
    cases o with
    | some p =>
      refine ⟨_, rfl, iff_of_true rfl ⟨0, Nat.zero_le _, hiff.mp rfl⟩, fun m hm => ?_⟩
      cases hm
      exact hcaps p rfl
    | none =>
      have hnot : ¬Reach src is s [] := fun h => Bool.false_ne_true (hiff.mpr h)
      cases fuel with
      | zero =>
        refine ⟨none, rfl, iff_of_false Bool.false_ne_true ?_, fun m hm => by cases hm⟩
        rintro ⟨i, hi, h⟩
        rw [Nat.le_zero.mp hi] at h
        exact hnot h
      | succ fuel =>
        obtain ⟨o, ho, hiff, hcaps⟩ := search_decides h fuel (s + 1)
        refine ⟨o, ho, hiff.trans ⟨?_, ?_⟩, hcaps⟩
        · rintro ⟨i, hi, h⟩
          exact ⟨i + 1, Nat.succ_le_succ hi, by rwa [← Nat.add_assoc, Nat.add_right_comm]⟩
        · rintro ⟨i, hi, h⟩
          cases i with
          | zero => exact absurd h hnot
          | succ i => exact ⟨i, Nat.le_of_succ_le_succ hi, by rwa [Nat.add_right_comm, Nat.add_assoc]⟩

theorem capValues_closed_all (src : Str) (s e : Nat) {caps : Caps} (h : .opened ∉ kinds caps) :
    ∃ vs, capValues src s e caps = .ok vs := by
  unfold capValues
  split
  · exact ⟨_, rfl⟩
  · clear * - h
    induction caps with
    | nil => exact ⟨[], rfl⟩
    | cons c caps ih =>
      obtain ⟨hc, hcaps⟩ := not_or.mp fun h' => h (List.mem_cons.mpr h')
      obtain ⟨vs, hvs⟩ := ih hcaps
      rw [List.mapM_cons, hvs]
      cases c with
      | opened a => exact absurd rfl hc
      | closed a len => exact ⟨_, rfl⟩
      | pos a => exact ⟨_, rfl⟩

theorem ok_of_mapM {α β : Type} {f : α → Except Err β} : ∀ {l : List α} {ys : List β}, l.mapM f = .ok ys →
    ∀ x ∈ l, ∃ y, f x = .ok y
  | [], _, _, x, hx => absurd hx List.not_mem_nil
  | a :: l, ys, h, x, hx => by
    rw [List.mapM_cons] at h
    cases ha : f a with
    | error e => rw [ha] at h; cases h
    | ok y =>
      rw [ha] at h
      cases hl : l.mapM f with
      | error e => rw [hl] at h; cases h
      | ok ys' => exact (List.mem_cons.mp hx).elim (fun hx => hx ▸ ⟨y, ha⟩) (ok_of_mapM hl x)

theorem closed_of_capValues {src : Str} {s e : Nat} {caps : Caps} {vs : List Value}
    (h : capValues src s e caps = .ok vs) : .opened ∉ kinds caps := by
  unfold capValues at h
  split at h
  · next hnil =>
    rw [List.isEmpty_iff.mp hnil]
    exact List.not_mem_nil
  · intro hmem
    obtain ⟨c, hc, hkind⟩ := List.mem_map.mp hmem
    obtain ⟨v, hv⟩ := ok_of_mapM h c hc
    cases c with
    | opened a => cases hv
    | closed a len => cases hkind
    | pos a => cases hkind

theorem search_some {src : Str} {is : List Item} {m : Nat × Nat × Caps} : ∀ {fuel s : Nat},
    search src is fuel s = .ok (some m) → doMatch src is m.1 [] = .ok (some m.2)
  | fuel, s, h => by
    unfold search at h
    cases hmatch : doMatch src is s [] with
    | error e => rw [hmatch] at h; cases h
    | ok o =>
      rw [hmatch] at h
      cases o with
      | some p => cases h; exact hmatch
      | none => cases fuel with
        | zero => cases h
        | succ fuel => exact @search_some src is m fuel _ h

/-- **A pattern that has matched once never raises.** -/
theorem runs_of_strMatch {s p : Str} {vs : List Value} (h : strMatch s p = .ok (some vs)) :
    Runs (compile (body p)) [] := by
  rw [strMatch_eq] at h
  cases hsearch : search s (compile (body p)) (tries s p) 0 with
  | error e => rw [hsearch] at h; cases h
  | ok o =>
    rw [hsearch] at h
    cases o with
    | none => cases h
    | some m =>
      cases hvals : capValues s m.1 m.2.1 m.2.2 with
      | error e => simp [Except.bind, hvals, Except.map] at h
      | ok vs' => exact runs_of_some (closed_of_capValues hvals) (search_some hsearch)

/-- **`string.match` finds a match iff there is a way to take the items from one of the positions it tries.** -/
theorem strMatch_decides {s p : Str} (h : Runs (compile (body p)) []) :
    ∃ o, strMatch s p = .ok o ∧ (o.isSome = true ↔ ReachFrom s p) := by
  obtain ⟨o, ho, hiff, hcaps⟩ := @search_decides s _ h (tries s p) 0
  have hreach : o.isSome = true ↔ ReachFrom s p := by
    rw [hiff]
    simp only [Nat.zero_add]
    rfl
  rw [strMatch_eq, ho]
  cases o with
  | none => exact ⟨none, rfl, hreach⟩
  | some m =>
    obtain ⟨vs, hvs⟩ := capValues_closed_all s m.1 m.2.1 (hcaps m rfl)
    exact ⟨some vs, by simp only [Except.bind, Option.elim, hvs]; rfl, hreach⟩

theorem strMatch_isSome_iff {s p : Str} : (∃ vs, strMatch s p = .ok (some vs)) ↔ Runs (compile (body p)) [] ∧
    ReachFrom s p := by
  constructor
  · rintro ⟨vs, h⟩
    have hruns := runs_of_strMatch h
    obtain ⟨o, ho, hiff⟩ := @strMatch_decides s p hruns
    rw [h] at ho
    cases ho
    exact ⟨hruns, hiff.mp rfl⟩
  · rintro ⟨hruns, hreach⟩
    obtain ⟨o, ho, hiff⟩ := @strMatch_decides s p hruns
    obtain ⟨vs, rfl⟩ := Option.isSome_iff_exists.mp (hiff.mpr hreach)
    exact ⟨vs, ho⟩

end Pattern
end Lua
