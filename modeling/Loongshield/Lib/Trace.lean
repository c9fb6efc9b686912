import Mathlib.Order.Nat
import Mathlib.Tactic.Common

/-!
# Traces

A trace is a list of events, oldest first. A property of a moment of a trace speaks of a split `pre ++ e :: post`, or of
the position of `e`; the lemmas here move such moments between a trace and its parts.

- `split_append`: a moment of a concatenation is a moment of one of the parts;
- `getElem?_concat`: a position of a trace with a new event;
- `Blocks`: a trace that is put together from blocks, each with a result, and stops at the first block that fails.
-/

namespace Trace

variable {α β ε ι : Type*}

/-- A moment of a concatenation lies in the first or in the second part. -/
theorem split_append {xs ys pre post : List α} {e : α} (h : xs ++ ys = pre ++ e :: post) :
    (∃ mid, xs = pre ++ e :: mid ∧ post = mid ++ ys) ∨ ∃ mid, pre = xs ++ mid ∧ ys = mid ++ e :: post := by
  rcases List.append_eq_append_iff.mp h with ⟨mid, rfl, rfl⟩ | ⟨mid, rfl, hmid⟩
  · exact .inr ⟨mid, rfl, rfl⟩
  · rcases List.append_eq_cons_iff.mp hmid.symm with ⟨rfl, rfl⟩ | ⟨mid', rfl, rfl⟩
    · exact .inr ⟨[], by simp, rfl⟩
    · exact .inl ⟨mid', rfl, rfl⟩

theorem lt_length {xs : List α} {x : α} {p : Nat} (h : xs[p]? = some x) : p < xs.length :=
  (List.getElem?_eq_some_iff.mp h).1

/-- The moment of a position. -/
theorem split_of_getElem? {xs : List α} {x : α} {p : Nat} (h : xs[p]? = some x) :
    ∃ pre post, xs = pre ++ x :: post ∧ pre.length = p := by
  have hp := lt_length h
  refine ⟨xs.take p, xs.drop (p + 1), ?_, by rw [List.length_take]; omega⟩
  rw [← Option.some.inj ((List.getElem?_eq_getElem hp).symm.trans h), List.getElem_cons_drop hp, List.take_append_drop]

/-- An event behind a moment. -/
theorem getElem?_split_right {pre post : List α} {e : α} (m : Nat) :
    (pre ++ e :: post)[pre.length + 1 + m]? = post[m]? := by
  rw [List.getElem?_append_right (by omega), show pre.length + 1 + m - pre.length = m + 1 by omega,
    List.getElem?_cons_succ]

/-- An event of a trace with a new last event was there before, or is the new one. -/
theorem getElem?_concat {xs : List α} {x y : α} {p : Nat} (h : (xs ++ [x])[p]? = some y) :
    xs[p]? = some y ∨ p = xs.length ∧ x = y := by
  rcases lt_trichotomy p xs.length with hp | rfl | hp
  · rw [List.getElem?_append_left hp] at h
    exact .inl h
  · rw [List.getElem?_concat_length] at h
    exact .inr ⟨rfl, Option.some.inj h⟩
  · have hlt := lt_length h
    rw [List.length_append, List.length_singleton] at hlt
    omega

/-! ## Traces of blocks -/

/-- The traces of a loop over a list: every element leaves a block and a result; the loop collects the results, and
stops at the first block with an error. `P i x tr r` says that the element `x` at position `i` can leave `tr` and
`r`. -/
inductive Blocks (P : Nat → ι → List α → Except ε β → Prop) : Nat → List ι → List α → Except ε (List β) → Prop
  | nil {i : Nat} : Blocks P i [] [] (.ok [])
  | stop {i : Nat} {x : ι} {xs : List ι} {tr : List α} {e : ε} : P i x tr (.error e) →
      Blocks P i (x :: xs) tr (.error e)
  | cons {i : Nat} {x : ι} {xs : List ι} {tr trs : List α} {b : β} {r r' : Except ε (List β)} : P i x tr (.ok b) →
      Blocks P (i + 1) xs trs r → r' = r.map (b :: ·) → Blocks P i (x :: xs) (tr ++ trs) r'

section Blocks

theorem ok_eq_map_cons {b : β} {bs : List β} {r : Except ε (List β)} (h : .ok bs = r.map (b :: ·)) :
    ∃ bs', r = .ok bs' ∧ bs = b :: bs' := by
  cases r with
  | error e => cases h
  | ok bs' => exact ⟨bs', rfl, Except.ok.inj h⟩

theorem error_eq_map_cons {b : β} {e : ε} {r : Except ε (List β)} (h : .error e = r.map (b :: ·)) :
    r = .error e := by
  cases r with
  | error e' => exact congrArg Except.error (Except.error.inj h).symm
  | ok bs => cases h

variable {P : Nat → ι → List α → Except ε β → Prop} {i : Nat} {xs : List ι} {t : List α}

/-- Every event belongs to the block of some element; a block with an error ends the loop with it. -/
theorem Blocks.mem {r : Except ε (List β)} {e : α} (h : Blocks P i xs t r) (he : e ∈ t) :
    ∃ k x tr r', xs[k]? = some x ∧ P (i + k) x tr r' ∧ e ∈ tr ∧ ∀ err, r' = .error err → r = .error err := by
  induction h with
  | nil => cases he
  | stop hP => exact ⟨0, _, _, _, rfl, hP, he, fun err herr => by rw [Except.error.inj herr]⟩
  | @cons i _ _ _ _ _ _ _ hP _ hr ih =>
    rcases List.mem_append.mp he with he | he
    · exact ⟨0, _, _, _, rfl, hP, he, nofun⟩
    · obtain ⟨k, y, tr, r', hy, hP', he, herr⟩ := ih he
      refine ⟨k + 1, y, tr, r', hy, (show i + 1 + k = i + (k + 1) by omega) ▸ hP', he, fun err h => ?_⟩
      rw [hr, herr err h]
      rfl

/-- A loop that went through: every element has its block and its result, between those of the other elements. -/
theorem Blocks.get {bs : List β} (h : Blocks P i xs t (.ok bs)) : ∀ {k : Nat} {x : ι}, xs[k]? = some x →
    ∃ before tr after b bs' bs'', t = before ++ tr ++ after ∧ bs[k]? = some b ∧ P (i + k) x tr (.ok b) ∧
      Blocks P i (xs.take k) before (.ok bs') ∧ Blocks P (i + k + 1) (xs.drop (k + 1)) after (.ok bs'') := by
  generalize hr : Except.ok bs = r at h
  induction h generalizing bs with
  | nil => nofun
  | stop => cases hr
  | @cons i x xs tr trs b _ _ hP hbs hr' ih =>
    obtain ⟨bs₀, rfl, rfl⟩ := ok_eq_map_cons (hr.trans hr')
    rintro (_ | k) y hy
    · cases hy
      exact ⟨[], tr, trs, b, [], bs₀, rfl, rfl, hP, .nil, hbs⟩
    · obtain ⟨before, tr', after, b', bs', bs'', rfl, hb', hP', hbefore, hafter⟩ := ih rfl (k := k) hy
      have hk : i + 1 + k = i + (k + 1) := by omega
      rw [hk] at hP' hafter
      exact ⟨tr ++ before, tr', after, b', b :: bs', bs'', by simp, hb', hP', .cons hP hbefore rfl, hafter⟩

/-- A loop that stopped: the last block is the one with the error, behind the blocks of the earlier elements. -/
theorem Blocks.error {e : ε} (h : Blocks P i xs t (.error e)) :
    ∃ k x before tr bs, xs[k]? = some x ∧ P (i + k) x tr (.error e) ∧ t = before ++ tr ∧
      Blocks P i (xs.take k) before (.ok bs) := by
  generalize hr : (Except.error e : Except ε (List β)) = r at h
  induction h with
  | nil => cases hr
  | stop hP =>
    cases hr
    exact ⟨0, _, [], _, [], rfl, hP, rfl, .nil⟩
  | @cons i x xs tr _ b _ _ hP _ hr' ih =>
    obtain ⟨k, y, before, tr', bs, hy, hP', rfl, hbefore⟩ := ih (error_eq_map_cons (hr.trans hr')).symm
    exact ⟨k + 1, y, tr ++ before, tr', b :: bs, hy, (show i + 1 + k = i + (k + 1) by omega) ▸ hP', by simp,
      .cons hP hbefore rfl⟩

/-- **Every moment lies in a block**: the earlier elements left their blocks before it, and what follows the block is
left by the later elements, if the block has no error. -/
theorem Blocks.split {r : Except ε (List β)} (h : Blocks P i xs t r) :
    ∀ {pre post : List α} {e : α}, t = pre ++ e :: post → ∃ k x before pre' post' after r' bs,
      xs[k]? = some x ∧ P (i + k) x (pre' ++ e :: post') r' ∧ pre = before ++ pre' ∧ post = post' ++ after ∧
      Blocks P i (xs.take k) before (.ok bs) ∧
      ((∃ err, r' = .error err) ∧ after = [] ∨
        ∃ b rs, r' = .ok b ∧ Blocks P (i + k + 1) (xs.drop (k + 1)) after rs) := by
  induction h with
  | nil =>
    intro pre post e ht
    simp at ht
  | stop hP =>
    rintro pre post e rfl
    exact ⟨0, _, [], pre, post, [], _, [], rfl, hP, rfl, by simp, .nil, .inl ⟨⟨_, rfl⟩, rfl⟩⟩
  | @cons i x xs tr trs b _ _ hP hbs _ ih =>
    intro pre post e ht
    rcases split_append ht with ⟨mid, rfl, rfl⟩ | ⟨mid, rfl, hmid⟩
    · exact ⟨0, x, [], pre, mid, trs, _, [], rfl, hP, rfl, rfl, .nil, .inr ⟨b, _, rfl, hbs⟩⟩
    · obtain ⟨k, y, before, pre', post', after, r', bs, hy, hP', rfl, rfl, hbefore, hafter⟩ := ih hmid
      have hk : i + 1 + k = i + (k + 1) := by omega
      rw [hk] at hP' hafter
      exact ⟨k + 1, y, tr ++ before, pre', post', after, r', b :: bs, hy, hP', by simp, rfl, .cons hP hbefore rfl,
        hafter⟩

end Blocks

end Trace
