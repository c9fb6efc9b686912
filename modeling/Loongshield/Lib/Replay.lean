import Mathlib.Data.List.Induction
import Mathlib.Data.List.Nodup

/-!
# Edits of a list

An edit may begin the list anew, and then drops and adds elements in its order. Edits are replayed one after the other.

- `mem_run`: what is in a list after an edit;
- `mem_replay`: what is in the list at the end was added by an edit, and no later edit drops it;
- `mem_replayOf`: the same for a part of the edits;
- `nodup_replay`: an element is in the list once.
-/

namespace Replay

variable {α : Type} [DecidableEq α]

/-- A part of an edit. -/
inductive Op (α : Type)
  | drop (test : α → Bool)
  | add (a : α)

/-- A part of an edit, on a list. -/
def Op.run (l : List α) : Op α → List α
  | .drop test => l.filter fun a => !test a
  | .add a => if a ∈ l then l else l ++ [a]

/-- An edit. -/
structure Edit (α : Type) where
  reset : Bool
  ops : List (Op α)

namespace Edit

/-- An edit of a list. -/
def run (l : List α) (e : Edit α) : List α := e.ops.foldl Op.run (if e.reset then [] else l)

/-- The edit adds an element. -/
def Adds (e : Edit α) (a : α) : Prop := a ∈ e.run []

/-- The edit drops an element; it may add it again. -/
def Drops (e : Edit α) (a : α) : Prop := e.reset = true ∨ ∃ test, .drop test ∈ e.ops ∧ test a = true

end Edit

/-- The list after the edits. -/
def replay (es : List (Edit α)) : List α := es.foldl Edit.run []

variable {a : α}

theorem mem_opRun {l : List α} {o : Op α} : a ∈ o.run l ↔
    a ∈ o.run [] ∨ (a ∈ l ∧ ∀ test, o = .drop test → test a = false) := by
  cases o with
  | drop test =>
    have hdrop : (∀ test', Op.drop test = .drop test' → test' a = false) ↔ test a = false :=
      ⟨fun h => h test rfl, fun h _ heq => Op.drop.inj heq ▸ h⟩
    rw [hdrop, Op.run, Op.run, List.mem_filter, Bool.not_eq_true', List.filter_nil, or_iff_right List.not_mem_nil]
  | add b =>
    have hadd : a ∈ Op.run l (.add b) ↔ a ∈ l ∨ a = b := by
      rw [Op.run]
      split
      · next hb => exact ⟨.inl, fun h => h.elim id fun heq => heq ▸ hb⟩
      · rw [List.mem_append, List.mem_singleton]
    have hnil : Op.run [] (.add b) = [b] := by rw [Op.run, if_neg List.not_mem_nil, List.nil_append]
    rw [hadd, hnil, List.mem_singleton, or_comm]
    exact or_congr_right ⟨fun h => ⟨h, nofun⟩, And.left⟩

theorem mem_ops (ops : List (Op α)) (l : List α) : a ∈ ops.foldl Op.run l ↔
    a ∈ ops.foldl Op.run [] ∨ (a ∈ l ∧ ∀ test, .drop test ∈ ops → test a = false) := by
  induction ops generalizing l with
  | nil => simp
  | cons o ops ih =>
    have hdrops : (∀ test, Op.drop test ∈ o :: ops → test a = false) ↔
        (∀ test, o = .drop test → test a = false) ∧ ∀ test, .drop test ∈ ops → test a = false := by
      constructor
      · exact fun h => ⟨fun test ho => h test (ho ▸ List.mem_cons_self),
          fun test ht => h test (List.mem_cons_of_mem o ht)⟩
      · rintro ⟨h1, h2⟩ test ht
        rcases List.mem_cons.mp ht with ho | ht
        · exact h1 test ho.symm
        · exact h2 test ht
    rw [List.foldl_cons, List.foldl_cons, ih (o.run l), ih (o.run []), hdrops, mem_opRun]
    tauto

/-- **What is in a list after an edit.** -/
theorem mem_run {e : Edit α} {l : List α} : a ∈ e.run l ↔ e.Adds a ∨ (a ∈ l ∧ ¬e.Drops a) := by
  have hdrops : ¬e.Drops a ↔ e.reset = false ∧ ∀ test, .drop test ∈ e.ops → test a = false := by
    unfold Edit.Drops
    simp only [not_or, Bool.not_eq_true, not_exists, not_and]
  unfold Edit.Adds Edit.run
  rw [ite_self, hdrops, mem_ops]
  cases e.reset with
  | true => simp
  | false => simp

theorem replay_concat (es : List (Edit α)) (e : Edit α) : replay (es ++ [e]) = e.run (replay es) := by
  rw [replay, List.foldl_append]
  rfl

/-- **What is in the list at the end**: what an edit added, if no later edit drops it. -/
theorem mem_replay (es : List (Edit α)) : a ∈ replay es ↔
    ∃ before e after, es = before ++ e :: after ∧ e.Adds a ∧ ∀ e' ∈ after, ¬e'.Drops a := by
  induction es using List.reverseRecOn with
  | nil =>
    refine iff_of_false List.not_mem_nil ?_
    rintro ⟨before, e, after, hsplit, -⟩
    exact absurd hsplit (by simp)
  | append_singleton es e ih =>
    rw [replay_concat, mem_run, ih]
    constructor
    · rintro (hadds | ⟨⟨before, e', after, rfl, hadds, hlater⟩, hdrops⟩)
      · exact ⟨es, e, [], rfl, hadds, fun _ h => absurd h List.not_mem_nil⟩
      · refine ⟨before, e', after ++ [e], by simp, hadds, fun e'' he'' => ?_⟩
        rcases List.mem_append.mp he'' with he'' | he''
        · exact hlater e'' he''
        · rw [List.mem_singleton.mp he'']
          exact hdrops
    · rintro ⟨before, e', after, hsplit, hadds, hlater⟩
      rcases List.eq_nil_or_concat after with rfl | ⟨after, last, rfl⟩
      · obtain ⟨-, hlast⟩ := List.append_inj' hsplit rfl
        rw [(List.cons.inj hlast).1]
        exact .inl hadds
      · have hsplit : es ++ [e] = (before ++ e' :: after) ++ [last] := by
          rw [hsplit, List.concat_eq_append, List.append_assoc, List.cons_append]
        obtain ⟨hes, hlast⟩ := List.append_inj' hsplit rfl
        obtain rfl := (List.cons.inj hlast).1
        refine .inr ⟨⟨before, e', after, hes, hadds, fun e'' he'' => hlater e'' ?_⟩, hlater e ?_⟩
        · rw [List.concat_eq_append]
          exact List.mem_append_left _ he''
        · rw [List.concat_eq_append]
          exact List.mem_append_right _ (List.mem_singleton_self _)

/-! ## No element twice -/

theorem nodup_opRun {l : List α} (h : l.Nodup) : ∀ o : Op α, (o.run l).Nodup
  | .drop _ => h.filter _
  | .add a => by
    rw [Op.run]
    split
    · exact h
    · next ha => exact List.nodup_append.mpr ⟨h, List.nodup_singleton a, fun x hx y hy => by
        rw [List.mem_singleton.mp hy]
        exact fun heq => ha (heq ▸ hx)⟩

theorem nodup_ops {l : List α} (h : l.Nodup) (ops : List (Op α)) : (ops.foldl Op.run l).Nodup := by
  induction ops generalizing l with
  | nil => exact h
  | cons o ops ih => exact ih (nodup_opRun h o)

theorem nodup_run {l : List α} (h : l.Nodup) (e : Edit α) : (e.run l).Nodup := by
  unfold Edit.run
  split
  · exact nodup_ops List.nodup_nil e.ops
  · exact nodup_ops h e.ops

theorem nodup_replay (es : List (Edit α)) : (replay es).Nodup := by
  induction es using List.reverseRecOn with
  | nil => exact List.nodup_nil
  | append_singleton es e ih =>
    rw [replay_concat]
    exact nodup_run ih e

/-! ## A part of the edits -/

section Tagged

variable {ι : Type} {edit : ι → Edit α}

/-- The edits of the members of a list that pass a test, replayed. -/
def replayOf (edit : ι → Edit α) (p : ι → Bool) (xs : List ι) : List α := replay ((xs.filter p).map edit)

/-- What is in the list at the end, by the member that added it. -/
theorem mem_replayOf {p : ι → Bool} {xs : List ι} : a ∈ replayOf edit p xs ↔
    ∃ before x after, xs = before ++ x :: after ∧ p x = true ∧ (edit x).Adds a ∧
      ∀ y ∈ after, p y = true → ¬(edit y).Drops a := by
  unfold replayOf
  rw [mem_replay]
  constructor
  · rintro ⟨before, e, after, hsplit, hadds, hlater⟩
    obtain ⟨b, r, hfilter, -, hr⟩ := List.map_eq_append_iff.mp hsplit
    obtain ⟨x, r, rfl, rfl, rfl⟩ := List.map_eq_cons_iff.mp hr
    obtain ⟨before, rest, rfl, -, hrest⟩ := List.filter_eq_append_iff.mp hfilter
    obtain ⟨skipped, after, rfl, -, hx, rfl⟩ := List.filter_eq_cons_iff.mp hrest
    refine ⟨before ++ skipped, x, after, by simp, hx, hadds, fun y hy hpy => ?_⟩
    exact hlater _ (List.mem_map.mpr ⟨y, List.mem_filter.mpr ⟨hy, hpy⟩, rfl⟩)
  · rintro ⟨before, x, after, rfl, hx, hadds, hlater⟩
    refine ⟨(before.filter p).map edit, edit x, (after.filter p).map edit, ?_, hadds, fun e he => ?_⟩
    · rw [List.filter_append, List.filter_cons_of_pos hx, List.map_append, List.map_cons]
    · obtain ⟨y, hy, rfl⟩ := List.mem_map.mp he
      exact hlater y (List.mem_filter.mp hy).1 (List.mem_filter.mp hy).2

end Tagged

end Replay
