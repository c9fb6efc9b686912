import Mathlib.Logic.Function.Iterate
import Mathlib.Logic.Relation
import Mathlib.Tactic.Common

/-!
# Closing a graph under its edges with a stack

A graph is a table of nodes with their successors. The loop pops a node; a node that is new and stands in the table is
marked as seen, and its successors are pushed. The same node may lie on the stack many times, and the graph may have
cycles.

- `work_step_lt`: an iteration does work, so the loop ends (`run`), after as many iterations (`run_eq_iterate`);
- `run_inv`: the invariant rule;
- `mem_closure_iff`: the nodes seen from a start are the nodes of the table that can be reached from it.
-/

namespace Worklist

variable {α : Type*} [BEq α]

/-- The state of the loop: the stack, its top first, and the nodes seen. -/
structure State (α : Type*) where
  stack : List α
  seen : List α

/-- An iteration of the loop. -/
def step (table : List (α × List α)) : State α → State α
  | ⟨[], seen⟩ => ⟨[], seen⟩
  | ⟨x :: stack, seen⟩ =>
    if seen.contains x then ⟨stack, seen⟩
    else match table.lookup x with
      | none => ⟨stack, seen⟩
      | some next => ⟨next.reverse ++ stack, x :: seen⟩

/-- What an iteration does, case by case. -/
theorem step_cases [LawfulBEq α] (table : List (α × List α)) (x : α) (stack seen : List α) :
    (step table ⟨x :: stack, seen⟩ = ⟨stack, seen⟩ ∧ (x ∈ seen ∨ table.lookup x = none)) ∨
      ∃ next, step table ⟨x :: stack, seen⟩ = ⟨next.reverse ++ stack, x :: seen⟩ ∧ x ∉ seen ∧
        table.lookup x = some next := by
  by_cases hx : x ∈ seen
  · exact .inl ⟨by simp [step, hx], .inl hx⟩
  · cases hl : table.lookup x with
    | none => exact .inl ⟨by simp [step, hx, hl], .inr rfl⟩
    | some next => exact .inr ⟨next, by simp [step, hx, hl], hx, rfl⟩

/-! ## The loop ends -/

/-- The nodes that were not seen, with the pushes they can still cause. -/
def pending : List (α × List α) → List α → Nat
  | [], _ => 0
  | (y, next) :: table, seen => (if seen.contains y then 0 else next.length + 1) + pending table seen

/-- The work that is left. -/
def work (table : List (α × List α)) (s : State α) : Nat := pending table s.seen + s.stack.length

theorem pending_cons_le [LawfulBEq α] (x : α) (seen : List α) : ∀ table : List (α × List α),
    pending table (x :: seen) ≤ pending table seen
  | [] => Nat.le_refl 0
  | (y, next) :: table => by
    have ih := pending_cons_le x seen table
    unfold pending
    by_cases hs : seen.contains y = true
    · rw [if_pos hs, if_pos (by simp_all)]
      omega
    · rw [if_neg hs]
      split <;> omega

/-- Seeing a node pays for its successors. -/
theorem pending_visit [LawfulBEq α] {x : α} {next seen : List α} (hx : x ∉ seen) : ∀ {t : List (α × List α)},
    t.lookup x = some next → pending t (x :: seen) + next.length + 1 ≤ pending t seen
  | (y, next') :: table, hl => by
    have hle := pending_cons_le x seen table
    rw [List.lookup_cons] at hl
    unfold pending
    by_cases hy : x = y
    · subst hy
      have hnext : next' = next := by simpa using hl
      rw [if_pos (by simp), if_neg (by simpa using hx), hnext]
      omega
    · have ih := pending_visit hx (t := table) (by simpa [beq_eq_false_iff_ne.mpr hy] using hl)
      by_cases hs : seen.contains y = true
      · rw [if_pos hs, if_pos (by simp_all)]
        omega
      · rw [if_neg hs]
        split <;> omega

/-- **An iteration does work.** -/
theorem work_step_lt [LawfulBEq α] (table : List (α × List α)) {s : State α} (h : s.stack ≠ []) :
    work table (step table s) < work table s := by
  obtain ⟨_ | ⟨x, stack⟩, seen⟩ := s
  · exact absurd rfl h
  · rcases step_cases table x stack seen with ⟨hstep, -⟩ | ⟨next, hstep, hx, hl⟩
    · rw [hstep]
      simp [work]
    · have hvisit := pending_visit hx hl
      rw [hstep]
      simp only [work, List.length_append, List.length_reverse, List.length_cons]
      omega

/-- The loop: iterations until the stack is empty. -/
def run [LawfulBEq α] (table : List (α × List α)) (s : State α) : State α :=
  if _h : s.stack = [] then s else run table (step table s)
termination_by work table s
decreasing_by exact work_step_lt table _h

section Run

variable [LawfulBEq α]

/-- **The invariant rule**: what every iteration keeps, the loop keeps. -/
theorem run_inv {table : List (α × List α)} {I : State α → Prop} (hstep : ∀ s, I s → I (step table s)) (s : State α)
    (hs : I s) : I (run table s) := by
  fun_induction run table s with
  | case1 s h => exact hs
  | case2 s h ih => exact ih (hstep s hs)

/-- The loop ends with an empty stack. -/
theorem run_stack (table : List (α × List α)) (s : State α) : (run table s).stack = [] := by
  fun_induction run table s with
  | case1 s h => exact h
  | case2 s h ih => exact ih

/-- **The loop ends**, after no more iterations than there is work. -/
theorem run_eq_iterate (table : List (α × List α)) (s : State α) :
    ∃ n ≤ work table s, run table s = (step table)^[n] s := by
  fun_induction run table s with
  | case1 s h => exact ⟨0, by omega, rfl⟩
  | case2 s h ih =>
    obtain ⟨n, hn, heq⟩ := ih
    have hlt := work_step_lt table h
    exact ⟨n + 1, by omega, by rw [heq, Function.iterate_succ_apply]⟩

/-! ## What the loop computes -/

/-- `y` is a successor of `x`. -/
def Edge (table : List (α × List α)) (x y : α) : Prop := ∃ next, table.lookup x = some next ∧ y ∈ next

/-- The nodes seen by the loop from `x`. -/
def closure (table : List (α × List α)) (x : α) : List α := (run table ⟨[x], []⟩).seen

/-- What the loop keeps: everything was reached from `x`, what was seen stands in the table, and the start and the
successors of what was seen are on the stack unless they were seen or do not stand in the table. -/
structure Inv (table : List (α × List α)) (x : α) (s : State α) : Prop where
  reached : ∀ y, y ∈ s.stack ∨ y ∈ s.seen → Relation.ReflTransGen (Edge table) x y
  known : ∀ y ∈ s.seen, table.lookup y ≠ none
  start : x ∈ s.stack ∨ x ∈ s.seen ∨ table.lookup x = none
  closed : ∀ y ∈ s.seen, ∀ z, Edge table y z → z ∈ s.stack ∨ z ∈ s.seen ∨ table.lookup z = none

/-- A node that is popped is seen, or does not stand in the table. -/
theorem covered_step {table : List (α × List α)} {s : State α} {y : α}
    (h : y ∈ s.stack ∨ y ∈ s.seen ∨ table.lookup y = none) :
    y ∈ (step table s).stack ∨ y ∈ (step table s).seen ∨ table.lookup y = none := by
  obtain ⟨_ | ⟨x, stack⟩, seen⟩ := s
  · exact h
  · rcases step_cases table x stack seen with ⟨hstep, hx⟩ | ⟨next, hstep, -, -⟩
    · rw [hstep]
      rcases h with h | h
      · rcases List.mem_cons.mp h with rfl | h
        · exact .inr hx
        · exact .inl h
      · exact .inr h
    · rw [hstep]
      simp only [List.mem_cons, List.mem_append] at h ⊢
      tauto

theorem inv_step {table : List (α × List α)} {x : α} (s : State α) (hs : Inv table x s) :
    Inv table x (step table s) := by
  have hstart := covered_step hs.start
  have hclosed : ∀ y ∈ s.seen, ∀ z, Edge table y z →
      z ∈ (step table s).stack ∨ z ∈ (step table s).seen ∨ table.lookup z = none :=
    fun y hy z hyz => covered_step (hs.closed y hy z hyz)
  obtain ⟨_ | ⟨y, stack⟩, seen⟩ := s
  · exact hs
  · rcases step_cases table y stack seen with ⟨hstep, -⟩ | ⟨next, hstep, -, hl⟩
    · rw [hstep] at hstart hclosed ⊢
      refine ⟨fun z hz => hs.reached z ?_, hs.known, hstart, hclosed⟩
      rcases hz with hz | hz
      · exact .inl (List.mem_cons_of_mem _ hz)
      · exact .inr hz
    · rw [hstep] at hstart hclosed ⊢
      have hy := hs.reached y (.inl List.mem_cons_self)
      refine ⟨fun z hz => ?_, fun z hz => ?_, hstart, fun z hz u hzu => ?_⟩
      · simp only [List.mem_append, List.mem_reverse, List.mem_cons] at hz
        rcases hz with (hz | hz) | rfl | hz
        · exact hy.tail ⟨next, hl, hz⟩
        · exact hs.reached z (.inl (List.mem_cons_of_mem _ hz))
        · exact hy
        · exact hs.reached z (.inr hz)
      · rcases List.mem_cons.mp hz with rfl | hz
        · rw [hl]
          exact Option.some_ne_none next
        · exact hs.known z hz
      · rcases List.mem_cons.mp hz with rfl | hz
        · obtain ⟨next', hl', hu⟩ := hzu
          rw [hl] at hl'
          cases hl'
          exact .inl (by simp [hu])
        · exact hclosed z hz u hzu

/-- **The loop computes reachability.** -/
theorem mem_closure_iff {table : List (α × List α)} {x y : α} :
    y ∈ closure table x ↔ Relation.ReflTransGen (Edge table) x y ∧ table.lookup y ≠ none := by
  have hinit : Inv table x ⟨[x], []⟩ := by
    refine ⟨fun z hz => ?_, nofun, .inl List.mem_cons_self, nofun⟩
    rcases hz with hz | hz
    · rw [List.mem_singleton.mp hz]
    · cases hz
  have hinv := run_inv inv_step _ hinit
  have hstack := run_stack table ⟨[x], []⟩
  have hcovered : ∀ {z}, z ∈ (run table ⟨[x], []⟩).stack ∨ z ∈ (run table ⟨[x], []⟩).seen ∨ table.lookup z = none →
      table.lookup z ≠ none → z ∈ closure table x := by
    intro z hz hl
    rw [hstack] at hz
    rcases hz with hz | hz | hz
    · cases hz
    · exact hz
    · exact absurd hz hl
  refine ⟨fun hy => ⟨hinv.reached y (.inr hy), hinv.known y hy⟩, fun h => ?_⟩
  obtain ⟨hr, hy⟩ := h
  induction hr with
  | refl => exact hcovered hinv.start hy
  | @tail z u hz hzu ih =>
    obtain ⟨next, hl, -⟩ := id hzu
    have hseen := ih (by rw [hl]; exact Option.some_ne_none next)
    exact hcovered (hinv.closed z hseen u hzu) hy

end Run

end Worklist
