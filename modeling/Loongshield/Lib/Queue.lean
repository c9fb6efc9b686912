import Mathlib.Data.Finset.Card
import Mathlib.Data.Set.Finite.Basic
import Mathlib.Tactic.Common

/-!
# Closing a graph under its edges with a queue

The queue only grows: the loop looks at the element of an index, asks for its successors, and appends those that were
never queued. Asking may fail, and the graph is known through the answers only.

- `Inv`, `inv_step`: the invariant of the loop;
- `closes_of_loop`: a queue that the loop returns holds what can be reached, each once, after something it follows from;
- `exists_loop`: where finitely many elements can be reached, the loop ends;
- `loop_ok_iff`: where finitely many elements can be reached, the loop returns iff no answer fails;
- `loop_fold`: loops that compute something on the way.
-/

namespace Queue

universe u v

variable {α : Type u} {ε : Type v} [DecidableEq α]

/-- An element is queued unless it was queued before. -/
def push (queue : List α) (x : α) : List α := if x ∈ queue then queue else queue ++ [x]

/-- Several elements, one after the other. -/
def pushAll (queue xs : List α) : List α := xs.foldl push queue

/-- The loop from an index on; `fuel` bounds the iterations, and without it the loop gives nothing. -/
def loop (next : α → Except ε (List α)) : Nat → Nat → List α → Except ε (Option (List α))
  | 0, _, _ => .ok none
  | fuel + 1, index, queue =>
    match queue[index]? with
    | none => .ok (some queue)
    | some x => do
      let ys ← next x
      loop next fuel (index + 1) (pushAll queue ys)

/-! ## Queueing -/

theorem push_cases (queue : List α) (x : α) :
    (x ∈ queue ∧ push queue x = queue) ∨ (x ∉ queue ∧ push queue x = queue ++ [x]) := by
  unfold push
  split
  · next h => exact .inl ⟨h, rfl⟩
  · next h => exact .inr ⟨h, rfl⟩

@[simp] theorem mem_pushAll {x : α} : ∀ {xs queue : List α}, x ∈ pushAll queue xs ↔ x ∈ queue ∨ x ∈ xs
  | [], queue => by simp [pushAll]
  | y :: xs, queue => by
    rw [pushAll, List.foldl_cons, ← pushAll, mem_pushAll, List.mem_cons]
    rcases push_cases queue y with ⟨hy, heq⟩ | ⟨-, heq⟩ <;> rw [heq]
    · refine ⟨fun h => h.imp_right .inr, fun h => ?_⟩
      rcases h with h | rfl | h
      · exact .inl h
      · exact .inl hy
      · exact .inr h
    · rw [List.mem_append, List.mem_singleton, or_assoc]

theorem prefix_pushAll : ∀ (xs queue : List α), queue <+: pushAll queue xs
  | [], queue => List.prefix_refl queue
  | y :: xs, queue => by
    refine List.IsPrefix.trans ?_ (prefix_pushAll xs (push queue y))
    rcases push_cases queue y with ⟨-, heq⟩ | ⟨-, heq⟩ <;> rw [heq]
    exact List.prefix_append queue [y]

theorem pushAll_nodup : ∀ {xs queue : List α}, queue.Nodup → (pushAll queue xs).Nodup
  | [], _, h => h
  | y :: xs, queue, h => by
    refine @pushAll_nodup xs (push queue y) ?_
    rcases push_cases queue y with ⟨-, heq⟩ | ⟨hy, heq⟩ <;> rw [heq]
    · exact h
    · rw [List.nodup_append]
      refine ⟨h, List.nodup_singleton y, fun a ha b hb hab => ?_⟩
      rw [List.mem_singleton.mp hb] at hab
      exact hy (hab ▸ ha)

/-- What stands behind the old queue is new. -/
theorem pushAll_new {xs queue : List α} {i : Nat} {y : α} (hi : queue.length ≤ i) (hy : (pushAll queue xs)[i]? = some y)
    (hq : queue.Nodup) : y ∈ xs := by
  obtain ⟨rest, hrest⟩ := prefix_pushAll xs queue
  have hmem : y ∈ rest := by
    rw [← hrest, List.getElem?_append_right hi] at hy
    exact List.mem_of_getElem? hy
  have hnodup : (queue ++ rest).Nodup := hrest ▸ pushAll_nodup hq
  refine (mem_pushAll.mp (hrest ▸ List.mem_append_right queue hmem)).resolve_left fun hold => ?_
  exact (List.nodup_append.mp hnodup).2.2 y hold y hmem rfl

/-! ## What the loop keeps -/

variable {next : α → Except ε (List α)} {roots queue : List α} {index : Nat}

/-- An element that is given as a successor of another one. -/
def Follows (next : α → Except ε (List α)) (x y : α) : Prop := ∃ ys, next x = .ok ys ∧ y ∈ ys

/-- What can be reached from the roots. -/
inductive Reach (next : α → Except ε (List α)) (roots : List α) : α → Prop
  | root {x : α} : x ∈ roots → Reach next roots x
  | step {x y : α} : Reach next roots x → Follows next x y → Reach next roots y

/-- What the loop keeps: the queue begins with the roots and has nothing twice, its elements were reached, each later
one follows from one before the index, and the successors of what stands before the index are queued. -/
structure Inv (next : α → Except ε (List α)) (roots : List α) (index : Nat) (queue : List α) : Prop where
  begins : roots <+: queue
  nodup : queue.Nodup
  reached : ∀ x ∈ queue, Reach next roots x
  earlier : ∀ (i : Nat) (y : α), queue[i]? = some y → y ∈ roots ∨
    ∃ (j : Nat) (x : α), j < i ∧ j < index ∧ queue[j]? = some x ∧ Follows next x y
  closed : ∀ i x, i < index → queue[i]? = some x → ∃ ys, next x = .ok ys ∧ ∀ y ∈ ys, y ∈ queue

omit [DecidableEq α] in

theorem inv_init (h : roots.Nodup) : Inv next roots 0 roots where
  begins := List.prefix_refl roots
  nodup := h
  reached _ hx := .root hx
  earlier _ _ hy := .inl (List.mem_of_getElem? hy)
  closed _ _ hi := absurd hi (Nat.not_lt_zero _)

omit [DecidableEq α] in

theorem getElem?_extended {a b : List α} (h : a <+: b) {i : Nat} {x : α} (hx : a[i]? = some x) : b[i]? = some x := by
  obtain ⟨rest, rfl⟩ := h
  rw [List.getElem?_append_left (List.getElem?_eq_some_iff.mp hx).1]
  exact hx

theorem getElem?_pushAll {ys : List α} {i : Nat} (hi : i < queue.length) : (pushAll queue ys)[i]? = queue[i]? := by
  obtain ⟨rest, hrest⟩ := prefix_pushAll ys queue
  rw [← hrest, List.getElem?_append_left hi]

/-- **An iteration keeps the invariant.** -/
theorem inv_step {x : α} {ys : List α} (h : Inv next roots index queue) (hx : queue[index]? = some x)
    (hys : next x = .ok ys) : Inv next roots (index + 1) (pushAll queue ys) := by
  have hindex : index < queue.length := (List.getElem?_eq_some_iff.mp hx).1
  have hpre := prefix_pushAll ys queue
  refine ⟨h.begins.trans hpre, pushAll_nodup h.nodup, fun y hy => ?_, fun i y hy => ?_, fun i y hi hy => ?_⟩
  · rcases mem_pushAll.mp hy with hy | hy
    · exact h.reached y hy
    · exact .step (h.reached x (List.mem_of_getElem? hx)) ⟨ys, hys, hy⟩
  · by_cases hi : i < queue.length
    · rw [getElem?_pushAll hi] at hy
      rcases h.earlier i y hy with hroot | ⟨j, z, hji, hj, hz, hzy⟩
      · exact .inl hroot
      · exact .inr ⟨j, z, hji, by omega, getElem?_extended hpre hz, hzy⟩
    · have hnew := pushAll_new (by omega) hy h.nodup
      exact .inr ⟨index, x, by omega, by omega, getElem?_extended hpre hx, ys, hys, hnew⟩
  · rw [getElem?_pushAll (by omega)] at hy
    by_cases hlt : i < index
    · obtain ⟨zs, hzs, hmem⟩ := h.closed i y hlt hy
      exact ⟨zs, hzs, fun z hz => mem_pushAll.mpr (.inl (hmem z hz))⟩
    · obtain rfl : i = index := by omega
      rw [hx] at hy
      cases hy
      exact ⟨ys, hys, fun z hz => mem_pushAll.mpr (.inr hz)⟩

/-- What a queue that is returned is: closed under successors, without repetition, and in an order in which everything
but a root comes after something it follows from. -/
structure Closes (next : α → Except ε (List α)) (roots queue : List α) : Prop where
  nodup : queue.Nodup
  mem_iff : ∀ x, x ∈ queue ↔ Reach next roots x
  earlier : ∀ (i : Nat) (y : α), queue[i]? = some y → y ∈ roots ∨
    ∃ (j : Nat) (x : α), j < i ∧ queue[j]? = some x ∧ Follows next x y
  answers : ∀ x ∈ queue, ∃ ys, next x = .ok ys

omit [DecidableEq α] in

theorem Inv.closes (h : Inv next roots index queue) (hend : queue[index]? = none) : Closes next roots queue := by
  have hlen : queue.length ≤ index := List.getElem?_eq_none_iff.mp hend
  have hall : ∀ x ∈ queue, ∃ ys, next x = .ok ys ∧ ∀ y ∈ ys, y ∈ queue := by
    intro x hx
    obtain ⟨i, hi, hix⟩ := List.mem_iff_getElem.mp hx
    exact h.closed i x (by omega) (List.getElem?_eq_some_iff.mpr ⟨hi, hix⟩)
  refine ⟨h.nodup, fun x => ⟨h.reached x, fun hreach => ?_⟩, fun i y hy => ?_, fun x hx => ?_⟩
  · induction hreach with
    | root hroot => exact h.begins.subset hroot
    | step _ hfollows ih =>
      obtain ⟨ys, hys, hmem⟩ := hall _ ih
      obtain ⟨zs, hzs, hz⟩ := hfollows
      rw [hys] at hzs
      cases hzs
      exact hmem _ hz
  · rcases h.earlier i y hy with hroot | ⟨j, x, hji, -, hx, hxy⟩
    · exact .inl hroot
    · exact .inr ⟨j, x, hji, hx, hxy⟩
  · obtain ⟨ys, hys, -⟩ := hall x hx
    exact ⟨ys, hys⟩

/-! ## Runs -/

theorem loop_succ {fuel : Nat} {x : α} (hx : queue[index]? = some x) :
    loop next (fuel + 1) index queue = next x >>= fun ys => loop next fuel (index + 1) (pushAll queue ys) := by
  rw [loop, hx]

/-- **What the loop returns is closed**, from every state with the invariant. -/
theorem closes_of_loop : ∀ {fuel index : Nat} {queue queue' : List α}, Inv next roots index queue →
    loop next fuel index queue = .ok (some queue') → Closes next roots queue'
  | 0, _, _, _, _, hloop => by cases hloop
  | fuel + 1, index, queue, queue', h, hloop => by
    cases hx : queue[index]? with
    | none =>
      rw [loop, hx] at hloop
      cases hloop
      exact h.closes hx
    | some x =>
      rw [loop_succ hx] at hloop
      cases hys : next x with
      | error e =>
        rw [hys] at hloop
        cases hloop
      | ok ys =>
        rw [hys] at hloop
        exact closes_of_loop (inv_step h hx hys) hloop

/-- What is returned begins with the queue the loop was started on. -/
theorem prefix_of_loop : ∀ {fuel index : Nat} {queue queue' : List α}, loop next fuel index queue = .ok (some queue') →
    queue <+: queue'
  | 0, _, _, _, hloop => by cases hloop
  | fuel + 1, index, queue, queue', hloop => by
    cases hx : queue[index]? with
    | none =>
      rw [loop, hx] at hloop
      cases hloop
      exact List.prefix_refl queue
    | some x =>
      rw [loop_succ hx] at hloop
      cases hys : next x with
      | error e =>
        rw [hys] at hloop
        cases hloop
      | ok ys =>
        rw [hys] at hloop
        exact (prefix_pushAll ys queue).trans (prefix_of_loop hloop)

/-- A queue with the invariant is no longer than the list of what can be reached. -/
theorem Inv.length_le (h : Inv next roots index queue) (hfin : {x | Reach next roots x}.Finite) :
    queue.length ≤ hfin.toFinset.card := by
  rw [← List.toFinset_card_of_nodup h.nodup]
  refine Finset.card_le_card fun x hx => ?_
  rw [Set.Finite.mem_toFinset]
  exact h.reached x (List.mem_toFinset.mp hx)

/-- **The loop ends**: every iteration consumes an element of the queue. It returns if no answer fails. -/
theorem loop_ends (hfin : {x | Reach next roots x}.Finite) : ∀ {n index : Nat} {queue : List α},
    Inv next roots index queue → index ≤ queue.length → hfin.toFinset.card < index + n →
    ∃ r, r ≠ .ok none ∧ (∀ fuel, n ≤ fuel → loop next fuel index queue = r) ∧
      ((∀ x, Reach next roots x → ∃ ys, next x = .ok ys) → ∃ queue', r = .ok (some queue')) := by
  intro n
  induction n with
  | zero =>
    intro index queue h hle hn
    have hlen := h.length_le hfin
    omega
  | succ n ih =>
    intro index queue h hle hn
    cases hx : queue[index]? with
    | none =>
      refine ⟨.ok (some queue), by simp, fun fuel hfuel => ?_, fun _ => ⟨queue, rfl⟩⟩
      obtain ⟨fuel, rfl⟩ : ∃ m, fuel = m + 1 := ⟨fuel - 1, by omega⟩
      rw [loop, hx]
    | some x =>
      cases hys : next x with
      | error e =>
        refine ⟨.error e, by simp, fun fuel hfuel => ?_, fun hok => ?_⟩
        · obtain ⟨fuel, rfl⟩ : ∃ m, fuel = m + 1 := ⟨fuel - 1, by omega⟩
          rw [loop_succ hx, hys]
          rfl
        · obtain ⟨ys, hys'⟩ := hok x (h.reached x (List.mem_of_getElem? hx))
          rw [hys] at hys'
          cases hys'
      | ok ys =>
        have hlt : index < queue.length := (List.getElem?_eq_some_iff.mp hx).1
        have hle' := (prefix_pushAll ys queue).length_le
        obtain ⟨r, hr, hrun, hok⟩ := ih (inv_step h hx hys) (by omega) (by omega)
        refine ⟨r, hr, fun fuel hfuel => ?_, hok⟩
        obtain ⟨fuel, rfl⟩ : ∃ m, fuel = m + 1 := ⟨fuel - 1, by omega⟩
        rw [loop_succ hx, hys]
        exact hrun fuel (by omega)

/-- From the roots on. -/
theorem exists_loop (hroots : roots.Nodup) (hfin : {x | Reach next roots x}.Finite) : ∃ fuel₀ r, r ≠ .ok none ∧
    (∀ fuel, fuel₀ ≤ fuel → loop next fuel 0 roots = r) ∧
      ((∀ x, Reach next roots x → ∃ ys, next x = .ok ys) → ∃ queue, r = .ok (some queue)) :=
  ⟨hfin.toFinset.card + 1, loop_ends hfin (inv_init hroots) (Nat.zero_le _) (by omega)⟩

/-- **The loop returns iff no answer fails**, where finitely many elements can be reached. -/
theorem loop_ok_iff (hroots : roots.Nodup) (hfin : {x | Reach next roots x}.Finite) :
    (∃ fuel₀ queue, ∀ fuel, fuel₀ ≤ fuel → loop next fuel 0 roots = .ok (some queue)) ↔
      ∀ x, Reach next roots x → ∃ ys, next x = .ok ys := by
  constructor
  · rintro ⟨fuel₀, queue, hloop⟩ x hx
    have hcloses := closes_of_loop (inv_init hroots) (hloop fuel₀ (Nat.le_refl fuel₀))
    exact hcloses.answers x ((hcloses.mem_iff x).mpr hx)
  · intro hok
    obtain ⟨fuel₀, r, -, hrun, hreturns⟩ := exists_loop hroots hfin
    obtain ⟨queue, rfl⟩ := hreturns hok
    exact ⟨fuel₀, queue, hrun⟩

/-! ## Loops that compute something on the way -/

omit [DecidableEq α] in

/-- In terms of the list: what is no root comes after something it follows from. -/
theorem Closes.before (h : Closes next roots queue) {before after : List α} {y : α}
    (heq : queue = before ++ y :: after) :
    y ∈ roots ∨ ∃ x ∈ before, Follows next x y := by
  have hy : queue[before.length]? = some y := by rw [heq, List.getElem?_append_right (Nat.le_refl _)]; simp
  rcases h.earlier _ _ hy with hroot | ⟨j, x, hj, hx, hxy⟩
  · exact .inl hroot
  · refine .inr ⟨x, ?_, hxy⟩
    rw [heq, List.getElem?_append_left hj] at hx
    exact List.mem_of_getElem? hx

/-- **A loop with an accumulator** computes the same queue, and folds the elements from the index on. -/
theorem loop_fold {β : Type u} {visit : β → α → β} {f : Nat → Nat → List α → β → Except ε (Option β)}
    (hzero : ∀ index queue b, f 0 index queue b = .ok none)
    (hend : ∀ fuel index queue b, queue[index]? = none → f (fuel + 1) index queue b = .ok (some b))
    (hstep : ∀ fuel index queue b x, queue[index]? = some x →
      f (fuel + 1) index queue b = next x >>= fun ys => f fuel (index + 1) (pushAll queue ys) (visit b x)) :
    ∀ (fuel index : Nat) (queue : List α) (b : β), f fuel index queue b =
      (loop next fuel index queue).map (Option.map fun queue' => (queue'.drop index).foldl visit b)
  | 0, index, queue, b => by rw [hzero, loop]; rfl
  | fuel + 1, index, queue, b => by
    cases hx : queue[index]? with
    | none =>
      rw [hend _ _ _ _ hx, loop, hx]
      simp only [Except.map, Option.map_some]
      rw [List.drop_eq_nil_of_le (List.getElem?_eq_none_iff.mp hx), List.foldl_nil]
    | some x =>
      rw [hstep _ _ _ _ _ hx, loop_succ hx]
      cases hys : next x with
      | error e => rfl
      | ok ys =>
        change f fuel (index + 1) (pushAll queue ys) (visit b x) =
          (loop next fuel (index + 1) (pushAll queue ys)).map _
        rw [loop_fold hzero hend hstep]
        cases hloop : loop next fuel (index + 1) (pushAll queue ys) with
        | error e => rfl
        | ok r =>
          cases r with
          | none => rfl
          | some queue' =>
            have hx' : queue'[index]? = some x :=
              getElem?_extended ((prefix_pushAll ys queue).trans (prefix_of_loop hloop)) hx
            obtain ⟨hlt, hget⟩ := List.getElem?_eq_some_iff.mp hx'
            simp only [Except.map, Option.map_some]
            rw [List.drop_eq_getElem_cons hlt, List.foldl_cons, hget]

/-- What several questions give, one after the other. -/
def askAll {γ : Type u} (ask : γ → Except ε (List α)) : List γ → Except ε (List α)
  | [] => .ok []
  | c :: cs => do
    let ys ← ask c
    return ys ++ (← askAll ask cs)

omit [DecidableEq α] in

theorem mem_askAll {γ : Type u} {ask : γ → Except ε (List α)} {y : α} : ∀ {cs : List γ} {ys : List α},
    askAll ask cs = .ok ys → y ∈ ys → ∃ c ∈ cs, ∃ zs, ask c = .ok zs ∧ y ∈ zs
  | [], ys, h, hy => by
    cases h
    cases hy
  | c :: cs, ys, h, hy => by
    rw [askAll] at h
    cases hzs : ask c with
    | error e =>
      rw [hzs] at h
      cases h
    | ok zs =>
      cases hrest : askAll ask cs with
      | error e =>
        rw [hzs, hrest] at h
        cases h
      | ok rest =>
        rw [hzs, hrest] at h
        cases h
        rcases List.mem_append.mp hy with hy | hy
        · exact ⟨c, List.mem_cons_self, zs, hzs, hy⟩
        · obtain ⟨c', hc', hask⟩ := mem_askAll hrest hy
          exact ⟨c', List.mem_cons_of_mem c hc', hask⟩

/-- A loop over questions that queues what each gives. -/
theorem foldlM_pushAll {β γ : Type u} {ask : γ → Except ε (List α)} {visit : β → γ → β}
    {f : List α × β → γ → Except ε (List α × β)}
    (hf : ∀ s c, f s c = (ask c).map fun ys => (pushAll s.1 ys, visit s.2 c)) :
      ∀ (cs : List γ) (queue : List α) (b : β),
    cs.foldlM f (queue, b) = (askAll ask cs).map fun ys => (pushAll queue ys, cs.foldl visit b)
  | [], queue, b => rfl
  | c :: cs, queue, b => by
    rw [List.foldlM_cons, hf, askAll]
    cases ask c with
    | error e => rfl
    | ok ys =>
      change cs.foldlM f (pushAll queue ys, visit b c) = _
      rw [foldlM_pushAll hf cs]
      cases askAll ask cs with
      | error e => rfl
      | ok rest => exact congrArg Except.ok (Prod.ext List.foldl_append.symm rfl)

end Queue
