import Loongshield.Lua.Match

/-!
# Matching on the rest of the text

`doMatch` works with positions in a fixed text. For patterns of single characters, captures and the end (`Simple`) the
same matcher is given here on what is left of the text, by recursion on lists.

- `matchRest`: the matcher; `longest` and `shortest` are the two kinds of repetition;
- `doMatch_eq`: it does what `doMatch` does;
- `strMatch_anchored`, `strMatch_search`: `string.match` in terms of it.
-/

namespace Lua
namespace Pattern

/-! ## The matcher -/

/-- A capture: the rest of the text where it begins, and its length once it is closed. -/
structure Seg where
  rest : Str
  len : Option Nat
  deriving DecidableEq

/-- Closes the last open capture where `rest` is left. -/
def closeSeg (rest : Str) : List Seg → Option (List Seg)
  | [] => none
  | seg :: segs => match closeSeg rest segs with
    | some segs' => some (seg :: segs')
    | none => match seg.len with
      | none => some (⟨seg.rest, some (seg.rest.length - rest.length)⟩ :: segs)
      | some _ => none

/-- Greedy repetition: as many characters of the class as the continuation allows. -/
def longest {β : Type} (c : Single) (k : Str → Option β) : Str → Option β
  | [] => k []
  | x :: r => if c.test x then (longest c k r).or (k (x :: r)) else k (x :: r)

/-- Lazy repetition: as few characters of the class as the continuation allows. -/
def shortest {β : Type} (c : Single) (k : Str → Option β) : Str → Option β
  | [] => k []
  | x :: r => (k (x :: r)).or (if c.test x then shortest c k r else none)

/-- The items against the rest of the text. -/
def matchRest : List Item → Str → List Seg → Option (Str × List Seg)
  | [], rest, segs => some (rest, segs)
  | .atEnd :: _, rest, segs => if rest = [] then some (rest, segs) else none
  | .capOpen :: is, rest, segs => matchRest is rest (segs ++ [⟨rest, none⟩])
  | .capClose :: is, rest, segs => match closeSeg rest segs with
    | some segs => matchRest is rest segs
    | none => none
  | .single c .one :: is, x :: rest, segs => if c.test x then matchRest is rest segs else none
  | .single _ .one :: _, [], _ => none
  | .single c .opt :: is, x :: rest, segs =>
    if c.test x then (matchRest is rest segs).or (matchRest is (x :: rest) segs) else matchRest is (x :: rest) segs
  | .single _ .opt :: is, [], segs => matchRest is [] segs
  | .single c .star :: is, rest, segs => longest c (fun r => matchRest is r segs) rest
  | .single c .plus :: is, x :: rest, segs => if c.test x then longest c (fun r => matchRest is r segs) rest else none
  | .single _ .plus :: _, [], _ => none
  | .single c .minus :: is, rest, segs => shortest c (fun r => matchRest is r segs) rest
  | _ :: _, _, _ => none

attribute [local simp] matchRest

/-- The patterns this is for: no items but single characters, captures and the end; `n` captures are open, and `m` are
there. -/
def Simple : Nat → Nat → List Item → Bool
  | n, _, [] => n == 0
  | n, _, .atEnd :: _ => n == 0
  | n, m, .capOpen :: is => m < 32 && Simple (n + 1) (m + 1) is
  | n, m, .capClose :: is => 0 < n && Simple (n - 1) m is
  | n, m, .single _ _ :: is => Simple n m is
  | _, _, _ => false

/-! ## It does what `doMatch` does -/

/-- A capture in a text of `n` characters. -/
def Seg.cap (n : Nat) (seg : Seg) : Capture :=
  match seg.len with
  | none => .opened (n - seg.rest.length)
  | some len => .closed (n - seg.rest.length) len

/-- The captures that are open. -/
def openSegs (segs : List Seg) : Nat := (segs.filter fun seg => seg.len.isNone).length

/-- The result in a text of `n` characters. -/
def resOf (n : Nat) (r : Option (Str × List Seg)) : Res := .ok (r.map fun p => (n - p.1.length, p.2.map (Seg.cap n)))

theorem resOf_or (n : Nat) (a b : Option (Str × List Seg)) :
    resOf n (a.or b) = match resOf n a with | .ok none => resOf n b | r => r := by
  cases a <;> rfl

theorem maxExpand_succ (k : Nat → Res) (s : Nat) : ∀ n : Nat,
    maxExpand k s (n + 1) = match maxExpand k (s + 1) n with | .ok none => k s | r => r
  | 0 => rfl
  | n + 1 => by
    have hpos : s + (n + 1 + 1) = s + 1 + (n + 1) := by omega
    rw [maxExpand, maxExpand_succ k s n, hpos]
    conv_rhs => rw [maxExpand]
    generalize k (s + 1 + (n + 1)) = r
    cases r with
    | error e => rfl
    | ok r => cases r <;> rfl

section Equal

variable {src : Str} {c : Single} {k : Nat → Res} {k' : Str → Option (Str × List Seg)}

theorem length_of_cons_suffix {x : Char} {rest : Str} (h : x :: rest <:+ src) :
    src.length - rest.length = src.length - (x :: rest).length + 1 := by
  have hle := h.length_le
  rw [List.length_cons] at hle ⊢
  omega

theorem maxExpand_eq : ∀ {rest : Str}, rest <:+ src →
    (∀ r, r <:+ rest → k (src.length - r.length) = resOf src.length (k' r)) →
      maxExpand k (src.length - rest.length) (rest.takeWhile c.test).length = resOf src.length (longest c k' rest)
  | [], _, hk => hk [] List.suffix_rfl
  | x :: rest, hsuf, hk => by
    have hsuf' : rest <:+ src := (List.suffix_cons x rest).trans hsuf
    have ih := maxExpand_eq hsuf' fun r hr => hk r (hr.trans (List.suffix_cons x rest))
    unfold longest
    by_cases hx : c.test x = true
    · have hrun : ((x :: rest).takeWhile c.test).length = (rest.takeWhile c.test).length + 1 := by
        rw [List.takeWhile_cons_of_pos hx, List.length_cons]
      rw [hrun, maxExpand_succ, if_pos hx, resOf_or, ← ih, ← length_of_cons_suffix hsuf, hk (x :: rest) List.suffix_rfl]
    · rw [List.takeWhile_cons_of_neg hx, if_neg hx]
      exact hk (x :: rest) List.suffix_rfl

theorem minExpand_eq : ∀ {rest : Str}, rest <:+ src →
    (∀ r, r <:+ rest → k (src.length - r.length) = resOf src.length (k' r)) →
      minExpand k (src.length - rest.length) (rest.takeWhile c.test).length = resOf src.length (shortest c k' rest)
  | [], _, hk => hk [] List.suffix_rfl
  | x :: rest, hsuf, hk => by
    have hsuf' : rest <:+ src := (List.suffix_cons x rest).trans hsuf
    have ih := minExpand_eq hsuf' fun r hr => hk r (hr.trans (List.suffix_cons x rest))
    have hhere := hk (x :: rest) List.suffix_rfl
    unfold shortest
    by_cases hx : c.test x = true
    · have hrun : ((x :: rest).takeWhile c.test).length = (rest.takeWhile c.test).length + 1 := by
        rw [List.takeWhile_cons_of_pos hx, List.length_cons]
      rw [hrun, minExpand, if_pos hx, resOf_or, ← ih, length_of_cons_suffix hsuf]
      exact hhere ▸ rfl
    · rw [List.takeWhile_cons_of_neg hx, if_neg hx, Option.or_none]
      exact hhere

/-- The captures begin in the text, before what is left of it. -/
def Within (src rest : Str) (segs : List Seg) : Prop :=
  ∀ seg ∈ segs, rest.length ≤ seg.rest.length ∧ seg.rest <:+ src

theorem Within.shorter {rest r : Str} {segs : List Seg} (h : Within src rest segs) (hr : r <:+ rest) :
    Within src r segs :=
  fun seg hseg => ⟨Nat.le_trans hr.length_le (h seg hseg).1, (h seg hseg).2⟩

theorem closeLast_eq {rest : Str} : ∀ {segs : List Seg}, Within src rest segs →
    closeLast (src.length - rest.length) (segs.map (Seg.cap src.length)) =
      (closeSeg rest segs).map (List.map (Seg.cap src.length))
  | [], _ => rfl
  | ⟨start, len⟩ :: segs, h => by
    have ih := closeLast_eq fun s hs => h s (List.mem_cons_of_mem _ hs)
    rw [List.map_cons]
    cases len with
    | some len =>
      simp only [Seg.cap, closeLast, closeSeg, ih]
      cases closeSeg rest segs <;> rfl
    | none =>
      have hle := (h ⟨start, none⟩ List.mem_cons_self).1
      have hsrc := (h ⟨start, none⟩ List.mem_cons_self).2.length_le
      have hlen : src.length - rest.length - (src.length - start.length) = start.length - rest.length := by
        dsimp only at hle hsrc
        omega
      simp only [Seg.cap, closeLast, closeSeg, ih]
      cases closeSeg rest segs with
      | some segs' => rfl
      | none => simp only [Option.map_none, Option.map_some, List.map_cons, Seg.cap, hlen]

/-- Closing a capture: one fewer is open, and they begin where they did. -/
theorem closeSeg_spec {rest : Str} : ∀ {segs : List Seg}, 0 < openSegs segs → ∃ segs', closeSeg rest segs = some segs' ∧
    openSegs segs' = openSegs segs - 1 ∧ segs'.length = segs.length ∧
      segs'.map Seg.rest = segs.map Seg.rest
  | [], h => absurd h (by simp [openSegs])
  | ⟨start, len⟩ :: segs, h => by
    by_cases hrest : 0 < openSegs segs
    · obtain ⟨segs', hclose, hopen, hlen, hrests⟩ := @closeSeg_spec rest segs hrest
      refine ⟨⟨start, len⟩ :: segs', by rw [closeSeg, hclose], ?_, by rw [List.length_cons, hlen]; rfl,
        by rw [List.map_cons, hrests]; rfl⟩
      unfold openSegs at *
      rw [List.filter_cons, List.filter_cons]
      split
      · rw [List.length_cons, List.length_cons]
        omega
      · exact hopen
    · have hzero : openSegs segs = 0 := by omega
      have hnone : closeSeg rest segs = none := by
        have hall : ∀ segs : List Seg, openSegs segs = 0 → closeSeg rest segs = none := by
          intro segs
          induction segs with
          | nil => exact fun _ => rfl
          | cons seg segs ih =>
            intro h
            obtain ⟨start, len⟩ := seg
            cases len with
            | none => exact absurd h (by simp [openSegs])
            | some len => rw [closeSeg, ih (by simpa [openSegs] using h)]
        exact hall segs hzero
      cases len with
      | some len => exact absurd h (by simpa [openSegs] using hzero)
      | none =>
        refine ⟨⟨start, some (start.length - rest.length)⟩ :: segs, by rw [closeSeg, hnone], ?_, rfl, rfl⟩
        simp [openSegs]

/-- The capture opened last is the one that is closed. -/
theorem closeSeg_concat (rest u : Str) : ∀ segs : List Seg,
    closeSeg rest (segs ++ [⟨u, none⟩]) = some (segs ++ [⟨u, some (u.length - rest.length)⟩])
  | [] => rfl
  | seg :: segs => by rw [List.cons_append, closeSeg, closeSeg_concat rest u segs]; rfl

theorem Within.close {rest : Str} {segs segs' : List Seg} (h : Within src rest segs)
    (hrests : segs'.map Seg.rest = segs.map Seg.rest) : Within src rest segs' := by
  intro seg hseg
  have hmem := List.mem_map_of_mem (f := Seg.rest) hseg
  rw [hrests] at hmem
  obtain ⟨seg', hseg', heq⟩ := List.mem_map.mp hmem
  rw [← heq]
  exact h seg' hseg'

theorem Within.opened {rest : Str} {segs : List Seg} (h : Within src rest segs) (hrest : rest <:+ src) :
    Within src rest (segs ++ [⟨rest, none⟩]) := by
  intro seg hseg
  rcases List.mem_append.mp hseg with hseg | hseg
  · exact h seg hseg
  · rw [List.mem_singleton.mp hseg]
    exact ⟨Nat.le_refl _, hrest⟩

theorem openSegs_opened (segs : List Seg) (rest : Str) : openSegs (segs ++ [⟨rest, none⟩]) = openSegs segs + 1 := by
  simp [openSegs, List.filter_append]

theorem drop_of_suffix {rest : Str} (h : rest <:+ src) : src.drop (src.length - rest.length) = rest :=
  (List.suffix_iff_eq_drop.mp h).symm

theorem runLength_rest {rest : Str} (h : rest <:+ src) :
    runLength src c (src.length - rest.length) = (rest.takeWhile c.test).length := by
  rw [runLength, drop_of_suffix h]

/-- **The matcher on the rest of the text does what the matcher on positions does.** -/
theorem doMatch_eq : ∀ {is : List Item} {rest : Str} {segs : List Seg}, Simple (openSegs segs) segs.length is = true →
    rest <:+ src → Within src rest segs →
      doMatch src is (src.length - rest.length) (segs.map (Seg.cap src.length)) =
        resOf src.length (matchRest is rest segs)
  | [], _, _, _, _, _ => rfl
  | .atEnd :: is, rest, segs, _, hrest, _ => by
    have hend : src.length - rest.length = src.length ↔ rest = [] := by
      have hle := hrest.length_le
      constructor
      · intro h
        by_cases hlen : rest.length = 0
        · exact List.length_eq_zero_iff.mp hlen
        · omega
      · rintro rfl
        rfl
    rw [doMatch, matchRest]
    by_cases hnil : rest = []
    · rw [if_pos (hend.mpr hnil), if_pos hnil]
      rfl
    · rw [if_neg fun h => hnil (hend.mp h), if_neg hnil]
      rfl
  | .capOpen :: is, rest, segs, hs, hrest, hw => by
    rw [Simple, Bool.and_eq_true, decide_eq_true_eq] at hs
    rw [doMatch, matchRest, if_neg (by rw [List.length_map]; omega)]
    have hmap : segs.map (Seg.cap src.length) ++ [.opened (src.length - rest.length)] =
        (segs ++ [Seg.mk rest none]).map (Seg.cap src.length) := by
      rw [List.map_append]
      rfl
    rw [hmap]
    refine doMatch_eq ?_ hrest (hw.opened hrest)
    rw [openSegs_opened, List.length_append]
    exact hs.2
  | .capClose :: is, rest, segs, hs, hrest, hw => by
    rw [Simple, Bool.and_eq_true, decide_eq_true_eq] at hs
    obtain ⟨segs', hclose, hopen, hlen, hrests⟩ := @closeSeg_spec rest segs hs.1
    rw [doMatch, matchRest, closeLast_eq hw, hclose]
    refine doMatch_eq ?_ hrest (hw.close hrests)
    rw [hopen, hlen]
    exact hs.2
  | .single c q :: is, rest, segs, hs, hrest, hw => by
    rw [Simple] at hs
    have ih : ∀ r, r <:+ rest → doMatch src is (src.length - r.length) (segs.map (Seg.cap src.length)) =
        resOf src.length (matchRest is r segs) := fun r hr => doMatch_eq hs (hr.trans hrest) (hw.shorter hr)
    cases q with
    | star =>
      rw [doMatch_single_star, runLength_rest hrest, matchRest]
      exact maxExpand_eq hrest ih
    | minus =>
      rw [doMatch_single_minus, runLength_rest hrest, matchRest]
      exact minExpand_eq hrest ih
    | one =>
      rw [doMatch_single_one, runLength_rest hrest]
      cases rest with
      | nil => rfl
      | cons x rest =>
        rw [matchRest]
        by_cases hx : c.test x = true
        · rw [List.takeWhile_cons_of_pos hx, if_pos hx, if_pos (by simp), ← length_of_cons_suffix hrest]
          exact ih rest (List.suffix_cons x rest)
        · rw [List.takeWhile_cons_of_neg hx, if_neg hx]
          rfl
    | plus =>
      rw [doMatch_single_plus, runLength_rest hrest]
      cases rest with
      | nil => rfl
      | cons x rest =>
        rw [matchRest]
        by_cases hx : c.test x = true
        · rw [List.takeWhile_cons_of_pos hx, if_pos hx, ← length_of_cons_suffix hrest]
          exact maxExpand_eq ((List.suffix_cons x rest).trans hrest) fun r hr =>
            ih r (hr.trans (List.suffix_cons x rest))
        · rw [List.takeWhile_cons_of_neg hx, if_neg hx]
          rfl
    | opt =>
      rw [doMatch, runLength_rest hrest]
      cases rest with
      | nil =>
        rw [matchRest]
        exact ih [] List.suffix_rfl
      | cons x rest =>
        rw [matchRest]
        have hhere := ih (x :: rest) List.suffix_rfl
        by_cases hx : c.test x = true
        · have hrun : 0 < ((x :: rest).takeWhile c.test).length := by simp [List.takeWhile_cons_of_pos hx]
          have hnext := ih rest (List.suffix_cons x rest)
          rw [length_of_cons_suffix hrest] at hnext
          dsimp only
          rw [if_pos hrun, if_pos hx, resOf_or, ← hnext]
          exact hhere ▸ rfl
        · rw [List.takeWhile_cons_of_neg hx, if_neg hx]
          exact hhere
  | .capPos :: _, _, _, hs, _, _ => absurd hs (by simp [Simple])
  | .balance _ _ :: _, _, _, hs, _, _ => absurd hs (by simp [Simple])
  | .frontier _ :: _, _, _, hs, _, _ => absurd hs (by simp [Simple])
  | .backref _ :: _, _, _, hs, _, _ => absurd hs (by simp [Simple])
  | .malformed _ :: _, _, _, hs, _, _ => absurd hs (by simp [Simple])

end Equal

/-! ## The result -/

section Result

variable {c : Single} {β : Type} {k : Str → Option β} {b : β}

/-- A match takes a run of the class and goes on after it. -/
theorem longest_split : ∀ {rest : Str}, longest c k rest = some b →
    ∃ run r, rest = run ++ r ∧ (∀ x ∈ run, c.test x = true) ∧ k r = some b
  | [], h => ⟨[], [], rfl, fun _ hx => absurd hx List.not_mem_nil, h⟩
  | x :: rest, h => by
    have hhere : k (x :: rest) = some b → ∃ run r, x :: rest = run ++ r ∧ (∀ y ∈ run, c.test y = true) ∧ k r = some b :=
      fun hk => ⟨[], x :: rest, rfl, fun _ hy => absurd hy List.not_mem_nil, hk⟩
    unfold longest at h
    split at h
    · next hx =>
      rcases Option.or_eq_some_iff.mp h with h | ⟨-, h⟩
      · obtain ⟨run, r, rfl, hrun, hk⟩ := longest_split h
        refine ⟨x :: run, r, rfl, fun y hy => ?_, hk⟩
        rcases List.mem_cons.mp hy with rfl | hy
        · exact hx
        · exact hrun y hy
      · exact hhere h
    · exact hhere h

theorem longest_some {rest : Str} (h : longest c k rest = some b) : ∃ r, r <:+ rest ∧ k r = some b := by
  obtain ⟨run, r, rfl, -, hk⟩ := longest_split h
  exact ⟨r, List.suffix_append run r, hk⟩

theorem shortest_some : ∀ {rest : Str}, shortest c k rest = some b → ∃ r, r <:+ rest ∧ k r = some b
  | [], h => ⟨[], List.suffix_rfl, h⟩
  | x :: rest, h => by
    unfold shortest at h
    rcases Option.or_eq_some_iff.mp h with h | ⟨-, h⟩
    · exact ⟨_, List.suffix_rfl, h⟩
    · split at h
      · obtain ⟨r, hr, hk⟩ := shortest_some h
        exact ⟨r, hr.trans (List.suffix_cons x rest), hk⟩
      · cases h

/-- The whole run, if the continuation matches after it. -/
theorem longest_run {rest : Str} (hhead : ∀ x, rest.head? = some x → c.test x = false) (hrest : k rest = some b) :
    ∀ {run : Str}, (∀ x ∈ run, c.test x = true) → longest c k (run ++ rest) = some b
  | [], _ => by
    cases rest with
    | nil => exact hrest
    | cons x rest =>
      have hx := hhead x rfl
      rw [List.nil_append, longest, if_neg (by rw [hx]; exact Bool.false_ne_true), hrest]
  | x :: run, h => by
    have ih := longest_run hhead hrest fun y hy => h y (List.mem_cons_of_mem x hy)
    rw [List.cons_append, longest, if_pos (h x List.mem_cons_self), ih]
    rfl

/-- The whole run, if the continuation cannot begin with a character of the class. -/
theorem longest_eq (hk : ∀ x r, c.test x = true → k (x :: r) = none) : ∀ s : Str, longest c k s = k (s.dropWhile c.test)
  | [] => rfl
  | x :: s => by
    rw [longest, List.dropWhile_cons]
    by_cases hx : c.test x = true
    · rw [if_pos hx, if_pos hx, hk x s hx, Option.or_none, longest_eq hk s]
    · rw [if_neg hx, if_neg hx]

theorem longest_none : ∀ {rest : Str}, (∀ r, r <:+ rest → k r = none) → longest c k rest = none
  | [], h => h [] List.suffix_rfl
  | x :: rest, h => by
    rw [longest, longest_none fun r hr => h r (hr.trans (List.suffix_cons x rest)), h _ List.suffix_rfl]
    split <;> rfl

/-- The first place where the continuation matches. -/
theorem shortest_run {rest : Str} (hrest : k rest = some b) : ∀ {run : Str}, (∀ x ∈ run, c.test x = true) →
    (∀ r, r <:+ run ++ rest → rest.length < r.length → k r = none) → shortest c k (run ++ rest) = some b
  | [], _, _ => by
    cases rest with
    | nil => exact hrest
    | cons x rest => rw [List.nil_append, shortest, hrest]; rfl
  | x :: run, h, hnone => by
    have ih := shortest_run hrest (fun y hy => h y (List.mem_cons_of_mem x hy))
      fun r hr => hnone r (hr.trans (List.suffix_cons x _))
    have hhere := hnone _ List.suffix_rfl (by rw [List.length_append, List.length_cons]; omega)
    rw [List.cons_append] at hhere ⊢
    rw [shortest, hhere, if_pos (h x List.mem_cons_self), ih]
    rfl

section Captured

variable {is : List Item} {run rest : Str} {segs : List Seg} {p : Str × List Seg}

theorem closeSeg_run (run rest : Str) (segs : List Seg) :
    closeSeg rest (segs ++ [⟨run ++ rest, none⟩]) = some (segs ++ [⟨run ++ rest, some run.length⟩]) := by
  rw [closeSeg_concat, List.length_append, Nat.add_sub_cancel]

/-- A captured run, taken whole. -/
theorem matchRest_capStar (hrun : ∀ x ∈ run, c.test x = true) (hhead : ∀ x, rest.head? = some x → c.test x = false)
    (h : matchRest is rest (segs ++ [⟨run ++ rest, some run.length⟩]) = some p) :
    matchRest (.capOpen :: .single c .star :: .capClose :: is) (run ++ rest) segs = some p := by
  rw [matchRest, matchRest]
  refine longest_run hhead ?_ hrun
  rw [matchRest, closeSeg_run]
  exact h

theorem matchRest_capPlus (hne : run ≠ []) (hrun : ∀ x ∈ run, c.test x = true)
    (hhead : ∀ x, rest.head? = some x → c.test x = false)
    (h : matchRest is rest (segs ++ [⟨run ++ rest, some run.length⟩]) = some p) :
    matchRest (.capOpen :: .single c .plus :: .capClose :: is) (run ++ rest) segs = some p := by
  cases run with
  | nil => exact absurd rfl hne
  | cons x run =>
    rw [List.cons_append, matchRest, matchRest, if_pos (hrun x List.mem_cons_self)]
    refine longest_run hhead ?_ fun y hy => hrun y (List.mem_cons_of_mem x hy)
    have hclose := closeSeg_run (x :: run) rest segs
    rw [List.cons_append] at hclose
    rw [matchRest, hclose]
    exact h

/-- What a captured run that matched took. -/
theorem of_matchRest_capStar {text : Str}
    (h : matchRest (.capOpen :: .single c .star :: .capClose :: is) text segs = some p) :
    ∃ run rest, text = run ++ rest ∧ (∀ x ∈ run, c.test x = true) ∧
      matchRest is rest (segs ++ [⟨text, some run.length⟩]) = some p := by
  rw [matchRest, matchRest] at h
  obtain ⟨run, rest, rfl, hrun, h⟩ := longest_split h
  rw [matchRest, closeSeg_run] at h
  exact ⟨run, rest, rfl, hrun, h⟩

theorem of_matchRest_capPlus {text : Str}
    (h : matchRest (.capOpen :: .single c .plus :: .capClose :: is) text segs = some p) :
    ∃ run rest, text = run ++ rest ∧ run ≠ [] ∧ (∀ x ∈ run, c.test x = true) ∧
      matchRest is rest (segs ++ [⟨text, some run.length⟩]) = some p := by
  cases text with
  | nil => cases h
  | cons x text =>
    rw [matchRest, matchRest] at h
    split at h
    · next hx =>
      obtain ⟨run, rest, rfl, hrun, h⟩ := longest_split h
      have hclose := closeSeg_run (x :: run) rest segs
      rw [List.cons_append] at hclose
      rw [matchRest, hclose] at h
      refine ⟨x :: run, rest, rfl, List.cons_ne_nil x run, fun y hy => ?_, h⟩
      rcases List.mem_cons.mp hy with rfl | hy
      · exact hx
      · exact hrun y hy
    · cases h

/-- A captured run that ends the text. -/
theorem matchRest_capPlus_end {c : Single} (r : Str) (segs : List Seg) :
    matchRest [.capOpen, .single c .plus, .capClose, .atEnd] r segs =
      if r ≠ [] ∧ r.all c.test = true then some ([], segs ++ [⟨r, some r.length⟩]) else none := by
  split
  · next h =>
    have hmatch := @matchRest_capPlus c [.atEnd] r [] segs ([], segs ++ [⟨r ++ [], some r.length⟩]) h.1
      (List.all_eq_true.mp h.2) (fun x hx => by cases hx) rfl
    rwa [List.append_nil] at hmatch
  · next h =>
    cases hm : matchRest [.capOpen, .single c .plus, .capClose, .atEnd] r segs with
    | none => rfl
    | some p =>
      obtain ⟨run, rest, rfl, hne, hrun, hend⟩ := of_matchRest_capPlus hm
      cases rest with
      | cons x rest => cases hend
      | nil =>
        rw [List.append_nil] at h
        exact absurd ⟨hne, List.all_eq_true.mpr hrun⟩ h

/-- A character that stands for itself. -/
theorem of_matchRest_lit {a : Char} {text : Str} (h : matchRest (.single (.lit a) .one :: is) text segs = some p) :
    ∃ rest, text = a :: rest ∧ matchRest is rest segs = some p := by
  cases text with
  | nil => cases h
  | cons x rest =>
    rw [matchRest] at h
    split at h
    · next hx =>
      obtain rfl : a = x := eq_of_beq hx
      exact ⟨rest, rfl, h⟩
    · cases h

theorem matchRest_lit (a : Char) (rest : Str) (segs : List Seg) :
    matchRest (.single (.lit a) .one :: is) (a :: rest) segs = matchRest is rest segs := by
  have ha : (Single.lit a).test a = true := beq_self_eq_true a
  rw [matchRest, if_pos ha]

end Captured

/-- A single character, however often: the other items match at some rest of the text. -/
theorem matchRest_single_some {q : Quant} {is : List Item} {rest : Str} {segs : List Seg} {p : Str × List Seg}
    (h : matchRest (.single c q :: is) rest segs = some p) : ∃ r, r <:+ rest ∧ matchRest is r segs = some p := by
  cases q with
  | star => exact longest_some h
  | minus => exact shortest_some h
  | one =>
    cases rest with
    | nil => cases h
    | cons x rest =>
      rw [matchRest] at h
      split at h
      · exact ⟨rest, List.suffix_cons x rest, h⟩
      · cases h
  | plus =>
    cases rest with
    | nil => cases h
    | cons x rest =>
      rw [matchRest] at h
      split at h
      · obtain ⟨r, hr, hmatch⟩ := longest_some h
        exact ⟨r, hr.trans (List.suffix_cons x rest), hmatch⟩
      · cases h
  | opt =>
    cases rest with
    | nil => exact ⟨[], List.suffix_rfl, h⟩
    | cons x rest =>
      rw [matchRest] at h
      split at h
      · rcases Option.or_eq_some_iff.mp h with h | ⟨-, h⟩
        · exact ⟨rest, List.suffix_cons x rest, h⟩
        · exact ⟨_, List.suffix_rfl, h⟩
      · exact ⟨_, List.suffix_rfl, h⟩

/-- A closed capture stays as it is. -/
theorem matchRest_closed {start : Str} {len : Nat} : ∀ {is : List Item} {rest : Str} {segs : List Seg}
    {p : Str × List Seg}, matchRest is rest (⟨start, some len⟩ :: segs) = some p →
      ∃ tail, p.2 = ⟨start, some len⟩ :: tail
  | [], rest, segs, p, h => ⟨segs, by rw [← Option.some.inj h]⟩
  | .atEnd :: is, rest, segs, p, h => by
    rw [matchRest] at h
    split at h
    · exact ⟨segs, by rw [← Option.some.inj h]⟩
    · cases h
  | .capOpen :: is, rest, segs, p, h => by
    rw [matchRest, List.cons_append] at h
    exact matchRest_closed h
  | .capClose :: is, rest, segs, p, h => by
    rw [matchRest, closeSeg] at h
    cases hclose : closeSeg rest segs with
    | none =>
      rw [hclose] at h
      cases h
    | some segs₁ =>
      rw [hclose] at h
      exact matchRest_closed h
  | .single c q :: is, rest, segs, p, h => by
    obtain ⟨r, -, hmatch⟩ := matchRest_single_some h
    exact matchRest_closed hmatch
  | .capPos :: _, _, _, _, h => by cases h
  | .balance _ _ :: _, _, _, _, h => by cases h
  | .frontier _ :: _, _, _, _, h => by cases h
  | .backref _ :: _, _, _, _, h => by cases h
  | .malformed _ :: _, _, _, _, h => by cases h

/-- A match ends in the text, its captures are in the text and closed. -/
theorem matchRest_some {src : Str} : ∀ {is : List Item} {rest r : Str} {segs segs' : List Seg},
    Simple (openSegs segs) segs.length is = true → rest <:+ src → Within src rest segs →
      matchRest is rest segs = some (r, segs') → r <:+ rest ∧ Within src r segs' ∧ openSegs segs' = 0
  | [], rest, r, segs, segs', hs, _, hw, h => by
    obtain ⟨rfl, rfl⟩ := Prod.mk.inj (Option.some.inj h)
    exact ⟨List.suffix_rfl, hw, by simpa [Simple] using hs⟩
  | .atEnd :: is, rest, r, segs, segs', hs, _, hw, h => by
    rw [matchRest] at h
    split at h
    · obtain ⟨rfl, rfl⟩ := Prod.mk.inj (Option.some.inj h)
      exact ⟨List.suffix_rfl, hw, by simpa [Simple] using hs⟩
    · cases h
  | .capOpen :: is, rest, r, segs, segs', hs, hrest, hw, h => by
    rw [Simple, Bool.and_eq_true] at hs
    refine matchRest_some ?_ hrest (hw.opened hrest) h
    rw [openSegs_opened, List.length_append]
    exact hs.2
  | .capClose :: is, rest, r, segs, segs', hs, hrest, hw, h => by
    rw [Simple, Bool.and_eq_true, decide_eq_true_eq] at hs
    obtain ⟨segs₁, hclose, hopen, hlen, hrests⟩ := @closeSeg_spec rest segs hs.1
    rw [matchRest, hclose] at h
    refine matchRest_some ?_ hrest (hw.close hrests) h
    rw [hopen, hlen]
    exact hs.2
  | .single c q :: is, rest, r, segs, segs', hs, hrest, hw, h => by
    rw [Simple] at hs
    obtain ⟨r₁, hr₁, hmatch⟩ := matchRest_single_some h
    obtain ⟨hr, hin⟩ := matchRest_some hs (hr₁.trans hrest) (hw.shorter hr₁) hmatch
    exact ⟨hr.trans hr₁, hin⟩
  | .capPos :: _, _, _, _, _, hs, _, _, _ => absurd hs (by simp [Simple])
  | .balance _ _ :: _, _, _, _, _, hs, _, _, _ => absurd hs (by simp [Simple])
  | .frontier _ :: _, _, _, _, _, hs, _, _, _ => absurd hs (by simp [Simple])
  | .backref _ :: _, _, _, _, _, hs, _, _, _ => absurd hs (by simp [Simple])
  | .malformed _ :: _, _, _, _, _, hs, _, _, _ => absurd hs (by simp [Simple])

/-- The text of a capture. -/
def Seg.text (seg : Seg) : Str := seg.rest.take (seg.len.getD 0)

/-- The captures of a match from `rest` to `r`: the whole match if the pattern has none. -/
def texts (rest r : Str) (segs : List Seg) : List Str :=
  if segs.isEmpty then [rest.take (rest.length - r.length)] else segs.map Seg.text

theorem capValues_eq {src rest r : Str} {segs : List Seg} (hrest : rest <:+ src) (hr : r <:+ rest)
    (hw : Within src r segs) (hopen : openSegs segs = 0) :
    capValues src (src.length - rest.length) (src.length - r.length) (segs.map (Seg.cap src.length)) =
      .ok ((texts rest r segs).map .str) := by
  unfold capValues texts
  rw [List.isEmpty_map]
  cases hempty : segs.isEmpty with
  | true =>
    have hlen : src.length - r.length - (src.length - rest.length) = rest.length - r.length := by
      have hle := hrest.length_le
      have hle' := hr.length_le
      omega
    rw [if_pos rfl, if_pos rfl, drop_of_suffix hrest, hlen]
    rfl
  | false =>
    rw [if_neg Bool.false_ne_true, if_neg Bool.false_ne_true]
    clear hempty
    induction segs with
    | nil => rfl
    | cons seg segs ih =>
      obtain ⟨start, len⟩ := seg
      cases len with
      | none => exact absurd hopen (by simp [openSegs])
      | some len =>
        have htail := ih (fun s hs => hw s (List.mem_cons_of_mem _ hs)) (by simpa [openSegs] using hopen)
        rw [List.map_cons, List.mapM_cons, htail, List.map_cons, List.map_cons]
        simp only [Seg.cap, Seg.text, drop_of_suffix (hw _ List.mem_cons_self).2, Option.getD_some]
        rfl

end Result

/-! ## The functions of the string library -/

section Library

variable {src rest : Str} {is : List Item}

/-- The items at the front of `rest`. -/
theorem doMatch_rest (hs : Simple 0 0 is = true) (hrest : rest <:+ src) :
    doMatch src is (src.length - rest.length) [] = resOf src.length (matchRest is rest []) :=
  @doMatch_eq src is rest [] hs hrest fun _ h => absurd h List.not_mem_nil

theorem matchRest_front (hs : Simple 0 0 is = true) {r : Str} {segs : List Seg} (hrest : rest <:+ src)
    (h : matchRest is rest [] = some (r, segs)) : r <:+ rest ∧ Within src r segs ∧ openSegs segs = 0 :=
  @matchRest_some src is rest r [] segs hs hrest (fun _ h => absurd h List.not_mem_nil) h

/-- The values of the match at the front of `rest`. -/
theorem capValues_front (hs : Simple 0 0 is = true) {r : Str} {segs : List Seg} (hrest : rest <:+ src)
    (h : matchRest is rest [] = some (r, segs)) :
    capValues src (src.length - rest.length) (src.length - r.length) (segs.map (Seg.cap src.length)) =
      .ok ((texts rest r segs).map .str) := by
  obtain ⟨hr, hw, hopen⟩ := matchRest_front hs hrest h
  exact capValues_eq hrest hr hw hopen

/-- **A match at the beginning.** -/
theorem strMatch_anchored {pat p : Str} (hpat : pat = '^' :: p) (his : compile p = is) (hs : Simple 0 0 is = true)
    (s : Str) : strMatch s pat = .ok ((matchRest is s []).map fun p => (texts s p.1 p.2).map .str) := by
  have hmatch := doMatch_rest hs (List.suffix_refl s)
  rw [Nat.sub_self] at hmatch
  subst hpat
  unfold strMatch
  simp only [his, search, hmatch]
  cases hm : matchRest is s [] with
  | none => rfl
  | some p =>
    have hvals := capValues_front hs (List.suffix_refl s) hm
    rw [Nat.sub_self] at hvals
    simp only [resOf, Option.map_some, bind, Except.bind]
    rw [hvals]
    rfl

/-- What is captured is part of the text. -/
theorem texts_subset (hs : Simple 0 0 is = true) {s r : Str} {segs : List Seg}
    (h : matchRest is s [] = some (r, segs)) :
    ∀ t ∈ texts s r segs, t ⊆ s := by
  obtain ⟨-, hw, -⟩ := matchRest_front hs (List.suffix_refl s) h
  intro t ht
  unfold texts at ht
  split at ht
  · rw [List.mem_singleton.mp ht]
    exact List.take_subset _ _
  · obtain ⟨seg, hseg, rfl⟩ := List.mem_map.mp ht
    exact fun x hx => (hw seg hseg).2.subset (List.take_subset _ _ hx)

/-- The first place where the items match: what is left there, and after the match. -/
def findRest (is : List Item) : Str → Option (Str × Str × List Seg)
  | [] => (matchRest is [] []).map fun p => ([], p)
  | x :: rest => match matchRest is (x :: rest) [] with
    | some p => some (x :: rest, p)
    | none => findRest is rest

theorem search_eq (hs : Simple 0 0 is = true) : ∀ {rest : Str}, rest <:+ src →
    search src is rest.length (src.length - rest.length) = .ok ((findRest is rest).map fun p =>
      (src.length - p.1.length, src.length - p.2.1.length, p.2.2.map (Seg.cap src.length)))
  | [], hrest => by
    unfold search
    rw [doMatch_rest hs hrest, findRest]
    cases matchRest is [] [] <;> rfl
  | x :: rest, hrest => by
    have ih := search_eq hs ((List.suffix_cons x rest).trans hrest)
    unfold search
    rw [doMatch_rest hs hrest, findRest]
    cases matchRest is (x :: rest) [] with
    | some p => rfl
    | none =>
      rw [length_of_cons_suffix hrest] at ih
      exact ih

theorem findRest_some {p : Str × Str × List Seg} : ∀ {rest : Str}, findRest is rest = some p →
    p.1 <:+ rest ∧ matchRest is p.1 [] = some p.2
  | [], h => by
    rw [findRest] at h
    obtain ⟨q, hq, rfl⟩ := Option.map_eq_some_iff.mp h
    exact ⟨List.suffix_rfl, hq⟩
  | x :: rest, h => by
    rw [findRest] at h
    cases hm : matchRest is (x :: rest) [] with
    | some q =>
      rw [hm] at h
      obtain rfl := Option.some.inj h
      exact ⟨List.suffix_rfl, hm⟩
    | none =>
      rw [hm] at h
      obtain ⟨hsuf, hq⟩ := findRest_some h
      exact ⟨hsuf.trans (List.suffix_cons x rest), hq⟩

/-- The items match somewhere exactly if they match at the front of some rest of the text. -/
theorem findRest_isSome : ∀ {s : Str}, (findRest is s).isSome = true ↔ ∃ r, r <:+ s ∧ (matchRest is r []).isSome = true
  | [] => by
    rw [findRest, Option.isSome_map]
    exact ⟨fun h => ⟨[], List.suffix_rfl, h⟩, fun ⟨r, hr, h⟩ => List.eq_nil_of_suffix_nil hr ▸ h⟩
  | x :: s => by
    rw [findRest]
    cases hm : matchRest is (x :: s) [] with
    | some p => exact iff_of_true rfl ⟨_, List.suffix_rfl, by rw [hm]; rfl⟩
    | none =>
      dsimp only
      rw [findRest_isSome]
      refine ⟨fun ⟨r, hr, h⟩ => ⟨r, hr.trans (List.suffix_cons x s), h⟩, fun ⟨r, hr, h⟩ => ?_⟩
      rcases List.suffix_cons_iff.mp hr with rfl | hr
      · rw [hm] at h
        cases h
      · exact ⟨r, hr, h⟩

/-- Characters that stand for themselves match exactly at their own text. -/
theorem matchRest_text {segs : List Seg} : ∀ {w r : Str},
    (matchRest (w.map fun a => .single (.lit a) .one) r segs).isSome = true ↔ w <+: r
  | [], r => iff_of_true rfl List.nil_prefix
  | a :: w, [] => by simp
  | a :: w, x :: r => by
    rw [List.map_cons, matchRest, List.cons_prefix_cons]
    by_cases hx : a = x
    · subst hx
      have ha : (Single.lit a).test a = true := beq_self_eq_true a
      rw [if_pos ha, matchRest_text, and_iff_right rfl]
    · have ha : ¬ (Single.lit a).test x = true := fun h => hx (eq_of_beq h)
      rw [if_neg ha]
      exact iff_of_false Bool.false_ne_true fun h => hx h.1

/-- **A match somewhere.** -/
theorem strMatch_search {pat : Str} (hanchor : pat.head? ≠ some '^') (his : compile pat = is)
    (hs : Simple 0 0 is = true) (s : Str) :
    strMatch s pat = .ok ((findRest is s).map fun p => (texts p.1 p.2.1 p.2.2).map .str) := by
  have hsearch := search_eq hs (List.suffix_refl s)
  rw [Nat.sub_self] at hsearch
  unfold strMatch
  split
  · exact absurd rfl hanchor
  · simp only [his, hsearch]
    cases hm : findRest is s with
    | none => rfl
    | some p =>
      obtain ⟨rest, r, segs⟩ := p
      obtain ⟨hsuf, hmatch⟩ := findRest_some hm
      have hvals := capValues_front hs hsuf hmatch
      simp only [Option.map_some, bind, Except.bind]
      rw [hvals]
      rfl

/-- The matches of `gmatch` in what is left; `fuel` counts its characters. -/
def gmatchRest (is : List Item) : Nat → Str → List (List Str)
  | 0, _ => []
  | fuel + 1, rest => match matchRest is rest [], rest with
    | none, [] => []
    | none, _ :: rest => gmatchRest is fuel rest
    | some (r, segs), [] => [texts [] r segs]
    | some (r, segs), x :: rest => texts (x :: rest) r segs ::
      gmatchRest is fuel (if r.length = (x :: rest).length then rest else r)

/-- The result of `gsub` in what is left; `fuel` counts its characters. -/
def gsubRest (is : List Item) (f : List Str → Str) : Nat → Str → Str
  | 0, rest => rest
  | fuel + 1, rest => match matchRest is rest [], rest with
    | none, [] => []
    | none, x :: rest => x :: gsubRest is f fuel rest
    | some (r, segs), [] => f (texts [] r segs)
    | some (r, segs), x :: rest =>
      if r.length < (x :: rest).length then f (texts (x :: rest) r segs) ++ gsubRest is f fuel r
      else f (texts (x :: rest) r segs) ++ x :: gsubRest is f fuel rest

/-- **A function that does what `gsub` does** where the items match, and copies a character where they do not. -/
theorem gsubRest_of {f : List Str → Str} {g : Str → Str} (hnil : matchRest is [] [] = none) (hend : g [] = [])
    (hcopy : ∀ x s, matchRest is (x :: s) [] = none → g (x :: s) = x :: g s)
    (hmatch : ∀ x s r segs, matchRest is (x :: s) [] = some (r, segs) →
      r.length ≤ s.length ∧ g (x :: s) = f (texts (x :: s) r segs) ++ g r) :
    ∀ {fuel : Nat} {s : Str}, s.length < fuel → gsubRest is f fuel s = g s
  | 0, _, h => absurd h (Nat.not_lt_zero _)
  | fuel + 1, [], _ => by
    unfold gsubRest
    rw [hnil, hend]
  | fuel + 1, x :: s, h => by
    have hs : s.length < fuel := Nat.lt_of_succ_lt_succ h
    unfold gsubRest
    cases hm : matchRest is (x :: s) [] with
    | none => exact (congrArg (x :: ·) (gsubRest_of hnil hend hcopy hmatch hs)).trans (hcopy x s hm).symm
    | some p =>
      obtain ⟨r, segs⟩ := p
      obtain ⟨hr, hg⟩ := hmatch x s r segs hm
      have hlt : r.length < (x :: s).length := Nat.lt_succ_of_le hr
      dsimp only
      rw [if_pos hlt, gsubRest_of hnil hend hcopy hmatch (Nat.lt_of_le_of_lt hr hs), hg]

/-- Items that match one character of a class. -/
theorem gsubRest_one {c : Single} {f : List Str → Str} (hnil : matchRest is [] [] = none)
    (hmatch : ∀ x s, c.test x = true →
      ∃ segs, matchRest is (x :: s) [] = some (s, segs) ∧ texts (x :: s) s segs = [[x]])
    (hno : ∀ x s, c.test x = false → matchRest is (x :: s) [] = none) {fuel : Nat} {s : Str} (h : s.length < fuel) :
    gsubRest is f fuel s = s.flatMap fun x => if c.test x then f [[x]] else [x] := by
  refine gsubRest_of hnil rfl (fun x s hnone => ?_) (fun x s r segs hsome => ?_) h
  · have hx : c.test x ≠ true := by
      intro hx
      obtain ⟨segs, hm, -⟩ := hmatch x s hx
      rw [hnone] at hm
      cases hm
    rw [List.flatMap_cons, if_neg hx]
    rfl
  · cases hx : c.test x with
    | false =>
      rw [hno x s hx] at hsome
      cases hsome
    | true =>
      obtain ⟨segs', hm, htext⟩ := hmatch x s hx
      rw [hm] at hsome
      cases hsome
      exact ⟨Nat.le_refl _, by rw [List.flatMap_cons, if_pos hx, htext]⟩

theorem gmatchFrom_end (src : Str) (is : List Item) (fuel : Nat) :
    gmatchFrom src is fuel (src.length + 1) = .ok [] := by
  cases fuel with
  | zero => rfl
  | succ fuel =>
    unfold gmatchFrom
    rw [if_pos (Nat.lt_succ_self _)]
    rfl

theorem gmatchFrom_eq (hs : Simple 0 0 is = true) : ∀ {fuel : Nat} {rest : Str}, rest <:+ src →
    gmatchFrom src is fuel (src.length - rest.length) = .ok ((gmatchRest is fuel rest).map fun ts => ts.map .str)
  | 0, _, _ => rfl
  | fuel + 1, rest, hrest => by
    have hle : ¬ src.length < src.length - rest.length := by omega
    unfold gmatchFrom gmatchRest
    rw [if_neg hle, doMatch_rest hs hrest]
    cases hm : matchRest is rest [] with
    | none =>
      cases rest with
      | nil => exact gmatchFrom_end src is fuel
      | cons x rest =>
        have ih := @gmatchFrom_eq hs fuel rest ((List.suffix_cons x rest).trans hrest)
        rw [length_of_cons_suffix hrest] at ih
        exact ih
    | some p =>
      obtain ⟨r, segs⟩ := p
      have hr := (matchRest_front hs hrest hm).1
      have hvals := capValues_front hs hrest hm
      simp only [resOf, Option.map_some, bind, Except.bind]
      rw [hvals]
      cases rest with
      | nil =>
        obtain rfl := List.suffix_nil.mp hr
        simp only [if_pos, List.length_nil, Nat.sub_zero, gmatchFrom_end]
        rfl
      | cons x rest =>
        have hend : src.length - r.length = src.length - (x :: rest).length ↔ r.length = (x :: rest).length := by
          have h₁ := hrest.length_le
          have h₂ := hr.length_le
          omega
        by_cases hempty : r.length = (x :: rest).length
        · have ih := @gmatchFrom_eq hs fuel rest ((List.suffix_cons x rest).trans hrest)
          rw [length_of_cons_suffix hrest] at ih
          simp only [if_pos hempty, if_pos (hend.mpr hempty), ih]
          rfl
        · have ih := @gmatchFrom_eq hs fuel r (hr.trans hrest)
          simp only [if_neg hempty, if_neg fun h => hempty (hend.mp h), ih]
          rfl

/-- **All matches.** -/
theorem gmatch_eq {pat : Str} (his : compile pat = is) (hs : Simple 0 0 is = true) (s : Str) :
    gmatch s pat = .ok ((gmatchRest is (s.length + 1) s).map fun ts => ts.map .str) := by
  have h := @gmatchFrom_eq s is hs (s.length + 1) s (List.suffix_refl s)
  rw [Nat.sub_self] at h
  rw [gmatch, his]
  exact h

theorem gsubFrom_eq (hs : Simple 0 0 is = true) (f : List Value → Str) : ∀ {fuel : Nat} {rest : Str}, rest <:+ src →
    gsubFrom src is false f fuel (src.length - rest.length) =
      .ok (gsubRest is (fun ts => f (ts.map .str)) fuel rest)
  | 0, rest, hrest => by
    rw [gsubFrom, drop_of_suffix hrest]
    rfl
  | fuel + 1, rest, hrest => by
    unfold gsubFrom gsubRest
    rw [doMatch_rest hs hrest]
    have hdrop := drop_of_suffix hrest
    cases hm : matchRest is rest [] with
    | none =>
      simp only [resOf, Option.map_none, bind, Except.bind, Bool.false_or, decide_eq_true_eq]
      cases rest with
      | nil =>
        rw [if_pos (by simp), hdrop]
        rfl
      | cons x rest =>
        have ih := @gsubFrom_eq hs f fuel rest ((List.suffix_cons x rest).trans hrest)
        have hlt : ¬ src.length ≤ src.length - (x :: rest).length := by
          have := hrest.length_le
          rw [List.length_cons] at this ⊢
          omega
        rw [length_of_cons_suffix hrest] at ih
        rw [if_neg hlt, hdrop, ih]
        rfl
    | some p =>
      obtain ⟨r, segs⟩ := p
      have hr := (matchRest_front hs hrest hm).1
      have hvals := capValues_front hs hrest hm
      simp only [resOf, Option.map_some, bind, Except.bind, Bool.false_or, decide_eq_true_eq]
      rw [hvals]
      dsimp only
      cases rest with
      | nil =>
        obtain rfl := List.suffix_nil.mp hr
        rw [if_neg (Nat.lt_irrefl _), if_neg (Nat.lt_irrefl _), if_pos (by simp), hdrop]
        simp [pure, Except.pure]
      | cons x rest =>
        have hlen := hrest.length_le
        have hend : src.length - (x :: rest).length < src.length - r.length ↔ r.length < (x :: rest).length := by
          have h₂ := hr.length_le
          omega
        dsimp only
        by_cases hlt : r.length < (x :: rest).length
        · have ih := @gsubFrom_eq hs f fuel r (hr.trans hrest)
          rw [if_pos (hend.mpr hlt), if_pos (hend.mpr hlt), if_pos hlt, if_neg (by omega), ih]
          simp [pure, Except.pure]
        · have ih := @gsubFrom_eq hs f fuel rest ((List.suffix_cons x rest).trans hrest)
          rw [length_of_cons_suffix hrest] at ih
          have hnext : ¬ src.length < src.length - (x :: rest).length + 1 := by
            rw [List.length_cons] at hlen ⊢
            omega
          rw [if_neg fun h => hlt (hend.mp h), if_neg fun h => hlt (hend.mp h), if_neg hlt, if_neg hnext, ih, hdrop]
          simp [pure, Except.pure]

/-- **All replacements.** -/
theorem gsub_eq {pat : Str} (hanchor : pat.head? ≠ some '^') (his : compile pat = is) (hs : Simple 0 0 is = true)
    (f : List Value → Str) (s : Str) :
    gsub s pat f = .ok (gsubRest is (fun ts => f (ts.map .str)) (s.length + 1) s) := by
  have h := @gsubFrom_eq s is hs f (s.length + 1) s (List.suffix_refl s)
  rw [Nat.sub_self] at h
  unfold gsub
  split
  · exact absurd rfl hanchor
  · rw [his]
    exact h

/-- **A replacement at the beginning.** -/
theorem gsub_anchored {pat p : Str} (hpat : pat = '^' :: p) (his : compile p = is) (hs : Simple 0 0 is = true)
    (f : List Value → Str) (s : Str) : gsub s pat f =
      .ok (((matchRest is s []).map fun p => f ((texts s p.1 p.2).map .str) ++ p.1).getD s) := by
  have hmatch := doMatch_rest hs (List.suffix_refl s)
  rw [Nat.sub_self] at hmatch
  subst hpat
  unfold gsub
  simp only [his]
  rw [gsubFrom, hmatch]
  cases hm : matchRest is s [] with
  | none => rfl
  | some m =>
    obtain ⟨r, segs⟩ := m
    have hr := (matchRest_front hs (List.suffix_refl s) hm).1
    have hvals := capValues_front hs (List.suffix_refl s) hm
    rw [Nat.sub_self] at hvals
    simp only [resOf, Option.map_some, bind, Except.bind]
    rw [hvals]
    dsimp only
    rw [Bool.true_or, if_pos rfl]
    by_cases hlt : r.length < s.length
    · rw [if_pos (by omega), if_pos (by omega), drop_of_suffix hr, List.append_nil]
      rfl
    · -- nothing was taken: a character is copied
      obtain rfl : r = s := hr.eq_of_length_le (by omega)
      rw [Nat.sub_self, if_neg (Nat.lt_irrefl _), if_neg (Nat.lt_irrefl _), List.drop_zero, Nat.zero_add,
        List.append_assoc, List.take_append_drop]
      rfl

end Library

end Pattern
end Lua
