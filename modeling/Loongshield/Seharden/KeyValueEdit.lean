import Loongshield.Seharden.KeyValueFile
import Loongshield.Seharden.LineEdits

/-!
# `set_key_value` and its reader

`file.set_key_value` recognises an assignment by a pattern with its separator; `key_value_file.lua` takes both forms.

- `captured`, `strMatch_keyValue`: the lines that the pattern takes, and their values;
- `editKeyValue_eq`: the edit as a whole: one line for the key, and no other line that the pattern takes;
- `assigned_eq_some_iff`, `assigned_eq_none_iff`: what the reader makes of such a line;
- `set_key_value_read_iff`: when the reader reads what was set.
-/

namespace Seharden
namespace KeyValueFile

open Lua Pattern

/-! ## What the reader takes from the lines -/

/-- The value that a line gives to a key. -/
def assigned (key line : Str) : Option Str :=
  match parseLine .none line with
  | some (.entry k v) => if key = k then some v else none
  | _ => none

/-- A line that gives a value to another key. -/
def assignsOther (key line : Str) : Bool :=
  match parseLine .none line with
  | some (.entry k _) => key ≠ k
  | _ => false

/-- The last value that lines give to a key. -/
def lastAssigned (key : Str) (lines : List Str) : Option Str := (lines.filterMap (assigned key)).getLast?

theorem entries_assigned (key : Str) : ∀ (lines : List Str) (current : Option Str),
    (entriesFrom .none current lines).filterMap (Entry.for key) = lines.filterMap (assigned key)
  | [], _ => rfl
  | line :: lines, current => by
    rw [entriesFrom, List.filterMap_cons, assigned]
    cases parseLine .none line with
    | none => exact entries_assigned key lines current
    | some parsed =>
      cases parsed with
      | header name => exact entries_assigned key lines (some name)
      | entry k v =>
        dsimp only
        rw [if_pos (.inl rfl), List.filterMap_cons, Entry.for, entries_assigned key lines current]

theorem parseHandle_none (key : Str) (lines : List Str) : parseHandle .none lines key = lastAssigned key lines := by
  rw [parseHandle_eq, parseEntries, entries_assigned]
  rfl

theorem lastAssigned_append (key : Str) (a b : List Str) :
    lastAssigned key (a ++ b) = (lastAssigned key b).or (lastAssigned key a) := by
  rw [lastAssigned, List.filterMap_append, List.getLast?_append]
  rfl

theorem lastAssigned_cons (key line : Str) (lines : List Str) :
    lastAssigned key (line :: lines) = (lastAssigned key lines).or (assigned key line) := by
  rw [lastAssigned, List.filterMap_cons]
  cases assigned key line with
  | none => rw [Option.or_none]; rfl
  | some v =>
    dsimp only
    rw [List.getLast?_cons, ← lastAssigned]
    cases lastAssigned key lines <;> rfl

/-! ## The lines that the pattern takes -/

/-- What follows the key at the front of a line. -/
def afterKey (key line : Str) : Option Str :=
  if key <+: line.dropWhile isspace then some ((line.dropWhile isspace).drop key.length) else none

/-- The value in a line that the pattern for the separator takes. -/
def captured (key : Str) (sep : Char) (line : Str) : Option Str :=
  match afterKey key line with
  | none => none
  | some rest =>
    if sep = ' ' then if ' ' ∈ rest.takeWhile isspace then some (trim rest) else none
    else if (rest.dropWhile isspace).head? = some sep then some (trim (rest.dropWhile isspace).tail) else none

/-- A key: it has no blanks, `=` or `#`. -/
structure IsKey (key : Str) : Prop where
  nonempty : key ≠ []
  chars : ∀ x ∈ key, isspace x = false ∧ x ≠ '=' ∧ x ≠ '#'

/-- A separator that `set_key_value` is used with. -/
def IsSep (sep : Char) : Prop := sep = '=' ∨ sep = ' '

section Captured

variable {key : Str} {sep : Char}

/-- The items of the pattern of `set_key_value`. -/
def setItems (key : Str) (sep : Char) : List Pattern.Item :=
  .single blank .star :: ((spelling key).map (.single · .one) ++ .single blank .star :: .single
    (.cls sep) .one :: trimItems)

theorem keyValuePattern_eq (key : Str) (hsep : IsSep sep) : keyValuePattern key [sep] =
    .ok ('^' :: ("%s*" ++ (escaped key ++ ("%s*" ++ '%' :: sep :: "%s*(.-)%s*$")))) := by
  unfold keyValuePattern
  rw [escapeKey_eq]
  have hgsub : gsub [sep] "." (fun caps => '%' :: (caps.headD .nil).tostring) = .ok ['%', sep] := by
    rcases hsep with rfl | rfl <;> rfl
  rw [hgsub]
  simp [bind, Except.bind, pure, Except.pure]

theorem compile_set (key : Str) (hsep : IsSep sep) :
    compile ("%s*" ++ (escaped key ++ ("%s*" ++ '%' :: sep :: "%s*(.-)%s*$"))) = setItems key sep := by
  have hrest : compile ("%s*" ++ '%' :: sep :: "%s*(.-)%s*$") =
      .single blank .star :: .single (.cls sep) .one :: trimItems := by rcases hsep with rfl | rfl <;> rfl
  have hunq : Unquantified ("%s*" ++ '%' :: sep :: "%s*(.-)%s*$") := by
    intro x hx
    obtain rfl : '%' = x := Option.some.inj hx
    decide
  have hescaped := compile_escaped key hunq
  rw [hrest] at hescaped
  rw [setItems, ← hescaped]
  exact compile_cons rfl (List.cons_ne_nil _ _)

theorem cls_test_sep (hsep : IsSep sep) (x : Char) : (Single.cls sep).test x = (sep == x) := by
  rcases hsep with rfl | rfl <;> rfl

/-- What `trim` captures behind a separator. -/
theorem matchRest_sep (hsep : IsSep sep) (rest : Str) :
    matchRest (.single blank .star :: .single (.cls sep) .one :: trimItems) rest [] =
      (if sep = ' ' then if ' ' ∈ rest.takeWhile isspace then some (rest.dropWhile isspace) else none
      else if (rest.dropWhile isspace).head? = some sep then some ((rest.dropWhile isspace).tail.dropWhile isspace)
      else none).map fun u => ([], [⟨u, some (u.rdropWhile isspace).length⟩]) := by
  have hone : ∀ x r, matchRest (.single (.cls sep) .one :: trimItems) (x :: r) [] =
      if sep = x then some ([], [⟨r.dropWhile isspace, some ((r.dropWhile isspace).rdropWhile isspace).length⟩])
      else none := by
    intro x r
    rw [matchRest, cls_test_sep hsep, matchRest_trim]
    by_cases hx : sep = x
    · rw [if_pos (beq_iff_eq.mpr hx), if_pos hx]
      rfl
    · rw [if_neg (by simpa using hx), if_neg hx]
  rw [matchRest]
  by_cases hblank : sep = ' '
  · -- any of the blanks may be the separator; what is left without blanks is the same
    rw [if_pos hblank]
    subst hblank
    induction rest with
    | nil => rfl
    | cons x r ih =>
      rw [longest, hone, blank_test]
      by_cases hx : isspace x = true
      · rw [if_pos hx, ih, List.takeWhile_cons_of_pos hx, List.dropWhile_cons_of_pos hx]
        by_cases hmem : ' ' ∈ r.takeWhile isspace
        · rw [if_pos hmem, if_pos (List.mem_cons_of_mem x hmem)]
          rfl
        · rw [if_neg hmem]
          by_cases hspace : ' ' = x
          · rw [if_pos hspace, if_pos (hspace ▸ List.mem_cons_self)]
            rfl
          · rw [if_neg hspace, if_neg fun h => (List.mem_cons.mp h).elim hspace hmem]
            rfl
      · have hspace : ¬ ' ' = x := fun h => hx (h ▸ rfl)
        rw [if_neg hx, if_neg hspace, List.takeWhile_cons_of_neg hx, if_neg List.not_mem_nil]
        rfl
  · obtain rfl : sep = '=' := hsep.resolve_right hblank
    rw [if_neg hblank]
    have hk : ∀ x r, blank.test x = true →
        matchRest (.single (.cls '=') .one :: trimItems) (x :: r) [] = none := by
      intro x r hx
      rw [hone, if_neg]
      rintro rfl
      exact absurd hx (by decide)
    have hlong := @longest_eq blank _ (fun r => matchRest (.single (.cls '=') .one :: trimItems) r []) hk rest
    rw [hlong]
    change matchRest (.single (.cls '=') .one :: trimItems) (rest.dropWhile isspace) [] = _
    cases rest.dropWhile isspace with
    | nil => rfl
    | cons x r =>
      rw [hone, List.head?_cons, List.tail_cons]
      by_cases hx : '=' = x
      · rw [if_pos hx, if_pos (by rw [hx])]
        rfl
      · rw [if_neg hx, if_neg fun h => hx (Option.some.inj h).symm]
        rfl

/-- **What the pattern captures.** -/
theorem strMatch_keyValue (hkey : IsKey key) (hsep : IsSep sep) (line : Str) :
    strMatch line ('^' :: ("%s*" ++ (escaped key ++ ("%s*" ++ '%' :: sep :: "%s*(.-)%s*$")))) =
      .ok ((captured key sep line).map fun v => [.str v]) := by
  have hsimple : Simple 0 0 (setItems key sep) = true := simple_spelling key rfl
  have hblank : ∀ x r, blank.test x = true → matchRest ((spelling key).map (.single · .one) ++
      .single blank .star :: .single (.cls sep) .one :: trimItems) (x :: r) [] = none := by
    intro x r hx
    rw [matchRest_spells (spells_spelling key), if_neg]
    intro hpre
    obtain ⟨y, k, rfl⟩ := List.exists_cons_of_ne_nil hkey.nonempty
    obtain rfl : y = x := (List.cons_prefix_cons.mp hpre).1
    rw [show blank.test y = isspace y from rfl, (hkey.chars y List.mem_cons_self).1] at hx
    cases hx
  have hlong := @longest_eq blank _ (fun r => matchRest ((spelling key).map (.single · .one) ++
    .single blank .star :: .single (.cls sep) .one :: trimItems) r []) hblank line
  have hmatch : matchRest (setItems key sep) line [] = if key <+: line.dropWhile isspace then
      matchRest (.single blank .star :: .single (.cls sep) .one :: trimItems)
        ((line.dropWhile isspace).drop key.length) []
      else none := by
    rw [setItems, matchRest, hlong, matchRest_spells (spells_spelling key)]
    rfl
  have htexts : ∀ u : Str, texts line [] [⟨u, some (u.rdropWhile isspace).length⟩] = [u.rdropWhile isspace] := by
    intro u
    simp only [texts, List.isEmpty_cons, Bool.false_eq_true, if_false, List.map_cons, List.map_nil, Seg.text,
      Option.getD_some, take_rdropWhile]
  rw [strMatch_anchored rfl (compile_set key hsep) hsimple line, hmatch]
  unfold captured afterKey
  by_cases hpre : key <+: line.dropWhile isspace
  · rw [if_pos hpre, if_pos hpre, matchRest_sep hsep]
    dsimp only
    generalize (line.dropWhile isspace).drop key.length = rest
    by_cases hspace : sep = ' '
    · rw [if_pos hspace, if_pos hspace]
      split
      · simp only [Option.map_some, htexts, List.map_cons, List.map_nil, trim_eq]
      · rfl
    · rw [if_neg hspace, if_neg hspace]
      split
      · simp only [Option.map_some, htexts, List.map_cons, List.map_nil, trim_eq]
      · rfl
  · rw [if_neg hpre, if_neg hpre]
    rfl

end Captured

/-! ## What the reader makes of such a line -/

section Reader

variable {key : Str} {sep : Char}

/-- What stands between a key and its value. -/
def Between (sep : Char) (mid : Str) : Prop :=
  if sep = ' ' then mid ≠ [] ∧ ∀ x ∈ mid, isspace x = true
  else ∃ b b', mid = b ++ sep :: b' ∧ (∀ x ∈ b, isspace x = true) ∧ ∀ x ∈ b', isspace x = true

theorem Between.chars (hsep : IsSep sep) {mid : Str} (h : Between sep mid) :
    mid ≠ [] ∧ ∀ x ∈ mid, isspace x = true ∨ x = '=' := by
  unfold Between at h
  split at h
  · exact ⟨h.1, fun x hx => .inl (h.2 x hx)⟩
  · next hspace =>
    obtain rfl : sep = '=' := hsep.resolve_right hspace
    obtain ⟨b, b', rfl, hb, hb'⟩ := h
    refine ⟨by simp, fun x hx => ?_⟩
    rcases List.mem_append.mp hx with hx | hx
    · exact .inl (hb x hx)
    · rcases List.mem_cons.mp hx with rfl | hx
      · exact .inr rfl
      · exact .inl (hb' x hx)

/-- The parts of a line that the pattern takes. -/
theorem captured_parts {line v : Str} (h : captured key sep line = some v) : ∃ b mid b' : Str,
    line = b ++ (key ++ (mid ++ (v ++ b'))) ∧ (∀ x ∈ b, isspace x = true) ∧ (∀ x ∈ b', isspace x = true) ∧
      Between sep mid := by
  have htake : ∀ (t : Str), ∀ x ∈ t.takeWhile isspace, isspace x = true := fun t x hx => List.mem_takeWhile_imp hx
  have htail : ∀ (t : Str), ∀ x ∈ t.rtakeWhile isspace, isspace x = true := fun t x hx => List.mem_rtakeWhile_imp hx
  have hsplit : ∀ t : Str, t.takeWhile isspace ++ (trim t ++ (t.dropWhile isspace).rtakeWhile isspace) = t := by
    intro t
    rw [trim_eq, List.rdropWhile_append_rtakeWhile, List.takeWhile_append_dropWhile]
  unfold captured afterKey at h
  by_cases hpre : key <+: line.dropWhile isspace
  · rw [if_pos hpre] at h
    dsimp only at h
    obtain ⟨rest, hrest⟩ := hpre
    rw [← hrest, List.drop_left] at h
    have hline : line = line.takeWhile isspace ++ (key ++ rest) := by rw [hrest, List.takeWhile_append_dropWhile]
    unfold Between
    by_cases hspace : sep = ' '
    · rw [if_pos hspace] at h
      split at h
      · next hmem =>
        cases h
        refine ⟨line.takeWhile isspace, rest.takeWhile isspace, (rest.dropWhile isspace).rtakeWhile isspace, ?_,
          htake line, htail _, ?_⟩
        · rw [hsplit rest]
          exact hline
        · rw [if_pos hspace]
          exact ⟨List.ne_nil_of_mem hmem, htake rest⟩
      · cases h
    · rw [if_neg hspace] at h
      split at h
      · next hhead =>
        cases h
        obtain ⟨r, hr⟩ : ∃ r, rest.dropWhile isspace = sep :: r := by
          cases hdrop : rest.dropWhile isspace with
          | nil =>
            rw [hdrop] at hhead
            cases hhead
          | cons x r =>
            rw [hdrop] at hhead
            exact ⟨r, by rw [Option.some.inj hhead]⟩
        rw [hr, List.tail_cons]
        refine ⟨line.takeWhile isspace, rest.takeWhile isspace ++ sep :: r.takeWhile isspace,
          (r.dropWhile isspace).rtakeWhile isspace, ?_, htake line, htail _, ?_⟩
        · rw [List.append_assoc, List.cons_append, hsplit r, ← hr, List.takeWhile_append_dropWhile]
          exact hline
        · rw [if_neg hspace]
          exact ⟨rest.takeWhile isspace, r.takeWhile isspace, rfl, htake rest, htake r⟩
      · cases h
  · rw [if_neg hpre] at h
    cases h

theorem rdropWhile_append_blanks (t : Str) {b : Str} (hb : ∀ x ∈ b, isspace x = true) :
    (t ++ b).rdropWhile isspace = t.rdropWhile isspace := by
  rw [List.rdropWhile, List.reverse_append, List.dropWhile_append_of_pos fun x hx => hb x (List.mem_reverse.mp hx)]
  rfl

theorem rdropWhile_append_of_ne {t : Str} (ht : t.rdropWhile isspace ≠ []) (a : Str) :
    (a ++ t).rdropWhile isspace = a ++ t.rdropWhile isspace := by
  have hne : t.reverse.dropWhile isspace ≠ [] := fun h => ht (by rw [List.rdropWhile, h, List.reverse_nil])
  rw [List.rdropWhile, List.reverse_append, List.dropWhile_append, if_neg (by simpa using hne), List.reverse_append,
    List.reverse_reverse]
  rfl

theorem rdropWhile_word {w : Str} (hw : ∀ x ∈ w, isspace x = false) : w.rdropWhile isspace = w := by
  rcases List.eq_nil_or_concat w with rfl | ⟨u, x, rfl⟩
  · rfl
  · rw [List.concat_eq_append] at hw ⊢
    exact List.rdropWhile_concat_neg isspace u x (by rw [hw x (by simp)]; exact Bool.false_ne_true)

/-- A key at the front, behind blanks. -/
theorem trim_key (hkey : IsKey key) {b : Str} (hb : ∀ x ∈ b, isspace x = true) (z : Str) :
    trim (b ++ (key ++ z)) = key ++ z.rdropWhile isspace := by
  have hdrop : (key ++ z).dropWhile isspace = key ++ z := by
    obtain ⟨x, k, rfl⟩ := List.exists_cons_of_ne_nil hkey.nonempty
    exact List.dropWhile_cons_of_neg (by rw [(hkey.chars x List.mem_cons_self).1]; exact Bool.false_ne_true)
  rw [trim_blanks_append hb, trim_eq, hdrop]
  by_cases hz : z.rdropWhile isspace = []
  · have hblank : ∀ x ∈ z, isspace x = true := List.rdropWhile_eq_nil_iff.mp hz
    rw [hz, List.append_nil, rdropWhile_append_blanks key hblank, rdropWhile_word fun x hx => (hkey.chars x hx).1]
  · exact rdropWhile_append_of_ne hz key

/-- The end of a text, or something that ends a key. -/
def EndsKey (y : Str) : Prop := ∀ x, y.head? = some x → isspace x = true ∨ x = '='

theorem takeWhile_key {p : Char → Bool} (hp : ∀ x ∈ key, p x = true) {y : Str} (hy : ∀ x, y.head? = some x →
    p x = false) :
    (key ++ y).takeWhile p = key ∧ (key ++ y).dropWhile p = y := by
  rw [List.takeWhile_append_of_pos hp, List.dropWhile_append_of_pos hp]
  cases y with
  | nil => exact ⟨List.append_nil key, rfl⟩
  | cons x y =>
    have hx := hy x rfl
    rw [List.takeWhile_cons_of_neg (by rw [hx]; exact Bool.false_ne_true),
      List.dropWhile_cons_of_neg (by rw [hx]; exact Bool.false_ne_true)]
    exact ⟨List.append_nil key, rfl⟩

theorem equalsSplit_key (hkey : IsKey key) {y : Str} (hy : EndsKey y) : equalsSplit (key ++ y) =
    if (y.dropWhile isspace).head? = some '=' then some (key, trim (y.dropWhile isspace).tail) else none := by
  have hin : ∀ x ∈ key, inKey x = true := by
    intro x hx
    obtain ⟨hspace, heq, -⟩ := hkey.chars x hx
    rw [inKey, hspace, Bool.not_false, Bool.and_true, bne_iff_ne]
    exact heq
  have hout : ∀ x, y.head? = some x → inKey x = false := by
    intro x hx
    rcases hy x hx with h | rfl
    · rw [inKey, h, Bool.not_true, Bool.and_false]
    · rfl
  obtain ⟨htake, hdrop⟩ := takeWhile_key hin hout
  unfold equalsSplit
  rw [htake, hdrop]
  by_cases h : (y.dropWhile isspace).head? = some '='
  · rw [if_pos ⟨hkey.nonempty, h⟩, if_pos h]
  · rw [if_neg fun h' => h h'.2, if_neg h]

theorem blankSplit_key (hkey : IsKey key) {y : Str} (hy : ∀ x, y.head? = some x → isspace x = true) :
    blankSplit (key ++ y) = if y ≠ [] then some (key, trim y) else none := by
  obtain ⟨htake, hdrop⟩ := @takeWhile_key key (fun x => !isspace x)
    (fun x hx => by rw [(hkey.chars x hx).1]; rfl) y fun x hx => by rw [hy x hx]; rfl
  unfold blankSplit
  rw [htake, hdrop]
  by_cases h : y = []
  · rw [if_neg fun h' => h'.2 h, if_neg fun h' => h' h]
  · rw [if_pos ⟨hkey.nonempty, h⟩, if_pos h]

/-- What a line gives to the key at its front. -/
def valueBehind (y : Str) : Option Str :=
  if (y.dropWhile isspace).head? = some '=' then some (trim (y.dropWhile isspace).tail)
  else if y ≠ [] then some (trim y) else none

theorem split_key (hkey : IsKey key) {y : Str} (hy : EndsKey y) :
    (equalsSplit (key ++ y)).or (blankSplit (key ++ y)) = (valueBehind y).map fun v => (key, v) := by
  rw [equalsSplit_key hkey hy, valueBehind]
  by_cases hhead : (y.dropWhile isspace).head? = some '='
  · rw [if_pos hhead, if_pos hhead]
    rfl
  · rw [if_neg hhead, if_neg hhead, Option.none_or, blankSplit_key hkey fun x hx => ?_]
    · split <;> rfl
    · refine (hy x hx).resolve_right ?_
      rintro rfl
      cases y with
      | nil => cases hx
      | cons z y =>
        obtain rfl : z = '=' := Option.some.inj hx
        exact hhead rfl

/-- **A line with the key at its front** gives no value to another key. -/
theorem parseLine_key (hkey : IsKey key) {line y : Str} (hline : trim (stripInlineComment line) = key ++ y)
    (hy : EndsKey y) : parseLine .none line = match headerName (key ++ y) with
      | some name => some (.header name)
      | none => (valueBehind y).map fun v => .entry key (unquote v) := by
  have hhash : ¬(key ++ y = [] ∨ (key ++ y).head? = some '#') := by
    obtain ⟨x, k, rfl⟩ := List.exists_cons_of_ne_nil hkey.nonempty
    rintro (h | h)
    · cases h
    · exact (hkey.chars x List.mem_cons_self).2.2 (Option.some.inj h)
  rw [parseLine_eq]
  dsimp only
  rw [hline, if_neg hhash]
  cases headerName (key ++ y) with
  | some name => rfl
  | none =>
    dsimp only
    rw [show (if Options.none.allowWhitespaceAssignment = true then blankSplit (key ++ y) else none) =
      blankSplit (key ++ y) from rfl, split_key hkey hy, Option.map_map]
    refine congrArg (Option.map · _) (funext fun v => ?_)
    exact congrArg (Parsed.entry key) (normalizeValue_eq v)

theorem endsKey_append {mid : Str} (hsep : IsSep sep) (hmid : Between sep mid) (z : Str) : EndsKey (mid ++ z) := by
  obtain ⟨hne, hchars⟩ := hmid.chars hsep
  obtain ⟨x, m, rfl⟩ := List.exists_cons_of_ne_nil hne
  intro y hy
  obtain rfl : x = y := Option.some.inj hy
  exact hchars x List.mem_cons_self

theorem EndsKey.of_isPrefix {y z : Str} (h : EndsKey z) (hyz : y <+: z) : EndsKey y := by
  intro x hx
  obtain ⟨t, rfl⟩ := hyz
  refine h x ?_
  rw [List.head?_append, hx]
  rfl

theorem hash_front (hkey : IsKey key) (hsep : IsSep sep) {b mid : Str} (hb : ∀ x ∈ b, isspace x = true)
    (hmid : Between sep mid) : '#' ∉ b ++ (key ++ mid) := by
  intro hmem
  rcases List.mem_append.mp hmem with h | h
  · exact absurd (hb _ h) (by decide)
  · rcases List.mem_append.mp h with h | h
    · exact (hkey.chars _ h).2.2 rfl
    · rcases (hmid.chars hsep).2 _ h with h | h
      · exact absurd h (by decide)
      · cases h

/-- What is left of a line that the pattern takes. -/
theorem trim_stripped (hkey : IsKey key) (hsep : IsSep sep) {line v : Str} (h : captured key sep line = some v) :
    ∃ y, trim (stripInlineComment line) = key ++ y ∧ EndsKey y := by
  obtain ⟨b, mid, b', rfl, hb, -, hmid⟩ := captured_parts h
  have hassoc : b ++ (key ++ (mid ++ (v ++ b'))) = b ++ (key ++ mid) ++ (v ++ b') := by simp only [List.append_assoc]
  rw [stripInlineComment, hassoc, stripLoop_append (hash_front hkey hsep hb hmid)]
  generalize stripLoop _ _ (v ++ b') = rest
  refine ⟨(mid ++ rest).rdropWhile isspace, ?_, (endsKey_append hsep hmid rest).of_isPrefix
    (List.rdropWhile_prefix isspace _)⟩
  rw [← trim_key hkey hb (mid ++ rest)]
  simp only [List.append_assoc]

/-- **The pattern takes no line of another key.** -/
theorem assignsOther_of_captured (hkey : IsKey key) (hsep : IsSep sep) {line v : Str}
    (h : captured key sep line = some v) : assignsOther key line = false := by
  obtain ⟨y, hline, hy⟩ := trim_stripped hkey hsep h
  rw [assignsOther, parseLine_key hkey hline hy]
  cases headerName (key ++ y) with
  | some name => rfl
  | none =>
    cases valueBehind y with
    | none => rfl
    | some w => exact decide_eq_false fun hne => hne rfl

/-! ## A value of one word -/

/-- A single word. -/
def IsWord (w : Str) : Prop := w ≠ [] ∧ ∀ x ∈ w, isspace x = false

/-- The value is taken for a comment: it begins with `#` behind a blank, outside quotes. -/
def Commented (key value line : Str) : Prop :=
  value.head? = some '#' ∧ ¬Odd (key.count '"') ∧ ¬ '=' :: value <:+ trim line

/-- A line that gives the value to the key. -/
def Legible (key : Str) (sep : Char) (value line : Str) : Prop :=
  ¬Commented key value line ∧ isHeader (trim line) = false ∧ (sep = '=' ∨ value.head? ≠ some '=')

/-- A line that gives nothing to the key. -/
def Silent (key : Str) (sep : Char) (value line : Str) : Prop :=
  (¬Commented key value line ∧ isHeader (trim line) = true) ∨ (Commented key value line ∧ sep = ' ')

theorem count_quote {t : Str} (ht : ∀ x ∈ t, isspace x = true ∨ x = '=') : t.count '"' = 0 := by
  rw [List.count_eq_zero]
  intro hmem
  rcases ht _ hmem with h | h
  · exact absurd h (by decide)
  · cases h

/-- The text of a line, with and without its comment. -/
theorem stripped_word (hkey : IsKey key) (hsep : IsSep sep) {line v : Str} (hv : IsWord v)
    (h : captured key sep line = some v) : ∃ mid, Between sep mid ∧ trim line = key ++ (mid ++ v) ∧
      (Commented key v line → trim (stripInlineComment line) = key ++ mid.rdropWhile isspace) ∧
      (¬Commented key v line → trim (stripInlineComment line) = key ++ (mid ++ v)) := by
  obtain ⟨b, mid, b', rfl, hb, hb', hmid⟩ := captured_parts h
  obtain ⟨hne, hchars⟩ := hmid.chars hsep
  have hassoc : b ++ (key ++ (mid ++ (v ++ b'))) = b ++ (key ++ mid) ++ (v ++ b') := by simp only [List.append_assoc]
  have hword : (mid ++ (v ++ b')).rdropWhile isspace = mid ++ v := by
    rw [← List.append_assoc, rdropWhile_append_blanks _ hb',
      rdropWhile_append_of_ne (by rw [rdropWhile_word hv.2]; exact hv.1),
      rdropWhile_word hv.2]
  have htrim : trim (b ++ (key ++ (mid ++ (v ++ b')))) = key ++ (mid ++ v) := by rw [trim_key hkey hb, hword]
  have hcount : (b ++ (key ++ mid)).count '"' = key.count '"' := by
    rw [List.count_append, List.count_append, count_quote hchars, count_quote fun x hx => .inl (hb x hx)]
    omega
  obtain ⟨x, hlast⟩ : ∃ x, mid.getLast? = some x := ⟨_, List.getLast?_eq_some_getLast hne⟩
  have hprevious : ((b ++ (key ++ mid)).getLast?).or none = some x := by
    rw [List.getLast?_append, List.getLast?_append, hlast]
    rfl
  have hstrip : stripInlineComment (b ++ (key ++ (mid ++ (v ++ b')))) =
      b ++ (key ++ mid) ++ stripLoop (decide (Odd (key.count '"'))) (some x) (v ++ b') := by
    rw [stripInlineComment, hassoc, stripLoop_append (hash_front hkey hsep hb hmid), hcount, hprevious, Bool.false_xor]
  have hsuffix : '=' :: v <:+ trim (b ++ (key ++ (mid ++ (v ++ b')))) ↔ x = '=' := by
    obtain ⟨m, rfl⟩ : ∃ m, mid = m ++ [x] := List.getLast?_eq_some_iff.mp hlast
    have hsame : key ++ (m ++ [x] ++ v) = key ++ m ++ (x :: v) := by simp
    rw [htrim, hsame]
    constructor
    · rintro ⟨t, ht⟩
      have hlen := List.append_inj_right' ht rfl
      exact (List.cons.inj hlen).1.symm
    · rintro rfl
      exact List.suffix_append _ _
  refine ⟨mid, hmid, htrim, fun hcomment => ?_, fun hcomment => ?_⟩
  · obtain ⟨hhead, hodd, hno⟩ := hcomment
    obtain ⟨w, rfl⟩ : ∃ w, v = '#' :: w := by
      cases v with
      | nil => cases hhead
      | cons y w => exact ⟨w, by rw [Option.some.inj hhead]⟩
    have hblank : isspace x = true :=
      (hchars x (List.mem_of_getLast? hlast)).resolve_right fun hx => hno (hsuffix.mpr hx)
    rw [hstrip, List.cons_append, stripLoop, if_neg (by decide), if_pos ⟨rfl, decide_eq_false hodd, hblank⟩,
      List.append_nil, trim_key hkey hb]
  · have hwhole : stripLoop (decide (Odd (key.count '"'))) (some x) (v ++ b') = v ++ b' := by
      refine stripLoop_word hv.2 hb' fun hhead => ?_
      by_cases hodd : Odd (key.count '"')
      · exact .inl (decide_eq_true hodd)
      · have heq : x = '=' := by
          by_contra hx
          exact hcomment ⟨hhead, hodd, fun hsuf => hx (hsuffix.mp hsuf)⟩
        rw [heq]
        exact .inr rfl
    rw [hstrip, hwhole, ← hassoc, htrim]

theorem trim_word {w b : Str} (hw : ∀ x ∈ w, isspace x = false) (hb : ∀ x ∈ b, isspace x = true) :
    trim (b ++ w) = w := by
  have htrimmed : Trimmed w := ⟨fun x hx => hw x (List.mem_of_head? hx), fun x hx => hw x (List.mem_of_getLast? hx)⟩
  rw [trim_blanks_append hb, trim_of_trimmed htrimmed]

theorem dropWhile_word {w b : Str} (hw : IsWord w) (hb : ∀ x ∈ b, isspace x = true) :
    (b ++ w).dropWhile isspace = w := by
  rw [List.dropWhile_append_of_pos hb]
  obtain ⟨x, u, rfl⟩ := List.exists_cons_of_ne_nil hw.1
  exact List.dropWhile_cons_of_neg (by rw [hw.2 x List.mem_cons_self]; exact Bool.false_ne_true)

/-- What the reader takes for the value of the word. -/
theorem valueBehind_word (hsep : IsSep sep) {mid v : Str} (hmid : Between sep mid) (hv : IsWord v) :
    valueBehind (mid ++ v) = some (if sep = ' ' ∧ v.head? = some '=' then v.tail else v) ∧
      valueBehind (mid.rdropWhile isspace) = if sep = ' ' then none else some [] := by
  unfold Between at hmid
  unfold valueBehind
  by_cases hspace : sep = ' '
  · rw [if_pos hspace] at hmid
    have hnil : mid.rdropWhile isspace = [] := List.rdropWhile_eq_nil_iff.mpr hmid.2
    have hne : mid ++ v ≠ [] := fun h => hmid.1 (List.append_eq_nil_iff.mp h).1
    rw [dropWhile_word hv hmid.2, hnil, if_pos hspace]
    refine ⟨?_, rfl⟩
    by_cases hhead : v.head? = some '='
    · have htail : ∀ x ∈ v.tail, isspace x = false := fun x hx => hv.2 x (List.mem_of_mem_tail hx)
      rw [if_pos hhead, if_pos ⟨hspace, hhead⟩]
      exact congrArg some (trim_word htail (fun x hx => absurd hx List.not_mem_nil : ∀ x ∈ ([] : Str),
        isspace x = true))
    · rw [if_neg hhead, if_pos hne, if_neg fun h => hhead h.2, trim_word hv.2 hmid.2]
  · rw [if_neg hspace] at hmid
    obtain rfl : sep = '=' := hsep.resolve_right hspace
    obtain ⟨b, b', rfl, hb, hb'⟩ := hmid
    have hdrop : ∀ r : Str, (b ++ '=' :: r).dropWhile isspace = '=' :: r := by
      intro r
      rw [List.dropWhile_append_of_pos hb]
      rfl
    have hend : (b ++ '=' :: b').rdropWhile isspace = b ++ '=' :: [] := by
      have hsame : b ++ '=' :: b' = b ++ ['='] ++ b' := by simp
      rw [hsame, rdropWhile_append_blanks _ hb']
      exact List.rdropWhile_concat_neg isspace b '=' (by decide)
    rw [List.append_assoc, List.cons_append, hdrop, hend, hdrop, List.head?_cons, if_pos rfl, List.tail_cons,
      trim_word hv.2 hb', if_neg fun h => hspace h.1, List.head?_cons, if_pos rfl, if_neg hspace]
    exact ⟨rfl, rfl⟩

theorem getLast_of_headerName {t name : Str} (h : headerName t = some name) : t.getLast? = some ']' := by
  unfold headerName at h
  split at h
  · next u =>
    split at h
    · next hsplit =>
      have hu : u = u.takeWhile (· != ']') ++ [']'] := by
        have := @List.takeWhile_append_dropWhile _ (· != ']') u
        rw [hsplit.2] at this
        exact this.symm
      rw [hu, ← List.cons_append, List.getLast?_append]
      rfl
    · cases h
  · cases h

/-- **What a line that the pattern takes gives to the key.** -/
theorem assigned_captured (hkey : IsKey key) (hsep : IsSep sep) {line v : Str} (hv : IsWord v)
    (h : captured key sep line = some v) :
    (Commented key v line → assigned key line = if sep = ' ' then none else some []) ∧
    (¬Commented key v line → assigned key line = if isHeader (trim line) then none
      else some (unquote (if sep = ' ' ∧ v.head? = some '=' then v.tail else v))) := by
  obtain ⟨mid, hmid, htrim, hcomment, hplain⟩ := stripped_word hkey hsep hv h
  obtain ⟨hvalue, hempty⟩ := valueBehind_word hsep hmid hv
  have hends : EndsKey (mid.rdropWhile isspace) := by
    have hend := endsKey_append hsep hmid []
    rw [List.append_nil] at hend
    exact hend.of_isPrefix (List.rdropWhile_prefix isspace _)
  refine ⟨fun hc => ?_, fun hc => ?_⟩
  · rw [assigned, parseLine_key hkey (hcomment hc) hends, hempty]
    by_cases hspace : sep = ' '
    · rw [if_pos hspace]
      cases headerName (key ++ mid.rdropWhile isspace) <;> rfl
    · rw [if_neg hspace]
      cases hheader : headerName (key ++ mid.rdropWhile isspace) with
      | none => exact if_pos rfl
      | some name =>
        -- the line ends with the separator
        obtain rfl : sep = '=' := hsep.resolve_right hspace
        unfold Between at hmid
        rw [if_neg hspace] at hmid
        obtain ⟨b, b', rfl, hb, hb'⟩ := hmid
        have hlast := getLast_of_headerName hheader
        have hsame : b ++ '=' :: b' = b ++ ['='] ++ b' := by simp
        rw [hsame, rdropWhile_append_blanks _ hb', List.rdropWhile_concat_neg isspace b '=' (by decide),
          ← List.append_assoc, List.getLast?_append] at hlast
        exact absurd hlast (by simp)
  · rw [assigned, parseLine_key hkey (hplain hc) (endsKey_append hsep hmid v), hvalue, htrim, isHeader_eq]
    cases headerName (key ++ (mid ++ v)) with
    | some name => rfl
    | none => exact if_pos rfl

theorem unquote_ne_nil {v : Str} (h : v.head? = some '#') : unquote v ≠ [] := by
  cases v with
  | nil => cases h
  | cons x w =>
    obtain rfl : x = '#' := Option.some.inj h
    unfold unquote
    simp only [List.head?_cons, Option.some.injEq, show ¬ '#' = '"' by decide, if_false]
    cases w with
    | nil => decide
    | cons y u =>
      split
      · simp
      · simp

theorem unquote_tail_ne {v : Str} (h : v.head? = some '=') : unquote v.tail ≠ unquote v := by
  cases v with
  | nil => cases h
  | cons x w =>
    obtain rfl : x = '=' := Option.some.inj h
    intro heq
    have hlen := congrArg List.length heq
    unfold unquote at hlen
    cases w with
    | nil => exact absurd hlen (by decide)
    | cons y u =>
      have hlast : ('=' :: y :: u).getLast? = (y :: u).getLast? := by rw [List.getLast?_cons_cons]
      simp only [List.head?_cons, List.tail_cons, hlast, Option.some.injEq, if_false,
        show ¬ '=' = '"' by decide] at hlen
      by_cases hy : y = '"'
      · rw [if_pos hy] at hlen
        cases u with
        | nil =>
          rw [hy] at hlen
          exact absurd hlen (by decide)
        | cons z u =>
          rw [List.getLast?_cons_cons] at hlen
          split at hlen <;> simp only [List.length_dropLast, List.length_cons] at hlen <;> omega
      · rw [if_neg hy] at hlen
        split at hlen <;> simp only [List.length_dropLast, List.length_cons] at hlen <;> omega

theorem assigned_eq_some_iff (hkey : IsKey key) (hsep : IsSep sep) {line v : Str} (hv : IsWord v)
    (h : captured key sep line = some v) : assigned key line = some (unquote v) ↔ Legible key sep v line := by
  obtain ⟨hcommented, hplain⟩ := assigned_captured hkey hsep hv h
  unfold Legible
  by_cases hc : Commented key v line
  · rw [hcommented hc]
    refine iff_of_false (fun heq => ?_) fun hl => hl.1 hc
    split at heq
    · cases heq
    · exact unquote_ne_nil hc.1 (Option.some.inj heq).symm
  · rw [hplain hc]
    by_cases hheader : isHeader (trim line) = true
    · rw [if_pos hheader]
      exact iff_of_false (by simp) fun hl => by rw [hl.2.1] at hheader; cases hheader
    · rw [if_neg hheader]
      by_cases hbad : sep = ' ' ∧ v.head? = some '='
      · rw [if_pos hbad]
        refine iff_of_false (fun heq => unquote_tail_ne hbad.2 (Option.some.inj heq)) fun hl => ?_
        rcases hl.2.2 with heq | hhead
        · rw [heq] at hbad
          exact absurd hbad.1 (by decide)
        · exact hhead hbad.2
      · rw [if_neg hbad]
        refine iff_of_true rfl ⟨hc, Bool.eq_false_iff.mpr hheader, ?_⟩
        rcases hsep with heq | hspace
        · exact .inl heq
        · exact .inr fun hhead => hbad ⟨hspace, hhead⟩

theorem assigned_eq_none_iff (hkey : IsKey key) (hsep : IsSep sep) {line v : Str} (hv : IsWord v)
    (h : captured key sep line = some v) : assigned key line = none ↔ Silent key sep v line := by
  obtain ⟨hcommented, hplain⟩ := assigned_captured hkey hsep hv h
  unfold Silent
  by_cases hc : Commented key v line
  · rw [hcommented hc]
    by_cases hspace : sep = ' '
    · rw [if_pos hspace]
      exact iff_of_true rfl (.inr ⟨hc, hspace⟩)
    · rw [if_neg hspace]
      refine iff_of_false (by simp) ?_
      rintro (hs | hs)
      · exact hs.1 hc
      · exact hspace hs.2
  · rw [hplain hc]
    by_cases hheader : isHeader (trim line) = true
    · rw [if_pos hheader]
      exact iff_of_true rfl (.inl ⟨hc, hheader⟩)
    · rw [if_neg hheader]
      refine iff_of_false (by simp) ?_
      rintro (hs | hs)
      · exact hheader hs.2
      · exact hc hs.1

end Reader

/-! ## The edit -/

section Edit

variable {key : Str} {sep : Char}

/-- The lines before the first one that the pattern takes. -/
def before (key : Str) (sep : Char) (lines : List Str) : List Str :=
  lines.takeWhile fun line => (captured key sep line).isNone

/-- That line, and those behind it. -/
def onward (key : Str) (sep : Char) (lines : List Str) : List Str :=
  lines.dropWhile fun line => (captured key sep line).isNone

/-- The lines behind it that the pattern does not take. -/
def later (key : Str) (sep : Char) (lines : List Str) : List Str :=
  (onward key sep lines).tail.filter fun line => (captured key sep line).isNone

/-- The only line that the pattern takes has the value already. -/
def InOrder (key : Str) (sep : Char) (value : Str) (lines : List Str) : Prop :=
  ((onward key sep lines).head?.bind (captured key sep) = some value) ∧
    ∀ line ∈ (onward key sep lines).tail, captured key sep line = none

instance (value : Str) (lines : List Str) : Decidable (InOrder key sep value lines) :=
  inferInstanceAs (Decidable (_ ∧ _))

/-- The line of the key: the one that is there if it has the value, and a new one otherwise. -/
def standing (key : Str) (sep : Char) (value : Str) (lines : List Str) : Str :=
  if InOrder key sep value lines then (onward key sep lines).headD [] else key ++ sep :: value

theorem before_append_onward (lines : List Str) : before key sep lines ++ onward key sep lines = lines :=
  List.takeWhile_append_dropWhile

theorem captured_before {lines : List Str} : ∀ line ∈ before key sep lines, captured key sep line = none :=
  fun _ hmem => Option.isNone_iff_eq_none.mp (@List.mem_takeWhile_imp _
    (fun line => (captured key sep line).isNone) _ _ hmem)

theorem onward_cases (lines : List Str) : onward key sep lines = [] ∨
    ∃ line after v, onward key sep lines = line :: after ∧ captured key sep line = some v := by
  cases h : onward key sep lines with
  | nil => exact .inl rfl
  | cons line after =>
    have hhead := List.head?_dropWhile_not (fun line => (captured key sep line).isNone) lines
    rw [show lines.dropWhile (fun line => (captured key sep line).isNone) = line :: after from h] at hhead
    cases hline : captured key sep line with
    | none => simp [hline] at hhead
    | some v => exact .inr ⟨line, after, v, rfl, hline⟩

theorem not_inOrder {value : Str} {lines : List Str} (h : onward key sep lines = []) :
    ¬InOrder key sep value lines := by
  unfold InOrder
  rw [h]
  exact fun h' => by cases h'.1

theorem inOrder_iff {value line : Str} {lines after : List Str} (h : onward key sep lines = line :: after) :
    InOrder key sep value lines ↔
      captured key sep line = some value ∧ ∀ l ∈ after, captured key sep l = none := by
  unfold InOrder
  rw [h]
  rfl

/-- The pattern of `set_key_value`. -/
def setPattern (key : Str) (sep : Char) : Str := '^' ::
    ("%s*" ++ (escaped key ++ ("%s*" ++ '%' :: sep :: "%s*(.-)%s*$")))

theorem keyValueLoop_before (hkey : IsKey key) (hsep : IsSep sep) {newLine value : Str} : ∀ {front rest : List Str}
    {st : KeyValueState}, (∀ line ∈ front, captured key sep line = none) →
    keyValueLoop (setPattern key sep) newLine value (front ++ rest) st =
      keyValueLoop (setPattern key sep) newLine value rest { st with lines := st.lines ++ front }
  | [], _, st, _ => by rw [List.append_nil]; rfl
  | line :: front, rest, st, h => by
    rw [List.cons_append, keyValueLoop, setPattern, strMatch_keyValue hkey hsep, h line List.mem_cons_self]
    have ih := @keyValueLoop_before hkey hsep newLine value front rest { st with lines := st.lines ++ [line] }
      fun l hl => h l (List.mem_cons_of_mem line hl)
    rw [List.append_assoc] at ih
    exact ih

/-- Behind the first line that the pattern takes, the others are dropped. -/
theorem keyValueLoop_later (hkey : IsKey key) (hsep : IsSep sep) {newLine value : Str} : ∀ {rest : List Str}
    {st : KeyValueState}, 0 < st.matchCount → keyValueLoop (setPattern key sep) newLine value rest st =
      .ok { lines := st.lines ++ rest.filter fun line => (captured key sep line).isNone
            matchCount := st.matchCount + rest.countP fun line => (captured key sep line).isSome
            needsWrite := st.needsWrite || rest.any fun line => (captured key sep line).isSome }
  | [], st, _ => by
    rw [keyValueLoop, List.filter_nil, List.append_nil, List.countP_nil, List.any_nil, Bool.or_false]
    rfl
  | line :: rest, st, h => by
    rw [keyValueLoop, setPattern, strMatch_keyValue hkey hsep, List.filter_cons, List.countP_cons, List.any_cons]
    cases hline : captured key sep line with
    | none =>
      have ih := @keyValueLoop_later hkey hsep newLine value rest { st with lines := st.lines ++ [line] } h
      rw [List.append_assoc] at ih
      exact ih
    | some v =>
      dsimp only [Option.map_some, bind, Except.bind]
      rw [if_neg (by omega)]
      have ih := @keyValueLoop_later hkey hsep newLine value rest
        ⟨st.lines, st.matchCount + 1, st.needsWrite || !((Value.str v).rawEq (.str value)) || decide
          (0 < st.matchCount)⟩
        (Nat.succ_pos _)
      refine ih.trans (congrArg Except.ok ?_)
      rw [decide_eq_true h]
      simp only [Option.isNone_some, Bool.false_eq_true, if_false, Option.isSome_some, if_true, Bool.or_true,
        Bool.true_or, KeyValueState.mk.injEq, true_and, and_true]
      omega

/-- **The edit as a whole.** -/
theorem editKeyValue_eq (hkey : IsKey key) (hsep : IsSep sep) (value : Str) (lines : List Str) :
    editKeyValue key [sep] value lines = .ok (if InOrder key sep value lines then none
      else some (before key sep lines ++ (key ++ sep :: value) :: later key sep lines)) := by
  have hloop := @keyValueLoop_before key sep hkey hsep (key ++ [sep] ++ value) value (before key sep lines)
    (onward key sep lines) ⟨[], 0, false⟩ captured_before
  rw [before_append_onward] at hloop
  unfold editKeyValue
  rw [keyValuePattern_eq key hsep]
  dsimp only [bind, Except.bind, pure, Except.pure]
  rw [← setPattern, hloop]
  unfold later
  rcases @onward_cases key sep lines with hnil | ⟨line, after, v, hcons, hv⟩
  · have hall := @before_append_onward key sep lines
    rw [hnil, List.append_nil] at hall
    rw [if_neg (not_inOrder hnil), hnil, keyValueLoop]
    simp
  · have hneeds : (false || !((Value.str v).rawEq (.str value)) || decide (0 < 0) ||
        after.any fun line => (captured key sep line).isSome) = true ↔ ¬InOrder key sep value lines := by
      rw [inOrder_iff hcons, hv, Option.some.injEq, not_and_or, decide_eq_false (Nat.lt_irrefl 0), Bool.false_or,
        Bool.or_false, Bool.or_eq_true, List.any_eq_true]
      refine or_congr ?_ ?_
      · rw [Bool.not_eq_true', Bool.eq_false_iff, ne_eq, Value.rawEq_str, Value.str.injEq]
      · simp only [Option.isSome_iff_ne_none, ne_eq, not_forall, exists_prop]
    rw [hcons, keyValueLoop, setPattern, strMatch_keyValue hkey hsep, hv]
    dsimp only [Option.map_some, bind, Except.bind]
    rw [if_pos rfl, ← setPattern, keyValueLoop_later hkey hsep (Nat.succ_pos _)]
    dsimp only
    rw [if_neg (by omega), List.tail_cons]
    by_cases hin : InOrder key sep value lines
    · rw [if_neg fun h => hneeds.mp h hin, if_pos hin]
    · rw [if_pos (hneeds.mpr hin), if_neg hin]
      simp

/-- The new line is one that the pattern takes, with the value. -/
theorem captured_new (hkey : IsKey key) (hsep : IsSep sep) {value : Str} (hvalue : IsWord value) :
    captured key sep (key ++ sep :: value) = some value := by
  have hafter : afterKey key (key ++ sep :: value) = some (sep :: value) := by
    have hdrop : (key ++ sep :: value).dropWhile isspace = key ++ sep :: value := by
      obtain ⟨x, k, rfl⟩ := List.exists_cons_of_ne_nil hkey.nonempty
      exact List.dropWhile_cons_of_neg (by rw [(hkey.chars x List.mem_cons_self).1]; exact Bool.false_ne_true)
    rw [afterKey, hdrop, if_pos (List.prefix_append key _), List.drop_left]
  rw [captured, hafter]
  dsimp only
  rcases hsep with rfl | rfl
  · have hdrop : ('=' :: value).dropWhile isspace = '=' :: value := rfl
    have htrim := @trim_word value [] hvalue.2 fun x hx => absurd hx List.not_mem_nil
    rw [if_neg (by decide), hdrop, List.head?_cons, if_pos rfl, List.tail_cons]
    exact congrArg some htrim
  · have htake : (' ' :: value).takeWhile isspace = ' ' :: value.takeWhile isspace := rfl
    have htrim := @trim_word value [' '] hvalue.2 fun x hx => by rw [List.mem_singleton.mp hx]; rfl
    rw [if_pos rfl, htake, if_pos List.mem_cons_self]
    exact congrArg some htrim

theorem captured_standing (hkey : IsKey key) (hsep : IsSep sep) {value : Str} (hvalue : IsWord value)
    (lines : List Str) : captured key sep (standing key sep value lines) = some value := by
  unfold standing
  by_cases hin : InOrder key sep value lines
  · rw [if_pos hin]
    rcases @onward_cases key sep lines with hnil | ⟨line, after, v, hcons, -⟩
    · exact absurd hin (not_inOrder hnil)
    · rw [hcons]
      exact ((inOrder_iff hcons).mp hin).1
  · rw [if_neg hin]
    exact captured_new hkey hsep hvalue

theorem captured_later {lines : List Str} : ∀ line ∈ later key sep lines, captured key sep line = none :=
  fun _ hmem => Option.isNone_iff_eq_none.mp (List.mem_filter.mp hmem).2

/-- What is in the file after the edit. -/
def edited (key : Str) (sep : Char) (value : Str) (lines : List Str) : List Str :=
  before key sep lines ++ standing key sep value lines :: later key sep lines

theorem edited_of_inOrder {value : Str} {lines : List Str} (h : InOrder key sep value lines) :
    edited key sep value lines = lines := by
  rcases @onward_cases key sep lines with hnil | ⟨line, after, v, hcons, -⟩
  · exact absurd h (not_inOrder hnil)
  · have hall := @before_append_onward key sep lines
    have hafter : after.filter (fun line => (captured key sep line).isNone) = after :=
      List.filter_eq_self.mpr fun l hl => Option.isNone_iff_eq_none.mpr (((inOrder_iff hcons).mp h).2 l hl)
    unfold edited standing later
    rw [if_pos h, hcons, List.headD_cons, List.tail_cons, hafter, ← hcons]
    exact hall

/-- The parts of the edited lines are those they were put together from. -/
theorem inOrder_edited (hkey : IsKey key) (hsep : IsSep sep) {value : Str} (hvalue : IsWord value) (lines : List Str) :
    InOrder key sep value (edited key sep value lines) := by
  have hcaptured := captured_standing hkey hsep hvalue lines
  have honward : onward key sep (edited key sep value lines) = standing key sep value lines :: later key sep lines := by
    unfold onward edited
    rw [List.dropWhile_append_of_pos fun line hl => Option.isNone_iff_eq_none.mpr (captured_before line hl),
      List.dropWhile_cons_of_neg (by rw [hcaptured]; exact Bool.false_ne_true)]
  exact (inOrder_iff honward).mpr ⟨hcaptured, captured_later⟩

/-- **The lines of other keys** are as they were. -/
theorem filter_assignsOther_edited (hkey : IsKey key) (hsep : IsSep sep) {value : Str} (hvalue : IsWord value)
    (lines : List Str) : (edited key sep value lines).filter (assignsOther key) = lines.filter (assignsOther key) := by
  have hdrop : ∀ {line : Str} {rest : List Str} {v : Str}, captured key sep line = some v →
      (line :: rest).filter (assignsOther key) = rest.filter (assignsOther key) := by
    intro line rest v hline
    exact List.filter_cons_of_neg (by rw [assignsOther_of_captured hkey hsep hline]; exact Bool.false_ne_true)
  have hfilter : ∀ rest : List Str, (rest.filter fun line => (captured key sep line).isNone).filter (assignsOther key) =
      rest.filter (assignsOther key) := by
    intro rest
    rw [List.filter_filter]
    refine List.filter_congr fun line _ => ?_
    cases hline : captured key sep line with
    | none => rw [Option.isNone_none, Bool.and_true]
    | some v => rw [assignsOther_of_captured hkey hsep hline, Bool.false_and]
  have hall := @before_append_onward key sep lines
  conv_rhs => rw [← hall]
  unfold edited later
  rw [List.filter_append, List.filter_append, hdrop (captured_standing hkey hsep hvalue lines), hfilter]
  rcases @onward_cases key sep lines with hnil | ⟨line, after, v, hcons, hv⟩
  · rw [hnil]
    rfl
  · rw [hcons, hdrop hv]
    rfl

end Edit

/-! ## The enforcer -/

theorem assigned_nil (line : Str) : assigned [] line = none := by
  have hequals : ∀ {t : Str} {kv : Str × Str}, equalsSplit t = some kv → kv.1 ≠ [] := by
    intro t kv h
    unfold equalsSplit at h
    dsimp only at h
    split at h
    · next hsplit =>
      cases h
      exact hsplit.1
    · cases h
  have hblank : ∀ {t : Str} {kv : Str × Str}, blankSplit t = some kv → kv.1 ≠ [] := by
    intro t kv h
    unfold blankSplit at h
    dsimp only at h
    split at h
    · next hsplit =>
      cases h
      exact hsplit.1
    · cases h
  rw [assigned, parseLine_eq]
  dsimp only
  generalize trim (stripInlineComment line) = t
  split
  · next k v hparsed =>
    refine if_neg fun hnil => ?_
    split at hparsed
    · cases hparsed
    · split at hparsed
      · cases hparsed
      · obtain ⟨kv, hkv, heq⟩ := Option.map_eq_some_iff.mp hparsed
        cases heq
        rcases Option.or_eq_some_iff.mp hkv with hkv | ⟨-, hkv⟩
        · exact hequals hkv hnil.symm
        · exact hblank hkv hnil.symm
  · rfl

theorem lastAssigned_nil (lines : List Str) : lastAssigned [] lines = none := by
  have hnone : lines.filterMap (assigned []) = [] := List.filterMap_eq_nil_iff.mpr fun line _ => assigned_nil line
  rw [lastAssigned, hnone]
  rfl

/-- **The reader reads what was set**, exactly where no line that the pattern misses comes after it, and the line of the
key is not taken for something else. The lines of other keys are as they were, and a second call writes nothing. -/
theorem set_key_value_read_iff {env : Env} (henv : env.Reliable) {params : Value} {path key value : Str} {sep : Char}
    {s s' : Sys} (hpath : params.field "path" = .str path) (hkey : params.field "key" = .str key)
    (hchars : ∀ x ∈ key, isspace x = false ∧ x ≠ '=' ∧ x ≠ '#') (hnil : params.field "value" ≠ .nil)
    (htext : (params.field "value").tostring = value) (hvalue : IsWord value) (hparam : Separator params [sep])
    (hsep : IsSep sep) (h : setKeyValue env params s = (.ok (.ok ()), s')) :
    (parseHandle .none (s'.linesAt path) key = some (unquote value) ∧
      (s'.linesAt path).filter (assignsOther key) = (s.linesAt path).filter (assignsOther key) ∧
      WritesNothing s' (setKeyValue env params s').2) ↔
    key ≠ [] ∧ (lastAssigned key (later key sep (s.linesAt path)) = some (unquote value) ∨
      lastAssigned key (later key sep (s.linesAt path)) = none ∧
        (Legible key sep value (standing key sep value (s.linesAt path)) ∨
          Silent key sep value (standing key sep value (s.linesAt path)) ∧
            lastAssigned key (before key sep (s.linesAt path)) = some (unquote value))) := by
  rw [parseHandle_none]
  by_cases hempty : key = []
  · rw [hempty, lastAssigned_nil]
    exact iff_of_false (fun hr => by cases hr.1) fun hr => hr.1 rfl
  · have hk : IsKey key := ⟨hempty, hchars⟩
    rw [setKeyValue_eq env hpath hkey hnil hparam, htext] at h ⊢
    have hlines : s'.linesAt path = edited key sep value (s.linesAt path) := by
      rcases editFile_cases henv h with ⟨hedit, hnothing⟩ | ⟨new, hedit, hdisk⟩
      · rw [editKeyValue_eq hk hsep] at hedit
        rw [hnothing.linesAt]
        split at hedit
        · next hin => exact (edited_of_inOrder hin).symm
        · cases hedit
      · rw [editKeyValue_eq hk hsep] at hedit
        split at hedit
        · cases hedit
        · next hin =>
          cases hedit
          have hstanding : standing key sep value (s.linesAt path) = key ++ sep :: value := if_neg hin
          unfold edited
          rw [hstanding]
          refine linesAt_of_content (fun line hmem => ?_) hdisk
          have hold := lines_linesAt s path
          rcases List.mem_append.mp hmem with hl | hl
          · exact hold line ((List.takeWhile_sublist _).subset hl)
          · rcases List.mem_cons.mp hl with rfl | hl
            · have hnew : ∀ x ∈ key ++ sep :: value, x ≠ '\n' := by
                rintro x hx rfl
                rcases List.mem_append.mp hx with hx | hx
                · exact absurd (hchars _ hx).1 (by decide)
                · rcases List.mem_cons.mp hx with hx | hx
                  · rcases hsep with rfl | rfl <;> cases hx
                  · exact absurd (hvalue.2 _ hx) (by decide)
              exact fun hmem => hnew _ hmem rfl
            · refine hold line ?_
              exact (List.dropWhile_suffix _).subset (List.mem_of_mem_tail (List.mem_filter.mp hl).1)
    have hagain : WritesNothing s' (editFile env path "file.set_key_value" (editKeyValue key [sep] value) s').2 := by
      refine editFile_nothing henv ?_
      rw [hlines, editKeyValue_eq hk hsep, if_pos (inOrder_edited hk hsep hvalue _)]
    have hcaptured := captured_standing hk hsep hvalue (s.linesAt path)
    have hothers := filter_assignsOther_edited hk hsep hvalue (s.linesAt path)
    rw [hlines, ← assigned_eq_some_iff hk hsep hvalue hcaptured, ← assigned_eq_none_iff hk hsep hvalue hcaptured]
    simp only [hothers, hagain, and_true, ne_eq, hempty, not_false_eq_true, true_and]
    rw [edited, lastAssigned_append, lastAssigned_cons]
    cases lastAssigned key (later key sep (s.linesAt path)) with
    | some v => simp
    | none => cases assigned key (standing key sep value (s.linesAt path)) <;> simp

/-! ## A key in both forms -/

/-- Parameters for `/etc/security/faillock.conf`. -/
def faillockParams (value : Str) : Value :=
  .record 1 [("path", .str "/etc/security/faillock.conf"), ("key", .str "deny"), ("value", .str value)]

/-- A file that sets `deny`, and has it in a second form. -/
def faillockSys (last : Str) : Sys := .oneFile "/etc/security/faillock.conf" ("deny = 5\nunlock_time = 900\n" ++ last)

theorem faillock_set : parseHandle .none ((setKeyValue calmEnv (faillockParams "3")
    (faillockSys "# deny 5\n")).2.linesAt
    "/etc/security/faillock.conf") "deny".toList = some "3".toList := by
  have hrun : (setKeyValue calmEnv (faillockParams "3") (faillockSys "# deny 5\n")).1 =
    .ok (.ok ()) := by decide +kernel
  have hlegible : Legible "deny".toList '=' "3".toList (standing "deny".toList '=' "3".toList
      ((faillockSys "# deny 5\n").linesAt "/etc/security/faillock.conf")) := by
    have hstanding : standing "deny".toList '=' "3".toList
      ((faillockSys "# deny 5\n").linesAt "/etc/security/faillock.conf") = "deny=3".toList := by decide +kernel
    rw [hstanding]
    exact ⟨fun hc => absurd hc.1 (by decide), by decide +kernel, .inl rfl⟩
  have hchars : ∀ x ∈ "deny".toList, isspace x = false ∧ x ≠ '=' ∧ x ≠ '#' := by
    intro x hx
    have hmem : x ∈ ['d', 'e', 'n', 'y'] := hx
    simp only [List.mem_cons, List.not_mem_nil, or_false] at hmem
    rcases hmem with rfl | rfl | rfl | rfl <;> decide
  have hword : IsWord "3".toList := ⟨by decide, fun x hx => by rw [List.mem_singleton.mp hx]; rfl⟩
  have hnil : (faillockParams "3").field "value" ≠ .nil := show Value.str "3".toList ≠ .nil from nofun
  exact ((@set_key_value_read_iff _ calmEnv_reliable _ _ _ _ _ _ _ rfl rfl hchars hnil rfl hword (.inl ⟨rfl, rfl⟩)
    (.inl rfl) (run_of_fst hrun)).mpr ⟨by decide, .inr ⟨by decide +kernel, .inl hlegible⟩⟩).1

/-- A second form of the assignment is left, and the reader takes it. -/
theorem faillock_second_form :
    (setKeyValue calmEnv (faillockParams "3") (faillockSys "deny 5\n")).1 = .ok (.ok ()) ∧
    parseHandle .none ((setKeyValue calmEnv (faillockParams "3") (faillockSys "deny 5\n")).2.linesAt
      "/etc/security/faillock.conf") "deny".toList = some "5".toList := by decide +kernel

end KeyValueFile
end Seharden
