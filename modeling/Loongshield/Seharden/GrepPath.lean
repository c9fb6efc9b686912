import Loongshield.Lib.Ere
import Loongshield.Seharden.FindPattern

/-!
# The path of `find_pattern` through `grep`

A pattern with a `|` is translated for `grep -E` and not matched by Lua. The patterns here are those of the manual:
single characters, classes and sets with a quantifier, and the two anchors.

- `Pat`: such a pattern, with `Pat.spell`, its text;
- `Translates`: the pattern means the same to both readers after the translation;
- `reach_of_ere`: its translation matches from a position iff there is a way to take its items from there;
- `grep_agrees`: `grep -E` selects the lines that the Lua pattern matches, alone or as an alternative.
-/

namespace Seharden

open Lua Pattern

namespace FindPattern

/-! ## Patterns -/

/-- What stands for one character: a character, `.`, `%c`, or a set by the text between its brackets. -/
inductive Atom
  | char (c : Char)
  | any
  | cls (c : Char)
  | set (neg : Bool) (body : Str)

/-- An atom with its quantifier. -/
structure Piece where
  atom : Atom
  quant : Quant

/-- A pattern, anchored at either end or not. -/
structure Pat where
  atStart : Bool
  pieces : List Piece
  atEnd : Bool

def Atom.spell : Atom → Str
  | .char c => [c]
  | .any => ['.']
  | .cls c => ['%', c]
  | .set neg body => '[' :: ((if neg then ['^'] else []) ++ (body ++ [']']))

def spellQuant : Quant → Str
  | .one => []
  | .star => ['*']
  | .plus => ['+']
  | .minus => ['-']
  | .opt => ['?']

def Piece.spell (p : Piece) : Str := p.atom.spell ++ spellQuant p.quant

def spellPieces (ps : List Piece) (atEnd : Bool) : Str := ps.flatMap Piece.spell ++ if atEnd then ['$'] else []

/-- The text of a pattern. -/
def Pat.spell (p : Pat) : Str := (if p.atStart then ['^'] else []) ++ spellPieces p.pieces p.atEnd

/-- What Lua makes of an atom. -/
def Atom.single : Atom → Single
  | .char c => .lit c
  | .any => .any
  | .cls c => .cls c
  | .set neg body => .set neg (setItems body)

/-- The class letters of the patterns here. -/
def classLetters : List Char := ['s', 'S', 'd', 'D', 'w', 'W', 'a', 'A', 'l', 'u', 'p']

/-- The text of an atom is read as the atom: a character has no other sense, `%` stands before a class letter or
punctuation, and a set ends where it is closed. -/
def Atom.Proper : Atom → Prop
  | .char c => isMagic c = false
  | .any => True
  | .cls c => c ∈ classLetters ∨ ispunct c = true
  | .set neg body => (∀ r, setBody (body ++ ']' :: r) = some (body, r)) ∧ (neg = false → body.head? ≠ some '^')

def Pat.Proper (p : Pat) : Prop := ∀ q ∈ p.pieces, q.atom.Proper

/-! ## Lua reads the text as the pattern -/

theorem not_begins {c : Char} (h : isMagic c = false) : c ∉ begins := by
  have hmem : c ∉ magic := of_decide_eq_false h
  intro hc
  refine hmem ?_
  simp only [begins, magic, List.mem_cons, List.not_mem_nil, or_false] at hc ⊢
  rcases hc with h | h | h | h | h | h <;> simp [h]

theorem not_alnum_of_punct {c : Char} (h : ispunct c = true) : isalpha c = false ∧ isdigit c = false := by
  unfold ispunct isalnum at h
  rw [Bool.and_eq_true, Bool.not_eq_true', Bool.or_eq_false_iff] at h
  exact h.2

theorem cls_plain {c : Char} (h : c ∈ classLetters ∨ ispunct c = true) : c ≠ 'b' ∧ c ≠ 'f' ∧ isdigit c = false := by
  rcases h with h | h
  · simp only [classLetters, List.mem_cons, List.not_mem_nil, or_false] at h
    rcases h with rfl | rfl | rfl | rfl | rfl | rfl | rfl | rfl | rfl | rfl | rfl <;> decide
  · obtain ⟨halpha, hdigit⟩ := not_alnum_of_punct h
    refine ⟨?_, ?_, hdigit⟩
    · rintro rfl
      cases halpha
    · rintro rfl
      cases halpha

/-- A set is read up to its closing bracket. -/
theorem readSet_spell {neg : Bool} {body : Str} (h : (Atom.set neg body).Proper) (r : Str) :
    readSet ((if neg then ['^'] else []) ++ (body ++ ']' :: r)) = some (.set neg (setItems body), r) := by
  obtain ⟨hbody, hhead⟩ := h
  cases neg with
  | true =>
    show (setBody (body ++ ']' :: r)).map _ = _
    rw [hbody]
    rfl
  | false =>
    have hhead := hhead rfl
    show readSet (body ++ ']' :: r) = _
    cases body with
    | nil =>
      show readSet (']' :: r) = _
      rw [readSet_cons (by decide)]
      have hnil : setBody (']' :: r) = some ([], r) := hbody r
      rw [hnil]
      rfl
    | cons x body =>
      have hx : x ≠ '^' := fun hx => hhead (by rw [hx]; rfl)
      rw [List.cons_append, readSet_cons hx, ← List.cons_append, hbody]
      rfl

theorem readItem_atom {a : Atom} (h : a.Proper) (t : Str) :
    readItem (a.spell ++ t) = (.single a.single (readQuant t).1, some (readQuant t).2) := by
  cases a with
  | char c => exact readItem_char (not_begins h) t
  | any => rfl
  | cls c =>
    obtain ⟨hb, hf, hdigit⟩ := cls_plain h
    show readItem ('%' :: c :: t) = _
    rw [readItem_escape hb hf, hdigit]
    rfl
  | set neg body =>
    have htext : (Atom.set neg body).spell ++ t = '[' :: ((if neg then ['^'] else []) ++ (body ++ ']' :: t)) := by
      simp [Atom.spell]
    rw [htext, readItem, readSet_spell h]
    rfl

theorem readQuant_spell (q : Quant) {rest : Str} (h : Unquantified rest) :
    readQuant (spellQuant q ++ rest) = (q, rest) := by
  cases q with
  | one => exact readQuant_of_unquantified h
  | _ => rfl

theorem spell_ne_nil (p : Piece) : p.spell ≠ [] := by
  obtain ⟨a, q⟩ := p
  cases a <;> exact List.cons_ne_nil _ _

theorem unquantified_spell {p : Piece} (h : p.atom.Proper) (rest : Str) : Unquantified (p.spell ++ rest) := by
  obtain ⟨a, q⟩ := p
  intro x hx
  cases a with
  | char c =>
    obtain rfl : c = x := Option.some.inj hx
    have hmem : c ∉ magic := of_decide_eq_false h
    simp only [magic, List.mem_cons, List.not_mem_nil, or_false, not_or] at hmem
    obtain ⟨-, -, -, -, -, -, -, -, hstar, hplus, hminus, hopt⟩ := hmem
    exact ⟨hstar, hplus, hminus, hopt⟩
  | any => obtain rfl := Option.some.inj hx; decide
  | cls c => obtain rfl := Option.some.inj hx; decide
  | set neg body => obtain rfl := Option.some.inj hx; decide

theorem unquantified_spellPieces : ∀ {ps : List Piece}, (∀ p ∈ ps, p.atom.Proper) → ∀ atEnd : Bool,
    Unquantified (spellPieces ps atEnd)
  | [], _, true => fun x hx => by obtain rfl := Option.some.inj hx; decide
  | [], _, false => fun x hx => by cases hx
  | p :: ps, h, atEnd => by
    unfold spellPieces
    rw [List.flatMap_cons, List.append_assoc]
    exact unquantified_spell (List.forall_mem_cons.mp h).1 _

/-- What Lua makes of the pieces. -/
def singles (ps : List Piece) : List (Single × Quant) := ps.map fun p => (p.atom.single, p.quant)

theorem spellPieces_cons (p : Piece) (ps : List Piece) (atEnd : Bool) :
    spellPieces (p :: ps) atEnd = p.atom.spell ++ (spellQuant p.quant ++ spellPieces ps atEnd) := by
  unfold spellPieces Piece.spell
  rw [List.flatMap_cons, List.append_assoc, List.append_assoc]

theorem compile_spellPieces : ∀ {ps : List Piece}, (∀ p ∈ ps, p.atom.Proper) → ∀ atEnd : Bool,
    compile (spellPieces ps atEnd) = itemsOf (singles ps) atEnd
  | [], _, true => rfl
  | [], _, false => rfl
  | p :: ps, h, atEnd => by
    obtain ⟨hp, hps⟩ := List.forall_mem_cons.mp h
    have hread := readItem_atom hp (spellQuant p.quant ++ spellPieces ps atEnd)
    rw [readQuant_spell p.quant (unquantified_spellPieces hps atEnd), ← spellPieces_cons] at hread
    have hne : spellPieces (p :: ps) atEnd ≠ [] := by
      unfold spellPieces
      rw [List.flatMap_cons, List.append_assoc]
      exact List.append_ne_nil_of_left_ne_nil (spell_ne_nil p) _
    rw [compile_cons hread hne, compile_spellPieces hps atEnd]
    rfl

theorem head?_spellPieces : ∀ {ps : List Piece}, (∀ p ∈ ps, p.atom.Proper) → ∀ atEnd : Bool,
    (spellPieces ps atEnd).head? ≠ some '^'
  | [], _, true => by decide
  | [], _, false => by decide
  | ⟨a, q⟩ :: ps, h, atEnd => by
    have ha := (List.forall_mem_cons.mp h).1
    rw [spellPieces_cons]
    cases a with
    | char c =>
      intro hc
      obtain rfl : c = '^' := Option.some.inj hc
      cases ha
    | any => exact fun hc => by cases hc
    | cls c => exact fun hc => by cases hc
    | set neg body => exact fun hc => by cases hc

/-- **The Lua path**: the line matches iff there is a way to take the items from a position that is tried. -/
theorem strMatch_spell {p : Pat} (h : p.Proper) (line : Str) : (∃ vs, strMatch line p.spell = .ok (some vs)) ↔
    ∃ i ≤ if p.atStart then 0 else line.length, Reach line (itemsOf (singles p.pieces) p.atEnd) i [] := by
  have hparts : body p.spell = spellPieces p.pieces p.atEnd ∧
      tries line p.spell = if p.atStart then 0 else line.length := by
    unfold body tries Pat.spell
    cases p.atStart with
    | true => exact ⟨rfl, rfl⟩
    | false =>
      have hhead := head?_spellPieces h p.atEnd
      rw [if_neg Bool.false_ne_true, List.nil_append, if_neg hhead, if_neg hhead]
      exact ⟨rfl, rfl⟩
  rw [strMatch_isSome_iff]
  unfold ReachFrom
  rw [hparts.1, hparts.2, compile_spellPieces h]
  exact and_iff_right (runs_itemsOf _ _)

/-! ## What the translation keeps -/

/-- The text of a set that means the same in a bracket expression: of the escapes only `%%`, ranges in order, a closing
bracket only as the first element, a hyphen only as the first or the last, and no bracket that begins a class. -/
def PlainSet : Bool → Str → Bool
  | _, [] => true
  | _, '%' :: '%' :: r => (decide (r.head? ≠ some '-') || decide (r = ['-'])) && PlainSet false r
  | first, a :: '-' :: b :: r =>
    decide (a ≠ '%' ∧ b ≠ '%' ∧ b ≠ ']' ∧ a ≤ b) && (decide (a ≠ ']' ∧ a ≠ '-') || first) &&
      !Ere.opensClass b r && PlainSet false r
  | first, c :: r =>
    decide (c ≠ '%') && (decide (c ≠ ']') || first) && (decide (c ≠ '-') || first || r.isEmpty) &&
      !Ere.opensClass c r && PlainSet false r

/-- The translation of the atom means what the atom means. -/
def Atom.Translates : Atom → Prop
  | .char c => c ∉ ['{', '|', '\\', '\n']
  | .any => True
  | .cls c => c ∉ ['w', 'W'] ∧ c ∉ Ere.operators
  | .set _ body => PlainSet true body = true ∧ '\n' ∉ body

/-- The translation of the pattern means what the pattern means: no atom is changed, and no quantifier is `-`. -/
def Pat.Translates (p : Pat) : Prop := ∀ q ∈ p.pieces, q.atom.Translates ∧ q.quant ≠ .minus

/-! ## The translation of a pattern -/

/-- The translation of an atom. -/
def Atom.ere : Atom → Str
  | .char c => [c]
  | .any => ['.']
  | .cls c => if c = '%' then ['%'] else (ereClass c).getD ['\\', c]
  | .set neg body => '[' :: ((if neg then ['^'] else []) ++ (luaPatternToEre body ++ [']']))

theorem ere_char {c : Char} (hc : c ≠ '%') (r : Str) : luaPatternToEre (c :: r) = c :: luaPatternToEre r := by
  rw [luaPatternToEre]
  · exact fun _ h => absurd h hc
  · exact fun _ _ h => absurd h hc

theorem ere_escape (c : Char) (r : Str) : luaPatternToEre ('%' :: c :: r) =
    (if c = '%' then ['%'] else (ereClass c).getD ['\\', c]) ++ luaPatternToEre r := by
  by_cases hc : c = '%'
  · subst hc
    rfl
  · rw [if_neg hc, luaPatternToEre]
    exact hc

theorem ere_plainSet (r : Str) : ∀ {first : Bool} {body : Str}, PlainSet first body = true →
    luaPatternToEre (body ++ ']' :: r) = luaPatternToEre body ++ ']' :: luaPatternToEre r := by
  intro first body
  induction first, body using PlainSet.induct with
  | case1 first => exact fun _ => ere_char (by decide) r
  | case2 first t ih =>
    intro h
    rw [PlainSet, Bool.and_eq_true] at h
    show luaPatternToEre ('%' :: '%' :: (t ++ ']' :: r)) = _
    rw [ere_escape, ere_escape, ih h.2]
    rfl
  | case3 first a b t ih =>
    intro h
    rw [PlainSet] at h
    · simp only [Bool.and_eq_true, decide_eq_true_eq] at h
      obtain ⟨⟨⟨⟨ha, hb, -, -⟩, -⟩, -⟩, hrest⟩ := h
      show luaPatternToEre (a :: '-' :: b :: (t ++ ']' :: r)) = _
      have hdash : '-' ≠ '%' := by decide
      rw [ere_char ha, ere_char hdash, ere_char hb, ih hrest, ere_char ha, ere_char hdash, ere_char hb]
      rfl
  | case4 first c t h₁ h₂ ih =>
    intro h
    rw [PlainSet] at h
    · simp only [Bool.and_eq_true, decide_eq_true_eq] at h
      obtain ⟨⟨⟨⟨hc, -⟩, -⟩, -⟩, hrest⟩ := h
      rw [List.cons_append, ere_char hc, ih hrest, ere_char hc]
      rfl
    · exact h₁
    · exact h₂

/-- The translation of an atom, wherever it stands. -/
theorem ere_atom {a : Atom} (h : a.Proper) (ht : a.Translates) (r : Str) :
    luaPatternToEre (a.spell ++ r) = a.ere ++ luaPatternToEre r := by
  cases a with
  | char c =>
    have hc : c ≠ '%' := by
      rintro rfl
      cases h
    exact ere_char hc r
  | any => exact ere_char (by decide) r
  | cls c => exact ere_escape c r
  | set neg body =>
    have hset : luaPatternToEre (body ++ ']' :: r) = luaPatternToEre body ++ ']' :: luaPatternToEre r :=
      ere_plainSet r ht.1
    have hopen : '[' ≠ '%' := by decide
    cases neg with
    | true =>
      show luaPatternToEre ('[' :: '^' :: (body ++ [']'] ++ r)) = _
      rw [List.append_assoc, List.singleton_append, ere_char hopen, ere_char (by decide), hset]
      simp [Atom.ere]
    | false =>
      show luaPatternToEre ('[' :: (body ++ [']'] ++ r)) = _
      rw [List.append_assoc, List.singleton_append, ere_char hopen, hset]
      simp [Atom.ere]

theorem ere_quant (q : Quant) (r : Str) : luaPatternToEre (spellQuant q ++ r) = spellQuant q ++ luaPatternToEre r := by
  cases q with
  | one => rfl
  | _ => exact ere_char (by decide) r

/-- The translation of pieces. -/
def erePieces (ps : List Piece) (atEnd : Bool) : Str :=
  ps.flatMap (fun p => p.atom.ere ++ spellQuant p.quant) ++ if atEnd then ['$'] else []

/-- The translation of a pattern. -/
def Pat.ere (p : Pat) : Str := (if p.atStart then ['^'] else []) ++ erePieces p.pieces p.atEnd

theorem erePieces_cons (p : Piece) (ps : List Piece) (atEnd : Bool) :
    erePieces (p :: ps) atEnd = p.atom.ere ++ (spellQuant p.quant ++ erePieces ps atEnd) := by
  unfold erePieces
  rw [List.flatMap_cons, List.append_assoc, List.append_assoc]

theorem ere_spellPieces (atEnd : Bool) (r : Str) : ∀ {ps : List Piece}, (∀ p ∈ ps, p.atom.Proper) →
    (∀ p ∈ ps, p.atom.Translates ∧ p.quant ≠ .minus) →
      luaPatternToEre (spellPieces ps atEnd ++ r) = erePieces ps atEnd ++ luaPatternToEre r
  | [], _, _ => by
    cases atEnd with
    | true => exact ere_char (by decide) r
    | false => rfl
  | p :: ps, hp, ht => by
    obtain ⟨hp, hps⟩ := List.forall_mem_cons.mp hp
    obtain ⟨ht, hts⟩ := List.forall_mem_cons.mp ht
    rw [spellPieces_cons, erePieces_cons, List.append_assoc, List.append_assoc, ere_atom hp ht.1, ere_quant,
      ere_spellPieces atEnd r hps hts, List.append_assoc, List.append_assoc]

/-- **The translation of the text** is that of the pattern, and of what follows. -/
theorem ere_spell {p : Pat} (h : p.Proper) (ht : p.Translates) (r : Str) :
    luaPatternToEre (p.spell ++ r) = p.ere ++ luaPatternToEre r := by
  unfold Pat.spell Pat.ere
  cases p.atStart with
  | true =>
    show luaPatternToEre ('^' :: (spellPieces p.pieces p.atEnd ++ r)) = _
    rw [ere_char (by decide), ere_spellPieces p.atEnd r h ht]
    rfl
  | false =>
    exact ere_spellPieces p.atEnd r h ht

/-! ## `grep` reads the translation as the pattern -/

theorem head?_plainSet {first : Bool} {body : Str} (h : PlainSet first body = true) :
    (luaPatternToEre body).head? = body.head? := by
  revert h
  fun_cases PlainSet first body with
  | case1 first => exact fun _ => rfl
  | case2 first t => exact fun _ => rfl
  | case3 first a b t =>
    intro h
    simp only [Bool.and_eq_true, decide_eq_true_eq] at h
    rw [ere_char h.1.1.1.1]
    rfl
  | case4 first c t h₁ h₂ =>
    intro h
    simp only [Bool.and_eq_true, decide_eq_true_eq] at h
    rw [ere_char h.1.1.1.1]
    rfl

/-- The text of the rest of a set, after the translation: where it begins. -/
theorem head?_rest {t : Str} (h : PlainSet false t = true) (rest : Str) :
    (luaPatternToEre t ++ ']' :: rest).head? = if t = [] then some ']' else t.head? := by
  cases t with
  | nil => rfl
  | cons c t =>
    have hhead := head?_plainSet h
    cases htext : luaPatternToEre (c :: t) with
    | nil =>
      rw [htext] at hhead
      cases hhead
    | cons d u =>
      rw [htext] at hhead
      rw [if_neg (List.cons_ne_nil c t), ← hhead]
      rfl

theorem opensClass_rest {t : Str} (h : PlainSet false t = true) (c : Char) (rest : Str)
    (hopen : Ere.opensClass c t = false) : Ere.opensClass c (luaPatternToEre t ++ ']' :: rest) = false := by
  by_cases hc : c = '['
  · have hhead := head?_rest h rest
    unfold Ere.opensClass at hopen ⊢
    rw [hhead]
    split
    · rw [Bool.and_eq_false_iff]
      exact .inr rfl
    · exact hopen
  · exact Ere.opensClass_of_ne hc _

/-- After an element that is no range: a hyphen is the last element. -/
theorem not_range {t : Str} (h : PlainSet false t = true) (hdash : t.head? ≠ some '-' ∨ t = ['-']) (rest : Str) :
    ∀ b r, luaPatternToEre t ++ ']' :: rest = '-' :: b :: r → b = ']' := by
  intro b r htext
  rcases hdash with hdash | rfl
  · have hhead := head?_rest h rest
    rw [htext, List.head?_cons] at hhead
    split at hhead
    · cases hhead
    · exact absurd hhead.symm hdash
  · exact (List.cons.inj (List.cons.inj htext).2).1.symm

theorem test_comm (c x : Char) : (x == c) = (c == x) := BEq.comm

/-- The sets of the two readers. -/
theorem readElems_plainSet (rest : Str) : ∀ {first : Bool} {body : Str}, PlainSet first body = true →
    (body = [] → first = false) → ∀ n, (luaPatternToEre body).length < n →
      ∃ tests, Ere.readElems n first (luaPatternToEre body ++ ']' :: rest) = some (tests, rest) ∧
        ∀ x, tests.any (fun t => t x) = (setItems body).any (SetItem.test x) := by
  intro first body
  induction first, body using PlainSet.induct with
  | case1 first =>
    intro _ hfirst n hn
    obtain ⟨n, rfl⟩ := Nat.exists_eq_succ_of_ne_zero (Nat.pos_iff_ne_zero.mp (Nat.zero_lt_of_lt hn))
    rw [hfirst rfl]
    exact ⟨[], rfl, fun x => rfl⟩
  | case2 first t ih =>
    intro h _ n hn
    rw [PlainSet, Bool.and_eq_true, Bool.or_eq_true, decide_eq_true_eq, decide_eq_true_eq] at h
    obtain ⟨hdash, hplain⟩ := h
    have htext : luaPatternToEre ('%' :: '%' :: t) = '%' :: luaPatternToEre t := rfl
    rw [htext, List.length_cons] at hn
    obtain ⟨n, rfl⟩ := Nat.exists_eq_succ_of_ne_zero (Nat.pos_iff_ne_zero.mp (Nat.zero_lt_of_lt hn))
    obtain ⟨tests, htests, hsame⟩ := ih hplain (fun _ => rfl) n (by omega)
    refine ⟨(· == '%') :: tests, ?_, fun x => ?_⟩
    · rw [htext, List.cons_append, Ere.readElems_char (fun h => by cases h) (Ere.opensClass_of_ne (by decide) _)
        (fun h => by cases h) (not_range hplain hdash rest), htests]
      rfl
    · have hitem : SetItem.test x (.cls '%') = ('%' == x) := rfl
      rw [List.any_cons, hsame, setItems, List.any_cons, hitem]
      exact congrArg (· || _) (test_comm '%' x)
  | case3 first a b t ih =>
    intro h _ n hn
    rw [PlainSet] at h
    simp only [Bool.and_eq_true, Bool.or_eq_true, decide_eq_true_eq, Bool.not_eq_true'] at h
    obtain ⟨⟨⟨⟨ha, hb, hclose, hle⟩, hfirst⟩, hopen⟩, hplain⟩ := h
    have htext : luaPatternToEre (a :: '-' :: b :: t) = a :: '-' :: b :: luaPatternToEre t := by
      rw [ere_char ha, ere_char (by decide), ere_char hb]
    rw [htext, List.length_cons, List.length_cons, List.length_cons] at hn
    obtain ⟨n, rfl⟩ := Nat.exists_eq_succ_of_ne_zero (Nat.pos_iff_ne_zero.mp (Nat.zero_lt_of_lt hn))
    obtain ⟨tests, htests, hsame⟩ := ih hplain (fun _ => rfl) n (by omega)
    have hends : a = ']' ∨ a = '-' → first = true := fun h => hfirst.resolve_left fun hne => h.elim hne.1 hne.2
    refine ⟨(fun x => decide (a ≤ x) && decide (x ≤ b)) :: tests, ?_, fun x => ?_⟩
    · rw [htext]
      show Ere.readElems (n + 1) first (a :: '-' :: b :: (luaPatternToEre t ++ ']' :: rest)) = _
      rw [Ere.readElems_range hends hclose (opensClass_rest hplain b rest hopen) hle, htests]
      rfl
    · rw [List.any_cons, hsame, setItems, List.any_cons]
      · rfl
      · exact ha
  | case4 first c t h₁ h₂ ih =>
    intro h _ n hn
    rw [PlainSet] at h
    · simp only [Bool.and_eq_true, Bool.or_eq_true, decide_eq_true_eq, Bool.not_eq_true'] at h
      obtain ⟨⟨⟨⟨hc, hclose⟩, hdash⟩, hopen⟩, hplain⟩ := h
      have htext : luaPatternToEre (c :: t) = c :: luaPatternToEre t := ere_char hc t
      rw [htext, List.length_cons] at hn
      obtain ⟨n, rfl⟩ := Nat.exists_eq_succ_of_ne_zero (Nat.pos_iff_ne_zero.mp (Nat.zero_lt_of_lt hn))
      obtain ⟨tests, htests, hsame⟩ := ih hplain (fun _ => rfl) n (by omega)
      have hhyphen : c = '-' → first = true ∨ (luaPatternToEre t ++ ']' :: rest).head? = some ']' := by
        intro h
        rcases hdash with (hne | hf) | hempty
        · exact absurd h hne
        · exact .inl hf
        · rw [List.isEmpty_iff.mp hempty]
          exact .inr rfl
      have hlast : t.head? ≠ some '-' ∨ t = ['-'] := by
        by_cases hhead : t.head? = some '-'
        · obtain ⟨r, rfl⟩ := List.head?_eq_some_iff.mp hhead
          cases r with
          | nil => exact .inr rfl
          | cons b r => exact absurd rfl (h₂ b r)
        · exact .inl hhead
      refine ⟨(· == c) :: tests, ?_, fun x => ?_⟩
      · rw [htext, List.cons_append, Ere.readElems_char (fun h => hclose.resolve_left fun hne => hne h)
          (opensClass_rest hplain c rest hopen) hhyphen (not_range hplain hlast rest), htests]
        rfl
      · rw [List.any_cons, hsame, setItems, List.any_cons]
        · exact congrArg (· || _) (test_comm c x)
        · exact fun _ _ h => absurd h hc
        · exact h₂
    · exact h₁
    · exact h₂

/-- The set after its opening bracket. -/
theorem readBracket_set {neg : Bool} {body : Str} (h : (Atom.set neg body).Proper)
    (ht : (Atom.set neg body).Translates) (rest : Str) :
    ∃ test, Ere.readBracket ((if neg then ['^'] else []) ++ (luaPatternToEre body ++ ']' :: rest)) =
      some (.chars test, rest) ∧ ∀ x, test x = (Single.set neg (setItems body)).test x := by
  have hne : body = [] → true = false := by
    rintro rfl
    have hbody := h.1 []
    cases hbody
  have hlen : (luaPatternToEre body).length < (luaPatternToEre body ++ ']' :: rest).length := by
    rw [List.length_append, List.length_cons]
    omega
  obtain ⟨tests, htests, hsame⟩ := readElems_plainSet rest ht.1 hne _ hlen
  cases neg with
  | true =>
    refine ⟨fun x => !tests.any (fun t => t x), ?_, fun x => ?_⟩
    · show (Ere.readElems (luaPatternToEre body ++ ']' :: rest).length true (luaPatternToEre body ++ ']' :: rest)).map
        _ =
        _
      rw [htests]
      rfl
    · show (!tests.any (fun t => t x)) = _
      rw [hsame, Single.test, Bool.bne_true]
  | false =>
    refine ⟨fun x => tests.any (fun t => t x), ?_, fun x => ?_⟩
    · have hhead : (luaPatternToEre body ++ ']' :: rest).head? ≠ some '^' := by
        have hbody := head?_plainSet ht.1
        cases htext : luaPatternToEre body with
        | nil => exact fun hc => by cases hc
        | cons c u =>
          rw [htext] at hbody
          exact fun hc => h.2 rfl (hbody.symm.trans hc)
      unfold Ere.readBracket
      rw [if_neg Bool.false_ne_true, List.nil_append]
      split
      · next r hr =>
        rw [hr] at hhead
        exact absurd rfl hhead
      · rw [htests]
        rfl
    · show tests.any (fun t => t x) = _
      rw [hsame, Single.test, Bool.bne_false]

/-! ### The classes -/

theorem isPunct_eq (x : Char) : Ere.isPunct x = ispunct x := rfl

theorem isSpace_eq (x : Char) : Ere.isSpace x = isspace x := by
  unfold Ere.isSpace isspace
  have hblank : (x.toNat == 32) = (x == ' ') := by
    rw [Bool.eq_iff_iff, beq_iff_eq, beq_iff_eq]
    exact ⟨fun h => Char.toNat_inj.mp h, fun h => h ▸ rfl⟩
  rw [hblank]

theorem matchClass_punct {c : Char} (h : ispunct c = true) (x : Char) : matchClass c x = (c == x) := by
  have halpha := (not_alnum_of_punct h).1
  have hlower : lowerChar c = c := (lowerChar_eq_iff halpha).mpr rfl
  unfold matchClass
  rw [hlower]
  dsimp only
  split
  all_goals first
    | rfl
    | cases halpha

/-- A class letter that the translation keeps. -/
theorem readAtom_letter {c : Char} (h : c ∈ classLetters) (ht : c ∉ ['w', 'W']) (n : Nat) (rest : Str) :
    ∃ test, Ere.readAtom (n + 1) ((Atom.cls c).ere ++ rest) = some (.chars test, rest) ∧
      ∀ x, test x = matchClass c x := by
  simp only [classLetters, List.mem_cons, List.not_mem_nil, or_false] at h
  rcases h with rfl | rfl | rfl | rfl | rfl | rfl | rfl | rfl | rfl | rfl | rfl
  · refine ⟨_, rfl, fun x => ?_⟩
    show (Ere.isSpace x || false) = isspace x
    rw [Bool.or_false, isSpace_eq]
  · refine ⟨_, rfl, fun x => ?_⟩
    show (!(Ere.isSpace x || false)) = !isspace x
    rw [Bool.or_false, isSpace_eq]
  · refine ⟨_, rfl, fun x => ?_⟩
    show (isdigit x || false) = isdigit x
    rw [Bool.or_false]
  · refine ⟨_, rfl, fun x => ?_⟩
    show (!(isdigit x || false)) = !isdigit x
    rw [Bool.or_false]
  · exact absurd List.mem_cons_self ht
  · exact absurd (List.mem_cons_of_mem _ List.mem_cons_self) ht
  · refine ⟨_, rfl, fun x => ?_⟩
    show (isalpha x || false) = isalpha x
    rw [Bool.or_false]
  · refine ⟨_, rfl, fun x => ?_⟩
    show (!(isalpha x || false)) = !isalpha x
    rw [Bool.or_false]
  · refine ⟨_, rfl, fun x => ?_⟩
    show (islower x || false) = islower x
    rw [Bool.or_false]
  · refine ⟨_, rfl, fun x => ?_⟩
    show (isupper x || false) = isupper x
    rw [Bool.or_false]
  · refine ⟨_, rfl, fun x => ?_⟩
    show (ispunct x || false) = ispunct x
    rw [Bool.or_false]

/-- Escaped punctuation that is no operator. -/
theorem readAtom_punct {c : Char} (h : ispunct c = true) (ht : c ∉ Ere.operators) (n : Nat) (rest : Str) :
    ∃ test, Ere.readAtom (n + 1) ((Atom.cls c).ere ++ rest) = some (.chars test, rest) ∧
      ∀ x, test x = matchClass c x := by
  by_cases hc : c = '%'
  · subst hc
    refine ⟨_, rfl, fun x => ?_⟩
    rw [matchClass_punct h]
    exact test_comm '%' x
  · have hnone : ereClass c = none := by
      have halpha := (not_alnum_of_punct h).1
      unfold ereClass
      split
      all_goals first
        | rfl
        | cases halpha
    have htext : (Atom.cls c).ere ++ rest = '\\' :: c :: rest := by
      show (if c = '%' then ['%'] else (ereClass c).getD ['\\', c]) ++ rest = _
      rw [if_neg hc, hnone]
      rfl
    have hquot : Ere.quotable c = true := by
      unfold Ere.quotable
      rw [isPunct_eq, h, decide_eq_true ht]
      rfl
    refine ⟨(· == c), ?_, fun x => ?_⟩
    · rw [htext, Ere.readAtom_quoted n hquot]
    · rw [matchClass_punct h]
      exact test_comm c x

/-- **`grep` reads the translation of an atom** as the set of characters that the atom stands for. -/
theorem readAtom_ere {a : Atom} (h : a.Proper) (ht : a.Translates) (n : Nat) (rest : Str) :
    ∃ test, Ere.readAtom (n + 1) (a.ere ++ rest) = some (.chars test, rest) ∧ ∀ x, test x = a.single.test x := by
  cases a with
  | char c =>
    have hmagic : c ∉ magic := of_decide_eq_false h
    have hplain : c ∉ ['{', '|', '\\', '\n'] := ht
    simp only [magic, List.mem_cons, List.not_mem_nil, or_false, not_or] at hmagic hplain
    obtain ⟨hcaret, hdollar, hopen, -, -, hdot, hset, -, hstar, hplus, -, hopt⟩ := hmagic
    obtain ⟨hbrace, -, hback, -⟩ := hplain
    have hspecial : c ∉ Ere.special := by
      simp only [Ere.special, List.mem_cons, List.not_mem_nil, or_false, not_or]
      exact ⟨hopen, hset, hback, hdot, hcaret, hdollar, hstar, hplus, hopt, hbrace⟩
    exact ⟨(· == c), Ere.readAtom_char n hspecial rest, fun x => test_comm c x⟩
  | any => exact ⟨_, rfl, fun x => rfl⟩
  | cls c =>
    rcases h with h | h
    · exact readAtom_letter h ht.1 n rest
    · exact readAtom_punct h ht.2 n rest
  | set neg body =>
    obtain ⟨test, hread, hsame⟩ := readBracket_set h ht rest
    refine ⟨test, ?_, hsame⟩
    have htext : (Atom.set neg body).ere ++ rest =
        '[' :: ((if neg then ['^'] else []) ++ (luaPatternToEre body ++ ']' :: rest)) := by
      simp [Atom.ere]
    rw [htext, Ere.readAtom_bracket]
    exact hread

/-! ### Pieces -/

/-- A quantifier after a set of characters. -/
def duplicated (q : Quant) (a : Ere.Regex) : Ere.Regex :=
  match q with
  | .one => a
  | .star => .rep 0 none a
  | .plus => .rep 1 none a
  | .minus => a
  | .opt => .rep 0 (some 1) a

/-- The text does not begin with a duplication symbol. -/
def Unduplicated (s : Str) : Prop := ∀ x, s.head? = some x → x ≠ '*' ∧ x ≠ '+' ∧ x ≠ '?' ∧ x ≠ '{'

theorem readDup_unduplicated (a : Ere.Regex) {s : Str} (h : Unduplicated s) : Ere.readDup a s = some (a, s) := by
  unfold Ere.readDup
  split
  · exact absurd rfl (h '*' rfl).1
  · exact absurd rfl (h '+' rfl).2.1
  · exact absurd rfl (h '?' rfl).2.2.1
  · exact absurd rfl (h '{' rfl).2.2.2
  · rfl

theorem readDup_quant {q : Quant} (hq : q ≠ .minus) (a : Ere.Regex) {s : Str} (h : Unduplicated s) :
    Ere.readDup a (spellQuant q ++ s) = some (duplicated q a, s) := by
  cases q with
  | one => exact readDup_unduplicated a h
  | minus => exact absurd rfl hq
  | _ => rfl

theorem matches_duplicated {q : Quant} (hq : q ≠ .minus) {line : Str} {test : Char → Bool} {i j : Nat} :
    Ere.Matches line (duplicated q (.chars test)) i j ↔ ∃ n ≤ Ere.run line test i, q.Takes n ∧ j = i + n := by
  cases q with
  | one =>
    show Ere.Matches line (.chars test) i j ↔ _
    rw [Ere.matches_chars]
    constructor
    · rintro ⟨hrun, rfl⟩
      exact ⟨1, hrun, rfl, rfl⟩
    · rintro ⟨n, hn, rfl, rfl⟩
      exact ⟨hn, rfl⟩
  | minus => exact absurd rfl hq
  | star =>
    show Ere.Matches line (.rep 0 none (.chars test)) i j ↔ _
    rw [Ere.matches_rep_chars]
    constructor
    · rintro ⟨n, -, -, hn, rfl⟩
      exact ⟨n, hn, trivial, rfl⟩
    · rintro ⟨n, hn, -, rfl⟩
      exact ⟨n, Nat.zero_le n, (fun _ h => by cases h), hn, rfl⟩
  | plus =>
    show Ere.Matches line (.rep 1 none (.chars test)) i j ↔ _
    rw [Ere.matches_rep_chars]
    constructor
    · rintro ⟨n, hpos, -, hn, rfl⟩
      exact ⟨n, hn, hpos, rfl⟩
    · rintro ⟨n, hn, hpos, rfl⟩
      exact ⟨n, hpos, (fun _ h => by cases h), hn, rfl⟩
  | opt =>
    show Ere.Matches line (.rep 0 (some 1) (.chars test)) i j ↔ _
    rw [Ere.matches_rep_chars]
    constructor
    · rintro ⟨n, -, hmax, hn, rfl⟩
      exact ⟨n, hn, hmax 1 rfl, rfl⟩
    · rintro ⟨n, hn, hmax, rfl⟩
      exact ⟨n, Nat.zero_le n, fun m h => Option.some.inj h ▸ hmax, hn, rfl⟩

theorem run_eq {line : Str} {test : Char → Bool} {c : Single} (h : ∀ x, test x = c.test x) (i : Nat) :
    Ere.run line test i = runLength line c i := by
  have hfun : test = c.test := funext h
  unfold Ere.run runLength
  rw [hfun]

/-- What may stand after a pattern: nothing, or another alternative. -/
def AfterPattern (s : Str) : Prop := s = [] ∨ ∃ r, s = '|' :: r

theorem AfterPattern.unduplicated {s : Str} (h : AfterPattern s) : Unduplicated s := by
  intro x hx
  rcases h with rfl | ⟨r, rfl⟩
  · cases hx
  · obtain rfl := Option.some.inj hx
    decide

theorem readBranch_after {s : Str} (h : AfterPattern s) (n : Nat) : Ere.readBranch (n + 1) s = some (.empty, s) := by
  rcases h with rfl | ⟨r, rfl⟩
  · rfl
  · rw [Ere.readBranch, if_pos (.inl rfl)]

/-- Where the translation of an atom begins. -/
theorem head?_ere {a : Atom} (h : a.Proper) (ht : a.Translates) : ∃ x r, a.ere = x :: r ∧
    (x ≠ '*' ∧ x ≠ '+' ∧ x ≠ '?' ∧ x ≠ '{') ∧ x ≠ '|' ∧ x ≠ ')' := by
  cases a with
  | char c =>
    have hmagic : c ∉ magic := of_decide_eq_false h
    have hplain : c ∉ ['{', '|', '\\', '\n'] := ht
    simp only [magic, List.mem_cons, List.not_mem_nil, or_false, not_or] at hmagic hplain
    obtain ⟨-, -, -, hclose, -, -, -, -, hstar, hplus, -, hopt⟩ := hmagic
    exact ⟨c, [], rfl, ⟨hstar, hplus, hopt, hplain.1⟩, hplain.2.1, hclose⟩
  | any => exact ⟨'.', [], rfl, by decide⟩
  | cls c =>
    unfold Atom.ere
    dsimp only
    split
    · exact ⟨'%', [], rfl, by decide⟩
    · unfold ereClass
      split <;> exact ⟨_, _, rfl, by decide⟩
  | set neg body => exact ⟨'[', _, rfl, by decide⟩

theorem unduplicated_erePieces {ps : List Piece} (h : ∀ p ∈ ps, p.atom.Proper)
    (ht : ∀ p ∈ ps, p.atom.Translates ∧ p.quant ≠ .minus) (atEnd : Bool) {rest : Str} (hrest : AfterPattern rest) :
    Unduplicated (erePieces ps atEnd ++ rest) := by
  cases ps with
  | nil =>
    cases atEnd with
    | true => exact fun x hx => by obtain rfl := Option.some.inj hx; decide
    | false => exact hrest.unduplicated
  | cons p ps =>
    obtain ⟨x, r, hx, hdup, -⟩ := head?_ere (List.forall_mem_cons.mp h).1 (List.forall_mem_cons.mp ht).1.1
    rw [erePieces_cons, hx]
    intro y hy
    obtain rfl := Option.some.inj hy
    exact hdup

theorem readBranch_atom {n : Nat} {x : Char} {r s s' : Str} {a b c : Ere.Regex} (hbar : x ≠ '|') (hclose : x ≠ ')')
    (hatom : Ere.readAtom n (x :: r) = some (a, s)) (hdup : Ere.readDup a s = some (b, s'))
    {rest : Str} (hrest : Ere.readBranch n s' = some (c, rest)) :
    Ere.readBranch (n + 1) (x :: r) = some (.seq b c, rest) := by
  rw [Ere.readBranch, if_neg fun h => h.elim hbar hclose, hatom]
  dsimp only
  rw [hdup]
  dsimp only
  rw [hrest]
  rfl

/-- **`grep` reads the translation of the pieces**, and matches them from a position iff there is a way to take the
items from there. -/
theorem reach_of_ere {rest : Str} (hrest : AfterPattern rest) (atEnd : Bool) : ∀ {ps : List Piece},
    (∀ p ∈ ps, p.atom.Proper) → (∀ p ∈ ps, p.atom.Translates ∧ p.quant ≠ .minus) → ∀ n,
      ∃ a, Ere.readBranch (ps.length + n + 3) (erePieces ps atEnd ++ rest) = some (a, rest) ∧
        ∀ (line : Str) (i : Nat), (∃ j, Ere.Matches line a i j) ↔ Reach line (itemsOf (singles ps) atEnd) i []
  | [], _, _, n => by
    cases atEnd with
    | true =>
      have hatom : Ere.readAtom (n + 2) ('$' :: rest) = some (.eol, rest) := rfl
      refine ⟨.seq .eol .empty, ?_, fun line i => ⟨?_, ?_⟩⟩
      · show Ere.readBranch (0 + n + 3) ('$' :: rest) = _
        rw [Nat.zero_add]
        exact readBranch_atom (by decide) (by decide) hatom (readDup_unduplicated _ hrest.unduplicated)
          (readBranch_after hrest (n + 1))
      · rintro ⟨j, k, ⟨hi, -⟩, -⟩
        exact hi
      · exact fun hi => ⟨i, i, ⟨hi, rfl⟩, rfl⟩
    | false => exact ⟨.empty, readBranch_after hrest _, fun line i => iff_of_true ⟨i, rfl⟩ trivial⟩
  | p :: ps, h, ht, n => by
    obtain ⟨hp, hps⟩ := List.forall_mem_cons.mp h
    obtain ⟨⟨htp, hq⟩, hts⟩ := List.forall_mem_cons.mp ht
    obtain ⟨b, hread, hmatches⟩ := reach_of_ere hrest atEnd hps hts n
    obtain ⟨x, r, hx, -, hbar, hclose⟩ := head?_ere hp htp
    obtain ⟨test, hatom, htest⟩ := readAtom_ere hp htp (ps.length + n + 2)
      (spellQuant p.quant ++ (erePieces ps atEnd ++ rest))
    have hdup := readDup_quant hq (.chars test) (unduplicated_erePieces hps hts atEnd hrest)
    refine ⟨.seq (duplicated p.quant (.chars test)) b, ?_, fun line i => ?_⟩
    · have hfuel : (p :: ps).length + n + 3 = ps.length + n + 3 + 1 := by
        rw [List.length_cons]
        omega
      rw [hx] at hatom
      rw [hfuel, erePieces_cons, List.append_assoc, List.append_assoc, hx]
      exact readBranch_atom hbar hclose hatom hdup hread
    · have hrun := @run_eq line test p.atom.single htest
      constructor
      · rintro ⟨j, k, hk, hj⟩
        obtain ⟨m, hm, htakes, rfl⟩ := (matches_duplicated hq).mp hk
        rw [hrun] at hm
        exact ⟨m, hm, htakes, (hmatches line (i + m)).mp ⟨j, hj⟩⟩
      · rintro ⟨m, hm, htakes, hreach⟩
        obtain ⟨j, hj⟩ := (hmatches line (i + m)).mpr hreach
        rw [← hrun] at hm
        exact ⟨j, i + m, (matches_duplicated hq).mpr ⟨m, hm, htakes, rfl⟩, hj⟩

/-! ## The two paths -/

/-- The Lua pattern matches the line. -/
def LuaMatches (pattern line : Str) : Prop := ∃ vs, strMatch line pattern = .ok (some vs)

/-- `grep -E` reads the translation of a pattern, and selects the lines that the pattern matches. -/
theorem readBranch_pat {p : Pat} (h : p.Proper) (ht : p.Translates) {rest : Str} (hrest : AfterPattern rest) (n : Nat) :
    ∃ a, Ere.readBranch (p.pieces.length + n + 4) (p.ere ++ rest) = some (a, rest) ∧
      ∀ line, Ere.MatchesLine a line ↔ LuaMatches p.spell line := by
  unfold Pat.ere LuaMatches
  simp only [strMatch_spell h]
  cases p.atStart with
  | true =>
    obtain ⟨a, hread, hmatches⟩ := reach_of_ere hrest p.atEnd h ht n
    have hatom : Ere.readAtom (p.pieces.length + n + 3) ('^' :: (erePieces p.pieces p.atEnd ++ rest)) =
        some (.bol, erePieces p.pieces p.atEnd ++ rest) := rfl
    have hdup := readDup_unduplicated .bol (unduplicated_erePieces h ht p.atEnd hrest)
    refine ⟨.seq .bol a, readBranch_atom (by decide) (by decide) hatom hdup hread, fun line => ?_⟩
    constructor
    · rintro ⟨i, -, j, k, ⟨rfl, rfl⟩, hj⟩
      exact ⟨0, Nat.le_refl 0, (hmatches line 0).mp ⟨j, hj⟩⟩
    · rintro ⟨i, hi, hreach⟩
      obtain rfl := Nat.le_zero.mp hi
      obtain ⟨j, hj⟩ := (hmatches line 0).mpr hreach
      exact ⟨0, Nat.zero_le _, j, 0, ⟨rfl, rfl⟩, hj⟩
  | false =>
    obtain ⟨a, hread, hmatches⟩ := reach_of_ere hrest p.atEnd h ht (n + 1)
    exact ⟨a, hread, fun line => exists_congr fun i => and_congr_right fun _ => hmatches line i⟩

theorem length_erePieces {ps : List Piece} (h : ∀ p ∈ ps, p.atom.Proper)
    (ht : ∀ p ∈ ps, p.atom.Translates ∧ p.quant ≠ .minus) (atEnd : Bool) : ps.length ≤ (erePieces ps atEnd).length := by
  induction ps with
  | nil => exact Nat.zero_le _
  | cons p ps ih =>
    obtain ⟨hp, hps⟩ := List.forall_mem_cons.mp h
    obtain ⟨htp, hts⟩ := List.forall_mem_cons.mp ht
    obtain ⟨x, r, hx, -⟩ := head?_ere hp htp.1
    have hrest := ih hps hts
    rw [erePieces_cons, hx, List.length_append, List.length_append, List.length_cons, List.length_cons]
    omega

theorem length_ere {p : Pat} (h : p.Proper) (ht : p.Translates) : p.pieces.length ≤ p.ere.length := by
  have hle := length_erePieces h ht p.atEnd
  unfold Pat.ere
  rw [List.length_append]
  omega

theorem newline_luaPatternToEre {s : Str} (h : '\n' ∉ s) : '\n' ∉ luaPatternToEre s := by
  induction s using luaPatternToEre.induct with
  | case1 r ih =>
    rw [ere_escape]
    intro hmem
    rcases List.mem_append.mp hmem with hmem | hmem
    · cases List.mem_singleton.mp hmem
    · exact ih (fun hr => h (List.mem_cons_of_mem _ (List.mem_cons_of_mem _ hr))) hmem
  | case2 c r hc ih =>
    have hc : c ≠ '%' := hc
    rw [ere_escape, if_neg hc]
    intro hmem
    rcases List.mem_append.mp hmem with hmem | hmem
    · revert hmem
      unfold ereClass
      split
      all_goals first
        | exact of_decide_eq_false rfl
        | exact fun hmem => h (List.mem_cons_of_mem _ (List.mem_cons.mpr (.inl
            (List.mem_singleton.mp ((List.mem_cons.mp hmem).resolve_left (by decide))))))
    · exact ih (fun hr => h (List.mem_cons_of_mem _ (List.mem_cons_of_mem _ hr))) hmem
  | case3 c r h₁ h₂ ih =>
    rw [luaPatternToEre]
    · intro hmem
      rcases List.mem_cons.mp hmem with hmem | hmem
      · exact h (List.mem_cons.mpr (.inl hmem))
      · exact ih (fun hr => h (List.mem_cons_of_mem _ hr)) hmem
    · exact h₁
    · exact h₂
  | case4 => exact h

theorem newline_spell {p : Pat} (h : p.Proper) (ht : p.Translates) : '\n' ∉ p.spell := by
  have hatom : ∀ q ∈ p.pieces, '\n' ∉ q.spell := by
    intro q hq hmem
    rcases List.mem_append.mp hmem with hmem | hmem
    · have hproper := h q hq
      have htranslates := (ht q hq).1
      cases hcase : q.atom with
      | char c =>
        rw [hcase] at hmem htranslates
        have hplain : c ∉ ['{', '|', '\\', '\n'] := htranslates
        rw [← List.mem_singleton.mp hmem] at hplain
        exact hplain (by decide)
      | any =>
        rw [hcase] at hmem
        cases List.mem_singleton.mp hmem
      | cls c =>
        rw [hcase] at hmem hproper
        have hc : '\n' = c := List.mem_singleton.mp ((List.mem_cons.mp hmem).resolve_left (by decide))
        rw [← hc] at hproper
        rcases hproper with hproper | hproper
        · exact absurd hproper (by decide)
        · exact absurd hproper (by decide)
      | set neg body =>
        rw [hcase] at hmem htranslates
        have hbody := htranslates.2
        simp only [Atom.spell, List.mem_cons, List.mem_append] at hmem
        rcases hmem with hmem | hmem | hmem | hmem | hmem
        · cases hmem
        · split at hmem
          · cases List.mem_singleton.mp hmem
          · cases hmem
        · exact hbody hmem
        · cases hmem
        · cases hmem
    · revert hmem
      cases q.quant <;> decide
  unfold Pat.spell spellPieces
  intro hmem
  rcases List.mem_append.mp hmem with hmem | hmem
  · split at hmem
    · cases List.mem_singleton.mp hmem
    · cases hmem
  · rcases List.mem_append.mp hmem with hmem | hmem
    · obtain ⟨q, hq, hmem⟩ := List.mem_flatMap.mp hmem
      exact hatom q hq hmem
    · split at hmem
      · cases List.mem_singleton.mp hmem
      · cases hmem

/-- The translation is a regular expression for the lines that the pattern matches. -/
theorem read_ere {p : Pat} (h : p.Proper) (ht : p.Translates) : ∃ a, Ere.read p.ere = some a ∧
    ∀ line, Ere.MatchesLine a line ↔ LuaMatches p.spell line := by
  have hlen := length_ere h ht
  obtain ⟨a, hread, hmatches⟩ := readBranch_pat h ht (.inl rfl) (3 * p.ere.length + 1 - p.pieces.length)
  have hfuel : p.pieces.length + (3 * p.ere.length + 1 - p.pieces.length) + 4 = 3 * p.ere.length + 5 := by omega
  rw [hfuel, List.append_nil] at hread
  refine ⟨a, ?_, hmatches⟩
  unfold Ere.read
  rw [Ere.readAlt_last hread]

/-- The translation of two alternatives. -/
theorem read_bar {p q : Pat} (hp : p.Proper) (htp : p.Translates) (hq : q.Proper) (htq : q.Translates) :
    ∃ a, Ere.read (p.ere ++ '|' :: q.ere) = some a ∧
      ∀ line, Ere.MatchesLine a line ↔ LuaMatches p.spell line ∨ LuaMatches q.spell line := by
  have hlenp := length_ere hp htp
  have hlenq := length_ere hq htq
  have hlen : (p.ere ++ '|' :: q.ere).length = p.ere.length + q.ere.length + 1 := by
    rw [List.length_append, List.length_cons]
    omega
  obtain ⟨a, hreada, hmatchesa⟩ := readBranch_pat hp htp (.inr ⟨q.ere, rfl⟩)
    (3 * (p.ere.length + q.ere.length + 1) + 1 - p.pieces.length)
  obtain ⟨b, hreadb, hmatchesb⟩ := readBranch_pat hq htq (.inl rfl)
    (3 * (p.ere.length + q.ere.length + 1) - q.pieces.length)
  have hfuelp : p.pieces.length + (3 * (p.ere.length + q.ere.length + 1) + 1 - p.pieces.length) + 4 =
      3 * (p.ere.length + q.ere.length + 1) + 5 := by omega
  have hfuelq : q.pieces.length + (3 * (p.ere.length + q.ere.length + 1) - q.pieces.length) + 4 =
      3 * (p.ere.length + q.ere.length + 1) + 4 := by omega
  rw [hfuelp] at hreada
  rw [hfuelq, List.append_nil] at hreadb
  refine ⟨.alt a b, ?_, fun line => ?_⟩
  · unfold Ere.read
    rw [hlen, Ere.readAlt_bar hreada (Ere.readAlt_last hreadb)]
  · rw [Ere.matchesLine_alt, hmatchesa, hmatchesb]

theorem ere_spell_nil {p : Pat} (h : p.Proper) (ht : p.Translates) : luaPatternToEre p.spell = p.ere := by
  have htext := ere_spell h ht []
  have hnil : luaPatternToEre [] = [] := rfl
  rw [List.append_nil, hnil, List.append_nil] at htext
  exact htext

/-- The two paths agree on a pattern: alone, and as an alternative to another one. -/
structure PathsAgree (p : Pat) : Prop where
  alone : ∀ line, '\n' ∉ line → (Ere.Grep (luaPatternToEre p.spell) line ↔ LuaMatches p.spell line)
  alternative : ∀ q : Pat, q.Proper → q.Translates → ∀ line, '\n' ∉ line →
    (Ere.Grep (luaPatternToEre (p.spell ++ '|' :: q.spell)) line ↔ LuaMatches p.spell line ∨ LuaMatches q.spell line)

theorem agrees_of_translates {p : Pat} (h : p.Proper) (ht : p.Translates) : PathsAgree p := by
  constructor
  · intro line _
    obtain ⟨a, hread, hmatches⟩ := read_ere h ht
    have hnew := newline_luaPatternToEre (newline_spell h ht)
    rw [← ere_spell_nil h ht] at hread
    rw [Ere.grep_iff hnew hread]
    exact hmatches line
  · intro q hq htq line _
    obtain ⟨a, hread, hmatches⟩ := read_bar h ht hq htq
    have hbar : luaPatternToEre (p.spell ++ '|' :: q.spell) = p.ere ++ '|' :: q.ere := by
      rw [ere_spell h ht, ere_char (by decide), ere_spell_nil hq htq]
    have hnew : '\n' ∉ luaPatternToEre (p.spell ++ '|' :: q.spell) := by
      refine newline_luaPatternToEre fun hmem => ?_
      rcases List.mem_append.mp hmem with hmem | hmem
      · exact newline_spell h ht hmem
      · exact newline_spell hq htq ((List.mem_cons.mp hmem).resolve_left (by decide))
    rw [← hbar] at hread
    rw [Ere.grep_iff hnew hread]
    exact hmatches line

/-! ### Single characters -/

/-- The pattern of one atom. -/
def atomPat (a : Atom) : Pat := ⟨false, [⟨a, .one⟩], false⟩

theorem spell_atomPat (a : Atom) : (atomPat a).spell = a.spell := by
  simp [atomPat, Pat.spell, spellPieces, Piece.spell, spellQuant]

theorem luaMatches_atom {a : Atom} (h : a.Proper) (line : Str) :
    LuaMatches (atomPat a).spell line ↔ ∃ x ∈ line, a.single.test x = true := by
  have hall : ∀ p ∈ [Piece.mk a .one], p.atom.Proper := fun p hp => by rw [List.mem_singleton.mp hp]; exact h
  have hcompile : compile (atomPat a).spell = [.single a.single .one] := compile_spellPieces hall false
  exact strMatch_somewhere hcompile (head?_spellPieces hall false) line

/-- No line is selected by what is no regular expression. -/
theorem not_grep {e line : Str} (hline : '\n' ∉ e) (h : Ere.read e = none) : ¬Ere.Grep e line := by
  rintro ⟨hall, -⟩
  have hread := hall e (by rw [List.splitOn_eq_singleton hline]; exact List.mem_singleton_self e)
  rw [h] at hread
  cases hread

/-- A set alone is read as a set. -/
theorem read_bracket {body : Str} {test : Char → Bool} (h : Ere.readBracket body = some (.chars test, [])) :
    Ere.read ('[' :: body) = some (.seq (.chars test) .empty) := by
  obtain ⟨n, hn⟩ : ∃ n, 3 * ('[' :: body).length + 6 = n + 3 := ⟨3 * ('[' :: body).length + 3, rfl⟩
  have hatom : Ere.readAtom (n + 1) ('[' :: body) = some (.chars test, []) := (Ere.readAtom_bracket n body).trans h
  have hbranch : Ere.readBranch (n + 2) ('[' :: body) = some (.seq (.chars test) .empty, []) :=
    readBranch_atom (by decide) (by decide) hatom rfl rfl
  unfold Ere.read
  rw [hn, Ere.readAlt, hbranch]

/-- **The characters that the translation does not keep** tell the two paths apart. -/
theorem translates_of_agree {a : Atom} (h : a.Proper) (hset : ∀ neg body, a ≠ .set neg body)
    (hagree : PathsAgree (atomPat a)) : a.Translates := by
  have halone := hagree.alone
  simp only [luaMatches_atom h] at halone
  simp only [spell_atomPat] at halone
  cases a with
  | char c =>
    intro hc
    simp only [List.mem_cons, List.not_mem_nil, or_false] at hc
    rcases hc with rfl | rfl | rfl | rfl
    · exact not_grep (by decide) rfl ((halone ['{'] (by decide)).mpr ⟨'{', by decide, rfl⟩)
    · have hgrep : Ere.Grep (luaPatternToEre ['|']) [] :=
        ⟨fun p hp => by rw [List.mem_singleton.mp hp]; rfl, ['|'], List.mem_singleton_self _, .alt .empty .empty, rfl,
          0, Nat.le_refl 0, 0, .inl rfl⟩
      obtain ⟨x, hx, -⟩ := (halone [] (by decide)).mp hgrep
      cases hx
    · exact not_grep (by decide) rfl ((halone ['\\'] (by decide)).mpr ⟨'\\', by decide, rfl⟩)
    · have hsplit : (luaPatternToEre ['\n']).splitOn '\n' = [[], []] := rfl
      have hgrep : Ere.Grep (luaPatternToEre ['\n']) [] := by
        refine ⟨fun p hp => ?_, [], ?_, .empty, rfl, 0, Nat.le_refl 0, 0, rfl⟩
        · rw [hsplit] at hp
          rcases List.mem_cons.mp hp with rfl | hp
          · rfl
          · rw [List.mem_singleton.mp hp]
            rfl
        · rw [hsplit]
          exact List.mem_cons_self
      obtain ⟨x, hx, -⟩ := (halone [] (by decide)).mp hgrep
      cases hx
  | any => trivial
  | cls c =>
    constructor
    · intro hc
      simp only [List.mem_cons, List.not_mem_nil, or_false] at hc
      rcases hc with rfl | rfl
      · obtain ⟨test, hset, htest⟩ : ∃ test, Ere.readBracket "[:alnum:]_]" = some (.chars test, []) ∧ test '_' = true :=
          ⟨_, rfl, rfl⟩
        have hgrep : Ere.Grep (luaPatternToEre ['%', 'w']) ['_'] := (Ere.grep_iff (by decide) (read_bracket hset)).mpr
          ⟨0, Nat.zero_le 1, 1, 1, ⟨'_', rfl, htest, rfl⟩, rfl⟩
        obtain ⟨x, hx, htest⟩ := (halone ['_'] (by decide)).mp hgrep
        rw [List.mem_singleton.mp hx] at htest
        cases htest
      · obtain ⟨test, hset, hfalse⟩ : ∃ test, Ere.readBracket "^[:alnum:]_]" = some (.chars test, []) ∧
            test '_' = false := ⟨_, rfl, rfl⟩
        have hgrep : Ere.Grep (luaPatternToEre ['%', 'W']) ['_'] := (halone ['_'] (by decide)).mpr ⟨'_', by decide, rfl⟩
        obtain ⟨i, hi, j, k, ⟨x, hx, htest, -⟩, -⟩ := (Ere.grep_iff (by decide) (read_bracket hset)).mp hgrep
        rw [List.mem_singleton.mp (List.mem_of_getElem? hx), hfalse] at htest
        cases htest
    · intro hc
      simp only [Ere.operators, List.mem_cons, List.not_mem_nil, or_false] at hc
      rcases hc with rfl | rfl | rfl | rfl
      · exact not_grep (by decide) rfl ((halone ['<'] (by decide)).mpr ⟨'<', by decide, rfl⟩)
      · exact not_grep (by decide) rfl ((halone ['>'] (by decide)).mpr ⟨'>', by decide, rfl⟩)
      · exact not_grep (by decide) rfl ((halone [Char.ofNat 39] (by decide)).mpr ⟨Char.ofNat 39, by decide, rfl⟩)
      · exact not_grep (by decide) rfl ((halone [Char.ofNat 96] (by decide)).mpr ⟨Char.ofNat 96, by decide, rfl⟩)
  | set neg body => exact absurd rfl (hset neg body)

/-- **The path through `grep` and the Lua path agree** on a pattern that the translation keeps; on a single character or
class, only if the translation keeps it. -/
theorem grep_agrees {p : Pat} (h : p.Proper) : (p.Translates → PathsAgree p) ∧
    ∀ a, p = atomPat a → (∀ neg body, a ≠ .set neg body) → (PathsAgree p ↔ p.Translates) := by
  refine ⟨agrees_of_translates h, fun a hp hset => ⟨fun hagree => ?_, agrees_of_translates h⟩⟩
  subst hp
  have ha : a.Proper := h ⟨a, .one⟩ (List.mem_singleton_self _)
  have ht := translates_of_agree ha hset hagree
  intro q hq
  rw [List.mem_singleton.mp hq]
  exact ⟨ht, fun hq => by cases hq⟩

/-- `^P%s+[0-9]*$`. -/
theorem grep_agrees_port : PathsAgree ⟨true, [⟨.char 'P', .one⟩, ⟨.cls 's', .plus⟩, ⟨.set false "0-9", .star⟩],
    true⟩ := by
  refine (grep_agrees ?_).1 ?_
  · intro q hq
    simp only [List.mem_cons, List.not_mem_nil, or_false] at hq
    rcases hq with rfl | rfl | rfl
    · exact (by decide : isMagic 'P' = false)
    · exact .inl (by decide)
    · exact ⟨fun r => rfl, fun _ => by decide⟩
  · intro q hq
    simp only [List.mem_cons, List.not_mem_nil, or_false] at hq
    rcases hq with rfl | rfl | rfl
    · exact ⟨(by decide : 'P' ∉ ['{', '|', '\\', '\n']), fun h => by cases h⟩
    · exact ⟨⟨by decide, by decide⟩, fun h => by cases h⟩
    · exact ⟨⟨by decide, by decide⟩, fun h => by cases h⟩

/-- `%w` is a letter or a digit for Lua, and for `grep` also the underscore. -/
theorem grep_agrees_word : ¬∀ p : Pat, p.Proper → PathsAgree p := by
  intro h
  have hproper : (atomPat (.cls 'w')).Proper := by
    intro q hq
    rw [List.mem_singleton.mp hq]
    exact .inl (by decide)
  have hatom : (Atom.cls 'w').Proper := .inl (by decide)
  have ht := translates_of_agree hatom (fun _ _ h => by cases h) (h _ hproper)
  exact ht.1 (by decide)

end FindPattern
end Seharden
