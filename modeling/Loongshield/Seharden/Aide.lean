import Loongshield.Seharden.PathView
import Loongshield.Seharden.Trim

/-!
# `probes/aide.lua`: attributes

A rule of AIDE names the attributes to check by an expression over built-in attributes and aliases. An alias may use
others, and itself.

- `addAttrsFromExpr`: the attributes of an expression; the aliases that are being expanded are on a stack;
- `addAttrsFromExpr_ends`: it returns for every table of aliases, and leaves the stack as it was;
- `splitAttrExpr_eq`: an expression is cut at its signs;
- `Reading`: what an expression stands for, from left to right;
- `addAttrsFromExpr_iff`: without cycles that is what is computed.
-/

namespace Seharden
namespace Aide

open Lua Pattern

/-! ## Attributes -/

/-- `BUILTIN_ATTRS`. -/
def builtinAttrs : List Str := ["p", "i", "n", "u", "g", "s", "b", "m", "a", "c", "acl", "xattrs", "sha512", "sha384",
  "sha256", "sha1", "md5", "rmd160", "tiger", "whirlpool", "ftype", "selinux"].map String.toList

/-- An operand of an expression: the entries of the list of `split_attr_expr`. -/
structure Item where
  op : Str
  token : Str
  deriving DecidableEq

/-- The loop of `split_attr_expr` over the matches; an operator stays until there is another one. -/
def splitItems : Str → List (Str × Str) → List Item
  | _, [] => []
  | op, (sign, token) :: rest =>
    if trim token = [] then splitItems op rest
    else
      let op := if sign ≠ [] then sign else op
      ⟨op, trim token⟩ :: splitItems op rest

/-- `split_attr_expr`. -/
def splitAttrExpr (expr : Str) : List Item :=
  match gmatch expr "([+%-]?)([^+%-]+)" with
  | .error _ => []
  | .ok ms => splitItems "+".toList (ms.map fun caps => ((caps.headD .nil).tostring, (caps.tail.headD .nil).tostring))

/-- A table with attributes or names as keys. -/
abbrev Marks := Str → Bool

/-- `t[key] = value`. -/
def Marks.set (marks : Marks) (key : Str) (value : Bool) : Marks := fun k => if k = key then value else marks k

/-- The loop over `pairs(expanded)`. -/
def combine (op : Str) (attrs expanded : Marks) : Marks := fun attr =>
  if expanded attr then op ≠ "-".toList else attrs attr

section Resolve

variable (aliases : List (Str × Str))

/-- The loop of `add_attrs_from_expr`, where `expand` is the call for an alias: the attributes and the stack. -/
def addItems (expand : Str → Marks → Option (Marks × Marks)) : List Item → Marks → Marks → Option (Marks × Marks)
  | [], attrs, stack => some (attrs, stack)
  | item :: items, attrs, stack =>
    match aliases.lookup item.token with
    | some expr =>
      if stack item.token = false then do
        let (expanded, stack) ← expand expr (stack.set item.token true)
        addItems expand items (combine item.op attrs expanded) (stack.set item.token false)
      else if item.token ∈ builtinAttrs then
        addItems expand items (combine item.op attrs fun attr => attr = item.token) stack
      else addItems expand items attrs stack
    | none =>
      if item.token ∈ builtinAttrs then
        addItems expand items (combine item.op attrs fun attr => attr = item.token) stack
      else addItems expand items attrs stack

/-- `add_attrs_from_expr`: the attributes and the stack after it. `fuel` bounds the depth of the calls; without it there
is no result. -/
def addAttrsFromExpr : Nat → Str → Marks → Marks → Option (Marks × Marks)
  | 0, _, _, _ => none
  | fuel + 1, expr, attrs, stack =>
    addItems aliases (fun expr stack => addAttrsFromExpr fuel expr (fun _ => false) stack)
      (splitAttrExpr expr) attrs stack

/-- `resolved_attrs`. -/
def resolvedAttrs (fuel : Nat) (expr : Str) : Option Marks :=
  (addAttrsFromExpr aliases fuel expr (fun _ => false) fun _ => false).map Prod.fst

end Resolve

/-! ## The calls end, and leave the stack as it was -/

section Ends

variable {aliases : List (Str × Str)}

/-- The aliases that are not on the stack. -/
def unseen (aliases : List (Str × Str)) (stack : Marks) : Nat :=
  ((aliases.map Prod.fst).filter fun name => !stack name).length

theorem set_set {stack : Marks} {key : Str} (h : stack key = false) : (stack.set key true).set key false = stack := by
  funext k
  unfold Marks.set
  by_cases hk : k = key
  · rw [if_pos hk, hk, h]
  · rw [if_neg hk, if_neg hk]

theorem mem_of_lookup {name expr : Str} (h : aliases.lookup name = some expr) : (name, expr) ∈ aliases := by
  obtain ⟨before, after, rfl, -⟩ := List.lookup_eq_some_iff.mp h
  exact List.mem_append_right before List.mem_cons_self

/-- An alias that is put on the stack is one less to go. -/
theorem unseen_set_lt {stack : Marks} {name expr : Str} (hlookup : aliases.lookup name = some expr)
    (h : stack name = false) : unseen aliases (stack.set name true) < unseen aliases stack := by
  have hmem : name ∈ aliases.map Prod.fst := List.mem_map_of_mem (mem_of_lookup hlookup)
  unfold unseen
  generalize aliases.map Prod.fst = names at hmem
  have hle : ∀ l : List Str, (l.filter fun n => !(stack.set name true) n).length ≤
    (l.filter fun n => !stack n).length := by
    intro l
    rw [← List.countP_eq_length_filter, ← List.countP_eq_length_filter]
    refine List.countP_mono_left fun n _ hn => ?_
    unfold Marks.set at hn
    by_cases hname : n = name
    · rw [if_pos hname] at hn
      cases hn
    · rwa [if_neg hname] at hn
  obtain ⟨front, back, rfl⟩ := List.append_of_mem hmem
  have hfront := hle front
  have hback := hle back
  have hset : (stack.set name true) name = true := if_pos rfl
  rw [List.filter_append, List.filter_append, List.filter_cons_of_neg (by rw [hset]; exact Bool.false_ne_true),
    List.filter_cons_of_pos (by rw [h]; rfl), List.length_append, List.length_append, List.length_cons]
  omega

/-- **A call that has enough fuel returns, and leaves the stack as it was.** -/
theorem addAttrsFromExpr_ends : ∀ {fuel : Nat} {expr : Str} {attrs stack : Marks}, unseen aliases stack < fuel →
    ∃ attrs', addAttrsFromExpr aliases fuel expr attrs stack = some (attrs', stack) := by
  intro fuel
  induction fuel with
  | zero => intro expr attrs stack h; exact absurd h (Nat.not_lt_zero _)
  | succ fuel ih =>
    intro expr attrs stack hfuel
    rw [addAttrsFromExpr]
    -- over the operands: every call is made with one alias more on the stack
    generalize splitAttrExpr expr = items
    induction items generalizing attrs with
    | nil => exact ⟨attrs, rfl⟩
    | cons item items ihitems =>
      rw [addItems]
      cases hlookup : aliases.lookup item.token with
      | none =>
        dsimp only
        split
        · exact ihitems
        · exact ihitems
      | some e =>
        dsimp only
        split
        · next hstack =>
          have hlt := unseen_set_lt hlookup hstack
          obtain ⟨expanded, hexpanded⟩ := @ih e (fun _ => false) (stack.set item.token true) (by omega)
          rw [hexpanded]
          dsimp only [bind, Option.bind]
          rw [set_set hstack]
          exact ihitems
        · split
          · exact ihitems
          · exact ihitems

end Ends

/-! ## Expressions -/

/-- A plus or a minus. -/
def isSign (c : Char) : Bool := c == '+' || c == '-'

/-- A character before the first part. -/
def extend (c : Char) : List Item → List Item
  | [] => []
  | part :: parts => ⟨part.op, c :: part.token⟩ :: parts

/-- An expression cut at its signs: each part with the sign before it. -/
def signedParts : Str → Str → List Item
  | op, [] => [⟨op, []⟩]
  | op, c :: s => if isSign c then ⟨op, []⟩ :: signedParts [c] s else extend c (signedParts op s)

/-- The parts after the first one. -/
def laterParts : Str → List Item
  | [] => []
  | c :: s => signedParts [c] s

/-- The parts that are not blank, without the blanks around them. -/
def nonBlankParts (parts : List Item) : List Item :=
  (parts.map fun part => ⟨part.op, trim part.token⟩).filter fun item => item.token ≠ []

/-- The operands of an expression; the first one is added. -/
def operands (expr : Str) : List Item := nonBlankParts (signedParts "+".toList expr)

theorem signedParts_run {op run rest : Str} (hrun : ∀ x ∈ run, isSign x = false)
    (hrest : ∀ x, rest.head? = some x → isSign x = true) :
    signedParts op (run ++ rest) = ⟨op, run⟩ :: laterParts rest := by
  induction run with
  | nil =>
    cases rest with
    | nil => rfl
    | cons c s =>
      rw [List.nil_append, signedParts, if_pos (hrest c rfl)]
      rfl
  | cons x run ih =>
    rw [List.cons_append, signedParts, if_neg (by rw [hrun x List.mem_cons_self]; exact Bool.false_ne_true),
      ih fun y hy => hrun y (List.mem_cons_of_mem x hy)]
    rfl

/-- `[+%-]`. -/
def signClass : Single := .set false [.lit '+', .cls '-']

/-- `[^+%-]`. -/
def otherClass : Single := .set true [.lit '+', .cls '-']

theorem signClass_test (x : Char) : signClass.test x = isSign x := by
  have h : signClass.test x = ((('+' == x) || (('-' == x) || false)) != false) := rfl
  have hsymm : ∀ a : Char, (a == x) = (x == a) := fun a => by rw [Bool.eq_iff_iff, beq_iff_eq, beq_iff_eq, eq_comm]
  rw [h, isSign, Bool.or_false, Bool.bne_false, hsymm, hsymm]

theorem otherClass_test (x : Char) : otherClass.test x = !isSign x := by
  have h : otherClass.test x = !signClass.test x := by
    change ([SetItem.lit '+', .cls '-'].any (SetItem.test x) != true) =
      !([SetItem.lit '+', .cls '-'].any (SetItem.test x) != false)
    cases [SetItem.lit '+', .cls '-'].any (SetItem.test x) <;> rfl
  rw [h, signClass_test]

/-- The items of `([+%-]?)([^+%-]+)`. -/
def operandItems : List Pattern.Item :=
  [.capOpen, .single signClass .opt, .capClose, .capOpen, .single otherClass .plus, .capClose]

theorem compile_operand : compile "([+%-]?)([^+%-]+)" = operandItems := rfl

section Match

variable {run rest : Str}

/-- The operand itself. -/
theorem matchRest_token {segs : List Seg} (hne : run ≠ []) (hrun : ∀ x ∈ run, isSign x = false)
    (hrest : ∀ x, rest.head? = some x → isSign x = true) :
    matchRest [.capOpen, .single otherClass .plus, .capClose] (run ++ rest) segs =
      some (rest, segs ++ [⟨run ++ rest, some run.length⟩]) := by
  refine matchRest_capPlus hne (fun x hx => ?_) (fun x hx => ?_) rfl
  · rw [otherClass_test, hrun x hx]
    rfl
  · rw [otherClass_test, hrest x hx]
    rfl

theorem matchRest_token_none {segs : List Seg} (hrest : ∀ x, rest.head? = some x → isSign x = true) :
    matchRest [.capOpen, .single otherClass .plus, .capClose] rest segs = none := by
  cases rest with
  | nil => rfl
  | cons x r =>
    rw [matchRest, matchRest, otherClass_test, hrest x rfl]
    rfl

/-- An operand without a sign. -/
theorem matchRest_unsigned (hne : run ≠ []) (hrun : ∀ x ∈ run, isSign x = false)
    (hrest : ∀ x, rest.head? = some x → isSign x = true) :
    matchRest operandItems (run ++ rest) [] =
      some (rest, [⟨run ++ rest, some 0⟩, ⟨run ++ rest, some run.length⟩]) := by
  obtain ⟨x, u, rfl⟩ := List.exists_cons_of_ne_nil hne
  have hx : signClass.test x = false := by rw [signClass_test, hrun x List.mem_cons_self]
  have htoken := @matchRest_token (x :: u) rest [⟨x :: u ++ rest, some 0⟩] hne hrun hrest
  rw [operandItems, matchRest, List.cons_append, matchRest, if_neg (by rw [hx]; exact Bool.false_ne_true), matchRest]
  have hclose : closeSeg (x :: (u ++ rest)) ([] ++ [⟨x :: (u ++ rest), none⟩]) = some [⟨x :: (u ++ rest), some 0⟩] := by
    rw [closeSeg_concat, Nat.sub_self]
    rfl
  rw [hclose]
  exact htoken

/-- An operand behind its sign. -/
theorem matchRest_signed {c : Char} (hc : isSign c = true) (hne : run ≠ []) (hrun : ∀ x ∈ run, isSign x = false)
    (hrest : ∀ x, rest.head? = some x → isSign x = true) :
    matchRest operandItems (c :: (run ++ rest)) [] =
      some (rest, [⟨c :: (run ++ rest), some 1⟩, ⟨run ++ rest, some run.length⟩]) := by
  have htoken := @matchRest_token run rest [⟨c :: (run ++ rest), some 1⟩] hne hrun hrest
  have hclose : closeSeg (run ++ rest) ([] ++ [⟨c :: (run ++ rest), none⟩]) = some [⟨c :: (run ++ rest), some 1⟩] := by
    rw [closeSeg_concat, List.length_cons, Nat.add_sub_cancel_left]
    rfl
  rw [operandItems, matchRest, matchRest, if_pos (by rw [signClass_test, hc]), matchRest, hclose]
  dsimp only
  rw [htoken]
  rfl

/-- A sign without an operand. -/
theorem matchRest_lonely {c : Char} (hc : isSign c = true) (hrest : ∀ x, rest.head? = some x → isSign x = true) :
    matchRest operandItems (c :: rest) [] = none := by
  have hclose : ∀ r : Str, ∃ segs, closeSeg r ([] ++ [⟨c :: rest, none⟩]) = some segs := fun r =>
    ⟨_, closeSeg_concat r (c :: rest) []⟩
  obtain ⟨segs, hsegs⟩ := hclose rest
  obtain ⟨segs', hsegs'⟩ := hclose (c :: rest)
  rw [operandItems, matchRest, matchRest, if_pos (by rw [signClass_test, hc]), matchRest, hsegs]
  dsimp only
  rw [matchRest_token_none hrest, Option.none_or, matchRest, hsegs']
  dsimp only
  exact matchRest_token_none fun x hx => by rw [← Option.some.inj hx]; exact hc

end Match

/-- The two captures of a match. -/
def signAndToken (caps : List Str) : Str × Str :=
  (((caps.map Value.str).headD .nil).tostring, ((caps.map Value.str).tail.headD .nil).tostring)

theorem nonBlankParts_cons (op token : Str) (parts : List Item) : nonBlankParts (⟨op, token⟩ :: parts) =
    if trim token = [] then nonBlankParts parts else ⟨op, trim token⟩ :: nonBlankParts parts := by
  unfold nonBlankParts
  rw [List.map_cons]
  split
  · next h => rw [List.filter_cons_of_neg (by simpa using h)]
  · next h => rw [List.filter_cons_of_pos (by simpa using h)]

/-- A text up to its first sign. -/
theorem split_at_sign (s : Str) : ∃ run rest, s = run ++ rest ∧ (∀ x ∈ run, isSign x = false) ∧
    ∀ x, rest.head? = some x → isSign x = true := by
  refine ⟨s.takeWhile fun c => !isSign c, s.dropWhile fun c => !isSign c, List.takeWhile_append_dropWhile.symm,
    fun x hx => ?_, fun x hx => ?_⟩
  · simpa using List.mem_takeWhile_imp hx
  · have hhead := List.head?_dropWhile_not (fun c => !isSign c) s
    rw [hx] at hhead
    simpa using hhead

/-- From a sign on, every match has its own sign. -/
theorem splitItems_later : ∀ {fuel : Nat} {s op : Str}, s.length < fuel → (∀ x, s.head? = some x → isSign x = true) →
    splitItems op ((gmatchRest operandItems fuel s).map signAndToken) = nonBlankParts (laterParts s)
  | 0, _, _, h, _ => absurd h (Nat.not_lt_zero _)
  | fuel + 1, [], op, _, _ => rfl
  | fuel + 1, c :: s, op, hfuel, hhead => by
    have hc : isSign c = true := hhead c rfl
    obtain ⟨run, rest, rfl, hrun, hrest⟩ := split_at_sign s
    rw [List.length_cons, List.length_append] at hfuel
    rw [laterParts, signedParts_run hrun hrest, nonBlankParts_cons]
    unfold gmatchRest
    cases run with
    | nil =>
      rw [List.nil_append, matchRest_lonely hc hrest, if_pos (by rfl)]
      exact splitItems_later (by omega) hrest
    | cons x run =>
      have hlen : ¬rest.length = (c :: (x :: run ++ rest)).length := by
        rw [List.length_cons, List.length_append, List.length_cons]
        omega
      have htexts : texts (c :: (x :: run ++ rest)) rest
          [⟨c :: (x :: run ++ rest), some 1⟩, ⟨x :: run ++ rest, some (x :: run).length⟩] = [[c], x :: run] := by
        simp [texts, Seg.text]
      rw [matchRest_signed hc (List.cons_ne_nil x run) hrun hrest]
      dsimp only
      rw [if_neg hlen, htexts, List.map_cons, show signAndToken [[c], x :: run] = ([c], x :: run) from rfl, splitItems]
      split
      · exact splitItems_later (by omega) hrest
      · exact congrArg (List.cons _) (splitItems_later (by omega) hrest)

/-- **An expression is cut at its signs.** -/
theorem splitAttrExpr_eq (expr : Str) : splitAttrExpr expr = operands expr := by
  have hmatches : gmatch expr "([+%-]?)([^+%-]+)" = .ok _ := gmatch_eq compile_operand rfl expr
  unfold splitAttrExpr
  rw [hmatches]
  dsimp only
  rw [List.map_map]
  change splitItems "+".toList ((gmatchRest operandItems (expr.length + 1) expr).map signAndToken) = _
  obtain ⟨run, rest, rfl, hrun, hrest⟩ := split_at_sign expr
  rw [operands, signedParts_run hrun hrest, nonBlankParts_cons]
  cases run with
  | nil =>
    rw [if_pos (by rfl)]
    exact splitItems_later (Nat.lt_succ_self _) hrest
  | cons x run =>
    have hlen : ¬rest.length = (x :: (run ++ rest)).length := by
      rw [List.length_cons, List.length_append]
      omega
    have htexts : texts (x :: (run ++ rest)) rest
        [⟨x :: (run ++ rest), some 0⟩, ⟨x :: (run ++ rest), some (x :: run).length⟩] = [[], x :: run] := by
      simp [texts, Seg.text]
    have hmatch := matchRest_unsigned (List.cons_ne_nil x run) hrun hrest
    rw [List.cons_append] at hmatch ⊢
    unfold gmatchRest
    rw [hmatch]
    dsimp only
    rw [if_neg hlen, htexts, List.map_cons, show signAndToken [[], x :: run] = ([], x :: run) from rfl, splitItems]
    have hfuel : rest.length < (x :: (run ++ rest)).length := by
      rw [List.length_cons, List.length_append]
      omega
    split
    · exact splitItems_later hfuel hrest
    · exact congrArg (List.cons _) (splitItems_later hfuel hrest)

/-! ## What an expression stands for -/

/-- The attributes of a table. -/
def Marks.attrs (marks : Marks) : Set Str := {attr | marks attr = true}

/-- An operand is removed by a minus, and added otherwise. -/
def applyOp (op : Str) (attrs operand : Set Str) : Set Str :=
  if op = "-".toList then attrs \ operand else attrs ∪ operand

/-- What operands make of a set, from left to right: an alias stands for what its own expression stands for, a built-in
attribute for itself, and another word for nothing. -/
inductive Reading (aliases : List (Str × Str)) : List Item → Set Str → Set Str → Prop
  | nil {attrs : Set Str} : Reading aliases [] attrs attrs
  | expands {item : Item} {items : List Item} {expr : Str} {attrs operand result : Set Str} :
      aliases.lookup item.token = some expr → Reading aliases (operands expr) ∅ operand →
      Reading aliases items (applyOp item.op attrs operand) result → Reading aliases (item :: items) attrs result
  | builtin {item : Item} {items : List Item} {attrs result : Set Str} :
      aliases.lookup item.token = none → item.token ∈ builtinAttrs →
      Reading aliases items (applyOp item.op attrs {item.token}) result → Reading aliases (item :: items) attrs result
  | unknown {item : Item} {items : List Item} {attrs result : Set Str} :
      aliases.lookup item.token = none → item.token ∉ builtinAttrs →
      Reading aliases items attrs result → Reading aliases (item :: items) attrs result

/-- An alias whose expression has a word as an operand. -/
def Uses (aliases : List (Str × Str)) (name token : Str) : Prop :=
  ∃ expr, aliases.lookup name = some expr ∧ ∃ item ∈ operands expr, item.token = token

/-- Nothing that operands lead to leads to itself. -/
def AcyclicFrom (aliases : List (Str × Str)) (items : List Item) : Prop :=
  ∀ item ∈ items, ∀ name, Relation.ReflTransGen (Uses aliases) item.token name →
    ¬Relation.TransGen (Uses aliases) name name

/-- The aliases that can be reached from an expression have no cycle. -/
def Acyclic (aliases : List (Str × Str)) (expr : Str) : Prop := AcyclicFrom aliases (operands expr)

section Reading

variable {aliases : List (Str × Str)}

theorem attrs_combine (op : Str) (marks expanded : Marks) :
    (combine op marks expanded).attrs = applyOp op marks.attrs expanded.attrs := by
  ext attr
  unfold Marks.attrs combine applyOp
  by_cases hop : op = "-".toList
  · rw [if_pos hop, Set.mem_sdiff]
    cases h : expanded attr <;> simp [h, hop]
  · have hbool : decide (op ≠ "-".toList) = true := decide_eq_true hop
    rw [if_neg hop, Set.mem_union, Set.mem_ofPred_eq, Set.mem_ofPred_eq, Set.mem_ofPred_eq, hbool]
    cases h : expanded attr <;> simp

theorem attrs_empty : (Marks.attrs fun _ => false) = ∅ := by
  ext attr
  simp [Marks.attrs]

theorem attrs_singleton (token : Str) : (Marks.attrs fun attr => attr = token) = {token} := by
  ext attr
  simp [Marks.attrs]

/-- **An expression stands for one set.** -/
theorem Reading.unique {items : List Item} {attrs a b : Set Str} (ha : Reading aliases items attrs a)
    (hb : Reading aliases items attrs b) : a = b := by
  induction ha generalizing b with
  | nil =>
    cases hb
    rfl
  | expands hlookup _ _ ihoperand ihrest =>
    cases hb with
    | expands hlookup' hoperand' hrest' =>
      rw [hlookup] at hlookup'
      cases hlookup'
      rw [ihoperand hoperand'] at ihrest
      exact ihrest hrest'
    | builtin hlookup' _ _ => rw [hlookup] at hlookup'; cases hlookup'
    | unknown hlookup' _ _ => rw [hlookup] at hlookup'; cases hlookup'
  | builtin hlookup hmem _ ihrest =>
    cases hb with
    | expands hlookup' _ _ => rw [hlookup] at hlookup'; cases hlookup'
    | builtin _ _ hrest' => exact ihrest hrest'
    | unknown _ hno _ => exact absurd hmem hno
  | unknown hlookup hno _ ihrest =>
    cases hb with
    | expands hlookup' _ _ => rw [hlookup] at hlookup'; cases hlookup'
    | builtin _ hmem _ => exact absurd hmem hno
    | unknown _ _ hrest' => exact ihrest hrest'

/-- The operands of an alias that is expanded: what they lead to is not the alias, nor on the stack. -/
theorem clear_of_expanded {stack : Marks} {name expr : Str} (hlookup : aliases.lookup name = some expr)
    (hacyclic : ∀ a, Relation.ReflTransGen (Uses aliases) name a → ¬Relation.TransGen (Uses aliases) a a)
    (hclear : ∀ a, Relation.ReflTransGen (Uses aliases) name a → stack a = false) :
    AcyclicFrom aliases (operands expr) ∧ ∀ item ∈ operands expr, ∀ a,
      Relation.ReflTransGen (Uses aliases) item.token a → (stack.set name true) a = false := by
  have huses : ∀ item ∈ operands expr, Uses aliases name item.token := fun item hitem =>
    ⟨expr, hlookup, item, hitem, rfl⟩
  refine ⟨fun item hitem a ha => hacyclic a (.head (huses item hitem) ha), fun item hitem a ha => ?_⟩
  have hne : a ≠ name := by
    rintro rfl
    exact hacyclic a .refl (.head' (huses item hitem) ha)
  unfold Marks.set
  rw [if_neg hne]
  exact hclear a (.head (huses item hitem) ha)

/-- **Without cycles the attributes are those that the expression stands for.** -/
theorem addAttrsFromExpr_reading : ∀ {fuel : Nat} {expr : Str} {marks stack : Marks}, unseen aliases stack < fuel →
    Acyclic aliases expr →
    (∀ item ∈ operands expr, ∀ a, Relation.ReflTransGen (Uses aliases) item.token a → stack a = false) →
    ∃ marks', addAttrsFromExpr aliases fuel expr marks stack = some (marks', stack) ∧
      Reading aliases (operands expr) marks.attrs marks'.attrs := by
  intro fuel
  induction fuel with
  | zero => intro expr marks stack h; exact absurd h (Nat.not_lt_zero _)
  | succ fuel ih =>
    intro expr marks stack hfuel hacyclic hclear
    unfold Acyclic at hacyclic
    rw [addAttrsFromExpr, splitAttrExpr_eq]
    generalize operands expr = items at hacyclic hclear
    induction items generalizing marks with
    | nil => exact ⟨marks, rfl, .nil⟩
    | cons item items ihitems =>
      have hrest : ∀ marks : Marks, ∃ marks', _ ∧ _ := fun marks =>
        @ihitems marks (fun it hit => hacyclic it (List.mem_cons_of_mem item hit))
          fun it hit => hclear it (List.mem_cons_of_mem item hit)
      rw [addItems]
      cases hlookup : aliases.lookup item.token with
      | none =>
        dsimp only
        split
        · next hmem =>
          obtain ⟨marks', hrun, hread⟩ := hrest (combine item.op marks fun attr => attr = item.token)
          rw [attrs_combine, attrs_singleton] at hread
          exact ⟨marks', hrun, .builtin hlookup hmem hread⟩
        · next hmem =>
          obtain ⟨marks', hrun, hread⟩ := hrest marks
          exact ⟨marks', hrun, .unknown hlookup hmem hread⟩
      | some e =>
        -- the alias is not on the stack, and with it there is one less to go
        have hstack : stack item.token = false := hclear item List.mem_cons_self item.token .refl
        have hlt := unseen_set_lt hlookup hstack
        obtain ⟨hacyclic', hclear'⟩ := clear_of_expanded hlookup (hacyclic item List.mem_cons_self)
          (hclear item List.mem_cons_self)
        obtain ⟨expanded, hexpanded, hoperand⟩ := @ih e (fun _ => false) (stack.set item.token true) (by omega)
          hacyclic' hclear'
        obtain ⟨marks', hrun, hread⟩ := hrest (combine item.op marks expanded)
        rw [attrs_combine] at hread
        rw [attrs_empty] at hoperand
        refine ⟨marks', ?_, .expands hlookup hoperand hread⟩
        dsimp only
        rw [if_pos hstack, hexpanded]
        dsimp only [bind, Option.bind]
        rw [set_set hstack]
        exact hrun

/-! ## More fuel changes nothing -/

theorem addItems_mono {f g : Str → Marks → Option (Marks × Marks)} (hle : ∀ expr stack r, f expr stack = some r →
    g expr stack = some r) : ∀ {items : List Item} {marks stack : Marks} {r : Marks × Marks},
    addItems aliases f items marks stack = some r → addItems aliases g items marks stack = some r
  | [], _, _, _, h => h
  | item :: items, marks, stack, r, h => by
    rw [addItems] at h ⊢
    cases hlookup : aliases.lookup item.token with
    | none =>
      rw [hlookup] at h
      dsimp only at h ⊢
      split <;> rename_i hmem
      · rw [if_pos hmem] at h
        exact addItems_mono hle h
      · rw [if_neg hmem] at h
        exact addItems_mono hle h
    | some e =>
      rw [hlookup] at h
      dsimp only at h ⊢
      split <;> rename_i hstack
      · rw [if_pos hstack] at h
        cases hexpanded : f e (stack.set item.token true) with
        | none =>
          rw [hexpanded] at h
          cases h
        | some expanded =>
          rw [hexpanded] at h
          rw [hle _ _ _ hexpanded]
          exact addItems_mono hle h
      · rw [if_neg hstack] at h
        split <;> rename_i hmem
        · rw [if_pos hmem] at h
          exact addItems_mono hle h
        · rw [if_neg hmem] at h
          exact addItems_mono hle h

theorem addAttrsFromExpr_mono : ∀ {fuel fuel' : Nat} {expr : Str} {marks stack : Marks} {r : Marks × Marks},
    fuel ≤ fuel' → addAttrsFromExpr aliases fuel expr marks stack = some r →
    addAttrsFromExpr aliases fuel' expr marks stack = some r
  | 0, _, _, _, _, _, _, h => by cases h
  | fuel + 1, 0, _, _, _, _, hle, _ => absurd hle (by omega)
  | fuel + 1, fuel' + 1, expr, marks, stack, r, hle, h => by
    rw [addAttrsFromExpr] at h ⊢
    exact addItems_mono (fun _ _ _ hexpand => addAttrsFromExpr_mono (by omega) hexpand) h

theorem unseen_le (stack : Marks) : unseen aliases stack ≤ aliases.length := by
  have hle := List.length_filter_le (fun name => !stack name) (aliases.map Prod.fst)
  rw [List.length_map] at hle
  exact hle

/-- **Every call returns**, and leaves the stack as it was. -/
theorem addAttrsFromExpr_total (expr : Str) (marks stack : Marks) : ∃ marks', ∀ fuel, aliases.length < fuel →
    addAttrsFromExpr aliases fuel expr marks stack = some (marks', stack) := by
  have hle := @unseen_le aliases stack
  obtain ⟨marks', hrun⟩ := @addAttrsFromExpr_ends aliases (aliases.length + 1) expr marks stack (by omega)
  exact ⟨marks', fun fuel hfuel => addAttrsFromExpr_mono hfuel hrun⟩

/-- **The attributes of an expression** are those it stands for, if there are no cycles. -/
theorem addAttrsFromExpr_iff {expr : Str} (hacyclic : Acyclic aliases expr) (marks : Marks) : ∃ marks' : Marks,
    (∀ fuel, aliases.length < fuel → addAttrsFromExpr aliases fuel expr marks (fun _ => false) =
      some (marks', fun _ => false)) ∧
    ∀ attrs, Reading aliases (operands expr) marks.attrs attrs ↔ attrs = marks'.attrs := by
  have hle := @unseen_le aliases fun _ => false
  obtain ⟨marks', hrun, hread⟩ := @addAttrsFromExpr_reading aliases (aliases.length + 1) expr marks (fun _ => false)
    (by omega) hacyclic fun _ _ _ _ => rfl
  exact ⟨marks', fun fuel hfuel => addAttrsFromExpr_mono hfuel hrun, fun attrs =>
    ⟨fun h => h.unique hread, fun h => h ▸ hread⟩⟩

theorem resolvedAttrs_total (aliases : List (Str × Str)) : ∃ resolve : Str → Marks, ∀ fuel, aliases.length < fuel →
    resolvedAttrs aliases fuel = fun expr => some (resolve expr) := by
  choose resolve hresolve using fun expr => @addAttrsFromExpr_total aliases expr (fun _ => false) fun _ => false
  refine ⟨resolve, fun fuel hfuel => funext fun expr => ?_⟩
  rw [resolvedAttrs, hresolve expr fuel hfuel]
  rfl

end Reading

end Aide
end Seharden
