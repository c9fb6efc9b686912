import Loongshield.Seharden.PolicyFile
import Mathlib.Data.Finset.Max

/-!
# The ciphers of a backend

A library that reads the policy takes the entries of its own scope, of the wider scopes and of no scope, in the order of
the file. The probe replays every scope alone.

- `wildcardMatches_eq`: a removal takes the tokens that its wildcards match;
- `existingScope_build`: the tokens of a scope are what its own entries leave;
- `hasSegment_iff`: the segment is in the token, with no letter, digit or underscore behind it;
- `ssh_cbc_disabled_sound_iff`: the answer on CBC ciphers holds for the backends if and only if every CBC cipher that an
  entry without a scope adds is dropped again for each backend;
- `ssh_cbc_disabled_iff`: where the scopes are written from wide to narrow and begin anew, the answer is exact.
-/

namespace Seharden
namespace PolicyFile

open Lua Pattern Replay

/-! ## Wildcards -/

/-- The pattern of a text with wildcards. -/
def wild (w : Str) : Str := w.flatMap fun x => if x = '*' then ['.', '*'] else if isMagic x then ['%', x] else [x]

/-- What a text with wildcards matches: `*` is any text. -/
def wildItems (w : Str) : List (Glob.Item Char) := w.map fun x => if x = '*' then .star else .one (· == x)

/-- The items of the pattern of an escaped wildcard. -/
def starItems : List Pattern.Item := [.single (.cls '%') .one, .single (.cls '*') .one]

theorem matchRest_starItems (s : Str) : matchRest starItems s [] = if ['%', '*'] <+: s then some (s.drop 2, [])
    else none := by
  have h := @matchRest_spells [] [] (spelling ['%', '*']) ['%', '*'] (spells_spelling _) s
  rwa [List.append_nil] at h

theorem matchRest_starItems_none {x : Char} {s : Str} (h : x ≠ '%' ∨ s.head? ≠ some '*') :
    matchRest starItems (x :: s) [] = none := by
  rw [matchRest_starItems, if_neg]
  rintro ⟨t, ht⟩
  obtain ⟨rfl, hs⟩ := List.cons.inj ht
  rcases h with h | h
  · exact h rfl
  · exact h (by rw [← hs]; rfl)

theorem gsubRest_starItems_none {x : Char} {s : Str} (h : x ≠ '%' ∨ s.head? ≠ some '*') (fuel : Nat) :
    gsubRest starItems (fun _ => ['.', '*']) (fuel + 1) (x :: s) =
      x :: gsubRest starItems (fun _ => ['.', '*']) fuel s := by
  rw [gsubRest.eq_def]
  dsimp only
  rw [matchRest_starItems_none h]

theorem escaped_head (w : Str) : (escaped w).head? ≠ some '*' := by
  intro h
  have hunq := @unquantified_escaped w [] nofun
  rw [List.append_nil] at hunq
  exact (hunq '*' h).1 rfl

theorem gsubRest_starItems : ∀ {fuel : Nat} {w : Str}, (escaped w).length < fuel →
    gsubRest starItems (fun _ => ['.', '*']) fuel (escaped w) = wild w
  | 0, _, h => absurd h (Nat.not_lt_zero _)
  | fuel + 1, [], _ => rfl
  | fuel + 1, x :: w, h => by
    have hwild : wild (x :: w) = (if x = '*' then ['.', '*'] else if isMagic x then ['%', x] else [x]) ++ wild w := rfl
    rw [escaped_cons] at h ⊢
    rw [hwild]
    by_cases hstar : x = '*'
    · subst hstar
      have hmagic : isMagic '*' = true := rfl
      rw [if_pos hmagic] at h ⊢
      rw [List.length_cons, List.length_cons] at h
      have hmatch : matchRest starItems ('%' :: '*' :: escaped w) [] = some (escaped w, []) := by
        rw [matchRest_starItems, if_pos ⟨escaped w, rfl⟩]
        rfl
      rw [if_pos rfl, gsubRest.eq_def]
      dsimp only
      rw [hmatch]
      dsimp only
      rw [if_pos (by simp only [List.length_cons]; omega), gsubRest_starItems (by omega)]
    · rw [if_neg hstar]
      by_cases hmagic : isMagic x = true
      · rw [if_pos hmagic] at h ⊢
        rw [if_pos hmagic]
        rw [List.length_cons, List.length_cons] at h
        obtain ⟨fuel, rfl⟩ : ∃ n, fuel = n + 1 := ⟨fuel - 1, by omega⟩
        have hx : (x :: escaped w).head? ≠ some '*' := fun heq => hstar (Option.some.inj heq)
        rw [gsubRest_starItems_none (.inr hx), gsubRest_starItems_none (.inr (escaped_head w)),
          gsubRest_starItems (by omega)]
        rfl
      · rw [if_neg hmagic] at h ⊢
        rw [if_neg hmagic]
        rw [List.length_cons] at h
        have hx : x ≠ '%' := fun heq => hmagic (by rw [heq]; rfl)
        rw [gsubRest_starItems_none (.inl hx), gsubRest_starItems (by omega)]
        rfl

theorem substitute_star (w : Str) : substitute (escaped w) "%%%*" ".*" = wild w := by
  have hgsub : gsub (escaped w) "%%%*" (fun _ => ".*") = .ok (wild w) := by
    rw [← gsubRest_starItems (Nat.lt_succ_self _)]
    exact @gsub_eq starItems "%%%*" (by decide) rfl rfl (fun _ => ".*") (escaped w)
  unfold substitute
  rw [hgsub]

theorem unquantified_wild (w : Str) : Unquantified (wild w ++ ['$']) := by
  cases w with
  | nil => exact fun y hy => by rw [← Option.some.inj hy]; decide
  | cons x w =>
    have hwild : wild (x :: w) = (if x = '*' then ['.', '*'] else if isMagic x then ['%', x] else [x]) ++ wild w := rfl
    rw [hwild]
    intro y hy
    split at hy
    · obtain rfl : '.' = y := Option.some.inj hy
      decide
    · split at hy
      · obtain rfl : '%' = y := Option.some.inj hy
        decide
      · next hx =>
        obtain rfl : x = y := Option.some.inj hy
        refine ⟨?_, ?_, ?_, ?_⟩ <;> (rintro rfl; exact hx rfl)

theorem compile_wild (w : Str) :
    ∃ is, compile (wild w ++ ['$']) = is ++ [.atEnd] ∧ List.Forall₂ Means is (wildItems w) := by
  induction w with
  | nil => exact ⟨[], rfl, .nil⟩
  | cons x w ih =>
    have hwild : wild (x :: w) = (if x = '*' then ['.', '*'] else if isMagic x then ['%', x] else [x]) ++ wild w := rfl
    have hitems : wildItems (x :: w) = (if x = '*' then .star else .one (· == x)) :: wildItems w := rfl
    have hunq := unquantified_wild w
    rw [hwild, hitems]
    by_cases hstar : x = '*'
    · rw [if_pos hstar, if_pos hstar]
      exact compile_means (p := '.' :: '*' :: (wild w ++ ['$'])) rfl (List.cons_ne_nil _ _) .star ih
    · rw [if_neg hstar, if_neg hstar]
      by_cases hmagic : isMagic x = true
      · rw [if_pos hmagic]
        exact compile_means (readItem_magic hmagic hunq) (List.cons_ne_nil _ _)
          (.one fun y => cls_test_magic hmagic y |>.trans BEq.comm) ih
      · rw [if_neg hmagic]
        exact compile_means (readItem_other (Bool.eq_false_iff.mpr hmagic) hunq) (List.cons_ne_nil _ _)
          (.one fun _ => BEq.comm) ih

/-- **A removal takes the tokens that its wildcards match**, in any case. -/
theorem wildcardMatches_eq (pattern token : Str) :
    wildcardMatches pattern token = Glob.Matches (wildItems (uppercase pattern)) (uppercase token) := by
  obtain ⟨is, hcompile, hmeans⟩ := compile_wild (uppercase pattern)
  have hpat : wildcardPattern pattern = '^' :: (wild (uppercase pattern) ++ ['$']) := by
    rw [wildcardPattern, Boot.escapeLuaPattern_eq, substitute_star]
    rfl
  rw [wildcardMatches, Bool.eq_iff_iff, isMatch_iff, strMatch_anchored hpat hcompile (simple_means hmeans),
    matchRest_means hmeans]
  by_cases hm : Glob.Matches (wildItems (uppercase pattern)) (uppercase token) = true
  · rw [if_pos hm]
    exact iff_of_true ⟨_, rfl⟩ hm
  · rw [if_neg hm]
    exact iff_of_false (by rintro ⟨m, hm⟩; cases hm) hm

/-! ## Entries as edits -/

/-- The tokens of an entry. -/
def Entry.tokens (e : Entry) : List Token := (splitTokens e.value).filterMap parseToken

/-- A token as a part of an edit. -/
def Token.op : Token → Op Str
  | .remove value => .drop fun token => Glob.Matches (wildItems (uppercase value)) (uppercase token)
  | .append value => .add value
  | .set value => .add value

/-- An entry as an edit of the tokens of its scope. -/
def Entry.edit (e : Entry) : Edit Str := ⟨e.resets, e.tokens.map Token.op⟩

theorem unique_of_nodup {l : List Str} (h : l.Nodup) : unique l = l := by
  have hfold : ∀ l acc : List Str, (acc ++ l).Nodup → l.foldl appendUnique acc = acc ++ l := by
    intro l
    induction l with
    | nil => exact fun acc _ => (List.append_nil acc).symm
    | cons x l ih =>
      intro acc hacc
      have hx : x ∉ acc := fun hmem => (List.nodup_append.mp hacc).2.2 x hmem x List.mem_cons_self rfl
      rw [List.foldl_cons, appendUnique, if_neg hx, ih _ (by rwa [List.append_assoc]), List.append_assoc]
      rfl
  exact (hfold l [] h).trans (List.nil_append l)

theorem uppercase_ne_nil {s : Str} (h : s ≠ []) : uppercase s ≠ [] := fun heq => h (List.map_eq_nil_iff.mp heq)

/-- The value of a token that is added. -/
def Token.added : Token → Option Str
  | .remove _ => none
  | .append value => some value
  | .set value => some value

theorem parseToken_added {raw : Str} {token : Token} (h : parseToken raw = some token) {value : Str}
    (hadded : token.added = some value) : value ≠ [] := by
  unfold parseToken at h
  dsimp only at h
  split at h
  · cases h
  · next hne =>
    split at h
    · cases h
      cases hadded
    · split at h
      · next hlen =>
        cases h
        cases hadded
        refine uppercase_ne_nil fun hnil => ?_
        have := congrArg List.length hnil
        rw [List.length_dropLast, List.length_nil] at this
        omega
      · cases h
        cases hadded
        exact uppercase_ne_nil hne

theorem applyToken_eq {l : List Str} (hl : l.Nodup) {raw : Str} {token : Token} (h : parseToken raw = some token) :
    applyToken l token = token.op.run l := by
  have hadd : ∀ value, value ≠ [] → addToken l value = (Op.add value).run l := fun value hvalue => by
    rw [addToken, Op.run]
    by_cases hmem : value ∈ l
    · rw [if_pos (.inr hmem), if_pos hmem]
    · rw [if_neg fun h => h.elim hvalue hmem, if_neg hmem]
  cases token with
  | remove value =>
    have htest : (fun token => !wildcardMatches value token) =
        fun token => !Glob.Matches (wildItems (uppercase value)) (uppercase token) :=
      funext fun token => congrArg (!·) (wildcardMatches_eq value token)
    show unique (l.filter fun token => !wildcardMatches value token) = _
    rw [htest]
    exact unique_of_nodup (hl.filter _)
  | append value => exact hadd value (parseToken_added h rfl)
  | set value => exact hadd value (parseToken_added h rfl)

/-- **An entry edits the tokens of its scope.** -/
theorem Entry.apply_tokens (e : Entry) {s : ScopeState} (hs : s.tokens.Nodup) :
    (e.apply s).tokens = e.edit.run s.tokens := by
  have hfold : ∀ (raws : List Str) (l : List Str), l.Nodup →
      (raws.filterMap parseToken).foldl applyToken l = ((raws.filterMap parseToken).map Token.op).foldl Op.run l := by
    intro raws
    induction raws with
    | nil => exact fun _ _ => rfl
    | cons raw raws ih =>
      intro l hl
      cases htoken : parseToken raw with
      | none =>
        rw [List.filterMap_cons_none htoken]
        exact ih l hl
      | some token =>
        rw [List.filterMap_cons_some htoken, List.foldl_cons, List.map_cons, List.foldl_cons, applyToken_eq hl htoken]
        exact ih _ (nodup_opRun hl _)
  refine hfold (splitTokens e.value) _ ?_
  split
  · exact List.nodup_nil
  · exact hs

/-! ## The state of a scope -/

theorem lookup_update (key key' : Str × Str) (f : ScopeState → ScopeState) : ∀ st :
    PolicyState, (update key f st).lookup key' =
    if key' = key then some (f ((st.lookup key).getD ⟨false, []⟩)) else st.lookup key'
  | [] => by
    rw [update, List.lookup_cons]
    by_cases hkey : key' = key
    · rw [if_pos hkey, hkey, beq_self_eq_true]
      rfl
    · rw [if_neg hkey, beq_eq_false_iff_ne.mpr hkey]
  | (k, s) :: st => by
    rw [update]
    by_cases hk : k = key
    · subst hk
      rw [if_pos rfl, List.lookup_cons, List.lookup_cons, List.lookup_cons, beq_self_eq_true]
      by_cases hkey : key' = k
      · rw [if_pos hkey, hkey, beq_self_eq_true]
        rfl
      · rw [if_neg hkey, beq_eq_false_iff_ne.mpr hkey]
    · rw [if_neg hk, List.lookup_cons, lookup_update key key' f st, List.lookup_cons, List.lookup_cons,
        beq_eq_false_iff_ne.mpr (Ne.symm hk)]
      by_cases hkey : key' = k
      · rw [hkey, beq_self_eq_true]
        exact (if_neg hk).symm
      · rw [beq_eq_false_iff_ne.mpr hkey]

/-- The entry is one of this option and scope. -/
def Entry.isOf (option scope : Str) (e : Entry) : Bool := e.option == option && e.scope == scope

/-- The tokens that the entries of a scope leave. -/
def ownTokens (entries : List Entry) (option scope : Str) :
    List Str := replayOf Entry.edit (Entry.isOf option scope) entries

theorem ownTokens_concat (entries : List Entry) (e : Entry) (option scope : Str) :
    ownTokens (entries ++ [e]) option scope =
    if e.isOf option scope then e.edit.run (ownTokens entries option scope) else ownTokens entries option scope := by
  unfold ownTokens replayOf
  rw [List.filter_append, List.map_append]
  split
  · next h => rw [List.filter_cons_of_pos h, List.filter_nil, List.map_singleton, replay_concat]
  · next h => rw [List.filter_cons_of_neg h, List.filter_nil, List.map_nil, List.append_nil]

/-- **The tokens of a scope are what its own entries leave**; a scope that has no entry is not there. -/
theorem existingScope_build (entries : List Entry) (option scope : Str) :
    existingScope (buildEffectiveState entries) option scope =
      if entries.any (Entry.isOf option scope) then some ⟨true, ownTokens entries option scope⟩ else none := by
  induction entries using List.reverseRecOn with
  | nil => rfl
  | append_singleton entries e ih =>
    have hbuild : buildEffectiveState (entries ++ [e]) =
      update (e.option, e.scope) e.apply (buildEffectiveState entries) := by
      rw [buildEffectiveState, List.foldl_append]
      rfl
    have hkey : ((option, scope) = (e.option, e.scope)) ↔ e.isOf option scope = true := by
      rw [Entry.isOf, Bool.and_eq_true, beq_iff_eq, beq_iff_eq, Prod.mk.injEq, eq_comm, @eq_comm _ scope]
    rw [hbuild, existingScope, lookup_update, ownTokens_concat, List.any_append, List.any_cons, List.any_nil,
      Bool.or_false]
    by_cases he : e.isOf option scope = true
    · rw [if_pos (hkey.mpr he), if_pos he, he, Bool.or_true, if_pos rfl, ← hkey.mpr he]
      have hold : ((buildEffectiveState entries).lookup (option, scope)).getD ⟨false, []⟩ =
          ⟨entries.any (Entry.isOf option scope), ownTokens entries option scope⟩ := by
        rw [existingScope] at ih
        rw [ih]
        split
        · next h => rw [h]; rfl
        · next h =>
          have hnone : entries.filter (Entry.isOf option scope) = [] := by
            rw [List.filter_eq_nil_iff]
            exact fun x hx hof => h (List.any_eq_true.mpr ⟨x, hx, hof⟩)
          rw [ownTokens, replayOf, hnone, Bool.eq_false_iff.mpr h]
          rfl
      have happly := @Entry.apply_tokens e ⟨entries.any (Entry.isOf option scope), ownTokens entries option scope⟩
        (nodup_replay _)
      rw [hold]
      dsimp only at happly
      rw [← happly]
      rfl
    · rw [if_neg fun h => he (hkey.mp h), if_neg he, Bool.eq_false_iff.mpr he, Bool.or_false]
      exact ih

theorem scopePresent_build (entries : List Entry) (option scope : Str) :
    scopePresent (buildEffectiveState entries) option scope = entries.any (Entry.isOf option scope) := by
  rw [scopePresent, existingScope_build]
  split
  · next h => rw [h]; rfl
  · next h => rw [Bool.eq_false_iff.mpr h]; rfl

theorem scopeHasToken_build (entries : List Entry) (option scope : Str) (p : Str → Bool) :
    scopeHasToken (buildEffectiveState entries) option scope p = (ownTokens entries option scope).any p := by
  rw [scopeHasToken, existingScope_build]
  split
  · rfl
  · next h =>
    have hnone : entries.filter (Entry.isOf option scope) = [] := by
      rw [List.filter_eq_nil_iff]
      exact fun x hx hof => h (List.any_eq_true.mpr ⟨x, hx, hof⟩)
    rw [ownTokens, replayOf, hnone]
    rfl

theorem mem_scopesOf (entries : List Entry) {option scope : Str} :
    scope ∈ scopesOf (buildEffectiveState entries) option ↔
    entries.any (Entry.isOf option scope) = true := by
  have hlookup : scope ∈ scopesOf (buildEffectiveState entries) option ↔
      (existingScope (buildEffectiveState entries) option scope).isSome = true := by
    rw [existingScope, List.lookup_isSome_iff, scopesOf, List.mem_filterMap]
    constructor
    · rintro ⟨⟨⟨o, s⟩, state⟩, hmem, hscope⟩
      split at hscope
      · next ho =>
        obtain rfl : s = scope := Option.some.inj hscope
        obtain rfl : o = option := ho
        exact ⟨_, hmem, beq_self_eq_true _⟩
      · cases hscope
    · rintro ⟨kv, hmem, hkey⟩
      refine ⟨kv, hmem, ?_⟩
      rw [← beq_iff_eq.mp hkey, if_pos rfl]
  rw [hlookup, existingScope_build]
  split
  · next h => exact iff_of_true rfl h
  · next h => exact iff_of_false Bool.false_ne_true h

/-! ## Segments -/

/-- A text that may follow a segment: no letter, digit or underscore begins it. -/
def Bounded (s : Str) : Prop := s.head?.any Sudoers.isWord = false

instance (s : Str) : Decidable (Bounded s) := inferInstanceAs (Decidable (_ = false))

/-- The segment is in the token, and the text behind it may follow it. -/
def HasSegment (segment token : Str) : Prop := ∃ a b, uppercase token = a ++ (segment ++ b) ∧ Bounded b

/-- Two occurrences of a text whose first character is in it once do not overlap. -/
theorem occurrence_after {c : Char} {seg a b a' b' : Str} (hc : c ∉ seg)
    (h : a ++ (c :: seg ++ b) = a' ++ (c :: seg ++ b'))
    (hlt : a.length < a'.length) : ∃ m, b = m ++ (c :: seg ++ b') := by
  have hpre : a ++ (c :: seg) <+: a' := by
    have hlong : (a ++ (c :: seg)).length ≤ a'.length := by
      by_contra hshort
      obtain ⟨m, rfl⟩ : a <+: a' := List.prefix_of_prefix_length_le ⟨_, h⟩ ⟨_, rfl⟩ (Nat.le_of_lt hlt)
      rw [List.append_assoc, List.append_cancel_left_eq] at h
      cases m with
      | nil => simp at hlt
      | cons x m =>
        simp only [List.length_append, List.length_cons] at hshort
        have hm : m ++ [c] <+: seg ++ b := by
          rw [List.cons_append, List.cons_append] at h
          exact ⟨seg ++ b', by rw [(List.cons.inj h).2, List.append_assoc]; rfl⟩
        have hseg : m ++ [c] <+: seg := List.prefix_of_prefix_length_le hm (List.prefix_append seg b) (by
          rw [List.length_append, List.length_singleton]
          omega)
        exact hc (hseg.subset (List.mem_append_right m (List.mem_singleton_self c)))
    refine List.prefix_of_prefix_length_le ⟨b, ?_⟩ (List.prefix_append a' (c :: seg ++ b')) hlong
    rw [List.append_assoc, h]
  obtain ⟨m, rfl⟩ := hpre
  refine ⟨m, ?_⟩
  have h : a ++ (c :: seg ++ b) = a ++ (c :: seg ++ (m ++ (c :: seg ++ b'))) := by rw [h, List.append_assoc,
    List.append_assoc]
  exact List.append_cancel_left (List.append_cancel_left h)

/-- What is in front of the first occurrence is not longer than what is in front of another. -/
theorem cut_first {d : Str} : ∀ {s a b : Str}, cut d s = some (a, b) → ∀ {a' b' : Str}, s = a' ++ (d ++ b') →
    a.length ≤ a'.length
  | [], a, b, h, a', b', hs => by
    unfold cut at h
    split at h
    · cases h
      exact Nat.zero_le _
    · cases h
  | x :: s, a, b, h, a', b', hs => by
    rw [cut_cons] at h
    split at h
    · cases h
      exact Nat.zero_le _
    · next hpre =>
      obtain ⟨⟨a1, b1⟩, hcut, hab⟩ := Option.map_eq_some_iff.mp h
      cases hab
      cases a' with
      | nil => exact absurd ⟨b', hs.symm⟩ hpre
      | cons y a' => exact Nat.succ_le_succ (cut_first hcut (List.cons.inj hs).2)

theorem segmentLoop_iff {c : Char} {seg : Str} (hc : c ∉ seg) : ∀ {n : Nat} {s : Str}, s.length < n →
    (segmentLoop (c :: seg) n s = true ↔ ∃ a b, s = a ++ (c :: seg ++ b) ∧ Bounded b)
  | 0, _, h => absurd h (Nat.not_lt_zero _)
  | n + 1, s, h => by
    rw [segmentLoop]
    cases hcut : cut (c :: seg) s with
    | none =>
      refine iff_of_false Bool.false_ne_true ?_
      rintro ⟨a, b, rfl, -⟩
      exact (cut_eq_none_iff (List.cons_ne_nil c seg)).mp hcut ⟨a, b, List.append_assoc _ _ _⟩
    | some p =>
      obtain ⟨a, b⟩ := p
      have hs := cut_some hcut
      have hlen := congrArg List.length hs
      simp only [List.length_append, List.length_cons] at hlen
      dsimp only
      rw [Bool.or_eq_true, Bool.not_eq_true', segmentLoop_iff hc (show b.length < n by omega)]
      constructor
      · rintro (hb | ⟨a', b', rfl, hb⟩)
        · exact ⟨a, b, hs, hb⟩
        · exact ⟨a ++ (c :: seg ++ a'), b', by rw [hs, List.append_assoc, List.append_assoc], hb⟩
      · rintro ⟨a', b', hs', hb⟩
        rcases Nat.lt_or_eq_of_le (cut_first hcut hs') with hlt | heq
        · obtain ⟨m, hm⟩ := occurrence_after hc (hs.symm.trans hs') hlt
          exact .inr ⟨m, b', hm, hb⟩
        · obtain ⟨rfl, hrest⟩ := List.append_inj (hs.symm.trans hs') heq
          exact .inl (List.append_cancel_left hrest ▸ hb)

/-- **The segment is in the token**, with no letter, digit or underscore behind it. -/
theorem hasSegment_iff {c : Char} {seg token : Str} (hseg : uppercase (c :: seg) = c :: seg) (hc : c ∉ seg) :
    hasSegment token (c :: seg) = true ↔ HasSegment (c :: seg) token := by
  rw [hasSegment, hseg, segmentLoop_iff hc (Nat.lt_succ_self _)]
  rfl

/-! ## Backends -/

/-- The scopes that a backend reads, the wide ones first: the servers and clients of the two libraries. -/
def backends : List (List Str) :=
  [[[], "ssh".toList, "openssh".toList, "openssh-server".toList],
    [[], "ssh".toList, "openssh".toList, "openssh-client".toList],
    [[], "ssh".toList, "libssh".toList, "libssh-server".toList],
    [[], "ssh".toList, "libssh".toList, "libssh-client".toList]]

/-- The entry is a cipher entry that a backend reads. -/
def reads (scopes : List Str) (e : Entry) : Bool := e.option == "cipher" && scopes.contains e.scope

/-- The ciphers of a backend. -/
def effective (entries : List Entry) (scopes : List Str) : List Str := replayOf Entry.edit (reads scopes) entries

/-- No cipher has the segment. -/
def Clean (ciphers : List Str) : Prop := ∀ t ∈ ciphers, ¬HasSegment "-CBC" t

/-- A CBC cipher that an entry without a scope adds is dropped again by an entry that the backend reads. -/
def CbcDropped (entries : List Entry) (scopes : List Str) : Prop := ∀ before e after t, entries = before ++ e :: after →
  e.isOf "cipher" [] = true → e.edit.Adds t → HasSegment "-CBC" t → ∃ e' ∈ after, reads scopes e' = true ∧
  e'.edit.Drops t

section Backends

variable {entries : List Entry} {scopes : List Str}

theorem reads_iff {e : Entry} : reads scopes e = true ↔ e.scope ∈ scopes ∧ e.isOf "cipher" e.scope = true := by
  rw [reads, Entry.isOf, Bool.and_eq_true, Bool.and_eq_true, List.contains_iff_mem, beq_self_eq_true,
    and_iff_left rfl, and_comm]

theorem isOf_iff {e : Entry} {option scope : Str} : e.isOf option scope = true ↔ e.scope = scope ∧
    e.isOf option e.scope = true := by
  rw [Entry.isOf, Entry.isOf, Bool.and_eq_true, Bool.and_eq_true, beq_iff_eq, beq_iff_eq, beq_self_eq_true,
    and_iff_left rfl, and_comm]

theorem sshScopeHasCbc_build (scope : Str) :
    sshScopeHasCbc (buildEffectiveState entries) scope = false ↔ Clean (ownTokens entries "cipher" scope) := by
  rw [sshScopeHasCbc, scopeHasToken_build, List.any_eq_false]
  refine forall₂_congr fun t _ => not_congr ?_
  exact hasSegment_iff rfl (by decide)

theorem clean_of_absent {scope : Str} (h : entries.any (Entry.isOf "cipher" scope) = false) :
    Clean (ownTokens entries "cipher" scope) := by
  rw [← sshScopeHasCbc_build, sshScopeHasCbc, scopeHasToken, existingScope_build, h]
  rfl

/-- The scopes of a backend are scopes of SSH, but for the widest. -/
theorem isSshScope_of_backend (hscopes : scopes ∈ backends) {scope : Str} (h : scope ∈ scopes) (hne : scope ≠ []) :
    isSshScope scope = true := by
  have hall : (backends.all fun scopes => scopes.all fun scope => scope.isEmpty || isSshScope scope) =
    true := by decide +kernel
  have hscope := List.all_eq_true.mp (List.all_eq_true.mp hall scopes hscopes) scope h
  rw [List.isEmpty_eq_false_iff.mpr hne, Bool.false_or] at hscope
  exact hscope

/-- Each backend has a scope of its own if and only if `ssh` is there, or each library is, or its server and client
are. -/
theorem forall_backends (p : Str → Prop) : (∀ scopes ∈ backends, ∃ scope ∈ scopes, scope ≠ [] ∧ p scope) ↔
    p "ssh" ∨ ((p "openssh" ∨ (p "openssh-server" ∧ p "openssh-client")) ∧
      (p "libssh" ∨ (p "libssh-server" ∧ p "libssh-client"))) := by
  have hssh : "ssh".toList ≠ [] := nofun
  have hopenssh : "openssh".toList ≠ [] := nofun
  have hopensshServer : "openssh-server".toList ≠ [] := nofun
  have hopensshClient : "openssh-client".toList ≠ [] := nofun
  have hlibssh : "libssh".toList ≠ [] := nofun
  have hlibsshServer : "libssh-server".toList ≠ [] := nofun
  have hlibsshClient : "libssh-client".toList ≠ [] := nofun
  simp only [backends, List.mem_cons, List.not_mem_nil, or_false, forall_eq_or_imp, forall_eq, exists_eq_or_imp,
    exists_eq_left,
    ne_eq, not_true_eq_false, false_and, false_or, hssh, hopenssh, hopensshServer, hopensshClient, hlibssh,
    hlibsshServer,
    hlibsshClient, not_false_eq_true, true_and]
  generalize p "ssh".toList = ssh, p "openssh".toList = openssh, p "openssh-server".toList = opensshServer,
    p "openssh-client".toList = opensshClient, p "libssh".toList = libssh, p "libssh-server".toList = libsshServer,
    p "libssh-client".toList = libsshClient
  grind

/-- **The answer on CBC ciphers.** -/
theorem sshCbcDisabled_build : sshCbcDisabled (buildEffectiveState entries) = true ↔
    entries.any (Entry.isOf "cipher" []) = true ∧
      (∀ scope, isSshScope scope = true → Clean (ownTokens entries "cipher" scope)) ∧
      (Clean (ownTokens entries "cipher" []) ∨
        ∀ scopes ∈ backends, ∃ scope ∈ scopes, scope ≠ [] ∧ entries.any (Entry.isOf "cipher" scope) = true) := by
  have hssh : ((scopesOf (buildEffectiveState entries) "cipher").any fun scope =>
      isSshScope scope && sshScopeHasCbc (buildEffectiveState entries) scope) = false ↔
        ∀ scope, isSshScope scope = true → Clean (ownTokens entries "cipher" scope) := by
    rw [List.any_eq_false]
    constructor
    · intro h scope hscope
      by_cases hthere : entries.any (Entry.isOf "cipher" scope) = true
      · rw [← sshScopeHasCbc_build, Bool.eq_false_iff]
        exact fun hcbc => h scope ((mem_scopesOf entries).mpr hthere) (Bool.and_eq_true_iff.mpr ⟨hscope, hcbc⟩)
      · exact clean_of_absent (Bool.eq_false_iff.mpr hthere)
    · intro h scope _ hscope
      obtain ⟨hscope, hcbc⟩ := Bool.and_eq_true_iff.mp hscope
      exact absurd hcbc (Bool.eq_false_iff.mp ((sshScopeHasCbc_build scope).mpr (h scope hscope)))
  have hpresent : ∀ scope, isSshScope scope = true → (∀ scope, isSshScope scope = true →
    Clean (ownTokens entries "cipher" scope)) →
      (sshScopePresentAndClean (buildEffectiveState entries) scope = true ↔
      entries.any (Entry.isOf "cipher" scope) = true) := by
    intro scope hscope hclean
    rw [sshScopePresentAndClean, scopePresent_build, (sshScopeHasCbc_build scope).mpr (hclean scope hscope),
      Bool.not_false,
      Bool.and_true]
  rw [sshCbcDisabled, scopePresent_build]
  cases hglobal : entries.any (Entry.isOf "cipher" [])
  · exact iff_of_false Bool.false_ne_true fun h => Bool.false_ne_true h.1
  · rw [Bool.not_true, if_neg Bool.false_ne_true, and_iff_right rfl]
    cases hany : (scopesOf (buildEffectiveState entries) "cipher").any fun scope =>
        isSshScope scope && sshScopeHasCbc (buildEffectiveState entries) scope
    · have hclean := hssh.mp hany
      rw [if_neg Bool.false_ne_true, and_iff_right hclean, forall_backends, ← sshScopeHasCbc_build]
      cases sshScopeHasCbc (buildEffectiveState entries) []
      · exact iff_of_true rfl (.inl rfl)
      · rw [Bool.not_true, if_neg Bool.false_ne_true, or_iff_right Bool.false_ne_true.symm]
        simp only [sshFamilyClean, Bool.or_eq_true, Bool.and_eq_true]
        rw [hpresent _ rfl hclean, hpresent _ rfl hclean, hpresent _ rfl hclean, hpresent _ rfl hclean,
          hpresent _ rfl hclean,
          hpresent _ rfl hclean, hpresent _ rfl hclean]
        rfl
    · rw [if_pos rfl]
      exact iff_of_false Bool.false_ne_true fun h => Bool.false_ne_true ((hssh.mpr h.1).symm.trans hany)

/-- **What is wrong with a backend when the answer is positive** are the ciphers that entries without a scope add and no
later entry of the backend drops. -/
theorem clean_effective_iff (h : sshCbcDisabled (buildEffectiveState entries) = true) (hscopes : scopes ∈ backends) :
    Clean (effective entries scopes) ↔ CbcDropped entries scopes := by
  obtain ⟨-, hclean, -⟩ := sshCbcDisabled_build.mp h
  constructor
  · intro heffective before e after t hsplit he hadds hcbc
    by_contra hkept
    have hreads : reads scopes e = true := by
      have hnil : [] ∈ scopes := (show ∀ scopes ∈ backends, [] ∈ scopes by decide) scopes hscopes
      obtain ⟨hscope, he⟩ := isOf_iff.mp he
      exact reads_iff.mpr ⟨hscope ▸ hnil, he⟩
    refine heffective t (mem_replayOf.mpr ⟨before, e, after, hsplit, hreads, hadds,
      fun e' he' hreads' hdrops => ?_⟩) hcbc
    exact hkept ⟨e', he', hreads', hdrops⟩
  · intro hdropped t ht hcbc
    obtain ⟨before, e, after, hsplit, hreads, hadds, hlater⟩ := mem_replayOf.mp ht
    obtain ⟨hscope, he⟩ := reads_iff.mp hreads
    by_cases hglobal : e.scope = []
    · obtain ⟨e', he', hreads', hdrops⟩ := hdropped before e after t hsplit (isOf_iff.mpr ⟨hglobal, he⟩) hadds hcbc
      exact hlater e' he' hreads' hdrops
    · -- the scope of the entry has the cipher itself
      refine hclean e.scope (isSshScope_of_backend hscopes hscope hglobal) t ?_ hcbc
      refine mem_replayOf.mpr ⟨before, e, after, hsplit, he, hadds, fun e' he' hof => hlater e' he' ?_⟩
      obtain ⟨hsame, hof⟩ := isOf_iff.mp hof
      exact reads_iff.mpr ⟨hsame ▸ hscope, hof⟩

/-- The entries that a backend reads come from wide scopes to narrow ones, and those of a scope begin anew. -/
structure Layered (entries : List Entry) (scopes : List Str) : Prop where
  ordered : entries.Pairwise fun e e' =>
    reads scopes e = true → reads scopes e' = true → scopes.idxOf e.scope ≤ scopes.idxOf e'.scope
  resets : ∀ e ∈ entries, reads scopes e = true → e.scope ≠ [] → e.resets = true

/-- The narrowest scope of a backend that has an entry. -/
structure Narrowest (entries : List Entry) (scopes : List Str) (scope : Str) : Prop where
  mem : scope ∈ scopes
  present : entries.any (Entry.isOf "cipher" scope) = true
  narrowest : ∀ scope' ∈ scopes, entries.any (Entry.isOf "cipher" scope') = true →
    scopes.idxOf scope' ≤ scopes.idxOf scope

theorem exists_narrowest (hscopes : scopes ∈ backends) (hglobal : entries.any (Entry.isOf "cipher" []) = true) :
    ∃ scope, Narrowest entries scopes scope := by
  have hnil : [] ∈ scopes := (show ∀ scopes ∈ backends, [] ∈ scopes by decide) scopes hscopes
  have hmem : ∀ {scope : Str}, scope ∈ (scopes.filter fun scope => entries.any (Entry.isOf "cipher" scope)).toFinset ↔
      scope ∈ scopes ∧ entries.any (Entry.isOf "cipher" scope) = true := by
    intro scope
    rw [List.mem_toFinset, List.mem_filter]
  obtain ⟨scope, hscope, hmax⟩ := Finset.exists_max_image _ scopes.idxOf ⟨[], hmem.mpr ⟨hnil, hglobal⟩⟩
  obtain ⟨hscope, hpresent⟩ := hmem.mp hscope
  exact ⟨scope, hscope, hpresent, fun scope' hscope' hpresent' => hmax scope' (hmem.mpr ⟨hscope', hpresent'⟩)⟩

/-- **A backend has the ciphers of its narrowest scope**, where the scopes are written in layers. -/
theorem mem_effective_iff (hlayered : Layered entries scopes) (hnil : scopes.head? = some []) {scope : Str}
    (hnarrow : Narrowest entries scopes scope) {t : Str} : t ∈ effective entries scopes ↔
      t ∈ ownTokens entries "cipher" scope := by
  have hpresent : ∀ e ∈ entries, reads scopes e = true → scopes.idxOf e.scope ≤ scopes.idxOf scope := fun e he hreads =>
    hnarrow.narrowest e.scope (reads_iff.mp hreads).1 (List.any_eq_true.mpr ⟨e, he, (reads_iff.mp hreads).2⟩)
  constructor
  · intro ht
    obtain ⟨before, e, after, rfl, hreads, hadds, hlater⟩ := mem_replayOf.mp ht
    have hle := hpresent e (by simp) hreads
    obtain ⟨hscope, he⟩ := reads_iff.mp hreads
    obtain ⟨hbefore, hpair, hcross⟩ := List.pairwise_append.mp hlayered.ordered
    by_cases hsame : e.scope = scope
    · refine mem_replayOf.mpr ⟨before, e, after, rfl, isOf_iff.mpr ⟨hsame, he⟩, hadds,
        fun e' he' hof => hlater e' he' ?_⟩
      obtain ⟨hsame', hof⟩ := isOf_iff.mp hof
      exact reads_iff.mpr ⟨hsame' ▸ hnarrow.mem, hof⟩
    · -- an entry of the narrowest scope comes later, and begins anew
      obtain ⟨last, hlast, hof⟩ := List.any_eq_true.mp hnarrow.present
      obtain ⟨hscope', hof⟩ := isOf_iff.mp hof
      have hreads' : reads scopes last = true := reads_iff.mpr ⟨hscope' ▸ hnarrow.mem, hof⟩
      have hne : scopes.idxOf e.scope ≠ scopes.idxOf scope := fun heq => hsame ((List.idxOf_inj hscope).mp heq)
      rcases List.mem_append.mp hlast with hfront | hback
      · have hge := hcross last hfront e List.mem_cons_self hreads' hreads
        rw [hscope'] at hge
        omega
      · rcases List.mem_cons.mp hback with rfl | hback
        · exact absurd hscope' hsame
        · refine absurd (.inl (hlayered.resets last hlast hreads' ?_)) (hlater last hback hreads')
          rintro hnil'
          obtain ⟨s, rest, rfl⟩ := List.exists_cons_of_ne_nil (List.ne_nil_of_mem hscope)
          obtain rfl : s = [] := Option.some.inj hnil
          rw [← hscope', hnil', List.idxOf_cons_self] at hle hne
          omega
  · intro ht
    obtain ⟨before, e, after, rfl, he, hadds, hlater⟩ := mem_replayOf.mp ht
    obtain ⟨hsame, he'⟩ := isOf_iff.mp he
    obtain ⟨hbefore, hpair, hcross⟩ := List.pairwise_append.mp hlayered.ordered
    have hreads : reads scopes e = true := reads_iff.mpr ⟨hsame ▸ hnarrow.mem, he'⟩
    refine mem_replayOf.mpr ⟨before, e, after, rfl, hreads, hadds, fun e' hmem hreads' => hlater e' hmem ?_⟩
    have hle := hpresent e' (by simp [hmem]) hreads'
    have hge := (List.pairwise_cons.mp hpair).1 e' hmem hreads hreads'
    rw [hsame] at hge
    have hscope : e'.scope = scope := (List.idxOf_inj (reads_iff.mp hreads').1).mp (Nat.le_antisymm hle hge)
    exact isOf_iff.mpr ⟨hscope, (reads_iff.mp hreads').2⟩

end Backends

/-! ## The two results -/

variable {view : View} {path : Str} {lines : List Str}

theorem inspectCurrent_sshCbcDisabled (hlines : view.lines path = .ok lines) :
    (inspectCurrent view path).sshCbcDisabled = sshCbcDisabled (buildEffectiveState (readEntries lines)) := by
  rw [inspectCurrent, hlines]

/-- A policy in one file. -/
def policy (lines : List Str) : View where
  mode _ := some "file".toList
  names _ := .ok []
  lines _ := .ok lines

/-- **When the answer on CBC ciphers is right.** If the probe reports them disabled, a backend has none if and only if
every CBC cipher that an entry without a scope adds is dropped by a later entry that this backend reads. -/
theorem ssh_cbc_disabled_sound_iff (hlines : view.lines path = .ok lines)
    (h : (inspectCurrent view path).sshCbcDisabled = true) {scopes : List Str} (hscopes : scopes ∈ backends) :
    Clean (effective (readEntries lines) scopes) ↔ CbcDropped (readEntries lines) scopes := by
  rw [inspectCurrent_sshCbcDisabled hlines] at h
  exact clean_effective_iff h hscopes

/-- A cipher that the scope of SSH drops. -/
theorem ssh_drops_cbc : Clean (effective (readEntries ["cipher = AES-256-GCM AES-256-CBC".toList,
    "cipher@SSH = -*-CBC".toList])
      [[], "ssh".toList, "openssh".toList, "openssh-server".toList]) ↔
    CbcDropped (readEntries ["cipher = AES-256-GCM AES-256-CBC".toList, "cipher@SSH = -*-CBC".toList])
      [[], "ssh".toList, "openssh".toList, "openssh-server".toList] :=
  @ssh_cbc_disabled_sound_iff (policy ["cipher = AES-256-GCM AES-256-CBC".toList, "cipher@SSH = -*-CBC".toList])
    "CURRENT.pol" _ rfl (by decide +kernel) _ (by decide)

/-- An answer that is not right: the server still has the cipher that the scope of SSH does not drop. -/
example : (inspectCurrent (policy ["cipher = AES-256-CBC AES-128-CBC".toList, "cipher@SSH = -AES-256-CBC".toList])
      "CURRENT.pol").sshCbcDisabled = true ∧
    effective (readEntries ["cipher = AES-256-CBC AES-128-CBC".toList, "cipher@SSH = -AES-256-CBC".toList])
      [[], "ssh".toList, "openssh".toList, "openssh-server".toList] = ["AES-128-CBC".toList] := by decide +kernel

/-- **Where the scopes are written in layers, the answer is exact**: there are ciphers without a scope, no scope of SSH
leaves a CBC cipher, and no backend has one. -/
theorem ssh_cbc_disabled_iff (hlines : view.lines path = .ok lines) (h : ∀ scopes ∈ backends,
    Layered (readEntries lines) scopes) :
    (inspectCurrent view path).sshCbcDisabled = true ↔ (readEntries lines).any (Entry.isOf "cipher" []) = true ∧
      (∀ scope, isSshScope scope = true → Clean (ownTokens (readEntries lines) "cipher" scope)) ∧
      ∀ scopes ∈ backends, Clean (effective (readEntries lines) scopes) := by
  rw [inspectCurrent_sshCbcDisabled hlines, sshCbcDisabled_build]
  refine and_congr_right fun hglobal => and_congr_right fun hclean => ?_
  have hhead : ∀ scopes ∈ backends, scopes.head? = some [] := by decide
  have hnarrow : ∀ scopes ∈ backends, ∃ scope, Narrowest (readEntries lines) scopes scope ∧
      (Clean (effective (readEntries lines) scopes) ↔ Clean (ownTokens (readEntries lines) "cipher" scope)) := by
    intro scopes hscopes
    obtain ⟨scope, hscope⟩ := exists_narrowest hscopes hglobal
    refine ⟨scope, hscope, forall_congr' fun t => ?_⟩
    rw [mem_effective_iff (h scopes hscopes) (hhead scopes hscopes) hscope]
  constructor
  · intro hanswer scopes hscopes
    obtain ⟨scope, hscope, hiff⟩ := hnarrow scopes hscopes
    rw [hiff]
    by_cases hne : scope = []
    · rcases hanswer with hanswer | hown
      · exact hne ▸ hanswer
      · -- the backend has a scope of its own, which is narrower
        obtain ⟨scope', hmem, hne', hpresent⟩ := hown scopes hscopes
        have hle := hscope.narrowest scope' hmem hpresent
        obtain ⟨s, rest, rfl⟩ := List.exists_cons_of_ne_nil (List.ne_nil_of_mem hmem)
        obtain rfl : s = [] := Option.some.inj (hhead _ hscopes)
        rw [hne, List.idxOf_cons_self, Nat.le_zero] at hle
        exact absurd ((List.idxOf_inj hmem).mp (hle.trans List.idxOf_cons_self.symm)) hne'
    · exact hclean scope (isSshScope_of_backend hscopes hscope.mem hne)
  · intro heffective
    by_cases hwide : Clean (ownTokens (readEntries lines) "cipher" [])
    · exact .inl hwide
    · refine .inr fun scopes hscopes => ?_
      obtain ⟨scope, hscope, hiff⟩ := hnarrow scopes hscopes
      exact ⟨scope, hscope.mem, fun hnil => hwide (hnil ▸ hiff.mp (heffective scopes hscopes)), hscope.present⟩

/-- Ciphers without a scope, and those of SSH anew. -/
theorem layered_policy : (inspectCurrent (policy ["cipher = AES-256-CBC".toList, "cipher@SSH = AES-256-GCM".toList])
      "CURRENT.pol").sshCbcDisabled = true ↔
    (readEntries ["cipher = AES-256-CBC".toList, "cipher@SSH = AES-256-GCM".toList]).any (Entry.isOf "cipher" []) =
    true ∧
      (∀ scope, isSshScope scope = true →
        Clean (ownTokens (readEntries ["cipher = AES-256-CBC".toList, "cipher@SSH = AES-256-GCM".toList]) "cipher"
        scope)) ∧
      ∀ scopes ∈ backends, Clean (effective (readEntries ["cipher = AES-256-CBC".toList,
      "cipher@SSH = AES-256-GCM".toList]) scopes) := by
  have hordered : ∀ scopes ∈ backends, (readEntries ["cipher = AES-256-CBC".toList,
    "cipher@SSH = AES-256-GCM".toList]).Pairwise
      fun e e' => reads scopes e = true → reads scopes e' = true → scopes.idxOf e.scope ≤ scopes.idxOf e'.scope := by
    decide +kernel
  have hresets : ∀ scopes ∈ backends, ∀ e ∈ readEntries ["cipher = AES-256-CBC".toList,
    "cipher@SSH = AES-256-GCM".toList],
      reads scopes e = true → e.scope ≠ [] → e.resets = true := by decide +kernel
  exact @ssh_cbc_disabled_iff (policy ["cipher = AES-256-CBC".toList, "cipher@SSH = AES-256-GCM".toList])
    "CURRENT.pol" _ rfl fun scopes h => ⟨hordered scopes h, hresets scopes h⟩

end PolicyFile
end Seharden
