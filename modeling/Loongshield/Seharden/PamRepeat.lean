import Loongshield.Lua.Balance
import Loongshield.Seharden.Pam

/-!
# A second run of `pam.ensure_entry`

The next run parses the line that was written.

- `parseLine_eq_some_iff`: what the parser takes a line for;
- `Params.Rereads`: when the written line is taken for the entry that is asked for;
- `second_run_iff`: exactly then a second run changes nothing.
-/

namespace Seharden
namespace Pam

open Lua Pattern

/-! ## The parts of a line -/

/-- A control: a word that does not begin with a bracket, or a text in brackets, up to the one that closes the first. -/
inductive IsControl : Str → Prop
  | word {w : Str} : Word w → w.head? ≠ some '[' → IsControl w
  | brackets {body : Str} : Pattern.Balanced '[' ']' body → IsControl ('[' :: (body ++ [']']))

/-- A text is a control and, behind blanks, a module and its arguments. -/
def Reads (text control moduleName : Str) (args : List Str) : Prop :=
  ∃ r, text = control ++ r ∧ IsControl control ∧ (∀ x, r.head? = some x → isspace x = true) ∧
    words nonBlank r = moduleName :: args

/-- What both patterns for the remainder have behind the control: `%s+(%S+)%s*(.*)$`. -/
def tailItems : List Pattern.Item :=
  [.single blank .plus, .capOpen, .single nonBlank .plus, .capClose, .single blank .star, .capOpen, .single .any .star,
    .capClose, .atEnd]

theorem compile_brackets : compile "(%b[])%s+(%S+)%s*(.*)$" =
    .capOpen :: .balance '[' ']' :: .capClose :: tailItems := rfl

theorem compile_control : compile "(%S+)%s+(%S+)%s*(.*)$" =
    .capOpen :: .single nonBlank .plus :: .capClose :: tailItems := rfl

theorem compile_kind : compile "(%S+)%s+(.+)$" = [.capOpen, .single nonBlank .plus, .capClose, .single blank .plus,
    .capOpen, .single .any .plus, .capClose, .atEnd] := rfl

/-- Words, the first of them behind a blank. -/
theorem matchRest_tail {r moduleName : Str} {args : List Str} (hr : ∀ x, r.head? = some x → isspace x = true)
    (h : words nonBlank r = moduleName :: args) (segs : List Seg) :
    ∃ seg seg', matchRest tailItems r segs = some ([], segs ++ [seg, seg']) ∧ seg.text = moduleName ∧
      words nonBlank seg'.text = args := by
  obtain ⟨b, r', rfl, hb, hne, hword, hend, rfl⟩ := words_eq_cons_iff.mp h
  have hsplit : r'.takeWhile isspace ++ r'.dropWhile isspace = r' := List.takeWhile_append_dropWhile
  have hblanks : ∀ x ∈ r'.takeWhile isspace, isspace x = true := fun x hx => List.mem_takeWhile_imp hx
  obtain ⟨x, w, rfl⟩ := List.exists_cons_of_ne_nil hne
  have hbne : b ≠ [] := by
    rintro rfl
    have hx := hr x rfl
    rw [hword x List.mem_cons_self] at hx
    cases hx
  refine ⟨⟨x :: w ++ r', some (x :: w).length⟩, ⟨r'.dropWhile isspace, some (r'.dropWhile isspace).length⟩, ?_, ?_, ?_⟩
  · refine matchRest_blankPlus hbne hb (fun y hy => ?_) ?_
    · obtain rfl := Option.some.inj hy
      exact hword x List.mem_cons_self
    · refine matchRest_capPlus hne (fun y hy => by simp [hword y hy]) (fun y hy => by simp [hend y hy]) ?_
      rw [matchRest]
      conv_lhs => rw [← hsplit]
      refine longest_run (fun y hy => ?_) ?_ hblanks
      · have hhead := List.head?_dropWhile_not isspace r'
        rw [hy] at hhead
        simpa using hhead
      · have hstar := @matchRest_capStar .any [.atEnd] (r'.dropWhile isspace) []
          (segs ++ [⟨x :: w ++ r', some (x :: w).length⟩]) ([], segs ++ [⟨x :: w ++ r', some (x :: w).length⟩,
            ⟨r'.dropWhile isspace, some (r'.dropWhile isspace).length⟩])
        rw [List.append_nil] at hstar
        rw [hsplit]
        refine hstar (fun y _ => any_test y) (fun y hy => by cases hy) ?_
        rw [matchRest, if_pos rfl, List.append_assoc]
        rfl
  · simp [Seg.text]
  · have hwords := words_blanks (r'.dropWhile isspace) hblanks
    rw [hsplit] at hwords
    rw [Seg.text, Option.getD_some, List.take_length, hwords]

theorem of_matchRest_tail {r : Str} {segs : List Seg} {p : Str × List Seg} (h : matchRest tailItems r segs = some p) :
    (∀ x, r.head? = some x → isspace x = true) ∧ ∃ moduleName args, words nonBlank r = moduleName :: args := by
  obtain ⟨b, r, rfl, hne, hb, h⟩ := of_matchRest_blankPlus h
  obtain ⟨run, r, rfl, hrun, hword, -⟩ := of_matchRest_capPlus h
  refine ⟨fun x hx => ?_, ?_⟩
  · obtain ⟨y, b, rfl⟩ := List.exists_cons_of_ne_nil hne
    obtain rfl := Option.some.inj hx
    exact hb _ List.mem_cons_self
  · cases hwords : words nonBlank (b ++ (run ++ r)) with
    | cons w ws => exact ⟨w, ws, rfl⟩
    | nil =>
      obtain ⟨x, run, rfl⟩ := List.exists_cons_of_ne_nil hrun
      have hblank := words_eq_nil_iff.mp hwords x (by simp)
      have hx := hword x List.mem_cons_self
      rw [nonBlank_test, hblank] at hx
      cases hx

/-- The captures of the remainder: control, module and arguments. -/
def readRemainder (t : Str) : Option (Str × Str × List Str) :=
  match matchCaptures t (remainderPattern t) with
  | some [control, moduleName, argsText] => some (control, moduleName, captures argsText "%S+")
  | _ => none

/-- What is captured, from the control and what stands behind it. -/
theorem readRemainder_of_match {t control r moduleName : Str} {args : List Str} {n : Nat}
    (hlen : t.take n = control) (hr : ∀ x, r.head? = some x → isspace x = true)
    (hwords : words nonBlank r = moduleName :: args)
    (hmatch : matchCaptures t (remainderPattern t) = (matchRest tailItems r [⟨t, some n⟩]).map fun p =>
      texts t p.1 p.2) :
    readRemainder t = some (control, moduleName, args) := by
  obtain ⟨seg, seg', htail, hmodule, hargs⟩ := matchRest_tail hr hwords [⟨t, some n⟩]
  have htexts : texts t [] ([⟨t, some n⟩] ++ [seg, seg']) = [control, moduleName, seg'.text] := by
    rw [← hlen, ← hmodule]
    rfl
  unfold readRemainder
  rw [hmatch, htail, Option.map_some, htexts]
  dsimp only
  rw [captures_words, hargs]

theorem ne_brackets : ('[' : Char) ≠ ']' := by decide

theorem matchCaptures_brackets {t : Str} (ht : t.head? = some '[') : matchCaptures t (remainderPattern t) =
    (matchBalance '[' ']' tailItems t).map fun p => texts t p.1 p.2 := by
  have hmatch : strMatch t "^(%b[])%s+(%S+)%s*(.*)$" = _ := strMatch_balance rfl compile_brackets rfl t
  unfold matchCaptures remainderPattern
  rw [if_pos ht, hmatch]
  cases matchBalance '[' ']' tailItems t with
  | none => rfl
  | some p =>
    simp only [Option.map_some]
    rw [List.map_map]
    exact congrArg some (List.map_id _)

theorem matchCaptures_control {t : Str} (ht : t.head? ≠ some '[') : matchCaptures t (remainderPattern t) =
    (matchRest (.capOpen :: .single nonBlank .plus :: .capClose :: tailItems) t []).map fun p => texts t p.1 p.2 := by
  unfold remainderPattern
  rw [if_neg ht]
  exact matchCaptures_anchored rfl compile_control rfl

/-- **The remainder of a line** is read as it is written. -/
theorem readRemainder_eq_some_iff {t control moduleName : Str} {args : List Str} :
    readRemainder t = some (control, moduleName, args) ↔ Reads t control moduleName args := by
  have hread : ∀ {control moduleName args}, Reads t control moduleName args →
      readRemainder t = some (control, moduleName, args) := by
    rintro control moduleName args ⟨r, rfl, hcontrol, hr, hwords⟩
    refine @readRemainder_of_match _ _ r _ _ control.length (List.take_left' rfl) hr hwords ?_
    cases hcontrol with
    | word hword hhead =>
      obtain ⟨x, w, rfl⟩ := List.exists_cons_of_ne_nil hword.1
      obtain ⟨seg, seg', htail, -⟩ := matchRest_tail hr hwords [⟨x :: w ++ r, some (x :: w).length⟩]
      have hhead' : (x :: w ++ r).head? ≠ some '[' := hhead
      rw [matchCaptures_control hhead', htail]
      exact congrArg (Option.map _) (matchRest_capPlus hword.1 (fun y hy => by simp [hword.2 y hy])
        (fun y hy => by simp [hr y hy]) htail)
    | @brackets body hbody =>
      have hassoc : '[' :: (body ++ [']']) ++ r = '[' :: (body ++ ']' :: r) := by simp
      rw [hassoc, matchCaptures_brackets rfl, matchBalance_append ne_brackets hbody]
      simp
  refine ⟨fun h => ?_, hread⟩
  have hsome : ∃ p, matchCaptures t (remainderPattern t) = some p := by
    unfold readRemainder at h
    split at h
    · next hmatch => exact ⟨_, hmatch⟩
    · cases h
  obtain ⟨caps, hmatch⟩ := hsome
  have hreads : ∃ control moduleName args, Reads t control moduleName args := by
    by_cases ht : t.head? = some '['
    · rw [matchCaptures_brackets ht] at hmatch
      obtain ⟨p, hp, -⟩ := Option.map_eq_some_iff.mp hmatch
      obtain ⟨body, r, rfl, hbody⟩ := of_matchBalance ne_brackets hp
      rw [matchBalance_append ne_brackets hbody] at hp
      obtain ⟨hr, moduleName, args, hwords⟩ := of_matchRest_tail hp
      exact ⟨_, moduleName, args, r, by simp, .brackets hbody, hr, hwords⟩
    · rw [matchCaptures_control ht] at hmatch
      obtain ⟨p, hp, -⟩ := Option.map_eq_some_iff.mp hmatch
      obtain ⟨run, r, rfl, hne, hrun, hp⟩ := of_matchRest_capPlus hp
      obtain ⟨hr, moduleName, args, hwords⟩ := of_matchRest_tail hp
      have hword : Word run := ⟨hne, fun x hx => by simpa using hrun x hx⟩
      obtain ⟨x, w, rfl⟩ := List.exists_cons_of_ne_nil hne
      exact ⟨_, moduleName, args, r, rfl, .word hword ht, hr, hwords⟩
  obtain ⟨control', moduleName', args', hreads⟩ := hreads
  rw [hread hreads] at h
  cases h
  exact hreads

theorem Reads.unique {t control control' moduleName moduleName' : Str} {args args' : List Str}
    (h : Reads t control moduleName args) (h' : Reads t control' moduleName' args') :
    control = control' ∧ moduleName = moduleName' ∧ args = args' := by
  have heq := (readRemainder_eq_some_iff.mpr h).symm.trans (readRemainder_eq_some_iff.mpr h')
  cases heq
  exact ⟨rfl, rfl, rfl⟩

theorem IsControl.head {control : Str} (h : IsControl control) : ∃ x w, control = x :: w ∧ isspace x = false := by
  cases h with
  | word hword _ =>
    obtain ⟨x, w, rfl⟩ := List.exists_cons_of_ne_nil hword.1
    exact ⟨x, w, rfl, hword.2 x List.mem_cons_self⟩
  | brackets _ => exact ⟨'[', _, rfl, rfl⟩

/-! ## A line -/

/-- A trimmed line that is no comment: its kind and the remainder. -/
def readTrimmed (t : Str) : Option Entry :=
  match matchCaptures t "^(%S+)%s+(.+)$" with
  | some [kind, remainder] => (readRemainder remainder).map fun e => ⟨kind, e.1, e.2.1, e.2.2⟩
  | _ => none

theorem parseLine_eq (line : Str) : parseLine line =
    if trim line = [] ∨ (trim line).head? = some '#' then none else readTrimmed (trim line) := by
  unfold parseLine readTrimmed readRemainder
  dsimp only
  split
  · rfl
  · rcases matchCaptures (trim line) "^(%S+)%s+(.+)$" with _ | (_ | ⟨kind, _ | ⟨remainder, _ | ⟨_, _⟩⟩⟩)
    case isFalse.some.cons.cons.nil =>
      dsimp only
      rcases matchCaptures remainder (remainderPattern remainder) with
        _ | (_ | ⟨_, _ | ⟨_, _ | ⟨_, _ | ⟨_, _⟩⟩⟩⟩) <;> rfl
    all_goals rfl

/-- The kind, and what stands behind the blanks after it. -/
theorem matchCaptures_kind {kind b r : Str} (hkind : Word kind) (hne : b ≠ []) (hb : ∀ x ∈ b, isspace x = true)
    (hr : r ≠ []) (hhead : ∀ x, r.head? = some x → isspace x = false) :
    matchCaptures (kind ++ (b ++ r)) "^(%S+)%s+(.+)$" = some [kind, r] := by
  have hmatch : matchCaptures (kind ++ (b ++ r)) "^(%S+)%s+(.+)$" = _ := matchCaptures_anchored rfl compile_kind rfl
  have hbhead : ∀ x, (b ++ r).head? = some x → nonBlank.test x = false := by
    obtain ⟨y, b, rfl⟩ := List.exists_cons_of_ne_nil hne
    intro x hx
    obtain rfl := Option.some.inj hx
    simp [hb _ List.mem_cons_self]
  have hlast : matchRest [.capOpen, .single .any .plus, .capClose,
    .atEnd] (r ++ []) [⟨kind ++ (b ++ r), some kind.length⟩] =
      some ([], [⟨kind ++ (b ++ r), some kind.length⟩, ⟨r ++ [], some r.length⟩]) := by
    refine matchRest_capPlus hr (fun x _ => any_test x) (fun x hx => by cases hx) ?_
    rw [matchRest, if_pos rfl]
    rfl
  rw [List.append_nil] at hlast
  have hrest := @matchRest_capPlus nonBlank _ kind (b ++ r) [] _ hkind.1 (fun x hx => by simp [hkind.2 x hx]) hbhead
    (matchRest_blankPlus hne hb hhead hlast)
  rw [hmatch, hrest, Option.map_some]
  congr 1
  simp [texts, Seg.text]

theorem of_matchCaptures_kind {t : Str} {caps : List Str} (h : matchCaptures t "^(%S+)%s+(.+)$" = some caps)
    (ht : ∀ x, t.getLast? = some x → isspace x = false) : ∃ kind b r, t = kind ++ (b ++ r) ∧ Word kind ∧ b ≠ [] ∧
      (∀ x ∈ b, isspace x = true) ∧ r ≠ [] ∧ ∀ x, r.head? = some x → isspace x = false := by
  have hmatch : matchCaptures t "^(%S+)%s+(.+)$" = _ := matchCaptures_anchored rfl compile_kind rfl
  rw [h] at hmatch
  obtain ⟨p, hp, -⟩ := Option.map_eq_some_iff.mp hmatch.symm
  obtain ⟨kind, rest, rfl, hne, hkind, hp⟩ := of_matchRest_capPlus hp
  obtain ⟨b, r, rfl, hbne, hb, hp⟩ := of_matchRest_blankPlus hp
  obtain ⟨run, r, rfl, hrun, -, -⟩ := of_matchRest_capPlus hp
  have hsplit : (b ++ (run ++ r)).takeWhile isspace ++ (b ++ (run ++ r)).dropWhile isspace = b ++ (run ++ r) :=
    List.takeWhile_append_dropWhile
  refine ⟨kind, (b ++ (run ++ r)).takeWhile isspace, (b ++ (run ++ r)).dropWhile isspace, by rw [hsplit],
    ⟨hne, fun x hx => by simpa using hkind x hx⟩, ?_, fun x hx => List.mem_takeWhile_imp hx, ?_, ?_⟩
  · obtain ⟨x, b, rfl⟩ := List.exists_cons_of_ne_nil hbne
    rw [List.cons_append, List.takeWhile_cons_of_pos (hb x List.mem_cons_self)]
    exact List.cons_ne_nil _ _
  · intro hnil
    rw [List.dropWhile_eq_nil_iff] at hnil
    have hne' : run ++ r ≠ [] := by simp [hrun]
    have hlast := ht ((run ++ r).getLast hne') (by
      rw [List.getLast?_append_of_ne_nil _ (by simp [hrun]), List.getLast?_append_of_ne_nil _ hne',
        List.getLast?_eq_getLast_of_ne_nil])
    rw [hnil _ (by simp)] at hlast
    cases hlast
  · intro x hx
    have hhead := List.head?_dropWhile_not isspace (b ++ (run ++ r))
    rw [hx] at hhead
    simpa using hhead

/-- **What the parser takes a line for.** -/
theorem parseLine_eq_some_iff {line : Str} {e : Entry} : parseLine line = some e ↔
    ∃ b r, trim line = e.kind ++ (b ++ r) ∧ Word e.kind ∧ e.kind.head? ≠ some '#' ∧ b ≠ [] ∧
      (∀ x ∈ b, isspace x = true) ∧ Reads r e.control e.moduleName e.args := by
  rw [parseLine_eq]
  constructor
  · intro h
    split at h
    · cases h
    · next hline =>
      unfold readTrimmed at h
      cases hmatch : matchCaptures (trim line) "^(%S+)%s+(.+)$" with
      | none =>
        rw [hmatch] at h
        cases h
      | some caps =>
        obtain ⟨kind, b, r, heq, hkind, hne, hb, hr, hhead⟩ := of_matchCaptures_kind hmatch (trimmed_trim line).2
        rw [heq, matchCaptures_kind hkind hne hb hr hhead] at h
        obtain ⟨⟨control, moduleName, args⟩, hread, rfl⟩ := Option.map_eq_some_iff.mp h
        refine ⟨b, r, heq, hkind, fun hhash => hline (.inr ?_), hne, hb, readRemainder_eq_some_iff.mp hread⟩
        obtain ⟨x, w, rfl⟩ := List.exists_cons_of_ne_nil hkind.1
        rw [heq]
        exact hhash
  · rintro ⟨b, r, heq, hkind, hhash, hne, hb, hread⟩
    obtain ⟨x, w, hx⟩ := List.exists_cons_of_ne_nil hkind.1
    obtain ⟨rest, hrest, hcontrol, -⟩ := id hread
    obtain ⟨y, v, hy, hblank⟩ := hcontrol.head
    have hr : r ≠ [] := by
      rw [hrest, hy]
      exact List.cons_ne_nil _ _
    have hhead : ∀ z, r.head? = some z → isspace z = false := by
      intro z hz
      rw [hrest, hy] at hz
      obtain rfl := Option.some.inj hz
      exact hblank
    have hline : ¬(trim line = [] ∨ (trim line).head? = some '#') := by
      rw [heq, hx]
      rw [hx] at hhash
      simpa using hhash
    rw [if_neg hline, heq]
    unfold readTrimmed
    rw [matchCaptures_kind hkind hne hb hr hhead]
    dsimp only
    rw [readRemainder_eq_some_iff.mpr hread]
    rfl

/-! ## The line that is written -/

namespace Params

variable {p : Params}

/-- The line behind its kind. -/
def text (p : Params) : Str := p.control ++ ' ' :: (p.moduleName ++ p.args.flatMap fun arg => ' ' :: arg)

theorem desiredLine_eq (p : Params) : p.desiredLine = p.kind ++ ([' '] ++ p.text) := by
  simp [desiredLine, text]

/-- Behind blanks and a control, the text goes on with the module and then words that include those to match. -/
def Returns (p : Params) : Prop :=
  ∃ b r control args, p.text = b ++ r ∧ (∀ x ∈ b, isspace x = true) ∧ Reads r control p.moduleName args ∧
    ∀ arg ∈ p.matchArgs, arg ∈ args

/-- The control is one, but for blanks around it, and the arguments include those to match; or it is none, and by chance
the module stands again where the parser looks for it. -/
def Rereads (p : Params) : Prop :=
  (IsControl (trim p.control) ∧ ∀ arg ∈ p.matchArgs, arg ∈ p.args) ∨ (¬IsControl (trim p.control) ∧ p.Returns)

end Params

theorem words_args : ∀ {args : List Str} {w : Str}, Word w → (∀ arg ∈ args, Word arg) →
    words nonBlank (w ++ args.flatMap fun arg => ' ' :: arg) = w :: args
  | [], w, hw, _ => by
    rw [List.flatMap_nil, List.append_nil]
    exact lineWords_word hw
  | arg :: args, w, hw, h => by
    have ih := words_args (h arg List.mem_cons_self) fun a ha => h a (List.mem_cons_of_mem _ ha)
    have hblank := lineWords_blank w (arg ++ args.flatMap fun arg => ' ' :: arg)
    unfold lineWords at hblank
    rw [ih] at hblank
    rw [List.flatMap_cons, List.cons_append, hblank]
    exact congrArg (· ++ arg :: args) (lineWords_word hw)

namespace Params

variable {p : Params}

theorem Accepted.words_text (h : p.Accepted) (b : Str) (hb : ∀ x ∈ b, isspace x = true) :
    words nonBlank (b ++ ' ' :: (p.moduleName ++ p.args.flatMap fun arg => ' ' :: arg)) = p.moduleName :: p.args := by
  have hblanks : ∀ x ∈ b ++ [' '], isspace x = true := by
    intro x hx
    rcases List.mem_append.mp hx with hx | hx
    · exact hb x hx
    · obtain rfl := List.mem_singleton.mp hx
      rfl
  have hwords := words_blanks (p.moduleName ++ p.args.flatMap fun arg => ' ' :: arg) hblanks
  rw [List.append_assoc, words_args h.moduleName h.args] at hwords
  exact hwords

/-- For a control that is one, the text is read as it was written. -/
theorem Accepted.returns_iff (h : p.Accepted) (hcontrol : IsControl (trim p.control)) :
    p.Returns ↔ ∀ arg ∈ p.matchArgs, arg ∈ p.args := by
  obtain ⟨b, b', hb, hb', heq⟩ := exists_trim p.control
  have htext : p.text = b ++ (trim p.control ++ (b' ++ ' ' ::
    (p.moduleName ++ p.args.flatMap fun arg => ' ' :: arg))) := by
    unfold text
    conv_lhs => rw [heq]
    simp
  have hreads : Reads (trim p.control ++ (b' ++ ' ' :: (p.moduleName ++ p.args.flatMap fun arg => ' ' :: arg)))
      (trim p.control) p.moduleName p.args := by
    refine ⟨_, rfl, hcontrol, fun x hx => ?_, h.words_text b' hb'⟩
    cases b' with
    | nil =>
      obtain rfl := Option.some.inj hx
      rfl
    | cons y b' =>
      obtain rfl := Option.some.inj hx
      exact hb' _ List.mem_cons_self
  constructor
  · rintro ⟨c, r, control, args, hr, hc, hreads', hmatch⟩
    have hrest : ∀ {b r control moduleName args}, (∀ x ∈ b, isspace x = true) → Reads r control moduleName args →
        (b ++ r).dropWhile isspace = r := by
      rintro b r control moduleName args hb ⟨rest, rfl, hcontrol, -⟩
      obtain ⟨x, w, rfl, hx⟩ := hcontrol.head
      rw [List.dropWhile_append_of_pos hb, List.cons_append, List.dropWhile_cons_of_neg (by simp [hx])]
    have hsame := hrest hc hreads'
    rw [← hr, htext, hrest hb hreads] at hsame
    rw [← hsame] at hreads'
    obtain ⟨-, -, rfl⟩ := hreads.unique hreads'
    exact hmatch
  · exact fun hmatch => ⟨b, _, _, p.args, htext, hb, hreads, hmatch⟩

theorem Accepted.rereads_iff (h : p.Accepted) : p.Rereads ↔ p.Returns := by
  unfold Rereads
  by_cases hcontrol : IsControl (trim p.control)
  · simp only [hcontrol, true_and, not_true_eq_false, false_and, or_false]
    exact (h.returns_iff hcontrol).symm
  · simp [hcontrol]

theorem Accepted.trimmed (h : p.Accepted) : Trimmed p.desiredLine := by
  refine ⟨fun x hx => ?_, fun x hx => ?_⟩
  · obtain ⟨y, w, hkind⟩ := List.exists_cons_of_ne_nil (word_of_kind h.kind).1
    rw [p.desiredLine_eq, hkind] at hx
    obtain rfl := Option.some.inj hx
    exact (word_of_kind h.kind).2 _ (by rw [hkind]; exact List.mem_cons_self)
  · have hlast : ∀ {args : List Str} {w : Str}, Word w → (∀ arg ∈ args, Word arg) →
        ∀ x, (w ++ args.flatMap fun arg => ' ' :: arg).getLast? = some x → isspace x = false := by
      intro args
      induction args with
      | nil =>
        intro w hw _ x hx
        rw [List.flatMap_nil, List.append_nil] at hx
        exact hw.2 x (List.mem_of_getLast? hx)
      | cons arg args ih =>
        intro w hw hargs x hx
        rw [List.flatMap_cons, List.cons_append, List.getLast?_append_of_ne_nil _ (List.cons_ne_nil _ _)] at hx
        have hne : arg ++ args.flatMap (fun arg => ' ' :: arg) ≠ [] := by simp [(hargs arg List.mem_cons_self).1]
        obtain ⟨y, t, ht⟩ := List.exists_cons_of_ne_nil hne
        rw [ht, List.getLast?_cons_cons, ← ht] at hx
        exact ih (hargs arg List.mem_cons_self) (fun a ha => hargs a (List.mem_cons_of_mem _ ha)) x hx
    have hne : p.moduleName ++ p.args.flatMap (fun arg => ' ' :: arg) ≠ [] := by simp [h.moduleName.1]
    refine hlast h.moduleName h.args x ?_
    rw [p.desiredLine_eq, text] at hx
    obtain ⟨y, t, ht⟩ := List.exists_cons_of_ne_nil hne
    rw [List.getLast?_append_of_ne_nil _ (by simp), List.getLast?_append_of_ne_nil _ (by simp),
      List.getLast?_append_of_ne_nil _ (List.cons_ne_nil _ _), ht, List.getLast?_cons_cons, ← ht] at hx
    exact hx

/-- The written line is a target of the same parameters exactly if the text returns. -/
theorem Accepted.isTarget_iff (h : p.Accepted) : p.isTarget p.desiredLine = true ↔ p.Rereads := by
  have htrim := trim_of_trimmed h.trimmed
  rw [h.rereads_iff]
  unfold isTarget Returns
  constructor
  · intro htarget
    cases hparse : parseLine p.desiredLine with
    | none =>
      rw [hparse] at htarget
      cases htarget
    | some e =>
      rw [hparse] at htarget
      simp only [Bool.and_eq_true, decide_eq_true_eq, entryHasArgs, List.all_eq_true] at htarget
      obtain ⟨⟨hkind, hmodule⟩, hargs⟩ := htarget
      obtain ⟨b, r, heq, -, -, hne, hb, hreads⟩ := parseLine_eq_some_iff.mp hparse
      rw [htrim, p.desiredLine_eq, hkind] at heq
      have heq := List.append_cancel_left heq
      obtain ⟨x, b, rfl⟩ := List.exists_cons_of_ne_nil hne
      rw [hmodule] at hreads
      exact ⟨b, r, e.control, e.args, (List.cons.inj heq).2, fun y hy => hb y (List.mem_cons_of_mem x hy), hreads,
        hargs⟩
  · rintro ⟨b, r, control, args, htext, hb, hreads, hmatch⟩
    have hparse : parseLine p.desiredLine = some ⟨p.kind, control, p.moduleName, args⟩ := by
      refine parseLine_eq_some_iff.mpr ⟨' ' :: b, r, ?_, word_of_kind h.kind, ?_, List.cons_ne_nil _ _, ?_, hreads⟩
      · rw [htrim, p.desiredLine_eq, htext]
        rfl
      · intro hhash
        have hall : ((["auth".toList, "account".toList, "password".toList, "session".toList].all fun k =>
          k.head? != some '#') = true) := rfl
        simpa [hhash] using List.all_eq_true.mp hall p.kind h.kind
      · intro x hx
        rcases List.mem_cons.mp hx with rfl | hx
        · rfl
        · exact hb x hx
    rw [hparse]
    simpa [entryHasArgs] using hmatch

end Params

/-! ## The second run -/

namespace Params

variable {p : Params}

/-- Placing the line again in lines where it was placed. -/
theorem placeLoop_placeLoop (lines : List Str) : p.placeLoop (p.placeLoop lines false []) false [] =
    p.placeLoop lines false [] ↔ p.isTarget p.desiredLine = true := by
  have hfront : ∀ line ∈ lines.takeWhile p.passes, p.passes line = true := fun line hline =>
    List.mem_takeWhile_imp hline
  have hback : ∀ line ∈ (lines.dropWhile p.passes).filter (fun line => !p.isTarget line), p.isTarget line = false := by
    intro line hline
    simpa using (List.mem_filter.mp hline).2
  constructor
  · intro h
    by_contra htarget
    -- no line is a target, so that the second run adds one
    have hlen := congrArg List.length h
    rw [p.placeLoop_eq (p.placeLoop lines false []) []] at hlen
    have hall : ∀ line ∈ (p.placeLoop lines false []).dropWhile p.passes, (!p.isTarget line) = true := by
      intro line hline
      have hmem := (List.dropWhile_sublist _).subset hline
      rw [placeLoop_eq, List.nil_append] at hmem
      rcases List.mem_append.mp hmem with hmem | hmem
      · rw [not_target_of_passes (hfront line hmem)]
        rfl
      · rcases List.mem_cons.mp hmem with rfl | hmem
        · simpa using htarget
        · rw [hback line hmem]
          rfl
    rw [List.filter_eq_self.mpr hall, List.nil_append, List.length_append, List.length_cons] at hlen
    have hsum := congrArg List.length (@List.takeWhile_append_dropWhile _ p.passes (p.placeLoop lines false []))
    rw [List.length_append] at hsum
    omega
  · intro htarget
    have hstop : ¬p.passes p.desiredLine = true := by simp [passes, htarget]
    rw [placeLoop_eq (p.placeLoop lines false []), placeLoop_eq lines, List.nil_append, List.nil_append,
      List.takeWhile_append_of_pos hfront, List.dropWhile_append_of_pos hfront, List.takeWhile_cons_of_neg hstop,
      List.dropWhile_cons_of_neg hstop, List.filter_cons_of_neg (by simp [htarget]), List.append_nil,
      List.filter_filter]
    simp

end Params

/-- **A second run leaves the file as it is exactly if the written line is read as the entry that is asked for.** -/
theorem second_run_iff {env : Env} (henv : env.Reliable) {params : Value} {p : Params} {s s' s'' : Sys}
    (hparams : readParams params = .ok p) (h : ensureEntry env params s = (.ok (.ok ()), s'))
    (h' : ensureEntry env params s' = (.ok (.ok ()), s'')) :
    (s''.disk p.path = s'.disk p.path ↔ p.Rereads) ∧ (p.isTarget p.desiredLine = true ↔ p.Rereads) := by
  have haccepted := accepted_of_readParams hparams
  obtain ⟨p₁, hp₁, hlines, -⟩ := ensureEntry_ok henv h
  obtain ⟨p₂, hp₂, hlines', hsame⟩ := ensureEntry_ok henv h'
  rw [hparams] at hp₁ hp₂
  obtain rfl := Except.ok.inj hp₁
  obtain rfl := Except.ok.inj hp₂
  refine ⟨⟨fun hdisk => ?_, fun hreads => ?_⟩, haccepted.isTarget_iff⟩
  · rw [← haccepted.isTarget_iff, ← p.placeLoop_placeLoop (s.linesAt p.path), ← hlines, ← hlines', Sys.linesAt, hdisk]
    rfl
  · rw [← haccepted.isTarget_iff, ← p.placeLoop_placeLoop (s.linesAt p.path), ← hlines] at hreads
    rw [(hsame hreads.symm).1]

theorem second_run_faillock : ∃ p s' s'', readParams faillockParams = .ok p ∧
    ensureEntry calmEnv faillockParams systemAuth = (.ok (.ok ()), s') ∧
    ensureEntry calmEnv faillockParams s' = (.ok (.ok ()), s'') ∧ (s''.disk p.path = s'.disk p.path ↔ p.Rereads) := by
  have hrun : (ensureEntry calmEnv faillockParams systemAuth).1 = .ok (.ok ()) := by decide +kernel
  have hrun' : (ensureEntry calmEnv faillockParams (ensureEntry calmEnv faillockParams systemAuth).2).1 =
    .ok (.ok ()) := by
    decide +kernel
  obtain ⟨p, hp, -⟩ := ensureEntry_ok calmEnv_reliable (run_of_fst hrun)
  exact ⟨p, _, _, hp, run_of_fst hrun, run_of_fst hrun',
    (second_run_iff calmEnv_reliable hp (run_of_fst hrun) (run_of_fst hrun')).1⟩

end Pam
end Seharden
