import Loongshield.Seharden.AuditRoundTrip
import Loongshield.Seharden.Reliable
import Loongshield.Seharden.Trim

/-!
# `enforcers/mounts.lua`

`remount` mounts a file system again with more options, and adds them to its entries in `/etc/fstab`.

- `parse`: the options of a text, `shared/mount_options.lua`;
- `addFstabOptions`, `remount`: the enforcer; `fstabLoop` is its loop over the lines;
- `Hardened`: what should become of an entry;
- `fstab_hardened_iff`: which files come out so.
-/

namespace Seharden
namespace Mounts

open Lua Pattern

/-! ## The enforcer -/

/-- `FSTAB`. -/
def fstab : Str := "/etc/fstab"

/-- `mount_options.parse`: the options in their order; the set has the same. -/
def parse (value : Str) : List Str := captures value "[^,]+"

/-- `is_valid_mount_option`. -/
def isValidMountOption : Value → Bool
  | .str option => option ≠ [] && !isMatch option "[%c%s,#]"
  | _ => false

/-- The fields of a line. -/
structure Fields where
  device : Str
  mountpoint : Str
  fstype : Str
  opts : Str
  rest : Str
  deriving DecidableEq

/-- The fields of a line that is no comment, as the loop reads them. -/
def readFields (line : Str) : Option Fields :=
  if !isMatch line "^%s*#" && isMatch line "%S" then
    match matchCaptures line "^(%S+)%s+(%S+)%s+(%S+)%s+(%S+)%s*(.*)" with
    | some [device, mountpoint, fstype, opts, rest] => some ⟨device, mountpoint, fstype, opts, rest⟩
    | _ => none
  else none

/-- `new_line`, without the blanks at its end. -/
def Fields.line (fields : Fields) (opts : List Str) : Str :=
  (firstCapture (fields.device ++ '\t' :: (fields.mountpoint ++ '\t' :: (fields.fstype ++ '\t' ::
    ([','].intercalate opts ++ '\t' :: fields.rest)))) "^(.-)%s*$").getD []

/-- What the loop has so far: the lines, whether an entry was found, and whether one was changed. -/
structure FstabState where
  lines : List Str
  entryFound : Bool
  modified : Bool

/-- The loop of `add_fstab_options`. -/
def fstabLoop (mountPath : Str) (addOptions : List Str) : List Str → FstabState → FstabState
  | [], st => st
  | line :: rest, st =>
    match readFields line with
    | none => fstabLoop mountPath addOptions rest { st with lines := st.lines ++ [line] }
    | some fields =>
      if fields.mountpoint = mountPath then
        let opts := parse fields.opts
        let added := addOptions.filter fun option => option ∉ opts
        if added = [] then fstabLoop mountPath addOptions rest ⟨st.lines ++ [line], true, st.modified⟩
        else fstabLoop mountPath addOptions rest ⟨st.lines ++ [fields.line (opts ++ added)], true, true⟩
      else fstabLoop mountPath addOptions rest { st with lines := st.lines ++ [line] }

section Enforcer

variable (env : Env)

/-- `add_fstab_options`. -/
def addFstabOptions (mountPath : Str) (addOptions : List Str) : FsM Ret := do
  if ← isSymlink env fstab then
    return .error ("mounts.remount: refusing to overwrite symlink '" ++ fstab ++ "'")
  else
    match ← ioOpenRead env fstab with
    | .error _ => return .error ("mounts.remount: cannot read " ++ fstab)
    | .ok () =>
      let st := fstabLoop mountPath addOptions (← fileLines env fstab) ⟨[], false, false⟩
      if !st.entryFound || !st.modified then return .ok ()
      else writeLinesAtomically env fstab st.lines "mounts.remount"

/-- `run`: a command by `os_execute`, which gives whether it succeeded, and its exit code. -/
def run (osExecute : Str → Value × Value) (cmd : Str) : Except Str Unit :=
  let (ok, code) := osExecute cmd
  if ok.rawEq (.bool true) || code.rawEq (.num 0) then .ok ()
  else .error ("command failed (exit " ++ code.tostring ++ "): " ++ cmd)

/-- The first option that is not valid, by its index. -/
def invalidOption : Nat → List Value → Option Nat
  | _, [] => none
  | i, option :: options => if isValidMountOption option then invalidOption (i + 1) options else some i

/-- `remount`. -/
def remount (osExecute : Str → Value × Value) (params : Value) : FsM Ret := do
  let path := params.field "path"
  let addOptions := params.field "add_options"
  if !path.truthy || !addOptions.truthy then
    return .error "mounts.remount: requires 'path' and 'add_options' parameters"
  else match path with
  | .str mountPath =>
    if mountPath = [] || isMatch mountPath "[%c]" then
      return .error "mounts.remount: 'path' must be a non-empty string without control characters"
    else if !addOptions.isTable then return .error "mounts.remount: 'add_options' must be a list"
    else match invalidOption 1 addOptions.ipairs with
    | some i => return .error ("mounts.remount: add_options[" ++ natStr i ++
        "] must be a mount option token without whitespace, commas, or control characters")
    | none =>
      let options := addOptions.ipairs.map Value.tostring
      let live := run osExecute ("mount -o " ++ shellEscape ("remount," ++ [','].intercalate options) ++ " " ++
        shellEscape mountPath ++ " 2>&1")
      match ← addFstabOptions env mountPath options, live with
      | .error err, .error liveErr => return .error ("mounts.remount: live remount failed: " ++ liveErr ++ "; " ++ err)
      | .error err, .ok () => return .error err
      | .ok (), .error liveErr =>
        return .error ("mounts.remount: live remount failed after persisting options: " ++ liveErr)
      | .ok (), .ok () => return .ok ()
  | _ => return .error "mounts.remount: 'path' must be a non-empty string without control characters"

end Enforcer

/-! ## Lines and their fields -/

/-- An entry of a mount point: a line that is no comment, with the mount point as its second field. -/
def EntryOf (mountPath line : Str) : Prop :=
  ∃ device rest, words nonBlank line = device :: mountPath :: rest ∧ device.head? ≠ some '#'

/-- The options of a line. -/
def optionsOf (line : Str) : List Str := (words nonBlank line)[3]?.elim [] parse

/-- **What should become of an entry**: it has the options that are asked for, behind those that it had, none of them
twice that was not there twice before; its other fields are as they were. -/
structure Hardened (requested : List Str) (old new : Str) : Prop where
  front : (words nonBlank new).take 3 = (words nonBlank old).take 3
  back : (words nonBlank new).drop 4 = (words nonBlank old).drop 4
  options : ∃ added, optionsOf new = optionsOf old ++ added ∧ ∀ o ∈ added, o ∈ requested
  all : ∀ o ∈ requested, o ∈ optionsOf new
  once : ∀ o, 2 ≤ (optionsOf new).count o → 2 ≤ (optionsOf old).count o

/-- The loop reads the line: it does not begin with a blank, and has options. -/
def Readable (line : Str) : Prop := (∀ x, line.head? = some x → isspace x = false) ∧ 4 ≤ (words nonBlank line).length

/-- No option is asked for twice that a readable entry does not have; another entry has them all. -/
def Fits (requested : List Str) (line : Str) : Prop :=
  (Readable line ∧ (requested.filter fun o => o ∉ optionsOf line).Nodup) ∨
    (¬Readable line ∧ ∀ o ∈ requested, o ∈ optionsOf line)

/-- The characters between commas. -/
def notComma : Single := .set true [.lit ',']

theorem notComma_test {x : Char} : notComma.test x = true ↔ x ≠ ',' := by
  simp only [notComma, Single.test, List.any_cons, List.any_nil, SetItem.test, Bool.or_false]
  by_cases hx : x = ','
  · subst hx
    decide
  · have hx' : (',' == x) = false := beq_false_of_ne fun h => hx h.symm
    rw [hx']
    exact iff_of_true rfl hx

theorem compile_options : compile "[^,]+" = [.single notComma .plus] := rfl

theorem parse_eq (value : Str) : parse value = words notComma value := captures_runs compile_options value

theorem words_option {o : Str} (h : o ≠ [] ∧ ',' ∉ o) : words notComma o = [o] := by
  have htest : ∀ x ∈ o, notComma.test x = true := fun x hx => notComma_test.mpr fun heq => h.2 (heq ▸ hx)
  have hword : words notComma (o ++ []) = [o] := words_append h.1 htest (by simp)
  rwa [List.append_nil] at hword

/-- Options that are joined are read back. -/
theorem parse_intercalate : ∀ {opts : List Str}, (∀ o ∈ opts, o ≠ [] ∧ ',' ∉ o) → parse ([','].intercalate opts) = opts
  | [], _ => rfl
  | [o], h => by
    rw [parse_eq]
    simpa [List.intercalate] using words_option (h o List.mem_cons_self)
  | o :: o' :: opts, h => by
    have hjoin : [','].intercalate (o :: o' :: opts) = o ++ ',' :: [','].intercalate (o' :: opts) := by
      simp [List.intercalate]
    have ih := parse_intercalate fun x hx => h x (List.mem_cons_of_mem o hx)
    rw [parse_eq] at ih
    rw [parse_eq, hjoin, words_append_cons (by decide), words_option (h o List.mem_cons_self), ih]
    rfl

theorem mem_parse {value o : Str} (h : o ∈ parse value) : o ≠ [] ∧ ',' ∉ o ∧ ∀ x ∈ o, x ∈ value := by
  rw [parse_eq] at h
  obtain ⟨hne, hsub⟩ := words_spec h
  exact ⟨hne, fun hmem => notComma_test.mp (mem_words h ',' hmem) rfl, hsub⟩

/-! ## Reading a line -/

/-- A word and the blanks behind it: `(%S+)%s+`. -/
def fieldItems (is : List Pattern.Item) : List Pattern.Item :=
  .capOpen :: .single nonBlank .plus :: .capClose :: .single blank .plus :: is

theorem matchRest_field {is : List Pattern.Item} {w b r : Str} {segs : List Seg} {p : Str × List Seg} (hw : Word w)
    (hne : b ≠ []) (hb : ∀ x ∈ b, isspace x = true) (hr : ∀ x, r.head? = some x → isspace x = false)
    (h : matchRest is r (segs ++ [⟨w ++ (b ++ r), some w.length⟩]) = some p) :
    matchRest (fieldItems is) (w ++ (b ++ r)) segs = some p := by
  refine matchRest_capPlus hw.1 (fun x hx => by simp [hw.2 x hx]) (fun x hx => ?_) (matchRest_blankPlus hne hb hr h)
  obtain ⟨y, b, rfl⟩ := List.exists_cons_of_ne_nil hne
  obtain rfl := Option.some.inj hx
  simp [hb _ List.mem_cons_self]

theorem of_matchRest_field {is : List Pattern.Item} {text : Str} {segs : List Seg} {p : Str × List Seg}
    (h : matchRest (fieldItems is) text segs = some p) :
    ∃ w b r, text = w ++ (b ++ r) ∧ Word w ∧ b ≠ [] ∧ (∀ x ∈ b, isspace x = true) ∧
      ∃ segs', matchRest is r segs' = some p := by
  obtain ⟨w, rest, rfl, hne, hw, h⟩ := of_matchRest_capPlus h
  obtain ⟨b, r, rfl, hbne, hb, h⟩ := of_matchRest_blankPlus h
  exact ⟨w, b, r, rfl, ⟨hne, fun x hx => by simpa using hw x hx⟩, hbne, hb, _, h⟩

/-- `(%S+)%s*(.*)`. -/
def lastItems : List Pattern.Item :=
  [.capOpen, .single nonBlank .plus, .capClose, .single blank .star, .capOpen, .single .any .star, .capClose]

theorem compile_fields : compile "(%S+)%s+(%S+)%s+(%S+)%s+(%S+)%s*(.*)" =
    fieldItems (fieldItems (fieldItems lastItems)) := rfl

theorem matchRest_last {w r : Str} (hw : Word w) (hr : ∀ x, r.head? = some x → isspace x = true) (segs : List Seg) :
    matchRest lastItems (w ++ r) segs = some ([], segs ++ [⟨w ++ r, some w.length⟩] ++
      [⟨r.dropWhile isspace, some (r.dropWhile isspace).length⟩]) := by
  have hsplit : r.takeWhile isspace ++ r.dropWhile isspace = r := List.takeWhile_append_dropWhile
  refine matchRest_capPlus hw.1 (fun x hx => by simp [hw.2 x hx]) (fun x hx => by simp [hr x hx]) ?_
  rw [matchRest]
  conv_lhs => rw [← hsplit]
  refine longest_run (fun x hx => ?_) ?_ fun x hx => List.mem_takeWhile_imp hx
  · have hhead := List.head?_dropWhile_not isspace r
    rw [hx] at hhead
    simpa using hhead
  · have hstar := @matchRest_capStar .any [] (r.dropWhile isspace) [] (segs ++ [⟨w ++ r, some w.length⟩]) _
      (fun x _ => any_test x) (fun x hx => by cases hx) rfl
    rw [List.append_nil] at hstar
    rw [hsplit]
    exact hstar

/-- The comment test, on a line that does not begin with a blank. -/
theorem isMatch_comment {x : Char} (hx : isspace x = false) (line : Str) :
    isMatch (x :: line) "^%s*#" = (x == '#') := by
  have hitems : compile "%s*#" = [.single blank .star, .single (.lit '#') .one] := rfl
  have hmatch : isMatch (x :: line) "^%s*#" = _ := isMatch_anchored rfl hitems rfl
  have hblank : ¬blank.test x = true := by simp [hx]
  rw [hmatch, matchRest, longest, if_neg hblank, matchRest]
  by_cases hhash : x = '#'
  · subst hhash
    rfl
  · have hlit : ¬Single.test (.lit '#') x = true := by
      rw [Single.test, beq_iff_eq]
      exact fun h => hhash h.symm
    rw [if_neg hlit, beq_false_of_ne hhash]
    rfl

theorem isMatch_nonBlank {x : Char} (hx : isspace x = false) (line : Str) : isMatch (x :: line) "%S" = true :=
  isMatch_iff.mpr ((strMatch_somewhere (c := nonBlank) rfl (by decide) _).mpr ⟨x, List.mem_cons_self, by simp [hx]⟩)

/-- A line that is readable and no comment is read. -/
theorem readFields_of_words {line device mountpoint fstype opts : Str} {more : List Str}
    (hhead : ∀ x, line.head? = some x → isspace x = false) (hhash : device.head? ≠ some '#')
    (hwords : words nonBlank line = device :: mountpoint :: fstype :: opts :: more) :
    ∃ rest, readFields line = some ⟨device, mountpoint, fstype, opts, rest⟩ ∧ words nonBlank rest = more ∧
      (∀ x ∈ rest, x ∈ line) := by
  obtain ⟨b, r₁, rfl, hb, hne, hword, hend, h⟩ := words_eq_cons_iff.mp hwords
  obtain rfl : b = [] := by
    cases b with
    | nil => rfl
    | cons x b =>
      have hx := hhead x rfl
      rw [hb x List.mem_cons_self] at hx
      cases hx
  obtain ⟨b₁, r₂, rfl, hb₁ne, hb₁, hne₁, hword₁, hend₁, h⟩ := words_behind hend h
  obtain ⟨b₂, r₃, rfl, hb₂ne, hb₂, hne₂, hword₂, hend₂, h⟩ := words_behind hend₁ h
  obtain ⟨b₃, r₄, rfl, hb₃ne, hb₃, hne₃, hword₃, hend₃, h⟩ := words_behind hend₂ h
  have hfront : ∀ {w r : Str}, w ≠ [] → (∀ x ∈ w, isspace x = false) → ∀ x, (w ++ r).head? = some x →
    isspace x = false := by
    intro w r hne hword x hx
    obtain ⟨y, w, rfl⟩ := List.exists_cons_of_ne_nil hne
    obtain rfl := Option.some.inj hx
    exact hword _ List.mem_cons_self
  have hmatch := @matchRest_field _ _ _ _ [] _ ⟨hne, hword⟩ hb₁ne hb₁ (hfront hne₁ hword₁)
    (matchRest_field ⟨hne₁, hword₁⟩ hb₂ne hb₂ (hfront hne₂ hword₂)
      (matchRest_field ⟨hne₂, hword₂⟩ hb₃ne hb₃ (hfront hne₃ hword₃) (matchRest_last ⟨hne₃, hword₃⟩ hend₃ _)))
  have hcaptures : ∀ line, matchCaptures line "^(%S+)%s+(%S+)%s+(%S+)%s+(%S+)%s*(.*)" = _ := fun line =>
    matchCaptures_anchored rfl compile_fields rfl
  refine ⟨r₄.dropWhile isspace, ?_, ?_, fun x hx => ?_⟩
  · obtain ⟨x, device, rfl⟩ := List.exists_cons_of_ne_nil hne
    have hx := hword x List.mem_cons_self
    have hno : (x == '#') = false := beq_false_of_ne fun h => hhash (by rw [h]; rfl)
    have htest : (!isMatch (x :: device ++ (b₁ ++ (mountpoint ++ (b₂ ++ (fstype ++ (b₃ ++ (opts ++ r₄))))))) "^%s*#" &&
        isMatch (x :: device ++ (b₁ ++ (mountpoint ++ (b₂ ++ (fstype ++ (b₃ ++ (opts ++ r₄))))))) "%S") = true := by
      rw [List.cons_append, isMatch_comment hx, isMatch_nonBlank hx, hno]
      rfl
    unfold readFields
    rw [List.nil_append, if_pos htest, hcaptures, hmatch]
    simp [texts, Seg.text]
  · have hblanks : ∀ x ∈ r₄.takeWhile isspace, isspace x = true := fun x hx => List.mem_takeWhile_imp hx
    have hwords := words_blanks (r₄.dropWhile isspace) hblanks
    rw [List.takeWhile_append_dropWhile] at hwords
    rw [← hwords, h]
  · have hmem := (List.dropWhile_sublist _).subset hx
    simp [hmem]

/-- What is read is readable, and no comment. -/
theorem of_readFields {line : Str} {f : Fields} (h : readFields line = some f) : Readable line ∧
    f.device.head? ≠ some '#' ∧
    words nonBlank line = f.device :: f.mountpoint :: f.fstype :: f.opts :: words nonBlank f.rest ∧
      (∀ x ∈ f.rest, x ∈ line) := by
  have hcaptures : matchCaptures line "^(%S+)%s+(%S+)%s+(%S+)%s+(%S+)%s*(.*)" = _ :=
    matchCaptures_anchored rfl compile_fields rfl
  have hread := h
  unfold readFields at h
  split at h
  · next htest =>
    cases hmatch : matchRest (fieldItems (fieldItems (fieldItems lastItems))) line [] with
    | none =>
      rw [hcaptures, hmatch] at h
      cases h
    | some p =>
      obtain ⟨w, b, r, rfl, hw, hbne, hb, _, hmatch⟩ := of_matchRest_field hmatch
      obtain ⟨w₁, b₁, r₁, rfl, hw₁, hb₁ne, hb₁, _, hmatch⟩ := of_matchRest_field hmatch
      obtain ⟨w₂, b₂, r₂, rfl, hw₂, hb₂ne, hb₂, _, hmatch⟩ := of_matchRest_field hmatch
      obtain ⟨w₃, r₃, rfl, hw₃ne, hw₃, -⟩ := of_matchRest_capPlus hmatch
      have hfield : ∀ {w b r : Str}, Word w → b ≠ [] → (∀ x ∈ b, isspace x = true) →
          words nonBlank (w ++ (b ++ r)) = w :: words nonBlank r := by
        intro w b r hw hne hb
        rw [words_append hw.1 (fun x hx => by simp [hw.2 x hx]) (fun x hx => ?_), words_blanks r hb]
        obtain ⟨y, b, rfl⟩ := List.exists_cons_of_ne_nil hne
        obtain rfl := Option.some.inj hx
        simp [hb _ List.mem_cons_self]
      obtain ⟨opts, more, hlast⟩ : ∃ opts more, words nonBlank (w₃ ++ r₃) = opts :: more := by
        obtain ⟨x, w₃, rfl⟩ := List.exists_cons_of_ne_nil hw₃ne
        exact ⟨_, _, words_cons _ (hw₃ x List.mem_cons_self)⟩
      have hwords := hfield (r := w₁ ++ (b₁ ++ (w₂ ++ (b₂ ++ (w₃ ++ r₃))))) hw hbne hb
      rw [hfield hw₁ hb₁ne hb₁, hfield hw₂ hb₂ne hb₂, hlast] at hwords
      obtain ⟨x, v, rfl⟩ := List.exists_cons_of_ne_nil hw.1
      have hx := hw.2 x List.mem_cons_self
      have hhead : ∀ y, (x :: v ++ (b ++ (w₁ ++ (b₁ ++ (w₂ ++ (b₂ ++ (w₃ ++ r₃))))))).head? = some y →
        isspace y = false := by
        intro y hy
        obtain rfl := Option.some.inj hy
        exact hx
      have hhash : (x :: v).head? ≠ some '#' := by
        intro hhash
        obtain rfl := Option.some.inj hhash
        rw [List.cons_append, isMatch_comment hx] at htest
        cases htest
      obtain ⟨rest, hread', hrest, hsub⟩ := readFields_of_words hhead hhash hwords
      rw [hread] at hread'
      obtain rfl := Option.some.inj hread'
      refine ⟨⟨hhead, ?_⟩, hhash, ?_, hsub⟩
      · rw [hwords]
        simp
      · rw [hwords, hrest]
  · cases h

/-! ## A line with more options -/

/-- The characters that an option does not have. -/
def refusedInOption : Single := .set false [.cls 'c', .cls 's', .lit ',', .lit '#']

theorem word_of_isValidMountOption {o : Str} (h : isValidMountOption (.str o) = true) : Word o ∧ ',' ∉ o := by
  unfold isValidMountOption at h
  rw [Bool.and_eq_true, decide_eq_true_eq, Bool.not_eq_true'] at h
  have hpat : compile "[%c%s,#]" = [.single refusedInOption .one] := rfl
  have hrefused : ∀ x ∈ o, refusedInOption.test x = false := by
    intro x hx
    by_contra htest
    rw [Bool.not_eq_false] at htest
    rw [isMatch_iff.mpr ((strMatch_somewhere hpat (by decide) o).mpr ⟨x, hx, htest⟩)] at h
    exact Bool.noConfusion h.2
  have hitems : ∀ x ∈ o, isspace x = false ∧ x ≠ ',' := by
    intro x hx
    have htest := hrefused x hx
    simp only [refusedInOption, Single.test, List.any_cons, List.any_nil, SetItem.test, Bool.or_false,
      bne_eq_false_iff_eq,
      Bool.or_eq_false_iff] at htest
    refine ⟨htest.2.1, ?_⟩
    rintro rfl
    exact Bool.noConfusion htest.2.2.1
  exact ⟨⟨h.1, fun x hx => (hitems x hx).1⟩, fun hmem => (hitems ',' hmem).2 rfl⟩

theorem word_intercalate {opts : List Str} (hne : opts ≠ []) (h : ∀ o ∈ opts, Word o) :
    Word ([','].intercalate opts) := by
  refine ⟨?_, fun x hx => ?_⟩
  · cases opts with
    | nil => exact absurd rfl hne
    | cons o opts =>
      have ho := (h o List.mem_cons_self).1
      cases opts with
      | nil => simpa [List.intercalate] using ho
      | cons o' opts => simp [List.intercalate, ho]
  · rcases mem_intercalate hx with hx | ⟨o, ho, hx⟩
    · rw [List.mem_singleton.mp hx]
      rfl
    · exact (h o ho).2 x hx

/-- `new_line:match('^(.-)%s*$')`. -/
theorem firstCapture_trimEnd (u : Str) : firstCapture u "^(.-)%s*$" = some (u.rdropWhile isspace) := by
  have hitems : compile "(.-)%s*$" = [.capOpen, .single .any .minus, .capClose, .single blank .star, .atEnd] := rfl
  have hmatch : strMatch u "^(.-)%s*$" = _ := strMatch_anchored rfl hitems rfl u
  unfold firstCapture
  rw [hmatch, matchRest_lazy_end]
  simp [texts, Seg.text, take_rdropWhile]

/-- The line before its blanks at the end are cut. -/
def Fields.text (f : Fields) (opts : List Str) : Str :=
  f.device ++ '\t' :: (f.mountpoint ++ '\t' :: (f.fstype ++ '\t' :: ([','].intercalate opts ++ '\t' :: f.rest)))

theorem Fields.line_eq (f : Fields) (opts : List Str) : f.line opts = (f.text opts).rdropWhile isspace := by
  unfold line
  rw [firstCapture_trimEnd]
  rfl

section Rewritten

variable {line : Str} {f : Fields}

/-- The fields that are read are words. -/
theorem words_of_readFields (h : readFields line = some f) : Word f.device ∧ Word f.mountpoint ∧ Word f.fstype ∧
    Word f.opts := by
  have hword : ∀ w ∈ words nonBlank line, Word w := fun w hw =>
    ⟨(words_spec hw).1, fun x hx => by simpa using mem_words hw x hx⟩
  rw [(of_readFields h).2.2.1] at hword
  exact ⟨hword _ (by simp), hword _ (by simp), hword _ (by simp), hword _ (by simp)⟩

theorem words_line (h : readFields line = some f) {opts : List Str} (hopts : Word ([','].intercalate opts)) :
    words nonBlank (f.line opts) =
      f.device :: f.mountpoint :: f.fstype :: [','].intercalate opts :: words nonBlank f.rest := by
  obtain ⟨hdevice, hmountpoint, hfstype, -⟩ := words_of_readFields h
  have hone : ∀ {w : Str}, Word w → words nonBlank w = [w] := fun hw => lineWords_word hw
  rw [f.line_eq, words_rdropWhile]
  unfold Fields.text
  rw [words_append_cons (by decide), words_append_cons (by decide), words_append_cons (by decide),
    words_append_cons (by decide), hone hdevice, hone hmountpoint, hone hfstype, hone hopts]
  rfl

theorem head_line (h : readFields line = some f) (opts : List Str) :
    ∀ x, (f.line opts).head? = some x → isspace x = false := by
  obtain ⟨⟨hne, hblank⟩, -⟩ := words_of_readFields h
  obtain ⟨y, w, hdevice⟩ := List.exists_cons_of_ne_nil hne
  obtain ⟨t, ht⟩ := List.rdropWhile_prefix isspace (f.text opts)
  intro x hx
  rw [f.line_eq] at hx
  cases hline : (f.text opts).rdropWhile isspace with
  | nil =>
    rw [hline] at hx
    cases hx
  | cons z u =>
    rw [hline] at hx ht
    obtain rfl := Option.some.inj hx
    have htext : f.text opts = y :: (w ++ '\t' :: (f.mountpoint ++ '\t' :: (f.fstype ++ '\t' ::
        ([','].intercalate opts ++ '\t' :: f.rest)))) := by
      rw [Fields.text, hdevice]
      rfl
    rw [htext] at ht
    rw [(List.cons.inj ht).1]
    exact hblank y (by rw [hdevice]; exact List.mem_cons_self)

/-- The line is read again, with the new options. -/
theorem readFields_line (h : readFields line = some f) {opts : List Str} (hopts : Word ([','].intercalate opts)) :
    ∃ rest, readFields (f.line opts) = some ⟨f.device, f.mountpoint, f.fstype, [','].intercalate opts, rest⟩ := by
  obtain ⟨rest, hread, -⟩ := readFields_of_words (head_line h opts) (of_readFields h).2.1 (words_line h hopts)
  exact ⟨rest, hread⟩

theorem newline_line (h : readFields line = some f) (hline : '\n' ∉ line) {opts : List Str}
    (hopts : Word ([','].intercalate opts)) : '\n' ∉ f.line opts := by
  obtain ⟨hdevice, hmountpoint, hfstype, -⟩ := words_of_readFields h
  intro hmem
  rw [f.line_eq] at hmem
  have htrim := List.rdropWhile_prefix isspace (f.text opts)
  have hmem := htrim.sublist.subset hmem
  have hrest : '\n' ∉ f.rest := fun hx => hline ((of_readFields h).2.2.2 _ hx)
  simp only [Fields.text, List.mem_append, List.mem_cons] at hmem
  rcases hmem with hmem | hmem | hmem | hmem | hmem | hmem | hmem | hmem | hmem
  · exact hdevice.2.not_mem_newline hmem
  · exact absurd hmem (by decide)
  · exact hmountpoint.2.not_mem_newline hmem
  · exact absurd hmem (by decide)
  · exact hfstype.2.not_mem_newline hmem
  · exact absurd hmem (by decide)
  · exact hopts.2.not_mem_newline hmem
  · exact absurd hmem (by decide)
  · exact hrest hmem

end Rewritten

/-! ## The loop -/

section Loop

variable (mountPath : Str) (requested : List Str)

/-- The options that the loop adds to a line. -/
def missing (line : Str) : List Str :=
  match readFields line with
  | none => []
  | some f => if f.mountpoint = mountPath then requested.filter fun o => o ∉ parse f.opts else []

/-- What the loop makes of a line. -/
def hardenLine (line : Str) : Str :=
  match readFields line with
  | none => line
  | some f =>
    if missing mountPath requested line = [] then line
    else f.line (parse f.opts ++ missing mountPath requested line)

/-- **The loop** changes line by line. -/
theorem fstabLoop_spec : ∀ (lines : List Str) (st : FstabState), (st.modified = true → st.entryFound = true) →
    (fstabLoop mountPath requested lines st).lines = st.lines ++ lines.map (hardenLine mountPath requested) ∧
    ((fstabLoop mountPath requested lines st).modified = false ↔
      st.modified = false ∧ ∀ line ∈ lines, missing mountPath requested line = []) ∧
    ((fstabLoop mountPath requested lines st).modified = true →
      (fstabLoop mountPath requested lines st).entryFound = true)
  | [], st, hst => by simpa [fstabLoop] using hst
  | line :: lines, st, hst => by
    rw [fstabLoop, List.map_cons, List.forall_mem_cons]
    cases hread : readFields line with
    | none =>
      have hmissing : missing mountPath requested line = [] := by simp [missing, hread]
      have hline : hardenLine mountPath requested line = line := by simp [hardenLine, hread]
      obtain ⟨hlines, hmodified, hfound⟩ := fstabLoop_spec lines { st with lines := st.lines ++ [line] } hst
      exact ⟨by rw [hlines, hline, List.append_assoc]; rfl, by simpa [hmissing] using hmodified, hfound⟩
    | some f =>
      dsimp only
      by_cases hmount : f.mountpoint = mountPath
      · have hmissing : missing mountPath requested line = requested.filter fun o => o ∉ parse f.opts := by
          simp [missing, hread, hmount]
        rw [if_pos hmount, ← hmissing]
        by_cases hnil : missing mountPath requested line = []
        · have hline : hardenLine mountPath requested line = line := by simp [hardenLine, hread, hnil]
          obtain ⟨hlines, hmodified, hfound⟩ := fstabLoop_spec lines ⟨st.lines ++ [line], true, st.modified⟩ fun _ =>
            rfl
          rw [if_pos hnil]
          exact ⟨by rw [hlines, hline, List.append_assoc]; rfl, by simpa [hnil] using hmodified, hfound⟩
        · have hline : hardenLine mountPath requested line =
              f.line (parse f.opts ++ missing mountPath requested line) := by simp [hardenLine, hread, hnil]
          obtain ⟨hlines, hmodified, hfound⟩ := fstabLoop_spec lines
            ⟨st.lines ++ [f.line (parse f.opts ++ missing mountPath requested line)], true, true⟩ fun _ => rfl
          rw [if_neg hnil]
          exact ⟨by rw [hlines, hline, List.append_assoc]; rfl, by simpa [hnil] using hmodified, hfound⟩
      · have hmissing : missing mountPath requested line = [] := by simp [missing, hread, hmount]
        have hline : hardenLine mountPath requested line = line := by simp [hardenLine, hread, hmissing]
        obtain ⟨hlines, hmodified, hfound⟩ := fstabLoop_spec lines { st with lines := st.lines ++ [line] } hst
        rw [if_neg hmount]
        exact ⟨by rw [hlines, hline, List.append_assoc]; rfl, by simpa [hmissing] using hmodified, hfound⟩

variable {mountPath requested}

theorem mem_missing {line o : Str} (h : o ∈ missing mountPath requested line) : o ∈ requested := by
  unfold missing at h
  split at h
  · cases h
  · split at h
    · exact List.mem_of_mem_filter h
    · cases h

theorem missing_of_readFields {line : Str} {f : Fields} (hread : readFields line = some f)
    (hmount : f.mountpoint = mountPath) :
    missing mountPath requested line = requested.filter fun o => o ∉ parse f.opts := by
  simp [missing, hread, hmount]

/-- The options of an entry that is changed make one word, and are read back. -/
theorem options_word (hvalid : ∀ o ∈ requested, isValidMountOption (.str o) = true) {line : Str} {f : Fields}
    (hread : readFields line = some f) (hnil : missing mountPath requested line ≠ []) :
    Word ([','].intercalate (parse f.opts ++ missing mountPath requested line)) ∧
      parse ([','].intercalate (parse f.opts ++ missing mountPath requested line)) =
        parse f.opts ++ missing mountPath requested line := by
  have hall : ∀ o ∈ parse f.opts ++ missing mountPath requested line, Word o ∧ ',' ∉ o := by
    intro o ho
    rcases List.mem_append.mp ho with ho | ho
    · obtain ⟨hne, hcomma, hsub⟩ := mem_parse ho
      exact ⟨⟨hne, fun x hx => (words_of_readFields hread).2.2.2.2 x (hsub x hx)⟩, hcomma⟩
    · exact word_of_isValidMountOption (hvalid o (mem_missing ho))
  exact ⟨word_intercalate (by simp [hnil]) fun o ho => (hall o ho).1,
    parse_intercalate fun o ho => ⟨(hall o ho).1.1, (hall o ho).2⟩⟩

/-- A line that was gone over needs nothing more. -/
theorem missing_hardenLine (hvalid : ∀ o ∈ requested, isValidMountOption (.str o) = true) (line : Str) :
    missing mountPath requested (hardenLine mountPath requested line) = [] := by
  cases hread : readFields line with
  | none =>
    have hline : hardenLine mountPath requested line = line := by simp [hardenLine, hread]
    simp [hline, missing, hread]
  | some f =>
    by_cases hnil : missing mountPath requested line = []
    · have hline : hardenLine mountPath requested line = line := by simp [hardenLine, hread, hnil]
      rw [hline, hnil]
    · have hline : hardenLine mountPath requested line = f.line (parse f.opts ++ missing mountPath requested line) := by
        simp [hardenLine, hread, hnil]
      have hmount : f.mountpoint = mountPath := by
        by_contra hmount
        exact hnil (by simp [missing, hread, hmount])
      obtain ⟨hword, hparse⟩ := options_word hvalid hread hnil
      obtain ⟨rest, hagain⟩ := readFields_line hread hword
      rw [hline, missing_of_readFields hagain hmount, hparse, List.filter_eq_nil_iff]
      intro o ho
      rw [missing_of_readFields hread hmount]
      by_cases hmem : o ∈ parse f.opts
      · simp [hmem]
      · simp [hmem, ho]

theorem newline_hardenLine (hvalid : ∀ o ∈ requested, isValidMountOption (.str o) = true) {line : Str}
    (hline : '\n' ∉ line) :
    '\n' ∉ hardenLine mountPath requested line := by
  unfold hardenLine
  split
  · exact hline
  · next f hread =>
    split
    · exact hline
    · next hnil => exact newline_line hread hline (options_word hvalid hread hnil).1

/-- A line that is no entry of the mount point stays. -/
theorem hardenLine_of_not_entry {line : Str} (h : ¬EntryOf mountPath line) :
    hardenLine mountPath requested line = line := by
  cases hread : readFields line with
  | none => simp [hardenLine, hread]
  | some f =>
    have hmount : f.mountpoint ≠ mountPath := by
      rintro rfl
      obtain ⟨-, hhash, hwords, -⟩ := of_readFields hread
      exact h ⟨f.device, _, hwords, hhash⟩
    simp [hardenLine, hread, missing, hmount]

theorem optionsOf_of_words {line device mountpoint fstype opts : Str} {more : List Str}
    (h : words nonBlank line = device :: mountpoint :: fstype :: opts :: more) : optionsOf line = parse opts := by
  unfold optionsOf
  rw [h]
  rfl

/-- A list behind another that has none of its elements repeats only what it repeats itself. -/
theorem once_append_iff {old added : List Str} (h : ∀ o ∈ added, o ∉ old) :
    (∀ o, 2 ≤ (old ++ added).count o → 2 ≤ old.count o) ↔ added.Nodup := by
  constructor
  · intro honce
    rw [List.nodup_iff_count_le_one]
    intro o
    by_contra hcount
    have hmem : o ∈ added := List.count_pos_iff.mp (by omega)
    have hold : old.count o = 0 := List.count_eq_zero.mpr (h o hmem)
    have htwo := honce o (by rw [List.count_append]; omega)
    omega
  · intro hnodup o hcount
    have hle := List.nodup_iff_count_le_one.mp hnodup o
    by_cases hmem : o ∈ added
    · have hold : old.count o = 0 := List.count_eq_zero.mpr (h o hmem)
      rw [List.count_append] at hcount
      omega
    · have hadded : added.count o = 0 := List.count_eq_zero.mpr hmem
      rw [List.count_append] at hcount
      omega

/-- **An entry comes out hardened** exactly if it fits. -/
theorem hardened_iff (hvalid : ∀ o ∈ requested, isValidMountOption (.str o) = true) {line : Str}
    (hentry : EntryOf mountPath line) :
    Hardened requested line (hardenLine mountPath requested line) ↔ Fits requested line := by
  obtain ⟨device, more, hwords, hhash⟩ := hentry
  have hsame : hardenLine mountPath requested line = line →
      (Hardened requested line (hardenLine mountPath requested line) ↔ ∀ o ∈ requested, o ∈ optionsOf line) := by
    intro hline
    rw [hline]
    exact ⟨fun h => h.all, fun h => ⟨rfl, rfl, ⟨[], by simp, by simp⟩, h, fun _ ho => ho⟩⟩
  cases hread : readFields line with
  | none =>
    have hunread : ¬Readable line := by
      rintro ⟨hhead, hlen⟩
      rw [hwords] at hlen
      obtain ⟨fstype, opts, rest, rfl⟩ : ∃ fstype opts rest, more = fstype :: opts :: rest := by
        match more, hlen with
        | fstype :: opts :: rest, _ => exact ⟨fstype, opts, rest, rfl⟩
      obtain ⟨rest, hread', -⟩ := readFields_of_words hhead hhash hwords
      rw [hread] at hread'
      cases hread'
    rw [hsame (by simp [hardenLine, hread])]
    simp [Fits, hunread]
  | some f =>
    obtain ⟨hreadable, -, hfields, -⟩ := of_readFields hread
    obtain ⟨hdevice, hmount⟩ : f.device = device ∧ f.mountpoint = mountPath := by
      rw [hwords] at hfields
      obtain ⟨h₁, h₂⟩ := List.cons.inj hfields
      exact ⟨h₁.symm, (List.cons.inj h₂).1.symm⟩
    have hopts : optionsOf line = parse f.opts := optionsOf_of_words hfields
    have hmissing : missing mountPath requested line = requested.filter fun o => o ∉ optionsOf line := by
      rw [missing_of_readFields hread hmount, hopts]
    have hfits : Fits requested line ↔ (missing mountPath requested line).Nodup := by simp [Fits, hreadable, hmissing]
    rw [hfits]
    by_cases hnil : missing mountPath requested line = []
    · rw [hsame (by simp [hardenLine, hread, hnil]), hnil]
      refine iff_of_true (fun o ho => ?_) List.nodup_nil
      by_contra hmem
      have hin : o ∈ missing mountPath requested line := by
        rw [hmissing]
        simp [ho, hmem]
      rw [hnil] at hin
      cases hin
    · have hline : hardenLine mountPath requested line = f.line (parse f.opts ++ missing mountPath requested line) := by
        simp [hardenLine, hread, hnil]
      obtain ⟨hword, hparse⟩ := options_word hvalid hread hnil
      have hnew := words_line hread hword
      have hnewopts : optionsOf (hardenLine mountPath requested line) =
        optionsOf line ++ missing mountPath requested line := by
        rw [hline, optionsOf_of_words hnew, hparse, hopts]
      have hapart : ∀ o ∈ missing mountPath requested line, o ∉ optionsOf line := by
        intro o ho
        rw [hmissing] at ho
        simpa using (List.mem_filter.mp ho).2
      rw [← once_append_iff hapart, ← hnewopts]
      refine ⟨fun h => h.once, fun honce => ⟨?_, ?_, ⟨_, hnewopts, fun o => mem_missing⟩, fun o ho => ?_, honce⟩⟩
      · rw [hline, hnew, hfields]
        rfl
      · rw [hline, hnew, hfields]
        rfl
      · rw [hnewopts, hmissing]
        by_cases hmem : o ∈ optionsOf line
        · exact List.mem_append_left _ hmem
        · exact List.mem_append_right _ (by simp [ho, hmem])

end Loop

/-! ## The file -/

/-- What a run that succeeds leaves. -/
theorem addFstabOptions_ok {env : Env} (henv : env.Reliable) {mountPath : Str} {requested : List Str}
    (hvalid : ∀ o ∈ requested, isValidMountOption (.str o) = true) {s s' : Sys}
    (h : addFstabOptions env mountPath requested s = (.ok (.ok ()), s')) :
    s'.linesAt fstab = (s.linesAt fstab).map (hardenLine mountPath requested) ∧
      ((∀ line ∈ s.linesAt fstab, missing mountPath requested line = []) → s'.disk = s.disk ∧
      s'.effects = s.effects) := by
  unfold addFstabOptions at h
  obtain ⟨link, s₁, hlink, h⟩ := Act.of_bind_ok h
  obtain rfl : s.tick = s₁ := by
    rw [isSymlink_apply] at hlink
    exact (Prod.mk.inj hlink).2
  cases link with
  | true => cases h
  | false =>
    rw [if_neg Bool.false_ne_true] at h
    obtain ⟨opened, s₂, hopen, h⟩ := Act.of_bind_ok h
    rw [ioOpenRead_reliable henv] at hopen
    obtain rfl : s.tick.tick = s₂ := (Prod.mk.inj hopen).2
    cases opened with
    | error err => cases h
    | ok u =>
      obtain ⟨lines, s₃, hlines, h⟩ := Act.of_bind_ok h
      rw [fileLines_reliable henv] at hlines
      obtain ⟨hread, rfl⟩ := Prod.mk.inj hlines
      obtain rfl : s.linesAt fstab = lines := Except.ok.inj hread
      dsimp only at h
      obtain ⟨hnew, hmodified, hfound⟩ := fstabLoop_spec mountPath requested (s.linesAt fstab) ⟨[], false, false⟩ nofun
      rw [List.nil_append] at hnew
      cases hmod : (fstabLoop mountPath requested (s.linesAt fstab) ⟨[], false, false⟩).modified with
      | false =>
        rw [hmod, Bool.not_false, Bool.or_true, if_pos rfl] at h
        cases h
        have hsame : ∀ line ∈ s.linesAt fstab, hardenLine mountPath requested line = line := by
          intro line hline
          have hnone := (hmodified.mp hmod).2 line hline
          unfold hardenLine
          split
          · rfl
          · rw [if_pos hnone]
        exact ⟨((List.map_congr_left hsame).trans (List.map_id _)).symm, fun _ => ⟨rfl, rfl⟩⟩
      | true =>
        rw [hmod, hfound hmod, Bool.not_true, Bool.or_false, if_neg Bool.false_ne_true, hnew] at h
        have hwritten : Lines ((s.linesAt fstab).map (hardenLine mountPath requested)) := by
          intro line hline
          obtain ⟨old, hold, rfl⟩ := List.mem_map.mp hline
          exact newline_hardenLine hvalid (lines_linesAt s fstab old hold)
        refine ⟨(writeLinesAtomically_reliable henv hwritten h).2, fun hnone => ?_⟩
        rw [hmodified.mpr ⟨rfl, hnone⟩] at hmod
        cases hmod

/-- **Hardening an fstab**: the entries of the mount point come out hardened and the other lines unchanged exactly if
all entries of the mount point fit; a second run changes nothing. -/
theorem fstab_hardened_iff {env : Env} (henv : env.Reliable) {mountPath : Str} {requested : List Str}
    (hvalid : ∀ o ∈ requested, isValidMountOption (.str o) = true) {s s' : Sys}
    (h : addFstabOptions env mountPath requested s = (.ok (.ok ()), s')) :
    (List.Forall₂ (fun old new => (EntryOf mountPath old → Hardened requested old new) ∧
      (¬EntryOf mountPath old → new = old))
        (s.linesAt fstab) (s'.linesAt fstab) ↔ ∀ line ∈ s.linesAt fstab, EntryOf mountPath line → Fits requested line) ∧
      ∀ s'', addFstabOptions env mountPath requested s' = (.ok (.ok ()), s'') →
        s''.disk = s'.disk ∧ s''.effects = s'.effects := by
  obtain ⟨hlines, -⟩ := addFstabOptions_ok henv hvalid h
  refine ⟨?_, fun s'' h' => (addFstabOptions_ok henv hvalid h').2 fun line hline => ?_⟩
  · rw [hlines, List.forall₂_map_right_iff, List.forall₂_same]
    refine forall₂_congr fun line _ => ?_
    constructor
    · rintro ⟨hentries, -⟩ hentry
      exact (hardened_iff hvalid hentry).mp (hentries hentry)
    · exact fun hfits => ⟨fun hentry => (hardened_iff hvalid hentry).mpr (hfits hentry), hardenLine_of_not_entry⟩
  · rw [hlines] at hline
    obtain ⟨old, -, rfl⟩ := List.mem_map.mp hline
    exact missing_hardenLine hvalid old

/-- An fstab with an entry for `/tmp`, and an option for it. -/
def tmpFstab : Sys := .oneFile fstab "/dev/sda1 /tmp ext4 defaults 0 0\n"

def nodev : List Str := ["nodev"]

theorem fstab_hardened_tmp : ∃ s' s'', addFstabOptions calmEnv "/tmp" nodev tmpFstab = (.ok (.ok ()), s') ∧
    addFstabOptions calmEnv "/tmp" nodev s' = (.ok (.ok ()), s'') ∧ s''.effects = s'.effects := by
  have hrun : (addFstabOptions calmEnv "/tmp" nodev tmpFstab).1 = .ok (.ok ()) := by decide +kernel
  have hrun' : (addFstabOptions calmEnv "/tmp" nodev (addFstabOptions calmEnv "/tmp" nodev tmpFstab).2).1 =
    .ok (.ok ()) := by
    decide +kernel
  have hvalid : ∀ o ∈ nodev, isValidMountOption (.str o) = true := by
    intro o ho
    rw [List.mem_singleton.mp ho]
    decide +kernel
  exact ⟨_, _, run_of_fst hrun, run_of_fst hrun',
    ((fstab_hardened_iff calmEnv_reliable hvalid (run_of_fst hrun)).2 _ (run_of_fst hrun')).2⟩

theorem valid_of_invalidOption : ∀ {i : Nat} {options : List Value}, invalidOption i options = none →
    ∀ v ∈ options, isValidMountOption (.str v.tostring) = true
  | _, [], _ => nofun
  | i, option :: options, h => by
    rw [invalidOption] at h
    split at h
    · next hvalid =>
      intro v hv
      rcases List.mem_cons.mp hv with rfl | hv
      · unfold isValidMountOption at hvalid
        split at hvalid
        · exact hvalid
        · cases hvalid
      · exact valid_of_invalidOption h v hv
    · cases h

/-- A success of `remount` is one of the live mount and of the change to the file, for options that are valid. -/
theorem remount_ok {env : Env} {osExecute : Str → Value × Value} {params : Value} {s s' : Sys}
    (h : remount env osExecute params s = (.ok (.ok ()), s')) : ∃ mountPath, params.field "path" = .str mountPath ∧
      (∀ o ∈ (params.field "add_options").ipairs.map Value.tostring, isValidMountOption (.str o) = true) ∧
      (∃ cmd, run osExecute cmd = .ok ()) ∧
      addFstabOptions env mountPath ((params.field "add_options").ipairs.map Value.tostring) s =
      (.ok (.ok ()), s') := by
  unfold remount at h
  dsimp only at h
  split at h
  · cases h
  · cases hpath : params.field "path" with
    | str mountPath =>
      rw [hpath] at h
      dsimp only at h
      split at h
      · cases h
      · split at h
        · cases h
        · cases hoptions : invalidOption 1 (params.field "add_options").ipairs with
          | some i =>
            rw [hoptions] at h
            cases h
          | none =>
            rw [hoptions] at h
            refine ⟨mountPath, rfl, fun o ho => ?_, ?_⟩
            · obtain ⟨v, hv, rfl⟩ := List.mem_map.mp ho
              exact valid_of_invalidOption hoptions v hv
            · obtain ⟨r, s₁, hadd, h⟩ := Act.of_bind_ok h
              generalize hlive : run osExecute _ = live at h
              rcases r with err | ⟨⟩ <;> rcases live with liveErr | ⟨⟩
              case ok.ok =>
                cases h
                exact ⟨⟨_, hlive⟩, hadd⟩
              all_goals cases h
    | _ =>
      rw [hpath] at h
      cases h

end Mounts
end Seharden
