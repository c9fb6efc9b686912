import Loongshield.Seharden.Trim

/-!
# `lua_lsm/securityfs.lua`

The files of the kernel interface. A file is written through a buffered stream: the whole blocks of a text reach the
kernel when it is written, and the rest when the stream is closed.

* `writeFile`, `loadSource`, `unload`: what is returned, and what the kernel accepted.
* `isLoaded`: whether the listing of the loaded modules has a name.
-/

namespace LuaLsm

open Lua Pattern Seharden

/-! ## Reading and writing -/

/-- How opening and reading a file goes. -/
inductive ReadIo
  | done
  | openFails (err : Str)
  | readFails
  deriving DecidableEq

/-- `read_file`: a failed read gives the empty text. -/
def readFile (io : ReadIo) (content : Option Str) : Except Str Str :=
  match io, content with
  | .openFails err, _ => .error err
  | _, none => .error "No such file or directory"
  | .readFails, some _ => .ok []
  | .done, some content => .ok content

/-- How writing a file goes: whether it can be opened, the size of the stream's blocks, and the kernel's answer to a
`write` call after those it accepted. -/
structure WriteIo where
  openErr : Option Str
  blockSize : Nat
  kernel : List Str → Str → Option Str

namespace WriteIo

variable (io : WriteIo)

/-- What reaches the kernel while a text is written: its whole blocks. -/
def blocks (content : Str) : Str := content.take (content.length / io.blockSize * io.blockSize)

/-- What stays in the buffer until the stream is closed. -/
def buffered (content : Str) : Str := content.drop (content.length / io.blockSize * io.blockSize)

/-- A `write` call, if there is something to write: the error, or the calls the kernel has accepted. -/
def call (accepted : List Str) (data : Str) : Except Str (List Str) :=
  if data = [] then .ok accepted
  else match io.kernel accepted data with
    | some err => .error err
    | none => .ok (accepted ++ [data])

/-- `file:write(content)` on a new stream. -/
def fwrite (content : Str) : Except Str (List Str) := io.call [] (io.blocks content)

/-- `file:close()` after it. -/
def fclose (accepted : List Str) (content : Str) : Except Str (List Str) := io.call accepted (io.buffered content)

end WriteIo

/-- `write_file`: what it returns, and the texts that the kernel accepted. The result of `file:close()` is not used. -/
def writeFile (io : WriteIo) (content : Str) : Except Str Unit × List Str :=
  match io.openErr with
  | some err => (.error err, [])
  | none => match io.fwrite content with
    | .error err => (.error err, [])
    | .ok accepted => match io.fclose accepted content with
      | .error _ => (.ok (), accepted)
      | .ok accepted => (.ok (), accepted)

/-- `load_source`; `cap` is what `require_cap_mac_admin` gives. -/
def loadSource (cap : Except Str Unit) (io : WriteIo) (source : Str) : Except Str Unit × List Str :=
  match cap with
  | .error err => (.error ("CAP_MAC_ADMIN required to load Lua-LSM policy: " ++ err), [])
  | .ok () => writeFile io source

/-- `unload`. -/
def unload (cap : Except Str Unit) (io : WriteIo) (name : Str) : Except Str Unit × List Str :=
  if name = [] then (.error "module name is required", [])
  else match cap with
    | .error err => (.error ("CAP_MAC_ADMIN required to unload Lua-LSM policy: " ++ err), [])
    | .ok () => writeFile io (name ++ "\n")

/-! ## The listing of the modules -/

/-- A module of the listing. -/
structure Module where
  name : Str
  license : Option Str
  size : Option Flt
  nlsm : Option Flt
  nload : Option Flt
  shdict : Option Flt
  kvnode : Option Flt
  author : Option Str
  raw : Str

/-- `parse_module_line`. -/
def parseModuleLine (line : Str) : Option Module := do
  let first ← firstCapture line "^%s*(%S+)"
  if first = "modules" ∨ first = "name" ∨ isMatch first "^%-+$" = true then none
  else match matchCaptures line "^%s*(%S+)%s+(%S+)%s+(%d+)%s+(%d+)%s+(%d+)%s+(%d+)%s+(%d+)%s*(.*)$" with
    | some [name, license, size, nlsm, nload, shdict, kvnode, author] =>
      some { name, license := some license, size := strscan size, nlsm := strscan nlsm, nload := strscan nload
             shdict := strscan shdict, kvnode := strscan kvnode
             author := if author = [] then none else some author, raw := line }
    | _ =>
      some { name := first, license := none, size := none, nlsm := none, nload := none, shdict := none, kvnode := none
             author := none, raw := line }

/-- `parse_modules`. -/
def parseModules (raw : Str) : List Module := (captures raw "[^\r\n]+").filterMap parseModuleLine

/-- `is_loaded`, on what reading the listing gives; `none` for an unreadable one. A name that is no string is none of
a module. -/
def isLoaded (name : Option Str) (raw : Except Str Str) : Option Bool :=
  match raw with
  | .error _ => none
  | .ok raw => some ((parseModules raw).any fun m => some m.name == name)

/-! ## The first column -/

/-- A name that the parser of the listing gives back: one word, and not one of the words it skips. -/
def Plain (name : Str) : Prop :=
  name ≠ [] ∧ (∀ x ∈ name, isspace x = false) ∧ name ≠ "modules" ∧ name ≠ "name" ∧ ∃ x ∈ name, x ≠ '-'

/-- The columns after the name. -/
def columnItems : List Item :=
  .single blank .plus :: .capOpen :: .single nonBlank .plus :: .capClose ::
    (List.replicate 5 [.single blank .plus, .capOpen, .single (.cls 'd') .plus, .capClose]).flatten ++
      [.single blank .star, .capOpen, .single .any .star, .capClose, .atEnd]

theorem compile_first : compile "%s*(%S+)" = [.single blank .star, .capOpen, .single nonBlank .plus, .capClose] := rfl

theorem compile_line : compile "%s*(%S+)%s+(%S+)%s+(%d+)%s+(%d+)%s+(%d+)%s+(%d+)%s+(%d+)%s*(.*)$" =
    .single blank .star :: .capOpen :: .single nonBlank .plus :: .capClose :: columnItems := rfl

theorem compile_dashes : compile "%-+$" = [.single (.cls '-') .plus, .atEnd] := rfl

section Row

variable {name : Str} (hne : name ≠ []) (hblank : ∀ x ∈ name, isspace x = false) (columns : Str)

include hne hblank

theorem head_row : ∀ x, (name ++ ' ' :: columns).head? = some x → blank.test x = false := by
  intro x hx
  cases name with
  | nil => exact absurd rfl hne
  | cons y name =>
    obtain rfl : y = x := Option.some.inj hx
    exact hblank y List.mem_cons_self

/-- The first word of a row is its name. -/
theorem firstCapture_row : firstCapture (name ++ ' ' :: columns) "^%s*(%S+)" = some name := by
  have hword : ∀ x ∈ name, nonBlank.test x = true := fun x hx => by rw [nonBlank_test, hblank x hx]; rfl
  have hcap : matchRest [.capOpen, .single nonBlank .plus, .capClose] (name ++ ' ' :: columns) [] =
      some (' ' :: columns, [⟨name ++ ' ' :: columns, some name.length⟩]) := by
    refine matchRest_capPlus hne hword (fun x hx => ?_) rfl
    obtain rfl : ' ' = x := Option.some.inj hx
    rfl
  have hrow : matchRest [.single blank .star, .capOpen, .single nonBlank .plus, .capClose] (name ++ ' ' :: columns) [] =
      some (' ' :: columns, [⟨name ++ ' ' :: columns, some name.length⟩]) := by
    rw [matchRest]
    exact @longest_run blank _ _ _ _ (head_row hne hblank columns) hcap [] fun x hx => absurd hx List.not_mem_nil
  have hfirst : firstCapture (name ++ ' ' :: columns) "^%s*(%S+)" = _ := firstCapture_eq rfl compile_first rfl _
  rw [hfirst, hrow]
  simp [texts, Seg.text]

/-- So is the first capture of the whole row. -/
theorem name_of_row {found : Str} {more : List Str}
    (h : matchCaptures (name ++ ' ' :: columns)
      "^%s*(%S+)%s+(%S+)%s+(%d+)%s+(%d+)%s+(%d+)%s+(%d+)%s+(%d+)%s*(.*)$" = some (found :: more)) : found = name := by
  have hcapt : matchCaptures (name ++ ' ' :: columns)
      "^%s*(%S+)%s+(%S+)%s+(%d+)%s+(%d+)%s+(%d+)%s+(%d+)%s+(%d+)%s*(.*)$" = _ :=
    matchCaptures_anchored rfl compile_line rfl
  rw [hcapt] at h
  obtain ⟨p, hmatch, htexts⟩ := Option.map_eq_some_iff.mp h
  rw [matchRest] at hmatch
  obtain ⟨blanks, r, hsplit, hblanks, hmatch⟩ := longest_split hmatch
  -- No blanks are before the name.
  obtain rfl : blanks = [] := by
    cases blanks with
    | nil => rfl
    | cons y blanks =>
      have hy := head_row hne hblank columns y (by rw [hsplit]; rfl)
      rw [hblanks y List.mem_cons_self] at hy
      cases hy
  rw [List.nil_append] at hsplit
  subst hsplit
  obtain ⟨run, rest, hrun, -, hword, hmatch⟩ := of_matchRest_capPlus hmatch
  obtain ⟨tail, htail⟩ := matchRest_closed hmatch
  have hfound : found = run := by
    rw [texts, htail] at htexts
    rw [hrun] at htexts
    simpa [Seg.text] using (List.cons.inj htexts).1.symm
  -- A blank follows the run, so that it is the whole name.
  cases rest with
  | nil => cases hmatch
  | cons y rest =>
    have hy : blank.test y = true := by
      rw [columnItems, List.cons_append, matchRest] at hmatch
      split at hmatch
      · assumption
      · cases hmatch
    have hrest : nonBlank.test y = false := by
      rw [nonBlank_test, show isspace y = true from hy]
      rfl
    have htake : ∀ {a b : Str} {z : Char}, (∀ x ∈ a, nonBlank.test x = true) → nonBlank.test z = false →
        (a ++ z :: b).takeWhile nonBlank.test = a := by
      intro a b z ha hz
      rw [List.takeWhile_append_of_pos ha, List.takeWhile_cons, if_neg (by rw [hz]; exact Bool.false_ne_true),
        List.append_nil]
    have hname : (name ++ ' ' :: columns).takeWhile nonBlank.test = name :=
      htake (fun x hx => by rw [nonBlank_test, hblank x hx]; rfl) rfl
    rw [hrun, htake hword hrest] at hname
    rw [hfound, hname]

end Row

theorem not_dashes {name : Str} (h : ∃ x ∈ name, x ≠ '-') : isMatch name "^%-+$" = false := by
  rw [Bool.eq_false_iff]
  intro hmatch
  unfold isMatch at hmatch
  have hm : strMatch name "^%-+$" = _ := strMatch_anchored rfl compile_dashes rfl name
  rw [hm] at hmatch
  cases hrest : matchRest [.single (.cls '-') .plus, .atEnd] name [] with
  | none =>
    rw [hrest] at hmatch
    cases hmatch
  | some p =>
    obtain ⟨x, hx, hne⟩ := h
    cases name with
    | nil => cases hx
    | cons y name =>
      rw [matchRest] at hrest
      split at hrest
      · next hy =>
        obtain ⟨run, r, rfl, hrun, hend⟩ := longest_split hrest
        rw [matchRest] at hend
        split at hend
        · next hnil =>
          rw [hnil, List.append_nil] at hx
          rcases List.mem_cons.mp hx with rfl | hx
          · exact hne (eq_of_beq hy).symm
          · exact hne (eq_of_beq (hrun x hx)).symm
        · cases hend
      · cases hrest

/-- The row of a plain name is parsed to a module of that name. -/
theorem parseModuleLine_row {name : Str} (h : Plain name) (columns : Str) :
    ∃ m, parseModuleLine (name ++ ' ' :: columns) = some m ∧ m.name = name := by
  obtain ⟨hne, hblank, hmodules, hname, hdash⟩ := h
  have hskip : ¬ (name = "modules" ∨ name = "name" ∨ isMatch name "^%-+$" = true) := by
    rintro (hm | hn | hd)
    · exact hmodules hm
    · exact hname hn
    · rw [not_dashes hdash] at hd
      cases hd
  unfold parseModuleLine
  rw [firstCapture_row hne hblank columns]
  dsimp only [Option.bind_eq_bind, Option.bind_some]
  rw [if_neg hskip]
  split
  · next hmatch => exact ⟨_, rfl, name_of_row hne hblank columns hmatch⟩
  · exact ⟨_, rfl, rfl⟩

/-- A loaded module as the kernel lists it: its name, a blank, and the other columns. -/
structure Row where
  name : Str
  columns : Str
  deriving DecidableEq

/-- The lines above the modules. -/
def listingHeader : Str :=
  "modules for lua-lsm\nname                 license      size nlsm nload shdict kvnode author\n" ++
    "------------------------------------------------------------------------------------------\n"

/-- The text of the file `modules`. -/
def listing (rows : List Row) : Str :=
  listingHeader ++ rows.flatMap fun r => r.name ++ ' ' :: (r.columns ++ ['\n'])

/-- What is above a row ends with a line. -/
theorem listing_eol (rows : List Row) : ∃ above, listing rows = above ++ ['\n'] := by
  rcases List.eq_nil_or_concat rows with rfl | ⟨rows, r, rfl⟩
  · refine ⟨listingHeader.dropLast, ?_⟩
    rw [listing, List.flatMap_nil, List.append_nil]
    decide +kernel
  · refine ⟨listing rows ++ (r.name ++ ' ' :: r.columns), ?_⟩
    simp [listing, List.flatMap_append]

/-- **A plain name that is listed is found.** -/
theorem isLoaded_listing {name : Str} (h : Plain name) {rows : List Row} (hmem : name ∈ rows.map Row.name) :
    isLoaded (some name) (.ok (listing rows)) = some true := by
  obtain ⟨row, hrow, rfl⟩ := List.mem_map.mp hmem
  obtain ⟨before, after, rfl⟩ := List.append_of_mem hrow
  obtain ⟨above, habove⟩ := listing_eol before
  have htext : listing (before ++ row :: after) =
      above ++ '\n' :: (row.name ++ ' ' :: (row.columns ++ '\n' :: after.flatMap fun r =>
        r.name ++ ' ' :: (r.columns ++ ['\n']))) := by
    have hfront : listing (before ++ row :: after) =
        listing before ++ (row :: after).flatMap fun r => r.name ++ ' ' :: (r.columns ++ ['\n']) := by
      simp [listing, List.flatMap_append]
    rw [hfront, habove]
    simp
  have hline : ∃ columns, row.name ++ ' ' :: columns ∈ captures (listing (before ++ row :: after)) "[^\r\n]+" := by
    have hname : ∀ x ∈ row.name, notEol.test x = true := by
      intro x hx
      have hblank := h.2.1 x hx
      refine notEol_test.mpr ⟨?_, ?_⟩ <;>
      · rintro rfl
        revert hblank
        decide
    rw [captures_lines, htext, words_append_cons (by decide)]
    generalize row.columns ++ '\n' :: _ = rest
    cases hn : row.name with
    | nil => exact absurd hn h.1
    | cons x name =>
      rw [hn] at hname
      refine ⟨rest.takeWhile notEol.test, List.mem_append_right _ ?_⟩
      rw [List.cons_append, words_cons _ (hname x List.mem_cons_self),
        List.takeWhile_append_of_pos fun y hy => hname y (List.mem_cons_of_mem x hy), List.takeWhile_cons,
        if_pos (by decide)]
      exact List.mem_cons_self
  obtain ⟨columns, hline⟩ := hline
  obtain ⟨m, hm, hname⟩ := parseModuleLine_row h columns
  have hmem : m ∈ parseModules (listing (before ++ row :: after)) := List.mem_filterMap.mpr ⟨_, hline, hm⟩
  exact congrArg some (List.any_eq_true.mpr ⟨m, hmem, beq_iff_eq.mpr (congrArg some hname)⟩)

/-! ## What the kernel accepted -/

/-- The stream is opened, the kernel accepts what is written at once (if anything is), and rejects the rest of the text
when the stream is closed. -/
def FlushRejected (io : WriteIo) (content : Str) : Prop :=
  io.openErr = none ∧ ∃ accepted, io.fwrite content = .ok accepted ∧ io.buffered content ≠ [] ∧
    (io.kernel accepted (io.buffered content)).isSome = true

/-- A success is reported only if the kernel has accepted all of the text. -/
def Reported (result : Except Str Unit × List Str) (content : Str) : Prop :=
  result.1 = .ok () → result.2.flatten = content

theorem WriteIo.call_ok {io : WriteIo} {accepted accepted' : List Str} {data : Str}
    (h : io.call accepted data = .ok accepted') : accepted'.flatten = accepted.flatten ++ data := by
  unfold WriteIo.call at h
  split at h
  · next hdata =>
    cases h
    rw [hdata, List.append_nil]
  · split at h
    · cases h
    · cases h
      simp

theorem WriteIo.call_error {io : WriteIo} {accepted : List Str} {data : Str} :
    (∃ err, io.call accepted data = .error err) ↔ data ≠ [] ∧ (io.kernel accepted data).isSome = true := by
  unfold WriteIo.call
  split
  · next hdata => simp [hdata]
  · next hdata =>
    split
    · next err hkernel => simp [hdata, hkernel]
    · next hkernel => simp [hkernel]

/-- Writing reports the truth exactly if the kernel does not reject the rest of the text at the end. -/
theorem reported_writeFile (io : WriteIo) (content : Str) :
    Reported (writeFile io content) content ↔ ¬ FlushRejected io content := by
  have htext : io.blocks content ++ io.buffered content = content := List.take_append_drop _ _
  unfold Reported FlushRejected writeFile
  cases hopen : io.openErr with
  | some err => exact iff_of_true (fun h => by cases h) fun h => by cases h.1
  | none =>
    dsimp only
    cases hwrite : io.fwrite content with
    | error err => exact iff_of_true (fun h => by cases h) fun ⟨_, accepted, h, _⟩ => by cases h
    | ok accepted =>
      have haccepted : accepted.flatten = io.blocks content := WriteIo.call_ok hwrite
      dsimp only
      cases hclose : io.fclose accepted content with
      | error err =>
        obtain ⟨hrest, hkernel⟩ := WriteIo.call_error.mp ⟨err, hclose⟩
        refine iff_of_false (fun h => hrest ?_) (not_not_intro ⟨rfl, accepted, rfl, hrest, hkernel⟩)
        have hall : accepted.flatten = content := h rfl
        rw [haccepted] at hall
        rw [hall] at htext
        exact List.append_right_eq_self.mp htext
      | ok accepted' =>
        have haccepted' : accepted'.flatten = accepted.flatten ++ io.buffered content := WriteIo.call_ok hclose
        refine iff_of_true (fun _ => ?_) ?_
        · rw [haccepted', haccepted, htext]
        · rintro ⟨-, accepted₁, hsame, hrejected⟩
          obtain rfl : accepted = accepted₁ := Except.ok.inj hsame
          obtain ⟨err, herr⟩ := WriteIo.call_error.mpr hrejected
          rw [WriteIo.fclose, herr] at hclose
          cases hclose

end LuaLsm
