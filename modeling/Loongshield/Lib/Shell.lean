import Mathlib.Data.List.Basic

/-!
# Words of a shell command

How the POSIX shell reads a word: a quote preserves everything up to the next quote, a backslash outside quotes escapes
one character (or joins two lines), adjacent parts are joined; a blank, a newline or an operator ends the word. What the
shell would expand in an unquoted part (`$`, patterns, `~`, ...) or in double quotes has no reading.

- `readWord`: the word at the front of a command line, and what is left;
- `singleQuote`: a text between quotes, its own quotes escaped outside them;
- `readWord_singleQuote`: reading gives the text back;
- `received`: the command line as the shell gets it, a C string.
-/

namespace Shell

/-! ## Reading -/

def quote : Char := Char.ofNat 39
def backslash : Char := Char.ofNat 92

/-- Blanks, newlines and operators: they end a word. -/
def endsWord (c : Char) : Bool := [' ', '\t', '\n', ';', '&', '|', '<', '>', '(', ')'].contains c

/-- Characters that the shell expands, or that begin a comment or double quotes. -/
def expands (c : Char) : Bool := ['"', '$', Char.ofNat 96, '*', '?', '[', '~', '#', '=', '%', '!', '{', '}'].contains c

/-- Where the reader is: outside quotes, between quotes, or behind a backslash. -/
inductive Mode
  | bare
  | quoted
  | escaped

/-- A character put before a word. -/
def addChar (c : Char) (r : List Char × List Char) : List Char × List Char := (c :: r.1, r.2)

/-- The rest of a word, and the rest of the line. -/
def readParts : Mode → List Char → Option (List Char × List Char)
  | .bare, [] => some ([], [])
  | .quoted, [] => none
  | .escaped, [] => none
  | .bare, c :: cs =>
    if c = quote then readParts .quoted cs
    else if c = backslash then readParts .escaped cs
    else if endsWord c then some ([], c :: cs)
    else if expands c then none
    else (readParts .bare cs).map (addChar c)
  | .quoted, c :: cs => if c = quote then readParts .bare cs else (readParts .quoted cs).map (addChar c)
  | .escaped, c :: cs => if c = '\n' then readParts .bare cs else (readParts .bare cs).map (addChar c)

/-- The word that a line begins with, and what is left of the line. -/
def readWord : List Char → Option (List Char × List Char)
  | [] => none
  | c :: cs => if endsWord c then none else readParts .bare (c :: cs)

/-- A command line as the shell gets it: up to the first NUL. -/
def received (line : List Char) : List Char := line.takeWhile (· ≠ Char.ofNat 0)

/-! ## Quoting -/

/-- A character inside quotes: a quote ends them, stands escaped, and opens them again. -/
def quoteChar (c : Char) : List Char := if c = quote then [quote, backslash, quote, quote] else [c]

/-- A text between quotes. -/
def singleQuote (s : List Char) : List Char := quote :: (s.flatMap quoteChar ++ [quote])

theorem readParts_quote (cs : List Char) : readParts .quoted (quote :: cs) = readParts .bare cs := by
  rw [readParts, if_pos rfl]

theorem readParts_quoted {c : Char} (h : c ≠ quote) (cs : List Char) :
    readParts .quoted (c :: cs) = (readParts .quoted cs).map (addChar c) := by
  rw [readParts, if_neg h]

theorem readParts_open (cs : List Char) : readParts .bare (quote :: cs) = readParts .quoted cs := by
  rw [readParts, if_pos rfl]

theorem readParts_escaped (cs : List Char) :
    readParts .bare (backslash :: quote :: cs) = (readParts .bare cs).map (addChar quote) := by
  rw [readParts, if_neg (by decide), if_pos rfl, readParts, if_neg (by decide)]

/-- One character of the text, quoted and read back between quotes. -/
theorem readParts_quoteChar (c : Char) (cs : List Char) :
    readParts .quoted (quoteChar c ++ cs) = (readParts .quoted cs).map (addChar c) := by
  unfold quoteChar
  split
  · next h =>
    subst h
    show readParts .quoted (quote :: backslash :: quote :: quote :: cs) = _
    rw [readParts_quote, readParts_escaped, readParts_open]
  · next h => exact readParts_quoted h cs

/-- Between quotes, the quoted text up to the closing quote. -/
theorem readParts_text (s line : List Char) :
    readParts .quoted (s.flatMap quoteChar ++ quote :: line) = (readParts .bare line).map fun r => (s ++ r.1, r.2) := by
  induction s with
  | nil =>
    rw [List.flatMap_nil, List.nil_append, readParts_quote]
    simp
  | cons c s ih =>
    rw [List.flatMap_cons, List.append_assoc, readParts_quoteChar, ih, Option.map_map]
    rfl

/-- After a quoted text the word goes on with what follows it. -/
theorem readWord_singleQuote_append (s line : List Char) :
    readWord (singleQuote s ++ line) = (readParts .bare line).map fun r => (s ++ r.1, r.2) := by
  have hline : singleQuote s ++ line = quote :: (s.flatMap quoteChar ++ quote :: line) := by simp [singleQuote]
  rw [hline, readWord, if_neg (by decide), readParts_open, readParts_text]

theorem readParts_end {line : List Char} (h : ∀ c ∈ line.head?, endsWord c = true) :
    readParts .bare line = some ([], line) := by
  cases line with
  | nil => rfl
  | cons c cs =>
    have hc : endsWord c = true := h c (by simp)
    have hq : c ≠ quote := by rintro rfl; revert hc; decide
    have hb : c ≠ backslash := by rintro rfl; revert hc; decide
    rw [readParts, if_neg hq, if_neg hb, if_pos hc]

/-- **A quoted text is one word**, whatever comes after the character that ends it. -/
theorem readWord_singleQuote (s : List Char) {line : List Char} (h : ∀ c ∈ line.head?, endsWord c = true) :
    readWord (singleQuote s ++ line) = some (s, line) := by
  rw [readWord_singleQuote_append, readParts_end h]
  simp

theorem singleQuote_injective : Function.Injective singleQuote := by
  intro s t h
  have hs := @readWord_singleQuote s [] (by simp)
  rw [h, readWord_singleQuote t (by simp)] at hs
  simpa using hs.symm

/-! ## The text that the shell gets -/

theorem received_append {text line : List Char} (h : Char.ofNat 0 ∉ text) :
    received (text ++ line) = text ++ received line := by
  refine List.takeWhile_append_of_pos fun c hc => ?_
  rw [decide_eq_true_eq]
  rintro rfl
  exact h hc

theorem singleQuote_no_nul {s : List Char} (h : Char.ofNat 0 ∉ s) : Char.ofNat 0 ∉ singleQuote s := by
  intro hmem
  simp only [singleQuote, List.mem_cons, List.mem_append, List.mem_flatMap, List.not_mem_nil, or_false] at hmem
  rcases hmem with h0 | ⟨c, hc, hcq⟩ | h0
  · exact absurd h0 (by decide)
  · unfold quoteChar at hcq
    split at hcq
    · exact absurd hcq (by decide)
    · rw [List.mem_singleton] at hcq
      exact h (hcq ▸ hc)
  · exact absurd h0 (by decide)

end Shell
