import Loongshield.Lib.Shell
import Loongshield.Seharden.Text
import Loongshield.Lua.Rest

/-!
# `text.shell_escape` and the shell

The replacement puts a text between quotes as `Shell.singleQuote` does, so the shell reads it back as one word.

* `shellEscape_eq`: what `shell_escape` computes.
* `shell_escape_word`: the word the shell reads, in any command line.
-/

namespace Seharden

open Lua Lua.Pattern

/-- A replacement of the characters of a class, one by one, without a capture. -/
theorem gsubRest_single {c : Single} {f : List Str → Str} {fuel : Nat} {s : Str} (h : s.length < fuel) :
    gsubRest [.single c .one] f fuel s = s.flatMap fun x => if c.test x then f [[x]] else [x] := by
  refine gsubRest_one rfl (fun x s hx => ⟨[], ?_, by simp [texts]⟩) (fun x s hx => ?_) h
  · rw [matchRest, matchRest, if_pos hx]
  · rw [matchRest, matchRest, hx, if_neg Bool.false_ne_true]

/-- What `shell_escape` computes. -/
theorem shellEscape_eq (s : Str) : shellEscape s = Shell.singleQuote s := by
  have hpat : compile "'" = [.single (.lit Shell.quote) .one] := rfl
  have hgsub : gsub s "'" (fun _ => "'\\''") = .ok (s.flatMap Shell.quoteChar) := by
    rw [gsub_eq (by decide) hpat rfl, gsubRest_single (Nat.lt_succ_self _)]
    congr 2
    funext x
    rw [Shell.quoteChar]
    by_cases hx : x = Shell.quote
    · subst hx
      rfl
    · have htest : (Single.lit Shell.quote).test x = false := beq_false_of_ne (Ne.symm hx)
      rw [if_neg hx, htest]
      rfl
  unfold shellEscape substitute
  rw [hgsub]
  rfl

/-- **Shell quoting is injective and safe.** In the command line that the shell receives, an escaped text is one word
that the shell reads as the text itself, at the end of the line or whatever follows after a blank; and two texts are
never escaped alike. -/
theorem shell_escape_word (s : Str) (h : Char.ofNat 0 ∉ s) :
    Shell.readWord (Shell.received (shellEscape s)) = some (s, []) ∧
    (∀ blank ∈ [' ', '\t'], ∀ rest : Str, Shell.readWord (Shell.received (shellEscape s ++ blank :: rest)) =
      some (s, blank :: Shell.received rest)) ∧
    ∀ s' : Str, shellEscape s = shellEscape s' → s = s' := by
  rw [shellEscape_eq]
  refine ⟨?_, ?_, ?_⟩
  · have hrecv := @Shell.received_append _ [] (Shell.singleQuote_no_nul h)
    rw [List.append_nil] at hrecv
    rw [hrecv]
    exact @Shell.readWord_singleQuote s [] (by simp)
  · intro blank hblank rest
    have hb : blank ≠ Char.ofNat 0 ∧ Shell.endsWord blank = true := by
      rw [List.mem_cons, List.mem_singleton] at hblank
      rcases hblank with rfl | rfl <;> decide
    have htail : Shell.received (blank :: rest) = blank :: Shell.received rest := by
      rw [Shell.received, List.takeWhile_cons_of_pos (by simpa using hb.1)]
      rfl
    rw [Shell.received_append (Shell.singleQuote_no_nul h), htail]
    exact Shell.readWord_singleQuote s (by simpa using hb.2)
  · intro s' hs
    rw [shellEscape_eq] at hs
    exact Shell.singleQuote_injective hs

/-- A text made of a quote, a backslash and a dollar sign. -/
theorem shell_escape_word_hostile :
    Shell.readWord (Shell.received (shellEscape "it's $(\\" ++ " 2>&1")) = some ("it's $(\\".toList, " 2>&1".toList) :=
  (shell_escape_word "it's $(\\" (by decide)).2.1 ' ' (by decide) "2>&1"

end Seharden
