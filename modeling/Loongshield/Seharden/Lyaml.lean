import Loongshield.Lib.Act
import Loongshield.Lua.Pattern

/-!
# `lyaml.dump`

The YAML writer of `lyaml/init.lua` turns a value into events and gives them to the emitter, which is written in C and
is a parameter here. A string is asked what it would be read as, so that it can be quoted; these readers of
`lyaml/implicit.lua` compute with digits, and raise where one is missing: the text `00_` is taken for an octal number,
and its last digit is no number.

- `implicitScalar`: whether a text would be read as something else than a string;
- `dumpNode`, `lyamlDump`: the writer;
- `DumpFault`, `lyamlDump_ok_iff`: when it raises.
-/

namespace Seharden

open Lua

/-! ## `implicit.lua` -/

namespace Implicit

/-- `int`: the whole number that a text is. -/
def int (v : Value) : Option Rat :=
  match tonumber v with
  | some (.fin q) => if q.den = 1 then some q else none
  | _ => none

/-- A number that is computed with. -/
def operand (q : Option Rat) : Except Err Unit :=
  if q.isSome then .ok () else .error "attempt to perform arithmetic on a nil value"

/-- The numbers of a list of captures are computed with, in order. -/
def operands : List (List Value) → Except Err Unit
  | [] => .ok ()
  | caps :: found => do
    operand (int (caps.headD .nil))
    operands found

/-- `gsub(rest, pattern, function(digit) … int(digit) … end)`. -/
def digits (rest pattern : Str) : Except Err Unit := do
  let found ← gmatch rest pattern
  operands found

/-- A reader whose pattern has a sign and digits, each of which is computed with. -/
def digitwise (pattern digit value : Str) : Except Err Bool :=
  match strMatch value pattern with
  | .ok (some (_ :: .str rest :: _)) => (digits rest digit).map fun _ => true
  | _ => .ok false

/-- A reader whose pattern has a sign and a numeral, in which underscores are left out. -/
def whole (pattern value : Str) : Except Err Bool :=
  match strMatch value pattern with
  | .ok (some [.str sign, .str rest]) =>
    let r := int (.str (rest.filter (· ≠ '_')))
    if sign = "-" then (operand r).map fun _ => true else .ok r.isSome
  | _ => .ok false

/-- `null`. -/
def null (value : Str) : Except Err Bool := .ok (value ∈ (["", "~", "null", "Null", "NULL"] : List Str))

/-- `octal`. -/
def octal : Str → Except Err Bool := digitwise "^([+-]?)0_*([0-7][0-7_]*)$" "_*(.)"

/-- `decimal`. -/
def decimal : Str → Except Err Bool := whole "^([+-]?)_*([0-9][0-9_]*)$"

/-- `float`. -/
def float (value : Str) : Except Err Bool :=
  .ok ((strscan (value.filter (· ≠ '_'))).isSome && value.any fun c => c == '.' || c == 'e' || c == 'E')

/-- `bool`. -/
def bool (value : Str) : Except Err Bool :=
  .ok (value ∈ (["true", "True", "TRUE", "false", "False", "FALSE", "yes", "Yes", "YES", "no", "No", "NO", "on", "On",
    "ON", "off", "Off", "OFF"] : List Str))

/-- `inf`. -/
def inf (value : Str) : Except Err Bool :=
  .ok (value ∈ ([".inf", ".Inf", ".INF", "+.inf", "+.Inf", "+.INF", "-.inf", "-.Inf", "-.INF"] : List Str))

/-- `nan`. -/
def nan (value : Str) : Except Err Bool := .ok (value ∈ ([".nan", ".NaN", ".NAN"] : List Str))

/-- `hexadecimal`. -/
def hexadecimal : Str → Except Err Bool := whole "^([+-]?)(0x_*[0-9a-fA-F][0-9a-fA-F_]*)$"

/-- `binary`. -/
def binary : Str → Except Err Bool := digitwise "^([+-]?)0b_*([01][01_]+)$" "_*(.)"

/-- `sexagesimal`. -/
def sexagesimal : Str → Except Err Bool := digitwise "^([+-]?)([0-9]+:[0-5]?[0-9][:0-9]*)$" "([0-9]+):?"

/-- `sexfloat`. -/
def sexfloat : Str → Except Err Bool := digitwise "^([+-]?)([0-9]+:[0-5]?[0-9][:0-9]*)(%.[0-9]+)$" "([0-9]+):?"

/-- The readers, in the order in which they are asked. -/
def readers : List (Str → Except Err Bool) :=
  [null, octal, decimal, float, bool, inf, nan, hexadecimal, binary, sexagesimal, sexfloat]

/-- `anyof`: the first reader that gives a value. -/
def anyOf (value : Str) : List (Str → Except Err Bool) → Except Err Bool
  | [] => .ok false
  | reader :: rest => do
    if ← reader value then .ok true else anyOf value rest

end Implicit

/-- `implicit_scalar(value) ~= value`. -/
def implicitScalar (value : Str) : Except Err Bool := Implicit.anyOf value Implicit.readers

/-! ## The writer -/

/-- How a scalar is written. -/
inductive ScalarStyle
  | plain
  | singleQuoted
  | literal
deriving DecidableEq

/-- What the emitter gets. -/
inductive YamlEvent
  | streamStart
  | documentStart
  | mappingStart
  | mappingEnd
  | sequenceStart
  | sequenceEnd
  | scalar (value : Str) (style : ScalarStyle)
  | documentEnd
  | streamEnd
deriving DecidableEq

/-- `emit`. -/
def emit (event : YamlEvent) : Act (List YamlEvent) Err Unit := .step fun events => ((), events ++ [event])

/-- The keys of a table are `1, 2, …` in the order of `pairs`. -/
def isPureSequence (fs : List (Value × Value)) : Bool :=
  (fs.mapIdx fun i f => Value.rawEq f.1 (.num (i + 1))).all id

/-- `dump_scalar` on a string. -/
def dumpString (s : Str) : Act (List YamlEvent) Err Unit := do
  let quoted ← Act.lift (implicitScalar s)
  emit (.scalar s (if quoted then .singleQuoted else if '\n' ∈ s then .literal else .plain))

mutual

/-- `dump_node`. Nothing has an anchor, so nothing is written as an alias. -/
def dumpNode : Value → Act (List YamlEvent) Err Unit
  | .nil => .raise "cannot dump object of type 'nil'"
  | .func _ => .raise "cannot dump object of type 'function'"
  | .str s => dumpString s
  | .inf neg => emit (.scalar (if neg then "-.inf" else ".inf") .plain)
  | .nan => emit (.scalar ".nan" .plain)
  | .bool b => emit (.scalar (Value.tostring (.bool b)) .plain)
  | .num q => emit (.scalar (fmtNumber q) .plain)
  | .table _ fs _ =>
    if isPureSequence fs then do
      emit .sequenceStart
      dumpValues fs
      emit .sequenceEnd
    else do
      emit .mappingStart
      dumpFields fs
      emit .mappingEnd

/-- The loop of `dump_sequence`: the values under `1, 2, …`, which are all there are. -/
def dumpValues : List (Value × Value) → Act (List YamlEvent) Err Unit
  | [] => pure ()
  | (_, v) :: fs => do
    dumpNode v
    dumpValues fs

/-- The loop of `dump_mapping`. -/
def dumpFields : List (Value × Value) → Act (List YamlEvent) Err Unit
  | [] => pure ()
  | (k, v) :: fs => do
    dumpNode k
    dumpNode v
    dumpFields fs

end

/-- `dump` on a list of one document. -/
def dumpStream (v : Value) : Act (List YamlEvent) Err Unit := do
  emit .streamStart
  emit .documentStart
  dumpNode v
  emit .documentEnd
  emit .streamEnd

/-- `lyaml.dump({ v })`. The emitter is called for every event, so its error comes first. -/
def lyamlDump (emitter : List YamlEvent → Except Err Str) (v : Value) : Except Err Str := do
  let text ← emitter (dumpStream v []).2
  let _ ← (dumpStream v []).1
  .ok text

/-! ## When it raises -/

/-- A value that the writer raises on: a text that a reader of numbers trips over, a value that has no YAML, or a table
with one of these. The keys of a sequence are not written. -/
inductive DumpFault : Value → Prop
  | str {s : Str} {e : Err} (h : implicitScalar s = .error e) : DumpFault (.str s)
  | nil : DumpFault .nil
  | func {name : Str} : DumpFault (.func name)
  | key {r : Nat} {fs inh : List (Value × Value)} {f : Value × Value} (hseq : isPureSequence fs = false) (hf : f ∈ fs)
    (h : DumpFault f.1) : DumpFault (.table r fs inh)
  | value {r : Nat} {fs inh : List (Value × Value)} {f : Value × Value} (hf : f ∈ fs) (h : DumpFault f.2) :
    DumpFault (.table r fs inh)

section Fault

/-- A part of the writer that returns, whatever was emitted before. -/
def Succeeds (m : Act (List YamlEvent) Err Unit) : Prop := ∀ events, (m events).1 = .ok ()

/-- A part of the writer that raises, whatever was emitted before. -/
def Fails (m : Act (List YamlEvent) Err Unit) : Prop := ∀ events, ∃ e, (m events).1 = .error e

variable {m m' : Act (List YamlEvent) Err Unit}

theorem succeeds_emit (event : YamlEvent) : Succeeds (emit event) := fun _ => rfl

theorem bind_fst_of_ok {events : List YamlEvent} (h : (m events).1 = .ok ()) :
    ((m >>= fun _ => m') events).1 = (m' (m events).2).1 := by
  obtain ⟨events', hm⟩ : ∃ events', m events = (.ok (), events') := ⟨(m events).2, Prod.ext h rfl⟩
  rw [Act.bind_of_ok hm, hm]

theorem succeeds_seq (h : Succeeds m) (h' : Succeeds m') : Succeeds (m >>= fun _ => m') := fun events => by
  rw [bind_fst_of_ok (h events)]
  exact h' _

theorem fails_left (h : Fails m) : Fails (m >>= fun _ => m') := fun events => by
  obtain ⟨e, he⟩ := h events
  have hm : m events = (.error e, (m events).2) := Prod.ext he rfl
  exact ⟨e, by rw [Act.bind_of_error hm]⟩

theorem fails_right (h : Succeeds m) (h' : Fails m') : Fails (m >>= fun _ => m') := fun events => by
  rw [bind_fst_of_ok (h events)]
  exact h' _

/-- Both parts are decided. -/
theorem decided_seq {P P' : Prop} (h : P ∧ Succeeds m ∨ ¬P ∧ Fails m) (h' : P' ∧ Succeeds m' ∨ ¬P' ∧ Fails m') :
    (P ∧ P') ∧ Succeeds (m >>= fun _ => m') ∨ ¬(P ∧ P') ∧ Fails (m >>= fun _ => m') := by
  rcases h with ⟨hp, h⟩ | ⟨hp, h⟩
  · rcases h' with ⟨hp', h'⟩ | ⟨hp', h'⟩
    · exact .inl ⟨⟨hp, hp'⟩, succeeds_seq h h'⟩
    · exact .inr ⟨fun hpp => hp' hpp.2, fails_right h h'⟩
  · exact .inr ⟨fun hpp => hp hpp.1, fails_left h⟩

theorem not_dumpFault_table {r : Nat} {fs inh : List (Value × Value)} : ¬DumpFault (.table r fs inh) ↔
    ∀ f ∈ fs, (isPureSequence fs = false → ¬DumpFault f.1) ∧ ¬DumpFault f.2 := by
  constructor
  · intro h f hf
    exact ⟨fun hseq hk => h (.key hseq hf hk), fun hv => h (.value hf hv)⟩
  · intro h hfault
    cases hfault with
    | key hseq hf hk => exact (h _ hf).1 hseq hk
    | value hf hv => exact (h _ hf).2 hv

mutual

/-- A value is written, or the writer raises on it. -/
theorem dumpNode_decided : ∀ v : Value, ¬DumpFault v ∧ Succeeds (dumpNode v) ∨ ¬¬DumpFault v ∧ Fails (dumpNode v)
  | .nil => .inr ⟨not_not.mpr .nil, fun events => ⟨_, by rw [dumpNode]; rfl⟩⟩
  | .func name => .inr ⟨not_not.mpr .func, fun events => ⟨_, by rw [dumpNode]; rfl⟩⟩
  | .bool b => .inl ⟨by rintro ⟨⟩, by rw [dumpNode]; exact succeeds_emit _⟩
  | .num q => .inl ⟨by rintro ⟨⟩, by rw [dumpNode]; exact succeeds_emit _⟩
  | .inf neg => .inl ⟨by rintro ⟨⟩, by rw [dumpNode]; exact succeeds_emit _⟩
  | .nan => .inl ⟨by rintro ⟨⟩, by rw [dumpNode]; exact succeeds_emit _⟩
  | .str s => by
    rw [dumpNode, dumpString]
    cases h : implicitScalar s with
    | error e => exact .inr ⟨not_not.mpr (.str h), fun events => ⟨e, rfl⟩⟩
    | ok quoted =>
      refine .inl ⟨fun hfault => ?_, fun events => rfl⟩
      cases hfault with
      | str he =>
        rw [h] at he
        cases he
  | .table r fs inh => by
    rw [dumpNode, not_dumpFault_table]
    cases hseq : isPureSequence fs with
    | true =>
      have hbody := decided_seq (.inl ⟨trivial, succeeds_emit .sequenceStart⟩)
        (decided_seq (dumpValues_decided fs) (.inl ⟨trivial, succeeds_emit .sequenceEnd⟩))
      simpa using hbody
    | false =>
      have hbody := decided_seq (.inl ⟨trivial, succeeds_emit .mappingStart⟩)
        (decided_seq (dumpFields_decided fs) (.inl ⟨trivial, succeeds_emit .mappingEnd⟩))
      simpa using hbody

theorem dumpValues_decided : ∀ fs : List (Value × Value), (∀ f ∈ fs, ¬DumpFault f.2) ∧ Succeeds (dumpValues fs) ∨
    ¬(∀ f ∈ fs, ¬DumpFault f.2) ∧ Fails (dumpValues fs)
  | [] => .inl ⟨fun f hf => absurd hf List.not_mem_nil, fun events => by rw [dumpValues]; rfl⟩
  | (k, v) :: fs => by
    rw [dumpValues, List.forall_mem_cons]
    exact decided_seq (dumpNode_decided v) (dumpValues_decided fs)

theorem dumpFields_decided : ∀ fs : List (Value × Value),
    (∀ f ∈ fs, ¬DumpFault f.1 ∧ ¬DumpFault f.2) ∧ Succeeds (dumpFields fs) ∨
      ¬(∀ f ∈ fs, ¬DumpFault f.1 ∧ ¬DumpFault f.2) ∧ Fails (dumpFields fs)
  | [] => .inl ⟨fun f hf => absurd hf List.not_mem_nil, fun events => by rw [dumpFields]; rfl⟩
  | (k, v) :: fs => by
    have hbody := decided_seq (dumpNode_decided k) (decided_seq (dumpNode_decided v) (dumpFields_decided fs))
    rw [← and_assoc] at hbody
    rw [dumpFields, List.forall_mem_cons]
    exact hbody

end

/-- **When the writer raises**: on a value with a fault, and where the emitter does. -/
theorem lyamlDump_ok_iff {emitter : List YamlEvent → Except Err Str} {v : Value} :
    (∃ text, lyamlDump emitter v = .ok text) ↔ ¬DumpFault v ∧ ∃ text, emitter (dumpStream v []).2 = .ok text := by
  have hstream := decided_seq (.inl ⟨trivial, succeeds_emit .streamStart⟩)
    (decided_seq (.inl ⟨trivial, succeeds_emit .documentStart⟩)
      (decided_seq (dumpNode_decided v)
        (decided_seq (.inl ⟨trivial, succeeds_emit .documentEnd⟩) (.inl ⟨trivial, succeeds_emit .streamEnd⟩))))
  change (True ∧ True ∧ _ ∧ True ∧ True) ∧ Succeeds (dumpStream v) ∨
    ¬(True ∧ True ∧ _ ∧ True ∧ True) ∧ Fails (dumpStream v) at hstream
  simp only [true_and, and_true] at hstream
  unfold lyamlDump
  rcases hstream with ⟨hok, hsucceeds⟩ | ⟨hfault, hfails⟩
  · rw [hsucceeds []]
    cases emitter (dumpStream v []).2 with
    | error e => simp [bind, Except.bind]
    | ok text => simpa [bind, Except.bind] using hok
  · obtain ⟨e, he⟩ := hfails []
    rw [he]
    cases emitter (dumpStream v []).2 with
    | error e => simp [bind, Except.bind]
    | ok text => simpa [bind, Except.bind] using not_not.mp hfault

end Fault

end Seharden
