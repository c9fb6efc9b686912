import Loongshield.Lua.Value

/-!
# Lua patterns

The matcher of `string.match`, `string.gmatch` and `string.gsub`. A pattern is first read into a list of items
(`compile`); a malformed end becomes the item `malformed`, which raises when the matcher reaches it, as the C matcher
does. `doMatch` is the backtracking matcher: it recurses on the items, and the repetitions (`maxExpand`, `minExpand`)
try the rest of the items at each possible end.

* `strMatch`, `gmatch`, `gsub`: the functions of the string library, built on `doMatch`;
* `gmatchAny`: a loop over `gmatch` that may end before a later match raises.
-/

namespace Lua
namespace Pattern

/-! ## Character classes -/

def isalpha (c : Char) : Bool := ('a' ≤ c && c ≤ 'z') || ('A' ≤ c && c ≤ 'Z')
def isdigit (c : Char) : Bool := '0' ≤ c && c ≤ '9'
def islower (c : Char) : Bool := 'a' ≤ c && c ≤ 'z'
def isupper (c : Char) : Bool := 'A' ≤ c && c ≤ 'Z'
def isalnum (c : Char) : Bool := isalpha c || isdigit c
def isgraph (c : Char) : Bool := 33 ≤ c.toNat && c.toNat ≤ 126
def ispunct (c : Char) : Bool := isgraph c && !isalnum c
def iscntrl (c : Char) : Bool := c.toNat < 32 || c.toNat == 127
def isxdigit (c : Char) : Bool := isdigit c || ('a' ≤ c && c ≤ 'f') || ('A' ≤ c && c ≤ 'F')

/-- `%x` for a letter `x`: its class, or the complement for an upper-case letter; any other character is itself. -/
def matchClass (cl c : Char) : Bool :=
  let of (p : Bool) : Bool := if isupper cl then !p else p
  match lowerChar cl with
  | 'a' => of (isalpha c)
  | 'c' => of (iscntrl c)
  | 'd' => of (isdigit c)
  | 'g' => of (isgraph c)
  | 'l' => of (islower c)
  | 'p' => of (ispunct c)
  | 's' => of (isspace c)
  | 'u' => of (isupper c)
  | 'w' => of (isalnum c)
  | 'x' => of (isxdigit c)
  | 'z' => of (c.toNat == 0)
  | _ => cl == c

/-- An element of a set `[…]`. -/
inductive SetItem
  | lit (c : Char)
  | cls (c : Char)
  | range (lo hi : Char)

def SetItem.test (c : Char) : SetItem → Bool
  | .lit a => a == c
  | .cls a => matchClass a c
  | .range lo hi => decide (lo ≤ c) && decide (c ≤ hi)

/-- What stands for one character. -/
inductive Single
  | any
  | lit (c : Char)
  | cls (c : Char)
  | set (neg : Bool) (items : List SetItem)

def Single.test : Single → Char → Bool
  | .any, _ => true
  | .lit a, c => a == c
  | .cls a, c => matchClass a c
  | .set neg items, c => items.any (SetItem.test c) != neg

/-- How often a single character is taken. -/
inductive Quant
  | one
  | star
  | plus
  | minus
  | opt

/-- An item of a pattern. -/
inductive Item
  | single (s : Single) (q : Quant)
  | capOpen
  | capClose
  | capPos
  | balance (x y : Char)
  | frontier (s : Single)
  | backref (n : Nat)
  | atEnd
  | malformed (msg : Err)

/-! ## Reading a pattern -/

/-- The text of a set up to its closing bracket, and what follows. A bracket that comes first belongs to the set. -/
def setBody : Str → Option (Str × Str)
  | '%' :: c :: ']' :: r => some (['%', c], r)
  | '%' :: c :: r => (setBody r).map fun p => ('%' :: c :: p.1, p.2)
  | c :: ']' :: r => some ([c], r)
  | c :: r => (setBody r).map fun p => (c :: p.1, p.2)
  | [] => none

/-- The elements of a set. -/
def setItems : Str → List SetItem
  | '%' :: c :: r => .cls c :: setItems r
  | a :: '-' :: b :: r => .range a b :: setItems r
  | c :: r => .lit c :: setItems r
  | [] => []

/-- The set after an opening bracket. -/
def readSet (p : Str) : Option (Single × Str) :=
  let (neg, p) := match p with
    | '^' :: r => (true, r)
    | r => (false, r)
  (setBody p).map fun b => (.set neg (setItems b.1), b.2)

/-- The quantifier after a single character. -/
def readQuant : Str → Quant × Str
  | '*' :: r => (.star, r)
  | '+' :: r => (.plus, r)
  | '-' :: r => (.minus, r)
  | '?' :: r => (.opt, r)
  | r => (.one, r)

/-- The first item of a pattern and the rest of the pattern; `none` for the rest after a malformed item. -/
def readItem : Str → Item × Option Str
  | '(' :: ')' :: r => (.capPos, some r)
  | '(' :: r => (.capOpen, some r)
  | ')' :: r => (.capClose, some r)
  | ['$'] => (.atEnd, some [])
  | '%' :: 'b' :: x :: y :: r => (.balance x y, some r)
  | '%' :: 'b' :: _ => (.malformed "unbalanced pattern", none)
  | '%' :: 'f' :: '[' :: r => match readSet r with
    | some (s, r) => (.frontier s, some r)
    | none => (.malformed "malformed pattern (missing ']')", none)
  | '%' :: 'f' :: _ => (.malformed "missing '[' after '%f' in pattern", none)
  | ['%'] => (.malformed "malformed pattern (ends with '%')", none)
  | '%' :: c :: r =>
    if isdigit c then (.backref (c.toNat - 48), some r)
    else let (q, r) := readQuant r; (.single (.cls c) q, some r)
  | '[' :: r => match readSet r with
    | some (s, r) => let (q, r) := readQuant r; (.single s q, some r)
    | none => (.malformed "malformed pattern (missing ']')", none)
  | '.' :: r => let (q, r) := readQuant r; (.single .any q, some r)
  | c :: r => let (q, r) := readQuant r; (.single (.lit c) q, some r)
  | [] => (.atEnd, none)

/-- The items of a pattern; `fuel` counts its characters. -/
def readItems : Nat → Str → List Item
  | 0, _ => []
  | _, [] => []
  | n + 1, p => match readItem p with
    | (i, some r) => i :: readItems n r
    | (i, none) => [i]

/-- The items of a pattern. -/
def compile (p : Str) : List Item := readItems p.length p

/-! ## Matching -/

/-- A capture: where it starts, and its length once it is closed (`none` while it is open); a position capture has
no text. -/
inductive Capture
  | opened (start : Nat)
  | closed (start len : Nat)
  | pos (start : Nat)

abbrev Caps := List Capture

/-- The result of matching at a place: no match, or the end of the match and the captures, oldest first. -/
abbrev Res := Except Err (Option (Nat × Caps))

/-- Closes the last open capture at `s`. -/
def closeLast (s : Nat) : Caps → Option Caps
  | [] => none
  | c :: cs => match closeLast s cs with
    | some cs' => some (c :: cs')
    | none => match c with
      | .opened a => some (.closed a (s - a) :: cs)
      | _ => none

/-- Greedy repetition: the continuation at `s + n`, `s + n - 1`, …, `s`. -/
def maxExpand (k : Nat → Res) (s : Nat) : Nat → Res
  | 0 => k s
  | n + 1 => match k (s + (n + 1)) with
    | .ok none => maxExpand k s n
    | r => r

/-- Lazy repetition: the continuation at `s`, `s + 1`, …, `s + n`. -/
def minExpand (k : Nat → Res) (s : Nat) : Nat → Res
  | 0 => k s
  | n + 1 => match k s with
    | .ok none => minExpand k (s + 1) n
    | r => r

/-- The end of the balanced text that begins at the front of `s`; `depth` brackets are open. -/
def balanceEnd (x y : Char) : Nat → Nat → Str → Option Nat
  | _, _, [] => none
  | i, depth, c :: s =>
    if c = y then (if depth = 1 then some (i + 1) else balanceEnd x y (i + 1) (depth - 1) s)
    else if c = x then balanceEnd x y (i + 1) (depth + 1) s
    else balanceEnd x y (i + 1) depth s

/-- How many characters from `s` on the class takes. -/
def runLength (src : Str) (c : Single) (s : Nat) : Nat := ((src.drop s).takeWhile c.test).length

/-- The backtracking matcher: the items against `src` from position `s`. -/
def doMatch (src : Str) : List Item → Nat → Caps → Res
  | [], s, caps => .ok (some (s, caps))
  | .atEnd :: _, s, caps => .ok (if s = src.length then some (s, caps) else none)
  | .malformed msg :: _, _, _ => .error msg
  | .capOpen :: is, s, caps =>
    if 32 ≤ caps.length then .error "too many captures" else doMatch src is s (caps ++ [.opened s])
  | .capPos :: is, s, caps =>
    if 32 ≤ caps.length then .error "too many captures" else doMatch src is s (caps ++ [.pos s])
  | .capClose :: is, s, caps => match closeLast s caps with
    | some caps => doMatch src is s caps
    | none => .error "invalid pattern capture"
  | .balance x y :: is, s, caps => match src.drop s with
    | c :: r => if c = x then
        match balanceEnd x y 1 1 r with
        | some n => doMatch src is (s + n) caps
        | none => .ok none
      else .ok none
    | [] => .ok none
  | .frontier c :: is, s, caps =>
    let before := if s = 0 then Char.ofNat 0 else src.getD (s - 1) (Char.ofNat 0)
    let here := src.getD s (Char.ofNat 0)
    if c.test before || !c.test here then .ok none else doMatch src is s caps
  | .backref n :: is, s, caps => match n with
    | 0 => .error "invalid capture index"
    | n + 1 => match caps[n]? with
      | some (.closed a len) =>
        if (src.drop a).take len = (src.drop s).take len ∧ s + len ≤ src.length then doMatch src is (s + len) caps
        else .ok none
      | some (.pos _) => .ok none
      | _ => .error "invalid capture index"
  | .single c q :: is, s, caps =>
    let n := runLength src c s
    let k (s : Nat) : Res := doMatch src is s caps
    match q with
    | .one => if 0 < n then k (s + 1) else .ok none
    | .opt => if 0 < n then
        match k (s + 1) with
        | .ok none => k s
        | r => r
      else k s
    | .star => maxExpand k s n
    | .plus => match n with
      | 0 => .ok none
      | n + 1 => maxExpand k (s + 1) n
    | .minus => minExpand k s n

/-- The first match of the items at a position from `s` on; `fuel` further positions are tried. -/
def search (src : Str) (is : List Item) : Nat → Nat → Except Err (Option (Nat × Nat × Caps))
  | fuel, s => match doMatch src is s [] with
    | .error e => .error e
    | .ok (some (e, caps)) => .ok (some (s, e, caps))
    | .ok none => match fuel with
      | 0 => .ok none
      | fuel + 1 => search src is fuel (s + 1)

/-- The values of the captures of a match from `s` to `e`: the whole match if the pattern has no capture. -/
def capValues (src : Str) (s e : Nat) (caps : Caps) : Except Err (List Value) :=
  if caps.isEmpty then .ok [.str ((src.drop s).take (e - s))]
  else caps.mapM fun
    | .closed a len => .ok (.str ((src.drop a).take len))
    | .pos a => .ok (.num (a + 1))
    | .opened _ => .error "unfinished capture"

end Pattern

open Pattern

/-- `string.match(s, p)`: the captures of the first match, `none` if there is none. -/
def strMatch (s p : Str) : Except Err (Option (List Value)) := do
  let found ← match p with
    | '^' :: p => search s (compile p) 0 0
    | p => search s (compile p) s.length 0
  match found with
  | none => pure none
  | some (a, e, caps) => some <$> capValues s a e caps

/-- The matches of `string.gmatch` from position `s` on. -/
def gmatchFrom (src : Str) (is : List Item) : Nat → Nat → Except Err (List (List Value))
  | 0, _ => .ok []
  | fuel + 1, s => do
    if src.length < s then pure [] else
    match ← doMatch src is s [] with
    | none => gmatchFrom src is fuel (s + 1)
    | some (e, caps) => do
      let v ← capValues src s e caps
      let rest ← gmatchFrom src is fuel (if e = s then s + 1 else e)
      pure (v :: rest)

/-- `string.gmatch(s, p)`: the captures of all matches. -/
def gmatch (s p : Str) : Except Err (List (List Value)) := gmatchFrom s (compile p) (s.length + 1) 0

/-- The loop of `gmatchAny` from position `s` on. -/
def gmatchAnyFrom (src : Str) (is : List Item) (found : List Value → Bool) : Nat → Nat → Except Err Bool
  | 0, _ => .ok false
  | fuel + 1, s => do
    if src.length < s then pure false else
    match ← doMatch src is s [] with
    | none => gmatchAnyFrom src is found fuel (s + 1)
    | some (e, caps) => do
      let v ← capValues src s e caps
      if found v then pure true else gmatchAnyFrom src is found fuel (if e = s then s + 1 else e)

/-- A loop over `string.gmatch(s, p)` that returns `true` at the first match with `found`. -/
def gmatchAny (s p : Str) (found : List Value → Bool) : Except Err Bool :=
  gmatchAnyFrom s (compile p) found (s.length + 1) 0

/-- `string.gsub` from position `s` on, with a function of the captures as replacement. After an empty match one
character is copied. -/
def gsubFrom (src : Str) (is : List Item) (anchor : Bool) (f : List Value → Str) : Nat → Nat → Except Err Str
  | 0, s => .ok (src.drop s)
  | fuel + 1, s => do
    match ← doMatch src is s [] with
    | some (e, caps) =>
      let v ← capValues src s e caps
      let next := if s < e then e else s + 1
      let copied := if s < e then [] else (src.drop s).take 1
      if anchor || src.length < next then pure (f v ++ copied ++ src.drop next)
      else
        let rest ← gsubFrom src is anchor f fuel next
        pure (f v ++ copied ++ rest)
    | none =>
      if anchor || src.length ≤ s then pure (src.drop s)
      else
        let rest ← gsubFrom src is anchor f fuel (s + 1)
        pure ((src.drop s).take 1 ++ rest)

/-- `string.gsub(s, p, f)` for a function of the captures that gives a string. -/
def gsub (s p : Str) (f : List Value → Str) : Except Err Str :=
  match p with
  | '^' :: p => gsubFrom s (compile p) true f (s.length + 1) 0
  | p => gsubFrom s (compile p) false f (s.length + 1) 0

end Lua
