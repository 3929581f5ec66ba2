import LuaProxy.Text

/-! Lua 5.4 string patterns: the pattern text is parsed into items, and the items are
matched with the backtracking order of Lua's own matcher. Greedy items try the longest
run first and lazy items the shortest. Of the syntax there is what the plugins use:
`.`, `%s`, `%d`, escaped and plain characters, sets, `*`, `+`, `-`, captures, `^`, `$`. -/
namespace LuaProxy.LuaPattern
open Text

inductive Single
  | any
  | lit (c : UInt8)
  | space
  | digit
  deriving DecidableEq, Repr

/-- `%s` and `%d` are `isspace` and `isdigit` in the C locale. -/
def Single.test : Single → UInt8 → Bool
  | .any, _ => true
  | .lit c, b => b == c
  | .space, b => b == 32 || (9 ≤ b && b ≤ 13)
  | .digit, b => 48 ≤ b && b ≤ 57

inductive Class
  | one (s : Single)
  | set (negated : Bool) (members : List Single)
  deriving DecidableEq, Repr

def Class.test : Class → UInt8 → Bool
  | .one s, b => s.test b
  | .set negated members, b => (members.any fun s => s.test b) != negated

inductive Item
  | one (c : Class)
  | star (c : Class)
  | plus (c : Class)
  | lazy (c : Class)
  | openCap
  | closeCap
  | eos
  deriving DecidableEq, Repr

structure Pattern where
  anchored : Bool
  items : List Item
  deriving DecidableEq, Repr

def alphanumeric (b : UInt8) : Bool :=
  (48 ≤ b && b ≤ 57) || (65 ≤ b && b ≤ 90) || (97 ≤ b && b ≤ 122)

/-- The character after `%`; class letters other than `s` and `d` are not supported. -/
def parseEscape (c : UInt8) : Option Single :=
  if c = 115 then some .space
  else if c = 100 then some .digit
  else if alphanumeric c then none
  else some (.lit c)

/-- The members of a set up to its `]`; an unescaped `-` (a range) is not supported. -/
def parseMembers : Bytes → Option (List Single × Bytes)
  | [] => none
  | 93 :: t => some ([], t)
  | 45 :: _ => none
  | 37 :: c :: t => do
      let s ← parseEscape c
      let (ms, rest) ← parseMembers t
      some (s :: ms, rest)
  | c :: t => do
      let (ms, rest) ← parseMembers t
      some (.lit c :: ms, rest)

def parseClass : Bytes → Option (Class × Bytes)
  | [] => none
  | 46 :: t => some (.one .any, t)
  | [37] => none
  | 37 :: c :: t => (parseEscape c).map fun s => (.one s, t)
  | 91 :: 94 :: t => (parseMembers t).map fun p => (.set true p.1, p.2)
  | 91 :: t => (parseMembers t).map fun p => (.set false p.1, p.2)
  | c :: t => some (.one (.lit c), t)

/-- The repetition mark after a class, if there is one. -/
def parseRepeat (c : Class) : Bytes → Item × Bytes
  | 42 :: t => (.star c, t)
  | 43 :: t => (.plus c, t)
  | 45 :: t => (.lazy c, t)
  | t => (.one c, t)

/-- Every item takes at least one byte of the pattern, so its length is enough fuel. -/
def parseItems : ℕ → Bytes → Option (List Item)
  | _, [] => some []
  | 0, _ :: _ => none
  | fuel + 1, 40 :: t => (parseItems fuel t).map (Item.openCap :: ·)
  | fuel + 1, 41 :: t => (parseItems fuel t).map (Item.closeCap :: ·)
  | _ + 1, [36] => some [.eos]
  | fuel + 1, c :: t => do
      let (cls, rest) ← parseClass (c :: t)
      let (item, rest) := parseRepeat cls rest
      let items ← parseItems fuel rest
      some (item :: items)

def parse (s : Bytes) : Option Pattern :=
  match s with
  | 94 :: t => (parseItems t.length t).map fun items => ⟨true, items⟩
  | t => (parseItems t.length t).map fun items => ⟨false, items⟩

/-- A capture remembers the subject from its opening on until it is closed. -/
inductive Capture
  | opened (start : Bytes)
  | closed (text : Bytes)
  deriving DecidableEq, Repr

/-- Close the most recently opened capture, the list being latest first. -/
def closeCapture (s : Bytes) : List Capture → Option (List Capture)
  | [] => none
  | .opened start :: cs => some (.closed (start.take (start.length - s.length)) :: cs)
  | c :: cs => (closeCapture s cs).map (c :: ·)

/-- Greedy repetition: the longest run first, then back one byte at a time. -/
def maxExpand {α : Type*} (test : UInt8 → Bool) (k : Bytes → Option α) : Bytes → Option α
  | [] => k []
  | b :: t =>
    if test b then
      match maxExpand test k t with
      | some r => some r
      | none => k (b :: t)
    else k (b :: t)

def minExpand {α : Type*} (test : UInt8 → Bool) (k : Bytes → Option α) : Bytes → Option α
  | [] => k []
  | b :: t =>
    match k (b :: t) with
    | some r => some r
    | none => if test b then minExpand test k t else none

/-- The unmatched rest of the subject and the captures, latest first. -/
def matchHere : List Item → Bytes → List Capture → Option (Bytes × List Capture)
  | [], s, cs => some (s, cs)
  | .one _ :: _, [], _ => none
  | .one c :: is, b :: t, cs => if c.test b then matchHere is t cs else none
  | .star c :: is, s, cs => maxExpand c.test (fun t => matchHere is t cs) s
  | .plus _ :: _, [], _ => none
  | .plus c :: is, b :: t, cs =>
    if c.test b then maxExpand c.test (fun u => matchHere is u cs) t else none
  | .lazy c :: is, s, cs => minExpand c.test (fun t => matchHere is t cs) s
  | .openCap :: is, s, cs => matchHere is s (.opened s :: cs)
  | .closeCap :: is, s, cs => (closeCapture s cs).bind fun cs => matchHere is s cs
  | .eos :: is, s, cs => if s = [] then matchHere is s cs else none

def Capture.text : Capture → Bytes
  | .opened _ => []
  | .closed t => t

def captures (s rest : Bytes) : List Capture → List Bytes
  | [] => [s.take (s.length - rest.length)]
  | cs => cs.reverse.map Capture.text

def matchAt (items : List Item) (s : Bytes) : Option (Bytes × List Bytes) :=
  (matchHere items s []).map fun r => (r.1, captures s r.1 r.2)

/-- The first position, from the left, where the items match. -/
def search (items : List Item) : Bytes → Option (List Bytes)
  | [] => (matchAt items []).map Prod.snd
  | b :: t =>
    match matchAt items (b :: t) with
    | some r => some r.2
    | none => search items t

def Pattern.find (p : Pattern) (s : Bytes) : Option (List Bytes) :=
  if p.anchored then (matchAt p.items s).map Prod.snd else search p.items s

/-- `s:match(pattern)`: the captures of the first match. -/
def luaMatch (pattern : String) (s : Bytes) : Option (List Bytes) :=
  (parse (utf8 pattern)).bind fun p => p.find s

/-- The first value `s:match(pattern)` returns, nil when there is no match. -/
def luaMatch₁ (pattern : String) (s : Bytes) : Option Bytes :=
  (luaMatch pattern s).bind List.head?

/-- The `gmatch` loop. Bytes before `resume` (counted from the end) belong to the
previous match, which ended at `last`; a match that ends there again is not taken. -/
def gmatchFrom (items : List Item) : Bytes → ℕ → Option ℕ → List (List Bytes)
  | [], _, last =>
    match matchAt items [] with
    | some (_, vs) => if last = some 0 then [] else [vs]
    | none => []
  | b :: t, resume, last =>
    if resume ≤ t.length then gmatchFrom items t resume last
    else match matchAt items (b :: t) with
      | some (rest, vs) =>
        if last = some rest.length then gmatchFrom items t resume last
        else vs :: gmatchFrom items t rest.length (some rest.length)
      | none => gmatchFrom items t resume last

/-- All the values `for ... in s:gmatch(pattern)` runs through. -/
def gmatch (pattern : String) (s : Bytes) : List (List Bytes) :=
  match parse (utf8 pattern) with
  | some p => gmatchFrom p.items s s.length none
  | none => []

/-- The `gsub` loop for a replacement text without `%`. -/
def gsubFrom (items : List Item) (repl : Bytes) : Bytes → ℕ → Option ℕ → Bytes
  | [], _, last =>
    match matchHere items [] [] with
    | some _ => if last = some 0 then [] else repl
    | none => []
  | b :: t, resume, last =>
    if resume ≤ t.length then gsubFrom items repl t resume last
    else match matchHere items (b :: t) [] with
      | some (rest, _) =>
        if last = some rest.length then b :: gsubFrom items repl t t.length last
        else if rest.length ≤ t.length then
          repl ++ gsubFrom items repl t rest.length (some rest.length)
        else repl ++ b :: gsubFrom items repl t t.length (some rest.length)
      | none => b :: gsubFrom items repl t resume last

/-- `s:gsub(pattern, repl)`, first result. -/
def gsub (pattern : String) (repl : Bytes) (s : Bytes) : Bytes :=
  match parse (utf8 pattern) with
  | some p => gsubFrom p.items repl s s.length none
  | none => s

end LuaProxy.LuaPattern
