import LuaProxy.Text
import Mathlib.Data.Rat.Defs

/-! JSON texts as RFC 8259 describes them, on the level of bytes: the grammar, and the value
each text stands for. A string is given by the bytes of its UTF-8. -/
namespace LuaProxy.Json
open Text

inductive Value
  | null
  | bool (b : Bool)
  | num (q : ℚ)
  | str (s : Bytes)
  | arr (vs : List Value)
  | obj (ms : List (Bytes × Value))

/-- A value as it is written: a number with its text, strings with what stands between their
quotes. Blanks are left out. -/
inductive Tree
  | null
  | bool (b : Bool)
  | num (text : Bytes) (q : ℚ)
  | str (raw s : Bytes)
  | arr (vs : List Tree)
  | obj (ms : List (Bytes × Bytes × Tree))

mutual

def Tree.value : Tree → Value
  | .null => .null
  | .bool b => .bool b
  | .num _ q => .num q
  | .str _ s => .str s
  | .arr vs => .arr (values vs)
  | .obj ms => .obj (memberValues ms)

def values : List Tree → List Value
  | [] => []
  | v :: vs => v.value :: values vs

def memberValues : List (Bytes × Bytes × Tree) → List (Bytes × Value)
  | [] => []
  | (_, k, v) :: ms => (k, v.value) :: memberValues ms

end

section Tokens

/-- `ws` -/
def isSpace (b : UInt8) : Bool := b == 32 || b == 9 || b == 10 || b == 13

def skip (t : Bytes) : Bytes := t.dropWhile isSpace

def isDigit (b : UInt8) : Bool := 48 ≤ b && b ≤ 57

def natOf (ds : Bytes) : ℕ := ds.foldl (fun n b => 10 * n + (b.toNat - 48)) 0

/-- `[ minus ]` -/
def readSign : Bytes → ℚ × Bytes
  | 45 :: t => (-1, t)
  | t => (1, t)

/-- `1*DIGIT` -/
def readDigits (t : Bytes) : Option (Bytes × Bytes) :=
  if t.takeWhile isDigit = [] then none else some (t.takeWhile isDigit, t.dropWhile isDigit)

/-- `int`: digits without a leading zero. -/
def readInt (t : Bytes) : Option (ℕ × Bytes) := do
  let (ds, t) ← readDigits t
  if ds.head? = some 48 ∧ ds ≠ [48] then none else some (natOf ds, t)

/-- `[ frac ]` -/
def readFrac (t : Bytes) : Option (ℚ × Bytes) :=
  match t with
  | 46 :: t => do
    let (ds, t) ← readDigits t
    some (natOf ds / 10 ^ ds.length, t)
  | t => some (0, t)

/-- The sign and the digits of an exponent. -/
def readPower (t : Bytes) : Option (ℤ × Bytes) :=
  match t with
  | 45 :: t => do
    let (ds, t) ← readDigits t
    some (-natOf ds, t)
  | 43 :: t => do
    let (ds, t) ← readDigits t
    some (natOf ds, t)
  | t => do
    let (ds, t) ← readDigits t
    some (natOf ds, t)

/-- `[ exp ]` -/
def readExp (t : Bytes) : Option (ℤ × Bytes) :=
  match t with
  | 69 :: t => readPower t
  | 101 :: t => readPower t
  | t => some (0, t)

/-- `number`, with what is left of the text. -/
def readNumber (t : Bytes) : Option (ℚ × Bytes) := do
  let (sign, t) := readSign t
  let (n, t) ← readInt t
  let (f, t) ← readFrac t
  let (e, t) ← readExp t
  some (sign * (n + f) * 10 ^ e, t)

def isNumberByte (b : UInt8) : Bool :=
  isDigit b || b == 45 || b == 43 || b == 46 || b == 69 || b == 101

def hexDigit (b : UInt8) : Option ℕ :=
  if 48 ≤ b ∧ b ≤ 57 then some (b.toNat - 48)
  else if 65 ≤ b ∧ b ≤ 70 then some (b.toNat - 55)
  else if 97 ≤ b ∧ b ≤ 102 then some (b.toNat - 87)
  else none

def hex4 (a b c d : UInt8) : Option ℕ := do
  some (((← hexDigit a) * 16 + (← hexDigit b)) * 256 + (← hexDigit c) * 16 + (← hexDigit d))

/-- The characters of one byte that have an escape of their own. -/
def shortEscapes : List (UInt8 × UInt8) :=
  [(34, 34), (92, 92), (47, 47), (98, 8), (102, 12), (110, 10), (114, 13), (116, 9)]

/-- An escape, without its backslash, and the bytes of its character. Half of a surrogate
pair stands for no character. -/
inductive Escape : Bytes → Bytes → Prop
  | short {e b : UInt8} (h : (e, b) ∈ shortEscapes) : Escape [e] [b]
  | unit {a b c d : UInt8} {n : ℕ} (hn : hex4 a b c d = some n) (hc : n < 0xD800 ∨ 0xDFFF < n) :
      Escape [117, a, b, c, d] (String.utf8EncodeChar (Char.ofNat n))
  | pair {a b c d a' b' c' d' : UInt8} {hi lo : ℕ} (hhi : hex4 a b c d = some hi)
      (hlo : hex4 a' b' c' d' = some lo) (hi_range : 0xD800 ≤ hi ∧ hi < 0xDC00)
      (lo_range : 0xDC00 ≤ lo ∧ lo < 0xE000) :
      Escape [117, a, b, c, d, 92, 117, a', b', c', d'] (String.utf8EncodeChar
        (Char.ofNat (0x10000 + (hi - 0xD800) * 0x400 + (lo - 0xDC00))))

/-- `unescaped`: no quote, backslash or control character. -/
def Unescaped (b : UInt8) : Prop := 32 ≤ b ∧ b ≠ 34 ∧ b ≠ 92

instance (b : UInt8) : Decidable (Unescaped b) := by unfold Unescaped; infer_instance

/-- The characters of a string from behind its first quote: the text, the string, and what is
left behind the last quote. -/
inductive Chars : Bytes → Bytes → Bytes → Prop
  | close {r : Bytes} : Chars (34 :: r) [] r
  | plain {b : UInt8} {t s r : Bytes} (hb : Unescaped b) (h : Chars t s r) :
      Chars (b :: t) (b :: s) r
  | escape {t p v u s r : Bytes} (ht : t = 92 :: (p ++ u)) (hp : Escape p v) (h : Chars u s r) :
      Chars t (v ++ s) r

/-- `string`: its text, what stands between the quotes, the string, and what is left. -/
inductive Str : Bytes → Bytes → Bytes → Bytes → Prop
  | mk {t raw s r : Bytes} (h : Chars t s r) (ht : t = raw ++ 34 :: r) : Str (34 :: t) raw s r

end Tokens

/-- What a text is read as. -/
inductive Part
  | value
  /-- The values of an array from behind its bracket, with the closing one. -/
  | elements
  /-- The members of an object from behind its brace, with the closing one. -/
  | members

/-- The grammar: a text, what is written at its start, and what is left. -/
inductive Written : Part → Bytes → Tree → Bytes → Prop
  | null {t r : Bytes} (ht : t = utf8 "null" ++ r) : Written .value t .null r
  | bool {t r : Bytes} {b : Bool} (ht : t = utf8 (toString b) ++ r) : Written .value t (.bool b) r
  | num {t x r : Bytes} {q : ℚ} (ht : t = x ++ r) (hx : readNumber x = some (q, []))
      (hr : ∀ b ∈ r.head?, isNumberByte b = false) : Written .value t (.num x q) r
  | str {t raw s r : Bytes} (h : Str t raw s r) : Written .value t (.str raw s) r
  | emptyArr {t r : Bytes} (h : skip t = 93 :: r) : Written .value (91 :: t) (.arr []) r
  | arr {t r : Bytes} {vs : List Tree} (h : Written .elements t (.arr vs) r) :
      Written .value (91 :: t) (.arr vs) r
  | emptyObj {t r : Bytes} (h : skip t = 125 :: r) : Written .value (123 :: t) (.obj []) r
  | obj {t r : Bytes} {ms : List (Bytes × Bytes × Tree)} (h : Written .members t (.obj ms) r) :
      Written .value (123 :: t) (.obj ms) r
  | lastElement {t u r : Bytes} {v : Tree} (hv : Written .value (skip t) v u)
      (hu : skip u = 93 :: r) : Written .elements t (.arr [v]) r
  | element {t u t' r : Bytes} {v : Tree} {vs : List Tree} (hv : Written .value (skip t) v u)
      (hu : skip u = 44 :: t') (h : Written .elements t' (.arr vs) r) :
      Written .elements t (.arr (v :: vs)) r
  | lastMember {t t₁ t₂ u r raw k : Bytes} {v : Tree} (hk : Str (skip t) raw k t₁)
      (hc : skip t₁ = 58 :: t₂) (hv : Written .value (skip t₂) v u) (hu : skip u = 125 :: r) :
      Written .members t (.obj [(raw, k, v)]) r
  | member {t t₁ t₂ u t' r raw k : Bytes} {v : Tree} {ms : List (Bytes × Bytes × Tree)}
      (hk : Str (skip t) raw k t₁) (hc : skip t₁ = 58 :: t₂) (hv : Written .value (skip t₂) v u)
      (hu : skip u = 44 :: t') (h : Written .members t' (.obj ms) r) :
      Written .members t (.obj ((raw, k, v) :: ms)) r

def Document (t : Bytes) (x : Tree) : Prop :=
  ValidUtf8 t ∧ ∃ r, Written .value (skip t) x r ∧ skip r = []

/-- The text is valid JSON and stands for the value. -/
def Decodes (t : Bytes) (v : Value) : Prop := ∃ x, Document t x ∧ x.value = v

end LuaProxy.Json
