import Mathlib.Data.Int.Log
import Mathlib.Data.Rat.Floor
import Mathlib.Data.List.AList
import Mathlib.Tactic
import LuaProxy.Text

/-! Lua 5.4 values: 64-bit integers, binary64 floats as the rationals they stand for,
byte strings and tables, with `tonumber`, comparison and the text of a number. -/
namespace LuaProxy.Lua
open Text

/-- The floats a decimal numeral can be read as: NaN is not one of them. -/
inductive Double
  | finite (q : ℚ)
  | negZero
  | inf (negative : Bool)
  deriving DecidableEq, Repr

def roundHalfEven (x : ℚ) : ℤ :=
  let f := ⌊x⌋
  if x - f < 1 / 2 then f
  else if 1 / 2 < x - f then f + 1
  else if f % 2 = 0 then f else f + 1

/-- The spacing of the floats around `x`: 53 significant bits, at least `2 ^ (-1074)`. -/
def ulp (x : ℚ) : ℚ := 2 ^ max (Int.log 2 |x| - 52) (-1074)

/-- Rounding to nearest, ties to even, with overflow to infinity. -/
def Double.ofRat (x : ℚ) : Double :=
  let r := roundHalfEven (x / ulp x) * ulp x
  if 2 ^ 1024 ≤ |r| then .inf (decide (x < 0))
  else if r = 0 ∧ x < 0 then .negZero
  else .finite r

/-- A Lua number keeps its subtype; integers are those of 64 bits. -/
inductive Number
  | int (n : ℤ)
  | float (d : Double)
  deriving DecidableEq, Repr

def Double.lt : Double → Double → Bool
  | .inf a, .inf b => a && !b
  | .inf a, _ => a
  | _, .inf b => !b
  | .finite x, .finite y => x < y
  | .finite x, .negZero => x < 0
  | .negZero, .finite y => 0 < y
  | .negZero, .negZero => false

/-- `luaV_lessthan` on numbers: integers and floats compare by their exact values. -/
def Number.lt : Number → Number → Bool
  | .int m, .int n => m < n
  | .int m, .float e => (Double.finite m).lt e
  | .float d, .int n => d.lt (.finite n)
  | .float d, .float e => d.lt e

inductive Value
  | nil
  | bool (b : Bool)
  | num (n : Number)
  | str (s : Bytes)
  /-- A table: its border sequence `1..n`, and the other entries in `pairs` order. -/
  | table (seq : List Value) (fields : List (Value × Value))
  /-- Functions, userdata and threads. -/
  | other
  deriving Repr

abbrev LuaError := String

def Value.truthy : Value → Bool
  | .nil => false
  | .bool b => b
  | _ => true

/-- `a or b` -/
def Value.or (a b : Value) : Value := if a.truthy then a else b

/-- Byte-wise order of strings, as `strcoll` has it in the C locale. -/
def bytesLt (s t : Bytes) : Bool := decide (s < t)

/-- `a < b`, which raises unless both are numbers or both are strings. -/
def Value.lessThan : Value → Value → Except LuaError Bool
  | .num m, .num n => .ok (m.lt n)
  | .str s, .str t => .ok (bytesLt s t)
  | _, _ => .error "attempt to compare"

def isDigit (b : UInt8) : Bool := 48 ≤ b && b ≤ 57

def digitsVal (s : Bytes) : ℕ := s.foldl (fun n b => 10 * n + (b.toNat - 48)) 0

/-- An unsigned decimal integer numeral. -/
def isDigits (s : Bytes) : Bool := s ≠ [] && s.all isDigit

/-- The magnitude of a numeral with at most one point, as an exact decimal fraction. -/
def decimalVal (s : Bytes) : Option ℚ :=
  let whole := s.takeWhile isDigit
  match s.dropWhile isDigit with
  | [] => if whole = [] then none else some (digitsVal whole)
  | 46 :: frac =>
    if frac.all isDigit ∧ (whole ≠ [] ∨ frac ≠ []) then
      some (digitsVal (whole ++ frac) / 10 ^ frac.length)
    else none
  | _ => none

/-- A float with the sign of its numeral, which matters for zero only. -/
def floatOf (negative : Bool) (q : ℚ) : Double :=
  if negative then (if q = 0 then .negZero else .ofRat (-q)) else .ofRat q

/-- `tonumber` on texts of digits, points and minus signs, the only ones it is given: an
integer when the numeral has no point and fits in 64 bits, otherwise a float. -/
def tonumber (s : Bytes) : Option Number :=
  let negative := s.head? = some 45
  let t := if negative then s.tail else s
  if isDigits t ∧ digitsVal t < 2 ^ 63 + (if negative then 1 else 0) then
    some (.int (if negative then -(digitsVal t : ℤ) else digitsVal t))
  else (decimalVal t).map fun q => .float (floatOf negative q)

/-- `tonumber`'s result as a value, nil when the text is no numeral. -/
def numeral (s : Bytes) : Value := ((tonumber s).map Value.num).getD .nil

/-- A table with string keys only; assigning nil removes the entry. -/
abbrev Table := AList fun _ : Bytes => Value

namespace Table

def set (t : Table) (k : Bytes) : Value → Table
  | .nil => t.erase k
  | v => t.insert k v

def get (t : Table) (k : Bytes) : Value := (t.lookup k).getD .nil

@[simp] theorem get_empty (k : Bytes) : get ∅ k = .nil := rfl

theorem get_set (t : Table) (k k' : Bytes) (v : Value) :
    get (set t k v) k' = if k' = k then v else get t k' := by
  by_cases hk : k' = k
  · subst hk
    cases v <;> simp [set, get]
  · cases v <;> simp [set, get, hk]

@[simp] theorem get_set_self (t : Table) (k : Bytes) (v : Value) :
    get (set t k v) k = v := by simp [get_set]

end Table

end LuaProxy.Lua
