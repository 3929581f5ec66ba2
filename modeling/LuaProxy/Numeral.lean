import LuaProxy.LuaValue

/-! The decimal text of an integer and what `tonumber` reads from it, whole or cut short. -/
namespace LuaProxy.Numeral
open Text Lua

def digit (d : ℕ) : UInt8 := UInt8.ofNat (48 + d)

theorem utf8_digitChar {d : ℕ} (h : d < 10) : utf8 (String.singleton (Nat.digitChar d)) = [digit d] := by
  have hall : ∀ d < 10, utf8 (String.singleton (Nat.digitChar d)) = [digit d] := by decide
  exact hall d h

theorem digit_toNat {d : ℕ} (h : d < 10) : (digit d).toNat = 48 + d := by
  rw [digit, UInt8.toNat_ofNat']
  omega

theorem isDigit_digit {d : ℕ} (h : d < 10) : isDigit (digit d) = true := by
  have hall : ∀ d < 10, isDigit (digit d) = true := by decide
  exact hall d h

def decimal (n : ℕ) : Bytes := utf8 n.repr

theorem decimal_of_lt {n : ℕ} (h : n < 10) : decimal n = [digit n] := by
  rw [decimal, Nat.repr_of_lt h, utf8_digitChar h]

theorem decimal_of_ge {n : ℕ} (h : 10 ≤ n) : decimal n = decimal (n / 10) ++ [digit (n % 10)] := by
  rw [decimal, Nat.repr_of_ge h, utf8_append, utf8_digitChar (Nat.mod_lt n (by omega)), decimal]

theorem decimal_ne_nil (n : ℕ) : decimal n ≠ [] := by
  by_cases h : n < 10
  · simp [decimal_of_lt h]
  · simp [decimal_of_ge (by omega : 10 ≤ n)]

theorem isDigit_decimal (n : ℕ) : ∀ b ∈ decimal n, isDigit b = true := by
  induction n using Nat.strong_induction_on with
  | _ n ih =>
    by_cases h : n < 10
    · rw [decimal_of_lt h]
      simpa using isDigit_digit h
    · rw [decimal_of_ge (by omega)]
      intro b hb
      rcases List.mem_append.mp hb with hb | hb
      · exact ih (n / 10) (by omega) b hb
      · rw [List.mem_singleton.mp hb]
        exact isDigit_digit (Nat.mod_lt n (by omega))

theorem digitsVal_append (s : Bytes) (b : UInt8) :
    digitsVal (s ++ [b]) = 10 * digitsVal s + (b.toNat - 48) := by
  simp [digitsVal]

theorem digitsVal_decimal (n : ℕ) : digitsVal (decimal n) = n := by
  induction n using Nat.strong_induction_on with
  | _ n ih =>
    by_cases h : n < 10
    · rw [decimal_of_lt h]
      simp [digitsVal, digit_toNat h]
    · have hmod : n % 10 < 10 := Nat.mod_lt n (by omega)
      rw [decimal_of_ge (by omega), digitsVal_append, ih (n / 10) (by omega), digit_toNat hmod]
      omega

theorem dropLast_decimal (n : ℕ) :
    (decimal n).dropLast = if n < 10 then [] else decimal (n / 10) := by
  split_ifs with h
  · rw [decimal_of_lt h]
    rfl
  · rw [decimal_of_ge (by omega), List.dropLast_concat]

theorem isDigits_decimal (n : ℕ) : isDigits (decimal n) = true := by
  simp only [isDigits, Bool.and_eq_true, decide_eq_true_eq, List.all_eq_true]
  exact ⟨decimal_ne_nil n, isDigit_decimal n⟩

theorem head_decimal (n : ℕ) : (decimal n).head? ≠ some 45 := by
  intro h
  have hd := isDigit_decimal n 45 (List.mem_of_mem_head? (by simp [h]))
  exact absurd hd (by decide)

theorem tonumber_decimal {n : ℕ} (h : n < 2 ^ 63) : tonumber (decimal n) = some (.int n) := by
  simp only [tonumber, head_decimal, isDigits_decimal, digitsVal_decimal, decide_false,
    if_false, add_zero, true_and, if_pos h]

theorem tonumber_neg_decimal {n : ℕ} (h : n ≤ 2 ^ 63) :
    tonumber (45 :: decimal n) = some (.int (-n)) := by
  have hlt : n < 2 ^ 63 + 1 := by omega
  simp only [tonumber, List.head?_cons, decide_true, if_true, List.tail_cons, isDigits_decimal,
    digitsVal_decimal, true_and, if_pos hlt]

/-- The integers of Lua. -/
def InRange (n : ℤ) : Prop := -2 ^ 63 ≤ n ∧ n < 2 ^ 63

theorem utf8_toString (n : ℤ) :
    utf8 (toString n) = if 0 ≤ n then decimal n.toNat else 45 :: decimal (-n).toNat := by
  have hminus : utf8 "-" = [45] := by decide
  rw [Int.toString_eq_repr, Int.repr_eq_if]
  split_ifs
  · rfl
  · rw [utf8_append, hminus]
    rfl

theorem numeral_toString {n : ℤ} (h : InRange n) : numeral (utf8 (toString n)) = .num (.int n) := by
  obtain ⟨hlo, hhi⟩ := h
  rw [utf8_toString]
  split_ifs with hn
  · have ht : n.toNat < 2 ^ 63 := by omega
    have hc : (n.toNat : ℤ) = n := Int.toNat_of_nonneg hn
    rw [numeral, tonumber_decimal ht, hc]
    rfl
  · have ht : (-n).toNat ≤ 2 ^ 63 := by omega
    have hc : -((-n).toNat : ℤ) = n := by omega
    rw [numeral, tonumber_neg_decimal ht, hc]
    rfl

/-- Without its last byte it is read as another value, or not at all. -/
theorem numeral_dropLast {n : ℤ} (h : InRange n) :
    numeral (utf8 (toString n)).dropLast ≠ .num (.int n) := by
  obtain ⟨hlo, hhi⟩ := h
  have hnil : numeral [] = .nil := by
    have h : tonumber [] = none := by decide
    rw [numeral, h]
    rfl
  have hminus : numeral [45] = .nil := by
    have h : tonumber [45] = none := by decide
    rw [numeral, h]
    rfl
  rw [utf8_toString]
  split_ifs with hn
  · rw [dropLast_decimal]
    split_ifs with hd
    · simp [hnil]
    · have ht : n.toNat / 10 < 2 ^ 63 := by omega
      rw [numeral, tonumber_decimal ht]
      simp only [Option.map_some, Option.getD_some, ne_eq, Value.num.injEq, Number.int.injEq]
      omega
  · rw [List.dropLast_cons_of_ne_nil (decimal_ne_nil _), dropLast_decimal]
    split_ifs with hd
    · simp [hminus]
    · have ht : (-n).toNat / 10 ≤ 2 ^ 63 := by omega
      rw [numeral, tonumber_neg_decimal ht]
      simp only [Option.map_some, Option.getD_some, ne_eq, Value.num.injEq, Number.int.injEq]
      omega

theorem mem_toString {n : ℤ} {b : UInt8} (h : b ∈ utf8 (toString n)) : isDigit b = true ∨ b = 45 := by
  rw [utf8_toString] at h
  split_ifs at h
  · exact Or.inl (isDigit_decimal _ b h)
  · rcases List.mem_cons.mp h with rfl | h
    · exact Or.inr rfl
    · exact Or.inl (isDigit_decimal _ b h)

theorem toString_ne_nil (n : ℤ) : utf8 (toString n) ≠ [] := by
  rw [utf8_toString]
  split_ifs
  · exact decimal_ne_nil _
  · simp

end LuaProxy.Numeral
