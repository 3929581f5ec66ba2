import Mathlib.Tactic.Ring

/-! Numbers in lower-case hexadecimal digits, with zeros before them up to some width. -/
namespace LuaProxy.Hexadecimal

def digits (w n : ℕ) : List Char := (Nat.toDigits 16 n).leftpad w '0'

def hexDigits : List Char :=
  ['0', '1', '2', '3', '4', '5', '6', '7', '8', '9', 'a', 'b', 'c', 'd', 'e', 'f']

def digitValue (c : Char) : ℕ := hexDigits.idxOf c

def value (cs : List Char) : ℕ := cs.foldl (fun v c => 16 * v + digitValue c) 0

section Digits
variable {w n m : ℕ}

theorem digitChar_mem {d : ℕ} (h : d < 16) : Nat.digitChar d ∈ hexDigits := by
  have hall : ∀ d < 16, Nat.digitChar d ∈ hexDigits := by decide
  exact hall d h

theorem digitValue_digitChar {d : ℕ} (h : d < 16) : digitValue (Nat.digitChar d) = d := by
  have hall : ∀ d < 16, digitValue (Nat.digitChar d) = d := by decide
  exact hall d h

theorem toDigits_mem {c : Char} (h : c ∈ Nat.toDigits 16 n) : c ∈ hexDigits := by
  induction n using Nat.strongRecOn with
  | ind n ih =>
    rw [Nat.toDigits_eq_if (by decide)] at h
    split_ifs at h with hn
    · rw [List.mem_singleton.mp h]
      exact digitChar_mem hn
    · rcases List.mem_append.mp h with h | h
      · exact ih (n / 16) (by omega) h
      · rw [List.mem_singleton.mp h]
        exact digitChar_mem (Nat.mod_lt n (by decide))

theorem value_snoc (cs : List Char) (c : Char) : value (cs ++ [c]) = 16 * value cs + digitValue c := by
  rw [value, List.foldl_append]
  rfl

theorem value_toDigits (n : ℕ) : value (Nat.toDigits 16 n) = n := by
  induction n using Nat.strongRecOn with
  | ind n ih =>
    rw [Nat.toDigits_eq_if (by decide)]
    split_ifs with hn
    · rw [← List.nil_append [Nat.digitChar n], value_snoc, digitValue_digitChar hn]
      exact Nat.zero_add n
    · rw [value_snoc, ih (n / 16) (by omega), digitValue_digitChar (Nat.mod_lt n (by decide))]
      omega

theorem value_zeros (k : ℕ) (cs : List Char) : value (List.replicate k '0' ++ cs) = value cs := by
  induction k with
  | zero => rfl
  | succ k ih =>
    rw [List.replicate_succ, List.cons_append, ← ih]
    rfl

@[simp] theorem value_digits (w n : ℕ) : value (digits w n) = n := by
  rw [digits, List.leftpad, value_zeros, value_toDigits]

theorem digits_inj : digits w n = digits w m ↔ n = m := by
  constructor
  · intro h
    rw [← value_digits w n, h, value_digits]
  · intro h
    rw [h]

theorem digits_mem {c : Char} (h : c ∈ digits w n) : c ∈ hexDigits := by
  rw [digits, List.leftpad] at h
  rcases List.mem_append.mp h with h | h
  · rw [List.eq_of_mem_replicate h]
    decide
  · exact toDigits_mem h

theorem digits_length (w n : ℕ) : (digits w n).length = max w (Nat.toDigits 16 n).length := by
  rw [digits, List.leftpad, List.length_append, List.length_replicate]
  omega

theorem digits_length_iff (hw : 0 < w) : (digits w n).length = w ↔ n < 16 ^ w := by
  rw [digits_length, ← Nat.length_toDigits_le_iff (by decide) hw]
  omega

theorem digits_head (hn : 16 ^ 3 ≤ n) (hn' : n < 16 ^ 4) :
    (digits 4 n).head? = some (Nat.digitChar (n / 16 ^ 3)) := by
  have hstep : ∀ x, 16 ≤ x → Nat.toDigits 16 x = Nat.toDigits 16 (x / 16) ++ [Nat.digitChar (x % 16)] :=
    fun x hx => Nat.toDigits_of_base_le (by decide) hx
  have hfirst : n / 16 / 16 / 16 = n / 16 ^ 3 := by omega
  rw [digits, hstep n (by omega), hstep (n / 16) (by omega), hstep (n / 16 / 16) (by omega),
    Nat.toDigits_of_lt_base (by omega), hfirst]
  rfl

end Digits

end LuaProxy.Hexadecimal
