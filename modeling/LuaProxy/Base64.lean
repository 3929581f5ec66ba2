import Mathlib.Data.List.Basic
import Mathlib.Data.Nat.Bitwise
import Mathlib.Tactic

/-! Base64 as the standard describes it: the bits of the bytes, most significant first,
are cut into groups of six, the last one filled up with zeros, and each group is a
character of the alphabet. -/
namespace LuaProxy.Base64

def byteBits (x : UInt8) : List Bool := [7, 6, 5, 4, 3, 2, 1, 0].map x.toNat.testBit

def bits (data : List UInt8) : List Bool := data.flatMap byteBits

def value (bs : List Bool) : ℕ := bs.foldl (fun n b => 2 * n + b.toNat) 0

def sextets : List Bool → List ℕ
  | [] => []
  | a :: b :: c :: d :: e :: f :: rest => value [a, b, c, d, e, f] :: sextets rest
  | short => [value (short ++ List.replicate (6 - short.length) false)]

def unpadded (alphabet : ℕ → UInt8) (data : List UInt8) : List UInt8 :=
  (sextets (bits data)).map alphabet

def urlAlphabet (n : ℕ) : UInt8 :=
  "ABCDEFGHIJKLMNOPQRSTUVWXYZabcdefghijklmnopqrstuvwxyz0123456789-_".toUTF8.data.toList.getD n 0

theorem value_append (as bs : List Bool) :
    value (as ++ bs) = value as * 2 ^ bs.length + value bs := by
  induction bs using List.reverseRecOn with
  | nil => simp [value]
  | append_singleton bs b ih =>
    have hl : ∀ cs, value (cs ++ [b]) = 2 * value cs + b.toNat := by simp [value]
    rw [← List.append_assoc, hl, hl, ih, List.length_append, pow_add]
    simp only [List.length_singleton, pow_one]
    ring

theorem value_testBit (n w : ℕ) : value ((List.range w).reverse.map n.testBit) = n % 2 ^ w := by
  induction w with
  | zero => simp [value, Nat.mod_one]
  | succ w ih =>
    have htop : value [n.testBit w] = n / 2 ^ w % 2 := by
      simp [value, Nat.toNat_testBit]
    rw [List.range_succ, List.reverse_append, List.reverse_singleton, List.map_append,
      List.map_singleton, value_append, ih, htop, List.length_map, List.length_reverse,
      List.length_range, Nat.mod_pow_succ]
    ring

theorem value_low (x : UInt8) (k : ℕ) (hk : k ≤ 8) :
    value ((byteBits x).drop k) = x.toNat % 2 ^ (8 - k) := by
  rw [← value_testBit]
  interval_cases k <;> rfl

theorem value_high (x : UInt8) (k : ℕ) (hk : k ≤ 8) :
    value ((byteBits x).take k) = x.toNat / 2 ^ (8 - k) := by
  have hall : value (byteBits x) = x.toNat := by
    have hzero := value_low x 0 (by omega)
    rwa [List.drop_zero, Nat.mod_eq_of_lt x.toNat_lt] at hzero
  have hsplit := value_append ((byteBits x).take k) ((byteBits x).drop k)
  rw [List.take_append_drop, hall, value_low x k hk, List.length_drop] at hsplit
  have hlength : (byteBits x).length = 8 := rfl
  rw [hlength] at hsplit
  have hdiv := Nat.div_add_mod' x.toNat (2 ^ (8 - k))
  exact Nat.eq_of_mul_eq_mul_right (Nat.two_pow_pos (8 - k)) (by omega)

theorem sextets_six (s rest : List Bool) (hs : s.length = 6) :
    sextets (s ++ rest) = value s :: sextets rest := by
  match s, hs with
  | [a, b, c, d, e, f], _ => rfl

theorem byteBits_split (x : UInt8) (k : ℕ) :
    byteBits x = (byteBits x).take k ++ (byteBits x).drop k := (List.take_append_drop k _).symm

@[simp] theorem byteBits_length (x : UInt8) : (byteBits x).length = 8 := rfl

theorem sextets_three (x y z : UInt8) (data : List UInt8) :
    sextets (bits (x :: y :: z :: data)) =
      x.toNat / 4 :: (x.toNat % 4 * 16 + y.toNat / 16) :: (y.toNat % 16 * 4 + z.toNat / 64) ::
        z.toNat % 64 :: sextets (bits data) := by
  have hb : bits (x :: y :: z :: data) =
      (byteBits x).take 6 ++ (((byteBits x).drop 6 ++ (byteBits y).take 4) ++
        (((byteBits y).drop 4 ++ (byteBits z).take 2) ++ ((byteBits z).drop 2 ++ bits data))) := by
    simp only [bits, List.flatMap_cons]
    conv_lhs => rw [byteBits_split x 6, byteBits_split y 4, byteBits_split z 2]
    simp only [List.append_assoc]
  rw [hb, sextets_six _ _ (by simp), sextets_six _ _ (by simp), sextets_six _ _ (by simp),
    sextets_six _ _ (by simp), value_append, value_append, value_high x 6 (by omega),
    value_low x 6 (by omega), value_high y 4 (by omega), value_low y 4 (by omega),
    value_high z 2 (by omega), value_low z 2 (by omega)]
  simp

theorem sextets_two (x y : UInt8) :
    sextets (bits [x, y]) = [x.toNat / 4, x.toNat % 4 * 16 + y.toNat / 16, y.toNat % 16 * 4] := by
  have hb : bits [x, y] =
      (byteBits x).take 6 ++ (((byteBits x).drop 6 ++ (byteBits y).take 4) ++
        (byteBits y).drop 4) := by
    simp only [bits, List.flatMap_cons, List.flatMap_nil]
    conv_lhs => rw [byteBits_split x 6, byteBits_split y 4]
    simp only [List.append_assoc, List.append_nil]
  have hlast : sextets ((byteBits y).drop 4) = [value ((byteBits y).drop 4 ++ [false, false])] :=
    rfl
  rw [hb, sextets_six _ _ (by simp), sextets_six _ _ (by simp), hlast, value_append, value_append,
    value_high x 6 (by omega), value_low x 6 (by omega), value_high y 4 (by omega),
    value_low y 4 (by omega)]
  simp [value]

theorem sextets_one (x : UInt8) :
    sextets (bits [x]) = [x.toNat / 4, x.toNat % 4 * 16] := by
  have hb : bits [x] = (byteBits x).take 6 ++ (byteBits x).drop 6 := by
    simp only [bits, List.flatMap_cons, List.flatMap_nil, List.append_nil]
    exact byteBits_split x 6
  have hlast : sextets ((byteBits x).drop 6) =
      [value ((byteBits x).drop 6 ++ [false, false, false, false])] := rfl
  rw [hb, sextets_six _ _ (by simp), hlast, value_append, value_high x 6 (by omega),
    value_low x 6 (by omega)]
  simp [value]

theorem sextets_length : ∀ data : List UInt8,
    (sextets (bits data)).length = (4 * data.length + 2) / 3
  | [] => rfl
  | [x] => by simp [sextets_one]
  | [x, y] => by simp [sextets_two]
  | x :: y :: z :: data => by
    rw [sextets_three]
    simp only [List.length_cons, sextets_length data]
    omega

theorem unpadded_length (alphabet : ℕ → UInt8) (data : List UInt8) :
    (unpadded alphabet data).length = (4 * data.length + 2) / 3 := by
  rw [unpadded, List.length_map, sextets_length]

theorem sextets_lt : ∀ data : List UInt8, ∀ n ∈ sextets (bits data), n < 64
  | [] => by simp [bits, sextets]
  | [x] => by
    have hx := x.toNat_lt
    rw [sextets_one]
    simp only [List.mem_cons, List.not_mem_nil, or_false, forall_eq_or_imp, forall_eq]
    omega
  | [x, y] => by
    have hx := x.toNat_lt
    have hy := y.toNat_lt
    rw [sextets_two]
    simp only [List.mem_cons, List.not_mem_nil, or_false, forall_eq_or_imp, forall_eq]
    omega
  | x :: y :: z :: data => by
    have hx := x.toNat_lt
    have hy := y.toNat_lt
    have hz := z.toNat_lt
    have ih := sextets_lt data
    rw [sextets_three]
    simp only [List.mem_cons, forall_eq_or_imp]
    exact ⟨by omega, by omega, by omega, by omega, ih⟩

end LuaProxy.Base64
