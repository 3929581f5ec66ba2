import LuaProxy.Base64

/-! The decoder of RFC 4648: the six bits of each character are put together and cut into
bytes. The padding has to fill the last group of four characters, and the bits that are
left over have to be zero. -/
namespace LuaProxy.Base64

def stdAlphabet (n : ℕ) : UInt8 :=
  "ABCDEFGHIJKLMNOPQRSTUVWXYZabcdefghijklmnopqrstuvwxyz0123456789+/".toUTF8.data.toList.getD n 0

def sextetBits (n : ℕ) : List Bool := [5, 4, 3, 2, 1, 0].map n.testBit

/-- The bytes of a list of bits, unless the bits after the last byte are not all zero. -/
def octets : List Bool → Option (List UInt8)
  | a :: b :: c :: d :: e :: f :: g :: h :: rest =>
    (octets rest).map (UInt8.ofNat (value [a, b, c, d, e, f, g, h]) :: ·)
  | short => if short.all (!·) then some [] else none

/-- The number of a character of the alphabet. -/
def sextet (alphabet : ℕ → UInt8) (c : UInt8) : Option ℕ :=
  (List.range 64).find? fun n => alphabet n == c

def decodeBody (alphabet : ℕ → UInt8) (body : List UInt8) : Option (List UInt8) :=
  (body.mapM (sextet alphabet)).bind fun ns => octets (ns.flatMap sextetBits)

def decode (alphabet : ℕ → UInt8) (text : List UInt8) : Option (List UInt8) :=
  let body := text.takeWhile (· != 61)
  let pad := text.dropWhile (· != 61)
  if 4 ∣ text.length ∧ pad.length ≤ 2 ∧ pad.all (· == 61) then decodeBody alphabet body else none

theorem sextetBits_value (a b c d e f : Bool) :
    sextetBits (value [a, b, c, d, e, f]) = [a, b, c, d, e, f] := by
  revert a b c d e f
  decide

theorem sextetBits_short (short : List Bool) (h : short.length ≤ 6) :
    sextetBits (value (short ++ List.replicate (6 - short.length) false)) =
      short ++ List.replicate (6 - short.length) false := by
  generalize hs : short ++ List.replicate (6 - short.length) false = six
  have hlen : six.length = 6 := by
    rw [← hs, List.length_append, List.length_replicate]
    omega
  match six, hlen with
  | [a, b, c, d, e, f], _ => exact sextetBits_value a b c d e f

theorem sextets_bits : ∀ bs : List Bool,
    ∃ k < 6, (sextets bs).flatMap sextetBits = bs ++ List.replicate k false
  | [] => ⟨0, by omega, rfl⟩
  | [a] => ⟨5, by omega, by simpa [sextets] using sextetBits_short [a] (by simp)⟩
  | [a, b] => ⟨4, by omega, by simpa [sextets] using sextetBits_short [a, b] (by simp)⟩
  | [a, b, c] => ⟨3, by omega, by simpa [sextets] using sextetBits_short [a, b, c] (by simp)⟩
  | [a, b, c, d] => ⟨2, by omega, by simpa [sextets] using sextetBits_short [a, b, c, d] (by simp)⟩
  | [a, b, c, d, e] =>
    ⟨1, by omega, by simpa [sextets] using sextetBits_short [a, b, c, d, e] (by simp)⟩
  | a :: b :: c :: d :: e :: f :: rest => by
    obtain ⟨k, hk, ih⟩ := sextets_bits rest
    refine ⟨k, hk, ?_⟩
    rw [sextets, List.flatMap_cons, sextetBits_value, ih]
    rfl

theorem octets_byte (x : UInt8) (rest : List Bool) :
    octets (byteBits x ++ rest) = (octets rest).map (x :: ·) := by
  have hx : value (byteBits x) = x.toNat := by
    have hzero := value_low x 0 (by omega)
    rwa [List.drop_zero, Nat.mod_eq_of_lt x.toNat_lt] at hzero
  have hcut : octets (byteBits x ++ rest) =
      (octets rest).map (UInt8.ofNat (value (byteBits x)) :: ·) := rfl
  rw [hcut, hx, UInt8.ofNat_toNat]

theorem octets_zeros {k : ℕ} (hk : k < 8) : octets (List.replicate k false) = some [] := by
  interval_cases k <;> rfl

theorem octets_bits (data : List UInt8) {k : ℕ} (hk : k < 8) :
    octets (bits data ++ List.replicate k false) = some data := by
  induction data with
  | nil => exact octets_zeros hk
  | cons x data ih =>
    have hcut : bits (x :: data) ++ List.replicate k false =
        byteBits x ++ (bits data ++ List.replicate k false) := by
      simp [bits]
    rw [hcut, octets_byte, ih]
    rfl

section Alphabet

variable {alphabet : ℕ → UInt8}

theorem mapM_sextet (h : ∀ n < 64, sextet alphabet (alphabet n) = some n) {ns : List ℕ}
    (hns : ∀ n ∈ ns, n < 64) : (ns.map alphabet).mapM (sextet alphabet) = some ns := by
  induction ns with
  | nil => rfl
  | cons n ns ih =>
    have hn := h n (hns n (by simp))
    have hrest := ih fun m hm => hns m (by simp [hm])
    rw [List.map_cons, List.mapM_cons, hn, hrest]
    rfl

theorem decodeBody_unpadded (h : ∀ n < 64, sextet alphabet (alphabet n) = some n)
    (data : List UInt8) : decodeBody alphabet (unpadded alphabet data) = some data := by
  obtain ⟨k, hk, hbits⟩ := sextets_bits (bits data)
  rw [decodeBody, unpadded, mapM_sextet h (sextets_lt data), Option.bind_some, hbits,
    octets_bits data (by omega)]

theorem unpadded_injective (h : ∀ n < 64, sextet alphabet (alphabet n) = some n) :
    Function.Injective (unpadded alphabet) := by
  intro a b hab
  have ha := decodeBody_unpadded h a
  rw [hab, decodeBody_unpadded h b] at ha
  exact (Option.some.inj ha).symm

theorem mem_unpadded {p : UInt8 → Prop} (h : ∀ n < 64, p (alphabet n)) {data : List UInt8}
    {c : UInt8} (hc : c ∈ unpadded alphabet data) : p c := by
  obtain ⟨n, hn, rfl⟩ := List.mem_map.mp hc
  exact h n (sextets_lt data n hn)

theorem padded_length (len : ℕ) :
    (4 * len + 2) / 3 + (3 - len % 3) % 3 = 4 * ((len + 2) / 3) := by
  obtain ⟨q, hq⟩ : ∃ q, len = 3 * q + len % 3 := ⟨len / 3, (Nat.div_add_mod _ 3).symm⟩
  have hlt : len % 3 < 3 := Nat.mod_lt _ (by omega)
  generalize len % 3 = r at hq hlt
  subst hq
  interval_cases r <;> omega

theorem decode_padded (h : ∀ n < 64, sextet alphabet (alphabet n) = some n)
    (hpad : ∀ n < 64, alphabet n ≠ 61) (data : List UInt8) :
    decode alphabet
      (unpadded alphabet data ++ List.replicate ((3 - data.length % 3) % 3) 61) = some data := by
  have hbody : ∀ c ∈ unpadded alphabet data, (c != 61) = true := fun c hc => by
    have hne : c ≠ 61 := mem_unpadded (p := (· ≠ 61)) hpad hc
    simpa using hne
  have hzero : (List.replicate ((3 - data.length % 3) % 3) (61 : UInt8)).takeWhile (· != 61) = [] := by
    cases (3 - data.length % 3) % 3 <;> simp [List.replicate_succ]
  have hall : (List.replicate ((3 - data.length % 3) % 3) (61 : UInt8)).dropWhile (· != 61) =
      List.replicate ((3 - data.length % 3) % 3) 61 := by
    cases (3 - data.length % 3) % 3 <;> simp [List.replicate_succ]
  rw [decode, List.takeWhile_append_of_pos hbody, List.dropWhile_append_of_pos hbody, hzero, hall,
    List.append_nil, if_pos, decodeBody_unpadded h]
  constructor
  · rw [List.length_append, unpadded_length, List.length_replicate]
    exact padded_length data.length ▸ Nat.dvd_mul_right 4 _
  · constructor
    · rw [List.length_replicate]
      omega
    · simp

end Alphabet

theorem sextet_std : ∀ n < 64, sextet stdAlphabet (stdAlphabet n) = some n := by decide

theorem sextet_url : ∀ n < 64, sextet urlAlphabet (urlAlphabet n) = some n := by decide

end LuaProxy.Base64
