import LuaProxy.Base64
import LuaProxy.Context

/-! The codecs `lua/engine.rs` gives to Lua: base64, HMAC-SHA256 and JSON. Texts they make
of ASCII characters only are kept as their bytes. -/
namespace LuaProxy.EngineCodec
open Text Lua Context

def chars : Bytes := utf8 "ABCDEFGHIJKLMNOPQRSTUVWXYZabcdefghijklmnopqrstuvwxyz0123456789+/"

/-- `CHARS[(n & 63) as usize]` -/
def charAt (n : UInt32) : UInt8 := chars.getD (n &&& 63).toNat 0

def encodeChunk (b0 b1 b2 : UInt8) (len : ℕ) : Bytes :=
  let n := (b0.toUInt32 <<< 16) ||| (b1.toUInt32 <<< 8) ||| b2.toUInt32
  [charAt (n >>> 18), charAt (n >>> 12), if len > 1 then charAt (n >>> 6) else 61,
    if len > 2 then charAt n else 61]

def base64Encode : Bytes → Bytes
  | [] => []
  | [x] => encodeChunk x 0 0 1
  | [x, y] => encodeChunk x y 0 2
  | x :: y :: z :: data => encodeChunk x y z 3 ++ base64Encode data

/-- The `DECODE` table, which has no entry for other characters. -/
def decodeChar (b : UInt8) : Option UInt8 := (chars.idxOf? b).map UInt8.ofNat

/-- The three bytes of four characters. -/
def decodeGroup (v0 v1 v2 v3 : UInt8) : Bytes :=
  let n := (v0.toUInt32 <<< 18) ||| (v1.toUInt32 <<< 12) ||| (v2.toUInt32 <<< 6) ||| v3.toUInt32
  [(n >>> 16).toUInt8, (n >>> 8).toUInt8, n.toUInt8]

/-- The loop of `base64_decode`: it ends before a group with padding and before an
incomplete one, and fails on a character outside the alphabet. -/
def decodeGroups : Bytes → Option Bytes
  | a :: b :: c :: d :: rest =>
    if [a, b, c, d].any (· == 61) then some []
    else do
      let v0 ← decodeChar a
      let v1 ← decodeChar b
      let v2 ← decodeChar c
      let v3 ← decodeChar d
      let out ← decodeGroups rest
      some (decodeGroup v0 v1 v2 v3 ++ out)
  | _ => some []

def base64Decode (s : String) : Option String := (decodeGroups (utf8 s)).bind fromUtf8

/-- The MAC as a text with one character for each byte. -/
def hmacSha256Raw (host : Host) (msg secret : Bytes) : String :=
  latin1 (host.hmacSha256 secret msg).toList

/-- `text.replace('"', "\\\"")` -/
def escapeQuotes (s : String) : String :=
  String.ofList (s.toList.flatMap fun c => if c = '"' then ['\\', '"'] else [c])

mutual

def luaValueToJson (host : Host) : Value → String
  | .str s =>
    match fromUtf8 s with
    | some text => "\"" ++ escapeQuotes text ++ "\""
    | none => "\"\""
  | .num (.int n) => toString n
  | .num (.float d) => host.displayFloat d
  | .bool b => toString b
  | .nil => "null"
  | .table (v :: vs) _ => "[" ++ ",".intercalate (jsonItems host (v :: vs)) ++ "]"
  | .table [] fields => "\x7b" ++ ",".intercalate (jsonPairs host fields) ++ "\x7d"
  | .other => "null"

def jsonItems (host : Host) : List Value → List String
  | [] => []
  | v :: vs => luaValueToJson host v :: jsonItems host vs

def jsonPairs (host : Host) : List (Value × Value) → List String
  | [] => []
  | (k, v) :: ps => (luaValueToJson host k ++ ":" ++ luaValueToJson host v) :: jsonPairs host ps

end

section Groups

theorem pack_bytes {x y z k m : ℕ} (hy : y < 2 ^ m) (hz : z < 2 ^ k) :
    x <<< (m + k) ||| y <<< k ||| z = (x * 2 ^ m + y) * 2 ^ k + z := by
  have hxy : x <<< m ||| y = x * 2 ^ m + y := by
    rw [← Nat.shiftLeft_add_eq_or_of_lt hy, Nat.shiftLeft_eq]
  rw [Nat.shiftLeft_add, ← Nat.shiftLeft_or_distrib, hxy, ← Nat.shiftLeft_add_eq_or_of_lt hz,
    Nat.shiftLeft_eq]

theorem shiftLeft_toNat (x : UInt8) (k : UInt32) (hk : k.toNat ≤ 24) :
    (x.toUInt32 <<< k).toNat = x.toNat <<< k.toNat := by
  have hx := x.toNat_lt
  have hlt : x.toNat <<< k.toNat < 2 ^ 32 := by
    rw [Nat.shiftLeft_eq]
    calc x.toNat * 2 ^ k.toNat < 2 ^ 8 * 2 ^ k.toNat := by gcongr
      _ ≤ 2 ^ 8 * 2 ^ 24 := by gcongr; norm_num
  rw [UInt32.toNat_shiftLeft, UInt8.toNat_toUInt32, Nat.mod_eq_of_lt (show k.toNat < 32 by omega),
    Nat.mod_eq_of_lt hlt]

theorem chunk_toNat (x y z : UInt8) :
    ((x.toUInt32 <<< 16) ||| (y.toUInt32 <<< 8) ||| z.toUInt32).toNat =
      (x.toNat * 256 + y.toNat) * 256 + z.toNat := by
  rw [UInt32.toNat_or, UInt32.toNat_or, shiftLeft_toNat x 16 (by decide),
    shiftLeft_toNat y 8 (by decide), UInt8.toNat_toUInt32]
  exact pack_bytes (k := 8) (m := 8) y.toNat_lt z.toNat_lt

theorem charAt_eq (n : UInt32) : charAt n = chars.getD (n.toNat % 64) 0 := by
  have h : n.toNat &&& 63 = n.toNat % 64 := Nat.and_two_pow_sub_one_eq_mod n.toNat 6
  simp [charAt, h]

def alphabet (n : ℕ) : UInt8 := chars.getD n 0

theorem encodeChunk_eq (x y z : UInt8) (len : ℕ) :
    encodeChunk x y z len =
      [alphabet (x.toNat / 4), alphabet (x.toNat % 4 * 16 + y.toNat / 16),
        if len > 1 then alphabet (y.toNat % 16 * 4 + z.toNat / 64) else 61,
        if len > 2 then alphabet (z.toNat % 64) else 61] := by
  have hx := x.toNat_lt
  have hy := y.toNat_lt
  have hz := z.toNat_lt
  have h18 : (18 : UInt32).toNat % 32 = 18 := rfl
  have h12 : (12 : UInt32).toNat % 32 = 12 := rfl
  have h6 : (6 : UInt32).toNat % 32 = 6 := rfl
  simp only [encodeChunk, charAt_eq, UInt32.toNat_shiftRight, chunk_toNat, Nat.shiftRight_eq_div_pow,
    h18, h12, h6, alphabet]
  have e1 : ((x.toNat * 256 + y.toNat) * 256 + z.toNat) / 2 ^ 18 % 64 = x.toNat / 4 := by omega
  have e2 : ((x.toNat * 256 + y.toNat) * 256 + z.toNat) / 2 ^ 12 % 64 =
      x.toNat % 4 * 16 + y.toNat / 16 := by omega
  have e3 : ((x.toNat * 256 + y.toNat) * 256 + z.toNat) / 2 ^ 6 % 64 =
      y.toNat % 16 * 4 + z.toNat / 64 := by omega
  have e4 : ((x.toNat * 256 + y.toNat) * 256 + z.toNat) % 64 = z.toNat % 64 := by omega
  rw [e1, e2, e3, e4]

def padding (len : ℕ) : ℕ := (3 - len % 3) % 3

theorem base64Encode_eq : ∀ data : Bytes,
    base64Encode data =
      Base64.unpadded alphabet data ++ List.replicate (padding data.length) 61
  | [] => rfl
  | [x] => by
    simp [base64Encode, encodeChunk_eq, Base64.unpadded, Base64.sextets_one, padding]
  | [x, y] => by
    simp [base64Encode, encodeChunk_eq, Base64.unpadded, Base64.sextets_two, padding]
  | x :: y :: z :: data => by
    have ih := base64Encode_eq data
    have hp : padding (x :: y :: z :: data).length = padding data.length := by
      simp only [padding, List.length_cons]
      omega
    rw [base64Encode, encodeChunk_eq, ih, hp]
    simp [Base64.unpadded, Base64.sextets_three]

theorem decodeChar_alphabet {n : ℕ} (h : n < 64) : decodeChar (alphabet n) = some (UInt8.ofNat n) := by
  have hall : ∀ n < 64, decodeChar (alphabet n) = some (UInt8.ofNat n) := by decide
  exact hall n h

theorem alphabet_ne {n : ℕ} (h : n < 64) : alphabet n ≠ 45 ∧ alphabet n ≠ 95 ∧ alphabet n ≠ 61 := by
  have hall : ∀ n < 64, alphabet n ≠ 45 ∧ alphabet n ≠ 95 ∧ alphabet n ≠ 61 := by decide
  exact hall n h

theorem group_toNat (v0 v1 v2 v3 : UInt8) (h1 : v1.toNat < 64) (h2 : v2.toNat < 64)
    (h3 : v3.toNat < 64) :
    ((v0.toUInt32 <<< 18) ||| (v1.toUInt32 <<< 12) ||| (v2.toUInt32 <<< 6) ||| v3.toUInt32).toNat =
      ((v0.toNat * 64 + v1.toNat) * 64 + v2.toNat) * 64 + v3.toNat := by
  have hh : v0.toNat <<< 12 ||| v1.toNat <<< 6 ||| v2.toNat =
      (v0.toNat * 64 + v1.toNat) * 64 + v2.toNat := pack_bytes (k := 6) (m := 6) h1 h2
  have hs : v0.toNat <<< 18 ||| v1.toNat <<< 12 ||| v2.toNat <<< 6 =
      (v0.toNat <<< 12 ||| v1.toNat <<< 6 ||| v2.toNat) <<< 6 := by
    simp only [Nat.shiftLeft_or_distrib, ← Nat.shiftLeft_add]
  rw [UInt32.toNat_or, UInt32.toNat_or, UInt32.toNat_or, shiftLeft_toNat v0 18 (by decide),
    shiftLeft_toNat v1 12 (by decide), shiftLeft_toNat v2 6 (by decide), UInt8.toNat_toUInt32]
  change v0.toNat <<< 18 ||| v1.toNat <<< 12 ||| v2.toNat <<< 6 ||| v3.toNat = _
  rw [hs, hh, ← Nat.shiftLeft_add_eq_or_of_lt (i := 6) h3, Nat.shiftLeft_eq]

theorem decodeGroup_sextets (x y z : UInt8) :
    decodeGroup (UInt8.ofNat (x.toNat / 4)) (UInt8.ofNat (x.toNat % 4 * 16 + y.toNat / 16))
      (UInt8.ofNat (y.toNat % 16 * 4 + z.toNat / 64)) (UInt8.ofNat (z.toNat % 64)) = [x, y, z] := by
  have hx := x.toNat_lt
  have hy := y.toNat_lt
  have hz := z.toNat_lt
  have t0 : (UInt8.ofNat (x.toNat / 4)).toNat = x.toNat / 4 := by
    rw [UInt8.toNat_ofNat']
    omega
  have t1 : (UInt8.ofNat (x.toNat % 4 * 16 + y.toNat / 16)).toNat =
      x.toNat % 4 * 16 + y.toNat / 16 := by
    rw [UInt8.toNat_ofNat']
    omega
  have t2 : (UInt8.ofNat (y.toNat % 16 * 4 + z.toNat / 64)).toNat =
      y.toNat % 16 * 4 + z.toNat / 64 := by
    rw [UInt8.toNat_ofNat']
    omega
  have t3 : (UInt8.ofNat (z.toNat % 64)).toNat = z.toNat % 64 := by
    rw [UInt8.toNat_ofNat']
    omega
  have hn := group_toNat (UInt8.ofNat (x.toNat / 4)) _ _ _ (by rw [t1]; omega) (by rw [t2]; omega)
    (by rw [t3]; omega)
  rw [t0, t1, t2, t3] at hn
  simp only [decodeGroup, List.cons.injEq, and_true, ← UInt8.toNat_inj, UInt32.toNat_toUInt8,
    UInt32.toNat_shiftRight, hn, Nat.shiftRight_eq_div_pow]
  have h16 : (16 : UInt32).toNat % 32 = 16 := rfl
  have h8 : (8 : UInt32).toNat % 32 = 8 := rfl
  rw [h16, h8]
  refine ⟨?_, ?_, ?_⟩ <;> omega

theorem decodeGroups_three (x y z : UInt8) (rest : Bytes) :
    decodeGroups (alphabet (x.toNat / 4) :: alphabet (x.toNat % 4 * 16 + y.toNat / 16) ::
        alphabet (y.toNat % 16 * 4 + z.toNat / 64) :: alphabet (z.toNat % 64) :: rest) =
      (decodeGroups rest).map ([x, y, z] ++ ·) := by
  have hx := x.toNat_lt
  have hy := y.toNat_lt
  have hz := z.toNat_lt
  have l0 : x.toNat / 4 < 64 := by omega
  have l1 : x.toNat % 4 * 16 + y.toNat / 16 < 64 := by omega
  have l2 : y.toNat % 16 * 4 + z.toNat / 64 < 64 := by omega
  have l3 : z.toNat % 64 < 64 := by omega
  have hg := decodeGroup_sextets x y z
  rw [decodeGroups, if_neg]
  · simp only [decodeChar_alphabet l0, decodeChar_alphabet l1, decodeChar_alphabet l2,
      decodeChar_alphabet l3, Option.bind_eq_bind, Option.bind_some, hg]
    cases decodeGroups rest <;> rfl
  · simp [(alphabet_ne l0).2.2, (alphabet_ne l1).2.2, (alphabet_ne l2).2.2, (alphabet_ne l3).2.2]

/-- Decoding gives back whole groups of three bytes only: the padded group at the end,
which stands for the last one or two bytes, is dropped. -/
theorem decodeGroups_encode : ∀ data : Bytes,
    decodeGroups (base64Encode data) = some (data.take (data.length / 3 * 3))
  | [] => rfl
  | [x] => by simp [base64Encode, encodeChunk, decodeGroups]
  | [x, y] => by simp [base64Encode, encodeChunk, decodeGroups]
  | x :: y :: z :: data => by
    have ih := decodeGroups_encode data
    have hl : (data.length + 1 + 1 + 1) / 3 * 3 = data.length / 3 * 3 + 1 + 1 + 1 := by omega
    simp only [base64Encode, encodeChunk_eq, List.cons_append, List.nil_append, gt_iff_lt,
      Nat.reduceLT, if_true, decodeGroups_three, ih, Option.map_some, List.length_cons, hl,
      List.take_succ_cons]

end Groups

end LuaProxy.EngineCodec
