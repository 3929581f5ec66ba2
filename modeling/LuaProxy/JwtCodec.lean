import LuaProxy.Jwt
import LuaProxy.LuaPatternSpec

/-! What `b64url_encode` and `b64url_decode` compute: the first is unpadded base64 with
the alphabet for URLs, the second undoes it up to the last group. -/
namespace LuaProxy.JwtCodec
open Text Lua LuaPattern Context EngineCodec HookMonad Jwt

def swap (a b x : UInt8) : UInt8 := if x = a then b else x

theorem gsubAll_swap (a b : UInt8) (s : Bytes) :
    gsubAll [.one (.one (.lit a))] [b] s = s.map (swap a b) := by
  rw [gsubAll_lit, List.map_eq_flatMap]
  congr 1
  funext x
  unfold swap
  split_ifs <;> rfl

theorem gsub_eq {pattern : String} {items : List Item}
    (h : parse (utf8 pattern) = some ⟨false, items⟩) (repl s : Bytes) :
    gsub pattern repl s = gsubAll items repl s := by
  simp [gsub, h, gsubAll]

theorem gsub_plus (s : Bytes) : gsub "+" (utf8 "-") s = s.map (swap 43 45) := by
  have hp : parse (utf8 "+") = some ⟨false, [.one (.one (.lit 43))]⟩ := by decide
  have hr : utf8 "-" = [45] := by decide
  rw [gsub_eq hp, hr, gsubAll_swap]

theorem gsub_slash (s : Bytes) : gsub "/" (utf8 "_") s = s.map (swap 47 95) := by
  have hp : parse (utf8 "/") = some ⟨false, [.one (.one (.lit 47))]⟩ := by decide
  have hr : utf8 "_" = [95] := by decide
  rw [gsub_eq hp, hr, gsubAll_swap]

theorem gsub_minus (s : Bytes) : gsub "-" (utf8 "+") s = s.map (swap 45 43) := by
  have hp : parse (utf8 "-") = some ⟨false, [.one (.one (.lit 45))]⟩ := by decide
  have hr : utf8 "+" = [43] := by decide
  rw [gsub_eq hp, hr, gsubAll_swap]

theorem gsub_underscore (s : Bytes) : gsub "_" (utf8 "/") s = s.map (swap 95 47) := by
  have hp : parse (utf8 "_") = some ⟨false, [.one (.one (.lit 95))]⟩ := by decide
  have hr : utf8 "/" = [47] := by decide
  rw [gsub_eq hp, hr, gsubAll_swap]

/-- The items of `=+$`. -/
def paddingItems : List Item := [.plus (.one (.lit 61)), .eos]

theorem matchHere_padding_end (k : ℕ) :
    matchHere paddingItems (List.replicate (k + 1) 61) [] = some ([], []) := by
  have hk : ∀ b t, Class.test (.one (.lit 61)) b →
      (fun u => matchHere [.eos] u ([] : List Capture)) (b :: t) = none := by
    intro b t _
    simp [matchHere]
  simp only [paddingItems, matchHere, List.replicate_succ]
  rw [if_pos (by rfl), maxExpand_eq hk]
  have hd : (List.replicate k (61 : UInt8)).dropWhile (Class.test (.one (.lit 61))) = [] := by
    rw [List.dropWhile_replicate]
    rfl
  rw [hd]
  simp

theorem matchHere_padding_other {b : UInt8} (h : b ≠ 61) (t : Bytes) :
    matchHere paddingItems (b :: t) [] = none := by
  simp [paddingItems, matchHere, Class.test, Single.test, h]

theorem gsub_padding {w : Bytes} (hw : ∀ b ∈ w, b ≠ 61) (k : ℕ) :
    gsub "=+$" [] (w ++ List.replicate k 61) = w := by
  have hp : parse (utf8 "=+$") = some ⟨false, paddingItems⟩ := by decide
  have hprod : Productive paddingItems := productive_plus _ _
  rw [gsub_eq hp]
  induction w with
  | nil =>
    cases k with
    | zero => exact gsubAll_nil hprod []
    | succ k =>
      rw [List.nil_append, gsubAll_match hprod (matchHere_padding_end k), gsubAll_nil hprod]
      rfl
  | cons b w ih =>
    rw [List.cons_append, gsubAll_skip hprod (matchHere_padding_other (hw b (by simp)) _),
      ih fun x hx => hw x (by simp [hx])]

theorem swap_alphabet {n : ℕ} (h : n < 64) :
    swap 47 95 (swap 43 45 (alphabet n)) = Base64.urlAlphabet n := by
  have hall : ∀ n < 64, swap 47 95 (swap 43 45 (alphabet n)) = Base64.urlAlphabet n := by
    decide
  exact hall n h

theorem swap_urlAlphabet {n : ℕ} (h : n < 64) :
    swap 95 47 (swap 45 43 (Base64.urlAlphabet n)) = alphabet n := by
  have hall : ∀ n < 64, swap 95 47 (swap 45 43 (Base64.urlAlphabet n)) = alphabet n := by
    decide
  exact hall n h

theorem urlAlphabet_ne {n : ℕ} (h : n < 64) :
    Base64.urlAlphabet n ≠ 61 ∧ Base64.urlAlphabet n ≠ 46 ∧
      (32 < Base64.urlAlphabet n ∧ Base64.urlAlphabet n < 127) ∧
      Single.space.test (Base64.urlAlphabet n) = false := by
  have hall : ∀ n < 64, Base64.urlAlphabet n ≠ 61 ∧ Base64.urlAlphabet n ≠ 46 ∧
      (32 < Base64.urlAlphabet n ∧ Base64.urlAlphabet n < 127) ∧
      Single.space.test (Base64.urlAlphabet n) = false := by
    decide
  exact hall n h

/-- The base64url text of some bytes, as the standard has it. -/
def b64url (data : Bytes) : Bytes := Base64.unpadded Base64.urlAlphabet data

theorem mem_b64url {data : Bytes} {b : UInt8} (h : b ∈ b64url data) :
    b ≠ 61 ∧ b ≠ 46 ∧ (32 < b ∧ b < 127) ∧ Single.space.test b = false := by
  obtain ⟨n, hn, rfl⟩ := List.mem_map.mp h
  exact urlAlphabet_ne (Base64.sextets_lt data n hn)

theorem b64url_length (data : Bytes) : (b64url data).length = (4 * data.length + 2) / 3 :=
  Base64.unpadded_length _ data

variable (host : Host)

theorem b64urlEncode_utf8 (t : String) :
    b64urlEncode host (utf8 t) = .ok (b64url (utf8 t)) := by
  have hmap : ((base64Encode (utf8 t)).map (swap 43 45)).map (swap 47 95) =
      b64url (utf8 t) ++ List.replicate (padding (utf8 t).length) 61 := by
    have hpad : swap 47 95 (swap 43 45 61) = 61 := by decide
    rw [base64Encode_eq, List.map_append, List.map_append, List.map_replicate, List.map_replicate,
      hpad, b64url, Base64.unpadded, Base64.unpadded, List.map_map, List.map_map]
    congr 1
    refine List.map_congr_left fun n hn => ?_
    exact swap_alphabet (Base64.sextets_lt _ n hn)
  have henc : b64urlEncode host (utf8 t) =
      .ok (gsub "=+$" [] (gsub "/" (utf8 "_") (gsub "+" (utf8 "-") (base64Encode (utf8 t))))) := by
    simp only [b64urlEncode, toRustString, fromUtf8_utf8]
    rfl
  rw [henc, gsub_plus, gsub_slash, hmap, gsub_padding fun b hb => (mem_b64url hb).1]

theorem pad_b64url (data : Bytes) : pad (b64url data).length = padding data.length := by
  rw [b64url_length]
  obtain ⟨q, hq⟩ : ∃ q, data.length = 3 * q + data.length % 3 :=
    ⟨data.length / 3, (Nat.div_add_mod _ 3).symm⟩
  have hlt : data.length % 3 < 3 := Nat.mod_lt _ (by omega)
  generalize data.length % 3 = r at hq hlt
  simp only [pad, padding, hq]
  interval_cases r <;> omega

theorem base64Encode_of_b64url (data : Bytes) :
    gsub "_" (utf8 "/") (gsub "-" (utf8 "+") (b64url data)) ++
        List.replicate (pad (b64url data).length) 61 = base64Encode data := by
  rw [gsub_minus, gsub_underscore, pad_b64url, base64Encode_eq]
  congr 1
  rw [b64url, Base64.unpadded, Base64.unpadded, List.map_map, List.map_map]
  refine List.map_congr_left fun n hn => ?_
  exact swap_urlAlphabet (Base64.sextets_lt _ n hn)

theorem base64Encode_ascii (data : Bytes) : Ascii (base64Encode data) := by
  have hall : ∀ n < 64, alphabet n < 128 := by decide
  rw [base64Encode_eq]
  intro b hb
  rcases List.mem_append.mp hb with hb | hb
  · obtain ⟨n, hn, rfl⟩ := List.mem_map.mp hb
    exact hall n (Base64.sextets_lt data n hn)
  · rw [List.eq_of_mem_replicate hb]
    decide

/-- The bytes that survive `base64_decode`: whole groups of three. -/
def whole (data : Bytes) : Bytes := data.take (data.length / 3 * 3)

theorem whole_append (a b : Bytes) (h : (a ++ b).length % 3 = b.length) : whole (a ++ b) = a := by
  have hl : (a ++ b).length / 3 * 3 = a.length := by
    have hd := Nat.div_add_mod (a ++ b).length 3
    rw [List.length_append] at hd h ⊢
    omega
  rw [whole, hl, List.take_left]

theorem whole_text {data a b : Bytes} (hd : data = a ++ b) (hl : data.length % 3 = b.length)
    (hv : ValidUtf8 data) (hb : Ascii b) : ValidUtf8 (whole data) ∧ whole data = a := by
  subst hd
  rw [whole_append a b hl]
  exact ⟨hv.of_append_ascii hb, rfl⟩

/-- What `b64url_decode` reads from the base64url text of some bytes: whole groups of
three of them, or nothing when these are no UTF-8 text. -/
theorem b64urlDecode_b64url (data : Bytes) :
    b64urlDecode host (b64url data) = .ok (utf8 ((fromUtf8 (whole data)).getD "")) := by
  have hlen : (gsub "_" (utf8 "/") (gsub "-" (utf8 "+") (b64url data))).length =
      (b64url data).length := by
    rw [gsub_minus, gsub_underscore, List.length_map, List.length_map]
  have hutf8 : utf8 (latin1 (base64Encode data)) = base64Encode data :=
    utf8_latin1_ascii (base64Encode_ascii data)
  simp only [b64urlDecode, toRustString, hlen, base64Encode_of_b64url,
    fromUtf8_ascii (base64Encode_ascii data)]
  change Except.ok (utf8 ((base64Decode (latin1 (base64Encode data))).getD "")) = _
  rw [base64Decode, hutf8, decodeGroups_encode]
  rfl

end LuaProxy.JwtCodec
