import LuaProxy.Base64Decode
import LuaProxy.JwtCodec
import Mathlib.Algebra.Order.Floor.Div

/-! `base64_encode` against the standard, and what `base64_decode` makes of its output and
of any other text. -/
namespace LuaProxy.Base64RoundTrip
open Text EngineCodec JwtCodec

theorem alphabet_std : alphabet = Base64.stdAlphabet := rfl

theorem base64Encode_length (data : Bytes) :
    (base64Encode data).length = 4 * (data.length ⌈/⌉ 3) := by
  have hceil : data.length ⌈/⌉ 3 = (data.length + 2) / 3 :=
    Nat.ceilDiv_eq_add_pred_div data.length 3
  rw [base64Encode_eq, List.length_append, Base64.unpadded_length, List.length_replicate, hceil]
  exact Base64.padded_length data.length

theorem base64Encode_decodes (data : Bytes) :
    Base64.decode Base64.stdAlphabet (base64Encode data) = some data := by
  have hpad : ∀ n < 64, Base64.stdAlphabet n ≠ 61 := fun n hn => (alphabet_ne hn).2.2
  rw [base64Encode_eq, alphabet_std]
  exact Base64.decode_padded Base64.sextet_std hpad data

theorem base64Encode_injective : Function.Injective base64Encode := by
  intro a b hab
  have ha := base64Encode_decodes a
  rw [hab, base64Encode_decodes b] at ha
  exact (Option.some.inj ha).symm

/-- The encoding is the one of the standard: whole groups of four, characters of the
alphabet and then the padding, and the standard's decoder gives the bytes back. -/
theorem base64Encode_conforms (data : Bytes) :
    (base64Encode data).length = 4 * (data.length ⌈/⌉ 3) ∧
      (∃ body, (∀ c ∈ body, ∃ n < 64, c = Base64.stdAlphabet n) ∧
        base64Encode data = body ++ List.replicate ((3 - data.length % 3) % 3) 61) ∧
      Base64.decode Base64.stdAlphabet (base64Encode data) = some data := by
  refine ⟨base64Encode_length data, ⟨Base64.unpadded alphabet data, ?_, base64Encode_eq data⟩,
    base64Encode_decodes data⟩
  have hmem : ∀ n < 64, ∃ m < 64, alphabet n = Base64.stdAlphabet m := fun n hn => ⟨n, hn, rfl⟩
  intro c hc
  exact Base64.mem_unpadded (p := fun c => ∃ n < 64, c = Base64.stdAlphabet n) hmem hc

def RoundTrips (s : String) : Prop := base64Decode (latin1 (base64Encode (utf8 s))) = some s

theorem base64Decode_encode (data : Bytes) :
    base64Decode (latin1 (base64Encode data)) = fromUtf8 (whole data) := by
  rw [base64Decode, utf8_latin1_ascii (base64Encode_ascii data), decodeGroups_encode]
  rfl

/-- The texts of whole groups of three bytes come back, and no others. -/
theorem base64_comesBack_iff (s : String) : RoundTrips s ↔ 3 ∣ (utf8 s).length := by
  rw [RoundTrips, base64Decode_encode, fromUtf8_eq_some, whole, eq_comm, List.take_eq_self_iff]
  omega

/-- One byte is encoded as `YQ==`, and nothing of it comes back. -/
theorem one_byte_lost : ¬ ∀ s, RoundTrips s := by
  intro h
  have hlost : base64Decode (latin1 (base64Encode (utf8 "a"))) = some "" := by decide
  have ha := h "a"
  rw [RoundTrips, hlost] at ha
  exact absurd ha (by decide)

section Accepted

/-- The groups of four characters that are read: those before the first one with a padding
character. -/
def readPart : Bytes → Bytes
  | a :: b :: c :: d :: rest =>
    if [a, b, c, d].any (· == 61) then [] else a :: b :: c :: d :: readPart rest
  | _ => []

def OnlyEncoding (s : String) : Prop :=
  ∀ t, base64Decode s = some t → latin1 (base64Encode (utf8 t)) = s

def Whole (s : String) : Prop := 4 ∣ (utf8 s).length ∧ 61 ∉ utf8 s

/-- What is read has a character outside the alphabet, or stands for bytes that are no text. -/
def Unreadable (s : String) : Prop :=
  (∃ c ∈ readPart (utf8 s), ∀ n < 64, c ≠ alphabet n) ∨
    ∃ data, ¬ ValidUtf8 data ∧ base64Encode data = readPart (utf8 s)

theorem decodeChar_none {c : UInt8} (h : ∀ n < 64, c ≠ alphabet n) : decodeChar c = none := by
  have hlen : chars.length = 64 := by decide
  rw [decodeChar, Option.map_eq_none_iff, List.idxOf?_eq_none_iff]
  intro hmem
  obtain ⟨i, hi, rfl⟩ := List.getElem_of_mem hmem
  apply h i (hlen ▸ hi)
  rw [alphabet, List.getD_eq_getElem]

theorem group_encodes {a b c d : ℕ} (ha : a < 64) (hb : b < 64) (hc : c < 64) (hd : d < 64) :
    ∃ x y z : UInt8, a = x.toNat / 4 ∧ b = x.toNat % 4 * 16 + y.toNat / 16 ∧
      c = y.toNat % 16 * 4 + z.toNat / 64 ∧ d = z.toNat % 64 := by
  refine ⟨UInt8.ofNat (a * 4 + b / 16), UInt8.ofNat (b % 16 * 16 + c / 4),
    UInt8.ofNat (c % 4 * 64 + d), ?_⟩
  simp only [UInt8.toNat_ofNat']
  omega

theorem base64Encode_three (x y z : UInt8) (data : Bytes) :
    base64Encode (x :: y :: z :: data) =
      alphabet (x.toNat / 4) :: alphabet (x.toNat % 4 * 16 + y.toNat / 16) ::
        alphabet (y.toNat % 16 * 4 + z.toNat / 64) :: alphabet (z.toNat % 64) ::
          base64Encode data := by
  simp [base64Encode, encodeChunk_eq]

/-- The decoder fails on a character outside the alphabet; else it returns the bytes whose
encoding it has read. -/
theorem decodeGroups_cases (text : Bytes) :
    ((∃ c ∈ readPart text, ∀ n < 64, c ≠ alphabet n) ∧ decodeGroups text = none) ∨
      ∃ data, 3 ∣ data.length ∧ base64Encode data = readPart text ∧
        decodeGroups text = some data := by
  fun_induction readPart text with
  | case1 a b c d rest hpad =>
    right
    refine ⟨[], by simp, rfl, ?_⟩
    rw [decodeGroups, if_pos hpad]
  | case2 a b c d rest hpad ih =>
    by_cases hall : ∀ x ∈ [a, b, c, d], ∃ n < 64, x = alphabet n
    · obtain ⟨m0, h0, rfl⟩ := hall a (by simp)
      obtain ⟨m1, h1, rfl⟩ := hall b (by simp)
      obtain ⟨m2, h2, rfl⟩ := hall c (by simp)
      obtain ⟨m3, h3, rfl⟩ := hall d (by simp)
      obtain ⟨x, y, z, rfl, rfl, rfl, rfl⟩ := group_encodes h0 h1 h2 h3
      rw [decodeGroups_three]
      rcases ih with ⟨⟨c, hc, hout⟩, hnone⟩ | ⟨data, hlen, henc, hsome⟩
      · left
        rw [hnone]
        exact ⟨⟨c, by simp [hc], hout⟩, rfl⟩
      · right
        refine ⟨x :: y :: z :: data, ?_, ?_, ?_⟩
        · simp only [List.length_cons]
          omega
        · rw [base64Encode_three, henc]
        · rw [hsome]
          rfl
    · left
      push Not at hall
      obtain ⟨x, hx, hout⟩ := hall
      have hnone := decodeChar_none hout
      constructor
      · apply Exists.intro x
        constructor
        · exact List.mem_append_left (readPart rest) hx
        · exact hout
      · rw [decodeGroups, if_neg hpad]
        simp only [List.mem_cons, List.not_mem_nil, or_false] at hx
        rcases hx with rfl | rfl | rfl | rfl
        · simp [hnone]
        · simp [hnone]
        · simp [hnone]
        · simp [hnone]
  | case3 text hshort =>
    right
    refine ⟨[], by simp, rfl, ?_⟩
    rw [decodeGroups]
    exact hshort

theorem readPart_whole {text : Bytes} (hlen : 4 ∣ text.length) (hpad : 61 ∉ text) :
    readPart text = text := by
  fun_induction readPart text with
  | case1 a b c d rest h =>
    simp only [List.mem_cons, not_or] at hpad
    obtain ⟨ha, hb, hc, hd, -⟩ := hpad
    simp [Ne.symm ha, Ne.symm hb, Ne.symm hc, Ne.symm hd] at h
  | case2 a b c d rest h ih =>
    simp only [List.length_cons, List.mem_cons, not_or] at hlen hpad
    rw [ih (by omega) hpad.2.2.2.2]
  | case3 text hshort =>
    match text, hshort with
    | [], _ => rfl
    | [a], _ => simp at hlen
    | [a, b], _ => simp at hlen
    | [a, b, c], _ => simp at hlen
    | a :: b :: c :: d :: rest, hshort => exact absurd rfl (hshort a b c d rest)

theorem base64Encode_whole {data : Bytes} (hlen : 3 ∣ data.length) :
    base64Encode data = Base64.unpadded alphabet data := by
  have hzero : padding data.length = 0 := by
    unfold padding
    omega
  rw [base64Encode_eq, hzero, List.replicate_zero, List.append_nil]

theorem whole_of_encode {data text : Bytes} (hlen : 3 ∣ data.length)
    (h : base64Encode data = text) : 4 ∣ text.length ∧ 61 ∉ text := by
  rw [base64Encode_whole hlen] at h
  subst h
  constructor
  · rw [Base64.unpadded_length]
    omega
  · intro hmem
    exact Base64.mem_unpadded (p := (· ≠ 61)) (fun n hn => (alphabet_ne hn).2.2) hmem rfl

theorem latin1_encode_eq {data : Bytes} {s : String} :
    latin1 (base64Encode data) = s ↔ base64Encode data = utf8 s := by
  rw [← utf8_inj, utf8_latin1_ascii (base64Encode_ascii data)]

theorem onlyEncoding_iff (s : String) : OnlyEncoding s ↔ Whole s ∨ Unreadable s := by
  constructor
  · intro h
    rcases decodeGroups_cases (utf8 s) with ⟨hout, -⟩ | ⟨data, hlen, henc, hsome⟩
    · exact Or.inr (Or.inl hout)
    · by_cases hv : ValidUtf8 data
      · obtain ⟨t, rfl⟩ := hv
        have ht : base64Decode s = some t := by rw [base64Decode, hsome, Option.bind_some, fromUtf8_utf8]
        exact Or.inl (whole_of_encode hlen (latin1_encode_eq.mp (h t ht)))
      · exact Or.inr (Or.inr ⟨data, hv, henc⟩)
  · intro h t ht
    rcases decodeGroups_cases (utf8 s) with ⟨-, hnone⟩ | ⟨data, hlen, henc, hsome⟩
    · simp [base64Decode, hnone] at ht
    · rw [base64Decode, hsome, Option.bind_some, fromUtf8_eq_some] at ht
      subst ht
      rw [latin1_encode_eq]
      rcases h with ⟨hfour, hpad⟩ | ⟨c, hc, hout⟩ | ⟨data, hv, henc'⟩
      · rw [henc, readPart_whole hfour hpad]
      · rw [← henc, base64Encode_whole hlen] at hc
        obtain ⟨n, hn, rfl⟩ := Base64.mem_unpadded
          (p := fun c => ∃ n < 64, c = alphabet n) (fun n hn => ⟨n, hn, rfl⟩) hc
        exact absurd rfl (hout n hn)
      · rw [← henc] at henc'
        exact absurd ⟨t, (base64Encode_injective henc').symm⟩ hv

/-- What is accepted is the encoding of the result exactly when the text is whole groups
without padding, or is refused; two such texts never decode to the same text. -/
theorem base64Decode_accepts (s : String) :
    (OnlyEncoding s ↔ Whole s ∨ Unreadable s) ∧
      ∀ s' t, OnlyEncoding s → OnlyEncoding s' → base64Decode s = some t →
        base64Decode s' = some t → s = s' := by
  constructor
  · exact onlyEncoding_iff s
  · intro s' t h h' hs hs'
    rw [← h t hs, ← h' t hs']

theorem whole_accepted : OnlyEncoding "YWJj" :=
  (base64Decode_accepts "YWJj").1.mpr (Or.inl ⟨by decide, by decide⟩)

/-- A single character is no encoding, but decodes to the empty text. -/
theorem short_tail_accepted : ¬ ∀ s, OnlyEncoding s := by
  intro h
  have hdec : base64Decode "A" = some "" := by decide
  have henc : latin1 (base64Encode (utf8 "")) = "" := by decide
  have ha := h "A" "" hdec
  rw [henc] at ha
  exact absurd ha (by decide)

end Accepted

end LuaProxy.Base64RoundTrip
