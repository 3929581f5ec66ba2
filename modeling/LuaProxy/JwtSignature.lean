import LuaProxy.Base64Decode
import LuaProxy.JwtCodec

/-! Which signatures `jwt.verify` accepts. The MAC reaches Lua as a text with one character
for each byte, and characters from 128 on are two bytes of UTF-8 there. -/
namespace LuaProxy.JwtSignature
open Text Lua LuaPattern Context EngineCodec HookMonad Jwt JwtCodec

variable (host : Host)

def mac (headerB64 payloadB64 secret : Bytes) : Bytes :=
  (host.hmacSha256 secret (signingInput headerB64 payloadB64)).toList

/-- The comparison accepts exactly what a standard HS256 issuer signs. -/
def Conforms (headerB64 payloadB64 secret : Bytes) : Prop :=
  ∀ sigB64, signatureMatches host headerB64 payloadB64 secret sigB64 = .ok true ↔
    sigB64 = b64url (mac host headerB64 payloadB64 secret)

theorem hmacSha256B64url_eq (msg secret : String) :
    hmacSha256B64url host (utf8 msg) (utf8 secret) =
      .ok (b64url ((host.hmacSha256 (utf8 secret) (utf8 msg)).toList.flatMap widen)) := by
  have henc := b64urlEncode_utf8 host (hmacSha256Raw host (utf8 msg) (utf8 secret))
  simp only [hmacSha256B64url, toRustString, fromUtf8_utf8]
  apply henc.trans
  rw [hmacSha256Raw, utf8_latin1]

theorem widen_length_le (b : Bytes) : b.length ≤ (b.flatMap widen).length := by
  induction b with
  | nil => simp
  | cons x b ih =>
    have hx : 1 ≤ (widen x).length := by
      unfold widen
      split_ifs <;> simp
    rw [List.flatMap_cons, List.length_append, List.length_cons]
    omega

theorem widen_length_lt {b : Bytes} (h : ¬ Ascii b) : b.length < (b.flatMap widen).length := by
  induction b with
  | nil => exact absurd (by simp [Ascii]) h
  | cons x b ih =>
    rw [List.flatMap_cons, List.length_append, List.length_cons]
    by_cases hx : x < 128
    · have hb : ¬ Ascii b := by
        intro hb
        apply h
        intro y hy
        rcases List.mem_cons.mp hy with rfl | hy
        · exact hx
        · exact hb y hy
      have hlt := ih hb
      have hone : (widen x).length = 1 := by simp [widen, hx]
      omega
    · have hle := widen_length_le b
      have htwo : (widen x).length = 2 := by simp [widen, hx]
      omega

/-- 32 MAC bytes and their widening have the same base64url text only if they are equal. -/
theorem b64url_widen_iff {b : Bytes} (hlen : b.length = 32) :
    b64url (b.flatMap widen) = b64url b ↔ Ascii b := by
  constructor
  · intro h
    by_contra hn
    have hlt := widen_length_lt hn
    have hl := congrArg List.length h
    rw [b64url_length, b64url_length, hlen] at hl
    omega
  · intro h
    rw [widen_ascii h]

theorem signatureMatches_invalid (headerB64 payloadB64 secret : Bytes)
    (h : fromUtf8 (signingInput headerB64 payloadB64) = none ∨ fromUtf8 secret = none)
    (sigB64 : Bytes) : signatureMatches host headerB64 payloadB64 secret sigB64 ≠ .ok true := by
  intro hs
  simp only [signatureMatches, hmacSha256B64url, toRustString, bind, Except.bind] at hs
  rcases h with h | h
  · simp [h] at hs
  · cases hm : fromUtf8 (signingInput headerB64 payloadB64) <;> simp [h, hm] at hs

/-- The check is the standard one exactly for the signing inputs and secrets that are
texts and whose MAC has no byte from 128 on. -/
theorem conforms_iff (headerB64 payloadB64 secret : Bytes) :
    Conforms host headerB64 payloadB64 secret ↔
      (fromUtf8 (signingInput headerB64 payloadB64)).isSome ∧ (fromUtf8 secret).isSome ∧
        Ascii (mac host headerB64 payloadB64 secret) := by
  have hlen : (mac host headerB64 payloadB64 secret).length = 32 := by simp [mac]
  cases hm : fromUtf8 (signingInput headerB64 payloadB64) with
  | none =>
    have hno := signatureMatches_invalid host headerB64 payloadB64 secret (Or.inl hm)
    simp only [Option.isSome_none, Bool.false_eq_true, false_and, iff_false]
    intro h
    exact hno _ ((h _).mpr rfl)
  | some msg =>
    cases hk : fromUtf8 secret with
    | none =>
      have hno := signatureMatches_invalid host headerB64 payloadB64 secret (Or.inr hk)
      simp only [Option.isSome_none, Bool.false_eq_true, false_and, and_false, iff_false]
      intro h
      exact hno _ ((h _).mpr rfl)
    | some key =>
      have hmsg := fromUtf8_eq_some.mp hm
      have hkey := fromUtf8_eq_some.mp hk
      have hsig : ∀ sigB64, signatureMatches host headerB64 payloadB64 secret sigB64 = .ok true ↔
          sigB64 = b64url ((mac host headerB64 payloadB64 secret).flatMap widen) := by
        intro sigB64
        have hh := hmacSha256B64url_eq host msg key
        rw [hmsg, hkey] at hh
        simp only [signatureMatches, hh, mac]
        change Except.ok (_ == sigB64) = Except.ok true ↔ _
        rw [Except.ok.injEq, beq_iff_eq]
        exact eq_comm
      simp only [Option.isSome_some, true_and, Conforms, hsig, ← b64url_widen_iff hlen]
      constructor
      · intro h
        exact (h _).mp rfl
      · intro h sigB64
        rw [h]

section Identifies

theorem latin1_injective : Function.Injective latin1 := by
  intro a b hab
  have hchar : Function.Injective fun x : UInt8 => Char.ofNat x.toNat := by
    intro x y hxy
    have hall : ∀ x : UInt8, (Char.ofNat x.toNat).toNat = x.toNat := forall_byte (by decide +kernel)
    have hn := congrArg Char.toNat hxy
    rw [hall x, hall y] at hn
    exact UInt8.toNat_inj.mp hn
  exact hchar.list_map (String.ofList_injective hab)

theorem widen_injective : Function.Injective fun b : Bytes => b.flatMap widen := by
  intro a b hab
  apply latin1_injective
  rw [← utf8_inj, utf8_latin1, utf8_latin1]
  exact hab

theorem b64url_injective : Function.Injective b64url :=
  Base64.unpadded_injective Base64.sextet_url

/-- The call returns for texts only, and then the base64url text of the widened MAC. -/
theorem hmacSha256B64url_ok_iff {msg secret sig : Bytes} :
    hmacSha256B64url host msg secret = .ok sig ↔
      (ValidUtf8 msg ∧ ValidUtf8 secret) ∧
        sig = b64url ((host.hmacSha256 secret msg).toList.flatMap widen) := by
  constructor
  · intro h
    cases hm : fromUtf8 msg with
    | none => simp [hmacSha256B64url, toRustString, hm, bind, Except.bind] at h
    | some m =>
      cases hs : fromUtf8 secret with
      | none => simp [hmacSha256B64url, toRustString, hm, hs, bind, Except.bind] at h
      | some s =>
        obtain rfl := fromUtf8_eq_some.mp hm
        obtain rfl := fromUtf8_eq_some.mp hs
        rw [hmacSha256B64url_eq] at h
        exact ⟨⟨⟨m, rfl⟩, ⟨s, rfl⟩⟩, (Except.ok.inj h).symm⟩
  · rintro ⟨⟨⟨m, rfl⟩, ⟨s, rfl⟩⟩, rfl⟩
    exact hmacSha256B64url_eq host m s

theorem sig_eq_iff {m₁ m₂ s₁ s₂ sig₁ sig₂ : Bytes} (h₁ : hmacSha256B64url host m₁ s₁ = .ok sig₁)
    (h₂ : hmacSha256B64url host m₂ s₂ = .ok sig₂) :
    sig₁ = sig₂ ↔ host.hmacSha256 s₁ m₁ = host.hmacSha256 s₂ m₂ := by
  obtain ⟨-, rfl⟩ := (hmacSha256B64url_ok_iff host).mp h₁
  obtain ⟨-, rfl⟩ := (hmacSha256B64url_ok_iff host).mp h₂
  rw [b64url_injective.eq_iff, widen_injective.eq_iff, Vector.toList_inj]

/-- The signature text stands for one MAC only, and `jwt.verify` accepts it for no signing
input with another MAC. The calls return for texts. -/
theorem signature_identifies_mac (host : Host) :
    (∀ msg secret, (∃ sig, hmacSha256B64url host msg secret = .ok sig) ↔
      ValidUtf8 msg ∧ ValidUtf8 secret) ∧
    (∀ m₁ m₂ s₁ s₂ sig₁ sig₂, hmacSha256B64url host m₁ s₁ = .ok sig₁ →
      hmacSha256B64url host m₂ s₂ = .ok sig₂ →
        (sig₁ = sig₂ ↔ host.hmacSha256 s₁ m₁ = host.hmacSha256 s₂ m₂)) ∧
    (∀ headerB64 payloadB64 secret msg key sig, hmacSha256B64url host msg key = .ok sig →
      signatureMatches host headerB64 payloadB64 secret sig = .ok true →
        host.hmacSha256 key msg = host.hmacSha256 secret (signingInput headerB64 payloadB64)) := by
  refine ⟨fun msg secret => ?_, ?_, ?_⟩
  · constructor
    · rintro ⟨sig, h⟩
      exact ((hmacSha256B64url_ok_iff host).mp h).1
    · intro h
      exact ⟨_, (hmacSha256B64url_ok_iff host).mpr ⟨h, rfl⟩⟩
  · intro m₁ m₂ s₁ s₂ sig₁ sig₂ h₁ h₂
    exact sig_eq_iff host h₁ h₂
  · intro headerB64 payloadB64 secret msg key sig hsig hmatch
    cases hexp : hmacSha256B64url host (signingInput headerB64 payloadB64) secret with
    | error e => simp [signatureMatches, hexp, bind, Except.bind] at hmatch
    | ok expected =>
      have heq : sig = expected := by
        simp only [signatureMatches, hexp] at hmatch
        exact (eq_of_beq (Except.ok.inj hmatch)).symm
      exact (sig_eq_iff host hsig hexp).mp heq

theorem signature_identifies_mac_plain :
    ∃ sig, hmacSha256B64url Host.plain (utf8 "a.b") (utf8 "k") = .ok sig ∧
      signatureMatches Host.plain (utf8 "a") (utf8 "b") (utf8 "k") sig = .ok true ∧
      Host.plain.hmacSha256 (utf8 "k") (utf8 "a.b") =
        Host.plain.hmacSha256 (utf8 "k") (signingInput (utf8 "a") (utf8 "b")) := by
  have hmsg : utf8 "a.b" = signingInput (utf8 "a") (utf8 "b") := by decide
  obtain ⟨hreturns, -, hmatch⟩ := signature_identifies_mac Host.plain
  obtain ⟨sig, hsig⟩ := (hreturns (utf8 "a.b") (utf8 "k")).mpr ⟨⟨_, rfl⟩, ⟨_, rfl⟩⟩
  have hok : signatureMatches Host.plain (utf8 "a") (utf8 "b") (utf8 "k") sig = .ok true := by
    rw [hmsg] at hsig
    simp only [signatureMatches, hsig]
    change Except.ok (sig == sig) = _
    rw [beq_self_eq_true]
  exact ⟨sig, hsig, hok, hmatch _ _ _ _ _ _ hsig hok⟩

end Identifies

def highMac : Host := { Host.plain with hmacSha256 := fun _ _ => Vector.replicate 32 0x80 }

/-- With such a MAC the standard signature of a token is turned down. -/
theorem high_mac_refused :
    ¬ ∀ (host : Host) (headerB64 payloadB64 secret : Bytes),
      Conforms host headerB64 payloadB64 secret := by
  intro h
  have hc := h highMac (utf8 "eyJhbGciOiJIUzI1NiJ9") (utf8 "e30") (utf8 "secret")
  have hn := (hc (b64url (List.replicate 32 0x80))).mpr rfl
  have hf : signatureMatches highMac (utf8 "eyJhbGciOiJIUzI1NiJ9") (utf8 "e30") (utf8 "secret")
      (b64url (List.replicate 32 0x80)) = .ok false := by decide
  rw [hf] at hn
  exact Bool.noConfusion (Except.ok.inj hn)

end LuaProxy.JwtSignature
