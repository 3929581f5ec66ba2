import LuaProxy.JwtToken
import LuaProxy.JsonScan

/-! How `jwt.verify` ends on a header value, which is a text. What it cuts out of one is a text
again, so it comes to a verdict, unless a date of a signed token is a string: Lua does not
compare a string with the clock. -/
namespace LuaProxy.JwtOutcome
open Text Lua LuaPattern Context EngineCodec HookMonad Jwt JwtCodec JwtFormat JwtSignature JwtToken
  JsonScan

section Texts

theorem toRustString_valid (host : Host) {b : Bytes} (h : ValidUtf8 b) :
    ∃ t, toRustString host (.str b) = .ok t ∧ utf8 t = b := by
  obtain ⟨t, rfl⟩ := h
  exact ⟨t, by simp [toRustString], rfl⟩

theorem blank_ascii {s : Bytes} (h : Blank s) : Ascii s := by
  have hall : ∀ b, Single.space.test b = true → b < 128 := forall_byte (by decide +kernel)
  exact fun b hb => hall b (h b hb)

theorem trim_valid {s raw : Bytes} (h : ValidUtf8 s) (ht : trim s = .ok raw) : ValidUtf8 raw := by
  obtain ⟨w, w', hw, hw', rfl⟩ := trim_sound ht
  rw [List.append_assoc] at h
  exact (h.of_ascii_append (blank_ascii hw)).of_append_ascii (blank_ascii hw')

theorem unschemed_valid {token : Bytes} (h : ValidUtf8 token) : ValidUtf8 (unschemed token) := by
  unfold unschemed
  cases hb : luaMatch₁ bearerPattern token with
  | none => exact h
  | some raw =>
    obtain ⟨b, blanks, hB, -, hbl, rfl⟩ := bearer_capture hb
    have hscheme : Ascii (b :: utf8 "earer" ++ blanks) := by
      have hearer : Ascii (utf8 "earer") := by decide +kernel
      intro x hx
      rcases List.mem_append.mp hx with hx | hx
      · rcases List.mem_cons.mp hx with rfl | hx
        · rcases hB with rfl | rfl <;> decide
        · exact hearer x hx
      · exact blank_ascii hbl x hx
    exact h.of_ascii_append hscheme

theorem segments_valid {raw a b c : Bytes} (h : ValidUtf8 raw)
    (hseg : luaMatch segmentsPattern raw = some [a, b, c]) :
    ValidUtf8 a ∧ ValidUtf8 b ∧ ValidUtf8 (signingInput a b) := by
  obtain ⟨-, -, -, rfl⟩ := segments_sound hseg
  rw [utf8_dot, List.append_assoc] at h
  have hinput := (ValidUtf8.cut (by decide) h).1
  have hparts := hinput
  rw [signingInput, utf8_dot, List.append_assoc] at hparts
  obtain ⟨ha, hb⟩ := ValidUtf8.cut (by decide) hparts
  exact ⟨ha, hb, hinput⟩

theorem b64urlDecode_ok (host : Host) {s : Bytes} (h : ValidUtf8 s) :
    ∃ t, b64urlDecode host s = .ok (utf8 t) := by
  have hswap : ∀ {a b : UInt8}, a < 128 → b < 128 → ∀ {s}, ValidUtf8 s → ValidUtf8 (s.map (swap a b)) := by
    intro a b ha hb s hs
    refine hs.map (fun x hx => ?_) fun x hx => ?_
    · unfold swap
      split_ifs
      · exact hb
      · exact hx
    · unfold swap
      rw [if_neg]
      rintro rfl
      exact hx ha
  have hpad : ∀ n, Ascii (List.replicate n 61) := by
    intro n x hx
    rw [List.eq_of_mem_replicate hx]
    decide
  have htext : ValidUtf8 (gsub "_" (utf8 "/") (gsub "-" (utf8 "+") s)) := by
    rw [gsub_minus, gsub_underscore]
    exact hswap (by decide) (by decide) (hswap (by decide) (by decide) h)
  obtain ⟨t, ht, -⟩ := toRustString_valid host (htext.append (hpad
    (pad (gsub "_" (utf8 "/") (gsub "-" (utf8 "+") s)).length)).validUtf8)
  refine ⟨(base64Decode t).getD "", ?_⟩
  simp only [b64urlDecode, ht]
  rfl

theorem hmac_ok (host : Host) {msg : Bytes} (hm : ValidUtf8 msg) (secret : String) :
    ∃ sig, hmacSha256B64url host msg (utf8 secret) = .ok sig := by
  obtain ⟨m, rfl⟩ := hm
  exact ⟨_, hmacSha256B64url_eq host m secret⟩

end Texts

section Values

/-- The values `parse_json_obj` reads from a text: no table, and `true` never. -/
inductive Parsed : Value → Prop
  | nil : Parsed .nil
  | text (t : String) : Parsed (.str (utf8 t))
  | number (n : Number) : Parsed (.num n)
  | false : Parsed (.bool false)

theorem parsed (t : String) (k : Bytes) : Parsed ((parseJsonObj (utf8 t)).get k) := by
  obtain ⟨lead, segs, hl, hq, ht⟩ := exists_segments (utf8 t)
  have htext : ValidUtf8 (lead ++ quoted segs) := ⟨t, ht⟩
  have hvalid := (validUtf8_segments htext).2
  rw [ht, parseJsonObj_get hl hq]
  cases hb : lastOf k (scanBare boolText segs) with
  | some v =>
    rw [Option.map_some, Option.getD_some, bool_value hb]
    exact .false
  | none =>
    cases hn : lastOf k (scanBare numberRun segs) with
    | some v =>
      simp only [Option.map_none, Option.getD_none, Option.map_some, Option.getD_some, numeral]
      cases tonumber v with
      | none => exact .nil
      | some n => exact .number n
    | none =>
      cases hs : lastOf k (scanStrings segs) with
      | none => exact .nil
      | some v =>
        obtain ⟨n, w, he, -, -, hw⟩ := mem_scanStrings (lastOf_some_mem hs)
        simp only [List.cons.injEq, and_true] at he
        obtain ⟨u, hu⟩ := hvalid w hw
        rw [he.2, ← hu]
        exact .text u

theorem toRustString_parsed (host : Host) {v : Value} (h : Parsed v) (t : String) :
    ∃ s, toRustString host (v.or (.str (utf8 t))) = .ok s := by
  cases h with
  | text u => exact ⟨u, by simp [Value.or, Value.truthy, toRustString]⟩
  | number n => cases n <;> exact ⟨_, rfl⟩
  | _ => exact ⟨t, by simp [Value.or, Value.truthy, toRustString]⟩

end Values

section Signature
variable (host : Host)

theorem concatText_parsed {v : Value} (h : Parsed v) (t : String) :
    ∃ text, concatText host (v.or (.str (utf8 t))) = .ok text ∧ ValidUtf8 text := by
  cases h with
  | nil => exact ⟨_, rfl, t, rfl⟩
  | text u => exact ⟨_, rfl, u, rfl⟩
  | number n =>
    cases n with
    | int i => exact ⟨_, rfl, toString i, rfl⟩
    | float d => exact ⟨_, rfl, host.fmtFloat d, rfl⟩
  | false => exact ⟨_, rfl, t, rfl⟩

theorem checkSignature_ends {token : Bytes} (h : ValidUtf8 token) (secret : String) :
    (∃ payloadB64, checkSignature host token (utf8 secret) = .ok (.ok payloadB64) ∧
      ValidUtf8 payloadB64) ∨
    ∃ err, checkSignature host token (utf8 secret) = .ok (.error err) ∧ ValidUtf8 err := by
  obtain ⟨raw, hraw⟩ := trim_ok (unschemed token)
  have htext := trim_valid (unschemed_valid h) hraw
  change (∃ payloadB64, (trim (unschemed token) >>= _) = _ ∧ _) ∨
    ∃ err, (trim (unschemed token) >>= _) = _ ∧ _
  rw [hraw]
  simp only [bind, Except.bind]
  split
  · rename_i headerB64 payloadB64 sigB64 hseg
    obtain ⟨hheader, hpayload, hinput⟩ := segments_valid htext hseg
    obtain ⟨json, hjson⟩ := b64urlDecode_ok host hheader
    rw [hjson]
    dsimp only
    split_ifs with halg
    · obtain ⟨sig, hsig⟩ := hmac_ok host hinput secret
      simp only [signatureMatches, hsig, bind, Except.bind]
      split_ifs
      · exact Or.inl ⟨_, rfl, hpayload⟩
      · exact Or.inr ⟨_, rfl, _, rfl⟩
    · obtain ⟨alg, hconcat, hvalid⟩ := concatText_parsed host (parsed json (utf8 "alg")) "none"
      rw [hconcat]
      exact Or.inr ⟨_, rfl, ValidUtf8.append ⟨_, rfl⟩ hvalid⟩
  · exact Or.inr ⟨_, rfl, _, rfl⟩

end Signature

section Dates

/-- The verifier gets to a date that it cannot compare with the clock: `exp` comes first. -/
def StringDate (claims : Table) (now : ℤ) : Prop :=
  (∃ s, claims.get (utf8 "exp") = .str s) ∨
    (∃ s, claims.get (utf8 "nbf") = .str s) ∧ expired claims now ≠ .ok true

theorem expired_string {claims : Table} {s : Bytes} (h : claims.get (utf8 "exp") = .str s) (now : ℤ) :
    expired claims now = .error "attempt to compare" := by
  simp [expired, h, Value.truthy, Value.lessThan]

theorem notYetValid_string {claims : Table} {s : Bytes} (h : claims.get (utf8 "nbf") = .str s)
    (now : ℤ) : notYetValid claims now = .error "attempt to compare" := by
  simp [notYetValid, h, Value.truthy, Value.lessThan]

theorem expired_parsed {claims : Table} (h : Parsed (claims.get (utf8 "exp")))
    (hs : ∀ s, claims.get (utf8 "exp") ≠ .str s) (now : ℤ) : ∃ b, expired claims now = .ok b := by
  unfold expired
  generalize claims.get (utf8 "exp") = v at h hs
  cases h with
  | text t => exact absurd rfl (hs (utf8 t))
  | _ => exact ⟨_, rfl⟩

theorem notYetValid_parsed {claims : Table} (h : Parsed (claims.get (utf8 "nbf")))
    (hs : ∀ s, claims.get (utf8 "nbf") ≠ .str s) (now : ℤ) : ∃ b, notYetValid claims now = .ok b := by
  unfold notYetValid
  generalize claims.get (utf8 "nbf") = v at h hs
  cases h with
  | text t => exact absurd rfl (hs (utf8 t))
  | _ => exact ⟨_, rfl⟩

variable {host : Host} {payloadB64 json : Bytes}

theorem checkClaims_eq (hjson : b64urlDecode host payloadB64 = .ok json) (now now' : ℤ) :
    checkClaims host payloadB64 now now' = (do
      if ← expired (parseJsonObj json) now then .ok (.error (utf8 "token expired"))
      else if ← notYetValid (parseJsonObj json) now' then .ok (.error (utf8 "token not yet valid"))
      else .ok (.ok (parseJsonObj json))) := by
  rw [checkClaims, hjson]
  rfl

theorem checkClaims_raises (hjson : b64urlDecode host payloadB64 = .ok json) {now : ℤ}
    (h : StringDate (parseJsonObj json) now) (now' : ℤ) :
    ∃ e, checkClaims host payloadB64 now now' = .error e := by
  rw [checkClaims_eq hjson]
  rcases h with ⟨s, hs⟩ | ⟨⟨s, hs⟩, hne⟩
  · rw [expired_string hs]
    exact ⟨_, rfl⟩
  · cases he : expired (parseJsonObj json) now with
    | error e => exact ⟨_, rfl⟩
    | ok b =>
      cases b with
      | true => exact absurd he hne
      | false =>
        rw [notYetValid_string hs]
        exact ⟨_, rfl⟩

theorem checkClaims_ends {t : String} (hjson : b64urlDecode host payloadB64 = .ok (utf8 t)) {now : ℤ}
    (h : ¬ StringDate (parseJsonObj (utf8 t)) now) (now' : ℤ) :
    (∃ err, checkClaims host payloadB64 now now' = .ok (.error err) ∧ ValidUtf8 err) ∨
      checkClaims host payloadB64 now now' = .ok (.ok (parseJsonObj (utf8 t))) := by
  have hexp : ∀ s, (parseJsonObj (utf8 t)).get (utf8 "exp") ≠ .str s := fun s hs => h (Or.inl ⟨s, hs⟩)
  obtain ⟨b, hb⟩ := expired_parsed (parsed t _) hexp now
  rw [checkClaims_eq hjson, hb]
  cases b with
  | true => exact Or.inl ⟨_, rfl, _, rfl⟩
  | false =>
    have hnbf : ∀ s, (parseJsonObj (utf8 t)).get (utf8 "nbf") ≠ .str s := by
      intro s hs
      exact h (Or.inr ⟨⟨s, hs⟩, by simp [hb]⟩)
    obtain ⟨b', hb'⟩ := notYetValid_parsed (parsed t _) hnbf now'
    rw [hb']
    cases b' with
    | true => exact Or.inl ⟨_, rfl, _, rfl⟩
    | false => exact Or.inr rfl

end Dates

section Verify
variable (host : Host)

/-- The token is signed, and one of its dates a string. -/
def BadDate (token secret : Bytes) (now : ℤ) : Prop :=
  ∃ payloadB64 json, SignedText host (unschemed token) secret payloadB64 ∧
    b64urlDecode host payloadB64 = .ok json ∧ StringDate (parseJsonObj json) now

variable {host}

theorem verify_raises {token secret : Bytes} {now : ℤ} (h : BadDate host token secret now) (now' : ℤ) :
    ∃ e, verify host token secret now now' = .error e := by
  obtain ⟨payloadB64, json, hsigned, hjson, hdate⟩ := h
  rw [verify_of_checkSignature (checkSignature_iff.mpr hsigned)]
  exact checkClaims_raises hjson hdate now'

/-- Otherwise there is a verdict: a message, or claims with values that a text can have. -/
theorem verify_ends {token : Bytes} {secret : String} {now : ℤ} (hv : ValidUtf8 token)
    (h : ¬ BadDate host token (utf8 secret) now) (now' : ℤ) :
    (∃ err, verify host token (utf8 secret) now now' = .ok (.error err) ∧ ValidUtf8 err) ∨
      ∃ claims, verify host token (utf8 secret) now now' = .ok (.ok claims) ∧
        ∀ k, Parsed (claims.get k) := by
  rcases checkSignature_ends host hv secret with ⟨payloadB64, hsigned, hpayload⟩ | ⟨err, herr, hvalid⟩
  · obtain ⟨t, hjson⟩ := b64urlDecode_ok host hpayload
    have hdate : ¬ StringDate (parseJsonObj (utf8 t)) now := fun hdate =>
      h ⟨payloadB64, utf8 t, checkSignature_iff.mp hsigned, hjson, hdate⟩
    rw [verify_of_checkSignature hsigned]
    rcases checkClaims_ends hjson hdate now' with hfail | hok
    · exact Or.inl hfail
    · exact Or.inr ⟨_, hok, parsed t⟩
  · refine Or.inl ⟨err, ?_, hvalid⟩
    rw [verify, herr]
    rfl

end Verify

end LuaProxy.JwtOutcome
