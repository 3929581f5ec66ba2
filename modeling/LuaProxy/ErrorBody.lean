import LuaProxy.Handler
import LuaProxy.JsonEncode
import LuaProxy.Jwt

/-! The bodies of `error_response`, read as JSON. The message is put between their quotes as it
is. -/
namespace LuaProxy.ErrorBody
open Text Context Handler Numeral Jwt
open Json (Str Chars Unescaped Written skip)

def afterMessage (status : UInt16) : Bytes :=
  44 :: 34 :: (utf8 "status" ++ 34 :: 58 :: (decimal status.toNat ++ [125]))

def body (status : UInt16) (msg : String) : Bytes :=
  123 :: 34 :: (utf8 "error" ++ 34 :: 58 :: 34 :: (utf8 msg ++ 34 :: afterMessage status))

theorem utf8_body (status : UInt16) (msg : String) :
    utf8 ("\x7b\"error\":\"" ++ msg ++ "\",\"status\":" ++ toString status.toNat ++ "\x7d") =
      body status msg := by
  have hopen : utf8 "\x7b\"error\":\"" = 123 :: 34 :: (utf8 "error" ++ [34, 58, 34]) := by decide
  have hmiddle : utf8 "\",\"status\":" = 34 :: 44 :: 34 :: (utf8 "status" ++ [34, 58]) := by decide
  have hclose : utf8 "\x7d" = [125] := by decide
  have hstatus : utf8 (toString status.toNat) = decimal status.toNat := by
    have hint : toString status.toNat = toString (status.toNat : ℤ) := rfl
    rw [hint, utf8_toString, if_pos (Int.natCast_nonneg _), Int.toNat_natCast]
  simp only [utf8_append, hopen, hmiddle, hclose, hstatus, body, afterMessage, List.append_assoc,
    List.cons_append, List.nil_append]

theorem errorResponse_body {status : UInt16} (h : statusOk status = true) (msg : String) :
    ∃ headers, errorResponse status msg = .ok ⟨status, headers, body status msg⟩ :=
  ⟨AList.insert "content-type" "application/json" ∅, by rw [errorResponse, if_pos h, utf8_body]⟩

/-- The body is JSON for an object of these two members. -/
def Reports (status : UInt16) (msg : String) : Prop :=
  ∃ resp, errorResponse status msg = .ok resp ∧ Json.Decodes resp.body
    (.obj [(utf8 "error", .str (utf8 msg)), (utf8 "status", .num status.toNat)])

theorem error_plain : ∀ b ∈ utf8 "error", Unescaped b := forall_mem_bytes (by decide)

theorem status_plain : ∀ b ∈ utf8 "status", Unescaped b := forall_mem_bytes (by decide)

theorem afterMessage_chars {status : UInt16} {s r : Bytes} (h : Chars (afterMessage status) s r) :
    s.getLast? ≠ some 92 := by
  have hone : Chars (afterMessage status) [44] _ := .plain (by decide) .close
  rw [(hone.unique h).1]
  decide

theorem skip_visible {b : UInt8} (hb : Json.isSpace b = false) (t : Bytes) :
    skip (b :: t) = b :: t := Json.skip_cons hb

theorem message_plain {status : UInt16} {msg : String} {raw k r : Bytes}
    (h : Str (34 :: (utf8 msg ++ 34 :: afterMessage status)) raw k r) (hk : k = utf8 msg) :
    ∀ b ∈ utf8 msg, Unescaped b := by
  subst hk
  cases h with
  | mk h ht => exact ((Json.bare_iff fun s r => afterMessage_chars).mp h).1

theorem plain_of_reads {status : UInt16} {msg : String} {x : Json.Tree} {r : Bytes}
    (h : Written .value (body status msg) x r) {n : Bytes × Json.Value}
    (hx : x.value = .obj [(utf8 "error", .str (utf8 msg)), n]) : ∀ b ∈ utf8 msg, Unescaped b := by
  have hname : ∀ t : Bytes, Str (34 :: (utf8 "error" ++ 34 :: t)) (utf8 "error") (utf8 "error") t :=
    Str.of_plain error_plain
  rcases h.of_brace with ⟨rfl, -⟩ | ⟨xs, rfl, hxs⟩
  · simp [Json.Tree.value, Json.memberValues] at hx
  · cases hxs with
    | lastMember hk hc hv hu => simp [Json.Tree.value, Json.memberValues] at hx
    | member hk hc hv hu hxs =>
      rw [skip_visible (by decide)] at hk
      obtain ⟨-, -, rfl⟩ := (hname _).unique hk
      rw [skip_visible (by decide)] at hc
      obtain rfl := (List.cons.inj hc).2
      rw [skip_visible (by decide)] at hv
      obtain ⟨raw, k, rfl, hstr⟩ := hv.of_quote
      have hval := (Prod.mk.inj (List.cons.inj (Json.Value.obj.inj hx)).1).2
      exact message_plain hstr (Json.Value.str.inj hval)

theorem plain_of_reports {status : UInt16} (h : statusOk status = true) {msg : String}
    (hr : Reports status msg) : ∀ b ∈ utf8 msg, Unescaped b := by
  obtain ⟨headers, hbody⟩ := errorResponse_body h msg
  obtain ⟨resp, hresp, x, ⟨-, r, hw, -⟩, hx⟩ := hr
  obtain rfl := Outcome.ok.inj (hbody.symm.trans hresp)
  rw [body, skip_visible (by decide), ← body] at hw
  exact plain_of_reads hw hx

theorem reads_of_plain {status : UInt16} {msg : String} (h : ∀ b ∈ utf8 msg, Unescaped b) :
    Json.Decodes (body status msg)
      (.obj [(utf8 "error", .str (utf8 msg)), (utf8 "status", .num status.toNat)]) := by
  have hnumber : Written .value (decimal status.toNat ++ [125])
      (.num (decimal status.toNat) status.toNat) [125] :=
    .num rfl (JsonEncode.readNumber_decimal _) (by simp [Json.isNumberByte, Json.isDigit])
  have hstatus : Written .members (34 :: (utf8 "status" ++ 34 :: 58 :: (decimal status.toNat ++ [125])))
      (.obj [(utf8 "status", utf8 "status", .num (decimal status.toNat) status.toNat)]) [] := by
    apply Written.lastMember
    · rw [skip_visible (by decide)]
      exact Str.of_plain status_plain _
    · exact skip_visible (by decide) _
    · rw [hnumber.skip_eq]
      exact hnumber
    · rfl
  have hmembers : Written .members
      (34 :: (utf8 "error" ++ 34 :: 58 :: 34 :: (utf8 msg ++ 34 :: afterMessage status)))
      (.obj [(utf8 "error", utf8 "error", .str (utf8 msg) (utf8 msg)),
        (utf8 "status", utf8 "status", .num (decimal status.toNat) status.toNat)]) [] := by
    apply Written.member
    · rw [skip_visible (by decide)]
      exact Str.of_plain error_plain _
    · exact skip_visible (by decide) _
    · rw [skip_visible (by decide)]
      exact .str (Str.of_plain h _)
    · exact skip_visible (by decide) _
    · exact hstatus
  have hwhole : Written .value (body status msg) _ [] := .obj hmembers
  rw [← hwhole.skip_eq] at hwhole
  exact ⟨_, ⟨⟨_, utf8_body status msg⟩, [], hwhole, rfl⟩,
    by simp only [Json.Tree.value, Json.memberValues]⟩

/-- An error body reports the status and the message exactly if nothing in the message has to be
escaped. -/
theorem reports_iff {status : UInt16} (h : statusOk status = true) (msg : String) :
    Reports status msg ↔ ∀ b ∈ utf8 msg, Unescaped b := by
  constructor
  · exact plain_of_reports h
  · intro hplain
    obtain ⟨headers, hbody⟩ := errorResponse_body h msg
    exact ⟨_, hbody, reads_of_plain hplain⟩

theorem unauthorized_reports :
    statusOk 401 = true ∧ (Reports 401 "Unauthorized: token expired" ↔
      ∀ b ∈ utf8 "Unauthorized: token expired", Unescaped b) :=
  ⟨by decide, reports_iff (by decide) "Unauthorized: token expired"⟩

/-- `jwt.verify` copies the algorithm of a token without a signature into its message, here that
of the header `{"alg":"\" }`. -/
theorem backslash_breaks :
    checkSignature Host.plain (utf8 "eyJhbGciOiJcIiB9.e30.AA") (utf8 "s") =
      .ok (.error (utf8 "unsupported algorithm: \\")) ∧
    ¬ Reports 401 "Unauthorized: unsupported algorithm: \\" := by
  constructor
  · decide +kernel
  · intro h
    exact (plain_of_reports (by decide) h 92 (by decide)).2.2 rfl

end LuaProxy.ErrorBody
