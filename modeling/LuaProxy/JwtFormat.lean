import LuaProxy.JwtCodec

/-! The shape of the tokens `jwt.verify` takes apart: an optional bearer scheme, blanks
around, and three segments separated by dots. -/
namespace LuaProxy.JwtFormat
open Text Lua LuaPattern Context HookMonad Jwt JwtCodec

def Blank (s : Bytes) : Prop := ∀ b ∈ s, Single.space.test b = true

/-- A segment: not empty and without dots. -/
def Segment (s : Bytes) : Prop := s ≠ [] ∧ ∀ b ∈ s, b ≠ 46

/-- `Bearer` or `bearer`, blanks, and the rest. -/
def Bearer (text rest : Bytes) : Prop :=
  ∃ b blanks, (b = 66 ∨ b = 98) ∧ blanks ≠ [] ∧ Blank blanks ∧
    text = b :: utf8 "earer" ++ blanks ++ rest

section Capture

def restItems : List Item := [.openCap, .plus (.one .any), .closeCap]

theorem matchHere_rest (s : Bytes) (cs : List Capture) :
    matchHere restItems s cs = if s = [] then none else some ([], .closed s :: cs) := by
  cases s with
  | nil => rfl
  | cons b t =>
    have hk : ∀ u, (matchHere [.closeCap] u (.opened (b :: t) :: cs)).isSome := fun u => rfl
    have hb : Class.test (.one .any) b = true := rfl
    have hall := maxExpand_total (Class.test (.one .any)) hk t
    have hdrop : t.dropWhile (Class.test (.one .any)) = [] := by
      clear hk hall
      induction t with
      | nil => rfl
      | cons c t ih => exact ih
    rw [hdrop] at hall
    simp only [restItems, matchHere, hb, if_true] at hall ⊢
    rw [hall]
    simp [closeCapture]

theorem matchHere_scheme {w s rest : Bytes} {cs' : List Capture}
    (h : matchHere (w.map (fun c => .one (.one (.lit c))) ++
      .plus (.one .space) :: restItems) s [] = some (rest, cs')) :
    ∃ blanks t, blanks ≠ [] ∧ Blank blanks ∧ s = w ++ blanks ++ t ∧ rest = [] ∧
      cs' = [.closed t] := by
  rw [matchHere_lits] at h
  split_ifs at h with hw
  obtain ⟨u, rfl⟩ := hw
  rw [List.drop_left] at h
  cases u with
  | nil => simp [matchHere] at h
  | cons b u =>
    simp only [matchHere] at h
    split_ifs at h with hb
    obtain ⟨v, t, rfl, hv, ht⟩ := maxExpand_sound h
    rw [matchHere_rest] at ht
    split_ifs at ht with hne
    simp only [Option.some.injEq, Prod.mk.injEq] at ht
    obtain ⟨rfl, rfl⟩ := ht
    refine ⟨b :: v, t, by simp, ?_, by simp, rfl, rfl⟩
    intro x hx
    rcases List.mem_cons.mp hx with rfl | hx
    · exact hb
    · exact hv x hx

end Capture

section Patterns

theorem luaMatch_eq {pattern : String} {p : Pattern} (h : parse (utf8 pattern) = some p)
    (s : Bytes) : luaMatch pattern s = p.find s := by
  rw [luaMatch, h]
  rfl

def bearerPattern : String := "^[Bb]earer%s+(.+)"

theorem parse_bearer : parse (utf8 bearerPattern) =
    some ⟨true, .one (.set false [.lit 66, .lit 98]) ::
      ((utf8 "earer").map (fun c => .one (.one (.lit c))) ++
        .plus (.one .space) :: restItems)⟩ := by decide

theorem bearer_capture {text raw : Bytes} (h : luaMatch₁ bearerPattern text = some raw) :
    Bearer text raw := by
  rw [luaMatch₁, luaMatch_eq parse_bearer] at h
  obtain ⟨vs, hvs, hraw⟩ := Option.bind_eq_some_iff.mp h
  obtain ⟨⟨rest, ws⟩, hm, rfl⟩ := Option.map_eq_some_iff.mp hvs
  obtain ⟨⟨r, cs⟩, hh, hcap⟩ := Option.map_eq_some_iff.mp hm
  cases text with
  | nil => simp [matchHere] at hh
  | cons b t =>
    simp only [matchHere] at hh
    split_ifs at hh with hb
    obtain ⟨blanks, u, hne, hbl, rfl, rfl, rfl⟩ := matchHere_scheme hh
    have hu : raw = u := by
      simp only [captures, Prod.mk.injEq] at hcap
      rw [← hcap.2] at hraw
      simpa [Capture.text] using hraw.symm
    refine ⟨b, blanks, ?_, hne, hbl, by simp [hu]⟩
    simpa [Class.test, Single.test] using hb

def schemePattern : String := "^[Bb]earer%s+"

theorem parse_scheme : parse (utf8 schemePattern) =
    some ⟨true, .one (.set false [.lit 66, .lit 98]) ::
      ((utf8 "earer").map (fun c => .one (.one (.lit c))) ++ [.plus (.one .space)])⟩ := by
  decide

theorem maxExpand_none {α : Type*} {test : UInt8 → Bool} {k : Bytes → Option α} {s : Bytes}
    (h : maxExpand test k s = none) : k s = none := by
  cases s with
  | nil => exact h
  | cons b t =>
    simp only [maxExpand] at h
    split_ifs at h with hb
    · split at h
      · simp at h
      · exact h
    · exact h

/-- A text with the scheme but no token behind it is the scheme and one blank. -/
theorem scheme_only {text : Bytes} (hs : (luaMatch schemePattern text).isSome)
    (hb : luaMatch₁ bearerPattern text = none) :
    ∃ b blank, (b = 66 ∨ b = 98) ∧ Single.space.test blank = true ∧
      text = b :: utf8 "earer" ++ [blank] := by
  rw [luaMatch_eq parse_scheme] at hs
  rw [luaMatch₁, luaMatch_eq parse_bearer] at hb
  cases text with
  | nil => simp [Pattern.find, matchAt, matchHere] at hs
  | cons b t =>
    simp only [Pattern.find, matchAt, matchHere, if_true, matchHere_lits] at hs hb
    split_ifs at hs hb with hB hw
    · obtain ⟨u, rfl⟩ := hw
      rw [List.drop_left] at hs hb
      cases u with
      | nil => simp [matchHere] at hs
      | cons x u =>
        simp only [matchHere] at hs hb
        split_ifs at hs hb with hx
        · have hu : u = [] := by
            cases hm : maxExpand (Class.test (.one .space)) (fun u => matchHere restItems u []) u with
            | none =>
              have hr := maxExpand_none hm
              rw [matchHere_rest] at hr
              by_contra hne
              simp [hne] at hr
            | some r =>
              rw [hm] at hb
              obtain ⟨w, v, rfl, -, hv⟩ := maxExpand_sound hm
              rw [matchHere_rest] at hv
              split_ifs at hv
              simp only [Option.some.injEq] at hv
              simp [← hv, captures] at hb
          refine ⟨b, x, ?_, hx, by simp [hu]⟩
          simpa [Class.test, Single.test] using hB
        · simp at hs
    · simp at hs
    · simp at hs

theorem closeCapture_one (t u : Bytes) (cs : List Capture) :
    closeCapture u (.opened (t ++ u) :: cs) = some (.closed t :: cs) := by
  simp [closeCapture]

theorem parse_trim : parse (utf8 "^%s*(.-)%s*$") =
    some ⟨true, [.star (.one .space), .openCap, .lazy (.one .any), .closeCap,
      .star (.one .space), .eos]⟩ := by decide

theorem trim_sound {s raw : Bytes} (h : trim s = .ok raw) :
    ∃ w w', Blank w ∧ Blank w' ∧ s = w ++ raw ++ w' := by
  unfold trim at h
  split at h
  · rename_i r hr
    obtain rfl := Except.ok.inj h
    rw [luaMatch₁, luaMatch_eq parse_trim] at hr
    obtain ⟨vs, hvs, hraw⟩ := Option.bind_eq_some_iff.mp hr
    obtain ⟨⟨rest, ws⟩, hm, rfl⟩ := Option.map_eq_some_iff.mp hvs
    obtain ⟨⟨e, cs⟩, hh, hcap⟩ := Option.map_eq_some_iff.mp hm
    cases matchHere_sound hh with
    | @star _ _ w t _ _ _ hw ht =>
      cases ht with
      | openCap ht =>
        cases ht with
        | @lazy _ _ v u _ _ _ _ hu =>
          cases hu with
          | closeCap hc hu =>
            rw [closeCapture_one] at hc
            obtain rfl := Option.some.inj hc
            cases hu with
            | @star _ _ w' x _ _ _ hw' hx =>
              cases hx with
              | eos hx =>
                cases hx
                simp only [captures, Prod.mk.injEq] at hcap
                have hv : r = v := by
                  rw [← hcap.2] at hraw
                  simpa [Capture.text] using hraw.symm
                exact ⟨w, w', hw, hw', by simp [hv]⟩
  · simp at h

def segmentsPattern : String := "^([^.]+)%.([^.]+)%.([^.]+)$"

theorem utf8_dot : utf8 "." = [46] := by decide

/-- The items of `([^.]+)`. -/
def segmentItems : List Item := [.openCap, .plus (.set true [.lit 46]), .closeCap]

def dotItem : Item := .one (.one (.lit 46))

theorem parse_segments : parse (utf8 segmentsPattern) =
    some ⟨true, segmentItems ++ dotItem :: segmentItems ++ dotItem :: segmentItems ++ [.eos]⟩ := by
  decide

theorem segment_test {b : UInt8} (h : Class.test (.set true [.lit 46]) b = true) : b ≠ 46 := by
  rintro rfl
  exact absurd h (by decide)

theorem derives_segment {is : List Item} {s rest : Bytes} {cs cs' : List Capture}
    (h : Derives (segmentItems ++ is) s cs rest cs') :
    ∃ w t, Segment w ∧ s = w ++ t ∧ Derives is t (.closed w :: cs) rest cs' := by
  cases h with
  | openCap h =>
    cases h with
    | @plus _ _ w t _ _ _ hne hw h =>
      cases h with
      | closeCap hc h =>
        rw [closeCapture_one] at hc
        obtain rfl := Option.some.inj hc
        exact ⟨w, t, ⟨hne, fun b hb => segment_test (hw b hb)⟩, rfl, h⟩

theorem derives_dot {is : List Item} {s rest : Bytes} {cs cs' : List Capture}
    (h : Derives (dotItem :: is) s cs rest cs') :
    ∃ t, s = 46 :: t ∧ Derives is t cs rest cs' := by
  cases h with
  | @one _ _ b t _ _ _ hb h =>
    obtain rfl : b = 46 := by simpa [Class.test, Single.test] using hb
    exact ⟨t, rfl, h⟩

theorem segments_sound {raw a b c : Bytes} (h : luaMatch segmentsPattern raw = some [a, b, c]) :
    Segment a ∧ Segment b ∧ Segment c ∧ raw = signingInput a b ++ utf8 "." ++ c := by
  rw [luaMatch_eq parse_segments] at h
  obtain ⟨⟨rest, ws⟩, hm, rfl⟩ := Option.map_eq_some_iff.mp h
  obtain ⟨⟨e, cs⟩, hh, hcap⟩ := Option.map_eq_some_iff.mp hm
  have hd := matchHere_sound hh
  simp only [List.append_assoc, List.cons_append] at hd
  obtain ⟨a', s₁, ha, rfl, hd₁⟩ := derives_segment hd
  obtain ⟨s₂, rfl, hd₂⟩ := derives_dot hd₁
  obtain ⟨b', s₃, hb, rfl, hd₃⟩ := derives_segment hd₂
  obtain ⟨s₄, rfl, hd₄⟩ := derives_dot hd₃
  obtain ⟨c', s₅, hc, rfl, hd₅⟩ := derives_segment hd₄
  cases hd₅ with
  | eos hd₆ =>
    cases hd₆
    simp only [captures, List.reverse_cons, List.reverse_nil, List.nil_append, List.cons_append,
      List.map_cons, List.map_nil, Capture.text, Prod.mk.injEq, List.cons.injEq, and_true] at hcap
    obtain ⟨rfl, rfl, rfl, rfl⟩ := hcap
    exact ⟨ha, hb, hc, by simp [signingInput, utf8_dot]⟩

end Patterns

/-- A token without its scheme as `jwt.verify` accepts it up to the clock: three segments
between blanks, the algorithm HS256 in the first and the expected signature in the third. -/
def SignedText (host : Host) (raw secret payloadB64 : Bytes) : Prop :=
  ∃ w w' headerB64 sigB64 headerJson,
    Blank w ∧ Blank w' ∧
    raw = w ++ (signingInput headerB64 payloadB64 ++ utf8 "." ++ sigB64) ++ w' ∧
    Segment headerB64 ∧ Segment payloadB64 ∧ Segment sigB64 ∧
    b64urlDecode host headerB64 = .ok headerJson ∧
    isText ((parseJsonObj headerJson).get (utf8 "alg")) (utf8 "HS256") = true ∧
    hmacSha256B64url host (signingInput headerB64 payloadB64) secret = .ok sigB64

/-- The token behind the scheme, or all of it. -/
def unschemed (token : Bytes) : Bytes := (luaMatch₁ bearerPattern token).getD token

theorem signatureMatches_ok {host : Host} {headerB64 payloadB64 secret sigB64 : Bytes} {b : Bool}
    (h : signatureMatches host headerB64 payloadB64 secret sigB64 = .ok b) :
    ∃ expectedSig, hmacSha256B64url host (signingInput headerB64 payloadB64) secret =
      .ok expectedSig ∧ b = (expectedSig == sigB64) := by
  unfold signatureMatches at h
  cases hh : hmacSha256B64url host (signingInput headerB64 payloadB64) secret with
  | error e => simp [hh, bind, Except.bind] at h
  | ok sig =>
    rw [hh] at h
    exact ⟨sig, rfl, (Except.ok.inj h).symm⟩

theorem checkSignature_sound {host : Host} {token secret payloadB64 : Bytes}
    (h : checkSignature host token secret = .ok (.ok payloadB64)) :
    SignedText host (unschemed token) secret payloadB64 := by
  change (trim (unschemed token) >>= _) = _ at h
  cases ht : trim (unschemed token) with
  | error e => simp [ht, bind, Except.bind] at h
  | ok raw =>
    obtain ⟨w, w', hw, hw', hsplit⟩ := trim_sound ht
    simp only [ht, bind, Except.bind] at h
    split at h
    · rename_i headerB64 payload sigB64 hseg
      obtain ⟨hh, hp, hs, rfl⟩ := segments_sound hseg
      cases hd : b64urlDecode host headerB64 with
      | error e => simp [hd] at h
      | ok headerJson =>
        simp only [hd] at h
        split_ifs at h with halg
        · cases hm : signatureMatches host headerB64 payload secret sigB64 with
          | error e => simp [hm] at h
          | ok b =>
            obtain ⟨expectedSig, hsig, hb⟩ := signatureMatches_ok hm
            cases b with
            | false => simp [hm] at h
            | true =>
              simp only [hm, if_true] at h
              obtain rfl := Except.ok.inj (Except.ok.inj h)
              have he : expectedSig = sigB64 := beq_iff_eq.mp hb.symm
              exact ⟨w, w', headerB64, sigB64, headerJson, hw, hw', hsplit, hh, hp, hs, hd, halg,
                he ▸ hsig⟩
        · split at h <;> simp at h
    · simp at h

/-- Claims that `jwt.verify` returns are read from the payload of a signed token. -/
theorem verify_sound {host : Host} {token secret : Bytes} {now now' : ℤ} {claims : Table}
    (h : verify host token secret now now' = .ok (.ok claims)) :
    ∃ payloadB64, SignedText host (unschemed token) secret payloadB64 ∧
      checkClaims host payloadB64 now now' = .ok (.ok claims) := by
  unfold verify at h
  cases hc : checkSignature host token secret with
  | error e => simp [hc, bind, Except.bind] at h
  | ok r =>
    rw [hc] at h
    cases r with
    | error e => exact absurd (Except.ok.inj h) (by simp)
    | ok payloadB64 => exact ⟨payloadB64, checkSignature_sound hc, h⟩

/-- A signed token with the scheme has it in front of the token: what is checked is not the
whole text. -/
theorem bearer_of_scheme {host : Host} {token secret payloadB64 : Bytes}
    (hs : (luaMatch schemePattern token).isSome)
    (h : SignedText host (unschemed token) secret payloadB64) :
    ∃ raw, Bearer token raw ∧ SignedText host raw secret payloadB64 := by
  cases hb : luaMatch₁ bearerPattern token with
  | some raw =>
    rw [unschemed, hb] at h
    exact ⟨raw, bearer_capture hb, h⟩
  | none =>
    exfalso
    obtain ⟨b, blank, hB, hx, htext⟩ := scheme_only hs hb
    rw [unschemed, hb] at h
    obtain ⟨w, w', headerB64, sigB64, -, -, -, hraw, -⟩ := h
    have hearer : utf8 "earer" = [101, 97, 114, 101, 114] := by decide
    have hmem : (46 : UInt8) ∈ token := by
      change token = _ at hraw
      rw [hraw, signingInput, utf8_dot]
      simp
    rw [htext, hearer] at hmem
    rcases hB with rfl | rfl <;> simp at hmem <;> subst hmem <;> exact absurd hx (by decide)

end LuaProxy.JwtFormat
