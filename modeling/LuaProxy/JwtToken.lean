import Mathlib.Data.List.TakeWhile
import LuaProxy.JwtFormat
import LuaProxy.JwtSignature

/-! The tokens that `jwt.verify` accepts up to their claims: those made with the header of
`jwt.sign`, any payload and the signature the code expects. -/
namespace LuaProxy.JwtToken
open Text Lua LuaPattern Context EngineCodec HookMonad Jwt JwtCodec JwtFormat JwtSignature

section Trim

theorem minExpand_pass {k : Bytes → Option (Bytes × List Capture)} {s u : Bytes}
    (hk : ∀ b t, (b :: t) <:+ s → k (b :: (t ++ u)) = none) :
    minExpand (Class.test (.one .any)) k (s ++ u) = minExpand (Class.test (.one .any)) k u := by
  induction s with
  | nil => rfl
  | cons b t ih =>
    have hb : Class.test (.one .any) b = true := rfl
    simp only [List.cons_append, minExpand, hk b t (List.suffix_refl _), hb, if_true]
    exact ih fun c u hu => hk c u (hu.trans (List.suffix_cons b t))

theorem minExpand_first {α : Type*} {test : UInt8 → Bool} {k : Bytes → Option α} {s : Bytes} {r : α}
    (h : k s = some r) : minExpand test k s = some r := by
  cases s with
  | nil => exact h
  | cons b t => simp [minExpand, h]

/-- The text does not end in a blank. -/
def Solid (s : Bytes) : Prop := ∀ b ∈ s.getLast?, Single.space.test b = false

theorem Solid.suffix {s t : Bytes} (h : Solid s) (ht : t <:+ s) (hne : t ≠ []) : ¬ Blank t := by
  obtain ⟨u, rfl⟩ := ht
  intro hblank
  have hlast : t.getLast hne ∈ (u ++ t).getLast? := by
    simp [List.getLast?_append, List.getLast?_eq_some_getLast hne]
  have hsolid := h _ hlast
  rw [hblank _ (List.getLast_mem hne)] at hsolid
  exact Bool.noConfusion hsolid

theorem exists_solid (s : Bytes) : ∃ t w, s = t ++ w ∧ Solid t ∧ Blank w := by
  induction s using List.reverseRecOn with
  | nil => exact ⟨[], [], rfl, by simp [Solid], by simp [Blank]⟩
  | append_singleton s b ih =>
    cases hb : Single.space.test b with
    | false => exact ⟨s ++ [b], [], by simp, by simpa [Solid] using hb, by simp [Blank]⟩
    | true =>
      obtain ⟨t, w, rfl, ht, hw⟩ := ih
      refine ⟨t, w ++ [b], by simp, ht, fun x hx => ?_⟩
      rcases List.mem_append.mp hx with hx | hx
      · exact hw x hx
      · rw [List.mem_singleton.mp hx]
        exact hb

/-- The end of the pattern of `trim`: the capture is closed where only blanks are left. -/
theorem matchHere_trim_end (s t : Bytes) :
    matchHere [.closeCap, .star (.one .space), .eos] t [.opened (s ++ t)] =
      if t.dropWhile Single.space.test = [] then some ([], [.closed s]) else none := by
  have hk : ∀ b u, Class.test (.one .space) b = true →
      matchHere [.eos] (b :: u) [.closed s] = none := by
    intro b u _
    simp [matchHere]
  have hspace : Class.test (.one .space) = Single.space.test := rfl
  rw [matchHere, closeCapture_one, Option.bind_some, matchHere, maxExpand_eq hk, hspace]
  split_ifs with h
  · rw [h]
    rfl
  · simp [matchHere, h]

def trimItems : List Item := [.lazy (.one .any), .closeCap, .star (.one .space), .eos]

theorem matchHere_trim {s w : Bytes} (hs : Solid s) (hw : Blank w) :
    matchHere trimItems (s ++ w) [.opened (s ++ w)] = some ([], [.closed s]) := by
  have hpass : ∀ b t, (b :: t) <:+ s → matchHere [.closeCap, .star (.one .space), .eos]
      (b :: (t ++ w)) [.opened (s ++ w)] = none := by
    intro b t hbt
    obtain ⟨u, hu⟩ := id hbt
    have hend := matchHere_trim_end u (b :: (t ++ w))
    have hsplit : u ++ b :: (t ++ w) = s ++ w := by
      rw [← hu]
      simp
    rw [hsplit, if_neg] at hend
    · exact hend
    · rw [List.dropWhile_eq_nil_iff]
      intro hall
      refine hs.suffix hbt (by simp) fun x hx => hall x ?_
      rw [← List.cons_append]
      exact List.mem_append_left _ hx
  rw [trimItems, matchHere, minExpand_pass hpass]
  apply minExpand_first
  rw [matchHere_trim_end, if_pos]
  rw [List.dropWhile_eq_nil_iff]
  exact hw

theorem trim_blank {w s w' : Bytes} (hw : Blank w) (hs : Solid s) (hw' : Blank w')
    (hhead : ∀ b ∈ (s ++ w').head?, Single.space.test b = false) :
    trim (w ++ (s ++ w')) = .ok s := by
  have hstart : (w ++ (s ++ w')).dropWhile (Class.test (.one .space)) = s ++ w' := by
    rw [List.dropWhile_append_of_pos (p := Class.test (.one .space)) hw]
    cases hsw : s ++ w' with
    | nil => rfl
    | cons b t =>
      have hb : Class.test (.one .space) b = false := hhead b (by simp [hsw])
      simp [hb]
  have hk : ∀ t, (matchHere (.openCap :: trimItems) t []).isSome := by
    intro t
    obtain ⟨u, v, rfl, hu, hv⟩ := exists_solid t
    rw [matchHere, matchHere_trim hu hv]
    rfl
  have hm : matchHere (.star (.one .space) :: .openCap :: trimItems) (w ++ (s ++ w')) [] =
      some ([], [.closed s]) := by
    rw [matchHere, maxExpand_total _ hk, hstart, matchHere, matchHere_trim hs hw']
  have htrim : luaMatch₁ "^%s*(.-)%s*$" (w ++ (s ++ w')) = some s := by
    rw [luaMatch₁, luaMatch_eq parse_trim]
    change ((matchAt (.star (.one .space) :: .openCap :: trimItems) _).map Prod.snd).bind _ = _
    rw [matchAt, hm]
    rfl
  rw [trim, htrim]

theorem trim_ok (s : Bytes) : ∃ raw, trim s = .ok raw := by
  obtain ⟨t, w', ht, hsolid, hw'⟩ := exists_solid (s.dropWhile Single.space.test)
  have hw : Blank (s.takeWhile Single.space.test) := fun b hb => List.mem_takeWhile_imp hb
  have hhead : ∀ b ∈ (t ++ w').head?, Single.space.test b = false := by
    intro b hb
    rw [← ht] at hb
    have hno := List.head?_dropWhile_not Single.space.test s
    rw [Option.mem_def.mp hb] at hno
    simpa using hno
  refine ⟨t, ?_⟩
  have htrim := trim_blank hw hsolid hw' hhead
  rwa [← ht, List.takeWhile_append_dropWhile] at htrim

end Trim

theorem bearer_none (t : Bytes) : luaMatch₁ bearerPattern (101 :: t) = none := by
  rw [luaMatch₁, luaMatch_eq parse_bearer]
  rfl

theorem bearer_lits (is : List Item) (s : Bytes) (cs : List Capture) :
    matchHere (.one (.set false [.lit 66, .lit 98]) ::
      ((utf8 "earer").map (fun c => .one (.one (.lit c))) ++ .plus (.one .space) :: is))
        (utf8 "Bearer " ++ s) cs =
      maxExpand (Class.test (.one .space)) (fun t => matchHere is t cs) s := by
  have htext : utf8 "Bearer " ++ s = 66 :: (utf8 "earer" ++ 32 :: s) := by
    have hsplit : utf8 "Bearer " = 66 :: (utf8 "earer" ++ [32]) := by decide
    simp [hsplit]
  have hcapital : Class.test (.set false [.lit 66, .lit 98]) 66 = true := by decide
  have hblank : Class.test (.one .space) 32 = true := by decide
  rw [htext, matchHere, if_pos hcapital, matchHere_lits, if_pos (List.prefix_append _ _), List.drop_left,
    matchHere, if_pos hblank]

theorem bearer_some {b : UInt8} {t : Bytes} (hb : Single.space.test b = false) :
    luaMatch₁ bearerPattern (utf8 "Bearer " ++ b :: t) = some (b :: t) := by
  have hb' : ¬ Class.test (.one .space) b = true := by
    change ¬ Single.space.test b = true
    simp [hb]
  rw [luaMatch₁, luaMatch_eq parse_bearer]
  simp only [Pattern.find, if_true, matchAt, bearer_lits, maxExpand, hb']
  rw [matchHere_rest, if_neg (List.cons_ne_nil _ _)]
  rfl

theorem scheme_some {b : UInt8} {t : Bytes} (hb : Single.space.test b = false) :
    (luaMatch schemePattern (utf8 "Bearer " ++ b :: t)).isSome := by
  have hb' : ¬ Class.test (.one .space) b = true := by
    change ¬ Single.space.test b = true
    simp [hb]
  rw [luaMatch_eq parse_scheme]
  simp only [Pattern.find, if_true, matchAt, bearer_lits, maxExpand, hb']
  rfl

theorem segment_test_iff (b : UInt8) : Class.test (.set true [.lit 46]) b = (b != 46) := by
  simp [Class.test, Single.test, bne]

theorem matchHere_segment {a : Bytes} (ha : Segment a) (t : Bytes) (is : List Item)
    (cs : List Capture) (ht : ∀ b ∈ t.head?, b = 46)
    (his : ∀ b u cs, b ≠ 46 → matchHere is (b :: u) cs = none) :
    matchHere (segmentItems ++ is) (a ++ t) cs = matchHere is t (.closed a :: cs) := by
  obtain ⟨hne, hdot⟩ := ha
  cases a with
  | nil => exact absurd rfl hne
  | cons b a =>
    have hb : b ≠ 46 := hdot b (by simp)
    have hk : ∀ c u, Class.test (.set true [.lit 46]) c = true →
        matchHere (.closeCap :: is) (c :: u) (.opened (b :: (a ++ t)) :: cs) = none := by
      intro c u hc
      rw [segment_test_iff] at hc
      simp [matchHere, closeCapture, his c u _ (by simpa using hc)]
    have hdrop : (a ++ t).dropWhile (Class.test (.set true [.lit 46])) = t := by
      rw [List.dropWhile_append_of_pos]
      · cases t with
        | nil => rfl
        | cons c t =>
          have hc : c = 46 := ht c (by simp)
          simp [segment_test_iff, hc]
      · intro x hx
        simpa [segment_test_iff] using hdot x (by simp [hx])
    have hcap := closeCapture_one (b :: a) t cs
    simp only [segmentItems, List.cons_append, List.nil_append, matchHere] at hk hcap ⊢
    rw [if_pos (by simp [segment_test_iff, hb]), maxExpand_eq hk, hdrop, hcap, Option.bind_some]

theorem segments_complete {a b c : Bytes} (ha : Segment a) (hb : Segment b) (hc : Segment c) :
    luaMatch segmentsPattern (signingInput a b ++ utf8 "." ++ c) = some [a, b, c] := by
  have hitems : ∀ (is : List Item) x u cs, x ≠ 46 → matchHere (dotItem :: is) (x :: u) cs = none := by
    intro is x u cs hx
    simp [dotItem, matchHere, Class.test, Single.test, hx]
  have hend : ∀ x u cs, x ≠ 46 → matchHere [.eos] (x :: u) cs = none := by
    intro x u cs _
    simp [matchHere]
  have hskip : ∀ (is : List Item) u cs, matchHere (dotItem :: is) (46 :: u) cs = matchHere is u cs := by
    intro is u cs
    simp [dotItem, matchHere, Class.test, Single.test]
  have hm : matchHere (segmentItems ++ dotItem :: segmentItems ++ dotItem :: segmentItems ++ [.eos])
      (signingInput a b ++ utf8 "." ++ c) [] = some ([], [.closed c, .closed b, .closed a]) := by
    simp only [signingInput, utf8_dot, List.append_assoc, List.cons_append, List.nil_append]
    rw [matchHere_segment ha _ _ _ (by simp) (hitems _), hskip,
      matchHere_segment hb _ _ _ (by simp) (hitems _), hskip]
    have hlast := matchHere_segment hc [] [.eos] [.closed b, .closed a] (by simp) hend
    rw [List.append_nil] at hlast
    rw [hlast]
    rfl
  rw [luaMatch_eq parse_segments]
  simp only [Pattern.find, if_true, matchAt, hm]
  rfl

theorem signingInput_header (payloadB64 rest : Bytes) :
    ∃ t, signingInput (b64url (utf8 header)) payloadB64 ++ rest = 101 :: t := by
  have hhead : b64url (utf8 header) = 101 :: utf8 "yJhbGciOiJIUzI1NiIsInR5cCI6IkpXVCJ9" := by
    decide
  rw [signingInput, hhead]
  exact ⟨_, rfl⟩

theorem header_alg (host : Host) : ∃ headerJson, b64urlDecode host (b64url (utf8 header)) =
    .ok headerJson ∧ isText ((parseJsonObj headerJson).get (utf8 "alg")) (utf8 "HS256") = true := by
  have hwhole : whole (utf8 header) = utf8 header := by decide
  refine ⟨utf8 header, ?_, by decide⟩
  rw [b64urlDecode_b64url, hwhole, fromUtf8_utf8]
  rfl

theorem segment_b64url {data : Bytes} (h : data ≠ []) : Segment (b64url data) := by
  refine ⟨?_, fun b hb => (mem_b64url hb).2.1⟩
  intro hnil
  have hl := b64url_length data
  have hp := List.length_pos_iff.mpr h
  rw [hnil, List.length_nil] at hl
  omega

theorem toRustString_str {host : Host} {b : Bytes} {t : String}
    (h : toRustString host (.str b) = .ok t) : utf8 t = b := by
  simp only [toRustString] at h
  split at h
  · rename_i u hu
    rw [← Except.ok.inj h]
    exact fromUtf8_eq_some.mp hu
  · simp at h

theorem b64urlDecode_blank {host : Host} {b : UInt8} {s json : Bytes}
    (hb : Single.space.test b = true) (h : b64urlDecode host (b :: s) = .ok json) : json = [] := by
  have hbyte : ∀ b, Single.space.test b = true →
      swap 95 47 (swap 45 43 b) = b ∧ decodeChar b = none := forall_byte (by decide +kernel)
  obtain ⟨hswap, hchar⟩ := hbyte b hb
  have hgroups : ∀ t, ((decodeGroups (b :: t)).bind fromUtf8).getD "" = "" := by
    intro t
    have hempty : fromUtf8 [] = some "" := fromUtf8_eq_some.mpr utf8_empty
    unfold decodeGroups
    split
    · rename_i he
      obtain ⟨rfl, -⟩ := List.cons.inj he
      split_ifs
      · rw [Option.bind_some, hempty]
        rfl
      · rw [hchar]
        rfl
    · rw [Option.bind_some, hempty]
      rfl
  have hhead : gsub "_" (utf8 "/") (gsub "-" (utf8 "+") (b :: s)) =
      b :: gsub "_" (utf8 "/") (gsub "-" (utf8 "+") s) := by
    rw [gsub_minus, gsub_underscore, gsub_minus, gsub_underscore, List.map_cons, List.map_cons, hswap]
  unfold b64urlDecode at h
  rw [hhead] at h
  dsimp only at h
  generalize pad (b :: gsub "_" (utf8 "/") (gsub "-" (utf8 "+") s)).length = n at h
  cases ht : toRustString host (.str (b :: gsub "_" (utf8 "/") (gsub "-" (utf8 "+") s) ++
      List.replicate n 61)) with
  | error e =>
    rw [ht] at h
    simp [bind, Except.bind] at h
  | ok t =>
    rw [ht] at h
    have hjson : utf8 ((base64Decode t).getD "") = json := Except.ok.inj h
    rw [← hjson, base64Decode, toRustString_str ht, List.cons_append, hgroups, utf8_empty]

theorem hmac_b64url {host : Host} {msg secret sig : Bytes}
    (h : hmacSha256B64url host msg secret = .ok sig) : ∃ data, sig = b64url data := by
  cases hm : toRustString host (.str msg) with
  | error e => simp [hmacSha256B64url, hm, bind, Except.bind] at h
  | ok m =>
    cases hs : toRustString host (.str secret) with
    | error e => simp [hmacSha256B64url, hm, hs, bind, Except.bind] at h
    | ok s =>
      have heq := hmacSha256B64url_eq host m s
      rw [toRustString_str hm, toRustString_str hs, h] at heq
      exact ⟨_, Except.ok.inj heq⟩

/-- The signature check passes exactly the tokens that are signed. -/
theorem checkSignature_iff {host : Host} {token secret payloadB64 : Bytes} :
    checkSignature host token secret = .ok (.ok payloadB64) ↔
      SignedText host (unschemed token) secret payloadB64 := by
  refine ⟨checkSignature_sound, ?_⟩
  rintro ⟨w, w', headerB64, sigB64, json, hw, hw', hsplit, hheader, hpayload, hsig, hjson, halg, hmac⟩
  have hsolid : Solid (signingInput headerB64 payloadB64 ++ utf8 "." ++ sigB64) := by
    obtain ⟨data, rfl⟩ := hmac_b64url hmac
    intro b hb
    rw [List.getLast?_append, List.getLast?_eq_some_getLast hsig.1] at hb
    obtain rfl : (b64url data).getLast hsig.1 = b := by simpa using hb
    exact (mem_b64url (List.getLast_mem hsig.1)).2.2.2
  have hhead : ∀ b ∈ (signingInput headerB64 payloadB64 ++ utf8 "." ++ sigB64 ++ w').head?,
      Single.space.test b = false := by
    intro b hb
    cases headerB64 with
    | nil => exact absurd rfl hheader.1
    | cons x t =>
      obtain rfl : x = b := by simpa [signingInput] using hb
      rw [Bool.eq_false_iff]
      intro hx
      rw [b64urlDecode_blank hx hjson] at halg
      exact absurd halg (by decide)
  have htrim := trim_blank hw hsolid hw' hhead
  rw [← List.append_assoc, ← hsplit] at htrim
  have hmatch : signatureMatches host headerB64 payloadB64 secret sigB64 = .ok true := by
    simp [signatureMatches, hmac, bind, Except.bind]
  have hseg := segments_complete hheader hpayload hsig
  change luaMatch "^([^.]+)%.([^.]+)%.([^.]+)$" _ = _ at hseg
  change (trim (unschemed token) >>= _) = _
  simp only [htrim, bind, Except.bind, hseg, hjson, halg, hmatch, if_true]

theorem checkSignature_complete (host : Host) {payload mac secret : Bytes} (hp : payload ≠ [])
    (hm : mac ≠ [])
    (hsig : hmacSha256B64url host (signingInput (b64url (utf8 header)) (b64url payload)) secret =
      .ok (b64url mac)) :
    checkSignature host
        (signingInput (b64url (utf8 header)) (b64url payload) ++ utf8 "." ++ b64url mac) secret =
      .ok (.ok (b64url payload)) := by
  have hbearer : luaMatch₁ bearerPattern
      (signingInput (b64url (utf8 header)) (b64url payload) ++ utf8 "." ++ b64url mac) = none := by
    obtain ⟨t, ht⟩ := signingInput_header (b64url payload) (utf8 "." ++ b64url mac)
    rw [List.append_assoc, ht]
    exact bearer_none t
  obtain ⟨headerJson, hdec, halg⟩ := header_alg host
  rw [checkSignature_iff, unschemed, hbearer, Option.getD_none]
  exact ⟨[], [], _, _, headerJson, by simp [Blank], by simp [Blank], by simp,
    segment_b64url (by decide), segment_b64url hp, segment_b64url hm, hdec, halg, hsig⟩

theorem ascii_signingInput {a b : Bytes} (ha : Ascii a) (hb : Ascii b) :
    Ascii (signingInput a b) := by
  intro x hx
  simp only [signingInput, utf8_dot, List.mem_append, List.mem_singleton] at hx
  rcases hx with (hx | rfl) | hx
  · exact ha x hx
  · decide
  · exact hb x hx

theorem ascii_b64url (data : Bytes) : Ascii (b64url data) := fun _ hb =>
  UInt8.lt_trans (mem_b64url hb).2.2.1.2 (by decide)

/-- For every payload there is a signature that makes `jwt.verify` go on to the claims. -/
theorem verify_signed (host : Host) {data : Bytes} (hd : data ≠ []) (key : String) :
    ∃ sig, hmacSha256B64url host (signingInput (b64url (utf8 header)) (b64url data)) (utf8 key) =
        .ok sig ∧
      checkSignature host (signingInput (b64url (utf8 header)) (b64url data) ++ utf8 "." ++ sig)
        (utf8 key) = .ok (.ok (b64url data)) := by
  have hascii : Ascii (signingInput (b64url (utf8 header)) (b64url data)) :=
    ascii_signingInput (ascii_b64url _) (ascii_b64url _)
  have hsig := hmacSha256B64url_eq host
    (latin1 (signingInput (b64url (utf8 header)) (b64url data))) key
  rw [utf8_latin1_ascii hascii] at hsig
  refine ⟨_, hsig, checkSignature_complete host hd ?_ hsig⟩
  intro hnil
  have hle := widen_length_le (host.hmacSha256 (utf8 key)
    (signingInput (b64url (utf8 header)) (b64url data))).toList
  rw [hnil] at hle
  simp at hle

theorem verify_of_checkSignature {host : Host} {token secret payloadB64 : Bytes}
    (h : checkSignature host token secret = .ok (.ok payloadB64)) (now now' : ℤ) :
    verify host token secret now now' = checkClaims host payloadB64 now now' := by
  rw [verify, h]
  rfl

/-- The claims of a payload as `jwt.verify` reads them. -/
def readPayload (data : Bytes) : Table := parseJsonObj (utf8 ((fromUtf8 (whole data)).getD ""))

theorem readPayload_eq {data : Bytes} (h : ValidUtf8 (whole data)) :
    readPayload data = parseJsonObj (whole data) := by
  obtain ⟨t, ht⟩ := h
  rw [readPayload, ← ht, fromUtf8_utf8]
  rfl

/-- `jwt.verify` returns the claims it reads when the clock is inside their window. -/
theorem checkClaims_iff (host : Host) (data : Bytes) (now now' : ℤ) (claims : Table) :
    checkClaims host (b64url data) now now' = .ok (.ok claims) ↔
      claims = readPayload data ∧ expired claims now = .ok false ∧
        notYetValid claims now' = .ok false := by
  have hdef : checkClaims host (b64url data) now now' =
      (do
        if ← expired (readPayload data) now then .ok (.error (utf8 "token expired"))
        else if ← notYetValid (readPayload data) now' then
          .ok (.error (utf8 "token not yet valid"))
        else .ok (.ok (readPayload data))) := by
    rw [checkClaims, b64urlDecode_b64url]
    rfl
  rw [hdef]
  constructor
  · intro h
    cases he : expired (readPayload data) now with
    | error e => simp [he, bind, Except.bind] at h
    | ok b =>
      cases b with
      | true => simp [he, bind, Except.bind] at h
      | false =>
        cases hn : notYetValid (readPayload data) now' with
        | error e => simp [he, hn, bind, Except.bind] at h
        | ok b' =>
          cases b' with
          | true => simp [he, hn, bind, Except.bind] at h
          | false =>
            have hc : readPayload data = claims := by simpa [he, hn, bind, Except.bind] using h
            exact ⟨hc.symm, hc ▸ he, hc ▸ hn⟩
  · rintro ⟨rfl, he, hn⟩
    simp [he, hn, bind, Except.bind]

end LuaProxy.JwtToken
