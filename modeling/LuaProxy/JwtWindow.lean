import LuaProxy.JsonNumbers
import LuaProxy.JwtReading
import LuaProxy.Numeral

/-! The validity window of tokens: the `exp` and `nbf` of a signed JSON object against the
numbers that `jwt.verify` reads from it. -/
namespace LuaProxy.JwtWindow
open Text Lua LuaPattern Context Jwt JwtCodec JwtToken JsonScan JsonSegments JsonNames JwtPayload JwtReading
open Numeral (InRange)
open Json (Tree Document Written readNumber)

section Window

def numbers (name : String) (ms : List (Bytes × Bytes × Tree)) : List ℚ :=
  ms.filterMap fun m =>
    match m.2.2 with
    | .num _ q => if m.2.1 = utf8 name then some q else none
    | _ => none

/-- The signed window: the clock is not after a numeric `exp` nor before a numeric `nbf`. -/
def ValidAt (ms : List (Bytes × Bytes × Tree)) (now : ℤ) : Prop :=
  (∀ q ∈ numbers "exp" ms, (now : ℚ) ≤ q) ∧ ∀ q ∈ numbers "nbf" ms, q ≤ now

/-- Whenever `jwt.verify` returns the claims of a token with this payload and the expected
signature, the clock, which has 64 bits, is inside the signed window. -/
def WindowKept (host : Host) (t : Bytes) (ms : List (Bytes × Bytes × Tree)) : Prop :=
  ∀ (token secret : Bytes) (now : ℤ) (claims : Table), InRange now →
    checkSignature host token secret = .ok (.ok (b64url t)) →
    verify host token secret now now = .ok (.ok claims) → ValidAt ms now

def numberAt (t : Bytes) (name : String) (ms : List (Bytes × Bytes × Tree)) : Option Number :=
  (readOf (numberOf (utf8 name)) t ms).getLast?.bind tonumber

/-- The last clock that is not after an `exp`. -/
def latest : Option Number → ℤ
  | none => 2 ^ 63 - 1
  | some (.int n) => min n (2 ^ 63 - 1)
  | some (.float (.finite q)) => min ⌊q⌋ (2 ^ 63 - 1)
  | some (.float .negZero) => 0
  | some (.float (.inf negative)) => if negative then -2 ^ 63 - 1 else 2 ^ 63 - 1

/-- The first clock that is not before an `nbf`. -/
def earliest : Option Number → ℤ
  | none => -2 ^ 63
  | some (.int n) => max n (-2 ^ 63)
  | some (.float (.finite q)) => max ⌈q⌉ (-2 ^ 63)
  | some (.float .negZero) => 0
  | some (.float (.inf negative)) => if negative then -2 ^ 63 else 2 ^ 63

end Window

section Clock

theorem latest_le (r : Option Number) : latest r ≤ 2 ^ 63 - 1 := by
  match r with
  | none => exact le_rfl
  | some (.int n) => exact min_le_right _ _
  | some (.float (.finite q)) => exact min_le_right _ _
  | some (.float .negZero) => decide
  | some (.float (.inf true)) => decide
  | some (.float (.inf false)) => decide

theorem le_earliest (r : Option Number) : -2 ^ 63 ≤ earliest r := by
  match r with
  | none => exact le_rfl
  | some (.int n) => exact le_max_right _ _
  | some (.float (.finite q)) => exact le_max_right _ _
  | some (.float .negZero) => decide
  | some (.float (.inf true)) => decide
  | some (.float (.inf false)) => decide

variable {now : ℤ} (h : InRange now)
include h

theorem le_latest_iff (r : Number) : r.lt (.int now) = false ↔ now ≤ latest (some r) := by
  obtain ⟨hlo, hhi⟩ := h
  match r with
  | .int n =>
    simp only [Number.lt, decide_eq_false_iff_not, latest]
    omega
  | .float (.finite q) =>
    have hfloor : (q < now) ↔ ¬ now ≤ ⌊q⌋ := by rw [Int.le_floor, not_le]
    simp only [Number.lt, Double.lt, decide_eq_false_iff_not, hfloor, latest]
    omega
  | .float .negZero =>
    have hcast : ((0 : ℚ) < now) ↔ 0 < now := by exact_mod_cast Iff.rfl
    simp only [Number.lt, Double.lt, decide_eq_false_iff_not, hcast, latest]
    omega
  | .float (.inf true) =>
    have hlt : ¬ now ≤ -2 ^ 63 - 1 := by omega
    simp only [Number.lt, Double.lt, latest, if_true, hlt, Bool.true_eq_false]
  | .float (.inf false) =>
    have hle : now ≤ 2 ^ 63 - 1 := by omega
    simp only [Number.lt, Double.lt, latest, Bool.false_eq_true, if_false, hle]

theorem earliest_le_iff (r : Number) : (Number.int now).lt r = false ↔ earliest (some r) ≤ now := by
  obtain ⟨hlo, hhi⟩ := h
  match r with
  | .int n =>
    simp only [Number.lt, decide_eq_false_iff_not, earliest]
    omega
  | .float (.finite q) =>
    have hceil : ((now : ℚ) < q) ↔ ¬ ⌈q⌉ ≤ now := by rw [Int.ceil_le, not_le]
    simp only [Number.lt, Double.lt, decide_eq_false_iff_not, hceil, earliest]
    omega
  | .float .negZero =>
    have hcast : ((now : ℚ) < 0) ↔ now < 0 := by exact_mod_cast Iff.rfl
    simp only [Number.lt, Double.lt, decide_eq_false_iff_not, hcast, earliest]
    omega
  | .float (.inf true) =>
    simp only [Number.lt, Double.lt, earliest, if_true, Bool.not_true, hlo]
  | .float (.inf false) =>
    have hlt : ¬ 2 ^ 63 ≤ now := by omega
    simp only [Number.lt, Double.lt, earliest, Bool.false_eq_true, if_false, Bool.not_false, hlt,
      Bool.true_eq_false]

end Clock

section Checks
variable {t : Bytes} {ms : List (Bytes × Bytes × Tree)} (hdoc : Document t (.obj ms))
  (hflat : Flat ms) {now : ℤ} (hnow : InRange now)
include hdoc hflat

theorem read_cases {name : String} (hk : Aloof (utf8 name)) :
    (∃ r, (readPayload t).get (utf8 name) = .num r ∧ numberAt t name ms = some r ∧
      ¬ ReadsString t (utf8 name) ms) ∨
    ((readPayload t).get (utf8 name) = .nil ∧ numberAt t name ms = none ∧
      ¬ ReadsString t (utf8 name) ms) ∨
    ∃ s, (readPayload t).get (utf8 name) = .str s ∧ ReadsString t (utf8 name) ms := by
  have hread := readPayload_aloof hk hdoc hflat
  have hstring := readsString_iff hk hdoc hflat
  rw [numberAt]
  cases hn : (readOf (numberOf (utf8 name)) t ms).getLast? with
  | some y =>
    have hnot : ¬ ReadsString t (utf8 name) ms := by
      rw [hstring]
      simp [hn]
    rw [hn] at hread
    cases hy : tonumber y with
    | some r =>
      refine Or.inl ⟨r, ?_, hy, hnot⟩
      rw [hread, Option.map_some, Option.getD_some, numeral, hy]
      rfl
    | none =>
      refine Or.inr (Or.inl ⟨?_, hy, hnot⟩)
      rw [hread, Option.map_some, Option.getD_some, numeral, hy]
      rfl
  | none =>
    rw [hn] at hread
    cases hs : lastOf (utf8 name) (scanStrings (segments (whole t))) with
    | none =>
      refine Or.inr (Or.inl ⟨?_, rfl, ?_⟩)
      · rw [hread, hs]
        rfl
      · rw [hstring]
        simp [hs]
    | some s =>
      refine Or.inr (Or.inr ⟨s, ?_, ?_⟩)
      · rw [hread, hs]
        rfl
      · rw [hstring]
        exact ⟨hn, by simp [hs]⟩

omit hdoc hflat in
theorem aloof_exp : Aloof (utf8 "exp") :=
  ⟨by decide, by decide, forall_mem_bytes (by decide), by decide⟩

omit hdoc hflat in
theorem aloof_nbf : Aloof (utf8 "nbf") :=
  ⟨by decide, by decide, forall_mem_bytes (by decide), by decide⟩

theorem expired_iff (hnow : InRange now) :
    expired (readPayload t) now = .ok false ↔
      ¬ ReadsString t (utf8 "exp") ms ∧ now ≤ latest (numberAt t "exp" ms) := by
  rw [expired]
  rcases read_cases hdoc hflat aloof_exp with ⟨r, hget, hr, hnot⟩ | ⟨hget, hr, hnot⟩ | ⟨s, hget, hs⟩
  · simp [hget, hr, hnot, Value.truthy, Value.lessThan, le_latest_iff hnow]
  · have hle : now ≤ 2 ^ 63 - 1 := by
      have hhi := hnow.2
      omega
    simpa [hget, hr, hnot, Value.truthy, latest] using hle
  · simp [hget, hs, Value.truthy, Value.lessThan]

theorem notYetValid_iff (hnow : InRange now) :
    notYetValid (readPayload t) now = .ok false ↔
      ¬ ReadsString t (utf8 "nbf") ms ∧ earliest (numberAt t "nbf" ms) ≤ now := by
  rw [notYetValid]
  rcases read_cases hdoc hflat aloof_nbf with ⟨r, hget, hr, hnot⟩ | ⟨hget, hr, hnot⟩ | ⟨s, hget, hs⟩
  · simp [hget, hr, hnot, Value.truthy, Value.lessThan, earliest_le_iff hnow]
  · simpa [hget, hr, hnot, Value.truthy, earliest] using hnow.1
  · simp [hget, hs, Value.truthy, Value.lessThan]

/-- `jwt.verify` returns the claims of a signed payload when the clock is between the numbers
that are read, and no string is. -/
theorem verify_iff {host : Host} {token secret : Bytes}
    (h : checkSignature host token secret = .ok (.ok (b64url t))) (hnow : InRange now) :
    (∃ claims, verify host token secret now now = .ok (.ok claims)) ↔
      (¬ ReadsString t (utf8 "exp") ms ∧ now ≤ latest (numberAt t "exp" ms)) ∧
        ¬ ReadsString t (utf8 "nbf") ms ∧ earliest (numberAt t "nbf" ms) ≤ now := by
  rw [← expired_iff hdoc hflat hnow, ← notYetValid_iff hdoc hflat hnow]
  simp only [verify_of_checkSignature h, checkClaims_iff, exists_eq_left]

end Checks

section Kept

theorem text_ne_nil {t : Bytes} {x : Tree} (h : Document t x) : t ≠ [] := by
  rintro rfl
  obtain ⟨-, r, hw, -⟩ := h
  obtain ⟨b, u, hb, -⟩ := hw.starts
  simp [Json.skip] at hb

/-- The window is kept unless the clocks that pass what is read leave it. -/
theorem windowKept_iff {t : Bytes} {ms : List (Bytes × Bytes × Tree)} (hdoc : Document t (.obj ms))
    (hflat : Flat ms) (host : Host) :
    WindowKept host t ms ↔
      ReadsString t (utf8 "exp") ms ∨ ReadsString t (utf8 "nbf") ms ∨
        latest (numberAt t "exp" ms) < earliest (numberAt t "nbf" ms) ∨
          (∀ q ∈ numbers "exp" ms, (latest (numberAt t "exp" ms) : ℚ) ≤ q) ∧
            ∀ q ∈ numbers "nbf" ms, q ≤ (earliest (numberAt t "nbf" ms) : ℚ) := by
  constructor
  · intro h
    by_contra hnone
    push Not at hnone
    obtain ⟨hexp, hnbf, hle, hout⟩ := hnone
    obtain ⟨sig, -, hcheck⟩ := verify_signed host (text_ne_nil hdoc) ""
    have hvalid : ∀ now, earliest (numberAt t "nbf" ms) ≤ now → now ≤ latest (numberAt t "exp" ms) →
        ValidAt ms now := by
      intro now hlo hhi
      have hnow : InRange now := by
        have hlatest := latest_le (numberAt t "exp" ms)
        have hearliest := le_earliest (numberAt t "nbf" ms)
        exact ⟨by omega, by omega⟩
      obtain ⟨claims, hv⟩ := (verify_iff hdoc hflat hcheck hnow).mpr ⟨⟨hexp, hhi⟩, hnbf, hlo⟩
      exact h _ _ now claims hnow hcheck hv
    obtain ⟨q, hq, hlt⟩ := hout (hvalid _ hle le_rfl).1
    exact absurd ((hvalid _ le_rfl hle).2 q hq) (not_le.mpr hlt)
  · intro h token secret now claims hnow hcheck hv
    obtain ⟨⟨hexp, hhi⟩, hnbf, hlo⟩ := (verify_iff hdoc hflat hcheck hnow).mp ⟨claims, hv⟩
    rcases h with h | h | h | ⟨hin, hin'⟩
    · exact absurd h hexp
    · exact absurd h hnbf
    · omega
    · have hlate : (now : ℚ) ≤ latest (numberAt t "exp" ms) := by exact_mod_cast hhi
      have hearly : (earliest (numberAt t "nbf" ms) : ℚ) ≤ now := by exact_mod_cast hlo
      exact ⟨fun q hq => hlate.trans (hin q hq), fun q hq => (hin' q hq).trans hearly⟩

end Kept

section Texts

def expText : Bytes := utf8 "\x7b\"exp\":2000\x7d"

def expMembers : List (Bytes × Bytes × Tree) := [(utf8 "exp", utf8 "exp", .num (utf8 "2000") 2000)]

theorem plain_name {s : String} (hs : (utf8 s).all (fun b => decide (Json.Unescaped b)) = true)
    (r : Bytes) : Json.Str (34 :: (utf8 s ++ 34 :: r)) (utf8 s) (utf8 s) r :=
  .of_plain (forall_mem_bytes hs) r

theorem expDocument : Document expText (.obj expMembers) := by
  have hnumber : readNumber (utf8 "2000") = some (2000, []) := by
    have h := @Json.readNumber_digits (utf8 "2000") 2000 (by decide) (by decide)
    exact_mod_cast h
  have hvalue : Written .value (utf8 "2000" ++ [125]) (.num (utf8 "2000") 2000) [125] :=
    .num rfl hnumber (by simp [Json.isNumberByte, Json.isDigit])
  exact ⟨⟨_, rfl⟩, [], .obj (.lastMember (plain_name (s := "exp") (by decide) _) rfl hvalue rfl), rfl⟩

/-- `{"exp":2000}` is read as it is signed. -/
theorem expText_kept : WindowKept Host.plain expText expMembers := by
  have hflat : Flat expMembers := by simp [Flat, expMembers]
  have hexp : numberAt expText "exp" expMembers = some (.int 2000) := by decide
  have hnbf : numbers "nbf" expMembers = [] := by decide
  refine (windowKept_iff expDocument hflat _).mpr (Or.inr (Or.inr (Or.inr ⟨?_, by simp [hnbf]⟩)))
  intro q hq
  obtain rfl : q = 2000 := by simpa [numbers, expMembers] using hq
  norm_num [hexp, latest]

def nbfText : Bytes := utf8 "\x7b\"user\":\"a\",\"nbf\":2000000000\x7d"

def nbfMembers : List (Bytes × Bytes × Tree) :=
  [(utf8 "user", utf8 "user", .str (utf8 "a") (utf8 "a")),
    (utf8 "nbf", utf8 "nbf", .num (utf8 "2000000000") 2000000000)]

theorem nbfDocument : Document nbfText (.obj nbfMembers) := by
  have hnumber : readNumber (utf8 "2000000000") = some (2000000000, []) := by
    have h := @Json.readNumber_digits (utf8 "2000000000") 2000000000 (by decide) (by decide)
    exact_mod_cast h
  have hvalue : Written .value (utf8 "2000000000" ++ [125]) (.num (utf8 "2000000000") 2000000000)
      [125] := .num rfl hnumber (by simp [Json.isNumberByte, Json.isDigit])
  have hobject : Written .value nbfText (.obj nbfMembers) [] :=
    .obj (.member (plain_name (s := "user") (by decide) _) rfl
      (.str (plain_name (s := "a") (by decide) _)) rfl
      (.lastMember (plain_name (s := "nbf") (by decide) _) rfl hvalue rfl))
  exact ⟨⟨_, rfl⟩, [], hobject, rfl⟩

/-- The `nbf` of `{"user":"a","nbf":2000000000}` loses its last digit, and the token is
accepted before its time. -/
theorem nbf_passed_early :
    Document nbfText (.obj nbfMembers) ∧ Flat nbfMembers ∧ ¬ WindowKept Host.plain nbfText nbfMembers := by
  refine ⟨nbfDocument, by simp [Flat, nbfMembers], ?_⟩
  intro h
  obtain ⟨sig, -, hcheck⟩ := verify_signed Host.plain (text_ne_nil nbfDocument) "secret"
  have hv := (verify_of_checkSignature hcheck 1700000000 1700000000).trans
    ((checkClaims_iff _ _ _ _ _).mpr ⟨rfl, by decide, by decide⟩)
  have hle := (h _ _ 1700000000 _ ⟨by norm_num, by norm_num⟩ hcheck hv).2 2000000000
    (by simp [numbers, nbfMembers])
  norm_num at hle

end Texts

end LuaProxy.JwtWindow
