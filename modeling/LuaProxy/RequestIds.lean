import LuaProxy.Hexadecimal
import LuaProxy.Exchange

/-! The ids that requests are traced by: `uuid_v4` makes them from the clock, `transform.lua` puts
them on the request that leaves and on the answer. -/
namespace LuaProxy.RequestIds
open Text Context Handler CtxWrites RequestCourse ShippedPipeline ShippedRun IdentityHeaders HeaderCase
  Exchange Hexadecimal
open Plugins (shippedLua shippedSources)

section Uuid

/-- `subsec_nanos` of the time since the epoch, in nanoseconds; none is before it. -/
def subsecNanos (sinceEpoch : Option ℕ) : ℕ := sinceEpoch.getD 0 % 10 ^ 9

/-- The last group of an id: a product in 64 bits. -/
def scrambled (ns : ℕ) : ℕ := (ns * 6364136223846793005) % 2 ^ 64

/-- The five groups of an id of version 4, in the format's order. -/
def groups (a b c d e : List Char) : List Char :=
  a ++ '-' :: (b ++ '-' :: '4' :: (c ++ '-' :: (d ++ '-' :: e)))

/-- `uuid_v4` -/
def uuidV4 (sinceEpoch : Option ℕ) : String :=
  let ns := subsecNanos sinceEpoch
  String.ofList (groups (digits 8 ns) (digits 4 ((ns >>> 16) &&& 0xFFFF))
    (digits 3 ((ns >>> 4) &&& 0x0FFF)) (digits 4 (0x8000 ||| ((ns >>> 2) &&& 0x3FFF)))
    (digits 12 (scrambled ns)))

/-- The form of an id of version 4: groups of so many digits, and the variant. -/
def IsV4 (id : String) : Prop :=
  ∃ a b c d e, id.toList = groups a b c d e ∧
    [a.length, b.length, c.length, d.length, e.length] = [8, 4, 3, 4, 12] ∧
    (∀ cs ∈ [a, b, c, d, e], ∀ x ∈ cs, x ∈ hexDigits) ∧
    ∃ v ∈ ['8', '9', 'a', 'b'], d.head? = some v

variable {T T' : Option ℕ}

theorem subsecNanos_lt (T : Option ℕ) : subsecNanos T < 16 ^ 8 :=
  (Nat.mod_lt _ (by decide)).trans (by decide)

theorem low_lt {mask n : ℕ} (x : ℕ) (h : mask + 1 = 2 ^ n) : x &&& mask < 2 ^ n := by
  obtain rfl : mask = 2 ^ n - 1 := by omega
  rw [Nat.and_two_pow_sub_one_eq_mod]
  exact Nat.mod_lt _ (Nat.two_pow_pos n)

theorem variant_group (ns : ℕ) :
    16 ^ 3 * 8 ≤ 0x8000 ||| ((ns >>> 2) &&& 0x3FFF) ∧ 0x8000 ||| ((ns >>> 2) &&& 0x3FFF) < 16 ^ 3 * 12 := by
  have hlow : (ns >>> 2) &&& 0x3FFF < 2 ^ 14 := low_lt _ (by norm_num)
  have hsum := Nat.two_pow_add_eq_or_of_lt hlow 2
  norm_num at hsum
  rw [← hsum]
  omega

theorem variant_head {d : ℕ} (h : 16 ^ 3 * 8 ≤ d) (h' : d < 16 ^ 3 * 12) :
    ∃ v ∈ ['8', '9', 'a', 'b'], (digits 4 d).head? = some v := by
  have hall : ∀ q ∈ [8, 9, 10, 11], Nat.digitChar q ∈ ['8', '9', 'a', 'b'] := by decide
  refine ⟨_, hall (d / 16 ^ 3) ?_, digits_head (by omega) (by omega)⟩
  have hq : 8 ≤ d / 16 ^ 3 ∧ d / 16 ^ 3 < 12 := by omega
  simp only [List.mem_cons, List.not_mem_nil, or_false]
  omega

theorem length_groups (a b c d e : List Char) :
    (groups a b c d e).length = a.length + b.length + c.length + d.length + e.length + 5 := by
  simp only [groups, List.length_append, List.length_cons]
  omega

theorem groups_length (T : Option ℕ) :
    (digits 8 (subsecNanos T)).length = 8 ∧
      (digits 4 ((subsecNanos T >>> 16) &&& 0xFFFF)).length = 4 ∧
      (digits 3 ((subsecNanos T >>> 4) &&& 0x0FFF)).length = 3 ∧
      (digits 4 (0x8000 ||| ((subsecNanos T >>> 2) &&& 0x3FFF))).length = 4 := by
  refine ⟨?_, ?_, ?_, ?_⟩ <;> rw [digits_length_iff (by decide)]
  · exact subsecNanos_lt T
  · exact (low_lt (n := 16) _ (by norm_num)).trans_eq (by norm_num)
  · exact (low_lt (n := 12) _ (by norm_num)).trans_eq (by norm_num)
  · exact (variant_group (subsecNanos T)).2.trans (by decide)

theorem uuidV4_length (T : Option ℕ) :
    (uuidV4 T).toList.length = 24 + (digits 12 (scrambled (subsecNanos T))).length := by
  obtain ⟨h₁, h₂, h₃, h₄⟩ := groups_length T
  rw [uuidV4, String.toList_ofList, length_groups, h₁, h₂, h₃, h₄]
  exact Nat.add_right_comm _ _ _

theorem isV4_iff (T : Option ℕ) : IsV4 (uuidV4 T) ↔ scrambled (subsecNanos T) < 2 ^ 48 := by
  have hfits : (digits 12 (scrambled (subsecNanos T))).length = 12 ↔
      scrambled (subsecNanos T) < 2 ^ 48 := digits_length_iff (by decide)
  have hlength := uuidV4_length T
  rw [← hfits]
  constructor
  · rintro ⟨a, b, c, d, e, hid, hgroups, -, -⟩
    rw [hid, length_groups] at hlength
    simp only [List.cons.injEq, and_true] at hgroups
    omega
  · intro h
    have hvariant := variant_group (subsecNanos T)
    refine ⟨_, _, _, _, _, by rw [uuidV4, String.toList_ofList], ?_, ?_,
      variant_head hvariant.1 hvariant.2⟩
    · obtain ⟨h₁, h₂, h₃, h₄⟩ := groups_length T
      rw [h, h₁, h₂, h₃, h₄]
    · intro cs hcs x hx
      simp only [List.mem_cons, List.not_mem_nil, or_false] at hcs
      rcases hcs with rfl | rfl | rfl | rfl | rfl <;> exact digits_mem hx

example : ¬ IsV4 (uuidV4 (some 123)) := by
  rw [isV4_iff]
  decide

theorem uuidV4_eq_iff : uuidV4 T = uuidV4 T' ↔ subsecNanos T = subsecNanos T' := by
  constructor
  · intro h
    have hlist := congrArg String.toList h
    rw [uuidV4, uuidV4, String.toList_ofList, String.toList_ofList] at hlist
    have hlength : (digits 8 (subsecNanos T)).length = (digits 8 (subsecNanos T')).length := by
      rw [(groups_length T).1, (groups_length T').1]
    exact digits_inj.mp (List.append_inj hlist hlength).1
  · intro h
    rw [uuidV4, uuidV4, h]

end Uuid

section Requests
variable (host : Host) (history : List Turn) (t : Turn)

/-- The upstream and the client hear of a request under one id, whatever id the client sent. -/
structure Tagged (id : String) : Prop where
  sent : ∀ up, (t.handle host (vmAfter host history)).sent = some up →
    up.headers.lookup "x-request-id" = some id
  answered : ∀ up resp a, (t.handle host (vmAfter host history)).sent = some up →
    t.http.send up = .ok resp → (t.handle host (vmAfter host history)).outcome = .ok a →
      a.headers.lookup "x-request-id" = some id

variable {host history t}

theorem identity_requestId (userId role : Option String) (reqId : String) :
    headerOf (identityHeaders userId role reqId) "x-request-id" = some reqId := by
  cases userId <;> rfl

theorem answer_requestId (origin : Option String) (reqId : String) :
    headerOf (answerHeaders origin (some reqId)) "x-request-id" = some reqId := by
  cases origin <;> rfl

/-- A request with an id of the client's own. -/
def taggedTurn : Turn :=
  { originTurn with
    req := (firstTurn "/public/page" [("x-request-id", utf8 "mine")]).req
    uuids := fun _ => uuidV4 (some 1000000123) }

end Requests

end LuaProxy.RequestIds
