import Mathlib.Tactic.Linarith
import Mathlib.Tactic.Ring
import Mathlib.Algebra.Order.Ring.Defs

/-! Token buckets over an ordered ring of amounts and times: what a bucket that refills at a
constant rate up to its capacity gives out, whatever the times it is asked at. -/
namespace LuaProxy.TokenBucket

structure Bucket (α : Type*) where
  tokens : α
  last : α
  deriving DecidableEq

variable {α : Type*} [CommRing α] [LinearOrder α] (capacity rate : α)

def refill (b : Bucket α) (now : α) : Bucket α :=
  if b.last < now then ⟨min capacity (b.tokens + (now - b.last) * rate), now⟩ else b

def take (b : Bucket α) : Bucket α × Bool :=
  if b.tokens < 1 then (b, false) else ({ b with tokens := b.tokens - 1 }, true)

def ask (b : Bucket α) (now : α) : Bucket α × Bool := take (refill capacity rate b now)

/-- The bucket after being asked at some times, and how often it gave a token. -/
def asks (b : Bucket α) : List α → Bucket α × ℕ
  | [] => (b, 0)
  | now :: nows =>
    let r := ask capacity rate b now
    let rest := asks r.1 nows
    (rest.1, r.2.toNat + rest.2)

theorem asks_append (b : Bucket α) (nows : List α) (now : α) :
    asks capacity rate b (nows ++ [now]) =
      ((ask capacity rate (asks capacity rate b nows).1 now).1,
        (asks capacity rate b nows).2 +
          (ask capacity rate (asks capacity rate b nows).1 now).2.toNat) := by
  induction nows generalizing b with
  | nil => simp [asks]
  | cons t nows ih =>
    rw [List.cons_append, asks, ih]
    simp only [asks, Nat.add_assoc]

theorem asks_append_count (b : Bucket α) (nows nows' : List α) :
    (asks capacity rate b (nows ++ nows')).2 =
      (asks capacity rate b nows).2 + (asks capacity rate (asks capacity rate b nows).1 nows').2 := by
  induction nows generalizing b with
  | nil => simp [asks]
  | cons t nows ih =>
    rw [List.cons_append, asks, ih]
    simp only [asks, Nat.add_assoc]

/-- A bucket that gave `n` tokens since it was full at `created`. -/
structure Account (created : α) (n : ℕ) (b : Bucket α) : Prop where
  nonneg : 0 ≤ b.tokens
  le_capacity : b.tokens ≤ capacity
  created_le : created ≤ b.last
  spent : (n : α) + b.tokens ≤ capacity + rate * (b.last - created)

variable {capacity rate} {created now : α} {n : ℕ} {b : Bucket α}

section Times

theorem refill_last (b : Bucket α) (now : α) : (refill capacity rate b now).last = max b.last now := by
  unfold refill
  split_ifs with h
  · rw [max_eq_right h.le]
  · rw [max_eq_left (not_lt.mp h)]

theorem take_last (b : Bucket α) : (take b).1.last = b.last := by
  unfold take
  split_ifs <;> rfl

theorem ask_last (b : Bucket α) (now : α) : (ask capacity rate b now).1.last = max b.last now := by
  rw [ask, take_last, refill_last]

variable (capacity rate) in
theorem asks_last_mem (b : Bucket α) (nows : List α) :
    (asks capacity rate b nows).1.last ∈ b.last :: nows := by
  induction nows generalizing b with
  | nil => simp [asks]
  | cons now nows ih =>
    rcases List.mem_cons.mp (ih (ask capacity rate b now).1) with h | h
    · rw [asks, h, ask_last]
      rcases max_choice b.last now with hm | hm <;> simp [hm]
    · exact List.mem_cons_of_mem _ (List.mem_cons_of_mem _ h)

variable (capacity rate) in
theorem le_asks_last (b : Bucket α) (nows : List α) :
    ∀ t ∈ b.last :: nows, t ≤ (asks capacity rate b nows).1.last := by
  induction nows generalizing b with
  | nil =>
    intro t ht
    rw [List.mem_singleton.mp ht]
    exact le_rfl
  | cons now nows ih =>
    have hlast := ih (ask capacity rate b now).1
    rw [ask_last] at hlast
    have hmax := hlast _ List.mem_cons_self
    intro t ht
    rcases List.mem_cons.mp ht with rfl | ht
    · exact (le_max_left _ _).trans hmax
    · rcases List.mem_cons.mp ht with rfl | ht
      · exact (le_max_right _ _).trans hmax
      · exact hlast t (List.mem_cons_of_mem _ ht)

end Times

variable [IsStrictOrderedRing α]

omit [IsStrictOrderedRing α] in
theorem Account.full (hc : 0 ≤ capacity) : Account capacity rate created 0 ⟨capacity, created⟩ := by
  refine ⟨hc, le_rfl, le_rfl, ?_⟩
  simp

theorem Account.refill (hr : 0 ≤ rate) (h : Account capacity rate created n b) (now : α) :
    Account capacity rate created n (refill capacity rate b now) := by
  unfold TokenBucket.refill
  split_ifs with hlt
  · have hgain : 0 ≤ (now - b.last) * rate := mul_nonneg (sub_nonneg.mpr hlt.le) hr
    refine ⟨?_, min_le_left _ _, h.created_le.trans hlt.le, ?_⟩
    · exact le_min (h.nonneg.trans h.le_capacity) (by linarith [h.nonneg])
    · -- what came in since the last refill is what the bound has grown by
      have hmin : min capacity (b.tokens + (now - b.last) * rate) ≤ b.tokens + (now - b.last) * rate :=
        min_le_right _ _
      have hspent := h.spent
      have hgrown : capacity + rate * (now - created) =
          capacity + rate * (b.last - created) + (now - b.last) * rate := by ring
      dsimp only
      linarith
  · exact h

theorem Account.take (h : Account capacity rate created n b) :
    Account capacity rate created (n + (take b).2.toNat) (take b).1 := by
  unfold TokenBucket.take
  split_ifs with hlt
  · exact h
  · have hspent := h.spent
    have hnonneg := h.nonneg
    have hle := h.le_capacity
    refine ⟨?_, ?_, h.created_le, ?_⟩
    · exact sub_nonneg.mpr (not_lt.mp hlt)
    · dsimp only
      linarith
    · simp only [Bool.toNat_true, Nat.cast_add, Nat.cast_one]
      linarith

theorem Account.asks (hr : 0 ≤ rate) (h : Account capacity rate created n b) (nows : List α) :
    Account capacity rate created (n + (asks capacity rate b nows).2) (asks capacity rate b nows).1 := by
  induction nows generalizing b n with
  | nil => exact h
  | cons now nows ih =>
    have hask := (h.refill hr now).take
    have hrest := ih hask
    rw [Nat.add_assoc] at hrest
    exact hrest

/-- What a bucket has given is bounded by its capacity and what came in until its time. -/
theorem Account.bound (h : Account capacity rate created n b) :
    (n : α) ≤ capacity + rate * (b.last - created) := by
  linarith [h.nonneg, h.spent]

section Waiting

omit [IsStrictOrderedRing α] in
theorem ask_gives_iff (hc : 1 ≤ capacity) (b : Bucket α) (now : α) :
    (ask capacity rate b now).2 = true ↔
      if b.last < now then 1 ≤ b.tokens + (now - b.last) * rate else 1 ≤ b.tokens := by
  unfold ask take TokenBucket.refill
  by_cases hlt : b.last < now
  · simp only [if_pos hlt, min_lt_iff, not_lt.mpr hc, false_or]
    split_ifs with h
    · simp [not_le.mpr h]
    · simp [not_lt.mp h]
  · simp only [if_neg hlt]
    split_ifs with h
    · simp [not_le.mpr h]
    · simp [not_lt.mp h]

/-- Asked at no later time than its own, a bucket gives what it holds and no more. -/
theorem asks_still {r : ℕ} (h : (r : α) ≤ b.tokens) (h' : b.tokens < r + 1) {nows : List α}
    (hnows : ∀ now ∈ nows, now ≤ b.last) : (TokenBucket.asks capacity rate b nows).2 = min r nows.length := by
  induction nows generalizing b r with
  | nil => simp [TokenBucket.asks]
  | cons now nows ih =>
    have hsame : TokenBucket.refill capacity rate b now = b := by
      rw [TokenBucket.refill, if_neg (not_lt.mpr (hnows now List.mem_cons_self))]
    have hrest : ∀ t ∈ nows, t ≤ b.last := fun t ht => hnows t (List.mem_cons_of_mem _ ht)
    rw [TokenBucket.asks, ask, hsame, TokenBucket.take]
    cases r with
    | zero =>
      rw [Nat.cast_zero, zero_add] at h'
      have hnone := ih h (by rwa [Nat.cast_zero, zero_add]) hrest
      simp only [if_pos h', hnone]
      simp
    | succ r =>
      have hone : ¬ b.tokens < 1 := by
        push_cast at h
        have hr : (0 : α) ≤ r := Nat.cast_nonneg r
        linarith
      have hleft := @ih { b with tokens := b.tokens - 1 } r (by push_cast at h; dsimp only; linarith)
        (by push_cast at h'; dsimp only; linarith) hrest
      simp only [if_neg hone, hleft, Bool.toNat_true, List.length_cons]
      omega

end Waiting

end LuaProxy.TokenBucket
