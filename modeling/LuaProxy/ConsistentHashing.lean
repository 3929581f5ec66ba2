import LuaProxy.Selection

/-! What the failure of one target does to the keys of the others under `ConsistentHash`. The
index of a key is its hash modulo the number of alive targets, and that number changes. -/
namespace LuaProxy.ConsistentHashing
open Text Context Upstream Positions Selection

section Arithmetic

theorem mod_mod_pred {n h : ℕ} (hn : 2 ≤ n) : h % (n - 1) = (h / n + h % n) % (n - 1) := by
  have hdiv := Nat.div_add_mod h n
  have hsplit : h = (n - 1) * (h / n) + (h / n + h % n) := by
    have hmul : n * (h / n) = (n - 1) * (h / n) + h / n := by
      rw [Nat.sub_mul, one_mul, Nat.sub_add_cancel (Nat.le_mul_of_pos_left _ (by omega))]
    omega
  conv_lhs => rw [hsplit]
  rw [Nat.mul_add_mod]

theorem mod_pred_eq_iff {n h : ℕ} (hn : 2 ≤ n) (hi : h % n < n - 1) :
    h % (n - 1) = h % n ↔ (n - 1) ∣ h / n := by
  rw [mod_mod_pred hn]
  constructor
  · intro h'
    have hmod : h / n + h % n ≡ 0 + h % n [MOD n - 1] := by
      rw [Nat.ModEq, h', Nat.zero_add, Nat.mod_eq_of_lt hi]
    exact (Nat.modEq_zero_iff_dvd).mp (Nat.ModEq.add_right_cancel' _ hmod)
  · intro hd
    have hmod : h / n + h % n ≡ 0 + h % n [MOD n - 1] :=
      Nat.ModEq.add_right _ ((Nat.modEq_zero_iff_dvd).mpr hd)
    rw [hmod, Nat.zero_add, Nat.mod_eq_of_lt hi]

theorem mod_pred_succ_iff {n h : ℕ} (hn : 2 ≤ n) (hi : 0 < h % n) :
    h % (n - 1) + 1 = h % n ↔ (n - 1) ∣ h / n + 1 := by
  have hlt := Nat.mod_lt h (show 0 < n by omega)
  have hshift : h / n + h % n = h / n + 1 + (h % n - 1) := by omega
  rw [mod_mod_pred hn, hshift]
  constructor
  · intro h'
    have hmod : h / n + 1 + (h % n - 1) ≡ 0 + (h % n - 1) [MOD n - 1] := by
      rw [Nat.ModEq, Nat.zero_add, Nat.mod_eq_of_lt (a := h % n - 1) (by omega)]
      omega
    exact (Nat.modEq_zero_iff_dvd).mp (Nat.ModEq.add_right_cancel' _ hmod)
  · intro hd
    have hmod : h / n + 1 + (h % n - 1) ≡ 0 + (h % n - 1) [MOD n - 1] :=
      Nat.ModEq.add_right _ ((Nat.modEq_zero_iff_dvd).mpr hd)
    rw [hmod, Nat.zero_add, Nat.mod_eq_of_lt (by omega)]
    omega

theorem getElem?_erase_mod {A : List ℕ} (hA : A.Nodup) {j : ℕ} (hj : j ∈ A) (h2 : 2 ≤ A.length)
    (h : ℕ) (hne : A.idxOf j ≠ h % A.length) :
    (A.filter (· != j))[h % (A.length - 1)]? = A[h % A.length]? ↔
      (h % A.length < A.idxOf j → (A.length - 1) ∣ h / A.length) ∧
      (A.idxOf j < h % A.length → (A.length - 1) ∣ h / A.length + 1) := by
  have hrank := List.idxOf_lt_length_of_mem hj
  have hi := Nat.mod_lt h (show 0 < A.length by omega)
  have hr := Nat.mod_lt h (show 0 < A.length - 1 by omega)
  have herase : A.filter (· != j) = A.eraseIdx (A.idxOf j) := by
    rw [List.eraseIdx_idxOf_eq_erase, hA.erase_eq_filter]
  rw [herase, List.getElem?_eraseIdx]
  rcases Nat.lt_or_gt_of_ne hne with hlt | hgt
  · -- the key's target stands behind the one that leaves
    have hiff := mod_pred_succ_iff h2 (h := h) (by omega)
    split_ifs with hc
    · rw [List.getElem?_inj (by omega) hA, ← hiff]
      omega
    · rw [List.getElem?_inj (by omega) hA, hiff]
      omega
  · have hiff := mod_pred_eq_iff h2 (h := h) (by omega)
    split_ifs with hc
    · rw [List.getElem?_inj (by omega) hA, hiff]
      omega
    · rw [List.getElem?_inj (by omega) hA, ← hiff]
      omega

end Arithmetic

section Keys
variable (host : Host) (key : Option String)

def aliveCount (ts : List Target) : ℕ := (alivePositions ts).length

def rank (ts : List Target) (j : ℕ) : ℕ := (alivePositions ts).idxOf j

def keyHash : ℕ := (host.hashKey (key.getD "default")).toNat % 2 ^ host.usizeBits

/-- The alive targets keep their keys when one of them fails, and its return moves keys to
it only. -/
def Consistent (ts : List Target) (j : ℕ) : Prop :=
  (∀ i, pick host key (.consistentHash ts) = some i → i ≠ j →
    pick host key (.consistentHash (setAlive j false ts)) = some i) ∧
  ∀ i i', pick host key (.consistentHash (setAlive j false ts)) = some i →
    pick host key (.consistentHash ts) = some i' → i' = i ∨ i' = j

theorem pick_consistentHash (ts : List Target) :
    pick host key (.consistentHash ts) =
      (alivePositions ts)[keyHash host key % (alivePositions ts).length]? := rfl

/-- With `n` alive targets, the key's hash being `h`: keys before the failing target in the
list stay if `n - 1` divides `h / n`, and keys behind it if `n - 1` divides `h / n + 1`. -/
theorem consistent_iff {ts : List Target} {j : ℕ} (hj : j ∈ alivePositions ts)
    (h2 : 2 ≤ (alivePositions ts).length) :
    Consistent host key ts j ↔
      (keyHash host key % aliveCount ts < rank ts j →
        (aliveCount ts - 1) ∣ keyHash host key / aliveCount ts) ∧
      (rank ts j < keyHash host key % aliveCount ts →
        (aliveCount ts - 1) ∣ keyHash host key / aliveCount ts + 1) := by
  unfold aliveCount rank
  set n := (alivePositions ts).length with hn
  set rank := (alivePositions ts).idxOf j with hr
  have hnodup : (alivePositions ts).Nodup := positions_nodup _ ts
  have hi : keyHash host key % n < n := Nat.mod_lt _ (by omega)
  have hrank : rank < n := List.idxOf_lt_length_of_mem hj
  have hlength : (alivePositions (setAlive j false ts)).length = n - 1 := by
    rw [alivePositions_fail]
    have herase := List.length_erase_of_mem hj
    rw [hnodup.erase_eq_filter] at herase
    exact herase
  have hpick := pick_consistentHash host key ts
  have hpick' := pick_consistentHash host key (setAlive j false ts)
  rw [hlength, alivePositions_fail] at hpick'
  have hsome : (alivePositions ts)[keyHash host key % n]? =
      some (alivePositions ts)[keyHash host key % n] := List.getElem?_eq_getElem hi
  rw [hsome] at hpick
  by_cases hown : rank = keyHash host key % n
  · -- the key is the failing target's own
    refine iff_of_true ⟨fun i hp hne => ?_, fun i i' _ hp => Or.inr ?_⟩ ⟨by omega, by omega⟩
    · have hat : (alivePositions ts)[keyHash host key % n] = j := by
        simp only [← hown]
        exact List.getElem_idxOf hrank
      rw [hpick, hat] at hp
      exact absurd (Option.some.inj hp).symm hne
    · rw [hpick] at hp
      rw [← Option.some.inj hp]
      simp only [← hown]
      exact List.getElem_idxOf hrank
  · have hother : (alivePositions ts)[keyHash host key % n] ≠ j := by
      intro he
      apply hown
      have hidx := hnodup.idxOf_getElem (keyHash host key % n) hi
      rw [he] at hidx
      exact hidx
    rw [← getElem?_erase_mod hnodup hj h2 (keyHash host key) hown, hsome, ← hpick']
    constructor
    · intro h
      exact h.1 _ hpick hother
    · intro h
      refine ⟨fun i hp hne => ?_, fun i i' hp hp' => Or.inl ?_⟩
      · rw [h, ← hpick, hp]
      · rw [h] at hp
        rw [hpick] at hp'
        exact Option.some.inj (hp'.symm.trans hp)

end Keys

section Cases

def threeTargets : List Target := [Target.new "http://a", Target.new "http://b", Target.new "http://c"]

def hashFour : Host := { Host.plain with hashKey := fun _ => 4 }

/-- Of two targets, the other one keeps its keys. -/
theorem pair_consistent : Consistent Host.plain (some "10.0.0.1") (threeTargets.take 2) 1 :=
  (consistent_iff Host.plain (some "10.0.0.1") (by decide) (by decide)).mpr (by decide)

/-- The key is sent to `b`, and when `c` fails to `a`. -/
theorem key_moved : ¬ ∀ (host : Host) (key : Option String) (ts : List Target) (j : ℕ),
    j ∈ alivePositions ts → 2 ≤ (alivePositions ts).length → Consistent host key ts j := by
  intro h
  have hbefore : pick hashFour (some "10.0.0.1") (.consistentHash threeTargets) = some 1 := by
    decide
  have hafter : pick hashFour (some "10.0.0.1") (.consistentHash (setAlive 2 false threeTargets)) =
      some 0 := by decide
  have hkept := (h hashFour (some "10.0.0.1") threeTargets 2 (by decide) (by decide)).1 1 hbefore
    (by decide)
  rw [hafter] at hkept
  exact absurd hkept (by decide)

end Cases

end LuaProxy.ConsistentHashing
