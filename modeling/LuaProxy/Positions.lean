import Mathlib.Data.List.MinMax
import Mathlib.Data.List.Sort
import Mathlib.Tactic

/-! The positions in a list of the elements that a test keeps. Choosing among the kept
elements and choosing among their positions is the same choice. -/
namespace LuaProxy.Positions

variable {α β : Type*}

def positions (p : α → Bool) (l : List α) : List ℕ :=
  (List.range l.length).filter fun i => l[i]?.any p

section Basic
variable (p : α → Bool)

@[simp] theorem positions_nil : positions p [] = [] := rfl

theorem positions_cons (a : α) (l : List α) :
    positions p (a :: l) =
      if p a then 0 :: (positions p l).map (· + 1) else (positions p l).map (· + 1) := by
  simp only [positions, List.length_cons, List.range_succ_eq_map, List.filter_cons, List.filter_map]
  rfl

theorem mem_positions {l : List α} {i : ℕ} :
    i ∈ positions p l ↔ ∃ a, l[i]? = some a ∧ p a = true := by
  simp only [positions, List.mem_filter, List.mem_range, Option.any_eq_true]
  constructor
  · exact fun h => h.2
  · rintro ⟨a, ha, hp⟩
    exact ⟨(List.getElem?_eq_some_iff.mp ha).1, a, ha, hp⟩

theorem positions_sorted (l : List α) : (positions p l).Pairwise (· < ·) :=
  List.Pairwise.filter _ List.pairwise_lt_range

theorem positions_nodup (l : List α) : (positions p l).Nodup :=
  (positions_sorted p l).imp fun h => h.ne

theorem map_positions (l : List α) :
    (positions p l).map (l[·]?) = (l.filter p).map some := by
  induction l with
  | nil => rfl
  | cons a l ih =>
    have htail : ((positions p l).map (· + 1)).map ((a :: l)[·]?) = (l.filter p).map some := by
      rw [← ih, List.map_map]
      rfl
    rw [positions_cons, List.filter_cons]
    split_ifs with ha
    · rw [List.map_cons, List.map_cons, htail]
      rfl
    · exact htail

theorem length_positions (l : List α) : (positions p l).length = (l.filter p).length := by
  have h := congrArg List.length (map_positions p l)
  rwa [List.length_map, List.length_map] at h

theorem positions_eq_nil {l : List α} : positions p l = [] ↔ l.filter p = [] := by
  rw [← List.length_eq_zero_iff, length_positions, List.length_eq_zero_iff]

theorem getElem?_filter (l : List α) (k : ℕ) :
    (l.filter p)[k]? = (positions p l)[k]?.bind (l[·]?) := by
  have h := congrArg (fun m => m[k]?) (map_positions p l)
  simp only [List.getElem?_map] at h
  cases hk : (positions p l)[k]? with
  | none =>
    rw [hk] at h
    simpa using h.symm
  | some i =>
    rw [hk] at h
    cases hf : (l.filter p)[k]? with
    | none => simp [hf] at h
    | some a =>
      rw [hf] at h
      exact (Option.some.inj h).symm

theorem positions_modify {f : α → α} (hf : ∀ a, p (f a) = false) (l : List α) (j : ℕ) :
    positions p (l.modify j f) = (positions p l).filter (· != j) := by
  simp only [positions, List.length_modify, List.filter_filter]
  congr 1
  funext i
  by_cases hi : i = j
  · subst hi
    have hnone : (Option.map f l[i]?).any p = false := by
      cases l[i]? with
      | none => rfl
      | some a => exact hf a
    simp [hnone]
  · simp [hi, Ne.symm hi]

end Basic

section Least

theorem argmin_map [LinearOrder β] {γ : Type*} (g : γ → α) (f : α → β) (l : List γ) :
    (l.map g).argmin f = (l.argmin (f ∘ g)).map g := by
  induction l with
  | nil => rfl
  | cons a l ih =>
    rw [List.map_cons, List.argmin_cons, List.argmin_cons, ih]
    cases l.argmin (f ∘ g) with
    | none => rfl
    | some b =>
      simp only [Option.map_some, Function.comp_apply]
      split_ifs <;> rfl

theorem argmin_positions (p : α → Bool) (f : α → ℕ) (l : List α) :
    (l.filter p).argmin f =
      ((positions p l).argmin fun i => (l[i]?.map f).getD 0).bind (l[·]?) := by
  have hleft := argmin_map (l[·]?) (fun o : Option α => (o.map f).getD 0) (positions p l)
  have hright := argmin_map some (fun o : Option α => (o.map f).getD 0) (l.filter p)
  rw [map_positions, hright] at hleft
  change ((l.filter p).argmin f).map some =
    ((positions p l).argmin fun i => (l[i]?.map f).getD 0).map (l[·]?) at hleft
  cases hpos : (positions p l).argmin fun i => (l[i]?.map f).getD 0 with
  | none =>
    rw [hpos] at hleft
    simpa using hleft
  | some i =>
    rw [hpos] at hleft
    cases hmin : (l.filter p).argmin f with
    | none => simp [hmin] at hleft
    | some a =>
      rw [hmin] at hleft
      exact Option.some.inj hleft

end Least

end LuaProxy.Positions
