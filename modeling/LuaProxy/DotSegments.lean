import Mathlib.Data.List.TakeWhile
import Mathlib.Tactic

/-! Dot segments of a path, over any alphabet with a slash and a dot: `remove_dot_segments` of
RFC 3986, section 5.2.4, as the rules on an input and an output buffer stand there. -/
namespace LuaProxy.DotSegments

section Segments
variable {α : Type*} {slash dot : α}

def DotFree (slash dot : α) (s : List α) : Prop :=
  ∀ before seg after, s = before ++ seg ++ after → (∀ b ∈ before.getLast?, b = slash) →
    (∀ b ∈ after.head?, b = slash) → seg ≠ [dot] ∧ seg ≠ [dot, dot]

theorem DotFree.not_prefix {s : List α} (h : DotFree slash dot s) {before seg : List α}
    (hb : ∀ b ∈ before.getLast?, b = slash) (hseg : seg = [dot] ∨ seg = [dot, dot]) :
    ¬ before ++ seg ++ [slash] <+: s := by
  rintro ⟨t, rfl⟩
  have hno := h before seg (slash :: t) (by simp) hb (by simp)
  rcases hseg with rfl | rfl
  · exact hno.1 rfl
  · exact hno.2 rfl

theorem DotFree.ne {s : List α} (h : DotFree slash dot s) {before seg : List α}
    (hb : ∀ b ∈ before.getLast?, b = slash) (hseg : seg = [dot] ∨ seg = [dot, dot]) :
    s ≠ before ++ seg := by
  rintro rfl
  have hno := h before seg [] (by simp) hb (by simp)
  rcases hseg with rfl | rfl
  · exact hno.1 rfl
  · exact hno.2 rfl

end Segments

section Rules
variable {α : Type*} [DecidableEq α] (slash dot : α)

/-- Up to the next slash, after a slash at the start. -/
def firstSegment : List α → List α
  | [] => []
  | c :: s => c :: s.takeWhile (· ≠ slash)

/-- Without the last segment and the slash before it. -/
def dropLastSegment (out : List α) : List α := (out.reverse.dropWhile (· ≠ slash)).tail.reverse

/-- One of the rules A to E: the output and the input after it. -/
def step (out s : List α) : List α × List α :=
  if [dot, dot, slash] <+: s then (out, s.drop 3)
  else if [dot, slash] <+: s then (out, s.drop 2)
  else if [slash, dot, slash] <+: s then (out, s.drop 2)
  else if s = [slash, dot] then (out, [slash])
  else if [slash, dot, dot, slash] <+: s then (dropLastSegment slash out, s.drop 3)
  else if s = [slash, dot, dot] then (dropLastSegment slash out, [slash])
  else if s = [dot] ∨ s = [dot, dot] then (out, [])
  else (out ++ firstSegment slash s, s.drop (firstSegment slash s).length)

/-- Every rule shortens the input, so its length is enough fuel. -/
def loop : ℕ → List α → List α → List α × List α
  | 0, out, s => (out, s)
  | _ + 1, out, [] => (out, [])
  | n + 1, out, c :: s => loop n (step slash dot out (c :: s)).1 (step slash dot out (c :: s)).2

def removeDotSegments (s : List α) : List α := (loop slash dot s.length [] s).1

variable {slash dot}

theorem step_shorter {out s : List α} (h : s ≠ []) : (step slash dot out s).2.length < s.length := by
  have hpos := List.length_pos_iff.mpr h
  have hfirst : 0 < (firstSegment slash s).length := by
    cases s with
    | nil => exact absurd rfl h
    | cons c s => simp [firstSegment]
  unfold step
  split_ifs with h₁ h₂ h₃ h₄ h₅ h₆ h₇
  · rw [List.length_drop]
    omega
  · rw [List.length_drop]
    omega
  · rw [List.length_drop]
    omega
  · rw [h₄]
    simp
  · rw [List.length_drop]
    omega
  · rw [h₆]
    simp
  · simpa using hpos
  · rw [List.length_drop]
    omega

theorem loop_ends {n : ℕ} {out s : List α} (h : s.length ≤ n) : (loop slash dot n out s).2 = [] := by
  induction n generalizing out s with
  | zero => exact List.eq_nil_of_length_eq_zero (Nat.le_zero.mp h)
  | succ n ih =>
    cases s with
    | nil => rfl
    | cons c s =>
      have hstep : (step slash dot out (c :: s)).2.length < (c :: s).length :=
        step_shorter (List.cons_ne_nil c s)
      rw [loop]
      exact ih (by omega)

theorem DotFree.step {s : List α} (h : DotFree slash dot s) (out : List α) :
    DotSegments.step slash dot out s =
      (out ++ firstSegment slash s, s.drop (firstSegment slash s).length) := by
  have hstart : ∀ b ∈ ([] : List α).getLast?, b = slash := by simp
  have hslash : ∀ b ∈ [slash].getLast?, b = slash := by simp
  have h₁ := h.not_prefix hstart (Or.inr rfl)
  have h₂ := h.not_prefix hstart (Or.inl rfl)
  have h₃ := h.not_prefix hslash (Or.inl rfl)
  have h₄ := h.ne hslash (Or.inl rfl)
  have h₅ := h.not_prefix hslash (Or.inr rfl)
  have h₆ := h.ne hslash (Or.inr rfl)
  have h₇ := h.ne hstart (Or.inl rfl)
  have h₈ := h.ne hstart (Or.inr rfl)
  simp only [List.nil_append, List.cons_append] at h₁ h₂ h₃ h₄ h₅ h₆ h₇ h₈
  simp only [DotSegments.step, h₁, h₂, h₃, h₄, h₅, h₆, h₇, h₈, if_false, or_self]

theorem firstSegment_append (slash : α) (s : List α) :
    firstSegment slash s ++ s.drop (firstSegment slash s).length = s := by
  rw [← List.prefix_iff_eq_append]
  cases s with
  | nil => exact List.prefix_refl _
  | cons c s =>
    rw [firstSegment, List.cons_prefix_cons]
    exact ⟨rfl, List.takeWhile_prefix _⟩

theorem drop_firstSegment (slash : α) (s : List α) :
    ∀ b ∈ (s.drop (firstSegment slash s).length).head?, b = slash := by
  cases s with
  | nil => simp
  | cons c s =>
    have hrest : (c :: s).drop (firstSegment slash (c :: s)).length = s.dropWhile (· ≠ slash) := by
      have hsplit := firstSegment_append slash (c :: s)
      rw [firstSegment, List.cons_append, List.cons.injEq] at hsplit
      exact List.append_cancel_left (hsplit.2.trans List.takeWhile_append_dropWhile.symm)
    rw [hrest]
    intro b hb
    have hno := List.head?_dropWhile_not (· ≠ slash) s
    rw [Option.mem_def.mp hb] at hno
    simpa using hno

theorem DotFree.drop {s : List α} (h : DotFree slash dot s) (hne : slash ≠ dot) :
    DotFree slash dot (s.drop (firstSegment slash s).length) := by
  intro before seg after hs hb ha
  have hstart := drop_firstSegment slash s
  have hsplit := firstSegment_append slash s
  rw [hs] at hstart hsplit
  cases before with
  | nil =>
    -- the rest starts with a slash, so the segment does
    constructor
    · rintro rfl
      exact hne (hstart dot (by simp)).symm
    · rintro rfl
      exact hne (hstart dot (by simp)).symm
  | cons b before =>
    refine h (firstSegment slash s ++ b :: before) seg after
      (hsplit.symm.trans (by simp)) (fun x hx => ?_) ha
    rw [List.getLast?_append_of_ne_nil _ (by simp)] at hx
    exact hb x hx

theorem loop_dotFree (hne : slash ≠ dot) {n : ℕ} {out s : List α} (h : DotFree slash dot s) :
    (loop slash dot n out s).1 ++ (loop slash dot n out s).2 = out ++ s := by
  induction n generalizing out s with
  | zero => rfl
  | succ n ih =>
    cases s with
    | nil => rfl
    | cons c s =>
      rw [loop, h.step, ih (h.drop hne), List.append_assoc, firstSegment_append]

theorem removeDotSegments_eq (hne : slash ≠ dot) {s : List α} (h : DotFree slash dot s) :
    removeDotSegments slash dot s = s := by
  have hloop : (loop slash dot s.length [] s).1 ++ (loop slash dot s.length [] s).2 = [] ++ s :=
    loop_dotFree hne h
  rw [loop_ends le_rfl, List.append_nil] at hloop
  exact hloop

end Rules

example : removeDotSegments '/' '.' "/a/b/c/./../../g".toList = "/a/g".toList := by decide

end LuaProxy.DotSegments
