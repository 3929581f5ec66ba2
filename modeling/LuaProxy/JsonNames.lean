import LuaProxy.JsonWords

/-! A name that nothing else in a JSON text looks like, such as `exp`. Whatever the patterns take
for names and values elsewhere, they find the numbers of the members that have this name. -/
namespace LuaProxy.JsonNames
open Text JsonScan JsonSegments JsonWords

/-- No rest of a string behind an escaped quote, no text behind a string and nothing that is taken
for a colon looks like the name. -/
structure Aloof (k : Bytes) : Prop where
  ne : k ≠ []
  colon : afterColon k = none
  mark : ∀ b ∈ k, ¬ (b = 44 ∨ b = 58 ∨ b = 93 ∨ b = 125)
  backslash : k.getLast? ≠ some 92

/-- The literals directly behind the parts that are the name. -/
def behind (read : Bytes → Option Bytes) (k : Bytes) : List Bytes → List Bytes
  | n :: o :: rest =>
    (if n = k then ((afterColon o).bind read).toList else []) ++ behind read k (o :: rest)
  | _ => []

variable {read : Bytes → Option Bytes} {k : Bytes}

theorem behind_skip {n : Bytes} (hn : n ≠ k) (segs : List Bytes) :
    behind read k (n :: segs) = behind read k segs := by
  cases segs with
  | nil => rfl
  | cons o rest => rw [behind, if_neg hn, List.nil_append]

/-- No match in front of it takes the name away. -/
theorem lastOf_scanBare (hk : Aloof k) (segs : List Bytes) :
    lastOf k (scanBare read segs) = (behind read k segs).getLast? := by
  fun_induction scanBare read segs with
  | case1 n o rest v hv ih =>
    have hn : n ≠ [] := by
      rintro rfl
      simp at hv
    rw [if_neg hn] at hv
    have ho : o ≠ k := by
      rintro rfl
      simp [hk.colon] at hv
    rw [lastOf, ih, behind, behind_skip ho, hv, List.getLast?_append, matchFor]
    split_ifs <;> rfl
  | case2 n o rest hv ih =>
    have hnone : (if n = k then ((afterColon o).bind read).toList else []) = [] := by
      split_ifs with hn
      · rw [if_neg (hn ▸ hk.ne)] at hv
        rw [hv]
        rfl
      · rfl
    rw [ih, behind, hnone, List.nil_append]
  | case3 segs hs =>
    rcases segs with _ | ⟨n, _ | ⟨o, rest⟩⟩
    · rfl
    · rfl
    · exact absurd rfl (hs n o rest)

theorem behind_front {n : Bytes} {l : List Bytes} (hl : ∀ s ∈ (n :: l).dropLast, s ≠ k)
    (segs : List Bytes) :
    behind read k (n :: l ++ segs) = behind read k ((n :: l).getLast (by simp) :: segs) := by
  induction l generalizing n with
  | nil => rfl
  | cons m l ih =>
    rw [List.dropLast_cons_of_ne_nil (by simp), List.forall_mem_cons] at hl
    rw [List.getLast_cons (by simp), ← ih hl.2, List.cons_append, List.cons_append,
      behind_skip hl.1]

theorem behind_placed {ps : List Placed}
    (hpieces : ∀ p ∈ ps, ∀ s ∈ (pieces p.raw).dropLast, s ≠ k) (hgap : ∀ p ∈ ps, p.gap ≠ k)
    (segs : List Bytes) :
    behind read k (ps.flatMap Placed.segments ++ segs) =
      ps.flatMap (fun p => if seenName p.raw = k then ((afterColon p.gap).bind read).toList else []) ++
        behind read k segs := by
  induction ps with
  | nil => rfl
  | cons p ps ih =>
    rw [List.forall_mem_cons] at hpieces hgap
    have hfront := @behind_front read k _ _ hpieces.1 (p.gap :: (ps.flatMap Placed.segments ++ segs))
    rw [List.flatMap_cons, Placed.segments, List.append_assoc, List.append_assoc,
      List.singleton_append, pieces, hfront]
    change behind read k (seenName p.raw :: p.gap :: _) = _
    rw [behind, behind_skip hgap.1, ih hpieces.2 hgap.2, List.flatMap_cons, List.append_assoc]

theorem Aloof.pieces (hk : Aloof k) {p : Placed} (hp : p.Fits) :
    ∀ s ∈ (pieces p.raw).dropLast, s ≠ k := by
  rintro s hs rfl
  exact hk.backslash (hp.pieces s hs)

theorem Aloof.gap (hk : Aloof k) {p : Placed} (hp : p.Fits) : p.gap ≠ k := by
  rintro rfl
  obtain ⟨b, hb, hmark⟩ := hp.mark
  exact hk.mark b hb hmark

theorem behind_numbers (hk : Aloof k) {ps : List Placed} (hfits : ∀ p ∈ ps, p.Fits)
    (segs : List Bytes) :
    behind numberRun k (ps.flatMap Placed.segments ++ segs) =
      named Look.asNumber k (ps.map Placed.toWord) ++ behind numberRun k segs := by
  have hnamed : named Look.asNumber k (ps.map Placed.toWord) = ps.flatMap fun p =>
      if seenName p.raw = k then ((afterColon p.gap).bind numberRun).toList else [] := by
    rw [named, List.flatMap_map]
    apply List.flatMap_congr
    intro p hp
    simp only [(hfits p hp).number, hk.ne, ne_eq, not_false_eq_true, and_true]
  rw [behind_placed (fun p hp => hk.pieces (hfits p hp)) fun p hp => hk.gap (hfits p hp), hnamed]

theorem behind_flags (hk : Aloof k) {ps : List Placed} (hfits : ∀ p ∈ ps, p.Fits)
    (segs : List Bytes) :
    behind boolText k (ps.flatMap Placed.segments ++ segs) = behind boolText k segs := by
  have hnone : (ps.flatMap fun p =>
      if seenName p.raw = k then ((afterColon p.gap).bind boolText).toList else []) = [] := by
    rw [List.flatMap_eq_nil_iff]
    intro p hp
    simp [(hfits p hp).flag]
  rw [behind_placed (fun p hp => hk.pieces (hfits p hp)) fun p hp => hk.gap (hfits p hp), hnone,
    List.nil_append]

end LuaProxy.JsonNames
