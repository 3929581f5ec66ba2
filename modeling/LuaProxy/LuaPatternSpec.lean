import LuaProxy.LuaPattern

/-! What a pattern matches, declaratively, and the rules that evaluate the matcher:
the matcher is sound for the declarative reading, a greedy run before a character it
cannot contain is taken whole, and `gmatch` and `gsub` go from match to match. -/
namespace LuaProxy.LuaPattern
open Text

/-- `Derives items s cs rest cs'`: the items consume `s` up to `rest`. -/
inductive Derives : List Item → Bytes → List Capture → Bytes → List Capture → Prop
  | nil (s cs) : Derives [] s cs s cs
  | one {c is b t cs rest cs'} : c.test b → Derives is t cs rest cs' →
      Derives (.one c :: is) (b :: t) cs rest cs'
  | star {c is w t cs rest cs'} : (∀ b ∈ w, c.test b) → Derives is t cs rest cs' →
      Derives (.star c :: is) (w ++ t) cs rest cs'
  | plus {c is w t cs rest cs'} : w ≠ [] → (∀ b ∈ w, c.test b) → Derives is t cs rest cs' →
      Derives (.plus c :: is) (w ++ t) cs rest cs'
  | lazy {c is w t cs rest cs'} : (∀ b ∈ w, c.test b) → Derives is t cs rest cs' →
      Derives (.lazy c :: is) (w ++ t) cs rest cs'
  | openCap {is s cs rest cs'} : Derives is s (.opened s :: cs) rest cs' →
      Derives (.openCap :: is) s cs rest cs'
  | closeCap {is s cs cs₁ rest cs'} : closeCapture s cs = some cs₁ → Derives is s cs₁ rest cs' →
      Derives (.closeCap :: is) s cs rest cs'
  | eos {is cs rest cs'} : Derives is [] cs rest cs' → Derives (.eos :: is) [] cs rest cs'

theorem maxExpand_sound {α : Type*} {test : UInt8 → Bool} {k : Bytes → Option α} {s : Bytes}
    {r : α} (h : maxExpand test k s = some r) :
    ∃ w t, s = w ++ t ∧ (∀ b ∈ w, test b) ∧ k t = some r := by
  induction s with
  | nil => exact ⟨[], [], rfl, by simp, h⟩
  | cons b t ih =>
    simp only [maxExpand] at h
    by_cases hb : test b = true
    · rw [if_pos hb] at h
      cases hm : maxExpand test k t with
      | none =>
        rw [hm] at h
        exact ⟨[], b :: t, rfl, by simp, h⟩
      | some r' =>
        rw [hm] at h
        obtain ⟨w, u, rfl, hw, hu⟩ := ih (hm.trans h)
        exact ⟨b :: w, u, rfl, by simpa [hb] using hw, hu⟩
    · rw [if_neg hb] at h
      exact ⟨[], b :: t, rfl, by simp, h⟩

theorem minExpand_sound {α : Type*} {test : UInt8 → Bool} {k : Bytes → Option α} {s : Bytes}
    {r : α} (h : minExpand test k s = some r) :
    ∃ w t, s = w ++ t ∧ (∀ b ∈ w, test b) ∧ k t = some r := by
  induction s with
  | nil => exact ⟨[], [], rfl, by simp, h⟩
  | cons b t ih =>
    simp only [minExpand] at h
    cases hk : k (b :: t) with
    | some r' =>
      rw [hk] at h
      exact ⟨[], b :: t, rfl, by simp, hk.trans h⟩
    | none =>
      rw [hk] at h
      by_cases hb : test b = true
      · obtain ⟨w, u, rfl, hw, hu⟩ := ih (by simpa [hb] using h)
        exact ⟨b :: w, u, rfl, by simpa [hb] using hw, hu⟩
      · simp [hb] at h

/-- Every match the backtracking matcher finds is a match of the declarative reading. -/
theorem matchHere_sound {items : List Item} {s rest : Bytes} {cs cs' : List Capture}
    (h : matchHere items s cs = some (rest, cs')) : Derives items s cs rest cs' := by
  induction items generalizing s cs with
  | nil =>
    simp only [matchHere, Option.some.injEq, Prod.mk.injEq] at h
    obtain ⟨rfl, rfl⟩ := h
    exact .nil _ _
  | cons item is ih =>
    cases item with
    | one c =>
      cases s with
      | nil => simp [matchHere] at h
      | cons b t =>
        simp only [matchHere] at h
        split_ifs at h with hb
        exact .one hb (ih h)
    | star c =>
      obtain ⟨w, t, rfl, hw, ht⟩ := maxExpand_sound (by simpa only [matchHere] using h)
      exact .star hw (ih ht)
    | plus c =>
      cases s with
      | nil => simp [matchHere] at h
      | cons b t =>
        simp only [matchHere] at h
        split_ifs at h with hb
        obtain ⟨w, u, rfl, hw, hu⟩ := maxExpand_sound h
        exact .plus (w := b :: w) (by simp) (by simpa [hb] using hw) (ih hu)
    | lazy c =>
      obtain ⟨w, t, rfl, hw, ht⟩ := minExpand_sound (by simpa only [matchHere] using h)
      exact .lazy hw (ih ht)
    | openCap => exact .openCap (ih (by simpa only [matchHere] using h))
    | closeCap =>
      simp only [matchHere] at h
      obtain ⟨cs₁, hc, hm⟩ := Option.bind_eq_some_iff.mp h
      exact .closeCap hc (ih hm)
    | eos =>
      simp only [matchHere] at h
      split_ifs at h with hs
      subst hs
      exact .eos (ih h)

theorem Derives.suffix {items : List Item} {s rest : Bytes} {cs cs' : List Capture}
    (h : Derives items s cs rest cs') : rest <:+ s := by
  induction h with
  | nil => exact List.suffix_refl _
  | one _ _ ih => exact ih.trans (List.suffix_cons _ _)
  | star _ _ ih => exact ih.trans (List.suffix_append _ _)
  | plus _ _ _ ih => exact ih.trans (List.suffix_append _ _)
  | lazy _ _ ih => exact ih.trans (List.suffix_append _ _)
  | openCap _ ih => exact ih
  | closeCap _ _ ih => exact ih
  | eos _ ih => exact ih

/-- A greedy run is taken whole when what follows cannot start inside it. -/
theorem maxExpand_eq {α : Type*} {test : UInt8 → Bool} {k : Bytes → Option α}
    (hk : ∀ b t, test b → k (b :: t) = none) (s : Bytes) :
    maxExpand test k s = k (s.dropWhile test) := by
  induction s with
  | nil => rfl
  | cons b t ih =>
    simp only [maxExpand, List.dropWhile_cons]
    by_cases hb : test b = true
    · rw [if_pos hb, if_pos hb, ih]
      cases k (t.dropWhile test) with
      | none => simp [hk b t hb]
      | some r => rfl
    · rw [if_neg hb, if_neg hb]

theorem maxExpand_total {α : Type*} (test : UInt8 → Bool) {k : Bytes → Option α}
    (hk : ∀ t, (k t).isSome) (s : Bytes) : maxExpand test k s = k (s.dropWhile test) := by
  induction s with
  | nil => rfl
  | cons b t ih =>
    simp only [maxExpand, List.dropWhile_cons]
    by_cases hb : test b = true
    · obtain ⟨r, hr⟩ := Option.isSome_iff_exists.mp (hk (t.dropWhile test))
      rw [if_pos hb, if_pos hb, ih, hr]
    · rw [if_neg hb, if_neg hb]

theorem matchHere_lits (w : Bytes) (is : List Item) (s : Bytes) (cs : List Capture) :
    matchHere (w.map (fun c => .one (.one (.lit c))) ++ is) s cs =
      if w <+: s then matchHere is (s.drop w.length) cs else none := by
  induction w generalizing s with
  | nil => simp
  | cons c w ih =>
    cases s with
    | nil => simp [matchHere]
    | cons b t =>
      simp only [List.map_cons, List.cons_append, matchHere, Class.test, Single.test, ih,
        List.cons_prefix_cons, List.length_cons, List.drop_succ_cons, beq_iff_eq]
      by_cases hb : b = c
      · subst hb
        simp
      · rw [if_neg hb, if_neg (fun h => hb h.1.symm)]

/-- No match of the items is empty. -/
def Productive (items : List Item) : Prop :=
  ∀ s cs rest cs', matchHere items s cs = some (rest, cs') → rest.length < s.length

theorem productive_one (c : Class) (is : List Item) : Productive (.one c :: is) := by
  intro s cs rest cs' h
  cases matchHere_sound h with
  | one _ hd => exact Nat.lt_succ_of_le hd.suffix.length_le

theorem productive_plus (c : Class) (is : List Item) : Productive (.plus c :: is) := by
  intro s cs rest cs' h
  cases matchHere_sound h with
  | plus hw _ hd =>
    have hr := hd.suffix.length_le
    have hp := List.length_pos_iff.mpr hw
    simp only [List.length_append]
    omega

section Scan
variable {items : List Item}

theorem matchAt_suffix {s rest : Bytes} {vs : List Bytes} (h : matchAt items s = some (rest, vs)) :
    rest <:+ s := by
  obtain ⟨⟨r, cs⟩, hm, he⟩ := Option.map_eq_some_iff.mp h
  simp only [Prod.mk.injEq] at he
  obtain ⟨rfl, -⟩ := he
  exact (matchHere_sound hm).suffix

theorem matchAt_shorter (hp : Productive items) {s rest : Bytes} {vs : List Bytes}
    (h : matchAt items s = some (rest, vs)) : rest.length < s.length := by
  obtain ⟨⟨r, cs⟩, hm, he⟩ := Option.map_eq_some_iff.mp h
  simp only [Prod.mk.injEq] at he
  obtain ⟨rfl, -⟩ := he
  exact hp _ _ _ _ hm

theorem matchAt_nil (hp : Productive items) : matchAt items [] = none := by
  cases h : matchAt items [] with
  | none => rfl
  | some r => exact absurd (matchAt_shorter hp h) (by simp)

/-- The matches of the items from the start of `s` on. -/
def gmatchAll (items : List Item) (s : Bytes) : List (List Bytes) :=
  gmatchFrom items s s.length none

/-- The end of the previous match is never met again by a productive pattern. -/
theorem gmatchFrom_eq_all (hp : Productive items) (s : Bytes) {resume : ℕ} {last : Option ℕ}
    (hr : s.length ≤ resume) (hl : ∀ l ∈ last, s.length ≤ l) :
    gmatchFrom items s resume last = gmatchAll items s := by
  unfold gmatchAll
  induction s generalizing resume last with
  | nil => simp [gmatchFrom, matchAt_nil hp]
  | cons b t ih =>
    have hlen : (b :: t).length = t.length + 1 := rfl
    rw [gmatchFrom, gmatchFrom, if_neg (by omega), if_neg (by omega)]
    cases hm : matchAt items (b :: t) with
    | none =>
      have hleft : gmatchFrom items t resume last = gmatchFrom items t t.length none :=
        ih (by omega) fun n hn => by have := hl n hn; omega
      have hright : gmatchFrom items t (t.length + 1) none = gmatchFrom items t t.length none :=
        ih (by omega) (by simp)
      exact hleft.trans hright.symm
    | some p =>
      have hs := matchAt_shorter hp hm
      have hne : last ≠ some p.1.length := fun he => by have := hl _ he; omega
      simp [hne]

theorem gmatchFrom_skip (hp : Productive items) (w rest : Bytes) :
    gmatchFrom items (w ++ rest) rest.length (some rest.length) = gmatchAll items rest := by
  induction w with
  | nil => exact gmatchFrom_eq_all hp _ le_rfl (by simp)
  | cons b w ih => simpa [gmatchFrom] using ih

theorem gmatchAll_nil (hp : Productive items) : gmatchAll items [] = [] := by
  simp [gmatchAll, gmatchFrom, matchAt_nil hp]

theorem gmatchAll_skip (hp : Productive items) {b : UInt8} {t : Bytes}
    (h : matchAt items (b :: t) = none) : gmatchAll items (b :: t) = gmatchAll items t := by
  conv_lhs => rw [gmatchAll, gmatchFrom, if_neg (by simp)]
  rw [h]
  exact gmatchFrom_eq_all hp t (by simp) (by simp)

theorem gmatchAll_match (hp : Productive items) {s rest : Bytes} {vs : List Bytes}
    (h : matchAt items s = some (rest, vs)) :
    gmatchAll items s = vs :: gmatchAll items rest := by
  cases s with
  | nil => simp [matchAt_nil hp] at h
  | cons b t =>
    have hlt := matchAt_shorter hp h
    obtain ⟨w, hw⟩ := matchAt_suffix h
    conv_lhs => rw [gmatchAll, gmatchFrom, if_neg (by simp)]
    rw [h]
    cases w with
    | nil => simp [← hw] at hlt
    | cons a w =>
      obtain ⟨-, rfl⟩ := List.cons.inj hw
      simp [gmatchFrom_skip hp]

theorem matchAt_one_none {c : Class} {is : List Item} {b : UInt8} {t : Bytes}
    (h : c.test b = false) : matchAt (.one c :: is) (b :: t) = none := by
  simp [matchAt, matchHere, h]

theorem gmatchAll_pass {c : Class} {is : List Item} {w : Bytes} (s : Bytes)
    (h : ∀ b ∈ w, c.test b = false) :
    gmatchAll (.one c :: is) (w ++ s) = gmatchAll (.one c :: is) s := by
  induction w with
  | nil => rfl
  | cons b w ih =>
    rw [List.cons_append, gmatchAll_skip (productive_one c is) (matchAt_one_none (h b (by simp))),
      ih fun x hx => h x (by simp [hx])]

/-- `gsub` from the start of `s` on. -/
def gsubAll (items : List Item) (repl s : Bytes) : Bytes := gsubFrom items repl s s.length none

theorem gsubFrom_eq_all (hp : Productive items) (repl s : Bytes) {resume : ℕ} {last : Option ℕ}
    (hr : s.length ≤ resume) (hl : ∀ l ∈ last, s.length ≤ l) :
    gsubFrom items repl s resume last = gsubAll items repl s := by
  unfold gsubAll
  induction s generalizing resume last with
  | nil =>
    have hm : matchHere items [] [] = none := by simpa [matchAt] using matchAt_nil hp
    simp [gsubFrom, hm]
  | cons b t ih =>
    have hlen : (b :: t).length = t.length + 1 := rfl
    rw [gsubFrom, gsubFrom, if_neg (by omega), if_neg (by omega)]
    cases hm : matchHere items (b :: t) [] with
    | none =>
      have hleft : gsubFrom items repl t resume last = gsubFrom items repl t t.length none :=
        ih (by omega) fun n hn => by have := hl n hn; omega
      have hright : gsubFrom items repl t (t.length + 1) none = gsubFrom items repl t t.length none :=
        ih (by omega) (by simp)
      exact congrArg (b :: ·) (hleft.trans hright.symm)
    | some p =>
      have hs := hp _ _ _ _ hm
      have hne : last ≠ some p.1.length := fun he => by have := hl _ he; omega
      simp [hne]

theorem gsubFrom_skip (hp : Productive items) (repl w rest : Bytes) :
    gsubFrom items repl (w ++ rest) rest.length (some rest.length) = gsubAll items repl rest := by
  induction w with
  | nil => exact gsubFrom_eq_all hp _ _ le_rfl (by simp)
  | cons b w ih => simpa [gsubFrom] using ih

theorem gsubAll_nil (hp : Productive items) (repl : Bytes) : gsubAll items repl [] = [] := by
  have hm : matchHere items [] [] = none := by simpa [matchAt] using matchAt_nil hp
  simp [gsubAll, gsubFrom, hm]

theorem gsubAll_skip (hp : Productive items) {repl : Bytes} {b : UInt8} {t : Bytes}
    (h : matchHere items (b :: t) [] = none) :
    gsubAll items repl (b :: t) = b :: gsubAll items repl t := by
  conv_lhs => rw [gsubAll, gsubFrom, if_neg (by simp)]
  rw [h]
  exact congrArg (b :: ·) (gsubFrom_eq_all hp repl t (by simp) (by simp))

theorem gsubAll_match (hp : Productive items) {repl s rest : Bytes} {cs : List Capture}
    (h : matchHere items s [] = some (rest, cs)) :
    gsubAll items repl s = repl ++ gsubAll items repl rest := by
  cases s with
  | nil => exact absurd (hp _ _ _ _ h) (by simp)
  | cons b t =>
    have hlt := hp _ _ _ _ h
    obtain ⟨w, hw⟩ := (matchHere_sound h).suffix
    conv_lhs => rw [gsubAll, gsubFrom, if_neg (by simp)]
    rw [h]
    cases w with
    | nil => simp [← hw] at hlt
    | cons a w =>
      obtain ⟨-, rfl⟩ := List.cons.inj hw
      simp [gsubFrom_skip hp]

end Scan

/-- Replacing one character acts on each byte by itself. -/
theorem gsubAll_lit (c : UInt8) (repl s : Bytes) :
    gsubAll [.one (.one (.lit c))] repl s = s.flatMap fun b => if b = c then repl else [b] := by
  have hp := productive_one (.one (.lit c)) []
  induction s with
  | nil => exact gsubAll_nil hp repl
  | cons b t ih =>
    by_cases hb : b = c
    · have hm : matchHere [.one (.one (.lit c))] (b :: t) [] = some (t, []) := by
        simp [matchHere, Class.test, Single.test, hb]
      rw [gsubAll_match hp hm, ih, List.flatMap_cons, if_pos hb]
    · have hm : matchHere [.one (.one (.lit c))] (b :: t) [] = none := by
        simp [matchHere, Class.test, Single.test, hb]
      rw [gsubAll_skip hp hm, ih, List.flatMap_cons, if_neg hb]
      rfl

end LuaProxy.LuaPattern
