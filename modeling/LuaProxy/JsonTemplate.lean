import LuaProxy.JsonText

/-! JSON objects written by putting strings, and lists of strings, into a text as they are. What
is read is what was put in exactly if none of it has to be escaped. -/
namespace LuaProxy.JsonTemplate
open Text Json

/-- What is put in behind a name. -/
inductive Slot
  | text (s : Bytes)
  | list (ss : List Bytes)

def Slot.value : Slot → Value
  | .text s => .str s
  | .list ss => .arr (ss.map .str)

def Slot.strings : Slot → List Bytes
  | .text s => [s]
  | .list ss => ss

def elementsText : List Bytes → Bytes → Bytes
  | [], rest => 93 :: rest
  | [s], rest => 34 :: (s ++ 34 :: 93 :: rest)
  | s :: s' :: ss, rest => 34 :: (s ++ 34 :: 44 :: elementsText (s' :: ss) rest)

def slotText : Slot → Bytes → Bytes
  | .text s, rest => 34 :: (s ++ 34 :: rest)
  | .list ss, rest => 91 :: elementsText ss rest

def membersText : List (Bytes × Slot) → Bytes
  | [] => [125]
  | [m] => 34 :: (m.1 ++ 34 :: 58 :: slotText m.2 [125])
  | m :: m' :: ms => 34 :: (m.1 ++ 34 :: 58 :: slotText m.2 (44 :: membersText (m' :: ms)))

def objectText (ms : List (Bytes × Slot)) : Bytes := 123 :: membersText ms

def objectValue (ms : List (Bytes × Slot)) : Value := .obj (ms.map fun m => (m.1, m.2.value))

/-- Nothing in the string has to be escaped. -/
def Plain (s : Bytes) : Prop := ∀ b ∈ s, Unescaped b

section Steady

/-- A string that starts here does not end with a backslash. -/
def Steady (tail : Bytes) : Prop := ∀ s r, Chars tail s r → s.getLast? ≠ some 92

theorem steady_nil : Steady [] := by
  intro s r h
  cases h with
  | escape ht hp h => simp at ht

theorem steady_quote (u : Bytes) : Steady (34 :: u) := by
  intro s r h
  obtain ⟨rfl, -⟩ := Chars.close.unique h
  simp

theorem Steady.cons {b : UInt8} {tail : Bytes} (hb : Unescaped b) (h : Steady tail) :
    Steady (b :: tail) := by
  intro s r hs
  cases hs with
  | close => exact absurd rfl hb.2.1
  | @plain _ _ s _ _ hs =>
    cases s with
    | nil => simpa using hb.2.2
    | cons c s =>
      rw [List.getLast?_cons_cons]
      exact h _ _ hs
  | escape ht hp hs => exact absurd (List.cons.inj ht).1 hb.2.2

variable {m m' : Bytes × Slot} {ms : List (Bytes × Slot)}

theorem steady_end : Steady [125] := steady_nil.cons (by decide)

theorem steady_members : Steady (44 :: membersText (m :: ms)) := by
  refine Steady.cons (by decide) ?_
  cases ms with
  | nil => exact steady_quote _
  | cons m' ms => exact steady_quote _

end Steady

section Reads
variable {s rest r : Bytes} {ss : List Bytes} {x : Tree}

theorem text_plain (hst : Steady rest) (h : Written .value (34 :: (s ++ 34 :: rest)) x r)
    (hx : x.value = .str s) : Plain s ∧ r = rest := by
  obtain ⟨raw, k, rfl, hstr⟩ := h.of_quote
  obtain rfl := Value.str.inj hx
  cases hstr with
  | mk h ht => exact (bare_iff hst).mp h

theorem elements_plain (hst : Steady rest) {xs : List Tree}
    (h : Written .elements (elementsText ss rest) (.arr xs) r) (hne : ss ≠ [])
    (hx : values xs = ss.map .str) : (∀ s ∈ ss, Plain s) ∧ r = rest := by
  induction ss generalizing xs with
  | nil => exact absurd rfl hne
  | cons s ss ih =>
    cases ss with
    | nil =>
      cases h with
      | lastElement hv hu =>
        rw [elementsText, skip_cons (by decide)] at hv
        simp only [values, List.map_cons, List.map_nil, List.cons.injEq, and_true] at hx
        obtain ⟨hs, rfl⟩ := text_plain (hst.cons (by decide)) hv hx
        rw [skip_cons (by decide)] at hu
        exact ⟨by simpa using hs, ((List.cons.inj hu).2).symm⟩
      | element hv hu h =>
        rw [elementsText, skip_cons (by decide)] at hv
        simp only [values, List.map_cons, List.map_nil, List.cons.injEq] at hx
        obtain ⟨-, rfl⟩ := text_plain (hst.cons (by decide)) hv hx.1
        rw [skip_cons (by decide)] at hu
        exact absurd (List.cons.inj hu).1 (by decide)
    | cons s' ss =>
      have hmore : Steady (44 :: elementsText (s' :: ss) rest) := by
        refine Steady.cons (by decide) ?_
        cases ss <;> exact steady_quote _
      cases h with
      | lastElement hv hu => simp [values] at hx
      | element hv hu h =>
        rw [elementsText, skip_cons (by decide)] at hv
        rw [values, List.map_cons, List.cons.injEq] at hx
        obtain ⟨hs, rfl⟩ := text_plain hmore hv hx.1
        rw [skip_cons (by decide)] at hu
        obtain rfl := (List.cons.inj hu).2
        obtain ⟨hss, hr⟩ := ih h (by simp) hx.2
        exact ⟨List.forall_mem_cons.mpr ⟨hs, hss⟩, hr⟩

theorem slot_plain {slot : Slot} (hst : Steady rest) (h : Written .value (slotText slot rest) x r)
    (hx : x.value = slot.value) : (∀ s ∈ slot.strings, Plain s) ∧ r = rest := by
  cases slot with
  | text s =>
    obtain ⟨hs, hr⟩ := text_plain hst h hx
    exact ⟨by simpa [Slot.strings] using hs, hr⟩
  | list ss =>
    rcases h.of_bracket with ⟨rfl, hu⟩ | ⟨xs, rfl, hxs⟩
    · obtain rfl : ss = [] := by
        simpa [Tree.value, values, Slot.value] using hx
      rw [elementsText, skip_cons (by decide)] at hu
      exact ⟨by simp [Slot.strings], ((List.cons.inj hu).2).symm⟩
    · have hx' : values xs = ss.map .str := Value.arr.inj hx
      refine elements_plain hst hxs ?_ hx'
      rintro rfl
      cases hxs with
      | lastElement hv hu => simp [values] at hx'
      | element hv hu h => simp [values] at hx'

theorem slotText_skip (slot : Slot) (rest : Bytes) : skip (slotText slot rest) = slotText slot rest := by
  cases slot <;> exact skip_cons (by decide)

theorem member_plain {m : Bytes × Slot} {raw k t₁ t₂ u : Bytes} {v : Tree} (hname : Plain m.1)
    (hst : Steady rest) (hk : Str (skip (34 :: (m.1 ++ 34 :: 58 :: slotText m.2 rest))) raw k t₁)
    (hc : skip t₁ = 58 :: t₂) (hv : Written .value (skip t₂) v u) (hx : v.value = m.2.value) :
    (∀ s ∈ m.2.strings, Plain s) ∧ u = rest := by
  rw [skip_cons (by decide)] at hk
  obtain ⟨-, -, rfl⟩ := (Str.of_plain hname _).unique hk
  rw [skip_cons (by decide)] at hc
  obtain rfl := (List.cons.inj hc).2
  rw [slotText_skip] at hv
  exact slot_plain hst hv hx

theorem members_plain {ms : List (Bytes × Slot)} (hnames : ∀ m ∈ ms, Plain m.1) (hne : ms ≠ [])
    {xs : List (Bytes × Bytes × Tree)} (h : Written .members (membersText ms) (.obj xs) r)
    (hx : memberValues xs = ms.map fun m => (m.1, m.2.value)) :
    ∀ m ∈ ms, ∀ s ∈ m.2.strings, Plain s := by
  induction ms generalizing xs with
  | nil => exact absurd rfl hne
  | cons m ms ih =>
    cases ms with
    | nil =>
      cases h with
      | lastMember hk hc hv hu =>
        simp only [memberValues, List.map_cons, List.map_nil, List.cons.injEq, Prod.mk.injEq,
          and_true] at hx
        obtain ⟨hm, -⟩ := member_plain (hnames m (by simp)) steady_end hk hc hv hx.2
        simpa using hm
      | member hk hc hv hu h =>
        simp only [memberValues, List.map_cons, List.map_nil, List.cons.injEq, Prod.mk.injEq] at hx
        obtain ⟨-, rfl⟩ := member_plain (hnames m (by simp)) steady_end hk hc hv hx.1.2
        rw [skip_cons (by decide)] at hu
        exact absurd (List.cons.inj hu).1 (by decide)
    | cons m' ms =>
      cases h with
      | lastMember hk hc hv hu => simp [memberValues] at hx
      | member hk hc hv hu h =>
        rw [memberValues, List.map_cons, List.cons.injEq, Prod.mk.injEq] at hx
        obtain ⟨hm, rfl⟩ := member_plain (hnames m (by simp)) steady_members hk hc hv hx.1.2
        rw [skip_cons (by decide)] at hu
        obtain rfl := (List.cons.inj hu).2
        exact List.forall_mem_cons.mpr
          ⟨hm, ih (fun m hm => hnames m (List.mem_cons_of_mem _ hm)) (by simp) h hx.2⟩

end Reads

section Writes

def Slot.tree : Slot → Tree
  | .text s => .str s s
  | .list ss => .arr (ss.map fun s => .str s s)

theorem Slot.tree_value (slot : Slot) : slot.tree.value = slot.value := by
  cases slot with
  | text s => rfl
  | list ss =>
    have hvalues : values (ss.map fun s => .str s s) = ss.map .str := by
      induction ss with
      | nil => rfl
      | cons s ss ih => rw [List.map_cons, values, ih, List.map_cons, Tree.value]
    simp only [Slot.tree, Tree.value, hvalues, Slot.value]

theorem elements_written {ss : List Bytes} (hss : ∀ s ∈ ss, Plain s) (hne : ss ≠ []) (rest : Bytes) :
    Written .elements (elementsText ss rest) (.arr (ss.map fun s => .str s s)) rest := by
  induction ss with
  | nil => exact absurd rfl hne
  | cons s ss ih =>
    have hs : ∀ t : Bytes, Written .value (skip (34 :: (s ++ 34 :: t))) (.str s s) t := by
      intro t
      rw [skip_cons (by decide)]
      exact .str (Str.of_plain (hss s (by simp)) t)
    cases ss with
    | nil => exact .lastElement (hs _) (skip_cons (by decide))
    | cons s' ss =>
      exact .element (hs _) (skip_cons (by decide)) (ih (fun s hs => hss s (List.mem_cons_of_mem _ hs)) (by simp))

theorem slot_written {slot : Slot} (h : ∀ s ∈ slot.strings, Plain s) (rest : Bytes) :
    Written .value (slotText slot rest) slot.tree rest := by
  cases slot with
  | text s => exact .str (Str.of_plain (h s (by simp [Slot.strings])) rest)
  | list ss =>
    by_cases hss : ss = []
    · subst hss
      exact .emptyArr (skip_cons (by decide))
    · exact .arr (elements_written h hss rest)

theorem members_written {ms : List (Bytes × Slot)} (hnames : ∀ m ∈ ms, Plain m.1) (hne : ms ≠ [])
    (h : ∀ m ∈ ms, ∀ s ∈ m.2.strings, Plain s) :
    Written .members (membersText ms) (.obj (ms.map fun m => (m.1, m.1, m.2.tree))) [] := by
  induction ms with
  | nil => exact absurd rfl hne
  | cons m ms ih =>
    have hk : ∀ t : Bytes, Str (skip (34 :: (m.1 ++ 34 :: t))) m.1 m.1 t := by
      intro t
      rw [skip_cons (by decide)]
      exact Str.of_plain (hnames m (by simp)) t
    have hv : ∀ rest, Written .value (skip (slotText m.2 rest)) m.2.tree rest := by
      intro rest
      rw [slotText_skip]
      exact slot_written (h m (by simp)) rest
    cases ms with
    | nil => exact .lastMember (hk _) (skip_cons (by decide)) (hv _) (skip_cons (by decide))
    | cons m' ms =>
      exact .member (hk _) (skip_cons (by decide)) (hv _) (skip_cons (by decide))
        (ih (fun m hm => hnames m (List.mem_cons_of_mem _ hm)) (by simp)
          fun m hm => h m (List.mem_cons_of_mem _ hm))

theorem first_member {m : Bytes × Slot} {ms : List (Bytes × Slot)} {v : Value} (hname : Plain m.1)
    (hm : ∀ s ∈ m.2.strings, Plain s) (h : Decodes (objectText (m :: ms)) v) :
    ∃ vs, v = .obj ((m.1, m.2.value) :: vs) := by
  obtain ⟨x, ⟨-, r, hw, -⟩, rfl⟩ := h
  obtain ⟨rest, hrest⟩ : ∃ rest, membersText (m :: ms) = 34 :: (m.1 ++ 34 :: 58 :: slotText m.2 rest) := by
    cases ms with
    | nil => exact ⟨_, rfl⟩
    | cons m' ms => exact ⟨_, rfl⟩
  have hread : ∀ {raw k t₁ t₂ u : Bytes} {w : Tree},
      Str (skip (34 :: (m.1 ++ 34 :: 58 :: slotText m.2 rest))) raw k t₁ → skip t₁ = 58 :: t₂ →
      Written .value (skip t₂) w u → k = m.1 ∧ w = m.2.tree := by
    intro raw k t₁ t₂ u w hk hc hv
    rw [skip_cons (by decide)] at hk
    obtain ⟨-, rfl, rfl⟩ := (Str.of_plain hname _).unique hk
    rw [skip_cons (by decide)] at hc
    obtain rfl := (List.cons.inj hc).2
    rw [slotText_skip] at hv
    exact ⟨rfl, ((slot_written hm rest).unique hv).1⟩
  rw [objectText, skip_cons (by decide)] at hw
  rcases hw.of_brace with ⟨-, hu⟩ | ⟨xs, rfl, hxs⟩
  · rw [hrest, skip_cons (by decide)] at hu
    exact absurd (List.cons.inj hu).1 (by decide)
  · rw [hrest] at hxs
    cases hxs with
    | lastMember hk hc hv hu =>
      obtain ⟨rfl, rfl⟩ := hread hk hc hv
      exact ⟨[], by simp only [Tree.value, memberValues, Slot.tree_value]⟩
    | member hk hc hv hu h =>
      obtain ⟨rfl, rfl⟩ := hread hk hc hv
      exact ⟨_, by simp only [Tree.value, memberValues, Slot.tree_value]; rfl⟩

end Writes

/-- An object reads as what was put into it exactly if all of that is plain. -/
theorem decodes_iff {ms : List (Bytes × Slot)} (hvalid : ValidUtf8 (objectText ms))
    (hnames : ∀ m ∈ ms, Plain m.1) (hne : ms ≠ []) :
    Decodes (objectText ms) (objectValue ms) ↔ ∀ m ∈ ms, ∀ s ∈ m.2.strings, Plain s := by
  constructor
  · rintro ⟨x, ⟨-, r, hw, -⟩, hx⟩
    rw [objectText, skip_cons (by decide)] at hw
    rcases hw.of_brace with ⟨rfl, -⟩ | ⟨xs, rfl, hxs⟩
    · have hnil : ms = [] := by simpa [Tree.value, memberValues, objectValue] using hx.symm
      exact absurd hnil hne
    · exact members_plain hnames hne hxs (Value.obj.inj hx)
  · intro h
    have hvalues : memberValues (ms.map fun m => (m.1, m.1, m.2.tree)) =
        ms.map fun m => (m.1, m.2.value) := by
      clear hvalid hnames hne h
      induction ms with
      | nil => rfl
      | cons m ms ih => rw [List.map_cons, memberValues, ih, List.map_cons, Slot.tree_value]
    refine ⟨.obj (ms.map fun m => (m.1, m.1, m.2.tree)), ⟨hvalid, [], ?_, rfl⟩, ?_⟩
    swap
    · rw [Tree.value, hvalues]
      rfl
    rw [objectText, skip_cons (by decide)]
    exact .obj (members_written hnames hne h)

end LuaProxy.JsonTemplate
