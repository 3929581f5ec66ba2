import Mathlib.Data.List.TakeWhile
import LuaProxy.Json

/-! A JSON text is read in one way only: what it starts with decides which rule applies, and
every rule says where its part of the text ends. -/
namespace LuaProxy.Json
open Text

section Numbers

/-- A reader takes some bytes of numbers off the front of the text. -/
def Takes (t r : Bytes) : Prop := ∃ x, t = x ++ r ∧ ∀ b ∈ x, isNumberByte b = true

theorem Takes.refl (t : Bytes) : Takes t t := ⟨[], rfl, by simp⟩

theorem Takes.trans {t u r : Bytes} (h : Takes t u) (h' : Takes u r) : Takes t r := by
  obtain ⟨x, rfl, hx⟩ := h
  obtain ⟨y, rfl, hy⟩ := h'
  refine ⟨x ++ y, by simp, ?_⟩
  intro b hb
  rcases List.mem_append.mp hb with hb | hb
  · exact hx b hb
  · exact hy b hb

theorem Takes.cons {b : UInt8} {t r : Bytes} (hb : isNumberByte b = true) (h : Takes t r) :
    Takes (b :: t) r := by
  have hone : Takes (b :: t) t := ⟨[b], rfl, by simpa using hb⟩
  exact hone.trans h

theorem isNumberByte_digit {b : UInt8} (h : isDigit b = true) : isNumberByte b = true := by
  simp [isNumberByte, h]

theorem readDigits_takes {t ds r : Bytes} (h : readDigits t = some (ds, r)) :
    t = ds ++ r ∧ ds ≠ [] ∧ ∀ b ∈ ds, isDigit b = true := by
  unfold readDigits at h
  split_ifs at h with hne
  obtain ⟨rfl, rfl⟩ := Prod.mk.inj (Option.some.inj h)
  exact ⟨List.takeWhile_append_dropWhile.symm, hne, fun b hb => List.mem_takeWhile_imp hb⟩

theorem digits_takes {t ds r : Bytes} (h : readDigits t = some (ds, r)) : Takes t r := by
  obtain ⟨ht, -, hds⟩ := readDigits_takes h
  exact ⟨ds, ht, fun b hb => isNumberByte_digit (hds b hb)⟩

theorem readSign_takes (t : Bytes) : Takes t (readSign t).2 := by
  unfold readSign
  split
  · exact (Takes.refl _).cons rfl
  · exact Takes.refl _

theorem readSign_of_ne {t : Bytes} (h : t.head? ≠ some 45) : readSign t = (1, t) := by
  unfold readSign
  split
  · exact absurd rfl h
  · rfl

theorem readInt_digits {t r : Bytes} {n : ℕ} (h : readInt t = some (n, r)) :
    ∃ ds, readDigits t = some (ds, r) := by
  unfold readInt at h
  cases hd : readDigits t with
  | none => simp [hd] at h
  | some p =>
    obtain ⟨ds, u⟩ := p
    simp only [hd, Option.bind_eq_bind, Option.bind_some] at h
    split_ifs at h
    obtain ⟨-, rfl⟩ := Prod.mk.inj (Option.some.inj h)
    exact ⟨ds, rfl⟩

theorem readFrac_takes {t r : Bytes} {f : ℚ} (h : readFrac t = some (f, r)) : Takes t r := by
  unfold readFrac at h
  split at h
  · rename_i t
    cases hd : readDigits t with
    | none => simp [hd] at h
    | some p =>
      simp only [hd, Option.bind_eq_bind, Option.bind_some, Option.some.injEq, Prod.mk.injEq] at h
      obtain ⟨-, rfl⟩ := h
      exact (digits_takes hd).cons rfl
  · obtain ⟨-, rfl⟩ := Prod.mk.inj (Option.some.inj h)
    exact Takes.refl _

theorem readPower_takes {t r : Bytes} {e : ℤ} (h : readPower t = some (e, r)) : Takes t r := by
  have hdigits : ∀ {t : Bytes} {f : ℕ → ℤ},
      (readDigits t).bind (fun p => some (f (natOf p.1), p.2)) = some (e, r) → Takes t r := by
    intro t f h
    cases hd : readDigits t with
    | none => simp [hd] at h
    | some p =>
      simp only [hd, Option.bind_some, Option.some.injEq, Prod.mk.injEq] at h
      obtain ⟨-, rfl⟩ := h
      exact digits_takes hd
  unfold readPower at h
  split at h
  · exact (hdigits (f := fun n => -n) h).cons rfl
  · exact (hdigits (f := fun n => n) h).cons rfl
  · exact hdigits (f := fun n => n) h

theorem readExp_takes {t r : Bytes} {e : ℤ} (h : readExp t = some (e, r)) : Takes t r := by
  unfold readExp at h
  split at h
  · exact (readPower_takes h).cons rfl
  · exact (readPower_takes h).cons rfl
  · obtain ⟨-, rfl⟩ := Prod.mk.inj (Option.some.inj h)
    exact Takes.refl _

theorem readNumber_bytes {x : Bytes} {q : ℚ} (h : readNumber x = some (q, [])) :
    (∃ b u, x = b :: u ∧ (isDigit b = true ∨ b = 45)) ∧ ∀ b ∈ x, isNumberByte b = true := by
  unfold readNumber at h
  cases hi : readInt (readSign x).2 with
  | none => simp [hi] at h
  | some p =>
    obtain ⟨n, t₁⟩ := p
    cases hf : readFrac t₁ with
    | none => simp [hi, hf] at h
    | some p =>
      obtain ⟨f, t₂⟩ := p
      cases he : readExp t₂ with
      | none => simp [hi, hf, he] at h
      | some p =>
        obtain ⟨e, t₃⟩ := p
        simp only [hi, hf, he, Option.bind_eq_bind, Option.bind_some, Option.some.injEq,
          Prod.mk.injEq] at h
        obtain ⟨-, rfl⟩ := h
        obtain ⟨ds, hd⟩ := readInt_digits hi
        obtain ⟨y, hy, hall⟩ := ((readSign_takes x).trans (digits_takes hd)).trans
          ((readFrac_takes hf).trans (readExp_takes he))
        rw [List.append_nil] at hy
        subst hy
        constructor
        · obtain ⟨ht, hne, hds⟩ := readDigits_takes hd
          unfold readSign at ht
          split at ht
          · exact ⟨45, _, rfl, Or.inr rfl⟩
          · cases ds with
            | nil => exact absurd rfl hne
            | cons b ds => exact ⟨b, ds ++ t₁, ht, Or.inl (hds b (by simp))⟩
        · exact hall

theorem readNumber_digits {ds : Bytes} {n : ℕ} (hint : readInt ds = some (n, []))
    (hsign : ds.head? ≠ some 45) : readNumber ds = some ((n : ℚ), []) := by
  simp [readNumber, readSign_of_ne hsign, hint, readFrac, readExp]

theorem number_end {x x' r r' : Bytes} (hx : ∀ b ∈ x, isNumberByte b = true)
    (hx' : ∀ b ∈ x', isNumberByte b = true) (hr : ∀ b ∈ r.head?, isNumberByte b = false)
    (hr' : ∀ b ∈ r'.head?, isNumberByte b = false) (h : x ++ r = x' ++ r') : x = x' ∧ r = r' := by
  have htake := congrArg (List.takeWhile isNumberByte) h
  rw [List.takeWhile_append_of_pos hx, List.takeWhile_append_of_pos hx', takeWhile_stop hr,
    takeWhile_stop hr', List.append_nil, List.append_nil] at htake
  subst htake
  exact ⟨rfl, List.append_cancel_left h⟩

end Numbers

section Strings

theorem shortEscapes_unique {e b b' : UInt8} (h : (e, b) ∈ shortEscapes)
    (h' : (e, b') ∈ shortEscapes) : b = b' ∧ e ≠ 117 := by
  have hall : (shortEscapes.all fun p => shortEscapes.all fun p' =>
      decide (p.1 = p'.1 → p.2 = p'.2 ∧ p.1 ≠ 117)) = true := by decide
  have hrow := List.all_eq_true.mp (List.all_eq_true.mp hall _ h) _ h'
  exact of_decide_eq_true hrow rfl

theorem Escape.unique {p p' v v' u u' : Bytes} (h : Escape p v) (h' : Escape p' v')
    (heq : p ++ u = p' ++ u') : p = p' ∧ v = v' ∧ u = u' := by
  cases h with
  | short hm =>
    have hne := (shortEscapes_unique hm hm).2
    cases h' with
    | short hm' =>
      obtain ⟨rfl, rfl⟩ := List.cons.inj heq
      exact ⟨rfl, by rw [(shortEscapes_unique hm hm').1], rfl⟩
    | unit hn' hc' => exact absurd (List.cons.inj heq).1 hne
    | pair hhi hlo hi_range lo_range => exact absurd (List.cons.inj heq).1 hne
  | unit hn hc =>
    cases h' with
    | short hm' => exact absurd (List.cons.inj heq).1.symm (shortEscapes_unique hm' hm').2
    | unit hn' hc' =>
      simp only [List.cons_append, List.nil_append, List.cons.injEq, true_and] at heq
      obtain ⟨rfl, rfl, rfl, rfl, rfl⟩ := heq
      rw [hn] at hn'
      obtain rfl := Option.some.inj hn'
      exact ⟨rfl, rfl, rfl⟩
    | pair hhi hlo hi_range lo_range =>
      simp only [List.cons_append, List.nil_append, List.cons.injEq, true_and] at heq
      obtain ⟨rfl, rfl, rfl, rfl, -⟩ := heq
      rw [hn] at hhi
      obtain rfl := Option.some.inj hhi
      omega
  | pair hhi hlo hi_range lo_range =>
    cases h' with
    | short hm' => exact absurd (List.cons.inj heq).1.symm (shortEscapes_unique hm' hm').2
    | unit hn' hc' =>
      simp only [List.cons_append, List.nil_append, List.cons.injEq, true_and] at heq
      obtain ⟨rfl, rfl, rfl, rfl, -⟩ := heq
      rw [hhi] at hn'
      obtain rfl := Option.some.inj hn'
      omega
    | pair hhi' hlo' hi_range' lo_range' =>
      simp only [List.cons_append, List.nil_append, List.cons.injEq, true_and] at heq
      obtain ⟨rfl, rfl, rfl, rfl, rfl, rfl, rfl, rfl, rfl⟩ := heq
      rw [hhi] at hhi'
      rw [hlo] at hlo'
      obtain rfl := Option.some.inj hhi'
      obtain rfl := Option.some.inj hlo'
      exact ⟨rfl, rfl, rfl⟩

theorem Chars.unique {t s r : Bytes} (h : Chars t s r) {s' r' : Bytes} (h' : Chars t s' r') :
    s' = s ∧ r' = r := by
  induction h generalizing s' r' with
  | close =>
    cases h' with
    | close => exact ⟨rfl, rfl⟩
    | plain hb h => exact absurd rfl hb.2.1
    | escape ht hp h => simp at ht
  | plain hb h ih =>
    cases h' with
    | close => exact absurd rfl hb.2.1
    | plain hb' h' =>
      obtain ⟨rfl, rfl⟩ := ih h'
      exact ⟨rfl, rfl⟩
    | escape ht hp h' => exact absurd (List.cons.inj ht).1 hb.2.2
  | escape ht hp h ih =>
    cases h' with
    | close => simp at ht
    | plain hb h' => exact absurd (List.cons.inj ht).1 hb.2.2
    | escape ht' hp' h' =>
      subst ht
      obtain ⟨rfl, rfl, rfl⟩ := hp.unique hp' (List.cons.inj ht').2
      obtain ⟨rfl, rfl⟩ := ih h'
      exact ⟨rfl, rfl⟩

theorem Str.unique {t raw s r raw' s' r' : Bytes} (h : Str t raw s r) (h' : Str t raw' s' r') :
    raw' = raw ∧ s' = s ∧ r' = r := by
  cases h with
  | mk h ht =>
    cases h' with
    | mk h' ht' =>
      obtain ⟨rfl, rfl⟩ := h.unique h'
      rw [ht] at ht'
      exact ⟨(List.append_cancel_right ht').symm, rfl, rfl⟩

end Strings

section Values

def Starts : Tree → UInt8 → Prop
  | .null, b => b = 110
  | .bool true, b => b = 116
  | .bool false, b => b = 102
  | .num _ _, b => isDigit b = true ∨ b = 45
  | .str _ _, b => b = 34
  | .arr _, b => b = 91
  | .obj _, b => b = 123

theorem Written.starts {t r : Bytes} {x : Tree} (h : Written .value t x r) :
    ∃ b u, t = b :: u ∧ Starts x b := by
  cases h with
  | null ht => exact ⟨_, _, ht, rfl⟩
  | @bool t r b ht =>
    cases b with
    | true => exact ⟨_, _, ht, rfl⟩
    | false => exact ⟨_, _, ht, rfl⟩
  | num ht hx hr =>
    obtain ⟨⟨b, u, rfl, hb⟩, -⟩ := readNumber_bytes hx
    exact ⟨b, _, ht, hb⟩
  | str h =>
    cases h with
    | mk h ht => exact ⟨_, _, rfl, rfl⟩
  | emptyArr h => exact ⟨_, _, rfl, rfl⟩
  | arr h => exact ⟨_, _, rfl, rfl⟩
  | emptyObj h => exact ⟨_, _, rfl, rfl⟩
  | obj h => exact ⟨_, _, rfl, rfl⟩

theorem starts_byte {x : Tree} {b : UInt8} (h : Starts x b) :
    isSpace b = false ∧ b ≠ 93 ∧ b ≠ 125 := by
  have hdigit : ∀ b : UInt8, isDigit b = true ∨ b = 45 → isSpace b = false ∧ b ≠ 93 ∧ b ≠ 125 :=
    forall_byte (by decide +kernel)
  cases x with
  | bool v =>
    cases v with
    | true => exact h ▸ by decide
    | false => exact h ▸ by decide
  | num text q => exact hdigit b h
  | null => exact h ▸ by decide
  | str raw s => exact h ▸ by decide
  | arr vs => exact h ▸ by decide
  | obj ms => exact h ▸ by decide

theorem skip_cons {b : UInt8} {t : Bytes} (h : isSpace b = false) : skip (b :: t) = b :: t := by
  simp [skip, h]

theorem Written.skip_eq {t r : Bytes} {x : Tree} (h : Written .value t x r) : skip t = t := by
  obtain ⟨b, u, rfl, hb⟩ := h.starts
  exact skip_cons (starts_byte hb).1

theorem Written.of_quote {t r : Bytes} {x : Tree} (h : Written .value (34 :: t) x r) :
    ∃ raw s, x = .str raw s ∧ Str (34 :: t) raw s r := by
  obtain ⟨b, u, hb, hs⟩ := h.starts
  obtain rfl : 34 = b := (List.cons.inj hb).1
  cases x with
  | str raw s =>
    cases h with
    | str h => exact ⟨raw, s, rfl, h⟩
  | bool v => cases v <;> simp [Starts] at hs
  | _ => simp [Starts, isDigit] at hs

theorem Written.of_bracket {t r : Bytes} {x : Tree} (h : Written .value (91 :: t) x r) :
    (x = .arr [] ∧ skip t = 93 :: r) ∨ ∃ vs, x = .arr vs ∧ Written .elements t (.arr vs) r := by
  obtain ⟨b, u, hb, hs⟩ := h.starts
  obtain rfl : 91 = b := (List.cons.inj hb).1
  cases x with
  | arr vs =>
    cases h with
    | emptyArr h => exact Or.inl ⟨rfl, h⟩
    | arr h => exact Or.inr ⟨vs, rfl, h⟩
  | bool v => cases v <;> simp [Starts] at hs
  | _ => simp [Starts, isDigit] at hs

theorem Written.of_brace {t r : Bytes} {x : Tree} (h : Written .value (123 :: t) x r) :
    (x = .obj [] ∧ skip t = 125 :: r) ∨ ∃ ms, x = .obj ms ∧ Written .members t (.obj ms) r := by
  obtain ⟨b, u, hb, hs⟩ := h.starts
  obtain rfl : 123 = b := (List.cons.inj hb).1
  cases x with
  | obj ms =>
    cases h with
    | emptyObj h => exact Or.inl ⟨rfl, h⟩
    | obj h => exact Or.inr ⟨ms, rfl, h⟩
  | bool v => cases v <;> simp [Starts] at hs
  | _ => simp [Starts, isDigit] at hs

theorem Written.of_number {b : UInt8} {t r : Bytes} {x : Tree} (h : Written .value (b :: t) x r)
    (hb : isDigit b = true ∨ b = 45) :
    ∃ y q, x = .num y q ∧ b :: t = y ++ r ∧ readNumber y = some (q, []) ∧
      ∀ c ∈ r.head?, isNumberByte c = false := by
  obtain ⟨c, u, hc, hs⟩ := h.starts
  obtain rfl : b = c := (List.cons.inj hc).1
  have hno : ∀ c : UInt8, isDigit c = true ∨ c = 45 → c ≠ 110 ∧ c ≠ 116 ∧ c ≠ 102 ∧ c ≠ 34 ∧
      c ≠ 91 ∧ c ≠ 123 := forall_byte (by decide +kernel)
  obtain ⟨h₁, h₂, h₃, h₄, h₅, h₆⟩ := hno b hb
  cases x with
  | num y q =>
    cases h with
    | num ht hx hr => exact ⟨y, q, rfl, ht, hx, hr⟩
  | null => exact absurd hs h₁
  | bool v =>
    cases v with
    | true => exact absurd hs h₂
    | false => exact absurd hs h₃
  | str raw s => exact absurd hs h₄
  | arr vs => exact absurd hs h₅
  | obj ms => exact absurd hs h₆

theorem Written.of_null {t r : Bytes} {x : Tree} (h : Written .value (utf8 "null" ++ t) x r) :
    x = .null ∧ r = t := by
  obtain ⟨b, u, hb, hs⟩ := h.starts
  obtain rfl : 110 = b := (List.cons.inj hb).1
  cases x with
  | null =>
    cases h with
    | null ht => exact ⟨rfl, (List.append_cancel_left ht).symm⟩
  | bool v => cases v <;> simp [Starts] at hs
  | _ => simp [Starts, isDigit] at hs

theorem Written.of_bool {t r : Bytes} {x : Tree} {v : Bool}
    (h : Written .value (utf8 (toString v) ++ t) x r) : x = .bool v ∧ r = t := by
  obtain ⟨b, u, hb, hs⟩ := h.starts
  generalize htext : utf8 (toString v) ++ t = text at h hb
  have hfirst : ∀ v : Bool, (utf8 (toString v)).head? = some (if v then 116 else 102) := by decide
  have hb' : b = if v then 116 else 102 := by
    have hh := congrArg List.head? (htext.trans hb)
    rw [List.head?_append, hfirst v] at hh
    exact (Option.some.inj hh).symm
  subst hb'
  cases x with
  | bool w =>
    cases h with
    | bool ht =>
      have hvw : w = v := by cases v <;> cases w <;> simp [Starts] at hs ⊢
      subst hvw
      rw [← htext] at ht
      exact ⟨rfl, (List.append_cancel_left ht).symm⟩
  | _ => cases v <;> simp [Starts, isDigit] at hs

theorem Written.elements_ne {t r r' : Bytes} {x : Tree} (h : Written .elements t x r) :
    skip t ≠ 93 :: r' := by
  have hvalue : ∀ {t u : Bytes} {v : Tree}, Written .value t v u → t ≠ 93 :: r' := by
    intro t u v hv ht
    obtain ⟨b, w, rfl, hb⟩ := hv.starts
    exact (starts_byte hb).2.1 (List.cons.inj ht).1
  cases h with
  | lastElement hv hu => exact hvalue hv
  | element hv hu h => exact hvalue hv

theorem Written.members_ne {t r r' : Bytes} {x : Tree} (h : Written .members t x r) :
    skip t ≠ 125 :: r' := by
  have hname : ∀ {t raw k u : Bytes}, Str t raw k u → t ≠ 125 :: r' := by
    intro t raw k u hk ht
    cases hk with
    | mk h hraw => exact absurd (List.cons.inj ht).1 (by decide)
  cases h with
  | lastMember hk hc hv hu => exact hname hk
  | member hk hc hv hu h => exact hname hk

end Values

section Texts

def Sole (p : Part) (t : Bytes) (x : Tree) (r : Bytes) : Prop :=
  ∀ x' r', Written p t x' r' → x' = x ∧ r' = r

variable {t u t' r : Bytes} {v : Tree} {vs : List Tree} {ms : List (Bytes × Bytes × Tree)}

theorem sole_num {x : Bytes} {q : ℚ} (ht : t = x ++ r) (hx : readNumber x = some (q, []))
    (hr : ∀ b ∈ r.head?, isNumberByte b = false) : Sole .value t (.num x q) r := by
  intro x' r' h'
  obtain ⟨⟨b, u, rfl, hb⟩, hall⟩ := readNumber_bytes hx
  subst ht
  obtain ⟨y, q', rfl, ht', hy, hr'⟩ := h'.of_number hb
  obtain ⟨rfl, rfl⟩ := number_end hall (readNumber_bytes hy).2 hr hr' ht'
  rw [hx] at hy
  obtain ⟨rfl, -⟩ := Prod.mk.inj (Option.some.inj hy)
  exact ⟨rfl, rfl⟩

theorem sole_str {raw s : Bytes} (h : Str t raw s r) : Sole .value t (.str raw s) r := by
  intro x' r' h'
  cases h with
  | mk h ht =>
    obtain ⟨raw', s', rfl, hs⟩ := h'.of_quote
    obtain ⟨rfl, rfl, rfl⟩ := (Str.mk h ht).unique hs
    exact ⟨rfl, rfl⟩

theorem sole_emptyArr (h : skip t = 93 :: r) : Sole .value (91 :: t) (.arr []) r := by
  intro x' r' h'
  rcases h'.of_bracket with ⟨rfl, hs⟩ | ⟨vs, rfl, hs⟩
  · rw [h] at hs
    exact ⟨rfl, (List.cons.inj hs).2.symm⟩
  · exact absurd h hs.elements_ne

theorem sole_arr (h : Written .elements t (.arr vs) r) (ih : Sole .elements t (.arr vs) r) :
    Sole .value (91 :: t) (.arr vs) r := by
  intro x' r' h'
  rcases h'.of_bracket with ⟨rfl, hs⟩ | ⟨vs', rfl, hs⟩
  · exact absurd hs h.elements_ne
  · exact ih _ _ hs

theorem sole_emptyObj (h : skip t = 125 :: r) : Sole .value (123 :: t) (.obj []) r := by
  intro x' r' h'
  rcases h'.of_brace with ⟨rfl, hs⟩ | ⟨ms, rfl, hs⟩
  · rw [h] at hs
    exact ⟨rfl, (List.cons.inj hs).2.symm⟩
  · exact absurd h hs.members_ne

theorem sole_obj (h : Written .members t (.obj ms) r) (ih : Sole .members t (.obj ms) r) :
    Sole .value (123 :: t) (.obj ms) r := by
  intro x' r' h'
  rcases h'.of_brace with ⟨rfl, hs⟩ | ⟨ms', rfl, hs⟩
  · exact absurd hs h.members_ne
  · exact ih _ _ hs

theorem sole_lastElement (hv : Sole .value (skip t) v u) (hu : skip u = 93 :: r) :
    Sole .elements t (.arr [v]) r := by
  intro x' r' h'
  cases h' with
  | lastElement hv' hu' =>
    obtain ⟨rfl, rfl⟩ := hv _ _ hv'
    rw [hu] at hu'
    exact ⟨rfl, (List.cons.inj hu').2.symm⟩
  | element hv' hu' h' =>
    obtain ⟨rfl, rfl⟩ := hv _ _ hv'
    rw [hu] at hu'
    exact absurd (List.cons.inj hu').1 (by decide)

theorem sole_element (hv : Sole .value (skip t) v u) (hu : skip u = 44 :: t')
    (ih : Sole .elements t' (.arr vs) r) : Sole .elements t (.arr (v :: vs)) r := by
  intro x' r' h'
  cases h' with
  | lastElement hv' hu' =>
    obtain ⟨rfl, rfl⟩ := hv _ _ hv'
    rw [hu] at hu'
    exact absurd (List.cons.inj hu').1 (by decide)
  | element hv' hu' h' =>
    obtain ⟨rfl, rfl⟩ := hv _ _ hv'
    rw [hu] at hu'
    obtain ⟨-, rfl⟩ := List.cons.inj hu'
    obtain ⟨hx, rfl⟩ := ih _ _ h'
    rw [Tree.arr.inj hx]
    exact ⟨rfl, rfl⟩

section Members
variable {t₁ t₂ raw k : Bytes} (hk : Str (skip t) raw k t₁) (hc : skip t₁ = 58 :: t₂)
  (hv : Sole .value (skip t₂) v u)
include hk hc hv

theorem front_unique {t₁' t₂' u' raw' k' : Bytes} {v' : Tree} (hk' : Str (skip t) raw' k' t₁')
    (hc' : skip t₁' = 58 :: t₂') (hv' : Written .value (skip t₂') v' u') :
    raw' = raw ∧ k' = k ∧ v' = v ∧ u' = u := by
  obtain ⟨rfl, rfl, rfl⟩ := hk.unique hk'
  rw [hc] at hc'
  obtain ⟨-, rfl⟩ := List.cons.inj hc'
  obtain ⟨rfl, rfl⟩ := hv _ _ hv'
  exact ⟨rfl, rfl, rfl, rfl⟩

theorem sole_lastMember (hu : skip u = 125 :: r) : Sole .members t (.obj [(raw, k, v)]) r := by
  intro x' r' h'
  cases h' with
  | lastMember hk' hc' hv' hu' =>
    obtain ⟨rfl, rfl, rfl, rfl⟩ := front_unique hk hc hv hk' hc' hv'
    rw [hu] at hu'
    exact ⟨rfl, (List.cons.inj hu').2.symm⟩
  | member hk' hc' hv' hu' h' =>
    obtain ⟨rfl, rfl, rfl, rfl⟩ := front_unique hk hc hv hk' hc' hv'
    rw [hu] at hu'
    exact absurd (List.cons.inj hu').1 (by decide)

theorem sole_member (hu : skip u = 44 :: t') (ih : Sole .members t' (.obj ms) r) :
    Sole .members t (.obj ((raw, k, v) :: ms)) r := by
  intro x' r' h'
  cases h' with
  | lastMember hk' hc' hv' hu' =>
    obtain ⟨rfl, rfl, rfl, rfl⟩ := front_unique hk hc hv hk' hc' hv'
    rw [hu] at hu'
    exact absurd (List.cons.inj hu').1 (by decide)
  | member hk' hc' hv' hu' h' =>
    obtain ⟨rfl, rfl, rfl, rfl⟩ := front_unique hk hc hv hk' hc' hv'
    rw [hu] at hu'
    obtain ⟨-, rfl⟩ := List.cons.inj hu'
    obtain ⟨hx, rfl⟩ := ih _ _ h'
    rw [Tree.obj.inj hx]
    exact ⟨rfl, rfl⟩

end Members

theorem Written.sole {p : Part} {x : Tree} (h : Written p t x r) : Sole p t x r := by
  induction h with
  | null ht =>
    intro x' r' h'
    subst ht
    exact h'.of_null
  | bool ht =>
    intro x' r' h'
    subst ht
    exact h'.of_bool
  | num ht hx hr => exact sole_num ht hx hr
  | str h => exact sole_str h
  | emptyArr h => exact sole_emptyArr h
  | arr h ih => exact sole_arr h ih
  | emptyObj h => exact sole_emptyObj h
  | obj h ih => exact sole_obj h ih
  | lastElement _ hu ihv => exact sole_lastElement ihv hu
  | element _ hu _ ihv ih => exact sole_element ihv hu ih
  | lastMember hk hc _ hu ihv => exact sole_lastMember hk hc ihv hu
  | member hk hc _ hu _ ihv ih => exact sole_member hk hc ihv hu ih

theorem Written.unique {p : Part} {x x' : Tree} {r' : Bytes} (h : Written p t x r)
    (h' : Written p t x' r') : x' = x ∧ r' = r := h.sole x' r' h'

theorem Document.unique {x x' : Tree} (h : Document t x) (h' : Document t x') :
    x' = x := by
  obtain ⟨-, r, hw, -⟩ := h
  obtain ⟨-, r', hw', -⟩ := h'
  exact (hw.unique hw').1

theorem Decodes.unique {v v' : Value} (h : Decodes t v) (h' : Decodes t v') :
    v' = v := by
  obtain ⟨x, hx, rfl⟩ := h
  obtain ⟨x', hx', rfl⟩ := h'
  rw [hx.unique hx']

end Texts

end LuaProxy.Json
