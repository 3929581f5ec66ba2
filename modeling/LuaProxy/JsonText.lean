import LuaProxy.JsonReading

/-! Strings put between quotes as they are, or with their quotes escaped only. What comes of
them is the string itself exactly if there is nothing in it that JSON would have escaped. -/
namespace LuaProxy.Json
open Text

section Plain

theorem Chars.append_plain {raw t s r : Bytes} (hraw : ∀ b ∈ raw, Unescaped b)
    (h : Chars t s r) : Chars (raw ++ t) (raw ++ s) r := by
  induction raw with
  | nil => exact h
  | cons b raw ih => exact .plain (hraw b (by simp)) (ih fun c hc => hraw c (by simp [hc]))

theorem Chars.of_plain {raw : Bytes} (hraw : ∀ b ∈ raw, Unescaped b) (r : Bytes) :
    Chars (raw ++ 34 :: r) raw r := by
  have h := Chars.append_plain hraw (.close (r := r))
  rwa [List.append_nil] at h

theorem Str.of_plain {raw : Bytes} (hraw : ∀ b ∈ raw, Unescaped b) (r : Bytes) :
    Str (34 :: (raw ++ 34 :: r)) raw raw r := .mk (Chars.of_plain hraw r) rfl

end Plain

section Shift

theorem utf8EncodeChar_length (c : Char) : (String.utf8EncodeChar c).length ≤ 4 := by
  rw [String.length_utf8EncodeChar]
  exact Char.utf8Size_le_four c

theorem Escape.length_le {p v : Bytes} (h : Escape p v) : v.length ≤ p.length := by
  cases h with
  | short h => simp
  | unit hn hc => exact (utf8EncodeChar_length _).trans (by simp)
  | pair hhi hlo hi_range lo_range => exact (utf8EncodeChar_length _).trans (by simp)

theorem hexDigit_ne {b : UInt8} {n : ℕ} (h : hexDigit b = some n) : b ≠ 34 ∧ b ≠ 92 := by
  have hall : ∀ b : UInt8, (hexDigit b).isSome = true → b ≠ 34 ∧ b ≠ 92 :=
    forall_byte (by decide +kernel)
  exact hall b (by simp [h])

theorem hex4_ne {a b c d : UInt8} {n : ℕ} (h : hex4 a b c d = some n) :
    (a ≠ 34 ∧ a ≠ 92) ∧ (b ≠ 34 ∧ b ≠ 92) ∧ (c ≠ 34 ∧ c ≠ 92) ∧ d ≠ 34 ∧ d ≠ 92 := by
  unfold hex4 at h
  cases ha : hexDigit a with
  | none => simp [ha] at h
  | some na =>
    cases hb : hexDigit b with
    | none => simp [ha, hb] at h
    | some nb =>
      cases hc : hexDigit c with
      | none => simp [ha, hb, hc] at h
      | some nc =>
        cases hd : hexDigit d with
        | none => simp [ha, hb, hc, hd] at h
        | some nd => exact ⟨hexDigit_ne ha, hexDigit_ne hb, hexDigit_ne hc, hexDigit_ne hd⟩

/-- The escape of a quote is the only one with a quote in it. -/
theorem Escape.quote {p v : Bytes} (h : Escape p v) (hq : 34 ∈ p) : p = [34] ∧ v = [34] := by
  cases h with
  | @short e b h =>
    obtain rfl := List.mem_singleton.mp hq
    obtain rfl := (shortEscapes_unique h (by decide : ((34 : UInt8), (34 : UInt8)) ∈ shortEscapes)).1
    exact ⟨rfl, rfl⟩
  | unit hn hc =>
    obtain ⟨ha, hb, hc, hd⟩ := hex4_ne hn
    simp [ha.1.symm, hb.1.symm, hc.1.symm, hd.1.symm] at hq
  | pair hhi hlo hi_range lo_range =>
    obtain ⟨ha, hb, hc, hd⟩ := hex4_ne hhi
    obtain ⟨ha', hb', hc', hd'⟩ := hex4_ne hlo
    simp [ha.1.symm, hb.1.symm, hc.1.symm, hd.1.symm, ha'.1.symm, hb'.1.symm, hc'.1.symm,
      hd'.1.symm] at hq

/-- The escape of a backslash is the only one that ends with a backslash. -/
theorem Escape.backslash {p v : Bytes} (h : Escape p v) (hl : p.getLast? = some 92) :
    p = [92] ∧ v = [92] := by
  cases h with
  | @short e b h =>
    obtain rfl := Option.some.inj hl
    obtain rfl := (shortEscapes_unique h (by decide : ((92 : UInt8), (92 : UInt8)) ∈ shortEscapes)).1
    exact ⟨rfl, rfl⟩
  | unit hn hc =>
    obtain ⟨-, -, -, hd⟩ := hex4_ne hn
    exact absurd (Option.some.inj hl) hd.2
  | pair hhi hlo hi_range lo_range =>
    obtain ⟨-, -, -, hd⟩ := hex4_ne hlo
    exact absurd (Option.some.inj hl) hd.2

theorem Chars.exists_raw {t s r : Bytes} (h : Chars t s r) : ∃ raw, t = raw ++ 34 :: r := by
  induction h with
  | close => exact ⟨[], rfl⟩
  | plain hb h ih =>
    obtain ⟨raw, rfl⟩ := ih
    exact ⟨_ :: raw, rfl⟩
  | escape ht hp h ih =>
    obtain ⟨raw, rfl⟩ := ih
    exact ⟨92 :: (_ ++ raw), by rw [ht, List.cons_append, List.append_assoc]⟩

theorem Chars.backslash {t s r : Bytes} (h : Chars t s r) {raw u v : Bytes}
    (ht : t = raw ++ 34 :: r) (hraw : raw = u ++ 34 :: v) : u.getLast? = some 92 := by
  induction h generalizing raw u v with
  | @close r =>
    have hlen := congrArg List.length ht
    simp only [hraw, List.length_cons, List.length_append] at hlen
    omega
  | @plain b t s r hb h ih =>
    subst hraw
    cases u with
    | nil => exact absurd (List.cons.inj ht).1 hb.2.1
    | cons c u =>
      have hlast := ih (List.cons.inj ht).2 rfl
      have hne : u ≠ [] := by
        rintro rfl
        simp at hlast
      rwa [List.getLast?_cons_of_ne_nil hne]
  | @escape t p w u' s r ht' hp h ih =>
    obtain ⟨raw', rfl⟩ := h.exists_raw
    have hsplit : raw = 92 :: (p ++ raw') := by
      have heq := ht.symm.trans ht'
      rw [← List.append_assoc, ← List.cons_append] at heq
      exact List.append_cancel_right heq
    rw [hsplit] at hraw
    cases u with
    | nil => simp at hraw
    | cons c u =>
      obtain ⟨rfl, hrest⟩ := List.cons.inj hraw
      rcases List.append_eq_append_iff.mp hrest with ⟨a, rfl, ha⟩ | ⟨a, ha, hb⟩
      · -- the quote is behind the escape
        have hlast := ih rfl ha
        have hne : a ≠ [] := by
          rintro rfl
          simp at hlast
        rw [← List.cons_append, List.getLast?_append_of_ne_nil _ hne]
        exact hlast
      · cases a with
        | nil =>
          have hlast := ih (u := []) rfl (by simpa using hb.symm)
          simp at hlast
        | cons c a =>
          obtain ⟨rfl, -⟩ := List.cons.inj hb
          have hq := (hp.quote (by simp [ha])).1
          rw [ha] at hq
          cases u with
          | nil => rfl
          | cons d u => simp at hq

/-- Where the value is ahead of the text, it stays ahead when a part of the text is read that
is at least as long as its value. -/
theorem shift {w c R v s : Bytes} (hlen : v.length < w.length + c.length)
    (h : w ++ (c ++ R) = v ++ s) :
    ∃ w', w' ≠ [] ∧ s = w' ++ R ∧ ∀ b ∈ w', b ∈ w ∨ b ∈ c := by
  have hs := congrArg (List.drop v.length) h
  rw [List.drop_left, ← List.append_assoc,
    List.drop_append_of_le_length (by rw [List.length_append]; omega)] at hs
  refine ⟨(w ++ c).drop v.length, ?_, hs.symm, ?_⟩
  · apply List.ne_nil_of_length_pos
    rw [List.length_drop, List.length_append]
    omega
  · intro b hb
    exact List.mem_append.mp (List.mem_of_mem_drop hb)

theorem append_eq_append_cons {x u R t : Bytes} {b : UInt8} (h : x ++ u = R ++ b :: t) :
    (∃ R', R = x ++ R' ∧ u = R' ++ b :: t) ∨ ∃ c, x = R ++ b :: c ∧ t = c ++ u := by
  rcases List.append_eq_append_iff.mp h with ⟨R', hR, hu⟩ | ⟨c, hx, hc⟩
  · exact Or.inl ⟨R', hR, hu⟩
  · cases c with
    | nil =>
      rw [List.append_nil] at hx
      exact Or.inl ⟨[], by rw [hx, List.append_nil], hc.symm⟩
    | cons d c =>
      obtain ⟨rfl, ht⟩ := List.cons.inj hc
      exact Or.inr ⟨c, hx, ht⟩

end Shift

section Bare

/-- A text that puts a string between quotes as it is never reads it back from its first
quote or backslash on: what is read runs ahead of the text. -/
theorem bare_lost {T S r tail : Bytes} (htail : ∀ s, Chars tail s r → s.getLast? ≠ some 92)
    (h : Chars T S r) : ∀ {R w : Bytes}, T = R ++ 34 :: tail → S = w ++ R →
      ¬ (w ≠ [] ∨ R.head? = some 34 ∨ R.head? = some 92) := by
  induction h with
  | close =>
    intro R w hT hS hahead
    obtain ⟨rfl, rfl⟩ := List.append_eq_nil_iff.mp hS.symm
    simp at hahead
  | @plain b t s r hb h ih =>
    intro R w hT hS hahead
    cases R with
    | nil => exact hb.2.1 (List.cons.inj hT).1
    | cons c R =>
      obtain ⟨rfl, ht⟩ := List.cons.inj hT
      have hw : w ≠ [] := by
        rcases hahead with hw | hq | hq
        · exact hw
        · exact absurd (Option.some.inj hq) hb.2.1
        · exact absurd (Option.some.inj hq) hb.2.2
      have hpos := List.length_pos_iff.mpr hw
      obtain ⟨w', hne, hs, -⟩ := shift (w := w) (c := [b]) (v := [b]) (by simp; omega) hS.symm
      exact ih htail ht hs (Or.inl hne)
  | @escape t p v u s r ht hp h ih =>
    intro R w hT hS hahead
    rw [ht, ← List.cons_append] at hT
    rcases append_eq_append_cons hT with ⟨R', rfl, hu⟩ | ⟨c, hc, hu⟩
    · have hle := hp.length_le
      obtain ⟨w', hne, hs, -⟩ := shift (w := w) (c := 92 :: p) (by simp; omega) hS.symm
      exact ih htail hu hs (Or.inl hne)
    · -- the closing quote is taken for an escaped one
      have hq : (34 : UInt8) ∈ 92 :: p := hc ▸ by simp
      obtain ⟨rfl, rfl⟩ := hp.quote (by simpa using hq)
      obtain ⟨rfl, rfl⟩ : R = [92] ∧ c = [] := by
        cases R with
        | nil => simp at hc
        | cons b R =>
          cases R with
          | nil => simpa using hc.symm
          | cons b' R => simp at hc
      rw [List.nil_append] at hu
      cases w with
      | nil => simp at hS
      | cons b w =>
        have hs : s = w ++ [92] := (List.cons.inj hS).2
        apply htail s (hu ▸ h)
        rw [hs, List.getLast?_concat]

theorem bare_iff {R tail r : Bytes} (htail : ∀ s r, Chars tail s r → s.getLast? ≠ some 92) :
    Chars (R ++ 34 :: tail) R r ↔ (∀ b ∈ R, Unescaped b) ∧ r = tail := by
  constructor
  · intro h
    induction R with
    | nil =>
      generalize hT : [] ++ 34 :: tail = T at h
      generalize hS : ([] : Bytes) = S at h
      cases h with
      | close => exact ⟨by simp, (List.cons.inj hT).2.symm⟩
      | plain hb h => simp at hS
      | escape ht hp h =>
        rw [ht] at hT
        simp at hT
    | cons b R ih =>
      have hb : b ≠ 34 ∧ b ≠ 92 := by
        constructor
        · rintro rfl
          exact bare_lost (fun s => htail s r) h (w := []) rfl rfl (by simp)
        · rintro rfl
          exact bare_lost (fun s => htail s r) h (w := []) rfl rfl (by simp)
      rw [List.cons_append] at h
      generalize hS : b :: R = S at h
      cases h with
      | close => simp at hS
      | plain hc h =>
        obtain rfl := (List.cons.inj hS).2
        obtain ⟨hR, hr⟩ := ih h
        exact ⟨List.forall_mem_cons.mpr ⟨hc, hR⟩, hr⟩
      | escape ht hp h => exact absurd (List.cons.inj ht).1 hb.2
  · rintro ⟨hR, rfl⟩
    exact Chars.of_plain hR r

end Bare

section Quoted

def quoteEscaped (R : Bytes) : Bytes := R.flatMap fun b => if b = 34 then [92, 34] else [b]

@[simp] theorem quoteEscaped_nil : quoteEscaped [] = [] := rfl

theorem quoteEscaped_quote (R : Bytes) : quoteEscaped (34 :: R) = 92 :: 34 :: quoteEscaped R := rfl

theorem quoteEscaped_cons {b : UInt8} (hb : b ≠ 34) (R : Bytes) :
    quoteEscaped (b :: R) = b :: quoteEscaped R := by
  simp [quoteEscaped, hb]

theorem quoteEscaped_append (R R' : Bytes) :
    quoteEscaped (R ++ R') = quoteEscaped R ++ quoteEscaped R' := by
  simp [quoteEscaped]

theorem quoteEscaped_of_notMem {R : Bytes} (h : 34 ∉ R) : quoteEscaped R = R := by
  induction R with
  | nil => rfl
  | cons b R ih =>
    simp only [List.mem_cons, not_or] at h
    rw [quoteEscaped_cons (Ne.symm h.1), ih h.2]

/-- Bytes without a quote come from the same bytes of the string, but for a backslash at
their end, which may belong to a quote. -/
theorem quoteEscaped_cut {tail u : Bytes} {p : Bytes} (hp : 34 ∉ p) :
    ∀ {R : Bytes}, p ++ u = quoteEscaped R ++ 34 :: tail →
      (∃ R', R = p ++ R' ∧ u = quoteEscaped R' ++ 34 :: tail) ∨
        ∃ p' R', p = p' ++ [92] ∧ R = p' ++ 34 :: R' ∧
          u = 34 :: (quoteEscaped R' ++ 34 :: tail) := by
  induction p with
  | nil =>
    intro R h
    exact Or.inl ⟨R, rfl, h⟩
  | cons b p ih =>
    intro R h
    simp only [List.mem_cons, not_or] at hp
    cases R with
    | nil => exact absurd (List.cons.inj h).1.symm hp.1
    | cons c R =>
      by_cases hc : c = 34
      · subst hc
        rw [quoteEscaped_quote] at h
        obtain ⟨rfl, hrest⟩ := List.cons.inj h
        cases p with
        | nil => exact Or.inr ⟨[], R, rfl, rfl, hrest⟩
        | cons b' p =>
          have hb' : b' = 34 := (List.cons.inj hrest).1
          simp [hb'] at hp
      · rw [quoteEscaped_cons hc] at h
        obtain ⟨rfl, hrest⟩ := List.cons.inj h
        rcases ih hp.2 hrest with ⟨R', rfl, hu⟩ | ⟨p', R', rfl, rfl, hu⟩
        · exact Or.inl ⟨R', rfl, hu⟩
        · exact Or.inr ⟨b :: p', R', rfl, rfl, hu⟩

/-- With its quotes escaped a string is not read back from its first backslash on. -/
theorem quoteEscaped_lost {T S r tail : Bytes} (h : Chars T S r) :
    ∀ {R w : Bytes}, T = quoteEscaped R ++ 34 :: tail → S = w ++ R → 34 ∉ w →
      ¬ (w ≠ [] ∨ R.head? = some 92) := by
  induction h with
  | close =>
    intro R w hT hS hw hahead
    obtain ⟨rfl, rfl⟩ := List.append_eq_nil_iff.mp hS.symm
    simp at hahead
  | @plain b t s r hb h ih =>
    intro R w hT hS hw hahead
    have hcut := quoteEscaped_cut (p := [b]) (u := t) (by simpa using Ne.symm hb.2.1) hT
    rcases hcut with ⟨R', rfl, ht⟩ | ⟨p', R', hp', -, -⟩
    · have hne : w ≠ [] := by
        rcases hahead with hne | hq
        · exact hne
        · exact absurd (Option.some.inj hq) hb.2.2
      have hpos := List.length_pos_iff.mpr hne
      obtain ⟨w', hne', hs, hmem⟩ := shift (w := w) (c := [b]) (v := [b]) (by simp; omega) hS.symm
      apply ih ht hs _ (Or.inl hne')
      intro hq
      rcases hmem 34 hq with hq | hq
      · exact hw hq
      · exact hb.2.1 (List.mem_singleton.mp hq).symm
    · have hlast := congrArg List.getLast? hp'
      rw [List.getLast?_concat] at hlast
      exact hb.2.2 (Option.some.inj hlast)
  | @escape t p v u s r ht hp h ih =>
    intro R w hT hS hw hahead
    by_cases hq : (34 : UInt8) ∈ p
    · obtain ⟨rfl, rfl⟩ := hp.quote hq
      cases w with
      | nil =>
        rcases hahead with hne | hq
        · exact hne rfl
        · rw [List.nil_append] at hS
          rw [← hS] at hq
          simp at hq
      | cons b w => exact hw ((List.cons.inj hS).1 ▸ by simp)
    · have hq' : (34 : UInt8) ∉ 92 :: p := by simpa using hq
      rw [ht, ← List.cons_append] at hT
      rcases quoteEscaped_cut hq' hT with ⟨R', rfl, hu⟩ | ⟨p', R', hp', rfl, hu⟩
      · have hle := hp.length_le
        obtain ⟨w', hne, hs, hmem⟩ := shift (w := w) (c := 92 :: p) (by simp; omega) hS.symm
        apply ih hu hs _ (Or.inl hne)
        intro hin
        rcases hmem 34 hin with hin | hin
        · exact hw hin
        · exact hq' hin
      · -- an escaped backslash, after which the quote closes the string
        obtain ⟨rfl, rfl⟩ : p = [92] ∧ v = [92] := by
          apply hp.backslash
          have hlast := congrArg List.getLast? hp'
          rw [List.getLast?_concat] at hlast
          cases p with
          | nil => cases hp
          | cons b p => simpa using hlast
        subst hu
        obtain ⟨rfl, -⟩ := Chars.close.unique h
        have hlen := congrArg List.length hS
        have hlen' := congrArg List.length hp'
        simp only [List.length_append, List.length_cons, List.length_nil] at hlen hlen'
        omega

theorem quoteEscaped_iff {R tail r : Bytes} :
    Chars (quoteEscaped R ++ 34 :: tail) R r ↔ (∀ b ∈ R, 32 ≤ b ∧ b ≠ 92) ∧ r = tail := by
  constructor
  · intro h
    induction R with
    | nil =>
      obtain ⟨-, rfl⟩ := Chars.close.unique h
      exact ⟨by simp, rfl⟩
    | cons b R ih =>
      have hb : b ≠ 92 := by
        rintro rfl
        exact quoteEscaped_lost h (w := []) rfl rfl (by simp) (by simp)
      by_cases hq : b = 34
      · subst hq
        rw [quoteEscaped_quote] at h
        generalize hS : 34 :: R = S at h
        cases h with
        | plain hc h => exact absurd rfl hc.2.2
        | @escape _ p v u s r ht hp h =>
          have hp' : p ++ u = [34] ++ (quoteEscaped R ++ 34 :: tail) := (List.cons.inj ht).2.symm
          obtain ⟨rfl, rfl, rfl⟩ := hp.unique (.short (b := 34) (by decide)) hp'
          obtain rfl := (List.cons.inj hS).2
          obtain ⟨hR, hr⟩ := ih h
          exact ⟨List.forall_mem_cons.mpr ⟨by decide, hR⟩, hr⟩
      · rw [quoteEscaped_cons hq] at h
        generalize hS : b :: R = S at h
        cases h with
        | close => exact absurd rfl hq
        | plain hc h =>
          obtain rfl := (List.cons.inj hS).2
          obtain ⟨hR, hr⟩ := ih h
          exact ⟨List.forall_mem_cons.mpr ⟨⟨hc.1, hb⟩, hR⟩, hr⟩
        | escape ht hp h => exact absurd (List.cons.inj ht).1 hb
  · rintro ⟨hR, rfl⟩
    induction R with
    | nil => exact .close
    | cons b R ih =>
      have hrest := ih fun c hc => hR c (by simp [hc])
      obtain ⟨h32, h92⟩ := hR b (by simp)
      by_cases hb : b = 34
      · subst hb
        exact .escape (p := [34]) rfl (.short (by decide)) hrest
      · rw [quoteEscaped_cons hb]
        exact .plain ⟨h32, hb, h92⟩ hrest

end Quoted

end LuaProxy.Json
