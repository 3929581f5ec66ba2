import LuaProxy.JsonSegments
import LuaProxy.Numeral

/-! What `tonumber` reads from the number of a JSON text: of its text up to the exponent, what
Lua's numbers can hold. -/
namespace LuaProxy.JsonNumbers
open Text Lua JsonScan JsonSegments
open Json (readNumber readDigits natOf)

section Parts

def exactDouble : Double → Option ℚ
  | .finite q => some q
  | .negZero => some 0
  | .inf _ => none

def exactNumber : Number → Option ℚ
  | .int n => some n
  | .float d => exactDouble d

/-- What Lua makes of a number without an exponent: the number itself, if it has no point and 64
bits hold it, and otherwise the float next to it. -/
def luaNumber (y : Bytes) : Option ℚ := do
  let (m, _) ← readNumber y
  if 46 ∉ y ∧ -2 ^ 63 ≤ m ∧ m < 2 ^ 63 then some m else exactDouble (.ofRat m)

def Digits (ds : Bytes) : Prop := ds ≠ [] ∧ ∀ b ∈ ds, isDigit b = true

/-- Sign, digits, fraction and exponent of a number. -/
structure Parts (x sign ds frac rest : Bytes) : Prop where
  text : x = sign ++ (ds ++ (frac ++ rest))
  sign : sign = [] ∨ sign = [45]
  digits : Digits ds
  zero : ¬ (ds.head? = some 48 ∧ ds ≠ [48])
  frac : frac = [] ∨ ∃ fs, frac = 46 :: fs ∧ Digits fs
  rest : ∀ b ∈ rest.head?, b = 69 ∨ b = 101

theorem readSign_parts (t : Bytes) :
    ∃ sign, t = sign ++ (Json.readSign t).2 ∧ (sign = [] ∨ sign = [45]) := by
  unfold Json.readSign
  split
  · exact ⟨[45], rfl, Or.inr rfl⟩
  · exact ⟨[], rfl, Or.inl rfl⟩

theorem readInt_parts {t r : Bytes} {n : ℕ} (h : Json.readInt t = some (n, r)) :
    ∃ ds, t = ds ++ r ∧ Digits ds ∧ ¬ (ds.head? = some 48 ∧ ds ≠ [48]) := by
  unfold Json.readInt at h
  cases hd : readDigits t with
  | none => simp [hd] at h
  | some p =>
    obtain ⟨ds, u⟩ := p
    simp only [hd, Option.bind_eq_bind, Option.bind_some] at h
    split_ifs at h with hzero
    obtain ⟨-, rfl⟩ := Prod.mk.inj (Option.some.inj h)
    obtain ⟨ht, hds⟩ := Json.readDigits_takes hd
    exact ⟨ds, ht, hds, hzero⟩

theorem readFrac_parts {t r : Bytes} {f : ℚ} (h : Json.readFrac t = some (f, r)) :
    ∃ frac, t = frac ++ r ∧ (frac = [] ∨ ∃ fs, frac = 46 :: fs ∧ Digits fs) := by
  unfold Json.readFrac at h
  split at h
  · rename_i t
    cases hd : readDigits t with
    | none => simp [hd] at h
    | some p =>
      obtain ⟨fs, u⟩ := p
      simp only [hd, Option.bind_eq_bind, Option.bind_some, Option.some.injEq, Prod.mk.injEq] at h
      obtain ⟨-, rfl⟩ := h
      obtain ⟨ht, hfs⟩ := Json.readDigits_takes hd
      exact ⟨46 :: fs, congrArg _ ht, Or.inr ⟨fs, rfl, hfs⟩⟩
  · obtain ⟨-, rfl⟩ := Prod.mk.inj (Option.some.inj h)
    exact ⟨[], rfl, Or.inl rfl⟩

theorem readExp_parts {t : Bytes} {e : ℤ} (h : Json.readExp t = some (e, [])) :
    ∀ b ∈ t.head?, b = 69 ∨ b = 101 := by
  unfold Json.readExp at h
  split at h
  · simp
  · simp
  · obtain ⟨-, rfl⟩ := Prod.mk.inj (Option.some.inj h)
    simp

theorem exists_parts {x : Bytes} {q : ℚ} (h : readNumber x = some (q, [])) :
    ∃ sign ds frac rest, Parts x sign ds frac rest := by
  unfold readNumber at h
  cases hi : Json.readInt (Json.readSign x).2 with
  | none => simp [hi] at h
  | some p =>
    obtain ⟨n, t₁⟩ := p
    cases hf : Json.readFrac t₁ with
    | none => simp [hi, hf] at h
    | some p =>
      obtain ⟨f, t₂⟩ := p
      cases he : Json.readExp t₂ with
      | none => simp [hi, hf, he] at h
      | some p =>
        obtain ⟨e, t₃⟩ := p
        simp only [hi, hf, he, Option.bind_eq_bind, Option.bind_some, Option.some.injEq,
          Prod.mk.injEq] at h
        obtain ⟨-, rfl⟩ := h
        obtain ⟨sign, hx, hsign⟩ := readSign_parts x
        obtain ⟨ds, ht, hds, hzero⟩ := readInt_parts hi
        obtain ⟨frac, hu, hfrac⟩ := readFrac_parts hf
        refine ⟨sign, ds, frac, t₂, ?_, hsign, hds, hzero, hfrac, readExp_parts he⟩
        rw [hx, ht, hu]

theorem Parts.mantissa {x sign ds frac rest : Bytes} (h : Parts x sign ds frac rest) :
    mantissa x = sign ++ (ds ++ frac) := by
  have hdigit : ∀ b, isDigit b = true → LuaPattern.Class.test numberClass b = true :=
    forall_byte (by decide +kernel)
  have hsign : ∀ b ∈ sign, numberClass.test b = true := by
    rcases h.sign with rfl | rfl
    · simp
    · exact forall_mem_bytes (by decide)
  have hds : ∀ b ∈ ds, numberClass.test b = true := fun b hb => hdigit b (h.digits.2 b hb)
  have hfrac : ∀ b ∈ frac, numberClass.test b = true := by
    rcases h.frac with rfl | ⟨fs, rfl, hfs⟩
    · simp
    · exact List.forall_mem_cons.mpr ⟨by decide, fun b hb => hdigit b (hfs.2 b hb)⟩
  have hrest : rest.takeWhile numberClass.test = [] := by
    apply takeWhile_stop
    intro b hb
    rcases h.rest b hb with rfl | rfl
    · rfl
    · rfl
  rw [JsonSegments.mantissa, h.text, List.takeWhile_append_of_pos hsign,
    List.takeWhile_append_of_pos hds, List.takeWhile_append_of_pos hfrac, hrest, List.append_nil]

end Parts

section Values

def fraction (frac : Bytes) : ℚ := natOf frac.tail / 10 ^ frac.tail.length

theorem takeDigits {ds t : Bytes} (hds : ∀ b ∈ ds, isDigit b = true)
    (ht : ∀ b ∈ t.head?, isDigit b = false) :
    (ds ++ t).takeWhile isDigit = ds ∧ (ds ++ t).dropWhile isDigit = t := by
  rw [List.takeWhile_append_of_pos hds, List.dropWhile_append_of_pos hds, takeWhile_stop ht,
    dropWhile_stop ht, List.append_nil]
  exact ⟨rfl, rfl⟩

theorem readDigits_append {ds t : Bytes} (hds : Digits ds) (ht : ∀ b ∈ t.head?, isDigit b = false) :
    readDigits (ds ++ t) = some (ds, t) := by
  obtain ⟨htake, hdrop⟩ := takeDigits hds.2 ht
  rw [readDigits]
  change (if (ds ++ t).takeWhile isDigit = [] then none
    else some ((ds ++ t).takeWhile isDigit, (ds ++ t).dropWhile isDigit)) = some (ds, t)
  rw [htake, hdrop, if_neg hds.1]

variable {x sign ds frac rest : Bytes}

theorem Parts.frac_head (h : Parts x sign ds frac rest) : ∀ b ∈ frac.head?, isDigit b = false := by
  rcases h.frac with rfl | ⟨fs, rfl, -⟩
  · simp
  · intro b hb
    obtain rfl := Option.some.inj hb
    decide

theorem Parts.first (h : Parts x sign ds frac rest) : (ds ++ frac).head? ≠ some 45 := by
  intro h45
  have hds := h.digits
  cases ds with
  | nil => exact hds.1 rfl
  | cons b ds =>
    obtain rfl : b = 45 := by simpa using h45
    exact absurd (hds.2 45 (by simp)) (by decide)

theorem Parts.readNumber (h : Parts x sign ds frac rest) :
    readNumber (JsonSegments.mantissa x) =
      some ((if sign = [] then 1 else -1) * (natOf ds + fraction frac), []) := by
  have hsign : Json.readSign (sign ++ (ds ++ frac)) = (if sign = [] then 1 else -1, ds ++ frac) := by
    rcases h.sign with rfl | rfl
    · exact Json.readSign_of_ne h.first
    · rfl
  have hint : Json.readInt (ds ++ frac) = some (natOf ds, frac) := by
    simp only [Json.readInt, readDigits_append h.digits h.frac_head, Option.bind_eq_bind,
      Option.bind_some, if_neg h.zero]
  have hfrac : Json.readFrac frac = some (fraction frac, []) := by
    rcases h.frac with rfl | ⟨fs, rfl, hfs⟩
    · simp [Json.readFrac, fraction, natOf]
    · have hread := readDigits_append (t := []) hfs (by simp)
      rw [List.append_nil] at hread
      simp [Json.readFrac, hread, fraction]
  rw [h.mantissa]
  simp [Json.readNumber, hsign, hint, hfrac, Json.readExp]

theorem digitsVal_append (s t : Bytes) :
    digitsVal (s ++ t) = digitsVal s * 10 ^ t.length + digitsVal t := by
  induction t using List.reverseRecOn with
  | nil => simp [digitsVal]
  | append_singleton t b ih =>
    rw [← List.append_assoc, Numeral.digitsVal_append, ih, Numeral.digitsVal_append, List.length_append,
      List.length_singleton, pow_succ]
    ring

theorem Parts.decimalVal (h : Parts x sign ds frac rest) :
    decimalVal (ds ++ frac) = some (natOf ds + fraction frac) := by
  obtain ⟨htake, hdrop⟩ := takeDigits h.digits.2 h.frac_head
  simp only [Lua.decimalVal, htake, hdrop]
  rcases h.frac with rfl | ⟨fs, rfl, hfs⟩
  · simp only [if_neg h.digits.1, fraction]
    simp [natOf, digitsVal]
  · have hall : fs.all isDigit = true := List.all_eq_true.mpr hfs.2
    have hpow : (10 : ℚ) ^ fs.length ≠ 0 := by positivity
    simp only [if_pos (And.intro hall (Or.inl h.digits.1)), digitsVal_append, fraction,
      List.tail_cons, Option.some.injEq]
    have hds : natOf ds = digitsVal ds := rfl
    have hfs' : natOf fs = digitsVal fs := rfl
    rw [hds, hfs']
    push_cast
    field_simp

theorem exactDouble_floatOf (negative : Bool) (m : ℚ) :
    exactDouble (floatOf negative m) = exactDouble (.ofRat (if negative then -m else m)) := by
  have hzero : Double.ofRat 0 = .finite 0 := by simp [Double.ofRat, roundHalfEven]
  unfold floatOf
  cases negative with
  | false => rfl
  | true =>
    by_cases hm : m = 0
    · rw [if_pos rfl, if_pos hm, if_pos rfl, hm, neg_zero, hzero]
      rfl
    · rw [if_pos rfl, if_neg hm, if_pos rfl]

theorem tonumber_signed {t : Bytes} (negative : Bool) (ht : t.head? ≠ some 45) :
    tonumber ((if negative then [45] else []) ++ t) =
      if isDigits t ∧ digitsVal t < 2 ^ 63 + (if negative then 1 else 0) then
        some (.int (if negative then -(digitsVal t : ℤ) else digitsVal t))
      else (decimalVal t).map fun q => .float (floatOf negative q) := by
  cases negative with
  | true => rfl
  | false => simp [tonumber, ht]

theorem luaNumber_float {y : Bytes} {negative : Bool} {q : ℚ}
    (h : readNumber y = some ((if negative then -1 else 1) * q, []))
    (hno : ¬ (46 ∉ y ∧ -2 ^ 63 ≤ (if negative then -1 else 1) * q ∧
      (if negative then -1 else 1) * q < 2 ^ 63)) :
    luaNumber y = exactDouble (floatOf negative q) := by
  have hsigned : (if negative then -1 else 1) * q = if negative then -q else q := by
    cases negative <;> simp
  simp only [luaNumber, h, Option.bind_eq_bind, Option.bind_some, if_neg hno]
  rw [exactDouble_floatOf, hsigned]

theorem signed_range (n : ℕ) (negative : Bool) :
    -2 ^ 63 ≤ (if negative then -1 else 1) * (n : ℚ) ∧ (if negative then -1 else 1) * (n : ℚ) < 2 ^ 63 ↔
      n < 2 ^ 63 + (if negative then 1 else 0) := by
  have hn : (0 : ℚ) ≤ n := by positivity
  cases negative with
  | true =>
    have hle : n < 2 ^ 63 + 1 ↔ (n : ℚ) ≤ 2 ^ 63 := by
      rw [Nat.lt_succ_iff]
      exact_mod_cast Iff.rfl
    simp only [if_true, hle]
    constructor
    · rintro ⟨h, -⟩
      linarith
    · intro h
      constructor <;> linarith
  | false =>
    have hlt : n < 2 ^ 63 + 0 ↔ (n : ℚ) < 2 ^ 63 := by
      rw [Nat.add_zero]
      exact_mod_cast Iff.rfl
    simp only [Bool.false_eq_true, if_false, one_mul, hlt]
    constructor
    · exact fun h => h.2
    · intro h
      constructor <;> linarith

/-- What Lua reads from a number is what is written before its exponent. -/
theorem Parts.tonumber (h : Parts x sign ds frac rest) :
    ∃ n, tonumber (JsonSegments.mantissa x) = some n ∧
      exactNumber n = luaNumber (JsonSegments.mantissa x) := by
  obtain ⟨negative, hneg⟩ : ∃ negative : Bool, sign = if negative then [45] else [] := by
    rcases h.sign with rfl | rfl
    · exact ⟨false, rfl⟩
    · exact ⟨true, rfl⟩
  have hfactor : (if sign = [] then (1 : ℚ) else -1) = if negative then -1 else 1 := by
    cases negative <;> simp [hneg]
  have hread := h.readNumber
  have hdec := h.decimalVal
  have hlook := tonumber_signed negative h.first
  rw [← hneg, ← h.mantissa] at hlook
  rw [hfactor] at hread
  rcases h.frac with rfl | ⟨fs, rfl, hfs⟩
  · have hdigits : isDigits ds = true := by
      rw [isDigits, List.all_eq_true.mpr h.digits.2]
      simp [h.digits.1]
    have hpoint : 46 ∉ JsonSegments.mantissa x := by
      rw [h.mantissa, hneg, List.append_nil, List.mem_append]
      rintro (h46 | h46)
      · cases negative <;> simp at h46
      · exact absurd (h.digits.2 46 h46) (by decide)
    have hwhole : (natOf ds : ℚ) + fraction [] = (digitsVal ds : ℕ) := by
      simp [fraction, natOf, digitsVal]
    rw [hwhole] at hread hdec
    have hrange := signed_range (digitsVal ds) negative
    rw [List.append_nil] at hlook hdec
    by_cases hn : digitsVal ds < 2 ^ 63 + (if negative then 1 else 0)
    · rw [if_pos ⟨hdigits, hn⟩] at hlook
      refine ⟨_, hlook, ?_⟩
      simp only [luaNumber, hread, Option.bind_eq_bind, Option.bind_some, hpoint, hrange, hn]
      cases negative <;> simp [exactNumber]
    · rw [if_neg (fun h => hn h.2), hdec] at hlook
      exact ⟨_, hlook, (luaNumber_float hread fun h => hn (hrange.mp h.2)).symm⟩
  · have hdigits : isDigits (ds ++ 46 :: fs) = false := by
      simp [isDigits, isDigit]
    have hpoint : 46 ∈ JsonSegments.mantissa x := by
      rw [h.mantissa]
      simp
    rw [if_neg (fun h => by simp [hdigits] at h), hdec] at hlook
    exact ⟨_, hlook, (luaNumber_float hread fun h => h.1 hpoint).symm⟩

theorem tonumber_mantissa {q : ℚ} (h : readNumber x = some (q, [])) :
    ∃ n, tonumber (JsonSegments.mantissa x) = some n ∧
      exactNumber n = luaNumber (JsonSegments.mantissa x) := by
  obtain ⟨sign, ds, frac, rest, hparts⟩ := exists_parts h
  exact hparts.tonumber

end Values

end LuaProxy.JsonNumbers
