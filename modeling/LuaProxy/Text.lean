import Mathlib.Data.List.Basic
import Mathlib.Tactic

/-! Byte strings and UTF-8 text. A Lua string is a list of bytes; a Rust `String`
is a Lean `String`, which carries the validity of its UTF-8 bytes with it. -/
namespace LuaProxy.Text

abbrev Bytes := List UInt8

/-- The bytes of a text, as Lua sees a Rust string. -/
def utf8 (s : String) : Bytes := s.toUTF8.data.toList

/-- `String::from_utf8`: the text of a byte string, when it is valid UTF-8. -/
def fromUtf8 (b : Bytes) : Option String := String.fromUTF8? ⟨b.toArray⟩

theorem fromUtf8_eq_some {b : Bytes} {s : String} : fromUtf8 b = some s ↔ utf8 s = b := by
  unfold fromUtf8 String.fromUTF8? utf8
  constructor
  · intro h
    split at h
    · obtain rfl := Option.some.inj h
      rfl
    · simp at h
  · rintro rfl
    have hb : (⟨s.toUTF8.data.toList.toArray⟩ : ByteArray) = s.toByteArray := by simp
    rw [hb, dif_pos s.isValidUTF8]
    rfl

@[simp] theorem fromUtf8_utf8 (s : String) : fromUtf8 (utf8 s) = some s :=
  fromUtf8_eq_some.mpr rfl

theorem utf8_injective : Function.Injective utf8 := by
  intro s t h
  have hs := fromUtf8_utf8 s
  rw [h, fromUtf8_utf8] at hs
  exact (Option.some.inj hs).symm

@[simp] theorem utf8_inj {s t : String} : utf8 s = utf8 t ↔ s = t := utf8_injective.eq_iff

@[simp] theorem utf8_append (s t : String) : utf8 (s ++ t) = utf8 s ++ utf8 t := by
  simp [utf8, String.toUTF8]

@[simp] theorem utf8_empty : utf8 "" = [] := by decide

theorem utf8_ofList (cs : List Char) :
    utf8 (String.ofList cs) = cs.flatMap String.utf8EncodeChar := by
  induction cs with
  | nil => simp
  | cons c cs ih =>
    have hc : String.ofList (c :: cs) = String.ofList [c] ++ String.ofList cs := by simp
    have hone : utf8 (String.ofList [c]) = String.utf8EncodeChar c := by
      simp [utf8, String.toUTF8, List.utf8Encode_singleton]
    rw [hc, utf8_append, ih, hone, List.flatMap_cons]

theorem takeWhile_stop {p : UInt8 → Bool} {t : Bytes} (h : ∀ b ∈ t.head?, p b = false) :
    t.takeWhile p = [] := by
  cases t with
  | nil => rfl
  | cons b t => simp [h b (by simp)]

theorem dropWhile_stop {p : UInt8 → Bool} {t : Bytes} (h : ∀ b ∈ t.head?, p b = false) :
    t.dropWhile p = t := by
  cases t with
  | nil => rfl
  | cons b t => simp [h b (by simp)]

theorem forall_byte {p : UInt8 → Prop} (h : ∀ n < 256, p (UInt8.ofNat n)) (x : UInt8) : p x := by
  simpa using h x.toNat x.toNat_lt

theorem forall_mem_bytes {p : UInt8 → Prop} [DecidablePred p] {t : Bytes}
    (h : t.all (fun b => decide (p b)) = true) : ∀ b ∈ t, p b := by
  simpa using h

def latin1 (b : Bytes) : String := String.ofList (b.map fun x => Char.ofNat x.toNat)

def widen (x : UInt8) : Bytes :=
  if x < 128 then [x] else [(0xC0 : UInt8) ||| (x >>> 6), (0x80 : UInt8) ||| (x &&& 0x3F)]

theorem utf8EncodeChar_latin1 (x : UInt8) :
    String.utf8EncodeChar (Char.ofNat x.toNat) = widen x := by
  have hall : ∀ x : UInt8, String.utf8EncodeChar (Char.ofNat x.toNat) = widen x :=
    forall_byte (by decide +kernel)
  exact hall x

theorem utf8_latin1 (b : Bytes) : utf8 (latin1 b) = b.flatMap widen := by
  rw [latin1, utf8_ofList, List.flatMap_map]
  congr 1
  funext x
  exact utf8EncodeChar_latin1 x

def Ascii (b : Bytes) : Prop := ∀ x ∈ b, x < 128

instance (b : Bytes) : Decidable (Ascii b) := inferInstanceAs (Decidable (∀ x ∈ b, x < 128))

theorem widen_ascii {b : Bytes} (h : Ascii b) : b.flatMap widen = b := by
  induction b with
  | nil => rfl
  | cons x b ih =>
    have hx : x < 128 := h x (by simp)
    have hb : Ascii b := fun y hy => h y (by simp [hy])
    simp [widen, hx, ih hb]

theorem utf8_latin1_ascii {b : Bytes} (h : Ascii b) : utf8 (latin1 b) = b := by
  rw [utf8_latin1, widen_ascii h]

theorem fromUtf8_ascii {b : Bytes} (h : Ascii b) : fromUtf8 b = some (latin1 b) :=
  fromUtf8_eq_some.mpr (utf8_latin1_ascii h)

def ValidUtf8 (b : Bytes) : Prop := ∃ s, utf8 s = b

theorem validUtf8_iff {b : Bytes} : ValidUtf8 b ↔ (fromUtf8 b).isSome := by
  rw [Option.isSome_iff_exists]
  exact exists_congr fun s => fromUtf8_eq_some.symm

theorem ValidUtf8.append {a b : Bytes} (ha : ValidUtf8 a) (hb : ValidUtf8 b) :
    ValidUtf8 (a ++ b) := by
  obtain ⟨s, rfl⟩ := ha
  obtain ⟨t, rfl⟩ := hb
  exact ⟨s ++ t, utf8_append s t⟩

theorem Ascii.validUtf8 {b : Bytes} (h : Ascii b) : ValidUtf8 b := ⟨latin1 b, utf8_latin1_ascii h⟩

theorem utf8_eq (s : String) : utf8 s = s.toList.flatMap String.utf8EncodeChar := by
  rw [← utf8_ofList, String.ofList_toList]

/-- An ASCII byte is never part of a longer encoding. -/
theorem utf8EncodeChar_ascii {c : Char} {x : UInt8} (h : x ∈ String.utf8EncodeChar c)
    (hx : x < 128) : String.utf8EncodeChar c = [x] := by
  simp only [String.utf8EncodeChar] at h ⊢
  split_ifs at h ⊢ with h1 h2 h3
  · rw [List.mem_singleton.mp h]
  all_goals
    exfalso
    simp only [List.mem_cons, List.not_mem_nil, or_false, ← UInt8.toNat_inj] at h
    rw [UInt8.lt_iff_toNat_lt] at hx
    simp at h hx
    omega

/-- A text can be cut at its ASCII bytes. -/
theorem utf8_split {s : String} {x : UInt8} (hx : x < 128) {a b : Bytes}
    (h : utf8 s = a ++ x :: b) : ValidUtf8 a ∧ ValidUtf8 b := by
  rw [utf8_eq] at h
  generalize s.toList = cs at h
  induction cs generalizing a with
  | nil => simp at h
  | cons c cs ih =>
    rw [List.flatMap_cons] at h
    rcases List.append_eq_append_iff.mp h with ⟨w, rfl, hw⟩ | ⟨w, hc, hw⟩
    · obtain ⟨⟨t, ht⟩, hb⟩ := ih hw
      refine ⟨⟨String.ofList [c] ++ t, ?_⟩, hb⟩
      rw [utf8_append, ht, utf8_ofList]
      simp
    · cases w with
      | nil =>
        rw [List.append_nil] at hc
        obtain ⟨-, hb⟩ := ih (a := []) hw.symm
        refine ⟨⟨String.ofList [c], ?_⟩, hb⟩
        rw [utf8_ofList]
        simp [hc]
      | cons y w =>
        obtain ⟨rfl, rfl⟩ := List.cons.inj hw
        have hone := utf8EncodeChar_ascii (c := c) (x := x) (by simp [hc]) hx
        rw [hone] at hc
        have ha : a = [] := by
          have hl := congrArg List.length hc
          simp at hl
          exact List.eq_nil_of_length_eq_zero (by omega)
        subst ha
        obtain rfl : w = [] := by simpa using hc.symm
        exact ⟨⟨"", utf8_empty⟩, String.ofList cs, utf8_ofList cs⟩

theorem ValidUtf8.of_append_ascii {a b : Bytes} (h : ValidUtf8 (a ++ b)) (hb : Ascii b) : ValidUtf8 a := by
  cases b with
  | nil => simpa using h
  | cons x b =>
    obtain ⟨s, hs⟩ := h
    exact (utf8_split (hb x (by simp)) hs).1

theorem ValidUtf8.cut {a b : Bytes} {x : UInt8} (hx : x < 128) (h : ValidUtf8 (a ++ x :: b)) :
    ValidUtf8 a ∧ ValidUtf8 b := by
  obtain ⟨s, hs⟩ := h
  exact utf8_split hx hs

theorem ValidUtf8.of_ascii_append {a b : Bytes} (ha : Ascii a) (h : ValidUtf8 (a ++ b)) :
    ValidUtf8 b := by
  induction a with
  | nil => exact h
  | cons x a ih =>
    have htail := ValidUtf8.cut (a := []) (ha x (by simp)) h
    exact ih (fun y hy => ha y (by simp [hy])) htail.2

theorem ValidUtf8.map {b : Bytes} {f : UInt8 → UInt8} (hf : ∀ x < 128, f x < 128)
    (hid : ∀ x, ¬ x < 128 → f x = x) (h : ValidUtf8 b) : ValidUtf8 (b.map f) := by
  obtain ⟨s, rfl⟩ := h
  rw [utf8_eq, List.map_flatMap]
  induction s.toList with
  | nil => exact ⟨"", utf8_empty⟩
  | cons c cs ih =>
    rw [List.flatMap_cons]
    refine ValidUtf8.append ?_ ih
    by_cases hascii : ∃ x ∈ String.utf8EncodeChar c, x < 128
    · obtain ⟨x, hmem, hx⟩ := hascii
      rw [utf8EncodeChar_ascii hmem hx]
      exact Ascii.validUtf8 (by simpa [Ascii] using hf x hx)
    · have hsame : (String.utf8EncodeChar c).map f = String.utf8EncodeChar c := by
        rw [List.map_congr_left fun x hx => hid x fun hlt => hascii ⟨x, hx, hlt⟩, List.map_id']
      rw [hsame]
      refine ⟨String.ofList [c], ?_⟩
      rw [utf8_ofList]
      simp

example : utf8 "role" = [114, 111, 108, 101] := by decide

end LuaProxy.Text
