import LuaProxy.EngineCodec
import LuaProxy.JsonText
import LuaProxy.Numeral

/-! What `json.encode` writes, read as JSON. Of the characters that a JSON string has to
escape it escapes the quotes only. -/
namespace LuaProxy.JsonEncode
open Text Lua Context EngineCodec Numeral

section Documents

/-- The Lua values with a JSON value of their own: texts, integers, booleans, nil, sequences
that are not empty, and tables with texts as keys. -/
inductive Doc
  | str (s : String)
  | int (n : ℤ)
  | bool (b : Bool)
  | nil
  | seq (v : Doc) (vs : List Doc)
  | map (ms : List (String × Doc))

mutual

def Doc.toLua : Doc → Value
  | .str s => .str (utf8 s)
  | .int n => .num (.int n)
  | .bool b => .bool b
  | .nil => .nil
  | .seq v vs => .table (v.toLua :: luaItems vs) []
  | .map ms => .table [] (luaFields ms)

def luaItems : List Doc → List Value
  | [] => []
  | v :: vs => v.toLua :: luaItems vs

def luaFields : List (String × Doc) → List (Value × Value)
  | [] => []
  | (k, v) :: ms => (.str (utf8 k), v.toLua) :: luaFields ms

end

mutual

def Doc.toJson : Doc → Json.Value
  | .str s => .str (utf8 s)
  | .int n => .num n
  | .bool b => .bool b
  | .nil => .null
  | .seq v vs => .arr (v.toJson :: jsonValues vs)
  | .map ms => .obj (jsonMembers ms)

def jsonValues : List Doc → List Json.Value
  | [] => []
  | v :: vs => v.toJson :: jsonValues vs

def jsonMembers : List (String × Doc) → List (Bytes × Json.Value)
  | [] => []
  | (k, v) :: ms => (utf8 k, v.toJson) :: jsonMembers ms

end

def Clean (s : String) : Prop := ∀ b ∈ utf8 s, 32 ≤ b ∧ b ≠ 92

mutual

def Doc.AllClean : Doc → Prop
  | .str s => Clean s
  | .seq v vs => v.AllClean ∧ itemsClean vs
  | .map ms => fieldsClean ms
  | _ => True

def itemsClean : List Doc → Prop
  | [] => True
  | v :: vs => v.AllClean ∧ itemsClean vs

def fieldsClean : List (String × Doc) → Prop
  | [] => True
  | (k, v) :: ms => (Clean k ∧ v.AllClean) ∧ fieldsClean ms

end

theorem Doc.induction {P : Doc → Prop} (str : ∀ s, P (.str s)) (int : ∀ n, P (.int n))
    (bool : ∀ b, P (.bool b)) (nil : P .nil)
    (seq : ∀ v vs, P v → (∀ w ∈ vs, P w) → P (.seq v vs))
    (map : ∀ ms, (∀ m ∈ ms, P m.2) → P (.map ms)) (d : Doc) : P d := by
  induction hn : sizeOf d using Nat.strong_induction_on generalizing d with
  | _ n ih =>
    subst hn
    cases d with
    | str s => exact str s
    | int n => exact int n
    | bool b => exact bool b
    | nil => exact nil
    | seq v vs =>
      apply seq
      · exact ih _ (by simp; omega) v rfl
      · intro w hw
        have hlt := List.sizeOf_lt_of_mem hw
        exact ih _ (by simp; omega) w rfl
    | map ms =>
      apply map
      rintro ⟨k, v⟩ hm
      have hlt := List.sizeOf_lt_of_mem hm
      simp only [Prod.mk.sizeOf_spec] at hlt
      exact ih _ (by simp; omega) v rfl

end Documents

section Integers

theorem decimal_zero {n : ℕ} (h : (decimal n).head? = some 48) : decimal n = [48] := by
  induction n using Nat.strong_induction_on with
  | _ n ih =>
    by_cases hn : n < 10
    · rw [decimal_of_lt hn] at h ⊢
      rw [Option.some.inj h]
    · rw [decimal_of_ge (by omega)] at h
      rw [List.head?_append_of_ne_nil _ (decimal_ne_nil _)] at h
      have hdiv := ih (n / 10) (by omega) h
      have hval := digitsVal_decimal (n / 10)
      have hzero : digitsVal [48] = 0 := by decide
      rw [hdiv, hzero] at hval
      omega

theorem readInt_decimal (n : ℕ) : Json.readInt (decimal n) = some (n, []) := by
  have hall : ∀ b ∈ decimal n, Json.isDigit b = true := isDigit_decimal n
  have htake : (decimal n).takeWhile Json.isDigit = decimal n := List.takeWhile_eq_self_iff.mpr hall
  have hdrop : (decimal n).dropWhile Json.isDigit = [] := List.dropWhile_eq_nil_iff.mpr hall
  have hread : Json.readDigits (decimal n) = some (decimal n, []) := by
    rw [Json.readDigits, htake, hdrop, if_neg (decimal_ne_nil n)]
  have hzero : ¬ ((decimal n).head? = some 48 ∧ decimal n ≠ [48]) := fun h => h.2 (decimal_zero h.1)
  have hval : Json.natOf (decimal n) = n := digitsVal_decimal n
  simp only [Json.readInt, hread, Option.bind_eq_bind, Option.bind_some, if_neg hzero, hval]

theorem readNumber_decimal (n : ℕ) : Json.readNumber (decimal n) = some ((n : ℚ), []) := by
  have hsign := Json.readSign_of_ne (head_decimal n)
  simp [Json.readNumber, hsign, readInt_decimal, Json.readFrac, Json.readExp]

theorem readNumber_minus (n : ℕ) : Json.readNumber (45 :: decimal n) = some (-(n : ℚ), []) := by
  simp [Json.readNumber, Json.readSign, readInt_decimal, Json.readFrac, Json.readExp]

theorem readNumber_toString (n : ℤ) : Json.readNumber (utf8 (toString n)) = some ((n : ℚ), []) := by
  rw [utf8_toString]
  split_ifs with hn
  · have hc : ((n.toNat : ℤ) : ℚ) = n := by rw [Int.toNat_of_nonneg hn]
    rw [readNumber_decimal, ← hc]
    rfl
  · have hc : (((-n).toNat : ℤ) : ℚ) = -n := by
      rw [Int.toNat_of_nonneg (by omega)]
      push_cast
      rfl
    rw [Int.cast_natCast] at hc
    rw [readNumber_minus, hc, neg_neg]

end Integers

section Texts

theorem quote_notMem {c : Char} (hc : c ≠ '"') : 34 ∉ String.utf8EncodeChar c := by
  intro h
  apply hc
  have hone := utf8EncodeChar_ascii h (by decide)
  have hquote : String.utf8EncodeChar '"' = [34] := by decide
  have hsame : utf8 (String.ofList [c]) = utf8 (String.ofList ['"']) := by
    rw [utf8_ofList, utf8_ofList, List.flatMap_singleton, List.flatMap_singleton, hone, hquote]
  have hlist := String.ofList_injective (utf8_inj.mp hsame)
  exact (List.cons.inj hlist).1

theorem utf8_escapeQuotes (s : String) :
    utf8 (escapeQuotes s) = Json.quoteEscaped (utf8 s) := by
  rw [escapeQuotes, utf8_ofList, utf8_eq]
  induction s.toList with
  | nil => rfl
  | cons c cs ih =>
    rw [List.flatMap_cons, List.flatMap_append, ih, List.flatMap_cons, Json.quoteEscaped_append]
    congr 1
    by_cases hc : c = '"'
    · subst hc
      decide
    · rw [if_neg hc, List.flatMap_singleton, Json.quoteEscaped_of_notMem (quote_notMem hc)]

variable (host : Host)

def text (d : Doc) : Bytes := utf8 (luaValueToJson host d.toLua)

def quotedText (s : String) : Bytes := 34 :: (Json.quoteEscaped (utf8 s) ++ [34])

def itemsText : Doc → List Doc → Bytes
  | v, [] => text host v ++ [93]
  | v, w :: vs => text host v ++ 44 :: itemsText w vs

def fieldText (m : String × Doc) : Bytes := quotedText m.1 ++ 58 :: text host m.2

def fieldsText : String × Doc → List (String × Doc) → Bytes
  | m, [] => fieldText host m ++ [125]
  | m, m' :: ms => fieldText host m ++ 44 :: fieldsText m' ms

theorem text_str (s : String) : text host (.str s) = quotedText s := by
  have hquote : utf8 "\"" = [34] := by decide
  simp only [text, Doc.toLua, luaValueToJson, fromUtf8_utf8, utf8_append, hquote,
    utf8_escapeQuotes]
  rfl

theorem utf8_items (v : Doc) (vs : List Doc) :
    utf8 (",".intercalate (jsonItems host (luaItems (v :: vs)))) ++ [93] = itemsText host v vs := by
  have hcomma : utf8 "," = [44] := by decide
  induction vs generalizing v with
  | nil => simp [luaItems, jsonItems, itemsText, text]
  | cons w vs ih =>
    rw [luaItems, jsonItems, String.intercalate_cons_of_ne_nil (by simp [luaItems, jsonItems]),
      utf8_append, utf8_append, List.append_assoc, List.append_assoc, ih, hcomma, itemsText]
    rfl

theorem text_seq (v : Doc) (vs : List Doc) :
    text host (.seq v vs) = 91 :: itemsText host v vs := by
  have hopen : utf8 "[" = [91] := by decide
  have hclose : utf8 "]" = [93] := by decide
  rw [text, Doc.toLua, luaValueToJson, utf8_append, utf8_append, hopen, hclose, List.append_assoc,
    ← utf8_items]
  rfl

theorem utf8_fields (m : String × Doc) (ms : List (String × Doc)) :
    utf8 (",".intercalate (jsonPairs host (luaFields (m :: ms)))) ++ [125] =
      fieldsText host m ms := by
  have hcomma : utf8 "," = [44] := by decide
  have hcolon : utf8 ":" = [58] := by decide
  have hfield : ∀ m : String × Doc, utf8 (luaValueToJson host (.str (utf8 m.1)) ++ ":" ++
      luaValueToJson host m.2.toLua) = fieldText host m := by
    intro m
    have hkey := text_str host m.1
    simp only [text, Doc.toLua] at hkey
    rw [utf8_append, utf8_append, hkey, hcolon, fieldText, text]
    simp
  induction ms generalizing m with
  | nil =>
    obtain ⟨k, v⟩ := m
    rw [fieldsText, ← hfield (k, v)]
    simp [luaFields, jsonPairs]
  | cons m' ms ih =>
    obtain ⟨k, v⟩ := m
    have hm := hfield (k, v)
    rw [luaFields, jsonPairs, String.intercalate_cons_of_ne_nil (by simp [luaFields, jsonPairs]),
      utf8_append, utf8_append, List.append_assoc, List.append_assoc, ih, hcomma, hm, fieldsText]
    rfl

theorem text_map (m : String × Doc) (ms : List (String × Doc)) :
    text host (.map (m :: ms)) = 123 :: fieldsText host m ms := by
  have hopen : utf8 "\x7b" = [123] := by decide
  have hclose : utf8 "\x7d" = [125] := by decide
  rw [text, Doc.toLua, luaValueToJson, utf8_append, utf8_append, hopen, hclose, List.append_assoc,
    ← utf8_fields]
  rfl

theorem text_empty : text host (.map []) = [123, 125] := by
  have hboth : utf8 ("\x7b" ++ ",".intercalate [] ++ "\x7d") = [123, 125] := by decide
  rw [text, Doc.toLua, luaFields, luaValueToJson, jsonPairs, hboth]

end Texts

section Reading
open Json (Written Str Tree skip isNumberByte)

def Begins (t : Bytes) (v : Json.Value) (r : Bytes) : Prop :=
  ∃ x, Written .value t x r ∧ x.value = v

def BeginsItems (t : Bytes) (vs : List Json.Value) (r : Bytes) : Prop :=
  ∃ xs, Written .elements t (.arr xs) r ∧ Json.values xs = vs

def BeginsFields (t : Bytes) (ms : List (Bytes × Json.Value)) (r : Bytes) : Prop :=
  ∃ xs, Written .members t (.obj xs) r ∧ Json.memberValues xs = ms

/-- Text that may stand behind a number. -/
def Stops (r : Bytes) : Prop := ∀ b ∈ r.head?, isNumberByte b = false

variable (host : Host)

/-- What is written for a value is read as the value exactly if its texts are clean. -/
def Faithful (d : Doc) : Prop :=
  ∀ r r', Stops r → (Begins (text host d ++ r) d.toJson r' ↔ d.AllClean ∧ r' = r)

theorem str_quotedText {s : String} {t raw k r : Bytes} (h : Str (quotedText s ++ t) raw k r)
    (hk : k = utf8 s) : Clean s ∧ r = t := by
  subst hk
  rw [quotedText, List.cons_append, List.append_assoc] at h
  cases h with
  | mk h ht => exact Json.quoteEscaped_iff.mp h

theorem quotedText_str {s : String} (hs : Clean s) (t : Bytes) :
    Str (quotedText s ++ t) (Json.quoteEscaped (utf8 s)) (utf8 s) t := by
  rw [quotedText, List.cons_append, List.append_assoc]
  exact .mk (Json.quoteEscaped_iff.mpr ⟨hs, rfl⟩) rfl

theorem faithful_str (s : String) : Faithful host (.str s) := by
  intro r r' hr
  rw [text_str]
  constructor
  · rintro ⟨x, hw, hx⟩
    obtain ⟨raw, k, rfl, hk⟩ := hw.of_quote
    exact str_quotedText hk (Json.Value.str.inj hx)
  · rintro ⟨hs, rfl⟩
    exact ⟨_, .str (quotedText_str hs r'), rfl⟩

theorem faithful_int (n : ℤ) : Faithful host (.int n) := by
  have htext : text host (.int n) = utf8 (toString n) := by
    rw [text, Doc.toLua, luaValueToJson]
  have hread := readNumber_toString n
  intro r r' hr
  rw [htext]
  constructor
  · rintro ⟨x, hw, hx⟩
    obtain ⟨⟨b, u, hfirst, hb⟩, hall⟩ := Json.readNumber_bytes hread
    rw [hfirst] at hw hall
    obtain ⟨y, q, rfl, ht, hy, hr'⟩ := hw.of_number hb
    exact ⟨trivial, (Json.number_end hall (Json.readNumber_bytes hy).2 hr hr' ht).2.symm⟩
  · rintro ⟨-, rfl⟩
    exact ⟨_, .num rfl hread hr, rfl⟩

theorem faithful_bool (b : Bool) : Faithful host (.bool b) := by
  have htext : text host (.bool b) = utf8 (toString b) := by
    rw [text, Doc.toLua, luaValueToJson]
  intro r r' hr
  rw [htext]
  constructor
  · rintro ⟨x, hw, hx⟩
    exact ⟨trivial, hw.of_bool.2⟩
  · rintro ⟨-, rfl⟩
    exact ⟨_, .bool rfl, rfl⟩

theorem faithful_nil : Faithful host .nil := by
  have htext : text host .nil = utf8 "null" := by
    rw [text, Doc.toLua, luaValueToJson]
  intro r r' hr
  rw [htext]
  constructor
  · rintro ⟨x, hw, hx⟩
    exact ⟨trivial, hw.of_null.2⟩
  · rintro ⟨-, rfl⟩
    exact ⟨_, .null rfl, rfl⟩

theorem skip_text (d : Doc) (r : Bytes) : skip (text host d ++ r) = text host d ++ r := by
  have hfirst : ∃ b u, text host d = b :: u ∧ Json.isSpace b = false := by
    cases d with
    | str s => exact ⟨34, _, text_str host s, by decide⟩
    | int n =>
      obtain ⟨⟨b, u, h, hb⟩, -⟩ := Json.readNumber_bytes (readNumber_toString n)
      refine ⟨b, u, ?_, (Json.starts_byte (x := .num [] 0) hb).1⟩
      rw [text, Doc.toLua, luaValueToJson, h]
    | bool b => cases b <;> exact ⟨_, _, rfl, by decide⟩
    | nil => exact ⟨_, _, rfl, by decide⟩
    | seq v vs => exact ⟨91, _, text_seq host v vs, by decide⟩
    | map ms =>
      cases ms with
      | nil => exact ⟨123, _, text_empty host, by decide⟩
      | cons m ms => exact ⟨123, _, text_map host m ms, by decide⟩
  obtain ⟨b, u, h, hb⟩ := hfirst
  rw [h]
  exact Json.skip_cons hb

theorem stops_cons {b : UInt8} (hb : isNumberByte b = false) (r : Bytes) : Stops (b :: r) := by
  intro c hc
  obtain rfl := Option.some.inj hc
  exact hb

theorem items_iff {vs : List Doc} (r r' : Bytes) :
    ∀ {v : Doc}, (∀ w ∈ v :: vs, Faithful host w) →
      (BeginsItems (itemsText host v vs ++ r) (v.toJson :: jsonValues vs) r' ↔
        (v.AllClean ∧ itemsClean vs) ∧ r' = r) := by
  induction vs with
  | nil =>
    intro v hread
    have hv := hread v (by simp) (93 :: r)
    have htext : itemsText host v [] ++ r = text host v ++ 93 :: r := by
      rw [itemsText, List.append_assoc]
      rfl
    rw [htext]
    constructor
    · rintro ⟨xs, hw, hxs⟩
      cases hw with
      | lastElement hx hu =>
        rw [skip_text] at hx
        obtain ⟨hclean, rfl⟩ := (hv _ (stops_cons rfl r)).mp ⟨_, hx, (List.cons.inj hxs).1⟩
        exact ⟨⟨hclean, trivial⟩, (List.cons.inj hu).2.symm⟩
      | element hx hu h =>
        rw [skip_text] at hx
        obtain ⟨hclean, rfl⟩ := (hv _ (stops_cons rfl r)).mp ⟨_, hx, (List.cons.inj hxs).1⟩
        exact absurd (List.cons.inj hu).1 (by decide)
    · rintro ⟨⟨hclean, -⟩, rfl⟩
      obtain ⟨x, hx, hval⟩ := (hv _ (stops_cons rfl r')).mpr ⟨hclean, rfl⟩
      rw [← skip_text] at hx
      exact ⟨[x], .lastElement hx rfl, by rw [Json.values, Json.values, hval, jsonValues]⟩
  | cons w vs ih =>
    intro v hread
    have hv := hread v (by simp) (44 :: (itemsText host w vs ++ r))
    have hrest := ih (v := w) fun d hd => hread d (List.mem_cons_of_mem _ hd)
    have htext : itemsText host v (w :: vs) ++ r = text host v ++ 44 :: (itemsText host w vs ++ r) := by
      rw [itemsText, List.append_assoc]
      rfl
    rw [htext]
    constructor
    · rintro ⟨xs, hw, hxs⟩
      cases hw with
      | lastElement hx hu =>
        rw [skip_text] at hx
        obtain ⟨hclean, rfl⟩ := (hv _ (stops_cons rfl _)).mp ⟨_, hx, (List.cons.inj hxs).1⟩
        exact absurd (List.cons.inj hu).1 (by decide)
      | element hx hu h =>
        rw [skip_text] at hx
        obtain ⟨hclean, rfl⟩ := (hv _ (stops_cons rfl _)).mp ⟨_, hx, (List.cons.inj hxs).1⟩
        obtain rfl := (List.cons.inj hu).2
        obtain ⟨hitems, rfl⟩ := hrest.mp ⟨_, h, (List.cons.inj hxs).2⟩
        exact ⟨⟨hclean, hitems⟩, rfl⟩
    · rintro ⟨⟨hclean, hitems⟩, rfl⟩
      obtain ⟨x, hx, hval⟩ := (hv _ (stops_cons rfl _)).mpr ⟨hclean, rfl⟩
      obtain ⟨xs, hxs, hvals⟩ := hrest.mpr ⟨hitems, rfl⟩
      rw [← skip_text] at hx
      exact ⟨x :: xs, .element hx rfl hxs, by rw [Json.values, hval, hvals, jsonValues]⟩

theorem field_append (m : String × Doc) (t : Bytes) :
    fieldText host m ++ t = quotedText m.1 ++ 58 :: (text host m.2 ++ t) := by
  rw [fieldText, List.append_assoc]
  rfl

def BeginsField (t : Bytes) (m : Bytes × Json.Value) (r : Bytes) : Prop :=
  ∃ raw k t₁ t₂ x, Str (skip t) raw k t₁ ∧ skip t₁ = 58 :: t₂ ∧ Written .value (skip t₂) x r ∧
    k = m.1 ∧ x.value = m.2

theorem field_iff {m : String × Doc} (hm : Faithful host m.2) {r : Bytes} (hr : Stops r)
    (r' : Bytes) :
    BeginsField (fieldText host m ++ r) (utf8 m.1, m.2.toJson) r' ↔
      (Clean m.1 ∧ m.2.AllClean) ∧ r' = r := by
  have hkey : ∀ t : Bytes, skip (quotedText m.1 ++ t) = quotedText m.1 ++ t :=
    fun t => Json.skip_cons (by decide)
  have hcolon : ∀ t : Bytes, skip (58 :: t) = 58 :: t := fun t => Json.skip_cons (by decide)
  rw [field_append]
  constructor
  · rintro ⟨raw, k, t₁, t₂, x, hk, hc, hv, hname, hval⟩
    rw [hkey] at hk
    obtain ⟨hclean, rfl⟩ := str_quotedText hk hname
    rw [hcolon] at hc
    obtain rfl := (List.cons.inj hc).2
    rw [skip_text] at hv
    obtain ⟨hvalue, rfl⟩ := (hm r r' hr).mp ⟨x, hv, hval⟩
    exact ⟨⟨hclean, hvalue⟩, rfl⟩
  · rintro ⟨⟨hclean, hvalue⟩, rfl⟩
    obtain ⟨x, hv, hval⟩ := (hm r' r' hr).mpr ⟨hvalue, rfl⟩
    have hk := quotedText_str hclean (58 :: (text host m.2 ++ r'))
    rw [← hkey] at hk
    rw [← skip_text] at hv
    exact ⟨_, _, _, _, x, hk, hcolon _, hv, rfl, hval⟩

theorem fields_iff {ms : List (String × Doc)} (r r' : Bytes) :
    ∀ {m : String × Doc}, (∀ w ∈ m :: ms, Faithful host w.2) →
      (BeginsFields (fieldsText host m ms ++ r) (jsonMembers (m :: ms)) r' ↔
        fieldsClean (m :: ms) ∧ r' = r) := by
  induction ms with
  | nil =>
    rintro ⟨k, v⟩ hread
    have hm := field_iff host (hread (k, v) (by simp)) (stops_cons (b := 125) rfl r)
    have htext : fieldsText host (k, v) [] ++ r = fieldText host (k, v) ++ 125 :: r := by
      rw [fieldsText, List.append_assoc]
      rfl
    rw [htext]
    constructor
    · rintro ⟨xs, hw, hxs⟩
      cases hw with
      | lastMember hk hc hv hu =>
        obtain ⟨hname, hval⟩ := Prod.mk.inj (List.cons.inj hxs).1
        obtain ⟨hclean, rfl⟩ := (hm _).mp ⟨_, _, _, _, _, hk, hc, hv, hname, hval⟩
        exact ⟨⟨hclean, trivial⟩, (List.cons.inj hu).2.symm⟩
      | member hk hc hv hu h =>
        obtain ⟨hname, hval⟩ := Prod.mk.inj (List.cons.inj hxs).1
        obtain ⟨hclean, rfl⟩ := (hm _).mp ⟨_, _, _, _, _, hk, hc, hv, hname, hval⟩
        exact absurd (List.cons.inj hu).1 (by decide)
    · rintro ⟨⟨hclean, -⟩, rfl⟩
      obtain ⟨raw, k', t₁, t₂, x, hk, hc, hv, hname, hval⟩ := (hm _).mpr ⟨hclean, rfl⟩
      refine ⟨[(raw, k', x)], .lastMember hk hc hv rfl, ?_⟩
      rw [Json.memberValues, Json.memberValues, hname, hval]
      rfl
  | cons w ms ih =>
    rintro ⟨k, v⟩ hread
    have hm := field_iff host (hread (k, v) (by simp))
      (stops_cons (b := 44) rfl (fieldsText host w ms ++ r))
    have hrest := ih (m := w) fun d hd => hread d (List.mem_cons_of_mem _ hd)
    have htext : fieldsText host (k, v) (w :: ms) ++ r =
        fieldText host (k, v) ++ 44 :: (fieldsText host w ms ++ r) := by
      rw [fieldsText, List.append_assoc]
      rfl
    rw [htext]
    constructor
    · rintro ⟨xs, hw, hxs⟩
      cases hw with
      | lastMember hk hc hv hu =>
        obtain ⟨hname, hval⟩ := Prod.mk.inj (List.cons.inj hxs).1
        obtain ⟨hclean, rfl⟩ := (hm _).mp ⟨_, _, _, _, _, hk, hc, hv, hname, hval⟩
        exact absurd (List.cons.inj hu).1 (by decide)
      | member hk hc hv hu h =>
        obtain ⟨hname, hval⟩ := Prod.mk.inj (List.cons.inj hxs).1
        obtain ⟨hclean, rfl⟩ := (hm _).mp ⟨_, _, _, _, _, hk, hc, hv, hname, hval⟩
        obtain rfl := (List.cons.inj hu).2
        obtain ⟨hfields, rfl⟩ := hrest.mp ⟨_, h, (List.cons.inj hxs).2⟩
        exact ⟨⟨hclean, hfields⟩, rfl⟩
    · rintro ⟨⟨hclean, hfields⟩, rfl⟩
      obtain ⟨raw, k', t₁, t₂, x, hk, hc, hv, hname, hval⟩ := (hm _).mpr ⟨hclean, rfl⟩
      obtain ⟨xs, hxs, hvals⟩ := hrest.mpr ⟨hfields, rfl⟩
      refine ⟨(raw, k', x) :: xs, .member hk hc hv rfl hxs, ?_⟩
      rw [Json.memberValues, hname, hval, hvals]
      rfl

/-- What is written is read back as the value exactly if all its texts are clean. -/
theorem faithful (d : Doc) : Faithful host d := by
  induction d using Doc.induction with
  | str s => exact faithful_str host s
  | int n => exact faithful_int host n
  | bool b => exact faithful_bool host b
  | nil => exact faithful_nil host
  | seq v vs hv hvs =>
    intro r r' hr
    have hitems := items_iff host r r' (List.forall_mem_cons.mpr ⟨hv, hvs⟩)
    rw [text_seq]
    constructor
    · rintro ⟨x, hw, hx⟩
      rcases hw.of_bracket with ⟨rfl, -⟩ | ⟨xs, rfl, hxs⟩
      · simp [Tree.value, Json.values, Doc.toJson] at hx
      · exact hitems.mp ⟨xs, hxs, Json.Value.arr.inj hx⟩
    · intro h
      obtain ⟨xs, hxs, hvals⟩ := hitems.mpr h
      exact ⟨_, .arr hxs, by rw [Tree.value, hvals, Doc.toJson]⟩
  | map ms hms =>
    intro r r' hr
    cases ms with
    | nil =>
      rw [text_empty]
      constructor
      · rintro ⟨x, hw, hx⟩
        rcases hw.of_brace with ⟨rfl, hs⟩ | ⟨xs, rfl, hxs⟩
        · exact ⟨trivial, (List.cons.inj hs).2.symm⟩
        · exact absurd rfl hxs.members_ne
      · rintro ⟨-, rfl⟩
        exact ⟨_, .emptyObj rfl, rfl⟩
    | cons m ms =>
      have hfields := fields_iff host r r' hms
      rw [text_map]
      constructor
      · rintro ⟨x, hw, hx⟩
        rcases hw.of_brace with ⟨rfl, -⟩ | ⟨xs, rfl, hxs⟩
        · simp [Tree.value, Json.memberValues, Doc.toJson, jsonMembers] at hx
        · exact hfields.mp ⟨xs, hxs, Json.Value.obj.inj hx⟩
      · intro h
        obtain ⟨xs, hxs, hvals⟩ := hfields.mpr h
        exact ⟨_, .obj hxs, by rw [Tree.value, hvals, Doc.toJson]⟩

theorem stops_nil : Stops [] := by
  intro b hb
  simp at hb

/-- The text written for a value is JSON for the value exactly if no text in it holds a backslash
or a control character. -/
theorem encodes_iff (host : Host) (d : Doc) :
    Json.Decodes (utf8 (luaValueToJson host d.toLua)) d.toJson ↔ d.AllClean := by
  have hread := faithful host d []
  have hskip := skip_text host d []
  rw [List.append_nil] at hread hskip
  constructor
  · rintro ⟨x, ⟨-, r, hw, -⟩, hx⟩
    rw [← text, hskip] at hw
    exact ((hread r stops_nil).mp ⟨x, hw, hx⟩).1
  · intro h
    obtain ⟨x, hw, hx⟩ := (hread [] stops_nil).mpr ⟨h, rfl⟩
    rw [← hskip] at hw
    exact ⟨x, ⟨⟨_, rfl⟩, [], hw, rfl⟩, hx⟩

/-- A backslash is written as a string without an end. -/
theorem backslash_unreadable :
    ¬ ∃ v, Json.Decodes (utf8 (luaValueToJson Host.plain (Doc.str "\\").toLua)) v := by
  have htext : text Host.plain (.str "\\") = [34, 92, 34] := by
    rw [text_str]
    decide
  rintro ⟨v, x, ⟨-, r, hw, -⟩, -⟩
  rw [← text, htext] at hw
  obtain ⟨raw, k, rfl, hk⟩ := hw.of_quote (t := [92, 34])
  cases hk with
  | mk h ht =>
    cases h with
    | plain hb => exact hb.2.2 rfl
    | @escape _ p v u s r ht hp h =>
      -- the quote is read as an escaped one, and then nothing ends the string
      have hpu : [34] = p ++ u := (List.cons.inj ht).2
      have hu : u = [] := by
        cases hp with
        | short he => exact (List.cons.inj hpu).2.symm
        | unit hn hc => exact absurd (congrArg List.length hpu) (by simp)
        | pair => exact absurd (congrArg List.length hpu) (by simp)
      subst hu
      cases h with
      | escape ht => exact absurd ht (by simp)

end Reading

end LuaProxy.JsonEncode
