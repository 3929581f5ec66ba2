import LuaProxy.JsonNumbers
import LuaProxy.JsonText
import LuaProxy.JsonWords

/-! `parse_json_obj` against JSON: which members of an object it reads, and what else. -/
namespace LuaProxy.JsonAgreement
open Text Lua LuaPattern Jwt JsonScan JsonSegments JsonNumbers JsonParts JsonWords
open Json (Tree Document Written readNumber)

section Agreement

/-- The values that `parse_json_obj` is for. -/
def IsScalar : Json.Value → Prop
  | .str _ => True
  | .num _ => True
  | .bool _ => True
  | _ => False

def Shows : Json.Value → Value → Prop
  | .str s, .str t => t = s
  | .num q, .num n => exactNumber n = some q
  | .bool b, .bool c => c = b
  | _, _ => False

/-- The table that is read from the text has the strings, numbers and booleans among the members,
and no other key. -/
structure Agrees (t : Bytes) (ms : List (Bytes × Json.Value)) : Prop where
  members : ∀ m ∈ ms, IsScalar m.2 → Shows m.2 ((parseJsonObj t).get m.1)
  keys : ∀ k, (parseJsonObj t).get k ≠ .nil → ∃ m ∈ ms, m.1 = k ∧ IsScalar m.2

/-- The numbers with a name, at any depth, each up to its exponent. -/
def numbersNamed (k : Bytes) (ms : List (Bytes × Bytes × Tree)) : List Bytes :=
  named Look.asNumber k (words (.obj ms))

/-- The strings with a name, at any depth, each up to its first quote. -/
def stringsNamed (k : Bytes) (ms : List (Bytes × Bytes × Tree)) : List Bytes :=
  named Look.asString k (words (.obj ms))

/-- Members that are read as they are, and nothing else. -/
structure Legible (ms : List (Bytes × Bytes × Tree)) : Prop where
  bools : ∀ m ∈ ms, ∀ b, m.2.2 ≠ .bool b
  /-- No number has the name of a string, at any depth, and the last string of its name is it. -/
  strings : ∀ m ∈ ms, ∀ raw s, m.2.2 = .str raw s →
    numbersNamed m.2.1 ms = [] ∧ (stringsNamed m.2.1 ms).getLast? = some s
  /-- The last number of its name is it, as Lua reads numbers without exponents. -/
  numbers : ∀ m ∈ ms, ∀ x q, m.2.2 = .num x q →
    (numbersNamed m.2.1 ms).getLast?.bind luaNumber = some q
  /-- Further down there are no other names. -/
  names : ∀ k, numbersNamed k ms ≠ [] ∨ stringsNamed k ms ≠ [] →
    ∃ m ∈ ms, m.2.1 = k ∧ IsScalar m.2.2.value

/-- The number that `tonumber` makes of a text. -/
def tonumberExact (y : Bytes) : Option ℚ := (tonumber y).bind exactNumber

/-- Members that are what the parts of their text show, and all of it. -/
structure Readable (f : Found) (ms : List (Bytes × Bytes × Tree)) : Prop where
  /-- No member is a boolean, but for a false one that `true|false` stands for. -/
  bools : ∀ m ∈ ms, ∀ b, m.2.2 = .bool b → b = false ∧ lastOf m.2.1 f.flags ≠ none
  /-- The last string of its name is the same, and the name has nothing else. -/
  strings : ∀ m ∈ ms, ∀ raw s, m.2.2 = .str raw s →
    lastOf m.2.1 f.flags = none ∧ lastOf m.2.1 f.numbers = none ∧ lastOf m.2.1 f.strings = some s
  /-- The last number of its name is the same. -/
  numbers : ∀ m ∈ ms, ∀ x q, m.2.2 = .num x q →
    lastOf m.2.1 f.flags = none ∧ (lastOf m.2.1 f.numbers).bind tonumberExact = some q
  /-- Every name is that of such a member, or its last number is none. -/
  names : ∀ k, lastOf k f.flags ≠ none ∨ lastOf k f.numbers ≠ none ∨ lastOf k f.strings ≠ none →
    (∃ m ∈ ms, m.2.1 = k ∧ IsScalar m.2.2.value) ∨
      lastOf k f.flags = none ∧ ∃ y, lastOf k f.numbers = some y ∧ tonumber y = none

end Agreement

section Reading
variable {t : Bytes} {ms : List (Bytes × Bytes × Tree)}

/-- What is read at a name: false, or else its last number, or else its last string. -/
theorem get_cases (t k : Bytes) :
    (lastOf k (found t).flags ≠ none ∧ (parseJsonObj t).get k = .bool false) ∨
    (lastOf k (found t).flags = none ∧ ∃ y, lastOf k (found t).numbers = some y ∧
      (parseJsonObj t).get k = numeral y) ∨
    (lastOf k (found t).flags = none ∧ lastOf k (found t).numbers = none ∧
      (parseJsonObj t).get k = ((lastOf k (found t).strings).map Value.str).getD .nil) := by
  rw [parseJsonObj_found, Found.get]
  cases hb : lastOf k (found t).flags with
  | some v => exact Or.inl ⟨by simp, bool_value hb⟩
  | none =>
    cases hn : lastOf k (found t).numbers with
    | some y => exact Or.inr (Or.inl ⟨rfl, y, rfl, rfl⟩)
    | none => exact Or.inr (Or.inr ⟨rfl, rfl, rfl⟩)

theorem numeral_nil {y : Bytes} : numeral y = .nil ↔ tonumber y = none := by
  unfold numeral
  cases tonumber y <;> simp

theorem shows_numeral {v : Json.Value} {y : Bytes} :
    Shows v (numeral y) ↔ ∃ q, v = .num q ∧ tonumberExact y = some q := by
  unfold numeral tonumberExact
  cases tonumber y <;> cases v <;> simp [Shows]

theorem shows_string {v : Json.Value} {o : Option Bytes} :
    Shows v ((o.map Value.str).getD .nil) ↔ ∃ s, v = .str s ∧ o = some s := by
  cases o <;> cases v <;> simp [Shows]

theorem shows_false {v : Json.Value} : Shows v (.bool false) ↔ v = .bool false := by
  cases v <;> simp [Shows, eq_comm]

theorem shows_bool (t k : Bytes) (b : Bool) :
    Shows (.bool b) ((parseJsonObj t).get k) ↔ b = false ∧ lastOf k (found t).flags ≠ none := by
  rcases get_cases t k with ⟨hb, hget⟩ | ⟨hb, y, -, hget⟩ | ⟨hb, -, hget⟩
  · simp [hget, shows_false, hb]
  · simp [hget, shows_numeral, hb]
  · simp [hget, shows_string, hb]

theorem shows_num (t k : Bytes) (q : ℚ) :
    Shows (.num q) ((parseJsonObj t).get k) ↔
      lastOf k (found t).flags = none ∧ (lastOf k (found t).numbers).bind tonumberExact = some q := by
  rcases get_cases t k with ⟨hb, hget⟩ | ⟨hb, y, hy, hget⟩ | ⟨hb, hn, hget⟩
  · simp [hget, shows_false, hb]
  · simp [hget, shows_numeral, hb, hy]
  · simp [hget, shows_string, hb, hn]

theorem shows_str (t k s : Bytes) :
    Shows (.str s) ((parseJsonObj t).get k) ↔ lastOf k (found t).flags = none ∧
      lastOf k (found t).numbers = none ∧ lastOf k (found t).strings = some s := by
  rcases get_cases t k with ⟨hb, hget⟩ | ⟨hb, y, hy, hget⟩ | ⟨hb, hn, hget⟩
  · simp [hget, shows_false, hb]
  · simp [hget, shows_numeral, hb, hy]
  · simp [hget, shows_string, hb, hn]

theorem get_ne_nil (t k : Bytes) :
    (parseJsonObj t).get k ≠ .nil ↔
      (lastOf k (found t).flags ≠ none ∨ lastOf k (found t).numbers ≠ none ∨
        lastOf k (found t).strings ≠ none) ∧
      ¬ (lastOf k (found t).flags = none ∧
        ∃ y, lastOf k (found t).numbers = some y ∧ tonumber y = none) := by
  rcases get_cases t k with ⟨hb, hget⟩ | ⟨hb, y, hy, hget⟩ | ⟨hb, hn, hget⟩
  · simp [hget, hb]
  · simp [hget, hb, hy, numeral_nil]
  · cases hs : lastOf k (found t).strings <;> simp [hget, hb, hn, hs]

theorem memberValues_map (ms : List (Bytes × Bytes × Tree)) :
    Json.memberValues ms = ms.map fun m => (m.2.1, m.2.2.value) := by
  induction ms with
  | nil => simp only [Json.memberValues, List.map_nil]
  | cons m ms ih =>
    obtain ⟨raw, k, v⟩ := m
    simp only [Json.memberValues, List.map_cons, ih]

theorem agrees_iff_readable (t : Bytes) (ms : List (Bytes × Bytes × Tree)) :
    Agrees t (Json.memberValues ms) ↔ Readable (found t) ms := by
  rw [memberValues_map]
  constructor
  · intro h
    have hmember : ∀ m ∈ ms, IsScalar m.2.2.value →
        Shows m.2.2.value ((parseJsonObj t).get m.2.1) := fun m hm =>
      h.members (m.2.1, m.2.2.value) (List.mem_map_of_mem hm)
    constructor
    · intro m hm b hb
      have hshows := hmember m hm (by simp [hb, Tree.value, IsScalar])
      rwa [hb, Tree.value, shows_bool] at hshows
    · intro m hm raw s hs
      have hshows := hmember m hm (by simp [hs, Tree.value, IsScalar])
      rwa [hs, Tree.value, shows_str] at hshows
    · intro m hm x q hx
      have hshows := hmember m hm (by simp [hx, Tree.value, IsScalar])
      rwa [hx, Tree.value, shows_num] at hshows
    · intro k hk
      by_cases hkept : (parseJsonObj t).get k = .nil
      · exact Or.inr (not_not.mp fun hlost => (get_ne_nil t k).mpr ⟨hk, hlost⟩ hkept)
      · obtain ⟨p, hp, rfl, hscalar⟩ := h.keys k hkept
        obtain ⟨m, hm, rfl⟩ := List.mem_map.mp hp
        exact Or.inl ⟨m, hm, rfl, hscalar⟩
  · intro h
    constructor
    · rintro p hp hscalar
      obtain ⟨m, hm, rfl⟩ := List.mem_map.mp hp
      cases hv : m.2.2 with
      | bool b => exact (shows_bool t m.2.1 b).mpr (h.bools m hm b hv)
      | str raw s => exact (shows_str t m.2.1 s).mpr (h.strings m hm raw s hv)
      | num x q => exact (shows_num t m.2.1 q).mpr (h.numbers m hm x q hv)
      | null => simp [hv, Tree.value, IsScalar] at hscalar
      | arr vs => simp [hv, Tree.value, IsScalar] at hscalar
      | obj ns => simp [hv, Tree.value, IsScalar] at hscalar
    · intro k hk
      obtain ⟨hfound, hkept⟩ := (get_ne_nil t k).mp hk
      obtain ⟨m, hm, rfl, hscalar⟩ := (h.names k hfound).resolve_right hkept
      exact ⟨_, List.mem_map_of_mem hm, rfl, hscalar⟩

end Reading

section Members
variable {t : Bytes} {ms : List (Bytes × Bytes × Tree)}

theorem tonumber_numbersNamed (hdoc : Document t (.obj ms)) {k y : Bytes}
    (h : y ∈ numbersNamed k ms) : ∃ n, tonumber y = some n ∧ exactNumber n = luaNumber y := by
  obtain ⟨-, r, hwritten, -⟩ := hdoc
  obtain ⟨w, hw, -, hy⟩ := mem_named h
  obtain ⟨x, q, hx, rfl⟩ := words_number hwritten hw hy
  exact tonumber_mantissa hx

/-- Undisturbed members are found at any depth, and nothing else. -/
theorem found_undisturbed (hdoc : Document t (.obj ms)) (h : Undisturbed ms) (k : Bytes) :
    lastOf k (found t).flags = none ∧ lastOf k (found t).numbers = (numbersNamed k ms).getLast? ∧
      lastOf k (found t).strings = (stringsNamed k ms).getLast? := by
  rw [found_clear (lays_document hdoc) h, lastOf_sightings, lastOf_sightings]
  exact ⟨rfl, rfl, rfl⟩

theorem readable_iff_legible (hdoc : Document t (.obj ms)) (h : Undisturbed ms) :
    Readable (found t) ms ↔ Legible ms := by
  have hflags : ∀ k, lastOf k (found t).flags = none := fun k => (found_undisturbed hdoc h k).1
  have hnumbers : ∀ k, lastOf k (found t).numbers = (numbersNamed k ms).getLast? :=
    fun k => (found_undisturbed hdoc h k).2.1
  have hstrings : ∀ k, lastOf k (found t).strings = (stringsNamed k ms).getLast? :=
    fun k => (found_undisturbed hdoc h k).2.2
  have hexact : ∀ k, (numbersNamed k ms).getLast?.bind tonumberExact =
      (numbersNamed k ms).getLast?.bind luaNumber := by
    intro k
    cases hy : (numbersNamed k ms).getLast? with
    | none => rfl
    | some y =>
      obtain ⟨n, hn, hexact⟩ := tonumber_numbersNamed hdoc (List.mem_of_getLast? hy)
      simp [tonumberExact, hn, hexact]
  have hread : ∀ k, ¬ ∃ y, (numbersNamed k ms).getLast? = some y ∧ tonumber y = none := by
    rintro k ⟨y, hy, hnone⟩
    obtain ⟨n, hn, -⟩ := tonumber_numbersNamed hdoc (List.mem_of_getLast? hy)
    simp [hn] at hnone
  constructor
  · rintro ⟨hb, hs, hn, hk⟩
    simp only [hflags, hnumbers, hstrings, hexact, hread, ne_eq, not_true_eq_false, false_or,
      and_false, or_false, true_and, List.getLast?_eq_none_iff] at hb hs hn hk
    exact ⟨fun m hm b hv => hb m hm b hv, hs, hn, hk⟩
  · rintro ⟨hb, hs, hn, hk⟩
    refine ⟨fun m hm b hv => absurd hv (hb m hm b), ?_, ?_, ?_⟩
    · simpa only [hflags, hnumbers, hstrings, List.getLast?_eq_none_iff, true_and] using hs
    · simpa only [hflags, hnumbers, hexact, true_and] using hn
    · intro k hfound
      simp only [hflags, hnumbers, hstrings, ne_eq, not_true_eq_false, false_or,
        List.getLast?_eq_none_iff] at hfound
      exact Or.inl (hk k hfound)

end Members

section Override

def roleText : Bytes :=
  utf8 "\x7b\"role\":\"user\",\"exp\":7,\"act\":\x7b\"role\":\"admin\"\x7d\x7d"

def roleMembers : List (Bytes × Bytes × Tree) :=
  [(utf8 "role", utf8 "role", .str (utf8 "user") (utf8 "user")),
    (utf8 "exp", utf8 "exp", .num (utf8 "7") 7),
    (utf8 "act", utf8 "act",
      .obj [(utf8 "role", utf8 "role", .str (utf8 "admin") (utf8 "admin"))])]

theorem roleText_plain :
    ∀ s ∈ ["role", "user", "exp", "act", "admin"], ∀ b ∈ utf8 s, Json.Unescaped b := by
  have hall : ∀ s ∈ ["role", "user", "exp", "act", "admin"],
      (utf8 s).all (fun b => decide (Json.Unescaped b)) = true := by decide
  exact fun s hs => forall_mem_bytes (hall s hs)

theorem readNumber_seven : readNumber (utf8 "7") = some (7, []) := by
  have h := @Json.readNumber_digits (utf8 "7") 7 (by decide) (by decide)
  exact_mod_cast h

theorem roleDocument : Document roleText (.obj roleMembers) := by
  have hstr : ∀ s ∈ ["role", "user", "exp", "act", "admin"], ∀ r,
      Json.Str (34 :: (utf8 s ++ 34 :: r)) (utf8 s) (utf8 s) r :=
    fun s hs r => .of_plain (roleText_plain s hs) r
  have hinner : Written .value
      (123 :: 34 :: (utf8 "role" ++ 34 :: 58 :: 34 :: (utf8 "admin" ++ [34, 125, 125])))
      (.obj [(utf8 "role", utf8 "role", .str (utf8 "admin") (utf8 "admin"))]) [125] :=
    .obj (.lastMember (hstr "role" (by decide) _) rfl (.str (hstr "admin" (by decide) _)) rfl)
  have hexp : ∀ r : Bytes, Written .value (utf8 "7" ++ 44 :: r) (.num (utf8 "7") 7) (44 :: r) := by
    intro r
    exact .num rfl readNumber_seven (by simp [Json.isNumberByte, Json.isDigit])
  have houter : Written .value roleText (.obj roleMembers) [] :=
    .obj (.member (hstr "role" (by decide) _) rfl (.str (hstr "user" (by decide) _)) rfl
      (.member (hstr "exp" (by decide) _) rfl (hexp _) rfl
        (.lastMember (hstr "act" (by decide) _) rfl hinner rfl)))
  exact ⟨⟨_, rfl⟩, [], houter, rfl⟩

def plainText : Bytes := utf8 "\x7b\"role\":\"user\",\"exp\":7\x7d"

def plainMembers : List (Bytes × Bytes × Tree) :=
  [(utf8 "role", utf8 "role", .str (utf8 "user") (utf8 "user")),
    (utf8 "exp", utf8 "exp", .num (utf8 "7") 7)]

theorem plainDocument : Document plainText (.obj plainMembers) := by
  have hstr : ∀ s ∈ ["role", "user", "exp"], ∀ r, Json.Str (34 :: (utf8 s ++ 34 :: r)) (utf8 s) (utf8 s) r :=
    fun s hs r => .of_plain (roleText_plain s (by simp at hs ⊢; tauto)) r
  have hexp : ∀ r : Bytes, Written .value (utf8 "7" ++ 125 :: r) (.num (utf8 "7") 7) (125 :: r) := by
    intro r
    exact .num rfl readNumber_seven (by simp [Json.isNumberByte, Json.isDigit])
  have hobject : Written .value plainText (.obj plainMembers) [] :=
    .obj (.member (hstr "role" (by decide) _) rfl (.str (hstr "user" (by decide) _)) rfl
      (.lastMember (hstr "exp" (by decide) _) rfl (hexp _) rfl))
  exact ⟨⟨_, rfl⟩, [], hobject, rfl⟩

theorem plain_legible : Legible plainMembers := by
  have hnumber : luaNumber (utf8 "7") = some 7 := by
    have hpoint : (46 : UInt8) ∉ utf8 "7" := by decide
    rw [luaNumber, readNumber_seven]
    simp only [Option.bind_eq_bind, Option.bind_some, if_pos (show 46 ∉ utf8 "7" ∧ (-2 ^ 63 : ℚ) ≤ 7 ∧
      (7 : ℚ) < 2 ^ 63 from ⟨hpoint, by norm_num, by norm_num⟩)]
  refine ⟨?_, ?_, ?_, ?_⟩
  · simp [plainMembers]
  · intro m hm raw s hv
    obtain rfl | rfl : m = _ ∨ m = _ := by simpa [plainMembers] using hm
    · obtain ⟨-, rfl⟩ := Tree.str.inj hv
      decide
    · simp at hv
  · intro m hm x q hv
    obtain rfl | rfl : m = _ ∨ m = _ := by simpa [plainMembers] using hm
    · simp at hv
    · obtain ⟨-, rfl⟩ := Tree.num.inj hv
      rw [show (numbersNamed (utf8 "exp") plainMembers).getLast? = some (utf8 "7") by decide]
      exact hnumber
  · intro k hk
    have hword : ∃ w ∈ words (.obj plainMembers), seenName w.raw = k ∧ w.look ≠ .other := by
      rcases hk with hk | hk
      · obtain ⟨y, hy⟩ := List.exists_mem_of_ne_nil _ hk
        obtain ⟨w, hw, hname, hy⟩ := mem_named hy
        exact ⟨w, hw, hname, fun hlook => by simp [hlook, Look.asNumber] at hy⟩
      · obtain ⟨y, hy⟩ := List.exists_mem_of_ne_nil _ hk
        obtain ⟨w, hw, hname, hy⟩ := mem_named hy
        exact ⟨w, hw, hname, fun hlook => by simp [hlook, Look.asString] at hy⟩
    obtain ⟨w, hw, rfl, hlook⟩ := hword
    have hnames : ∀ w ∈ words (.obj plainMembers), w.look ≠ .other →
        ∃ m ∈ plainMembers, m.2.1 = seenName w.raw := by decide
    obtain ⟨m, hm, hname⟩ := hnames w hw hlook
    refine ⟨m, hm, hname, ?_⟩
    obtain rfl | rfl : m = _ ∨ m = _ := by simpa [plainMembers] using hm
    · trivial
    · trivial

end Override

end LuaProxy.JsonAgreement
