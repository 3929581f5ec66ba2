import LuaProxy.JsonMembers
import LuaProxy.JwtToken
import LuaProxy.Numeral

/-! Tokens that `jwt.sign` makes and `jwt.verify` reads back. -/
namespace LuaProxy.JwtRoundTrip
open Text Lua LuaPattern Context EngineCodec HookMonad Jwt JwtCodec JwtFormat JwtToken
  JsonScan JsonParts JsonMembers Numeral

/-- The values of the claims: strings, 64-bit integers and booleans. -/
inductive Claim
  | str (s : Bytes)
  | int (n : Int64)
  | bool (b : Bool)
  deriving DecidableEq

def Claim.value : Claim → Value
  | .str s => .str s
  | .int n => .num (.int n.toInt)
  | .bool b => .bool b

/-- A claims table in the order in which `pairs` runs through it. -/
structure Claims where
  entries : AList fun _ : Bytes => Claim
  key_ne : ∀ k ∈ entries.keys, k ≠ []

abbrev Entry := Sigma fun _ : Bytes => Claim

namespace Claims

def table (c : Claims) : Value :=
  .table [] (c.entries.entries.map fun e => (.str e.1, e.2.value))

def get (c : Claims) (k : Bytes) : Value := ((c.entries.lookup k).map Claim.value).getD .nil

end Claims

/-- Signing and verifying gives back the claims, every key with its value and no other. -/
def RoundTrips (host : Host) (secret : Bytes) (c : Claims) (now now' : ℤ) : Prop :=
  ∃ token claims, sign host c.table secret = .ok token ∧
    verify host token secret now now' = .ok (.ok claims) ∧ ∀ k, claims.get k = c.get k

/-- The clock is inside the window of the claims, if they have one. -/
structure InWindow (c : Claims) (now now' : ℤ) : Prop where
  exp : ∀ v ∈ c.entries.lookup (utf8 "exp"), ∃ n, v = .int n ∧ now ≤ n.toInt
  nbf : ∀ v ∈ c.entries.lookup (utf8 "nbf"), ∃ n, v = .int n ∧ n.toInt ≤ now'

section Payload

def Claim.width : Claim → ℕ
  | .str s => s.length + 2
  | .int n => (utf8 (toString n.toInt)).length
  | .bool b => if b then 4 else 5

/-- A member has two quotes and a colon, and a comma or brace after it. -/
def memberLength (e : Entry) : ℕ := e.1.length + 4 + e.2.width

def Claims.payloadLength (c : Claims) : ℕ := 1 + (c.entries.entries.map memberLength).sum

/-- The digits, points and minus signs that a string has behind a colon at its start. -/
def numberText (e : Entry) : Option Bytes :=
  match e.2 with
  | .str s => (afterColon s).bind numberRun
  | _ => none

/-- A string that no pattern takes for a colon and a literal. -/
def Mute (e : Entry) : Prop :=
  ∀ s, e.2 = .str s → (afterColon s).bind JsonScan.boolText = none ∧ (afterColon s).bind numberRun = none

/-- A key that may stand behind a value: after an integer it may read like a colon and a number,
and after a string like a colon alone. -/
structure Follows (v : Claim) (k : Bytes) : Prop where
  flag : (afterColon k).bind boolText = none
  number : (∃ n, v = .int n) ∨ (afterColon k).bind numberRun = none
  colon : (∃ s, v = .str s) ∨ afterColon k ≠ some []

/-- No key is taken for what stands between a key and its value. -/
structure Undisturbed (c : Claims) : Prop where
  keys : c.entries.entries.IsChain fun e e' => Follows e.2 e'.1
  /-- A colon is the name of no key, or of nothing else. -/
  colon : [58] ∈ c.entries.keys → ∀ e ∈ c.entries.entries, Mute e

/-- The claims that survive: texts without quotes, no booleans, a payload whose last group
is not two bytes long, and no string that reads like a colon and a literal. -/
structure Survives (secret : Bytes) (c : Claims) : Prop where
  secret : ValidUtf8 secret
  key : ∀ e ∈ c.entries.entries, ValidUtf8 e.1 ∧ QuoteFree e.1
  str : ∀ k s, ⟨k, .str s⟩ ∈ c.entries.entries → ValidUtf8 s ∧ QuoteFree s
  noBool : ∀ k b, ⟨k, .bool b⟩ ∉ c.entries.entries
  length : c.entries.entries = [] ∨ c.payloadLength % 3 ≠ 2
  boolText : ∀ k s, ⟨k, .str s⟩ ∈ c.entries.entries → (afterColon s).bind boolText = none
  numberText : ∀ v ∈ (c.entries.entries.filterMap numberText).getLast?, tonumber v = none

def written : Claim → Written
  | .str s => .text s
  | .int n => .bare (utf8 (toString n.toInt))
  | .bool b => .bare (utf8 (toString b))

def member (gap : Bytes) (e : Entry) : Member := ⟨e.1, [], [], written e.2, gap⟩

def Clean (e : Entry) : Prop :=
  (ValidUtf8 e.1 ∧ QuoteFree e.1) ∧ ∀ s, e.2 = .str s → ValidUtf8 s ∧ QuoteFree s

/-- The payload as far as it is read, cut at its quotes. -/
def Claims.segmentsRead (c : Claims) : List Bytes :=
  match c.entries.entries.getLast? with
  | none => []
  | some e => (c.entries.entries.dropLast.map (member [44])).flatMap Member.segments ++
      if c.payloadLength % 3 = 2 then (member [] e).cutSegments
      else (member (if c.payloadLength % 3 = 0 then [125] else []) e).segments

/-- The claims are what the parts of their payload show. -/
structure Shown (secret : Bytes) (c : Claims) : Prop where
  secret : ValidUtf8 secret
  clean : ∀ e ∈ c.entries.entries, Clean e
  read : ∀ k, (shown (c.segmentsRead.map Part.plain)).get k = c.get k

end Payload

section Encode

variable (host : Host)

theorem escapeQuotes_eq {s : String} (h : QuoteFree (utf8 s)) : escapeQuotes s = s := by
  have hs : utf8 s = s.toList.flatMap String.utf8EncodeChar := by
    rw [← utf8_ofList, String.ofList_toList]
  have hc : ∀ c ∈ s.toList, c ≠ '"' := by
    rintro c hc rfl
    have h34 : (34 : UInt8) ∈ String.utf8EncodeChar '"' := by decide
    exact h 34 (hs ▸ List.mem_flatMap.mpr ⟨'"', hc, h34⟩) rfl
  have hmap : s.toList.flatMap (fun c => if c = '"' then ['\\', '"'] else [c]) = s.toList := by
    generalize s.toList = cs at hc
    induction cs with
    | nil => rfl
    | cons c cs ih =>
      rw [List.flatMap_cons, ih fun x hx => hc x (by simp [hx]), if_neg (hc c (by simp))]
      rfl
  rw [escapeQuotes, hmap, String.ofList_toList]

theorem utf8_json_str {s : Bytes} (hv : ValidUtf8 s) (hq : QuoteFree s) :
    utf8 (luaValueToJson host (.str s)) = 34 :: (s ++ [34]) := by
  have hquote : utf8 "\"" = [34] := by decide
  obtain ⟨t, rfl⟩ := hv
  simp only [luaValueToJson, fromUtf8_utf8, utf8_append, hquote, escapeQuotes_eq hq]
  rfl

def entryJson (e : Entry) : String :=
  luaValueToJson host (.str e.1) ++ ":" ++ luaValueToJson host e.2.value

theorem utf8_entryJson {e : Entry} (he : Clean e) (gap : Bytes) :
    utf8 (entryJson host e) = (member gap e).body := by
  have hcolon : utf8 ":" = [58] := by decide
  obtain ⟨⟨hkv, hkq⟩, hs⟩ := he
  rw [entryJson, utf8_append, utf8_append, utf8_json_str host hkv hkq, hcolon]
  obtain ⟨k, v⟩ := e
  cases v with
  | str s =>
    obtain ⟨hv, hq⟩ := hs s rfl
    have hj := utf8_json_str host hv hq
    simp only [Claim.value, hj]
    simp [member, Member.body, Member.colon, written]
  | int n => simp [Claim.value, luaValueToJson, member, Member.body, Member.colon, written]
  | bool b => simp [Claim.value, luaValueToJson, member, Member.body, Member.colon, written]

theorem jsonPairs_eq (es : List Entry) :
    jsonPairs host (es.map fun e => (.str e.1, e.2.value)) = es.map (entryJson host) := by
  induction es with
  | nil => rfl
  | cons e es ih => rw [List.map_cons, jsonPairs, ih, List.map_cons, entryJson]

theorem utf8_intercalate (xs : List String) (x : String) :
    utf8 (",".intercalate (xs ++ [x])) = xs.flatMap (fun t => utf8 t ++ [44]) ++ utf8 x := by
  have hcomma : utf8 "," = [44] := by decide
  induction xs with
  | nil => simp
  | cons y xs ih =>
    rw [List.cons_append, String.intercalate_cons_of_ne_nil (by simp), utf8_append, utf8_append, ih,
      hcomma]
    simp

/-- The payload of claims with a last entry: the braces, and the members between them. -/
theorem utf8_table {es : List Entry} {e : Entry} (hes : ∀ x ∈ es, Clean x) (he : Clean e)
    (gap : Bytes) :
    utf8 (luaValueToJson host (.table [] ((es ++ [e]).map fun e => (.str e.1, e.2.value)))) =
      [123] ++ quoted ((es.map (member [44])).flatMap Member.segments) ++ (member gap e).body ++
        [125] := by
  have hopen : utf8 "\x7b" = [123] := by decide
  have hclose : utf8 "\x7d" = [125] := by decide
  have hmembers : (es.map (entryJson host)).flatMap (fun t => utf8 t ++ [44]) =
      quoted ((es.map (member [44])).flatMap Member.segments) := by
    induction es with
    | nil => rfl
    | cons x es ih =>
      have hx := utf8_entryJson host (hes x (by simp)) [44]
      have hseg := (member [44] x).quoted_segments
      simp only [List.map_cons, List.flatMap_cons, quoted, List.flatMap_append] at ih hseg ⊢
      rw [ih fun y hy => hes y (by simp [hy]), hseg, hx]
      rfl
  rw [luaValueToJson, jsonPairs_eq, utf8_append, utf8_append, List.map_append, List.map_singleton,
    utf8_intercalate, hmembers, hopen, hclose, utf8_entryJson host he gap]
  simp only [List.append_assoc]

end Encode

section Members

/-- The texts after a member of the payload: a comma, a brace, or nothing. -/
def Gap (gap : Bytes) : Prop := gap = [44] ∨ gap = [125] ∨ gap = []

theorem Gap.facts {gap : Bytes} (h : Gap gap) :
    afterColon gap = none ∧ QuoteFree gap ∧ gap.takeWhile numberClass.test = [] := by
  have hall : ∀ g ∈ [[44], [125], []], afterColon g = none ∧ (∀ b ∈ g, b ≠ 34) ∧
      g.takeWhile numberClass.test = [] := by decide +kernel
  exact hall gap (by rcases h with rfl | rfl | rfl <;> simp)

theorem number_byte {b : UInt8} (h : isDigit b = true ∨ b = 45) :
    numberClass.test b = true ∧ b ≠ 34 ∧ b ≠ 116 ∧ b < 128 ∧ Single.space.test b = false := by
  have hall : ∀ b, (isDigit b = true ∨ b = 45) → numberClass.test b = true ∧ b ≠ 34 ∧ b ≠ 116 ∧
      b < 128 ∧ Single.space.test b = false := forall_byte (by decide +kernel)
  exact hall b h

theorem literal_ascii {gap x : Bytes} (e : Entry) (hx : (member gap e).value = .bare x) :
    Ascii x := by
  obtain ⟨k, v⟩ := e
  cases v with
  | str s => simp [member, written] at hx
  | int n =>
    obtain rfl : utf8 (toString n.toInt) = x := by simpa [member, written] using hx
    exact fun b hb => (number_byte (mem_toString hb)).2.2.2.1
  | bool b =>
    obtain rfl : utf8 (toString b) = x := by simpa [member, written] using hx
    have hall : ∀ b : Bool, Ascii (utf8 (toString b)) := by decide +kernel
    exact hall b

theorem bool_literal (b : Bool) (gap : Bytes) (h : Gap gap) :
    utf8 (toString b) ≠ [] ∧ (∀ x ∈ utf8 (toString b), x ≠ 34 ∧ Single.space.test x = false) ∧
      numberRun (utf8 (toString b) ++ gap) = none ∧ boolText (utf8 (toString b) ++ gap) = none ∧
      numberRun (utf8 (toString b)).dropLast = none ∧ boolText (utf8 (toString b)).dropLast = none := by
  have hall : ∀ b : Bool, ∀ g ∈ [[44], [125], []], utf8 (toString b) ≠ [] ∧
      (∀ x ∈ utf8 (toString b), x ≠ 34 ∧ Single.space.test x = false) ∧
      numberRun (utf8 (toString b) ++ g) = none ∧ boolText (utf8 (toString b) ++ g) = none ∧
      numberRun (utf8 (toString b)).dropLast = none ∧
      boolText (utf8 (toString b)).dropLast = none := by decide +kernel
  exact hall b gap (by rcases h with rfl | rfl | rfl <;> simp)

theorem member_wellFormed {e : Entry} (he : Clean e) (hk : e.1 ≠ []) {gap : Bytes}
    (hg : Gap gap) : (member gap e).WellFormed where
  name_ne := hk
  before_blank := by simp [member, Blank]
  after_blank := by simp [member, Blank]
  gap_plain := hg.facts.1
  quoteFree := by
    have hcolon : QuoteFree (member gap e).colon := by simp [member, Member.colon, QuoteFree]
    refine Member.segments_quoteFree he.1.2 hcolon ?_ hg.facts.2.1
    obtain ⟨k, v⟩ := e
    intro s hs
    cases v with
    | str t =>
      obtain rfl : t = s := by simpa [member, written] using hs
      exact (he.2 t rfl).2
    | int n =>
      obtain rfl : utf8 (toString n.toInt) = s := by simpa [member, written] using hs
      exact fun b hb => (number_byte (mem_toString hb)).2.1
    | bool b =>
      obtain rfl : utf8 (toString b) = s := by simpa [member, written] using hs
      exact fun x hx => ((bool_literal b gap hg).2.1 x hx).1
  literal := by
    obtain ⟨k, v⟩ := e
    intro x hx
    cases v with
    | str s => simp [member, written] at hx
    | int n =>
      obtain rfl : utf8 (toString n.toInt) = x := by simpa [member, written] using hx
      exact ⟨toString_ne_nil _, fun b hb => (number_byte (mem_toString hb)).2.2.2.2⟩
    | bool b =>
      obtain rfl : utf8 (toString b) = x := by simpa [member, written] using hx
      obtain ⟨hne, hb, -⟩ := bool_literal b gap hg
      exact ⟨hne, fun x hx => (hb x hx).2⟩

def numberOf (e : Entry) : List (List Bytes) :=
  match e.2 with
  | .str s => (((afterColon s).bind numberRun).map fun v => [[58], v]).toList
  | .int n => [[e.1, utf8 (toString n.toInt)]]
  | .bool _ => []

def boolOf (e : Entry) : List (List Bytes) :=
  match e.2 with
  | .str s => (((afterColon s).bind boolText).map fun v => [[58], v]).toList
  | _ => []

def stringOf (e : Entry) : List (List Bytes) :=
  match e.2 with
  | .str s => [[e.1, s]]
  | _ => []

theorem numberRun_int (n : ℤ) {gap : Bytes} (hg : Gap gap) :
    numberRun (utf8 (toString n) ++ gap) = some (utf8 (toString n)) := by
  rw [numberRun_append gap (fun b hb => (number_byte (mem_toString hb)).1) hg.facts.2.2,
    if_neg (toString_ne_nil n)]

theorem boolText_int (n : ℤ) (gap : Bytes) : boolText (utf8 (toString n) ++ gap) = none := by
  apply boolText_none
  rw [List.head?_append_of_ne_nil _ (toString_ne_nil n)]
  exact fun b hb => (number_byte (mem_toString (List.mem_of_mem_head? hb))).2.2.1

theorem literals_member (e : Entry) {gap : Bytes} (hg : Gap gap) :
    (member gap e).literals numberRun = numberOf e ∧ (member gap e).literals boolText = boolOf e ∧
      (member gap e).strings = stringOf e := by
  obtain ⟨k, v⟩ := e
  cases v with
  | str s => exact ⟨rfl, rfl, rfl⟩
  | int n =>
    have hn := numberRun_int n.toInt hg
    have hb := boolText_int n.toInt gap
    simp only [Member.literals, member, written, hn, hb]
    exact ⟨rfl, rfl, rfl⟩
  | bool b =>
    obtain ⟨-, -, hn, hb, -⟩ := bool_literal b gap hg
    simp [Member.literals, member, written, hn, hb, numberOf, boolOf, Member.strings, stringOf]

/-- What `parse_json_obj` reads at a key from entries that are all complete. -/
def readEntries (es : List Entry) (k : Bytes) : Value :=
  Found.get ⟨es.flatMap boolOf, es.flatMap numberOf, es.flatMap stringOf⟩ k

/-- What it reads when the last entry lost its last byte. -/
def readCut (es : List Entry) (e : Entry) (k : Bytes) : Value :=
  Found.get ⟨es.flatMap boolOf ++ (member [] e).cutLiterals boolText,
    es.flatMap numberOf ++ (member [] e).cutLiterals numberRun, es.flatMap stringOf⟩ k

theorem flatMap_members {f : Member → List (List Bytes)} {g : Entry → List (List Bytes)}
    (h : ∀ e, f (member [44] e) = g e) (es : List Entry) :
    (es.map (member [44])).flatMap f = es.flatMap g := by
  rw [List.flatMap_map]
  congr 1
  funext e
  exact h e

theorem Follows.allows {e : Entry} {k : Bytes} (h : Follows e.2 k) : (member [44] e).Allows k where
  flag := Or.inr h.flag
  number := by
    rcases h.number with ⟨n, hn⟩ | hk
    · refine Or.inl ⟨utf8 (toString n.toInt), by simp [member, written, hn], ?_⟩
      change numberRun (utf8 (toString n.toInt) ++ [44]) ≠ none
      rw [numberRun_int n.toInt (Or.inl rfl)]
      simp
    · exact Or.inr hk
  string := by
    rcases h.colon with ⟨s, hs⟩ | hk
    · exact Or.inl ⟨s, by simp [member, written, hs]⟩
    · exact Or.inr hk

variable {es : List Entry} {e : Entry} (hes : ∀ x ∈ es, Clean x ∧ x.1 ≠ [])
  (hchain : (es ++ [e]).IsChain fun e e' => Follows e.2 e'.1)
include hes hchain

theorem parse_entries {tail : List Bytes} (hfree : ∀ s ∈ tail, QuoteFree s)
    (htail : tail.head? = some e.1) (k : Bytes) :
    (parseJsonObj ([123] ++ quoted ((es.map (member [44])).flatMap Member.segments ++ tail))).get k =
      Found.get ⟨es.flatMap boolOf ++ scanBare boolText tail,
        es.flatMap numberOf ++ scanBare numberRun tail, es.flatMap stringOf ++ scanStrings tail⟩ k := by
  have hcomma : Gap [44] := Or.inl rfl
  have hlead : QuoteFree [123] := by simp [QuoteFree]
  have hms : ∀ m ∈ es.map (member [44]), m.WellFormed := by
    intro m hm
    obtain ⟨x, hx, rfl⟩ := List.mem_map.mp hm
    exact member_wellFormed (hes x hx).1 (hes x hx).2 hcomma
  have hnext : (es.map (member [44]) ++ [member [44] e]).IsChain fun m m' => m.Allows m'.name := by
    have hmap := List.isChain_map_of_isChain (S := fun m m' : Member => m.Allows m'.name)
      (member [44]) (fun x y h => h.allows) hchain
    rwa [List.map_append, List.map_singleton] at hmap
  have hhead : ∀ o ∈ tail.head?, ∃ m ∈ [member [44] e].head?, o = m.name := by
    simp [htail, member]
  rw [parseJsonObj_members hlead hms hfree hhead hnext]
  simp only [flatMap_members fun e => (literals_member e hcomma).1,
    flatMap_members fun e => (literals_member e hcomma).2.1,
    flatMap_members fun e => (literals_member e hcomma).2.2]

variable (he : Clean e ∧ e.1 ≠ [])
include he

theorem parse_complete {gap : Bytes} (hg : Gap gap) (k : Bytes) :
    (parseJsonObj ([123] ++ quoted ((es.map (member [44])).flatMap Member.segments ++
      (member gap e).segments))).get k = readEntries (es ++ [e]) k := by
  have hm := member_wellFormed he.1 he.2 hg
  have hnil : ∀ o ∈ ([] : List Bytes).head?, (member gap e).Allows o := by simp
  have hb := scanBare_member boolText_nil hm fun o ho => (hnil o ho).flag
  have hn := scanBare_member numberRun_nil hm fun o ho => (hnil o ho).number
  have hs := scanStrings_member hm fun o ho => (hnil o ho).string
  have hhead : ((member gap e).segments).head? = some e.1 := by
    have h := (member gap e).segments_head? []
    rwa [List.append_nil] at h
  obtain ⟨hn', hb', hs'⟩ := literals_member e hg
  simp only [List.append_nil, scanBare, scanStrings, hn', hb', hs'] at hb hn hs
  rw [parse_entries hes hchain hm.quoteFree hhead, hb, hn, hs, readEntries]
  simp only [List.flatMap_append, List.flatMap_singleton]

theorem parse_cut (k : Bytes) :
    (parseJsonObj ([123] ++ quoted ((es.map (member [44])).flatMap Member.segments ++
      (member [] e).cutSegments))).get k = readCut es e k := by
  have hm : (member [] e).WellFormed := member_wellFormed he.1 he.2 (Or.inr (Or.inr rfl))
  rw [parse_entries hes hchain hm.cut_quoteFree (member [] e).cutSegments_head?,
    scanBare_cut boolText_nil hm, scanBare_cut numberRun_nil hm, scanStrings_cut, List.append_nil,
    readCut]

end Members

section Payload

variable (host : Host)

def payload (c : Claims) : Bytes := utf8 (luaValueToJson host c.table)

theorem body_length (e : Entry) (gap : Bytes) :
    (member gap e).body.length = e.1.length + 3 + e.2.width := by
  obtain ⟨k, v⟩ := e
  cases v with
  | str s =>
    simp only [Member.body, member, written, Member.colon, Claim.width, List.length_cons,
      List.length_append, List.length_nil]
    omega
  | int n =>
    simp only [Member.body, member, written, Member.colon, Claim.width, List.length_cons,
      List.length_append, List.length_nil]
    omega
  | bool b =>
    have hb : ∀ b : Bool, (utf8 (toString b)).length = if b then 4 else 5 := by decide
    simp only [Member.body, member, written, Member.colon, Claim.width, List.length_cons,
      List.length_append, List.length_nil, hb]
    omega

theorem members_length (es : List Entry) :
    (quoted ((es.map (member [44])).flatMap Member.segments)).length =
      (es.map memberLength).sum := by
  induction es with
  | nil => rfl
  | cons e es ih =>
    have hgap : (member [44] e).gap = [44] := rfl
    rw [List.map_cons, List.flatMap_cons, quoted_append, List.length_append, ih,
      (member [44] e).quoted_segments, hgap, List.length_append, body_length, List.map_cons,
      List.sum_cons, memberLength]
    simp only [List.length_singleton]
    omega

variable {c : Claims} {es : List Entry} {e : Entry} (hc : c.entries.entries = es ++ [e])
  (hclean : ∀ x ∈ c.entries.entries, Clean x)
include hc

theorem segmentsRead_eq : c.segmentsRead =
    (es.map (member [44])).flatMap Member.segments ++
      if c.payloadLength % 3 = 2 then (member [] e).cutSegments
      else (member (if c.payloadLength % 3 = 0 then [125] else []) e).segments := by
  rw [Claims.segmentsRead, hc, List.getLast?_concat, List.dropLast_concat]

include hclean

theorem payload_eq (gap : Bytes) :
    payload host c = [123] ++ quoted ((es.map (member [44])).flatMap Member.segments) ++
      (member gap e).body ++ [125] := by
  rw [hc] at hclean
  rw [payload, Claims.table, hc]
  exact utf8_table host (fun x hx => hclean x (by simp [hx])) (hclean e (by simp)) gap

theorem payload_length : (payload host c).length = c.payloadLength := by
  rw [payload_eq host hc hclean [], Claims.payloadLength, hc, List.map_append, List.sum_append]
  simp only [List.length_append, members_length, body_length, List.length_singleton,
    List.map_singleton, List.sum_singleton, memberLength]
  omega

/-- The last group takes nothing with it, or the closing brace, or the end of the last value, too. -/
theorem whole_payload (hne : e.1 ≠ []) :
    ValidUtf8 (whole (payload host c)) ∧
      whole (payload host c) = [123] ++ quoted c.segmentsRead := by
  have hl := payload_length host hc hclean
  have hp := payload_eq host hc hclean []
  have hquoted : ∀ gap, [123] ++ quoted ((es.map (member [44])).flatMap Member.segments ++
      (member gap e).segments) = [123] ++ quoted ((es.map (member [44])).flatMap Member.segments) ++
        (member gap e).body ++ gap := by
    intro gap
    have hgap : (member gap e).gap = gap := rfl
    rw [quoted_append, (member gap e).quoted_segments, hgap]
    simp
  rw [segmentsRead_eq hc]
  have hmod := Nat.mod_lt c.payloadLength (show 3 > 0 by omega)
  obtain h0 | h1 | h2 : c.payloadLength % 3 = 0 ∨ c.payloadLength % 3 = 1 ∨ c.payloadLength % 3 = 2 := by
    omega
  · have hw := whole_append (payload host c) [] (by rw [List.append_nil, hl, h0]; rfl)
    rw [List.append_nil] at hw
    rw [if_neg (by omega), if_pos h0, hquoted, hw]
    exact ⟨⟨_, rfl⟩, payload_eq host hc hclean [125]⟩
  · have hbrace : Ascii [125] := by simp [Ascii]
    rw [if_neg (by omega), if_neg (by omega), hquoted, List.append_nil]
    exact whole_text hp (by rw [hl, h1]; rfl) ⟨_, rfl⟩ hbrace
  · have he : Clean e := hclean e (by simp [hc])
    obtain ⟨b, hb, hascii⟩ := (member_wellFormed he hne (Or.inr (Or.inr rfl))).body_cut
    rw [hb] at hp
    have hsplit : payload host c = ([123] ++ quoted ((es.map (member [44])).flatMap Member.segments ++
        (member [] e).cutSegments)) ++ [b, 125] := by
      rw [hp, quoted_append]
      simp
    have hlost : Ascii [b, 125] := by
      have hb128 : b < 128 := by
        rcases hascii with rfl | ⟨x, hx, hbx⟩
        · decide
        · exact literal_ascii e hx b hbx
      simp [Ascii, hb128]
    rw [if_pos h2]
    exact whole_text hsplit (by rw [hl, h2]; rfl) ⟨_, rfl⟩ hlost

end Payload

section Lookup

theorem lastOf_entry (k : Bytes) (e : Entry) :
    lastOf k (boolOf e) = (match e.2 with
        | .str s => if [58] = k then (afterColon s).bind boolText else none
        | _ => none) ∧
      lastOf k (numberOf e) = (match e.2 with
        | .str s => if [58] = k then (afterColon s).bind numberRun else none
        | .int n => if e.1 = k then some (utf8 (toString n.toInt)) else none
        | .bool _ => none) ∧
      lastOf k (stringOf e) = match e.2 with
        | .str s => if e.1 = k then some s else none
        | _ => none := by
  obtain ⟨key, v⟩ := e
  cases v with
  | str s => exact ⟨lastOf_toList k _ _, lastOf_toList k _ _, lastOf_singleton k _ _⟩
  | int n => exact ⟨rfl, lastOf_singleton k _ _, rfl⟩
  | bool b => exact ⟨rfl, rfl, rfl⟩

theorem lastOf_foreign {k : Bytes} {e : Entry} (hcolon : k = [58] → Mute e) (hk : e.1 ≠ k) :
    lastOf k (boolOf e) = none ∧ lastOf k (numberOf e) = none ∧ lastOf k (stringOf e) = none := by
  obtain ⟨hb, hn, hs⟩ := lastOf_entry k e
  obtain ⟨key, v⟩ := e
  rw [hb, hn, hs]
  cases v with
  | str s =>
    have hmute : [58] = k → (afterColon s).bind boolText = none ∧ (afterColon s).bind numberRun = none :=
      fun h => hcolon h.symm s rfl
    refine ⟨?_, ?_, if_neg hk⟩
    · exact (ite_eq_right_iff).mpr fun h => (hmute h).1
    · exact (ite_eq_right_iff).mpr fun h => (hmute h).2
  | int n => exact ⟨rfl, if_neg hk, rfl⟩
  | bool b => exact ⟨rfl, rfl, rfl⟩

theorem lastOf_unique {es : List Entry} (hnd : (es.map Sigma.fst).Nodup) {e : Entry}
    (he : e ∈ es) {f : Entry → List (List Bytes)}
    (hf : ∀ x ∈ es, x.1 ≠ e.1 → lastOf e.1 (f x) = none) :
    lastOf e.1 (es.flatMap f) = lastOf e.1 (f e) := by
  induction es with
  | nil => simp at he
  | cons x es ih =>
    obtain ⟨hx, hnd⟩ := List.nodup_cons.mp hnd
    have hother : ∀ y ∈ es, y.1 ≠ x.1 := by
      intro y hy hyx
      exact hx (List.mem_map.mpr ⟨y, hy, hyx⟩)
    rw [List.flatMap_cons, lastOf_append]
    rcases List.mem_cons.mp he with rfl | he
    · have hrest : lastOf e.1 (es.flatMap f) = none :=
        lastOf_flatMap_eq_none.mpr fun y hy => hf y (by simp [hy]) (hother y hy)
      rw [hrest, Option.none_or]
    · have hfirst := hf x (by simp) (hother e he).symm
      rw [ih hnd he fun y hy => hf y (by simp [hy]), hfirst, Option.or_none]

theorem readEntries_entry {es : List Entry} (hnd : (es.map Sigma.fst).Nodup) {e : Entry}
    (he : e ∈ es) (hcolon : e.1 = [58] → ∀ x ∈ es, Mute x) :
    readEntries es e.1 = match e.2 with
      | .str s => .str s
      | .int n => numeral (utf8 (toString n.toInt))
      | .bool _ => .nil := by
  have hforeign := fun x (hx : x ∈ es) => lastOf_foreign (k := e.1) (e := x) fun h => hcolon h x hx
  have hb := lastOf_unique hnd he fun x hx hne => (hforeign x hx hne).1
  have hn := lastOf_unique hnd he fun x hx hne => (hforeign x hx hne).2.1
  have hs := lastOf_unique hnd he fun x hx hne => (hforeign x hx hne).2.2
  obtain ⟨hb', hn', hs'⟩ := lastOf_entry e.1 e
  rw [readEntries, Found.get, hb, hn, hs, hb', hn', hs']
  have hmute : ∀ s, e.2 = .str s → [58] = e.1 →
      (afterColon s).bind boolText = none ∧ (afterColon s).bind numberRun = none :=
    fun s hs h => hcolon h.symm e he s hs
  cases hv : e.2 with
  | str s =>
    by_cases h : [58] = e.1
    · simp [(hmute s hv h).1, (hmute s hv h).2]
    · simp [h]
  | int n => simp
  | bool b => simp

theorem readEntries_other {es : List Entry} {k : Bytes} (hk : ∀ e ∈ es, e.1 ≠ k)
    (hcolon : k ≠ [58]) : readEntries es k = .nil := by
  have hnone := fun e he => lastOf_foreign (fun h => absurd h hcolon) (hk e he)
  rw [readEntries, Found.get, lastOf_flatMap_eq_none.mpr fun e he => (hnone e he).1,
    lastOf_flatMap_eq_none.mpr fun e he => (hnone e he).2.1,
    lastOf_flatMap_eq_none.mpr fun e he => (hnone e he).2.2]
  rfl

theorem lastOf_numberText {es : List Entry} (hk : ∀ e ∈ es, e.1 ≠ [58]) :
    lastOf [58] (es.flatMap numberOf) = (es.filterMap numberText).getLast? := by
  induction es with
  | nil => rfl
  | cons e es ih =>
    have hkey : e.1 ≠ [58] := hk e (by simp)
    have he : lastOf [58] (numberOf e) = numberText e := by
      rw [(lastOf_entry [58] e).2.1, numberText]
      cases e.2 <;> simp [hkey]
    rw [List.flatMap_cons, lastOf_append, ih fun x hx => hk x (by simp [hx]), he,
      List.filterMap_cons]
    cases numberText e with
    | none => exact Option.or_none
    | some v =>
      rw [List.getLast?_cons]
      cases (es.filterMap numberText).getLast? <;> rfl

theorem readEntries_colon {es : List Entry} (hk : ∀ e ∈ es, e.1 ≠ [58]) :
    readEntries es [58] = .nil ↔
      (∀ k s, (⟨k, .str s⟩ : Entry) ∈ es → (afterColon s).bind boolText = none) ∧
        ∀ v ∈ (es.filterMap numberText).getLast?, tonumber v = none := by
  have hs : lastOf [58] (es.flatMap stringOf) = none := by
    refine lastOf_flatMap_eq_none.mpr fun e he => ?_
    rw [(lastOf_entry [58] e).2.2]
    cases e.2 <;> simp [hk e he]
  have hb : lastOf [58] (es.flatMap boolOf) = none ↔
      ∀ k s, (⟨k, .str s⟩ : Entry) ∈ es → (afterColon s).bind boolText = none := by
    rw [lastOf_flatMap_eq_none]
    constructor
    · intro h k s hm
      have he := h ⟨k, .str s⟩ hm
      rw [(lastOf_entry [58] _).1] at he
      simpa using he
    · intro h e he
      rw [(lastOf_entry [58] e).1]
      obtain ⟨k, v⟩ := e
      cases v with
      | str s => exact h k s he
      | int n => rfl
      | bool b => rfl
  rw [← hb, readEntries, Found.get, hs, lastOf_numberText hk]
  cases lastOf [58] (es.flatMap boolOf) with
  | some v => simp [boolValue]
  | none =>
    cases (es.filterMap numberText).getLast? with
    | none => simp
    | some v =>
      simp only [Option.map_none, Option.getD_none, Option.map_some, Option.getD_some, true_and,
        Option.mem_def, Option.some.injEq, forall_eq', numeral]
      cases tonumber v <;> simp

end Lookup

section Main

theorem inRange_toInt (n : Int64) : InRange n.toInt := ⟨n.le_toInt, n.toInt_lt⟩

theorem lastOf_cutLiterals (read : Bytes → Option Bytes) (k : Bytes) (e : Entry) :
    lastOf k ((member [] e).cutLiterals read) =
      match e.2 with
      | .str s => if [58] = k then (afterColon s).bind read else none
      | .int n => if e.1 = k then read (utf8 (toString n.toInt)).dropLast else none
      | .bool b => if e.1 = k then read (utf8 (toString b)).dropLast else none := by
  obtain ⟨key, v⟩ := e
  cases v with
  | str s => exact lastOf_toList k _ _
  | int n => exact lastOf_toList k _ _
  | bool b => exact lastOf_toList k _ _

/-- An entry that lost its last byte is not read back. -/
theorem readCut_ne {es : List Entry} {e : Entry} (hk : ∀ x ∈ es, x.1 ≠ e.1)
    (hcolon : e.1 = [58] → ∀ x ∈ es ++ [e], Mute x) : readCut es e e.1 ≠ e.2.value := by
  have hnone := fun x (hx : x ∈ es) => lastOf_foreign (fun h => hcolon h x (by simp [hx])) (hk x hx)
  rw [readCut, Found.get, lastOf_append, lastOf_append,
    lastOf_flatMap_eq_none.mpr fun x hx => (hnone x hx).1,
    lastOf_flatMap_eq_none.mpr fun x hx => (hnone x hx).2.1,
    lastOf_flatMap_eq_none.mpr fun x hx => (hnone x hx).2.2, Option.or_none, Option.or_none,
    lastOf_cutLiterals, lastOf_cutLiterals]
  cases hv : e.2 with
  | str s =>
    by_cases h : [58] = e.1
    · obtain ⟨hb, hn⟩ := hcolon h.symm e (by simp) s hv
      simp [hb, hn, Claim.value]
    · simp [h, Claim.value]
  | int n =>
    have hdigits : ∀ b ∈ (utf8 (toString n.toInt)).dropLast, isDigit b = true ∨ b = 45 :=
      fun b hb => mem_toString (List.mem_of_mem_dropLast hb)
    have hb : boolText (utf8 (toString n.toInt)).dropLast = none :=
      boolText_none fun b hb => (number_byte (hdigits b (List.mem_of_mem_head? hb))).2.2.1
    have hrun := numberRun_append [] (fun b hb => (number_byte (hdigits b hb)).1) rfl
    rw [List.append_nil] at hrun
    simp only [if_true, hb, hrun]
    split_ifs with hd
    · simp [Claim.value]
    · exact numeral_dropLast (inRange_toInt n)
  | bool b =>
    obtain ⟨-, -, -, -, hn, hb⟩ := bool_literal b [] (Or.inr (Or.inr rfl))
    simp only [if_true, hb, hn]
    simp [Claim.value]

variable (host : Host) {secret : Bytes} {c : Claims} {now now' : ℤ}

theorem Claims.get_entry {e : Entry} (he : e ∈ c.entries.entries) : c.get e.1 = e.2.value := by
  have h : e.2 ∈ c.entries.lookup e.1 := AList.mem_lookup_iff.mpr he
  rw [Claims.get, Option.mem_def.mp h]
  rfl

theorem Claims.get_other {k : Bytes} (hk : ∀ e ∈ c.entries.entries, e.1 ≠ k) :
    c.get k = .nil := by
  have h : c.entries.lookup k = none := by
    rw [AList.lookup_eq_none]
    intro hm
    obtain ⟨v, hv⟩ := AList.lookup_isSome.mpr hm |> Option.isSome_iff_exists.mp
    exact hk ⟨k, v⟩ (AList.mem_lookup_iff.mp hv) rfl
  rw [Claims.get, h]
  rfl

theorem value_ne_nil (v : Claim) : v.value ≠ .nil := by cases v <;> simp [Claim.value]

theorem payload_ne_nil : payload host c ≠ [] := by
  have hopen : utf8 "\x7b" = [123] := by decide
  rw [payload, Claims.table, luaValueToJson, utf8_append, utf8_append, hopen]
  simp

theorem sign_text (key : String) :
    ∃ sig, sign host c.table (utf8 key) = .ok (signingInput (b64url (utf8 header))
        (b64url (payload host c)) ++ utf8 "." ++ sig) ∧
      ∀ now now', verify host (signingInput (b64url (utf8 header)) (b64url (payload host c)) ++
        utf8 "." ++ sig) (utf8 key) now now' = checkClaims host (b64url (payload host c)) now now' := by
  obtain ⟨sig, hsig, hcheck⟩ := verify_signed host (payload_ne_nil host) key
  refine ⟨sig, ?_, verify_of_checkSignature hcheck⟩
  have hsig' : hmacSha256B64url host (signingInput (b64url (utf8 header))
      (b64url (utf8 (luaValueToJson host c.table)))) (utf8 key) = .ok sig := hsig
  simp only [sign, b64urlEncode_utf8, bind, Except.bind, hsig']
  rfl

/-- A token is made for secrets that are texts only. -/
theorem sign_valid {v : Value} {token : Bytes} (h : sign host v secret = .ok token) :
    ValidUtf8 secret := by
  rw [validUtf8_iff]
  by_contra hs
  have hnone : fromUtf8 secret = none := by simpa using hs
  have hmac : ∀ msg, ∃ e, hmacSha256B64url host msg secret = .error e := by
    intro msg
    cases hm : fromUtf8 msg <;>
      simp [hmacSha256B64url, toRustString, hm, hnone, bind, Except.bind]
  obtain ⟨e, he⟩ := hmac
    (signingInput (b64url (utf8 header)) (b64url (utf8 (luaValueToJson host v))))
  simp [sign, b64urlEncode_utf8, bind, Except.bind, he] at h

theorem roundTrips_read (hs : ValidUtf8 secret) :
    RoundTrips host secret c now now' ↔
      (∀ k, (readPayload (payload host c)).get k = c.get k) ∧
        expired (readPayload (payload host c)) now = .ok false ∧
        notYetValid (readPayload (payload host c)) now' = .ok false := by
  obtain ⟨key, rfl⟩ := hs
  obtain ⟨sig, hsign, hverify⟩ := sign_text host (c := c) key
  unfold RoundTrips
  rw [hsign]
  constructor
  · rintro ⟨token, claims, ht, hv, hk⟩
    rw [← Except.ok.inj ht, hverify, checkClaims_iff] at hv
    obtain ⟨rfl, hexp, hnbf⟩ := hv
    exact ⟨hk, hexp, hnbf⟩
  · rintro ⟨hk, hexp, hnbf⟩
    refine ⟨_, readPayload (payload host c), rfl, ?_, hk⟩
    rw [hverify, checkClaims_iff]
    exact ⟨rfl, hexp, hnbf⟩

theorem window_of_read {claims : Table} (hw : InWindow c now now')
    (h : ∀ k, claims.get k = c.get k) :
    expired claims now = .ok false ∧ notYetValid claims now' = .ok false := by
  constructor
  · rw [expired, h, Claims.get]
    cases hv : c.entries.lookup (utf8 "exp") with
    | none => rfl
    | some v =>
      obtain ⟨n, rfl, hn⟩ := hw.exp v hv
      have hlt : ¬ n.toInt < now := by omega
      simp [Claim.value, Value.truthy, Value.lessThan, Number.lt, hlt]
  · rw [notYetValid, h, Claims.get]
    cases hv : c.entries.lookup (utf8 "nbf") with
    | none => rfl
    | some v =>
      obtain ⟨n, rfl, hn⟩ := hw.nbf v hv
      have hlt : ¬ now' < n.toInt := by omega
      simp [Claim.value, Value.truthy, Value.lessThan, Number.lt, hlt]

theorem key_ne {e : Entry} (he : e ∈ c.entries.entries) : e.1 ≠ [] :=
  c.key_ne _ (List.mem_map.mpr ⟨e, he, rfl⟩)

theorem mute_of_colon (hu : Undisturbed c) {e : Entry} (he : e ∈ c.entries.entries) (hk : e.1 = [58]) :
    ∀ x ∈ c.entries.entries, Mute x :=
  hu.colon (List.mem_map.mpr ⟨e, he, hk⟩)

theorem readEntries_eq_iff (hu : Undisturbed c) :
    (∀ k, readEntries c.entries.entries k = c.get k) ↔
      (∀ k b, (⟨k, .bool b⟩ : Entry) ∉ c.entries.entries) ∧
      (∀ k s, (⟨k, .str s⟩ : Entry) ∈ c.entries.entries → (afterColon s).bind boolText = none) ∧
      ∀ v ∈ (c.entries.entries.filterMap numberText).getLast?, tonumber v = none := by
  have hnd : (c.entries.entries.map Sigma.fst).Nodup := c.entries.nodupKeys
  constructor
  · intro h
    refine ⟨?_, ?_⟩
    · intro k b he
      have hk := h k
      rw [readEntries_entry hnd he (mute_of_colon hu he), Claims.get_entry he] at hk
      simp [Claim.value] at hk
    · by_cases hcolon : ∀ e ∈ c.entries.entries, e.1 ≠ [58]
      · exact (readEntries_colon hcolon).mp ((h [58]).trans (Claims.get_other hcolon))
      · push Not at hcolon
        obtain ⟨e, he, hk⟩ := hcolon
        have hmute := mute_of_colon hu he hk
        have hnone : c.entries.entries.filterMap numberText = [] := by
          rw [List.filterMap_eq_nil_iff]
          rintro ⟨k, v⟩ hx
          cases v with
          | str s => exact (hmute _ hx s rfl).2
          | int n => rfl
          | bool b => rfl
        exact ⟨fun k s hs => (hmute _ hs s rfl).1, by simp [hnone]⟩
  · rintro ⟨hbool, hcol⟩ k
    by_cases hk : ∃ e ∈ c.entries.entries, e.1 = k
    · obtain ⟨e, he, rfl⟩ := hk
      rw [readEntries_entry hnd he (mute_of_colon hu he), Claims.get_entry he]
      obtain ⟨k, v⟩ := e
      cases v with
      | str s => rfl
      | int n => exact numeral_toString (inRange_toInt n)
      | bool b => exact absurd he (hbool k b)
    · have hother : ∀ e ∈ c.entries.entries, e.1 ≠ k := fun e he hek => hk ⟨e, he, hek⟩
      rw [Claims.get_other hother]
      by_cases h58 : k = [58]
      · exact h58 ▸ (readEntries_colon (h58 ▸ hother)).mpr hcol
      · exact readEntries_other hother h58

theorem read_empty (h : c.entries.entries = []) (k : Bytes) :
    (readPayload (payload host c)).get k = .nil := by
  have hp : payload host c = utf8 "{}" := by
    rw [payload, Claims.table, h]
    rfl
  have hw : whole (utf8 "{}") = [] := by decide
  have hread : readPayload (payload host c) = ∅ := by
    rw [readPayload_eq (by rw [hp, hw]; exact ⟨"", utf8_empty⟩), hp, hw]
    rfl
  rw [hread, Table.get_empty]

theorem clean_segments (hclean : ∀ e ∈ c.entries.entries, Clean e) :
    ∀ s ∈ c.segmentsRead, QuoteFree s := by
  rcases List.eq_nil_or_concat' c.entries.entries with hnil | ⟨es, e, hc⟩
  · simp [Claims.segmentsRead, hnil]
  · have hmember : ∀ x ∈ c.entries.entries, ∀ gap, Gap gap → (member gap x).WellFormed :=
      fun x hx gap hg => member_wellFormed (hclean x hx) (key_ne hx) hg
    have hlast := hmember e (by simp [hc])
    rw [segmentsRead_eq hc, List.forall_mem_append]
    constructor
    · refine quoteFree_members fun m hm => ?_
      obtain ⟨x, hx, rfl⟩ := List.mem_map.mp hm
      exact hmember x (by simp [hc, hx]) _ (Or.inl rfl)
    · split_ifs
      · exact (hlast [] (Or.inr (Or.inr rfl))).cut_quoteFree
      · exact (hlast [125] (Or.inr (Or.inl rfl))).quoteFree
      · exact (hlast [] (Or.inr (Or.inr rfl))).quoteFree

/-- What is read back from clean claims is what the parts of their payload show. -/
theorem read_shown (hclean : ∀ e ∈ c.entries.entries, Clean e) (k : Bytes) :
    (readPayload (payload host c)).get k = (shown (c.segmentsRead.map Part.plain)).get k := by
  rcases List.eq_nil_or_concat' c.entries.entries with hnil | ⟨es, e, hc⟩
  · rw [read_empty host hnil, Claims.segmentsRead, hnil]
    rfl
  · have hlead : QuoteFree [123] := by simp [QuoteFree]
    have he : e ∈ c.entries.entries := by simp [hc]
    obtain ⟨hvalid, hw⟩ := whole_payload host hc hclean (key_ne he)
    rw [readPayload_eq hvalid, hw, parseJsonObj_get hlead (clean_segments hclean), shown_plain]
    rfl

theorem read_eq_iff (hclean : ∀ e ∈ c.entries.entries, Clean e) (hu : Undisturbed c) :
    (∀ k, (readPayload (payload host c)).get k = c.get k) ↔
      (∀ k b, (⟨k, .bool b⟩ : Entry) ∉ c.entries.entries) ∧
      (c.entries.entries = [] ∨ c.payloadLength % 3 ≠ 2) ∧
      (∀ k s, (⟨k, .str s⟩ : Entry) ∈ c.entries.entries → (afterColon s).bind boolText = none) ∧
      ∀ v ∈ (c.entries.entries.filterMap numberText).getLast?, tonumber v = none := by
  have hentry : ∀ e ∈ c.entries.entries, Clean e ∧ e.1 ≠ [] := fun e he => ⟨hclean e he, key_ne he⟩
  rcases List.eq_nil_or_concat' c.entries.entries with hnil | ⟨es, e, hc⟩
  · have hget : ∀ k, c.get k = .nil := fun k => Claims.get_other (by simp [hnil])
    simp [hnil, read_empty host hnil, hget]
  · have hne : c.entries.entries ≠ [] := by simp [hc]
    have hes : ∀ x ∈ es, Clean x ∧ x.1 ≠ [] := fun x hx => hentry x (by simp [hc, hx])
    have he : Clean e ∧ e.1 ≠ [] := hentry e (by simp [hc])
    have hchain := hu.keys
    rw [hc] at hchain
    obtain ⟨hvalid, hw⟩ := whole_payload host hc hclean he.2
    rw [segmentsRead_eq hc] at hw
    by_cases hlen : c.payloadLength % 3 = 2
    · rw [if_pos hlen] at hw
      have hread : (readPayload (payload host c)).get e.1 = readCut es e e.1 := by
        rw [readPayload_eq hvalid, hw, parse_cut hes hchain he]
      have hnd : (c.entries.entries.map Sigma.fst).Nodup := c.entries.nodupKeys
      have hother : ∀ x ∈ es, x.1 ≠ e.1 := by
        intro x hx hxe
        rw [hc, List.map_append, List.nodup_append] at hnd
        exact hnd.2.2 x.1 (List.mem_map.mpr ⟨x, hx, rfl⟩) e.1 (by simp) hxe
      constructor
      · intro h
        have hk := h e.1
        rw [hread, Claims.get_entry (by simp [hc])] at hk
        exact absurd hk (readCut_ne hother fun h58 => hc ▸ mute_of_colon hu (by simp [hc]) h58)
      · rintro ⟨-, hor, -⟩
        exact absurd hlen (hor.resolve_left hne)
    · rw [if_neg hlen] at hw
      have hgap : Gap (if c.payloadLength % 3 = 0 then [125] else []) := by
        split_ifs
        · exact Or.inr (Or.inl rfl)
        · exact Or.inr (Or.inr rfl)
      have hread : ∀ k, (readPayload (payload host c)).get k =
          readEntries c.entries.entries k := by
        intro k
        rw [readPayload_eq hvalid, hw, parse_complete hes hchain he hgap, hc]
      simp only [hread, readEntries_eq_iff hu, hne, false_or, ne_eq, hlen, not_false_eq_true,
        true_and]

theorem clean_of_read (h : ∀ k, (readPayload (payload host c)).get k = c.get k) :
    ∀ e ∈ c.entries.entries, Clean e := by
  intro e he
  have hk := (h e.1).trans (Claims.get_entry he)
  refine ⟨parseJsonObj_key _ (by rw [← readPayload, hk]; exact value_ne_nil e.2), ?_⟩
  intro s hs
  rw [hs] at hk
  exact parseJsonObj_str _ hk

theorem Survives.clean (h : Survives secret c) : ∀ e ∈ c.entries.entries, Clean e := by
  intro e he
  refine ⟨h.key e he, ?_⟩
  rintro s hv
  obtain ⟨k, v⟩ := e
  subst hv
  exact h.str k s he

theorem survives_read (hu : Undisturbed c) (h : Survives secret c) (k : Bytes) :
    (readPayload (payload host c)).get k = c.get k :=
  (read_eq_iff host h.clean hu).mpr ⟨h.noBool, h.length, h.boolText, h.numberText⟩ k

def single (k : Bytes) (v : Claim) (hk : k ≠ []) : Claims :=
  ⟨AList.singleton k v, by simpa using hk⟩

def userBob : Claims := single (utf8 "user") (.str (utf8 "bob")) (by decide)

end Main

end LuaProxy.JwtRoundTrip
