import LuaProxy.JsonReading
import LuaProxy.JsonScan

/-! What the patterns of `parse_json_obj` find in JSON texts. They do not see the nesting: a
member is found at any depth, by what stands behind the last quote of its name. -/
namespace LuaProxy.JsonSegments
open Text LuaPattern Jwt JwtFormat JsonScan
open Json (Tree Str Written skip isSpace isNumberByte)

section Segments

def lead (t : Bytes) : Bytes := t.takeWhile (· != 34)

def segments : Bytes → List Bytes
  | [] => []
  | b :: t => if b = 34 then lead t :: segments t else segments t

/-- What stands between the quotes of a string, taken apart at the quotes in it. -/
def pieces (raw : Bytes) : List Bytes := lead raw :: segments raw

theorem lead_quoteFree (t : Bytes) : QuoteFree (lead t) := by
  intro b hb
  simpa using List.mem_takeWhile_imp hb

theorem segments_quoteFree (t : Bytes) : ∀ s ∈ segments t, QuoteFree s := by
  induction t with
  | nil => simp [segments]
  | cons b t ih =>
    rw [segments]
    split_ifs
    · exact List.forall_mem_cons.mpr ⟨lead_quoteFree t, ih⟩
    · exact ih

theorem lead_quote (t : Bytes) : lead (34 :: t) = [] := rfl

theorem lead_cons {b : UInt8} (hb : b ≠ 34) (t : Bytes) : lead (b :: t) = b :: lead t := by
  simp [lead, hb]

theorem segments_quote (t : Bytes) : segments (34 :: t) = lead t :: segments t := rfl

theorem segments_cons {b : UInt8} (hb : b ≠ 34) (t : Bytes) : segments (b :: t) = segments t := by
  rw [segments, if_neg hb]

theorem lead_segments (t : Bytes) : lead t ++ quoted (segments t) = t := by
  induction t with
  | nil => rfl
  | cons b t ih =>
    by_cases hb : b = 34
    · subst hb
      rw [lead_quote, segments_quote, quoted_cons, ih]
      rfl
    · rw [lead_cons hb, segments_cons hb, List.cons_append, ih]

theorem lead_append {s : Bytes} (hs : QuoteFree s) (t : Bytes) : lead (s ++ t) = s ++ lead t := by
  apply List.takeWhile_append_of_pos
  intro b hb
  simpa using hs b hb

theorem segments_append {s : Bytes} (hs : QuoteFree s) (t : Bytes) :
    segments (s ++ t) = segments t := by
  induction s with
  | nil => rfl
  | cons b s ih =>
    rw [List.cons_append, segments_cons (hs b (by simp)), ih fun c hc => hs c (by simp [hc])]

theorem pieces_append_quote (s t : Bytes) :
    pieces (s ++ 34 :: t) = pieces s ++ pieces t := by
  induction s with
  | nil => rfl
  | cons b s ih =>
    by_cases hb : b = 34
    · subst hb
      rw [pieces, pieces, List.cons_append, segments_quote, segments_quote, ← pieces, ih]
      rfl
    · have hs := (List.cons.inj ih)
      rw [pieces, pieces, List.cons_append, lead_cons hb, lead_cons hb, segments_cons hb,
        segments_cons hb, hs.1, hs.2]
      rfl

theorem segments_concat (s t : Bytes) : segments (s ++ 34 :: t) = segments s ++ pieces t := by
  have h := pieces_append_quote s t
  rw [pieces, pieces, List.cons_append] at h
  exact (List.cons.inj h).2

theorem pieces_quoteFree {s : Bytes} (h : QuoteFree s) : pieces s = [s] := by
  have hlead := lead_append h []
  have hsegs := segments_append h []
  rw [List.append_nil] at hlead hsegs
  rw [pieces, hlead, hsegs]
  simp [lead, segments]

theorem pieces_backslash {raw : Bytes}
    (h : ∀ u v, raw = u ++ 34 :: v → u.getLast? = some 92) :
    ∀ s ∈ (pieces raw).dropLast, s.getLast? = some 92 := by
  generalize hn : raw.length = n
  induction n using Nat.strong_induction_on generalizing raw with
  | _ n ih =>
    have hsplit := lead_segments raw
    cases hsegs : segments raw with
    | nil => simp [pieces, hsegs]
    | cons o rest =>
      rw [hsegs, quoted_cons] at hsplit
      have hone : pieces (lead raw) = [lead raw] := pieces_quoteFree (lead_quoteFree raw)
      have hpieces : pieces raw = lead raw :: pieces (o ++ quoted rest) := by
        rw [← hsplit, pieces_append_quote, hsplit, hone]
        rfl
      have hlen : (o ++ quoted rest).length < n := by
        rw [← hn, ← hsplit]
        simp only [List.length_append, List.length_cons]
        omega
      have htail : ∀ u v, o ++ quoted rest = u ++ 34 :: v → u.getLast? = some 92 := by
        intro u v huv
        have hlast := h (lead raw ++ 34 :: u) v (by
          rw [List.append_assoc, List.cons_append, ← huv]
          exact hsplit.symm)
        cases u with
        | nil => simp at hlast
        | cons c u => rwa [List.getLast?_append_of_ne_nil _ (by simp), List.getLast?_cons_cons] at hlast
      rw [hpieces, List.dropLast_cons_of_ne_nil (by simp [pieces])]
      rw [List.forall_mem_cons]
      exact ⟨h _ _ hsplit.symm, ih _ hlen htail rfl⟩

end Segments

section Gaps

theorem blanks_space (t : Bytes) : Blank (t.takeWhile isSpace) := by
  have hall : ∀ b, isSpace b = true → Single.space.test b = true := forall_byte (by decide +kernel)
  intro b hb
  exact hall b (List.mem_takeWhile_imp hb)

theorem blanks_quoteFree (t : Bytes) : QuoteFree (t.takeWhile isSpace) := by
  rintro b hb rfl
  exact absurd (List.mem_takeWhile_imp hb) (by decide)

theorem blanks_skip (t : Bytes) : t.takeWhile isSpace ++ skip t = t :=
  List.takeWhile_append_dropWhile

theorem segments_skip (t : Bytes) : segments (skip t) = segments t := by
  have h := segments_append (blanks_quoteFree t) (skip t)
  rw [blanks_skip] at h
  exact h.symm

theorem lead_skip (t : Bytes) : lead t = t.takeWhile isSpace ++ lead (skip t) := by
  have h := lead_append (blanks_quoteFree t) (skip t)
  rwa [blanks_skip] at h

theorem segments_after {b : UInt8} {t u : Bytes} (h : skip t = b :: u) (hb : b ≠ 34) :
    segments t = segments u := by
  rw [← segments_skip, h, segments_cons hb]

/-- What may stand behind a value: blanks and then a comma, a closing bracket or nothing. -/
def Closes (r : Bytes) : Prop := ∀ b ∈ (skip r).head?, b = 44 ∨ b = 93 ∨ b = 125

theorem closes_of {b : UInt8} {r u : Bytes} (h : skip r = b :: u) (hb : b = 44 ∨ b = 93 ∨ b = 125) :
    Closes r := by
  intro c hc
  rw [h] at hc
  obtain rfl := Option.some.inj hc
  exact hb

theorem lead_head {t : Bytes} {b : UInt8} (h : b ∈ (lead t).head?) : b ∈ t.head? := by
  cases t with
  | nil => simp [lead] at h
  | cons c t =>
    by_cases hc : c = 34
    · subst hc
      simp [lead_quote] at h
    · simpa [lead_cons hc] using h

theorem afterColon_blanks {s t : Bytes} (hs : Blank s)
    (ht : ∀ b ∈ t.head?, Single.space.test b = false) :
    afterColon (s ++ t) = afterColon t := by
  have hdrop : t.dropWhile Single.space.test = t := dropWhile_stop ht
  rw [afterColon, afterColon, List.dropWhile_append_of_pos hs]

theorem Closes.gap {r : Bytes} (h : Closes r) : afterColon (lead r) = none := by
  have hbyte : ∀ b : UInt8, b = 44 ∨ b = 93 ∨ b = 125 → Single.space.test b = false ∧ b ≠ 58 := by
    rintro b (rfl | rfl | rfl) <;> decide
  have hhead : ∀ b ∈ (lead (skip r)).head?, Single.space.test b = false ∧ b ≠ 58 :=
    fun b hb => hbyte b (h b (lead_head hb))
  rw [lead_skip, afterColon_blanks (blanks_space r) fun b hb => (hhead b hb).1, afterColon]
  cases ht : lead (skip r) with
  | nil => rfl
  | cons b t =>
    obtain ⟨hspace, hcolon⟩ := hhead b (by simp [ht])
    simp [hspace, hcolon]

theorem value_head {t r : Bytes} {x : Tree} (h : Written .value t x r) :
    ∀ b ∈ (lead t).head?, Single.space.test b = false := by
  have hdigit : ∀ b : UInt8, Json.isDigit b = true ∨ b = 45 → Single.space.test b = false :=
    forall_byte (by decide +kernel)
  obtain ⟨b, u, rfl, hb⟩ := h.starts
  intro c hc
  obtain rfl : b = c := by simpa using lead_head hc
  cases x with
  | num y q => exact hdigit b hb
  | bool v => cases v <;> exact hb ▸ by decide
  | null => exact hb ▸ by decide
  | str raw s => exact hb ▸ by decide
  | arr vs => exact hb ▸ by decide
  | obj ms => exact hb ▸ by decide

theorem colon_gap {t u r : Bytes} {x : Tree} (hc : skip t = 58 :: u)
    (hv : Written .value (skip u) x r) :
    afterColon (lead t) = some (lead (skip u)) ∧ segments t = segments (skip u) := by
  have hcolon : lead t = t.takeWhile isSpace ++ 58 :: (u.takeWhile isSpace) ++ lead (skip u) := by
    rw [lead_skip, hc, lead_cons (by decide), lead_skip u, List.append_assoc, List.cons_append]
  constructor
  · rw [hcolon]
    exact afterColon_colon (blanks_space t) (blanks_space u) (value_head hv)
  · rw [← segments_skip, hc, segments_cons (by decide), segments_skip]

end Gaps

section Values

/-- The part of a number that the second pattern takes: its text up to the exponent. -/
def mantissa (x : Bytes) : Bytes := x.takeWhile numberClass.test

def numberSeen : Tree → Option Bytes
  | .num x _ => some (mantissa x)
  | _ => none

theorem number_quoteFree {x : Bytes} {q : ℚ} (h : Json.readNumber x = some (q, [])) : QuoteFree x := by
  rintro b hb rfl
  exact absurd ((Json.readNumber_bytes h).2 34 hb) (by decide)

theorem mantissa_ne {x : Bytes} {q : ℚ} (h : Json.readNumber x = some (q, [])) :
    mantissa x ≠ [] := by
  have hbyte : ∀ b : UInt8, Json.isDigit b = true ∨ b = 45 → numberClass.test b = true :=
    forall_byte (by decide +kernel)
  obtain ⟨⟨b, u, rfl, hb⟩, -⟩ := Json.readNumber_bytes h
  simp [mantissa, hbyte b hb]

theorem numberRun_number {x : Bytes} {q : ℚ} (h : Json.readNumber x = some (q, [])) {gap : Bytes}
    (hgap : ∀ b ∈ gap.head?, isNumberByte b = false) : numberRun (x ++ gap) = some (mantissa x) := by
  have hbyte : ∀ b : UInt8, isNumberByte b = false → numberClass.test b = false :=
    forall_byte (by decide +kernel)
  have hnil : gap.takeWhile numberClass.test = [] :=
    takeWhile_stop fun b hb => hbyte b (hgap b hb)
  have htake : (x ++ gap).takeWhile numberClass.test = mantissa x := by
    rw [List.takeWhile_append, hnil, List.append_nil, mantissa]
    split_ifs with hlen
    · exact ((List.takeWhile_prefix _).eq_of_length hlen).symm
    · rfl
  simp only [numberRun, htake, if_neg (mantissa_ne h)]

theorem numberRun_none {y : Bytes} (h : ∀ b ∈ y.head?, numberClass.test b = false) :
    numberRun y = none := by
  cases y with
  | nil => rfl
  | cons b y => simp [numberRun, h b (by simp)]

theorem numberRun_value {t r : Bytes} {x : Tree} (h : Written .value t x r) :
    numberRun (lead t) = numberSeen x := by
  have hother : ∀ {b : UInt8} {u : Bytes}, numberClass.test b = false → b ≠ 34 →
      numberRun (lead (b :: u)) = none := by
    intro b u hb hq
    apply numberRun_none
    simpa [lead_cons hq] using hb
  cases h with
  | null ht => exact ht ▸ hother rfl (by decide)
  | @bool t r b ht =>
    subst ht
    cases b with
    | true => exact hother rfl (by decide)
    | false => exact hother rfl (by decide)
  | num ht hx hr =>
    subst ht
    rw [lead_append (number_quoteFree hx), numberSeen]
    exact numberRun_number hx fun b hb => hr b (lead_head hb)
  | str h =>
    cases h with
    | mk h ht => rfl
  | emptyArr h => exact hother rfl (by decide)
  | arr h => exact hother rfl (by decide)
  | emptyObj h => exact hother rfl (by decide)
  | obj h => exact hother rfl (by decide)

/-- The third pattern reads no value of JSON. -/
theorem boolText_value {t r : Bytes} {x : Tree} (h : Written .value t x r) (hr : Closes r) :
    boolText (lead t) = none := by
  have hother : ∀ {b : UInt8} {u : Bytes}, b ≠ 116 → boolText (lead (b :: u)) = none := by
    intro b u hb
    apply boolText_none
    intro c hc
    obtain rfl : b = c := by simpa using lead_head hc
    exact hb
  cases h with
  | null ht => exact ht ▸ hother (by decide)
  | @bool t r b ht =>
    subst ht
    cases b with
    | false => exact hother (by decide)
    | true =>
      have hword : utf8 "true|false" = utf8 (toString true) ++ 124 :: utf8 "false" := by decide
      have hfree : QuoteFree (utf8 (toString true)) := forall_mem_bytes (by decide)
      rw [boolText, if_neg]
      rw [lead_append hfree, hword, List.prefix_append_right_inj]
      rintro ⟨w, hw⟩
      have hbar : 124 ∈ r.head? := by
        apply lead_head
        rw [← hw]
        rfl
      obtain ⟨u, rfl⟩ : ∃ u, r = 124 :: u := by
        cases r with
        | nil => simp at hbar
        | cons b u => exact ⟨u, by simpa using hbar⟩
      have h124 := hr 124 (by rw [Json.skip_cons (by decide)]; rfl)
      exact absurd h124 (by decide)
  | num ht hx hr' =>
    obtain ⟨⟨b, u, rfl, hb⟩, -⟩ := Json.readNumber_bytes hx
    subst ht
    apply hother
    rintro rfl
    exact absurd hb (by decide)
  | str h =>
    cases h with
    | mk h ht => exact hother (by decide)
  | emptyArr h => exact hother (by decide)
  | arr h => exact hother (by decide)
  | emptyObj h => exact hother (by decide)
  | obj h => exact hother (by decide)

theorem lead_value {t r : Bytes} {x : Tree} (h : Written .value t x r) :
    lead t = [] ↔ ∃ raw s, x = .str raw s := by
  obtain ⟨b, u, rfl, hb⟩ := h.starts
  have hother : b ≠ 34 → lead (b :: u) ≠ [] := fun hq => by simp [lead_cons hq]
  have hdigit : ∀ b : UInt8, Json.isDigit b = true ∨ b = 45 → b ≠ 34 := forall_byte (by decide +kernel)
  cases x with
  | str raw s => exact ⟨fun _ => ⟨raw, s, rfl⟩, fun _ => (show b = 34 from hb) ▸ rfl⟩
  | num y q => simpa using hother (hdigit b hb)
  | bool v => cases v <;> simpa using hother (hb ▸ by decide)
  | null => simpa using hother (hb ▸ by decide)
  | arr vs => simpa using hother (hb ▸ by decide)
  | obj ms => simpa using hother (hb ▸ by decide)

end Values

section Scans

theorem scanBare_front {read : Bytes → Option Bytes} {n : Bytes} {l : List Bytes} (segs : List Bytes)
    (hl : ∀ o ∈ l, (afterColon o).bind read = none) :
    scanBare read (n :: l ++ segs) = scanBare read ((n :: l).getLast (by simp) :: segs) := by
  induction l generalizing n with
  | nil => rfl
  | cons m l ih =>
    have hm : ∀ o ∈ (m :: l ++ segs).head?, (afterColon o).bind read = none := by
      simpa using hl m (by simp)
    rw [List.getLast_cons (by simp), ← ih fun o ho => hl o (by simp [ho])]
    exact scanBare_skip hm

theorem scanStrings_front {n : Bytes} {l : List Bytes} (segs : List Bytes)
    (hl : ∀ o ∈ l, afterColon o ≠ some []) :
    scanStrings (n :: l ++ segs) = scanStrings ((n :: l).getLast (by simp) :: segs) := by
  induction l generalizing n with
  | nil => rfl
  | cons m l ih =>
    have hm : ∀ o ∈ (m :: l ++ segs).head?, afterColon o ≠ some [] := by
      simpa using hl m (by simp)
    rw [List.getLast_cons (by simp), ← ih fun o ho => hl o (by simp [ho])]
    exact scanStrings_skip hm

theorem scanStrings_nil (segs : List Bytes) : scanStrings ([] :: segs) = scanStrings segs := by
  match segs with
  | [] => rfl
  | [_] => rfl
  | [_, _] => rfl
  | o :: v :: z :: rest => simp [scanStrings]

theorem scanStrings_last (a b : Bytes) :
    ∀ segs : List Bytes, scanStrings (segs ++ [a]) = scanStrings (segs ++ [b])
  | [] => rfl
  | [_] => rfl
  | [_, _] => rfl
  | [n, o, v] => by simp [scanStrings]
  | n :: o :: v :: z :: segs => by
    have hnext := scanStrings_last a b (o :: v :: z :: segs)
    simp only [List.cons_append] at hnext ⊢
    rw [scanStrings, scanStrings, scanStrings_last a b segs, hnext]
  termination_by segs => segs.length

/-- The name that the patterns take from the raw text of a name. -/
def seenName (raw : Bytes) : Bytes := (pieces raw).getLast (by simp [pieces])

/-- The match at a member, unless its name is empty. -/
def sighting (raw : Bytes) (v : Option Bytes) : List (List Bytes) :=
  if seenName raw = [] then [] else (v.map fun v => [seenName raw, v]).toList

theorem sighting_none (raw : Bytes) : sighting raw none = [] := by simp [sighting]

variable {read : Bytes → Option Bytes} {raw gap : Bytes} {segs : List Bytes}

/-- A string and the text behind it. A literal there belongs to the string, whatever follows. -/
theorem scanBare_word (hraw : ∀ s ∈ segments raw, (afterColon s).bind read = none)
    (hs : ((afterColon gap).bind read ≠ none ∧ seenName raw ≠ []) ∨
      ∀ o ∈ segs.head?, (afterColon o).bind read = none) :
    scanBare read (pieces raw ++ gap :: segs) =
      sighting raw ((afterColon gap).bind read) ++ scanBare read segs := by
  rw [pieces, scanBare_front _ hraw]
  change scanBare read (seenName raw :: gap :: segs) = _
  rw [scanBare, sighting]
  split_ifs with hname
  · exact scanBare_skip (hs.resolve_left fun h => h.2 hname)
  · cases hv : (afterColon gap).bind read with
    | some v => rfl
    | none => exact scanBare_skip (hs.resolve_left fun h => h.1 hv)

theorem scanStrings_word (hraw : ∀ s ∈ segments raw, afterColon s ≠ some [])
    (hgap : seenName raw ≠ [] → afterColon gap ≠ some [])
    (hs : ∀ o ∈ segs.head?, afterColon o ≠ some []) :
    scanStrings (pieces raw ++ gap :: segs) = scanStrings segs := by
  rw [pieces, scanStrings_front _ hraw]
  change scanStrings (seenName raw :: gap :: segs) = _
  by_cases hname : seenName raw = []
  · rw [hname, scanStrings_nil, scanStrings_skip hs]
  · rw [scanStrings_skip (by simpa using hgap hname), scanStrings_skip hs]

/-- A name and its string: the scan goes on behind the second part after the colon. -/
theorem scanStrings_value {n colon : Bytes} (hn : n ≠ []) (hcolon : afterColon colon = some [])
    (hraw : ∀ s ∈ segments raw, afterColon s ≠ some []) (hgap : afterColon gap ≠ some [])
    (hs : segments raw ≠ [] → ∀ o ∈ segs.head?, afterColon o ≠ some []) :
    scanStrings (n :: colon :: (pieces raw ++ gap :: segs)) =
      [n, lead raw] :: scanStrings segs := by
  rw [pieces]
  cases hrest : segments raw with
  | nil => rw [List.cons_append, List.nil_append, scanStrings, if_pos ⟨hn, hcolon⟩]
  | cons z l =>
    rw [hrest] at hraw hs
    rw [List.cons_append, List.cons_append, scanStrings, if_pos ⟨hn, hcolon⟩]
    congr 1
    cases l with
    | nil => exact scanStrings_skip (hs (by simp))
    | cons y l =>
      rw [scanStrings_front _ fun o ho => hraw o (by simp [ho]), scanStrings_skip (by simpa using hgap),
        scanStrings_skip (hs (by simp))]

theorem segments_str {t raw s r : Bytes} (h : Str t raw s r) :
    segments t = pieces raw ++ lead r :: segments r := by
  cases h with
  | mk h ht =>
    rw [ht, segments_quote]
    exact pieces_append_quote raw r

theorem word_quoteFree {s : String} (hs : s ∈ ["null", "true", "false"]) : QuoteFree (utf8 s) := by
  have hall : ∀ s ∈ ["null", "true", "false"], (utf8 s).all (fun b => decide (b ≠ 34)) = true := by
    decide
  exact forall_mem_bytes (hall s hs)

theorem bool_word (b : Bool) : toString b ∈ ["null", "true", "false"] := by cases b <;> decide

end Scans

end LuaProxy.JsonSegments
