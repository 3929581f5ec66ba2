import LuaProxy.JsonNames
import LuaProxy.JwtPayload

/-! What `jwt.verify` reads from a flat payload at a name such as `exp`: the last number of that
name, or else a string. -/
namespace LuaProxy.JwtReading
open Text Lua Jwt JwtCodec JwtToken JsonScan JsonSegments JsonParts JsonWords JsonNames JwtPayload
open Json (Tree Document skip)

section Seen

/-- What is read of the members, of which the last may have lost a byte. -/
def readOf (read : Bool → Bytes × Bytes × Tree → Option Bytes) (t : Bytes)
    (ms : List (Bytes × Bytes × Tree)) : List Bytes :=
  ms.dropLast.filterMap (read false) ++
    ms.getLast?.toList.filterMap fun m => read (decide (Lost t m)) m

/-- A number with this name, up to its exponent. -/
def numberOf (k : Bytes) (lost : Bool) (m : Bytes × Bytes × Tree) : Option Bytes :=
  match m.2.2 with
  | .num x _ => if seenName m.1 = k then numberRun (if lost then x.dropLast else x) else none
  | _ => none

/-- A string with this name, up to its first quote, which may be the one that is lost. -/
def stringOf (k : Bytes) (lost : Bool) (m : Bytes × Bytes × Tree) : Option Bytes :=
  match m.2.2 with
  | .str raw _ => if seenName m.1 = k ∧ ¬ (lost = true ∧ segments raw = []) then some (lead raw) else none
  | _ => none

def isString : Tree → Bool
  | .str _ _ => true
  | _ => false

def Unclosed (t : Bytes) (ms : List (Bytes × Bytes × Tree)) : Prop :=
  ∃ m ∈ ms.getLast?, isString m.2.2 = true ∧ Lost t m

instance (t : Bytes) (ms : List (Bytes × Bytes × Tree)) : Decidable (Unclosed t ms) := by
  unfold Unclosed; infer_instance

/-- The parts of what is read. -/
def partsRead (t : Bytes) (ms : List (Bytes × Bytes × Tree)) : List Part :=
  if Unclosed t ms then (partsOf t ms).dropLast else partsOf t ms

/-- A string is read at this name, and no number that would take its place. -/
def ReadsString (t k : Bytes) (ms : List (Bytes × Bytes × Tree)) : Prop :=
  readOf (numberOf k) t ms = [] ∧
    if Undisturbed ms then readOf (stringOf k) t ms ≠ []
    else lastOf k (JsonParts.strings (partsRead t ms)) ≠ none

end Seen

section Reading
variable {t k : Bytes} {ms : List (Bytes × Bytes × Tree)} {m : Bytes × Bytes × Tree}

theorem words_concat (ms : List (Bytes × Bytes × Tree)) (m : Bytes × Bytes × Tree) :
    words (.obj (ms ++ [m])) = words (.obj ms) ++ (⟨m.1, lookOf m.2.2⟩ :: words m.2.2) := by
  induction ms with
  | nil => simp [words, memberWords]
  | cons n ms ih => rw [List.cons_append, words_obj, ih, words_obj, List.cons_append, List.append_assoc]

/-- What is read, with the last string and what is left behind it. -/
theorem whole_placed (hdoc : Document t (.obj (ms ++ [m]))) (hflat : Flat (ms ++ [m])) :
    ValidUtf8 (whole t) ∧ ∃ ps p rest, JsonWords.strings t (ms ++ [m]) = ps ++ [p] ∧
      segments (whole t) = ps.flatMap Placed.segments ++ (pieces p.raw ++ rest) ∧
      ((rest = [] ∧ Lost t m ∧ ∃ raw s, m.2.2 = .str raw s) ∨
        ¬ (Lost t m ∧ ∃ raw s, m.2.2 = .str raw s) ∧ ∃ e, rest = [e] ∧ LastGap t m e) := by
  obtain ⟨hvalid, s, g, ht, hg, hend⟩ := whole_end hdoc hflat
  have hlays := lays_document hdoc
  have hsegs := segments_document hdoc
  obtain ⟨ps, p, hps⟩ : ∃ ps p, JsonWords.strings t (ms ++ [m]) = ps ++ [p] := by
    rcases List.eq_nil_or_concat' (JsonWords.strings t (ms ++ [m])) with hnil | h
    · have hwords := hlays.words
      rw [hnil, words_concat] at hwords
      simp at hwords
    · exact h
  have hs : segments s = ps.flatMap Placed.segments ++ pieces p.raw := by
    have hsplit : segments t = segments s ++ [g] := by
      rw [ht, segments_concat, pieces_quoteFree hg]
    rw [hsegs, hps, List.flatMap_append, List.flatMap_singleton, Placed.segments,
      ← List.append_assoc] at hsplit
    exact (List.append_inj_left' hsplit rfl).symm
  refine ⟨hvalid, ps, p, ?_⟩
  rcases hend with ⟨hlost, hstr, hwhole⟩ | ⟨hnot, e, he, hwhole, hgap⟩
  · refine ⟨[], hps, ?_, Or.inl ⟨rfl, hlost, hstr⟩⟩
    rw [hwhole, hs, List.append_nil]
  · refine ⟨[e], hps, ?_, Or.inr ⟨hnot, e, rfl, hgap⟩⟩
    rw [hwhole, segments_concat, pieces_quoteFree he, hs, List.append_assoc]

theorem whole_empty (hdoc : Document t (.obj [])) : ValidUtf8 (whole t) ∧ segments (whole t) = [] := by
  obtain ⟨-, r, hw, hr⟩ := hdoc
  obtain ⟨b, hb, hrb⟩ := spaces_skip r
  rw [hr, List.append_nil] at hrb
  obtain ⟨b₀, hb₀, ht⟩ := spaces_skip t
  generalize skip t = t₀ at hw ht
  have hbyte : ∀ c ∈ t, c ≠ 34 ∧ c < 128 := by
    have hspace : ∀ {b : Bytes}, Spaces b → ∀ c ∈ b, c ≠ 34 ∧ c < 128 :=
      fun hb c hc => ⟨(space_byte (hb c hc)).1, (space_byte (hb c hc)).2.2.1⟩
    cases hw with
    | @emptyObj u r hu =>
      obtain ⟨b₁, hb₁, hub⟩ := spaces_skip u
      rw [ht, hub, hu, hrb]
      simp only [List.forall_mem_append, List.forall_mem_cons]
      exact ⟨hspace hb₀, by decide, hspace hb₁, by decide, hspace hb⟩
    | obj h => exact (members_ne h).elim
  have hmem : ∀ c ∈ whole t, c ∈ t := fun c hc => List.mem_of_mem_take hc
  have hfree : QuoteFree (whole t) := fun c hc => (hbyte c (hmem c hc)).1
  have hpieces := pieces_quoteFree hfree
  exact ⟨Ascii.validUtf8 fun c hc => (hbyte c (hmem c hc)).2, (List.cons.inj hpieces).2⟩

theorem behind_last (read : Bytes → Option Bytes) (hk : Aloof k) {p : Placed} (hp : p.Fits)
    (rest : List Bytes) :
    behind read k (pieces p.raw ++ rest) = behind read k (seenName p.raw :: rest) := by
  rw [pieces, behind_front (hk.pieces hp)]
  rfl

theorem named_numbers (hk : k ≠ []) (hflat : Flat ms)
    (hne : ∀ w ∈ words (.obj ms), ∀ y, w.look.asNumber = some y → y ≠ []) :
    named Look.asNumber k (words (.obj ms)) = ms.filterMap (numberOf k false) := by
  induction ms with
  | nil => rfl
  | cons m ms ih =>
    obtain ⟨raw, k', v⟩ := m
    rw [words_obj] at hne ⊢
    obtain ⟨hv, htail⟩ := List.forall_mem_cons.mp hflat
    have hrest := ih htail fun w hw => hne w (by simp [hw])
    rcases hv with ⟨raw', s, rfl⟩ | ⟨x, q, rfl⟩
    · rw [List.filterMap_cons_none rfl, ← hrest]
      simp [named, words, lookOf, Look.asNumber]
    · have hx : x.takeWhile numberClass.test ≠ [] := hne _ List.mem_cons_self _ rfl
      rw [List.filterMap_cons, ← hrest]
      by_cases hname : seenName raw = k
      · simp [named, words, lookOf, Look.asNumber, numberOf, numberRun, mantissa, hname, hk, hx]
      · simp [named, words, lookOf, Look.asNumber, numberOf, hname]

theorem words_ne {t : Bytes} (hdoc : Document t (.obj ms)) :
    ∀ w ∈ words (.obj ms), ∀ y, w.look.asNumber = some y → y ≠ [] := by
  intro w hw y hy
  obtain ⟨-, r, hwritten, -⟩ := hdoc
  obtain ⟨z, q, hz, rfl⟩ := words_number hwritten hw hy
  exact mantissa_ne hz

theorem words_last {ps : List Placed} {p : Placed} (hflat : Flat (ms ++ [m]))
    (h : (ps ++ [p]).map Placed.toWord = words (.obj (ms ++ [m]))) :
    (∃ raw s, m.2.2 = .str raw s ∧ p.raw = raw ∧
        ps.map Placed.toWord = words (.obj ms) ++ [⟨m.1, .string (lead raw)⟩]) ∨
      ∃ x q, m.2.2 = .num x q ∧ p.raw = m.1 ∧ ps.map Placed.toWord = words (.obj ms) := by
  rw [List.map_append, List.map_singleton, words_concat] at h
  rcases hflat m (by simp) with ⟨raw, s, hv⟩ | ⟨x, q, hv⟩
  · left
    have hsplit : ps.map Placed.toWord ++ [p.toWord] =
        (words (.obj ms) ++ [⟨m.1, .string (lead raw)⟩]) ++ [⟨raw, .other⟩] := by
      rw [h, hv]
      simp [words, lookOf]
    obtain ⟨hps, hp⟩ := List.append_inj' hsplit rfl
    exact ⟨raw, s, hv, congrArg Word.raw (List.singleton_inj.mp hp), hps⟩
  · right
    have hsplit : ps.map Placed.toWord ++ [p.toWord] =
        words (.obj ms) ++ [⟨m.1, .number (mantissa x)⟩] := by
      rw [h, hv]
      simp [words, lookOf]
    obtain ⟨hps, hp⟩ := List.append_inj' hsplit rfl
    exact ⟨x, q, hv, congrArg Word.raw (List.singleton_inj.mp hp), hps⟩

theorem readOf_concat (read : Bool → Bytes × Bytes × Tree → Option Bytes) :
    readOf read t (ms ++ [m]) = ms.filterMap (read false) ++ (read (decide (Lost t m)) m).toList := by
  rw [readOf, List.dropLast_concat, List.getLast?_concat]
  cases h : read (decide (Lost t m)) m <;> simp [h]

theorem behind_whole (hk : Aloof k) (hdoc : Document t (.obj ms)) (hflat : Flat ms) :
    behind numberRun k (segments (whole t)) = readOf (numberOf k) t ms ∧
      behind boolText k (segments (whole t)) = [] := by
  rcases List.eq_nil_or_concat' ms with rfl | ⟨ms, m, rfl⟩
  · rw [(whole_empty hdoc).2]
    exact ⟨rfl, rfl⟩
  · obtain ⟨-, ps, p, rest, hps, hsegs, hrest⟩ := whole_placed hdoc hflat
    have hlays := lays_document hdoc
    rw [hps] at hlays
    have hfits : ∀ q ∈ ps, q.Fits := fun q hq => hlays.fits q (by simp [hq])
    have hp := hlays.fits p (by simp)
    have hne := words_ne hdoc
    rw [words_concat] at hne
    have hinit := named_numbers hk.ne (fun m hm => hflat m (List.mem_append_left _ hm))
      fun w hw => hne w (List.mem_append_left _ hw)
    rw [hsegs, behind_numbers hk hfits, behind_flags hk hfits, behind_last _ hk hp, behind_last _ hk hp,
      readOf_concat, ← hinit]
    rcases words_last hflat hlays.words with ⟨raw, s, hv, -, hwords⟩ | ⟨x, q, hv, hraw, hwords⟩
    · have hnone : numberOf k (decide (Lost t m)) m = none := by simp [numberOf, hv]
      have hname : named Look.asNumber k [⟨m.1, .string (lead raw)⟩] = [] := by
        simp [named, Look.asNumber]
      rw [hwords, named_append, hname, hnone]
      rcases hrest with ⟨rfl, -⟩ | ⟨-, e, rfl, hgap⟩
      · simp [behind]
      · simp [behind, hgap.flag, hgap.number, hv]
    · rcases hrest with ⟨-, -, raw, s, hstr⟩ | ⟨-, e, rfl, hgap⟩
      · simp [hv] at hstr
      · rw [hwords, hraw]
        have hnumber := hgap.number
        rw [hv] at hnumber
        by_cases hname : seenName m.1 = k
        · simp [behind, hgap.flag, hnumber, numberOf, hv, hname]
        · simp [behind, numberOf, hv, hname]

theorem readPayload_aloof (hk : Aloof k) (hdoc : Document t (.obj ms)) (hflat : Flat ms) :
    (readPayload t).get k = ((readOf (numberOf k) t ms).getLast?.map numeral).getD
      (((lastOf k (scanStrings (segments (whole t)))).map Value.str).getD .nil) := by
  have hvalid : ValidUtf8 (whole t) := by
    rcases List.eq_nil_or_concat' ms with rfl | ⟨ms, m, rfl⟩
    · exact (whole_empty hdoc).1
    · exact (whole_placed hdoc hflat).1
  obtain ⟨hnumbers, hflags⟩ := behind_whole hk hdoc hflat
  rw [readPayload_eq hvalid, parseJsonObj_found, Found.get, found]
  simp only [lastOf_scanBare hk, hnumbers, hflags, List.getLast?_nil, Option.map_none, Option.getD_none]

end Reading

section Strings
variable {t k : Bytes} {ms : List (Bytes × Bytes × Tree)} {m : Bytes × Bytes × Tree}

theorem lastOf_strings_none {segs : List Bytes} (h : ∀ s ∈ segs.dropLast, s ≠ k) :
    lastOf k (scanStrings segs) = none := by
  fun_induction scanStrings segs with
  | case1 n o v z rest hm ih =>
    have hn : n ≠ k := h n (by simp)
    have hrest : ∀ s ∈ rest.dropLast, s ≠ k := by
      intro s hs
      apply h s
      have hne : rest ≠ [] := by
        rintro rfl
        simp at hs
      rw [List.dropLast_cons_of_ne_nil (by simp), List.dropLast_cons_of_ne_nil (by simp),
        List.dropLast_cons_of_ne_nil (by simp), List.dropLast_cons_of_ne_nil hne]
      simp [hs]
    rw [lastOf, ih hrest, matchFor, if_neg hn]
    rfl
  | case2 n o v z rest hm ih =>
    apply ih
    intro s hs
    apply h s
    rw [List.dropLast_cons_of_ne_nil (by simp)]
    exact List.mem_cons_of_mem _ hs
  | case3 => rfl

theorem chained_words (hflat : Flat ms) : Chained (words (.obj ms)) := by
  induction ms with
  | nil => trivial
  | cons m ms ih =>
    obtain ⟨raw, k, v⟩ := m
    obtain ⟨hv, htail⟩ := List.forall_mem_cons.mp hflat
    rw [words_obj]
    rcases hv with ⟨raw', s, rfl⟩ | ⟨x, q, rfl⟩
    · exact ⟨by simp [lookOf, Look.asString, words], by simp [Look.asString], ih htail⟩
    · exact ⟨by simp [lookOf, Look.asString], ih htail⟩

theorem named_strings (hk : k ≠ []) (hflat : Flat ms) :
    named Look.asString k (words (.obj ms)) = ms.filterMap (stringOf k false) := by
  induction ms with
  | nil => rfl
  | cons m ms ih =>
    obtain ⟨raw, k', v⟩ := m
    obtain ⟨hv, htail⟩ := List.forall_mem_cons.mp hflat
    rw [words_obj, List.filterMap_cons, ← ih htail]
    rcases hv with ⟨raw', s, rfl⟩ | ⟨x, q, rfl⟩
    · by_cases hname : seenName raw = k
      · simp [named, words, lookOf, Look.asString, stringOf, hname, hk]
      · simp [named, words, lookOf, Look.asString, stringOf, hname]
    · simp [named, words, lookOf, Look.asString, stringOf]

theorem unclosed_concat : Unclosed t (ms ++ [m]) ↔ Lost t m ∧ ∃ raw s, m.2.2 = .str raw s := by
  have hstring : ∀ v, isString v = true ↔ ∃ raw s, v = .str raw s := by
    intro v
    cases v <;> simp [isString]
  simp [Unclosed, hstring, and_comm]

theorem strings_whole (hdoc : Document t (.obj ms)) (hflat : Flat ms) :
    scanStrings (segments (whole t)) = JsonParts.strings (partsRead t ms) := by
  rcases List.eq_nil_or_concat' ms with rfl | ⟨ms, m, rfl⟩
  · rw [(whole_empty hdoc).2]
    rfl
  · obtain ⟨-, ps, p, rest, hps, hsegs, hrest⟩ := whole_placed hdoc hflat
    have hfits := (lays_document hdoc).fits
    have htexts : (partsOf t (ms ++ [m])).map Part.text =
        (ps.flatMap Placed.segments ++ pieces p.raw) ++ [p.gap] := by
      rw [partsOf, parts_text, hps]
      simp [Placed.segments]
    rw [hsegs, partsRead]
    rcases hrest with ⟨rfl, hlost⟩ | ⟨hkept, e, rfl, -⟩
    · rw [if_pos (unclosed_concat.mpr hlost), strings_eq, List.map_dropLast, htexts,
        List.dropLast_concat, List.append_nil]
      intro x hx
      exact (parts_say hfits (List.mem_of_mem_dropLast (List.mem_of_mem_dropLast hx))).2.2
    · rw [if_neg fun h => hkept (unclosed_concat.mp h), strings_eq, htexts, ← List.append_assoc]
      · exact scanStrings_last _ _ _
      · exact fun x hx => (parts_say hfits (List.mem_of_mem_dropLast hx)).2.2

/-- The last string without its closing quote: it is found only if it has an escaped one. -/
theorem strings_unclosed {raw gap : Bytes} (hk : Aloof k) {p : Placed} (hp : p.Fits)
    (hsilent : ∀ s ∈ segments raw, afterColon s ≠ some []) (hcolon : afterColon gap = some [])
    (hgap : gap ≠ k) :
    lastOf k (scanStrings (pieces raw ++ gap :: pieces p.raw)) =
      if seenName raw = k ∧ segments p.raw ≠ [] then some (lead p.raw) else none := by
  have hpieces := hk.pieces hp
  have hfront : scanStrings (pieces raw ++ gap :: pieces p.raw) =
      scanStrings (seenName raw :: gap :: pieces p.raw) := by
    rw [pieces, scanStrings_front _ hsilent]
    rfl
  rw [hfront]
  by_cases hname : seenName raw = []
  · rw [hname, scanStrings_nil, if_neg fun h => hk.ne h.1.symm]
    apply lastOf_strings_none
    rw [List.dropLast_cons_of_ne_nil (by simp [pieces]), List.forall_mem_cons]
    exact ⟨hgap, hpieces⟩
  · cases hsegs : segments p.raw with
    | nil => simp [pieces, hsegs, scanStrings, lastOf]
    | cons z l =>
      rw [pieces, hsegs] at hpieces
      have hl : lastOf k (scanStrings l) = none := by
        apply lastOf_strings_none
        intro s hs
        have hne : l ≠ [] := by
          rintro rfl
          simp at hs
        apply hpieces s
        rw [List.dropLast_cons_of_ne_nil (by simp), List.dropLast_cons_of_ne_nil hne]
        simp [hs]
      rw [pieces, hsegs, scanStrings, if_pos ⟨hname, hcolon⟩, lastOf, hl, matchFor]
      simp

section Last
variable {ps : List Placed} {p : Placed} (hk : Aloof k) (hdoc : Document t (.obj (ms ++ [m])))
  (hflat : Flat (ms ++ [m])) (h : Undisturbed (ms ++ [m]))
  (hps : JsonWords.strings t (ms ++ [m]) = ps ++ [p])
include hk hdoc hflat h hps

theorem strings_lost {raw s : Bytes} (hlost : Lost t m) (hv : m.2.2 = .str raw s) :
    lastOf k (scanStrings (ps.flatMap Placed.segments ++ pieces p.raw)) =
      (readOf (stringOf k) t (ms ++ [m])).getLast? := by
  have hlays := lays_document hdoc
  rw [hps] at hlays
  have hflat' : Flat ms := fun n hn => hflat n (List.mem_append_left _ hn)
  obtain ⟨raw', s', hv', hraw, hwords⟩ | ⟨x, q, hv', -⟩ := words_last hflat hlays.words
  · -- the name in front of the last string
    obtain ⟨qs, l, rfl, hqs, hl⟩ := List.map_eq_append_iff.mp hwords
    obtain ⟨n, rfl, hn⟩ : ∃ n, l = [n] ∧ n.toWord = ⟨m.1, .string (lead raw')⟩ := by
      cases l with
      | nil => simp at hl
      | cons n l => exact ⟨n, by simpa [and_comm] using hl⟩
    have hfits := hlays.fits
    have hclear : Clear false (qs.map Placed.toWord ++ [n.toWord, p.toWord]) := by
      have hall := hlays.words
      rw [List.map_append, List.map_append, List.append_assoc] at hall
      exact hall ▸ h
    have hname : n.raw = m.1 := congrArg Word.raw hn
    have hlook : n.look = .string (lead raw') := congrArg Word.look hn
    have hcolon : afterColon n.gap = some [] := by
      rw [(hfits n (by simp)).string, hlook]
      simp [Look.asString]
    have hscan := @scanStrings_clear _ _ (pieces n.raw ++ n.gap :: pieces p.raw)
      (by simp [pieces]) (fun q hq => hfits q (by simp [hq])) (hqs ▸ chained_words hflat') hclear
    have hsplit : (qs ++ [n]).flatMap Placed.segments ++ pieces p.raw =
        qs.flatMap Placed.segments ++ (pieces n.raw ++ n.gap :: pieces p.raw) := by
      simp [Placed.segments]
    have hsightings : qs.flatMap (fun p => sighting p.raw p.look.asString) =
        (words (.obj ms)).flatMap fun w => sighting w.raw w.look.asString := by
      rw [← hqs, List.flatMap_map]
    have hlast := @strings_unclosed _ n.raw _ hk _ (hfits p (by simp))
      (fun s hs => (hclear.silent n.toWord (by simp) s hs).2.2) hcolon
      (hk.gap (hfits n (by simp)))
    have hstring : stringOf k (decide (Lost t m)) m =
        if seenName n.raw = k ∧ segments p.raw ≠ [] then some (lead p.raw) else none := by
      simp [stringOf, hlost, hv', hname, hraw]
    rw [hsplit, hscan, hsightings, lastOf_append, hlast, lastOf_sightings, named_strings hk.ne hflat',
      readOf_concat, List.getLast?_append, hstring]
    split_ifs <;> rfl
  · simp [hv] at hv'

theorem strings_kept (hkept : ¬ (Lost t m ∧ ∃ raw s, m.2.2 = .str raw s)) (e : Bytes) :
    lastOf k (scanStrings (ps.flatMap Placed.segments ++ (pieces p.raw ++ [e]))) =
      (readOf (stringOf k) t (ms ++ [m])).getLast? := by
  have hall : scanStrings (ps.flatMap Placed.segments ++ (pieces p.raw ++ [e])) =
      (found t).strings := by
    rw [found, segments_document hdoc, hps, List.flatMap_append, List.flatMap_singleton,
      Placed.segments, ← List.append_assoc, ← List.append_assoc]
    exact scanStrings_last _ _ _
  have hlast : stringOf k (decide (Lost t m)) m = stringOf k false m := by
    by_cases hlost : Lost t m
    · rcases hflat m (by simp) with hstr | ⟨x, q, hv⟩
      · exact absurd ⟨hlost, hstr⟩ hkept
      · simp [stringOf, hv]
    · simp [hlost]
  rw [hall, found_clear (lays_document hdoc) h, lastOf_sightings, named_strings hk.ne hflat,
    readOf_concat, hlast, List.filterMap_append]
  cases hm : stringOf k false m <;> simp [hm]

end Last

theorem strings_undisturbed (hk : Aloof k) (hdoc : Document t (.obj ms)) (hflat : Flat ms)
    (h : Undisturbed ms) :
    lastOf k (scanStrings (segments (whole t))) = (readOf (stringOf k) t ms).getLast? := by
  rcases List.eq_nil_or_concat' ms with rfl | ⟨ms, m, rfl⟩
  · rw [(whole_empty hdoc).2]
    rfl
  · obtain ⟨-, ps, p, rest, hps, hsegs, hrest⟩ := whole_placed hdoc hflat
    rw [hsegs]
    rcases hrest with ⟨rfl, hlost, raw, s, hv⟩ | ⟨hkept, e, rfl, -⟩
    · rw [List.append_nil]
      exact strings_lost hk hdoc hflat h hps hlost hv
    · exact strings_kept hk hdoc hflat h hps hkept e

theorem readsString_iff (hk : Aloof k) (hdoc : Document t (.obj ms)) (hflat : Flat ms) :
    ReadsString t k ms ↔ (readOf (numberOf k) t ms).getLast? = none ∧
      lastOf k (scanStrings (segments (whole t))) ≠ none := by
  rw [ReadsString, List.getLast?_eq_none_iff]
  split_ifs with h
  · simp only [strings_undisturbed hk hdoc hflat h, ne_eq, List.getLast?_eq_none_iff]
  · rw [strings_whole hdoc hflat]

end Strings
end LuaProxy.JwtReading
