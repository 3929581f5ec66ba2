import LuaProxy.JsonParts
import LuaProxy.JsonSegments
import LuaProxy.JsonText

/-! The strings of a JSON text in their order, each with what stands behind it. As long as no
string is taken for what stands between a name and its value, the patterns of `parse_json_obj`
find the members, at any depth. -/
namespace LuaProxy.JsonWords
open Text Jwt JsonScan JsonSegments JsonParts
open Json (Tree Str Written skip isSpace)

section Words

/-- What stands behind a string: a colon and a string, of which the patterns see the text up to
its first quote, a colon and a number, of which they see the text up to its exponent, or
something else. -/
inductive Look
  | string (v : Bytes)
  | number (y : Bytes)
  | other
  deriving DecidableEq

namespace Look

def asString : Look → Option Bytes
  | .string v => some v
  | _ => none

def asNumber : Look → Option Bytes
  | .number y => some y
  | _ => none

end Look

/-- A name or a string, as it stands between its quotes. -/
structure Word where
  raw : Bytes
  look : Look
  deriving DecidableEq

def lookOf : Tree → Look
  | .str raw _ => .string (lead raw)
  | .num x _ => .number (mantissa x)
  | _ => .other

mutual

def words : Tree → List Word
  | .str raw _ => [⟨raw, .other⟩]
  | .arr vs => itemWords vs
  | .obj ms => memberWords ms
  | _ => []

def itemWords : List Tree → List Word
  | [] => []
  | v :: vs => words v ++ itemWords vs

def memberWords : List (Bytes × Bytes × Tree) → List Word
  | [] => []
  | (raw, _, v) :: ms => ⟨raw, lookOf v⟩ :: (words v ++ memberWords ms)

end

theorem words_arr (v : Tree) (vs : List Tree) : words (.arr (v :: vs)) = words v ++ words (.arr vs) := by
  simp only [words, itemWords]

theorem words_obj (raw k : Bytes) (v : Tree) (ms : List (Bytes × Bytes × Tree)) :
    words (.obj ((raw, k, v) :: ms)) = ⟨raw, lookOf v⟩ :: (words v ++ words (.obj ms)) := by
  simp only [words, memberWords]

/-- A string with the text behind it, up to the next quote. -/
structure Placed extends Word where
  gap : Bytes

def layout : List Word → Bytes → List Placed
  | [], _ => []
  | w :: ws, t =>
    let r := (t.dropWhile (· != 34)).drop (w.raw.length + 2)
    ⟨w, lead r⟩ :: layout ws r

theorem layout_append {s : Bytes} (hs : QuoteFree s) (ws : List Word) (t : Bytes) :
    layout ws (s ++ t) = layout ws t := by
  cases ws with
  | nil => rfl
  | cons w ws =>
    have hdrop : (s ++ t).dropWhile (· != 34) = t.dropWhile (· != 34) :=
      List.dropWhile_append_of_pos fun b hb => by simpa using hs b hb
    simp only [layout, hdrop]

theorem layout_str {t raw s r : Bytes} (h : Str t raw s r) (look : Look) (ws : List Word) :
    layout (⟨raw, look⟩ :: ws) t = ⟨⟨raw, look⟩, lead r⟩ :: layout ws r := by
  cases h with
  | mk h ht => simp [layout, ht]

theorem layout_skip (ws : List Word) (t : Bytes) : layout ws (skip t) = layout ws t := by
  have h := layout_append (blanks_quoteFree t) ws (skip t)
  rw [blanks_skip] at h
  exact h.symm

theorem layout_after {b : UInt8} {t u : Bytes} (ws : List Word) (h : skip t = b :: u) (hb : b ≠ 34) :
    layout ws t = layout ws u := by
  have hone : QuoteFree [b] := by simpa [QuoteFree] using hb
  rw [← layout_skip, h]
  exact layout_append hone ws u

end Words

section Layout

/-- Quotes in a string are escaped. The text behind it is what its look says, and it has a byte
that no name has. -/
structure Placed.Fits (p : Placed) : Prop where
  pieces : ∀ s ∈ (pieces p.raw).dropLast, s.getLast? = some 92
  number : (afterColon p.gap).bind numberRun = p.look.asNumber
  flag : (afterColon p.gap).bind boolText = none
  string : afterColon p.gap = some [] ↔ p.look.asString ≠ none
  mark : ∃ b ∈ p.gap, b = 44 ∨ b = 58 ∨ b = 93 ∨ b = 125

def Placed.segments (p : Placed) : List Bytes := pieces p.raw ++ [p.gap]

/-- Where a string stands behind a name, it is the next one. -/
def Chained : List Word → Prop
  | [] => True
  | w :: ws => (∀ v ∈ w.look.asString, ∃ x ∈ ws.head?, lead x.raw = v ∧ x.look = .other) ∧ Chained ws

/-- What a part of a text has in it. -/
structure Lays (t : Bytes) (ws : List Word) (r : Bytes) (ps : List Placed) : Prop where
  words : ps.map Placed.toWord = ws
  layout : ∀ ws', layout (ws ++ ws') t = ps ++ layout ws' r
  segments : segments t = ps.flatMap Placed.segments ++ segments r
  fits : ∀ p ∈ ps, p.Fits
  chained : ∀ ws', Chained ws' → Chained (ws ++ ws')

theorem Lays.nil {t r : Bytes} (hl : ∀ ws, JsonWords.layout ws t = JsonWords.layout ws r)
    (hs : JsonSegments.segments t = JsonSegments.segments r) : Lays t [] r [] :=
  ⟨rfl, hl, hs, by simp, fun _ h => h⟩

theorem Lays.before {t t' r : Bytes} {ws : List Word} {ps : List Placed} (h : Lays t' ws r ps)
    (hl : ∀ ws, JsonWords.layout ws t = JsonWords.layout ws t')
    (hs : JsonSegments.segments t = JsonSegments.segments t') : Lays t ws r ps where
  words := h.words
  layout ws' := (hl _).trans (h.layout ws')
  segments := hs.trans h.segments
  fits := h.fits
  chained := h.chained

theorem Lays.append {t u r : Bytes} {ws ws' : List Word} {ps ps' : List Placed} (h : Lays t ws u ps)
    (h' : Lays u ws' r ps') : Lays t (ws ++ ws') r (ps ++ ps') where
  words := by rw [List.map_append, h.words, h'.words]
  layout ws'' := by rw [List.append_assoc, h.layout, h'.layout, List.append_assoc]
  segments := by rw [h.segments, h'.segments, List.flatMap_append, List.append_assoc]
  fits := List.forall_mem_append.mpr ⟨h.fits, h'.fits⟩
  chained ws'' hws := by
    rw [List.append_assoc]
    exact h.chained _ (h'.chained _ hws)

theorem Lays.skip {t r : Bytes} {ws : List Word} {ps : List Placed} (h : Lays (skip t) ws r ps) :
    Lays t ws r ps :=
  h.before (fun ws => (layout_skip ws t).symm) (segments_skip t).symm

theorem Lays.after {b : UInt8} {t u r : Bytes} {ws : List Word} {ps : List Placed}
    (h : Lays u ws r ps) (ht : Json.skip t = b :: u) (hb : b ≠ 34) : Lays t ws r ps :=
  h.before (fun ws => layout_after ws ht hb) (segments_after ht hb)

theorem lays_word {b : UInt8} (hb : b ≠ 34) {t r : Bytes} {ws : List Word} {ps : List Placed}
    (h : Lays t ws r ps) : Lays (b :: t) ws r ps := by
  have hone : QuoteFree [b] := by simpa [QuoteFree] using hb
  exact h.before (fun ws => layout_append hone ws t) (segments_cons hb t)

theorem lays_text {s : Bytes} (hs : QuoteFree s) (r : Bytes) : Lays (s ++ r) [] r [] :=
  .nil (fun ws => layout_append hs ws r) (segments_append hs r)

/-- A comma, a closing bracket or a closing brace is next. -/
def Closed (r : Bytes) : Prop := ∃ b u, skip r = b :: u ∧ (b = 44 ∨ b = 93 ∨ b = 125)

theorem Closed.closes {r : Bytes} (h : Closed r) : Closes r := by
  obtain ⟨b, u, hr, hb⟩ := h
  exact closes_of hr hb

theorem Closed.mark {r : Bytes} (h : Closed r) :
    ∃ b ∈ lead r, b = 44 ∨ b = 58 ∨ b = 93 ∨ b = 125 := by
  obtain ⟨b, u, hr, hb⟩ := h
  have hq : b ≠ 34 := by rcases hb with rfl | rfl | rfl <;> decide
  refine ⟨b, ?_, by tauto⟩
  rw [lead_skip, hr, lead_cons hq]
  simp

theorem pieces_str {t raw s r : Bytes} (h : Str t raw s r) :
    ∀ x ∈ (pieces raw).dropLast, x.getLast? = some 92 := by
  cases h with
  | mk h ht => exact pieces_backslash fun u v => h.backslash ht

theorem lays_str {t raw s r : Bytes} (h : Str t raw s r) (hr : Closed r) :
    Lays t [⟨raw, .other⟩] r [⟨⟨raw, .other⟩, lead r⟩] where
  words := rfl
  layout ws' := layout_str h .other ws'
  segments := by
    rw [segments_str h]
    simp [Placed.segments]
  fits := by
    have hgap := hr.closes.gap
    rw [List.forall_mem_singleton]
    exact ⟨pieces_str h, by simp [hgap, Look.asNumber], by simp [hgap], by simp [hgap, Look.asString], hr.mark⟩
  chained ws' hws := ⟨by simp [Look.asString], hws⟩

theorem lays_name {t raw k t₁ t₂ u : Bytes} {v : Tree} {ps : List Placed} (hk : Str t raw k t₁)
    (hc : Json.skip t₁ = 58 :: t₂) (hv : Written .value (Json.skip t₂) v u) (hu : Closed u)
    (hps : Lays (Json.skip t₂) (words v) u ps) :
    Lays t (⟨raw, lookOf v⟩ :: words v) u (⟨⟨raw, lookOf v⟩, lead t₁⟩ :: ps) := by
  obtain ⟨hgap, hsegs⟩ := colon_gap hc hv
  have hafter : ∀ ws, layout ws t₁ = layout ws (Json.skip t₂) := by
    intro ws
    rw [layout_after ws hc (by decide), layout_skip]
  have hfits : Placed.Fits ⟨⟨raw, lookOf v⟩, lead t₁⟩ := by
    refine ⟨pieces_str hk, ?_, ?_, ?_, 58, ?_, by simp⟩
    · rw [hgap, Option.bind_some, numberRun_value hv]
      cases v <;> rfl
    · rw [hgap, Option.bind_some, boolText_value hv hu.closes]
    · rw [hgap, Option.some.injEq, lead_value hv]
      cases v <;> simp [lookOf, Look.asString]
    · rw [lead_skip, hc, lead_cons (by decide)]
      simp
  refine ⟨by rw [List.map_cons, hps.words], fun ws' => ?_, ?_, ?_, fun ws' hws => ⟨?_, ?_⟩⟩
  · rw [List.cons_append, layout_str hk, hafter, hps.layout, List.cons_append]
  · rw [segments_str hk, hsegs, hps.segments, List.flatMap_cons, Placed.segments]
    simp
  · exact List.forall_mem_cons.mpr ⟨hfits, hps.fits⟩
  · cases v with
    | str raw' s => simp [lookOf, Look.asString, words]
    | _ => simp [lookOf, Look.asString]
  · exact hps.chained ws' hws

/-- Every text lays out the strings of what is written in it. -/
theorem lays_written {p : Json.Part} {t r : Bytes} {x : Tree} (h : Written p t x r)
    (hr : p = .value → Closed r) : ∃ ps, Lays t (words x) r ps := by
  induction h with
  | null ht => exact ⟨_, ht ▸ lays_text (word_quoteFree (by decide)) _⟩
  | bool ht => exact ⟨_, ht ▸ lays_text (word_quoteFree (bool_word _)) _⟩
  | num ht hx => exact ⟨_, ht ▸ lays_text (number_quoteFree hx) _⟩
  | str h => exact ⟨_, lays_str h (hr rfl)⟩
  | emptyArr h =>
    refine ⟨[], lays_word (by decide) (Lays.after ?_ h (by decide))⟩
    exact .nil (fun _ => rfl) rfl
  | arr h ih =>
    obtain ⟨ps, hps⟩ := ih (by simp)
    exact ⟨ps, lays_word (by decide) hps⟩
  | emptyObj h =>
    refine ⟨[], lays_word (by decide) (Lays.after ?_ h (by decide))⟩
    exact .nil (fun _ => rfl) rfl
  | obj h ih =>
    obtain ⟨ps, hps⟩ := ih (by simp)
    exact ⟨ps, lays_word (by decide) hps⟩
  | @lastElement t u r v hv hu ih =>
    obtain ⟨ps, hps⟩ := ih fun _ => ⟨93, r, hu, by simp⟩
    have hend : Lays u [] r [] := Lays.after (.nil (fun _ => rfl) rfl) hu (by decide)
    refine ⟨ps ++ [], ?_⟩
    rw [words_arr]
    exact (hps.append hend).skip
  | @element t u t' r v vs hv hu h ih ih' =>
    obtain ⟨ps, hps⟩ := ih fun _ => ⟨44, t', hu, by simp⟩
    obtain ⟨ps', hps'⟩ := ih' (by simp)
    refine ⟨ps ++ ps', ?_⟩
    rw [words_arr]
    exact (hps.append (hps'.after hu (by decide))).skip
  | @lastMember t t₁ t₂ u r raw k v hk hc hv hu ih =>
    have hclosed : Closed u := ⟨125, r, hu, by simp⟩
    obtain ⟨ps, hps⟩ := ih fun _ => hclosed
    have hend : Lays u [] r [] := Lays.after (.nil (fun _ => rfl) rfl) hu (by decide)
    refine ⟨⟨⟨raw, lookOf v⟩, lead t₁⟩ :: ps ++ [], ?_⟩
    rw [words_obj, ← List.cons_append]
    exact ((lays_name hk hc hv hclosed hps).append hend).skip
  | @member t t₁ t₂ u t' r raw k v ms hk hc hv hu h ih ih' =>
    have hclosed : Closed u := ⟨44, t', hu, by simp⟩
    obtain ⟨ps, hps⟩ := ih fun _ => hclosed
    obtain ⟨ps', hps'⟩ := ih' (by simp)
    refine ⟨⟨⟨raw, lookOf v⟩, lead t₁⟩ :: ps ++ ps', ?_⟩
    rw [words_obj, ← List.cons_append]
    exact ((lays_name hk hc hv hclosed hps).append (hps'.after hu (by decide))).skip

theorem words_number {p : Json.Part} {t r : Bytes} {x : Tree} (h : Written p t x r) {w : Word}
    (hw : w ∈ words x) {y : Bytes} (hy : w.look.asNumber = some y) :
    ∃ z q, Json.readNumber z = some (q, []) ∧ mantissa z = y := by
  have hname : ∀ {t r : Bytes} {v : Tree}, Written .value t v r → (lookOf v).asNumber = some y →
      ∃ z q, Json.readNumber z = some (q, []) ∧ mantissa z = y := by
    intro t r v hv hlook
    cases hv with
    | num ht hx hr => exact ⟨_, _, hx, by simpa [lookOf, Look.asNumber] using hlook⟩
    | _ => simp [lookOf, Look.asNumber] at hlook
  induction h with
  | null ht => simp [words] at hw
  | bool ht => simp [words] at hw
  | num ht hx => simp [words] at hw
  | str h =>
    obtain rfl : w = _ := by simpa [words] using hw
    simp [Look.asNumber] at hy
  | emptyArr h => simp [words, itemWords] at hw
  | arr h ih => exact ih hw
  | emptyObj h => simp [words, memberWords] at hw
  | obj h ih => exact ih hw
  | lastElement hv hu ih =>
    rw [words_arr] at hw
    exact ih (by simpa [words, itemWords] using hw)
  | element hv hu h ih ih' =>
    rw [words_arr] at hw
    rcases List.mem_append.mp hw with hw | hw
    · exact ih hw
    · exact ih' hw
  | lastMember hk hc hv hu ih =>
    rw [words_obj] at hw
    rcases List.mem_cons.mp hw with rfl | hw
    · exact hname hv hy
    · exact ih (by simpa [words, memberWords] using hw)
  | member hk hc hv hu h ih ih' =>
    rw [words_obj] at hw
    rcases List.mem_cons.mp hw with rfl | hw
    · exact hname hv hy
    · rcases List.mem_append.mp hw with hw | hw
      · exact ih hw
      · exact ih' hw

def strings (t : Bytes) (ms : List (Bytes × Bytes × Tree)) : List Placed := layout (words (.obj ms)) t

theorem lays_document {t : Bytes} {ms : List (Bytes × Bytes × Tree)} (h : Json.Document t (.obj ms)) :
    Lays t (words (.obj ms)) [] (strings t ms) := by
  obtain ⟨-, r, hw, hr⟩ := h
  have hlays : ∃ ps, Lays t (words (.obj ms)) r ps := by
    generalize ht : Json.skip t = t' at hw
    cases hw with
    | emptyObj hu =>
      refine ⟨[], Lays.skip (ht ▸ lays_word (by decide) (Lays.after ?_ hu (by decide)))⟩
      exact .nil (fun _ => rfl) rfl
    | obj hu =>
      obtain ⟨ps, hps⟩ := lays_written hu (by simp)
      exact ⟨ps, Lays.skip (ht ▸ lays_word (by decide) hps)⟩
  have hend : Lays r [] [] [] := by
    refine Lays.skip ?_
    rw [hr]
    exact .nil (fun _ => rfl) rfl
  obtain ⟨ps, hps⟩ := hlays
  have hall := hps.append hend
  rw [List.append_nil, List.append_nil] at hall
  have hlayout := hall.layout []
  rw [List.append_nil, layout, List.append_nil] at hlayout
  rwa [strings, hlayout]

end Layout

section Clear

/-- The rest of a string behind an escaped quote reads like nothing. -/
def Silent (s : Bytes) : Prop :=
  (afterColon s).bind numberRun = none ∧ (afterColon s).bind boolText = none ∧ afterColon s ≠ some []

instance (s : Bytes) : Decidable (Silent s) := by unfold Silent; infer_instance

/-- The next string behind a number member may read like a number, that behind a name or behind a
string value like a colon alone. -/
def Word.Lets (w : Word) (value : Bool) (s : Bytes) : Prop :=
  (afterColon s).bind boolText = none ∧
    ((afterColon s).bind numberRun = none ∨ w.look.asNumber ≠ none ∧ seenName w.raw ≠ []) ∧
    (afterColon s ≠ some [] ∨ w.look.asString ≠ none ∧ seenName w.raw ≠ [] ∨
      value = true ∧ segments w.raw = [])

instance (w : Word) (value : Bool) (s : Bytes) : Decidable (w.Lets value s) := by
  unfold Word.Lets; infer_instance

/-- A name that the first pattern finds: the next string is its value. -/
def Word.names (w : Word) : Bool := w.look.asString ≠ none ∧ seenName w.raw ≠ []

/-- No string is taken for what stands between a name and its value. The flag says that the first
string is the value of a name. -/
def Clear (value : Bool) : List Word → Prop
  | [] => True
  | w :: ws => (∀ s ∈ segments w.raw, Silent s) ∧ (∀ x ∈ ws.head?, w.Lets value (lead x.raw)) ∧
      Clear w.names ws

def decidableClear : (value : Bool) → (ws : List Word) → Decidable (Clear value ws)
  | _, [] => isTrue trivial
  | value, w :: ws =>
    have := decidableClear w.names ws
    inferInstanceAs (Decidable ((∀ s ∈ segments w.raw, Silent s) ∧
      (∀ x ∈ ws.head?, w.Lets value (lead x.raw)) ∧ Clear w.names ws))

instance (value : Bool) (ws : List Word) : Decidable (Clear value ws) := decidableClear value ws

variable {ws : List Word} {ps : List Placed} {rest : List Bytes}

theorem Clear.silent {value : Bool} {ws : List Word} (h : Clear value ws) :
    ∀ w ∈ ws, ∀ s ∈ segments w.raw, Silent s := by
  induction ws generalizing value with
  | nil => simp
  | cons w ws ih => exact List.forall_mem_cons.mpr ⟨h.1, ih h.2.2⟩

theorem scanBare_clear {read : Bytes → Option Bytes} {see : Look → Option Bytes} {value : Bool}
    (hsilent : ∀ s, Silent s → (afterColon s).bind read = none)
    (hlets : ∀ (w : Word) value s, w.Lets value s →
      (afterColon s).bind read = none ∨ see w.look ≠ none ∧ seenName w.raw ≠ [])
    (hfits : ∀ p ∈ ps, (afterColon p.gap).bind read = see p.look)
    (hclear : Clear value (ps.map Placed.toWord ++ ws))
    (hrest : ∀ o ∈ rest.head?, ∃ x ∈ ws.head?, o = lead x.raw) :
    scanBare read (ps.flatMap Placed.segments ++ rest) =
      ps.flatMap (fun p => sighting p.raw (see p.look)) ++ scanBare read rest := by
  induction ps generalizing value with
  | nil => rfl
  | cons p ps ih =>
    obtain ⟨hraw, hnext, htail⟩ := hclear
    have hp : (afterColon p.gap).bind read = see p.look := hfits p (by simp)
    have hhead : ∀ o ∈ (ps.flatMap Placed.segments ++ rest).head?,
        ∃ x ∈ (ps.map Placed.toWord ++ ws).head?, o = lead x.raw := by
      cases ps with
      | nil => exact hrest
      | cons q ps => simp [Placed.segments, pieces]
    have hword := @scanBare_word read p.raw p.gap (ps.flatMap Placed.segments ++ rest)
      (fun s hs => hsilent s (hraw s hs)) (by
        by_cases hsee : see p.look ≠ none ∧ seenName p.raw ≠ []
        · exact Or.inl (hp ▸ hsee)
        · refine Or.inr fun o ho => ?_
          obtain ⟨x, hx, rfl⟩ := hhead o ho
          exact (hlets _ _ _ (hnext x hx)).resolve_right hsee)
    rw [hp] at hword
    rw [List.flatMap_cons, Placed.segments, List.append_assoc, List.append_assoc,
      List.singleton_append, hword, ih (fun q hq => hfits q (by simp [hq])) htail, List.flatMap_cons,
      List.append_assoc]

theorem Placed.Fits.string_ne {p : Placed} (h : p.Fits) (hnames : p.names = false)
    (hname : seenName p.raw ≠ []) : afterColon p.gap ≠ some [] := by
  rw [Ne, h.string]
  intro hlook
  simp [Word.names, hlook, hname] at hnames

theorem Word.Lets.colon {w : Word} {value : Bool} {s : Bytes} (h : w.Lets value s)
    (hnames : w.names = false) (hvalue : ¬ (value = true ∧ segments w.raw = [])) :
    afterColon s ≠ some [] := by
  rcases h.2.2 with hs | ⟨hlook, hname⟩ | hv
  · exact hs
  · simp [Word.names, hlook, hname] at hnames
  · exact absurd hv hvalue

section Next
variable {p : Placed} {segs : List Bytes} (hp : p.Fits)
  (hhead : ∀ o ∈ segs.head?, ∃ x ∈ ws.head?, o = lead x.raw)
include hp hhead

/-- The scan goes past a string that is no name. -/
theorem scanStrings_unnamed (hclear : Clear false (p.toWord :: ws)) (hnames : p.names = false) :
    scanStrings (pieces p.raw ++ p.gap :: segs) =
      sighting p.raw p.look.asString ++ scanStrings segs := by
  obtain ⟨hraw, hnext, -⟩ := hclear
  have hnone : sighting p.raw p.look.asString = [] := by
    by_cases hname : seenName p.raw = []
    · simp [sighting, hname]
    · have hlook : p.look.asString = none := by
        simpa [Word.names, hname] using hnames
      rw [hlook, sighting_none]
  rw [scanStrings_word (fun s hs => (hraw s hs).2.2) (hp.string_ne hnames), hnone, List.nil_append]
  intro o ho
  obtain ⟨x, hx, rfl⟩ := hhead o ho
  exact (hnext x hx).colon hnames (by simp)

/-- Behind a name the scan takes a string as the value. -/
theorem scanStrings_valued (hclear : Clear true (p.toWord :: ws)) (hother : p.look = .other)
    {n colon : Bytes} (hn : n ≠ []) (hcolon : afterColon colon = some []) :
    scanStrings (n :: colon :: (pieces p.raw ++ p.gap :: segs)) =
      [n, lead p.raw] :: scanStrings segs := by
  obtain ⟨hraw, hnext, -⟩ := hclear
  have hnames : p.names = false := by simp [Word.names, hother, Look.asString]
  have hgap : afterColon p.gap ≠ some [] := by
    rw [Ne, hp.string, hother]
    simp [Look.asString]
  apply scanStrings_value hn hcolon (fun s hs => (hraw s hs).2.2) hgap
  intro hsegments o ho
  obtain ⟨x, hx, rfl⟩ := hhead o ho
  exact (hnext x hx).colon hnames fun h => hsegments h.2

end Next

/-- The strings that have names, and the value of a name in front of them. -/
theorem scanStrings_both (hrest : ∀ o ∈ rest.head?, ∃ x ∈ ws.head?, o = lead x.raw) :
    ∀ ps : List Placed, (∀ p ∈ ps, p.Fits) → Chained (ps.map Placed.toWord) →
      (Clear false (ps.map Placed.toWord ++ ws) →
        scanStrings (ps.flatMap Placed.segments ++ rest) =
          ps.flatMap (fun p => sighting p.raw p.look.asString) ++ scanStrings rest) ∧
      (Clear true (ps.map Placed.toWord ++ ws) → ∀ p ∈ ps.head?, p.look = .other →
        ∀ n colon, n ≠ [] → afterColon colon = some [] →
          scanStrings (n :: colon :: (ps.flatMap Placed.segments ++ rest)) =
            [n, lead p.raw] :: (ps.flatMap (fun p => sighting p.raw p.look.asString) ++
              scanStrings rest)) := by
  intro ps
  induction ps with
  | nil =>
    intro _ _
    exact ⟨fun _ => rfl, by simp⟩
  | cons p ps ih =>
    intro hfits hchain
    have hp := hfits p (by simp)
    obtain ⟨ihfree, ihvalue⟩ := ih (fun q hq => hfits q (by simp [hq])) hchain.2
    have hhead : ∀ o ∈ (ps.flatMap Placed.segments ++ rest).head?,
        ∃ x ∈ (ps.map Placed.toWord ++ ws).head?, o = lead x.raw := by
      cases ps with
      | nil => exact hrest
      | cons q ps => simp [Placed.segments, pieces]
    have hsegs : (p :: ps).flatMap Placed.segments ++ rest =
        pieces p.raw ++ p.gap :: (ps.flatMap Placed.segments ++ rest) := by
      simp [Placed.segments]
    constructor
    · intro hclear
      obtain ⟨hraw, -, htail⟩ := id hclear
      rw [hsegs, List.flatMap_cons, List.append_assoc]
      cases hnames : p.names with
      | false => rw [scanStrings_unnamed hp hhead hclear hnames, ihfree (hnames ▸ htail)]
      | true =>
        -- the next string is the value
        have hboth : p.look.asString ≠ none ∧ seenName p.raw ≠ [] := by
          simpa [Word.names] using hnames
        obtain ⟨v, hv⟩ := Option.ne_none_iff_exists'.mp hboth.1
        obtain ⟨x, hx, hlead, hother⟩ := hchain.1 v hv
        cases ps with
        | nil => simp at hx
        | cons q ps =>
          obtain rfl : q.toWord = x := by simpa using hx
          have hvalue := ihvalue (hnames ▸ htail) q rfl hother (seenName p.raw) p.gap hboth.2
            (hp.string.mpr hboth.1)
          rw [pieces, scanStrings_front _ fun s hs => (hraw s hs).2.2]
          change scanStrings (seenName p.raw :: p.gap :: _) = _
          rw [hvalue, hv, sighting, if_neg hboth.2, hlead]
          rfl
    · intro hclear p' hp' hother n colon hn hcolon
      obtain rfl : p = p' := by simpa using hp'
      have hnames : p.names = false := by simp [Word.names, hother, Look.asString]
      rw [hsegs, scanStrings_valued hp hhead hclear hother hn hcolon, ihfree (hnames ▸ hclear.2.2),
        List.flatMap_cons, hother]
      simp [Look.asString, sighting_none]

theorem scanStrings_clear (hrest : ∀ o ∈ rest.head?, ∃ x ∈ ws.head?, o = lead x.raw)
    (hfits : ∀ p ∈ ps, p.Fits) (hchain : Chained (ps.map Placed.toWord))
    (hclear : Clear false (ps.map Placed.toWord ++ ws)) :
    scanStrings (ps.flatMap Placed.segments ++ rest) =
      ps.flatMap (fun p => sighting p.raw p.look.asString) ++ scanStrings rest :=
  (scanStrings_both hrest ps hfits hchain).1 hclear

end Clear

section Found

/-- The parts of a string, and the text behind it, which says what the look says. -/
def Placed.parts (p : Placed) : List Part :=
  (pieces p.raw).map Part.plain ++ [⟨p.gap, p.look.asNumber, none, p.look.asString.isSome⟩]

theorem parts_text (ps : List Placed) :
    (ps.flatMap Placed.parts).map Part.text = ps.flatMap Placed.segments := by
  rw [List.map_flatMap]
  congr 1
  funext p
  simp [Placed.parts, Placed.segments, Part.plain, Function.comp_def]

theorem parts_say {ps : List Placed} (h : ∀ p ∈ ps, p.Fits) {x : Part}
    (hx : x ∈ ps.flatMap Placed.parts) :
    x.flag = (afterColon x.text).bind boolText ∧ x.number = (afterColon x.text).bind numberRun ∧
      (x.colon = true ↔ afterColon x.text = some []) := by
  obtain ⟨p, hp, hx⟩ := List.mem_flatMap.mp hx
  rcases List.mem_append.mp hx with hx | hx
  · obtain ⟨s, -, rfl⟩ := List.mem_map.mp hx
    simp [Part.plain]
  · obtain rfl := List.mem_singleton.mp hx
    have hfits := h p hp
    exact ⟨hfits.flag.symm, hfits.number.symm, by rw [hfits.string, Option.isSome_iff_ne_none]⟩

theorem shown_parts {ps : List Placed} (h : ∀ p ∈ ps, p.Fits) :
    shown (ps.flatMap Placed.parts) =
      ⟨scanBare boolText (ps.flatMap Placed.segments),
        scanBare numberRun (ps.flatMap Placed.segments), scanStrings (ps.flatMap Placed.segments)⟩ := by
  rw [shown, literals_eq fun x hx => (parts_say h hx).1, literals_eq fun x hx => (parts_say h hx).2.1,
    strings_eq fun x hx => (parts_say h (List.mem_of_mem_dropLast hx)).2.2, parts_text]

def found (t : Bytes) : Found :=
  ⟨scanBare boolText (segments t), scanBare numberRun (segments t), scanStrings (segments t)⟩

theorem parseJsonObj_found (t k : Bytes) : (parseJsonObj t).get k = (found t).get k := by
  have h := parseJsonObj_get (lead_quoteFree t) (segments_quoteFree t) k
  rwa [lead_segments] at h

/-- In a text that is clear they find the strings and the numbers that have names. -/
theorem found_clear {t : Bytes} {ws : List Word} {ps : List Placed} (hlays : Lays t ws [] ps)
    (hclear : Clear false ws) :
    found t = ⟨[], ws.flatMap fun w => sighting w.raw w.look.asNumber,
      ws.flatMap fun w => sighting w.raw w.look.asString⟩ := by
  have hsegs : segments t = ps.flatMap Placed.segments ++ [] := hlays.segments
  have hrest : ∀ o ∈ ([] : List Bytes).head?, ∃ x ∈ ([] : List Word).head?, o = lead x.raw := by simp
  have hwords : ps.map Placed.toWord ++ [] = ws := by rw [List.append_nil, hlays.words]
  have hchain : Chained (ps.map Placed.toWord) := by
    have h := hlays.chained [] trivial
    rwa [List.append_nil, ← hlays.words] at h
  have hflags := @scanBare_clear _ _ _ boolText (fun _ => none) _ (fun s hs => hs.2.1)
    (fun w value s hs => Or.inl hs.1) (fun p hp => (hlays.fits p hp).flag) (hwords ▸ hclear) hrest
  have hnumbers := @scanBare_clear _ _ _ numberRun Look.asNumber _ (fun s hs => hs.1)
    (fun w value s hs => hs.2.1) (fun p hp => (hlays.fits p hp).number) (hwords ▸ hclear) hrest
  have hstrings := scanStrings_clear hrest hlays.fits hchain (hwords ▸ hclear)
  rw [found, hsegs, hflags, hnumbers, hstrings, ← hlays.words, List.flatMap_map, List.flatMap_map]
  simp [sighting_none, scanBare, scanStrings]

/-- The values of one kind that stand behind a name, as the patterns see it. -/
def named (see : Look → Option Bytes) (k : Bytes) (ws : List Word) : List Bytes :=
  ws.flatMap fun w => if seenName w.raw = k ∧ k ≠ [] then (see w.look).toList else []

theorem mem_named {see : Look → Option Bytes} {k y : Bytes} {ws : List Word}
    (h : y ∈ named see k ws) : ∃ w ∈ ws, seenName w.raw = k ∧ see w.look = some y := by
  obtain ⟨w, hw, hy⟩ := List.mem_flatMap.mp h
  split_ifs at hy with hname
  · exact ⟨w, hw, hname.1, Option.mem_toList.mp hy⟩
  · simp at hy

theorem named_append (see : Look → Option Bytes) (k : Bytes) (ws ws' : List Word) :
    named see k (ws ++ ws') = named see k ws ++ named see k ws' := List.flatMap_append

theorem lastOf_sightings (see : Look → Option Bytes) (k : Bytes) (ws : List Word) :
    lastOf k (ws.flatMap fun w => sighting w.raw (see w.look)) = (named see k ws).getLast? := by
  induction ws with
  | nil => rfl
  | cons w ws ih =>
    have hone : lastOf k (sighting w.raw (see w.look)) =
        (if seenName w.raw = k ∧ k ≠ [] then (see w.look).toList else []).getLast? := by
      rw [sighting]
      by_cases hname : seenName w.raw = []
      · have hk : ¬ (seenName w.raw = k ∧ k ≠ []) := by
          rintro ⟨rfl, hne⟩
          exact hne hname
        rw [if_pos hname, if_neg hk]
        rfl
      · rw [if_neg hname, lastOf_toList]
        by_cases hk : seenName w.raw = k
        · rw [if_pos hk, if_pos ⟨hk, hk ▸ hname⟩]
          cases see w.look <;> rfl
        · rw [if_neg hk, if_neg fun h => hk h.1]
          rfl
    rw [List.flatMap_cons, lastOf_append, ih, hone, named, named, List.flatMap_cons,
      List.getLast?_append]

end Found

section Documents

/-- No string of the object is taken for what stands between a name and its value. -/
def Undisturbed (ms : List (Bytes × Bytes × Tree)) : Prop := Clear false (words (.obj ms))

instance (ms : List (Bytes × Bytes × Tree)) : Decidable (Undisturbed ms) := by
  unfold Undisturbed; infer_instance

/-- The text cut at its quotes, each part with what it says behind a name. -/
def partsOf (t : Bytes) (ms : List (Bytes × Bytes × Tree)) : List Part :=
  (strings t ms).flatMap Placed.parts

variable {t : Bytes} {ms : List (Bytes × Bytes × Tree)}

theorem segments_document (hdoc : Json.Document t (.obj ms)) :
    segments t = (strings t ms).flatMap Placed.segments := by
  have h := (lays_document hdoc).segments
  rwa [show segments [] = [] from rfl, List.append_nil] at h

/-- The patterns find what the parts show. -/
theorem found_document (hdoc : Json.Document t (.obj ms)) : found t = shown (partsOf t ms) := by
  rw [partsOf, shown_parts (lays_document hdoc).fits, ← segments_document hdoc, found]

end Documents

end LuaProxy.JsonWords
