import LuaProxy.JsonScan

/-! The parts of a text between its quotes, each with what it says behind a name. What
`parse_json_obj` finds in a text depends on no more than this. -/
namespace LuaProxy.JsonParts
open Text Lua JsonScan

structure Part where
  text : Bytes
  /-- Behind a name it is a number. -/
  number : Option Bytes
  /-- Behind a name it is what the third pattern takes for a boolean. -/
  flag : Option Bytes
  /-- Behind a name it says that the next part is a string. -/
  colon : Bool
  deriving DecidableEq

/-- A part that is taken for what its text looks like. -/
def Part.plain (s : Bytes) : Part :=
  ⟨s, (afterColon s).bind numberRun, (afterColon s).bind boolText, afterColon s = some []⟩

/-- The names with literals behind them. A part that is a value is not a name as well. -/
def literals (read : Part → Option Bytes) : List Part → List (List Bytes)
  | n :: o :: rest =>
    match if n.text = [] then none else read o with
    | some v => [n.text, v] :: literals read rest
    | none => literals read (o :: rest)
  | _ => []

def strings : List Part → List (List Bytes)
  | n :: o :: v :: z :: rest =>
    if n.text ≠ [] ∧ o.colon then [n.text, v.text] :: strings rest
    else strings (o :: v :: z :: rest)
  | _ => []

/-- Names with values of three kinds. -/
structure Found where
  flags : List (List Bytes)
  numbers : List (List Bytes)
  strings : List (List Bytes)

/-- The value at a name: false, or else its last number, or else its last string. -/
def Found.get (f : Found) (k : Bytes) : Value :=
  ((lastOf k f.flags).map boolValue).getD
    (((lastOf k f.numbers).map numeral).getD (((lastOf k f.strings).map Value.str).getD .nil))

def shown (ps : List Part) : Found :=
  ⟨literals Part.flag ps, literals Part.number ps, JsonParts.strings ps⟩

theorem literals_eq {look : Bytes → Option Bytes} {read : Part → Option Bytes} {ps : List Part}
    (h : ∀ p ∈ ps, read p = (afterColon p.text).bind look) :
    literals read ps = scanBare look (ps.map Part.text) := by
  fun_induction literals read ps with
  | case1 n o rest v hv ih =>
    rw [h o (by simp)] at hv
    simp only [List.map_cons, scanBare, hv]
    rw [ih fun p hp => h p (by simp [hp])]
  | case2 n o rest hv ih =>
    rw [h o (by simp)] at hv
    simp only [List.map_cons, scanBare, hv]
    exact ih fun p hp => h p (List.mem_cons_of_mem _ hp)
  | case3 ps hps =>
    rcases ps with _ | ⟨n, _ | ⟨o, rest⟩⟩
    · rfl
    · rfl
    · exact absurd rfl (hps n o rest)

theorem strings_eq {ps : List Part}
    (h : ∀ p ∈ ps.dropLast, p.colon = true ↔ afterColon p.text = some []) :
    strings ps = scanStrings (ps.map Part.text) := by
  fun_induction strings ps with
  | case1 n o v z rest hm ih =>
    rw [h o (by simp)] at hm
    simp only [List.map_cons, scanStrings, if_pos hm]
    rw [ih]
    intro p hp
    apply h p
    have hne : rest ≠ [] := by
      rintro rfl
      simp at hp
    rw [List.dropLast_cons_of_ne_nil (by simp), List.dropLast_cons_of_ne_nil (by simp),
      List.dropLast_cons_of_ne_nil (by simp), List.dropLast_cons_of_ne_nil hne]
    simp [hp]
  | case2 n o v z rest hm ih =>
    rw [h o (by simp)] at hm
    simp only [List.map_cons, scanStrings, if_neg hm]
    apply ih
    intro p hp
    apply h p
    rw [List.dropLast_cons_of_ne_nil (by simp)]
    exact List.mem_cons_of_mem _ hp
  | case3 ps hps =>
    rcases ps with _ | ⟨n, _ | ⟨o, _ | ⟨v, _ | ⟨z, rest⟩⟩⟩⟩
    · rfl
    · rfl
    · rfl
    · rfl
    · exact absurd rfl (hps n o v z rest)

/-- Parts that are taken for what they look like show what the patterns find. -/
theorem shown_plain (segs : List Bytes) :
    shown (segs.map Part.plain) = ⟨scanBare boolText segs, scanBare numberRun segs, scanStrings segs⟩ := by
  have htext : (segs.map Part.plain).map Part.text = segs := by
    rw [List.map_map]
    exact List.map_id segs
  have hplain : ∀ p ∈ segs.map Part.plain, ∃ s, p = Part.plain s := by
    intro p hp
    obtain ⟨s, -, rfl⟩ := List.mem_map.mp hp
    exact ⟨s, rfl⟩
  rw [shown, @literals_eq boolText, @literals_eq numberRun, strings_eq, htext]
  · intro p hp
    obtain ⟨s, rfl⟩ := hplain p (List.mem_of_mem_dropLast hp)
    simp [Part.plain]
  · intro p hp
    obtain ⟨s, rfl⟩ := hplain p hp
    rfl
  · intro p hp
    obtain ⟨s, rfl⟩ := hplain p hp
    rfl

end LuaProxy.JsonParts
