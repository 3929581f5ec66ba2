import LuaProxy.JsonParts

/-! What `parse_json_obj` reads from the members of a flat object, complete or cut off
behind the last of them. -/
namespace LuaProxy.JsonMembers
open Text Lua LuaPattern Jwt JwtFormat JsonScan JsonParts

/-- The value of a member as it is written: between quotes, or a literal. -/
inductive Written
  | text (s : Bytes)
  | bare (x : Bytes)
  deriving DecidableEq, Repr

/-- A member with the blanks around its colon and the text up to the next quote. -/
structure Member where
  name : Bytes
  before : Bytes
  after : Bytes
  value : Written
  gap : Bytes
  deriving DecidableEq, Repr

namespace Member

def colon (m : Member) : Bytes := m.before ++ 58 :: m.after

def segments (m : Member) : List Bytes :=
  match m.value with
  | .text s => [m.name, m.colon, s, m.gap]
  | .bare x => [m.name, m.colon ++ (x ++ m.gap)]

/-- The member without its last byte, which is a quote or the end of a literal. -/
def cutSegments (m : Member) : List Bytes :=
  match m.value with
  | .text s => [m.name, m.colon, s]
  | .bare x => [m.name, m.colon ++ x.dropLast]

def body (m : Member) : Bytes :=
  match m.value with
  | .text s => 34 :: (m.name ++ 34 :: (m.colon ++ 34 :: (s ++ [34])))
  | .bare x => 34 :: (m.name ++ 34 :: (m.colon ++ x))

theorem quoted_segments (m : Member) : quoted m.segments = m.body ++ m.gap := by
  unfold segments body
  cases m.value <;> simp

theorem segments_quoteFree {m : Member} (hname : QuoteFree m.name) (hcolon : QuoteFree m.colon)
    (hvalue : ∀ s, m.value = .text s ∨ m.value = .bare s → QuoteFree s) (hgap : QuoteFree m.gap) :
    ∀ s ∈ m.segments, QuoteFree s := by
  unfold segments
  cases hv : m.value with
  | text s =>
    have hs := hvalue s (Or.inl hv)
    simp [hname, hcolon, hs, hgap]
  | bare x =>
    have hx := hvalue x (Or.inr hv)
    simp [hname, hcolon.append (hx.append hgap)]

structure WellFormed (m : Member) : Prop where
  name_ne : m.name ≠ []
  before_blank : Blank m.before
  after_blank : Blank m.after
  gap_plain : afterColon m.gap = none
  quoteFree : ∀ s ∈ m.segments, QuoteFree s
  literal : ∀ x, m.value = .bare x → x ≠ [] ∧ ∀ b ∈ x, Single.space.test b = false

/-- The byte that a cut member lost is the closing quote or belongs to the literal. -/
theorem WellFormed.body_cut {m : Member} (hm : m.WellFormed) :
    ∃ b, m.body = quoted m.cutSegments ++ [b] ∧ (b = 34 ∨ ∃ x, m.value = .bare x ∧ b ∈ x) := by
  unfold body cutSegments
  cases hv : m.value with
  | text s => exact ⟨34, by simp, Or.inl rfl⟩
  | bare x =>
    have hx := (hm.literal x hv).1
    refine ⟨x.getLast hx, ?_, Or.inr ⟨x, rfl, List.getLast_mem hx⟩⟩
    simp [List.dropLast_concat_getLast hx]

/-- What a pattern for literals reads from a member: its own value, or a string that looks
like a colon and a literal, which it takes for the value of the colon before it. -/
def literals (read : Bytes → Option Bytes) (m : Member) : List (List Bytes) :=
  match m.value with
  | .text s => (((afterColon s).bind read).map fun v => [m.colon, v]).toList
  | .bare x => ((read (x ++ m.gap)).map fun v => [m.name, v]).toList

def strings (m : Member) : List (List Bytes) :=
  match m.value with
  | .text s => [[m.name, s]]
  | .bare _ => []

def cutLiterals (read : Bytes → Option Bytes) (m : Member) : List (List Bytes) :=
  match m.value with
  | .text s => (((afterColon s).bind read).map fun v => [m.colon, v]).toList
  | .bare x => ((read x.dropLast).map fun v => [m.name, v]).toList

end Member

section Scan

variable {m : Member}

theorem Member.colon_ne : m.colon ≠ [] := by simp [Member.colon]

theorem Member.segments_head? (m : Member) (rest : List Bytes) :
    (m.segments ++ rest).head? = some m.name := by
  unfold Member.segments
  cases m.value <;> rfl

theorem Member.cutSegments_head? (m : Member) : m.cutSegments.head? = some m.name := by
  unfold Member.cutSegments
  cases m.value <;> rfl

theorem head?_members {ms last : List Member} {tail : List Bytes}
    (htail : ∀ o ∈ tail.head?, ∃ m ∈ last.head?, o = m.name) :
    ∀ o ∈ (ms.flatMap Member.segments ++ tail).head?, ∃ m ∈ (ms ++ last).head?, o = m.name := by
  cases ms with
  | nil => exact htail
  | cons m ms =>
    rw [List.flatMap_cons, List.append_assoc, m.segments_head?]
    simp

theorem Member.WellFormed.colon_text (hm : m.WellFormed) : afterColon m.colon = some [] := by
  have h := afterColon_colon (s := []) hm.before_blank hm.after_blank (by simp)
  rwa [List.append_nil] at h

theorem Member.WellFormed.colon_bare (hm : m.WellFormed) {x rest : Bytes}
    (hx : ∀ b ∈ (x ++ rest).head?, Single.space.test b = false) :
    afterColon (m.colon ++ (x ++ rest)) = some (x ++ rest) :=
  afterColon_colon hm.before_blank hm.after_blank hx

theorem Member.WellFormed.literal_head (hm : m.WellFormed) {x : Bytes} (hx : m.value = .bare x)
    (rest : Bytes) : ∀ b ∈ (x ++ rest).head?, Single.space.test b = false := by
  obtain ⟨hne, hall⟩ := hm.literal x hx
  cases x with
  | nil => exact absurd rfl hne
  | cons c x => simpa using hall c (by simp)

/-- A literal that is found belongs to its name, whatever the next name is. -/
theorem scanBare_literal (read : Bytes → Option Bytes) (hm : m.WellFormed) {y : Bytes}
    (hy : afterColon (m.colon ++ y) = some y) (rest : List Bytes)
    (hrest : read y ≠ none ∨ ∀ o ∈ rest.head?, (afterColon o).bind read = none) :
    scanBare read (m.name :: (m.colon ++ y) :: rest) =
      ((read y).map fun v => [m.name, v]).toList ++ scanBare read rest := by
  rw [scanBare, if_neg hm.name_ne, hy, Option.bind_some]
  cases hv : read y with
  | some v => rfl
  | none => simp [scanBare_skip (hrest.resolve_left fun h => h hv)]

variable {read : Bytes → Option Bytes} (hread : read [] = none)
include hread

theorem scanBare_text (hm : m.WellFormed) (s : Bytes) (rest : List Bytes)
    (hgap : ∀ o ∈ rest.head?, (afterColon o).bind read = none)
    (hrest : ∀ o ∈ rest.tail.head?, (afterColon o).bind read = none) :
    scanBare read (m.name :: m.colon :: s :: rest) =
      (((afterColon s).bind read).map fun v => [m.colon, v]).toList ++ scanBare read rest.tail := by
  have hcolon : ∀ o ∈ (m.colon :: s :: rest).head?, (afterColon o).bind read = none := by
    simp [hm.colon_text, hread]
  have htail : scanBare read rest = scanBare read rest.tail := by
    cases rest with
    | nil => rfl
    | cons z rest => exact scanBare_skip hrest
  rw [scanBare_skip hcolon, scanBare, if_neg Member.colon_ne]
  cases h : (afterColon s).bind read with
  | some v => simp [htail]
  | none => simp [scanBare_skip hgap, htail]

/-- A name behind a member that a pattern for literals does not take for its value. -/
def Member.Lets (read : Bytes → Option Bytes) (m : Member) (name : Bytes) : Prop :=
  (∃ x, m.value = .bare x ∧ read (x ++ m.gap) ≠ none) ∨ (afterColon name).bind read = none

theorem scanBare_member (hm : m.WellFormed) {rest : List Bytes}
    (hrest : ∀ o ∈ rest.head?, m.Lets read o) :
    scanBare read (m.segments ++ rest) = m.literals read ++ scanBare read rest := by
  unfold Member.segments Member.literals
  cases hv : m.value with
  | text s =>
    have hgap : ∀ o ∈ (m.gap :: rest).head?, (afterColon o).bind read = none := by
      simp [hm.gap_plain]
    refine scanBare_text hread hm s _ hgap fun o ho => (hrest o ho).resolve_left ?_
    rintro ⟨x, hx, -⟩
    simp [hv] at hx
  | bare x =>
    refine scanBare_literal read hm (hm.colon_bare (hm.literal_head hv m.gap)) _ ?_
    by_cases hfound : read (x ++ m.gap) = none
    · refine Or.inr fun o ho => (hrest o ho).resolve_left ?_
      rintro ⟨y, hy, hne⟩
      obtain rfl : x = y := by simpa [hv] using hy
      exact hne hfound
    · exact Or.inl hfound

theorem scanBare_members {ms last : List Member} (hms : ∀ m ∈ ms, m.WellFormed) {tail : List Bytes}
    (htail : ∀ o ∈ tail.head?, ∃ m ∈ last.head?, o = m.name)
    (hnext : (ms ++ last).IsChain fun m m' => m.Lets read m'.name) :
    scanBare read (ms.flatMap Member.segments ++ tail) =
      ms.flatMap (Member.literals read) ++ scanBare read tail := by
  induction ms with
  | nil => rfl
  | cons m ms ih =>
    obtain ⟨hhead, hchain⟩ := List.isChain_cons.mp hnext
    have hrest : ∀ o ∈ (ms.flatMap Member.segments ++ tail).head?, m.Lets read o := by
      intro o ho
      obtain ⟨m', hm', rfl⟩ := head?_members htail o ho
      exact hhead m' hm'
    rw [List.flatMap_cons, List.append_assoc, scanBare_member hread (hms m (by simp)) hrest,
      ih (fun x hx => hms x (by simp [hx])) hchain, List.flatMap_cons, List.append_assoc]

theorem scanBare_cut (hm : m.WellFormed) :
    scanBare read m.cutSegments = m.cutLiterals read := by
  unfold Member.cutSegments Member.cutLiterals
  cases hv : m.value with
  | text s =>
    have h := scanBare_text hread hm s [] (by simp) (by simp)
    simpa [scanBare] using h
  | bare x =>
    have hhead : ∀ b ∈ (x.dropLast ++ []).head?, Single.space.test b = false := by
      intro b hb
      rw [List.append_nil] at hb
      exact (hm.literal x hv).2 b (List.mem_of_mem_dropLast (List.mem_of_mem_head? hb))
    have hy := hm.colon_bare hhead
    rw [List.append_nil] at hy
    have h := scanBare_literal read hm hy [] (Or.inr (by simp))
    simpa [scanBare] using h

omit hread

/-- A name behind a member that the first pattern does not take for a colon. -/
def Member.Passes (m : Member) (name : Bytes) : Prop :=
  (∃ s, m.value = .text s) ∨ afterColon name ≠ some []

theorem scanStrings_member (hm : m.WellFormed) {rest : List Bytes} (hrest : ∀ o ∈ rest.head?, m.Passes o) :
    scanStrings (m.segments ++ rest) = m.strings ++ scanStrings rest := by
  unfold Member.segments Member.strings
  cases hv : m.value with
  | text s => simp [scanStrings, hm.name_ne, hm.colon_text]
  | bare x =>
    have hc := hm.colon_bare (hm.literal_head hv m.gap)
    have hne : ∀ o ∈ ((m.colon ++ (x ++ m.gap)) :: rest).head?, afterColon o ≠ some [] := by
      simp [hc, (hm.literal x hv).1]
    have hnext : ∀ o ∈ rest.head?, afterColon o ≠ some [] :=
      fun o ho => (hrest o ho).resolve_left (by simp [hv])
    simp only [List.cons_append, List.nil_append]
    rw [scanStrings_skip hne, scanStrings_skip hnext]

theorem scanStrings_members {ms last : List Member} (hms : ∀ m ∈ ms, m.WellFormed) {tail : List Bytes}
    (htail : ∀ o ∈ tail.head?, ∃ m ∈ last.head?, o = m.name)
    (hnext : (ms ++ last).IsChain fun m m' => m.Passes m'.name) :
    scanStrings (ms.flatMap Member.segments ++ tail) =
      ms.flatMap Member.strings ++ scanStrings tail := by
  induction ms with
  | nil => rfl
  | cons m ms ih =>
    obtain ⟨hhead, hchain⟩ := List.isChain_cons.mp hnext
    have hrest : ∀ o ∈ (ms.flatMap Member.segments ++ tail).head?, m.Passes o := by
      intro o ho
      obtain ⟨m', hm', rfl⟩ := head?_members htail o ho
      exact hhead m' hm'
    rw [List.flatMap_cons, List.append_assoc, scanStrings_member (hms m (by simp)) hrest,
      ih (fun x hx => hms x (by simp [hx])) hchain, List.flatMap_cons, List.append_assoc]

theorem scanStrings_cut : scanStrings m.cutSegments = [] := by
  unfold Member.cutSegments
  cases m.value <;> rfl

end Scan

section Parse

theorem numberRun_nil : numberRun [] = none := rfl

theorem boolText_nil : boolText [] = none := by decide

theorem quoteFree_members {ms : List Member} (hms : ∀ m ∈ ms, m.WellFormed) :
    ∀ s ∈ ms.flatMap Member.segments, QuoteFree s := by
  intro s hs
  obtain ⟨m, hm, hs⟩ := List.mem_flatMap.mp hs
  exact (hms m hm).quoteFree s hs

theorem Member.WellFormed.cut_quoteFree {m : Member} (hm : m.WellFormed) :
    ∀ s ∈ m.cutSegments, QuoteFree s := by
  have hq := hm.quoteFree
  unfold Member.segments at hq
  unfold Member.cutSegments
  intro s hs
  cases hv : m.value with
  | text t =>
    rw [hv] at hq hs
    exact hq s (List.mem_append_left [m.gap] hs)
  | bare x =>
    rw [hv] at hq hs
    simp only [List.mem_cons, List.not_mem_nil, or_false] at hs
    rcases hs with rfl | rfl
    · exact hq _ (by simp)
    · intro b hb
      apply hq (m.colon ++ (x ++ m.gap)) (by simp) b
      rcases List.mem_append.mp hb with hb | hb
      · exact List.mem_append_left _ hb
      · exact List.mem_append_right _ (List.mem_append_left _ (List.mem_of_mem_dropLast hb))

/-- A name behind a member that no pattern takes for what stands between a name and its value. -/
structure Member.Allows (m : Member) (name : Bytes) : Prop where
  flag : m.Lets boolText name
  number : m.Lets numberRun name
  string : m.Passes name

variable {lead : Bytes} {ms last : List Member} {tail : List Bytes} (hl : QuoteFree lead)
  (hms : ∀ m ∈ ms, m.WellFormed) (hfree : ∀ s ∈ tail, QuoteFree s)
  (htail : ∀ o ∈ tail.head?, ∃ m ∈ last.head?, o = m.name)
  (hnext : (ms ++ last).IsChain fun m m' => m.Allows m'.name)
include hl hms hfree htail hnext

/-- What `parse_json_obj` reads from complete members and from what follows them. -/
theorem parseJsonObj_members (k : Bytes) :
    (parseJsonObj (lead ++ quoted (ms.flatMap Member.segments ++ tail))).get k =
      Found.get ⟨ms.flatMap (Member.literals boolText) ++ scanBare boolText tail,
        ms.flatMap (Member.literals numberRun) ++ scanBare numberRun tail,
        ms.flatMap Member.strings ++ scanStrings tail⟩ k := by
  have hall : ∀ s ∈ ms.flatMap Member.segments ++ tail, QuoteFree s :=
    List.forall_mem_append.mpr ⟨quoteFree_members hms, hfree⟩
  rw [parseJsonObj_get hl hall, scanBare_members boolText_nil hms htail (hnext.imp fun _ _ h => h.flag),
    scanBare_members numberRun_nil hms htail (hnext.imp fun _ _ h => h.number),
    scanStrings_members hms htail (hnext.imp fun _ _ h => h.string)]
  rfl

end Parse

end LuaProxy.JsonMembers
