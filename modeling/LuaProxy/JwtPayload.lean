import LuaProxy.JsonWords
import LuaProxy.JwtToken

/-! Flat JSON objects as the payload of a token. Of a payload that is not whole groups of three
bytes the last group is lost. With it goes at most one byte of the last value. -/
namespace LuaProxy.JwtPayload
open Text Jwt JwtCodec JwtToken JsonScan JsonSegments JsonWords
open Json (Tree Document Written skip isSpace readNumber)

section Flat

def Flat (ms : List (Bytes × Bytes × Tree)) : Prop :=
  ∀ m ∈ ms, (∃ raw s, m.2.2 = .str raw s) ∨ ∃ x q, m.2.2 = .num x q

/-- What the last value and the brace behind it end with. -/
def lastBytes : Tree → Bytes
  | .num x _ => x ++ [125]
  | _ => [34, 125]

/-- The last group has the last byte of the last value. -/
def Lost (t : Bytes) (m : Bytes × Bytes × Tree) : Prop :=
  t.length % 3 = 2 ∧ lastBytes m.2.2 <:+ t

instance (t : Bytes) (m : Bytes × Bytes × Tree) : Decidable (Lost t m) := by
  unfold Lost; infer_instance

end Flat

section Ends

def Spaces (b : Bytes) : Prop := ∀ c ∈ b, isSpace c = true

theorem spaces_skip (t : Bytes) : ∃ b, Spaces b ∧ t = b ++ skip t :=
  ⟨t.takeWhile isSpace, fun _ h => List.mem_takeWhile_imp h, (blanks_skip t).symm⟩

theorem space_byte {b : UInt8} (h : isSpace b = true) :
    b ≠ 34 ∧ b ≠ 125 ∧ b < 128 ∧ Json.isNumberByte b = false ∧ numberClass.test b = false ∧
      LuaPattern.Single.space.test b = true := by
  have hall : ∀ b, isSpace b = true → b ≠ 34 ∧ b ≠ 125 ∧ b < 128 ∧ Json.isNumberByte b = false ∧
      numberClass.test b = false ∧ LuaPattern.Single.space.test b = true :=
    forall_byte (by decide +kernel)
  exact hall b h

/-- What stands between the last quote and the end of the last value. -/
def Core (v : Tree) (c : Bytes) : Prop :=
  match v with
  | .num x q => readNumber x = some (q, []) ∧
      ∃ b₁ b₂, Spaces b₁ ∧ Spaces b₂ ∧ c = b₁ ++ 58 :: (b₂ ++ x)
  | _ => c = []

theorem value_text {t u : Bytes} {v : Tree} (h : Written .value t v u)
    (hv : (∃ raw s, v = .str raw s) ∨ ∃ x q, v = .num x q) :
    ∃ s c, t = s ++ (c ++ u) ∧ ((∃ raw s', v = .str raw s' ∧ c = [34] ∧ s = 34 :: raw) ∨
      ∃ x q, v = .num x q ∧ readNumber x = some (q, []) ∧ c = x ∧ s = []) := by
  rcases hv with ⟨raw, s, rfl⟩ | ⟨x, q, rfl⟩
  · cases h with
    | str h =>
      cases h with
      | mk h ht => exact ⟨34 :: raw, [34], by rw [ht]; rfl, Or.inl ⟨raw, s, rfl, rfl, rfl⟩⟩
  · cases h with
    | num ht hx hr => exact ⟨[], x, ht, Or.inr ⟨x, q, rfl, hx, rfl, rfl⟩⟩

theorem members_text {t r raw k : Bytes} {v : Tree} {ms : List (Bytes × Bytes × Tree)}
    (h : Written .members t (.obj ((raw, k, v) :: ms)) r) :
    ∃ b₀ b₁ b₂ t₃ u, t = b₀ ++ 34 :: (raw ++ 34 :: (b₁ ++ 58 :: (b₂ ++ t₃))) ∧ Spaces b₁ ∧ Spaces b₂ ∧
      Written .value t₃ v u ∧ ((ms = [] ∧ skip u = 125 :: r) ∨
        ∃ t', skip u = 44 :: t' ∧ Written .members t' (.obj ms) r) := by
  have hname : ∀ {t t₁ t₂ : Bytes}, Json.Str (skip t) raw k t₁ → skip t₁ = 58 :: t₂ →
      ∃ b₀ b₁ b₂, t = b₀ ++ 34 :: (raw ++ 34 :: (b₁ ++ 58 :: (b₂ ++ skip t₂))) ∧ Spaces b₁ ∧
        Spaces b₂ := by
    intro t t₁ t₂ hk hc
    obtain ⟨b₀, -, ht⟩ := spaces_skip t
    obtain ⟨b₁, hb₁, ht₁⟩ := spaces_skip t₁
    obtain ⟨b₂, hb₂, ht₂⟩ := spaces_skip t₂
    generalize skip t = t₀ at hk ht
    cases hk with
    | mk hk hraw => exact ⟨b₀, b₁, b₂, by rw [ht, hraw, ← ht₂, ← hc, ← ht₁], hb₁, hb₂⟩
  cases h with
  | lastMember hk hc hv hu =>
    obtain ⟨b₀, b₁, b₂, ht, hb₁, hb₂⟩ := hname hk hc
    exact ⟨b₀, b₁, b₂, _, _, ht, hb₁, hb₂, hv, Or.inl ⟨rfl, hu⟩⟩
  | member hk hc hv hu h =>
    obtain ⟨b₀, b₁, b₂, ht, hb₁, hb₂⟩ := hname hk hc
    exact ⟨b₀, b₁, b₂, _, _, ht, hb₁, hb₂, hv, Or.inr ⟨_, hu, h⟩⟩

theorem members_ne {t r : Bytes} (h : Written .members t (.obj []) r) : False := by cases h

theorem members_end {t r raw k : Bytes} {v : Tree} {ms : List (Bytes × Bytes × Tree)}
    (hflat : Flat (ms ++ [(raw, k, v)]))
    (h : Written .members t (.obj (ms ++ [(raw, k, v)])) r) :
    ∃ s c b, t = s ++ 34 :: (c ++ (b ++ 125 :: r)) ∧ Spaces b ∧ Core v c := by
  induction ms generalizing t with
  | nil =>
    obtain ⟨b₀, b₁, b₂, t₃, u, rfl, hb₁, hb₂, hw, ⟨-, hu⟩ | ⟨t', -, h⟩⟩ := members_text h
    · obtain ⟨b, hb, hub⟩ := spaces_skip u
      obtain ⟨s, c, rfl, ⟨raw', s', rfl, rfl, rfl⟩ | ⟨x, q, rfl, hx, rfl, rfl⟩⟩ :=
        value_text hw (hflat _ List.mem_cons_self)
      · refine ⟨b₀ ++ 34 :: (raw ++ 34 :: (b₁ ++ 58 :: (b₂ ++ 34 :: raw'))), [], b, ?_, hb, rfl⟩
        rw [hub, hu]
        simp
      · refine ⟨b₀ ++ 34 :: raw, b₁ ++ 58 :: (b₂ ++ c), b, ?_, hb, hx, b₁, b₂, hb₁, hb₂, rfl⟩
        rw [hub, hu]
        simp
    · exact (members_ne h).elim
  | cons m ms ih =>
    obtain ⟨b₀, b₁, b₂, t₃, u, rfl, -, -, hw, ⟨hnil, -⟩ | ⟨t', hu, h⟩⟩ := members_text h
    · simp at hnil
    · obtain ⟨b, -, hub⟩ := spaces_skip u
      obtain ⟨s, c, b', rfl, hb', hcore⟩ := ih (fun m hm => hflat m (List.mem_cons_of_mem _ hm)) h
      obtain ⟨s', c', rfl, -⟩ := value_text hw (hflat m List.mem_cons_self)
      refine ⟨b₀ ++ 34 :: (m.1 ++ 34 :: (b₁ ++ 58 :: (b₂ ++ (s' ++ (c' ++ (b ++ 44 :: s)))))), c, b',
        ?_, hb', hcore⟩
      rw [hub, hu]
      simp

theorem document_end {t raw k : Bytes} {v : Tree} {ms : List (Bytes × Bytes × Tree)}
    (hdoc : Document t (.obj (ms ++ [(raw, k, v)]))) (hflat : Flat (ms ++ [(raw, k, v)])) :
    ∃ s c b b', t = s ++ 34 :: (c ++ (b ++ 125 :: b')) ∧ Spaces b ∧ Spaces b' ∧ Core v c := by
  obtain ⟨-, r, hw, hr⟩ := hdoc
  obtain ⟨b', hb', hrb⟩ := spaces_skip r
  rw [hr, List.append_nil] at hrb
  obtain ⟨b₀, -, ht⟩ := spaces_skip t
  generalize skip t = t₀ at hw ht
  generalize hobj : Tree.obj (ms ++ [(raw, k, v)]) = x at hw
  cases hw with
  | obj h =>
    obtain rfl := Tree.obj.inj hobj
    obtain ⟨s, c, b, rfl, hb, hcore⟩ := members_end hflat h
    exact ⟨b₀ ++ 123 :: s, c, b, b', by rw [ht, hrb]; simp, hb, hb', hcore⟩
  | emptyObj h => simp at hobj
  | _ => simp at hobj

theorem not_lost {t s b b' raw k : Bytes} {v : Tree} (ht : t = s ++ (b ++ 125 :: b')) (hb : Spaces b)
    (hb' : Spaces b') (hv : (∃ raw s, v = .str raw s) ∨ ∃ x q, v = .num x q ∧ readNumber x = some (q, []))
    (h : Lost t (raw, k, v)) : b = [] ∧ b' = [] := by
  obtain ⟨-, u, hu⟩ := h
  obtain ⟨w, c, hlast, hc⟩ : ∃ w c, lastBytes v = w ++ [c, 125] ∧ isSpace c = false := by
    rcases hv with ⟨raw, s, rfl⟩ | ⟨x, q, rfl, hx⟩
    · exact ⟨[], 34, rfl, rfl⟩
    · obtain ⟨⟨d, y, rfl, -⟩, hall⟩ := Json.readNumber_bytes hx
      refine ⟨(d :: y).dropLast, (d :: y).getLast (by simp), ?_, ?_⟩
      · rw [lastBytes, ← List.singleton_append (l := [125]), ← List.append_assoc,
          List.dropLast_append_getLast]
      · rw [Bool.eq_false_iff]
        intro hspace
        have hnumber := hall _ (List.getLast_mem (l := d :: y) (by simp))
        rw [(space_byte hspace).2.2.2.1] at hnumber
        exact Bool.noConfusion hnumber
  rw [ht, hlast] at hu
  have hnil' : b' = [] := by
    rcases List.eq_nil_or_concat' b' with rfl | ⟨e, d, rfl⟩
    · rfl
    · have hends : (u ++ w ++ [c]) ++ [125] = (s ++ (b ++ 125 :: e)) ++ [d] := by simpa using hu
      obtain rfl : 125 = d := by simpa using List.append_inj_right' hends rfl
      exact absurd rfl (space_byte (hb' 125 (by simp))).2.1
  subst hnil'
  have hrest : u ++ w ++ [c] = s ++ b := by
    have hends : (u ++ w ++ [c]) ++ [125] = (s ++ b) ++ [125] := by simpa using hu
    exact List.append_cancel_right hends
  rcases List.eq_nil_or_concat' b with rfl | ⟨e, d, rfl⟩
  · exact ⟨rfl, rfl⟩
  · rw [← List.append_assoc] at hrest
    obtain rfl : c = d := by simpa using List.append_inj_right' hrest rfl
    rw [hb c (by simp)] at hc
    exact Bool.noConfusion hc

/-- What is left behind the last quote, if the quote is left. -/
structure LastGap (t : Bytes) (m : Bytes × Bytes × Tree) (e : Bytes) : Prop where
  flag : (afterColon e).bind boolText = none
  number : (afterColon e).bind numberRun =
    match m.2.2 with
    | .num x _ => numberRun (if Lost t m then x.dropLast else x)
    | _ => none

theorem closing_byte {b : UInt8} (h : isSpace b = true ∨ b = 125) : b ≠ 34 ∧ b < 128 := by
  have hall : ∀ b, isSpace b = true ∨ b = 125 → b ≠ 34 ∧ b < 128 := forall_byte (by decide +kernel)
  exact hall b h

theorem closing_none {e : Bytes} (he : ∀ c ∈ e, isSpace c = true ∨ c = 125) : afterColon e = none := by
  unfold JsonScan.afterColon
  split
  · rename_i t ht
    have hmem : (58 : UInt8) ∈ e := (List.dropWhile_suffix _).mem (ht ▸ List.mem_cons_self)
    exact absurd (he 58 hmem) (by decide)
  · rfl

theorem numberRun_append_closing {x e : Bytes} (he : ∀ c ∈ e, isSpace c = true ∨ c = 125) :
    numberRun (x ++ e) = numberRun x := by
  have hnil : e.takeWhile numberClass.test = [] := by
    apply takeWhile_stop
    intro b hb
    rcases he b (List.mem_of_mem_head? hb) with hspace | rfl
    · exact (space_byte hspace).2.2.2.2.1
    · decide
  have htake : (x ++ e).takeWhile numberClass.test = x.takeWhile numberClass.test := by
    rw [List.takeWhile_append, hnil, List.append_nil]
    split_ifs with hlen
    · exact ((List.takeWhile_prefix _).eq_of_length hlen).symm
    · rfl
  simp only [numberRun, htake]

theorem lastGap_number {t raw k x y e b₁ b₂ : Bytes} {q : ℚ} (hx : readNumber x = some (q, []))
    (hb₁ : Spaces b₁) (hb₂ : Spaces b₂) (he : ∀ c ∈ e, isSpace c = true ∨ c = 125)
    (hy : y = if Lost t (raw, k, .num x q) then x.dropLast else x) (hend : y = [] → e = []) :
    LastGap t (raw, k, .num x q) (b₁ ++ 58 :: (b₂ ++ (y ++ e))) := by
  have hbyte : ∀ b : UInt8, Json.isDigit b = true ∨ b = 45 →
      LuaPattern.Single.space.test b = false ∧ b ≠ 116 := forall_byte (by decide +kernel)
  have hhead : ∀ b ∈ (y ++ e).head?, LuaPattern.Single.space.test b = false ∧ b ≠ 116 := by
    intro b hb
    cases y with
    | nil => simp [hend rfl] at hb
    | cons c y =>
      obtain rfl : c = b := by simpa using hb
      obtain ⟨⟨d, z, rfl, hd⟩, -⟩ := Json.readNumber_bytes hx
      have hcd : c = d := by
        split_ifs at hy
        · cases z with
          | nil => simp at hy
          | cons f z =>
            rw [List.dropLast_cons_cons] at hy
            exact (List.cons.inj hy).1
        · exact (List.cons.inj hy).1
      exact hcd ▸ hbyte d hd
  have hcolon : afterColon (b₁ ++ 58 :: (b₂ ++ (y ++ e))) = some (y ++ e) := by
    have h := afterColon_colon (fun c hc => (space_byte (hb₁ c hc)).2.2.2.2.2)
      (fun c hc => (space_byte (hb₂ c hc)).2.2.2.2.2) fun b hb => (hhead b hb).1
    simpa using h
  refine ⟨?_, ?_⟩
  · rw [hcolon, Option.bind_some, boolText_none fun b hb => (hhead b hb).2]
  · rw [hcolon, Option.bind_some, numberRun_append_closing he, hy]

theorem core_quoteFree {v : Tree} {c : Bytes} (h : Core v c)
    (hv : (∃ raw s, v = .str raw s) ∨ ∃ x q, v = .num x q) : QuoteFree c := by
  rcases hv with ⟨raw, s, rfl⟩ | ⟨x, q, rfl⟩
  · obtain rfl : c = [] := h
    simp [QuoteFree]
  · obtain ⟨hx, b₁, b₂, hb₁, hb₂, rfl⟩ := h
    have hfree : ∀ {b : Bytes}, Spaces b → QuoteFree b := fun hb c hc => (space_byte (hb c hc)).1
    have hcolon : QuoteFree [58] := by simp [QuoteFree]
    exact (hfree hb₁).append (hcolon.append ((hfree hb₂).append (number_quoteFree hx)))

theorem whole_kept {t s c tail raw k : Bytes} {v : Tree} (ht : t = s ++ 34 :: (c ++ tail))
    (hvalid : ValidUtf8 t) (hv : (∃ raw s, v = .str raw s) ∨ ∃ x q, v = .num x q) (hcore : Core v c)
    (htail : ∀ x ∈ tail, isSpace x = true ∨ x = 125) (hlen : t.length % 3 ≤ tail.length)
    (hlost : ¬ Lost t (raw, k, v)) :
    ValidUtf8 (whole t) ∧ ∃ e, QuoteFree e ∧ whole t = s ++ 34 :: e ∧ LastGap t (raw, k, v) e := by
  have hsplit := List.take_append_drop (tail.length - t.length % 3) tail
  have hdrop : (tail.drop (tail.length - t.length % 3)).length = t.length % 3 := by
    rw [List.length_drop]
    omega
  have hkept : ∀ x ∈ tail.take (tail.length - t.length % 3), isSpace x = true ∨ x = 125 :=
    fun x hx => htail x (List.mem_of_mem_take hx)
  have hascii : Ascii (tail.drop (tail.length - t.length % 3)) :=
    fun x hx => (closing_byte (htail x (List.mem_of_mem_drop hx))).2
  generalize tail.take (tail.length - t.length % 3) = e at hsplit hkept
  generalize tail.drop (tail.length - t.length % 3) = lost at hsplit hdrop hascii
  have hcut : t = (s ++ 34 :: (c ++ e)) ++ lost := by rw [ht, ← hsplit]; simp
  obtain ⟨hvalid, hwhole⟩ := whole_text hcut hdrop.symm hvalid hascii
  refine ⟨hvalid, c ++ e, (core_quoteFree hcore hv).append fun x hx => (closing_byte (hkept x hx)).1,
    hwhole, ?_⟩
  rcases hv with ⟨raw', s', rfl⟩ | ⟨x, q, rfl⟩
  · obtain rfl : c = [] := hcore
    have hnone := closing_none hkept
    exact ⟨by simp [hnone], by simp [hnone]⟩
  · obtain ⟨hx, b₁, b₂, hb₁, hb₂, rfl⟩ := hcore
    have hne : x ≠ [] := by
      obtain ⟨⟨d, z, rfl, -⟩, -⟩ := Json.readNumber_bytes hx
      simp
    have h := lastGap_number (k := k) hx hb₁ hb₂ hkept (if_neg hlost).symm fun h => absurd h hne
    simpa using h

theorem whole_short {t s x b₁ b₂ raw k : Bytes} {q : ℚ}
    (ht : t = s ++ 34 :: (b₁ ++ 58 :: (b₂ ++ x) ++ [125])) (hvalid : ValidUtf8 t)
    (hx : readNumber x = some (q, [])) (hb₁ : Spaces b₁) (hb₂ : Spaces b₂)
    (htwo : t.length % 3 = 2) :
    ValidUtf8 (whole t) ∧
      ∃ e, QuoteFree e ∧ whole t = s ++ 34 :: e ∧ LastGap t (raw, k, .num x q) e := by
  obtain ⟨⟨d, z, hdz, -⟩, hall⟩ := Json.readNumber_bytes hx
  have hne : x ≠ [] := by simp [hdz]
  have hlost : Lost t (raw, k, .num x q) := by
    refine ⟨htwo, s ++ 34 :: (b₁ ++ 58 :: b₂), ?_⟩
    rw [ht, lastBytes]
    simp
  have hnumber : ∀ x, Json.isNumberByte x = true → x < 128 := forall_byte (by decide +kernel)
  have hascii : Ascii [x.getLast hne, 125] := by
    have hlast := hnumber _ (hall _ (List.getLast_mem hne))
    simp [Ascii, hlast]
  have hcut : t = (s ++ 34 :: (b₁ ++ 58 :: (b₂ ++ x.dropLast))) ++ [x.getLast hne, 125] := by
    conv_lhs => rw [ht, ← List.dropLast_append_getLast hne]
    simp
  obtain ⟨hvalid, hwhole⟩ := whole_text hcut htwo hvalid hascii
  have hfree : QuoteFree (b₁ ++ 58 :: (b₂ ++ x.dropLast)) := by
    have hspaces : ∀ {b : Bytes}, Spaces b → QuoteFree b := fun hb c hc => (space_byte (hb c hc)).1
    have hcolon : QuoteFree [58] := by simp [QuoteFree]
    have hrest : QuoteFree x.dropLast :=
      fun c hc => number_quoteFree hx c (List.mem_of_mem_dropLast hc)
    exact (hspaces hb₁).append (hcolon.append ((hspaces hb₂).append hrest))
  have h := lastGap_number (k := k) (e := []) hx hb₁ hb₂ (by simp) (if_pos hlost).symm fun _ => rfl
  rw [List.append_nil] at h
  exact ⟨hvalid, _, hfree, hwhole, h⟩

/-- What is read of a flat object: all of it up to its last quote, and what is left behind that,
unless the quote is the byte that is lost. -/
theorem whole_end {t raw k : Bytes} {v : Tree} {ms : List (Bytes × Bytes × Tree)}
    (hdoc : Document t (.obj (ms ++ [(raw, k, v)]))) (hflat : Flat (ms ++ [(raw, k, v)])) :
    ValidUtf8 (whole t) ∧ ∃ s g, t = s ++ 34 :: g ∧ QuoteFree g ∧
      ((Lost t (raw, k, v) ∧ (∃ raw s, v = .str raw s) ∧ whole t = s) ∨
        ¬ (Lost t (raw, k, v) ∧ ∃ raw s, v = .str raw s) ∧
          ∃ e, QuoteFree e ∧ whole t = s ++ 34 :: e ∧ LastGap t (raw, k, v) e) := by
  obtain ⟨s, c, b, b', ht, hb, hb', hcore⟩ := document_end hdoc hflat
  have hv := hflat (raw, k, v) (by simp)
  have htail : ∀ x ∈ b ++ 125 :: b', isSpace x = true ∨ x = 125 := by
    intro x hx
    rcases List.mem_append.mp hx with hx | hx
    · exact Or.inl (hb x hx)
    · exact (List.mem_cons.mp hx).elim Or.inr fun hx => Or.inl (hb' x hx)
  have hfree : QuoteFree (c ++ (b ++ 125 :: b')) :=
    (core_quoteFree hcore hv).append fun x hx => (closing_byte (htail x hx)).1
  have hmod := Nat.mod_lt t.length (show 3 > 0 by omega)
  by_cases hlen : t.length % 3 ≤ (b ++ 125 :: b').length
  · have hlost : ¬ Lost t (raw, k, v) := by
      intro h
      have hnumber : (∃ raw s, v = .str raw s) ∨ ∃ x q, v = .num x q ∧ readNumber x = some (q, []) := by
        rcases hv with hv | ⟨x, q, rfl⟩
        · exact Or.inl hv
        · exact Or.inr ⟨x, q, rfl, hcore.1⟩
      have hends : t = (s ++ 34 :: c) ++ (b ++ 125 :: b') := by rw [ht]; simp
      obtain ⟨rfl, rfl⟩ := not_lost hends hb hb' hnumber h
      rw [h.1] at hlen
      simp at hlen
    obtain ⟨hvalid, hwhole⟩ := whole_kept ht hdoc.1 hv hcore htail hlen hlost
    exact ⟨hvalid, s, _, ht, hfree, Or.inr ⟨fun h => hlost h.1, hwhole⟩⟩
  · have hnil : b = [] ∧ b' = [] ∧ t.length % 3 = 2 := by
      rw [List.length_append, List.length_cons] at hlen
      exact ⟨List.eq_nil_of_length_eq_zero (by omega), List.eq_nil_of_length_eq_zero (by omega),
        by omega⟩
    obtain ⟨rfl, rfl, htwo⟩ := hnil
    rcases hv with ⟨raw', s', rfl⟩ | ⟨x, q, rfl⟩
    · obtain rfl : c = [] := hcore
      have hlost : Lost t (raw, k, .str raw' s') := ⟨htwo, s, by rw [ht]; rfl⟩
      have hascii : Ascii [34, 125] := by simp [Ascii]
      obtain ⟨hvalid, hwhole⟩ := whole_text (a := s) (b := [34, 125]) ht htwo hdoc.1 hascii
      exact ⟨hvalid, s, _, ht, hfree, Or.inl ⟨hlost, ⟨raw', s', rfl⟩, hwhole⟩⟩
    · obtain ⟨hx, b₁, b₂, hb₁, hb₂, rfl⟩ := hcore
      obtain ⟨hvalid, hwhole⟩ := @whole_short _ _ _ _ _ raw k _ ht hdoc.1 hx hb₁ hb₂ htwo
      exact ⟨hvalid, s, _, ht, hfree, Or.inr ⟨by simp, hwhole⟩⟩

end Ends

end LuaProxy.JwtPayload
