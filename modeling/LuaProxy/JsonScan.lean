import LuaProxy.JwtFormat

/-! What the three patterns of `parse_json_obj` find. A text is taken apart at its quotes:
the patterns look at the segments between them, without regard to which of the quotes
open a string and which close one. -/
namespace LuaProxy.JsonScan
open Text Lua LuaPattern Jwt JwtCodec JwtFormat

def QuoteFree (s : Bytes) : Prop := ∀ b ∈ s, b ≠ 34

def quoted (segs : List Bytes) : Bytes := segs.flatMap fun s => 34 :: s

@[simp] theorem quoted_nil : quoted [] = [] := rfl

@[simp] theorem quoted_cons (s : Bytes) (segs : List Bytes) :
    quoted (s :: segs) = 34 :: (s ++ quoted segs) := by simp [quoted]

theorem quoted_append (as bs : List Bytes) : quoted (as ++ bs) = quoted as ++ quoted bs := by
  simp [quoted]

/-- What follows a colon that has only blanks before it, without the blanks after it. -/
def afterColon (s : Bytes) : Option Bytes :=
  match s.dropWhile Single.space.test with
  | 58 :: t => some (t.dropWhile Single.space.test)
  | _ => none

/-- The matches of the string pattern in quoted segments: a name, a colon, a value. -/
def scanStrings : List Bytes → List (List Bytes)
  | n :: o :: v :: z :: rest =>
    if n ≠ [] ∧ afterColon o = some [] then [n, v] :: scanStrings rest
    else scanStrings (o :: v :: z :: rest)
  | _ => []

/-- The matches of a pattern for literals, which `read` recognises after the colon. -/
def scanBare (read : Bytes → Option Bytes) : List Bytes → List (List Bytes)
  | n :: o :: rest =>
    match if n = [] then none else (afterColon o).bind read with
    | some v => [n, v] :: scanBare read rest
    | none => scanBare read (o :: rest)
  | _ => []

def notQuote : LuaPattern.Class := .set true [.lit 34]

def quoteItem : Item := .one (.one (.lit 34))

def spaces : Item := .star (.one .space)

/-- The items of `"([^"]+)"%s*:%s*` before the items of a value. -/
def keyItems (tail : List Item) : List Item :=
  quoteItem :: .openCap :: .plus notQuote :: .closeCap :: quoteItem :: spaces ::
    .one (.one (.lit 58)) :: spaces :: tail

def stringTail : List Item := [quoteItem, .openCap, .star notQuote, .closeCap, quoteItem]

def numberClass : LuaPattern.Class := .set false [.digit, .lit 46, .lit 45]

def numberTail : List Item := [.openCap, .plus numberClass, .closeCap]

def boolTail : List Item :=
  .openCap :: ((utf8 "true|false").map (fun c => .one (.one (.lit c))) ++ [.closeCap])

theorem parse_stringPattern :
    parse (utf8 stringPattern) = some ⟨false, keyItems stringTail⟩ := by decide

theorem parse_numberPattern :
    parse (utf8 numberPattern) = some ⟨false, keyItems numberTail⟩ := by decide

theorem parse_boolPattern :
    parse (utf8 boolPattern) = some ⟨false, keyItems boolTail⟩ := by decide

/-- The longest text of digits, points and minus signs, if there is one. -/
def numberRun (s : Bytes) : Option Bytes :=
  let run := s.takeWhile numberClass.test
  if run = [] then none else some run

def boolText (s : Bytes) : Option Bytes :=
  if utf8 "true|false" <+: s then some (utf8 "true|false") else none

theorem notQuote_test (b : UInt8) : notQuote.test b = (b != 34) := by
  simp [notQuote, Class.test, Single.test, bne]

theorem dropWhile_quoted {test : UInt8 → Bool} (ht : test 34 = false) (s : Bytes)
    (segs : List Bytes) :
    (s ++ quoted segs).dropWhile test = s.dropWhile test ++ quoted segs := by
  have hq : (quoted segs).dropWhile test = quoted segs := by
    cases segs with
    | nil => rfl
    | cons o rest => simp [ht]
  induction s with
  | nil => exact hq
  | cons b s ih =>
    simp only [List.cons_append, List.dropWhile_cons, ih]
    split_ifs <;> rfl

theorem afterColon_quoted (s : Bytes) (segs : List Bytes) :
    afterColon (s ++ quoted segs) = (afterColon s).map (· ++ quoted segs) := by
  have ht : Single.space.test 34 = false := by decide
  unfold afterColon
  rw [dropWhile_quoted ht]
  cases s.dropWhile Single.space.test with
  | nil => cases segs <;> simp
  | cons b t =>
    by_cases hb : b = 58
    · subst hb
      simp [dropWhile_quoted ht]
    · simp [hb]

theorem matchHere_colon {tail : List Item}
    (htail : ∀ b t cs, Single.space.test b = true → matchHere tail (b :: t) cs = none)
    (s : Bytes) (cs : List Capture) :
    matchHere (spaces :: .one (.one (.lit 58)) :: spaces :: tail) s cs =
      (afterColon s).bind fun y => matchHere tail y cs := by
  have hcolon : ∀ b t, Class.test (.one .space) b = true →
      matchHere (.one (.one (.lit 58)) :: spaces :: tail) (b :: t) cs = none := by
    intro b t hb
    have hne : b ≠ 58 := by
      rintro rfl
      exact absurd hb (by decide)
    simp [matchHere, Class.test, Single.test, hne]
  have hrest : ∀ b t, Class.test (.one .space) b = true → matchHere tail (b :: t) cs = none :=
    fun b t hb => htail b t cs hb
  have hspace : Class.test (.one .space) = Single.space.test := rfl
  rw [spaces, matchHere, maxExpand_eq hcolon, hspace, afterColon]
  cases s.dropWhile Single.space.test with
  | nil => simp [matchHere]
  | cons b t =>
    by_cases hb : b = 58
    · subst hb
      simp only [matchHere, Class.test, Single.test, beq_self_eq_true, if_true]
      rw [← hspace, maxExpand_eq hrest]
      rfl
    · simp [matchHere, Class.test, Single.test, hb]

theorem matchHere_quote (s : Bytes) (is : List Item) (cs : List Capture) :
    matchHere (quoteItem :: is) (34 :: s) cs = matchHere is s cs := by
  simp [quoteItem, matchHere, Class.test, Single.test]

theorem matchHere_quote_ne {b : UInt8} (hb : b ≠ 34) (s : Bytes) (is : List Item)
    (cs : List Capture) : matchHere (quoteItem :: is) (b :: s) cs = none := by
  simp [quoteItem, matchHere, Class.test, Single.test, hb]

theorem maxExpand_notQuote {is : List Item} {n s : Bytes} (hn : QuoteFree n)
    (segs : List Bytes) (cs : List Capture) :
    maxExpand notQuote.test
        (fun t => matchHere (.closeCap :: quoteItem :: is) t (.opened s :: cs))
        (n ++ quoted segs) =
      matchHere (.closeCap :: quoteItem :: is) (quoted segs) (.opened s :: cs) := by
  have hk : ∀ b t, notQuote.test b = true →
      matchHere (.closeCap :: quoteItem :: is) (b :: t) (.opened s :: cs) = none := by
    intro b t hb
    rw [notQuote_test] at hb
    simp [matchHere, closeCapture, quoteItem, Class.test, Single.test, by simpa using hb]
  have hdrop : (quoted segs).dropWhile notQuote.test = quoted segs :=
    dropWhile_quoted (by decide) [] segs
  rw [maxExpand_eq hk, List.dropWhile_append_of_pos, hdrop]
  intro b hb
  simpa [notQuote_test] using hn b hb

/-- The part of a pattern up to the value takes two segments: a name that is not empty,
and one that starts with a colon. -/
theorem matchHere_keyItems {tail : List Item}
    (htail : ∀ b t cs, Single.space.test b = true → matchHere tail (b :: t) cs = none)
    {n : Bytes} (hn : QuoteFree n) (o : Bytes) (rest : List Bytes) (cs : List Capture) :
    matchHere (keyItems tail) (quoted (n :: o :: rest)) cs =
      if n = [] then none
      else (afterColon o).bind fun y => matchHere tail (y ++ quoted rest) (.closed n :: cs) := by
  rw [keyItems, quoted_cons, matchHere_quote, matchHere]
  cases n with
  | nil => simp [matchHere, notQuote_test]
  | cons b n =>
    have hb : b ≠ 34 := hn b (by simp)
    have hn' : QuoteFree n := fun x hx => hn x (by simp [hx])
    rw [List.cons_append, matchHere, if_pos (by simp [notQuote_test, hb]),
      maxExpand_notQuote hn', matchHere, if_neg (by simp)]
    rw [← List.cons_append, closeCapture_one, Option.bind_some, quoted_cons, matchHere_quote,
      matchHere_colon htail, afterColon_quoted, Option.bind_map]
    rfl

theorem matchHere_keyItems_last {tail : List Item} {n : Bytes} (hn : QuoteFree n)
    (cs : List Capture) : matchHere (keyItems tail) (quoted [n]) cs = none := by
  rw [keyItems, quoted_cons, matchHere_quote, matchHere]
  cases n with
  | nil => simp [matchHere]
  | cons b n =>
    have hb : b ≠ 34 := hn b (by simp)
    have hn' : QuoteFree n := fun x hx => hn x (by simp [hx])
    rw [List.cons_append, matchHere, if_pos (by simp [notQuote_test, hb]),
      maxExpand_notQuote hn', matchHere]
    simp [closeCapture, matchHere, quoteItem]

theorem stringTail_space (b : UInt8) (t : Bytes) (cs : List Capture)
    (hb : Single.space.test b = true) : matchHere stringTail (b :: t) cs = none := by
  have hne : b ≠ 34 := by
    rintro rfl
    exact absurd hb (by decide)
  exact matchHere_quote_ne hne _ _ _

theorem matchHere_stringTail {y v : Bytes} (hy : QuoteFree y) (hv : QuoteFree v)
    (rest : List Bytes) (cs : List Capture) :
    matchHere stringTail (y ++ quoted (v :: rest)) cs =
      match y, rest with
      | [], z :: rest => some (z ++ quoted rest, .closed v :: cs)
      | _, _ => none := by
  cases y with
  | cons b y => exact matchHere_quote_ne (hy b (by simp)) _ _ _
  | nil =>
    rw [List.nil_append, quoted_cons, stringTail, matchHere_quote, matchHere, matchHere,
      maxExpand_notQuote hv, matchHere, closeCapture_one, Option.bind_some]
    cases rest with
    | nil => simp [matchHere, quoteItem]
    | cons z rest => rw [quoted_cons, matchHere_quote, matchHere]

theorem numberRun_append {x : Bytes} (gap : Bytes) (hx : ∀ b ∈ x, numberClass.test b = true)
    (hgap : gap.takeWhile numberClass.test = []) :
    numberRun (x ++ gap) = if x = [] then none else some x := by
  have htake : (x ++ gap).takeWhile numberClass.test = x := by
    rw [List.takeWhile_append_of_pos hx, hgap, List.append_nil]
  simp only [numberRun, htake]

theorem boolText_none {x : Bytes} (h : ∀ b ∈ x.head?, b ≠ 116) : boolText x = none := by
  have hlit : utf8 "true|false" = 116 :: [114, 117, 101, 124, 102, 97, 108, 115, 101] := by
    decide
  rw [boolText, if_neg]
  rw [hlit]
  cases x with
  | nil => simp
  | cons b x =>
    rw [List.cons_prefix_cons]
    rintro ⟨rfl, -⟩
    exact h _ (by simp) rfl

/-- A tail that reads a literal: `read` is what it captures and `left` what it leaves. -/
structure Reads (tail : List Item) (read : Bytes → Option Bytes) (left : Bytes → Bytes) :
    Prop where
  space : ∀ b t cs, Single.space.test b = true → matchHere tail (b :: t) cs = none
  left_quoteFree : ∀ y, QuoteFree y → QuoteFree (left y)
  value : ∀ y rest cs, QuoteFree y → matchHere tail (y ++ quoted rest) cs =
    (read y).map fun v => (left y ++ quoted rest, .closed v :: cs)

theorem matchHere_numberTail (s : Bytes) (cs : List Capture) :
    matchHere numberTail s cs =
      (numberRun s).map fun v => (s.dropWhile numberClass.test, .closed v :: cs) := by
  cases s with
  | nil => rfl
  | cons b t =>
    have hk : ∀ u, (matchHere [.closeCap] u (.opened (b :: t) :: cs)).isSome := fun u => rfl
    have hmax := maxExpand_total numberClass.test hk t
    simp only [numberTail, matchHere] at hmax ⊢
    by_cases hb : numberClass.test b = true
    · rw [if_pos hb, hmax]
      have hsplit : b :: t = (b :: t.takeWhile numberClass.test) ++ t.dropWhile numberClass.test := by
        simp [List.takeWhile_append_dropWhile]
      have hcap := closeCapture_one (b :: t.takeWhile numberClass.test)
        (t.dropWhile numberClass.test) cs
      rw [← hsplit] at hcap
      rw [hcap]
      simp [numberRun, hb]
    · rw [if_neg hb]
      simp [numberRun, hb]

theorem numberTail_reads :
    Reads numberTail numberRun (fun y => y.dropWhile numberClass.test) where
  space b t cs hb := by
    have hne : numberClass.test b = false := by
      have hall : ∀ b, Single.space.test b = true → numberClass.test b = false :=
        forall_byte (by decide +kernel)
      exact hall b hb
    simp [numberTail, matchHere, hne]
  left_quoteFree y hy b hb := hy b (List.dropWhile_suffix _ |>.mem hb)
  value y rest cs hy := by
    have h34 : numberClass.test 34 = false := by decide
    have hrun : numberRun (y ++ quoted rest) = numberRun y := by
      have htake : (y ++ quoted rest).takeWhile numberClass.test =
          y.takeWhile numberClass.test := by
        have hq : (quoted rest).takeWhile numberClass.test = [] := by
          cases rest <;> simp [h34]
        rw [List.takeWhile_append, hq]
        split_ifs with hl
        · rw [List.append_nil]
          exact ((List.takeWhile_prefix _).eq_of_length hl).symm
        · rfl
      rw [numberRun, numberRun, htake]
    rw [matchHere_numberTail, hrun, dropWhile_quoted h34]

theorem prefix_quoted {w : Bytes} (hw : QuoteFree w) (y : Bytes) (rest : List Bytes) :
    w <+: y ++ quoted rest ↔ w <+: y := by
  induction w generalizing y with
  | nil => simp
  | cons b w ih =>
    have hb : b ≠ 34 := hw b (by simp)
    have hw' : QuoteFree w := fun x hx => hw x (by simp [hx])
    cases y with
    | nil =>
      cases rest with
      | nil => simp
      | cons o rest => simp [hb]
    | cons c y => rw [List.cons_append, List.cons_prefix_cons, List.cons_prefix_cons, ih hw']

theorem boolTail_reads :
    Reads boolTail boolText (fun y => y.drop (utf8 "true|false").length) where
  space b t cs hb := by
    have hne : ¬ utf8 "true|false" <+: b :: t := by
      have hlit : utf8 "true|false" = 116 :: [114, 117, 101, 124, 102, 97, 108, 115, 101] := by
        decide
      rw [hlit, List.cons_prefix_cons]
      rintro ⟨rfl, -⟩
      exact absurd hb (by decide)
    rw [boolTail, matchHere, matchHere_lits, if_neg hne]
  left_quoteFree y hy b hb := hy b (List.mem_of_mem_drop hb)
  value y rest cs hy := by
    have hlit : QuoteFree (utf8 "true|false") := by
      have h : ∀ b ∈ utf8 "true|false", b ≠ 34 := by decide +kernel
      exact h
    rw [boolTail, matchHere, matchHere_lits, boolText]
    by_cases hp : utf8 "true|false" <+: y
    · rw [if_pos ((prefix_quoted hlit y rest).mpr hp), if_pos hp]
      obtain ⟨t, rfl⟩ := hp
      simp only [List.append_assoc, List.drop_left, matchHere, closeCapture_one, Option.bind_some,
        Option.map_some]
    · rw [if_neg (fun h => hp ((prefix_quoted hlit y rest).mp h)), if_neg hp]
      rfl

theorem matchAt_keyItems {tail : List Item}
    (htail : ∀ b t cs, Single.space.test b = true → matchHere tail (b :: t) cs = none)
    {n : Bytes} (hn : QuoteFree n) (o : Bytes) (rest : List Bytes) :
    matchAt (keyItems tail) (quoted (n :: o :: rest)) =
      if n = [] then none
      else (afterColon o).bind fun y =>
        (matchHere tail (y ++ quoted rest) [.closed n]).map fun r =>
          (r.1, captures (quoted (n :: o :: rest)) r.1 r.2) := by
  rw [matchAt, matchHere_keyItems htail hn]
  split_ifs
  · rfl
  · rw [Option.map_bind]
    rfl

theorem productive_keyItems (tail : List Item) : Productive (keyItems tail) := productive_one _ _

theorem gmatchAll_quoted_skip {tail : List Item} {n : Bytes} (hn : QuoteFree n)
    (segs : List Bytes) (h : matchAt (keyItems tail) (quoted (n :: segs)) = none) :
    gmatchAll (keyItems tail) (quoted (n :: segs)) = gmatchAll (keyItems tail) (quoted segs) := by
  have hpass : gmatchAll (keyItems tail) (n ++ quoted segs) =
      gmatchAll (keyItems tail) (quoted segs) :=
    gmatchAll_pass _ fun b hb => by simpa [Class.test, Single.test] using hn b hb
  rw [quoted_cons] at h ⊢
  rw [gmatchAll_skip (productive_keyItems tail) h, hpass]

theorem gmatchAll_last {tail : List Item} {n : Bytes} (hn : QuoteFree n) :
    gmatchAll (keyItems tail) (quoted [n]) = [] := by
  have hm : matchAt (keyItems tail) (quoted [n]) = none := by
    rw [matchAt, matchHere_keyItems_last hn]
    rfl
  rw [gmatchAll_quoted_skip hn _ hm, quoted_nil, gmatchAll_nil (productive_keyItems tail)]

theorem QuoteFree.append {s t : Bytes} (hs : QuoteFree s) (ht : QuoteFree t) :
    QuoteFree (s ++ t) := by
  intro b hb
  rcases List.mem_append.mp hb with hb | hb
  · exact hs b hb
  · exact ht b hb

theorem QuoteFree.dropWhile {s : Bytes} (h : QuoteFree s) (test : UInt8 → Bool) :
    QuoteFree (s.dropWhile test) := fun b hb => h b ((List.dropWhile_suffix _).mem hb)

theorem QuoteFree.afterColon {o y : Bytes} (h : QuoteFree o) (hy : afterColon o = some y) :
    QuoteFree y := by
  unfold JsonScan.afterColon at hy
  have hd := h.dropWhile Single.space.test
  split at hy
  · rename_i t ht
    rw [ht] at hd
    obtain rfl := Option.some.inj hy
    have htf : QuoteFree t := fun b hb => hd b (by simp [hb])
    exact htf.dropWhile _
  · simp at hy

theorem gmatchAll_bare {tail : List Item} {read : Bytes → Option Bytes} {left : Bytes → Bytes}
    (hr : Reads tail read left) (segs : List Bytes) (hq : ∀ s ∈ segs, QuoteFree s) :
    gmatchAll (keyItems tail) (quoted segs) = scanBare read segs := by
  have hp := productive_keyItems tail
  fun_induction scanBare read segs with
  | case1 n o rest v hv ih =>
    have hn : QuoteFree n := hq n (by simp)
    have ho : QuoteFree o := hq o (by simp)
    have hne : n ≠ [] := by
      rintro rfl
      simp at hv
    rw [if_neg hne] at hv
    obtain ⟨y, hy, hval⟩ := Option.bind_eq_some_iff.mp hv
    have hyq := ho.afterColon hy
    have hm : matchAt (keyItems tail) (quoted (n :: o :: rest)) =
        some (left y ++ quoted rest, [n, v]) := by
      rw [matchAt_keyItems hr.space hn, if_neg hne, hy, Option.bind_some, hr.value _ _ _ hyq, hval]
      rfl
    have hpass : gmatchAll (keyItems tail) (left y ++ quoted rest) =
        gmatchAll (keyItems tail) (quoted rest) :=
      gmatchAll_pass _ fun b hb => by
        simpa [Class.test, Single.test] using hr.left_quoteFree y hyq b hb
    rw [gmatchAll_match hp hm, hpass, ih fun s hs => hq s (by simp [hs])]
  | case2 n o rest hv ih =>
    have hn : QuoteFree n := hq n (by simp)
    have ho : QuoteFree o := hq o (by simp)
    have hm : matchAt (keyItems tail) (quoted (n :: o :: rest)) = none := by
      rw [matchAt_keyItems hr.space hn]
      split_ifs at hv ⊢ with hne
      · rfl
      · cases hy : afterColon o with
        | none => rfl
        | some y =>
          rw [hy, Option.bind_some] at hv
          rw [Option.bind_some, hr.value _ _ _ (ho.afterColon hy), hv]
          rfl
    rw [gmatchAll_quoted_skip hn _ hm, ih fun s hs => hq s (by simp [hs])]
  | case3 segs hs =>
    cases segs with
    | nil => exact gmatchAll_nil hp
    | cons n segs =>
      cases segs with
      | nil => exact gmatchAll_last (hq n (by simp))
      | cons o rest => exact absurd rfl (hs n o rest)

theorem matchAt_strings_short {n o : Bytes} (hn : QuoteFree n) (ho : QuoteFree o)
    (rest : List Bytes) (hr : ∀ v ∈ rest, QuoteFree v) (hl : rest.length ≤ 1) :
    matchAt (keyItems stringTail) (quoted (n :: o :: rest)) = none := by
  rw [matchAt_keyItems stringTail_space hn]
  split_ifs
  · rfl
  · cases hy : afterColon o with
    | none => rfl
    | some y =>
      have hyq := ho.afterColon hy
      rw [Option.bind_some]
      match rest, hl with
      | [], _ =>
        rw [quoted_nil, List.append_nil]
        cases y with
        | nil => rfl
        | cons b y => rw [stringTail, matchHere_quote_ne (hyq b (by simp))]; rfl
      | [v], _ =>
        rw [matchHere_stringTail hyq (hr v (by simp))]
        cases y <;> rfl

theorem matchAt_strings {n o v z : Bytes} (hn : QuoteFree n) (ho : QuoteFree o)
    (hv : QuoteFree v) (rest : List Bytes) :
    matchAt (keyItems stringTail) (quoted (n :: o :: v :: z :: rest)) =
      if n ≠ [] ∧ afterColon o = some [] then some (z ++ quoted rest, [n, v]) else none := by
  rw [matchAt_keyItems stringTail_space hn]
  by_cases hne : n = []
  · simp [hne]
  · rw [if_neg hne]
    cases hy : afterColon o with
    | none => simp
    | some y =>
      rw [Option.bind_some, matchHere_stringTail (ho.afterColon hy) hv]
      cases y with
      | nil => simp [hne, captures, Capture.text]
      | cons b y => simp

theorem gmatchAll_strings (segs : List Bytes) (hq : ∀ s ∈ segs, QuoteFree s) :
    gmatchAll (keyItems stringTail) (quoted segs) = scanStrings segs := by
  have hp := productive_keyItems stringTail
  fun_induction scanStrings segs with
  | case1 n o v z rest h ih =>
    have hz : QuoteFree z := hq z (by simp)
    have hm := matchAt_strings (z := z) (hq n (by simp)) (hq o (by simp)) (hq v (by simp)) rest
    rw [if_pos h] at hm
    have hpass : gmatchAll (keyItems stringTail) (z ++ quoted rest) =
        gmatchAll (keyItems stringTail) (quoted rest) :=
      gmatchAll_pass _ fun b hb => by simpa [Class.test, Single.test] using hz b hb
    rw [gmatchAll_match hp hm, hpass, ih fun s hs => hq s (by simp [hs])]
  | case2 n o v z rest h ih =>
    have hm := matchAt_strings (z := z) (hq n (by simp)) (hq o (by simp)) (hq v (by simp)) rest
    rw [if_neg h] at hm
    rw [gmatchAll_quoted_skip (hq n (by simp)) _ hm]
    exact ih fun s hs => hq s (List.mem_cons_of_mem _ hs)
  | case3 segs hs =>
    cases segs with
    | nil => exact gmatchAll_nil hp
    | cons n segs =>
      have hn : QuoteFree n := hq n (by simp)
      cases segs with
      | nil => exact gmatchAll_last hn
      | cons o segs =>
        have ho : QuoteFree o := hq o (by simp)
        cases segs with
        | nil =>
          have hm := matchAt_strings_short hn ho [] (by simp) (by simp)
          rw [gmatchAll_quoted_skip hn _ hm]
          exact gmatchAll_last ho
        | cons v segs =>
          have hv : QuoteFree v := hq v (by simp)
          cases segs with
          | nil =>
            have hm := matchAt_strings_short hn ho [v] (by simpa using hv) (by simp)
            have hm' := matchAt_strings_short ho hv [] (by simp) (by simp)
            rw [gmatchAll_quoted_skip hn _ hm, gmatchAll_quoted_skip ho _ hm']
            exact gmatchAll_last hv
          | cons z rest => exact absurd rfl (hs n o v z rest)

theorem gmatch_eq {pattern : String} {tail : List Item}
    (h : parse (utf8 pattern) = some ⟨false, keyItems tail⟩) {lead : Bytes}
    (hl : QuoteFree lead) (segs : List Bytes) :
    gmatch pattern (lead ++ quoted segs) = gmatchAll (keyItems tail) (quoted segs) := by
  have hpass : gmatchAll (keyItems tail) (lead ++ quoted segs) =
      gmatchAll (keyItems tail) (quoted segs) :=
    gmatchAll_pass _ fun b hb => by simpa [Class.test, Single.test] using hl b hb
  rw [← hpass, gmatch, h, gmatchAll]

/-- The value of a match of the third pattern. -/
def boolValue (val : Bytes) : Value := .bool (val == utf8 "true")

/-- `parse_json_obj` on a text taken apart at its quotes. -/
theorem parseJsonObj_quoted {lead : Bytes} {segs : List Bytes} (hl : QuoteFree lead)
    (hq : ∀ s ∈ segs, QuoteFree s) :
    parseJsonObj (lead ++ quoted segs) =
      collect boolValue (scanBare boolText segs)
        (collect numeral (scanBare numberRun segs) (collect .str (scanStrings segs) ∅)) := by
  rw [parseJsonObj, gmatch_eq parse_stringPattern hl, gmatch_eq parse_numberPattern hl,
    gmatch_eq parse_boolPattern hl, gmatchAll_strings segs hq, gmatchAll_bare numberTail_reads segs hq,
    gmatchAll_bare boolTail_reads segs hq]
  rfl

theorem exists_segments (s : Bytes) :
    ∃ lead segs, QuoteFree lead ∧ (∀ t ∈ segs, QuoteFree t) ∧ s = lead ++ quoted segs := by
  induction s with
  | nil => exact ⟨[], [], by simp [QuoteFree], by simp, rfl⟩
  | cons b s ih =>
    obtain ⟨lead, segs, hl, hq, rfl⟩ := ih
    by_cases hb : b = 34
    · subst hb
      refine ⟨[], lead :: segs, by simp [QuoteFree], ?_, by simp⟩
      intro t ht
      rcases List.mem_cons.mp ht with rfl | ht
      · exact hl
      · exact hq t ht
    · refine ⟨b :: lead, segs, ?_, hq, by simp⟩
      intro x hx
      rcases List.mem_cons.mp hx with rfl | hx
      · exact hb
      · exact hl x hx

section Skip

theorem scanBare_skip {read : Bytes → Option Bytes} {n : Bytes} {segs : List Bytes}
    (h : ∀ o ∈ segs.head?, (afterColon o).bind read = none) :
    scanBare read (n :: segs) = scanBare read segs := by
  cases segs with
  | nil => rfl
  | cons o rest => simp [scanBare, h o (by simp)]

theorem scanStrings_skip {n : Bytes} {segs : List Bytes}
    (h : ∀ o ∈ segs.head?, afterColon o ≠ some []) :
    scanStrings (n :: segs) = scanStrings segs := by
  match segs with
  | [] => rfl
  | [_] => rfl
  | [_, _] => rfl
  | o :: v :: z :: rest => simp [scanStrings, h o (by simp)]

theorem afterColon_colon {before after s : Bytes} (hb : Blank before) (ha : Blank after)
    (hs : ∀ b ∈ s.head?, Single.space.test b = false) :
    afterColon (before ++ 58 :: after ++ s) = some s := by
  have hdrop : s.dropWhile Single.space.test = s := dropWhile_stop hs
  have h58 : Single.space.test 58 = false := by decide
  rw [afterColon, List.append_assoc, List.dropWhile_append_of_pos hb, List.cons_append,
    List.dropWhile_cons_of_neg (by simp [h58])]
  simp only [List.dropWhile_append_of_pos ha, hdrop]

end Skip

section Collect

def matchFor (k : Bytes) : List Bytes → Option Bytes
  | [key, val] => if key = k then some val else none
  | _ => none

def lastOf (k : Bytes) : List (List Bytes) → Option Bytes
  | [] => none
  | m :: ms => (lastOf k ms).or (matchFor k m)

theorem collect_get (value : Bytes → Value) (ms : List (List Bytes)) (result : Table)
    (k : Bytes) :
    (collect value ms result).get k = ((lastOf k ms).map value).getD (result.get k) := by
  induction ms generalizing result with
  | nil => rfl
  | cons m ms ih =>
    have hstep : collect value (m :: ms) result =
        collect value ms (match m with
          | [key, val] => result.set key (value val)
          | _ => result) := rfl
    rw [hstep, ih, lastOf]
    cases lastOf k ms with
    | some v => rfl
    | none =>
      unfold matchFor
      split
      · rename_i key val
        simp only [Option.map_none, Option.getD_none, Option.none_or, Table.get_set]
        by_cases hk : key = k
        · subst hk
          simp
        · simp [hk, Ne.symm hk]
      · rfl

theorem lastOf_append (k : Bytes) (xs ys : List (List Bytes)) :
    lastOf k (xs ++ ys) = (lastOf k ys).or (lastOf k xs) := by
  induction xs with
  | nil => simp [lastOf]
  | cons m xs ih => rw [List.cons_append, lastOf, lastOf, ih, Option.or_assoc]

theorem lastOf_flatMap_eq_none {α : Type*} {k : Bytes} {ms : List α}
    {f : α → List (List Bytes)} :
    lastOf k (ms.flatMap f) = none ↔ ∀ m ∈ ms, lastOf k (f m) = none := by
  induction ms with
  | nil => simp [lastOf]
  | cons m ms ih =>
    rw [List.flatMap_cons, lastOf_append, Option.or_eq_none_iff, ih]
    simp [and_comm]

theorem lastOf_singleton (k n v : Bytes) :
    lastOf k [[n, v]] = if n = k then some v else none := by
  simp [lastOf, matchFor]

theorem lastOf_toList (k n : Bytes) (v : Option Bytes) :
    lastOf k (v.map fun v => [n, v]).toList = if n = k then v else none := by
  cases v with
  | none => simp [lastOf]
  | some v => exact lastOf_singleton k n v

theorem lastOf_some_mem {k v : Bytes} {ms : List (List Bytes)} (h : lastOf k ms = some v) :
    [k, v] ∈ ms := by
  induction ms with
  | nil => simp [lastOf] at h
  | cons m ms ih =>
    rw [lastOf, Option.or_eq_some_iff] at h
    rcases h with h | ⟨-, h⟩
    · exact List.mem_cons_of_mem _ (ih h)
    · unfold matchFor at h
      split at h
      · split_ifs at h with hk
        obtain rfl := Option.some.inj h
        simp [hk]
      · simp at h

theorem parseJsonObj_get {lead : Bytes} {segs : List Bytes} (hl : QuoteFree lead)
    (hq : ∀ s ∈ segs, QuoteFree s) (k : Bytes) :
    (parseJsonObj (lead ++ quoted segs)).get k =
      ((lastOf k (scanBare boolText segs)).map boolValue).getD
        (((lastOf k (scanBare numberRun segs)).map numeral).getD
          (((lastOf k (scanStrings segs)).map Value.str).getD .nil)) := by
  rw [parseJsonObj_quoted hl hq, collect_get, collect_get, collect_get]
  rfl

theorem mem_scanStrings {segs : List Bytes} {m : List Bytes} (h : m ∈ scanStrings segs) :
    ∃ n v, m = [n, v] ∧ n ≠ [] ∧ n ∈ segs ∧ v ∈ segs := by
  fun_induction scanStrings segs with
  | case1 n o v z rest hm ih =>
    rcases List.mem_cons.mp h with rfl | h
    · exact ⟨n, v, rfl, hm.1, by simp, by simp⟩
    · obtain ⟨n', v', he, hne, hn, hv⟩ := ih h
      exact ⟨n', v', he, hne, by simp [hn], by simp [hv]⟩
  | case2 n o v z rest hm ih =>
    obtain ⟨n', v', he, hne, hn, hv⟩ := ih h
    exact ⟨n', v', he, hne, List.mem_cons_of_mem _ hn, List.mem_cons_of_mem _ hv⟩
  | case3 => simp at h

theorem mem_scanBare {read : Bytes → Option Bytes} {segs : List Bytes} {m : List Bytes}
    (h : m ∈ scanBare read segs) :
    ∃ n v, m = [n, v] ∧ n ≠ [] ∧ n ∈ segs ∧ ∃ y, read y = some v := by
  fun_induction scanBare read segs with
  | case1 n o rest v hv ih =>
    rcases List.mem_cons.mp h with rfl | h
    · have hne : n ≠ [] := by
        rintro rfl
        simp at hv
      rw [if_neg hne] at hv
      obtain ⟨y, -, hy⟩ := Option.bind_eq_some_iff.mp hv
      exact ⟨n, v, rfl, hne, by simp, y, hy⟩
    · obtain ⟨n', v', he, hne, hn, hy⟩ := ih h
      exact ⟨n', v', he, hne, by simp [hn], hy⟩
  | case2 n o rest hv ih =>
    obtain ⟨n', v', he, hne, hn, hy⟩ := ih h
    exact ⟨n', v', he, hne, List.mem_cons_of_mem _ hn, hy⟩
  | case3 => simp at h

theorem validUtf8_segments {lead : Bytes} {segs : List Bytes}
    (h : ValidUtf8 (lead ++ quoted segs)) : ValidUtf8 lead ∧ ∀ s ∈ segs, ValidUtf8 s := by
  induction segs generalizing lead with
  | nil => simpa using h
  | cons s segs ih =>
    obtain ⟨t, ht⟩ := h
    rw [quoted_cons] at ht
    obtain ⟨hlead, hrest⟩ := utf8_split (by decide) ht
    obtain ⟨hs, hsegs⟩ := ih hrest
    refine ⟨hlead, ?_⟩
    intro x hx
    rcases List.mem_cons.mp hx with rfl | hx
    · exact hs
    · exact hsegs x hx

theorem numeral_ne_str (s t : Bytes) : numeral s ≠ .str t := by
  unfold numeral
  cases tonumber s <;> simp

/-- The third pattern matches no literal, so what it sets is never true. -/
theorem bool_value {segs : List Bytes} {k v : Bytes}
    (h : lastOf k (scanBare boolText segs) = some v) : boolValue v = .bool false := by
  obtain ⟨n, w, he, -, -, y, hy⟩ := mem_scanBare (lastOf_some_mem h)
  simp only [List.cons.injEq, and_true] at he
  rw [boolText] at hy
  split_ifs at hy
  have hno : (utf8 "true|false" == utf8 "true") = false := by decide
  rw [he.2, ← Option.some.inj hy, boolValue, hno]

theorem key_mem_segments {lead : Bytes} {segs : List Bytes} (hl : QuoteFree lead)
    (hq : ∀ s ∈ segs, QuoteFree s) {k : Bytes}
    (h : (parseJsonObj (lead ++ quoted segs)).get k ≠ .nil) : k ∈ segs := by
  have hbare : ∀ (read : Bytes → Option Bytes) v, lastOf k (scanBare read segs) = some v →
      k ∈ segs := by
    intro read v hv
    obtain ⟨n, w, he, -, hn, -⟩ := mem_scanBare (lastOf_some_mem hv)
    exact (List.cons.inj he).1 ▸ hn
  rw [parseJsonObj_get hl hq] at h
  cases hb : lastOf k (scanBare boolText segs) with
  | some v => exact hbare _ v hb
  | none =>
    cases hn : lastOf k (scanBare numberRun segs) with
    | some v => exact hbare _ v hn
    | none =>
      cases hs : lastOf k (scanStrings segs) with
      | some v =>
        obtain ⟨n, w, he, -, hn, -⟩ := mem_scanStrings (lastOf_some_mem hs)
        exact (List.cons.inj he).1 ▸ hn
      | none => simp [hb, hn, hs] at h

theorem string_mem_segments {lead : Bytes} {segs : List Bytes} (hl : QuoteFree lead)
    (hq : ∀ s ∈ segs, QuoteFree s) {k t : Bytes}
    (h : (parseJsonObj (lead ++ quoted segs)).get k = .str t) : t ∈ segs := by
  rw [parseJsonObj_get hl hq] at h
  cases hb : lastOf k (scanBare boolText segs) with
  | some v => simp [hb, boolValue] at h
  | none =>
    cases hn : lastOf k (scanBare numberRun segs) with
    | some v =>
      rw [hb, hn] at h
      exact absurd h (numeral_ne_str v t)
    | none =>
      cases hs : lastOf k (scanStrings segs) with
      | none => simp [hb, hn, hs] at h
      | some v =>
        obtain ⟨n, w, he, -, -, hw⟩ := mem_scanStrings (lastOf_some_mem hs)
        simp only [List.cons.injEq, and_true] at he
        have hv : v = t := by simpa [hb, hn, hs] using h
        rw [← hv, he.2]
        exact hw

/-- What `parse_json_obj` reads from a text are texts without quotes: every key, -/
theorem parseJsonObj_key (s : String) {k : Bytes} (h : (parseJsonObj (utf8 s)).get k ≠ .nil) :
    ValidUtf8 k ∧ QuoteFree k := by
  obtain ⟨lead, segs, hl, hq, hs⟩ := exists_segments (utf8 s)
  rw [hs] at h
  have hk := key_mem_segments hl hq h
  exact ⟨(validUtf8_segments ⟨s, hs⟩).2 k hk, hq k hk⟩

/-- and every string. -/
theorem parseJsonObj_str (s : String) {k t : Bytes}
    (h : (parseJsonObj (utf8 s)).get k = .str t) : ValidUtf8 t ∧ QuoteFree t := by
  obtain ⟨lead, segs, hl, hq, hs⟩ := exists_segments (utf8 s)
  rw [hs] at h
  have ht := string_mem_segments hl hq h
  exact ⟨(validUtf8_segments ⟨s, hs⟩).2 t ht, hq t ht⟩

end Collect
end LuaProxy.JsonScan
