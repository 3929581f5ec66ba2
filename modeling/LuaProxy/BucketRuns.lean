import LuaProxy.TokenBucket
import LuaProxy.Plugins

/-! `rate_limit.lua` over one lifetime of its `buckets` table: the chunk has run once, and
`on_request` is called any number of times. -/
namespace LuaProxy.BucketRuns
open Text Lua Context HookMonad Plugins

section Hook

def bucketAt (tables : List Buckets) (n : ℕ) (k : String) : Option Bucket :=
  (tables[n]?).bind fun t => t.lookup k

theorem bucketAt_modify {tables : List Buckets} {n : ℕ} (hn : n < tables.length) (k : String)
    (b : Bucket) (m : ℕ) (k' : String) :
    bucketAt (tables.modify n fun t => t.insert k b) m k' =
      if m = n ∧ k' = k then some b else bucketAt tables m k' := by
  unfold bucketAt
  by_cases h : m = n
  · subst h
    rw [List.getElem?_modify_eq, List.getElem?_eq_getElem hn]
    by_cases hk : k' = k
    · subst hk
      simp
    · simp [hk, AList.lookup_insert_ne hk]
  · rw [if_neg fun h' => h h'.1, List.getElem?_modify_ne _ _ (Ne.symm h)]

def keyOf (ctx : RequestCtx) : String := (ctx.getVar "user_id").getD ctx.clientIp

/-- The bucket that is asked for a token: a new one is full at the second reading. -/
def asked (n : ℕ) (heap : Heap) (ctx : RequestCtx) : Bucket :=
  refill ((bucketAt heap.buckets n (keyOf ctx)).getD ⟨capacity, heap.clock 1⟩) (heap.clock 0)

def left (n : ℕ) (heap : Heap) (ctx : RequestCtx) : Bucket :=
  if (asked n heap ctx).tokens < 1 then asked n heap ctx
  else { asked n heap ctx with tokens := wrap ((asked n heap ctx).tokens - 1) }

theorem getBucket_spec (host : Host) {n : ℕ} {vm : Vm Closure Heap} (ctx : RequestCtx) (k : String)
    (hn : n < vm.heap.buckets.length) :
    (getBucket host n k vm ctx).calls = [] ∧
      (getBucket host n k vm ctx).result =
        .ok ((bucketAt vm.heap.buckets n k).getD ⟨capacity, vm.heap.clock 0⟩) ∧
      (getBucket host n k vm ctx).heap.buckets.length = vm.heap.buckets.length ∧
      ∀ m k', ¬ (m = n ∧ k' = k) →
        bucketAt (getBucket host n k vm ctx).heap.buckets m k' = bucketAt vm.heap.buckets m k' := by
  cases hl : bucketAt vm.heap.buckets n k with
  | some b =>
    rw [bucketAt] at hl
    simp [getBucket, readBucket, bind, HookM.bind, HookM.onHeap, Ran.vm, pure, HookM.pure, hl]
  | none =>
    rw [bucketAt] at hl
    simp only [getBucket, readBucket, writeBucket, osTime, bind, HookM.bind, HookM.onHeap, Ran.vm,
      pure, HookM.pure, hl]
    refine ⟨rfl, rfl, List.length_modify _ _ _, fun m k' h => ?_⟩
    rw [bucketAt_modify hn, if_neg h]

def timed (vm : Vm Closure Heap) : Vm Closure Heap :=
  ⟨vm.global, { vm.heap with clock := fun i => vm.heap.clock (i + 1) }⟩

/-- The tables when the hook has its bucket, which it may have made. -/
def looked (host : Host) (n : ℕ) (vm : Vm Closure Heap) (ctx : RequestCtx) : List Buckets :=
  (getBucket host n (keyOf ctx) (timed vm) ctx).heap.buckets

section Ends
variable (host : Host) {n : ℕ} {vm : Vm Closure Heap} (ctx : RequestCtx)
  (hn : n < vm.heap.buckets.length)
include hn

/-- The hook refuses: it stores the bucket as it is, and rejects. -/
theorem rateLimit_refuses (hb : (asked n vm.heap ctx).tokens < 1) :
    (rateLimit host n vm ctx).calls =
        [.setResHeader "retry-after"
          (toString (ceilDiv (wrap (1 - (asked n vm.heap ctx).tokens)) refillRate)),
          .reject 429 "Too Many Requests"] ∧
      (rateLimit host n vm ctx).heap.buckets =
        (looked host n vm ctx).modify n fun t => t.insert (keyOf ctx) (asked n vm.heap ctx) := by
  obtain ⟨hcalls, hresult, -, -⟩ := @getBucket_spec host n (timed vm) ctx (keyOf ctx) hn
  have hkey : (ctx.getVar "user_id").getD ctx.clientIp = keyOf ctx := rfl
  unfold asked at hb ⊢
  unfold looked
  simp only [timed] at hcalls hresult ⊢
  simp [rateLimit, writeBucket, osTime, bind, HookM.bind, HookM.read, HookM.onHeap, HookM.call,
    Ran.vm, pure, HookM.pure, hb, hkey, hcalls, hresult]

/-- The hook lets through: it stores the bucket once more without the token, and says what is left. -/
theorem rateLimit_gives (hb : ¬ (asked n vm.heap ctx).tokens < 1) :
    (rateLimit host n vm ctx).calls =
        [.setResHeader "x-ratelimit-remaining" (toString (left n vm.heap ctx).tokens),
          .setResHeader "x-ratelimit-limit" (toString capacity)] ∧
      (rateLimit host n vm ctx).heap.buckets =
        ((looked host n vm ctx).modify n fun t => t.insert (keyOf ctx) (asked n vm.heap ctx)).modify n
          fun t => t.insert (keyOf ctx) (left n vm.heap ctx) := by
  obtain ⟨hcalls, hresult, -, -⟩ := @getBucket_spec host n (timed vm) ctx (keyOf ctx) hn
  have hkey : (ctx.getVar "user_id").getD ctx.clientIp = keyOf ctx := rfl
  rw [left, if_neg hb]
  unfold asked at hb ⊢
  unfold looked
  simp only [timed] at hcalls hresult ⊢
  simp [rateLimit, writeBucket, osTime, bind, HookM.bind, HookM.read, HookM.onHeap, HookM.call,
    Ran.vm, pure, HookM.pure, hb, hkey, hcalls, hresult]

/-- What the hook does: it asks the bucket of its key for a token, and leaves the others alone. -/
theorem rateLimit_spec :
    ((rateLimit host n vm ctx).calls.any CtxCall.isReject =
        decide ((asked n vm.heap ctx).tokens < 1)) ∧
      (rateLimit host n vm ctx).heap.buckets.length = vm.heap.buckets.length ∧
      ∀ m k, bucketAt (rateLimit host n vm ctx).heap.buckets m k =
        if m = n ∧ k = keyOf ctx then some (left n vm.heap ctx) else bucketAt vm.heap.buckets m k := by
  obtain ⟨-, -, hlength, hother⟩ := @getBucket_spec host n (timed vm) ctx (keyOf ctx) hn
  have hlooked : (looked host n vm ctx).length = vm.heap.buckets.length := hlength
  have hlt : n < (looked host n vm ctx).length := by rwa [hlooked]
  by_cases hb : (asked n vm.heap ctx).tokens < 1
  · obtain ⟨hcalls, hbuckets⟩ := rateLimit_refuses host ctx hn hb
    have hleft : left n vm.heap ctx = asked n vm.heap ctx := if_pos hb
    refine ⟨?_, ?_, fun m k => ?_⟩
    · rw [hcalls, decide_eq_true hb]
      rfl
    · rw [hbuckets, List.length_modify, hlooked]
    · rw [hbuckets, bucketAt_modify hlt, hleft]
      split_ifs with h
      · rfl
      · exact hother m k h
  · obtain ⟨hcalls, hbuckets⟩ := rateLimit_gives host ctx hn hb
    refine ⟨?_, ?_, fun m k => ?_⟩
    · rw [hcalls, decide_eq_false hb]
      rfl
    · rw [hbuckets, List.length_modify, List.length_modify, hlooked]
    · rw [hbuckets, bucketAt_modify (by rwa [List.length_modify]), bucketAt_modify hlt]
      split_ifs with h
      · rfl
      · exact hother m k h

end Ends

end Hook

section Calls

/-- A call of the hook, with the readings of the clock it may make: `now`, and `created` if
it finds no bucket. -/
structure Call where
  ctx : RequestCtx
  now : ℤ
  created : ℤ

namespace Call
variable (host : Host) (n : ℕ) (c : Call) (vm : Vm Closure Heap)

def key : String := keyOf c.ctx

def enter : Vm Closure Heap :=
  { vm with heap := { vm.heap with clock := fun i => if i = 0 then c.now else c.created } }

def ran : Ran Closure Heap Value := rateLimit host n (c.enter vm) c.ctx

def next : Vm Closure Heap := (c.ran host n vm).vm (c.enter vm)

def admitted : Bool := !(c.ran host n vm).calls.any CtxCall.isReject

end Call

end Calls

section Refinement

/-- The longest time whose refill fits Lua's integers. -/
def longest : ℤ := (2 ^ 63 - 1 - capacity) / refillRate

def abstract (b : Bucket) : TokenBucket.Bucket ℤ := ⟨b.tokens, b.last⟩

theorem wrap_eq {i : ℤ} (h : -(2 ^ 63) ≤ i) (h' : i < 2 ^ 63) : wrap i = i := by
  unfold wrap
  rw [Int.bmod_eq_of_le] <;> omega

theorem refill_refines {b : Bucket} {now : ℤ} (h : 0 ≤ b.tokens) (h' : b.tokens ≤ capacity)
    (hnow : now - b.last ≤ longest) (hlast : b.last - now ≤ 2 ^ 63) :
    abstract (refill b now) = TokenBucket.refill capacity refillRate (abstract b) now := by
  have hlongest : longest = 922337203685477570 := by decide
  have helapsed : wrap (now - b.last) = now - b.last := wrap_eq (by omega) (by omega)
  simp only [capacity] at h'
  have habstract : (abstract b).last = b.last := rfl
  by_cases hlt : b.last < now
  · have hgain : wrap ((now - b.last) * refillRate) = (now - b.last) * refillRate := by
      simp only [refillRate]
      exact wrap_eq (by omega) (by omega)
    have hsum : wrap (b.tokens + (now - b.last) * refillRate) =
        b.tokens + (now - b.last) * refillRate := by
      simp only [refillRate]
      exact wrap_eq (by omega) (by omega)
    rw [refill, TokenBucket.refill, helapsed, habstract, if_pos (by omega), if_pos hlt, hgain, hsum]
    rfl
  · rw [refill, TokenBucket.refill, helapsed, habstract, if_neg (by omega), if_neg hlt]

theorem left_refines {n : ℕ} {heap : Heap} {ctx : RequestCtx} {b : Bucket}
    (hb : (bucketAt heap.buckets n (keyOf ctx)).getD ⟨capacity, heap.clock 1⟩ = b)
    (h : 0 ≤ b.tokens) (h' : b.tokens ≤ capacity) (hnow : heap.clock 0 - b.last ≤ longest)
    (hlast : b.last - heap.clock 0 ≤ 2 ^ 63) :
    TokenBucket.ask capacity refillRate (abstract b) (heap.clock 0) =
      (abstract (left n heap ctx), !decide ((asked n heap ctx).tokens < 1)) := by
  have hrefill := refill_refines h h' hnow hlast
  have hle : (refill b (heap.clock 0)).tokens ≤ capacity := by
    unfold refill
    dsimp only
    split_ifs
    · exact min_le_left _ _
    · exact h'
  have hasked : asked n heap ctx = refill b (heap.clock 0) := by rw [asked, hb]
  rw [TokenBucket.ask, ← hrefill, left, hasked]
  simp only [capacity] at hle
  by_cases htok : (refill b (heap.clock 0)).tokens < 1
  · have htok' : (abstract (refill b (heap.clock 0))).tokens < 1 := htok
    rw [TokenBucket.take, if_pos htok', if_pos htok, decide_eq_true htok]
    rfl
  · have htok' : ¬ (abstract (refill b (heap.clock 0))).tokens < 1 := htok
    have hdrawn : wrap ((refill b (heap.clock 0)).tokens - 1) =
        (refill b (heap.clock 0)).tokens - 1 := wrap_eq (by omega) (by omega)
    rw [TokenBucket.take, if_neg htok', if_neg htok, decide_eq_false htok, hdrawn]
    rfl

end Refinement

section Runs
variable (host : Host) (n : ℕ)

def after (vm : Vm Closure Heap) (cs : List Call) : Vm Closure Heap :=
  cs.foldl (fun vm c => c.next host n vm) vm

def admittedOf (k : String) : Vm Closure Heap → List Call → ℕ
  | _, [] => 0
  | vm, c :: cs =>
    (c.key = k && c.admitted host n vm).toNat + admittedOf k (c.next host n vm) cs

def callsOf (k : String) (cs : List Call) : List Call := cs.filter fun c => c.key = k

def createdAt (k : String) (cs : List Call) : Option ℤ := (callsOf k cs).head?.map Call.created

def readings (k : String) (cs : List Call) : List ℤ :=
  (createdAt k cs).toList ++ (callsOf k cs).map Call.now

/-- No reading used for a key is further from an earlier one than Lua can count: forward in
tokens, back in seconds. -/
def Spanned (cs : List Call) : Prop :=
  ∀ k, (readings k cs).Pairwise fun r r' => r' - r ≤ longest ∧ r - r' ≤ 2 ^ 63

/-- What a token bucket promises: in every state that a run goes through, and of every call
on the way. -/
structure Metered (vm : Vm Closure Heap) (cs : List Call) : Prop where
  tokens : ∀ ds es, cs = ds ++ es → ∀ k b, bucketAt (after host n vm ds).heap.buckets n k = some b →
    0 ≤ b.tokens ∧ b.tokens ≤ capacity
  last : ∀ ds es, cs = ds ++ es → ∀ k b, bucketAt (after host n vm ds).heap.buckets n k = some b →
    ∃ b', bucketAt (after host n vm cs).heap.buckets n k = some b' ∧ b.last ≤ b'.last
  others : ∀ ds c es, cs = ds ++ c :: es → ∀ k, k ≠ c.key →
    bucketAt (after host n vm (ds ++ [c])).heap.buckets n k = bucketAt (after host n vm ds).heap.buckets n k
  admitted : ∀ k created latest, createdAt k cs = some created → (readings k cs).max? = some latest →
    (admittedOf host n k vm cs : ℤ) ≤ capacity + refillRate * (latest - created)

variable {host n} {vm : Vm Closure Heap}

theorem after_snoc (cs : List Call) (c : Call) :
    after host n vm (cs ++ [c]) = c.next host n (after host n vm cs) := by
  simp [after]

theorem admittedOf_snoc (k : String) (cs : List Call) (c : Call) :
    admittedOf host n k vm (cs ++ [c]) =
      admittedOf host n k vm cs + (c.key = k && c.admitted host n (after host n vm cs)).toNat := by
  induction cs generalizing vm with
  | nil => simp [admittedOf, after]
  | cons d cs ih =>
    rw [List.cons_append, admittedOf, ih, admittedOf, Nat.add_assoc]
    rfl

variable (host) in
theorem after_length (hn : n < vm.heap.buckets.length) (cs : List Call) :
    n < (after host n vm cs).heap.buckets.length := by
  induction cs using List.reverseRecOn with
  | nil => exact hn
  | append_singleton cs c ih =>
    rw [after_snoc]
    exact lt_of_lt_of_eq ih
      (@rateLimit_spec host n (c.enter (after host n vm cs)) c.ctx ih).2.1.symm

theorem next_spec (host : Host) (c : Call) (hn : n < vm.heap.buckets.length) :
    c.admitted host n vm = !decide ((asked n (c.enter vm).heap c.ctx).tokens < 1) ∧
      ∀ k, bucketAt (c.next host n vm).heap.buckets n k =
        if k = c.key then some (left n (c.enter vm).heap c.ctx) else bucketAt vm.heap.buckets n k := by
  obtain ⟨hreject, -, hbucket⟩ := @rateLimit_spec host n (c.enter vm) c.ctx hn
  refine ⟨?_, fun k => ?_⟩
  · rw [Call.admitted, Call.ran, hreject]
  · apply (hbucket n k).trans
    simp only [true_and]
    rfl

theorem lt_of_empty (hn : vm.heap.buckets[n]? = some ∅) : n < vm.heap.buckets.length :=
  (List.getElem?_eq_some_iff.mp hn).1

theorem callsOf_snoc (k : String) (cs : List Call) (c : Call) :
    callsOf k (cs ++ [c]) = callsOf k cs ++ if c.key = k then [c] else [] := by
  simp only [callsOf, List.filter_append, List.filter_cons, List.filter_nil, decide_eq_true_eq]

/-- What the calls with a key do to a bucket that is made at the first of them. -/
def ledger (k : String) (cs : List Call) : Option (TokenBucket.Bucket ℤ × ℕ) :=
  (createdAt k cs).map fun created =>
    TokenBucket.asks capacity refillRate ⟨capacity, created⟩ ((callsOf k cs).map Call.now)

theorem createdAt_snoc (k : String) (cs : List Call) (c : Call) :
    createdAt k (cs ++ [c]) = (createdAt k cs).or (if c.key = k then some c.created else none) := by
  simp only [createdAt, callsOf_snoc]
  cases callsOf k cs with
  | nil => split_ifs <;> rfl
  | cons d ds => rfl

theorem createdAt_eq_none {k : String} {cs : List Call} (h : createdAt k cs = none) :
    callsOf k cs = [] := by
  simpa [createdAt] using h

theorem readings_snoc (k : String) (cs : List Call) (c : Call) :
    readings k (cs ++ [c]) =
      if c.key = k then
        (if createdAt k cs = none then [c.created] else readings k cs) ++ [c.now]
      else readings k cs := by
  simp only [readings, createdAt_snoc, callsOf_snoc]
  cases hc : createdAt k cs with
  | none => split_ifs <;> simp_all [createdAt_eq_none hc]
  | some created => split_ifs <;> simp at *

theorem readings_init (k : String) (cs : List Call) (c : Call) :
    (readings k cs).Sublist (readings k (cs ++ [c])) := by
  rw [readings_snoc]
  split_ifs with hk hc
  · have hnil : readings k cs = [] := by simp [readings, hc, createdAt_eq_none hc]
    rw [hnil]
    exact List.nil_sublist _
  · exact List.sublist_append_left _ _
  · exact List.Sublist.refl _

theorem Spanned.init {cs : List Call} {c : Call} (h : Spanned (cs ++ [c])) : Spanned cs :=
  fun k => (h k).sublist (readings_init k cs c)

/-- The bucket that a call with the key finds, and how often it has given. -/
def found (k : String) (cs : List Call) (c : Call) : TokenBucket.Bucket ℤ × ℕ :=
  (ledger k cs).getD (⟨capacity, c.created⟩, 0)

theorem ledger_snoc (k : String) (cs : List Call) (c : Call) :
    ledger k (cs ++ [c]) =
      if c.key = k then
        some ((TokenBucket.ask capacity refillRate (found k cs c).1 c.now).1,
          (found k cs c).2 + (TokenBucket.ask capacity refillRate (found k cs c).1 c.now).2.toNat)
      else ledger k cs := by
  by_cases hk : c.key = k
  · simp only [ledger, found, createdAt_snoc, callsOf_snoc, if_pos hk]
    cases hc : createdAt k cs with
    | none => simp [createdAt_eq_none hc, TokenBucket.asks]
    | some created =>
      simp only [Option.some_or, Option.map_some, Option.getD_some, List.map_append, List.map_cons,
        List.map_nil, TokenBucket.asks_append]
  · simp only [ledger, createdAt_snoc, callsOf_snoc, if_neg hk, Option.or_none, List.append_nil]

theorem ledger_account {k : String} {cs : List Call} {created : ℤ} (hc : createdAt k cs = some created) :
    ∃ B m, ledger k cs = some (B, m) ∧
      TokenBucket.Account capacity refillRate created m B ∧ B.last ∈ readings k cs := by
  have hfull : TokenBucket.Account capacity refillRate created 0 ⟨capacity, created⟩ :=
    .full (by decide)
  have hasks := hfull.asks (by decide) ((callsOf k cs).map Call.now)
  rw [Nat.zero_add] at hasks
  refine ⟨_, _, by rw [ledger, hc, Option.map_some], hasks, ?_⟩
  have hlast := TokenBucket.asks_last_mem capacity refillRate ⟨capacity, created⟩
    ((callsOf k cs).map Call.now)
  simpa only [readings, hc, Option.toList_some, List.singleton_append] using hlast

theorem found_spec {k : String} (c : Call) (cs : List Call) (hk : c.key = k) :
    0 ≤ (found k cs c).1.tokens ∧ (found k cs c).1.tokens ≤ capacity ∧
      ∃ rs, readings k (cs ++ [c]) = rs ++ [c.now] ∧ (found k cs c).1.last ∈ rs := by
  rw [readings_snoc, if_pos hk]
  cases hc : createdAt k cs with
  | none =>
    have hfound : found k cs c = (⟨capacity, c.created⟩, 0) := by
      rw [found, ledger, hc, Option.map_none, Option.getD_none]
    rw [hfound]
    exact ⟨(by decide : 0 ≤ capacity), le_rfl, _, rfl, by simp⟩
  | some created =>
    obtain ⟨B, m, hledger, haccount, hlast⟩ := ledger_account hc
    have hfound : found k cs c = (B, m) := by
      rw [found, hledger, Option.getD_some]
    rw [hfound]
    exact ⟨haccount.nonneg, haccount.le_capacity, _, rfl, by simpa using hlast⟩

/-- The table holds what the calls so far have made of each bucket. -/
structure Kept (host : Host) (n : ℕ) (vm : Vm Closure Heap) (cs : List Call) (k : String) : Prop where
  bucket : (bucketAt (after host n vm cs).heap.buckets n k).map abstract = (ledger k cs).map Prod.fst
  admitted : admittedOf host n k vm cs = ((ledger k cs).map Prod.snd).getD 0

theorem Kept.snoc {k : String} {cs : List Call} {c : Call} (hn : n < vm.heap.buckets.length)
    (hs : Spanned (cs ++ [c])) (h : Kept host n vm cs k) : Kept host n vm (cs ++ [c]) k := by
  obtain ⟨hadmitted, hbucket⟩ := next_spec host c (after_length host hn cs)
  by_cases hk : c.key = k
  · subst hk
    obtain ⟨htokens, hcapacity, rs, hreadings, hlast⟩ := found_spec c cs rfl
    have hspan := hs c.key
    rw [hreadings, List.pairwise_append] at hspan
    obtain ⟨hnow, hback⟩ := hspan.2.2 _ hlast _ (List.mem_singleton_self _)
    obtain ⟨b, hb, hfound⟩ : ∃ b, (bucketAt (after host n vm cs).heap.buckets n c.key).getD
        ⟨capacity, c.created⟩ = b ∧ abstract b = (found c.key cs c).1 := by
      refine ⟨_, rfl, ?_⟩
      have hmap := h.bucket
      cases hl : ledger c.key cs with
      | none =>
        rw [hl, Option.map_none, Option.map_eq_none_iff] at hmap
        rw [hmap, found, hl]
        rfl
      | some p =>
        rw [hl, Option.map_some] at hmap
        obtain ⟨b, hb, habstract⟩ := Option.map_eq_some_iff.mp hmap
        rw [hb, found, hl]
        exact habstract
    rw [← hfound] at htokens hcapacity hnow hback
    have hleft := @left_refines n (c.enter (after host n vm cs)).heap c.ctx b hb htokens hcapacity
      hnow hback
    rw [hfound] at hleft
    change TokenBucket.ask capacity refillRate _ c.now = _ at hleft
    constructor
    · rw [after_snoc, hbucket, if_pos rfl, ledger_snoc, if_pos rfl, hleft]
      rfl
    · rw [admittedOf_snoc, hadmitted, ledger_snoc, if_pos rfl, hleft, h.admitted, found]
      cases ledger c.key cs <;> simp
  · constructor
    · rw [after_snoc, hbucket, if_neg (Ne.symm hk), ledger_snoc, if_neg hk]
      exact h.bucket
    · rw [admittedOf_snoc, ledger_snoc, if_neg hk, decide_eq_false hk]
      exact h.admitted

variable (host) in
theorem kept (hn : vm.heap.buckets[n]? = some ∅) {cs : List Call} (hs : Spanned cs) (k : String) :
    Kept host n vm cs k := by
  induction cs using List.reverseRecOn with
  | nil =>
    refine ⟨?_, rfl⟩
    simp [bucketAt, after, hn, ledger, createdAt, callsOf]
  | append_singleton cs c ih => exact (ih hs.init).snoc (lt_of_empty hn) hs

theorem Spanned.prefix {cs ds : List Call} (h : Spanned (cs ++ ds)) : Spanned cs := by
  induction ds using List.reverseRecOn with
  | nil => rwa [List.append_nil] at h
  | append_singleton ds c ih =>
    rw [← List.append_assoc] at h
    exact ih h.init

theorem Kept.account {k : String} {cs : List Call} (h : Kept host n vm cs k) {b : Bucket}
    (hb : bucketAt (after host n vm cs).heap.buckets n k = some b) :
    ∃ created, createdAt k cs = some created ∧ b.last ∈ readings k cs ∧
      TokenBucket.Account capacity refillRate created (admittedOf host n k vm cs) (abstract b) := by
  have hmap := h.bucket
  have hadmitted := h.admitted
  cases hc : createdAt k cs with
  | none =>
    rw [hb, ledger, hc] at hmap
    simp at hmap
  | some created =>
    obtain ⟨B, m, hledger, haccount, hlast⟩ := ledger_account hc
    simp only [hb, hledger, Option.map_some, Option.some.injEq] at hmap hadmitted
    subst hmap
    rw [hadmitted]
    exact ⟨created, rfl, hlast, haccount⟩

theorem last_mono (hn : vm.heap.buckets[n]? = some ∅) {ds es : List Call} (hs : Spanned (ds ++ es))
    {k : String} {b : Bucket} (hb : bucketAt (after host n vm ds).heap.buckets n k = some b) :
    ∃ b', bucketAt (after host n vm (ds ++ es)).heap.buckets n k = some b' ∧ b.last ≤ b'.last := by
  induction es using List.reverseRecOn with
  | nil => exact ⟨b, by rwa [List.append_nil], le_rfl⟩
  | append_singleton es c ih =>
    rw [← List.append_assoc] at hs ⊢
    obtain ⟨b₁, hb₁, hle⟩ := ih hs.init
    have hmap₁ := (kept host hn hs.init k).bucket
    have hmap := (kept host hn hs k).bucket
    rw [hb₁] at hmap₁
    obtain ⟨p, hp, hfst⟩ := Option.map_eq_some_iff.mp hmap₁.symm
    rw [ledger_snoc] at hmap
    split_ifs at hmap with hk
    · obtain ⟨b', hb', habstract⟩ := Option.map_eq_some_iff.mp hmap
      refine ⟨b', hb', hle.trans ?_⟩
      have hfound : found k (ds ++ es) c = p := by
        rw [found, hp, Option.getD_some]
      have hlast : b'.last = max b₁.last c.now := by
        change (abstract b').last = _
        rw [habstract, hfound, TokenBucket.ask_last, hfst]
        rfl
      rw [hlast]
      exact le_max_left _ _
    · rw [hp] at hmap
      obtain ⟨b', hb', habstract⟩ := Option.map_eq_some_iff.mp hmap
      rw [hfst] at habstract
      refine ⟨b', hb', hle.trans (le_of_eq ?_)⟩
      change (abstract b₁).last = (abstract b').last
      rw [habstract]

/-- The hook keeps a token bucket for every key, as long as the clock readings for each key
stay within a range that Lua can count in. -/
theorem metered {cs : List Call} (hn : vm.heap.buckets[n]? = some ∅) (hs : Spanned cs) :
    Metered host n vm cs where
  tokens ds es h k b hb := by
    subst h
    obtain ⟨created, -, -, haccount⟩ := (kept host hn hs.prefix k).account hb
    exact ⟨haccount.nonneg, haccount.le_capacity⟩
  last ds es h k b hb := by
    subst h
    exact last_mono hn hs hb
  others ds c es h k hk := by
    rw [after_snoc, (next_spec host c (after_length host (lt_of_empty hn) ds)).2, if_neg hk]
  admitted k created latest hc hl := by
    have hkept := kept host hn hs k
    obtain ⟨B, m, hledger, haccount, hlast⟩ := ledger_account hc
    have hadmitted := hkept.admitted
    simp only [hledger, Option.map_some, Option.getD_some] at hadmitted
    have hle : B.last ≤ latest := (List.max?_eq_some_iff.mp hl).2 _ hlast
    have hbound := haccount.bound
    rw [hadmitted]
    apply hbound.trans
    simp only [refillRate]
    omega

end Runs

section Jump

def call (now created : ℤ) : Call := ⟨RequestCtx.new "GET" "/" ∅ "" "10.0.0.1", now, created⟩

def loadedVm : Vm Closure Heap := ⟨fun _ => none, ⟨[∅], fun _ => 0, fun _ => "", fun _ => false⟩⟩

/-- The clock steps back and forth, and reads later for the bucket than for the call. -/
theorem steps_metered : Metered Host.plain 0 loadedVm [call 1000 1001, call 990 0, call 1005 0] := by
  refine metered rfl fun k => ?_
  have hkey : ∀ now created, (call now created).key = "10.0.0.1" := fun _ _ => rfl
  by_cases hk : "10.0.0.1" = k
  · have hreadings : readings "10.0.0.1" [call 1000 1001, call 990 0, call 1005 0] =
        [1001, 1000, 990, 1005] := by decide
    rw [← hk, hreadings]
    decide
  · simp [readings, createdAt, callsOf, hkey, hk]

/-- A jump of the clock that the refill overflows at leaves a negative number of tokens. -/
theorem jump_not_metered : ¬ ∀ (host : Host) (n : ℕ) (vm : Vm Closure Heap) (cs : List Call),
    vm.heap.buckets[n]? = some ∅ → Metered host n vm cs := by
  intro h
  have hm := (h Host.plain 0 loadedVm [call 0 0, call (10 ^ 18) 0] rfl).tokens
    [call 0 0, call (10 ^ 18) 0] [] rfl "10.0.0.1"
  have hb : (bucketAt (after Host.plain 0 loadedVm
      [call 0 0, call (10 ^ 18) 0]).heap.buckets 0 "10.0.0.1").any
      (fun b => b.tokens < 0) = true := by decide
  obtain ⟨b, hb, hneg⟩ := (Option.any_eq_true _ _).mp hb
  have hnonneg := (hm b hb).1
  have hneg := of_decide_eq_true hneg
  omega

end Jump

end LuaProxy.BucketRuns
