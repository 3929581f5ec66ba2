import LuaProxy.BucketRuns

/-! The headers that `rate_limit.lua` sets say what will come: how many more requests a client may
make, and how long it has to wait after that. -/
namespace LuaProxy.Announcements
open Text Lua Context HookMonad Plugins BucketRuns

section Headers

theorem rateLimit_calls (host : Host) {n : ℕ} {vm : Vm Closure Heap} (ctx : RequestCtx)
    (hn : n < vm.heap.buckets.length) :
    (rateLimit host n vm ctx).calls =
      if (asked n vm.heap ctx).tokens < 1 then
        [.setResHeader "retry-after"
          (toString (ceilDiv (wrap (1 - (asked n vm.heap ctx).tokens)) refillRate)),
          .reject 429 "Too Many Requests"]
      else
        [.setResHeader "x-ratelimit-remaining" (toString (left n vm.heap ctx).tokens),
          .setResHeader "x-ratelimit-limit" (toString capacity)] := by
  split_ifs with hb
  · exact (rateLimit_refuses host ctx hn hb).1
  · exact (rateLimit_gives host ctx hn hb).1

/-- A client that is refused has an empty bucket, and one second fills it again. -/
theorem one_second : ceilDiv (wrap (1 - 0)) refillRate = 1 := by
  decide +kernel

end Headers

section Runs
variable {host : Host} {n : ℕ} {vm : Vm Closure Heap}

theorem admittedOf_append (k : String) (cs es : List Call) :
    admittedOf host n k vm (cs ++ es) =
      admittedOf host n k vm cs + admittedOf host n k (after host n vm cs) es := by
  induction cs generalizing vm with
  | nil => simp [admittedOf, after]
  | cons c cs ih =>
    rw [List.cons_append, admittedOf, ih, admittedOf, Nat.add_assoc]
    rfl

theorem callsOf_append (k : String) (cs es : List Call) :
    callsOf k (cs ++ es) = callsOf k cs ++ callsOf k es := List.filter_append _ _

theorem createdAt_append {k : String} {cs : List Call} {created : ℤ} (hc : createdAt k cs = some created)
    (es : List Call) : createdAt k (cs ++ es) = some created := by
  obtain ⟨c, hhead, hcreated⟩ := Option.map_eq_some_iff.mp hc
  rw [createdAt, callsOf_append, List.head?_append, hhead, Option.some_or, Option.map_some, hcreated]

variable (host) in
theorem admittedOf_after (hn : vm.heap.buckets[n]? = some ∅) {k : String} {cs es : List Call}
    (hs : Spanned (cs ++ es)) {B : TokenBucket.Bucket ℤ} {m : ℕ} (hB : ledger k cs = some (B, m)) :
    admittedOf host n k (after host n vm cs) es =
      (TokenBucket.asks capacity refillRate B ((callsOf k es).map Call.now)).2 := by
  obtain ⟨created, hc, hasks⟩ := Option.map_eq_some_iff.mp hB
  have hfirst := (kept host hn hs.prefix k).admitted
  have hall := (kept host hn hs k).admitted
  rw [hB, Option.map_some, Option.getD_some] at hfirst
  rw [ledger, createdAt_append hc, Option.map_some, Option.map_some, Option.getD_some, callsOf_append,
    List.map_append, TokenBucket.asks_append_count, hasks, admittedOf_append, hfirst] at hall
  dsimp only at hall
  omega

theorem admitted_iff (hn : vm.heap.buckets[n]? = some ∅) {cs : List Call} {d : Call}
    (hs : Spanned (cs ++ [d])) {B : TokenBucket.Bucket ℤ} {m : ℕ} (hB : ledger d.key cs = some (B, m)) :
    d.admitted host n (after host n vm cs) = (TokenBucket.ask capacity refillRate B d.now).2 := by
  have hone := admittedOf_after host hn hs hB
  have hmine : callsOf d.key [d] = [d] := by simp [callsOf]
  rw [hmine] at hone
  simp only [admittedOf, TokenBucket.asks, List.map_cons, List.map_nil, decide_true, Bool.true_and,
    Nat.add_zero] at hone
  revert hone
  cases d.admitted host n (after host n vm cs) <;>
    cases (TokenBucket.ask capacity refillRate B d.now).2 <;> simp

variable (host) in
theorem left_ledger (hn : vm.heap.buckets[n]? = some ∅) {ds : List Call} {c : Call}
    (hs : Spanned (ds ++ [c])) :
    ∃ m, ledger c.key (ds ++ [c]) =
      some (abstract (left n (c.enter (after host n vm ds)).heap c.ctx), m) := by
  have hbucket := (next_spec host c (after_length host (lt_of_empty hn) ds)).2 c.key
  have hkept := (kept host hn hs c.key).bucket
  rw [after_snoc, hbucket, if_pos rfl, Option.map_some] at hkept
  obtain ⟨p, hp, hfst⟩ := Option.map_eq_some_iff.mp hkept.symm
  exact ⟨p.2, by rw [hp, ← hfst]⟩

theorem readings_le {k : String} {cs : List Call} {B : TokenBucket.Bucket ℤ} {m : ℕ}
    (hB : ledger k cs = some (B, m)) : ∀ r ∈ readings k cs, r ≤ B.last := by
  obtain ⟨created, hc, hasks⟩ := Option.map_eq_some_iff.mp hB
  have hlast := TokenBucket.le_asks_last capacity refillRate ⟨capacity, created⟩
    ((callsOf k cs).map Call.now)
  rw [hasks] at hlast
  rw [readings, hc, Option.toList_some, List.singleton_append]
  exact hlast

/-- What a call says comes true: what it says remains is what the next calls get while no more comes
in, and what it says to wait is what has to be waited for, if no other call comes between. -/
structure Truthful (host : Host) (n : ℕ) (vm : Vm Closure Heap) (ds : List Call) (c : Call)
    (es : List Call) : Prop where
  remaining : c.admitted host n (after host n vm ds) = true → ∃ r : ℕ,
    (c.ran host n (after host n vm ds)).calls =
      [.setResHeader "x-ratelimit-remaining" (toString (r : ℤ)),
        .setResHeader "x-ratelimit-limit" (toString capacity)] ∧
      ((∀ d ∈ callsOf c.key es, d.now ≤ c.now) →
        admittedOf host n c.key (after host n vm (ds ++ [c])) es = min r (callsOf c.key es).length)
  retry : c.admitted host n (after host n vm ds) = false → ∃ wait : ℤ,
    (c.ran host n (after host n vm ds)).calls =
      [.setResHeader "retry-after" (toString wait), .reject 429 "Too Many Requests"] ∧
      ∀ es' d, es = es' ++ [d] → callsOf c.key es' = [] → d.key = c.key →
        (d.admitted host n (after host n vm (ds ++ c :: es')) = true ↔
          ∀ r ∈ readings c.key (ds ++ [c]), r + wait ≤ d.now)

theorem ledger_others {k : String} {cs es : List Call} (h : callsOf k es = []) :
    ledger k (cs ++ es) = ledger k cs := by
  rw [ledger, ledger, createdAt, createdAt, callsOf_append, h, List.append_nil]

variable (host) in
theorem left_spec (hn : vm.heap.buckets[n]? = some ∅) {ds : List Call} {c : Call}
    (hs : Spanned (ds ++ [c])) :
    ∃ B m, ledger c.key (ds ++ [c]) = some (B, m) ∧
      B = abstract (left n (c.enter (after host n vm ds)).heap c.ctx) ∧
      0 ≤ B.tokens ∧ B.last ∈ readings c.key (ds ++ [c]) ∧
      ∀ r ∈ readings c.key (ds ++ [c]), r ≤ B.last := by
  obtain ⟨m, hB⟩ := left_ledger host hn hs
  obtain ⟨created, hc, -⟩ := Option.map_eq_some_iff.mp hB
  obtain ⟨B', m', hB', haccount, hlast⟩ := ledger_account hc
  obtain ⟨rfl, rfl⟩ := Prod.mk.inj (Option.some.inj (hB'.symm.trans hB))
  exact ⟨_, _, hB, rfl, haccount.nonneg, hlast, readings_le hB⟩

/-- Over any run of the hook, whatever the clock does within Lua's integers, the headers it sets say
what will come. -/
theorem announcements_truthful (hn : vm.heap.buckets[n]? = some ∅) {ds es : List Call} {c : Call}
    (hs : Spanned (ds ++ c :: es)) : Truthful host n vm ds c es := by
  have hlt := after_length host (lt_of_empty hn) ds
  have hs' : Spanned ((ds ++ [c]) ++ es) := by rwa [List.append_assoc]
  obtain ⟨B, m, hB, hleft, hnonneg, hmem, hlatest⟩ := left_spec host hn hs'.prefix
  have hadmitted := (next_spec host c hlt).1
  have hcalls := @rateLimit_calls host n (c.enter (after host n vm ds)) c.ctx hlt
  constructor
  · intro hyes
    rw [hadmitted, Bool.not_eq_true', decide_eq_false_iff_not] at hyes
    rw [if_neg hyes] at hcalls
    have htokens : ((B.tokens.toNat : ℕ) : ℤ) = B.tokens := Int.toNat_of_nonneg hnonneg
    refine ⟨B.tokens.toNat, ?_, fun hnows => ?_⟩
    · rw [htokens, hleft]
      exact hcalls
    · rw [admittedOf_after host hn hs' hB, TokenBucket.asks_still (r := B.tokens.toNat), List.length_map]
      · exact le_of_eq htokens
      · exact lt_of_eq_of_lt htokens.symm (lt_add_one _)
      · intro now hnow
        obtain ⟨d, hd, rfl⟩ := List.mem_map.mp hnow
        have hc : c.now ∈ readings c.key (ds ++ [c]) := by
          rw [readings_snoc, if_pos rfl]
          simp
        exact (hnows d hd).trans (hlatest _ hc)
  · intro hno
    rw [hadmitted, Bool.not_eq_false', decide_eq_true_eq] at hno
    rw [if_pos hno] at hcalls
    have hB' : B = abstract (asked n (c.enter (after host n vm ds)).heap c.ctx) := by
      rw [hleft, left, if_pos hno]
    have hzero : (asked n (c.enter (after host n vm ds)).heap c.ctx).tokens = 0 := by
      have hge : 0 ≤ (asked n (c.enter (after host n vm ds)).heap c.ctx).tokens := by
        rw [hB'] at hnonneg
        exact hnonneg
      omega
    rw [hzero, one_second] at hcalls
    refine ⟨1, hcalls, fun es' d hes hothers hd => ?_⟩
    subst hes
    have hsd : Spanned ((ds ++ c :: es') ++ [d]) := by
      rw [List.append_assoc]
      exact hs
    have hledger : ledger d.key (ds ++ c :: es') = some (B, m) := by
      rw [hd, ← hB, ← List.singleton_append, ← List.append_assoc, ledger_others hothers]
    have hzeroB : B.tokens = 0 := by
      rw [hB']
      exact hzero
    rw [admitted_iff hn hsd hledger, TokenBucket.ask_gives_iff (by decide), hzeroB]
    constructor
    · intro h r hr
      have hle := hlatest r hr
      simp only [refillRate] at h
      split_ifs at h <;> omega
    · intro h
      have hlast := h _ hmem
      rw [if_pos (by omega)]
      simp only [refillRate]
      omega

/-- The clock steps back before the second call and on before the third. -/
theorem second_truthful :
    Truthful Host.plain 0 loadedVm [call 1000 1001] (call 990 0) [call 985 0, call 1005 0] := by
  refine announcements_truthful rfl fun k => ?_
  have hkey : ∀ now created, (call now created).key = "10.0.0.1" := fun _ _ => rfl
  by_cases hk : "10.0.0.1" = k
  · have hreadings : readings "10.0.0.1" ([call 1000 1001] ++ call 990 0 :: [call 985 0, call 1005 0]) =
        [1001, 1000, 990, 985, 1005] := by decide
    rw [← hk, hreadings]
    decide
  · simp [readings, createdAt, callsOf, hkey, hk]

end Runs

end LuaProxy.Announcements
