import LuaProxy.ShippedPipeline
import LuaProxy.FailClosed
import LuaProxy.PluginCalls
import LuaProxy.HookDispatch

/-! The rate limit over whole runs of the proxy. A connection has a VM of its own, and every
phase executes `rate_limit.lua` again, which makes a new `buckets` table: the hook never
finds a bucket, and every request is taken off a full one. -/
namespace LuaProxy.RateLimitRuns
open Text Lua Context HookMonad Engine Handler Plugins HookSpec HookCalls PluginCalls
  ShippedPipeline Upstream

section Hook

theorem rateLimit_empty (host : Host) (n : ℕ) (vm : Vm Closure Heap) (ctx : RequestCtx)
    (hn : vm.heap.buckets[n]? = some ∅) (h₀ : 0 ≤ vm.heap.clock 0)
    (h₁ : vm.heap.clock 0 ≤ vm.heap.clock 1) (h₂ : vm.heap.clock 1 < 2 ^ 63) :
    (rateLimit host n vm ctx).calls =
      [.setResHeader "x-ratelimit-remaining" "99", .setResHeader "x-ratelimit-limit" "100"] := by
  have hw : wrap (vm.heap.clock 0 - vm.heap.clock 1) = vm.heap.clock 0 - vm.heap.clock 1 := by
    unfold wrap
    rw [Int.bmod_eq_of_le] <;> omega
  have hrefill : refill ⟨capacity, vm.heap.clock 1⟩ (vm.heap.clock 0) =
      ⟨capacity, vm.heap.clock 1⟩ := by
    simp only [refill, hw]
    rw [if_neg (by omega)]
  simp [rateLimit, getBucket, readBucket, writeBucket, osTime, bind, HookM.bind, HookM.read,
    HookM.onHeap, Ran.vm, pure, HookM.pure, hn, hrefill]
  rw [if_neg (by decide)]
  rfl

/-- A round for `rate_limit.lua` never rejects: the table is the one its chunk just made. -/
theorem rateLimit_round (host : Host) (sources : HashMap Plugin) (name : String) (vm : Vm Closure Heap)
    (ctx : RequestCtx) (hs : sources.lookup name = some .rateLimit) (h₀ : 0 ≤ vm.heap.clock 0)
    (h₁ : vm.heap.clock 0 ≤ vm.heap.clock 1) (h₂ : vm.heap.clock 1 < 2 ^ 63) :
    (visit (shippedLua host) .onRequest sources name vm ctx).calls =
      [.setResHeader "x-ratelimit-remaining" "99", .setResHeader "x-ratelimit-limit" "100"] := by
  have hempty : (vm.heap.buckets ++ [∅])[vm.heap.buckets.length]? = some ∅ := by simp
  have hrun := rateLimit_empty host vm.heap.buckets.length
    (((shippedLua host).exec name .rateLimit vm ctx).vm vm) ctx hempty h₀ h₁ h₂
  rw [← hrun]
  simp only [visit, hs]
  rfl

end Hook

section Others
variable {host : Host}

def NoLimit (c : CtxCall) : Prop := ∀ msg, c ≠ .reject 429 msg

theorem ipFilter_noLimit : Emits NoLimit (ipFilter host) := by
  refine emits_of_makes (fun ctx => ipFilter_makes.total) fun ctx cs hcs => ?_
  obtain rfl : cs = [] := hcs
  simp

theorem auth_noLimit (secret : Bytes) (jwtLib : Bool) : Emits NoLimit (auth host secret jwtLib) := by
  refine emits_of_makes (fun ctx => auth_makes jwtLib) fun ctx cs hcs => ?_
  cases hcs with
  | _ => simp [NoLimit]

theorem authz_noLimit : Emits NoLimit (authz host) := by
  refine emits_of_makes (fun ctx => authz_makes.total) fun ctx cs hcs => ?_
  cases hcs with
  | _ => simp [NoLimit]

theorem transformRequest_noLimit : Emits NoLimit (transformRequest host) := by
  intro vm ctx c hc
  rw [(transformRequest_run host ctx vm).1] at hc
  rcases transformCalls_mem hc with ⟨k, v, rfl⟩ | rfl
  · simp [NoLimit]
  · simp [NoLimit]

end Others

section Phase

/-- The phase as a whole never rejects with 429, whatever the connection's VM holds. -/
theorem onRequest_noLimit (host : Host) (vm : Vm Closure Heap) (ctx : RequestCtx) (h₀ : 0 ≤ vm.heap.clock 0)
    (h₁ : vm.heap.clock 0 ≤ vm.heap.clock 1) (h₂ : vm.heap.clock 1 < 2 ^ 63) :
    ∀ c ∈ (runOnRequest (shippedLua host) shippedSources vm ctx).calls, NoLimit c := by
  change ∀ c ∈ (runHooks _ _ _ _ ["ip_filter.lua", "rate_limit.lua", "auth.lua", "authz.lua",
    "transform.lua"] vm ctx).calls, NoLimit c
  refine runHooks_cons_calls (shippedLua host) ?_ ?_
  · exact visit_emits (shippedLua host) .ipFilter source_ipFilter
      (defines_ipFilter host _) (by rintro fn rfl; exact ipFilter_noLimit) vm ctx
  -- `ip_filter.lua` reads no clock
  have hclock : ((visit (shippedLua host) .onRequest shippedSources.sources "ip_filter.lua" vm
      ctx).vm vm).heap.clock = vm.heap.clock := by
    simp only [visit, source_ipFilter]
    rfl
  refine runHooks_cons_calls (shippedLua host) ?_ ?_
  · have hround := rateLimit_round host shippedSources.sources "rate_limit.lua"
      ((visit (shippedLua host) .onRequest shippedSources.sources "ip_filter.lua" vm ctx).vm vm)
      (CtxCall.runAll host ctx (visit (shippedLua host) .onRequest shippedSources.sources
        "ip_filter.lua" vm ctx).calls)
      source_rateLimit (by rw [hclock]; exact h₀) (by rw [hclock]; exact h₁)
      (by rw [hclock]; exact h₂)
    rw [hround]
    simp [NoLimit]
  refine runHooks_cons_calls (shippedLua host) ?_ ?_
  · exact visit_emits (shippedLua host) .auth source_auth (defines_auth host _)
      (by rintro fn ⟨jwtLib, rfl⟩; exact auth_noLimit _ jwtLib) _ _
  refine runHooks_cons_calls (shippedLua host) ?_ ?_
  · exact visit_emits (shippedLua host) .authz source_authz (defines_authz host _)
      (by rintro fn rfl; exact authz_noLimit) _ _
  refine runHooks_cons_calls (shippedLua host) ?_ ?_
  · exact visit_emits (shippedLua host) .transform source_transform
      (defines_transform host _) (by rintro fn rfl; exact transformRequest_noLimit) _ _
  intro c hc
  simp [runHooks, PhaseRun.calls] at hc

theorem runAll_noLimit (host : Host) {calls : List CtxCall} {ctx : RequestCtx}
    (hctx : ∀ msg, ctx.rejected ≠ some (429, msg)) (h : ∀ c ∈ calls, NoLimit c) :
    ∀ msg, (CtxCall.runAll host ctx calls).rejected ≠ some (429, msg) := by
  induction calls generalizing ctx with
  | nil => exact hctx
  | cons c cs ih =>
    refine ih ?_ fun c' hc' => h c' (by simp [hc'])
    intro msg he
    have hc := h c (by simp)
    cases c with
    | reject status m =>
      simp only [CtxCall.run, Option.some.injEq, Prod.mk.injEq] at he
      exact hc m (by rw [he.1])
    | _ => exact hctx msg he

end Phase

section Run
variable (host : Host)

/-- A request that arrives on a connection, with what the process reads from outside while it
handles it. Its clock readings are those of `os.time`: seconds since the epoch that fit a Lua
integer and do not go back. The upstreams are in whatever state other connections left. -/
structure Arrival where
  conn : ℕ
  peer : String
  req : Request
  http : Http
  pool : UpstreamPool
  counters : Counters
  clock : ℕ → ℤ
  uuids : ℕ → String
  jwtFile : ℕ → Bool
  clock_mono : Monotone clock
  clock_range : ∀ i, 0 ≤ clock i ∧ clock i < 2 ^ 63

namespace Arrival
variable (a : Arrival)

/-- The bucket key: no plugin before `rate_limit.lua` sets `user_id`, so it is the address. -/
def key : String := clientAddress (headerMap host a.req.headers) a.peer

def time : ℤ := a.clock 0

def reached : Bool := a.req.body.isOk

def onConn (vm : Vm Closure Heap) : Vm Closure Heap :=
  { vm with heap :=
    { vm.heap with clock := a.clock, uuids := a.uuids, jwtFile := a.jwtFile } }

def handle (vm : Vm Closure Heap) : Handled Closure Heap :=
  handleRequest (shippedLua host) a.http (fun _ => shippedSources) a.peer a.req (a.onConn vm)
    a.pool a.counters

/-- The plugins were reached and the request was not rejected with 429. -/
def admitted (vm : Vm Closure Heap) : Bool :=
  match a.req.body with
  | .error _ => false
  | .ok body =>
    let p := runOnRequest (shippedLua host) shippedSources (a.onConn vm)
      (requestCtx host a.req a.peer body)
    p.ctx.rejected.map Prod.fst != some 429

end Arrival

/-- The VMs of the connections: each starts afresh. -/
abbrev Conns := ℕ → Vm Closure Heap

def newConns : Conns := fun _ =>
  HookDispatch.fresh ⟨[], fun _ => 0, fun _ => "", fun _ => false⟩

/-- The requests of a run that the rate limit let through, in order of arrival. -/
def admittedOf : List Arrival → Conns → List Arrival
  | [], _ => []
  | a :: as, conns =>
    let rest := admittedOf as (Function.update conns a.conn (a.handle host (conns a.conn)).vm)
    if a.admitted host (conns a.conn) then a :: rest else rest

/-- How many of the requests have key `k` and were handled from `t₁` to `t₂`. -/
def countOf (k : String) (t₁ t₂ : ℤ) (as : List Arrival) : ℕ :=
  as.countP fun a => a.key host = k ∧ t₁ ≤ a.time ∧ a.time ≤ t₂

/-- The bound a bucket of 100 tokens with 10 more each second is there for. -/
def Within (as : List Arrival) : Prop :=
  ∀ k t₁ t₂, t₁ ≤ t₂ → (countOf host k t₁ t₂ as : ℤ) ≤ capacity + refillRate * (t₂ - t₁)

/-- The rate limit holds over the run. -/
def RateLimited (as : List Arrival) : Prop := Within host (admittedOf host as newConns)

variable {host}

theorem admitted_eq (a : Arrival) (vm : Vm Closure Heap) : a.admitted host vm = a.reached := by
  unfold Arrival.admitted Arrival.reached
  cases hb : a.req.body with
  | error e => rfl
  | ok body =>
    have hno := onRequest_noLimit host (a.onConn vm) (requestCtx host a.req a.peer body)
      (a.clock_range 0).1 (a.clock_mono (Nat.zero_le 1)) (a.clock_range 1).2
    have hstart : ∀ msg, (requestCtx host a.req a.peer body).rejected ≠ some (429, msg) := by
      intro msg he
      simp [requestCtx, RequestCtx.new] at he
    have hrej := runAll_noLimit host hstart hno
    have hctx : (runOnRequest (shippedLua host) shippedSources (a.onConn vm)
        (requestCtx host a.req a.peer body)).ctx = _ := runHooks_ctx _ _ _ _ _ _ _
    simp only [Except.isOk, Except.toBool, bne_iff_ne, ne_eq]
    intro he
    obtain ⟨⟨status, msg⟩, hr, rfl⟩ := Option.map_eq_some_iff.mp he
    rw [hctx] at hr
    exact hrej msg hr

theorem admittedOf_eq (as : List Arrival) (conns : Conns) :
    admittedOf host as conns = as.filter Arrival.reached := by
  induction as generalizing conns with
  | nil => rfl
  | cons a as ih =>
    rw [admittedOf, admitted_eq, ih, List.filter_cons]

/-- The rate limit holds over a run exactly if the requests kept to it by themselves. -/
theorem rateLimited_iff (as : List Arrival) :
    RateLimited host as ↔ Within host (as.filter Arrival.reached) := by
  rw [RateLimited, admittedOf_eq]

section Burst

def healthRequest : Request := ⟨"GET", "/health", none, [], .ok []⟩

def burstArrival : Arrival where
  conn := 0
  peer := "10.0.0.1"
  req := healthRequest
  http := Http.down
  pool := FailClosed.plainPool
  counters := ∅
  clock := fun _ => 1700000000
  uuids := fun _ => "id"
  jwtFile := fun _ => true
  clock_mono := monotone_const
  clock_range := fun _ => by norm_num

/-- 101 requests of one second, on one connection, are all let through. -/
theorem burst_not_limited : ¬ ∀ (host : Host) (as : List Arrival), RateLimited host as := by
  intro h
  have hb := h Host.plain (List.replicate 101 burstArrival)
  rw [RateLimited, admittedOf_eq] at hb
  have hreached : (List.replicate 101 burstArrival).filter Arrival.reached =
      List.replicate 101 burstArrival := List.filter_eq_self.mpr fun a ha => by
    rw [List.eq_of_mem_replicate ha]
    rfl
  have hk : burstArrival.key Host.plain = "10.0.0.1" := by decide
  have hc := hb "10.0.0.1" 1700000000 1700000000 le_rfl
  rw [hreached, countOf, List.countP_replicate, if_pos] at hc
  · norm_num [capacity] at hc
  · have ht : burstArrival.time = 1700000000 := rfl
    simp [hk, ht]

end Burst

end Run

end LuaProxy.RateLimitRuns
