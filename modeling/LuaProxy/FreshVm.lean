import LuaProxy.PluginSteps
import LuaProxy.ShippedRun

/-! What earlier requests leave in a connection's VM, and why nobody is logged in by it: the
shipped plugins read of the globals and the heap only what their chunks have just set. -/
namespace LuaProxy.FreshVm
open Text Lua LuaPattern Context HookMonad Engine Handler Plugins HookTwins HookSteps ShippedPipeline
  CtxWrites PluginCalls PluginSteps ShippedRun

section Relations

def SameOutside (heap heap' : Heap) : Prop :=
  heap.clock = heap'.clock ∧ heap.jwtFile = heap'.jwtFile

def SameBuckets (n n' : ℕ) (heap heap' : Heap) : Prop :=
  SameOutside heap heap' ∧ heap.buckets[n]? = heap'.buckets[n']?

end Relations

section Limiter
variable {host : Host} {n n' : ℕ}

theorem osTime_sameBuckets : Twins (SameBuckets n n') (osTime host) (osTime host) := by
  refine twins_onHeap fun heap heap' h => ?_
  obtain ⟨⟨hclock, hjwt⟩, hbuckets⟩ := h
  rw [hclock]
  exact ⟨rfl, ⟨rfl, hjwt⟩, hbuckets⟩

theorem readBucket_twins (key : String) :
    Twins (SameBuckets n n') (readBucket host n key) (readBucket host n' key) := by
  refine twins_onHeap fun heap heap' h => ?_
  rw [h.2]
  exact ⟨rfl, h⟩

theorem writeBucket_twins (key : String) (b : Bucket) :
    Twins (SameBuckets n n') (writeBucket host n key b) (writeBucket host n' key b) := by
  refine twins_onHeap fun heap heap' h => ⟨rfl, h.1, ?_⟩
  rw [List.getElem?_modify_eq, List.getElem?_modify_eq, h.2]

theorem getBucket_twins (key : String) :
    Twins (SameBuckets n n') (getBucket host n key) (getBucket host n' key) := by
  refine twins_bind (readBucket_twins key) fun b => ?_
  cases b with
  | some b => exact twins_pure b
  | none =>
    refine twins_bind osTime_sameBuckets fun now => ?_
    exact twins_bind (writeBucket_twins key _) fun _ => twins_pure _

theorem rateLimit_twins : Twins (SameBuckets n n') (rateLimit host n) (rateLimit host n') := by
  refine twins_bind (twins_read _) fun userId => twins_bind (twins_read _) fun ip => ?_
  refine twins_bind osTime_sameBuckets fun now => ?_
  refine twins_bind (getBucket_twins _) fun b => ?_
  refine twins_bind (writeBucket_twins _ _) fun _ => twins_ite ?_ ?_
  · exact twins_bind (twins_call _) fun _ => twins_bind (twins_call _) fun _ => twins_pure _
  · refine twins_bind (writeBucket_twins _ _) fun _ => twins_bind (twins_call _) fun _ => ?_
    exact twins_bind (twins_call _) fun _ => twins_pure _

end Limiter

section Login
variable {host : Host}

/-- Steps on the heap that do the same where they will read the same. -/
abbrev Outside : Kind Heap := fun _ f => ∀ heap heap', SameOutside heap heap' →
  (f heap).1 = (f heap').1 ∧ SameOutside (f heap).2 (f heap').2

theorem readClock_outside : Outside ℤ readClock := by
  rintro heap heap' ⟨hclock, hjwt⟩
  simp only [readClock, hclock]
  exact ⟨trivial, rfl, hjwt⟩

theorem twins_of_built {α : Type} {m : PluginM host α} (h : Built Outside m) :
    Twins SameOutside m m := h.twins fun hf => hf

end Login

section Rounds
variable (host : Host)

theorem ipFilter_round :
    RoundTwins (shippedLua host) .onRequest shippedSources.sources SameOutside "ip_filter.lua" := by
  refine round_twins _ source_ipFilter (defines_ipFilter host _) fun vm vm' ctx fn fn' hR hfn hfn' => ?_
  obtain rfl : Closure.ipFilter = fn := Option.some.inj (Option.some.inj hfn)
  obtain rfl : Closure.ipFilter = fn' := Option.some.inj (Option.some.inj hfn')
  exact ⟨SameOutside, hR, fun _ _ h => h, twins_of_built ipFilter_built⟩

theorem rateLimit_round :
    RoundTwins (shippedLua host) .onRequest shippedSources.sources SameOutside "rate_limit.lua" := by
  refine round_twins _ source_rateLimit (defines_rateLimit host _) fun vm vm' ctx fn fn' hR hfn hfn' => ?_
  obtain rfl : Closure.rateLimit vm.heap.buckets.length = fn := Option.some.inj (Option.some.inj hfn)
  obtain rfl : Closure.rateLimit vm'.heap.buckets.length = fn' :=
    Option.some.inj (Option.some.inj hfn')
  refine ⟨SameBuckets vm.heap.buckets.length vm'.heap.buckets.length, ⟨hR, ?_⟩, fun _ _ h => h.1,
    rateLimit_twins⟩
  change (vm.heap.buckets ++ [∅])[_]? = (vm'.heap.buckets ++ [∅])[_]?
  rw [List.getElem?_concat_length, List.getElem?_concat_length]

theorem auth_round :
    RoundTwins (shippedLua host) .onRequest shippedSources.sources SameOutside "auth.lua" := by
  refine round_twins _ source_auth (defines_auth host _) fun vm vm' ctx fn fn' hR hfn hfn' => ?_
  obtain rfl : Closure.auth (jwtSecret host) (vm.heap.jwtFile 0) = fn :=
    Option.some.inj (Option.some.inj hfn)
  obtain rfl : Closure.auth (jwtSecret host) (vm'.heap.jwtFile 0) = fn' :=
    Option.some.inj (Option.some.inj hfn')
  obtain ⟨hclock, hjwt⟩ := hR
  rw [← hjwt]
  refine ⟨SameOutside, ⟨hclock, ?_⟩, fun _ _ h => h,
    twins_of_built (auth_built readClock_outside _ _)⟩
  change (fun n => vm.heap.jwtFile (n + 1)) = fun n => vm'.heap.jwtFile (n + 1)
  rw [hjwt]

theorem authz_round :
    RoundTwins (shippedLua host) .onRequest shippedSources.sources SameOutside "authz.lua" := by
  refine round_twins _ source_authz (defines_authz host _) fun vm vm' ctx fn fn' hR hfn hfn' => ?_
  obtain rfl : Closure.authz = fn := Option.some.inj (Option.some.inj hfn)
  obtain rfl : Closure.authz = fn' := Option.some.inj (Option.some.inj hfn')
  exact ⟨SameOutside, hR, fun _ _ h => h, twins_of_built authz_built⟩

theorem login_rounds : ∀ name ∈ ["ip_filter.lua", "rate_limit.lua", "auth.lua", "authz.lua"],
    RoundTwins (shippedLua host) .onRequest shippedSources.sources SameOutside name := by
  intro name hname
  simp only [List.mem_cons, List.not_mem_nil, or_false] at hname
  rcases hname with rfl | rfl | rfl | rfl
  · exact ipFilter_round host
  · exact rateLimit_round host
  · exact auth_round host
  · exact authz_round host

end Rounds

section Phase
variable {host : Host}

/-- How each plugin of a phase ended: the rejection it made, and what its hook returned or
raised. -/
def outcomes (p : PhaseRun Closure Heap Unit) :
    List (String × Option (UInt16 × String) × Option (Except LuaError Value)) :=
  (rounds p).map fun r => (r.1, lastSome rejection r.2.1, r.2.2)

theorem transform_outcome (host : Host) (stop : Except LuaError Value → RequestCtx → Option Unit)
    (vm : Vm Closure Heap) (ctx : RequestCtx) :
    let q := runHooks (shippedLua host) .onRequest stop shippedSources.sources ["transform.lua"] vm ctx
    outcomes q = [("transform.lua", none, some (.ok .nil))] ∧ q.ctx.rejected = ctx.rejected ∧
      ∀ k, k ≠ "request_id" → q.ctx.getVar k = ctx.getVar k := by
  intro q
  obtain ⟨hcalls, -, -⟩ := transform_round host stop vm ctx
  have hctx : q.ctx = CtxCall.runAll host ctx (transformCalls ctx (vm.heap.uuids 0)) := by
    rw [← hcalls]
    exact runHooks_ctx (shippedLua host) _ _ _ _ vm ctx
  refine ⟨?_, ?_, fun k hk => ?_⟩
  · obtain ⟨hrun, hresult, -⟩ := transformRequest_run host ctx
      (((shippedLua host).exec "transform.lua" .transform vm ctx).vm vm)
    have hvisits : q.visits.map (fun v => (v.name, v.found.calls, v.found.answer)) =
        [("transform.lua", transformCalls ctx (vm.heap.uuids 0), some (.ok .nil))] := by
      have hround : (visit (shippedLua host) .onRequest shippedSources.sources "transform.lua" vm
          ctx).calls = transformCalls ctx (vm.heap.uuids 0) ∧ (visit (shippedLua host) .onRequest
            shippedSources.sources "transform.lua" vm ctx).answer = some (.ok .nil) := by
        rw [transform_visit]
        exact ⟨hrun, congrArg some hresult⟩
      simp only [q, runHooks]
      split <;> simp [hround]
    simp only [outcomes, rounds, hvisits, List.map_cons, List.map_nil, transform_rejection]
  · rw [hctx, runAll_rejection, transform_rejection, Option.none_or]
  · rw [hctx, runAll_getVar, transform_varWrite _ _ hk, Option.none_or]

def loginPhase (host : Host) (vm : Vm Closure Heap) (ctx : RequestCtx) : PhaseRun Closure Heap Unit :=
  runHooks (shippedLua host) .onRequest (fun _ ctx => if ctx.isRejected then some () else none)
    shippedSources.sources ["ip_filter.lua", "rate_limit.lua", "auth.lua", "authz.lua"] vm ctx

theorem onRequest_login (host : Host) (vm : Vm Closure Heap) (ctx : RequestCtx) :
    let p := runOnRequest (shippedLua host) shippedSources vm ctx
    let q := loginPhase host vm ctx
    outcomes p = outcomes q ++
        (if q.stopped = none then [("transform.lua", none, some (.ok .nil))] else []) ∧
      p.ctx.rejected = q.ctx.rejected ∧ ∀ k, k ≠ "request_id" → p.ctx.getVar k = q.ctx.getVar k := by
  intro p q
  rcases runHooks_append (shippedLua host) .onRequest
    (fun _ ctx => if ctx.isRejected then some () else none) shippedSources.sources
    ["ip_filter.lua", "rate_limit.lua", "auth.lua", "authz.lua"] ["transform.lua"] vm ctx
    with ⟨hstopped, hp⟩ | ⟨hstopped, hp⟩
  · have hpq : p = q := hp
    have hstop : q.stopped ≠ none := hstopped
    rw [hpq, if_neg hstop, List.append_nil]
    exact ⟨rfl, rfl, fun _ _ => rfl⟩
  · obtain ⟨houtcomes, hrejected, hstored⟩ := transform_outcome host
      (fun _ ctx => if ctx.isRejected then some () else none) q.vm q.ctx
    have hstop : q.stopped = none := hstopped
    rw [if_pos hstop, ← houtcomes]
    have hpq : p = _ := hp
    rw [hpq]
    refine ⟨?_, hrejected, hstored⟩
    simp only [outcomes, rounds, List.map_append]
    rfl

/-- Two `on_request` phases that end alike for a client, and log it in alike. -/
structure SameLogin (p p' : PhaseRun Closure Heap Unit) : Prop where
  stored : ∀ k ∈ ["user_id", "role", "auth_method"], p.ctx.getVar k = p'.ctx.getVar k
  ended : outcomes p = outcomes p'
  rejected : p.ctx.rejected = p'.ctx.rejected

/-- Whatever ran before on a VM, the phase logs a request in as on any other VM. -/
theorem onRequest_sameLogin {vm vm' : Vm Closure Heap} (h : SameOutside vm.heap vm'.heap)
    (ctx : RequestCtx) :
    SameLogin (runOnRequest (shippedLua host) shippedSources vm ctx)
      (runOnRequest (shippedLua host) shippedSources vm' ctx) := by
  have htwins : (loginPhase host vm ctx).stopped = (loginPhase host vm' ctx).stopped ∧
      rounds (loginPhase host vm ctx) = rounds (loginPhase host vm' ctx) ∧
      (loginPhase host vm ctx).ctx = (loginPhase host vm' ctx).ctx :=
    runHooks_twins (shippedLua host) (login_rounds host) h ctx
  obtain ⟨hstopped, hrounds, hctx⟩ := htwins
  obtain ⟨houtcomes, hrejected, hstored⟩ := onRequest_login host vm ctx
  obtain ⟨houtcomes', hrejected', hstored'⟩ := onRequest_login host vm' ctx
  refine ⟨fun k hk => ?_, ?_, ?_⟩
  · have hname : ∀ k ∈ ["user_id", "role", "auth_method"], k ≠ "request_id" := by decide
    rw [hstored k (hname k hk), hstored' k (hname k hk), hctx]
  · rw [houtcomes, houtcomes', hstopped, outcomes, outcomes, hrounds]
  · rw [hrejected, hrejected', hctx]

/-- No login crosses requests: after any requests on a connection, the next one is logged in,
passed on or refused as if it were the first, at the same clock. -/
theorem login_fresh (host : Host) (history : List Turn) (t : Turn) (uuids : ℕ → String) (body : Bytes) :
    SameLogin (t.onRequest host (vmAfter host history) body)
      (Turn.onRequest host { t with uuids } startVm body) := by
  have hheap : SameOutside (t.enter (vmAfter host history)).heap
      (Turn.enter { t with uuids } startVm).heap := ⟨rfl, rfl⟩
  exact onRequest_sameLogin hheap (requestCtx host t.req t.peer body)

end Phase

end LuaProxy.FreshVm
