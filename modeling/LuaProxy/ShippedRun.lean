import LuaProxy.PluginCalls
import LuaProxy.ShippedPipeline
import LuaProxy.CtxWrites
import LuaProxy.FailClosed
import LuaProxy.RequestCourse

/-! Requests through the shipped pipeline, one after the other on a connection: the calls of
the phases before forwarding, and what the connection's VM is left with. -/
namespace LuaProxy.ShippedRun
open Text Lua Context HookMonad Engine Handler Plugins HookSpec HookCalls PluginCalls ShippedPipeline
  CtxWrites Upstream RequestCourse

section Silent
variable {host : Host} {ctx : RequestCtx} {secret : Bytes} {calls : List CtxCall}

theorem rate_reqWrite (h : RateCalls calls) (k : String) :
    lastSome (reqWrite host k) calls = none := by
  cases h <;> rfl

theorem rate_varWrite (h : RateCalls calls) (k : String) : lastSome (varWrite k) calls = none := by
  cases h <;> rfl

theorem login_reqWrite (h : AuthCalls host ctx secret calls) (k : String) :
    lastSome (reqWrite host k) calls = none := by
  cases h <;> rfl

theorem allow_reqWrite (h : AuthzCalls ctx calls) (k : String) :
    lastSome (reqWrite host k) calls = none := by
  cases h <;> rfl

theorem allow_varWrite (h : AuthzCalls ctx calls) (k : String) :
    lastSome (varWrite k) calls = none := by
  cases h <;> rfl

theorem transform_varWrite (ctx : RequestCtx) (reqId : String) {k : String} (hk : k ≠ "request_id") :
    lastSome (varWrite k) (transformCalls ctx reqId) = none := by
  refine lastSome_eq_none fun c hc => ?_
  rcases transformCalls_mem hc with ⟨h, v, rfl⟩ | rfl
  · rfl
  · simp [varWrite, hk.symm]

theorem transform_rejection (ctx : RequestCtx) (reqId : String) :
    lastSome rejection (transformCalls ctx reqId) = none := by
  refine lastSome_eq_none fun c hc => ?_
  rcases transformCalls_mem hc with ⟨h, v, rfl⟩ | rfl
  · rfl
  · rfl

end Silent

section OnRequest
variable {host : Host}

theorem exec_uuids (name : String) (src : Plugin) (vm : Vm Closure Heap) (ctx : RequestCtx) :
    ((shippedLua host).exec name src vm ctx).heap.uuids = vm.heap.uuids := by
  cases src <;> rfl

theorem exec_onTransform (name : String) (src : Plugin) (vm : Vm Closure Heap) (ctx : RequestCtx) :
    ((shippedLua host).exec name src vm ctx).assigned .onTransform = none := by
  cases src <;> rfl

theorem transform_visit (vm : Vm Closure Heap) (ctx : RequestCtx) :
    visit (shippedLua host) .onRequest shippedSources.sources "transform.lua" vm ctx =
      .called ((shippedLua host).exec "transform.lua" .transform vm ctx) .transformRequest
        (transformRequest host
          (((shippedLua host).exec "transform.lua" .transform vm ctx).vm vm) ctx) := by
  simp only [visit, source_transform]
  rfl

theorem transform_round (host : Host) (stop : Except LuaError Value → RequestCtx → Option Unit)
    (vm : Vm Closure Heap) (ctx : RequestCtx) :
    let p := runHooks (shippedLua host) .onRequest stop shippedSources.sources ["transform.lua"] vm ctx
    p.calls = transformCalls ctx (vm.heap.uuids 0) ∧ p.vm.global .onRoute = some .transformRoute ∧
      p.vm.global .onTransform = vm.global .onTransform := by
  intro p
  obtain ⟨hcalls, hvm⟩ := runHooks_single (shippedLua host) .onRequest stop
    shippedSources.sources "transform.lua" vm ctx
  obtain ⟨hrun, -, hassigned⟩ := transformRequest_run host ctx
    (((shippedLua host).exec "transform.lua" .transform vm ctx).vm vm)
  rw [transform_visit] at hcalls hvm
  simp only [p, hcalls, hvm]
  refine ⟨hrun, ?_, ?_⟩
  · change ((transformRequest host _ ctx).assigned .onRoute).getD _ = _
    rw [hassigned]
    rfl
  · change ((transformRequest host _ ctx).assigned .onTransform).getD _ = _
    rw [hassigned]
    rfl

/-- The `on_request` phase of the shipped pipeline, when nothing rejects: each plugin goes
one of its ways, from where the ones before it led. -/
theorem onRequest_run (vm : Vm Closure Heap) (ctx : RequestCtx)
    (hr : (runOnRequest (shippedLua host) shippedSources vm ctx).ctx.isRejected = false) :
    ∃ rate login allow, RateCalls rate ∧
      AuthCalls host (CtxCall.runAll host ctx rate) (jwtSecret host) login ∧
      AuthzCalls (CtxCall.runAll host ctx (rate ++ login)) allow ∧
      (runOnRequest (shippedLua host) shippedSources vm ctx).calls = rate ++ login ++ allow ++
        transformCalls (CtxCall.runAll host ctx (rate ++ login ++ allow)) (vm.heap.uuids 0) ∧
      (runOnRequest (shippedLua host) shippedSources vm ctx).vm.global .onRoute =
        some .transformRoute ∧
      (runOnRequest (shippedLua host) shippedSources vm ctx).vm.global .onTransform =
        vm.global .onTransform := by
  have hstop := FailClosed.runOnRequest_stopped (shippedLua host) hr
  simp only [runOnRequest] at hstop ⊢
  change (runHooks _ _ _ _ ["ip_filter.lua", "rate_limit.lua", "auth.lua", "authz.lua",
    "transform.lua"] vm ctx).stopped = none at hstop
  obtain ⟨vm₁, cs₁, rfl, hu₁, hg₁, hstop₁, hc₁, hv₁⟩ := runHooks_makes (shippedLua host) .ipFilter hstop
    source_ipFilter (defines_ipFilter host _) (exec_uuids _ _) (P := (· = []))
    (by rintro fn rfl; exact ipFilter_makes.total)
  rw [CtxCall.runAll_nil] at hstop₁ hc₁ hv₁
  obtain ⟨vm₂, rate, hrate, hu₂, hg₂, hstop₂, hc₂, hv₂⟩ := runHooks_makes (shippedLua host) .rateLimit
    hstop₁ source_rateLimit (defines_rateLimit host _) (exec_uuids _ _) (P := RateCalls)
    (by rintro fn ⟨b, rfl⟩; exact (rateLimit_makes b).total)
  obtain ⟨vm₃, login, hlogin, hu₃, hg₃, hstop₃, hc₃, hv₃⟩ := runHooks_makes (shippedLua host) .auth
    hstop₂ source_auth (defines_auth host _) (exec_uuids _ _)
    (P := AuthCalls host (CtxCall.runAll host ctx rate) (jwtSecret host))
    (by rintro fn ⟨jwtLib, rfl⟩; exact auth_makes jwtLib)
  rw [← CtxCall.runAll_append] at hstop₃ hc₃ hv₃
  obtain ⟨vm₄, allow, hallow, hu₄, hg₄, hstop₄, hc₄, hv₄⟩ := runHooks_makes (shippedLua host) .authz
    hstop₃ source_authz (defines_authz host _) (exec_uuids _ _)
    (P := AuthzCalls (CtxCall.runAll host ctx (rate ++ login)))
    (by rintro fn rfl; exact authz_makes.total)
  rw [← CtxCall.runAll_append] at hstop₄ hc₄ hv₄
  obtain ⟨hcalls, hroute, htransform⟩ := transform_round host (fun _ ctx =>
    if ctx.isRejected then some () else none) vm₄ (CtxCall.runAll host ctx (rate ++ login ++ allow))
  refine ⟨rate, login, allow, hrate, hlogin, hallow, ?_, ?_, ?_⟩
  · have huuids : vm₄.heap.uuids = vm.heap.uuids :=
      hu₄.trans (hu₃.trans (hu₂.trans hu₁))
    rw [huuids] at hcalls
    apply hc₁.trans
    rw [List.nil_append, hc₂, hc₃, hc₄, hcalls]
    simp only [List.append_assoc]
  · refine Eq.trans ?_ hroute
    rw [← hv₄, ← hv₃, ← hv₂, ← hv₁]
    rfl
  · have hglobal : vm₄.global .onTransform = vm.global .onTransform := by
      rw [hg₄, hg₃, hg₂, hg₁, exec_onTransform, exec_onTransform, exec_onTransform, exec_onTransform]
      rfl
    rw [← hglobal]
    refine Eq.trans ?_ htransform
    rw [← hv₄, ← hv₃, ← hv₂, ← hv₁]
    rfl

end OnRequest

section Later
variable {host : Host}

theorem exec_calls (name : String) (src : Plugin) (vm : Vm Closure Heap) (ctx : RequestCtx) :
    ((shippedLua host).exec name src vm ctx).calls = [] := by
  cases src <;> rfl

/-- `on_route` ends with its first round: `transform.lua` is bound there since `on_request`. -/
theorem onRoute_run (host : Host) (vm : Vm Closure Heap) (ctx : RequestCtx)
    (hvm : vm.global .onRoute = some .transformRoute) :
    let p := runOnRoute (shippedLua host) shippedSources vm ctx
    p.calls = [.upstream (routeName ctx.reqPath)] ∧ p.stopped = some (routeName ctx.reqPath) := by
  intro p
  have hv : visit (shippedLua host) .onRoute shippedSources.sources "ip_filter.lua" vm ctx =
      .called ((shippedLua host).exec "ip_filter.lua" .ipFilter vm ctx) .transformRoute
        (transformRoute host (((shippedLua host).exec "ip_filter.lua" .ipFilter vm ctx).vm vm) ctx) := by
    have hglobal : (((shippedLua host).exec "ip_filter.lua" .ipFilter vm ctx).vm vm).global
        .onRoute = some .transformRoute := hvm
    simp only [visit, source_ipFilter, hglobal]
    rfl
  obtain ⟨hcalls, hresult, -⟩ := transformRoute_run host ctx
    (((shippedLua host).exec "ip_filter.lua" .ipFilter vm ctx).vm vm)
  have hanswer : routeAnswer host (.ok (.str (utf8 (routeName ctx.reqPath)))) =
      some (routeName ctx.reqPath) := by
    simp [routeAnswer, toRustOption, toRustString, Except.map]
  change (runHooks _ _ _ _ ("ip_filter.lua" :: ["rate_limit.lua", "auth.lua", "authz.lua",
    "transform.lua"]) vm ctx).calls = _ ∧ (runHooks _ _ _ _ ("ip_filter.lua" :: ["rate_limit.lua",
    "auth.lua", "authz.lua", "transform.lua"]) vm ctx).stopped = _
  simp [runHooks, hv, Found.answer, hresult, hanswer, PhaseRun.calls, Found.calls, exec_calls, hcalls]

/-- No shipped plugin has an `on_transform`. -/
theorem onTransform_run (vm : Vm Closure Heap) (ctx : RequestCtx)
    (hvm : vm.global .onTransform = none) :
    (runOnTransform (shippedLua host) shippedSources vm ctx).calls = [] :=
  runHooks_idle (shippedLua host) exec_calls exec_onTransform _ vm ctx hvm

end Later

section Connection
variable (host : Host)

/-- A request that comes in on a connection, with what the process reads from outside while
it handles it, and the state that other connections left. -/
structure Turn where
  peer : String
  req : Request
  http : Http
  pool : UpstreamPool
  counters : Counters
  clock : ℕ → ℤ
  uuids : ℕ → String
  jwtFile : ℕ → Bool

namespace Turn
variable (t : Turn)

def enter (vm : Vm Closure Heap) : Vm Closure Heap :=
  { vm with heap := { vm.heap with clock := t.clock, uuids := t.uuids, jwtFile := t.jwtFile } }

def handle (vm : Vm Closure Heap) : Handled Closure Heap :=
  handleRequest (shippedLua host) t.http (fun _ => shippedSources) t.peer t.req (t.enter vm) t.pool
    t.counters

def onRequest (vm : Vm Closure Heap) (body : Bytes) : PhaseRun Closure Heap Unit :=
  requestPhase (shippedLua host) (fun _ => shippedSources) t.peer t.req body (t.enter vm)

/-- The context `transform.lua` finds, after the calls of the plugins before it. -/
def found (calls : List CtxCall) (body : Bytes) : RequestCtx :=
  CtxCall.runAll host (requestCtx host t.req t.peer body) calls

end Turn

def startVm : Vm Closure Heap := ⟨fun _ => none, ⟨[], fun _ => 0, fun _ => "", fun _ => false⟩⟩

def vmAfter (history : List Turn) : Vm Closure Heap :=
  history.foldl (fun vm t => (t.handle host vm).vm) startVm

variable {host}

theorem handle_onTransform (t : Turn) (vm : Vm Closure Heap) :
    (t.handle host vm).vm.global .onTransform = vm.global .onTransform := by
  have hphase : ∀ {β : Type} (hook : Hook)
      (stop : Except LuaError Value → RequestCtx → Option β) (vm : Vm Closure Heap)
      (ctx : RequestCtx), (runHooks (shippedLua host) hook stop shippedSources.sources
        shippedSources.pipeline vm ctx).vm.global .onTransform = vm.global .onTransform :=
    fun hook stop vm ctx => runHooks_global (shippedLua host) exec_onTransform
      (fun fn vm ctx => call_assigned fn vm .onTransform) _ vm ctx
  exact handleRequest_keeps (R := fun a b => b.global .onTransform = a.global .onTransform)
    (fun _ => rfl) (fun _ _ _ h h' => h'.trans h) hphase t.peer t.req (t.enter vm) t.pool t.counters

theorem vmAfter_onTransform (history : List Turn) :
    (vmAfter host history).global .onTransform = none := by
  have hfold : ∀ vm : Vm Closure Heap, vm.global .onTransform = none →
      (history.foldl (fun vm t => (t.handle host vm).vm) vm).global .onTransform = none := by
    induction history with
    | nil => exact fun _ h => h
    | cons t history ih => exact fun vm h => ih _ ((handle_onTransform t vm).trans h)
  exact hfold startVm rfl

/-- All calls before forwarding, when a request is forwarded: those of `on_request`, each
plugin going one of its ways, and the choice of the upstream. -/
structure Forwarding (host : Host) (history : List Turn) (t : Turn) (body : Bytes)
    (rate login allow : List CtxCall) : Prop where
  rateWay : RateCalls rate
  loginWay : AuthCalls host (t.found host rate body) (jwtSecret host) login
  allowWay : AuthzCalls (t.found host (rate ++ login) body) allow
  calls : (t.onRequest host (vmAfter host history) body).calls = rate ++ login ++ allow ++
    transformCalls (t.found host (rate ++ login ++ allow) body) (t.uuids 0)
  earlier : earlierCalls (shippedLua host) (fun _ => shippedSources) t.peer t.req body
    (t.enter (vmAfter host history)) =
      (t.onRequest host (vmAfter host history) body).calls ++ [.upstream (routeName t.req.path)]
  route : routeOf (routePhase (shippedLua host) (fun _ => shippedSources) t.peer t.req body
    (t.enter (vmAfter host history))) = some (routeName t.req.path)
  passed : (t.onRequest host (vmAfter host history) body).ctx.rejected = none

theorem forwarding (history : List Turn) (t : Turn) (body : Bytes)
    (hr : (t.onRequest host (vmAfter host history) body).ctx.rejected = none) :
    ∃ rate login allow, Forwarding host history t body rate login allow := by
  have hrej : (t.onRequest host (vmAfter host history) body).ctx.isRejected = false := by
    simp only [RequestCtx.isRejected, hr]
    rfl
  obtain ⟨rate, login, allow, hrate, hlogin, hallow, hcalls, hroute, htransform⟩ :=
    onRequest_run (t.enter (vmAfter host history)) (requestCtx host t.req t.peer body) hrej
  have hpath : (t.onRequest host (vmAfter host history) body).ctx.reqPath = t.req.path := by
    rw [Turn.onRequest, requestPhase_ctx, runAll_reqPath]
    rfl
  obtain ⟨hroutecalls, hstopped⟩ := onRoute_run host
    (t.onRequest host (vmAfter host history) body).vm
    (t.onRequest host (vmAfter host history) body).ctx hroute
  rw [hpath] at hroutecalls hstopped
  refine ⟨rate, login, allow, hrate, hlogin, hallow, hcalls, ?_, ?_, hr⟩
  · have hunbound : (routePhase (shippedLua host) (fun _ => shippedSources) t.peer t.req body
        (t.enter (vmAfter host history))).vm.global .onTransform = none := by
      refine (runHooks_global (shippedLua host) exec_onTransform
        (fun fn vm ctx => call_assigned fn vm .onTransform) _ _ _).trans ?_
      exact htransform.trans (vmAfter_onTransform history)
    have hidle : (transformPhase (shippedLua host) (fun _ => shippedSources) t.peer t.req body
        (t.enter (vmAfter host history))).calls = [] := onTransform_run _ _ hunbound
    rw [earlierCalls, hidle, List.append_nil]
    exact congrArg _ hroutecalls
  · rw [Turn.onRequest] at hstopped
    simp only [routeOf, routePhase, hstopped]

end Connection

end LuaProxy.ShippedRun
