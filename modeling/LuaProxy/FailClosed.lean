import LuaProxy.Handler

/-! Which plugin failures keep a request from its upstream. A rejection does; a plugin
that is absent, does not load or raises is passed over with a log line. -/
namespace LuaProxy.FailClosed
open Text Lua Context HookMonad Engine Upstream Handler

section Pass
variable {host : Host} {Src Fn Heap : Type} (L : Interpreter host Src Fn Heap)

/-- The phase went through the whole pipeline and nothing in it rejected. -/
structure Passed (pipeline : List String) (visits : List (Visit Fn Heap)) : Prop where
  names : visits.map Visit.name = pipeline
  noReject : ∀ v ∈ visits, ∀ c ∈ v.found.calls, c.isReject = false

theorem runOnRequest_stopped {srcs : PluginSources Src} {vm : Vm Fn Heap} {ctx : RequestCtx}
    (h : (runOnRequest L srcs vm ctx).ctx.isRejected = false) :
    (runOnRequest L srcs vm ctx).stopped = none := by
  cases hs : (runOnRequest L srcs vm ctx).stopped with
  | none => rfl
  | some u =>
    obtain ⟨_, hr⟩ := runHooks_stopped L _ _ _ _ _ _ hs
    change (if (runOnRequest L srcs vm ctx).ctx.isRejected then some () else none) = some u at hr
    simp [h] at hr

/-- The `on_request` phase leaves the context unrejected exactly if it passed. -/
theorem runOnRequest_passed (srcs : PluginSources Src) (vm : Vm Fn Heap) (ctx : RequestCtx)
    (hctx : ctx.isRejected = false) :
    (runOnRequest L srcs vm ctx).ctx.isRejected = false ↔
      Passed srcs.pipeline (runOnRequest L srcs vm ctx).visits := by
  have hrej : (runOnRequest L srcs vm ctx).ctx.isRejected =
      (runOnRequest L srcs vm ctx).calls.any CtxCall.isReject := by
    have hc := runHooks_ctx L .onRequest (fun _ ctx => if ctx.isRejected then some () else none)
      srcs.sources srcs.pipeline vm ctx
    change (runOnRequest L srcs vm ctx).ctx = _ at hc
    rw [hc, CtxCall.runAll_rejected, hctx, Bool.false_or]
    rfl
  constructor
  · intro h
    refine ⟨runHooks_names L _ _ _ _ _ _ (runOnRequest_stopped L h), ?_⟩
    intro v hv c hc
    rw [hrej, List.any_eq_false] at h
    simpa using h c (List.mem_flatMap.mpr ⟨v, hv, hc⟩)
  · intro h
    rw [hrej, List.any_eq_false]
    intro c hc
    obtain ⟨v, hv, hcv⟩ := List.mem_flatMap.mp hc
    simp [h.noReject v hv c hcv]

variable (http : Http)

theorem forwarded_iff_passed (srcs : Hook → PluginSources Src) (peer : String) (req : Request)
    (vm : Vm Fn Heap) (pool : UpstreamPool) (counters : Counters) :
    (handleRequest L http srcs peer req vm pool counters).Forwarded ↔
      ∃ body, req.body = .ok body ∧
        let p₁ := runOnRequest L (srcs .onRequest) vm (requestCtx host req peer body)
        let p₂ := runOnRoute L (srcs .onRoute) p₁.vm p₁.ctx
        Passed (srcs .onRequest).pipeline p₁.visits ∧
          (pool.nextUrl host ((routeOf p₂).getD "default")
            (some (clientAddress (headerMap host req.headers) peer))).1.isSome := by
  rw [forwarded_iff]
  refine exists_congr fun body => and_congr_right fun _ => ?_
  exact and_congr_left fun _ => runOnRequest_passed L _ _ _ rfl

end Pass

/-- A plugin ran as its author meant it to: the source was there, the chunk executed, and
its hook, if there is one, returned without rejecting. -/
def sound {Fn Heap : Type} : Found Fn Heap → Bool
  | .absent => false
  | .loadError _ => false
  | .noHook _ => true
  | .called _ _ hook => hook.result.isOk && hook.calls.all fun c => !c.isReject

/-- Fail-closed pipelines: nothing is forwarded unless every plugin ran soundly. -/
def FailClosedPipeline : Prop :=
  ∀ (host : Host) (Src Fn Heap : Type) (L : Interpreter host Src Fn Heap) (http : Http)
    (srcs : Hook → PluginSources Src) (peer : String) (req : Request) (body : Bytes)
    (vm : Vm Fn Heap) (pool : UpstreamPool) (counters : Counters), req.body = .ok body →
    (handleRequest L http srcs peer req vm pool counters).Forwarded →
    let p := runOnRequest L (srcs .onRequest) vm (requestCtx host req peer body)
    p.visits.map Visit.name = (srcs .onRequest).pipeline ∧ ∀ v ∈ p.visits, sound v.found

section Broken

/-- The sources of two plugins: one with a syntax error, one whose hook sets a variable
and then raises. -/
inductive BrokenSrc
  | syntaxError
  | raising

def brokenLua : Interpreter Host.plain BrokenSrc Unit Unit where
  exec _ src :=
    match src with
    | .syntaxError => HookM.raise "unexpected symbol"
    | .raising => HookM.define .onRequest ()
  call _ := do
    HookM.call (.setVar "auth_method" "none")
    HookM.raise "attempt to index a nil value"

def brokenSources : PluginSources BrokenSrc where
  pipeline := ["ip_filter.lua", "auth.lua", "authz.lua"]
  sources := (AList.insert "auth.lua" .raising ∅).insert "authz.lua" .syntaxError

def plainRequest : Request := ⟨"GET", "/admin/users", none, [], .ok []⟩

def plainPool : UpstreamPool :=
  UpstreamPool.init [⟨"default", ["http://127.0.0.1:3000"], "round_robin", "/health", 5⟩]

/-- A pipeline of an absent plugin, one that raises and one that does not load forwards. -/
theorem broken_pipeline_forwards : ¬ FailClosedPipeline := by
  intro h
  have hf : (handleRequest brokenLua Http.down (fun _ => brokenSources) "127.0.0.1" plainRequest
      ⟨fun _ => none, ()⟩ plainPool ∅).Forwarded := by decide
  have hs : (runOnRequest brokenLua brokenSources ⟨fun _ => none, ()⟩
      (requestCtx Host.plain plainRequest "127.0.0.1" [])).visits.all (fun v => sound v.found) =
        false := by decide
  obtain ⟨-, hall⟩ := h Host.plain BrokenSrc Unit Unit brokenLua Http.down (fun _ => brokenSources)
    "127.0.0.1" plainRequest [] ⟨fun _ => none, ()⟩ plainPool ∅ rfl hf
  rw [List.all_eq_true.mpr hall] at hs
  exact Bool.noConfusion hs

end Broken

end LuaProxy.FailClosed
