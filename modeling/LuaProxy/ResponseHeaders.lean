import LuaProxy.RequestCourse
import LuaProxy.Authorization

/-! Which of the response headers that plugins set reach the client. The handler puts the
upstream's headers in place of what the first three phases set, and an error response has
headers of its own. -/
namespace LuaProxy.ResponseHeaders
open Text Lua Context HookMonad Engine Upstream Handler CtxWrites RequestCourse

section Origin

def errorHeaders : HashMap String := AList.insert "content-type" "application/json" ∅

theorem errorResponse_headers {status : UInt16} {msg : String} {a : Response}
    (h : errorResponse status msg = .ok a) : a.headers = errorHeaders := by
  unfold errorResponse at h
  split_ifs at h
  rw [← Outcome.ok.inj h]
  rfl

variable {host : Host} {Src Fn Heap : Type} (L : Interpreter host Src Fn Heap) (http : Http)
  (srcs : Hook → PluginSources Src) (peer : String) (req : Request) (vm : Vm Fn Heap)
  (pool : UpstreamPool)

/-- Where the headers of an answer come from, for a request that was rejected or answered by
its upstream: the `ctx` calls whose headers are dropped, those whose headers are kept, and
the headers these are put upon. -/
inductive Origin : List CtxCall → List CtxCall → HashMap String → Prop
  | rejected {body : Bytes} {status : UInt16} {msg : String} (h : req.body = .ok body)
      (hrej : (requestPhase L srcs peer req body vm).ctx.rejected = some (status, msg)) :
      Origin (requestPhase L srcs peer req body vm).calls [] errorHeaders
  | unassembled {body : Bytes} {target e : String} {up : UpstreamRequest} {resp : UpstreamResponse}
      (h : Routed L srcs peer req vm pool body target)
      (hbuild : upstreamRequest L srcs peer req body vm http target = .ok up)
      (hsend : http.send up = .ok resp)
      (hfinal : finalResponse http (responsePhase L srcs peer req body vm resp).ctx resp.body =
        .error e) :
      Origin (earlierCalls L srcs peer req body vm ++
        (responsePhase L srcs peer req body vm resp).calls) [] errorHeaders
  | assembled {body : Bytes} {target : String} {up : UpstreamRequest} {resp : UpstreamResponse}
      {r : Response} (h : Routed L srcs peer req vm pool body target)
      (hbuild : upstreamRequest L srcs peer req body vm http target = .ok up)
      (hsend : http.send up = .ok resp)
      (hfinal : finalResponse http (responsePhase L srcs peer req body vm resp).ctx resp.body =
        .ok r) :
      Origin (earlierCalls L srcs peer req body vm)
        (responsePhase L srcs peer req body vm resp).calls (headerMap host resp.headers)

variable {L http srcs peer req vm pool} {counters : Counters} {dropped kept : List CtxCall}
  {base : HashMap String} {a : Response}

theorem Origin.lookup (h : Origin L http srcs peer req vm pool dropped kept base)
    (ha : serve (handleRequest L http srcs peer req vm pool counters) = .ok a) (k : String) :
    a.headers.lookup k = (lastSome (resWrite host k) kept).or (base.lookup k) := by
  cases h with
  | rejected h hrej =>
    rename_i body status msg
    have hcourse : Course L http srcs peer req vm pool counters _ := .rejected h hrej
    rw [hcourse.eq] at ha
    have herr : errorResponse status msg = .ok a := by
      simp only [serve] at ha
      split at ha
      · rename_i e he
        exact absurd he (errorResponse_ne_err status msg e)
      · exact ha
    rw [errorResponse_headers herr]
    rfl
  | unassembled h hbuild hsend hfinal =>
    have hcourse : Course L http srcs peer req vm pool counters _ :=
      .unassembled h hbuild hsend hfinal
    rw [hcourse.eq] at ha
    rw [errorResponse_headers ha]
    rfl
  | assembled h hbuild hsend hfinal =>
    have hcourse : Course L http srcs peer req vm pool counters _ := .answered h hbuild hsend hfinal
    rw [hcourse.eq] at ha
    obtain rfl := Outcome.ok.inj ha
    rw [finalResponse_ok hfinal]
    dsimp only
    rw [responsePhase_ctx, runAll_resHeader]
    rfl

/-- For every header that the calls set, the answer has the value set last. -/
def Carries (host : Host) (calls : List CtxCall) (a : Response) : Prop :=
  ∀ k v, lastSome (resWrite host k) calls = some v → a.headers.lookup k = some v

/-- Nothing that plugins set is lost exactly if the headers that are dropped are set again by
a kept call, or are there with the same value anyway. -/
theorem carries_iff (h : Origin L http srcs peer req vm pool dropped kept base)
    (ha : serve (handleRequest L http srcs peer req vm pool counters) = .ok a) :
    Carries host (dropped ++ kept) a ↔
      ∀ k v, lastSome (resWrite host k) dropped = some v →
        lastSome (resWrite host k) kept = none → base.lookup k = some v := by
  constructor
  · intro hcarries k v hdropped hkept
    have hlast : lastSome (resWrite host k) (dropped ++ kept) = some v := by
      rw [lastSome_append, hkept, hdropped]
      rfl
    have hk := hcarries k v hlast
    rw [h.lookup ha k, hkept] at hk
    exact hk
  · intro hbase k v hlast
    rw [h.lookup ha k]
    rw [lastSome_append] at hlast
    cases hkept : lastSome (resWrite host k) kept with
    | some w =>
      rw [hkept] at hlast
      exact hlast
    | none =>
      rw [hkept] at hlast
      exact hbase k v hlast hkept

end Origin

section Lost
open Plugins Authorization

/-- The answer to a rejected request, or to one with an upstream's answer, has every header
that the plugins set. -/
def HeadersCarried : Prop :=
  ∀ (host : Host) (Src Fn Heap : Type) (L : Interpreter host Src Fn Heap) (http : Http)
    (srcs : Hook → PluginSources Src) (peer : String) (req : Request) (vm : Vm Fn Heap)
    (pool : UpstreamPool) (counters : Counters) (dropped kept : List CtxCall)
    (base : HashMap String) (a : Response), Origin L http srcs peer req vm pool dropped kept base →
    serve (handleRequest L http srcs peer req vm pool counters) = .ok a →
    Carries host (dropped ++ kept) a

def basicRequest : Request :=
  ⟨"GET", "/api/v1/data", none, [("authorization", utf8 "Basic eDp5")], .ok []⟩

def basicHandled : Handled Closure Heap :=
  handleRequest (shippedLua Host.plain) Http.down (fun _ => shippedSources) "127.0.0.1" basicRequest
    newVm FailClosed.plainPool ∅

def basicCalls : List CtxCall :=
  (requestPhase (shippedLua Host.plain) (fun _ => shippedSources) "127.0.0.1" basicRequest []
    newVm).calls

theorem basic_origin : Origin (shippedLua Host.plain) Http.down (fun _ => shippedSources) "127.0.0.1"
    basicRequest newVm FailClosed.plainPool basicCalls [] errorHeaders := by
  have hrej : (requestPhase (shippedLua Host.plain) (fun _ => shippedSources) "127.0.0.1"
      basicRequest [] newVm).ctx.rejected = some (401, "Unauthorized: not bearer token") := by
    decide +kernel
  exact .rejected rfl hrej

theorem basic_answer : ∃ a, serve basicHandled = .ok a := by
  have hsome : (response (serve basicHandled)).isSome := by decide +kernel
  obtain ⟨a, ha⟩ := Option.isSome_iff_exists.mp hsome
  exact ⟨a, response_eq_some.mp ha⟩

/-- What became of the headers set for it. -/
theorem basic_carries : ∃ a, serve basicHandled = .ok a ∧
    (Carries Host.plain (basicCalls ++ []) a ↔
      ∀ k v, lastSome (resWrite Host.plain k) basicCalls = some v →
        lastSome (resWrite Host.plain k) [] = none → errorHeaders.lookup k = some v) := by
  obtain ⟨a, ha⟩ := basic_answer
  exact ⟨a, ha, carries_iff basic_origin ha⟩

/-- The `www-authenticate` that `auth.lua` sets never reaches the client. -/
theorem challenge_lost : ¬ HeadersCarried := by
  intro h
  obtain ⟨a, ha⟩ := basic_answer
  have hcarries := h Host.plain Plugin Closure Heap (shippedLua Host.plain) Http.down
    (fun _ => shippedSources) "127.0.0.1" basicRequest newVm FailClosed.plainPool ∅ _ _ _ a
    basic_origin ha
  have hset : lastSome (resWrite Host.plain "www-authenticate") (basicCalls ++ []) =
      some "Bearer realm=\"proxy\"" := by decide +kernel
  have hgot := hcarries "www-authenticate" _ hset
  rw [basic_origin.lookup ha] at hgot
  exact absurd hgot (by decide)

end Lost

end LuaProxy.ResponseHeaders
