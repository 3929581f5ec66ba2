import LuaProxy.Engine
import LuaProxy.Upstream

/-! `handler.rs`: one HTTP request through the plugin phases and on to an upstream. -/
namespace LuaProxy.Handler
open Text Lua Context HookMonad Engine Upstream

/-- A request as hyper delivers it: headers are name and value pairs in order, the body
may fail to arrive. -/
structure Request where
  method : String
  path : String
  query : Option String
  headers : List (String × Bytes)
  body : Except String Bytes

structure UpstreamRequest where
  method : String
  uri : String
  headers : HashMap String
  body : Bytes

structure UpstreamResponse where
  status : UInt16
  headers : List (String × Bytes)
  body : Bytes

structure Response where
  status : UInt16
  headers : HashMap String
  body : Bytes
  deriving DecidableEq

/-- The HTTP libraries: which URLs parse, which headers a builder takes, and what the
upstream answers to a request. -/
structure Http where
  uriOk : String → Bool
  headerOk : String → String → Bool
  send : UpstreamRequest → Except String UpstreamResponse

/-- Libraries that take everything, and an upstream that is down. -/
def Http.down : Http where
  uriOk _ := true
  headerOk _ _ := true
  send _ := .error "connection refused"

/-- `Result<Response>`, or a panic. -/
inductive Outcome
  | ok (resp : Response)
  | err (e : String)
  | panic
  deriving DecidableEq

/-- `HeaderValue::to_str`: visible ASCII and tabs only. -/
def toStr (v : Bytes) : Option String :=
  if v.all fun b => (32 ≤ b && b < 127) || b == 9 then fromUtf8 v else none

/-- The header loop of both directions: later values of a name replace earlier ones. -/
def headerMap (host : Host) (headers : List (String × Bytes)) : HashMap String :=
  headers.foldl
    (fun m h =>
      match toStr h.2 with
      | some val => m.insert (host.toLowercase h.1) val
      | none => m) ∅

/-- The address plugins see: `x-real-ip`, else `x-forwarded-for`, else the peer. -/
def clientAddress (headers : HashMap String) (peer : String) : String :=
  match (headers.lookup "x-real-ip").or (headers.lookup "x-forwarded-for") with
  | some h => h
  | none => peer

/-- `Response::builder().status(..)` takes 100 to 999. -/
def statusOk (status : UInt16) : Bool := 100 ≤ status && status ≤ 999

/-- `error_response`, whose `unwrap` panics when the builder failed. -/
def errorResponse (status : UInt16) (msg : String) : Outcome :=
  if statusOk status then
    .ok ⟨status, AList.insert "content-type" "application/json" ∅,
      utf8 ("\x7b\"error\":\"" ++ msg ++ "\",\"status\":" ++ toString status.toNat ++ "\x7d")⟩
  else .panic

def trimEndSlashes (url : String) : String :=
  String.ofList (url.toList.reverse.dropWhile (· == '/')).reverse

/-- The request `forward_request` builds, unless the URL or a header is refused. -/
def buildRequest (http : Http) (method url : String) (headers : HashMap String) (body : Bytes) :
    Except String UpstreamRequest :=
  if http.uriOk url then
    if headers.entries.all fun e => http.headerOk e.1 e.2 then .ok ⟨method, url, headers, body⟩
    else .error "invalid header"
  else .error "invalid uri"

/-- The counters of `proxy_requests_total` by label. -/
abbrev Counters := HashMap ℕ

def Counters.inc (counters : Counters) (label : String) : Counters :=
  counters.insert label ((counters.lookup label).getD 0 + 1)

/-- What handling a request did: the response, the URL it was forwarded to, the request
that left, and the state afterwards. -/
structure Handled (Fn Heap : Type) where
  outcome : Outcome
  target : Option String
  sent : Option UpstreamRequest
  vm : Vm Fn Heap
  pool : UpstreamPool
  counters : Counters

def Handled.Forwarded {Fn Heap : Type} (r : Handled Fn Heap) : Prop := r.target.isSome

instance {Fn Heap : Type} (r : Handled Fn Heap) : Decidable r.Forwarded :=
  inferInstanceAs (Decidable (r.target.isSome = true))

section Handle
variable {host : Host} {Src Fn Heap : Type} (L : Interpreter host Src Fn Heap) (http : Http)

def requestCtx (host : Host) (req : Request) (peer : String) (body : Bytes) : RequestCtx :=
  let headers := headerMap host req.headers
  RequestCtx.new req.method req.path headers (host.fromUtf8Lossy body) (clientAddress headers peer)

/-- Assembly of the final response from the context `on_response` left. -/
def finalResponse (ctx : RequestCtx) (resBody : Bytes) : Except String Response :=
  if statusOk ctx.resStatus && ctx.resHeaders.entries.all fun e => http.headerOk e.1 e.2 then
    .ok ⟨ctx.resStatus, ctx.resHeaders, if ctx.resBody = "" then resBody else utf8 ctx.resBody⟩
  else .error "invalid response"

/-- Steps 6 to 8: forward to the chosen target, run `on_response`, answer. -/
def forward (srcs : Hook → PluginSources Src) (req : Request) (body : Bytes) (ip target : String)
    (vm : Vm Fn Heap) (ctx : RequestCtx) (pool : UpstreamPool) (counters : Counters) :
    Handled Fn Heap :=
  let url := trimEndSlashes target ++ req.path
  let headers := (ctx.reqHeaders.insert "x-forwarded-for" ip).insert "x-proxy" "rust-lua-proxy/0.1"
  match buildRequest http req.method url headers body with
  | .error _ => ⟨errorResponse 502 "Bad Gateway", some target, none, vm, pool, counters⟩
  | .ok up =>
    match http.send up with
    | .error _ => ⟨errorResponse 502 "Bad Gateway", some target, some up, vm, pool, counters⟩
    | .ok resp =>
      let ctx := { ctx with
        resStatus := resp.status
        resHeaders := headerMap host resp.headers
        resBody := host.fromUtf8Lossy resp.body }
      let p := runOnResponse L (srcs .onResponse) vm ctx
      match finalResponse http p.ctx resp.body with
      | .ok r => ⟨.ok r, some target, some up, p.vm, pool, counters⟩
      | .error e => ⟨.err e, some target, some up, p.vm, pool, counters⟩

/-- `handle_request`. Each phase takes the read lock for itself, so `srcs` gives the
sources every phase finds. -/
def handleRequest (srcs : Hook → PluginSources Src) (peer : String) (req : Request)
    (vm : Vm Fn Heap) (pool : UpstreamPool) (counters : Counters) : Handled Fn Heap :=
  let counters := counters.inc req.method
  match req.body with
  | .error e => ⟨.err e, none, none, vm, pool, counters⟩
  | .ok body =>
    let ip := clientAddress (headerMap host req.headers) peer
    let p₁ := runOnRequest L (srcs .onRequest) vm (requestCtx host req peer body)
    match p₁.ctx.rejected with
    | some (status, msg) =>
      ⟨errorResponse status msg, none, none, p₁.vm, pool, counters.inc "rejected"⟩
    | none =>
      let p₂ := runOnRoute L (srcs .onRoute) p₁.vm p₁.ctx
      let upstreamName := (routeOf p₂).getD "default"
      let p₃ := runOnTransform L (srcs .onTransform) p₂.vm p₂.ctx
      match pool.nextUrl host upstreamName (some ip) with
      | (none, pool) =>
        ⟨errorResponse 503 "Service Unavailable", none, none, p₃.vm, pool, counters⟩
      | (some target, pool) =>
        forward L http srcs req body ip target p₃.vm p₃.ctx pool counters

/-- What the connection's service answers: an error of the handler becomes a 500. -/
def serve (r : Handled Fn Heap) : Outcome :=
  match r.outcome with
  | .err _ => errorResponse 500 "Internal Server Error"
  | o => o

@[simp] theorem forward_target (srcs : Hook → PluginSources Src) (req : Request) (body : Bytes)
    (ip target : String) (vm : Vm Fn Heap) (ctx : RequestCtx) (pool : UpstreamPool)
    (counters : Counters) :
    (forward L http srcs req body ip target vm ctx pool counters).target = some target := by
  simp only [forward]
  split
  · rfl
  · split
    · rfl
    · split <;> rfl

/-- A request goes on to an upstream exactly when its body arrived, `on_request` left the
context unrejected and the pool had a target. -/
theorem forwarded_iff (srcs : Hook → PluginSources Src) (peer : String) (req : Request)
    (vm : Vm Fn Heap) (pool : UpstreamPool) (counters : Counters) :
    (handleRequest L http srcs peer req vm pool counters).Forwarded ↔
      ∃ body, req.body = .ok body ∧
        let p₁ := runOnRequest L (srcs .onRequest) vm (requestCtx host req peer body)
        let p₂ := runOnRoute L (srcs .onRoute) p₁.vm p₁.ctx
        p₁.ctx.isRejected = false ∧
          (pool.nextUrl host ((routeOf p₂).getD "default")
            (some (clientAddress (headerMap host req.headers) peer))).1.isSome := by
  simp only [Handled.Forwarded, handleRequest, RequestCtx.isRejected]
  cases hb : req.body with
  | error e => simp
  | ok body =>
    simp only [Except.ok.injEq, exists_eq_left']
    generalize hp : runOnRequest L (srcs .onRequest) vm (requestCtx host req peer body) = p₁
    cases hr : p₁.ctx.rejected with
    | some r => simp
    | none =>
      simp only [Option.isSome_none, true_and]
      split
      · rename_i h
        simp [h]
      · rename_i h
        simp [h]

end Handle

end LuaProxy.Handler
