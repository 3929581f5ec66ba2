import LuaProxy.HeaderCase

/-! One exchange through the shipped pipeline, whole: what leaves for the upstream, and what the
client gets for the upstream's answer. -/
namespace LuaProxy.Exchange
open Text Lua Context HookMonad Engine Upstream Handler CtxWrites RequestCourse Plugins PluginCalls
  ShippedPipeline HookCalls ShippedRun IdentityHeaders HeaderCase

section Hook
variable {host : Host}

/-- The response headers `transform.lua` sets, in order. -/
def answerHeaders (origin reqId : Option String) : List (String × String) :=
  [("x-proxy", "rust-lua-proxy/0.1"), ("x-frame-options", "DENY"),
    ("x-content-type-options", "nosniff"), ("referrer-policy", "strict-origin-when-cross-origin")] ++
  (match origin with
    | some origin => [("access-control-allow-origin", origin), ("vary", "Origin")]
    | none => []) ++
  (match reqId with
    | some reqId => [("x-request-id", reqId)]
    | none => []) ++
  [("server", "proxy")]

def setAll (headers : List (String × String)) : List CtxCall :=
  headers.map fun e => .setResHeader e.1 e.2

def answerCalls (host : Host) (ctx : RequestCtx) : List CtxCall :=
  setAll (answerHeaders (ctx.reqHeader host "origin") (ctx.getVar "request_id"))

theorem runAll_setAll {α : Type} (look : RequestCtx → α)
    (hlook : ∀ ctx k v, look (CtxCall.run host ctx (.setResHeader k v)) = look ctx) (ctx : RequestCtx)
    (headers : List (String × String)) : look (CtxCall.runAll host ctx (setAll headers)) = look ctx := by
  induction headers generalizing ctx with
  | nil => rfl
  | cons e headers ih => exact (ih _).trans (hlook ctx e.1 e.2)

theorem answerCalls_again (ctx : RequestCtx) :
    answerCalls host (CtxCall.runAll host ctx (answerCalls host ctx)) = answerCalls host ctx :=
  runAll_setAll (answerCalls host) (fun _ _ _ => rfl) ctx _

theorem transformResponse_calls (host : Host) (vm : Vm Closure Heap) (ctx : RequestCtx) :
    (transformResponse host vm ctx).calls = answerCalls host ctx := by
  have hread : ∀ (k v : String) (ctx : RequestCtx),
      (CtxCall.run host ctx (.setResHeader k v)).reqHeader host "origin" = ctx.reqHeader host "origin" ∧
        (CtxCall.run host ctx (.setResHeader k v)).getVar "request_id" = ctx.getVar "request_id" :=
    fun _ _ _ => ⟨rfl, rfl⟩
  cases horigin : ctx.reqHeader host "origin" with
  | none =>
    cases hid : ctx.getVar "request_id" with
    | none =>
      simp [transformResponse, answerCalls, answerHeaders, setAll, horigin, hid, hread, bind,
        HookM.bind, HookM.read, HookM.call, Ran.vm, pure, HookM.pure]
    | some reqId =>
      simp [transformResponse, answerCalls, answerHeaders, setAll, horigin, hid, hread, bind,
        HookM.bind, HookM.read, HookM.call, Ran.vm, pure, HookM.pure]
  | some origin =>
    cases hid : ctx.getVar "request_id" with
    | none =>
      simp [transformResponse, answerCalls, answerHeaders, setAll, horigin, hid, hread, bind,
        HookM.bind, HookM.read, HookM.call, Ran.vm, pure, HookM.pure]
    | some reqId =>
      simp [transformResponse, answerCalls, answerHeaders, setAll, horigin, hid, hread, bind,
        HookM.bind, HookM.read, HookM.call, Ran.vm, pure, HookM.pure]

end Hook

section Phase
variable {host : Host}

theorem exec_onResponse (name : String) (src : Plugin) {vm : Vm Closure Heap} (ctx : RequestCtx)
    (hvm : vm.global .onResponse = some .transformResponse) :
    (((shippedLua host).exec name src vm ctx).vm vm).global .onResponse = some .transformResponse := by
  cases src with
  | transform => rfl
  | _ => exact hvm

theorem called_keeps (fn : Closure) (vm : Vm Closure Heap) (ctx : RequestCtx) {hook : Hook}
    {fn' : Closure} (hvm : vm.global hook = some fn') :
    (((shippedLua host).call fn vm ctx).vm vm).global hook = some fn' := by
  change (((shippedLua host).call fn vm ctx).assigned hook).getD (vm.global hook) = some fn'
  rw [call_assigned, hvm]
  rfl

/-- Every round calls the hook of `transform.lua`, and it does the same each time. -/
theorem onResponse_calls (names : List String)
    (hnames : ∀ name ∈ names, (shippedSources.sources.lookup name).isSome) (vm : Vm Closure Heap)
    (ctx : RequestCtx) (hvm : vm.global .onResponse = some .transformResponse) :
    (runHooks (shippedLua host) .onResponse (fun _ _ => (none : Option Empty)) shippedSources.sources
      names vm ctx).calls = names.flatMap fun _ => answerCalls host ctx := by
  induction names generalizing vm ctx with
  | nil => rfl
  | cons name names ih =>
    obtain ⟨src, hsrc⟩ := Option.isSome_iff_exists.mp (hnames name (by simp))
    have hbound := @exec_onResponse host name src vm ctx hvm
    have hv : visit (shippedLua host) .onResponse shippedSources.sources name vm ctx =
        .called ((shippedLua host).exec name src vm ctx) .transformResponse
          (transformResponse host (((shippedLua host).exec name src vm ctx).vm vm) ctx) := by
      have hresult : ((shippedLua host).exec name src vm ctx).result = .ok () := by
        cases src <;> rfl
      simp only [visit, hsrc, hresult, hbound, exec_calls, CtxCall.runAll_nil]
      rfl
    have hround : (visit (shippedLua host) .onResponse shippedSources.sources name vm ctx).calls =
        answerCalls host ctx := by
      rw [hv, Found.calls, exec_calls, List.nil_append, transformResponse_calls]
    have hafter : ((visit (shippedLua host) .onResponse shippedSources.sources name vm ctx).vm
        vm).global .onResponse = some .transformResponse := by
      rw [hv]
      exact @called_keeps host .transformResponse _ ctx .onResponse _ hbound
    have hrest := ih (fun n hn => hnames n (by simp [hn])) _
      (CtxCall.runAll host ctx (answerCalls host ctx)) hafter
    rw [answerCalls_again] at hrest
    simp only [runHooks, hround, Option.bind_fun_none, PhaseRun.calls, List.flatMap_cons]
    exact congrArg _ hrest

theorem transform_binds {β : Type} (hook : Hook) (stop : Except LuaError Value → RequestCtx → Option β)
    (vm : Vm Closure Heap) (ctx : RequestCtx) :
    (runHooks (shippedLua host) hook stop shippedSources.sources ["transform.lua"] vm
      ctx).vm.global .onResponse = some .transformResponse := by
  have hbound : (((shippedLua host).exec "transform.lua" .transform vm ctx).vm vm).global .onResponse =
      some .transformResponse := rfl
  rw [(runHooks_single (shippedLua host) hook stop _ _ vm ctx).2, visit, source_transform]
  dsimp only
  split
  · exact hbound
  · split
    · exact hbound
    · exact called_keeps _ _ _ hbound

theorem onTransform_bound (vm : Vm Closure Heap) (ctx : RequestCtx) :
    (runOnTransform (shippedLua host) shippedSources vm ctx).vm.global .onResponse =
      some .transformResponse := by
  have hphase : runOnTransform (shippedLua host) shippedSources vm ctx = runHooks (shippedLua host)
    .onTransform _ _ (["ip_filter.lua", "rate_limit.lua", "auth.lua", "authz.lua"] ++
      ["transform.lua"]) vm ctx := rfl
  rcases runHooks_append (shippedLua host) .onTransform (fun _ _ => (none : Option Empty))
    shippedSources.sources ["ip_filter.lua", "rate_limit.lua", "auth.lua", "authz.lua"]
    ["transform.lua"] vm ctx with ⟨hstopped, -⟩ | ⟨-, hp⟩
  · exact absurd (Subsingleton.elim _ _) hstopped
  · rw [hphase, hp]
    exact transform_binds .onTransform _ _ _

end Phase

section Headers
variable {host : Host}

def headerOf (headers : List (String × String)) (k : String) : Option String :=
  lastSome (fun e => if e.1 = k then some e.2 else none) headers

def identityHeaders (userId role : Option String) (reqId : String) : List (String × String) :=
  (match userId with
    | some userId => [("x-user-id", userId), ("x-user-role", role.getD "anonymous")]
    | none => []) ++
  [("authorization", ""), ("x-api-key", ""), ("x-request-id", reqId)]

theorem lastSome_repeat {α γ : Type} (f : γ → Option α) (cs : List γ) {names : List String}
    (h : names ≠ []) : lastSome f (names.flatMap fun _ => cs) = lastSome f cs := by
  induction names with
  | nil => exact absurd rfl h
  | cons name names ih =>
    rw [List.flatMap_cons, lastSome_append]
    cases names with
    | nil => rfl
    | cons name' names =>
      rw [ih (by simp)]
      cases lastSome f cs <;> rfl

theorem setAll_flatMap (headers : List (String × String)) (names : List String) :
    setAll (names.flatMap fun _ => headers) = names.flatMap fun _ => setAll headers := by
  rw [setAll, List.map_flatMap]
  rfl

theorem setAll_resWrite {headers : List (String × String)}
    (h : ∀ e ∈ headers, host.toLowercase e.1 = e.1) (k : String) :
    lastSome (resWrite host k) (setAll headers) = headerOf headers k := by
  induction headers with
  | nil => rfl
  | cons e headers ih =>
    have hrest := ih fun e' he' => h e' (by simp [he'])
    have hname := h e (by simp)
    simp only [setAll, List.map_cons, lastSome_cons, headerOf] at hrest ⊢
    rw [hrest, resWrite, hname]

theorem answerHeaders_lower (hlower : AsciiLower host) (origin reqId : Option String) :
    ∀ e ∈ answerHeaders origin reqId, host.toLowercase e.1 = e.1 := by
  have hplain : ∀ s ∈ ["x-proxy", "x-frame-options", "x-content-type-options", "referrer-policy",
      "access-control-allow-origin", "vary", "x-request-id", "server"],
      Ascii (utf8 s) ∧ s.toLower = s := by decide +kernel
  have hname : ∀ e ∈ answerHeaders origin reqId, e.1 ∈ ["x-proxy", "x-frame-options",
      "x-content-type-options", "referrer-policy", "access-control-allow-origin", "vary",
      "x-request-id", "server"] := by
    cases origin <;> cases reqId <;> simp [answerHeaders]
  intro e he
  obtain ⟨hascii, hlow⟩ := hplain e.1 (hname e he)
  rw [hlower e.1 hascii, hlow]

end Headers

section Exchange
variable (host : Host) (history : List Turn) (t : Turn)

/-- A header as it leaves for the upstream, for a client known by this id and role. -/
def sentHeader (userId role : Option String) (k : String) : Option String :=
  if k = "x-proxy" then some "rust-lua-proxy/0.1"
  else if k = "x-forwarded-for" then some (clientAddress (headerMap host t.req.headers) t.peer)
  else (headerOf (identityHeaders userId role (t.uuids 0)) k).or (clientHeader host t.req k)

def answerHeader (resp : UpstreamResponse) (k : String) : Option String :=
  (headerOf (answerHeaders (clientHeader host t.req "origin") (some (t.uuids 0))) k).or
    ((headerMap host resp.headers).lookup k)

/-- All that an exchange is: the request that left, and the answer to the client. -/
structure Exchanged (up : UpstreamRequest) (resp : UpstreamResponse) (a : Response) : Prop where
  method : up.method = t.req.method
  uri : ∃ target, (t.handle host (vmAfter host history)).target = some target ∧
    up.uri = trimEndSlashes target ++ t.req.path
  body : t.req.body = .ok up.body
  headers : ∀ k, up.headers.lookup k = sentHeader host t (established host history t "user_id")
    (established host history t "role") k
  status : a.status = resp.status
  answerBody : a.body =
    if host.fromUtf8Lossy resp.body = "" then resp.body else utf8 (host.fromUtf8Lossy resp.body)
  answerHeaders : ∀ k, a.headers.lookup k = answerHeader host t resp k

variable {host history t} {body : Bytes} {rate login allow : List CtxCall}

theorem upstream_sent (hlower : AsciiLower host) (hbody : t.req.body = .ok body)
    (h : Forwarding host history t body rate login allow) (k : String) :
    (upstreamHeaders (shippedLua host) (fun _ => shippedSources) t.peer t.req body
        (t.enter (vmAfter host history))).lookup k =
      sentHeader host t (established host history t "user_id") (established host history t "role") k := by
  unfold sentHeader
  split_ifs with hp hf
  · subst hp
    simp [upstreamHeaders]
  · subst hf
    simp [upstreamHeaders, AList.lookup_insert_ne]
  · rw [upstream_lookup hlower h hf hp, established_eq hbody h (by decide),
      established_eq hbody h (by decide)]
    simp only [transformHeaders, found_login h]
    rfl

theorem origin_unset (ctx : RequestCtx) (reqId : String) :
    lastSome (fun e : String × String => if e.1 = "origin" then some e.2 else none)
      (transformHeaders ctx reqId) = none := by
  cases hu : ctx.getVar "user_id" <;> simp [transformHeaders, hu, lastSome_cons]

theorem requestId_stored (ctx : RequestCtx) (reqId : String) :
    lastSome (varWrite "request_id") (transformCalls ctx reqId) = some reqId := by
  rw [transformCalls, lastSome_append]
  rfl

theorem response_reads (hlower : AsciiLower host)
    (hidem : ∀ s, host.toLowercase (host.toLowercase s) = host.toLowercase s)
    (h : Forwarding host history t body rate login allow) (resp : UpstreamResponse) :
    answerCalls host (answeredCtx host (transformPhase (shippedLua host) (fun _ => shippedSources) t.peer
        t.req body (t.enter (vmAfter host history))).ctx resp) =
      setAll (answerHeaders (clientHeader host t.req "origin") (some (t.uuids 0))) := by
  have hreached := transformPhase_reached (shippedLua host) (fun _ => shippedSources) t.peer t.req
    (t.enter (vmAfter host history)) body
  have hctx := transformPhase_ctx (shippedLua host) (fun _ => shippedSources) t.peer t.req body
    (t.enter (vmAfter host history))
  generalize (transformPhase (shippedLua host) (fun _ => shippedSources) t.peer t.req body
    (t.enter (vmAfter host history))).ctx = ctx at hreached hctx ⊢
  have horigin : (answeredCtx host ctx resp).reqHeader host "origin" = clientHeader host t.req "origin" := by
    have htable : (answeredCtx host ctx resp).reqHeader host "origin" = ctx.reqHeaders.lookup "origin" :=
      headersTable_lookup (hreached.lowerCase hidem).req "origin"
    rw [htable, hctx, runAll_reqHeader, earlier_reqWrite h, transform_reqWrite _ _ hlower]
    rw [origin_unset, Option.none_or, clientHeader]
    rfl
  have hid : (answeredCtx host ctx resp).getVar "request_id" = some (t.uuids 0) := by
    have hvar : (answeredCtx host ctx resp).getVar "request_id" = ctx.getVar "request_id" := rfl
    have hroute : lastSome (varWrite "request_id") [.upstream (routeName t.req.path)] = none := rfl
    rw [hvar, hctx, runAll_getVar, h.earlier, h.calls, lastSome_append, lastSome_append,
      requestId_stored, hroute, Option.none_or, Option.some_or, Option.some_or]
  rw [answerCalls, horigin, hid]

theorem response_calls (hlower : AsciiLower host)
    (hidem : ∀ s, host.toLowercase (host.toLowercase s) = host.toLowercase s)
    (h : Forwarding host history t body rate login allow) (resp : UpstreamResponse) :
    (responsePhase (shippedLua host) (fun _ => shippedSources) t.peer t.req body
      (t.enter (vmAfter host history)) resp).calls =
      shippedSources.pipeline.flatMap fun _ => setAll (answerHeaders (clientHeader host t.req "origin")
        (some (t.uuids 0))) := by
  rw [← response_reads hlower hidem h resp]
  exact onResponse_calls _ (by decide) _ _ (onTransform_bound _ _)

theorem answer_header (hlower : AsciiLower host)
    (hidem : ∀ s, host.toLowercase (host.toLowercase s) = host.toLowercase s)
    (h : Forwarding host history t body rate login allow) (resp : UpstreamResponse) (k : String) :
    (responsePhase (shippedLua host) (fun _ => shippedSources) t.peer t.req body
      (t.enter (vmAfter host history)) resp).ctx.resHeaders.lookup k = answerHeader host t resp k := by
  have hctx := responsePhase_ctx (shippedLua host) (fun _ => shippedSources) t.peer t.req body
    (t.enter (vmAfter host history)) resp
  rw [response_calls hlower hidem h resp] at hctx
  rw [hctx, runAll_resHeader, lastSome_repeat _ _ (by decide),
    setAll_resWrite (answerHeaders_lower hlower _ _), answerHeader]
  rfl

def pageAnswer : UpstreamResponse := ⟨200, [("server", utf8 "nginx"), ("etag", utf8 "7")], utf8 "ok"⟩

def originTurn : Turn :=
  { firstTurn "/public/page" [("origin", utf8 "https://example.org")] with http := answering pageAnswer }

end Exchange

end LuaProxy.Exchange
