import LuaProxy.Handler
import LuaProxy.CtxWrites

/-! The course of one request through `handle_request`: the phases that run, in order, and
the way out that is taken. What the handler does is said here once; results about it go
through the ways out. -/
namespace LuaProxy.RequestCourse
open Text Lua Context HookMonad Engine Upstream Handler CtxWrites

section Phases
variable {host : Host} {Src Fn Heap : Type} (L : Interpreter host Src Fn Heap)
  (srcs : Hook → PluginSources Src) (peer : String) (req : Request) (body : Bytes) (vm : Vm Fn Heap)

def requestPhase : PhaseRun Fn Heap Unit :=
  runOnRequest L (srcs .onRequest) vm (requestCtx host req peer body)

def routePhase : PhaseRun Fn Heap String :=
  let p := requestPhase L srcs peer req body vm
  runOnRoute L (srcs .onRoute) p.vm p.ctx

def transformPhase : PhaseRun Fn Heap Empty :=
  let p := routePhase L srcs peer req body vm
  runOnTransform L (srcs .onTransform) p.vm p.ctx

/-- The context with an upstream's answer in it, as `on_response` finds it. -/
def answeredCtx (host : Host) (ctx : RequestCtx) (resp : UpstreamResponse) : RequestCtx :=
  { ctx with
    resStatus := resp.status
    resHeaders := headerMap host resp.headers
    resBody := host.fromUtf8Lossy resp.body }

def responsePhase (resp : UpstreamResponse) : PhaseRun Fn Heap Empty :=
  let p := transformPhase L srcs peer req body vm
  runOnResponse L (srcs .onResponse) p.vm (answeredCtx host p.ctx resp)

def chosen (pool : UpstreamPool) : Option String × UpstreamPool :=
  pool.nextUrl host ((routeOf (routePhase L srcs peer req body vm)).getD "default")
    (some (clientAddress (headerMap host req.headers) peer))

def upstreamHeaders : HashMap String :=
  ((transformPhase L srcs peer req body vm).ctx.reqHeaders.insert "x-forwarded-for"
    (clientAddress (headerMap host req.headers) peer)).insert "x-proxy" "rust-lua-proxy/0.1"

def upstreamRequest (http : Http) (target : String) : Except String UpstreamRequest :=
  buildRequest http req.method (trimEndSlashes target ++ req.path)
    (upstreamHeaders L srcs peer req body vm) body

/-- The `ctx` calls of the three phases before forwarding, in order. -/
def earlierCalls : List CtxCall :=
  (requestPhase L srcs peer req body vm).calls ++ (routePhase L srcs peer req body vm).calls ++
    (transformPhase L srcs peer req body vm).calls

theorem requestPhase_ctx : (requestPhase L srcs peer req body vm).ctx =
    CtxCall.runAll host (requestCtx host req peer body) (requestPhase L srcs peer req body vm).calls :=
  runHooks_ctx L _ _ _ _ _ _

theorem transformPhase_ctx : (transformPhase L srcs peer req body vm).ctx =
    CtxCall.runAll host (requestCtx host req peer body) (earlierCalls L srcs peer req body vm) := by
  have h₂ : (routePhase L srcs peer req body vm).ctx = CtxCall.runAll host
      (requestPhase L srcs peer req body vm).ctx (routePhase L srcs peer req body vm).calls :=
    runHooks_ctx L _ _ _ _ _ _
  have h₃ : (transformPhase L srcs peer req body vm).ctx = CtxCall.runAll host
      (routePhase L srcs peer req body vm).ctx (transformPhase L srcs peer req body vm).calls :=
    runHooks_ctx L _ _ _ _ _ _
  rw [h₃, h₂, requestPhase_ctx, earlierCalls, CtxCall.runAll_append, CtxCall.runAll_append]

theorem responsePhase_ctx (resp : UpstreamResponse) :
    (responsePhase L srcs peer req body vm resp).ctx =
      CtxCall.runAll host (answeredCtx host (transformPhase L srcs peer req body vm).ctx resp)
        (responsePhase L srcs peer req body vm resp).calls :=
  runHooks_ctx L _ _ _ _ _ _

/-- A header on its way to the upstream: what the plugins set last, or else what came. -/
theorem upstreamHeaders_lookup {h : String} (hf : h ≠ "x-forwarded-for") (hp : h ≠ "x-proxy") :
    (upstreamHeaders L srcs peer req body vm).lookup h =
      (lastSome (reqWrite host h) (earlierCalls L srcs peer req body vm)).or
        ((headerMap host req.headers).lookup h) := by
  have hstart : (requestCtx host req peer body).reqHeaders = headerMap host req.headers := rfl
  rw [upstreamHeaders, AList.lookup_insert_ne hp, AList.lookup_insert_ne hf, transformPhase_ctx,
    runAll_reqHeader, hstart]

end Phases

section Course
variable {host : Host} {Src Fn Heap : Type} (L : Interpreter host Src Fn Heap) (http : Http)
  (srcs : Hook → PluginSources Src) (peer : String) (req : Request) (vm : Vm Fn Heap)
  (pool : UpstreamPool) (counters : Counters)

/-- A request passed `on_request` with this body, and the pool gave it a target. -/
structure Routed (body : Bytes) (target : String) : Prop where
  arrived : req.body = .ok body
  passed : (requestPhase L srcs peer req body vm).ctx.rejected = none
  target : (chosen L srcs peer req body vm pool).1 = some target

/-- The ways out of `handle_request`. -/
inductive Course : Handled Fn Heap → Prop
  | unread {e : String} (h : req.body = .error e) :
      Course ⟨.err e, none, none, vm, pool, counters.inc req.method⟩
  | rejected {body : Bytes} {status : UInt16} {msg : String} (h : req.body = .ok body)
      (hrej : (requestPhase L srcs peer req body vm).ctx.rejected = some (status, msg)) :
      Course ⟨errorResponse status msg, none, none, (requestPhase L srcs peer req body vm).vm, pool,
        (counters.inc req.method).inc "rejected"⟩
  | noTarget {body : Bytes} (h : req.body = .ok body)
      (hpass : (requestPhase L srcs peer req body vm).ctx.rejected = none)
      (hnone : (chosen L srcs peer req body vm pool).1 = none) :
      Course ⟨errorResponse 503 "Service Unavailable", none, none,
        (transformPhase L srcs peer req body vm).vm, (chosen L srcs peer req body vm pool).2,
        counters.inc req.method⟩
  | unbuilt {body : Bytes} {target e : String}
      (h : Routed L srcs peer req vm pool body target)
      (hbuild : upstreamRequest L srcs peer req body vm http target = .error e) :
      Course ⟨errorResponse 502 "Bad Gateway", some target, none,
        (transformPhase L srcs peer req body vm).vm, (chosen L srcs peer req body vm pool).2,
        counters.inc req.method⟩
  | unanswered {body : Bytes} {target e : String} {up : UpstreamRequest}
      (h : Routed L srcs peer req vm pool body target)
      (hbuild : upstreamRequest L srcs peer req body vm http target = .ok up)
      (hsend : http.send up = .error e) :
      Course ⟨errorResponse 502 "Bad Gateway", some target, some up,
        (transformPhase L srcs peer req body vm).vm, (chosen L srcs peer req body vm pool).2,
        counters.inc req.method⟩
  | unassembled {body : Bytes} {target e : String} {up : UpstreamRequest} {resp : UpstreamResponse}
      (h : Routed L srcs peer req vm pool body target)
      (hbuild : upstreamRequest L srcs peer req body vm http target = .ok up)
      (hsend : http.send up = .ok resp)
      (hfinal : finalResponse http (responsePhase L srcs peer req body vm resp).ctx resp.body =
        .error e) :
      Course ⟨.err e, some target, some up, (responsePhase L srcs peer req body vm resp).vm,
        (chosen L srcs peer req body vm pool).2, counters.inc req.method⟩
  | answered {body : Bytes} {target : String} {up : UpstreamRequest} {resp : UpstreamResponse}
      {r : Response} (h : Routed L srcs peer req vm pool body target)
      (hbuild : upstreamRequest L srcs peer req body vm http target = .ok up)
      (hsend : http.send up = .ok resp)
      (hfinal : finalResponse http (responsePhase L srcs peer req body vm resp).ctx resp.body =
        .ok r) :
      Course ⟨.ok r, some target, some up, (responsePhase L srcs peer req body vm resp).vm,
        (chosen L srcs peer req body vm pool).2, counters.inc req.method⟩

/-- `handle_request` takes one of the ways out. -/
theorem handleRequest_course : Course L http srcs peer req vm pool counters
    (handleRequest L http srcs peer req vm pool counters) := by
  cases hbody : req.body with
  | error e =>
    simp only [handleRequest, hbody]
    exact .unread hbody
  | ok body =>
    simp only [handleRequest, hbody]
    split
    · rename_i status msg hrej
      exact .rejected hbody hrej
    · rename_i hpass
      split
      · rename_i pool' hc
        have hnone : (chosen L srcs peer req body vm pool).1 = none := congrArg Prod.fst hc
        have hpool : pool' = (chosen L srcs peer req body vm pool).2 := (congrArg Prod.snd hc).symm
        subst hpool
        exact .noTarget hbody hpass hnone
      · rename_i target pool' hc
        have htarget : (chosen L srcs peer req body vm pool).1 = some target := congrArg Prod.fst hc
        have hpool : pool' = (chosen L srcs peer req body vm pool).2 := (congrArg Prod.snd hc).symm
        subst hpool
        have h : Routed L srcs peer req vm pool body target := ⟨hbody, hpass, htarget⟩
        simp only [forward]
        split
        · rename_i e hbuild
          exact .unbuilt h hbuild
        · rename_i up hbuild
          split
          · rename_i e hsend
            exact .unanswered h hbuild hsend
          · rename_i resp hsend
            split
            · rename_i r hfinal
              exact .answered h hbuild hsend hfinal
            · rename_i e hfinal
              exact .unassembled h hbuild hsend hfinal

variable {L http srcs peer req vm pool counters} {r : Handled Fn Heap}

theorem handleRequest_routed {body : Bytes} {target : String}
    (h : Routed L srcs peer req vm pool body target) :
    handleRequest L http srcs peer req vm pool counters =
      forward L http srcs req body (clientAddress (headerMap host req.headers) peer) target
        (transformPhase L srcs peer req body vm).vm (transformPhase L srcs peer req body vm).ctx
        (chosen L srcs peer req body vm pool).2 (counters.inc req.method) := by
  have hpass := h.passed
  unfold requestPhase at hpass
  simp only [handleRequest, h.arrived, hpass]
  split
  · rename_i pool' hc
    exact absurd (h.target.symm.trans (congrArg Prod.fst hc)) (by simp)
  · rename_i target' pool' hc
    have htarget : target' = target :=
      Option.some.inj ((congrArg Prod.fst hc).symm.trans h.target)
    have hpool : pool' = (chosen L srcs peer req body vm pool).2 := (congrArg Prod.snd hc).symm
    rw [htarget, hpool]
    rfl

theorem Course.eq (h : Course L http srcs peer req vm pool counters r) :
    handleRequest L http srcs peer req vm pool counters = r := by
  cases h with
  | unread h => simp [handleRequest, h]
  | rejected h hrej =>
    simp only [requestPhase] at hrej ⊢
    simp [handleRequest, h, hrej]
  | noTarget h hpass hnone =>
    unfold requestPhase at hpass
    simp only [handleRequest, h, hpass]
    split
    · rename_i pool' hc
      have hpool := congrArg Prod.snd hc
      dsimp only at hpool
      rw [← hpool]
      rfl
    · rename_i target' pool' hc
      exact absurd (hnone.symm.trans (congrArg Prod.fst hc)) (by simp)
  | unbuilt h hbuild =>
    rw [handleRequest_routed h]
    simp only [upstreamRequest, upstreamHeaders] at hbuild
    simp only [forward, hbuild]
  | unanswered h hbuild hsend =>
    rw [handleRequest_routed h]
    simp only [upstreamRequest, upstreamHeaders] at hbuild
    simp only [forward, hbuild, hsend]
  | unassembled h hbuild hsend hfinal =>
    rw [handleRequest_routed h]
    simp only [upstreamRequest, upstreamHeaders] at hbuild
    simp only [responsePhase, answeredCtx] at hfinal ⊢
    simp only [forward, hbuild, hsend, hfinal]
  | answered h hbuild hsend hfinal =>
    rw [handleRequest_routed h]
    simp only [upstreamRequest, upstreamHeaders] at hbuild
    simp only [responsePhase, answeredCtx] at hfinal ⊢
    simp only [forward, hbuild, hsend, hfinal]

theorem Course.of_target (h : Course L http srcs peer req vm pool counters r) {target : String}
    (ht : r.target = some target) : ∃ body, Routed L srcs peer req vm pool body target ∧
      r.sent = (upstreamRequest L srcs peer req body vm http target).toOption := by
  cases h with
  | unbuilt h hbuild =>
    obtain rfl := Option.some.inj ht
    exact ⟨_, h, by rw [hbuild]; rfl⟩
  | unanswered h hbuild hsend =>
    obtain rfl := Option.some.inj ht
    exact ⟨_, h, by rw [hbuild]; rfl⟩
  | unassembled h hbuild hsend hfinal =>
    obtain rfl := Option.some.inj ht
    exact ⟨_, h, by rw [hbuild]; rfl⟩
  | answered h hbuild hsend hfinal =>
    obtain rfl := Option.some.inj ht
    exact ⟨_, h, by rw [hbuild]; rfl⟩
  | _ => simp at ht

theorem ok_of_toOption {ε α : Type} {x : Except ε α} {a : α} (h : x.toOption = some a) :
    x = .ok a := by
  cases x with
  | error e => simp [Except.toOption] at h
  | ok b => exact congrArg _ (Option.some.inj h)

theorem Course.of_sent (h : Course L http srcs peer req vm pool counters r) {up : UpstreamRequest}
    (hs : r.sent = some up) : ∃ body target, Routed L srcs peer req vm pool body target ∧
      r.target = some target ∧ upstreamRequest L srcs peer req body vm http target = .ok up := by
  have htarget : ∃ target, r.target = some target := by
    cases h with
    | unread h => simp at hs
    | rejected h hrej => simp at hs
    | noTarget h hpass hnone => simp at hs
    | _ => exact ⟨_, rfl⟩
  obtain ⟨target, ht⟩ := htarget
  obtain ⟨body, hrouted, hsent⟩ := h.of_target ht
  exact ⟨body, target, hrouted, ht, ok_of_toOption (hsent.symm.trans hs)⟩

/-- An upstream's answer that reached the client went through `on_response`. -/
theorem Course.of_answer (h : Course L http srcs peer req vm pool counters r) {up : UpstreamRequest}
    {resp : UpstreamResponse} {a : Response} (hs : r.sent = some up) (hsend : http.send up = .ok resp)
    (ha : r.outcome = .ok a) : ∃ body, req.body = .ok body ∧
      finalResponse http (responsePhase L srcs peer req body vm resp).ctx resp.body = .ok a := by
  cases h with
  | unanswered h hbuild hsend' =>
    obtain rfl := Option.some.inj hs
    rw [hsend'] at hsend
    simp at hsend
  | unassembled h hbuild hsend' hfinal => simp at ha
  | answered h hbuild hsend' hfinal =>
    obtain rfl := Option.some.inj hs
    rw [hsend'] at hsend
    obtain rfl := Except.ok.inj hsend
    obtain rfl := Outcome.ok.inj ha
    exact ⟨_, h.arrived, hfinal⟩
  | _ => simp at hs

theorem errorResponse_ne_err (status : UInt16) (msg e : String) :
    errorResponse status msg ≠ .err e := by
  unfold errorResponse
  split_ifs <;> simp

def response : Outcome → Option Response
  | .ok a => some a
  | _ => none

theorem response_eq_some {o : Outcome} {a : Response} : response o = some a ↔ o = .ok a := by
  cases o <;> simp [response]

theorem buildRequest_ok {method url : String} {headers : HashMap String} {body : Bytes}
    {up : UpstreamRequest} (h : buildRequest http method url headers body = .ok up) :
    up = ⟨method, url, headers, body⟩ := by
  unfold buildRequest at h
  split_ifs at h
  exact (Except.ok.inj h).symm

theorem finalResponse_ok {ctx : RequestCtx} {resBody : Bytes} {a : Response}
    (h : finalResponse http ctx resBody = .ok a) :
    a = ⟨ctx.resStatus, ctx.resHeaders, if ctx.resBody = "" then resBody else utf8 ctx.resBody⟩ := by
  unfold finalResponse at h
  split at h
  · exact (Except.ok.inj h).symm
  · simp at h

end Course

/-- Libraries that take everything, and an upstream that always gives one answer. -/
def answering (resp : UpstreamResponse) : Http where
  uriOk _ := true
  headerOk _ _ := true
  send _ := .ok resp

section Machines
variable {host : Host} {Src Fn Heap : Type} {L : Interpreter host Src Fn Heap} {http : Http}
  {srcs : Hook → PluginSources Src} {peer : String} {req : Request} {vm : Vm Fn Heap}
  {pool : UpstreamPool} {counters : Counters} {R : Vm Fn Heap → Vm Fn Heap → Prop}
  (hrefl : ∀ vm, R vm vm) (htrans : ∀ a b c, R a b → R b c → R a c)
  (hphase : ∀ {β : Type} (hook : Hook) (stop : Except LuaError Value → RequestCtx → Option β)
    (vm : Vm Fn Heap) ctx, R vm (runHooks L hook stop (srcs hook).sources (srcs hook).pipeline vm ctx).vm)

include hrefl htrans hphase

/-- What every phase keeps of the machine, the rest of the course keeps after `on_request`. -/
theorem Course.keeps {r : Handled Fn Heap} (h : Course L http srcs peer req vm pool counters r)
    {body : Bytes} (hb : req.body = .ok body) : R (requestPhase L srcs peer req body vm).vm r.vm := by
  have h₃ : ∀ body, R (requestPhase L srcs peer req body vm).vm (transformPhase L srcs peer req body vm).vm :=
    fun body => htrans _ _ _ (hphase _ _ _ _) (hphase _ _ _ _)
  have h₄ : ∀ body resp, R (requestPhase L srcs peer req body vm).vm
      (responsePhase L srcs peer req body vm resp).vm :=
    fun body resp => htrans _ _ _ (h₃ body) (hphase _ _ _ _)
  have hbody : ∀ {body'}, req.body = .ok body' → body' = body := by
    intro body' hb'
    rw [hb] at hb'
    exact (Except.ok.inj hb').symm
  cases h with
  | unread h =>
    rw [hb] at h
    simp at h
  | rejected h hrej =>
    obtain rfl := hbody h
    exact hrefl _
  | noTarget h hpass hnone =>
    obtain rfl := hbody h
    exact h₃ _
  | unbuilt h hbuild =>
    obtain rfl := hbody h.arrived
    exact h₃ _
  | unanswered h hbuild hsend =>
    obtain rfl := hbody h.arrived
    exact h₃ _
  | unassembled h hbuild hsend hfinal =>
    obtain rfl := hbody h.arrived
    exact h₄ _ _
  | answered h hbuild hsend hfinal =>
    obtain rfl := hbody h.arrived
    exact h₄ _ _

theorem handleRequest_keeps (peer : String) (req : Request) (vm : Vm Fn Heap) (pool : UpstreamPool)
    (counters : Counters) : R vm (handleRequest L http srcs peer req vm pool counters).vm := by
  have hcourse := handleRequest_course L http srcs peer req vm pool counters
  cases hb : req.body with
  | error e =>
    rw [(Course.unread hb).eq]
    exact hrefl vm
  | ok body =>
    exact htrans _ _ _ (hphase _ _ _ _) (hcourse.keeps hrefl htrans hphase hb)

end Machines

end LuaProxy.RequestCourse
