import LuaProxy.RequestCourse
import LuaProxy.FailClosed

/-! What becomes of a `ctx:reject`. The loop of `on_request` ends with it and the handler
answers at once, through a builder that does not take every status and a server that does not
write every answer as it is; in the other three phases nothing looks at it. -/
namespace LuaProxy.Rejection
open Text Lua Context HookMonad Engine Upstream Handler CtxWrites RequestCourse

section Panic

theorem errorResponse_ok_iff (status : UInt16) (msg : String) :
    (∃ a, errorResponse status msg = .ok a) ↔ 100 ≤ status ∧ status ≤ 999 := by
  unfold errorResponse statusOk
  split_ifs with h
  · simpa using h
  · simpa using h

variable {host : Host} {Src Fn Heap : Type} (L : Interpreter host Src Fn Heap) (http : Http)
  (srcs : Hook → PluginSources Src) (peer : String) (req : Request) (vm : Vm Fn Heap)
  (pool : UpstreamPool) (counters : Counters)

theorem requestPhase_rejected (body : Bytes) :
    (requestPhase L srcs peer req body vm).ctx.rejected =
      lastSome rejection (requestPhase L srcs peer req body vm).calls := by
  rw [requestPhase_ctx, runAll_rejection]
  exact Option.or_none

/-- The handler returns: a response, or an error that the server makes one of. -/
def Answers (r : Handled Fn Heap) : Prop :=
  (∃ a, r.outcome = .ok a) ∨ ∃ e, r.outcome = .err e ∧ ∃ a, serve r = .ok a

theorem answers_of_err {r : Handled Fn Heap} {e : String} (h : r.outcome = .err e) : Answers r := by
  refine Or.inr ⟨e, h, ?_⟩
  simp only [serve, h]
  exact (errorResponse_ok_iff 500 _).mpr (by decide)

theorem answers_errorResponse {r : Handled Fn Heap} (status : UInt16) (msg : String)
    (h : r.outcome = errorResponse status msg) : Answers r ↔ 100 ≤ status ∧ status ≤ 999 := by
  rw [← errorResponse_ok_iff status msg]
  unfold Answers
  rw [h]
  constructor
  · rintro (ha | ⟨e, he, -⟩)
    · exact ha
    · unfold errorResponse at he
      split_ifs at he
  · exact Or.inl

/-- The handler returns exactly if the last rejection of `on_request`, if there is one, has
a status that a response can have. -/
theorem answers_iff : Answers (handleRequest L http srcs peer req vm pool counters) ↔
    ∀ body status msg, req.body = .ok body →
      lastSome rejection (requestPhase L srcs peer req body vm).calls = some (status, msg) →
      100 ≤ status ∧ status ≤ 999 := by
  have hcourse := handleRequest_course L http srcs peer req vm pool counters
  generalize handleRequest L http srcs peer req vm pool counters = r at hcourse
  have hpassed : ∀ {body}, req.body = .ok body →
      (requestPhase L srcs peer req body vm).ctx.rejected = none →
      ∀ body status msg, req.body = .ok body →
        lastSome rejection (requestPhase L srcs peer req body vm).calls = some (status, msg) →
        100 ≤ status ∧ status ≤ 999 := by
    intro body hbody hpass body' status msg hbody' hlast
    obtain rfl := Except.ok.inj (hbody.symm.trans hbody')
    rw [requestPhase_rejected, hlast] at hpass
    simp at hpass
  cases hcourse with
  | unread h =>
    refine iff_of_true (answers_of_err rfl) fun body status msg hbody => ?_
    rw [h] at hbody
    simp at hbody
  | rejected h hrej =>
    rename_i body status msg
    rw [requestPhase_rejected] at hrej
    rw [answers_errorResponse _ _ rfl]
    constructor
    · intro hs body' status' msg' hbody' hlast
      obtain rfl := Except.ok.inj (h.symm.trans hbody')
      rw [hrej] at hlast
      obtain ⟨rfl, rfl⟩ := Prod.mk.inj (Option.some.inj hlast)
      exact hs
    · intro hall
      exact hall body status msg h hrej
  | noTarget h hpass hnone =>
    refine iff_of_true ((answers_errorResponse 503 "Service Unavailable" ?_).mpr (by decide)) (hpassed h hpass)
    rfl
  | unbuilt h hbuild =>
    refine iff_of_true ((answers_errorResponse 502 "Bad Gateway" ?_).mpr (by decide)) (hpassed h.arrived h.passed)
    rfl
  | unanswered h hbuild hsend =>
    refine iff_of_true ((answers_errorResponse 502 "Bad Gateway" ?_).mpr (by decide)) (hpassed h.arrived h.passed)
    rfl
  | unassembled h hbuild hsend hfinal =>
    exact iff_of_true (answers_of_err rfl) (hpassed h.arrived h.passed)
  | answered h hbuild hsend hfinal =>
    exact iff_of_true (Or.inl ⟨_, rfl⟩) (hpassed h.arrived h.passed)

end Panic

section Server

/-- An answer as it arrives at the client. -/
structure Received where
  status : UInt16
  body : Bytes
  deriving DecidableEq

/-- The HTTP/1 server: what it makes of a response to a request with this method. -/
structure Server where
  deliver : String → Response → Received

def informational (status : UInt16) : Bool := 100 ≤ status && status ≤ 199

/-- HTTP has no body in these answers. -/
def bodiless (method : String) (status : UInt16) : Bool :=
  informational status || status == 204 || status == 304 || method == "HEAD" ||
    method == "CONNECT" && status ≤ 299

/-- hyper's server: it makes a 500 of an informational response other than 101, sends the
status alone where HTTP has no body, and everything else as it is. -/
structure Server.Http1 (server : Server) : Prop where
  unsupported : ∀ method r, informational r.status = true → r.status ≠ 101 →
    server.deliver method r = ⟨500, []⟩
  empty : ∀ method r, bodiless method r.status = true →
    (informational r.status = true → r.status = 101) → server.deliver method r = ⟨r.status, []⟩
  full : ∀ method r, bodiless method r.status = false →
    server.deliver method r = ⟨r.status, r.body⟩

def http1 : Server where
  deliver method r :=
    if informational r.status && r.status != 101 then ⟨500, []⟩
    else if bodiless method r.status then ⟨r.status, []⟩
    else ⟨r.status, r.body⟩

theorem http1_documented : http1.Http1 where
  unsupported method r hinfo hne := by simp [http1, hinfo, hne]
  empty method r hbody hinfo := by
    by_cases h : informational r.status = true
    · rw [hinfo h] at hbody
      simp [http1, hinfo h, hbody]
    · simp [http1, h, hbody]
  full method r hbody := by
    have h : informational r.status = false := by
      simp only [bodiless, Bool.or_eq_false_iff] at hbody
      exact hbody.1.1.1.1
    simp [http1, h, hbody]

/-- What the client receives; a panic ends the connection. -/
def received {Fn Heap : Type} (server : Server) (method : String) (r : Handled Fn Heap) :
    Option Received :=
  match serve r with
  | .ok a => some (server.deliver method a)
  | _ => none

variable {server : Server}

theorem Server.Http1.deliver_empty (h : server.Http1) (method : String) {r : Response}
    (hbody : r.body = []) : (server.deliver method r).body = [] := by
  cases hb : bodiless method r.status with
  | false => rw [h.full method r hb, hbody]
  | true =>
    by_cases hinfo : informational r.status = true → r.status = 101
    · rw [h.empty method r hb hinfo]
    · push Not at hinfo
      rw [h.unsupported method r hinfo.1 hinfo.2]

/-- An answer with a body arrives as it is exactly if HTTP has a body in it. -/
theorem Server.Http1.deliver_iff (h : server.Http1) (method : String) {r : Response}
    (hbody : r.body ≠ []) :
    server.deliver method r = ⟨r.status, r.body⟩ ↔ bodiless method r.status = false := by
  refine ⟨fun heq => ?_, h.full method r⟩
  have hreceived := congrArg Received.body heq
  cases hb : bodiless method r.status with
  | false => rfl
  | true =>
    by_cases hinfo : informational r.status = true → r.status = 101
    · rw [h.empty method r hb hinfo] at hreceived
      exact absurd hreceived.symm hbody
    · push Not at hinfo
      rw [h.unsupported method r hinfo.1 hinfo.2] at hreceived
      exact absurd hreceived.symm hbody

end Server

section Final
variable {host : Host} {Src Fn Heap : Type} (L : Interpreter host Src Fn Heap) (http : Http)
  (srcs : Hook → PluginSources Src) (peer : String) (req : Request) (vm : Vm Fn Heap)
  (pool : UpstreamPool)

/-- The phases of a request that take place, with the visits of each. -/
inductive PhaseOf : Hook → List (Visit Fn Heap) → Prop
  | onRequest {body : Bytes} (h : req.body = .ok body) :
      PhaseOf .onRequest (requestPhase L srcs peer req body vm).visits
  | onRoute {body : Bytes} (h : req.body = .ok body)
      (hpass : (requestPhase L srcs peer req body vm).ctx.rejected = none) :
      PhaseOf .onRoute (routePhase L srcs peer req body vm).visits
  | onTransform {body : Bytes} (h : req.body = .ok body)
      (hpass : (requestPhase L srcs peer req body vm).ctx.rejected = none) :
      PhaseOf .onTransform (transformPhase L srcs peer req body vm).visits
  | onResponse {body : Bytes} {target : String} {up : UpstreamRequest} {resp : UpstreamResponse}
      (h : Routed L srcs peer req vm pool body target)
      (hbuild : upstreamRequest L srcs peer req body vm http target = .ok up)
      (hsend : http.send up = .ok resp) :
      PhaseOf .onResponse (responsePhase L srcs peer req body vm resp).visits

/-- The `ctx` calls of the hook a round called. -/
def hookCalls (v : Visit Fn Heap) : List CtxCall :=
  match v.found with
  | .called _ _ hook => hook.calls
  | _ => []

/-- A hook of the phase that rejects with this status is the last one of it to run, the client
of a request with this method receives the error response for its last rejection, and before
forwarding nothing goes upstream. -/
def RejectFinal (server : Server) (phase : Hook) (status : UInt16) (method : String) : Prop :=
  ∀ (host : Host) (Src Fn Heap : Type) (L : Interpreter host Src Fn Heap) (http : Http)
    (srcs : Hook → PluginSources Src) (peer : String) (req : Request) (vm : Vm Fn Heap)
    (pool : UpstreamPool) (counters : Counters) (visits : List (Visit Fn Heap)) (i : ℕ)
    (v : Visit Fn Heap) (msg : String),
    req.method = method →
    PhaseOf L http srcs peer req vm pool phase visits → visits[i]? = some v →
    lastSome rejection (hookCalls v) = some (status, msg) →
    let r := handleRequest L http srcs peer req vm pool counters
    (∀ j w, i < j → visits[j]? = some w → w.found.answer = none) ∧
      (∃ a, errorResponse status msg = .ok a ∧
        received server method r = some ⟨status, a.body⟩) ∧
      (phase ≠ .onResponse → r.sent = none)

end Final

section Loop
variable {host : Host} {Src Fn Heap : Type} (L : Interpreter host Src Fn Heap)

theorem found_rejection {v : Visit Fn Heap} {x : UInt16 × String}
    (h : lastSome rejection (hookCalls v) = some x) :
    v.found.answer.isSome ∧ lastSome rejection v.found.calls = some x := by
  unfold hookCalls at h
  cases hf : v.found with
  | called chunk fn hook =>
    rw [hf] at h
    dsimp only at h
    refine ⟨rfl, ?_⟩
    rw [Found.calls, lastSome_append, h]
    rfl
  | _ => simp [hf] at h

/-- The loop of `on_request` ends with the first hook that rejects. -/
theorem onRequest_rejecting (sources : HashMap Src) (names : List String) (vm : Vm Fn Heap)
    (ctx : RequestCtx) {i : ℕ} {v : Visit Fn Heap} {x : UInt16 × String} :
    let p := runHooks L .onRequest (fun _ ctx => if ctx.isRejected then some () else none) sources
      names vm ctx
    p.visits[i]? = some v → lastSome rejection (hookCalls v) = some x →
      p.visits.length = i + 1 ∧ p.ctx.rejected = some x := by
  intro p hv hx
  obtain ⟨hanswer, hcalls⟩ := found_rejection hx
  induction names generalizing vm ctx i with
  | nil => simp [p, runHooks] at hv
  | cons name names ih =>
    have hrej : (CtxCall.runAll host ctx v.found.calls).rejected = some x := by
      rw [runAll_rejection, hcalls]
      rfl
    simp only [p, runHooks] at hv ⊢
    split at hv
    · cases i with
      | zero =>
        obtain rfl : _ = v := by simpa using hv
        exact ⟨rfl, hrej⟩
      | succ i => simp at hv
    · rename_i hstop
      cases i with
      | zero =>
        -- the loop went on, although this visit rejected
        obtain rfl : _ = v := by simpa using hv
        obtain ⟨r, hr⟩ := Option.isSome_iff_exists.mp hanswer
        dsimp only at hr hrej
        simp [hr, RequestCtx.isRejected, hrej] at hstop
      | succ i =>
        obtain ⟨hlen, hctx⟩ := ih _ _ (by simpa using hv)
        exact ⟨by simpa using hlen, hctx⟩

end Loop

section Phases

def rejecting (phase : Hook) (status : UInt16) : Interpreter Host.plain Unit Unit Unit where
  exec _ _ := HookM.define phase ()
  call _ := do
    HookM.call (.reject status "no")
    return .nil

def oneSource : PluginSources Unit := ⟨["a.lua"], AList.insert "a.lua" () ∅⟩

def noVm : Vm Unit Unit := ⟨fun _ => none, ()⟩

def emptyAnswer : Http := answering ⟨200, [], []⟩

def requestWith (method : String) : Request := { FailClosed.plainRequest with method }

def rejected (phase : Hook) (status : UInt16) (method : String) : Handled Unit Unit :=
  handleRequest (rejecting phase status) emptyAnswer (fun _ => oneSource) "127.0.0.1"
    (requestWith method) noVm FailClosed.plainPool ∅

variable {server : Server} {status : UInt16} {method : String}

/-- A rejection does not keep the request from its upstream where the handler no longer looks. -/
theorem not_final_of_sent {phase : Hook} {visits : List (Visit Unit Unit)} {v : Visit Unit Unit}
    (hphase : PhaseOf (rejecting phase status) emptyAnswer (fun _ => oneSource) "127.0.0.1"
      (requestWith method) noVm FailClosed.plainPool phase visits) (hv : visits[0]? = some v)
    (hx : lastSome rejection (hookCalls v) = some (status, "no")) (hne : phase ≠ .onResponse)
    (hs : (rejected phase status method).sent.isSome = true) :
    ¬ RejectFinal server phase status method := by
  intro h
  obtain ⟨-, -, hsent⟩ := h Host.plain Unit Unit Unit (rejecting phase status) emptyAnswer
    (fun _ => oneSource) "127.0.0.1" (requestWith method) noVm FailClosed.plainPool ∅ visits 0 v
    "no" rfl hphase hv hx
  have hnone : (rejected phase status method).sent = none := hsent hne
  rw [hnone] at hs
  exact Bool.noConfusion hs

theorem onRoute_not_final : ¬ RejectFinal server .onRoute status method :=
  not_final_of_sent (.onRoute rfl rfl) rfl rfl (by decide) rfl

theorem onTransform_not_final : ¬ RejectFinal server .onTransform status method :=
  not_final_of_sent (.onTransform rfl rfl) rfl rfl (by decide) rfl

theorem errorResponse_ok {msg : String} {a : Response} (h : errorResponse status msg = .ok a) :
    a.status = status ∧ a.body ≠ [] := by
  unfold errorResponse at h
  split_ifs at h
  obtain rfl := Outcome.ok.inj h
  refine ⟨rfl, ?_⟩
  have hopen : utf8 "\x7b\"error\":\"" ≠ [] := by decide
  simp only [utf8_append, ne_eq, List.append_eq_nil_iff]
  exact fun h => hopen h.1.1.1.1

theorem onResponse_not_final (hserver : server.Http1) :
    ¬ RejectFinal server .onResponse status method := by
  intro h
  have hphase : PhaseOf (rejecting .onResponse status) emptyAnswer (fun _ => oneSource) "127.0.0.1"
      (requestWith method) noVm FailClosed.plainPool .onResponse
      (responsePhase (rejecting .onResponse status) (fun _ => oneSource) "127.0.0.1"
        (requestWith method) [] noVm ⟨200, [], []⟩).visits :=
    .onResponse ⟨rfl, rfl, rfl⟩ rfl rfl
  obtain ⟨-, ⟨a, herr, ha⟩, -⟩ := h Host.plain Unit Unit Unit (rejecting .onResponse status)
    emptyAnswer (fun _ => oneSource) "127.0.0.1" (requestWith method) noVm FailClosed.plainPool ∅ _
    0 _ "no" rfl hphase rfl rfl
  -- the client has the upstream's answer, which is empty
  have hanswer : received server method (rejected .onResponse status method) =
      some (server.deliver method ⟨200, ∅, []⟩) := rfl
  have hbody := congrArg Received.body (Option.some.inj (hanswer.symm.trans ha))
  rw [hserver.deliver_empty method rfl] at hbody
  exact (errorResponse_ok herr).2 hbody.symm

theorem onRequest_delivered (hserver : server.Http1)
    (h : RejectFinal server .onRequest status method) :
    100 ≤ status ∧ status ≤ 999 ∧ bodiless method status = false := by
  obtain ⟨-, ⟨a, herr, ha⟩, -⟩ := h Host.plain Unit Unit Unit (rejecting .onRequest status)
    emptyAnswer (fun _ => oneSource) "127.0.0.1" (requestWith method) noVm FailClosed.plainPool ∅ _
    0 _ "no" rfl (.onRequest rfl) rfl rfl
  obtain ⟨hlow, hhigh⟩ := (errorResponse_ok_iff status "no").mp ⟨a, herr⟩
  obtain ⟨hstatus, hbody⟩ := errorResponse_ok herr
  have hanswer : received server method (rejected .onRequest status method) =
      some (server.deliver method a) := by
    have hserve : serve (rejected .onRequest status method) = .ok a := by
      have houtcome : (rejected .onRequest status method).outcome = errorResponse status "no" := rfl
      simp only [serve, houtcome, herr]
    rw [received, hserve]
  have hdeliver := Option.some.inj (hanswer.symm.trans ha)
  rw [← hstatus, hserver.deliver_iff method hbody, hstatus] at hdeliver
  exact ⟨hlow, hhigh, hdeliver⟩

theorem onRequest_final (hserver : server.Http1) (hs : 100 ≤ status ∧ status ≤ 999)
    (hbody : bodiless method status = false) : RejectFinal server .onRequest status method := by
  intro host Src Fn Heap L http srcs peer req vm pool counters visits i v msg hmethod hphase hv hx r
  cases hphase with
  | onRequest harrived =>
    rename_i body
    obtain ⟨hlen, hrej⟩ := onRequest_rejecting L _ _ _ _ hv hx
    change (requestPhase L srcs peer req body vm).visits.length = i + 1 at hlen
    change (requestPhase L srcs peer req body vm).ctx.rejected = some (status, msg) at hrej
    have hcourse : Course L http srcs peer req vm pool counters _ := .rejected harrived hrej
    obtain ⟨a, ha⟩ := (errorResponse_ok_iff status msg).mpr hs
    obtain ⟨hstatus, -⟩ := errorResponse_ok ha
    simp only [r, hcourse.eq]
    refine ⟨?_, ⟨a, ha, ?_⟩, fun _ => trivial⟩
    · intro j w hij hw
      have hj := (List.getElem?_eq_some_iff.mp hw).1
      omega
    · simp only [received, serve, ha]
      rw [← hstatus] at hbody ⊢
      rw [hserver.full method a hbody]

theorem bodied_iff : 100 ≤ status ∧ status ≤ 999 ∧ bodiless method status = false ↔
    200 ≤ status ∧ status ≤ 999 ∧ status ≠ 204 ∧ status ≠ 304 ∧ method ≠ "HEAD" ∧
      ¬ (method = "CONNECT" ∧ status ≤ 299) := by
  have hlow : 100 ≤ status ∧ informational status = false ↔ 200 ≤ status := by
    simp only [informational, Bool.and_eq_false_iff, decide_eq_false_iff_not,
      UInt16.le_iff_toNat_le, UInt16.reduceToNat]
    omega
  rw [← hlow]
  simp only [bodiless, Bool.or_eq_false_iff, Bool.and_eq_false_iff, beq_eq_false_iff_ne,
    decide_eq_false_iff_not]
  tauto

/-- A rejection is final exactly if it is made in `on_request`, with a status and for a method
that HTTP has a body for. -/
theorem rejectFinal_iff (hserver : server.Http1) (phase : Hook) :
    RejectFinal server phase status method ↔ phase = .onRequest ∧ 200 ≤ status ∧ status ≤ 999 ∧
      status ≠ 204 ∧ status ≠ 304 ∧ method ≠ "HEAD" ∧ ¬ (method = "CONNECT" ∧ status ≤ 299) := by
  rw [← bodied_iff]
  constructor
  · intro h
    cases phase with
    | onRequest => exact ⟨rfl, onRequest_delivered hserver h⟩
    | onRoute => exact absurd h onRoute_not_final
    | onTransform => exact absurd h onTransform_not_final
    | onResponse => exact absurd h (onResponse_not_final hserver)
  · rintro ⟨rfl, hlow, hhigh, hbody⟩
    exact onRequest_final hserver ⟨hlow, hhigh⟩ hbody

/-- A rejection in `on_route` is passed over. -/
theorem route_reject_ignored : ¬ ∀ phase status method, RejectFinal http1 phase status method := by
  intro h
  exact onRoute_not_final (h .onRoute 403 "GET")

theorem request_reject_final : RejectFinal http1 .onRequest 403 "GET" :=
  (rejectFinal_iff http1_documented .onRequest).mpr (by decide)

/-- The handler returns, whatever the plugins do. -/
def PanicFree : Prop :=
  ∀ (host : Host) (Src Fn Heap : Type) (L : Interpreter host Src Fn Heap) (http : Http)
    (srcs : Hook → PluginSources Src) (peer : String) (req : Request) (vm : Vm Fn Heap)
    (pool : UpstreamPool) (counters : Counters),
    Answers (handleRequest L http srcs peer req vm pool counters)

/-- A rejection with a status that no response can have ends the handler in a panic. -/
theorem high_status_panics : ¬ PanicFree := by
  intro h
  have hpanic : (rejected .onRequest 1000 "GET").outcome = .panic := rfl
  rcases h Host.plain Unit Unit Unit (rejecting .onRequest 1000) emptyAnswer (fun _ => oneSource)
    "127.0.0.1" FailClosed.plainRequest noVm FailClosed.plainPool ∅ with ⟨a, ha⟩ | ⟨e, he, -⟩
  · exact absurd (hpanic.symm.trans ha) (by simp)
  · exact absurd (hpanic.symm.trans he) (by simp)

end Phases

end LuaProxy.Rejection
