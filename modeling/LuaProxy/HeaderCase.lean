import LuaProxy.IdentityHeaders
import LuaProxy.ResponseHeaders

/-! The letter case of header names. Every writer of the two header maps lowers the names, so
the getter, the table of `ctx.req` and the forwarding loop read the same values. -/
namespace LuaProxy.HeaderCase
open Text Lua Context HookMonad Engine Upstream Handler CtxWrites RequestCourse Passthrough
  ResponseHeaders IdentityHeaders

section Maps
variable (host : Host)

def LowerKeys (m : HashMap String) : Prop := ∀ k ∈ m, host.toLowercase k = k

def NoTwins (m : HashMap String) : Prop :=
  ∀ e ∈ m.entries, ∀ e' ∈ m.entries, host.toLowercase e.1 = host.toLowercase e'.1 → e = e'

variable {host}

theorem LowerKeys.empty : LowerKeys host ∅ := fun k hk => absurd hk (AList.notMem_empty k)

theorem LowerKeys.insert {m : HashMap String} (h : LowerKeys host m) {k : String} (v : String)
    (hk : host.toLowercase k = k) : LowerKeys host (m.insert k v) := by
  intro k' hk'
  rcases (AList.mem_insert m).mp hk' with rfl | hmem
  · exact hk
  · exact h k' hmem

theorem LowerKeys.noTwins {m : HashMap String} (h : LowerKeys host m) : NoTwins host m := by
  intro e he e' he' heq
  have hmem : ∀ e ∈ m.entries, host.toLowercase e.1 = e.1 := fun e he =>
    h e.1 (AList.mem_keys.mpr (List.mem_keys_of_mem he))
  rw [hmem e he, hmem e' he'] at heq
  exact m.nodupKeys.eq_of_fst_eq he he' heq

theorem headerMap_lower (hidem : ∀ s, host.toLowercase (host.toLowercase s) = host.toLowercase s)
    (headers : List (String × Bytes)) : LowerKeys host (headerMap host headers) := by
  induction headers using List.reverseRecOn with
  | nil => exact LowerKeys.empty
  | append_singleton headers e ih =>
    rw [headerMap, List.foldl_append, List.foldl_cons, List.foldl_nil]
    cases toStr e.2 with
    | none => exact ih
    | some val => exact LowerKeys.insert ih val (hidem e.1)

theorem lastSome_dlookup {es : List (Sigma fun _ : String => String)} (hnodup : es.NodupKeys)
    (k : String) : lastSome (fun e => if e.1 = k then some e.2 else none) es = es.dlookup k := by
  induction es with
  | nil => rfl
  | cons e es ih =>
    obtain ⟨k', v⟩ := e
    rw [lastSome_cons, ih (List.nodupKeys_cons.mp hnodup).2]
    by_cases hk : k = k'
    · subst hk
      have hnone : es.dlookup k = none :=
        List.dlookup_eq_none.mpr (List.notMem_keys_of_nodupKeys_cons hnodup)
      rw [hnone, List.dlookup_cons_eq]
      simp
    · have hk' : ¬ k' = k := fun e => hk e.symm
      rw [List.dlookup_cons_ne _ _ hk]
      simp [hk']

theorem headersTable_lookup {m : HashMap String} (h : LowerKeys host m) (k : String) :
    (RequestCtx.headersTable host m).lookup k = m.lookup k := by
  have hmem : ∀ e ∈ m.entries, host.toLowercase e.1 = e.1 := fun e he =>
    h e.1 (AList.mem_keys.mpr (List.mem_keys_of_mem he))
  have htable : RequestCtx.headersTable host m =
      m.entries.foldl (fun t e => t.insert e.1 e.2) (∅ : HashMap String) := by
    rw [RequestCtx.headersTable]
    apply List.foldl_ext
    intro t e he
    rw [hmem e he]
  have hlast := foldl_last (f := fun e : Sigma fun _ : String => String =>
    if e.1 = k then some e.2 else none) (fun t : HashMap String => t.lookup k)
    (fun t e => lookup_insert_or e.1 k e.2) ∅ m.entries
  rw [htable, hlast, lastSome_dlookup m.nodupKeys, AList.lookup_empty, Option.or_none, AList.lookup]

end Maps

section States
variable (host : Host)

/-- The contexts that a request can come to, with the `ctx` calls up to there: calls by
hooks, with any arguments, and the answer of an upstream. -/
inductive Reached (req : Request) : List CtxCall → RequestCtx → Prop
  | start (peer : String) (body : Bytes) : Reached req [] (requestCtx host req peer body)
  | call {calls : List CtxCall} {ctx : RequestCtx} (h : Reached req calls ctx) (c : CtxCall) :
      Reached req (calls ++ [c]) (CtxCall.run host ctx c)
  | answered {calls : List CtxCall} {ctx : RequestCtx} (h : Reached req calls ctx)
      (resp : UpstreamResponse) : Reached req calls (answeredCtx host ctx resp)

/-- The names in both header maps are in lower case. -/
structure LowerCase (ctx : RequestCtx) : Prop where
  req : LowerKeys host ctx.reqHeaders
  res : LowerKeys host ctx.resHeaders

/-- The two ways to read a request header agree: the value that was set last under any case
of the name, or else the one received. -/
structure HeadersAgree (req : Request) (calls : List CtxCall) (ctx : RequestCtx) : Prop where
  lower : LowerCase host ctx
  table : ∀ k, ctx.reqHeader host (host.toLowercase k) = ctx.getReqHeader host k
  value : ∀ k, ctx.getReqHeader host k =
    (lastSome (reqWrite host (host.toLowercase k)) calls).or
      (lastSome toStr (valuesOf host (host.toLowercase k) req.headers))

variable {host} {req : Request} {calls : List CtxCall} {ctx : RequestCtx}

theorem Reached.runAll (h : Reached host req calls ctx) (more : List CtxCall) :
    Reached host req (calls ++ more) (CtxCall.runAll host ctx more) := by
  induction more generalizing calls ctx with
  | nil => simpa using h
  | cons c more ih =>
    have hc := ih (h.call c)
    rw [List.append_assoc] at hc
    exact hc

variable (hidem : ∀ s, host.toLowercase (host.toLowercase s) = host.toLowercase s)

include hidem

theorem run_lowerCase (h : LowerCase host ctx) (c : CtxCall) :
    LowerCase host (CtxCall.run host ctx c) := by
  cases c with
  | setReqHeader k v => exact ⟨h.req.insert v (hidem k), h.res⟩
  | setResHeader k v => exact ⟨h.req, h.res.insert v (hidem k)⟩
  | reject status msg => exact ⟨h.req, h.res⟩
  | setVar k v => exact ⟨h.req, h.res⟩
  | setResStatus status => exact ⟨h.req, h.res⟩
  | upstream name => exact ⟨h.req, h.res⟩

theorem Reached.lowerCase (h : Reached host req calls ctx) : LowerCase host ctx := by
  induction h with
  | start peer body => exact ⟨headerMap_lower hidem req.headers, LowerKeys.empty⟩
  | call h c ih => exact run_lowerCase hidem ih c
  | answered h resp ih => exact ⟨ih.req, headerMap_lower hidem resp.headers⟩

omit hidem in
theorem Reached.reqHeader (h : Reached host req calls ctx) (k : String) :
    ctx.reqHeaders.lookup k =
      (lastSome (reqWrite host k) calls).or (lastSome toStr (valuesOf host k req.headers)) := by
  induction h with
  | start peer body => exact headerMap_lookup k req.headers
  | @call calls ctx h c ih =>
    have hc : (CtxCall.runAll host ctx [c]).reqHeaders.lookup k = _ := runAll_reqHeader k ctx [c]
    rw [CtxCall.runAll_cons, CtxCall.runAll_nil] at hc
    rw [hc, ih, lastSome_append, Option.or_assoc]
  | answered h resp ih => exact ih

theorem Reached.agree (h : Reached host req calls ctx) : HeadersAgree host req calls ctx where
  lower := h.lowerCase hidem
  table k := headersTable_lookup (h.lowerCase hidem).req (host.toLowercase k)
  value k := h.reqHeader (host.toLowercase k)

end States

section Requests
variable {host : Host} {Src Fn Heap : Type} (L : Interpreter host Src Fn Heap) (http : Http)
  (srcs : Hook → PluginSources Src) (peer : String) (req : Request) (vm : Vm Fn Heap)
  (pool : UpstreamPool) (counters : Counters)

theorem transformPhase_reached (body : Bytes) :
    Reached host req (earlierCalls L srcs peer req body vm)
      (transformPhase L srcs peer req body vm).ctx := by
  have hstart : Reached host req [] (requestCtx host req peer body) := .start peer body
  have h := hstart.runAll (earlierCalls L srcs peer req body vm)
  rw [← transformPhase_ctx, List.nil_append] at h
  exact h

theorem responsePhase_reached (body : Bytes) (resp : UpstreamResponse) :
    Reached host req
      (earlierCalls L srcs peer req body vm ++ (responsePhase L srcs peer req body vm resp).calls)
      (responsePhase L srcs peer req body vm resp).ctx := by
  rw [responsePhase_ctx]
  exact ((transformPhase_reached L srcs peer req vm body).answered resp).runAll _

variable (hidem : ∀ s, host.toLowercase (host.toLowercase s) = host.toLowercase s)

include hidem

theorem upstreamHeaders_lower (hlower : AsciiLower host) (body : Bytes) :
    LowerKeys host (upstreamHeaders L srcs peer req body vm) := by
  have hnames : ∀ s ∈ ["x-forwarded-for", "x-proxy"], host.toLowercase s = s := by
    have hplain : ∀ s ∈ ["x-forwarded-for", "x-proxy"], Ascii (utf8 s) ∧ s.toLower = s := by
      decide +kernel
    intro s hs
    rw [hlower s (hplain s hs).1, (hplain s hs).2]
  have hreq := ((transformPhase_reached L srcs peer req vm body).lowerCase hidem).req
  exact (hreq.insert _ (hnames _ (by simp))).insert _ (hnames _ (by simp))

omit hidem in
theorem errorResponse_noTwins {status : UInt16} {msg : String} {a : Response}
    (h : errorResponse status msg = .ok a) : NoTwins host a.headers := by
  rw [errorResponse_headers h]
  intro e he e' he' _
  have hone : errorHeaders.entries = [⟨"content-type", "application/json"⟩] := rfl
  rw [hone, List.mem_singleton] at he he'
  rw [he, he']

omit hidem in
theorem serve_errorResponse {r : Handled Fn Heap} (status : UInt16) (msg : String)
    (h : r.outcome = errorResponse status msg) : serve r = errorResponse status msg := by
  rw [serve, h]
  split
  · rename_i e he
    exact absurd he (errorResponse_ne_err status msg e)
  · rfl

theorem answer_noTwins {a : Response}
    (ha : serve (handleRequest L http srcs peer req vm pool counters) = .ok a) :
    NoTwins host a.headers := by
  have hcourse := handleRequest_course L http srcs peer req vm pool counters
  generalize handleRequest L http srcs peer req vm pool counters = r at hcourse ha
  cases hcourse with
  | unread h => exact errorResponse_noTwins ha
  | @rejected body status msg h hrej =>
    rw [serve_errorResponse status msg rfl] at ha
    exact errorResponse_noTwins ha
  | noTarget h hpass hnone =>
    rw [serve_errorResponse 503 "Service Unavailable" rfl] at ha
    exact errorResponse_noTwins ha
  | unbuilt h hbuild =>
    rw [serve_errorResponse 502 "Bad Gateway" rfl] at ha
    exact errorResponse_noTwins ha
  | unanswered h hbuild hsend =>
    rw [serve_errorResponse 502 "Bad Gateway" rfl] at ha
    exact errorResponse_noTwins ha
  | unassembled h hbuild hsend hfinal => exact errorResponse_noTwins ha
  | @answered body target up resp r h hbuild hsend hfinal =>
    obtain rfl := Outcome.ok.inj ha
    rw [finalResponse_ok hfinal]
    exact ((responsePhase_reached L srcs peer req vm body resp).lowerCase hidem).res.noTwins

/-- What leaves for the upstream has the headers of the context, but for the two the handler
sets, and no two names that differ in case only. -/
theorem sent_agrees (hlower : AsciiLower host) {up : UpstreamRequest}
    (hsent : (handleRequest L http srcs peer req vm pool counters).sent = some up) :
    ∃ body, req.body = .ok body ∧
      Reached host req (earlierCalls L srcs peer req body vm)
        (transformPhase L srcs peer req body vm).ctx ∧
      (∀ k, host.toLowercase k ≠ "x-forwarded-for" → host.toLowercase k ≠ "x-proxy" →
        up.headers.lookup (host.toLowercase k) =
          (transformPhase L srcs peer req body vm).ctx.getReqHeader host k) ∧
      NoTwins host up.headers := by
  have hcourse := handleRequest_course L http srcs peer req vm pool counters
  obtain ⟨body, target, hr, -, hbuild⟩ := hcourse.of_sent hsent
  refine ⟨body, hr.arrived, transformPhase_reached L srcs peer req vm body, ?_, ?_⟩
  · intro k hf hp
    rw [buildRequest_ok hbuild]
    dsimp only
    rw [upstreamHeaders, AList.lookup_insert_ne hp, AList.lookup_insert_ne hf,
      RequestCtx.getReqHeader]
  · rw [buildRequest_ok hbuild]
    exact (upstreamHeaders_lower L srcs peer req vm hidem hlower body).noTwins

end Requests

/-- The header maps in every state of a context, and what goes out from them. -/
theorem headers_consistent (host : Host)
    (hidem : ∀ s, host.toLowercase (host.toLowercase s) = host.toLowercase s)
    (hlower : AsciiLower host) :
    (∀ req calls ctx, Reached host req calls ctx → HeadersAgree host req calls ctx) ∧
    ∀ (Src Fn Heap : Type) (L : Interpreter host Src Fn Heap) (http : Http)
      (srcs : Hook → PluginSources Src) (peer : String) (req : Request) (vm : Vm Fn Heap)
      (pool : UpstreamPool) (counters : Counters),
      (∀ up, (handleRequest L http srcs peer req vm pool counters).sent = some up →
        ∃ body, req.body = .ok body ∧
          Reached host req (earlierCalls L srcs peer req body vm)
            (transformPhase L srcs peer req body vm).ctx ∧
          (∀ k, host.toLowercase k ≠ "x-forwarded-for" → host.toLowercase k ≠ "x-proxy" →
            up.headers.lookup (host.toLowercase k) =
              (transformPhase L srcs peer req body vm).ctx.getReqHeader host k) ∧
          NoTwins host up.headers) ∧
      ∀ a, serve (handleRequest L http srcs peer req vm pool counters) = .ok a →
        NoTwins host a.headers := by
  constructor
  · intro req calls ctx h
    exact h.agree hidem
  · intro Src Fn Heap L http srcs peer req vm pool counters
    constructor
    · intro up hsent
      exact sent_agrees L http srcs peer req vm pool counters hidem hlower hsent
    · intro a ha
      exact answer_noTwins L http srcs peer req vm pool counters hidem ha

theorem char_toLower_idem (c : Char) : c.toLower.toLower = c.toLower := by
  delta Char.toLower
  split
  · split
    · rename_i h₁ h₂
      simp only [ge_iff_le, UInt32.le_iff_toNat_le, UInt32.toNat_add] at h₁ h₂
      simp at h₁ h₂
      omega
    · rfl
  · rfl

theorem toLower_idem (s : String) : s.toLower.toLower = s.toLower := by
  change (s.map Char.toLower).map Char.toLower = s.map Char.toLower
  rw [String.map_map]
  congr 1
  funext c
  exact char_toLower_idem c

/-- A header set as `X-User` is read as `x-USER`. -/
theorem headers_consistent_plain :
    (CtxCall.run Host.plain (requestCtx Host.plain FailClosed.plainRequest "127.0.0.1" [])
        (.setReqHeader "X-User" "7")).getReqHeader Host.plain "x-USER" = some "7" := by
  have h := (headers_consistent Host.plain toLower_idem asciiLower_plain).1
    FailClosed.plainRequest _ _ ((Reached.start "127.0.0.1" []).call (.setReqHeader "X-User" "7"))
  have hasked : Host.plain.toLowercase "x-USER" = "x-user" := by decide +kernel
  have hset : Host.plain.toLowercase "X-User" = "x-user" := by decide +kernel
  rw [h.value, hasked]
  simp [lastSome, reqWrite, hset]

end LuaProxy.HeaderCase
