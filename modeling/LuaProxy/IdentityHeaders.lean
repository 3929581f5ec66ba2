import LuaProxy.ShippedRun
import LuaProxy.Authorization
import LuaProxy.Passthrough

/-! Who asks, as the upstream is told: the headers `x-user-id` and `x-user-role`, and what else
of the client's credentials goes into the request that leaves. -/
namespace LuaProxy.IdentityHeaders
open Text Lua Context HookMonad Engine Upstream Handler Plugins CtxWrites RequestCourse PluginCalls
  ShippedRun

section Transform
variable {host : Host} (ctx : RequestCtx) (reqId : String)

/-- `str::to_lowercase` on ASCII. -/
def AsciiLower (host : Host) : Prop := ∀ s, Ascii (utf8 s) → host.toLowercase s = s.toLower

/-- The request headers `transform.lua` sets, in order. -/
def transformHeaders : List (String × String) :=
  (match ctx.getVar "user_id" with
    | some userId => [("x-user-id", userId), ("x-user-role", (ctx.getVar "role").getD "anonymous")]
    | none => []) ++
  [("authorization", ""), ("x-api-key", ""), ("x-request-id", reqId)]

theorem transform_reqWrite (hlower : AsciiLower host) (k : String) :
    lastSome (reqWrite host k) (transformCalls ctx reqId) =
      lastSome (fun e => if e.1 = k then some e.2 else none) (transformHeaders ctx reqId) := by
  have hname : ∀ s ∈ ["x-user-id", "x-user-role", "authorization", "x-api-key", "x-request-id"],
      host.toLowercase s = s := by
    have hplain : ∀ s ∈ ["x-user-id", "x-user-role", "authorization", "x-api-key", "x-request-id"],
        Ascii (utf8 s) ∧ s.toLower = s := by decide +kernel
    intro s hs
    rw [hlower s (hplain s hs).1, (hplain s hs).2]
  simp only [List.mem_cons, List.not_mem_nil, or_false, forall_eq_or_imp, forall_eq] at hname
  obtain ⟨h₁, h₂, h₃, h₄, h₅⟩ := hname
  cases hu : ctx.getVar "user_id" with
  | none =>
    simp [transformCalls, transformHeaders, hu, lastSome_cons, reqWrite, h₃, h₄, h₅]
  | some userId =>
    simp [transformCalls, transformHeaders, hu, lastSome_cons, reqWrite, h₁, h₂, h₃, h₄, h₅]

end Transform

section Forwarded
variable {host : Host} {history : List Turn} {t : Turn} {body : Bytes} {rate login allow : List CtxCall}

theorem found_reqPath (calls : List CtxCall) (body : Bytes) :
    (t.found host calls body).reqPath = t.req.path := by
  rw [Turn.found, runAll_reqPath]
  rfl

theorem found_getVar (calls : List CtxCall) (body : Bytes) (k : String) :
    (t.found host calls body).getVar k = lastSome (varWrite k) calls := by
  rw [Turn.found, runAll_getVar]
  exact Option.or_none

theorem found_rate_login (hrate : RateCalls rate) (body : Bytes) (k : String) :
    (t.found host (rate ++ login) body).getVar k = lastSome (varWrite k) login := by
  rw [found_getVar, lastSome_append, rate_varWrite hrate, Option.or_none]

theorem found_login (h : Forwarding host history t body rate login allow) (k : String) :
    (t.found host (rate ++ login ++ allow) body).getVar k = lastSome (varWrite k) login := by
  rw [found_getVar, lastSome_append, lastSome_append, rate_varWrite h.rateWay,
    allow_varWrite h.allowWay, Option.or_none, Option.none_or]

/-- A variable after the phase is what `auth.lua` stored. -/
theorem onRequest_getVar (h : Forwarding host history t body rate login allow) {k : String}
    (hk : k ≠ "request_id") :
    (t.onRequest host (vmAfter host history) body).ctx.getVar k = lastSome (varWrite k) login := by
  have hcalls : (requestPhase (shippedLua host) (fun _ => shippedSources) t.peer t.req body
      (t.enter (vmAfter host history))).calls = _ := h.calls
  have hstart : (requestCtx host t.req t.peer body).getVar k = none := rfl
  rw [Turn.onRequest, requestPhase_ctx, runAll_getVar, hcalls, lastSome_append, lastSome_append,
    lastSome_append, transform_varWrite _ _ hk, rate_varWrite h.rateWay, allow_varWrite h.allowWay,
    hstart]
  simp

theorem earlier_reqWrite (h : Forwarding host history t body rate login allow) (k : String) :
    lastSome (reqWrite host k) (earlierCalls (shippedLua host) (fun _ => shippedSources) t.peer t.req
        body (t.enter (vmAfter host history))) =
      lastSome (reqWrite host k)
        (transformCalls (t.found host (rate ++ login ++ allow) body) (t.uuids 0)) := by
  have hroute : lastSome (reqWrite host k) [.upstream (routeName t.req.path)] = none := rfl
  rw [h.earlier, h.calls, lastSome_append, lastSome_append, lastSome_append, lastSome_append, hroute,
    rate_reqWrite h.rateWay, login_reqWrite h.loginWay, allow_reqWrite h.allowWay]
  simp

theorem calls_pass (h : Forwarding host history t body rate login allow) :
    (rate ++ login ++ allow).any CtxCall.isReject = false := by
  have hpassed : (requestPhase (shippedLua host) (fun _ => shippedSources) t.peer t.req body
      (t.enter (vmAfter host history))).ctx.isRejected = false := by
    have hnone := h.passed
    rw [Turn.onRequest] at hnone
    rw [RequestCtx.isRejected, hnone]
    rfl
  have hcalls : (requestPhase (shippedLua host) (fun _ => shippedSources) t.peer t.req body
      (t.enter (vmAfter host history))).calls = _ := h.calls
  rw [requestPhase_ctx, CtxCall.runAll_rejected, hcalls, List.any_append] at hpassed
  simp only [Bool.or_eq_false_iff] at hpassed
  exact hpassed.2.1

theorem allow_role {ctx : RequestCtx} (h : AuthzCalls ctx allow)
    (hpass : allow.any CtxCall.isReject = false) (hpath : isPublic (utf8 ctx.reqPath) = false)
    (hmethod : ctx.getVar "auth_method" ≠ some "public") : (ctx.getVar "role").isSome := by
  cases h with
  | publicPath h => exact absurd h hmethod
  | noRule hrule hrole => exact hrole
  | @allowed rule hrule hrole =>
    cases hroles : rule.roles with
    | none =>
      rw [Authorization.rule_open hrule hroles] at hpath
      simp at hpath
    | some roles =>
      rw [hroles] at hrole
      obtain ⟨r, -, hr⟩ := List.any_eq_true.mp hrole
      rw [← beq_iff_eq.mp hr]
      rfl
  | denied msg => simp [CtxCall.isReject] at hpass

/-- A forwarded request was logged in with a user id and a role, unless its path is public. -/
theorem login_stored (h : Forwarding host history t body rate login allow) :
    if isPublic (utf8 t.req.path) = true then
      lastSome (varWrite "user_id") login = none ∧ lastSome (varWrite "role") login = none
    else (lastSome (varWrite "user_id") login).isSome ∧ (lastSome (varWrite "role") login).isSome := by
  have hpass := calls_pass h
  rw [List.any_append, List.any_append, Bool.or_eq_false_iff, Bool.or_eq_false_iff] at hpass
  have hrole := allow_role h.allowWay hpass.2
  rw [found_reqPath, found_rate_login h.rateWay, found_rate_login h.rateWay] at hrole
  have hlogin := h.loginWay
  cases hlogin with
  | publicPath hp =>
    rw [found_reqPath] at hp
    rw [if_pos hp]
    exact ⟨rfl, rfl⟩
  | nothing hp =>
    rw [found_reqPath] at hp
    exact absurd (hrole hp (by decide)) (by decide)
  | user hp userId =>
    rw [found_reqPath] at hp
    have hnone : lastSome (varWrite "role") [.setVar "user_id" userId] = none := rfl
    rw [hnone] at hrole
    exact absurd (hrole hp (by simp [lastSome_cons, varWrite])) (by simp)
  | role hp userId hsource =>
    rw [found_reqPath] at hp
    rw [if_neg (by simp [hp])]
    exact ⟨rfl, rfl⟩
  | login hp userId method hsource hmethod =>
    rw [found_reqPath] at hp
    rw [if_neg (by simp [hp])]
    exact ⟨rfl, rfl⟩
  | challenge hp =>
    rw [found_reqPath] at hp
    exact absurd (hrole hp (by decide)) (by decide)
  | refused hp msg => simp [CtxCall.isReject] at hpass

def clientHeader (host : Host) (req : Request) (k : String) : Option String :=
  (headerMap host req.headers).lookup k

/-- A header that leaves is the one `transform.lua` set, or else the client's. -/
theorem upstream_lookup (hlower : AsciiLower host)
    (h : Forwarding host history t body rate login allow) {k : String} (hf : k ≠ "x-forwarded-for")
    (hp : k ≠ "x-proxy") :
    (upstreamHeaders (shippedLua host) (fun _ => shippedSources) t.peer t.req body
        (t.enter (vmAfter host history))).lookup k =
      (lastSome (fun e => if e.1 = k then some e.2 else none)
        (transformHeaders (t.found host (rate ++ login ++ allow) body) (t.uuids 0))).or
          (clientHeader host t.req k) := by
  rw [upstreamHeaders_lookup _ _ _ _ _ _ hf hp, earlier_reqWrite h, transform_reqWrite _ _ hlower,
    clientHeader]

end Forwarded

section Identity

def Blank (o : Option String) : Prop := o.getD "" = ""

/-- A header shows what was established, and nothing where nothing was. -/
def Shows (sent : Option String) : Option String → Prop
  | some v => sent = some v
  | none => Blank sent

variable (host : Host) (history : List Turn) (t : Turn)

/-- What `auth.lua` stored for this request under a name. -/
def established (k : String) : Option String :=
  match t.req.body with
  | .ok body => (t.onRequest host (vmAfter host history) body).ctx.getVar k
  | .error _ => none

/-- The upstream is told who asks as `auth.lua` found it. -/
def IdentityKept (up : UpstreamRequest) : Prop :=
  Shows (up.headers.lookup "x-user-id") (established host history t "user_id") ∧
    Shows (up.headers.lookup "x-user-role") (established host history t "role")

variable {host history t}

theorem established_eq {body : Bytes} {rate login allow : List CtxCall} (hbody : t.req.body = .ok body)
    (h : Forwarding host history t body rate login allow) {k : String} (hk : k ≠ "request_id") :
    established host history t k = lastSome (varWrite k) login := by
  simp only [established, hbody]
  exact onRequest_getVar h hk

/-- On a public path, and there alone, the upstream gets the client's own word for it. -/
theorem identity_kept_iff (hlower : AsciiLower host) {up : UpstreamRequest}
    (hsent : (t.handle host (vmAfter host history)).sent = some up) :
    IdentityKept host history t up ↔ (isPublic (utf8 t.req.path) = true →
      Blank (clientHeader host t.req "x-user-id") ∧
        Blank (clientHeader host t.req "x-user-role")) := by
  have hcourse := handleRequest_course (shippedLua host) t.http (fun _ => shippedSources) t.peer t.req
    (t.enter (vmAfter host history)) t.pool t.counters
  obtain ⟨body, target, hrouted, -, hbuild⟩ := hcourse.of_sent hsent
  obtain ⟨rate, login, allow, h⟩ := forwarding history t body hrouted.passed
  have hid := upstream_lookup hlower h (k := "x-user-id") (by decide) (by decide)
  have hrole := upstream_lookup hlower h (k := "x-user-role") (by decide) (by decide)
  have hstored := login_stored h
  rw [IdentityKept, established_eq hrouted.arrived h (by decide),
    established_eq hrouted.arrived h (by decide), buildRequest_ok hbuild]
  dsimp only
  rw [hid, hrole]
  simp only [transformHeaders, found_login h]
  split_ifs at hstored with hpublic
  · rw [hstored.1, hstored.2]
    simp [Shows, hpublic, lastSome_cons]
  · obtain ⟨userId, huser⟩ := Option.isSome_iff_exists.mp hstored.1
    obtain ⟨role, hr⟩ := Option.isSome_iff_exists.mp hstored.2
    rw [huser, hr]
    simp [Shows, hpublic, lastSome_cons]

/-- The upstream is always told who asks as `auth.lua` found it. -/
def IdentitiesKept : Prop :=
  ∀ host, AsciiLower host → ∀ (history : List Turn) (t : Turn) (up : UpstreamRequest),
    (t.handle host (vmAfter host history)).sent = some up → IdentityKept host history t up

def firstTurn (path : String) (headers : List (String × Bytes)) : Turn where
  peer := "127.0.0.1"
  req := ⟨"GET", path, none, headers, .ok []⟩
  http := Http.down
  pool := FailClosed.plainPool
  counters := ∅
  clock _ := 0
  uuids _ := "id"
  jwtFile _ := true

theorem asciiLower_plain : AsciiLower Host.plain := fun _ _ => rfl

/-- A reader's key, beside headers that say more. -/
def readerTurn : Turn := firstTurn "/api/v1/items"
  [("x-api-key", utf8 "test-api-key-reader"), ("x-user-role", utf8 "admin")]

theorem reader_identity_kept : ∃ up,
    (readerTurn.handle Host.plain (vmAfter Host.plain [])).sent = some up ∧
      IdentityKept Host.plain [] readerTurn up := by
  have hforwarded : (readerTurn.handle Host.plain (vmAfter Host.plain [])).sent.isSome := by
    decide +kernel
  obtain ⟨up, hsent⟩ := Option.isSome_iff_exists.mp hforwarded
  have hpath : ¬ isPublic (utf8 readerTurn.req.path) = true := by decide
  exact ⟨up, hsent, (identity_kept_iff asciiLower_plain hsent).mpr fun h => absurd h hpath⟩

/-- Without any credential, the upstream is told that the user `admin` asks. -/
theorem identity_forged : ¬ IdentitiesKept := by
  intro h
  have hid : (((firstTurn "/public/page" [("x-user-id", utf8 "admin")]).handle Host.plain
      (vmAfter Host.plain [])).sent.bind fun up => up.headers.lookup "x-user-id") =
        some "admin" := by decide +kernel
  have hnone : established Host.plain []
      (firstTurn "/public/page" [("x-user-id", utf8 "admin")]) "user_id" = none := by decide
  obtain ⟨up, hsent, hup⟩ := Option.bind_eq_some_iff.mp hid
  have hkept := (h Host.plain asciiLower_plain [] _ up hsent).1
  rw [hnone, hup] at hkept
  exact absurd hkept (by simp [Shows, Blank])

end Identity

section Credentials
variable (host : Host)

/-- The headers a client shows its credentials in. -/
def credentialNames : List String := ["authorization", "x-api-key"]

def otherHeaders (headers : List (String × Bytes)) : List (String × Bytes) :=
  headers.filter fun e => host.toLowercase e.1 ∉ credentialNames

/-- Two requests that differ at most in the credentials they show. -/
structure EqualButCredentials (r₁ r₂ : Request) : Prop where
  method : r₁.method = r₂.method
  path : r₁.path = r₂.path
  query : r₁.query = r₂.query
  headers : otherHeaders host r₁.headers = otherHeaders host r₂.headers
  body : r₁.body = r₂.body

/-- Two requests an upstream cannot tell apart. -/
structure SameRequest (up₁ up₂ : UpstreamRequest) : Prop where
  method : up₁.method = up₂.method
  uri : up₁.uri = up₂.uri
  headers : ∀ k, up₁.headers.lookup k = up₂.headers.lookup k
  body : up₁.body = up₂.body

variable {host}

theorem valuesOf_others {k : String} (hk : k ∉ credentialNames) (headers : List (String × Bytes)) :
    Passthrough.valuesOf host k (otherHeaders host headers) = Passthrough.valuesOf host k headers := by
  simp only [Passthrough.valuesOf, otherHeaders, List.filter_filter]
  congr 1
  refine List.filter_congr fun e _ => ?_
  by_cases he : host.toLowercase e.1 = k
  · simp [he, hk]
  · simp [he]

theorem clientHeader_congr {r₁ r₂ : Request} (h : EqualButCredentials host r₁ r₂) {k : String}
    (hk : k ∉ credentialNames) : clientHeader host r₁ k = clientHeader host r₂ k := by
  rw [clientHeader, clientHeader, Passthrough.headerMap_lookup, Passthrough.headerMap_lookup,
    ← valuesOf_others hk, h.headers, valuesOf_others hk]

theorem clientAddress_congr {r₁ r₂ : Request} (h : EqualButCredentials host r₁ r₂) (peer : String) :
    clientAddress (headerMap host r₁.headers) peer = clientAddress (headerMap host r₂.headers) peer := by
  have hreal : (headerMap host r₁.headers).lookup "x-real-ip" = _ :=
    clientHeader_congr h (k := "x-real-ip") (by decide)
  have hforwarded : (headerMap host r₁.headers).lookup "x-forwarded-for" = _ :=
    clientHeader_congr h (k := "x-forwarded-for") (by decide)
  rw [clientAddress, clientAddress, hreal, hforwarded, clientHeader, clientHeader]

theorem transformHeaders_congr {ctx₁ ctx₂ : RequestCtx} (huser : ctx₁.getVar "user_id" =
    ctx₂.getVar "user_id") (hrole : ctx₁.getVar "role" = ctx₂.getVar "role") (reqId : String) :
    transformHeaders ctx₁ reqId = transformHeaders ctx₂ reqId := by
  rw [transformHeaders, transformHeaders, huser, hrole]

theorem transformHeaders_credential {k : String} (hk : k ∈ credentialNames) (ctx : RequestCtx)
    (reqId : String) :
    lastSome (fun e => if e.1 = k then some e.2 else none) (transformHeaders ctx reqId) = some "" := by
  have hclear : lastSome (fun e : String × String => if e.1 = k then some e.2 else none)
      [("authorization", ""), ("x-api-key", ""), ("x-request-id", reqId)] = some "" := by
    simp only [credentialNames, List.mem_cons, List.not_mem_nil, or_false] at hk
    rcases hk with rfl | rfl
    · simp [lastSome_cons]
    · simp [lastSome_cons]
  rw [transformHeaders, lastSome_append, hclear]
  rfl

theorem all_congr {m₁ m₂ : HashMap String} (h : ∀ k, m₁.lookup k = m₂.lookup k)
    (p : (Σ _ : String, String) → Bool) : m₁.entries.all p = m₂.entries.all p := by
  have hperm : m₁.entries.Perm m₂.entries := by
    refine List.lookup_ext m₁.nodupKeys m₂.nodupKeys fun k v => ?_
    exact iff_of_eq (congrArg (v ∈ ·) (h k))
  exact hperm.all_eq

theorem buildRequest_congr {http₁ http₂ : Http} {method url : String} {m₁ m₂ : HashMap String}
    {body : Bytes} (huri : http₁.uriOk = http₂.uriOk) (hheader : http₁.headerOk = http₂.headerOk)
    (h : ∀ k, m₁.lookup k = m₂.lookup k) :
    (buildRequest http₁ method url m₁ body).toOption.isSome =
      (buildRequest http₂ method url m₂ body).toOption.isSome := by
  unfold buildRequest
  rw [huri, hheader, all_congr h]
  split_ifs <;> rfl

end Credentials

section TwoRuns
variable {host : Host} {history₁ history₂ : List Turn} {t₁ t₂ : Turn} {body : Bytes}
  {rate₁ login₁ allow₁ rate₂ login₂ allow₂ : List CtxCall}

theorem chosen_congr (hpeer : t₁.peer = t₂.peer) (hreq : EqualButCredentials host t₁.req t₂.req)
    (hpool : t₁.pool = t₂.pool) (h₁ : Forwarding host history₁ t₁ body rate₁ login₁ allow₁)
    (h₂ : Forwarding host history₂ t₂ body rate₂ login₂ allow₂) :
    chosen (shippedLua host) (fun _ => shippedSources) t₁.peer t₁.req body
        (t₁.enter (vmAfter host history₁)) t₁.pool =
      chosen (shippedLua host) (fun _ => shippedSources) t₂.peer t₂.req body
        (t₂.enter (vmAfter host history₂)) t₂.pool := by
  rw [chosen, chosen, h₁.route, h₂.route, hreq.path, hpool, hpeer, clientAddress_congr hreq]

theorem upstreamHeaders_congr (hlower : AsciiLower host) (hpeer : t₁.peer = t₂.peer)
    (hreq : EqualButCredentials host t₁.req t₂.req) (huuid : t₁.uuids 0 = t₂.uuids 0)
    (h₁ : Forwarding host history₁ t₁ body rate₁ login₁ allow₁)
    (h₂ : Forwarding host history₂ t₂ body rate₂ login₂ allow₂)
    (huser : lastSome (varWrite "user_id") login₁ = lastSome (varWrite "user_id") login₂)
    (hrole : lastSome (varWrite "role") login₁ = lastSome (varWrite "role") login₂) (k : String) :
    (upstreamHeaders (shippedLua host) (fun _ => shippedSources) t₁.peer t₁.req body
        (t₁.enter (vmAfter host history₁))).lookup k =
      (upstreamHeaders (shippedLua host) (fun _ => shippedSources) t₂.peer t₂.req body
        (t₂.enter (vmAfter host history₂))).lookup k := by
  by_cases hp : k = "x-proxy"
  · subst hp
    simp [upstreamHeaders]
  by_cases hf : k = "x-forwarded-for"
  · subst hf
    simp [upstreamHeaders, AList.lookup_insert_ne, hpeer, clientAddress_congr hreq]
  rw [upstream_lookup hlower h₁ hf hp, upstream_lookup hlower h₂ hf hp, huuid]
  have hset : transformHeaders (t₁.found host (rate₁ ++ login₁ ++ allow₁) body) (t₂.uuids 0) =
      transformHeaders (t₂.found host (rate₂ ++ login₂ ++ allow₂) body) (t₂.uuids 0) := by
    refine transformHeaders_congr ?_ ?_ _
    · rw [found_login h₁, found_login h₂, huser]
    · rw [found_login h₁, found_login h₂, hrole]
  rw [hset]
  by_cases hk : k ∈ credentialNames
  · rw [transformHeaders_credential hk]
    rfl
  · rw [clientHeader_congr hreq hk]

/-- Of the credentials a client shows, no more leaves than the user id and the role they stand
for: which target, whether the request can be built, and the request that leaves. -/
theorem credentials_confined (hlower : AsciiLower host) (hpeer : t₁.peer = t₂.peer)
    (hreq : EqualButCredentials host t₁.req t₂.req) (huuid : t₁.uuids 0 = t₂.uuids 0)
    (hpool : t₁.pool = t₂.pool)
    (hf₁ : (t₁.handle host (vmAfter host history₁)).Forwarded)
    (hf₂ : (t₂.handle host (vmAfter host history₂)).Forwarded)
    (huser : established host history₁ t₁ "user_id" = established host history₂ t₂ "user_id")
    (hrole : established host history₁ t₁ "role" = established host history₂ t₂ "role") :
    (t₁.handle host (vmAfter host history₁)).target =
        (t₂.handle host (vmAfter host history₂)).target ∧
      (∀ up₁ up₂, (t₁.handle host (vmAfter host history₁)).sent = some up₁ →
        (t₂.handle host (vmAfter host history₂)).sent = some up₂ → SameRequest up₁ up₂) ∧
      (t₁.http.uriOk = t₂.http.uriOk → t₁.http.headerOk = t₂.http.headerOk →
        (t₁.handle host (vmAfter host history₁)).sent.isSome =
          (t₂.handle host (vmAfter host history₂)).sent.isSome) := by
  obtain ⟨target₁, htarget₁⟩ := Option.isSome_iff_exists.mp hf₁
  obtain ⟨target₂, htarget₂⟩ := Option.isSome_iff_exists.mp hf₂
  obtain ⟨body, hrouted₁, hsent₁⟩ := (handleRequest_course (shippedLua host) t₁.http
    (fun _ => shippedSources) t₁.peer t₁.req (t₁.enter (vmAfter host history₁)) t₁.pool
    t₁.counters).of_target htarget₁
  obtain ⟨body₂, hrouted₂, hsent₂⟩ := (handleRequest_course (shippedLua host) t₂.http
    (fun _ => shippedSources) t₂.peer t₂.req (t₂.enter (vmAfter host history₂)) t₂.pool
    t₂.counters).of_target htarget₂
  obtain rfl : body = body₂ :=
    Except.ok.inj (hrouted₁.arrived.symm.trans (hreq.body.trans hrouted₂.arrived))
  obtain ⟨rate₁, login₁, allow₁, h₁⟩ := forwarding history₁ t₁ body hrouted₁.passed
  obtain ⟨rate₂, login₂, allow₂, h₂⟩ := forwarding history₂ t₂ body hrouted₂.passed
  rw [established_eq hrouted₁.arrived h₁ (by decide), established_eq hrouted₂.arrived h₂ (by decide)]
    at huser hrole
  obtain rfl : target₁ = target₂ := by
    have h := hrouted₁.target
    rw [chosen_congr hpeer hreq hpool h₁ h₂, hrouted₂.target] at h
    exact (Option.some.inj h).symm
  have hheaders := upstreamHeaders_congr hlower hpeer hreq huuid h₁ h₂ huser hrole
  refine ⟨htarget₁.trans htarget₂.symm, ?_, ?_⟩
  · intro up₁ up₂ hup₁ hup₂
    have hbuilt₁ := buildRequest_ok (ok_of_toOption (hsent₁.symm.trans hup₁))
    have hbuilt₂ := buildRequest_ok (ok_of_toOption (hsent₂.symm.trans hup₂))
    rw [hbuilt₁, hbuilt₂]
    exact ⟨hreq.method, by rw [hreq.path], hheaders, rfl⟩
  · intro huri hheader
    rw [Turn.handle, Turn.handle, hsent₁, hsent₂, upstreamRequest, upstreamRequest, hreq.method,
      hreq.path]
    exact buildRequest_congr huri hheader hheaders

def keyTurn : Turn := firstTurn "/api/v1/items" [("x-api-key", utf8 "test-api-key-reader")]

def authorizationTurn : Turn :=
  firstTurn "/api/v1/items" [("authorization", utf8 "ApiKey test-api-key-reader")]

theorem key_confined :
    (keyTurn.handle Host.plain (vmAfter Host.plain [])).target =
        (authorizationTurn.handle Host.plain (vmAfter Host.plain [keyTurn])).target ∧
      (∀ up₁ up₂, (keyTurn.handle Host.plain (vmAfter Host.plain [])).sent = some up₁ →
        (authorizationTurn.handle Host.plain (vmAfter Host.plain [keyTurn])).sent = some up₂ →
          SameRequest up₁ up₂) ∧
      (keyTurn.http.uriOk = authorizationTurn.http.uriOk →
        keyTurn.http.headerOk = authorizationTurn.http.headerOk →
        (keyTurn.handle Host.plain (vmAfter Host.plain [])).sent.isSome =
          (authorizationTurn.handle Host.plain (vmAfter Host.plain [keyTurn])).sent.isSome) := by
  have hheaders : otherHeaders Host.plain keyTurn.req.headers =
      otherHeaders Host.plain authorizationTurn.req.headers := by decide +kernel
  exact credentials_confined asciiLower_plain rfl ⟨rfl, rfl, rfl, hheaders, rfl⟩ rfl rfl
    (by decide +kernel) (by decide +kernel) (by decide +kernel) (by decide +kernel)

end TwoRuns

end LuaProxy.IdentityHeaders
