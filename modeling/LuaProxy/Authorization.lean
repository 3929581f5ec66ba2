import LuaProxy.JwtFormat
import LuaProxy.ShippedPipeline
import LuaProxy.FailClosed
import LuaProxy.PluginCalls

/-! Who gets through the shipped pipeline. `auth.lua` may raise half-way and the phase goes
on, so what counts is what it has left in the context by then: a role is only ever left
there for a valid credential, and `authz.lua` rejects without one. -/
namespace LuaProxy.Authorization
open Text Lua LuaPattern Context HookMonad Engine Handler Jwt JwtFormat Plugins HookSpec HookCalls
  PluginCalls ShippedPipeline Upstream

section Credentials

/-- `ApiKey`, blanks, and the key. -/
def ApiKeyHeader (text key : Bytes) : Prop :=
  ∃ blanks, blanks ≠ [] ∧ Blank blanks ∧ text = utf8 "ApiKey" ++ blanks ++ key

def PresentsKey (headers : String → Option Bytes) (key : Bytes) : Prop :=
  headers "x-api-key" = some key ∨ headers "x-api-key" = none ∧
    ∃ auth, headers "authorization" = some auth ∧ ApiKeyHeader auth key

/-- The credentials that give a role, over the headers as plugins see them. -/
inductive Credential (host : Host) (headers : String → Option Bytes) : String → Prop
  | apiKey {key : Bytes} {role : String}
      (presented : PresentsKey headers key) (known : apiKeys.lookup key = some role) : Credential host headers role
  | jwt {auth raw payloadB64 : Bytes} {now now' : ℤ} {claims : Table} {role : String}
      (presented : headers "authorization" = some auth) (bearer : Bearer auth raw)
      (signed : SignedText host raw (jwtSecret host) payloadB64)
      (valid : checkClaims host payloadB64 now now' = .ok (.ok claims))
      (parsed : toRustString host ((claims.get (utf8 "role")).or (.str (utf8 "user"))) = .ok role) :
      Credential host headers role

/-- The first rule that matches the path, if there is one, lists the role. -/
def RoleAllowed (path : Bytes) (role : String) : Prop :=
  ∀ rule, findRule path = some rule → ∃ roles, rule.roles = some roles ∧ role ∈ roles

theorem parse_apiKey : parse (utf8 apiKeyPattern) =
    some ⟨true, (utf8 "ApiKey").map (fun c => .one (.one (.lit c))) ++
      .plus (.one .space) :: restItems⟩ := by decide

theorem apiKey_capture {text key : Bytes} (h : luaMatch₁ apiKeyPattern text = some key) :
    ApiKeyHeader text key := by
  rw [luaMatch₁, luaMatch_eq parse_apiKey] at h
  obtain ⟨vs, hvs, hkey⟩ := Option.bind_eq_some_iff.mp h
  obtain ⟨⟨rest, ws⟩, hm, rfl⟩ := Option.map_eq_some_iff.mp hvs
  obtain ⟨⟨r, cs⟩, hh, hcap⟩ := Option.map_eq_some_iff.mp hm
  obtain ⟨blanks, t, hne, hbl, rfl, rfl, rfl⟩ := matchHere_scheme hh
  simp only [captures, Prod.mk.injEq] at hcap
  rw [← hcap.2] at hkey
  obtain rfl : t = key := by simpa [Capture.text] using hkey
  exact ⟨blanks, hne, hbl, rfl⟩

end Credentials

section Paths

/-- An anchored pattern of plain characters. -/
def litItems (w : Bytes) : List Item := w.map fun c => .one (.one (.lit c))

theorem luaMatch_starts (pattern : String) {w : Bytes}
    (h : parse (utf8 pattern) = some ⟨true, litItems w⟩) (s : Bytes) :
    (luaMatch pattern s).isSome = true ↔ w <+: s := by
  have hm := matchHere_lits w [] s []
  rw [List.append_nil] at hm
  rw [luaMatch_eq h]
  simp only [Pattern.find, if_true, matchAt, litItems, hm]
  split_ifs with hw <;> simp [hw, matchHere]

theorem luaMatch_exact (pattern : String) {w : Bytes}
    (h : parse (utf8 pattern) = some ⟨true, litItems w ++ [.eos]⟩) (s : Bytes) :
    (luaMatch pattern s).isSome = true ↔ s = w := by
  rw [luaMatch_eq h]
  simp only [Pattern.find, if_true, matchAt, litItems, matchHere_lits]
  constructor
  · intro hs
    split_ifs at hs with hw
    · obtain ⟨t, rfl⟩ := hw
      cases t with
      | nil => simp
      | cons b t => simp [matchHere] at hs
    · simp at hs
  · rintro rfl
    simp [matchHere]

theorem isPublic_iff (path : Bytes) :
    isPublic path = true ↔ path = utf8 "/health" ∨ path = utf8 "/metrics" ∨
      utf8 "/public/" <+: path := by
  have h₁ := luaMatch_exact "^/health$" (w := utf8 "/health") (by decide) path
  have h₂ := luaMatch_exact "^/metrics$" (w := utf8 "/metrics") (by decide) path
  have h₃ := luaMatch_starts "^/public/" (w := utf8 "/public/") (by decide) path
  simp [isPublic, publicPaths, h₁, h₂, h₃]

theorem rule_open {path : Bytes} {rule : Rule} (h : findRule path = some rule)
    (hr : rule.roles = none) : isPublic path = true := by
  have hm := List.find?_some h
  have hmem := List.mem_of_find?_eq_some h
  have hpat : rule.pattern ∈ publicPaths := by
    simp only [rules, List.mem_cons, List.not_mem_nil, or_false] at hmem
    rcases hmem with rfl | rfl | rfl | rfl | rfl | rfl | rfl <;> simp_all [publicPaths]
  exact List.any_eq_true.mpr ⟨rule.pattern, hpat, hm⟩

end Paths

section Invariant
variable (host : Host) (ctx₀ : RequestCtx)

def headersOf (ctx : RequestCtx) (k : String) : Option Bytes := (ctx.reqHeader host k).map utf8

/-- What holds of the context before `authz.lua`, however far the plugins got. -/
structure AuthState (ctx : RequestCtx) : Prop where
  path : ctx.reqPath = ctx₀.reqPath
  headers : ctx.reqHeaders = ctx₀.reqHeaders
  role : ∀ r, ctx.getVar "role" = some r → Credential host (headersOf host ctx₀) r
  publicPath : ctx.getVar "auth_method" = some "public" → isPublic (utf8 ctx₀.reqPath) = true

def Authorized (ctx : RequestCtx) : Prop :=
  ctx.isRejected = true ∨ isPublic (utf8 ctx₀.reqPath) = true ∨
    ∃ r, ctx.getVar "role" = some r ∧ Credential host (headersOf host ctx₀) r ∧
      RoleAllowed (utf8 ctx₀.reqPath) r

variable {host ctx₀} {ctx : RequestCtx}

theorem AuthState.reject (h : AuthState host ctx₀ ctx) (status : UInt16) (msg : String) :
    AuthState host ctx₀ (CtxCall.run host ctx (.reject status msg)) :=
  ⟨h.path, h.headers, h.role, h.publicPath⟩

theorem AuthState.setResHeader (h : AuthState host ctx₀ ctx) (k v : String) :
    AuthState host ctx₀ (CtxCall.run host ctx (.setResHeader k v)) :=
  ⟨h.path, h.headers, h.role, h.publicPath⟩

theorem getVar_setVar (k k' v : String) :
    (CtxCall.run host ctx (.setVar k v)).getVar k' = if k' = k then some v else ctx.getVar k' := by
  by_cases hk : k' = k
  · subst hk
    simp [CtxCall.run, RequestCtx.getVar]
  · simp [CtxCall.run, RequestCtx.getVar, hk]

theorem AuthState.setVar (h : AuthState host ctx₀ ctx) {k v : String}
    (hrole : k = "role" → Credential host (headersOf host ctx₀) v)
    (hpub : k = "auth_method" → v = "public" → isPublic (utf8 ctx₀.reqPath) = true) :
    AuthState host ctx₀ (CtxCall.run host ctx (.setVar k v)) := by
  refine ⟨h.path, h.headers, ?_, ?_⟩
  · intro r hr
    rw [getVar_setVar] at hr
    split_ifs at hr with hk
    · obtain rfl := Option.some.inj hr
      exact hrole hk.symm
    · exact h.role r hr
  · intro hr
    rw [getVar_setVar] at hr
    split_ifs at hr with hk
    · exact hpub hk.symm (Option.some.inj hr)
    · exact h.publicPath hr

theorem AuthState.headersOf_eq (h : AuthState host ctx₀ ctx) (k : String) :
    headersOf host ctx k = headersOf host ctx₀ k := by
  simp [headersOf, RequestCtx.reqHeader, h.headers]

theorem Authorized.run (h : Authorized host ctx₀ ctx) {c : CtxCall}
    (hc : ∀ v, c ≠ .setVar "role" v) : Authorized host ctx₀ (CtxCall.run host ctx c) := by
  rcases h with h | h | ⟨r, hr, hcred, hallow⟩
  · left
    have hrej := CtxCall.run_rejected host ctx c
    simp only [RequestCtx.isRejected] at h ⊢
    rw [hrej, h, Bool.true_or]
  · exact Or.inr (Or.inl h)
  · refine Or.inr (Or.inr ⟨r, ?_, hcred, hallow⟩)
    cases c with
    | setVar k v =>
      have hk : "role" ≠ k := by
        rintro rfl
        exact hc v rfl
      rw [getVar_setVar, if_neg hk]
      exact hr
    | upstream name => simpa [CtxCall.run, RequestCtx.getVar] using hr
    | _ => exact hr

end Invariant

section Plugins
variable {host : Host} {ctx₀ ctx : RequestCtx}

/-- Keeping an assertion, whether the run returns or raises. -/
abbrev Keeps {α : Type} (I : RequestCtx → Prop) (m : PluginM host α) (ctx : RequestCtx) : Prop :=
  Ensures m ctx (fun _ => I) I

theorem AuthState.storeUser (h : AuthState host ctx₀ ctx) (v : String) :
    AuthState host ctx₀ (CtxCall.run host ctx (.setVar "user_id" v)) :=
  h.setVar (fun he => absurd he (by decide)) fun he => absurd he (by decide)

theorem AuthState.storeRole (h : AuthState host ctx₀ ctx) {r : String}
    (hr : Credential host (headersOf host ctx₀) r) :
    AuthState host ctx₀ (CtxCall.run host ctx (.setVar "role" r)) :=
  h.setVar (fun _ => hr) fun he => absurd he (by decide)

theorem AuthState.storeMethod (h : AuthState host ctx₀ ctx) {m : String} (hm : m ≠ "public") :
    AuthState host ctx₀ (CtxCall.run host ctx (.setVar "auth_method" m)) :=
  h.setVar (fun he => absurd he (by decide)) fun _ he => absurd he hm

theorem ipFilter_keeps (h : AuthState host ctx₀ ctx) :
    Keeps (AuthState host ctx₀) (ipFilter host) ctx := by
  refine ipFilter_makes.total.ensures fun cs hcs => ?_
  obtain rfl : cs = [] := hcs
  exact h

theorem rateLimit_keeps (buckets : ℕ) (h : AuthState host ctx₀ ctx) :
    Keeps (AuthState host ctx₀) (rateLimit host buckets) ctx := by
  refine (rateLimit_makes buckets).total.ensures fun cs hcs => ?_
  cases hcs with
  | limited retryAfter => exact (h.setResHeader _ _).reject _ _
  | admitted remaining => exact (h.setResHeader _ _).setResHeader _ _

theorem role_credential {role : String} (h : RoleSource host ctx (jwtSecret host) role) :
    Credential host (headersOf host ctx) role := by
  cases h with
  | apiKey presented known =>
    refine .apiKey ?_ known
    rcases presented with hkey | ⟨hnone, auth, hauth, hmatch⟩
    · exact Or.inl hkey
    · exact Or.inr ⟨hnone, auth, hauth, apiKey_capture hmatch⟩
  | jwt presented scheme verified text =>
    obtain ⟨payloadB64, hsigned, hvalid⟩ := verify_sound verified
    obtain ⟨raw, hbearer, hraw⟩ := bearer_of_scheme scheme hsigned
    exact .jwt presented hbearer hraw hvalid text

theorem auth_keeps (jwtLib : Bool) (h : AuthState host ctx₀ ctx) :
    Keeps (AuthState host ctx₀) (auth host (jwtSecret host) jwtLib) ctx := by
  have hcred : ∀ {role}, RoleSource host ctx (jwtSecret host) role →
      Credential host (headersOf host ctx₀) role := by
    intro role hrole
    have hheaders : headersOf host ctx = headersOf host ctx₀ := funext h.headersOf_eq
    rw [← hheaders]
    exact role_credential hrole
  refine (auth_makes jwtLib).ensures fun cs hcs => ?_
  cases hcs with
  | publicPath hp =>
    rw [h.path] at hp
    exact h.setVar (fun he => absurd he (by decide)) fun _ _ => hp
  | nothing _ => exact h
  | user _ userId => exact h.storeUser userId
  | role _ userId hrole => exact (h.storeUser userId).storeRole (hcred hrole)
  | login _ userId method hrole hmethod =>
    exact ((h.storeUser userId).storeRole (hcred hrole)).storeMethod hmethod
  | challenge _ => exact h.setResHeader _ _
  | refused _ msg => exact (h.setResHeader _ _).reject 401 msg

theorem authz_authorizes (h : AuthState host ctx₀ ctx) :
    Ensures (authz host) ctx (fun _ => Authorized host ctx₀) (Authorized host ctx₀) := by
  refine authz_makes.total.ensures fun cs hcs => ?_
  cases hcs with
  | publicPath hm => exact Or.inr (Or.inl (h.publicPath hm))
  | noRule hrule hrole =>
    obtain ⟨r, hr⟩ := Option.isSome_iff_exists.mp hrole
    refine Or.inr (Or.inr ⟨r, hr, h.role r hr, ?_⟩)
    intro rule he
    rw [← h.path, hrule] at he
    simp at he
  | allowed hrule hrole =>
    rename_i rule
    rw [h.path] at hrule
    cases hroles : rule.roles with
    | none => exact Or.inr (Or.inl (rule_open hrule hroles))
    | some roles =>
      rw [hroles] at hrole
      obtain ⟨r, hmem, heq⟩ := List.any_eq_true.mp hrole
      have hvar : ctx.getVar "role" = some r := (beq_iff_eq.mp heq).symm
      refine Or.inr (Or.inr ⟨r, hvar, h.role r hvar, ?_⟩)
      intro rule' he
      rw [hrule] at he
      obtain rfl := Option.some.inj he
      exact ⟨roles, hroles, hmem⟩
  | denied msg => exact Or.inl rfl

theorem Authorized.runAll (h : Authorized host ctx₀ ctx) {calls : List CtxCall}
    (hcalls : ∀ c ∈ calls, ∀ v, c ≠ .setVar "role" v) :
    Authorized host ctx₀ (CtxCall.runAll host ctx calls) := by
  induction calls generalizing ctx with
  | nil => exact h
  | cons c cs ih => exact ih (h.run (hcalls c (by simp))) fun c' hc' => hcalls c' (by simp [hc'])

theorem transformRequest_keeps (h : Authorized host ctx₀ ctx) :
    Keeps (Authorized host ctx₀) (transformRequest host) ctx := by
  intro vm
  obtain ⟨hcalls, hresult, -⟩ := transformRequest_run host ctx vm
  rw [hresult, hcalls]
  refine h.runAll fun c hc v hv => ?_
  rcases transformCalls_mem hc with ⟨k, w, rfl⟩ | rfl
  · simp at hv
  · simp at hv

end Plugins

section Pipeline
variable {host : Host}

/-- After the `on_request` phase of the shipped pipeline the context is rejected, or the
path public, or a role set that is backed by a credential and that the rules allow. -/
theorem onRequest_authorized (vm : Vm Closure Heap) (ctx₀ : RequestCtx) (h₀ : ctx₀.vars = ∅)
    (hr : (runOnRequest (shippedLua host) shippedSources vm ctx₀).ctx.isRejected = false) :
    Authorized host ctx₀ (runOnRequest (shippedLua host) shippedSources vm ctx₀).ctx := by
  have hstart : AuthState host ctx₀ ctx₀ := by
    refine ⟨rfl, rfl, ?_, ?_⟩
    · intro r hrole
      simp [RequestCtx.getVar, h₀] at hrole
    · intro hpub
      simp [RequestCtx.getVar, h₀] at hpub
  have hstop := FailClosed.runOnRequest_stopped (shippedLua host) hr
  change (runHooks _ _ _ _ ["ip_filter.lua", "rate_limit.lua", "auth.lua", "authz.lua",
    "transform.lua"] vm ctx₀).stopped = none at hstop
  change Authorized host ctx₀ (runHooks _ _ _ _ ["ip_filter.lua", "rate_limit.lua", "auth.lua",
    "authz.lua", "transform.lua"] vm ctx₀).ctx
  obtain ⟨vm₁, ctx₁, h₁, hstop₁, he₁⟩ := runHooks_round (shippedLua host) .ipFilter hstop
    source_ipFilter (defines_ipFilter host _)
    (by rintro fn rfl; exact ipFilter_keeps hstart)
  obtain ⟨vm₂, ctx₂, h₂, hstop₂, he₂⟩ := runHooks_round (shippedLua host) .rateLimit hstop₁
    source_rateLimit (defines_rateLimit host _)
    (by rintro fn ⟨b, rfl⟩; exact rateLimit_keeps b h₁)
  obtain ⟨vm₃, ctx₃, h₃, hstop₃, he₃⟩ := runHooks_round (shippedLua host) .auth hstop₂
    source_auth (defines_auth host _)
    (by rintro fn ⟨jwtLib, rfl⟩; exact auth_keeps jwtLib h₂)
  obtain ⟨vm₄, ctx₄, h₄, hstop₄, he₄⟩ := runHooks_round (shippedLua host) .authz hstop₃
    source_authz (defines_authz host _)
    (by rintro fn rfl; exact authz_authorizes h₃)
  obtain ⟨vm₅, ctx₅, h₅, -, he₅⟩ := runHooks_round (shippedLua host) .transform hstop₄
    source_transform (defines_transform host _)
    (by rintro fn rfl; exact transformRequest_keeps h₄)
  rw [he₁, he₂, he₃, he₄, he₅]
  exact h₅

def requestHeaders (host : Host) (req : Request) (k : String) : Option Bytes :=
  ((RequestCtx.headersTable host (headerMap host req.headers)).lookup k).map utf8

variable (http : Http) (peer : String) (req : Request) (vm : Vm Closure Heap) (pool : UpstreamPool)
  (counters : Counters)

/-- A forwarded request left the `on_request` phase with the role of a valid credential, and
the first rule for its path allows that role, unless the path is public. -/
theorem forwarded_role
    (hf : (handleRequest (shippedLua host) http (fun _ => shippedSources) peer req vm pool
      counters).Forwarded) (hp : isPublic (utf8 req.path) = false) :
    ∃ body role, req.body = .ok body ∧
      (runOnRequest (shippedLua host) shippedSources vm
        (requestCtx host req peer body)).ctx.getVar "role" = some role ∧
      Credential host (requestHeaders host req) role ∧ RoleAllowed (utf8 req.path) role := by
  obtain ⟨body, hbody, hrej, -⟩ := (forwarded_iff _ http _ peer req vm pool counters).mp hf
  rcases onRequest_authorized vm (requestCtx host req peer body) rfl hrej with h | h | h
  · rw [hrej] at h
    exact Bool.noConfusion h
  · change isPublic (utf8 req.path) = true at h
    rw [hp] at h
    exact Bool.noConfusion h
  · obtain ⟨role, hvar, hcred, hallow⟩ := h
    exact ⟨body, role, hbody, hvar, hcred, hallow⟩

/-- Whatever raises on the way, only a credential whose role the rules allow gets a request
for a path that is not public to an upstream. -/
theorem forwarded_authorized
    (hf : (handleRequest (shippedLua host) http (fun _ => shippedSources) peer req vm pool
      counters).Forwarded) (hp : isPublic (utf8 req.path) = false) :
    ∃ role, Credential host (requestHeaders host req) role ∧ RoleAllowed (utf8 req.path) role := by
  obtain ⟨-, role, -, -, h⟩ := forwarded_role http peer req vm pool counters hf hp
  exact ⟨role, h⟩

def newVm : Vm Closure Heap := ⟨fun _ => none, ⟨[], fun _ => 1700000000, fun _ => "id", fun _ => true⟩⟩

def keyRequest : Request :=
  ⟨"GET", "/api/v1/data", none, [("x-api-key", utf8 "test-api-key-reader")], .ok []⟩

theorem key_request_authorized :
    ∃ role, Credential Host.plain (requestHeaders Host.plain keyRequest) role ∧
      RoleAllowed (utf8 "/api/v1/data") role :=
  forwarded_authorized Http.down "127.0.0.1" keyRequest newVm FailClosed.plainPool ∅
    (by decide +kernel) (by decide +kernel)

end Pipeline

end LuaProxy.Authorization
