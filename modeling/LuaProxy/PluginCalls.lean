import LuaProxy.Plugins
import LuaProxy.HookCalls

/-! What each hook of the shipped plugins can do to a request: one list of `ctx` calls for
each way through it, up to where it may raise. -/
namespace LuaProxy.PluginCalls
open Text Lua LuaPattern Context HookMonad Engine Plugins HookCalls

section Calls
variable (host : Host) (ctx : RequestCtx)

/-- The ways through `rate_limit.lua`. -/
inductive RateCalls : List CtxCall → Prop
  | limited (retryAfter : String) :
      RateCalls [.setResHeader "retry-after" retryAfter, .reject 429 "Too Many Requests"]
  | admitted (remaining : String) :
      RateCalls [.setResHeader "x-ratelimit-remaining" remaining,
        .setResHeader "x-ratelimit-limit" (toString capacity)]

def header (k : String) : Option Bytes := (ctx.reqHeader host k).map utf8

/-- A key that `try_api_key` finds. -/
def PresentedKey (key : Bytes) : Prop :=
  header host ctx "x-api-key" = some key ∨ header host ctx "x-api-key" = none ∧
    ∃ auth, header host ctx "authorization" = some auth ∧ luaMatch₁ apiKeyPattern auth = some key

/-- Where a role that `auth.lua` stores comes from. -/
inductive RoleSource (secret : Bytes) : String → Prop
  | apiKey {key : Bytes} {role : String} (presented : PresentedKey host ctx key)
      (known : apiKeys.lookup key = some role) : RoleSource secret role
  | jwt {auth : Bytes} {now now' : ℤ} {claims : Table} {role : String}
      (presented : header host ctx "authorization" = some auth)
      (scheme : (luaMatch "^[Bb]earer%s+" auth).isSome)
      (verified : Jwt.verify host auth secret now now' = .ok (.ok claims))
      (text : toRustString host ((claims.get (utf8 "role")).or (.str (utf8 "user"))) = .ok role) :
      RoleSource secret role

/-- The ways through `auth.lua`. -/
inductive AuthCalls (secret : Bytes) : List CtxCall → Prop
  | publicPath (h : isPublic (utf8 ctx.reqPath) = true) :
      AuthCalls secret [.setVar "auth_method" "public"]
  | nothing (h : isPublic (utf8 ctx.reqPath) = false) : AuthCalls secret []
  | user (h : isPublic (utf8 ctx.reqPath) = false) (userId : String) :
      AuthCalls secret [.setVar "user_id" userId]
  | role (h : isPublic (utf8 ctx.reqPath) = false) (userId : String) {role : String}
      (hrole : RoleSource host ctx secret role) :
      AuthCalls secret [.setVar "user_id" userId, .setVar "role" role]
  | login (h : isPublic (utf8 ctx.reqPath) = false) (userId method : String) {role : String}
      (hrole : RoleSource host ctx secret role) (hmethod : method ≠ "public") :
      AuthCalls secret
        [.setVar "user_id" userId, .setVar "role" role, .setVar "auth_method" method]
  | challenge (h : isPublic (utf8 ctx.reqPath) = false) :
      AuthCalls secret [.setResHeader "www-authenticate" "Bearer realm=\"proxy\""]
  | refused (h : isPublic (utf8 ctx.reqPath) = false) (msg : String) :
      AuthCalls secret
        [.setResHeader "www-authenticate" "Bearer realm=\"proxy\"", .reject 401 msg]

/-- The ways through `authz.lua`. -/
inductive AuthzCalls : List CtxCall → Prop
  | publicPath (h : ctx.getVar "auth_method" = some "public") : AuthzCalls []
  | noRule (hrule : findRule (utf8 ctx.reqPath) = none) (hrole : (ctx.getVar "role").isSome) :
      AuthzCalls []
  | allowed {rule : Rule} (hrule : findRule (utf8 ctx.reqPath) = some rule)
      (hrole : hasRole (ctx.getVar "role") rule.roles = true) : AuthzCalls []
  | denied (msg : String) : AuthzCalls [.reject 403 msg]

def transformCalls (reqId : String) : List CtxCall :=
  (match ctx.getVar "user_id" with
    | some userId =>
      [.setReqHeader "x-user-id" userId,
        .setReqHeader "x-user-role" ((ctx.getVar "role").getD "anonymous")]
    | none => []) ++
  [.setReqHeader "authorization" "", .setReqHeader "x-api-key" "",
    .setReqHeader "x-request-id" reqId, .setVar "request_id" reqId]

theorem transformCalls_mem {ctx : RequestCtx} {reqId : String} {c : CtxCall}
    (h : c ∈ transformCalls ctx reqId) :
    (∃ k v, c = .setReqHeader k v) ∨ c = .setVar "request_id" reqId := by
  have hlast : ∀ c ∈ [CtxCall.setReqHeader "authorization" "", .setReqHeader "x-api-key" "",
      .setReqHeader "x-request-id" reqId, .setVar "request_id" reqId],
      (∃ k v, c = .setReqHeader k v) ∨ c = .setVar "request_id" reqId := by
    simp
  rcases List.mem_append.mp h with h | h
  · cases hu : ctx.getVar "user_id" with
    | none => simp [hu] at h
    | some userId =>
      simp only [hu, List.mem_cons, List.not_mem_nil, or_false] at h
      rcases h with rfl | rfl <;> exact Or.inl ⟨_, _, rfl⟩
  · exact hlast c h

/-- The upstream `transform.lua` routes a path to. -/
def routeName (path : String) : String :=
  if (luaMatch "^/api/v2/" (utf8 path)).isSome then "api_v2" else "default"

end Calls

section Hooks
variable {host : Host} {ctx : RequestCtx}

/-- A run that returns and makes no calls. -/
abbrev Quiet {α : Type} (m : PluginM host α) (ctx : RequestCtx) : Prop :=
  Makes Heap.uuids m ctx (fun _ cs => cs = []) fun _ => False

theorem quiet_bind {α β : Type} {m : PluginM host α} {f : α → PluginM host β}
    {post : β → List CtxCall → Prop} {err : List CtxCall → Prop} (hm : Quiet m ctx)
    (hf : ∀ a, Makes Heap.uuids (f a) ctx post err) : Makes Heap.uuids (m >>= f) ctx post err := by
  refine makes_bind (makes_mono hm (fun a cs hcs => ?_) fun cs h => h.elim)
  subst hcs
  exact hf a

theorem quiet_onHeap {α : Type} {f : Heap → Except LuaError α × Heap}
    (hk : ∀ heap, (f heap).2.uuids = heap.uuids) (hok : ∀ heap, ∃ a, (f heap).1 = .ok a) :
    Quiet (HookM.onHeap f : PluginM host α) ctx := by
  refine makes_onHeap hk (fun _ _ _ => rfl) fun heap e he => ?_
  obtain ⟨a, ha⟩ := hok heap
  rw [ha] at he
  simp at he

theorem ipFilter_makes : Quiet (ipFilter host) ctx := by
  unfold ipFilter
  refine makes_bind (makes_read ?_)
  refine makes_ite (fun h => absurd h (by simp [blocklist])) fun _ => ?_
  exact makes_ite (fun h => absurd h (by simp [allowlist])) fun _ => makes_pure rfl

theorem osTime_quiet : Quiet (osTime host) ctx := quiet_onHeap (fun _ => rfl) fun _ => ⟨_, rfl⟩

theorem writeBucket_quiet (buckets : ℕ) (key : String) (b : Bucket) :
    Quiet (writeBucket host buckets key b) ctx := quiet_onHeap (fun _ => rfl) fun _ => ⟨_, rfl⟩

theorem getBucket_quiet (buckets : ℕ) (key : String) : Quiet (getBucket host buckets key) ctx := by
  refine quiet_bind (quiet_onHeap (fun _ => rfl) fun _ => ⟨_, rfl⟩) fun b => ?_
  cases b with
  | some b => exact makes_pure rfl
  | none =>
    refine quiet_bind osTime_quiet fun now => ?_
    exact quiet_bind (writeBucket_quiet _ _ _) fun _ => makes_pure rfl

theorem rateLimit_makes (buckets : ℕ) :
    Makes Heap.uuids (rateLimit host buckets) ctx (fun _ => RateCalls) fun _ => False := by
  unfold rateLimit
  refine makes_bind (makes_read (makes_bind (makes_read ?_)))
  refine quiet_bind osTime_quiet fun now => ?_
  refine quiet_bind (getBucket_quiet _ _) fun b => ?_
  refine quiet_bind (writeBucket_quiet _ _ _) fun _ => ?_
  refine makes_ite (fun _ => ?_) fun _ => ?_
  · refine makes_bind (makes_call (makes_bind (makes_call (makes_pure ?_))))
    exact .limited _
  · refine quiet_bind (writeBucket_quiet _ _ _) fun _ => ?_
    refine makes_bind (makes_call (makes_bind (makes_call (makes_pure ?_))))
    exact .admitted _

end Hooks

section Auth
variable {host : Host} {ctx : RequestCtx} {secret : Bytes}

theorem setVar_bind {β : Type} {k : String} {v : Value} {f : Unit → PluginM host β}
    {post : β → List CtxCall → Prop} {err : List CtxCall → Prop} (he : err [])
    (hf : ∀ t, toRustString host v = .ok t →
      Makes Heap.uuids (f ()) (CtxCall.run host ctx (.setVar k t))
        (fun b cs => post b (.setVar k t :: cs)) fun cs => err (.setVar k t :: cs)) :
    Makes Heap.uuids (setVar host k v >>= f) ctx post err := by
  refine makes_bind (makes_bind (makes_ofExcept (fun t ht => ?_) fun _ _ => he))
  exact makes_call (hf t ht)

theorem toRustString_text (s : String) : toRustString host (.str (utf8 s)) = .ok s := by
  simp [toRustString]

theorem setText_bind {β : Type} {k s : String} {f : Unit → PluginM host β}
    {post : β → List CtxCall → Prop} {err : List CtxCall → Prop}
    (hf : Makes Heap.uuids (f ()) (CtxCall.run host ctx (.setVar k s))
      (fun b cs => post b (.setVar k s :: cs)) fun cs => err (.setVar k s :: cs)) :
    Makes Heap.uuids (setVar host k (.str (utf8 s)) >>= f) ctx post err := by
  refine makes_bind (makes_bind (makes_ofExcept (fun t ht => ?_) fun e he => ?_))
  · rw [toRustString_text] at ht
    obtain rfl := Except.ok.inj ht
    exact makes_call hf
  · rw [toRustString_text] at he
    simp at he

theorem log_bind {β : Type} {text : Bytes} {f : Unit → PluginM host β}
    {post : β → List CtxCall → Prop} {err : List CtxCall → Prop} (he : err [])
    (hf : Makes Heap.uuids (f ()) ctx post err) :
    Makes Heap.uuids (log host text >>= f) ctx post err :=
  makes_bind (makes_bind (makes_ofExcept (fun _ _ => makes_pure hf) fun _ _ => he))

/-- The key `try_api_key` starts from; indexing a missing `authorization` raises. -/
theorem presentedKey_makes : Makes Heap.uuids (presentedKey host) ctx
    (fun key cs => cs = [] ∧ (key = none → header host ctx "x-api-key" = none) ∧
      ∀ k, key = some k → PresentedKey host ctx k) fun cs => cs = [] := by
  unfold presentedKey
  refine makes_bind (makes_read ?_)
  have hx : (ctx.reqHeader host "x-api-key").map utf8 = header host ctx "x-api-key" := rfl
  rw [hx]
  cases hkey : header host ctx "x-api-key" with
  | some key =>
    refine makes_pure ⟨rfl, by simp, ?_⟩
    rintro k ⟨⟩
    exact Or.inl hkey
  | none =>
    refine makes_bind (makes_read ?_)
    have ha : (CtxCall.runAll host ctx []).reqHeader host "authorization" =
        ctx.reqHeader host "authorization" := rfl
    have hauth : (ctx.reqHeader host "authorization").map utf8 =
        header host ctx "authorization" := rfl
    rw [ha, hauth]
    cases hfound : header host ctx "authorization" with
    | some auth =>
      refine makes_pure ⟨rfl, fun _ => rfl, fun k hk => ?_⟩
      exact Or.inr ⟨hkey, auth, hfound, hk⟩
    | none => exact makes_raise rfl

/-- `try_api_key` stores a role only for a known key that was presented. -/
theorem tryApiKey_makes (h : isPublic (utf8 ctx.reqPath) = false) :
    Makes Heap.uuids (tryApiKey host) ctx
      (fun found cs => if found then AuthCalls host ctx secret cs else cs = [])
      (AuthCalls host ctx secret) := by
  unfold tryApiKey
  refine makes_bind (makes_mono presentedKey_makes (fun key cs hkey => ?_) fun cs hcs => ?_)
  · obtain ⟨rfl, hnone, hsome⟩ := hkey
    refine makes_bind (makes_read ?_)
    have hauth : ((CtxCall.runAll host ctx []).reqHeader host "authorization").map utf8 =
        header host ctx "authorization" := rfl
    rw [hauth]
    have hpres : ∀ k, key.or ((header host ctx "authorization").bind fun auth =>
        luaMatch₁ apiKeyPattern auth) = some k → PresentedKey host ctx k := by
      intro k hk
      cases key with
      | some k' => exact hsome k hk
      | none =>
        obtain ⟨auth, ha, hm⟩ := Option.bind_eq_some_iff.mp hk
        exact Or.inr ⟨hnone rfl, auth, ha, hm⟩
    generalize key.or ((header host ctx "authorization").bind fun auth =>
      luaMatch₁ apiKeyPattern auth) = key' at hpres
    cases key' with
    | none => exact makes_pure rfl
    | some key =>
      dsimp only
      cases hrole : apiKeys.lookup key with
      | none => exact makes_pure rfl
      | some role =>
        have hsource : RoleSource host ctx secret role := .apiKey (hpres key rfl) hrole
        refine setVar_bind (.nothing h) fun userId _ => ?_
        refine setText_bind (setText_bind ?_)
        have hlogin : AuthCalls host ctx secret _ := .login h userId "api_key"
          hsource (by decide)
        exact log_bind hlogin (makes_pure hlogin)
  · subst hcs
    exact .nothing h

/-- `try_jwt` stores a role only after the token's signature and claims were checked. -/
theorem tryJwt_makes (jwtLib : Bool) (h : isPublic (utf8 ctx.reqPath) = false) :
    Makes Heap.uuids (tryJwt host secret jwtLib) ctx
      (fun r cs => if r.isOk then AuthCalls host ctx secret cs else cs = [])
      (AuthCalls host ctx secret) := by
  unfold tryJwt
  refine makes_bind (makes_read ?_)
  have hauth : (ctx.reqHeader host "authorization").map utf8 = header host ctx "authorization" := rfl
  rw [hauth]
  cases hfound : header host ctx "authorization" with
  | none => exact makes_pure rfl
  | some auth =>
    refine makes_ite (fun _ => makes_pure rfl) fun hscheme => ?_
    refine makes_ite (fun _ => makes_pure rfl) fun _ => ?_
    refine quiet_bind osTime_quiet fun now => ?_
    refine quiet_bind osTime_quiet fun now' => ?_
    refine makes_bind (makes_ofExcept (fun r hv => ?_) fun _ _ => .nothing h)
    cases r with
    | error err => exact makes_pure rfl
    | ok claims =>
      have hsome : (luaMatch "^[Bb]earer%s+" auth).isSome := by
        simpa [Option.isSome_iff_ne_none] using hscheme
      refine setVar_bind (.nothing h) fun userId _ => ?_
      refine setVar_bind (.user h userId) fun role hr => ?_
      have hsource : RoleSource host ctx secret role := .jwt hfound hsome hv hr
      apply setText_bind
      have hlogin : AuthCalls host ctx secret _ := .login h userId "jwt" hsource
        (by decide)
      refine makes_bind (makes_ofExcept (fun sub _ => ?_) fun _ _ => hlogin)
      refine makes_bind (makes_ofExcept (fun role _ => ?_) fun _ _ => hlogin)
      exact log_bind hlogin (makes_pure hlogin)

theorem auth_makes (jwtLib : Bool) :
    Makes Heap.uuids (auth host secret jwtLib) ctx (fun _ => AuthCalls host ctx secret)
      (AuthCalls host ctx secret) := by
  unfold auth
  refine makes_bind (makes_read ?_)
  refine makes_ite (fun hp => setText_bind (makes_pure (.publicPath hp))) fun hp => ?_
  have h : isPublic (utf8 ctx.reqPath) = false := by simpa using hp
  have hkey : Makes Heap.uuids (tryApiKey host) ctx
      (fun found cs => if found then AuthCalls host ctx secret cs else cs = [])
      (AuthCalls host ctx secret) := tryApiKey_makes h
  refine makes_bind (makes_mono hkey (fun found cs hfound => ?_) fun cs hcs => hcs)
  cases found with
  | true => exact makes_pure (by simpa using hfound)
  | false =>
    obtain rfl : cs = [] := hfound
    have hjwt : Makes Heap.uuids (tryJwt host secret jwtLib) ctx
        (fun r cs => if r.isOk then AuthCalls host ctx secret cs else cs = [])
        (AuthCalls host ctx secret) := tryJwt_makes jwtLib h
    refine makes_bind (makes_mono hjwt (fun r cs hr => ?_) fun cs hcs => hcs)
    cases r with
    | ok u => exact makes_pure (by simpa [Except.isOk, Except.toBool] using hr)
    | error err =>
      obtain rfl : cs = [] := hr
      refine log_bind (.nothing h) (makes_bind (makes_call ?_))
      refine makes_bind (makes_bind (makes_ofExcept (fun msg _ => ?_) fun _ _ => .challenge h))
      exact makes_call (makes_pure (.refused h msg))

end Auth

section Others
variable {host : Host} {ctx : RequestCtx}

theorem authz_makes : Makes Heap.uuids (authz host) ctx (fun _ => AuthzCalls ctx) fun _ => False := by
  unfold authz
  refine makes_bind (makes_read (makes_bind (makes_read (makes_bind (makes_read ?_)))))
  refine makes_ite (fun hm => makes_pure (.publicPath hm)) fun _ => ?_
  cases hrule : findRule (utf8 ctx.reqPath) with
  | none =>
    refine makes_ite (fun _ => ?_) fun hr => makes_pure (.noRule hrule ?_)
    · exact makes_bind (makes_call (makes_pure (.denied _)))
    · simpa [Option.isSome_iff_ne_none] using hr
  | some rule =>
    refine makes_ite (fun hr => makes_pure (.allowed hrule hr)) fun _ => ?_
    exact makes_bind (makes_call (makes_pure (.denied _)))

theorem transformRequest_run (host : Host) (ctx : RequestCtx) (vm : Vm Closure Heap) :
    (transformRequest host vm ctx).calls = transformCalls ctx (vm.heap.uuids 0) ∧
      (transformRequest host vm ctx).result = .ok .nil ∧
      ∀ hook, (transformRequest host vm ctx).assigned hook = none := by
  cases hu : ctx.getVar "user_id" with
  | none =>
    simp [transformRequest, transformCalls, hu, bind, HookM.bind, HookM.read, HookM.call, uuidV4,
      HookM.onHeap, Ran.vm, pure, HookM.pure]
  | some userId =>
    simp [transformRequest, transformCalls, hu, bind, HookM.bind, HookM.read, HookM.call, uuidV4,
      HookM.onHeap, Ran.vm, pure, HookM.pure]

theorem transformRoute_run (host : Host) (ctx : RequestCtx) (vm : Vm Closure Heap) :
    (transformRoute host vm ctx).calls = [.upstream (routeName ctx.reqPath)] ∧
      (transformRoute host vm ctx).result = .ok (.str (utf8 (routeName ctx.reqPath))) ∧
      ∀ hook, (transformRoute host vm ctx).assigned hook = none := by
  by_cases hv2 : (luaMatch "^/api/v2/" (utf8 ctx.reqPath)).isSome
  · simp [transformRoute, routeName, hv2, bind, HookM.bind, HookM.read, HookM.call, pure,
      HookM.pure]
  · simp [transformRoute, routeName, hv2, bind, HookM.bind, HookM.read, HookM.call, pure,
      HookM.pure]

theorem transformResponse_makes : Makes Heap.uuids (transformResponse host) ctx
    (fun _ _ => True) fun _ => True := by
  have hset : ∀ (k v : String) (ctx : RequestCtx) {β : Type} {f : Unit → PluginM host β},
      Makes Heap.uuids (f ()) (CtxCall.run host ctx (.setResHeader k v)) (fun _ _ => True)
        (fun _ => True) →
      Makes Heap.uuids (HookM.call (.setResHeader k v) >>= f) ctx (fun _ _ => True) fun _ => True :=
    fun k v ctx β f h => makes_bind (makes_call h)
  unfold transformResponse
  refine hset _ _ _ (hset _ _ _ (hset _ _ _ (hset _ _ _ (makes_bind (makes_read ?_)))))
  generalize RequestCtx.reqHeader host _ "origin" = origin
  cases origin with
  | some origin =>
    refine hset _ _ _ (hset _ _ _ (makes_bind (makes_read ?_)))
    generalize RequestCtx.getVar _ "request_id" = reqId
    cases reqId with
    | some reqId => exact hset _ _ _ (hset _ _ _ (makes_pure trivial))
    | none => exact hset _ _ _ (makes_pure trivial)
  | none =>
    refine makes_bind (makes_read ?_)
    generalize RequestCtx.getVar _ "request_id" = reqId
    cases reqId with
    | some reqId => exact hset _ _ _ (hset _ _ _ (makes_pure trivial))
    | none => exact hset _ _ _ (makes_pure trivial)

theorem call_assigned (fn : Closure) (vm : Vm Closure Heap) (hook : Hook) :
    ((shippedLua host).call fn vm ctx).assigned hook = none := by
  cases fn with
  | ipFilter => exact (ipFilter_makes vm).1 hook
  | rateLimit buckets => exact (rateLimit_makes buckets vm).1 hook
  | auth secret jwtLib => exact (auth_makes jwtLib vm).1 hook
  | authz => exact (authz_makes vm).1 hook
  | transformRequest => exact (transformRequest_run host ctx vm).2.2 hook
  | transformRoute => exact (transformRoute_run host ctx vm).2.2 hook
  | transformResponse => exact (transformResponse_makes vm).1 hook

end Others

end LuaProxy.PluginCalls
