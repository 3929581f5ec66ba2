import LuaProxy.AuthDecision
import LuaProxy.DotSegments
import LuaProxy.UserBuckets
import LuaProxy.RoleRules

/-! Access by path under dot segments. The rules are matched with the path as it came, and so it
goes to the upstream, which may read it without its dot segments. -/
namespace LuaProxy.PathAccess
open Text Lua LuaPattern Context HookMonad HookRuns Engine Handler Jwt JwtCodec JwtFormat JwtToken JwtOutcome Plugins
  PluginCalls PluginSteps ShippedPipeline HookSteps HookCalls Authorization AuthDecision CtxWrites BucketRuns
  UserBuckets ShippedRun Upstream DotSegments

section Rounds
variable {host : Host} {vm : Vm Closure Heap} {ctx : RequestCtx}

theorem authz_public (h : ctx.getVar "auth_method" = some "public") :
    Runs (authz host) vm ctx [] vm.heap (.ok .nil) :=
  runs_read (runs_read (runs_read (runs_if h (runs_pure _))))

theorem authz_allows {role : String} (h : ctx.getVar "auth_method" ≠ some "public")
    (hrole : ctx.getVar "role" = some role) (hallow : RoleAllowed (utf8 ctx.reqPath) role) :
    Runs (authz host) vm ctx [] vm.heap (.ok .nil) := by
  refine runs_read (runs_read (runs_read (runs_else h ?_)))
  cases hrule : findRule (utf8 ctx.reqPath) with
  | none =>
    refine runs_else (by simp [hrole]) (runs_pure _)
  | some rule =>
    obtain ⟨roles, hroles, hmem⟩ := hallow rule hrule
    have hhas : hasRole (ctx.getVar "role") rule.roles = true := by
      rw [hroles, hrole]
      exact List.any_eq_true.mpr ⟨role, hmem, by simp⟩
    exact runs_if hhas (runs_pure _)

theorem auth_visit (vm : Vm Closure Heap) (ctx : RequestCtx) :
    visit (shippedLua host) .onRequest shippedSources.sources "auth.lua" vm ctx =
      .called (exec host "auth.lua" .auth vm ctx) (.auth (jwtSecret host) (vm.heap.jwtFile 0))
        (auth host (jwtSecret host) (vm.heap.jwtFile 0) ((exec host "auth.lua" .auth vm ctx).vm vm)
          ctx) := by
  simp only [visit, source_auth]
  rfl

theorem authz_visit (vm : Vm Closure Heap) (ctx : RequestCtx) :
    visit (shippedLua host) .onRequest shippedSources.sources "authz.lua" vm ctx =
      .called (exec host "authz.lua" .authz vm ctx) .authz
        (authz host ((exec host "authz.lua" .authz vm ctx).vm vm) ctx) := by
  simp only [visit, source_authz]
  rfl

theorem rateLimit_visit (vm : Vm Closure Heap) (ctx : RequestCtx) :
    visit (shippedLua host) .onRequest shippedSources.sources "rate_limit.lua" vm ctx =
      .called (exec host "rate_limit.lua" .rateLimit vm ctx) (.rateLimit vm.heap.buckets.length)
        (rateLimit host vm.heap.buckets.length ((exec host "rate_limit.lua" .rateLimit vm ctx).vm vm)
          ctx) := by
  simp only [visit, source_rateLimit]
  rfl

theorem asked_new (vm : Vm Closure Heap) (ctx : RequestCtx) (hclock : vm.heap.clock 0 = vm.heap.clock 1) :
    (asked vm.heap.buckets.length { vm.heap with buckets := vm.heap.buckets ++ [∅] } ctx).tokens =
      capacity := by
  have hnone : bucketAt (vm.heap.buckets ++ [∅]) vm.heap.buckets.length (keyOf ctx) = none := by
    unfold bucketAt
    rw [List.getElem?_concat_length]
    rfl
  simp only [asked, hnone, hclock, Option.getD_none, refill, sub_self]
  rfl

theorem rateLimit_admits (host : Host) (vm : Vm Closure Heap) (ctx : RequestCtx)
    (hclock : vm.heap.clock 0 = vm.heap.clock 1) : ∃ calls, RateCalls calls ∧
      calls.any CtxCall.isReject = false ∧
      (visit (shippedLua host) .onRequest shippedSources.sources "rate_limit.lua" vm ctx).calls =
        calls := by
  have hlt : vm.heap.buckets.length <
      ((exec host "rate_limit.lua" .rateLimit vm ctx).vm vm).heap.buckets.length := by
    change _ < (vm.heap.buckets ++ [∅]).length
    simp
  have hcalls : RateCalls (rateLimit host vm.heap.buckets.length
      ((exec host "rate_limit.lua" .rateLimit vm ctx).vm vm) ctx).calls :=
    (rateLimit_makes _).total.calls _
  refine ⟨_, hcalls, (rateLimit_spec host ctx hlt).1.trans ?_, by rw [rateLimit_visit]; rfl⟩
  have hfull : (asked vm.heap.buckets.length
      ((exec host "rate_limit.lua" .rateLimit vm ctx).vm vm).heap ctx).tokens = capacity :=
    asked_new vm ctx hclock
  rw [hfull]
  decide

theorem rateLimit_jwtFile (host : Host) (vm : Vm Closure Heap) (ctx : RequestCtx) :
    ((visit (shippedLua host) .onRequest shippedSources.sources "rate_limit.lua" vm ctx).vm
      vm).heap.jwtFile = vm.heap.jwtFile := by
  have hbuilt : Built (fun _ f => ∀ heap, (f heap).2.jwtFile = heap.jwtFile)
      (rateLimit host vm.heap.buckets.length) :=
    rateLimit_built (fun _ => rfl) (fun _ _ => rfl) (fun _ _ _ => rfl)
  rw [rateLimit_visit]
  exact hbuilt.keeps Heap.jwtFile (fun h => h) ((exec host "rate_limit.lua" .rateLimit vm ctx).vm vm) ctx

theorem request_next {name : String} {names : List String} {calls : List CtxCall}
    (hcalls : (visit (shippedLua host) .onRequest shippedSources.sources name vm ctx).calls = calls)
    (hpass : (CtxCall.runAll host ctx calls).isRejected = false) :
    (runHooks (shippedLua host) .onRequest (fun _ ctx => if ctx.isRejected then some () else none)
        shippedSources.sources (name :: names) vm ctx).ctx =
      (runHooks (shippedLua host) .onRequest (fun _ ctx => if ctx.isRejected then some () else none)
        shippedSources.sources names ((visit (shippedLua host) .onRequest shippedSources.sources name vm
          ctx).vm vm) (CtxCall.runAll host ctx calls)).ctx := by
  subst hcalls
  exact runHooks_next (shippedLua host) fun _ => by simp [hpass]

theorem onRequest_passes (login : List CtxCall) (hrej : ctx.rejected = none)
    (hclock : vm.heap.clock 0 = vm.heap.clock 1) (hlib : vm.heap.jwtFile 0 = true)
    (hpass : login.any CtxCall.isReject = false)
    (hauth : ∀ vm rate, RateCalls rate →
      (auth host (jwtSecret host) true vm (CtxCall.runAll host ctx rate)).calls = login)
    (hauthz : ∀ vm rate, RateCalls rate →
      (authz host vm (CtxCall.runAll host ctx (rate ++ login))).calls = []) :
    (runOnRequest (shippedLua host) shippedSources vm ctx).ctx.isRejected = false ∧
      ∀ k, k ≠ "request_id" → (runOnRequest (shippedLua host) shippedSources vm ctx).ctx.getVar k =
        (lastSome (varWrite k) login).or (ctx.getVar k) := by
  obtain ⟨hip, hheap⟩ := ipFilter_round host vm ctx
  have hphase : (runOnRequest (shippedLua host) shippedSources vm ctx).ctx = (runHooks _ _ _ _
    ["ip_filter.lua", "rate_limit.lua", "auth.lua", "authz.lua", "transform.lua"] vm ctx).ctx := rfl
  have hnone : ctx.isRejected = false := by simp [RequestCtx.isRejected, hrej]
  have hgo : ∀ calls, calls.any CtxCall.isReject = false →
      (CtxCall.runAll host ctx calls).isRejected = false := by
    intro calls hcalls
    rw [CtxCall.runAll_rejected, hnone, hcalls]
    rfl
  rw [request_next hip (hgo [] rfl), CtxCall.runAll_nil] at hphase
  generalize (visit (shippedLua host) .onRequest shippedSources.sources "ip_filter.lua" vm ctx).vm vm =
    vm₁ at hheap hphase
  obtain ⟨rate, hrate, hquiet, hcalls⟩ := rateLimit_admits host vm₁ ctx (by rw [hheap, hclock])
  have hfile := rateLimit_jwtFile host vm₁ ctx
  rw [hheap] at hfile
  rw [request_next hcalls (hgo rate hquiet)] at hphase
  generalize (visit (shippedLua host) .onRequest shippedSources.sources "rate_limit.lua" vm₁ ctx).vm vm₁ =
    vm₂ at hfile hphase
  have hlogin : (visit (shippedLua host) .onRequest shippedSources.sources "auth.lua" vm₂
      (CtxCall.runAll host ctx rate)).calls = login := by
    rw [auth_visit, hfile, hlib]
    exact hauth _ rate hrate
  have hgo₂ := hgo (rate ++ login) (by rw [List.any_append, hquiet, hpass]; rfl)
  rw [CtxCall.runAll_append] at hgo₂
  rw [request_next hlogin hgo₂, ← CtxCall.runAll_append] at hphase
  rw [← CtxCall.runAll_append] at hgo₂
  generalize (visit (shippedLua host) .onRequest shippedSources.sources "auth.lua" vm₂
    (CtxCall.runAll host ctx rate)).vm vm₂ = vm₃ at hphase
  have hallow : (visit (shippedLua host) .onRequest shippedSources.sources "authz.lua" vm₃
      (CtxCall.runAll host ctx (rate ++ login))).calls = [] := by
    rw [authz_visit]
    exact hauthz _ rate hrate
  rw [request_next hallow hgo₂, CtxCall.runAll_nil, runHooks_ctx, (transform_round host _ _ _).1] at hphase
  rw [hphase]
  constructor
  · rw [CtxCall.runAll_rejected, hgo₂, Bool.false_or, List.any_eq_false]
    intro c hc
    rcases transformCalls_mem hc with ⟨k, v, rfl⟩ | rfl
    · simp [CtxCall.isReject]
    · simp [CtxCall.isReject]
  · intro k hk
    rw [runAll_getVar, transform_varWrite _ _ hk, Option.none_or, runAll_getVar, lastSome_append,
      rate_varWrite hrate, Option.or_none]

end Rounds

section Pass
variable {host : Host} {vm : Vm Closure Heap} {ctx : RequestCtx} {rate : List CtxCall}

theorem rate_getVar (host : Host) (ctx : RequestCtx) (h : RateCalls rate) (calls : List CtxCall) (k : String) :
    (CtxCall.runAll host ctx (rate ++ calls)).getVar k =
      (lastSome (varWrite k) calls).or (ctx.getVar k) := by
  rw [runAll_getVar, lastSome_append, rate_varWrite h, Option.or_none]

theorem rate_header (h : RateCalls rate) (k : String) :
    header host (CtxCall.runAll host ctx rate) k = header host ctx k := by
  cases h <;> rfl

theorem public_passes (host : Host) (vm : Vm Closure Heap) (ctx : RequestCtx) (hvars : ctx.vars = ∅) (hrej : ctx.rejected = none)
    (hclock : vm.heap.clock 0 = vm.heap.clock 1) (hlib : vm.heap.jwtFile 0 = true)
    (hp : isPublic (utf8 ctx.reqPath) = true) :
    (runOnRequest (shippedLua host) shippedSources vm ctx).ctx.isRejected = false ∧
      (runOnRequest (shippedLua host) shippedSources vm ctx).ctx.getVar "role" = none := by
  have hauth : ∀ vm rate, RateCalls rate →
      (auth host (jwtSecret host) true vm (CtxCall.runAll host ctx rate)).calls =
        [.setVar "auth_method" "public"] := by
    intro vm rate hrate
    have hrun : Runs (auth host (jwtSecret host) true) vm (CtxCall.runAll host ctx rate)
        [.setVar "auth_method" "public"] vm.heap (.ok .nil) := by
      apply auth_public
      rwa [runAll_reqPath]
    rw [hrun]
  have hauthz : ∀ vm rate, RateCalls rate → (authz host vm (CtxCall.runAll host ctx
      (rate ++ [.setVar "auth_method" "public"]))).calls = [] := by
    intro vm rate hrate
    have hmethod := rate_getVar host ctx hrate [.setVar "auth_method" "public"] "auth_method"
    rw [authz_public hmethod]
  obtain ⟨hpass, hgetVar⟩ := onRequest_passes _ hrej hclock hlib rfl hauth hauthz
  refine ⟨hpass, ?_⟩
  rw [hgetVar "role" (by decide)]
  simp [lastSome_cons, varWrite, RequestCtx.getVar, hvars]

theorem login_passes (host : Host) (vm : Vm Closure Heap) (ctx : RequestCtx) {userId role method : String} (hrej : ctx.rejected = none)
    (hclock : vm.heap.clock 0 = vm.heap.clock 1) (hlib : vm.heap.jwtFile 0 = true)
    (hmethod : method ≠ "public") (hallow : RoleAllowed (utf8 ctx.reqPath) role)
    (hauth : ∀ vm rate, RateCalls rate →
      (auth host (jwtSecret host) true vm (CtxCall.runAll host ctx rate)).calls =
        loginCalls userId role method) :
    (runOnRequest (shippedLua host) shippedSources vm ctx).ctx.isRejected = false ∧
      (runOnRequest (shippedLua host) shippedSources vm ctx).ctx.getVar "role" = some role := by
  have hauthz : ∀ vm rate, RateCalls rate → (authz host vm (CtxCall.runAll host ctx
      (rate ++ loginCalls userId role method))).calls = [] := by
    intro vm rate hrate
    have hvar := rate_getVar host ctx hrate (loginCalls userId role method)
    have hrole : (CtxCall.runAll host ctx (rate ++ loginCalls userId role method)).getVar "role" =
        some role := by
      rw [hvar]
      simp [loginCalls, lastSome_cons, varWrite]
    rw [authz_allows ?_ hrole (by rwa [runAll_reqPath])]
    rw [hvar]
    simpa [loginCalls, lastSome_cons, varWrite] using hmethod
  obtain ⟨hpass, hgetVar⟩ := onRequest_passes _ hrej hclock hlib rfl hauth hauthz
  refine ⟨hpass, ?_⟩
  rw [hgetVar "role" (by decide)]
  simp [loginCalls, lastSome_cons, varWrite]

end Pass

section Tokens

/-- The claims of a user with a role. Base64 may lose a blank or two at the end. -/
def roleClaims (role : String) : Bytes := utf8 ("\x7b\"role\":\"" ++ role ++ "\"\x7d  ")

/-- The roles besides `admin` that rules list. -/
def loginRoles : List String := ["ops", "user", "reader"]

theorem readPayload_role : ∀ role ∈ loginRoles,
    roleClaims role ≠ [] ∧
      isText ((readPayload (roleClaims role)).get (utf8 "role")) (utf8 role) = true ∧
      ((readPayload (roleClaims role)).get (utf8 "exp")).truthy = false ∧
      ((readPayload (roleClaims role)).get (utf8 "nbf")).truthy = false := by
  decide

/-- A request with the header a bearer sends. -/
def bearerRequest (path : String) (token : Bytes) : Request :=
  ⟨"GET", path, none, [("authorization", utf8 "Bearer " ++ token)], .ok []⟩

theorem toStr_ascii {v : Bytes} (h : ∀ b ∈ v, 32 ≤ b ∧ b < 127) : toStr v = some (latin1 v) := by
  have hall : (v.all fun b => (32 ≤ b && b < 127) || b == 9) = true := by
    rw [List.all_eq_true]
    intro b hb
    simp [h b hb]
  rw [toStr, if_pos hall, fromUtf8_ascii fun b hb => UInt8.lt_trans (h b hb).2 (by decide)]

theorem bearer_header {path peer : String} {token : Bytes} (h : ∀ b ∈ token, 32 ≤ b ∧ b < 127)
    (k : String) :
    header Host.plain (requestCtx Host.plain (bearerRequest path token) peer []) k =
      if k = "authorization" then some (utf8 "Bearer " ++ token) else none := by
  have hscheme : ∀ b ∈ utf8 "Bearer ", 32 ≤ b ∧ b < 127 := by decide +kernel
  have hall : ∀ b ∈ utf8 "Bearer " ++ token, 32 ≤ b ∧ b < 127 := by
    intro b hb
    rcases List.mem_append.mp hb with hb | hb
    · exact hscheme b hb
    · exact h b hb
  have hlower : Host.plain.toLowercase "authorization" = "authorization" := by decide +kernel
  have hmap : headerMap Host.plain (bearerRequest path token).headers =
      (∅ : HashMap String).insert "authorization" (latin1 (utf8 "Bearer " ++ token)) := by
    simp only [headerMap, bearerRequest, List.foldl_cons, List.foldl_nil, toStr_ascii hall, hlower]
  have htable : RequestCtx.headersTable Host.plain (headerMap Host.plain (bearerRequest path token).headers) =
      (∅ : HashMap String).insert "authorization" (latin1 (utf8 "Bearer " ++ token)) := by
    rw [hmap]
    change AList.insert (Host.plain.toLowercase "authorization") _ ∅ = _
    rw [hlower]
  change ((RequestCtx.headersTable Host.plain (headerMap Host.plain
    (bearerRequest path token).headers)).lookup k).map utf8 = _
  rw [htable]
  split_ifs with hk
  · subst hk
    rw [AList.lookup_insert, Option.map_some,
      utf8_latin1_ascii fun b hb => UInt8.lt_trans (hall b hb).2 (by decide)]
  · rw [AList.lookup_insert_ne hk]
    simp

theorem isText_eq {v : Value} {s : Bytes} (h : isText v s = true) : v = .str s := by
  cases v with
  | str t => rw [beq_iff_eq.mp h]
  | _ => exact Bool.noConfusion h

theorem visible_token {a b c : Bytes} :
    ∀ x ∈ signingInput (b64url a) (b64url b) ++ utf8 "." ++ b64url c, 32 ≤ x ∧ x < 127 := by
  have hvisible : ∀ data x, x ∈ b64url data → 32 ≤ x ∧ x < 127 := by
    intro data x hx
    obtain ⟨hlo, hhi⟩ := (mem_b64url hx).2.2.1
    exact ⟨UInt8.le_of_lt hlo, hhi⟩
  have hdot : ∀ x ∈ utf8 ".", 32 ≤ x ∧ x < 127 := by
    rw [utf8_dot]
    decide +kernel
  intro x hx
  simp only [signingInput, List.mem_append] at hx
  rcases hx with (((hx | hx) | hx) | hx) | hx
  · exact hvisible a x hx
  · exact hdot x hx
  · exact hvisible b x hx
  · exact hdot x hx
  · exact hvisible c x hx

theorem role_login {role : String} (hrole : role ∈ loginRoles) (path peer : String)
    (hp : isPublic (utf8 path) = false) : ∃ token userId, ∀ (vm : Vm Closure Heap) rate, RateCalls rate →
      (auth Host.plain (jwtSecret Host.plain) true vm (CtxCall.runAll Host.plain
        (requestCtx Host.plain (bearerRequest path token) peer []) rate)).calls =
          loginCalls userId role "jwt" := by
  obtain ⟨hne, htext, hexp, hnbf⟩ := readPayload_role role hrole
  obtain ⟨sig, hsig, hcheck⟩ := verify_signed Host.plain hne "my-super-secret-change-in-production"
  obtain ⟨mac, rfl⟩ := hmac_b64url hsig
  have hstart := signingInput_header (b64url (roleClaims role)) (utf8 "." ++ b64url mac)
  rw [← List.append_assoc] at hstart
  have hvisible := visible_token (a := utf8 Jwt.header) (b := roleClaims role) (c := mac)
  generalize signingInput (b64url (utf8 Jwt.header)) (b64url (roleClaims role)) ++ utf8 "." ++
    b64url mac = token at hcheck hstart hvisible
  obtain ⟨t, rfl⟩ := hstart
  have hsolid : Single.space.test 101 = false := by decide
  have hbearer : checkSignature Host.plain (utf8 "Bearer " ++ 101 :: t) (jwtSecret Host.plain) =
      .ok (.ok (b64url (roleClaims role))) := by
    have hsigned := checkSignature_iff.mp hcheck
    rw [unschemed, bearer_none, Option.getD_none] at hsigned
    rw [checkSignature_iff, unschemed, bearer_some hsolid, Option.getD_some]
    exact hsigned
  obtain ⟨userId, huser⟩ := toRustString_parsed Host.plain (v := (readPayload (roleClaims role)).get
    (utf8 "sub")) (parsed _ _) "unknown"
  have hroletext : toRustString Host.plain (((readPayload (roleClaims role)).get (utf8 "role")).or
      (.str (utf8 "user"))) = .ok role := by
    rw [isText_eq htext]
    simp [Value.or, Value.truthy, toRustString]
  refine ⟨101 :: t, userId, fun vm rate hrate => ?_⟩
  have hheader : ∀ k, header Host.plain (CtxCall.runAll Host.plain
      (requestCtx Host.plain (bearerRequest path (101 :: t)) peer []) rate) k =
        if k = "authorization" then some (utf8 "Bearer " ++ 101 :: t) else none := fun k =>
    (rate_header hrate k).trans (bearer_header hvisible k)
  have hverify : verify Host.plain (utf8 "Bearer " ++ 101 :: t) (jwtSecret Host.plain)
      (vm.heap.clock 0) (vm.heap.clock 1) = .ok (.ok (readPayload (roleClaims role))) := by
    rw [verify_of_checkSignature hbearer, checkClaims_iff]
    exact ⟨rfl, by simp [expired, hexp], by simp [notYetValid, hnbf]⟩
  have hjwt := (tryJwt_token vm (jwtSecret Host.plain) ⟨hheader "authorization", scheme_some hsolid,
    rfl⟩).2.2 _ userId role hverify (fun k => parsed _ k) huser hroletext
  have hunknown : ¬ KnownKey Host.plain (CtxCall.runAll Host.plain
      (requestCtx Host.plain (bearerRequest path (101 :: t)) peer []) rate) := by
    rintro ⟨key, r, hkey | ⟨-, auth, hauth, hmatch⟩, -⟩
    · rw [hheader] at hkey
      exact absurd hkey (by simp)
    · rw [hheader, if_pos rfl] at hauth
      obtain rfl := Option.some.inj hauth
      obtain ⟨blanks, -, -, hkey⟩ := apiKey_capture hmatch
      have hbearer : utf8 "Bearer " = 66 :: utf8 "earer " := by decide
      have hapiKey : utf8 "ApiKey" = 65 :: utf8 "piKey" := by decide
      rw [hbearer, hapiKey] at hkey
      exact absurd (List.cons.inj hkey).1 (by decide)
  have hrun := auth_jwt (by rwa [runAll_reqPath]) (Or.inr (by simp [hheader])) hunknown hjwt
  rw [hrun]

end Tokens

section Access

/-- A path is only for the roles of a list: who is forwarded was authenticated with one of them. -/
def OnlyFor (path : String) (roles : List String) : Prop :=
  ∀ (host : Host) (http : Http) (peer : String) (req : Request) (vm : Vm Closure Heap)
    (pool : UpstreamPool) (counters : Counters), req.path = path →
    (handleRequest (shippedLua host) http (fun _ => shippedSources) peer req vm pool counters).Forwarded →
    ∃ body role, req.body = .ok body ∧
      (runOnRequest (shippedLua host) shippedSources vm
        (requestCtx host req peer body)).ctx.getVar "role" = some role ∧
      Credential host (requestHeaders host req) role ∧ role ∈ roles

/-- What the path asks for, as an upstream may read it. -/
def resolved (path : String) : Bytes := removeDotSegments 47 46 (utf8 path)

/-- The lists of roles that rules have. -/
def roleLists : List (List String) := rules.filterMap Rule.roles

theorem mem_roleLists {path : Bytes} {rule : Rule} {roles : List String} (h : findRule path = some rule)
    (hroles : rule.roles = some roles) : roles ∈ roleLists :=
  List.mem_filterMap.mpr ⟨rule, List.mem_of_find?_eq_some h, hroles⟩

theorem exists_outside : ∀ roles ∈ roleLists, ∃ role ∈ loginRoles, role ∉ roles := by decide

/-- Every list has `admin`, so two lists differ in another role. -/
theorem exists_between : ∀ roles ∈ roleLists, ∀ roles' ∈ roleLists, (¬ ∀ r ∈ roles', r ∈ roles) →
    ∃ role ∈ loginRoles, role ∈ roles' ∧ role ∉ roles := by decide

theorem plainPool_serves (name : String) (key : Option String) :
    (FailClosed.plainPool.nextUrl Host.plain name key).1.isSome := by
  by_cases hname : name = "default"
  · subst hname
    rfl
  · have hresolve : FailClosed.plainPool.resolve name = FailClosed.plainPool.resolve "default" := by
      have hnone : FailClosed.plainPool.lookup name = none := by
        change AList.lookup name (AList.insert "default" _ ∅) = none
        rw [AList.lookup_insert_ne hname]
        rfl
      simp only [UpstreamPool.resolve, hnone]
      rfl
    rw [UpstreamPool.nextUrl, hresolve]
    rfl

theorem passed_forwarded {req : Request} (hbody : req.body = .ok [])
    (hpass : (runOnRequest (shippedLua Host.plain) shippedSources newVm
      (requestCtx Host.plain req "127.0.0.1" [])).ctx.isRejected = false) :
    (handleRequest (shippedLua Host.plain) Http.down (fun _ => shippedSources) "127.0.0.1" req newVm
      FailClosed.plainPool ∅).Forwarded := by
  rw [forwarded_iff]
  exact ⟨[], hbody, hpass, plainPool_serves _ _⟩

/-- A path that is not public and whose rule has no role outside the list is only for that list. -/
def AsStrict (path : String) (roles : List String) : Prop :=
  isPublic (utf8 path) = false ∧
    ∃ rule' roles', findRule (utf8 path) = some rule' ∧ rule'.roles = some roles' ∧ ∀ r ∈ roles', r ∈ roles

theorem onlyFor_of_asStrict {path : String} {roles : List String} (h : AsStrict path roles) :
    OnlyFor path roles := by
  obtain ⟨hp, rule', roles', hrule, hroles, hsub⟩ := h
  intro host http peer req vm pool counters hpath hf
  obtain ⟨body, role, hbody, hvar, hcred, hallow⟩ :=
    forwarded_role http peer req vm pool counters hf (by rwa [hpath])
  rw [hpath] at hallow
  obtain ⟨allowed, hallowed, hmem⟩ := hallow rule' hrule
  rw [hroles] at hallowed
  obtain rfl := Option.some.inj hallowed
  exact ⟨body, role, hbody, hvar, hcred, hsub role hmem⟩

theorem onlyFor_notPublic {path : String} {roles : List String} (h : OnlyFor path roles) :
    isPublic (utf8 path) = false := by
  rw [Bool.eq_false_iff]
  intro hp
  obtain ⟨hpass, hnone⟩ := public_passes Host.plain newVm (requestCtx Host.plain
    ⟨"GET", path, none, [], .ok []⟩ "127.0.0.1" []) rfl rfl rfl rfl hp
  obtain ⟨body, role, hbody, hrole, -⟩ := h Host.plain Http.down "127.0.0.1"
    ⟨"GET", path, none, [], .ok []⟩ newVm FailClosed.plainPool ∅ rfl (passed_forwarded rfl hpass)
  obtain rfl := Except.ok.inj hbody
  rw [hnone] at hrole
  exact absurd hrole (by simp)

theorem onlyFor_mem {path : String} {roles : List String} (h : OnlyFor path roles) {role : String}
    (hrole : role ∈ loginRoles) (hallow : RoleAllowed (utf8 path) role) : role ∈ roles := by
  obtain ⟨token, userId, hlogin⟩ := role_login hrole path "127.0.0.1" (onlyFor_notPublic h)
  obtain ⟨hpass, hvar⟩ := login_passes Host.plain newVm (requestCtx Host.plain
    (bearerRequest path token) "127.0.0.1" []) rfl rfl rfl (by decide) hallow hlogin
  obtain ⟨body, role', hbody, hrole', -, hmem⟩ := h Host.plain Http.down "127.0.0.1"
    (bearerRequest path token) newVm FailClosed.plainPool ∅ rfl (passed_forwarded rfl hpass)
  obtain rfl := Except.ok.inj hbody
  rw [hvar] at hrole'
  rwa [Option.some.inj hrole']

theorem onlyFor_iff {path : String} {roles : List String} (hroles : roles ∈ roleLists) :
    OnlyFor path roles ↔ AsStrict path roles := by
  refine ⟨fun h => ⟨onlyFor_notPublic h, ?_⟩, onlyFor_of_asStrict⟩
  cases hrule : findRule (utf8 path) with
  | none =>
    -- without a rule every role is allowed
    obtain ⟨role, hrole, hout⟩ := exists_outside roles hroles
    exact absurd (onlyFor_mem h hrole fun rule hfound => by simp [hrule] at hfound) hout
  | some rule' =>
    cases hlist : rule'.roles with
    | none =>
      have hpublic := rule_open hrule hlist
      rw [onlyFor_notPublic h] at hpublic
      exact Bool.noConfusion hpublic
    | some roles' =>
      refine ⟨rule', roles', rfl, hlist, ?_⟩
      by_contra hsub
      obtain ⟨role, hrole, hin, hout⟩ := exists_between roles hroles roles' (mem_roleLists hrule hlist) hsub
      refine hout (onlyFor_mem h hrole fun rule hfound => ?_)
      rw [hrule] at hfound
      obtain rfl := Option.some.inj hfound
      exact ⟨roles', hlist, hin⟩

/-- A path that asks for one with a rule is only for the roles of that rule. -/
def DotStable (path : String) : Prop :=
  ∀ rule roles, isPublic (resolved path) = false → findRule (resolved path) = some rule →
    rule.roles = some roles → OnlyFor path roles

/-- Exactly the paths that are as strict as what they ask for are stable, and all without dot
segments are. -/
theorem dotStable_iff (path : String) :
    (DotStable path ↔ ∀ rule roles, isPublic (resolved path) = false →
      findRule (resolved path) = some rule → rule.roles = some roles → AsStrict path roles) ∧
    (DotFree 47 46 (utf8 path) → DotStable path) := by
  constructor
  · constructor
    · intro h rule roles hp hrule hroles
      exact (onlyFor_iff (mem_roleLists hrule hroles)).mp (h rule roles hp hrule hroles)
    · intro h rule roles hp hrule hroles
      exact onlyFor_of_asStrict (h rule roles hp hrule hroles)
  · intro hfree rule roles hp hrule hroles
    rw [resolved, removeDotSegments_eq (by decide) hfree] at hp hrule
    exact onlyFor_of_asStrict ⟨hp, rule, roles, hrule, hroles, fun r hr => hr⟩

/-- A path below `/public/` that asks for one of the admin's. -/
theorem public_prefix_skips : ¬ ∀ path, DotStable path := by
  intro h
  have hp : isPublic (resolved "/public/../admin/x") = false := by decide
  have hrule : findRule (resolved "/public/../admin/x") = some ⟨"^/admin/", some ["admin"]⟩ := by
    decide
  have hpublic : isPublic (utf8 "/public/../admin/x") = true := by decide
  rw [onlyFor_notPublic (h _ _ _ hp hrule rfl)] at hpublic
  exact Bool.noConfusion hpublic

end Access

end LuaProxy.PathAccess
