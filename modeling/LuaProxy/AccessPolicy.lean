import LuaProxy.PathAccess
import LuaProxy.RateLimitRuns
import LuaProxy.Rejection
import LuaProxy.Selection
import LuaProxy.ConcurrentRequests

/-! The shipped pipeline as a policy. What a client shows amounts to one standing, and the path
and the standing say what becomes of the request: five plugins in a chain, one of which may
raise half-way, come to no more than that. -/
namespace LuaProxy.AccessPolicy
open Text Lua Context HookMonad HookRuns Engine Handler Jwt JwtFormat JwtOutcome Plugins PluginCalls
  ShippedPipeline HookCalls Authorization AuthDecision CtxWrites ShippedRun RequestCourse PathAccess
  Selection Upstream

section Policy

/-- What a client's credentials amount to. -/
inductive Standing
  | known (role : String)
  | invalid
  | unreadable
  deriving DecidableEq, Repr

inductive Verdict
  | pass
  | unauthorized
  | forbidden
  deriving DecidableEq, Repr

/-- The status of the answer, when the request goes no further. -/
def Verdict.status : Verdict → Option UInt16
  | .pass => none
  | .unauthorized => some 401
  | .forbidden => some 403

open Classical in
/-- Public paths are for everybody, the others for known clients whose role is allowed there. -/
noncomputable def verdict (publicPath : Prop) (allowed : String → Prop) (s : Standing) : Verdict :=
  if publicPath then .pass
  else
    match s with
    | .known role => if allowed role then .pass else .forbidden
    | .invalid => .unauthorized
    | .unreadable => .forbidden

variable (host : Host) (ctx : RequestCtx) (jwtLib : Bool) (now now' : ℤ)

/-- The standing of a client by the headers it sent, at two readings of the clock. -/
inductive Stands : Standing → Prop
  | key {key : Bytes} {role : String} (presented : PresentedKey host ctx key)
      (known : apiKeys.lookup key = some role) : Stands (.known role)
  | token {token : Bytes} {claims : Table} {role : String} (unknown : ¬ KnownKey host ctx)
      (shown : TokenShown host ctx jwtLib token)
      (verified : verify host token (jwtSecret host) now now' = .ok (.ok claims))
      (text : toRustString host ((claims.get (utf8 "role")).or (.str (utf8 "user"))) = .ok role) :
      Stands (.known role)
  | invalid (unknown : ¬ KnownKey host ctx) (shown : Shown host ctx)
      (refused : ∀ token, TokenShown host ctx jwtLib token →
        ∃ err, verify host token (jwtSecret host) now now' = .ok (.error err)) : Stands .invalid
  | nothing (hidden : ¬ Shown host ctx) : Stands .unreadable
  | unreadable {token : Bytes} {e : LuaError} (unknown : ¬ KnownKey host ctx)
      (shown : TokenShown host ctx jwtLib token)
      (raised : verify host token (jwtSecret host) now now' = .error e) : Stands .unreadable

variable {host ctx jwtLib now now'} {token : Bytes}

theorem known_shown (h : KnownKey host ctx) : Shown host ctx := by
  obtain ⟨key, role, hx | ⟨-, auth, ha, -⟩, -⟩ := h
  · exact Or.inl (by simp [hx])
  · exact Or.inr (by simp [ha])

theorem token_shown (h : TokenShown host ctx jwtLib token) : Shown host ctx :=
  Or.inr (by simp [h.1])

theorem token_unique {token' : Bytes} (h : TokenShown host ctx jwtLib token)
    (h' : TokenShown host ctx jwtLib token') : token = token' :=
  Option.some.inj (h.1.symm.trans h'.1)

theorem key_role {key key' : Bytes} {role role' : String} (h : PresentedKey host ctx key)
    (hrole : apiKeys.lookup key = some role) (h' : PresentedKey host ctx key')
    (hrole' : apiKeys.lookup key' = some role') : role = role' := by
  obtain rfl : key = key' :=
    Option.some.inj ((shownKey_iff.mpr h).symm.trans (shownKey_iff.mpr h'))
  exact Option.some.inj (hrole.symm.trans hrole')

theorem Stands.unique {s s' : Standing} (h : Stands host ctx jwtLib now now' s)
    (h' : Stands host ctx jwtLib now now' s') : s = s' := by
  have hsame : ∀ {token token' : Bytes} {r r' : Except LuaError (Except Bytes Table)},
      TokenShown host ctx jwtLib token → TokenShown host ctx jwtLib token' →
      verify host token (jwtSecret host) now now' = r →
      verify host token' (jwtSecret host) now now' = r' → r = r' := by
    intro token token' r r' hshown hshown' hr hr'
    rw [← hr, ← hr', token_unique hshown hshown']
  cases h with
  | key presented known =>
    have hkey : KnownKey host ctx := ⟨_, _, presented, known⟩
    cases h' with
    | key presented' known' => rw [key_role presented known presented' known']
    | nothing hidden => exact absurd (known_shown hkey) hidden
    | token unknown _ _ _ => exact absurd hkey unknown
    | invalid unknown _ _ => exact absurd hkey unknown
    | unreadable unknown _ _ => exact absurd hkey unknown
  | token unknown shown verified text =>
    cases h' with
    | key presented' known' => exact absurd ⟨_, _, presented', known'⟩ unknown
    | token _ shown' verified' text' =>
      obtain rfl := Except.ok.inj (Except.ok.inj (hsame shown shown' verified verified'))
      rw [Except.ok.inj (text.symm.trans text')]
    | invalid _ _ refused =>
      obtain ⟨err, herr⟩ := refused _ shown
      simp [verified] at herr
    | nothing hidden => exact absurd (token_shown shown) hidden
    | unreadable _ shown' raised => simpa using hsame shown shown' verified raised
  | invalid unknown shown refused =>
    cases h' with
    | key presented' known' => exact absurd ⟨_, _, presented', known'⟩ unknown
    | token _ shown' verified _ =>
      obtain ⟨err, herr⟩ := refused _ shown'
      simp [verified] at herr
    | invalid _ _ _ => rfl
    | nothing hidden => exact absurd shown hidden
    | unreadable _ shown' raised =>
      obtain ⟨err, herr⟩ := refused _ shown'
      simp [raised] at herr
  | nothing hidden =>
    cases h' with
    | key presented' known' => exact absurd (known_shown ⟨_, _, presented', known'⟩) hidden
    | token _ shown _ _ => exact absurd (token_shown shown) hidden
    | invalid _ shown _ => exact absurd shown hidden
    | nothing _ => rfl
    | unreadable _ _ _ => rfl
  | unreadable unknown shown raised =>
    cases h' with
    | key presented' known' => exact absurd ⟨_, _, presented', known'⟩ unknown
    | token _ shown' verified _ => simpa using hsame shown shown' raised verified
    | invalid _ _ refused =>
      obtain ⟨err, herr⟩ := refused _ shown
      simp [raised] at herr
    | nothing _ => rfl
    | unreadable _ _ _ => rfl

theorem token_verdict (h : TokenShown host ctx jwtLib token) (now now' : ℤ) :
    (∃ err, verify host token (jwtSecret host) now now' = .ok (.error (utf8 err))) ∨
      (∃ claims, verify host token (jwtSecret host) now now' = .ok (.ok claims) ∧
        ∀ k, Parsed (claims.get k)) ∨
      ∃ e, verify host token (jwtSecret host) now now' = .error e := by
  have hvalid : ValidUtf8 token := by
    obtain ⟨t, -, ht⟩ := Option.map_eq_some_iff.mp h.1
    exact ⟨t, ht⟩
  by_cases hdate : BadDate host token (jwtSecret host) now
  · exact Or.inr (Or.inr (verify_raises hdate now'))
  · rcases verify_ends hvalid hdate now' with ⟨err, herr, t, rfl⟩ | ⟨claims, hok, hparsed⟩
    · exact Or.inl ⟨t, herr⟩
    · exact Or.inr (Or.inl ⟨claims, hok, hparsed⟩)

theorem Stands.exists (host : Host) (ctx : RequestCtx) (jwtLib : Bool) (now now' : ℤ) :
    ∃ s, Stands host ctx jwtLib now now' s := by
  by_cases hshown : Shown host ctx
  swap
  · exact ⟨_, .nothing hshown⟩
  by_cases hknown : KnownKey host ctx
  · obtain ⟨key, role, hkey, hrole⟩ := hknown
    exact ⟨_, .key hkey hrole⟩
  by_cases htoken : ∃ token, TokenShown host ctx jwtLib token
  swap
  · exact ⟨_, .invalid hknown hshown fun token h => absurd ⟨token, h⟩ htoken⟩
  obtain ⟨token, htoken⟩ := htoken
  rcases token_verdict htoken now now' with ⟨err, herr⟩ | ⟨claims, hok, hparsed⟩ | ⟨e, he⟩
  · exact ⟨_, .invalid hknown hshown fun token' h => ⟨_, token_unique htoken h ▸ herr⟩⟩
  · obtain ⟨role, hrole⟩ := toRustString_parsed host (hparsed (utf8 "role")) "user"
    exact ⟨_, .token hknown htoken hok hrole⟩
  · exact ⟨_, .unreadable hknown htoken he⟩

end Policy

section Login
variable {host : Host} {ctx : RequestCtx} {jwtLib : Bool} {s : Standing}

/-- The calls of `auth.lua` that a standing shows in, off the public paths. -/
inductive Leaves : Standing → List CtxCall → Prop
  | known {role userId method : String} (h : method ≠ "public") :
      Leaves (.known role) (loginCalls userId role method)
  | invalid {err : String} : Leaves .invalid (refusal err)
  | unreadable : Leaves .unreadable []

theorem auth_leaves (vm : Vm Closure Heap)
    (hs : Stands host ctx jwtLib (vm.heap.clock 0) (vm.heap.clock 1) s)
    (hp : isPublic (utf8 ctx.reqPath) = false) : ∃ calls heap result,
      Runs (auth host (jwtSecret host) jwtLib) vm ctx calls heap result ∧ Leaves s calls := by
  cases hs with
  | key presented known =>
    exact ⟨_, _, _, auth_known hp presented known, .known (by decide)⟩
  | token unknown shown verified text =>
    obtain ⟨-, -, hlogs⟩ := tryJwt_token vm (jwtSecret host) shown
    rcases token_verdict shown (vm.heap.clock 0) (vm.heap.clock 1) with
      ⟨err, herr⟩ | ⟨claims, hok, hparsed⟩ | ⟨e, he⟩
    · simp [verified] at herr
    · obtain rfl := Except.ok.inj (Except.ok.inj (verified.symm.trans hok))
      obtain ⟨userId, huser⟩ := toRustString_parsed host (hparsed (utf8 "sub")) "unknown"
      have hjwt := hlogs _ userId _ verified hparsed huser text
      exact ⟨_, _, _, auth_jwt hp (token_shown shown) unknown hjwt, .known (by decide)⟩
    · simp [verified] at he
  | invalid unknown shown refused =>
    by_cases htoken : ∃ token, TokenShown host ctx jwtLib token
    · obtain ⟨token, htoken⟩ := htoken
      obtain ⟨err, herr⟩ := refused token htoken
      rcases token_verdict htoken (vm.heap.clock 0) (vm.heap.clock 1) with
        ⟨text, htext⟩ | ⟨claims, hok, -⟩ | ⟨e, he⟩
      · obtain ⟨-, hrefuses, -⟩ := tryJwt_token vm (jwtSecret host) htoken
        exact ⟨_, _, _, auth_refused hp shown unknown (hrefuses _ htext), .invalid⟩
      · simp [herr] at hok
      · simp [herr] at he
    · push Not at htoken
      obtain ⟨err, herr⟩ := tryJwt_none vm (jwtSecret host) htoken
      exact ⟨_, _, _, auth_refused hp shown unknown herr, .invalid⟩
  | nothing hidden =>
    have hraises : Runs (tryApiKey host) vm ctx [] vm.heap _ :=
      runs_bind_error (presentedKey_raises hidden)
    exact ⟨_, _, _, runs_read (runs_else (by simp [hp]) (runs_bind_error hraises)), .unreadable⟩
  | @unreadable _ e unknown shown raised =>
    have hraises := (tryJwt_token vm (jwtSecret host) shown).1 _ raised
    refine ⟨[], twoReadings vm.heap, .error e, runs_read (runs_else (by simp [hp]) ?_), .unreadable⟩
    exact runs_look (tryApiKey_passes (token_shown shown) unknown)
      (runs_else (by simp) (runs_bind_error hraises))

end Login

section Rounds
variable {host : Host} {vm : Vm Closure Heap} {ctx : RequestCtx}

/-- `os.time` as the system gives it: seconds that fit a Lua integer and do not go back. -/
structure OsClock (clock : ℕ → ℤ) : Prop where
  mono : Monotone clock
  range : ∀ i, 0 ≤ clock i ∧ clock i < 2 ^ 63

theorem rateLimit_clock (host : Host) {n : ℕ} (vm : Vm Closure Heap) (ctx : RequestCtx)
    (hn : vm.heap.buckets[n]? = some ∅) :
    (rateLimit host n vm ctx).heap.clock = fun i => vm.heap.clock (i + 2) := by
  simp [rateLimit, getBucket, readBucket, writeBucket, osTime, bind, HookM.bind, HookM.read,
    HookM.onHeap, Ran.vm, pure, HookM.pure, hn]
  split <;> rfl

def limitHeaders : List CtxCall :=
  [.setResHeader "x-ratelimit-remaining" "99", .setResHeader "x-ratelimit-limit" "100"]

/-- The round of `rate_limit.lua`. -/
structure Limited (host : Host) (vm : Vm Closure Heap) (found : Found Closure Heap) : Prop where
  calls : found.calls = limitHeaders
  clock : (found.vm vm).heap.clock = fun i => vm.heap.clock (i + 2)
  jwtFile : (found.vm vm).heap.jwtFile = vm.heap.jwtFile

theorem rateLimit_limited (host : Host) (vm : Vm Closure Heap) (ctx : RequestCtx)
    (h : OsClock vm.heap.clock) : Limited host vm
      (visit (shippedLua host) .onRequest shippedSources.sources "rate_limit.lua" vm ctx) := by
  refine ⟨?_, ?_, rateLimit_jwtFile host vm ctx⟩
  · exact RateLimitRuns.rateLimit_round host _ _ vm ctx source_rateLimit (h.range 0).1
      (h.mono (Nat.zero_le 1)) (h.range 1).2
  · rw [rateLimit_visit]
    exact rateLimit_clock host ((exec host "rate_limit.lua" .rateLimit vm ctx).vm vm) ctx
      (List.getElem?_concat_length)

theorem authz_denies (host : Host) (hmethod : ctx.getVar "auth_method" ≠ some "public")
    (hp : isPublic (utf8 ctx.reqPath) = false)
    (hdenied : ∀ role, ctx.getVar "role" = some role → ¬ RoleAllowed (utf8 ctx.reqPath) role) :
    ∃ msg, ∀ vm : Vm Closure Heap, Runs (authz host) vm ctx [.reject 403 msg] vm.heap (.ok .nil) := by
  cases hrule : findRule (utf8 ctx.reqPath) with
  | none =>
    refine ⟨"Forbidden: authentication required", fun vm =>
      runs_read (runs_read (runs_read (runs_else hmethod ?_)))⟩
    have hrole : (ctx.getVar "role").isNone := by
      rw [Option.isNone_iff_eq_none, Option.eq_none_iff_forall_ne_some]
      intro role hrole
      exact hdenied role hrole fun rule h => by simp [hrule] at h
    simp only [hrule]
    exact runs_if hrole (runs_bind (runs_call _) (runs_pure _))
  | some rule =>
    refine ⟨"Forbidden: insufficient privileges", fun vm =>
      runs_read (runs_read (runs_read (runs_else hmethod ?_)))⟩
    have hhas : ¬ hasRole (ctx.getVar "role") rule.roles = true := by
      intro hhas
      cases hroles : rule.roles with
      | none => simp [rule_open hrule hroles] at hp
      | some roles =>
        rw [hroles, hasRole, List.any_eq_true] at hhas
        obtain ⟨role, hmem, hrole⟩ := hhas
        refine hdenied role (beq_iff_eq.mp hrole).symm fun rule' h => ⟨roles, ?_, hmem⟩
        rw [← hroles, Option.some.inj (hrule.symm.trans h)]
    simp only [hrule]
    exact runs_else hhas (runs_bind (runs_call _) (runs_pure _))

theorem request_stop {name : String} {names : List String} {calls : List CtxCall}
    (hcalls : (visit (shippedLua host) .onRequest shippedSources.sources name vm ctx).calls = calls)
    (hhook : (visit (shippedLua host) .onRequest shippedSources.sources name vm ctx).answer.isSome)
    (hrej : (CtxCall.runAll host ctx calls).isRejected = true) :
    (runHooks (shippedLua host) .onRequest (fun _ ctx => if ctx.isRejected then some () else none)
        shippedSources.sources (name :: names) vm ctx).ctx = CtxCall.runAll host ctx calls := by
  subst hcalls
  obtain ⟨r, hr⟩ := Option.isSome_iff_exists.mp hhook
  simp [runHooks, hr, hrej]

def loginRounds (host : Host) (vm : Vm Closure Heap) (ctx : RequestCtx) : PhaseRun Closure Heap Unit :=
  runHooks (shippedLua host) .onRequest (fun _ ctx => if ctx.isRejected then some () else none)
    shippedSources.sources ["auth.lua", "authz.lua", "transform.lua"] vm ctx

theorem onRequest_login (host : Host) (vm : Vm Closure Heap) (ctx : RequestCtx) (hrej : ctx.rejected = none)
    (h : OsClock vm.heap.clock) : ∃ vm', vm'.heap.clock = (fun i => vm.heap.clock (i + 2)) ∧
      vm'.heap.jwtFile = vm.heap.jwtFile ∧
      (runOnRequest (shippedLua host) shippedSources vm ctx).ctx =
        (loginRounds host vm' (CtxCall.runAll host ctx limitHeaders)).ctx := by
  have hphase : (runOnRequest (shippedLua host) shippedSources vm ctx).ctx = (runHooks _ _ _ _
    ["ip_filter.lua", "rate_limit.lua", "auth.lua", "authz.lua", "transform.lua"] vm ctx).ctx := rfl
  obtain ⟨hip, hheap⟩ := UserBuckets.ipFilter_round host vm ctx
  have hnone : ctx.isRejected = false := by simp [RequestCtx.isRejected, hrej]
  rw [request_next hip hnone, CtxCall.runAll_nil] at hphase
  generalize (visit (shippedLua host) .onRequest shippedSources.sources "ip_filter.lua" vm ctx).vm vm =
    vm₁ at hheap hphase
  obtain ⟨hcalls, hclock, hfile⟩ := rateLimit_limited host vm₁ ctx (by rwa [hheap])
  rw [request_next hcalls hnone] at hphase
  exact ⟨_, by rw [hclock, hheap], by rw [hfile, hheap], hphase⟩

end Rounds

section Phase
variable {host : Host} {vm : Vm Closure Heap} {ctx : RequestCtx} {s : Standing}

/-- What `auth.lua` leaves, at the point where it is called. -/
def LeftBy (host : Host) (vm : Vm Closure Heap) (ctx : RequestCtx) (login : List CtxCall) : Prop :=
  ∃ heap result, Runs (auth host (jwtSecret host) (vm.heap.jwtFile 0))
    ((exec host "auth.lua" .auth vm ctx).vm vm) ctx login heap result

theorem LeftBy.round {login : List CtxCall} (h : LeftBy host vm ctx login) :
    (visit (shippedLua host) .onRequest shippedSources.sources "auth.lua" vm ctx).calls = login := by
  obtain ⟨heap, result, hrun⟩ := h
  rw [auth_visit, hrun]
  rfl

theorem loginRounds_refused {login : List CtxCall} (h : LeftBy host vm ctx login)
    (hrej : login.any CtxCall.isReject = true) :
    (loginRounds host vm ctx).ctx = CtxCall.runAll host ctx login := by
  refine request_stop h.round ?_ ?_
  · rw [auth_visit]
    rfl
  · rw [CtxCall.runAll_rejected, hrej, Bool.or_true]

theorem loginRounds_decided {login last : List CtxCall} (h : LeftBy host vm ctx login)
    (hnone : ctx.rejected = none) (hpass : login.any CtxCall.isReject = false)
    (hauthz : ∀ vm', Runs (authz host) vm' (CtxCall.runAll host ctx login) last vm'.heap (.ok .nil)) :
    (loginRounds host vm ctx).ctx.rejected = lastSome rejection last := by
  have hlogin : (CtxCall.runAll host ctx login).isRejected = false := by
    rw [CtxCall.runAll_rejected, hpass, RequestCtx.isRejected, hnone]
    rfl
  have hstart : (CtxCall.runAll host ctx login).rejected = none := by
    simpa [RequestCtx.isRejected] using hlogin
  have hround : ∀ vm', (visit (shippedLua host) .onRequest shippedSources.sources "authz.lua" vm'
      (CtxCall.runAll host ctx login)).calls = last := by
    intro vm'
    rw [authz_visit, hauthz]
    rfl
  unfold loginRounds
  rw [request_next h.round hlogin]
  cases hlast : last.any CtxCall.isReject with
  | true =>
    rw [request_stop (hround _) (by rw [authz_visit]; rfl)
      (by rw [CtxCall.runAll_rejected, hlast, Bool.or_true]), runAll_rejection, hstart, Option.or_none]
  | false =>
    rw [request_next (hround _) (by rw [CtxCall.runAll_rejected, hlast, hlogin, Bool.or_false]),
      runHooks_ctx, (transform_round host _ _ _).1, runAll_rejection, transform_rejection,
      Option.none_or, runAll_rejection, hstart, Option.or_none]

theorem Stands.limited {jwtLib : Bool} {now now' : ℤ} (h : Stands host ctx jwtLib now now' s) :
    Stands host (CtxCall.runAll host ctx limitHeaders) jwtLib now now' s := by
  cases h with
  | key presented known => exact .key presented known
  | token unknown shown verified text => exact .token unknown shown verified text
  | invalid unknown shown refused => exact .invalid unknown shown refused
  | nothing hidden => exact .nothing hidden
  | unreadable unknown shown raised => exact .unreadable unknown shown raised

theorem loginRounds_verdict (hvars : ctx.vars = ∅) (hrej : ctx.rejected = none)
    (hs : Stands host ctx (vm.heap.jwtFile 0) (vm.heap.clock 0) (vm.heap.clock 1) s) :
    (loginRounds host vm ctx).ctx.rejected.map Prod.fst =
      (verdict (isPublic (utf8 ctx.reqPath) = true) (RoleAllowed (utf8 ctx.reqPath)) s).status := by
  have hunset : ∀ k, ctx.getVar k = none := by
    intro k
    rw [RequestCtx.getVar, hvars]
    rfl
  cases hp : isPublic (utf8 ctx.reqPath) with
  | true =>
    have hleft : LeftBy host vm ctx [.setVar "auth_method" "public"] := ⟨_, _, auth_public hp⟩
    have hmethod : (CtxCall.runAll host ctx [.setVar "auth_method" "public"]).getVar "auth_method" =
        some "public" := by
      rw [runAll_getVar]
      rfl
    rw [loginRounds_decided hleft hrej rfl fun vm' => authz_public hmethod]
    simp [verdict, Verdict.status, lastSome]
  | false =>
    obtain ⟨calls, heap, result, hrun, hleaves⟩ :=
      auth_leaves ((exec host "auth.lua" .auth vm ctx).vm vm) hs hp
    have hleft : LeftBy host vm ctx calls := ⟨heap, result, hrun⟩
    cases hleaves with
    | @known role userId method hother =>
      have hrole : (CtxCall.runAll host ctx (loginCalls userId role method)).getVar "role" =
          some role := by
        rw [runAll_getVar]
        rfl
      have hmethod : (CtxCall.runAll host ctx (loginCalls userId role method)).getVar "auth_method" ≠
          some "public" := by
        rw [runAll_getVar]
        simpa [loginCalls, lastSome, varWrite] using hother
      by_cases hallow : RoleAllowed (utf8 ctx.reqPath) role
      · rw [loginRounds_decided hleft hrej rfl fun vm' => authz_allows hmethod hrole hallow]
        simp [verdict, hallow, Verdict.status, lastSome]
      · obtain ⟨msg, hdenied⟩ := authz_denies host hmethod hp fun role' hrole' => by
          rwa [← Option.some.inj (hrole.symm.trans hrole')]
        rw [loginRounds_decided hleft hrej rfl hdenied]
        simp [verdict, hallow, Verdict.status, lastSome, rejection]
    | invalid =>
      rw [loginRounds_refused hleft rfl]
      simp [verdict, Verdict.status, refusal, CtxCall.run]
    | unreadable =>
      have hmethod : ctx.getVar "auth_method" ≠ some "public" := by simp [hunset]
      obtain ⟨msg, hdenied⟩ := authz_denies host hmethod hp (by simp [hunset])
      rw [loginRounds_decided hleft hrej rfl hdenied]
      simp [verdict, Verdict.status, lastSome, rejection]

/-- The verdict of the whole phase: `rate_limit.lua` takes two readings of the clock first. -/
theorem onRequest_verdict (hvars : ctx.vars = ∅) (hrej : ctx.rejected = none)
    (hclock : OsClock vm.heap.clock)
    (hs : Stands host ctx (vm.heap.jwtFile 0) (vm.heap.clock 2) (vm.heap.clock 3) s) :
    (runOnRequest (shippedLua host) shippedSources vm ctx).ctx.rejected.map Prod.fst =
      (verdict (isPublic (utf8 ctx.reqPath) = true) (RoleAllowed (utf8 ctx.reqPath)) s).status := by
  obtain ⟨vm', hreadings, hfile, hphase⟩ := onRequest_login host vm ctx hrej hclock
  rw [hphase]
  refine loginRounds_verdict hvars hrej ?_
  rw [hreadings, hfile]
  exact hs.limited

end Phase

section Answer
variable (host : Host) (configs : List UpstreamConfig)

/-- The upstream for a path is configured and has an alive target. -/
def Available (pool : UpstreamPool) (path : String) : Prop :=
  ∃ cfg lb, Resolved configs pool (routeName path) cfg lb ∧ ∃ t ∈ lb.targets, t.alive = true

open Classical in
noncomputable def due (v : Verdict) (available : Prop) : Option UInt16 :=
  v.status.or (if available then none else some 503)

def Obeys (due : Option UInt16) (outcome : Outcome) (target : Option String) : Prop :=
  match due with
  | none => target.isSome
  | some status => target = none ∧ ∃ a, outcome = .ok a ∧ a.status = status

/-- A request with this body met the policy: by the one standing of its client. -/
def Policed (peer : String) (req : Request) (vm : Vm Closure Heap) (pool : UpstreamPool) (body : Bytes)
    (outcome : Outcome) (target : Option String) : Prop :=
  ∃ s, Stands host (requestCtx host req peer body) (vm.heap.jwtFile 0) (vm.heap.clock 2)
      (vm.heap.clock 3) s ∧
    (∀ s', Stands host (requestCtx host req peer body) (vm.heap.jwtFile 0) (vm.heap.clock 2)
      (vm.heap.clock 3) s' → s' = s) ∧
    Obeys (due (verdict (isPublic (utf8 req.path) = true) (RoleAllowed (utf8 req.path)) s)
      (Available configs pool req.path)) outcome target

variable {host configs}

theorem verdict_statusOk {v : Verdict} {status : UInt16} (h : v.status = some status) :
    statusOk status = true := by
  cases v with
  | pass => simp [Verdict.status] at h
  | unauthorized =>
    obtain rfl := Option.some.inj h
    rfl
  | forbidden =>
    obtain rfl := Option.some.inj h
    rfl

theorem errorResponse_status {status : UInt16} (h : statusOk status = true) (msg : String) :
    ∃ a, errorResponse status msg = .ok a ∧ a.status = status := by
  rw [errorResponse, if_pos h]
  exact ⟨_, rfl, rfl⟩

theorem nextUrl_available {pool : UpstreamPool} (h : Configured configs pool) (path : String)
    (key : Option String) :
    (pool.nextUrl host (routeName path) key).1.isSome ↔ Available configs pool path := by
  unfold UpstreamPool.nextUrl
  rcases h.resolve (routeName path) with ⟨hnone, hcfg⟩ | ⟨cfg, lb, hres, hresolved⟩
  · rw [hnone]
    refine iff_of_false (by simp) ?_
    rintro ⟨cfg, lb, hresolved, -⟩
    simp [hresolved.config] at hcfg
  · rw [hres]
    refine (next_isSome host key lb).trans ⟨fun halive => ⟨cfg, lb, hresolved, halive⟩, ?_⟩
    rintro ⟨cfg', lb', hresolved', halive⟩
    obtain rfl := Option.some.inj (hresolved.config.symm.trans hresolved'.config)
    obtain rfl := Option.some.inj (hresolved.balancer.symm.trans hresolved'.balancer)
    exact halive

theorem chosen_available (peer : String) (req : Request) (body : Bytes) (vm : Vm Closure Heap)
    {pool : UpstreamPool} (hpool : Configured configs pool)
    (hpass : (requestPhase (shippedLua host) (fun _ => shippedSources) peer req body vm).ctx.rejected =
      none) :
    (chosen (shippedLua host) (fun _ => shippedSources) peer req body vm pool).1.isSome ↔
      Available configs pool req.path := by
  have hgo : (runOnRequest (shippedLua host) shippedSources vm
      (requestCtx host req peer body)).ctx.isRejected = false := by
    simpa [RequestCtx.isRejected, requestPhase] using hpass
  obtain ⟨-, -, -, -, -, -, -, hbound, -⟩ := onRequest_run vm (requestCtx host req peer body) hgo
  obtain ⟨-, hstopped⟩ := onRoute_run host
    (requestPhase (shippedLua host) (fun _ => shippedSources) peer req body vm).vm
    (requestPhase (shippedLua host) (fun _ => shippedSources) peer req body vm).ctx hbound
  have hpath : (requestPhase (shippedLua host) (fun _ => shippedSources) peer req body vm).ctx.reqPath =
      req.path := by
    rw [requestPhase_ctx, runAll_reqPath]
    rfl
  have hroute : routeOf (routePhase (shippedLua host) (fun _ => shippedSources) peer req body vm) =
      some (routeName req.path) := by
    rw [hpath] at hstopped
    simp only [routeOf, routePhase, hstopped]
  rw [chosen, hroute, Option.getD_some]
  exact nextUrl_available hpool req.path _

/-- Whatever the connection's VM went through, a request meets the policy. -/
theorem request_policed (host : Host) (http : Http) (peer : String) (req : Request) (vm : Vm Closure Heap)
    (pool : UpstreamPool) (counters : Counters) {body : Bytes} (hb : req.body = .ok body)
    (hclock : OsClock vm.heap.clock) (hpool : Configured configs pool) :
    Policed host configs peer req vm pool body
      (handleRequest (shippedLua host) http (fun _ => shippedSources) peer req vm pool counters).outcome
      (handleRequest (shippedLua host) http (fun _ => shippedSources) peer req vm pool counters).target := by
  obtain ⟨s, hs⟩ := Stands.exists host (requestCtx host req peer body) (vm.heap.jwtFile 0)
    (vm.heap.clock 2) (vm.heap.clock 3)
  refine ⟨s, hs, fun s' hs' => hs'.unique hs, ?_⟩
  have hverdict : (requestPhase (shippedLua host) (fun _ => shippedSources) peer req body
      vm).ctx.rejected.map Prod.fst = (verdict (isPublic (utf8 req.path) = true)
        (RoleAllowed (utf8 req.path)) s).status :=
    onRequest_verdict rfl rfl hclock hs
  cases hv : (verdict (isPublic (utf8 req.path) = true) (RoleAllowed (utf8 req.path)) s).status with
  | some status =>
    rw [hv] at hverdict
    obtain ⟨⟨status', msg⟩, hrej, rfl⟩ := Option.map_eq_some_iff.mp hverdict
    have hcourse : Course (shippedLua host) http (fun _ => shippedSources) peer req vm pool counters _ :=
      .rejected hb hrej
    rw [due, hv, Option.some_or, hcourse.eq]
    exact ⟨rfl, errorResponse_status (verdict_statusOk hv) msg⟩
  | none =>
    rw [hv, Option.map_eq_none_iff] at hverdict
    have havailable := chosen_available peer req body vm hpool hverdict
    rw [due, hv, Option.none_or]
    cases hc : (chosen (shippedLua host) (fun _ => shippedSources) peer req body vm pool).1 with
    | none =>
      have hcourse : Course (shippedLua host) http (fun _ => shippedSources) peer req vm pool counters _ :=
        .noTarget hb hverdict hc
      rw [if_neg (by rw [← havailable, hc]; simp), hcourse.eq]
      have hstatus : statusOk 503 = true := rfl
      exact ⟨rfl, errorResponse_status hstatus "Service Unavailable"⟩
    | some target =>
      rw [if_pos (by rw [← havailable, hc]; simp), handleRequest_routed ⟨hb, hverdict, hc⟩]
      simp [Obeys]

end Answer

section Runs
open Transition ConcurrentRequests
variable {host : Host} {configs : List UpstreamConfig} {fresh : Vm Closure Heap}

/-- What happens around the requests: health checks only mark targets, and the clock that a
request will read is the system's. Reloads may store anything. -/
def Ordinary (configs : List UpstreamConfig) : Event Plugin Heap → Prop
  | .health pool => Configured configs pool
  | .arrive _ _ _ _ enter => ∀ heap, OsClock (enter heap).clock
  | _ => True

/-- A request came in with a clock of the system, and goes by a pool with these upstreams. -/
def Sane (configs : List UpstreamConfig) (job : Job Closure Heap) (pool : UpstreamPool) : Prop :=
  OsClock job.vm.heap.clock ∧ Configured configs pool

structure Surroundings (configs : List UpstreamConfig) (s : State Plugin Closure Heap) : Prop where
  pool : Configured configs s.pool
  flights : ∀ c f, s.conns c = .busy f → Sane configs f.job f.pool
  done : ∀ r ∈ s.done, Sane configs r.job r.pool

theorem advance_sane (host : Host) (live : PluginSources Plugin) (version : ℕ) {pool : UpstreamPool}
    {f : Flight Closure Heap} (hpool : Configured configs pool) (h : Sane configs f.job f.pool) :
    Configured configs (advance (shippedLua host) live version pool f).2 ∧
      match (advance (shippedLua host) live version pool f).1 with
      | .inl f' => Sane configs f'.job f'.pool
      | .inr r => Sane configs r.job r.pool := by
  obtain ⟨job, found, chosenFrom, vm, point⟩ := f
  cases point with
  | start =>
    simp only [advance]
    split
    · exact ⟨hpool, h⟩
    · split <;> exact ⟨hpool, h⟩
  | requested body ctx => exact ⟨hpool, h⟩
  | routed body ctx upstreamName => exact ⟨hpool, h⟩
  | transformed body ctx upstreamName =>
    have hnext := hpool.nextUrl host upstreamName
      (some (clientAddress (headerMap host job.req.headers) job.peer))
    simp only [advance]
    split
    · rename_i hc
      rw [hc] at hnext
      exact ⟨hnext, h.1, hpool⟩
    · rename_i hc
      rw [hc] at hnext
      split <;> exact ⟨hnext, h.1, hpool⟩
  | sent ctx target up =>
    simp only [advance]
    split <;> exact ⟨hpool, h⟩
  | answered ctx target up resp =>
    simp only [advance]
    split <;> exact ⟨hpool, h⟩

theorem Surroundings.update {s : State Plugin Closure Heap} (h : Surroundings configs s) {c : ℕ}
    {conn : Conn Closure Heap} (hconn : ∀ f, conn = .busy f → Sane configs f.job f.pool) (c' : ℕ)
    (f : Flight Closure Heap) (hf : Function.update s.conns c conn c' = .busy f) :
    Sane configs f.job f.pool := by
  by_cases hc : c' = c
  · subst hc
    rw [Function.update_self] at hf
    exact hconn f hf
  · rw [Function.update_of_ne hc] at hf
    exact h.flights c' f hf

theorem surroundings_step {s s' : State Plugin Closure Heap} {e : Event Plugin Heap}
    (he : Ordinary configs e) (hs : step (shippedLua host) fresh s e = some s')
    (h : Surroundings configs s) : Surroundings configs s' := by
  cases e with
  | reload new =>
    obtain rfl := Option.some.inj hs
    exact ⟨h.pool, h.flights, h.done⟩
  | health pool =>
    obtain rfl := Option.some.inj hs
    exact ⟨he, h.flights, h.done⟩
  | connect c =>
    simp only [step] at hs
    split at hs
    · obtain rfl := Option.some.inj hs
      exact ⟨h.pool, h.update (by simp), h.done⟩
    · simp at hs
  | close c =>
    obtain rfl := Option.some.inj hs
    exact ⟨h.pool, h.update (by simp), h.done⟩
  | arrive c peer http req enter =>
    simp only [step] at hs
    split at hs
    · obtain rfl := Option.some.inj hs
      refine ⟨h.pool, h.update fun f hf => ?_, h.done⟩
      obtain rfl := Conn.busy.inj hf
      exact ⟨he _, h.pool⟩
    · simp at hs
  | advance c =>
    simp only [step] at hs
    split at hs
    · rename_i f live hc hlive
      obtain ⟨hpool, hsane⟩ := advance_sane host live (s.versions.length - 1) h.pool (h.flights c f hc)
      split at hs
      · rename_i f' pool hf
        obtain rfl := Option.some.inj hs
        rw [hf] at hpool hsane
        refine ⟨hpool, h.update fun g hg => ?_, h.done⟩
        obtain rfl := Conn.busy.inj hg
        exact hsane
      · rename_i r pool hr
        obtain rfl := Option.some.inj hs
        rw [hr] at hpool hsane
        refine ⟨hpool, h.update (by simp), fun r' hr' => ?_⟩
        rcases List.mem_append.mp hr' with hr' | hr'
        · exact h.done r' hr'
        · rw [List.mem_singleton.mp hr']
          exact hsane
    · simp at hs

theorem surroundings_run {s s' : State Plugin Closure Heap} {es : List (Event Plugin Heap)}
    (hrun : Run (fun s e s' => step (shippedLua host) fresh s e = some s') s es s')
    (hes : ∀ e ∈ es, Ordinary configs e) (h : Surroundings configs s) : Surroundings configs s' := by
  induction hrun with
  | nil s => exact h
  | cons hs _ ih =>
    exact ih (fun e he => hes e (by simp [he])) (surroundings_step (hes _ (by simp)) hs h)

theorem surroundings_started {s : State Plugin Closure Heap} (hs : Started s)
    (hpool : Configured configs s.pool) : Surroundings configs s := by
  refine ⟨hpool, fun c f hc => ?_, fun r hr => ?_⟩
  · simp [hs.alone] at hc
  · simp [hs.fresh] at hr

def noonHeap (heap : Heap) : Heap := { heap with clock := fun _ => 1700000000 }

theorem noon_osClock (heap : Heap) : OsClock (noonHeap heap).clock :=
  ⟨monotone_const, fun _ => by simp [noonHeap]⟩

def shippedStart : State Plugin Closure Heap :=
  ⟨[shippedSources], UpstreamPool.init shippedConfigs, fun _ => .closed, []⟩

def twoClients : List (Event Plugin Heap) :=
  [.connect 0, .connect 1, .arrive 0 "10.0.0.1" Http.down keyRequest noonHeap,
    .arrive 1 "10.0.0.2" Http.down ⟨"GET", "/api/v1/data", none, [], .ok []⟩ noonHeap, .advance 0,
    .advance 1, .reload shippedSources, .advance 0, .advance 0, .advance 0, .advance 0]

end Runs

end LuaProxy.AccessPolicy
