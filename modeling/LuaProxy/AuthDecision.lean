import LuaProxy.HookRuns
import LuaProxy.JwtOutcome
import LuaProxy.Authorization

/-! `auth.lua` as a decision: it lets a public path pass, logs a user in, or rejects with 401.
Where it raises, it leaves none of the three behind. -/
namespace LuaProxy.AuthDecision
open Text Lua LuaPattern Context HookMonad HookRuns Jwt JwtFormat JwtOutcome Plugins PluginCalls
  Authorization

section ApiKey
variable {host : Host} {vm : Vm Closure Heap} {ctx : RequestCtx}

theorem runs_setVar {β : Type} {k t : String} {v : Value} {g : Unit → PluginM host β}
    {calls : List CtxCall} {heap : Heap} {result : Except LuaError β}
    (hv : toRustString host v = .ok t)
    (h : Runs (g ()) vm (CtxCall.run host ctx (.setVar k t)) calls heap result) :
    Runs (setVar host k v >>= g) vm ctx (.setVar k t :: calls) heap result := by
  have hset : Runs (setVar host k v) vm ctx [.setVar k t] vm.heap (.ok ()) :=
    runs_value hv (runs_call _)
  exact runs_bind hset h

theorem runs_log {β : Type} {text : Bytes} {g : Unit → PluginM host β} {calls : List CtxCall}
    {heap : Heap} {result : Except LuaError β} (ht : ValidUtf8 text)
    (h : Runs (g ()) vm ctx calls heap result) : Runs (log host text >>= g) vm ctx calls heap result := by
  obtain ⟨t, ht, -⟩ := toRustString_valid host ht
  have hlog : Runs (log host text) vm ctx [] vm.heap (.ok ()) := runs_value ht (runs_pure _)
  exact runs_look hlog h

theorem runs_reject (status : UInt16) (msg : String) :
    Runs (reject host status (utf8 msg)) vm ctx [.reject status msg] vm.heap (.ok ()) :=
  runs_value (toRustString_text msg) (runs_call _)

def loginCalls (userId role method : String) : List CtxCall :=
  [.setVar "user_id" userId, .setVar "role" role, .setVar "auth_method" method]

variable (host ctx) in
def shownKey : Option Bytes :=
  (header host ctx "x-api-key").or
    ((header host ctx "authorization").bind fun auth => luaMatch₁ apiKeyPattern auth)

theorem shownKey_iff {key : Bytes} : shownKey host ctx = some key ↔ PresentedKey host ctx key := by
  unfold shownKey PresentedKey
  cases hx : header host ctx "x-api-key" with
  | some k => simp
  | none => simp [Option.bind_eq_some_iff]

/-- A header in which credentials are looked for is there. -/
def Shown (host : Host) (ctx : RequestCtx) : Prop :=
  header host ctx "x-api-key" ≠ none ∨ header host ctx "authorization" ≠ none

theorem presentedKey_runs (h : Shown host ctx) :
    Runs (presentedKey host) vm ctx [] vm.heap (.ok (shownKey host ctx)) := by
  unfold shownKey
  cases hx : header host ctx "x-api-key" with
  | some key => exact runs_found hx (runs_pure _)
  | none =>
    apply runs_found hx
    cases ha : header host ctx "authorization" with
    | some auth => exact runs_found ha (runs_pure _)
    | none =>
      rcases h with h | h
      · exact absurd hx h
      · exact absurd ha h

/-- Without either header `nil` is indexed. -/
theorem presentedKey_raises (h : ¬ Shown host ctx) : Runs (presentedKey host) vm ctx [] vm.heap
    (.error "attempt to index a nil value (field 'authorization')") := by
  unfold Shown at h
  push Not at h
  exact runs_found h.1 (runs_found h.2 (runs_raise _))

theorem shownKey_again : (shownKey host ctx).or ((header host ctx "authorization").bind fun auth =>
    luaMatch₁ apiKeyPattern auth) = shownKey host ctx := by
  unfold shownKey
  cases header host ctx "x-api-key" <;> simp

theorem apiKeys_start {key : Bytes} {role : String} (h : apiKeys.lookup key = some role) :
    key.take 8 = utf8 "test-api" := by
  obtain ⟨before, after, hkeys, -⟩ := List.lookup_eq_some_iff.mp h
  have hmem : (key, role) ∈ apiKeys := by simp [hkeys]
  have hstart : ∀ e ∈ apiKeys, e.1.take 8 = utf8 "test-api" := by decide
  exact hstart _ hmem

theorem tryApiKey_known {key : Bytes} {role : String} (h : PresentedKey host ctx key)
    (hrole : apiKeys.lookup key = some role) :
    Runs (tryApiKey host) vm ctx (loginCalls "apikey:test-api" role "api_key") vm.heap (.ok true) := by
  have hshown : Shown host ctx := by
    rcases h with hx | ⟨-, auth, ha, -⟩
    · exact Or.inl (by simp [hx])
    · exact Or.inr (by simp [ha])
  have hkey := shownKey_again.trans (shownKey_iff.mpr h)
  refine runs_look (presentedKey_runs hshown) (runs_found (a := header host ctx "authorization") rfl ?_)
  dsimp only
  rw [hkey]
  dsimp only
  rw [hrole, apiKeys_start hrole]
  apply runs_setVar (t := "apikey:test-api") (by simp [toRustString, ← utf8_append])
  apply runs_setVar (t := role) (toRustString_text role)
  apply runs_setVar (t := "api_key") (toRustString_text "api_key")
  exact runs_log ⟨"API Key auth OK, role=" ++ role, utf8_append _ _⟩ (runs_pure true)

theorem tryApiKey_unknown (hshown : Shown host ctx)
    (h : ∀ key role, PresentedKey host ctx key → apiKeys.lookup key ≠ some role) :
    Runs (tryApiKey host) vm ctx [] vm.heap (.ok false) := by
  refine runs_look (presentedKey_runs hshown) (runs_found (a := header host ctx "authorization") rfl ?_)
  dsimp only
  rw [shownKey_again]
  cases hkey : shownKey host ctx with
  | none => exact runs_pure _
  | some key =>
    have hnone : apiKeys.lookup key = none :=
      Option.eq_none_iff_forall_ne_some.mpr fun role => h key role (shownKey_iff.mp hkey)
    dsimp only
    rw [hnone]
    exact runs_pure _

end ApiKey

section Token
variable {host : Host} {vm : Vm Closure Heap} {ctx : RequestCtx}

/-- The heap after two readings of the clock. -/
def twoReadings (heap : Heap) : Heap := { heap with clock := fun n => heap.clock (n + 2) }

def TokenShown (host : Host) (ctx : RequestCtx) (jwtLib : Bool) (token : Bytes) : Prop :=
  header host ctx "authorization" = some token ∧ (luaMatch schemePattern token).isSome ∧ jwtLib = true

variable (vm) (secret : Bytes)

theorem tryJwt_token {token : Bytes} {jwtLib : Bool} (h : TokenShown host ctx jwtLib token) :
    (∀ e, verify host token secret (vm.heap.clock 0) (vm.heap.clock 1) = .error e →
      Runs (tryJwt host secret jwtLib) vm ctx [] (twoReadings vm.heap) (.error e)) ∧
    (∀ err, verify host token secret (vm.heap.clock 0) (vm.heap.clock 1) = .ok (.error err) →
      Runs (tryJwt host secret jwtLib) vm ctx [] (twoReadings vm.heap) (.ok (.error err))) ∧
    ∀ claims userId role,
      verify host token secret (vm.heap.clock 0) (vm.heap.clock 1) = .ok (.ok claims) →
      (∀ k, Parsed (claims.get k)) →
      toRustString host ((claims.get (utf8 "sub")).or (.str (utf8 "unknown"))) = .ok userId →
      toRustString host ((claims.get (utf8 "role")).or (.str (utf8 "user"))) = .ok role →
      Runs (tryJwt host secret jwtLib) vm ctx (loginCalls userId role "jwt") (twoReadings vm.heap)
        (.ok (.ok ())) := by
  obtain ⟨ha, hscheme, rfl⟩ := h
  have hnone : ¬ (luaMatch schemePattern token).isNone := by
    simpa [Option.isSome_iff_ne_none] using hscheme
  refine ⟨fun e he => runs_found ha ?_, fun err herr => runs_found ha ?_,
    fun claims userId role hok hparsed huser hrole => runs_found ha ?_⟩
  -- the three go the same way up to the verifier
  all_goals
    refine runs_else hnone (runs_else (by simp) (runs_silent rfl (runs_silent rfl ?_)))
  · rw [he]
    exact runs_bind_error rfl
  · exact runs_value herr (runs_pure _)
  · obtain ⟨sub, hsub, hsubtext⟩ := concatText_parsed host (hparsed (utf8 "sub")) "?"
    obtain ⟨text, htext, hroletext⟩ := concatText_parsed host (hparsed (utf8 "role")) "user"
    refine runs_value hok (runs_setVar huser (runs_setVar hrole ?_))
    refine runs_setVar (toRustString_text "jwt") (runs_value hsub (runs_value htext ?_))
    have hlog : ValidUtf8 (utf8 "JWT auth OK, sub=" ++ sub ++ utf8 " role=" ++ text) :=
      ((ValidUtf8.append ⟨_, rfl⟩ hsubtext).append ⟨_, rfl⟩).append hroletext
    exact runs_log hlog (runs_pure _)

theorem tryJwt_none {jwtLib : Bool} (h : ∀ token, ¬ TokenShown host ctx jwtLib token) :
    ∃ err, Runs (tryJwt host secret jwtLib) vm ctx [] vm.heap (.ok (.error (utf8 err))) := by
  cases ha : header host ctx "authorization" with
  | none => exact ⟨"no authorization header", runs_found ha (runs_pure _)⟩
  | some auth =>
    by_cases hscheme : (luaMatch schemePattern auth).isNone
    · exact ⟨"not bearer token", runs_found ha (runs_if hscheme (runs_pure _))⟩
    · refine ⟨"jwt lib unavailable", runs_found ha ?_⟩
      have hlib : jwtLib = false := by
        rw [Bool.eq_false_iff]
        intro hlib
        exact h auth ⟨ha, by simpa [Option.isSome_iff_ne_none] using hscheme, hlib⟩
      exact runs_else hscheme (runs_if (by simp [hlib]) (runs_pure _))

end Token

section Hook
variable {host : Host} {vm : Vm Closure Heap} {ctx : RequestCtx} {jwtLib : Bool}

/-- The hook gets to a signed token with a date that cannot be compared. -/
def BadToken (host : Host) (ctx : RequestCtx) (jwtLib : Bool) (now : ℤ) : Prop :=
  ∃ token, TokenShown host ctx jwtLib token ∧ BadDate host token (jwtSecret host) now

/-- A bearer token that is signed, with the clock inside its window. -/
def ValidToken (host : Host) (ctx : RequestCtx) (now now' : ℤ) : Prop :=
  ∃ token payloadB64 claims, header host ctx "authorization" = some token ∧
    (luaMatch schemePattern token).isSome ∧
    SignedText host (unschemed token) (jwtSecret host) payloadB64 ∧
    checkClaims host payloadB64 now now' = .ok (.ok claims)

/-- `try_jwt` logs in or gives a message, unless the token is a bad one. -/
theorem tryJwt_ends (h : ¬ BadToken host ctx jwtLib (vm.heap.clock 0)) : ∃ heap,
    (∃ err, Runs (tryJwt host (jwtSecret host) jwtLib) vm ctx [] heap (.ok (.error (utf8 err)))) ∨
      ValidToken host ctx (vm.heap.clock 0) (vm.heap.clock 1) ∧ ∃ userId role,
        Runs (tryJwt host (jwtSecret host) jwtLib) vm ctx (loginCalls userId role "jwt") heap
          (.ok (.ok ())) := by
  by_cases hshown : ∃ token, TokenShown host ctx jwtLib token
  · obtain ⟨token, htoken⟩ := hshown
    obtain ⟨-, hrefuses, hlogs⟩ := tryJwt_token vm (jwtSecret host) htoken
    have hvalid : ValidUtf8 token := by
      obtain ⟨t, -, ht⟩ := Option.map_eq_some_iff.mp htoken.1
      exact ⟨t, ht⟩
    have hdate : ¬ BadDate host token (jwtSecret host) (vm.heap.clock 0) := fun hdate =>
      h ⟨token, htoken, hdate⟩
    rcases verify_ends hvalid hdate (vm.heap.clock 1) with ⟨err, herr, t, rfl⟩ | ⟨claims, hok, hparsed⟩
    · exact ⟨_, Or.inl ⟨t, hrefuses _ herr⟩⟩
    · obtain ⟨userId, huser⟩ := toRustString_parsed host (hparsed (utf8 "sub")) "unknown"
      obtain ⟨role, hrole⟩ := toRustString_parsed host (hparsed (utf8 "role")) "user"
      obtain ⟨payloadB64, hsigned, hinside⟩ := verify_sound hok
      have hvalid := hlogs claims userId role hok hparsed huser hrole
      exact ⟨_, Or.inr ⟨⟨token, payloadB64, claims, htoken.1, htoken.2.1, hsigned, hinside⟩, userId,
        role, hvalid⟩⟩
  · push Not at hshown
    obtain ⟨err, herr⟩ := tryJwt_none vm (jwtSecret host) hshown
    exact ⟨_, Or.inl ⟨err, herr⟩⟩

theorem auth_public (h : isPublic (utf8 ctx.reqPath) = true) :
    Runs (auth host (jwtSecret host) jwtLib) vm ctx [.setVar "auth_method" "public"] vm.heap
      (.ok .nil) := by
  refine runs_read (runs_if h ?_)
  exact runs_setVar (toRustString_text "public") (runs_pure _)

theorem auth_known {key : Bytes} {role : String} (hp : isPublic (utf8 ctx.reqPath) = false)
    (hkey : PresentedKey host ctx key) (hrole : apiKeys.lookup key = some role) :
    Runs (auth host (jwtSecret host) jwtLib) vm ctx (loginCalls "apikey:test-api" role "api_key")
      vm.heap (.ok .nil) := by
  refine runs_read (runs_else (by simp [hp]) ?_)
  exact runs_bind (tryApiKey_known hkey hrole) (runs_if rfl (runs_pure _))

/-- A key that is known is presented. -/
def KnownKey (host : Host) (ctx : RequestCtx) : Prop :=
  ∃ key role, PresentedKey host ctx key ∧ apiKeys.lookup key = some role

theorem tryApiKey_passes (hshown : Shown host ctx) (hknown : ¬ KnownKey host ctx) :
    Runs (tryApiKey host) vm ctx [] vm.heap (.ok false) :=
  tryApiKey_unknown hshown fun key role hkey hrole => hknown ⟨key, role, hkey, hrole⟩

theorem auth_jwt {userId role : String} {heap : Heap} (hp : isPublic (utf8 ctx.reqPath) = false)
    (hshown : Shown host ctx) (hknown : ¬ KnownKey host ctx)
    (hjwt : Runs (tryJwt host (jwtSecret host) jwtLib) vm ctx (loginCalls userId role "jwt") heap
      (.ok (.ok ()))) :
    Runs (auth host (jwtSecret host) jwtLib) vm ctx (loginCalls userId role "jwt") heap (.ok .nil) := by
  refine runs_read (runs_else (by simp [hp]) ?_)
  refine runs_look (tryApiKey_passes hshown hknown) (runs_else (by simp) ?_)
  exact runs_bind hjwt (runs_pure _)

def refusal (err : String) : List CtxCall :=
  [.setResHeader "www-authenticate" "Bearer realm=\"proxy\"", .reject 401 ("Unauthorized: " ++ err)]

theorem auth_refused {err : String} {heap : Heap} (hp : isPublic (utf8 ctx.reqPath) = false)
    (hshown : Shown host ctx) (hknown : ¬ KnownKey host ctx)
    (hjwt : Runs (tryJwt host (jwtSecret host) jwtLib) vm ctx [] heap (.ok (.error (utf8 err)))) :
    Runs (auth host (jwtSecret host) jwtLib) vm ctx (refusal err) heap (.ok .nil) := by
  refine runs_read (runs_else (by simp [hp]) ?_)
  refine runs_look (tryApiKey_passes hshown hknown) (runs_else (by simp) (runs_silent hjwt ?_))
  have hlog : ValidUtf8 (utf8 "Auth failed: " ++ utf8 err ++ utf8 " path=" ++ utf8 ctx.reqPath) :=
    ⟨"Auth failed: " ++ err ++ " path=" ++ ctx.reqPath, by simp⟩
  refine runs_log hlog (runs_then ?_)
  rw [← utf8_append]
  exact runs_bind (runs_reject _ _) (runs_pure _)

def Clear (host : Host) (ctx : RequestCtx) (jwtLib : Bool) (now : ℤ) : Prop :=
  isPublic (utf8 ctx.reqPath) = true ∨ KnownKey host ctx ∨
    Shown host ctx ∧ ¬ BadToken host ctx jwtLib now

def ValidCredential (host : Host) (ctx : RequestCtx) (now now' : ℤ) : Prop :=
  KnownKey host ctx ∨ ValidToken host ctx now now'

/-- The three ways of the hook, by the calls it makes. -/
inductive Ended (host : Host) (ctx : RequestCtx) (now now' : ℤ) : List CtxCall → Prop
  | publicPath (h : isPublic (utf8 ctx.reqPath) = true) :
      Ended host ctx now now' [.setVar "auth_method" "public"]
  | login (h : isPublic (utf8 ctx.reqPath) = false) (valid : ValidCredential host ctx now now')
      (userId role method : String) : Ended host ctx now now' (loginCalls userId role method)
  | refused (h : isPublic (utf8 ctx.reqPath) = false) (err : String) :
      Ended host ctx now now' (refusal err)

theorem auth_ends (h : Clear host ctx jwtLib (vm.heap.clock 0)) : ∃ calls heap,
    Ended host ctx (vm.heap.clock 0) (vm.heap.clock 1) calls ∧
      Runs (auth host (jwtSecret host) jwtLib) vm ctx calls heap (.ok .nil) := by
  cases hp : isPublic (utf8 ctx.reqPath) with
  | true => exact ⟨_, _, .publicPath hp, auth_public hp⟩
  | false =>
    by_cases hknown : KnownKey host ctx
    · obtain ⟨key, role, hkey, hrole⟩ := hknown
      exact ⟨_, _, .login hp (Or.inl ⟨key, role, hkey, hrole⟩) _ _ _, auth_known hp hkey hrole⟩
    · obtain ⟨hshown, hbad⟩ := (h.resolve_left (by simp [hp])).resolve_left hknown
      obtain ⟨heap, ⟨err, hjwt⟩ | ⟨hvalid, userId, role, hjwt⟩⟩ := tryJwt_ends hbad
      · exact ⟨_, heap, .refused hp err, auth_refused hp hshown hknown hjwt⟩
      · exact ⟨_, heap, .login hp (Or.inr hvalid) userId role "jwt", auth_jwt hp hshown hknown hjwt⟩

theorem auth_raises (h : ¬ Clear host ctx jwtLib (vm.heap.clock 0)) :
    ∃ heap e, Runs (auth host (jwtSecret host) jwtLib) vm ctx [] heap (.error e) := by
  unfold Clear at h
  push Not at h
  obtain ⟨hp, hknown, hrest⟩ := h
  by_cases hshown : Shown host ctx
  · obtain ⟨token, htoken, hdate⟩ := hrest hshown
    obtain ⟨e, he⟩ := verify_raises hdate (vm.heap.clock 1)
    refine ⟨twoReadings vm.heap, e, runs_read (runs_else hp ?_)⟩
    refine runs_look (tryApiKey_passes hshown hknown) (runs_else (by simp) ?_)
    exact runs_bind_error ((tryJwt_token vm _ htoken).1 e he)
  · obtain ⟨e, he⟩ : ∃ e, Runs (tryApiKey host) vm ctx [] vm.heap (.error e) :=
      ⟨_, runs_bind_error (presentedKey_raises hshown)⟩
    exact ⟨vm.heap, e, runs_read (runs_else hp (runs_bind_error he))⟩

end Hook

section Decision
variable (host : Host) (ctx : RequestCtx) (jwtLib : Bool) (vm : Vm Closure Heap)

def afterAuth : RequestCtx :=
  CtxCall.runAll host ctx (auth host (jwtSecret host) jwtLib vm ctx).calls

def Public (ctx : RequestCtx) : Prop :=
  isPublic (utf8 ctx.reqPath) = true ∧ ctx.getVar "auth_method" = some "public" ∧ ctx.rejected = none

def Authenticated (ctx : RequestCtx) : Prop :=
  (ctx.getVar "user_id").isSome ∧ (ctx.getVar "role").isSome ∧ (ctx.getVar "auth_method").isSome ∧
    ctx.rejected = none

def Denied (ctx : RequestCtx) : Prop :=
  (∃ msg, ctx.rejected = some (401, msg)) ∧ ctx.getVar "user_id" = none ∧ ctx.getVar "role" = none ∧
    ctx.getVar "auth_method" = none

def ExactlyOne (p q r : Prop) : Prop := (p ∨ q ∨ r) ∧ ¬ (p ∧ q) ∧ ¬ (p ∧ r) ∧ ¬ (q ∧ r)

/-- The hook returns with one of three decisions, and it denies where there is no valid
credential. -/
def Decides : Prop :=
  (∃ v, (auth host (jwtSecret host) jwtLib vm ctx).result = .ok v) ∧
    ExactlyOne (Public (afterAuth host ctx jwtLib vm)) (Authenticated (afterAuth host ctx jwtLib vm))
      (Denied (afterAuth host ctx jwtLib vm)) ∧
    (isPublic (utf8 ctx.reqPath) = false →
      ¬ ValidCredential host ctx (vm.heap.clock 0) (vm.heap.clock 1) →
        Denied (afterAuth host ctx jwtLib vm))

variable {host ctx jwtLib vm}

theorem ended_decided {now now' : ℤ} {calls : List CtxCall} (h : Ended host ctx now now' calls) (hvars : ctx.vars = ∅)
    (hrej : ctx.rejected = none) :
    ExactlyOne (Public (CtxCall.runAll host ctx calls)) (Authenticated (CtxCall.runAll host ctx calls))
      (Denied (CtxCall.runAll host ctx calls)) := by
  cases h with
  | publicPath h =>
    have huser : (CtxCall.run host ctx (.setVar "auth_method" "public")).getVar "user_id" = none := by
      rw [getVar_setVar, if_neg (by decide)]
      simp [RequestCtx.getVar, hvars]
    simp only [CtxCall.runAll_cons, CtxCall.runAll_nil]
    refine ⟨Or.inl ⟨h, by simp [getVar_setVar], hrej⟩, fun both => ?_, fun both => ?_, fun both => ?_⟩
    · simp [Authenticated, huser] at both
    · simp [Public, Denied, getVar_setVar] at both
    · simp [Authenticated, huser] at both
  | login h valid userId role method =>
    simp [ExactlyOne, Public, Authenticated, Denied, loginCalls, CtxCall.run, RequestCtx.getVar, hrej, h]
  | refused h err =>
    simp [ExactlyOne, Public, Authenticated, Denied, refusal, CtxCall.run, RequestCtx.getVar, hvars]

/-- The hook decides exactly where nothing raises: where credentials are looked for there is a
header, and the dates of a signed token are no strings. -/
theorem decides_iff (host : Host) (ctx : RequestCtx) (jwtLib : Bool) (vm : Vm Closure Heap)
    (hvars : ctx.vars = ∅) (hrej : ctx.rejected = none) :
    Decides host ctx jwtLib vm ↔ Clear host ctx jwtLib (vm.heap.clock 0) := by
  constructor
  · rintro ⟨⟨v, hv⟩, -⟩
    by_contra hclear
    obtain ⟨heap, e, hrun⟩ := auth_raises hclear
    rw [hrun] at hv
    exact absurd hv (by simp)
  · intro hclear
    obtain ⟨calls, heap, hended, hrun⟩ := auth_ends hclear
    have hdecided := ended_decided hended hvars hrej
    unfold Decides afterAuth
    rw [hrun]
    refine ⟨⟨_, rfl⟩, hdecided, fun hp hnone => ?_⟩
    cases hended with
    | publicPath h =>
      rw [h] at hp
      exact Bool.noConfusion hp
    | login h valid userId role method => exact absurd valid hnone
    | refused h err =>
      refine ⟨⟨_, rfl⟩, ?_⟩
      simp [refusal, CtxCall.run, RequestCtx.getVar, hvars]

def getCtx (path : String) (headers : List (String × String)) : RequestCtx :=
  RequestCtx.new "GET" path (headers.foldl (fun m h => m.insert h.1 h.2) ∅) "" "127.0.0.1"

/-- An unknown key is denied. -/
theorem unknown_key_decides : Decides Host.plain (getCtx "/api/v1/data" [("x-api-key", "unknown")])
    true newVm := by
  refine (decides_iff _ _ _ _ rfl rfl).mpr (Or.inr (Or.inr ⟨Or.inl (by decide +kernel), ?_⟩))
  rintro ⟨token, ⟨htoken, -⟩, -⟩
  have hnone : header Host.plain (getCtx "/api/v1/data" [("x-api-key", "unknown")]) "authorization" =
      none := by decide +kernel
  rw [hnone] at htoken
  exact absurd htoken (by simp)

/-- Without either header the hook raises. -/
theorem no_header_raises : ¬ ∀ (host : Host) (ctx : RequestCtx) (jwtLib : Bool) (vm : Vm Closure Heap),
    ctx.vars = ∅ → ctx.rejected = none → Decides host ctx jwtLib vm := by
  intro h
  obtain ⟨⟨v, hv⟩, -⟩ := h Host.plain (getCtx "/api/v1/data" []) true newVm rfl rfl
  have hraises : (auth Host.plain (jwtSecret Host.plain) true newVm
      (getCtx "/api/v1/data" [])).result.isOk = false := by decide
  rw [hv] at hraises
  exact Bool.noConfusion hraises

end Decision

end LuaProxy.AuthDecision
