import LuaProxy.JwtRoundTrip
import LuaProxy.AccessPolicy
import LuaProxy.Exchange

/-! Tokens from `jwt.sign` to the upstream: what a client that shows one may do, from when to
when, and whom the upstream hears of. -/
namespace LuaProxy.Sessions
open Text Lua LuaPattern Context HookMonad HookRuns Engine Handler Jwt JwtCodec JwtFormat JwtToken
  JwtOutcome JwtRoundTrip JsonScan JsonMembers Plugins PluginCalls ShippedPipeline Authorization
  AuthDecision CtxWrites ShippedRun RequestCourse PathAccess Selection Upstream AccessPolicy
  IdentityHeaders HeaderCase

section Tickets
variable {host : Host} {secret : Bytes} {c : Claims} {now now' : ℤ}

/-- The times of a token are whole numbers. -/
def Timed (c : Claims) : Prop :=
  ∀ k ∈ [utf8 "exp", utf8 "nbf"], ∀ v ∈ c.entries.lookup k, ∃ n, v = .int n

/-- A token that a login service has signed for a user with a role. -/
structure Ticket (host : Host) (secret : Bytes) (c : Claims) (token : Bytes) (userId role : String) :
    Prop where
  signed : sign host c.table secret = .ok token
  survives : Survives secret c
  undisturbed : Undisturbed c
  timed : Timed c
  user : toRustString host ((c.get (utf8 "sub")).or (.str (utf8 "unknown"))) = .ok userId
  role : toRustString host ((c.get (utf8 "role")).or (.str (utf8 "user"))) = .ok role

theorem checkClaims_late (host : Host) (data : Bytes)
    (hread : ∀ k, (readPayload data).get k = c.get k) (ht : Timed c) (hw : ¬ InWindow c now now') :
    ∃ err, checkClaims host (b64url data) now now' = .ok (.error err) := by
  have hexp := ht (utf8 "exp") (by simp)
  have hnbf := ht (utf8 "nbf") (by simp)
  have hdef : checkClaims host (b64url data) now now' =
      (do
        if ← expired (readPayload data) now then .ok (.error (utf8 "token expired"))
        else if ← notYetValid (readPayload data) now' then
          .ok (.error (utf8 "token not yet valid"))
        else .ok (.ok (readPayload data))) := by
    rw [checkClaims, b64urlDecode_b64url]
    rfl
  have hlate : expired (readPayload data) now = .ok true ∨ expired (readPayload data) now = .ok false ∧
      (∀ v ∈ c.entries.lookup (utf8 "exp"), ∃ n : Int64, v = .int n ∧ now ≤ n.toInt) := by
    rw [expired, hread, Claims.get]
    cases hv : c.entries.lookup (utf8 "exp") with
    | none => exact Or.inr ⟨rfl, by simp⟩
    | some v =>
      obtain ⟨n, rfl⟩ := hexp v hv
      by_cases hn : n.toInt < now
      · exact Or.inl (by simp [Claim.value, Value.truthy, Value.lessThan, Number.lt, hn])
      · refine Or.inr ⟨by simp [Claim.value, Value.truthy, Value.lessThan, Number.lt, hn], ?_⟩
        intro w hw
        obtain rfl := Option.some.inj hw
        exact ⟨n, rfl, by omega⟩
  have hearly : notYetValid (readPayload data) now' = .ok true ∨
      (∀ v ∈ c.entries.lookup (utf8 "nbf"), ∃ n : Int64, v = .int n ∧ n.toInt ≤ now') := by
    rw [notYetValid, hread, Claims.get]
    cases hv : c.entries.lookup (utf8 "nbf") with
    | none => exact Or.inr (by simp)
    | some v =>
      obtain ⟨n, rfl⟩ := hnbf v hv
      by_cases hn : now' < n.toInt
      · exact Or.inl (by simp [Claim.value, Value.truthy, Value.lessThan, Number.lt, hn])
      · refine Or.inr fun w hw => ?_
        obtain rfl := Option.some.inj hw
        exact ⟨n, rfl, by omega⟩
  rw [hdef]
  rcases hlate with hexpired | ⟨hvalid, hin⟩
  · exact ⟨_, by simp [hexpired, bind, Except.bind]; rfl⟩
  · rcases hearly with hyet | hin'
    · exact ⟨_, by simp [hvalid, hyet, bind, Except.bind]; rfl⟩
    · exact absurd ⟨hin, hin'⟩ hw

theorem verify_unschemed {token token' : Bytes} (h : unschemed token = unschemed token') (now now' : ℤ) :
    verify host token secret now now' = verify host token' secret now now' := by
  have hcheck : checkSignature host token secret = checkSignature host token' secret := by
    change (trim (unschemed token) >>= _) = (trim (unschemed token') >>= _)
    rw [h]
  rw [verify, verify, hcheck]

theorem verify_bearer {token : Bytes} (hsign : sign host c.table secret = .ok token) :
    (luaMatch schemePattern (utf8 "Bearer " ++ token)).isSome ∧
      ∀ now now', verify host (utf8 "Bearer " ++ token) secret now now' =
        checkClaims host (b64url (payload host c)) now now' := by
  obtain ⟨key, rfl⟩ := sign_valid host hsign
  obtain ⟨sig, hsign', hverify⟩ := sign_text host (c := c) key
  obtain rfl := Except.ok.inj (hsign'.symm.trans hsign)
  obtain ⟨t, ht⟩ := signingInput_header (b64url (payload host c)) (utf8 "." ++ sig)
  rw [← List.append_assoc] at ht
  rw [ht] at hverify ⊢
  have he : Single.space.test 101 = false := by decide
  refine ⟨scheme_some he, fun now now' => ?_⟩
  have hscheme : unschemed (utf8 "Bearer " ++ 101 :: t) = unschemed (101 :: t) := by
    rw [unschemed, unschemed, bearer_some he, bearer_none]
    rfl
  rw [verify_unschemed hscheme, hverify]

variable {token : Bytes} {userId role : String}

theorem Ticket.verified (h : Ticket host secret c token userId role) (hw : InWindow c now now') :
    ∃ claims, verify host (utf8 "Bearer " ++ token) secret now now' = .ok (.ok claims) ∧
      (∀ k, claims.get k = c.get k) := by
  have hread := survives_read host h.undisturbed h.survives
  obtain ⟨hexp, hnbf⟩ := window_of_read hw hread
  refine ⟨readPayload (payload host c), ?_, hread⟩
  rw [(verify_bearer h.signed).2, checkClaims_iff]
  exact ⟨rfl, hexp, hnbf⟩

theorem Ticket.refused (h : Ticket host secret c token userId role) (hw : ¬ InWindow c now now') :
    ∃ err, verify host (utf8 "Bearer " ++ token) secret now now' = .ok (.error err) := by
  rw [(verify_bearer h.signed).2]
  exact checkClaims_late host _ (survives_read host h.undisturbed h.survives) h.timed hw

end Tickets

section Standing
variable {host : Host} {ctx : RequestCtx} {c : Claims} {token : Bytes} {userId role : String} {now now' : ℤ}

variable (now now') in
/-- What a client that shows a token is to the proxy. -/
theorem Ticket.stands (h : Ticket host (jwtSecret host) c token userId role)
    (hshown : header host ctx "authorization" = some (utf8 "Bearer " ++ token))
    (hkey : ¬ KnownKey host ctx) :
    (InWindow c now now' → Stands host ctx true now now' (.known role)) ∧
      (¬ InWindow c now now' → Stands host ctx true now now' .invalid) := by
  have htoken : TokenShown host ctx true (utf8 "Bearer " ++ token) :=
    ⟨hshown, (verify_bearer h.signed).1, rfl⟩
  constructor
  · intro hw
    obtain ⟨claims, hverify, hread⟩ := h.verified hw
    exact .token hkey htoken hverify (by rw [hread]; exact h.role)
  · intro hw
    obtain ⟨err, herr⟩ := h.refused hw
    exact .invalid hkey (token_shown htoken) fun token' h' => ⟨err, token_unique htoken h' ▸ herr⟩

end Standing

section Login
variable {host : Host} {vm : Vm Closure Heap} {ctx : RequestCtx} {login : List CtxCall} {k : String}

theorem loginRounds_stored (h : LeftBy host vm ctx login) (hnone : ctx.rejected = none)
    (hpass : login.any CtxCall.isReject = false)
    (hauthz : ∀ vm', Runs (authz host) vm' (CtxCall.runAll host ctx login) [] vm'.heap (.ok .nil))
    (hk : k ≠ "request_id") :
    (loginRounds host vm ctx).ctx.getVar k = (lastSome (varWrite k) login).or (ctx.getVar k) := by
  have hlogin : (CtxCall.runAll host ctx login).isRejected = false := by
    rw [CtxCall.runAll_rejected, hpass, RequestCtx.isRejected, hnone]
    rfl
  have hround : ∀ vm', (visit (shippedLua host) .onRequest shippedSources.sources "authz.lua" vm'
      (CtxCall.runAll host ctx login)).calls = [] := by
    intro vm'
    rw [authz_visit, hauthz]
    rfl
  unfold loginRounds
  rw [request_next h.round hlogin, request_next (hround _) hlogin, runHooks_ctx,
    (transform_round host _ _ _).1, runAll_getVar, transform_varWrite _ _ hk, Option.none_or,
    CtxCall.runAll_nil, runAll_getVar]

variable (vm) in
theorem onRequest_stored {c : Claims} {token : Bytes} {userId role : String}
    (hticket : Ticket host (jwtSecret host) c token userId role)
    (hclock : OsClock vm.heap.clock) (hrej : ctx.rejected = none)
    (hfile : vm.heap.jwtFile 0 = true) (hp : isPublic (utf8 ctx.reqPath) = false)
    (hshown : header host ctx "authorization" = some (utf8 "Bearer " ++ token))
    (hkey : ¬ KnownKey host ctx) (hw : InWindow c (vm.heap.clock 2) (vm.heap.clock 3))
    (hallow : RoleAllowed (utf8 ctx.reqPath) role) :
    (runOnRequest (shippedLua host) shippedSources vm ctx).ctx.getVar "user_id" = some userId ∧
      (runOnRequest (shippedLua host) shippedSources vm ctx).ctx.getVar "role" = some role := by
  obtain ⟨vm', hreadings, hfile', hphase⟩ := onRequest_login host vm ctx hrej hclock
  generalize hlimited : CtxCall.runAll host ctx limitHeaders = found at hphase
  have hhead : ∀ k, header host found k = header host ctx k := by
    intro k
    rw [← hlimited]
    rfl
  have hknown : ¬ KnownKey host found := by
    rw [← hlimited]
    exact hkey
  have hpath : found.reqPath = ctx.reqPath := by
    rw [← hlimited]
    rfl
  have hnone : found.rejected = none := by
    rw [← hlimited]
    exact hrej
  have htoken : TokenShown host found true (utf8 "Bearer " ++ token) :=
    ⟨(hhead _).trans hshown, (verify_bearer hticket.signed).1, rfl⟩
  obtain ⟨claims, hverify, hread⟩ := hticket.verified hw
  rw [← hpath] at hp hallow
  have hleft : LeftBy host vm' found (loginCalls userId role "jwt") := by
    have hclock' : ((exec host "auth.lua" .auth vm' found).vm vm').heap.clock =
        fun i => vm.heap.clock (i + 2) := hreadings
    have hjwt : vm'.heap.jwtFile 0 = true := by rw [hfile', hfile]
    obtain ⟨-, -, hlogs⟩ := tryJwt_token ((exec host "auth.lua" .auth vm' found).vm vm')
      (jwtSecret host) htoken
    rw [hclock'] at hlogs
    have hparsed : ∀ k, Parsed (claims.get k) := by
      rcases token_verdict htoken (vm.heap.clock 2) (vm.heap.clock 3) with
        ⟨err, herr⟩ | ⟨claims', hok, hparsed⟩ | ⟨e, he⟩
      · simp [hverify] at herr
      · obtain rfl := Except.ok.inj (Except.ok.inj (hverify.symm.trans hok))
        exact hparsed
      · simp [hverify] at he
    have hrun := hlogs claims userId role hverify hparsed (by rw [hread]; exact hticket.user)
      (by rw [hread]; exact hticket.role)
    rw [LeftBy, hjwt]
    exact ⟨_, _, auth_jwt hp (token_shown htoken) hknown hrun⟩
  have hauthz : ∀ vm'', Runs (authz host) vm'' (CtxCall.runAll host found (loginCalls userId role "jwt")) []
      vm''.heap (.ok .nil) := by
    intro vm''
    refine authz_allows ?_ ?_ hallow
    · rw [runAll_getVar]
      simp [loginCalls, lastSome, varWrite]
    · rw [runAll_getVar]
      rfl
  rw [hphase, loginRounds_stored hleft hnone rfl hauthz (by decide),
    loginRounds_stored hleft hnone rfl hauthz (by decide)]
  exact ⟨rfl, rfl⟩

end Login

section Session
variable (configs : List UpstreamConfig) (c : Claims) (userId role : String) (t : Turn)

/-- A request with a token, off the public paths: it is refused outside the window of the token
and where the role has no access, and else it goes to an upstream that is told who asks. -/
structure Served (r : Handled Closure Heap) : Prop where
  late : ¬ InWindow c (t.clock 2) (t.clock 3) → Obeys (some 401) r.outcome r.target
  denied : InWindow c (t.clock 2) (t.clock 3) → ¬ RoleAllowed (utf8 t.req.path) role →
    Obeys (some 403) r.outcome r.target
  unavailable : InWindow c (t.clock 2) (t.clock 3) → RoleAllowed (utf8 t.req.path) role →
    ¬ Available configs t.pool t.req.path → Obeys (some 503) r.outcome r.target
  forwarded : InWindow c (t.clock 2) (t.clock 3) → RoleAllowed (utf8 t.req.path) role →
    Available configs t.pool t.req.path → r.target.isSome
  named : ∀ up, r.sent = some up → up.headers.lookup "x-user-id" = some userId ∧
    up.headers.lookup "x-user-role" = some role

variable {configs c userId role t} {host : Host} {history : List Turn} {body : Bytes} {token : Bytes}

theorem header_client (hidem : ∀ s, host.toLowercase (host.toLowercase s) = host.toLowercase s)
    (peer : String) (req : Request) (body : Bytes) (k : String) :
    PluginCalls.header host (requestCtx host req peer body) k = (clientHeader host req k).map utf8 := by
  have hreached : Reached host req [] (requestCtx host req peer body) := .start peer body
  have hlower := (hreached.lowerCase hidem).req
  rw [PluginCalls.header, RequestCtx.reqHeader, headersTable_lookup hlower]
  rfl

/-- The upstream hears of the user of the token, and of the role in it. -/
theorem named_upstream (hlower : AsciiLower host) {up : UpstreamRequest}
    (hbody : t.req.body = .ok body)
    (hsent : (t.handle host (vmAfter host history)).sent = some up)
    (huser : established host history t "user_id" = some userId)
    (hrole : established host history t "role" = some role) :
    up.headers.lookup "x-user-id" = some userId ∧ up.headers.lookup "x-user-role" = some role := by
  have hcourse := handleRequest_course (shippedLua host) t.http (fun _ => shippedSources) t.peer t.req
    (t.enter (vmAfter host history)) t.pool t.counters
  obtain ⟨body', target, hrouted, -, hbuild⟩ := hcourse.of_sent hsent
  obtain rfl : body = body' := Except.ok.inj (hbody.symm.trans hrouted.arrived)
  obtain ⟨rate, login, allow, h⟩ := forwarding history t body hrouted.passed
  rw [buildRequest_ok hbuild]
  dsimp only
  rw [Exchange.upstream_sent hlower hbody h, Exchange.upstream_sent hlower hbody h, huser, hrole]
  exact ⟨rfl, rfl⟩

/-- `{"exp":2000,"role":"reader","sub":"bob"}` -/
def bobEntries : List Entry :=
  [⟨utf8 "exp", .int 2000⟩, ⟨utf8 "role", .str (utf8 "reader")⟩, ⟨utf8 "sub", .str (utf8 "bob")⟩]

def bobClaims : Claims where
  entries := ⟨bobEntries, by unfold List.NodupKeys; decide⟩
  key_ne := by decide

def bobToken : String :=
  "eyJhbGciOiJIUzI1NiIsInR5cCI6IkpXVCJ9.eyJleHAiOjIwMDAsInJvbGUiOiJyZWFkZXIiLCJzdWIiOiJib2IifQ." ++
    "AAAAAAAAAAAAAAAAAAAAAAAAAAAAAAAAAAAAAAAAAAA"

theorem quoteFree_of_all {s : Bytes} (h : s.all (· ≠ 34) = true) : QuoteFree s := by
  intro b hb
  simpa using List.all_eq_true.mp h b hb

theorem bob_ticket :
    Ticket Host.plain (jwtSecret Host.plain) bobClaims (utf8 bobToken) "bob" "reader" where
  signed := by decide +kernel
  survives := by
    have hentries : bobClaims.entries.entries = bobEntries := rfl
    refine ⟨⟨_, rfl⟩, ?_, ?_, ?_, Or.inr (by decide), ?_, by decide⟩
    · intro e he
      simp only [hentries, bobEntries, List.mem_cons, List.not_mem_nil, or_false] at he
      rcases he with rfl | rfl | rfl
      · exact ⟨⟨_, rfl⟩, quoteFree_of_all (by decide)⟩
      · exact ⟨⟨_, rfl⟩, quoteFree_of_all (by decide)⟩
      · exact ⟨⟨_, rfl⟩, quoteFree_of_all (by decide)⟩
    · intro k s hs
      simp only [hentries, bobEntries, List.mem_cons, List.not_mem_nil, or_false, Sigma.mk.injEq,
        heq_eq_eq, Claim.str.injEq, reduceCtorEq, and_false, false_or] at hs
      rcases hs with ⟨-, rfl⟩ | ⟨-, rfl⟩
      · exact ⟨⟨_, rfl⟩, quoteFree_of_all (by decide)⟩
      · exact ⟨⟨_, rfl⟩, quoteFree_of_all (by decide)⟩
    · intro k b hb
      simp [hentries, bobEntries] at hb
    · intro k s hs
      simp only [hentries, bobEntries, List.mem_cons, List.not_mem_nil, or_false, Sigma.mk.injEq,
        heq_eq_eq, Claim.str.injEq, reduceCtorEq, and_false, false_or] at hs
      rcases hs with ⟨-, rfl⟩ | ⟨-, rfl⟩ <;> decide
  undisturbed := by
    have hfollows : ∀ (v : Claim) (k : Bytes), afterColon k = none → Follows v k :=
      fun v k hk => ⟨by simp [hk], Or.inr (by simp [hk]), Or.inr (by simp [hk])⟩
    constructor
    · have hrole := hfollows (.int 2000) (utf8 "role") (by decide)
      have hsub := hfollows (.str (utf8 "reader")) (utf8 "sub") (by decide)
      exact .cons_cons hrole (.cons_cons hsub (.singleton _))
    · intro hcolon
      exact absurd hcolon (by decide)
  timed := by
    intro k hk v hv
    have hall : ∀ k ∈ [utf8 "exp", utf8 "nbf"], ∀ v ∈ bobClaims.entries.lookup k, v = .int 2000 := by
      decide
    exact ⟨2000, hall k hk v hv⟩
  user := by decide
  role := by decide

def bobTurn : Turn := firstTurn "/api/v1/items" [("authorization", utf8 ("Bearer " ++ bobToken))]

end Session

end LuaProxy.Sessions
