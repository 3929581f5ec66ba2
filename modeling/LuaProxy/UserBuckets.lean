import LuaProxy.BucketRuns
import LuaProxy.PluginSteps
import LuaProxy.IdentityHeaders

/-! Whose bucket a request is charged to in the shipped pipeline: `rate_limit.lua` runs before
`auth.lua`, so there is no user yet. -/
namespace LuaProxy.UserBuckets
open Text Lua Context HookMonad Engine Handler RequestCourse Plugins HookSteps ShippedPipeline
  PluginCalls PluginSteps BucketRuns ShippedRun

section Rounds
variable {host : Host}

/-- There is one table more, and it has a bucket for the key only. -/
structure ChargedTo (k : String) (before tables : List Buckets) : Prop where
  length : tables.length = before.length + 1
  bucket : ∃ b, ∀ m k', bucketAt tables m k' =
    if m = before.length ∧ k' = k then some b else bucketAt before m k'

/-- Steps on the heap that leave the tables alone. -/
abbrev KeepsTables : Kind Heap := fun _ f => ∀ heap, (f heap).2.buckets = heap.buckets

theorem later_rounds (host : Host) : ∀ name ∈ ["auth.lua", "authz.lua", "transform.lua"],
    ∀ (vm : Vm Closure Heap) ctx, ((visit (shippedLua host) .onRequest shippedSources.sources name vm
      ctx).vm vm).heap.buckets = vm.heap.buckets := by
  intro name hname vm ctx
  have hround : ∀ src (kind : Closure → Prop), shippedSources.sources.lookup name = some src →
      (∀ vm ctx fn, (((shippedLua host).exec name src vm ctx).vm vm).global .onRequest = some fn →
        kind fn) →
      (∀ vm ctx, ((shippedLua host).exec name src vm ctx).heap.buckets = vm.heap.buckets) →
      (∀ fn, kind fn → Built KeepsTables ((shippedLua host).call fn)) →
      ((visit (shippedLua host) .onRequest shippedSources.sources name vm ctx).vm vm).heap.buckets =
        vm.heap.buckets := by
    intro src kind hs hkind he hc
    have hsrc : ∀ src', shippedSources.sources.lookup name = some src' → src = src' := by
      intro src' hs'
      rw [hs] at hs'
      exact Option.some.inj hs'
    refine visit_heap (shippedLua host) (R := fun a b => b.buckets = a.buckets) (fun _ => rfl)
      (fun _ _ _ h h' => h'.trans h) (fun src' hs' vm ctx => ?_) (fun src' hs' vm ctx fn hfn => ?_) vm ctx
    · obtain rfl := hsrc src' hs'
      exact he vm ctx
    · obtain rfl := hsrc src' hs'
      exact (hc fn (hkind vm ctx fn hfn)).keeps Heap.buckets fun h => h
  simp only [List.mem_cons, List.not_mem_nil, or_false] at hname
  rcases hname with rfl | rfl | rfl
  · refine hround .auth (fun fn => ∃ jwtLib, fn = .auth (jwtSecret host) jwtLib) source_auth
      (fun vm ctx fn hfn => ⟨_, (Option.some.inj hfn).symm⟩) (fun _ _ => rfl) ?_
    rintro fn ⟨jwtLib, rfl⟩
    exact auth_built (fun _ => rfl) _ _
  · refine hround .authz (· = .authz) source_authz
      (fun vm ctx fn hfn => (Option.some.inj hfn).symm) (fun _ _ => rfl) ?_
    rintro fn rfl
    exact authz_built
  · refine hround .transform (· = .transformRequest) source_transform
      (fun vm ctx fn hfn => (Option.some.inj hfn).symm) (fun _ _ => rfl) ?_
    rintro fn rfl
    exact transformRequest_built fun _ => rfl

theorem ipFilter_round (host : Host) (vm : Vm Closure Heap) (ctx : RequestCtx) :
    (visit (shippedLua host) .onRequest shippedSources.sources "ip_filter.lua" vm ctx).calls = [] ∧
      ((visit (shippedLua host) .onRequest shippedSources.sources "ip_filter.lua" vm ctx).vm
        vm).heap = vm.heap := by
  simp only [visit, source_ipFilter]
  exact ⟨rfl, rfl⟩

theorem rateLimit_round (host : Host) (vm : Vm Closure Heap) (ctx : RequestCtx) :
    ChargedTo (keyOf ctx) vm.heap.buckets ((visit (shippedLua host) .onRequest
      shippedSources.sources "rate_limit.lua" vm ctx).vm vm).heap.buckets := by
  have hlt : vm.heap.buckets.length <
      (((shippedLua host).exec "rate_limit.lua" .rateLimit vm ctx).vm vm).heap.buckets.length := by
    change _ < (vm.heap.buckets ++ [∅]).length
    simp
  obtain ⟨-, hlength, hbucket⟩ := rateLimit_spec host ctx hlt
  have hnew : ∀ m k, bucketAt (vm.heap.buckets ++ [∅]) m k = bucketAt vm.heap.buckets m k := by
    intro m k
    unfold bucketAt
    rcases lt_trichotomy m vm.heap.buckets.length with h | rfl | h
    · rw [List.getElem?_append_left h]
    · rw [List.getElem?_concat_length, List.getElem?_eq_none le_rfl]
      rfl
    · rw [List.getElem?_eq_none (by simp; omega), List.getElem?_eq_none h.le]
  simp only [visit, source_rateLimit]
  refine ⟨hlength.trans ?_, left vm.heap.buckets.length
    (((shippedLua host).exec "rate_limit.lua" .rateLimit vm ctx).vm vm).heap ctx,
    fun m k => (hbucket m k).trans ?_⟩
  · change (vm.heap.buckets ++ [∅]).length = _
    simp
  · split_ifs with h
    · rfl
    · exact hnew m k

/-- `on_request` charges the request in a table that it makes. -/
theorem onRequest_tables (host : Host) (vm : Vm Closure Heap) (ctx : RequestCtx) (hr : ctx.rejected = none) :
    ChargedTo (keyOf ctx) vm.heap.buckets
      (runOnRequest (shippedLua host) shippedSources vm ctx).vm.heap.buckets := by
  obtain ⟨hcalls, hheap⟩ := ipFilter_round host vm ctx
  generalize hvm₁ : (visit (shippedLua host) .onRequest shippedSources.sources "ip_filter.lua" vm
    ctx).vm vm = vm₁ at hheap
  have hstop : ∀ r : Except LuaError Value, (fun (_ : Except LuaError Value) (ctx : RequestCtx) =>
      if ctx.isRejected then some () else none) r ctx = none := by
    simp [RequestCtx.isRejected, hr]
  have hsilent : (runOnRequest (shippedLua host) shippedSources vm ctx).vm = _ :=
    runHooks_silent (shippedLua host) hcalls hstop
  have hfirst := runHooks_first (shippedLua host)
    (fun _ ctx => if ctx.isRejected then some () else none) "rate_limit.lua"
    (R := fun a b => b.buckets = a.buckets) (fun _ => rfl) (fun _ _ _ h h' => h'.trans h)
    (later_rounds host) vm₁ ctx
  have hround := rateLimit_round host vm₁ ctx
  rw [hsilent, hvm₁, hfirst, ← hheap]
  exact hround

end Rounds

section Lifetime
variable (host : Host)

theorem phase_length {β : Type} (hook : Hook) (stop : Except LuaError Value → RequestCtx → Option β)
    (vm : Vm Closure Heap) (ctx : RequestCtx) : vm.heap.buckets.length ≤
      (runHooks (shippedLua host) hook stop shippedSources.sources shippedSources.pipeline vm
        ctx).vm.heap.buckets.length := by
  refine runHooks_heap (shippedLua host) (R := fun a b => a.buckets.length ≤ b.buckets.length)
    (fun _ => le_rfl) (fun _ _ _ => le_trans) (fun name _ vm ctx => ?_) vm ctx
  refine visit_heap (shippedLua host) (R := fun a b => a.buckets.length ≤ b.buckets.length)
    (fun _ => le_rfl) (fun _ _ _ => le_trans) (fun src _ vm ctx => ?_)
    (fun _ _ _ _ fn _ vm ctx => ?_) vm ctx
  · cases src with
    | rateLimit =>
      change _ ≤ (vm.heap.buckets ++ [∅]).length
      simp
    | _ => exact le_rfl
  · have hbuilt : Built (fun _ f => ∀ heap, (f heap).2.buckets.length = heap.buckets.length)
        ((shippedLua host).call fn) :=
      call_built (fun _ => rfl) (fun _ => rfl) (fun _ _ _ => rfl)
        (fun _ _ _ _ => List.length_modify _ _ _) fn
    have hlength : ((shippedLua host).call fn vm ctx).heap.buckets.length = vm.heap.buckets.length :=
      hbuilt.keeps (fun heap => heap.buckets.length) (fun h => h) vm ctx
    exact hlength.ge

/-- After a request there is a table more for its `on_request`, if it was read, and none less. -/
theorem handle_length (t : Turn) (vm : Vm Closure Heap) :
    vm.heap.buckets.length ≤ (t.handle host vm).vm.heap.buckets.length ∧
      ∀ body, t.req.body = .ok body →
        vm.heap.buckets.length < (t.handle host vm).vm.heap.buckets.length := by
  constructor
  · exact handleRequest_keeps (R := fun a b => a.heap.buckets.length ≤ b.heap.buckets.length)
      (fun _ => le_rfl) (fun _ _ _ => le_trans) (phase_length host) t.peer t.req (t.enter vm) t.pool
      t.counters
  · intro body hb
    have hfirst := (onRequest_tables host (t.enter vm) (requestCtx host t.req t.peer body) rfl).length
    have hrest := (handleRequest_course (shippedLua host) t.http (fun _ => shippedSources) t.peer t.req
      (t.enter vm) t.pool t.counters).keeps (R := fun a b => a.heap.buckets.length ≤ b.heap.buckets.length)
      (fun _ => le_rfl) (fun _ _ _ => le_trans) (phase_length host) hb
    change (runOnRequest (shippedLua host) shippedSources (t.enter vm)
      (requestCtx host t.req t.peer body)).vm.heap.buckets.length ≤
        (t.handle host vm).vm.heap.buckets.length at hrest
    rw [hfirst] at hrest
    exact Nat.lt_of_succ_le hrest

theorem vmAfter_snoc (history : List Turn) (t : Turn) :
    vmAfter host (history ++ [t]) = (t.handle host (vmAfter host history)).vm := by
  simp [vmAfter]

theorem vmAfter_length (history rest : List Turn) :
    (vmAfter host history).heap.buckets.length ≤
      (vmAfter host (history ++ rest)).heap.buckets.length := by
  induction rest using List.reverseRecOn with
  | nil => rw [List.append_nil]
  | append_singleton rest t ih =>
    rw [← List.append_assoc, vmAfter_snoc]
    exact ih.trans (handle_length host t _).1

end Lifetime

section Users
variable (host : Host)

def addressOf (t : Turn) : String := clientAddress (headerMap host t.req.headers) t.peer

/-- `auth.lua` logs the request in as a user. -/
def AuthenticatedAs (history : List Turn) (t : Turn) (u : String) : Prop :=
  ∃ body, t.req.body = .ok body ∧
    let ctx := (t.onRequest host (vmAfter host history) body).ctx
    ctx.getVar "user_id" = some u ∧ (ctx.getVar "role").isSome ∧
      (ctx.getVar "auth_method" = some "api_key" ∨ ctx.getVar "auth_method" = some "jwt")

def Charges (history : List Turn) (t : Turn) (n : ℕ) (k : String) : Prop :=
  ∃ body, t.req.body = .ok body ∧
    bucketAt (t.onRequest host (vmAfter host history) body).vm.heap.buckets n k ≠
      bucketAt (vmAfter host history).heap.buckets n k

/-- Every user of a connection has a bucket apart; another connection has tables of its own. -/
structure PerUser (turns : List Turn) : Prop where
  charged : ∀ history t rest u, turns = history ++ t :: rest → AuthenticatedAs host history t u →
    ∃ n, ∀ m k, Charges host history t m k ↔ m = n ∧ k = u
  apart : ∀ history t between t' rest u u', turns = history ++ t :: (between ++ t' :: rest) →
    AuthenticatedAs host history t u → AuthenticatedAs host (history ++ t :: between) t' u' →
      u ≠ u' → addressOf host t = addressOf host t' →
        ∀ n k, Charges host history t n k → ¬ Charges host (history ++ t :: between) t' n k

variable {host}

/-- The bucket that is charged is that of the client address, in a table of the request's own. -/
theorem charges_iff (history : List Turn) {t : Turn} {body : Bytes} (hb : t.req.body = .ok body)
    (n : ℕ) (k : String) : Charges host history t n k ↔
      n = (vmAfter host history).heap.buckets.length ∧ k = addressOf host t := by
  obtain ⟨b, hbucket⟩ := (onRequest_tables host (t.enter (vmAfter host history))
    (requestCtx host t.req t.peer body) rfl).bucket
  have hkey : keyOf (requestCtx host t.req t.peer body) = addressOf host t := rfl
  rw [hkey] at hbucket
  constructor
  · rintro ⟨body', hb', hne⟩
    rw [hb] at hb'
    obtain rfl := Except.ok.inj hb'
    by_contra hother
    exact hne ((hbucket n k).trans (if_neg hother))
  · rintro ⟨rfl, rfl⟩
    refine ⟨body, hb, fun heq => ?_⟩
    have hnew := (hbucket (vmAfter host history).heap.buckets.length (addressOf host t)).symm.trans heq
    rw [if_pos ⟨rfl, rfl⟩, bucketAt, List.getElem?_eq_none le_rfl] at hnew
    simp at hnew

/-- The users of a connection have buckets apart exactly if each of them is named like the
address it comes from. -/
theorem perUser_iff (turns : List Turn) : PerUser host turns ↔
    ∀ history t rest u, turns = history ++ t :: rest → AuthenticatedAs host history t u →
      u = addressOf host t := by
  constructor
  · intro h history t rest u hturns hauth
    have ⟨body, hb, _⟩ := hauth
    obtain ⟨n, hn⟩ := h.charged history t rest u hturns hauth
    exact ((hn _ _).mp ((charges_iff history hb _ _).mpr ⟨rfl, rfl⟩)).2.symm
  · intro h
    refine ⟨fun history t rest u hturns hauth => ?_, fun history t between t' rest u u' hturns hauth
      hauth' _ _ n k hc hc' => ?_⟩
    · have ⟨body, hb, _⟩ := hauth
      refine ⟨(vmAfter host history).heap.buckets.length, fun m k => ?_⟩
      rw [charges_iff history hb, h history t rest u hturns hauth]
    · obtain ⟨body, hb, -⟩ := hauth
      obtain ⟨body', hb', -⟩ := hauth'
      obtain ⟨rfl, -⟩ := (charges_iff history hb _ _).mp hc
      obtain ⟨hn, -⟩ := (charges_iff _ hb' _ _).mp hc'
      have hlt := (handle_length host t (vmAfter host history)).2 body hb
      have hle := vmAfter_length host (history ++ [t]) between
      rw [vmAfter_snoc, List.append_assoc, List.singleton_append] at hle
      omega

/-- A reader with an API key is charged to the address it comes from. -/
theorem key_charged_to_address : ¬ ∀ (host : Host) (turns : List Turn), PerUser host turns := by
  intro h
  have hauth : AuthenticatedAs Host.plain [] IdentityHeaders.keyTurn "apikey:test-api" := by
    refine ⟨[], rfl, ?_⟩
    decide +kernel
  obtain ⟨n, hn⟩ := (h Host.plain [IdentityHeaders.keyTurn]).charged [] _ [] _ rfl hauth
  have haddress := ((hn _ _).mp ((charges_iff [] rfl _ _).mpr ⟨rfl, rfl⟩)).2
  revert haddress
  decide +kernel

end Users

end LuaProxy.UserBuckets
