import LuaProxy.Authorization

/-! Where the two path tables of `auth.lua` and `authz.lua` overlap. A path that
`PUBLIC_PATHS` lets through is never checked against `RULES`. -/
namespace LuaProxy.RoleRules
open Text Lua LuaPattern Context HookMonad Engine Handler Plugins Upstream Authorization

/-- The rule for a path, if it has roles, holds for every request that is forwarded: a role
of an authenticated user was stored and is one of them. -/
def EnforcedAt (path : String) : Prop :=
  ∀ rule roles, findRule (utf8 path) = some rule → rule.roles = some roles →
    ∀ (host : Host) (http : Http) (peer : String) (req : Request) (vm : Vm Closure Heap)
      (pool : UpstreamPool) (counters : Counters), req.path = path →
      (handleRequest (shippedLua host) http (fun _ => shippedSources) peer req vm pool
        counters).Forwarded →
      ∃ body role, req.body = .ok body ∧
        (runOnRequest (shippedLua host) shippedSources vm
          (requestCtx host req peer body)).ctx.getVar "role" = some role ∧
        Credential host (requestHeaders host req) role ∧ role ∈ roles

/-- What the paths of a rule with roles start with. -/
def restrictedPrefixes : List Bytes :=
  [utf8 "/admin/", utf8 "/reload", utf8 "/metrics", utf8 "/api/v1/", utf8 "/api/v2/"]

theorem restricted_prefix {path : Bytes} {rule : Rule} {roles : List String}
    (h : findRule path = some rule) (hr : rule.roles = some roles) :
    ∃ w ∈ restrictedPrefixes, w <+: path := by
  have hm := List.find?_some h
  have hmem := List.mem_of_find?_eq_some h
  have hw : ∀ rule ∈ rules, rule.roles ≠ none → ∃ w ∈ restrictedPrefixes,
      parse (utf8 rule.pattern) = some ⟨true, litItems w⟩ := by decide
  obtain ⟨w, hwm, hp⟩ := hw rule hmem (by simp [hr])
  exact ⟨w, hwm, (luaMatch_starts _ hp path).mp hm⟩

theorem public_restricted {path : Bytes} {rule : Rule} {roles : List String}
    (hp : isPublic path = true) (h : findRule path = some rule) (hr : rule.roles = some roles) :
    path = utf8 "/metrics" := by
  obtain ⟨w, hw, hpre⟩ := restricted_prefix h hr
  rcases (isPublic_iff path).mp hp with rfl | rfl | hpub
  · have hno : ∀ w ∈ restrictedPrefixes, ¬ w <+: utf8 "/health" := by decide
    exact absurd hpre (hno w hw)
  · rfl
  · have hno : ∀ w ∈ restrictedPrefixes, ¬ w <+: utf8 "/public/" ∧ ¬ utf8 "/public/" <+: w := by
      decide
    rcases List.prefix_or_prefix_of_prefix hpre hpub with h | h
    · exact absurd h (hno w hw).1
    · exact absurd h (hno w hw).2

def metricsRequest : Request := ⟨"GET", "/metrics", none, [], .ok []⟩

theorem metrics_not_enforced : ¬ EnforcedAt "/metrics" := by
  intro h
  have hrule : findRule (utf8 "/metrics") = some ⟨"^/metrics", some ["admin", "ops"]⟩ := by
    decide
  have hf : (handleRequest (shippedLua Host.plain) Http.down (fun _ => shippedSources) "127.0.0.1"
      metricsRequest newVm FailClosed.plainPool ∅).Forwarded := by decide +kernel
  have hnone : (runOnRequest (shippedLua Host.plain) shippedSources newVm
      (requestCtx Host.plain metricsRequest "127.0.0.1" [])).ctx.getVar "role" = none := by
    decide
  obtain ⟨body, role, hbody, hrole, -⟩ := h _ _ hrule rfl Host.plain Http.down "127.0.0.1"
    metricsRequest newVm FailClosed.plainPool ∅ rfl hf
  obtain rfl := Except.ok.inj hbody
  rw [hnone] at hrole
  simp at hrole

/-- The rules hold for every path but `/metrics`. -/
theorem enforcedAt_iff (path : String) : EnforcedAt path ↔ path ≠ "/metrics" := by
  constructor
  · rintro h rfl
    exact metrics_not_enforced h
  · intro hne rule roles hrule hroles host http peer req vm pool counters hpath hf
    have hp : isPublic (utf8 req.path) = false := by
      rw [hpath, Bool.eq_false_iff]
      intro hpub
      exact hne (utf8_inj.mp (public_restricted hpub hrule hroles))
    obtain ⟨body, role, hbody, hvar, hcred, hallow⟩ :=
      forwarded_role http peer req vm pool counters hf hp
    rw [hpath] at hallow
    obtain ⟨roles', hroles', hmem⟩ := hallow rule hrule
    rw [hroles] at hroles'
    obtain rfl := Option.some.inj hroles'
    exact ⟨body, role, hbody, hvar, hcred, hmem⟩

/-- `/metrics` is for `admin` and `ops` in one table and public in the other. -/
theorem metrics_exempt : ¬ ∀ path, EnforcedAt path := by
  intro h
  exact metrics_not_enforced (h "/metrics")

end LuaProxy.RoleRules
