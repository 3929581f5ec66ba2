import LuaProxy.Plugins
import LuaProxy.HookSpec

/-! The `on_request` phase of the shipped pipeline: what each chunk defines. -/
namespace LuaProxy.ShippedPipeline
open Text Lua Context HookMonad Engine Plugins HookSpec

theorem source_ipFilter : shippedSources.sources.lookup "ip_filter.lua" = some .ipFilter := by decide

theorem source_rateLimit : shippedSources.sources.lookup "rate_limit.lua" = some .rateLimit := by decide

theorem source_auth : shippedSources.sources.lookup "auth.lua" = some .auth := by decide

theorem source_authz : shippedSources.sources.lookup "authz.lua" = some .authz := by decide

theorem source_transform : shippedSources.sources.lookup "transform.lua" = some .transform := by decide

variable (host : Host)

theorem defines_ipFilter (name : String) :
    Defines (shippedLua host) .onRequest name .ipFilter (· = .ipFilter) :=
  fun _ _ => ⟨rfl, rfl, _, rfl, rfl⟩

theorem defines_rateLimit (name : String) :
    Defines (shippedLua host) .onRequest name .rateLimit (fun fn => ∃ b, fn = .rateLimit b) :=
  fun _ _ => ⟨rfl, rfl, _, ⟨_, rfl⟩, rfl⟩

theorem defines_auth (name : String) :
    Defines (shippedLua host) .onRequest name .auth
      (fun fn => ∃ jwtLib, fn = .auth (jwtSecret host) jwtLib) :=
  fun _ _ => ⟨rfl, rfl, _, ⟨_, rfl⟩, rfl⟩

theorem defines_authz (name : String) :
    Defines (shippedLua host) .onRequest name .authz (· = .authz) :=
  fun _ _ => ⟨rfl, rfl, _, rfl, rfl⟩

theorem defines_transform (name : String) :
    Defines (shippedLua host) .onRequest name .transform (· = .transformRequest) :=
  fun _ _ => ⟨rfl, rfl, _, rfl, rfl⟩

end LuaProxy.ShippedPipeline
