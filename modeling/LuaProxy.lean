import LuaProxy.Text
import LuaProxy.LuaPattern
import LuaProxy.LuaPatternSpec
import LuaProxy.LuaValue
import LuaProxy.Context
import LuaProxy.HookMonad
import LuaProxy.Engine
import LuaProxy.Upstream
import LuaProxy.Positions
import LuaProxy.Selection
import LuaProxy.ConsistentHashing
import LuaProxy.RoundRobinFairness
import LuaProxy.Handler
import LuaProxy.FailClosed
import LuaProxy.HookDispatch
import LuaProxy.Base64
import LuaProxy.EngineCodec
import LuaProxy.Jwt
import LuaProxy.JwtCodec
import LuaProxy.JwtSignature
import LuaProxy.Plugins
import LuaProxy.HookSpec
import LuaProxy.JwtFormat
import LuaProxy.Authorization
import LuaProxy.RoleRules
import LuaProxy.RateLimitRuns
import LuaProxy.TokenBucket
import LuaProxy.BucketRuns
import LuaProxy.PluginReload
import LuaProxy.Transition
import LuaProxy.ReloadRace
import LuaProxy.JsonScan
import LuaProxy.JsonMembers
import LuaProxy.Numeral
import LuaProxy.JwtRoundTrip
import LuaProxy.JwtWindow
import LuaProxy.CtxWrites
import LuaProxy.RequestCourse
import LuaProxy.Passthrough
import LuaProxy.Rejection
import LuaProxy.ResponseHeaders
import LuaProxy.HookCalls
import LuaProxy.PluginCalls
import LuaProxy.ShippedRun
import LuaProxy.IdentityHeaders
import LuaProxy.HookSteps
import LuaProxy.PluginSteps
import LuaProxy.FreshVm
import LuaProxy.ConcurrentRequests
import LuaProxy.LeastConnRuns
import LuaProxy.HealthProbes
import LuaProxy.UserBuckets
import LuaProxy.IpFilterVerdict
import LuaProxy.JwtOutcome
import LuaProxy.AuthDecision
import LuaProxy.DotSegments
import LuaProxy.PathAccess
import LuaProxy.Base64Decode
import LuaProxy.Base64RoundTrip
import LuaProxy.HeaderCase
import LuaProxy.Json
import LuaProxy.JsonReading
import LuaProxy.RequestAccounting
import LuaProxy.JsonText
import LuaProxy.JsonEncode
import LuaProxy.ErrorBody
import LuaProxy.JsonSegments
import LuaProxy.JsonAgreement
import LuaProxy.AccessPolicy
import LuaProxy.Exchange
import LuaProxy.Refinement
import LuaProxy.PoolRuns
import LuaProxy.Linearizable
import LuaProxy.Sessions
import LuaProxy.JsonTemplate
import LuaProxy.Administration
import LuaProxy.Rotation
import LuaProxy.FileReads
import LuaProxy.Announcements
import LuaProxy.Hexadecimal
import LuaProxy.RequestIds
import LuaProxy.Isolation
