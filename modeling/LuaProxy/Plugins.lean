import LuaProxy.Jwt
import LuaProxy.Engine

/-! The five plugins under `plugins/`. Their closures keep upvalues: `rate_limit.lua` the
`buckets` table its chunk made, `auth.lua` the secret and the JWT library its chunk
loaded. A `log` call is modelled where its text may fail to be UTF-8; elsewhere it is made
of texts that came from Rust and leaves nothing behind. -/
namespace LuaProxy.Plugins
open Text Lua LuaPattern Context HookMonad Engine

structure Bucket where
  tokens : ℤ
  last : ℤ
  deriving DecidableEq, Repr

abbrev Buckets := HashMap Bucket

/-- What outlives a run: the `buckets` tables made so far, and what the process will
still read from outside. -/
structure Heap where
  buckets : List Buckets
  clock : ℕ → ℤ
  uuids : ℕ → String
  /-- Whether the next `io.open` of `plugins/lib/jwt.lua` succeeds. -/
  jwtFile : ℕ → Bool

inductive Closure
  | ipFilter
  | rateLimit (buckets : ℕ)
  | auth (secret : Bytes) (jwtLib : Bool)
  | authz
  | transformRequest
  | transformRoute
  | transformResponse
  deriving DecidableEq, Repr

/-- Runs of the shipped plugins. -/
abbrev PluginM (host : Host) := HookM host Closure Heap

section Calls
variable (host : Host)

def osTime : PluginM host ℤ :=
  HookM.onHeap fun heap => (.ok (heap.clock 0), { heap with clock := fun n => heap.clock (n + 1) })

def uuidV4 : PluginM host String :=
  HookM.onHeap fun heap => (.ok (heap.uuids 0), { heap with uuids := fun n => heap.uuids (n + 1) })

def openJwtLib : PluginM host Bool :=
  HookM.onHeap fun heap =>
    (.ok (heap.jwtFile 0), { heap with jwtFile := fun n => heap.jwtFile (n + 1) })

/-- `log.info` and `log.warn` take a Rust string. -/
def log (text : Bytes) : PluginM host Unit := do
  let _ ← HookM.ofExcept (toRustString host (.str text))

def setVar (k : String) (v : Value) : PluginM host Unit := do
  let v ← HookM.ofExcept (toRustString host v)
  HookM.call (.setVar k v)

def reject (status : UInt16) (msg : Bytes) : PluginM host Unit := do
  let msg ← HookM.ofExcept (toRustString host (.str msg))
  HookM.call (.reject status msg)

/-- `ctx.req.headers[k]`, a Lua string or nil. -/
def reqHeader (k : String) : PluginM host (Option Bytes) :=
  HookM.read fun ctx => (ctx.reqHeader host k).map utf8

end Calls

section IpFilter
variable (host : Host)

def blocklist : List Bytes := []

def allowlist : List Bytes := []

def ipMatches (ip : Bytes) (list : List Bytes) : Bool :=
  list.any fun pattern =>
    ip == pattern || (pattern.getLast? == some 42 && pattern.dropLast.isPrefixOf ip)

def ipFilter : PluginM host Value := do
  let ip ← HookM.read fun ctx => utf8 ctx.clientIp
  if blocklist.length > 0 && ipMatches ip blocklist then
    HookM.call (.reject 403 "Forbidden: your IP is blocked")
  else if allowlist.length > 0 && !ipMatches ip allowlist then
    HookM.call (.reject 403 "Forbidden: IP not allowed")
  return .nil

end IpFilter

section RateLimit
variable (host : Host)

def capacity : ℤ := 100

def refillRate : ℤ := 10

def wrap (n : ℤ) : ℤ := n.bmod (2 ^ 64)

/-- `math.ceil(n / d)` of two integers: a float division first. -/
def ceilDiv (n d : ℤ) : ℤ :=
  match Double.ofRat n with
  | .finite x =>
    match Double.ofRat (x / d) with
    | .finite q => ⌈q⌉
    | _ => 0
  | _ => 0

def newBuckets : PluginM host ℕ :=
  HookM.onHeap fun heap => (.ok heap.buckets.length, { heap with buckets := heap.buckets ++ [∅] })

def readBucket (buckets : ℕ) (key : String) : PluginM host (Option Bucket) :=
  HookM.onHeap fun heap => (.ok ((heap.buckets[buckets]?).bind fun t => t.lookup key), heap)

def writeBucket (buckets : ℕ) (key : String) (b : Bucket) : PluginM host Unit :=
  HookM.onHeap fun heap =>
    (.ok (), { heap with buckets := heap.buckets.modify buckets fun t => t.insert key b })

def getBucket (buckets : ℕ) (key : String) : PluginM host Bucket := do
  match ← readBucket host buckets key with
  | some b => return b
  | none =>
    let b := ⟨capacity, ← osTime host⟩
    writeBucket host buckets key b
    return b

def refill (b : Bucket) (now : ℤ) : Bucket :=
  let elapsed := wrap (now - b.last)
  if elapsed > 0 then
    ⟨min capacity (wrap (b.tokens + wrap (elapsed * refillRate))), now⟩
  else b

def rateLimit (buckets : ℕ) : PluginM host Value := do
  let userId ← HookM.read fun ctx => ctx.getVar "user_id"
  let ip ← HookM.read fun ctx => ctx.clientIp
  let key := userId.getD ip
  let now ← osTime host
  let b ← getBucket host buckets key
  let b := refill b now
  writeBucket host buckets key b
  if b.tokens < 1 then
    HookM.call (.setResHeader "retry-after" (toString (ceilDiv (wrap (1 - b.tokens)) refillRate)))
    HookM.call (.reject 429 "Too Many Requests")
    return .nil
  else
    let b := { b with tokens := wrap (b.tokens - 1) }
    writeBucket host buckets key b
    HookM.call (.setResHeader "x-ratelimit-remaining" (toString b.tokens))
    HookM.call (.setResHeader "x-ratelimit-limit" (toString capacity))
    return .nil

end RateLimit

section Auth
variable (host : Host)

/-- `ENV.JWT_SECRET`, or the default. -/
def jwtSecret : Bytes :=
  utf8 ((host.env "JWT_SECRET").getD "my-super-secret-change-in-production")

/-- `API_KEYS`: the role of each key. -/
def apiKeys : List (Bytes × String) :=
  [(utf8 "test-api-key-admin", "admin"), (utf8 "test-api-key-reader", "reader")]

def publicPaths : List String := ["^/health$", "^/metrics$", "^/public/"]

def isPublic (path : Bytes) : Bool := publicPaths.any fun pattern => (luaMatch pattern path).isSome

def apiKeyPattern : String := "^ApiKey%s+(.+)"

/-- `headers["x-api-key"] or headers["authorization"]:match(..)`: indexing nil raises, so a
request with neither header fails here. -/
def presentedKey : PluginM host (Option Bytes) := do
  match ← reqHeader host "x-api-key" with
  | some key => return some key
  | none =>
    match ← reqHeader host "authorization" with
    | some auth => return luaMatch₁ apiKeyPattern auth
    | none => HookM.raise "attempt to index a nil value (field 'authorization')"

def tryApiKey : PluginM host Bool := do
  let key ← presentedKey host
  let authorization ← reqHeader host "authorization"
  let key := key.or (authorization.bind fun auth => luaMatch₁ apiKeyPattern auth)
  match key with
  | none => return false
  | some key =>
    match apiKeys.lookup key with
    | none => return false
    | some role =>
      setVar host "user_id" (.str (utf8 "apikey:" ++ key.take 8))
      setVar host "role" (.str (utf8 role))
      setVar host "auth_method" (.str (utf8 "api_key"))
      log host (utf8 "API Key auth OK, role=" ++ utf8 role)
      return true

def tryJwt (secret : Bytes) (jwtLib : Bool) : PluginM host (Except Bytes Unit) := do
  match ← reqHeader host "authorization" with
  | none => return .error (utf8 "no authorization header")
  | some auth =>
    if (luaMatch "^[Bb]earer%s+" auth).isNone then return .error (utf8 "not bearer token")
    else if !jwtLib then return .error (utf8 "jwt lib unavailable")
    else
      let now ← osTime host
      let now' ← osTime host
      match ← HookM.ofExcept (Jwt.verify host auth secret now now') with
      | .error err => return .error err
      | .ok claims =>
        setVar host "user_id" ((claims.get (utf8 "sub")).or (.str (utf8 "unknown")))
        setVar host "role" ((claims.get (utf8 "role")).or (.str (utf8 "user")))
        setVar host "auth_method" (.str (utf8 "jwt"))
        let sub ← HookM.ofExcept
          (Jwt.concatText host ((claims.get (utf8 "sub")).or (.str (utf8 "?"))))
        let role ← HookM.ofExcept
          (Jwt.concatText host ((claims.get (utf8 "role")).or (.str (utf8 "user"))))
        log host (utf8 "JWT auth OK, sub=" ++ sub ++ utf8 " role=" ++ role)
        return .ok ()

def auth (secret : Bytes) (jwtLib : Bool) : PluginM host Value := do
  let path ← HookM.read fun ctx => utf8 ctx.reqPath
  if isPublic path then
    setVar host "auth_method" (.str (utf8 "public"))
    return .nil
  else if ← tryApiKey host then return .nil
  else
    match ← tryJwt host secret jwtLib with
    | .ok () => return .nil
    | .error err =>
      log host (utf8 "Auth failed: " ++ err ++ utf8 " path=" ++ path)
      HookM.call (.setResHeader "www-authenticate" "Bearer realm=\"proxy\"")
      reject host 401 (utf8 "Unauthorized: " ++ err)
      return .nil

end Auth

section Authz
variable (host : Host)

structure Rule where
  pattern : String
  /-- `nil` allows every role. -/
  roles : Option (List String)
  deriving DecidableEq, Repr

def rules : List Rule :=
  [⟨"^/admin/", some ["admin"]⟩,
    ⟨"^/reload", some ["admin"]⟩,
    ⟨"^/metrics", some ["admin", "ops"]⟩,
    ⟨"^/api/v1/", some ["admin", "user", "reader"]⟩,
    ⟨"^/api/v2/", some ["admin", "user"]⟩,
    ⟨"^/health$", none⟩,
    ⟨"^/public/", none⟩]

def hasRole (userRole : Option String) : Option (List String) → Bool
  | none => true
  | some allowedRoles => allowedRoles.any fun r => some r == userRole

def findRule (path : Bytes) : Option Rule :=
  rules.find? fun rule => (luaMatch rule.pattern path).isSome

def authz : PluginM host Value := do
  let path ← HookM.read fun ctx => utf8 ctx.reqPath
  let userRole ← HookM.read fun ctx => ctx.getVar "role"
  let authMeth ← HookM.read fun ctx => ctx.getVar "auth_method"
  if authMeth = some "public" then return .nil
  else
    match findRule path with
    | none =>
      if userRole.isNone then HookM.call (.reject 403 "Forbidden: authentication required")
      return .nil
    | some rule =>
      if hasRole userRole rule.roles then return .nil
      else
        HookM.call (.reject 403 "Forbidden: insufficient privileges")
        return .nil

end Authz

section Transform
variable (host : Host)

def transformRequest : PluginM host Value := do
  let userId ← HookM.read fun ctx => ctx.getVar "user_id"
  let userRole ← HookM.read fun ctx => ctx.getVar "role"
  match userId with
  | some userId =>
    HookM.call (.setReqHeader "x-user-id" userId)
    HookM.call (.setReqHeader "x-user-role" (userRole.getD "anonymous"))
  | none => pure ()
  HookM.call (.setReqHeader "authorization" "")
  HookM.call (.setReqHeader "x-api-key" "")
  let reqId ← uuidV4 host
  HookM.call (.setReqHeader "x-request-id" reqId)
  HookM.call (.setVar "request_id" reqId)
  return .nil

def transformRoute : PluginM host Value := do
  let path ← HookM.read fun ctx => utf8 ctx.reqPath
  if (luaMatch "^/api/v2/" path).isSome then
    HookM.call (.upstream "api_v2")
    return .str (utf8 "api_v2")
  else
    HookM.call (.upstream "default")
    return .str (utf8 "default")

def transformResponse : PluginM host Value := do
  HookM.call (.setResHeader "x-proxy" "rust-lua-proxy/0.1")
  HookM.call (.setResHeader "x-frame-options" "DENY")
  HookM.call (.setResHeader "x-content-type-options" "nosniff")
  HookM.call (.setResHeader "referrer-policy" "strict-origin-when-cross-origin")
  match ← HookM.read fun ctx => ctx.reqHeader host "origin" with
  | some origin =>
    HookM.call (.setResHeader "access-control-allow-origin" origin)
    HookM.call (.setResHeader "vary" "Origin")
  | none => pure ()
  match ← HookM.read fun ctx => ctx.getVar "request_id" with
  | some reqId => HookM.call (.setResHeader "x-request-id" reqId)
  | none => pure ()
  HookM.call (.setResHeader "server" "proxy")
  return .nil

end Transform

/-- The sources of the five files. -/
inductive Plugin
  | ipFilter
  | rateLimit
  | auth
  | authz
  | transform
  deriving DecidableEq, Repr

/-- Executing a file: its top-level statements up to the hook definitions. -/
def exec (host : Host) (_ : String) : Plugin → PluginM host Unit
  | .ipFilter => HookM.define .onRequest .ipFilter
  | .rateLimit => do
    let buckets ← newBuckets host
    HookM.define .onRequest (.rateLimit buckets)
  | .auth => do
    let jwtLib ← openJwtLib host
    HookM.define .onRequest (.auth (jwtSecret host) jwtLib)
  | .authz => HookM.define .onRequest .authz
  | .transform => do
    HookM.define .onRequest .transformRequest
    HookM.define .onRoute .transformRoute
    HookM.define .onResponse .transformResponse

def callClosure (host : Host) : Closure → PluginM host Value
  | .ipFilter => ipFilter host
  | .rateLimit buckets => rateLimit host buckets
  | .auth secret jwtLib => auth host secret jwtLib
  | .authz => authz host
  | .transformRequest => transformRequest host
  | .transformRoute => transformRoute host
  | .transformResponse => transformResponse host

def shippedLua (host : Host) : Interpreter host Plugin Closure Heap where
  exec := exec host
  call := callClosure host

/-- The pipeline of `proxy.toml` with all sources present. -/
def shippedSources : PluginSources Plugin :=
  PluginSources.load
    ⟨"plugins", ["ip_filter.lua", "rate_limit.lua", "auth.lua", "authz.lua", "transform.lua"]⟩
    ([("ip_filter.lua", Plugin.ipFilter), ("rate_limit.lua", .rateLimit), ("auth.lua", .auth),
      ("authz.lua", .authz), ("transform.lua", .transform)].lookup ·)

end LuaProxy.Plugins
