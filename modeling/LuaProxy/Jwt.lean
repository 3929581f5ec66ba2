import LuaProxy.LuaPattern
import LuaProxy.EngineCodec
import LuaProxy.HookMonad

/-! `plugins/lib/jwt.lua`: tokens signed with HS256. -/
namespace LuaProxy.Jwt
open Text Lua LuaPattern Context EngineCodec HookMonad

/-- `#s` characters make whole groups of four with so many more. -/
def pad (len : ℕ) : ℕ := (4 - len % 4) % 4

def b64urlDecode (host : Host) (s : Bytes) : Except LuaError Bytes := do
  let s := gsub "_" (utf8 "/") (gsub "-" (utf8 "+") s)
  let s ← toRustString host (.str (s ++ List.replicate (pad s.length) 61))
  .ok (utf8 ((base64Decode s).getD ""))

def b64urlEncode (host : Host) (s : Bytes) : Except LuaError Bytes := do
  let s ← toRustString host (.str s)
  .ok (gsub "=+$" [] (gsub "/" (utf8 "_") (gsub "+" (utf8 "-") (base64Encode (utf8 s)))))

/-- One loop of `parse_json_obj`: every match sets the key it captured. -/
def collect (value : Bytes → Value) (ms : List (List Bytes)) (result : Table) : Table :=
  ms.foldl
    (fun result m =>
      match m with
      | [key, val] => result.set key (value val)
      | _ => result) result

def stringPattern : String := "\"([^\"]+)\"%s*:%s*\"([^\"]*)\""

def numberPattern : String := "\"([^\"]+)\"%s*:%s*([%d%.%-]+)"

/-- Lua patterns have no alternation: this one looks for the text `true|false`. -/
def boolPattern : String := "\"([^\"]+)\"%s*:%s*(true|false)"

def parseJsonObj (s : Bytes) : Table :=
  let result := collect .str (gmatch stringPattern s) ∅
  let result := collect numeral (gmatch numberPattern s) result
  collect (fun val => .bool (val == utf8 "true")) (gmatch boolPattern s) result

def hmacSha256B64url (host : Host) (msg secret : Bytes) : Except LuaError Bytes := do
  let msg ← toRustString host (.str msg)
  let secret ← toRustString host (.str secret)
  b64urlEncode host (utf8 (hmacSha256Raw host (utf8 msg) (utf8 secret)))

/-- An operand of `..` -/
def concatText (host : Host) : Value → Except LuaError Bytes
  | .str s => .ok s
  | .num (.int n) => .ok (utf8 (toString n))
  | .num (.float d) => .ok (utf8 (host.fmtFloat d))
  | _ => .error "attempt to concatenate"

def trim (s : Bytes) : Except LuaError Bytes :=
  match luaMatch₁ "^%s*(.-)%s*$" s with
  | some raw => .ok raw
  | none => .error "attempt to index a nil value"

/-- `header_b64 .. "." .. payload_b64` -/
def signingInput (headerB64 payloadB64 : Bytes) : Bytes := headerB64 ++ utf8 "." ++ payloadB64

/-- `expected_sig == sig_b64` -/
def signatureMatches (host : Host) (headerB64 payloadB64 secret sigB64 : Bytes) :
    Except LuaError Bool := do
  let expectedSig ← hmacSha256B64url host (signingInput headerB64 payloadB64) secret
  .ok (expectedSig == sigB64)

def isText (v : Value) (s : Bytes) : Bool :=
  match v with
  | .str t => t == s
  | _ => false

/-- `jwt.verify` as far as the signature check: the payload segment, or the message. -/
def checkSignature (host : Host) (token secret : Bytes) : Except LuaError (Except Bytes Bytes) := do
  let raw := (luaMatch₁ "^[Bb]earer%s+(.+)" token).getD token
  let raw ← trim raw
  match luaMatch "^([^.]+)%.([^.]+)%.([^.]+)$" raw with
  | some [headerB64, payloadB64, sigB64] =>
    let headerJson ← b64urlDecode host headerB64
    let alg := (parseJsonObj headerJson).get (utf8 "alg")
    if isText alg (utf8 "HS256") then
      if ← signatureMatches host headerB64 payloadB64 secret sigB64 then .ok (.ok payloadB64)
      else .ok (.error (utf8 "signature verification failed"))
    else
      let alg ← concatText host (alg.or (.str (utf8 "none")))
      .ok (.error (utf8 "unsupported algorithm: " ++ alg))
  | _ => .ok (.error (utf8 "invalid JWT format"))

/-- `claims.exp` is there and `now > claims.exp`. -/
def expired (claims : Table) (now : ℤ) : Except LuaError Bool :=
  let exp := claims.get (utf8 "exp")
  if exp.truthy then exp.lessThan (.num (.int now)) else .ok false

/-- `claims.nbf` is there and `now < claims.nbf`. -/
def notYetValid (claims : Table) (now : ℤ) : Except LuaError Bool :=
  let nbf := claims.get (utf8 "nbf")
  if nbf.truthy then (Value.num (.int now)).lessThan nbf else .ok false

/-- The rest of `jwt.verify`: the claims, if the clock is inside their window. -/
def checkClaims (host : Host) (payloadB64 : Bytes) (now now' : ℤ) :
    Except LuaError (Except Bytes Table) := do
  let payloadJson ← b64urlDecode host payloadB64
  let claims := parseJsonObj payloadJson
  if ← expired claims now then .ok (.error (utf8 "token expired"))
  else if ← notYetValid claims now' then .ok (.error (utf8 "token not yet valid"))
  else .ok (.ok claims)

/-- `jwt.verify`: the claims, or nil and a message. `now` and `now'` are the two readings
of the clock, made only where the claims have the member. -/
def verify (host : Host) (token secret : Bytes) (now now' : ℤ) :
    Except LuaError (Except Bytes Table) := do
  match ← checkSignature host token secret with
  | .error e => .ok (.error e)
  | .ok payloadB64 => checkClaims host payloadB64 now now'

def header : String := "\x7b\"alg\":\"HS256\",\"typ\":\"JWT\"\x7d"

/-- `jwt.sign` -/
def sign (host : Host) (claims : Value) (secret : Bytes) : Except LuaError Bytes := do
  let headerB64 ← b64urlEncode host (utf8 header)
  let payloadB64 ← b64urlEncode host (utf8 (luaValueToJson host claims))
  let sig ← hmacSha256B64url host (signingInput headerB64 payloadB64) secret
  .ok (signingInput headerB64 payloadB64 ++ utf8 "." ++ sig)

end LuaProxy.Jwt
