import Mathlib.Data.List.AList
import LuaProxy.LuaValue

/-! The request context plugins share (`lua/context.rs`) and the methods of `ctx`. -/
namespace LuaProxy.Context
open Text Lua

/-- What the process and its libraries supply: the environment, the word size, and
library functions whose results the proxy only passes on. -/
structure Host where
  env : String → Option String
  usizeBits : ℕ
  toLowercase : String → String
  fromUtf8Lossy : Bytes → String
  fromUtf8Lossy_utf8 : ∀ s, fromUtf8Lossy (utf8 s) = s
  -- the text of a float, Lua's `%.14g` and Rust's `Display`
  fmtFloat : Double → String
  displayFloat : Double → String
  -- `Hmac<Sha256>` of a key and a message, and `DefaultHasher` of a string
  hmacSha256 : Bytes → Bytes → Vector UInt8 32
  hashKey : String → UInt64

/-- A 64-bit host with ASCII lower case, an empty environment and constant codecs. -/
def Host.plain : Host where
  env _ := none
  usizeBits := 64
  toLowercase := String.toLower
  fromUtf8Lossy b := (fromUtf8 b).getD "\uFFFD"
  fromUtf8Lossy_utf8 s := by simp
  fmtFloat _ := "0.0"
  displayFloat _ := "0"
  hmacSha256 _ _ := Vector.replicate 32 0
  hashKey _ := 0

/-- A `HashMap<String, _>`: entries without duplicate keys, in some iteration order. -/
abbrev HashMap (α : Type) := AList fun _ : String => α

structure RequestCtx where
  reqMethod : String
  reqPath : String
  reqHeaders : HashMap String
  reqBody : String
  clientIp : String
  resStatus : UInt16
  resHeaders : HashMap String
  resBody : String
  vars : HashMap String
  rejected : Option (UInt16 × String)
  deriving DecidableEq

namespace RequestCtx

def new (method path : String) (headers : HashMap String) (body clientIp : String) :
    RequestCtx where
  reqMethod := method
  reqPath := path
  reqHeaders := headers
  reqBody := body
  clientIp := clientIp
  resStatus := 200
  resHeaders := ∅
  resBody := ""
  vars := ∅
  rejected := none

def isRejected (ctx : RequestCtx) : Bool := ctx.rejected.isSome

/-- The `headers` table of `ctx.req` and `ctx.res`: every entry set under its
lower-case name, in iteration order. -/
def headersTable (host : Host) (headers : HashMap String) : HashMap String :=
  headers.entries.foldl (fun t e => t.insert (host.toLowercase e.1) e.2) ∅

/-- `ctx.req.headers[k]` -/
def reqHeader (host : Host) (ctx : RequestCtx) (k : String) : Option String :=
  (headersTable host ctx.reqHeaders).lookup k

def getVar (ctx : RequestCtx) (k : String) : Option String := ctx.vars.lookup k

def getReqHeader (host : Host) (ctx : RequestCtx) (k : String) : Option String :=
  ctx.reqHeaders.lookup (host.toLowercase k)

end RequestCtx

/-- The `ctx` methods that write. -/
inductive CtxCall
  | reject (status : UInt16) (msg : String)
  | setVar (k v : String)
  | setReqHeader (k v : String)
  | setResHeader (k v : String)
  | setResStatus (status : UInt16)
  | upstream (name : String)
  deriving DecidableEq, Repr

namespace CtxCall

def isReject : CtxCall → Bool
  | .reject _ _ => true
  | _ => false

def run (host : Host) (ctx : RequestCtx) : CtxCall → RequestCtx
  | .reject status msg => { ctx with rejected := some (status, msg) }
  | .setVar k v => { ctx with vars := ctx.vars.insert k v }
  | .setReqHeader k v => { ctx with reqHeaders := ctx.reqHeaders.insert (host.toLowercase k) v }
  | .setResHeader k v => { ctx with resHeaders := ctx.resHeaders.insert (host.toLowercase k) v }
  | .setResStatus status => { ctx with resStatus := status }
  | .upstream name => { ctx with vars := ctx.vars.insert "__upstream__" name }

def runAll (host : Host) (ctx : RequestCtx) (calls : List CtxCall) : RequestCtx :=
  calls.foldl (run host) ctx

variable (host : Host) (ctx : RequestCtx)

@[simp] theorem runAll_nil : runAll host ctx [] = ctx := rfl

@[simp] theorem runAll_cons (c : CtxCall) (cs : List CtxCall) :
    runAll host ctx (c :: cs) = runAll host (run host ctx c) cs := rfl

theorem runAll_append (as bs : List CtxCall) :
    runAll host ctx (as ++ bs) = runAll host (runAll host ctx as) bs := by
  simp [runAll, List.foldl_append]

theorem run_rejected (c : CtxCall) :
    (run host ctx c).rejected.isSome = (ctx.rejected.isSome || c.isReject) := by
  cases c <;> simp [run, isReject]

theorem runAll_rejected (calls : List CtxCall) :
    (runAll host ctx calls).isRejected = (ctx.isRejected || calls.any isReject) := by
  induction calls generalizing ctx with
  | nil => simp
  | cons c cs ih =>
    have hc := run_rejected host ctx c
    simp only [RequestCtx.isRejected] at ih ⊢
    rw [runAll_cons, ih, hc, List.any_cons, Bool.or_assoc]

end CtxCall

end LuaProxy.Context
