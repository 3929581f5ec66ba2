import LuaProxy.HookSteps
import LuaProxy.Plugins

/-! The steps that the hooks of the shipped plugins are put together from: outside
`rate_limit.lua` they touch the heap only to read the clock and to draw request ids. -/
namespace LuaProxy.PluginSteps
open Text Lua LuaPattern Context HookMonad HookSteps Plugins

def readClock (heap : Heap) : Except LuaError ℤ × Heap :=
  (.ok (heap.clock 0), { heap with clock := fun n => heap.clock (n + 1) })

def drawId (heap : Heap) : Except LuaError String × Heap :=
  (.ok (heap.uuids 0), { heap with uuids := fun n => heap.uuids (n + 1) })

def lookBucket (n : ℕ) (key : String) (heap : Heap) : Except LuaError (Option Bucket) × Heap :=
  (.ok ((heap.buckets[n]?).bind fun t => t.lookup key), heap)

def storeBucket (n : ℕ) (key : String) (b : Bucket) (heap : Heap) : Except LuaError Unit × Heap :=
  (.ok (), { heap with buckets := heap.buckets.modify n fun t => t.insert key b })

section Hooks
variable {host : Host} {kind : Kind Heap}

theorem log_built (text : Bytes) : Built kind (log host text) :=
  .bind (.ofExcept _) fun _ => .pure _

theorem setVar_built (k : String) (v : Value) : Built kind (setVar host k v) :=
  .bind (.ofExcept _) fun _ => .call _

theorem reject_built (status : UInt16) (msg : Bytes) : Built kind (reject host status msg) :=
  .bind (.ofExcept _) fun _ => .call _

theorem reqHeader_built (k : String) : Built kind (reqHeader host k) := .read _

theorem osTime_built (h : kind ℤ readClock) : Built kind (osTime host) := .onHeap h

theorem ipFilter_built : Built kind (ipFilter host) := by
  refine .bind (.read _) fun ip => .ite ?_ (.ite ?_ (.pure _))
  · exact .bind (.call _) fun _ => .pure _
  · exact .bind (.call _) fun _ => .pure _

theorem presentedKey_built : Built kind (presentedKey host) := by
  refine .bind (reqHeader_built _) fun key => ?_
  cases key with
  | some key => exact .pure _
  | none =>
    refine .bind (reqHeader_built _) fun auth => ?_
    cases auth with
    | some auth => exact .pure _
    | none => exact .raise _

theorem tryApiKey_built : Built kind (tryApiKey host) := by
  refine .bind presentedKey_built fun key => .bind (reqHeader_built _) fun auth => ?_
  generalize key.or (auth.bind fun auth => luaMatch₁ apiKeyPattern auth) = key'
  cases key' with
  | none => exact .pure _
  | some key =>
    dsimp only
    cases apiKeys.lookup key with
    | none => exact .pure _
    | some role =>
      refine .bind (setVar_built _ _) fun _ => .bind (setVar_built _ _) fun _ => ?_
      refine .bind (setVar_built _ _) fun _ => .bind (log_built _) fun _ => ?_
      exact .pure _

theorem tryJwt_built (h : kind ℤ readClock) (secret : Bytes) (jwtLib : Bool) :
    Built kind (tryJwt host secret jwtLib) := by
  refine .bind (reqHeader_built _) fun auth => ?_
  cases auth with
  | none => exact .pure _
  | some auth =>
    refine .ite (.pure _) (.ite (.pure _) ?_)
    refine .bind (osTime_built h) fun now => .bind (osTime_built h) fun now' => ?_
    refine .bind (.ofExcept _) fun r => ?_
    cases r with
    | error err => exact .pure _
    | ok claims =>
      refine .bind (setVar_built _ _) fun _ => .bind (setVar_built _ _) fun _ => ?_
      refine .bind (setVar_built _ _) fun _ => .bind (.ofExcept _) fun sub => ?_
      refine .bind (.ofExcept _) fun role => .bind (log_built _) fun _ => ?_
      exact .pure _

theorem auth_built (h : kind ℤ readClock) (secret : Bytes) (jwtLib : Bool) :
    Built kind (auth host secret jwtLib) := by
  refine .bind (.read _) fun path => .ite ?_ ?_
  · exact .bind (setVar_built _ _) fun _ => .pure _
  refine .bind tryApiKey_built fun found => ?_
  refine .ite (.pure _) (.bind (tryJwt_built h secret jwtLib) fun r => ?_)
  cases r with
  | ok u => exact .pure _
  | error err =>
    refine .bind (log_built _) fun _ => .bind (.call _) fun _ => ?_
    exact .bind (reject_built _ _) fun _ => .pure _

theorem authz_built : Built kind (authz host) := by
  refine .bind (.read _) fun path => .bind (.read _) fun role => ?_
  refine .bind (.read _) fun method => .ite (.pure _) ?_
  cases findRule path with
  | none =>
    refine .ite ?_ (.pure _)
    exact .bind (.call _) fun _ => .pure _
  | some rule =>
    refine .ite (.pure _) ?_
    exact .bind (.call _) fun _ => .pure _

theorem transformRequest_built (h : kind String drawId) : Built kind (transformRequest host) := by
  refine .bind (.read _) fun userId => .bind (.read _) fun userRole => ?_
  have hrest : Built kind (do
      HookM.call (.setReqHeader "authorization" "")
      HookM.call (.setReqHeader "x-api-key" "")
      let reqId ← uuidV4 host
      HookM.call (.setReqHeader "x-request-id" reqId)
      HookM.call (.setVar "request_id" reqId)
      return Value.nil : PluginM host Value) := by
    refine .bind (.call _) fun _ => .bind (.call _) fun _ => .bind (.onHeap h) fun reqId => ?_
    exact .bind (.call _) fun _ => .bind (.call _) fun _ => .pure _
  cases userId with
  | none => exact hrest
  | some userId => exact .bind (.call _) fun _ => .bind (.call _) fun _ => hrest

theorem getBucket_built (hclock : kind ℤ readClock) {n : ℕ} {key : String}
    (hlook : kind _ (lookBucket n key)) (hstore : ∀ b, kind _ (storeBucket n key b)) :
    Built kind (getBucket host n key) := by
  refine .bind (.onHeap hlook) fun b => ?_
  cases b with
  | some b => exact .pure _
  | none =>
    refine .bind (osTime_built hclock) fun now => ?_
    exact .bind (.onHeap (hstore _)) fun _ => .pure _

theorem rateLimit_built (hclock : kind ℤ readClock) {n : ℕ} (hlook : ∀ key, kind _ (lookBucket n key))
    (hstore : ∀ key b, kind _ (storeBucket n key b)) : Built kind (rateLimit host n) := by
  refine .bind (.read _) fun userId => .bind (.read _) fun ip => ?_
  refine .bind (osTime_built hclock) fun now => ?_
  refine .bind (getBucket_built hclock (hlook _) (hstore _)) fun b => ?_
  refine .bind (.onHeap (hstore _ _)) fun _ => .ite ?_ ?_
  · exact .bind (.call _) fun _ => .bind (.call _) fun _ => .pure _
  · refine .bind (.onHeap (hstore _ _)) fun _ => .bind (.call _) fun _ => ?_
    exact .bind (.call _) fun _ => .pure _

theorem transformRoute_built : Built kind (transformRoute host) := by
  refine .bind (.read _) fun path => .ite ?_ ?_
  · exact .bind (.call _) fun _ => .pure _
  · exact .bind (.call _) fun _ => .pure _

theorem transformResponse_built : Built kind (transformResponse host) := by
  refine .bind (.call _) fun _ => .bind (.call _) fun _ => .bind (.call _) fun _ => ?_
  refine .bind (.call _) fun _ => .bind (.read _) fun origin => ?_
  cases origin with
  | none =>
    refine .bind (.read _) fun reqId => ?_
    cases reqId with
    | none => exact .bind (.call _) fun _ => .pure _
    | some reqId => exact .bind (.call _) fun _ => .bind (.call _) fun _ => .pure _
  | some origin =>
    refine .bind (.call _) fun _ => .bind (.call _) fun _ => .bind (.read _) fun reqId => ?_
    cases reqId with
    | none => exact .bind (.call _) fun _ => .pure _
    | some reqId => exact .bind (.call _) fun _ => .bind (.call _) fun _ => .pure _

theorem call_built (hclock : kind ℤ readClock) (hid : kind String drawId)
    (hlook : ∀ n key, kind _ (lookBucket n key)) (hstore : ∀ n key b, kind _ (storeBucket n key b))
    (fn : Closure) : Built kind (callClosure host fn) := by
  cases fn with
  | ipFilter => exact ipFilter_built
  | rateLimit n => exact rateLimit_built hclock (hlook n) (hstore n)
  | auth secret jwtLib => exact auth_built hclock secret jwtLib
  | authz => exact authz_built
  | transformRequest => exact transformRequest_built hid
  | transformRoute => exact transformRoute_built
  | transformResponse => exact transformResponse_built

end Hooks

end LuaProxy.PluginSteps
